import Pintos.Assembly
import Pintos.Segments

/-!
`threads/switch.S` and the part of `threads/thread.c` that prepares stacks for it. A
thread's page starts with its `struct thread`, whose member `stack` says where the
thread's stack ended when it was switched out; the stack is the rest of the page.

`Step` takes the kernel from one switch to the next. Code written in C is not followed
in detail: a step of it is any change of the processor and of memory that leaves alone
what the threads that do not run have saved.
-/
namespace Pintos.Switching
open Pintos.Machines Pintos.Assembly
open Pintos.UserMemory (PGSIZE PGMASK)
open Pintos.Segments (and_not_pgmask)

def pg_round_down (va : Addr) : Addr := va &&& ~~~PGMASK
/-- The thread whose page the stack pointer points into. -/
def running_thread (c : Cpu) : Addr := pg_round_down (c.reg .esp)

/-- What the linker decides. -/
structure Symbols where
  /-- The address of the variable `thread_stack_ofs`. -/
  thread_stack_ofs : Addr
  switch_threads : Addr
  switch_entry : Addr
  /-- Where `switch_entry` is when `thread_schedule_tail` has returned. -/
  switch_entry_tail : Addr
  thread_schedule_tail : Addr
  kernel_thread : Addr

/-- `offsetof (struct thread, stack)`. -/
def STACK_OFS : Word := 24
def SWITCH_CUR : Word := 20
def SWITCH_NEXT : Word := 24

/-- `switch_threads` up to its `ret`. -/
def switch_threads (s : Symbols) : List Instr :=
  [.pushl (.reg .ebx),.pushl (.reg .ebp),.pushl (.reg .esi),.pushl (.reg .edi),
    .movl (.at ⟨s.thread_stack_ofs,none,none⟩) .edx,
    .movl (.at (off SWITCH_CUR .esp)) .eax,
    .movl_to .esp ⟨0,some .eax,some .edx⟩,
    .movl (.at (off SWITCH_NEXT .esp)) .ecx,
    .movl (.at ⟨0,some .ecx,some .edx⟩) .esp,
    .popl .edi,.popl .esi,.popl .ebp,.popl .ebx]

/-- `switch_entry` before and after its call of `thread_schedule_tail`. -/
def switch_entry : List Instr := [.addl 8 .esp,.pushl (.reg .eax)]
def switch_entry_tail : List Instr := [.addl 4 .esp]

def enter (s : Symbols) (c : Cpu) : Cpu := (c.run switch_entry).call s.thread_schedule_tail s.switch_entry_tail
def leave (c : Cpu) : Cpu := (c.run switch_entry_tail).ret

/-! ### Stacks of new threads -/

def alloc_frame (m : Mem) (t : Addr) (size : Word) : Addr × Mem :=
  (load m (t + STACK_OFS) - size,store m (t + STACK_OFS) (load m (t + STACK_OFS) - size))

/-- The page from `t` on, with each byte replaced. -/
def fill (m : Mem) (t : Addr) (b : BitVec 8) : Mem := fun a => if (a - t).toNat < PGSIZE then b else m a

/-- What `thread_create` writes to the page from `palloc_get_page` that `switch_threads`
    and `switch_entry` will read. -/
def thread_create (s : Symbols) (m : Mem) (t function aux : Addr) : Mem :=
  let m := fill m t 0
  let m := store m (t + STACK_OFS) (t + .ofNat 32 PGSIZE)
  let (kf,m) := alloc_frame m t 12
  let m := store (store (store m kf 0) (kf + 4) function) (kf + 8) aux
  let (ef,m) := alloc_frame m t 4
  let m := store m ef s.kernel_thread
  let (sf,m) := alloc_frame m t 28
  store (store m (sf + 16) s.switch_entry) (sf + 8) 0

/-! ### Runs -/

structure Kernel where
  cpu : Cpu
  running : Addr
  /-- The other threads that have a page. -/
  others : List Addr

inductive Event
  | work (cpu : Cpu)
  | create (t function aux : Addr)
  | switch (next : Addr)
  | free (t : Addr)

/-- Where the stack of a thread ended when it was switched out. -/
def stack (m : Mem) (t : Addr) : Addr := load m (t + STACK_OFS)

/-- The saved stack of `t`, and the member that points at it, are the same. -/
structure Kept (t : Addr) (m m' : Mem) : Prop where
  member : ∀ i < 4, m' (t + STACK_OFS + .ofNat 32 i) = m (t + STACK_OFS + .ofNat 32 i)
  saved : ∀ a, (stack m t).toNat ≤ a.toNat → a.toNat < t.toNat + PGSIZE → m' a = m a

/-- The frame of `switch_threads` fits between the `struct thread` and the end of the
    page; the test is the bound that `magic` guards. -/
structure Fits (t esp : Addr) : Prop where
  low : t.toNat + 28 + 16 ≤ esp.toNat
  high : esp.toNat + 12 ≤ t.toNat + PGSIZE

def Page (t : Addr) : Prop := t.toNat % PGSIZE = 0 ∧ t.toNat + PGSIZE < 2 ^ 32
/-- The variable `thread_stack_ofs` is in no thread's page. -/
def Outside (s : Symbols) (t : Addr) : Prop :=
  s.thread_stack_ofs.toNat + 4 ≤ t.toNat ∨ t.toNat + PGSIZE ≤ s.thread_stack_ofs.toNat

instance (t : Addr) : Decidable (Page t) := inferInstanceAs (Decidable (_ ∧ _))
instance (s : Symbols) (t : Addr) : Decidable (Outside s t) := inferInstanceAs (Decidable (_ ∨ _))

inductive Step (s : Symbols) : Kernel → Event → Kernel → Prop
  | work {k : Kernel} {c : Cpu} (kept : ∀ t ∈ k.others, Kept t k.cpu.mem c.mem)
      (offset : load c.mem s.thread_stack_ofs = STACK_OFS) : Step s k (.work c) { k with cpu := c }
  | create {k : Kernel} {t function aux : Addr} (fresh : t ≠ k.running ∧ t ∉ k.others) (page : Page t) (outside : Outside s t) :
      Step s k (.create t function aux)
        { k with cpu := { k.cpu with mem := thread_create s k.cpu.mem t function aux }, others := t :: k.others }
  | switch {k : Kernel} {next ret : Addr} (known : next ∈ k.others) (at_entry : k.cpu.eip = s.switch_threads)
      (arguments : Stack k.cpu [ret,k.running,next]) (fits : Fits k.running (k.cpu.reg .esp)) :
      Step s k (.switch next) ⟨(k.cpu.run (switch_threads s)).ret,next,k.running :: k.others.erase next⟩
  | free {k : Kernel} {t : Addr} (known : t ∈ k.others) :
      Step s k (.free t)
        { k with cpu := { k.cpu with mem := fill k.cpu.mem t 0xcc }, others := k.others.erase t }

/-- The kernel starts in the one thread that the loader made. -/
def machine (s : Symbols) : Machine Kernel Event where
  Initial k := k.others = [] ∧ Page k.running ∧ Outside s k.running ∧
    s.thread_stack_ofs.toNat + 4 ≤ 2 ^ 32 ∧ load k.cpu.mem s.thread_stack_ofs = STACK_OFS
  Step := Step s

/-! ### Pages -/

variable {s : Symbols} {m m' m'' : Mem} {t u cur next a b : Addr} {w : Word} {ws : List Word} {c : Cpu}

/-- The bytes of the page of `t` are the same. -/
def Same (t : Addr) (m m' : Mem) : Prop := ∀ a : Addr, t.toNat ≤ a.toNat → a.toNat < t.toNat + PGSIZE → m' a = m a

/-- A word of the page of `t`. -/
def Within (t a : Addr) : Prop := t.toNat ≤ a.toNat ∧ a.toNat + 4 ≤ t.toNat + PGSIZE

theorem same_trans (first : Same t m m') (later : Same t m' m'') : Same t m m'' :=
  fun a low high => (later a low high).trans (first a low high)

theorem pages_apart (page : Page t) (other : Page u) (apart : t ≠ u) :
    t.toNat + PGSIZE ≤ u.toNat ∨ u.toNat + PGSIZE ≤ t.toNat := by
  have different : t.toNat ≠ u.toNat := fun same => apart (BitVec.eq_of_toNat_eq same)
  unfold Page PGSIZE at *
  omega

theorem member_within (page : Page t) : Within t (t + STACK_OFS) := by
  unfold Page PGSIZE at page
  unfold Within PGSIZE STACK_OFS
  bv_omega

theorem same_store (page : Page t) (other : Page u) (apart : t ≠ u) (within : Within u b) : Same t m (store m b w) := by
  intro a low high
  refine store_byte ?_
  have separate := pages_apart page other apart
  unfold Within at within
  unfold Page PGSIZE at *
  bv_omega

theorem same_fill {v : BitVec 8} (page : Page t) (other : Page u) (apart : t ≠ u) : Same t m (fill m u v) := by
  intro a low high
  have separate := pages_apart page other apart
  refine if_neg (Nat.not_lt.mpr ?_)
  unfold Page PGSIZE at *
  bv_omega

theorem words_same (same : Same t m m') (low : t.toNat ≤ a.toNat) (high : a.toNat + 4 * ws.length ≤ t.toNat + PGSIZE)
    (bound : t.toNat + PGSIZE < 2 ^ 32) (words : Words m a ws) : Words m' a ws := by
  refine words_congr (fun i below => ?_) words
  have offset : (a + BitVec.ofNat 32 i).toNat = a.toNat + i := by bv_omega
  refine same _ ?_ ?_
  · omega
  · omega

theorem load_same (page : Page t) (same : Same t m m') (within : Within t a) : load m' a = load m a :=
  (show Words m' a [load m a] from words_same same within.1 within.2 page.2 ⟨rfl,trivial⟩).1

theorem stack_same (page : Page t) (same : Same t m m') : stack m' t = stack m t :=
  load_same page same (member_within page)

/-- The variable of `switch.S` is not written with a page. -/
theorem offset_store (outside : Outside s u) (bound : s.thread_stack_ofs.toNat + 4 ≤ 2 ^ 32) (page : Page u) (within : Within u b) :
    load (store m b w) s.thread_stack_ofs = load m s.thread_stack_ofs := by
  refine load_store_clear ?_
  unfold Outside at outside
  unfold Within at within
  unfold Page PGSIZE at *
  unfold Clear
  bv_omega

/-! ### One switch -/

/-- The registers as `switch_threads` pushes them. -/
def pushed (c : Cpu) : Cpu :=
  (((c.push (c.reg .ebx)).push (c.reg .ebp)).push (c.reg .esi)).push (c.reg .edi)

theorem pushed_esp : (pushed c).reg .esp = c.reg .esp - 16 := by
  simp only [pushed,push_esp]
  bv_omega

theorem pushed_stack (stack : Stack c ws) (room : 4 * (ws.length + 4) ≤ 2 ^ 32) :
    Stack (pushed c) (c.reg .edi :: c.reg .esi :: c.reg .ebp :: c.reg .ebx :: ws) := by
  refine stack_push (stack_push (stack_push (stack_push stack (by omega)) ?_) ?_) ?_
  all_goals simp only [List.length_cons]; omega

/-- What the four pushes write is in the page of the running thread. -/
theorem pushes_within (fits : Fits cur (c.reg .esp)) {k : Word} (small : 4 ≤ k.toNat ∧ k.toNat ≤ 16) :
    Within cur (c.reg .esp - k) := by
  have low := fits.low
  have high := fits.high
  unfold Within
  unfold PGSIZE at *
  bv_omega

theorem pushed_mem : (pushed c).mem = store (store (store (store c.mem (c.reg .esp - 4) (c.reg .ebx)) (c.reg .esp - 8) (c.reg .ebp))
    (c.reg .esp - 12) (c.reg .esi)) (c.reg .esp - 16) (c.reg .edi) := by
  simp only [pushed,push_mem,push_esp]
  rw [show c.reg .esp - 4 - 4 = c.reg .esp - 8 by bv_omega,show c.reg .esp - 8 - 4 = c.reg .esp - 12 by bv_omega,
    show c.reg .esp - 12 - 4 = c.reg .esp - 16 by bv_omega]

/-- The words that were on the stack stay there. -/
theorem pushed_above (above : (c.reg .esp).toNat ≤ a.toNat) (room : 16 ≤ (c.reg .esp).toNat) : (pushed c).mem a = c.mem a := by
  rw [pushed_mem,store_byte (by bv_omega),store_byte (by bv_omega),store_byte (by bv_omega),store_byte (by bv_omega)]

theorem pushed_same (page : Page t) (other : Page cur) (apart : t ≠ cur) (fits : Fits cur (c.reg .esp)) :
    Same t c.mem (pushed c).mem := by
  have step {m : Mem} {k w : Word} (small : 4 ≤ k.toNat ∧ k.toNat ≤ 16) : Same t m (store m (c.reg .esp - k) w) :=
    same_store page other apart (pushes_within fits small)
  rw [pushed_mem]
  exact same_trans (same_trans (same_trans (step (by decide)) (step (by decide))) (step (by decide))) (step (by decide))

theorem pushed_offset (outside : Outside s cur) (bound : s.thread_stack_ofs.toNat + 4 ≤ 2 ^ 32) (page : Page cur)
    (fits : Fits cur (c.reg .esp)) : load (pushed c).mem s.thread_stack_ofs = load c.mem s.thread_stack_ofs := by
  have step {m : Mem} {k w : Word} (small : 4 ≤ k.toNat ∧ k.toNat ≤ 16) :=
    offset_store (m := m) (w := w) outside bound page (pushes_within fits small)
  rw [pushed_mem,step (by decide),step (by decide),step (by decide),step (by decide)]

/-- Popping the registers and returning, from a frame of `switch_threads`. -/
theorem restored {edi esi ebp ebx eip : Word} {d : Cpu} (frame : Stack c [edi,esi,ebp,ebx,eip])
    (popped : d = (((((c.pop .edi).pop .esi).pop .ebp).pop .ebx)).ret) :
    d.eip = eip ∧ d.reg .edi = edi ∧ d.reg .esi = esi ∧ d.reg .ebp = ebp ∧ d.reg .ebx = ebx ∧
      d.reg .esp = c.reg .esp + 20 ∧ d.reg .eax = c.reg .eax ∧ d.mem = c.mem := by
  have second := stack_pop (r := .edi) (by decide) frame
  have third := stack_pop (r := .esi) (by decide) second
  have fourth := stack_pop (r := .ebp) (by decide) third
  have last := stack_pop (r := .ebx) (by decide) fourth
  subst popped
  refine ⟨last.1,?_,?_,?_,?_,?_,rfl,rfl⟩
  · exact frame.1
  · exact second.1
  · exact third.1
  · exact fourth.1
  · change c.reg .esp + 4 + 4 + 4 + 4 + 4 = _
    bv_omega

/-- The frame that `cur` leaves on its stack when it is switched out. -/
theorem saved_frame {ret : Word} (page : Page cur) (arguments : Stack c [ret,cur,next]) (fits : Fits cur (c.reg .esp)) :
    Words (store (pushed c).mem (cur + STACK_OFS) w) (c.reg .esp - 16)
      [c.reg .edi,c.reg .esi,c.reg .ebp,c.reg .ebx,ret,cur,next] := by
  have before : Words (pushed c).mem (c.reg .esp - 16) [c.reg .edi,c.reg .esi,c.reg .ebp,c.reg .ebx,ret,cur,next] :=
    pushed_esp (c := c) ▸ pushed_stack arguments (by simp)
  refine words_store ?_ before
  have below := fits.low
  have above := fits.high
  unfold Page PGSIZE at *
  have place : (cur + STACK_OFS).toNat = cur.toNat + 24 := by
    unfold STACK_OFS
    bv_omega
  have base : (c.reg .esp - 16).toNat = (c.reg .esp).toNat - 16 := by bv_omega
  exact beyond_of_nat (by omega) (by simp only [List.length_cons,List.length_nil]; omega)
    (by simp only [List.length_cons,List.length_nil]; omega)

/-- What `switch_threads` does, called with `cur` and `next` by `cur`, where the stack of
    `next` ends with a frame of its own. -/
theorem switch_spec {ret sp edi esi ebp ebx eip : Word} (offset : load c.mem s.thread_stack_ofs = STACK_OFS)
    (bound : s.thread_stack_ofs.toNat + 4 ≤ 2 ^ 32) (outside : Outside s cur) (page : Page cur) (other : Page next)
    (apart : next ≠ cur) (arguments : Stack c [ret,cur,next]) (fits : Fits cur (c.reg .esp)) (saved : stack c.mem next = sp)
    (low : next.toNat ≤ sp.toNat) (high : sp.toNat + 20 ≤ next.toNat + PGSIZE)
    (frame : Words c.mem sp [edi,esi,ebp,ebx,eip]) {d : Cpu} (run : d = (c.run (switch_threads s)).ret) :
    d.eip = eip ∧ d.reg .edi = edi ∧ d.reg .esi = esi ∧ d.reg .ebp = ebp ∧ d.reg .ebx = ebx ∧
      d.reg .esp = sp + 20 ∧ d.reg .eax = cur ∧
      d.mem = store (pushed c).mem (cur + STACK_OFS) (c.reg .esp - 16) := by
  let c₁ := pushed c
  have stack₁ := pushed_stack arguments (by simp)
  let c₂ := c₁.set .edx STACK_OFS
  have edx : c₁.exec (.movl (.at ⟨s.thread_stack_ofs,none,none⟩) .edx) = c₂ := by
    have value : c₁.value (.at ⟨s.thread_stack_ofs,none,none⟩) = STACK_OFS := by
      change load c₁.mem (s.thread_stack_ofs + 0 + 0) = STACK_OFS
      rw [show s.thread_stack_ofs + 0 + 0 = s.thread_stack_ofs by bv_omega,← offset]
      exact pushed_offset outside bound page fits
    exact congrArg (c₁.set .edx) value
  let c₃ := c₂.set .eax cur
  have eax : c₂.exec (.movl (.at (off SWITCH_CUR .esp)) .eax) = c₃ :=
    congrArg (c₂.set .eax) (stack_get (i := 5) (stack_set (by decide) stack₁) rfl)
  let c₄ : Cpu := { c₃ with mem := store c₁.mem (cur + STACK_OFS) (c.reg .esp - 16) }
  have member : c₃.exec (.movl_to .esp ⟨0,some .eax,some .edx⟩) = c₄ := by
    have place : c₃.address ⟨0,some .eax,some .edx⟩ = cur + STACK_OFS := by
      change 0 + cur + STACK_OFS = cur + STACK_OFS
      bv_omega
    have esp : c₃.reg .esp = c.reg .esp - 16 := pushed_esp
    change { c₃ with mem := store c₁.mem (c₃.address ⟨0,some .eax,some .edx⟩) (c₃.reg .esp) } = c₄
    rw [place,esp]
  have stack₄ : Stack c₄ [c.reg .edi,c.reg .esi,c.reg .ebp,c.reg .ebx,ret,cur,next] := by
    have esp : c₄.reg .esp = c.reg .esp - 16 := pushed_esp
    unfold Stack
    rw [esp]
    exact saved_frame page arguments fits
  let c₅ := c₄.set .ecx next
  have ecx : c₄.exec (.movl (.at (off SWITCH_NEXT .esp)) .ecx) = c₅ :=
    congrArg (c₄.set .ecx) (stack_get (i := 6) stack₄ rfl)
  have same : Same next c.mem c₄.mem :=
    same_trans (pushed_same other page apart fits) (same_store other page apart (member_within page))
  let c₆ := c₅.set .esp sp
  have esp : c₅.exec (.movl (.at ⟨0,some .ecx,some .edx⟩) .esp) = c₆ := by
    have value : c₅.value (.at ⟨0,some .ecx,some .edx⟩) = sp := by
      change load c₄.mem (0 + next + STACK_OFS) = sp
      rw [show 0 + next + STACK_OFS = next + STACK_OFS by bv_omega,← saved]
      exact stack_same other same
    exact congrArg (c₅.set .esp) value
  have frame₆ : Stack c₆ [edi,esi,ebp,ebx,eip] := words_same same low high other.2 frame
  have whole : c.run (switch_threads s) = (((c₆.pop .edi).pop .esi).pop .ebp).pop .ebx := by
    rw [← esp,← ecx,← member,← eax,← edx]
    rfl
  rw [whole] at run
  exact restored frame₆ run

/-! ### New threads -/

theorem clear_at {i j : Word} (apart : 4 ≤ (i - j).toNat ∧ 4 ≤ (j - i).toNat) : Clear (t + i) (t + j) := by
  unfold Clear
  rw [show t + i - (t + j) = i - j by bv_omega,show t + j - (t + i) = j - i by bv_omega]
  exact apart

theorem load_fill {i : Word} (inside : i.toNat + 4 ≤ PGSIZE) : load (fill m t 0#8) (t + i) = 0#32 := by
  have zero (j : Word) (small : j.toNat < 4) : fill m t 0#8 (t + i + j) = 0#8 := by
    refine if_pos ?_
    unfold PGSIZE at *
    bv_omega
  have first := zero 0 (by decide)
  rw [show t + i + 0 = t + i from BitVec.add_zero _] at first
  unfold load
  rw [zero 3 (by decide),zero 2 (by decide),zero 1 (by decide),first]
  rfl

/-- The stores of `thread_create`, with their addresses. -/
theorem thread_create_eq (s : Symbols) (m : Mem) (t function aux : Addr) :
    thread_create s m t function aux =
      store (store (store (store (store (store (store (store (store (store (fill m t 0)
        (t + 24) (t + 4096)) (t + 24) (t + 4084)) (t + 4084) 0) (t + 4088) function) (t + 4092) aux)
        (t + 24) (t + 4080)) (t + 4080) s.kernel_thread) (t + 24) (t + 4052)) (t + 4068) s.switch_entry)
        (t + 4060) 0 := by
  simp (disch := (refine clear_at ?_; decide)) only [thread_create,alloc_frame,STACK_OFS,PGSIZE,BitVec.ofNat_eq_ofNat,
    BitVec.sub_eq_add_neg,BitVec.reduceNeg,BitVec.add_assoc,BitVec.reduceAdd,load_store_clear,load_store_self]

/-- The frames of `switch_threads`, `switch_entry` and `kernel_thread`. -/
theorem created_frames (s : Symbols) (m : Mem) (t function aux : Addr) :
    stack (thread_create s m t function aux) t = t + 4052 ∧
      Words (thread_create s m t function aux) (t + 4052)
        [0,0,0,0,s.switch_entry,0,0,s.kernel_thread,0,function,aux] := by
  rw [thread_create_eq]
  unfold stack STACK_OFS
  simp (disch := first | (refine clear_at ?_; decide) | decide) only [Words,BitVec.ofNat_eq_ofNat,BitVec.add_assoc,BitVec.reduceAdd,
    load_store_clear,load_store_self,load_fill,and_self]

/-! ### What holds between the steps -/

/-- The saved stack of `t` holds a frame of `switch_threads`. -/
structure Saved (m : Mem) (t : Addr) : Prop where
  low : t.toNat + 28 ≤ (stack m t).toNat
  high : (stack m t).toNat + 28 ≤ t.toNat + PGSIZE

structure Inv (s : Symbols) (k : Kernel) : Prop where
  distinct : (k.running :: k.others).Nodup
  page : ∀ t ∈ k.running :: k.others, Page t
  outside : ∀ t ∈ k.running :: k.others, Outside s t
  bound : s.thread_stack_ofs.toNat + 4 ≤ 2 ^ 32
  offset : load k.cpu.mem s.thread_stack_ofs = STACK_OFS
  saved : ∀ t ∈ k.others, Saved k.cpu.mem t

variable {k k' k₀ k₁ k₂ k₃ : Kernel} {e : Event} {function aux : Addr}

theorem kept_refl : Kept t m m := ⟨fun _ _ => rfl,fun _ _ _ => rfl⟩

theorem stack_kept (kept : Kept t m m') : stack m' t = stack m t :=
  (words_congr (l := [stack m t]) kept.member ⟨rfl,trivial⟩).1

theorem kept_trans (first : Kept t m m') (later : Kept t m' m'') : Kept t m m'' where
  member i below := (later.member i below).trans (first.member i below)
  saved a low high := (later.saved a (stack_kept first ▸ low) high).trans (first.saved a low high)

theorem kept_same (page : Page t) (saved : Saved m t) (same : Same t m m') : Kept t m m' where
  member i below := by
    have within := member_within page
    unfold Within at within
    unfold Page PGSIZE at *
    have place : (t + STACK_OFS + BitVec.ofNat 32 i).toNat = (t + STACK_OFS).toNat + i := by bv_omega
    exact same _ (by omega) (by unfold PGSIZE; omega)
  saved a low high := same a (by have := saved.low; omega) high

theorem saved_kept (saved : Saved m t) (kept : Kept t m m') : Saved m' t := by
  have same := stack_kept kept
  exact ⟨same ▸ saved.low,same ▸ saved.high⟩

/-- The frame of a saved stack is kept with it. -/
theorem words_kept (page : Page t) (kept : Kept t m m') (low : (stack m t).toNat ≤ a.toNat)
    (high : a.toNat + 4 * ws.length ≤ t.toNat + PGSIZE) (words : Words m a ws) : Words m' a ws := by
  refine words_congr (fun i below => ?_) words
  have bound := page.2
  have place : (a + BitVec.ofNat 32 i).toNat = a.toNat + i := by bv_omega
  exact kept.saved _ (by omega) (by omega)

/-- What the frame of `switch_threads` writes is in the page of the thread that calls it. -/
theorem switched_same (page : Page t) (other : Page cur) (apart : t ≠ cur) (fits : Fits cur (c.reg .esp)) :
    Same t c.mem (store (pushed c).mem (cur + STACK_OFS) w) :=
  same_trans (pushed_same page other apart fits) (same_store page other apart (member_within other))

theorem created_same (page : Page t) (other : Page u) (apart : t ≠ u) : Same t m (thread_create s m u function aux) := by
  have step {m : Mem} {i w : Word} (inside : i.toNat + 4 ≤ 4096) : Same t m (store m (u + i) w) := by
    refine same_store page other apart ?_
    unfold Within
    unfold Page PGSIZE at *
    bv_omega
  rw [thread_create_eq]
  refine same_trans (same_fill (v := 0) page other apart) ?_
  refine same_trans (step ?_) (same_trans (step ?_) (same_trans (step ?_) (same_trans (step ?_) (same_trans (step ?_)
    (same_trans (step ?_) (same_trans (step ?_) (same_trans (step ?_) (same_trans (step ?_) (step ?_)))))))))
  all_goals decide

theorem running_apart (inv : Inv s k) (known : t ∈ k.others) : t ≠ k.running :=
  fun same => (List.nodup_cons.mp inv.distinct).1 (same ▸ known)

/-- The state after `k.running` has called `switch_threads`. -/
theorem switched (inv : Inv s k) (known : next ∈ k.others) {ret : Word} (arguments : Stack k.cpu [ret,k.running,next])
    (fits : Fits k.running (k.cpu.reg .esp)) {edi esi ebp ebx eip : Word}
    (frame : Words k.cpu.mem (stack k.cpu.mem next) [edi,esi,ebp,ebx,eip]) {d : Cpu}
    (run : d = (k.cpu.run (switch_threads s)).ret) :
    d.eip = eip ∧ d.reg .edi = edi ∧ d.reg .esi = esi ∧ d.reg .ebp = ebp ∧ d.reg .ebx = ebx ∧
      d.reg .esp = stack k.cpu.mem next + 20 ∧ d.reg .eax = k.running ∧
      d.mem = store (pushed k.cpu).mem (k.running + STACK_OFS) (k.cpu.reg .esp - 16) := by
  have saved := inv.saved next known
  have low := saved.low
  have high := saved.high
  exact switch_spec inv.offset inv.bound (inv.outside _ List.mem_cons_self) (inv.page _ List.mem_cons_self)
    (inv.page next (List.mem_cons_of_mem _ known)) (running_apart inv known) arguments fits rfl (by omega) (by omega) frame run

theorem switched_mem (inv : Inv s k) (known : next ∈ k.others) {ret : Word} (arguments : Stack k.cpu [ret,k.running,next])
    (fits : Fits k.running (k.cpu.reg .esp)) : (k.cpu.run (switch_threads s)).ret.mem =
      store (pushed k.cpu).mem (k.running + STACK_OFS) (k.cpu.reg .esp - 16) :=
  (switched inv known arguments fits ⟨rfl,rfl,rfl,rfl,rfl,trivial⟩ rfl).2.2.2.2.2.2.2

/-- A step leaves alone what a thread has saved that it neither runs nor frees. -/
theorem step_kept (inv : Inv s k) (step : Step s k e k') (known : t ∈ k.others) (switch : e ≠ .switch t) (free : e ≠ .free t) :
    t ∈ k'.others ∧ Kept t k.cpu.mem k'.cpu.mem := by
  have page := inv.page t (List.mem_cons_of_mem _ known)
  have saved := inv.saved t known
  cases step with
  | work kept offset => exact ⟨known,kept t known⟩
  | @create u function aux fresh page' outside =>
    have apart : t ≠ u := fun same => fresh.2 (same ▸ known)
    exact ⟨List.mem_cons_of_mem u known,kept_same page saved (created_same page page' apart)⟩
  | @switch next ret known' at_entry arguments fits =>
    have apart : t ≠ next := fun same => switch (same ▸ rfl)
    refine ⟨List.mem_cons_of_mem _ ((List.mem_erase_of_ne apart).mpr known),kept_same page saved ?_⟩
    change Same t k.cpu.mem (k.cpu.run (switch_threads s)).ret.mem
    rw [switched_mem inv known' arguments fits]
    exact switched_same page (inv.page _ List.mem_cons_self) (running_apart inv known) fits
  | @free u known' =>
    have apart : t ≠ u := fun same => free (same ▸ rfl)
    refine ⟨(List.mem_erase_of_ne apart).mpr known,kept_same page saved ?_⟩
    exact same_fill page (inv.page u (List.mem_cons_of_mem _ known')) apart

theorem offset_fill {v : BitVec 8} (outside : Outside s u) (bound : s.thread_stack_ofs.toNat + 4 ≤ 2 ^ 32) (page : Page u) :
    load (fill m u v) s.thread_stack_ofs = load m s.thread_stack_ofs := by
  refine (words_congr (l := [load m s.thread_stack_ofs]) (fun i below => ?_) ⟨rfl,trivial⟩).1
  refine if_neg (Nat.not_lt.mpr ?_)
  simp only [List.length_cons,List.length_nil] at below
  unfold Outside at outside
  unfold Page PGSIZE at *
  bv_omega

theorem offset_created (outside : Outside s u) (bound : s.thread_stack_ofs.toNat + 4 ≤ 2 ^ 32) (page : Page u) :
    load (thread_create s m u function aux) s.thread_stack_ofs = load m s.thread_stack_ofs := by
  have step {m : Mem} {i w : Word} (inside : i.toNat + 4 ≤ 4096) :
      load (store m (u + i) w) s.thread_stack_ofs = load m s.thread_stack_ofs := by
    refine offset_store outside bound page ?_
    unfold Within
    unfold Page PGSIZE at *
    bv_omega
  rw [thread_create_eq,step (by decide),step (by decide),step (by decide),step (by decide),step (by decide),step (by decide),
    step (by decide),step (by decide),step (by decide),step (by decide),offset_fill outside bound page]

theorem inv_step (inv : Inv s k) (step : Step s k e k') : Inv s k' := by
  have kept (t : Addr) (known : t ∈ k.others) (switch : e ≠ .switch t) (free : e ≠ .free t) : Saved k'.cpu.mem t :=
    saved_kept (inv.saved t known) (step_kept inv step known switch free).2
  obtain ⟨fresh_running,distinct⟩ := List.nodup_cons.mp inv.distinct
  cases step with
  | work kept' offset =>
    exact { inv with offset := offset, saved := fun t known => kept t known nofun nofun }
  | @create u function aux fresh page outside =>
    have rotate : ∀ {P : Addr → Prop}, P u → (∀ t ∈ k.running :: k.others, P t) → ∀ t ∈ k.running :: u :: k.others, P t := by
      intro P here every t member
      rcases List.mem_cons.mp member with same | later
      · exact same ▸ every _ List.mem_cons_self
      · rcases List.mem_cons.mp later with same | old
        · exact same ▸ here
        · exact every t (List.mem_cons_of_mem _ old)
    refine ⟨?_,rotate page inv.page,rotate outside inv.outside,inv.bound,?_,?_⟩
    · refine List.nodup_cons.mpr ⟨?_,List.nodup_cons.mpr ⟨fresh.2,distinct⟩⟩
      intro member
      rcases List.mem_cons.mp member with same | old
      · exact fresh.1 same.symm
      · exact fresh_running old
    · exact (offset_created outside inv.bound page).trans inv.offset
    · intro t member
      rcases List.mem_cons.mp member with same | old
      · have at_end := (created_frames s k.cpu.mem u function aux).1
        unfold Page PGSIZE at page
        have place : (u + 4052).toNat = u.toNat + 4052 := by bv_omega
        subst same
        constructor
        · change _ ≤ (stack (thread_create s k.cpu.mem t function aux) t).toNat
          rw [at_end]
          omega
        · change (stack (thread_create s k.cpu.mem t function aux) t).toNat + 28 ≤ _
          rw [at_end]
          unfold PGSIZE
          omega
      · exact kept t old nofun nofun
  | @switch next ret known at_entry arguments fits =>
    have mem_eq := switched_mem inv known arguments fits
    have page := inv.page _ List.mem_cons_self
    have outside := inv.outside _ List.mem_cons_self
    have exchange : ∀ {P : Addr → Prop}, (∀ t ∈ k.running :: k.others, P t) →
        ∀ t ∈ next :: k.running :: k.others.erase next, P t := by
      intro P every t member
      rcases List.mem_cons.mp member with same | later
      · exact same ▸ every _ (List.mem_cons_of_mem _ known)
      · rcases List.mem_cons.mp later with same | old
        · exact same ▸ every _ List.mem_cons_self
        · exact every t (List.mem_cons_of_mem _ (List.mem_of_mem_erase old))
    refine ⟨?_,exchange inv.page,exchange inv.outside,inv.bound,?_,?_⟩
    · refine List.nodup_cons.mpr ⟨?_,List.nodup_cons.mpr ⟨fun old => fresh_running (List.mem_of_mem_erase old),distinct.erase next⟩⟩
      intro member
      rcases List.mem_cons.mp member with same | old
      · exact running_apart inv known same
      · exact distinct.not_mem_erase old
    · change load (k.cpu.run (switch_threads s)).ret.mem _ = _
      rw [mem_eq,offset_store outside inv.bound page (member_within page),pushed_offset outside inv.bound page fits]
      exact inv.offset
    · intro t member
      rcases List.mem_cons.mp member with same | old
      · subst same
        have at_end : stack (k.cpu.run (switch_threads s)).ret.mem k.running = k.cpu.reg .esp - 16 := by
          rw [mem_eq]
          exact load_store_self
        have low := fits.low
        have high := fits.high
        have place : (k.cpu.reg .esp - 16).toNat = (k.cpu.reg .esp).toNat - 16 := by bv_omega
        constructor
        · change _ ≤ (stack (k.cpu.run (switch_threads s)).ret.mem k.running).toNat
          rw [at_end]
          omega
        · change (stack (k.cpu.run (switch_threads s)).ret.mem k.running).toNat + 28 ≤ _
          rw [at_end]
          omega
      · have apart : t ≠ next := fun same => distinct.not_mem_erase (same ▸ old)
        exact kept t (List.mem_of_mem_erase old) (fun same => apart (Event.switch.inj same).symm) nofun
  | @free u known =>
    have shrink : ∀ {P : Addr → Prop}, (∀ t ∈ k.running :: k.others, P t) → ∀ t ∈ k.running :: k.others.erase u, P t := by
      intro P every t member
      rcases List.mem_cons.mp member with same | old
      · exact same ▸ every _ List.mem_cons_self
      · exact every t (List.mem_cons_of_mem _ (List.mem_of_mem_erase old))
    refine ⟨?_,shrink inv.page,shrink inv.outside,inv.bound,?_,?_⟩
    · exact List.nodup_cons.mpr ⟨fun old => fresh_running (List.mem_of_mem_erase old),distinct.erase u⟩
    · have member := List.mem_cons_of_mem k.running known
      exact (offset_fill (inv.outside u member) inv.bound (inv.page u member)).trans inv.offset
    · intro t member
      have apart : t ≠ u := fun same => distinct.not_mem_erase (same ▸ member)
      exact kept t (List.mem_of_mem_erase member) nofun fun same => apart (Event.free.inj same).symm

theorem reaches_inv (reached : Reaches (machine s) Anything k) : Inv s k := by
  refine reaches_invariant (Inv s) ?_ (fun _ _ _ inv _ step => inv_step inv step) reached
  intro k ⟨alone,page,outside,bound,offset⟩
  have only : ∀ {P : Addr → Prop}, P k.running → ∀ t ∈ k.running :: k.others, P t := by
    intro P here t member
    rw [alone] at member
    exact List.mem_singleton.mp member ▸ here
  exact ⟨by simp [alone],only page,only outside,bound,offset,by simp [alone]⟩

/-! ### Resuming a thread -/

theorem round_down_page (page : Page t) (low : t.toNat ≤ a.toNat) (high : a.toNat < t.toNat + PGSIZE) : pg_round_down a = t := by
  refine BitVec.eq_of_toNat_eq ?_
  rw [pg_round_down,and_not_pgmask]
  unfold Page PGSIZE at *
  omega

/-- The runs from a state on. -/
def after (s : Symbols) (k : Kernel) : Machine Kernel Event where
  Initial k' := k' = k
  Step := Step s

/-- A step in which `t` neither runs nor is freed. -/
def Away (t : Addr) (_ : Kernel) (e : Event) : Prop := e ≠ .switch t ∧ e ≠ .free t

theorem away_kept (inv : Inv s k₁) (known : t ∈ k₁.others) (between : Reaches (after s k₁) (Away t) k₂) :
    Inv s k₂ ∧ t ∈ k₂.others ∧ Kept t k₁.cpu.mem k₂.cpu.mem := by
  refine reaches_invariant (fun k => Inv s k ∧ t ∈ k.others ∧ Kept t k₁.cpu.mem k.cpu.mem) ?_ ?_ between
  · intro k start
    cases start
    exact ⟨inv,known,kept_refl⟩
  · intro k e k' ⟨inv,known,kept⟩ away step
    obtain ⟨known',later⟩ := step_kept inv step known away.1 away.2
    exact ⟨inv_step inv step,known',kept_trans kept later⟩

/-- What switching to `next` leaves of the thread that was running. -/
structure Left (k k' : Kernel) : Prop where
  room : 16 ≤ (k.cpu.reg .esp).toNat
  low : k.running.toNat + 44 ≤ (k.cpu.reg .esp).toNat
  high : (k.cpu.reg .esp).toNat + 12 ≤ k.running.toNat + PGSIZE
  waits : k.running ∈ k'.others
  at_end : stack k'.cpu.mem k.running = k.cpu.reg .esp - 16
  frame : Words k'.cpu.mem (k.cpu.reg .esp - 16) [k.cpu.reg .edi,k.cpu.reg .esi,k.cpu.reg .ebp,k.cpu.reg .ebx,k.cpu.top]
  above : ∀ a : Addr, (k.cpu.reg .esp).toNat ≤ a.toNat → k'.cpu.mem a = k.cpu.mem a

theorem left_of_step (inv : Inv s k) (out : Step s k (.switch next) k') : Left k k' := by
  have page := inv.page _ List.mem_cons_self
  cases out with
  | @switch _ ret known at_entry arguments fits =>
    have low := fits.low
    have high := fits.high
    have mem_eq := switched_mem inv known arguments fits
    have frame := saved_frame (w := k.cpu.reg .esp - 16) page arguments fits
    refine ⟨by omega,by omega,high,List.mem_cons_self,?_,?_,?_⟩
    · change load (k.cpu.run (switch_threads s)).ret.mem (k.running + STACK_OFS) = _
      rw [mem_eq]
      exact load_store_self
    · change Words (k.cpu.run (switch_threads s)).ret.mem _ _
      rw [mem_eq,show k.cpu.top = ret from arguments.1]
      exact ((words_append (l := [k.cpu.reg .edi,k.cpu.reg .esi,k.cpu.reg .ebp,k.cpu.reg .ebx,ret])).mp frame).1
    · intro a above
      change (k.cpu.run (switch_threads s)).ret.mem a = _
      rw [mem_eq,store_byte (by unfold STACK_OFS; unfold Page PGSIZE at *; bv_omega)]
      exact pushed_above above (by omega)

/-- What switching to `t` takes from its saved stack. -/
structure Taken (k k' : Kernel) (t : Addr) (edi esi ebp ebx eip : Word) : Prop where
  running : k'.running = t
  eip : k'.cpu.eip = eip
  edi : k'.cpu.reg .edi = edi
  esi : k'.cpu.reg .esi = esi
  ebp : k'.cpu.reg .ebp = ebp
  ebx : k'.cpu.reg .ebx = ebx
  esp : k'.cpu.reg .esp = stack k.cpu.mem t + 20
  eax : k'.cpu.reg .eax = k.running
  same : Same t k.cpu.mem k'.cpu.mem

theorem taken_of_step {edi esi ebp ebx eip : Word} (inv : Inv s k) (back : Step s k (.switch t) k')
    (frame : Words k.cpu.mem (stack k.cpu.mem t) [edi,esi,ebp,ebx,eip]) : Taken k k' t edi esi ebp ebx eip := by
  cases back with
  | @switch _ ret known at_entry arguments fits =>
    obtain ⟨eip,edi,esi,ebp,ebx,esp,eax,mem_eq⟩ := switched inv known arguments fits frame rfl
    refine ⟨rfl,eip,edi,esi,ebp,ebx,esp,eax,?_⟩
    change Same t k.cpu.mem (k.cpu.run (switch_threads s)).ret.mem
    rw [mem_eq]
    exact switched_same (inv.page t (List.mem_cons_of_mem _ known)) (inv.page _ List.mem_cons_self) (running_apart inv known) fits

/-- The stack pointer is in the page of the thread that runs. -/
theorem taken_running {edi esi ebp ebx eip : Word} (page : Page t) (saved : Saved k.cpu.mem t)
    (taken : Taken k k' t edi esi ebp ebx eip) : running_thread k'.cpu = t := by
  have low := saved.low
  have high := saved.high
  have esp : (k'.cpu.reg .esp).toNat = (stack k.cpu.mem t).toNat + 20 := by
    rw [taken.esp]
    unfold Page PGSIZE at *
    bv_omega
  exact round_down_page page (by omega) (by omega)

/-- The processor when `k.running` has called `switch_threads` with its stack at `esp`. -/
def calling (s : Symbols) (k : Kernel) (next ret esp : Word) : Cpu :=
  { k.cpu.set .esp esp with
    eip := s.switch_threads
    mem := store (store (store k.cpu.mem esp ret) (esp + 4) k.running) (esp + 8) next }

theorem calling_step {ret esp : Word} (inv : Inv s k) (known : next ∈ k.others) (fits : Fits k.running esp) :
    Step s k (.work (calling s k next ret esp)) { k with cpu := calling s k next ret esp } ∧
      Step s { k with cpu := calling s k next ret esp } (.switch next)
        ⟨((calling s k next ret esp).run (switch_threads s)).ret,next,k.running :: k.others.erase next⟩ := by
  have page := inv.page _ List.mem_cons_self
  have outside := inv.outside _ List.mem_cons_self
  have low := fits.low
  have high := fits.high
  have within {i : Word} (small : i.toNat ≤ 8) : Within k.running (esp + i) := by
    unfold Within
    unfold Page PGSIZE at *
    bv_omega
  have first := within (i := 0) (by decide)
  rw [show esp + 0 = esp from BitVec.add_zero esp] at first
  constructor
  · refine .work (fun t member => ?_) ?_
    · have page' := inv.page t (List.mem_cons_of_mem _ member)
      have apart := running_apart inv member
      have one {m : Mem} : Same t m (store m esp ret) := same_store page' page apart first
      have two {m : Mem} : Same t m (store m (esp + 4) k.running) := same_store page' page apart (within (by decide))
      have three {m : Mem} : Same t m (store m (esp + 8) next) := same_store page' page apart (within (by decide))
      exact kept_same page' (inv.saved t member) (same_trans (same_trans one two) three)
    · change load (store (store (store k.cpu.mem esp ret) (esp + 4) k.running) (esp + 8) next) s.thread_stack_ofs = _
      rw [offset_store outside inv.bound page (within (by decide)),offset_store outside inv.bound page (within (by decide)),
        offset_store outside inv.bound page first]
      exact inv.offset
  · refine @Step.switch s _ next ret known rfl ?_ fits
    have four : Clear esp (esp + 4) := by unfold Clear; bv_omega
    have eight : Clear esp (esp + 8) := by unfold Clear; bv_omega
    refine ⟨?_,?_,?_,trivial⟩
    · change load (store (store (store k.cpu.mem esp ret) (esp + 4) k.running) (esp + 8) next) esp = ret
      rw [load_store_clear eight,load_store_clear four,load_store_self]
    · change load (store (store (store k.cpu.mem esp ret) (esp + 4) k.running) (esp + 8) next) (esp + 4) = k.running
      rw [load_store_clear (clear_at (by decide)),load_store_self]
    · change load (store (store (store k.cpu.mem esp ret) (esp + 4) k.running) (esp + 8) next) (esp + 4 + 4) = next
      rw [show esp + 4 + 4 = esp + 8 by bv_omega,load_store_self]

/-! ### The first switch to a thread -/

theorem entered (stack : Stack c (0 :: 0 :: ws)) (room : 4 * (ws.length + 2) ≤ 2 ^ 32) :
    (enter s c).eip = s.thread_schedule_tail ∧ Stack (enter s c) (s.switch_entry_tail :: c.reg .eax :: ws) := by
  have dropped : Stack (c.exec (.addl 8 .esp)) ws := by
    have rest := stack.2.2
    rw [show c.reg .esp + 4 + 4 = c.reg .esp + 8 by bv_omega] at rest
    exact rest
  have prev : Stack (c.run switch_entry) (c.reg .eax :: ws) := stack_push dropped (by omega)
  exact ⟨rfl,stack_push prev (by rw [List.length_cons]; omega)⟩

theorem left_entry {prev : Word} (stack : Stack c (prev :: w :: ws)) : (leave c).eip = w ∧ Stack (leave c) ws :=
  ⟨stack.2.1,stack.2.2⟩

/-- The first switch to a new thread enters `switch_entry`, which calls
    `thread_schedule_tail` with the thread that ran before and, when that has returned
    and kept what its caller has on the stack, starts `kernel_thread` with `function`
    and `aux` as its arguments. -/
theorem first_switch (reached : Reaches (machine s) Anything k₀) (made : Step s k₀ (.create t function aux) k₁)
    (between : Reaches (after s k₁) (Away t) k₂) (first : Step s k₂ (.switch t) k₃) :
    k₃.cpu.eip = s.switch_entry ∧ k₃.cpu.reg .ebp = 0 ∧ running_thread k₃.cpu = t ∧
      (enter s k₃.cpu).eip = s.thread_schedule_tail ∧
      Stack (enter s k₃.cpu) [s.switch_entry_tail,k₂.running,s.kernel_thread,0,function,aux] ∧
      ∀ c : Cpu, c.reg .esp = (enter s k₃.cpu).reg .esp + 4 →
        (∀ a : Addr, (c.reg .esp).toNat + 4 ≤ a.toNat → a.toNat < t.toNat + PGSIZE → c.mem a = (enter s k₃.cpu).mem a) →
        (leave c).eip = s.kernel_thread ∧ Stack (leave c) [0,function,aux] := by
  have inv₁ := inv_step (reaches_inv reached) made
  have page : Page t := by
    cases made with
    | create fresh page outside => exact page
  have known : t ∈ k₁.others := by
    cases made with
    | create fresh page outside => exact List.mem_cons_self
  have created : stack k₁.cpu.mem t = t + 4052 ∧ Words k₁.cpu.mem (t + 4052)
      [0,0,0,0,s.switch_entry,0,0,s.kernel_thread,0,function,aux] := by
    cases made with
    | create fresh page outside => exact created_frames s k₀.cpu.mem t function aux
  obtain ⟨at_end,words⟩ := created
  obtain ⟨inv₂,waits,kept⟩ := away_kept inv₁ known between
  have bound := page.2
  have base : (t + 4052).toNat = t.toNat + 4052 := by unfold PGSIZE at *; bv_omega
  have at_end₂ : stack k₂.cpu.mem t = t + 4052 := (stack_kept kept).trans at_end
  have words₂ : Words k₂.cpu.mem (t + 4052) [0,0,0,0,s.switch_entry,0,0,s.kernel_thread,0,function,aux] := by
    refine words_kept page kept ?_ ?_ words
    · rw [at_end]
    · simp only [List.length_cons,List.length_nil,PGSIZE]
      omega
  obtain ⟨frame,rest⟩ := (words_append (l := [0,0,0,0,s.switch_entry])).mp words₂
  have taken := taken_of_step inv₂ first (at_end₂.symm ▸ frame)
  have esp : k₃.cpu.reg .esp = t + 4072 := by
    rw [taken.esp,at_end₂]
    bv_omega
  have stack₃ : Stack k₃.cpu [0,0,s.kernel_thread,0,function,aux] := by
    unfold Stack
    rw [esp]
    have place : (t + 4072).toNat = t.toNat + 4072 := by unfold PGSIZE at *; bv_omega
    have moved : t + 4052 + BitVec.ofNat 32 (4 * [0,0,0,0,s.switch_entry].length) = t + 4072 := by
      simp only [List.length_cons,List.length_nil]
      bv_omega
    rw [moved] at rest
    refine words_same taken.same (by omega) ?_ bound rest
    simp only [List.length_cons,List.length_nil,PGSIZE]
    omega
  obtain ⟨calls,stack₄⟩ := entered (s := s) stack₃ (by simp)
  rw [taken.eax] at stack₄
  refine ⟨taken.eip,taken.ebp,taken_running page (inv₂.saved t waits) taken,calls,stack₄,?_⟩
  intro c popped same
  have there : (enter s k₃.cpu).reg .esp = t + 4072 := by
    change k₃.cpu.reg .esp + 8 - 4 - 4 = t + 4072
    rw [esp]
    bv_omega
  have here : c.reg .esp + 4 = (enter s k₃.cpu).reg .esp + 4 + 4 := by rw [popped]
  refine left_entry ⟨(rfl : c.top = c.top),?_⟩
  rw [here]
  refine words_congr (fun i below => same _ ?_ ?_) stack₄.2.2
  · rw [popped,there]
    simp only [List.length_cons,List.length_nil] at below
    unfold PGSIZE at *
    bv_omega
  · rw [there]
    simp only [List.length_cons,List.length_nil] at below
    unfold PGSIZE at *
    bv_omega

/-! ### A run -/

def linked : Symbols := ⟨0xc0030000,0xc0020000,0xc0020100,0xc0020108,0xc0020200,0xc0020300⟩

/-- The kernel in its first thread, and with another thread made. -/
def booted : Kernel where
  cpu := ⟨fun _ => 0,fun _ => 0,0,0,0,0,store (fun _ => 0) linked.thread_stack_ofs STACK_OFS⟩
  running := 0xc000e000
  others := []
def made : Kernel :=
  { booted with
    cpu := { booted.cpu with mem := thread_create linked booted.cpu.mem 0xc0101000 0xc0020400 7 }, others := [0xc0101000] }

/-- `k` when its thread has called `switch_threads` from `ret`, and after the switch. -/
def called (k : Kernel) (next ret esp : Word) : Kernel := { k with cpu := calling linked k next ret esp }
def gone_to (k : Kernel) (next : Addr) : Kernel :=
  ⟨(k.cpu.run (switch_threads linked)).ret,next,k.running :: k.others.erase next⟩

def out_of : Kernel := called made 0xc0101000 0xc0021234 0xc000ef00
def back_to : Kernel := called (gone_to out_of 0xc0101000) 0xc000e000 0xc0025678 0xc0101f00

theorem created_booted : Step linked booted (.create 0xc0101000 0xc0020400 7) made :=
  .create (by decide) (by decide) (by decide)

theorem reaches_booted : Reaches (machine linked) Anything booted :=
  .start ⟨rfl,by decide,by decide,by decide,load_store_self⟩

theorem made_calls : Step linked made (.work out_of.cpu) out_of ∧
    Step linked out_of (.switch 0xc0101000) (gone_to out_of 0xc0101000) :=
  calling_step (inv_step (reaches_inv reaches_booted) created_booted) (by decide) ⟨by decide,by decide⟩

theorem first_switch_made : (gone_to out_of 0xc0101000).cpu.eip = linked.switch_entry ∧
    (gone_to out_of 0xc0101000).cpu.reg .ebp = 0 := by
  have between : Reaches (after linked made) (Away 0xc0101000) out_of :=
    .next (e := .work out_of.cpu) (.start rfl) ⟨nofun,nofun⟩ made_calls.1
  have whole := first_switch reaches_booted created_booted between made_calls.2
  exact ⟨whole.1,whole.2.1⟩

end Pintos.Switching
