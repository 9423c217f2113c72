import Pintos.Assembly

/-!
`threads/intr-stubs.S`: the code between an interrupt and `intr_handler`, and back. The
processor's own part is `interrupt` and `iret`: an interrupt that comes from an outer
ring first switches to the stack that the task-state segment names.

`intr_frame` is the structure of `threads/interrupt.h`, in the order in which its
members lie in memory; `outer` are the two that only an interrupt from an outer ring
has. What `intr_handler` does is left open; it may change the frame.
-/
namespace Pintos.InterruptFrames
open Pintos.Assembly

def SEL_KCSEG : BitVec 16 := 0x08
def SEL_KDSEG : BitVec 16 := 0x10

/-- The members of the task-state segment that the processor reads. -/
structure Tss where
  esp0 : Word
  ss0 : BitVec 16

/-- The ring in which code runs whose segment selector is `cs`. -/
def ring (cs : BitVec 16) : BitVec 16 := cs &&& 3

/-- The bits of `eflags` that a gate clears: trap, nested task, resume and virtual 8086,
    and through an interrupt gate also the interrupt flag. -/
def gate_clears (trap : Bool) : Word := 0x34100 ||| if trap then 0 else 0x200

/-- The stack on which the processor saves its state. -/
def switched (tss : Tss) (c : Cpu) : Cpu :=
  if ring c.cs = 0 then c else { (c.set .esp tss.esp0) with ss := tss.ss0 }

/-- An interrupt of code in ring 0 or of code in another ring; the error code is pushed
    last. -/
def interrupt (tss : Tss) (stub : Word) (trap : Bool) (error : Option Word) (c : Cpu) : Cpu :=
  let outer : List Word := if ring c.cs = 0 then [] else [c.ss.setWidth 32,c.reg .esp]
  { (switched tss c).pushes (outer ++ [c.eflags,c.cs.setWidth 32,c.eip] ++ error.toList) with
    cs := SEL_KCSEG, eip := stub, eflags := c.eflags &&& ~~~gate_clears trap }

def iret (c : Cpu) : Cpu :=
  let word (k : Word) := load c.mem (c.reg .esp + k)
  let cs : BitVec 16 := (word 4).setWidth 16
  let back := { c.drop 12 with eip := word 0, cs := cs, eflags := word 8 }
  if ring cs = ring c.cs then back else { back.set .esp (word 12) with ss := (word 16).setWidth 16 }

/-! ### The code -/

/-- Whether the processor pushes an error code, as the stubs have it. -/
inductive Stub
  | zero
  | REAL
  deriving DecidableEq

def stub_type (number : BitVec 8) : Stub :=
  if number ∈ [0x08,0x0a,0x0b,0x0d,0x0e,0x11,0x18,0x1a,0x1b,0x1d,0x1e] then .REAL else .zero

def Stub.code : Stub → List Instr
  | .zero => [.pushl (.reg .ebp),.pushl (.imm 0)]
  | .REAL => [.pushl (.at (off 0 .esp)),.movl_to .ebp (off 4 .esp)]

def intr_stub (number : BitVec 8) : List Instr := (stub_type number).code ++ [.pushl (.imm (number.setWidth 32))]

def intr_entry : List Instr :=
  [.push_seg .ds,.push_seg .es,.push_seg .fs,.push_seg .gs,.pushal,
    .cld,.movl (.imm (SEL_KDSEG.setWidth 32)) .eax,.mov_seg .eax .ds,.mov_seg .eax .es,.leal (off 56 .esp) .ebp,
    .pushl (.reg .esp)]

/-- From the return of `intr_handler` on. -/
def intr_exit : List Instr :=
  [.addl 4 .esp,.popal,.pop_seg .gs,.pop_seg .fs,.pop_seg .es,.pop_seg .ds,.addl 12 .esp]

/-- From the interrupt to the first instruction of `intr_handler`. -/
def entry (intr_handler ret : Word) (number : BitVec 8) (c : Cpu) : Cpu :=
  ((c.run (intr_stub number)).run intr_entry).call intr_handler ret
def exit (c : Cpu) : Cpu := iret (c.run intr_exit)

structure intr_frame where
  edi : Word
  esi : Word
  ebp : Word
  esp_dummy : Word
  ebx : Word
  edx : Word
  ecx : Word
  eax : Word
  gs : BitVec 16
  fs : BitVec 16
  es : BitVec 16
  ds : BitVec 16
  vec_no : Word
  error_code : Word
  frame_pointer : Word
  eip : Word
  cs : BitVec 16
  eflags : Word
  /-- `esp` and `ss`. -/
  outer : Option (Word × BitVec 16)

def intr_frame.saved (f : intr_frame) : List Word :=
  [f.eip,f.cs.setWidth 32,f.eflags] ++ f.outer.elim [] fun o => [o.1,o.2.setWidth 32]

def intr_frame.words (f : intr_frame) : List Word :=
  [f.edi,f.esi,f.ebp,f.esp_dummy,f.ebx,f.edx,f.ecx,f.eax,f.gs.setWidth 32,f.fs.setWidth 32,f.es.setWidth 32,
    f.ds.setWidth 32,f.vec_no,f.error_code,f.frame_pointer] ++ f.saved

/-- The frame of an interrupt of `c`, whose stub starts with the stack pointer at `esp`. -/
def frame_of (c : Cpu) (number : BitVec 8) (error : Option Word) (esp_dummy : Word) : intr_frame where
  edi := c.reg .edi
  esi := c.reg .esi
  ebp := c.reg .ebp
  esp_dummy := esp_dummy
  ebx := c.reg .ebx
  edx := c.reg .edx
  ecx := c.reg .ecx
  eax := c.reg .eax
  gs := c.seg .gs
  fs := c.seg .fs
  es := c.seg .es
  ds := c.seg .ds
  vec_no := number.setWidth 32
  error_code := error.getD 0
  frame_pointer := c.reg .ebp
  eip := c.eip
  cs := c.cs
  eflags := c.eflags
  outer := if ring c.cs = 0 then none else some (c.reg .esp,c.ss)

variable {c d : Cpu} {tss : Tss} {stub handler ret : Word} {trap : Bool} {error : Option Word} {number : BitVec 8}
  {f : intr_frame} {ws rest : List Word} {w v : Word}

/-! ### Entry -/

theorem frame_saved (c : Cpu) (number : BitVec 8) (error : Option Word) (esp : Word) :
    (frame_of c number error esp).saved =
      ((if ring c.cs = 0 then [] else [c.ss.setWidth 32,c.reg .esp]) ++ [c.eflags,c.cs.setWidth 32,c.eip]).reverse := by
  unfold intr_frame.saved frame_of
  by_cases same : ring c.cs = 0
  · simp only [if_pos same]
    rfl
  · simp only [if_neg same]
    rfl

theorem switched_other (tss : Tss) (c : Cpu) {r : Reg} (other : r ≠ .esp) : (switched tss c).reg r = c.reg r := by
  unfold switched
  split
  · rfl
  · exact set_other other

theorem switched_seg (tss : Tss) (c : Cpu) : (switched tss c).seg = c.seg := by
  unfold switched
  split <;> rfl

theorem switched_mem (tss : Tss) (c : Cpu) : (switched tss c).mem = c.mem := by
  unfold switched
  split <;> rfl

theorem pushes_seg (c : Cpu) (ws : List Word) : (c.pushes ws).seg = c.seg := by
  induction ws generalizing c with
  | nil => rfl
  | cons w ws ih => exact ih (c.push w)

theorem interrupt_other {r : Reg} (other : r ≠ .esp) : (interrupt tss stub trap error c).reg r = c.reg r :=
  (pushes_other other).trans (switched_other tss c other)

theorem interrupt_seg : (interrupt tss stub trap error c).seg = c.seg := (pushes_seg _ _).trans (switched_seg tss c)

theorem interrupt_stack {esp : Word} :
    Stack (interrupt tss stub trap error c) (error.toList ++ (frame_of c number error esp).saved) := by
  have pushed := stack_pushes (l := (if ring c.cs = 0 then [] else [c.ss.setWidth 32,c.reg .esp]) ++
    [c.eflags,c.cs.setWidth 32,c.eip] ++ error.toList) (show Stack (switched tss c) [] from trivial) (by cases error <;> split <;> simp)
  rw [List.append_nil,List.reverse_append,← frame_saved c number error esp] at pushed
  have single : error.toList.reverse = error.toList := by cases error <;> rfl
  exact single ▸ pushed

theorem no_error (agrees : error.isSome = true ↔ stub_type number = .REAL) (zero : stub_type number = .zero) : error = none := by
  cases error with
  | none => rfl
  | some e => exact absurd (agrees.mp rfl) (by rw [zero]; decide)

/-- The stub puts the vector number, the error code and the frame pointer on the stack. -/
theorem stub_stack (agrees : error.isSome = true ↔ stub_type number = .REAL) {ws : List Word} (small : ws.length ≤ 64)
    (stack : Stack c (error.toList ++ ws)) :
    Stack (c.run (intr_stub number)) (number.setWidth 32 :: error.getD 0 :: c.reg .ebp :: ws) := by
  cases type : stub_type number with
  | zero =>
    obtain rfl := no_error agrees type
    rw [intr_stub,type]
    have pushed := stack_pushes (l := [c.reg .ebp,0,number.setWidth 32]) stack (by simp; omega)
    exact pushed
  | REAL =>
    obtain ⟨e,there⟩ := Option.isSome_iff_exists.mp (agrees.mpr type)
    subst there
    rw [intr_stub,type]
    have top : c.value (.at (off 0 .esp)) = e := stack_get (i := 0) stack rfl
    have twice : Stack (c.push e) (e :: e :: ws) := stack_push stack (by simp; omega)
    have put : Stack ((c.push e).exec (.movl_to .ebp (off 4 .esp))) (e :: c.reg .ebp :: ws) := stack_put twice (by omega)
    have pushed := stack_push (w := number.setWidth 32) put (by simp; omega)
    rw [← top] at pushed ⊢
    exact pushed

theorem stub_other {r : Reg} (other : r ≠ .esp) : (c.run (intr_stub number)).reg r = c.reg r := by
  unfold intr_stub
  cases stub_type number
  · exact pushes_other (l := [c.reg .ebp,0,number.setWidth 32]) other
  · exact (push_other (w := number.setWidth 32) other).trans (push_other (c := c) (w := c.value (.at (off 0 .esp))) other)

theorem stub_seg : (c.run (intr_stub number)).seg = c.seg := by
  unfold intr_stub
  cases stub_type number <;> rfl

/-- Where the frame is, with the stack pointer at `esp` when the stub is done. -/
def frame_address (esp : Word) : Word := esp - 48

/-- `intr_entry` up to its `pushal`, and the rest up to its `call`. -/
def saves : List Instr := [.push_seg .ds,.push_seg .es,.push_seg .fs,.push_seg .gs,.pushal]
def prepares : List Instr :=
  [.cld,.movl (.imm (SEL_KDSEG.setWidth 32)) .eax,.mov_seg .eax .ds,.mov_seg .eax .es,.leal (off 56 .esp) .ebp,
    .pushl (.reg .esp)]

theorem run_entry (c : Cpu) : c.run intr_entry = (c.run saves).run prepares := List.foldl_append (l := saves)

theorem pushal_pushes (c : Cpu) : c.pushal =
    c.pushes [c.reg .eax,c.reg .ecx,c.reg .edx,c.reg .ebx,c.reg .esp,c.reg .ebp,c.reg .esi,c.reg .edi] := by
  simp only [Cpu.pushal,Cpu.pushes,List.foldl_cons,List.foldl_nil]

theorem run_saves (c : Cpu) : c.run saves =
    (c.pushes [(c.seg .ds).setWidth 32,(c.seg .es).setWidth 32,(c.seg .fs).setWidth 32,(c.seg .gs).setWidth 32]).pushes
      [c.reg .eax,c.reg .ecx,c.reg .edx,c.reg .ebx,c.reg .esp - 16,c.reg .ebp,c.reg .esi,c.reg .edi] := by
  have first : c.run saves =
      (c.pushes [(c.seg .ds).setWidth 32,(c.seg .es).setWidth 32,(c.seg .fs).setWidth 32,(c.seg .gs).setWidth 32]).pushal := by
    simp only [Cpu.run,saves,Cpu.exec,Cpu.pushes,List.foldl_cons,List.foldl_nil]
    rfl
  rw [first,pushal_pushes,pushes_esp,pushes_other (by decide),pushes_other (by decide),pushes_other (by decide),
    pushes_other (by decide),pushes_other (by decide),pushes_other (by decide),pushes_other (by decide)]
  rfl

theorem prepares_stack (stack : Stack c ws) (few : ws.length ≤ 128) : Stack (c.run prepares) (c.reg .esp :: ws) :=
  stack_push stack (by omega)

theorem entry_stack (few : ws.length ≤ 64) (stack : Stack c ws) :
    Stack (c.run intr_entry) ([frame_address (c.reg .esp),c.reg .edi,c.reg .esi,c.reg .ebp,c.reg .esp - 16,c.reg .ebx,c.reg .edx,
      c.reg .ecx,c.reg .eax,(c.seg .gs).setWidth 32,(c.seg .fs).setWidth 32,(c.seg .es).setWidth 32,(c.seg .ds).setWidth 32] ++ ws) := by
  have segments := stack_pushes (l := [(c.seg .ds).setWidth 32,(c.seg .es).setWidth 32,(c.seg .fs).setWidth 32,
    (c.seg .gs).setWidth 32]) stack (by simp; omega)
  have registers := stack_pushes (l := [c.reg .eax,c.reg .ecx,c.reg .edx,c.reg .ebx,c.reg .esp - 16,c.reg .ebp,c.reg .esi,
    c.reg .edi]) segments (by simp; omega)
  rw [← run_saves] at registers
  have address : (c.run saves).reg .esp = frame_address (c.reg .esp) := by
    rw [run_saves,pushes_esp,pushes_esp]
    simp only [frame_address,List.length_cons,List.length_nil]
    bv_omega
  have after := prepares_stack registers (by simp; omega)
  rw [address,← run_entry] at after
  exact after

/-! ### What entry writes -/

theorem stub_below (error : Option Word) (agrees : error.isSome = true ↔ stub_type number = .REAL) {a : Addr}
    (at_end : c.reg .esp = a - BitVec.ofNat 32 (4 * error.toList.length)) :
    (c.run (intr_stub number)).reg .esp = a - 12 ∧ Below a 12 c.mem (c.run (intr_stub number)).mem := by
  cases type : stub_type number with
  | zero =>
    obtain rfl := no_error agrees type
    rw [show a - BitVec.ofNat 32 (4 * (none : Option Word).toList.length) = a from BitVec.sub_zero a] at at_end
    subst at_end
    rw [intr_stub,type]
    exact ⟨pushes_esp (l := [c.reg .ebp,0,number.setWidth 32]),below_pushes (l := [c.reg .ebp,0,number.setWidth 32]) (by simp)⟩
  | REAL =>
    obtain ⟨e,there⟩ := Option.isSome_iff_exists.mp (agrees.mpr type)
    subst there
    have esp : c.reg .esp = a - 4 := at_end
    let d := c.push (c.value (.at (off 0 .esp)))
    have esp₁ : d.reg .esp = a - 8 := by
      rw [show d.reg .esp = c.reg .esp - 4 from push_esp,esp]
      bv_omega
    have place : d.address (off 4 .esp) = a - BitVec.ofNat 32 (4 * 0) - 4 := by
      change 4 + d.reg .esp + 0 = _
      rw [esp₁]
      bv_omega
    have first : Below a 8 c.mem d.mem := by
      rw [show d.mem = store c.mem (c.reg .esp - 4) _ from push_mem,esp]
      exact below_store (k := 1) (by omega)
    have second : Below a 8 d.mem (d.exec (.movl_to .ebp (off 4 .esp))).mem := by
      rw [show (d.exec (.movl_to .ebp (off 4 .esp))).mem = store d.mem (d.address (off 4 .esp)) _ from rfl,place]
      exact below_mono (below_store (by omega)) (by omega)
    have esp₂ : (d.exec (.movl_to .ebp (off 4 .esp))).reg .esp = a - 8 := esp₁
    have whole : c.run (intr_stub number) = (d.exec (.movl_to .ebp (off 4 .esp))).push (number.setWidth 32) := by
      rw [intr_stub,type]
      rfl
    rw [whole]
    generalize d.exec (.movl_to .ebp (off 4 .esp)) = d' at second esp₂
    rw [push_esp,push_mem,esp₂]
    have third : Below a 12 d'.mem (store d'.mem (a - 8 - 4) (number.setWidth 32)) := below_store (k := 2) (by omega)
    exact ⟨by bv_omega,below_trans (below_trans first second (Nat.le_refl 8)) third (by omega)⟩

theorem entry_below (c : Cpu) : (c.run intr_entry).reg .esp = c.reg .esp - 52 ∧ Below (c.reg .esp) 52 c.mem (c.run intr_entry).mem := by
  rw [run_entry]
  have saved : (c.run saves).reg .esp = c.reg .esp - 48 ∧ Below (c.reg .esp) 48 c.mem (c.run saves).mem := by
    rw [run_saves]
    have segments := below_pushes (c := c) (l := [(c.seg .ds).setWidth 32,(c.seg .es).setWidth 32,(c.seg .fs).setWidth 32,
      (c.seg .gs).setWidth 32]) (by simp)
    have esp := pushes_esp (c := c) (l := [(c.seg .ds).setWidth 32,(c.seg .es).setWidth 32,(c.seg .fs).setWidth 32,
      (c.seg .gs).setWidth 32])
    generalize c.pushes _ = d at segments esp ⊢
    have registers := below_pushes (c := d) (l := [c.reg .eax,c.reg .ecx,c.reg .edx,c.reg .ebx,c.reg .esp - 16,c.reg .ebp,
      c.reg .esi,c.reg .edi]) (by simp)
    rw [esp] at registers
    refine ⟨?_,below_trans segments (below_lower registers (by simp)) (by simp)⟩
    rw [pushes_esp,esp]
    simp only [List.length_cons,List.length_nil]
    bv_omega
  generalize c.run saves = d at saved ⊢
  obtain ⟨esp,below⟩ := saved
  constructor
  · change d.reg .esp - 4 = _
    rw [esp]
    bv_omega
  · change Below (c.reg .esp) 52 c.mem (store d.mem (d.reg .esp - 4) (d.reg .esp))
    rw [esp]
    exact below_trans below (below_store (k := 12) (by omega)) (by omega)

/-- The words that the processor pushes before the error code. -/
def outer_words (c : Cpu) : List Word := if ring c.cs = 0 then [] else [c.ss.setWidth 32,c.reg .esp]

theorem outer_few (c : Cpu) : (outer_words c).length ≤ 2 := by
  unfold outer_words
  split <;> simp

theorem interrupt_below : (interrupt tss stub trap error c).reg .esp =
      (switched tss c).reg .esp - BitVec.ofNat 32 (4 * ((outer_words c).length + 3)) - BitVec.ofNat 32 (4 * error.toList.length) ∧
    Below ((switched tss c).reg .esp) (4 * ((outer_words c).length + 3 + error.toList.length)) c.mem
      (interrupt tss stub trap error c).mem := by
  have few := outer_few c
  have one : error.toList.length ≤ 1 := by cases error <;> simp
  have esp := pushes_esp (c := switched tss c) (l := outer_words c ++ [c.eflags,c.cs.setWidth 32,c.eip] ++ error.toList)
  have below := below_pushes (c := switched tss c) (l := outer_words c ++ [c.eflags,c.cs.setWidth 32,c.eip] ++ error.toList)
    (by simp; omega)
  rw [List.length_append,List.length_append,show [c.eflags,c.cs.setWidth 32,c.eip].length = 3 from rfl] at esp below
  rw [switched_mem] at below
  refine ⟨?_,below⟩
  change ((switched tss c).pushes (outer_words c ++ [c.eflags,c.cs.setWidth 32,c.eip] ++ error.toList)).reg .esp = _
  rw [esp]
  bv_omega

theorem ss_pushes (ws : List Word) : (c.pushes ws).ss = c.ss ∧ (c.pushes ws).cs = c.cs := by
  induction ws generalizing c with
  | nil => exact ⟨rfl,rfl⟩
  | cons w ws ih => exact ih (c := c.push w)

theorem stub_cs (c : Cpu) (number : BitVec 8) : (c.run (intr_stub number)).cs = c.cs ∧ (c.run (intr_stub number)).ss = c.ss := by
  unfold intr_stub
  cases stub_type number <;> exact ⟨rfl,rfl⟩

theorem entry_cs : (c.run intr_entry).cs = c.cs ∧ (c.run intr_entry).ss = c.ss := by
  rw [run_entry]
  have saved : (c.run saves).cs = c.cs ∧ (c.run saves).ss = c.ss := by
    rw [run_saves]
    obtain ⟨ss,cs⟩ := ss_pushes (c := c) [(c.seg .ds).setWidth 32,(c.seg .es).setWidth 32,(c.seg .fs).setWidth 32,
      (c.seg .gs).setWidth 32]
    generalize c.pushes _ = d at ss cs ⊢
    obtain ⟨ss',cs'⟩ := ss_pushes (c := d) [c.reg .eax,c.reg .ecx,c.reg .edx,c.reg .ebx,c.reg .esp - 16,c.reg .ebp,
      c.reg .esi,c.reg .edi]
    exact ⟨cs'.trans cs,ss'.trans ss⟩
  generalize c.run saves = d at saved ⊢
  exact saved

/-- From an interrupt of `c` to `intr_handler`: it is called with the address of a frame
    that says where and with what registers `c` was interrupted. Nothing is written but
    88 bytes of stack. -/
theorem intr_handler_called (agrees : error.isSome = true ↔ stub_type number = .REAL) {e : Cpu}
    (called : e = entry handler ret number (interrupt tss stub trap error c)) :
    ∃ esp_dummy, Stack e (ret :: (e.reg .esp + 8) :: (frame_of c number error esp_dummy).words) ∧
      e.eip = handler ∧ e.cs = SEL_KCSEG ∧ e.ss = (switched tss c).ss ∧
      Below ((switched tss c).reg .esp) 88 c.mem e.mem ∧
      e.reg .esp = (switched tss c).reg .esp - BitVec.ofNat 32 (4 * ((outer_words c).length + 20)) := by
  have few := outer_few c
  have one : error.toList.length ≤ 1 := by cases error <;> simp
  have short (dummy : Word) : (frame_of c number error dummy).saved.length ≤ 5 := by
    rw [frame_saved,List.length_reverse,List.length_append]
    split <;> simp
  -- the processor's part
  obtain ⟨esp,below⟩ := @interrupt_below c tss stub trap error
  have seg : (interrupt tss stub trap error c).seg = c.seg := interrupt_seg
  have reg (r : Reg) (other : r ≠ .esp) : (interrupt tss stub trap error c).reg r = c.reg r := interrupt_other other
  have cs : (interrupt tss stub trap error c).cs = SEL_KCSEG := rfl
  have ss : (interrupt tss stub trap error c).ss = (switched tss c).ss := (ss_pushes _).1
  have interrupted (dummy : Word) :
      Stack (interrupt tss stub trap error c) (error.toList ++ (frame_of c number error dummy).saved) := interrupt_stack
  unfold entry at called
  generalize interrupt tss stub trap error c = i at esp below seg reg cs ss interrupted called
  -- the stub
  obtain ⟨esp₁,below₁⟩ := stub_below error agrees esp
  have stubbed (dummy : Word) := stub_stack agrees (by have := short dummy; omega) (interrupted dummy)
  have reg₁ (r : Reg) (other : r ≠ .esp) : (i.run (intr_stub number)).reg r = c.reg r := (stub_other other).trans (reg r other)
  have seg₁ : (i.run (intr_stub number)).seg = c.seg := stub_seg.trans seg
  obtain ⟨cs₁,ss₁⟩ := stub_cs i number
  rw [reg .ebp (by decide)] at stubbed
  generalize i.run (intr_stub number) = d at esp₁ below₁ stubbed reg₁ seg₁ cs₁ ss₁ called
  -- `intr_entry`
  obtain ⟨esp₂,below₂⟩ := entry_below d
  have entered := entry_stack (by have := short (d.reg .esp - 16); simp only [List.length_cons]; omega) (stubbed (d.reg .esp - 16))
  rw [reg₁ .edi (by decide),reg₁ .esi (by decide),reg₁ .ebp (by decide),reg₁ .ebx (by decide),reg₁ .edx (by decide),
    reg₁ .ecx (by decide),reg₁ .eax (by decide),seg₁] at entered
  obtain ⟨cs₂,ss₂⟩ := entry_cs (c := d)
  generalize d.run intr_entry = h at esp₂ below₂ entered cs₂ ss₂ called
  have pushed : Stack (h.push ret) _ := stack_push entered (by
    have := short (d.reg .esp - 16)
    simp only [List.length_append,List.length_cons,List.length_nil]
    omega)
  subst called
  refine ⟨d.reg .esp - 16,?_,rfl,cs₂.trans (cs₁.trans cs),ss₂.trans (ss₁.trans ss),?_,?_⟩
  · have address : (h.call handler ret).reg .esp + 8 = frame_address (d.reg .esp) := by
      change h.reg .esp - 4 + 8 = d.reg .esp - 48
      rw [esp₂]
      bv_omega
    rw [address]
    exact pushed
  · generalize (switched tss c).reg .esp = base at esp below esp₁ below₁
    generalize (outer_words c).length = n at few esp below esp₁ below₁
    have place : d.reg .esp = base - BitVec.ofNat 32 (4 * (n + 6)) := by
      rw [esp₁]
      bv_omega
    have place' : h.reg .esp - 4 = base - BitVec.ofNat 32 (4 * (n + 19)) - 4 := by
      rw [esp₂,esp₁]
      bv_omega
    rw [place] at below₂
    have last : Below base (4 * (n + 19 + 1)) h.mem (h.call handler ret).mem := by
      change Below base _ h.mem (store h.mem (h.reg .esp - 4) ret)
      rw [place']
      exact below_store (by omega)
    have first := below_trans below (below_mono (below_lower below₁ (by omega)) (by omega : 12 + 4 * (n + 3) ≤ 4 * (n + 6))) (by omega)
    have second := below_trans first (below_lower below₂ (by omega)) (by omega)
    exact below_mono (below_trans second last (by omega)) (by omega)
  · change h.reg .esp - 4 = _
    rw [esp₂,esp₁]
    bv_omega

/-! ### Exit -/

theorem popal_spec {edi esi ebp dummy ebx edx ecx eax : Word}
    (stack : Stack c (edi :: esi :: ebp :: dummy :: ebx :: edx :: ecx :: eax :: ws)) :
    Stack c.popal ws ∧ c.popal.reg .esp = c.reg .esp + 32 ∧
      (c.popal.reg .edi = edi ∧ c.popal.reg .esi = esi ∧ c.popal.reg .ebp = ebp ∧ c.popal.reg .ebx = ebx) ∧
      c.popal.reg .edx = edx ∧ c.popal.reg .ecx = ecx ∧ c.popal.reg .eax = eax := by
  have after₁ := stack_pop (r := .edi) (by decide) stack
  have after₂ := stack_pop (r := .esi) (by decide) after₁
  have after₃ := stack_pop (r := .ebp) (by decide) after₂
  have after₄ := stack_drop after₃
  have after₅ := stack_pop (r := .ebx) (by decide) after₄
  have after₆ := stack_pop (r := .edx) (by decide) after₅
  have after₇ := stack_pop (r := .ecx) (by decide) after₆
  have after₈ := stack_pop (r := .eax) (by decide) after₇
  refine ⟨after₈,?_,⟨stack.1,after₁.1,after₂.1,after₄.1⟩,after₅.1,after₆.1,after₇.1⟩
  change c.reg .esp + 4 + 4 + 4 + 4 + 4 + 4 + 4 + 4 = _
  bv_omega

theorem narrow_wide (s : BitVec 16) : (s.setWidth 32).setWidth 16 = s := by
  refine BitVec.eq_of_toNat_eq ?_
  have small := s.isLt
  rw [BitVec.toNat_setWidth,BitVec.toNat_setWidth,Nat.mod_eq_of_lt (a := s.toNat) (by omega),Nat.mod_eq_of_lt small]

theorem pop_seg_spec {x : Seg} {s : BitVec 16} (stack : Stack c (s.setWidth 32 :: ws)) :
    Stack (c.exec (.pop_seg x)) ws ∧ (c.exec (.pop_seg x)).reg .esp = c.reg .esp + 4 ∧
      (∀ r ≠ .esp, (c.exec (.pop_seg x)).reg r = c.reg r) ∧ (c.exec (.pop_seg x)).seg x = s ∧
      ∀ y ≠ x, (c.exec (.pop_seg x)).seg y = c.seg y := by
  refine ⟨stack_drop stack,rfl,fun r other => set_other other,?_,fun y other => if_neg other⟩
  have top : c.top = s.setWidth 32 := stack.1
  change (if x = x then c.top.setWidth 16 else _) = s
  rw [if_pos rfl,top,narrow_wide]

def pop_segs : List Instr := [.pop_seg .gs,.pop_seg .fs,.pop_seg .es,.pop_seg .ds]

theorem pop_segs_spec {gs fs es ds : BitVec 16}
    (stack : Stack c (gs.setWidth 32 :: fs.setWidth 32 :: es.setWidth 32 :: ds.setWidth 32 :: ws)) :
    Stack (c.run pop_segs) ws ∧ (c.run pop_segs).reg .esp = c.reg .esp + 16 ∧ (∀ r ≠ .esp, (c.run pop_segs).reg r = c.reg r) ∧
      (c.run pop_segs).seg .gs = gs ∧ (c.run pop_segs).seg .fs = fs ∧ (c.run pop_segs).seg .es = es ∧
      (c.run pop_segs).seg .ds = ds := by
  simp only [Cpu.run,pop_segs,List.foldl_cons,List.foldl_nil]
  obtain ⟨stack₁,esp₁,reg₁,gs₁,-⟩ := pop_seg_spec (x := .gs) stack
  generalize c.exec (.pop_seg .gs) = c₁ at *
  obtain ⟨stack₂,esp₂,reg₂,fs₂,seg₂⟩ := pop_seg_spec (x := .fs) stack₁
  generalize c₁.exec (.pop_seg .fs) = c₂ at *
  obtain ⟨stack₃,esp₃,reg₃,es₃,seg₃⟩ := pop_seg_spec (x := .es) stack₂
  generalize c₂.exec (.pop_seg .es) = c₃ at *
  obtain ⟨stack₄,esp₄,reg₄,ds₄,seg₄⟩ := pop_seg_spec (x := .ds) stack₃
  generalize c₃.exec (.pop_seg .ds) = c₄ at *
  refine ⟨stack₄,?_,?_,?_,?_,?_,ds₄⟩
  · rw [esp₄,esp₃,esp₂,esp₁]
    bv_omega
  · intro r other
    rw [reg₄ r other,reg₃ r other,reg₂ r other,reg₁ r other]
  · rw [seg₄ .gs (by decide),seg₃ .gs (by decide),seg₂ .gs (by decide),gs₁]
  · rw [seg₄ .fs (by decide),seg₃ .fs (by decide),fs₂]
  · rw [seg₄ .es (by decide),es₃]

theorem iret_spec {eip eflags : Word} {cs : BitVec 16} {outer : Option (Word × BitVec 16)}
    (stack : Stack c ([eip,cs.setWidth 32,eflags] ++ outer.elim [] fun o => [o.1,o.2.setWidth 32]))
    (rings : outer = none ↔ ring cs = ring c.cs) :
    (iret c).eip = eip ∧ (iret c).cs = cs ∧ (iret c).eflags = eflags ∧ (iret c).seg = c.seg ∧
      (∀ r ≠ .esp, (iret c).reg r = c.reg r) ∧
      (iret c).reg .esp = (outer.map Prod.fst).getD (c.reg .esp + 12) ∧ (iret c).ss = (outer.map Prod.snd).getD c.ss := by
  have first : load c.mem (c.reg .esp + 0) = eip := by
    rw [show c.reg .esp + 0 = c.reg .esp from BitVec.add_zero _]
    exact stack.1
  have second : (load c.mem (c.reg .esp + 4)).setWidth 16 = cs := (congrArg (BitVec.setWidth 16) stack.2.1).trans (narrow_wide cs)
  have third : load c.mem (c.reg .esp + 8) = eflags := by
    rw [show c.reg .esp + 8 = c.reg .esp + 4 + 4 by bv_omega]
    exact stack.2.2.1
  unfold iret
  simp only [first,second,third]
  cases outer with
  | none =>
    rw [if_pos (rings.mp rfl)]
    exact ⟨rfl,rfl,rfl,rfl,fun r other => set_other other,rfl,rfl⟩
  | some o =>
    have other_ring : ring cs ≠ ring c.cs := fun same => nomatch rings.mpr same
    rw [if_neg other_ring]
    have fourth : load c.mem (c.reg .esp + 12) = o.1 := by
      rw [show c.reg .esp + 12 = c.reg .esp + 4 + 4 + 4 by bv_omega]
      exact stack.2.2.2.1
    have fifth : (load c.mem (c.reg .esp + 16)).setWidth 16 = o.2 := by
      rw [show c.reg .esp + 16 = c.reg .esp + 4 + 4 + 4 + 4 by bv_omega]
      exact (congrArg (BitVec.setWidth 16) stack.2.2.2.2.1).trans (narrow_wide o.2)
    refine ⟨rfl,rfl,rfl,rfl,fun r other => ?_,fourth,fifth⟩
    exact (set_other other).trans (set_other other)

/-- The processor has the state that the frame describes. -/
structure Resumes (f : intr_frame) (c : Cpu) : Prop where
  registers : c.reg .edi = f.edi ∧ c.reg .esi = f.esi ∧ c.reg .ebp = f.ebp ∧ c.reg .ebx = f.ebx ∧ c.reg .edx = f.edx ∧
    c.reg .ecx = f.ecx ∧ c.reg .eax = f.eax
  segments : c.seg .gs = f.gs ∧ c.seg .fs = f.fs ∧ c.seg .es = f.es ∧ c.seg .ds = f.ds
  code : c.eip = f.eip ∧ c.cs = f.cs ∧ c.eflags = f.eflags

/-- Returning from `intr_handler` resumes what the frame describes, as the handler has
    left it. -/
theorem exit_resumes {argument : Word} (stack : Stack d (argument :: f.words)) (rings : f.outer = none ↔ ring f.cs = ring d.cs) :
    Resumes f (exit d) ∧ (exit d).reg .esp = (f.outer.map Prod.fst).getD (d.reg .esp + 76) ∧
      (exit d).ss = (f.outer.map Prod.snd).getD d.ss := by
  let c₀ := d.exec (.addl 4 .esp)
  have start : Stack c₀ f.words := stack.2
  obtain ⟨segments,esp₁,⟨edi,esi,ebp,ebx⟩,edx,ecx,eax⟩ := popal_spec start
  have same₁ : c₀.popal.ss = d.ss ∧ c₀.popal.cs = d.cs := ⟨rfl,rfl⟩
  have esp₀ : c₀.reg .esp = d.reg .esp + 4 := rfl
  have whole : d.run intr_exit = ((c₀.popal.run pop_segs).exec (.addl 12 .esp)) := rfl
  rw [exit,whole]
  generalize c₀.popal = c₁ at segments esp₁ edi esi ebp ebx edx ecx eax same₁
  obtain ⟨numbers,esp₂,reg₂,gs,fs,es,ds⟩ := pop_segs_spec segments
  have same₂ : (c₁.run pop_segs).ss = c₁.ss ∧ (c₁.run pop_segs).cs = c₁.cs := ⟨rfl,rfl⟩
  generalize c₁.run pop_segs = c₂ at numbers esp₂ reg₂ gs fs es ds same₂
  have saved : Stack (c₂.exec (.addl 12 .esp)) f.saved := by
    have rest := numbers.2.2.2
    rw [show c₂.reg .esp + 4 + 4 + 4 = c₂.reg .esp + 12 by bv_omega] at rest
    exact rest
  have esp₃ : (c₂.exec (.addl 12 .esp)).reg .esp = d.reg .esp + 64 := by
    change c₂.reg .esp + 12 = _
    rw [esp₂,esp₁,esp₀]
    bv_omega
  have reg₃ : ∀ r ≠ .esp, (c₂.exec (.addl 12 .esp)).reg r = c₂.reg r := fun r other => set_other other
  have same₃ : (c₂.exec (.addl 12 .esp)).ss = d.ss ∧ (c₂.exec (.addl 12 .esp)).cs = d.cs :=
    ⟨same₂.1.trans same₁.1,same₂.2.trans same₁.2⟩
  have seg₃ : (c₂.exec (.addl 12 .esp)).seg = c₂.seg := rfl
  generalize c₂.exec (.addl 12 .esp) = c₃ at saved esp₃ reg₃ same₃ seg₃
  obtain ⟨eip,cs,eflags,seg₄,reg₄,esp₄,ss₄⟩ := iret_spec saved (by rw [same₃.2]; exact rings)
  have reg (r : Reg) (other : r ≠ .esp) : (iret c₃).reg r = c₁.reg r := (reg₄ r other).trans ((reg₃ r other).trans (reg₂ r other))
  refine ⟨⟨?_,?_,eip,cs,eflags⟩,?_,?_⟩
  · exact ⟨(reg .edi (by decide)).trans edi,(reg .esi (by decide)).trans esi,(reg .ebp (by decide)).trans ebp,
      (reg .ebx (by decide)).trans ebx,(reg .edx (by decide)).trans edx,(reg .ecx (by decide)).trans ecx,
      (reg .eax (by decide)).trans eax⟩
  · rw [seg₄,seg₃]
    exact ⟨gs,fs,es,ds⟩
  · rw [esp₄,esp₃,show d.reg .esp + 64 + 12 = d.reg .esp + 76 by bv_omega]
  · rw [ss₄,same₃.1]

/-- An interrupt, the call of `intr_handler` and its return: the handler is called with
    the address of a frame that describes the interrupted code, and when it has returned
    and left the frame as it was, the code goes on with all its registers. This needs
    the processor to push an error code for just the vectors whose stubs expect one. -/
theorem interrupt_round_trip (agrees : error.isSome = true ↔ stub_type number = .REAL) {e : Cpu}
    (called : e = entry handler ret number (interrupt tss stub trap error c)) :
    ∃ esp_dummy, Stack e (ret :: (e.reg .esp + 8) :: (frame_of c number error esp_dummy).words) ∧ e.eip = handler ∧
      Below ((switched tss c).reg .esp) 88 c.mem e.mem ∧
      ∀ d : Cpu, d.reg .esp = e.reg .esp + 4 → d.cs = e.cs → d.ss = e.ss →
        (∀ i < 80, d.mem (e.reg .esp + 8 + BitVec.ofNat 32 i) = e.mem (e.reg .esp + 8 + BitVec.ofNat 32 i)) →
        (∀ r, (exit d).reg r = c.reg r) ∧ (∀ s, (exit d).seg s = c.seg s) ∧
          (exit d).cs = c.cs ∧ (exit d).ss = c.ss ∧ (exit d).eip = c.eip ∧ (exit d).eflags = c.eflags := by
  obtain ⟨dummy,stack,eip,cs,ss,below,esp⟩ := intr_handler_called agrees called
  refine ⟨dummy,stack,eip,below,?_⟩
  intro d popped cs' ss' kept
  have few := outer_few c
  have long : (frame_of c number error dummy).words.length = 18 + (outer_words c).length := by
    rw [intr_frame.words,List.length_append,frame_saved,List.length_reverse,List.length_append]
    change 15 + ((outer_words c).length + 3) = _
    omega
  have frame : Words d.mem (e.reg .esp + 8) (frame_of c number error dummy).words := by
    have words := stack.2.2
    rw [show e.reg .esp + 4 + 4 = e.reg .esp + 8 by bv_omega] at words
    exact words_congr (fun i inside => kept i (by omega)) words
  have back : Stack d (d.top :: (frame_of c number error dummy).words) := by
    refine ⟨rfl,?_⟩
    rw [popped,show e.reg .esp + 4 + 4 = e.reg .esp + 8 by bv_omega]
    exact frame
  have rings : (frame_of c number error dummy).outer = none ↔ ring (frame_of c number error dummy).cs = ring d.cs := by
    rw [cs',cs]
    change (if ring c.cs = 0 then none else _) = none ↔ ring c.cs = 0
    split <;> simp_all
  obtain ⟨⟨⟨edi,esi,ebp,ebx,edx,ecx,eax⟩,⟨gs,fs,es,ds⟩,eip',cs'',eflags⟩,esp',ss''⟩ := exit_resumes back rings
  have outer : (frame_of c number error dummy).outer = if ring c.cs = 0 then none else some (c.reg .esp,c.ss) := rfl
  rw [outer] at esp' ss''
  refine ⟨?_,?_,cs'',?_,eip',eflags⟩
  · intro r
    cases r with
    | eax => exact eax
    | ecx => exact ecx
    | edx => exact edx
    | ebx => exact ebx
    | ebp => exact ebp
    | esi => exact esi
    | edi => exact edi
    | esp =>
      rw [esp']
      by_cases same : ring c.cs = 0
      · rw [if_pos same,popped,esp]
        have here : (switched tss c).reg .esp = c.reg .esp := by rw [switched,if_pos same]
        have none_pushed : (outer_words c).length = 0 := by rw [outer_words,if_pos same]; rfl
        rw [here,none_pushed]
        change c.reg .esp - 80 + 4 + 76 = c.reg .esp
        bv_omega
      · rw [if_neg same]
        rfl
  · intro s
    cases s with
    | ds => exact ds
    | es => exact es
    | fs => exact fs
    | gs => exact gs
  · rw [ss'']
    by_cases same : ring c.cs = 0
    · rw [if_pos same,ss',ss]
      change (switched tss c).ss = c.ss
      rw [switched,if_pos same]
    · rw [if_neg same]
      rfl

/-- The vectors for which a processor of this family pushes an error code. -/
def error_code_vectors : List (BitVec 8) := [0x08,0x0a,0x0b,0x0c,0x0d,0x0e,0x11]

/-- The stubs expect what these processors push, but for the stack fault and some
    vectors that they never raise. -/
theorem stub_types_agree : ∀ number : BitVec 8, number ∉ [0x0c,0x18,0x1a,0x1b,0x1d,0x1e] →
    (number ∈ error_code_vectors ↔ stub_type number = .REAL) := by decide

/-- A page fault of a user program, at its first instruction. -/
def program : Cpu where
  reg r := if r = .esp then 0xbffffff0 else 5
  seg _ := 0x23
  cs := 0x1b
  ss := 0x23
  eip := 0x08048000
  eflags := 0x202
  mem _ := 0

theorem interrupt_round_trip_page_fault : ∃ esp_dummy,
    Stack (entry 0xc0021000 0xc0020030 0x0e (interrupt ⟨0xc0105000,0x10⟩ 0xc0020000 false (some 4) program))
      (0xc0020030 :: 0xc0104fb0 :: (frame_of program 0x0e (some 4) esp_dummy).words) := by
  have agrees : (some (4 : Word)).isSome = true ↔ stub_type 0x0e = .REAL :=
    ⟨fun _ => (stub_types_agree 0x0e (by decide)).mp (by decide),fun _ => rfl⟩
  obtain ⟨dummy,stack,-⟩ := @interrupt_round_trip program ⟨0xc0105000,0x10⟩ 0xc0020000 0xc0021000 0xc0020030 false _ _ agrees _ rfl
  exact ⟨dummy,stack⟩

end Pintos.InterruptFrames
