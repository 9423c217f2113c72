import Pintos.StrayReads

/-!
`sema_up` step by step: the waiter that it wakes, and the yield at its end, which an
interrupt handler may not make. `Cpu` is the kernel with the two flags of `interrupt.c`.
-/
namespace Pintos.Wakeups
open Pintos.Lists Pintos.Machines Pintos.Scheduler Pintos.ReadyQueue Pintos.Queues
open Pintos.Synch hiding Event step boot machine sema_down sema_up
open Pintos.Scheduler renaming sema_up → sched_sema_up, thread_yield → sched_thread_yield
set_option linter.unusedSimpArgs false

/-! ### The code -/

/-- `sema_up` up to `sema->value++`, with `wt` where it is set. -/
def wake (s : Sched) (x : Sema) : Option (Option Tid × Sched) :=
  match list_sort (sort_by_priority s.k) (s.sema x).waiters with
  | [] => some (none,s.setSema x { s.sema x with value := (s.sema x).value + 1 })
  | wt :: rest => do
    let woken ← thread_unblock (s.setSema x { s.sema x with waiters := rest }) wt
    pure (some wt,woken.setSema x { woken.sema x with value := (woken.sema x).value + 1 })

/-- The comparison that follows; `stray` is read where `wt` is not set. -/
def outranked (s : Sched) (stray : Int) : Option Tid → Bool
  | none => stray > s.k.priority s.current
  | some wt => s.k.priority wt > s.k.priority s.current

structure Cpu where
  sched : Sched
  in_external_intr : Bool
  yield_on_return : Bool

def intr_context (c : Cpu) : Bool := c.in_external_intr
def intr_yield_on_return (c : Cpu) : Option Cpu := if intr_context c then some { c with yield_on_return := true } else none

/-- The running thread, with the assertions of `thread_current`. -/
def thread_current (c : Cpu) : Option Tid :=
  if is_thread c.sched c.sched.current ∧ c.sched.status c.sched.current = .running then some c.sched.current else none

def thread_yield (c : Cpu) : Option Cpu := do
  let _ ← thread_current c
  if intr_context c then none else pure { c with sched := sched_thread_yield c.sched }

def sema_up (c : Cpu) (x : Sema) (stray : Int) : Option Cpu := do
  let (wt,s) ← wake c.sched x
  let c := { c with sched := s }
  let _ ← thread_current c
  if outranked s stray wt then thread_yield c else pure c

variable {s s' : Sched} {c c' : Cpu} {x : Sema} {t : Tid} {stray : Int}

/-- Outside of interrupts this is `sema_up` of the scheduled kernel. -/
theorem sema_up_wakes (s : Sched) (x : Sema) (stray : Int) : sched_sema_up s x stray =
    (wake s x).map fun (wt,up) => if outranked up stray wt then sched_thread_yield up else up := by
  cases sorted : list_sort (sort_by_priority s.k) (s.sema x).waiters with
  | nil =>
    simp only [sched_sema_up,wake,sorted,Option.map_some,outranked,decide_eq_true_eq]
  | cons wt rest =>
    simp only [sched_sema_up,wake,sorted]
    cases thread_unblock (s.setSema x { s.sema x with waiters := rest }) wt with
    | none => rfl
    | some woken =>
      simp only [Option.bind_eq_bind,Option.bind_some,Option.pure_def,Option.map_some,outranked,decide_eq_true_eq]

/-! ### The waiter that is woken -/

/-- What waits on the semaphore is blocked. -/
def Waiting (s : Sched) (x : Sema) : Prop := ∀ t ∈ (s.sema x).waiters, is_thread s t ∧ s.status t = .blocked

theorem waiting_reached (reached : Reaches machine Anything s) : Waiting s x := by
  obtain ⟨⟨-,place,placed⟩,-⟩ := StrayReads.reaches_inv reached
  intro t member
  have here := (placed.waiting x t).mp member
  refine ⟨(placed.known t).mpr (by simp [here]),?_⟩
  simpa [here,Fits] using placed.status t

/-- What a wakeup of `wt` leaves: the value is one more, and nothing changes but the
    waiters and the place of `wt`. -/
structure Woke (s up : Sched) (x : Sema) (wt : Tid) : Prop where
  member : wt ∈ (s.sema x).waiters
  highest : ∀ t ∈ (s.sema x).waiters, s.k.priority t ≤ s.k.priority wt
  others : (wt :: (up.sema x).waiters).Perm (s.sema x).waiters
  value : (up.sema x).value = (s.sema x).value + 1
  ready : up.status wt = .ready ∧ (wt ∈ up.ready_list ∧ ∀ t, t ∈ up.ready_list ↔ t ∈ s.ready_list ∨ t = wt)
  status : ∀ t, t ≠ wt → up.status t = s.status t
  priority : ∀ t, up.k.priority t = s.k.priority t
  current : up.current = s.current ∧ up.scheduling = s.scheduling ∧ up.k.count = s.k.count
  semas : ∀ y, y ≠ x → up.sema y = s.sema y

theorem wake_spec (waiting : Waiting s x) (busy : (s.sema x).waiters ≠ []) :
    ∃ wt up, wake s x = some (some wt,up) ∧ Woke s up x wt := by
  cases sorted : list_sort (sort_by_priority s.k) (s.sema x).waiters with
  | nil =>
    have perm := list_sort_perm (sort_by_priority s.k) (s.sema x).waiters
    rw [sorted] at perm
    exact absurd perm.symm.eq_nil busy
  | cons wt rest =>
    have perm : (wt :: rest).Perm (s.sema x).waiters := sorted ▸ list_sort_perm (sort_by_priority s.k) _
    have order : Nonincreasing s.k (wt :: rest) := sorted ▸ sort_sorted s.k _
    have member := perm.subset List.mem_cons_self
    obtain ⟨known,blocked⟩ := waiting wt member
    let popped := s.setSema x { s.sema x with waiters := rest }
    let woken := (popped.push wt).setStatus wt .ready
    obtain ⟨list,-,count,status,-,current,scheduling,-⟩ := setSema_frame (s := s) (x := x) { s.sema x with waiters := rest }
    obtain ⟨list',-,count',status',-,current',scheduling',-⟩ :=
      setSema_frame (s := woken) (x := x) { woken.sema x with value := (woken.sema x).value + 1 }
    have unblocked : thread_unblock popped wt = some woken := by
      refine if_pos ⟨?_,?_⟩
      · rw [is_thread,count]
        exact known
      · rw [status]
        exact blocked
    have semas (y : Sema) : woken.sema y = popped.sema y := by cases y <;> rfl
    have own : popped.sema x = { s.sema x with waiters := rest } := sema_setSema _
    have priorities (u : Sched) (v : Semaphore) (t : Tid) : (u.setSema x v).k.priority t = u.k.priority t := by cases x <;> rfl
    have status (t : Tid) : woken.status t = if t = wt then .ready else s.status t := by
      show (if t = wt then Status.ready else popped.status t) = _
      rw [status]
    refine ⟨wt,woken.setSema x { woken.sema x with value := (woken.sema x).value + 1 },?_,member,?_,?_,?_,⟨?_,?_,?_⟩,?_,?_,?_,?_⟩
    · rw [wake,sorted]
      show (thread_unblock popped wt).bind _ = _
      rw [unblocked]
      rfl
    · exact fun t waits => first_highest order (perm.symm.subset waits)
    · rw [sema_setSema,semas,own]
      exact perm
    · rw [sema_setSema,semas,own]
    · rw [status',status,if_pos rfl]
    · rw [list']
      exact mem_push.mpr (.inr rfl)
    · intro t
      rw [list']
      exact mem_push.trans (by rw [list])
    · intro t other
      rw [status',status,if_neg other]
    · intro t
      rw [priorities]
      exact priorities s _ t
    · exact ⟨current'.trans current,scheduling'.trans scheduling,count'.trans count⟩
    · intro y other
      rw [sema_setSema_other _ other,semas]
      exact sema_setSema_other _ other

/-- `sema_up` takes a waiter of the highest current priority out of the waiters, leaves
    the others each once, makes it ready and counts up, and only then compares and yields. -/
theorem most_urgent_woken (s : Sched) (x : Sema) (stray : Int) (waiting : Waiting s x) (busy : (s.sema x).waiters ≠ []) :
    ∃ wt up, Woke s up x wt ∧ ((s.sema x).waiters.Nodup → wt ∉ (up.sema x).waiters ∧ (up.sema x).waiters.Nodup) ∧
      sched_sema_up s x stray = some (if up.k.priority wt > up.k.priority up.current then sched_thread_yield up else up) := by
  obtain ⟨wt,up,wakes,woke⟩ := wake_spec waiting busy
  refine ⟨wt,up,woke,fun once => List.nodup_cons.mp (woke.others.nodup_iff.mpr once),?_⟩
  rw [sema_up_wakes,wakes]
  simp only [Option.map_some,outranked,decide_eq_true_eq]

/-- Two waiters that a donation has put out of order. -/
def out_of_order : Sched :=
  { boot with
    k := { boot.k with count := 4, threads := fun t => init_thread (if t = 3 then 40 else 20) }
    semas := fun _ => ⟨0,[2,3]⟩ }

theorem most_urgent_woken_third : ∃ up, Woke out_of_order up (.plain 0) 3 ∧ (sched_sema_up out_of_order (.plain 0) 0).isSome := by
  have waiting : Waiting out_of_order (.plain 0) := by
    show ∀ t ∈ [2,3], is_thread out_of_order t ∧ out_of_order.status t = .blocked
    decide
  obtain ⟨wt,up,woke,-,runs⟩ := most_urgent_woken out_of_order (.plain 0) 0 waiting (by decide)
  have member : wt ∈ [2,3] := woke.member
  have high := woke.highest 3 (by decide)
  rcases List.mem_cons.mp member with rfl | last
  · exact absurd high (by decide)
  · obtain rfl := List.mem_singleton.mp last
    exact ⟨up,woke,by rw [runs]; rfl⟩

/-! ### In an interrupt handler -/

/-- The running thread is one. -/
def Runs (s : Sched) : Prop := is_thread s s.current ∧ s.status s.current = .running

/-- What an interrupt handler needs of `sema_up`: it completes and counts up, a waiter of
    the highest priority is ready if there is one, and a yield to it is left for the return
    from the interrupt. -/
def Handled (c : Cpu) (x : Sema) (stray : Int) : Prop :=
  ∃ c', sema_up c x stray = some c' ∧ (c'.sched.sema x).value = (c.sched.sema x).value + 1 ∧
    ((c.sched.sema x).waiters = [] ∨ ∃ wt, Woke c.sched c'.sched x wt) ∧ c'.sched.scheduling = c.sched.scheduling ∧
    ((∃ t ∈ (c.sched.sema x).waiters, c.sched.k.priority c.sched.current < c.sched.k.priority t) → c'.yield_on_return = true)

theorem wake_none (empty : (s.sema x).waiters = []) :
    wake s x = some (none,s.setSema x { s.sema x with value := (s.sema x).value + 1 }) := by
  have sorted : list_sort (sort_by_priority s.k) (s.sema x).waiters = [] := by
    rw [empty]
    exact (list_sort_perm _ []).eq_nil
  rw [wake,sorted]

/-- After the wakeup, the handler may go on or has to yield, which it may not. -/
theorem sema_up_handled {wt : Option Tid} {up : Sched} (inside : c.in_external_intr = true)
    (wakes : wake c.sched x = some (wt,up))
    (runs : Runs up) : sema_up c x stray = if outranked up stray wt then none else some { c with sched := up } := by
  have current : thread_current { c with sched := up } = some up.current := if_pos runs
  have yields : thread_yield { c with sched := up } = none := by
    rw [thread_yield,current]
    exact if_pos inside
  simp only [sema_up,wakes,current,yields,Option.bind_eq_bind,Option.bind_some,Option.pure_def]

/-- `sema_up` serves an interrupt handler just where nothing that it compares is above the
    interrupted thread. -/
theorem sema_up_handled_iff (c : Cpu) (x : Sema) (stray : Int) (inside : c.in_external_intr = true) (runs : Runs c.sched)
    (waiting : Waiting c.sched x) : Handled c x stray ↔
      (∀ t ∈ (c.sched.sema x).waiters, c.sched.k.priority t ≤ c.sched.k.priority c.sched.current) ∧
      ((c.sched.sema x).waiters = [] → stray ≤ c.sched.k.priority c.sched.current) := by
  by_cases empty : (c.sched.sema x).waiters = []
  · have up : sema_up c x stray = _ := sema_up_handled inside (wake_none empty) (by cases x <;> exact runs)
    have compares : outranked (c.sched.setSema x { c.sched.sema x with value := (c.sched.sema x).value + 1 }) stray none =
        decide (stray > c.sched.k.priority c.sched.current) := by
      cases x <;> rfl
    rw [compares] at up
    simp only [decide_eq_true_eq,gt_iff_lt] at up
    constructor
    · rintro ⟨c',ran,-⟩
      rw [up] at ran
      split at ran
      · cases ran
      · next low => exact ⟨by simp [empty],fun _ => Int.not_lt.mp low⟩
    · rintro ⟨-,low⟩
      rw [if_neg (Int.not_lt.mpr (low empty))] at up
      refine ⟨_,up,by rw [sema_setSema],.inl empty,?_,?_⟩
      · cases x <;> rfl
      · rintro ⟨t,member,-⟩
        rw [empty] at member
        exact absurd member List.not_mem_nil
  · obtain ⟨wt,woken,wakes,woke⟩ := wake_spec waiting empty
    have other : c.sched.current ≠ wt := by
      intro same
      have blocked := (waiting wt woke.member).2
      rw [← same,runs.2] at blocked
      cases blocked
    have still : Runs woken := by
      rw [Runs,is_thread,woke.current.1,woke.current.2.2,woke.status _ other]
      exact runs
    have up : sema_up c x stray = _ := sema_up_handled inside wakes still
    simp only [outranked,woke.priority,woke.current.1,decide_eq_true_eq,gt_iff_lt] at up
    constructor
    · rintro ⟨c',ran,-⟩
      rw [up] at ran
      split at ran
      · cases ran
      · next low => exact ⟨fun t member => Int.le_trans (woke.highest t member) (Int.not_lt.mp low),fun none_ => absurd none_ empty⟩
    · rintro ⟨low,-⟩
      rw [if_neg (Int.not_lt.mpr (low wt woke.member))] at up
      refine ⟨_,up,woke.value,.inr ⟨wt,woke⟩,woke.current.2.1,?_⟩
      rintro ⟨t,member,above⟩
      exact absurd above (Int.not_lt.mpr (low t member))

/-- A thread of priority 20 waits, and the main thread is interrupted. -/
def waits_below : Sched :=
  { boot with
    k := { boot.k with count := 3, threads := fun t => init_thread (if t = 2 then 20 else 31) }
    semas := fun _ => ⟨0,[2]⟩ }

theorem lower_waiter_handled : Handled ⟨waits_below,true,false⟩ (.plain 0) 0 := by
  have waiting : Waiting waits_below (.plain 0) := by
    show ∀ t ∈ [2], is_thread waits_below t ∧ waits_below.status t = .blocked
    decide
  refine (sema_up_handled_iff ⟨waits_below,true,false⟩ (.plain 0) 0 rfl ⟨by decide,rfl⟩ waiting).mpr ⟨?_,?_⟩
  · show ∀ t ∈ [2], waits_below.k.priority t ≤ waits_below.k.priority 0
    decide
  · exact fun none_ => absurd none_ (List.cons_ne_nil 2 [])

/-- A thread of priority 40 waits for a device, the main thread runs with priority 31, and
    the device interrupts it. -/
def waits_above : List Event :=
  [.call (.thread_create 40)] ++ execs 12 ++ [.schedule,.call (.sema_down 0),.exec 0,.schedule]

theorem device_interrupt_fails : ∃ s, run step boot waits_above = some s ∧ Reaches machine Anything s ∧ interruptible s = true ∧
    (s.sema (.plain 0)).waiters = [2] ∧ sema_up ⟨s,true,false⟩ (.plain 0) 0 = none :=
  ⟨_,rfl,run_reachable boot step waits_above rfl,rfl,rfl,rfl⟩

end Pintos.Wakeups
