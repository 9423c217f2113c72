import Mathlib.Logic.Function.Basic
import Pintos.Machines

/-!
Any number of locks and threads: `lock_acquire`, `lock_try_acquire`, `lock_release`,
`cond_wait` and `cond_signal` of `threads/synch.c`. Interrupts are enabled between
any two statements that are not inside a semaphore operation, so each operation of a
semaphore and each access to `holder` is a step, and any thread may take the next
one. An assertion that fails has no successor.

Priorities neither read nor write what is modelled here, except that they choose the
waiter that `sema_up` wakes and `cond_signal` signals: here it may be any of them.

`inside` is not in the source. It keeps the threads between their successful down of
a lock's semaphore and the matching up.
-/
namespace Pintos.Locks
open Pintos.Machines

abbrev Tid := Nat
abbrev LockId := Nat
abbrev CondId := Nat

/-- Where a thread is in the operations. -/
inductive Pc
  | out
  /-- `lock_acquire` at its `sema_down`: before it, queued, and unblocked. -/
  | acquiring (l : LockId)
  | queued (l : LockId)
  | woken (l : LockId)
  | trying (l : LockId)
  /-- The down has succeeded and `holder` is not yet written. -/
  | downed (l : LockId)
  /-- `lock_release` past its assertion, for `cond_wait` or not. -/
  | releasing (l : LockId) (waits : Bool)
  | unheld (l : LockId) (waits : Bool)
  /-- `cond_wait` at the `sema_down` of its own semaphore. -/
  | waiting (l : LockId)
  | sleeping (l : LockId)
  | reacquiring (l : LockId)
deriving DecidableEq

/-- `struct lock`, with its semaphore. -/
structure Lock where
  value : Nat
  waiters : List Tid
  holder : Option Tid
  inside : List Tid

structure Kernel where
  locks : LockId → Lock
  /-- The waiters of a condition, each with a semaphore of its own. -/
  conditions : CondId → List Tid
  waiter_value : Tid → Nat
  pc : Tid → Pc

inductive Event
  | lock_acquire (t : Tid) (l : LockId)
  | lock_try_acquire (t : Tid) (l : LockId)
  | lock_release (t : Tid) (l : LockId)
  | cond_wait (t : Tid) (c : CondId) (l : LockId)
  | cond_signal (t : Tid) (c : CondId) (l : LockId) (wt : Tid)
  /-- The next step of a thread; `wt` is the waiter that a `sema_up` wakes. -/
  | run (t : Tid) (wt : Tid)

def Kernel.setLock (k : Kernel) (l : LockId) (v : Lock) : Kernel := { k with locks := Function.update k.locks l v }
def Kernel.setPc (k : Kernel) (t : Tid) (pc : Pc) : Kernel := { k with pc := Function.update k.pc t pc }

def lock_held_by_current_thread (k : Kernel) (t : Tid) (l : LockId) : Prop := (k.locks l).holder = some t

instance (k : Kernel) (t : Tid) (l : LockId) : Decidable (lock_held_by_current_thread k t l) :=
  inferInstanceAs (Decidable ((k.locks l).holder = some t))

/-- `sema->value--`. -/
def decremented (v : Lock) (t : Tid) : Lock := { v with value := v.value - 1, inside := t :: v.inside }

/-- One turn of the loop of `sema_down`. -/
def sema_down (k : Kernel) (t : Tid) (l : LockId) : Kernel :=
  if (k.locks l).value = 0 then
    (k.setLock l { k.locks l with waiters := (k.locks l).waiters ++ [t] }).setPc t (.queued l)
  else (k.setLock l (decremented (k.locks l) t)).setPc t (.downed l)

def sema_try_down (k : Kernel) (t : Tid) (l : LockId) : Kernel :=
  if (k.locks l).value > 0 then (k.setLock l (decremented (k.locks l) t)).setPc t (.downed l) else k.setPc t .out

/-- `sema_up` by `t`. -/
def sema_up (k : Kernel) (t : Tid) (l : LockId) (wt : Tid) : Option Kernel :=
  let up := { k.locks l with value := (k.locks l).value + 1, inside := (k.locks l).inside.erase t }
  if (k.locks l).waiters = [] then some (k.setLock l up)
  else if wt ∈ (k.locks l).waiters ∧ k.pc wt = .queued l then
    some ((k.setLock l { up with waiters := (k.locks l).waiters.erase wt }).setPc wt (.woken l))
  else none

/-- `sema_up` of the semaphore of a waiter. -/
def signal (k : Kernel) (wt : Tid) : Kernel :=
  let raised := { k with waiter_value := Function.update k.waiter_value wt (k.waiter_value wt + 1) }
  match k.pc wt with
  | .sleeping l => raised.setPc wt (.waiting l)
  | _ => raised

def runStep (k : Kernel) (t wt : Tid) : Pc → Option Kernel
  | .acquiring l => some (sema_down k t l)
  | .woken l => some (sema_down k t l)
  | .trying l => some (sema_try_down k t l)
  | .downed l => some ((k.setLock l { k.locks l with holder := some t }).setPc t .out)
  | .releasing l waits => some ((k.setLock l { k.locks l with holder := none }).setPc t (.unheld l waits))
  | .unheld l waits => sema_up (k.setPc t (if waits then .waiting l else .out)) t l wt
  | .waiting l =>
    if k.waiter_value t = 0 then some (k.setPc t (.sleeping l))
    else some ({ k with waiter_value := Function.update k.waiter_value t (k.waiter_value t - 1) }.setPc t (.reacquiring l))
  | .reacquiring l => if lock_held_by_current_thread k t l then none else some (k.setPc t (.acquiring l))
  | .out | .queued _ | .sleeping _ => none

def step (k : Kernel) : Event → Option Kernel
  | .lock_acquire t l =>
    if k.pc t = .out ∧ ¬ lock_held_by_current_thread k t l then some (k.setPc t (.acquiring l)) else none
  | .lock_try_acquire t l =>
    if k.pc t = .out ∧ ¬ lock_held_by_current_thread k t l then some (k.setPc t (.trying l)) else none
  | .lock_release t l =>
    if k.pc t = .out ∧ lock_held_by_current_thread k t l then some (k.setPc t (.releasing l false)) else none
  | .cond_wait t c l =>
    if k.pc t = .out ∧ lock_held_by_current_thread k t l then
      some ({ k with
        conditions := Function.update k.conditions c (k.conditions c ++ [t])
        waiter_value := Function.update k.waiter_value t 0 }.setPc t (.releasing l true))
    else none
  | .cond_signal t c l wt =>
    if k.pc t = .out ∧ lock_held_by_current_thread k t l then
      if k.conditions c = [] then some k
      else if wt ∈ k.conditions c then
        some (signal { k with conditions := Function.update k.conditions c ((k.conditions c).erase wt) } wt)
      else none
    else none
  | .run t wt => runStep k t wt (k.pc t)

/-- After `lock_init` of every lock. -/
def boot : Kernel where
  locks _ := { value := 1, waiters := [], holder := none, inside := [] }
  conditions _ := []
  waiter_value _ := 0
  pc _ := .out

def machine : Machine Kernel Event := ofStep boot step

/-! ### Ownership -/

/-- What a thread's place says about a lock. -/
def Fits (v : Lock) (l : LockId) (t : Tid) : Pc → Prop
  | .downed m => m = l → v.inside = [t] ∧ v.holder = none
  | .unheld m _ => m = l → v.inside = [t] ∧ v.holder = none
  | .releasing m _ => m = l → v.holder = some t
  | _ => True

structure Owned (k : Kernel) : Prop where
  units : ∀ l, (k.locks l).value + (k.locks l).inside.length = 1
  holder : ∀ l t, (k.locks l).holder = some t → (k.locks l).inside = [t]
  places : ∀ l t, Fits (k.locks l) l t (k.pc t)

section
variable {k k' : Kernel} {t u wt : Tid} {l m : LockId} {v : Lock} {pc : Pc} {event : Event}

/-- A thread moves, with nothing said about locks where it comes to. -/
theorem owned_setPc (owned : Owned k) (place : ∀ l, Fits (k.locks l) l t pc) : Owned (k.setPc t pc) := by
  refine ⟨owned.units,owned.holder,?_⟩
  intro l u
  by_cases same : u = t
  · subst same
    simpa [Kernel.setPc] using place l
  · simpa [Kernel.setPc,same] using owned.places l u

/-- A lock changes hands. -/
theorem owned_setLock (owned : Owned k) (units : v.value + v.inside.length = 1)
    (holder : ∀ t, v.holder = some t → v.inside = [t]) (places : ∀ u, Fits v l u (k.pc u)) : Owned (k.setLock l v) := by
  refine ⟨?_,?_,?_⟩
  · intro m
    by_cases same : m = l
    · subst same
      simpa [Kernel.setLock] using units
    · simpa [Kernel.setLock,same] using owned.units m
  · intro m
    by_cases same : m = l
    · subst same
      simpa [Kernel.setLock] using holder
    · simpa [Kernel.setLock,same] using owned.holder m
  · intro m
    by_cases same : m = l
    · subst same
      simpa [Kernel.setLock] using places
    · simpa [Kernel.setLock,same] using owned.places m

/-- Nobody is anywhere in a lock whose semaphore is up. -/
theorem free_of_up (owned : Owned k) (up : (k.locks l).value ≠ 0) :
    (k.locks l).value = 1 ∧ (k.locks l).inside = [] ∧ (k.locks l).holder = none := by
  have units := owned.units l
  have none_inside : (k.locks l).inside = [] := List.eq_nil_of_length_eq_zero (by omega)
  refine ⟨by rw [none_inside] at units; simpa using units,none_inside,?_⟩
  cases holds : (k.locks l).holder with
  | none => rfl
  | some t =>
    have owner := owned.holder l t holds
    rw [none_inside] at owner
    cases owner

/-- Where a thread cannot be in a lock that nobody is inside. -/
theorem fits_free {w : Lock} (owned : Owned k) (free : (k.locks l).inside = []) (idle : (k.locks l).holder = none) (u : Tid) :
    Fits w l u (k.pc u) := by
  have place := owned.places l u
  cases at_ : k.pc u with
  | downed m =>
    rw [at_] at place
    intro same
    have owner := (place same).1
    rw [free] at owner
    cases owner
  | unheld m waits =>
    rw [at_] at place
    intro same
    have owner := (place same).1
    rw [free] at owner
    cases owner
  | releasing m waits =>
    rw [at_] at place
    intro same
    have owner := place same
    rw [idle] at owner
    cases owner
  | _ => exact trivial

/-- The waiters are nobody's business. -/
theorem fits_waiters {ts : List Tid} (fits : Fits v l u pc) : Fits { v with waiters := ts } l u pc := by
  cases pc <;> exact fits

theorem owned_waiters {ts : List Tid} (owned : Owned k) : Owned (k.setLock l { k.locks l with waiters := ts }) :=
  owned_setLock owned (owned.units l) (owned.holder l) fun u => fits_waiters (owned.places l u)

/-- A successful down. -/
theorem owned_decremented (owned : Owned k) (up : (k.locks l).value ≠ 0) :
    Owned ((k.setLock l (decremented (k.locks l) t)).setPc t (.downed l)) := by
  obtain ⟨one,free,idle⟩ := free_of_up owned up
  refine owned_setPc (owned_setLock owned ?_ ?_ ?_) ?_
  · simp [decremented,one,free]
  · intro u holds
    rw [show (decremented (k.locks l) t).holder = (k.locks l).holder from rfl,idle] at holds
    cases holds
  · exact fits_free owned free idle
  · intro m same
    subst same
    simp [Kernel.setLock,decremented,free,idle]

theorem owned_sema_down (owned : Owned k) : Owned (sema_down k t l) := by
  rw [sema_down]
  split
  · exact owned_setPc (owned_waiters owned) fun _ => trivial
  · next up => exact owned_decremented owned up

/-- The place of another thread in a lock that `t` is inside of. -/
theorem fits_other {w : Lock} (owned : Owned k) (inside : (k.locks l).inside = [t]) (other : u ≠ t) : Fits w l u (k.pc u) := by
  have place := owned.places l u
  have notInside : (k.locks l).inside ≠ [u] := by
    rw [inside]
    simpa using other.symm
  cases at_ : k.pc u with
  | downed m =>
    rw [at_] at place
    exact fun same => absurd (place same).1 notInside
  | unheld m waits =>
    rw [at_] at place
    exact fun same => absurd (place same).1 notInside
  | releasing m waits =>
    rw [at_] at place
    exact fun same => absurd (owned.holder l u (place same)) notInside
  | _ => exact trivial

/-- The thread inside a lock changes it and goes on. -/
theorem owned_inside (owned : Owned k) (inside : (k.locks l).inside = [t]) (units : v.value + v.inside.length = 1)
    (holder : ∀ u, v.holder = some u → v.inside = [u]) (place : Fits v l t pc)
    (elsewhere : ∀ m, m ≠ l → Fits (k.locks m) m t pc) :
    Owned ((k.setLock l v).setPc t pc) := by
  refine ⟨?_,?_,?_⟩
  · intro m
    by_cases same : m = l
    · subst same
      simpa [Kernel.setLock,Kernel.setPc] using units
    · simpa [Kernel.setLock,Kernel.setPc,same] using owned.units m
  · intro m
    by_cases same : m = l
    · subst same
      simpa [Kernel.setLock,Kernel.setPc] using holder
    · simpa [Kernel.setLock,Kernel.setPc,same] using owned.holder m
  · intro m u
    by_cases same : m = l
    · subst same
      by_cases self : u = t
      · subst self
        simpa [Kernel.setLock,Kernel.setPc] using place
      · simpa [Kernel.setLock,Kernel.setPc,self] using fits_other owned inside self
    · by_cases self : u = t
      · subst self
        simpa [Kernel.setLock,Kernel.setPc,same] using elsewhere m same
      · simpa [Kernel.setLock,Kernel.setPc,same,self] using owned.places m u

theorem owned_hold (owned : Owned k) (here : k.pc t = .downed l) :
    Owned ((k.setLock l { k.locks l with holder := some t }).setPc t .out) := by
  have place := owned.places l t
  rw [here] at place
  obtain ⟨inside,-⟩ := place rfl
  refine owned_inside owned inside (owned.units l) ?_ trivial fun _ _ => trivial
  intro u holds
  cases holds
  exact inside

theorem owned_unhold {waits : Bool} (owned : Owned k) (here : k.pc t = .releasing l waits) :
    Owned ((k.setLock l { k.locks l with holder := none }).setPc t (.unheld l waits)) := by
  have place := owned.places l t
  rw [here] at place
  have inside := owned.holder l t (place rfl)
  refine owned_inside owned inside (owned.units l) ?_ (fun _ => ⟨inside,rfl⟩) ?_
  · intro u holds
    cases holds
  · exact fun m other same => absurd same.symm other

theorem owned_sema_up (owned : Owned k) (inside : (k.locks l).inside = [t]) (idle : (k.locks l).holder = none)
    (place : ∀ v m, Fits v m t pc) (ran : sema_up (k.setPc t pc) t l wt = some k') : Owned k' := by
  have raised : ∀ ts, Owned ((k.setLock l { k.locks l with
      value := (k.locks l).value + 1, inside := (k.locks l).inside.erase t, waiters := ts }).setPc t pc) := by
    intro ts
    have units := owned.units l
    refine owned_inside owned inside ?_ ?_ (place _ l) fun m _ => place _ m
    · simp only [inside,List.erase_cons_head,List.length_nil,List.length_singleton] at units ⊢
      omega
    · intro u holds
      change (k.locks l).holder = some u at holds
      rw [idle] at holds
      cases holds
  simp only [sema_up] at ran
  split at ran
  · cases ran
    exact raised (k.locks l).waiters
  · split at ran
    · cases ran
      exact owned_setPc (raised _) fun _ => trivial
    · cases ran

theorem owned_signal (owned : Owned k) : Owned (signal k wt) := by
  simp only [signal]
  split
  · exact owned_setPc (k := { k with waiter_value := _ }) ⟨owned.units,owned.holder,owned.places⟩ fun _ => trivial
  · exact ⟨owned.units,owned.holder,owned.places⟩

theorem owned_run (owned : Owned k) (here : k.pc t = pc) (ran : runStep k t wt pc = some k') : Owned k' := by
  have place := fun l => owned.places l t
  simp only [here] at place
  cases pc with
  | acquiring l =>
    cases ran
    exact owned_sema_down owned
  | woken l =>
    cases ran
    exact owned_sema_down owned
  | trying l =>
    cases ran
    rw [sema_try_down]
    split
    · next up => exact owned_decremented owned (Nat.ne_of_gt up)
    · exact owned_setPc owned fun _ => trivial
  | downed l =>
    cases ran
    exact owned_hold owned here
  | releasing l waits =>
    cases ran
    exact owned_unhold owned here
  | unheld l waits =>
    obtain ⟨inside,idle⟩ := place l rfl
    refine owned_sema_up owned inside idle ?_ ran
    intro v m
    cases waits <;> exact trivial
  | waiting l =>
    simp only [runStep] at ran
    split at ran <;> cases ran
    · exact owned_setPc owned fun _ => trivial
    · exact owned_setPc (k := { k with waiter_value := _ }) ⟨owned.units,owned.holder,owned.places⟩ fun _ => trivial
  | reacquiring l =>
    simp only [runStep] at ran
    split at ran <;> cases ran
    exact owned_setPc owned fun _ => trivial
  | out => cases ran
  | queued l => cases ran
  | sleeping l => cases ran

theorem owned_step (owned : Owned k) (ran : step k event = some k') : Owned k' := by
  cases event with
  | lock_acquire t l =>
    simp only [step,Option.ite_none_right_eq_some,Option.some.injEq] at ran
    obtain ⟨-,rfl⟩ := ran
    exact owned_setPc owned fun _ => trivial
  | lock_try_acquire t l =>
    simp only [step,Option.ite_none_right_eq_some,Option.some.injEq] at ran
    obtain ⟨-,rfl⟩ := ran
    exact owned_setPc owned fun _ => trivial
  | lock_release t l =>
    simp only [step,Option.ite_none_right_eq_some,Option.some.injEq] at ran
    obtain ⟨⟨-,holds⟩,rfl⟩ := ran
    exact owned_setPc owned fun m same => same ▸ holds
  | cond_wait t c l =>
    simp only [step,Option.ite_none_right_eq_some,Option.some.injEq] at ran
    obtain ⟨⟨-,holds⟩,rfl⟩ := ran
    exact owned_setPc (k := { k with conditions := _, waiter_value := _ }) ⟨owned.units,owned.holder,owned.places⟩
      fun m same => same ▸ holds
  | cond_signal t c l wt =>
    simp only [step,Option.ite_none_right_eq_some] at ran
    obtain ⟨-,ran⟩ := ran
    split at ran
    · cases ran
      exact owned
    · split at ran <;> cases ran
      exact owned_signal ⟨owned.units,owned.holder,owned.places⟩
  | run t wt => exact owned_run owned rfl ran

theorem reaches_owned (reach : Reaches machine Anything k) : Owned k := by
  refine reaches_invariant Owned ?_ ?_ reach
  · rintro k rfl
    exact ⟨fun _ => rfl,fun _ _ holds => absurd holds (by simp [boot]),fun _ _ => trivial⟩
  · exact fun k event k' owned _ ran => owned_step owned ran

/-- Mutual exclusion and ownership at every point of every interleaving. -/
theorem locks_exclusive (reach : Reaches machine Anything k) (l : LockId) :
    ((k.locks l).value = 0 ∨ (k.locks l).value = 1) ∧
      (k.locks l).inside.length ≤ 1 ∧
      ((k.locks l).holder = none ∨ ∃ t, (k.locks l).holder = some t ∧ (k.locks l).inside = [t]) ∧
      ((k.locks l).value = 1 → (k.locks l).holder = none) := by
  have owned := reaches_owned reach
  have units := owned.units l
  refine ⟨by omega,by omega,?_,?_⟩
  · cases holds : (k.locks l).holder with
    | none => exact .inl rfl
    | some t => exact .inr ⟨t,rfl,owned.holder l t holds⟩
  · intro up
    exact (free_of_up owned (by omega)).2.2

/-- Thread 1 waits on a condition while thread 2 takes the lock, signals and releases it;
    thread 3 overtakes thread 1. -/
def overtaken : List Event :=
  [.lock_acquire 1 0,.run 1 0,.run 1 0,.cond_wait 1 0 0,.run 1 0,.run 1 0,.run 1 0,.lock_acquire 2 0,.run 2 0,.run 2 0,
    .cond_signal 2 0 0 1,.run 1 0,.run 1 0,.run 1 0,.lock_release 2 0,.run 2 0,.run 2 1,.lock_try_acquire 3 0,.run 3 0]

theorem locks_exclusive_overtaken : ∃ k, run step boot overtaken = some k ∧ k.pc 1 = .woken 0 ∧
    (k.locks 0).inside = [3] ∧ (k.locks 0).holder = none ∧ (k.locks 0).inside.length ≤ 1 := by
  have ran : ∃ k, run step boot overtaken = some k ∧ k.pc 1 = .woken 0 ∧ (k.locks 0).inside = [3] ∧
      (k.locks 0).holder = none := ⟨_,rfl,rfl,rfl,rfl⟩
  obtain ⟨k,ran,woken,inside,idle⟩ := ran
  exact ⟨k,ran,woken,inside,idle,(locks_exclusive (run_reachable boot step overtaken ran) 0).2.1⟩
end

end Pintos.Locks
