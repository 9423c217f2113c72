import Pintos.Lists
import Pintos.Machines
import Mathlib.Algebra.Group.Nat.Defs

/-!
One semaphore and any number of threads: `sema_down`, `sema_try_down` and `sema_up`
of `threads/synch.c`, in project 1, where the waiters are sorted by priority
(`sorts`), and in project 2, where they are first come, first served. Each stretch
with interrupts disabled is one step: a thread that `sema_up` unblocks tests the
value again in a step of its own, and others may come before it.

`woken`, `downs` and `ups` are not in the source. They keep the threads that were
unblocked and have not tested the value again, and count the completed operations.
-/
namespace Pintos.Semaphores
open Pintos.Lists Pintos.Machines

abbrev Tid := Nat

/-- `struct semaphore` and the priorities of the threads. -/
structure Sema where
  value : BitVec 32
  waiters : List Tid
  priority : Tid → Int
  woken : List Tid
  downs : Nat
  ups : Nat

inductive Event
  | sema_down (t : Tid)
  /-- A thread returns from `thread_block` to the loop of `sema_down`. -/
  | resume (t : Tid)
  | sema_try_down
  | sema_up
  | set_priority (t : Tid) (priority : Int)

def sort_by_priority (s : Sema) (a b : Tid) : Bool := s.priority a > s.priority b
def arrange (sorts : Bool) (s : Sema) (ts : List Tid) : List Tid :=
  if sorts then list_sort (sort_by_priority s) ts else ts

/-- `sema->value--`. -/
def decrement (s : Sema) : Sema := { s with value := s.value - 1, downs := s.downs + 1 }

/-- The loop of `sema_down`, as far as `thread_block`. -/
def sema_down (sorts : Bool) (s : Sema) (t : Tid) : Sema :=
  if s.value = 0 then { s with waiters := arrange sorts s (s.waiters ++ [t]) } else decrement s

def sema_try_down (s : Sema) : Sema := if s.value > 0 then decrement s else s

def sema_up (sorts : Bool) (s : Sema) : Sema :=
  let s' := match arrange sorts s s.waiters with
    | [] => s
    | wt :: rest => { s with waiters := rest, woken := wt :: s.woken }
  { s' with value := s'.value + 1, ups := s'.ups + 1 }

def step (sorts : Bool) (s : Sema) : Event → Option Sema
  | .sema_down t => if t ∈ s.waiters ∨ t ∈ s.woken then none else some (sema_down sorts s t)
  | .resume t => if t ∈ s.woken then some (sema_down sorts { s with woken := s.woken.erase t } t) else none
  | .sema_try_down => some (sema_try_down s)
  | .sema_up => some (sema_up sorts s)
  | .set_priority t priority => some { s with priority := fun u => if u = t then priority else s.priority u }

def sema_init (value : BitVec 32) : Sema where
  value := value
  waiters := []
  priority _ := 31
  woken := []
  downs := 0
  ups := 0

def machine (sorts : Bool) (v : BitVec 32) : Machine Sema Event := ofStep (sema_init v) (step sorts)

/-- Nobody stays queued while there are more units than threads on their way to them. -/
def Claimed (s : Sema) : Prop := s.waiters ≠ [] → s.value.toNat ≤ s.woken.length

/-- The value is not raised beyond what its type holds. -/
def Unsaturated (s : Sema) : Event → Prop
  | .sema_up => s.value.toNat + 1 < 2^32
  | _ => True

section
variable {sorts : Bool} {s s' : Sema} {v : BitVec 32} {t : Tid} {event : Event}

theorem arrange_perm (sorts : Bool) (s : Sema) (ts : List Tid) : (arrange sorts s ts).Perm ts := by
  cases sorts with
  | false => exact List.Perm.refl ts
  | true => exact list_sort_perm _ ts

theorem decrement_value (positive : s.value ≠ 0) : (decrement s).value.toNat + 1 = s.value.toNat := by
  have above : 1 ≤ s.value.toNat := by
    have nonzero : s.value.toNat ≠ 0 := fun zero => positive (BitVec.eq_of_toNat_eq zero)
    omega
  simp only [decrement]
  rw [BitVec.toNat_sub_of_le (by simpa [BitVec.le_def] using above)]
  simp
  omega

theorem increment_toNat (v : BitVec 32) : (v + 1).toNat = (v.toNat + 1) % 2^32 := by
  rw [BitVec.toNat_add]
  rfl

/-- What a step does to the value: a unit is taken, or brought, or none. -/
theorem step_units (ran : step sorts s event = some s') :
    s.value ≠ 0 ∧ s'.value.toNat + 1 = s.value.toNat ∧ s'.downs = s.downs + 1 ∧ s'.ups = s.ups ∨
      event = .sema_up ∧ s'.value = s.value + 1 ∧ s'.downs = s.downs ∧ s'.ups = s.ups + 1 ∨
      s'.value = s.value ∧ s'.downs = s.downs ∧ s'.ups = s.ups := by
  have down : ∀ s : Sema, ∀ t, s.value ≠ 0 ∧ (sema_down sorts s t).value.toNat + 1 = s.value.toNat ∧
      (sema_down sorts s t).downs = s.downs + 1 ∧ (sema_down sorts s t).ups = s.ups ∨
      (sema_down sorts s t).value = s.value ∧ (sema_down sorts s t).downs = s.downs ∧ (sema_down sorts s t).ups = s.ups := by
    intro s t
    by_cases zero : s.value = 0
    · exact .inr (by simp [sema_down,zero])
    · rw [sema_down,if_neg zero]
      exact .inl ⟨zero,decrement_value zero,rfl,rfl⟩
  cases event with
  | sema_down t =>
    simp only [step] at ran
    split at ran
    · cases ran
    · cases ran
      exact (down s t).elim .inl fun kept => .inr (.inr kept)
  | resume t =>
    simp only [step,Option.ite_none_right_eq_some,Option.some.injEq] at ran
    obtain ⟨-,rfl⟩ := ran
    exact (down { s with woken := s.woken.erase t } t).elim .inl fun kept => .inr (.inr kept)
  | sema_try_down =>
    cases ran
    by_cases zero : s.value = 0
    · exact .inr (.inr (by simp [sema_try_down,zero]))
    · refine .inl ⟨zero,?_⟩
      have positive : s.value > 0 := by
        rw [gt_iff_lt,BitVec.lt_def]
        have nonzero : s.value.toNat ≠ 0 := fun h => zero (BitVec.eq_of_toNat_eq h)
        simpa using Nat.pos_of_ne_zero nonzero
      rw [sema_try_down,if_pos positive]
      exact ⟨decrement_value zero,rfl,rfl⟩
  | sema_up =>
    cases ran
    refine .inr (.inl ⟨rfl,?_⟩)
    simp only [sema_up]
    split <;> simp
  | set_priority t priority =>
    cases ran
    exact .inr (.inr ⟨rfl,rfl,rfl⟩)

/-! ### The queue -/

/-- A turn of the loop of `sema_down` by a thread that is not counted as woken. -/
theorem claimed_down (t : Tid) (claimed : s.value ≠ 0 → s.waiters ≠ [] → s.value.toNat ≤ s.woken.length + 1) :
    Claimed (sema_down sorts s t) := by
  by_cases zero : s.value = 0
  · intro _
    simp [sema_down,zero]
  · rw [sema_down,if_neg zero]
    intro waiting
    have enough := claimed zero waiting
    have less := decrement_value zero
    simp only [decrement] at less ⊢
    omega

theorem claimed_step (claimed : Claimed s) (ran : step sorts s event = some s') : Claimed s' := by
  cases event with
  | sema_down t =>
    simp only [step] at ran
    split at ran
    · cases ran
    · cases ran
      refine claimed_down t fun _ waiting => ?_
      exact Nat.le_succ_of_le (claimed waiting)
  | resume t =>
    simp only [step,Option.ite_none_right_eq_some,Option.some.injEq] at ran
    obtain ⟨member,rfl⟩ := ran
    refine claimed_down t fun _ waiting => ?_
    have before := claimed waiting
    have counted := List.length_erase_of_mem member
    have positive : 0 < s.woken.length := List.length_pos_of_mem member
    simp only
    omega
  | sema_try_down =>
    cases ran
    rw [sema_try_down]
    split
    · next positive =>
      intro waiting
      have enough := claimed waiting
      have less := decrement_value (s := s) (by rintro zero; simp [zero] at positive)
      simp only [decrement] at less ⊢
      omega
    · exact claimed
  | sema_up =>
    cases ran
    intro waiting
    have grown : (s.value + 1).toNat ≤ s.value.toNat + 1 := by
      rw [increment_toNat]
      exact Nat.mod_le _ _
    have perm := arrange_perm sorts s s.waiters
    simp only [sema_up] at waiting ⊢
    split at waiting
    · next empty =>
      rw [empty] at perm
      exact absurd perm.nil_eq.symm waiting
    · next wt rest split =>
      rw [split] at perm
      have before := claimed (by
        intro none
        rw [none] at perm
        exact List.cons_ne_nil _ _ perm.eq_nil)
      simp only [List.length_cons]
      omega
  | set_priority t priority =>
    cases ran
    exact claimed

theorem reaches_claimed (reach : Reaches (machine sorts v) Anything s) : Claimed s := by
  refine reaches_invariant Claimed ?_ ?_ reach
  · rintro s rfl waiting
    exact absurd rfl waiting
  · exact fun s event s' claimed _ ran => claimed_step claimed ran

/-! ### The units -/

/-- Units that came and went, as far as the value's type counts. -/
theorem reaches_balanced (reach : Reaches (machine sorts v) Anything s) :
    (s.downs + s.value.toNat) % 2^32 = (v.toNat + s.ups) % 2^32 := by
  refine reaches_invariant (fun s => (s.downs + s.value.toNat) % 2^32 = (v.toNat + s.ups) % 2^32) ?_ ?_ reach
  · rintro s rfl
    simp [sema_init]
  · intro s event s' balanced _ ran
    rcases step_units ran with ⟨-,taken,downs,ups⟩ | ⟨-,raised,downs,ups⟩ | ⟨same,downs,ups⟩
    · rw [downs,ups]
      omega
    · rw [raised,downs,ups,increment_toNat]
      omega
    · rw [same,downs,ups]
      exact balanced

theorem reaches_accounted (reach : Reaches (machine sorts v) Unsaturated s) :
    s.downs + s.value.toNat = v.toNat + s.ups := by
  refine reaches_invariant (fun s => s.downs + s.value.toNat = v.toNat + s.ups) ?_ ?_ reach
  · rintro s rfl
    simp [sema_init]
  · intro s event s' accounted below ran
    rcases step_units ran with ⟨-,taken,downs,ups⟩ | ⟨rfl,raised,downs,ups⟩ | ⟨same,downs,ups⟩
    · rw [downs,ups]
      omega
    · have below : s.value.toNat + 1 < 2^32 := below
      rw [raised,downs,ups,increment_toNat]
      omega
    · rw [same,downs,ups]
      exact accounted

/-- Every unit is accounted for, up to the range of the value and exactly while no
    `sema_up` leaves it, and no thread stays queued while a unit is unclaimed. -/
theorem units_accounted (sorts : Bool) (v : BitVec 32) (s : Sema) (reach : Reaches (machine sorts v) Anything s) :
    (s.downs + s.value.toNat) % 2^32 = (v.toNat + s.ups) % 2^32 ∧
      (Reaches (machine sorts v) Unsaturated s → s.downs + s.value.toNat = v.toNat + s.ups) ∧
      (s.waiters ≠ [] → s.value.toNat ≤ s.woken.length) :=
  ⟨reaches_balanced reach,reaches_accounted,reaches_claimed reach⟩

/-- The unit for thread 1 is taken by `sema_try_down`, and it queues again behind thread 2. -/
def stolen : List Event := [.sema_down 1,.sema_down 2,.sema_up,.sema_try_down,.resume 1]

instance (s : Sema) (event : Event) : Decidable (Unsaturated s event) :=
  match event with
  | .sema_up => inferInstanceAs (Decidable (s.value.toNat + 1 < 2^32))
  | .sema_down _ | .resume _ | .sema_try_down | .set_priority _ _ => .isTrue trivial

theorem units_accounted_stolen : ∃ s, guardedRun (step true) Unsaturated (sema_init 0) stolen = some s ∧
    s.waiters = [2,1] ∧ s.downs + s.value.toNat = (0 : BitVec 32).toNat + s.ups ∧ s.value.toNat ≤ s.woken.length := by
  have ran : ∃ s, guardedRun (step true) Unsaturated (sema_init 0) stolen = some s ∧ s.waiters = [2,1] := ⟨_,rfl,rfl⟩
  obtain ⟨s,ran,waiters⟩ := ran
  have reach := guardedRun_reachable (sema_init 0) (step true) Unsaturated stolen ran
  obtain ⟨-,exact_,claimed⟩ := units_accounted true 0 s (reaches_mono (fun _ _ _ => trivial) reach)
  exact ⟨s,ran,waiters,exact_ reach,claimed (by rw [waiters]; simp)⟩

/-- The value of a full semaphore returns to 0. -/
theorem full_semaphore_wraps : ∃ s, run (step true) (sema_init 0xffffffff) [.sema_up] = some s ∧
    Reaches (machine true 0xffffffff) Anything s ∧ s.downs + s.value.toNat ≠ (0xffffffff : BitVec 32).toNat + s.ups :=
  ⟨_,rfl,run_reachable _ _ [.sema_up] rfl,by decide⟩
end

end Pintos.Semaphores
