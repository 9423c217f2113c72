import Pintos.Synch
import Mathlib.Tactic.Common

/-!
What one step of the lock machine can do. `step_cases` lists every successful
step with the state it leaves, `lock_release_spec` says what a release does to
each field, and `donate_induction` carries a property along the recursion of
`priority_donation`. The invariants of `Wf` need no condition on the steps.
-/
namespace Pintos.Synch
open Pintos.Lists Pintos.Machines
set_option linter.unusedSimpArgs false
variable {k k' d : Kernel} {t u ct : Tid} {l m : LockId} {e : Event} {stray : Int}

/-! ### Fields after an update -/

@[simp] theorem setThread_count (r : Thread) : (k.setThread t r).count = k.count := rfl
@[simp] theorem setThread_locks (r : Thread) : (k.setThread t r).locks = k.locks := rfl
@[simp] theorem setThread_base (r : Thread) : (k.setThread t r).base = k.base := rfl
@[simp] theorem setThread_holder (r : Thread) : (k.setThread t r).holder m = k.holder m := rfl
@[simp] theorem setThread_value (r : Thread) : (k.setThread t r).value m = k.value m := rfl
@[simp] theorem setThread_waiters (r : Thread) : (k.setThread t r).waiters m = k.waiters m := rfl
@[simp] theorem setThread_same (r : Thread) : (k.setThread t r).threads t = r := by simp [Kernel.setThread]
theorem setThread_other (r : Thread) (other : u ≠ t) : (k.setThread t r).threads u = k.threads u := by
  simp [Kernel.setThread,other]
@[simp] theorem setLock_count (r : Lock) : (k.setLock l r).count = k.count := rfl
@[simp] theorem setLock_threads (r : Lock) : (k.setLock l r).threads = k.threads := rfl
@[simp] theorem setLock_base (r : Lock) : (k.setLock l r).base = k.base := rfl
@[simp] theorem setLock_priority (r : Lock) : (k.setLock l r).priority t = k.priority t := rfl
@[simp] theorem setLock_same (r : Lock) : (k.setLock l r).locks l = r := by simp [Kernel.setLock]
theorem setLock_other (r : Lock) (other : m ≠ l) : (k.setLock l r).locks m = k.locks m := by
  simp [Kernel.setLock,other]

/-! ### Donation -/

theorem donated_listed (h : Thread) (p : Int) (listed : l ∈ h.lock_list) :
    (donated h l p).lock_list = h.lock_list ∧ (donated h l p).donation_nested_level = h.donation_nested_level := by
  unfold donated
  by_cases zero : h.donation_nested_level = 0 <;> simp [zero,listed]
theorem donated_unlisted (h : Thread) (p : Int) (unlisted : l ∉ h.lock_list) :
    (donated h l p).lock_list = h.lock_list ++ [l] ∧
      (donated h l p).donation_nested_level = h.donation_nested_level + 1 := by
  unfold donated
  by_cases zero : h.donation_nested_level = 0 <;> simp [zero,unlisted]

theorem donated_orig (h : Thread) (p : Int) : (donated h l p).orig_priority =
    if h.donation_nested_level = 0 then h.priority else h.orig_priority := by
  unfold donated
  by_cases zero : h.donation_nested_level = 0
  · by_cases listed : l ∈ h.lock_list <;> simp [zero,listed]
  · by_cases listed : l ∈ h.lock_list <;> simp [zero,listed]

theorem donateOnce_cases {next : Option LockId} (ran : donateOnce k ct l = some (k',next)) :
    (k' = k ∧ next = none ∧ ∀ lh, k.holder l = some lh →
      k.priority ct ≤ k.priority lh ∨ MAX_NESTED_LEVEL ≤ (k.threads lh).donation_nested_level) ∨
    ∃ lh, k.holder l = some lh ∧ k.priority lh < k.priority ct ∧
      (k.threads lh).donation_nested_level < MAX_NESTED_LEVEL ∧
      (l ∉ (k.threads lh).lock_list → linkedElsewhere k lh l = false) ∧
      k' = k.setThread lh (donated (k.threads lh) l (k.priority ct)) ∧
      next = (k.threads lh).lock_waiting_for := by
  unfold donateOnce at ran
  cases holds : k.holder l with
  | none =>
    rw [holds] at ran
    obtain ⟨rfl,rfl⟩ := Prod.mk.inj (Option.some.inj ran)
    exact .inl ⟨rfl,rfl,fun lh other => by simp at other⟩
  | some lh =>
    rw [holds] at ran
    dsimp only at ran
    by_cases lower : (k.threads lh).priority < k.priority ct
    · by_cases level : (k.threads lh).donation_nested_level < MAX_NESTED_LEVEL
      · rw [if_pos lower,if_pos level] at ran
        split at ran
        · cases ran
        · next separate =>
          obtain ⟨rfl,rfl⟩ := Prod.mk.inj (Option.some.inj ran)
          refine .inr ⟨lh,rfl,lower,level,?_,rfl,rfl⟩
          intro unlisted
          by_contra linked
          exact separate ⟨unlisted,by simpa using linked⟩
      · rw [if_pos lower,if_neg level] at ran
        obtain ⟨rfl,rfl⟩ := Prod.mk.inj (Option.some.inj ran)
        refine .inl ⟨rfl,rfl,?_⟩
        rintro other same
        cases same
        exact .inr (by omega)
    · rw [if_neg lower] at ran
      obtain ⟨rfl,rfl⟩ := Prod.mk.inj (Option.some.inj ran)
      refine .inl ⟨rfl,rfl,?_⟩
      rintro other same
      cases same
      exact .inl (by simpa [Kernel.priority] using lower)

/-- The rule for `priority_donation`: `Inv` holds of the state and the lock at
    each activation, and every activation leaves a state where `Post` holds. -/
theorem donate_induction (Inv : Kernel → LockId → Prop) (Post : Kernel → Prop)
    (kept : ∀ k l k' next, Inv k l → donateOnce k ct l = some (k',next) →
      Post k' ∧ ∀ m, next = some m → Inv k' m) :
    ∀ (n : Nat) (k : Kernel) (l : LockId), Inv k l → donate ct n k l = some k' → Post k' := by
  intro n
  induction n with
  | zero => intro k l _ ran; simp [donate] at ran
  | succ n ih =>
    intro k l inv ran
    rw [donate] at ran
    cases once : donateOnce k ct l with
    | none => simp [once] at ran
    | some result =>
      obtain ⟨middle,next⟩ := result
      rw [once] at ran
      obtain ⟨post,further⟩ := kept k l middle next inv once
      cases next with
      | none => exact Option.some.inj ran ▸ post
      | some next => exact ih middle next (further next rfl) ran

/-- What a donation leaves alone. -/
structure SameButDonated (k k' : Kernel) : Prop where
  count : k'.count = k.count
  locks : k'.locks = k.locks
  base : k'.base = k.base
  waiting : ∀ t, (k'.threads t).lock_waiting_for = (k.threads t).lock_waiting_for
  raised : ∀ t, k.priority t ≤ k'.priority t

theorem sameButDonated_refl (k : Kernel) : SameButDonated k k :=
  ⟨rfl,rfl,rfl,fun _ => rfl,fun _ => Int.le_refl _⟩

@[simp] theorem donated_waiting (h : Thread) (l : LockId) (p : Int) :
    (donated h l p).lock_waiting_for = h.lock_waiting_for := by
  unfold donated
  dsimp only
  split <;> split <;> rfl

@[simp] theorem donated_priority (h : Thread) (l : LockId) (p : Int) : (donated h l p).priority = p := rfl

theorem donateOnce_same {next : Option LockId} (ran : donateOnce k ct l = some (k',next)) : SameButDonated k k' := by
  rcases donateOnce_cases ran with ⟨rfl,_,_⟩ | ⟨lh,_,lower,_,_,rfl,_⟩
  · exact sameButDonated_refl k'
  · refine ⟨rfl,rfl,rfl,?_,?_⟩
    · intro t
      by_cases same : t = lh
      · subst same; simp
      · rw [setThread_other _ same]
    · intro t
      by_cases same : t = lh
      · subst same
        simp only [Kernel.priority,setThread_same,donated_priority] at lower ⊢
        omega
      · simp [Kernel.priority,setThread_other _ same]

theorem donate_same {n : Nat} (ran : donate ct n k l = some d) : SameButDonated k d := by
  refine donate_induction (fun k1 _ => SameButDonated k k1) _ ?_ n k l (sameButDonated_refl k) ran
  intro k1 l1 k2 next before once
  have after := donateOnce_same once
  have both : SameButDonated k k2 :=
    ⟨after.count.trans before.count,after.locks.trans before.locks,after.base.trans before.base,
      fun t => (after.waiting t).trans (before.waiting t),fun t => Int.le_trans (before.raised t) (after.raised t)⟩
  exact ⟨both,fun _ _ => both⟩

theorem priority_donation_same (ran : priority_donation k ct l = some d) : SameButDonated k d := donate_same ran

/-- A thread does not donate to itself. -/
theorem priority_donation_own (ran : priority_donation k ct l = some d) : d.priority ct = k.priority ct := by
  refine donate_induction (fun k1 _ => k1.priority ct = k.priority ct) (fun k1 => k1.priority ct = k.priority ct)
    ?_ _ k l rfl ran
  intro k1 l1 k2 next before once
  have after : k2.priority ct = k.priority ct := by
    rcases donateOnce_cases once with ⟨rfl,_,_⟩ | ⟨lh,_,lower,_,_,rfl,_⟩
    · exact before
    · have other : ct ≠ lh := by
        rintro rfl
        omega
      simpa [Kernel.priority,setThread_other _ other] using before
  exact ⟨after,fun _ _ => after⟩

theorem priority_donation_free (unheld : k.holder l = none) : priority_donation k ct l = some k := by
  simp [priority_donation,donate,donateOnce,unheld]

/-! ### Releases -/

/-- The priority of `t` after a release of `l` that restores it. -/
def restoredPriority (k : Kernel) (t : Tid) (l : LockId) : Int :=
  let c := k.threads t
  let target := if c.donation_nested_level - 1 = 0 then c.orig_priority else highestFront k (c.lock_list.erase l) 0
  if target ≥ 0 then target else c.priority

/-- The record of the thread `t` after it releases `l`. -/
def restored (k : Kernel) (t : Tid) (l : LockId) (stray : Int) : Thread :=
  let c := k.threads t
  if c.donation_nested_level = 0 ∨ l ∉ c.lock_list then c
  else if frontPriority k l stray = c.priority then
    { c with
      donation_nested_level := c.donation_nested_level - 1
      lock_list := c.lock_list.erase l
      priority := restoredPriority k t l }
  else { c with donation_nested_level := c.donation_nested_level - 1 }

/-- The three ways of a release: no donation was recorded for the lock, the
    priority is restored, or the donation is taken to be overtaken. -/
theorem restored_cases (k : Kernel) (t : Tid) (l : LockId) (stray : Int) :
    (((k.threads t).donation_nested_level = 0 ∨ l ∉ (k.threads t).lock_list) ∧
      restored k t l stray = k.threads t) ∨
    ((k.threads t).donation_nested_level ≠ 0 ∧ l ∈ (k.threads t).lock_list ∧
      frontPriority k l stray = k.priority t ∧
      restored k t l stray = { k.threads t with
        donation_nested_level := (k.threads t).donation_nested_level - 1
        lock_list := (k.threads t).lock_list.erase l
        priority := restoredPriority k t l }) ∨
    ((k.threads t).donation_nested_level ≠ 0 ∧ l ∈ (k.threads t).lock_list ∧
      frontPriority k l stray ≠ k.priority t ∧
      restored k t l stray = { k.threads t with
        donation_nested_level := (k.threads t).donation_nested_level - 1 }) := by
  unfold restored Kernel.priority
  dsimp only
  by_cases zero : (k.threads t).donation_nested_level = 0
  · exact .inl ⟨.inl zero,if_pos (.inl zero)⟩
  · by_cases listed : l ∈ (k.threads t).lock_list
    · have recorded : ¬ ((k.threads t).donation_nested_level = 0 ∨ l ∉ (k.threads t).lock_list) := by
        simp [zero,listed]
      rw [if_neg recorded]
      by_cases front : frontPriority k l stray = (k.threads t).priority
      · exact .inr (.inl ⟨zero,listed,front,if_pos front⟩)
      · exact .inr (.inr ⟨zero,listed,front,if_neg front⟩)
    · exact .inl ⟨.inr listed,if_pos (.inr listed)⟩

/-- Everything a release does. -/
structure Released (k k' : Kernel) (t : Tid) (l : LockId) (stray : Int) : Prop where
  count : k'.count = k.count
  base : k'.base = k.base
  others : ∀ u, u ≠ t → k'.threads u = k.threads u
  own : k'.threads t = restored k t l stray
  locks : ∀ m, m ≠ l → k'.locks m = k.locks m
  holder : k'.holder l = none
  value : k'.value l = k.value l + 1
  waiters : ∀ w ∈ k'.waiters l, w ∈ k.waiters l

@[simp] theorem putPriority_count (p : Int) : (putPriority k t p).count = k.count := by
  unfold putPriority; split <;> rfl
@[simp] theorem putPriority_base (p : Int) : (putPriority k t p).base = k.base := by
  unfold putPriority; split <;> rfl
@[simp] theorem putPriority_locks (p : Int) : (putPriority k t p).locks = k.locks := by
  unfold putPriority; split <;> rfl
theorem putPriority_other (p : Int) (other : u ≠ t) : (putPriority k t p).threads u = k.threads u := by
  unfold putPriority
  split
  · exact setThread_other _ other
  · rfl

theorem putPriority_same (p : Int) :
    (putPriority k t p).threads t = { k.threads t with priority := if p ≥ 0 then p else k.priority t } := by
  unfold putPriority
  split <;> simp_all [Kernel.priority]

/-- `priority_restoration` changes nothing but the record of the current thread. -/
theorem priority_restoration_frame (k : Kernel) (t : Tid) (l : LockId) (stray : Int) :
    (priority_restoration k t l stray).1.count = k.count ∧ (priority_restoration k t l stray).1.base = k.base ∧
      (priority_restoration k t l stray).1.locks = k.locks ∧
      ∀ u, u ≠ t → (priority_restoration k t l stray).1.threads u = k.threads u := by
  unfold priority_restoration
  dsimp only
  split
  · exact ⟨rfl,rfl,rfl,fun _ _ => rfl⟩
  · split
    · exact ⟨rfl,rfl,rfl,fun _ _ => rfl⟩
    · split
      · exact ⟨rfl,rfl,rfl,fun u other => setThread_other _ other⟩
      · exact ⟨rfl,rfl,rfl,fun u other => setThread_other _ other⟩

/-- The restored record is what `priority_restoration` and the assignment after
    it leave. -/
theorem restored_eq (k : Kernel) (t : Tid) (l : LockId) (stray : Int) :
    { (priority_restoration k t l stray).1.threads t with
      priority := if (priority_restoration k t l stray).2 ≥ 0 then (priority_restoration k t l stray).2
        else (priority_restoration k t l stray).1.priority t } = restored k t l stray := by
  unfold priority_restoration restored restoredPriority
  by_cases zero : (k.threads t).donation_nested_level = 0
  · have early : (k.threads t).donation_nested_level = 0 ∨ l ∉ (k.threads t).lock_list := .inl zero
    dsimp only
    rw [if_pos zero,if_pos early]
    rfl
  · by_cases listed : l ∈ (k.threads t).lock_list
    · by_cases front : frontPriority k l stray = (k.threads t).priority
      · simp [zero,listed,front,Kernel.priority]
      · simp [zero,listed,front,Kernel.priority]
    · simp [zero,listed,Kernel.priority]

theorem lock_release_spec (ran : lock_release k t l stray = some k') :
    k.holder l = some t ∧ Released k k' t l stray := by
  unfold lock_release at ran
  split at ran
  · cases ran
  · next holds =>
    refine ⟨not_not.mp holds,?_⟩
    have same := Option.some.inj ran
    subst same
    obtain ⟨count,base,locks,others⟩ := priority_restoration_frame k t l stray
    have own := restored_eq k t l stray
    generalize priority_restoration k t l stray = restoration at count base locks others own
    refine ⟨by simp [sema_up,count],by simp [sema_up,base],?_,?_,?_,?_,?_,?_⟩
    · intro u other
      simp [sema_up,putPriority_other _ other,others u other]
    · simpa [sema_up,putPriority_same,Kernel.priority] using own
    · intro m other
      simp [sema_up,setLock_other _ other,locks]
    · simp [sema_up,Kernel.holder]
    · simp [sema_up,Kernel.value,locks]
    · intro w member
      have inside := List.mem_of_mem_tail (by simpa [sema_up,Kernel.waiters] using member)
      simpa [Kernel.waiters,locks] using (mem_list_sort _ _ w).mp inside

/-! ### Every step -/

theorem sema_down_wait (taken : k.value l = 0) :
    sema_down k t l = k.setLock l { k.locks l with
      semaphore := { value := 0, waiters := list_sort (sort_by_priority k) (k.waiters l ++ [t]) } } :=
  if_pos taken

theorem sema_down_take (open_ : k.value l ≠ 0) :
    sema_down k t l = (k.setThread t { k.threads t with lock_waiting_for := none }).setLock l
      { holder := some t, semaphore := { value := k.value l - 1, waiters := k.waiters l } } :=
  if_neg open_

/-- The thread `t` in the waiters of `l`. -/
def enqueued (k : Kernel) (t : Tid) (l : LockId) : Kernel :=
  k.setLock l { k.locks l with
    semaphore := { value := 0, waiters := list_sort (sort_by_priority k) (k.waiters l ++ [t]) } }
/-- The lock `l` held by `t`. -/
def taken (k : Kernel) (t : Tid) (l : LockId) : Kernel :=
  (k.setThread t { k.threads t with lock_waiting_for := none }).setLock l
    { holder := some t, semaphore := { value := k.value l - 1, waiters := k.waiters l } }
/-- The thread `t` on its way into `sema_down`. -/
def waitingFor (k : Kernel) (t : Tid) (l : LockId) : Kernel :=
  k.setThread t { k.threads t with lock_waiting_for := some l }

/-- Unconditional invariants: waiters wait for the lock whose semaphore they are
    in, and the value of a semaphore says whether the lock is held. -/
structure Wf (k : Kernel) : Prop where
  waiting : ∀ l, ∀ w ∈ k.waiters l, w < k.count ∧ (k.threads w).lock_waiting_for = some l
  known : ∀ t l, (k.threads t).lock_waiting_for = some l → t < k.count
  held : ∀ l t, k.holder l = some t → t < k.count ∧ k.value l = 0
  free : ∀ l, k.holder l = none → k.value l = 1

/-- Every successful step, with the state it leaves. -/
inductive Steps (k : Kernel) : Event → Kernel → Prop
  | create {p : Int} {k' : Kernel} (low : PRI_MIN ≤ p) (high : p ≤ PRI_MAX) (created : thread_create k p = some k') :
      Steps k (.thread_create p) k'
  | init {l : LockId} (unused : Unused k l) : Steps k (.lock_init l) (lock_init k l)
  | acquire {t : Tid} {l : LockId} (free : Free k t) (unheld : k.holder l = none) :
      Steps k (.lock_acquire t l) (taken k t l)
  | block {t h : Tid} {l : LockId} {d : Kernel} (free : Free k t) (held : k.holder l = some h) (other : h ≠ t)
      (ran : priority_donation k t l = some d) :
      Steps k (.lock_acquire t l) (enqueued (waitingFor d t l) t l)
  | resume {t : Tid} {l : LockId} (woken : Woken k t l) (unheld : k.holder l = none) :
      Steps k (.resume t l) (taken k t l)
  | again {t h : Tid} {l : LockId} (woken : Woken k t l) (held : k.holder l = some h) :
      Steps k (.resume t l) (enqueued k t l)
  | release {t : Tid} {l : LockId} {stray : Int} {k' : Kernel} (free : Free k t) (held : k.holder l = some t)
      (released : Released k k' t l stray) : Steps k (.lock_release t l stray) k'
  | prioritise {t : Tid} {p : Int} (free : Free k t) :
      Steps k (.thread_set_priority t p) (thread_set_priority k t p)

theorem step_cases (wf : Wf k) (ran : step k e = some k') : Steps k e k' := by
  cases e with
  | thread_create p =>
    have created : thread_create k p = some k' := ran
    simp only [step,thread_create] at ran
    split at ran
    · next range => exact .create range.1 range.2 created
    · cases ran
  | lock_init l =>
    simp only [step] at ran
    split at ran
    · next unused => exact Option.some.inj ran ▸ .init unused
    · cases ran
  | lock_acquire t l =>
    simp only [step] at ran
    split at ran
    · next free =>
      unfold lock_acquire at ran
      split at ran
      · cases ran
      · next mine =>
        obtain ⟨d,donation,same⟩ := Option.map_eq_some_iff.mp ran
        subst same
        cases holds : k.holder l with
        | none =>
          -- An unheld lock takes no donation, and its semaphore is up.
          rw [priority_donation_free holds] at donation
          have same := Option.some.inj donation
          subst same
          have up : (k.setThread t { k.threads t with lock_waiting_for := some l }).value l ≠ 0 := by
            simp [wf.free l holds]
          rw [sema_down_take up]
          have reset : (k.setThread t { k.threads t with lock_waiting_for := some l }).setThread t
              { (k.setThread t { k.threads t with lock_waiting_for := some l }).threads t with
                lock_waiting_for := none } = k.setThread t { k.threads t with lock_waiting_for := none } := by
            simp only [Kernel.setThread,Kernel.mk.injEq,true_and,and_true]
            funext u
            by_cases same : u = t <;> simp [same]
          rw [reset]
          exact .acquire free holds
        | some h =>
          have frame := priority_donation_same donation
          have down : (d.setThread t { d.threads t with lock_waiting_for := some l }).value l = 0 := by
            rw [setThread_value]
            simpa [Kernel.value,frame.locks] using (wf.held l h holds).2
          rw [sema_down_wait down]
          refine .block free holds ?_ donation
          rintro rfl
          exact mine holds
    · cases ran
  | resume t l =>
    simp only [step] at ran
    split at ran
    · next woken =>
      have same := Option.some.inj ran
      subst same
      cases holds : k.holder l with
      | none =>
        rw [sema_down_take (by simp [wf.free l holds])]
        exact .resume woken holds
      | some h =>
        rw [sema_down_wait (wf.held l h holds).2]
        exact .again woken holds
    · cases ran
  | lock_release t l stray =>
    simp only [step] at ran
    split at ran
    · next free =>
      obtain ⟨holds,released⟩ := lock_release_spec ran
      exact .release free holds released
    · cases ran
  | thread_set_priority t p =>
    simp only [step] at ran
    split at ran
    · next free => exact Option.some.inj ran ▸ .prioritise free
    · cases ran

/-! ### The unconditional invariants -/

@[simp] theorem enqueued_count : (enqueued k t l).count = k.count := rfl
@[simp] theorem enqueued_threads : (enqueued k t l).threads = k.threads := rfl
@[simp] theorem enqueued_base : (enqueued k t l).base = k.base := rfl
@[simp] theorem enqueued_priority : (enqueued k t l).priority u = k.priority u := rfl
@[simp] theorem enqueued_holder : (enqueued k t l).holder m = k.holder m := by
  by_cases same : m = l <;> simp [enqueued,Kernel.holder,Kernel.setLock,same]
theorem enqueued_value (down : k.value l = 0) : (enqueued k t l).value m = k.value m := by
  by_cases same : m = l
  · subst same; simpa [enqueued,Kernel.value] using down.symm
  · simp [enqueued,Kernel.value,setLock_other _ same]
theorem mem_enqueued {w : Tid} : w ∈ (enqueued k t l).waiters m ↔ w ∈ k.waiters m ∨ (m = l ∧ w = t) := by
  by_cases same : m = l
  · subst same
    simp [enqueued,Kernel.waiters,mem_list_sort]
  · simp [enqueued,Kernel.waiters,setLock_other _ same,same]

@[simp] theorem taken_count : (taken k t l).count = k.count := rfl
@[simp] theorem taken_base : (taken k t l).base = k.base := rfl
@[simp] theorem taken_waiters : (taken k t l).waiters m = k.waiters m := by
  by_cases same : m = l <;> simp [taken,Kernel.waiters,Kernel.setLock,same]
theorem taken_holder : (taken k t l).holder m = if m = l then some t else k.holder m := by
  by_cases same : m = l <;> simp [taken,Kernel.holder,Kernel.setLock,same]
theorem taken_value : (taken k t l).value m = if m = l then k.value l - 1 else k.value m := by
  by_cases same : m = l <;> simp [taken,Kernel.value,Kernel.setLock,same]
theorem taken_threads : (taken k t l).threads u =
    if u = t then { k.threads t with lock_waiting_for := none } else k.threads u := rfl
@[simp] theorem taken_priority : (taken k t l).priority u = k.priority u := by
  by_cases same : u = t <;> simp [Kernel.priority,taken_threads,same]
@[simp] theorem taken_lock_list : ((taken k t l).threads u).lock_list = (k.threads u).lock_list := by
  by_cases same : u = t <;> simp [taken_threads,same]
@[simp] theorem taken_level : ((taken k t l).threads u).donation_nested_level = (k.threads u).donation_nested_level := by
  by_cases same : u = t <;> simp [taken_threads,same]
@[simp] theorem taken_orig : ((taken k t l).threads u).orig_priority = (k.threads u).orig_priority := by
  by_cases same : u = t <;> simp [taken_threads,same]

@[simp] theorem restored_waiting : (restored k t l stray).lock_waiting_for = (k.threads t).lock_waiting_for := by
  rcases restored_cases k t l stray with ⟨_,same⟩ | ⟨_,_,_,same⟩ | ⟨_,_,_,same⟩ <;> rw [same]

theorem wf_boot : Wf boot where
  waiting l w member := by simp [boot,Kernel.waiters] at member
  known t l waits := by simp [boot,init_thread] at waits
  held l t holds := by simp [boot,Kernel.holder] at holds
  free l _ := rfl

theorem wf_taken (wf : Wf k) (known : t < k.count) (unheld : k.holder l = none) (out : ∀ m, t ∉ k.waiters m) :
    Wf (taken k t l) where
  waiting m w member := by
    rw [taken_waiters] at member
    have other : w ≠ t := fun same => out m (same ▸ member)
    simpa [taken_threads,other] using wf.waiting m w member
  known u m waits := by
    by_cases same : u = t
    · simp [taken_threads,same] at waits
    · exact wf.known u m (by simpa [taken_threads,same] using waits)
  held m h holds := by
    rw [taken_holder] at holds
    rw [taken_value]
    by_cases same : m = l
    · simp only [same,↓reduceIte,Option.some.injEq] at holds ⊢
      exact ⟨holds ▸ known,by rw [wf.free l unheld]⟩
    · simp only [same,↓reduceIte] at holds ⊢
      exact wf.held m h holds
  free m unheld := by
    rw [taken_holder] at unheld
    rw [taken_value]
    by_cases same : m = l
    · simp [same] at unheld
    · simpa [same] using wf.free m (by simpa [same] using unheld)

/-- A woken or free thread is in no semaphore. -/
theorem free_out (wf : Wf k) (free : Free k t) (m : LockId) : t ∉ k.waiters m := by
  intro member
  have waits := (wf.waiting m t member).2
  rw [free.2] at waits
  cases waits

theorem woken_out (wf : Wf k) (woken : Woken k t l) (m : LockId) : t ∉ k.waiters m := by
  intro member
  have waits := (wf.waiting m t member).2
  rw [woken.2.1] at waits
  cases waits
  exact woken.2.2 member

theorem wf_enqueued (wf : Wf k) {h : Tid} (held : k.holder l = some h)
    (waits : (k.threads t).lock_waiting_for = some l) : Wf (enqueued k t l) where
  waiting m w member := by
    rcases mem_enqueued.mp member with before | ⟨rfl,rfl⟩
    · exact wf.waiting m w before
    · exact ⟨wf.known w m waits,waits⟩
  known := wf.known
  held m u holds := by
    rw [enqueued_value (wf.held l h held).2]
    exact wf.held m u (by simpa using holds)
  free m unheld := by
    rw [enqueued_value (wf.held l h held).2]
    exact wf.free m (by simpa using unheld)

theorem wf_donated (wf : Wf k) (frame : SameButDonated k d) : Wf d where
  waiting m w member := by
    rw [frame.count,frame.waiting]
    exact wf.waiting m w (by simpa [Kernel.waiters,frame.locks] using member)
  known u m waits := by
    rw [frame.count]
    exact wf.known u m (by rwa [frame.waiting] at waits)
  held m u holds := by
    rw [frame.count]
    simp only [Kernel.holder,Kernel.value,frame.locks] at holds ⊢
    exact wf.held m u holds
  free m unheld := by
    simp only [Kernel.holder,Kernel.value,frame.locks] at unheld ⊢
    exact wf.free m unheld

theorem wf_waitingFor (wf : Wf k) (known : t < k.count) (out : ∀ m, t ∉ k.waiters m) : Wf (waitingFor k t l) where
  waiting m w member := by
    have other : w ≠ t := fun same => out m (same ▸ member)
    simpa [waitingFor,setThread_other _ other] using wf.waiting m w member
  known u m waits := by
    by_cases same : u = t
    · exact same ▸ known
    · exact wf.known u m (by simpa [waitingFor,setThread_other _ same] using waits)
  held := wf.held
  free := wf.free

theorem wf_released (wf : Wf k) (held : k.holder l = some t)
    (released : Released k k' t l stray) : Wf k' := by
  have waiting : ∀ u, (k'.threads u).lock_waiting_for = (k.threads u).lock_waiting_for := by
    intro u
    by_cases same : u = t
    · rw [same,released.own,restored_waiting]
    · rw [released.others u same]
  refine ⟨?_,?_,?_,?_⟩
  · intro m w member
    rw [released.count,waiting]
    by_cases same : m = l
    · subst same
      exact wf.waiting m w (released.waiters w member)
    · simp only [Kernel.waiters,released.locks m same] at member
      exact wf.waiting m w member
  · intro u m waits
    rw [released.count]
    exact wf.known u m (by rwa [waiting] at waits)
  · intro m h holds
    by_cases same : m = l
    · rw [same,released.holder] at holds
      cases holds
    · rw [released.count]
      simp only [Kernel.holder,Kernel.value,released.locks m same] at holds ⊢
      exact wf.held m h holds
  · intro m unheld
    by_cases same : m = l
    · rw [same,released.value,(wf.held l t held).2]
    · simp only [Kernel.holder,Kernel.value,released.locks m same] at unheld ⊢
      exact wf.free m unheld

theorem wf_steps (wf : Wf k) (steps : Steps k e k') : Wf k' := by
  cases steps with
  | create low high created =>
    simp only [thread_create,low,high,and_self,↓reduceIte,Option.some.injEq] at created
    subst created
    refine ⟨?_,?_,?_,?_⟩
    · intro m w member
      have before := wf.waiting m w member
      have other : w ≠ k.count := Nat.ne_of_lt before.1
      exact ⟨Nat.lt_succ_of_lt before.1,by simpa [setThread_other _ other] using before.2⟩
    · intro u m waits
      by_cases same : u = k.count
      · simp [same]
      · exact Nat.lt_succ_of_lt (wf.known u m (by simpa [setThread_other _ same] using waits))
    · intro m h holds
      have before := wf.held m h holds
      exact ⟨Nat.lt_succ_of_lt before.1,before.2⟩
    · exact wf.free
  | @init l unused =>
    refine ⟨?_,wf.known,?_,?_⟩
    · intro m w member
      by_cases same : m = l
      · subst same; simp [lock_init,Kernel.waiters] at member
      · simp only [lock_init,Kernel.waiters,setLock_other _ same] at member
        exact wf.waiting m w member
    · intro m h holds
      by_cases same : m = l
      · subst same; simp [lock_init,Kernel.holder] at holds
      · simp only [lock_init,Kernel.holder,Kernel.value,setLock_other _ same] at holds ⊢
        exact wf.held m h holds
    · intro m unheld
      by_cases same : m = l
      · subst same; simp [lock_init,Kernel.value]
      · simp only [lock_init,Kernel.holder,Kernel.value,setLock_other _ same] at unheld ⊢
        exact wf.free m unheld
  | acquire free unheld => exact wf_taken wf free.1 unheld (free_out wf free)
  | @block t h l d free held other ran =>
    have frame := priority_donation_same ran
    have out : ∀ m, t ∉ d.waiters m := by
      intro m
      simpa [Kernel.waiters,frame.locks] using free_out wf free m
    have before := wf_waitingFor (l := l) (wf_donated wf frame) (by rw [frame.count]; exact free.1) out
    refine wf_enqueued (h := h) before ?_ (by simp [waitingFor])
    simpa [waitingFor,Kernel.holder,frame.locks] using held
  | resume woken unheld => exact wf_taken wf woken.1 unheld (woken_out wf woken)
  | again woken held => exact wf_enqueued wf held woken.2.1
  | release free held released => exact wf_released wf held released
  | @prioritise t p free =>
    have waiting : ∀ u, ((thread_set_priority k t p).threads u).lock_waiting_for = (k.threads u).lock_waiting_for := by
      intro u
      by_cases same : u = t
      · subst same; simp [thread_set_priority]
      · simp [thread_set_priority,setThread_other _ same]
    refine ⟨?_,?_,wf.held,wf.free⟩
    · intro m w member
      rw [waiting]
      exact wf.waiting m w member
    · intro u m waits
      exact wf.known u m (by rwa [waiting] at waits)

theorem reaches_wf {Guard : Kernel → Event → Prop} (reached : Reaches machine Guard k) : Wf k := by
  refine reaches_invariant Wf ?_ ?_ reached
  · rintro s rfl
    exact wf_boot
  · intro s e s' wf _ ran
    exact wf_steps wf (step_cases wf ran)

/-- The invariant rule for the lock machine: `Wf` and the case split of a step
    come for free. -/
theorem reaches_kept {Guard : Kernel → Event → Prop} (Inv : Kernel → Prop) (initial : Inv boot)
    (kept : ∀ k e k', Wf k → Inv k → Guard k e → Steps k e k' → Inv k') (reached : Reaches machine Guard k) :
    Inv k := by
  have both : Wf k ∧ Inv k := by
    refine reaches_invariant (fun k => Wf k ∧ Inv k) ?_ ?_ reached
    · rintro s rfl
      exact ⟨wf_boot,initial⟩
    · rintro s e s' ⟨wf,inv⟩ meets ran
      have steps := step_cases wf ran
      exact ⟨wf_steps wf steps,kept s e s' wf inv meets steps⟩
  exact both.2

end Pintos.Synch
