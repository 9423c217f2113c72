import Pintos.SynchSteps

/-!
Priority inversion through locks. A donation reaches every holder on the chain
of waiting threads, so that a holder keeps up with all threads that block on it;
what a thread loses is lost when it takes a free lock whose waiters it does not
know of, when it changes its own priority, or when a release computes a priority
from too little. `KeepsUp` says of each step that it does none of this.
-/
namespace Pintos.Inversion
open Pintos.Lists Pintos.Machines Pintos.Synch
set_option linter.unusedSimpArgs false
variable {k k' d : Kernel} {t u w ct : Tid} {l m : LockId} {e : Event} {stray P : Int}

/-- No thread runs below its base priority or below a thread in the semaphore of
    a lock that it holds. -/
structure NoInversion (k : Kernel) : Prop where
  base : ∀ t < k.count, k.base t ≤ k.priority t
  waiters : ∀ l t w, k.holder l = some t → w ∈ k.waiters l → k.priority w ≤ k.priority t

/-- The holders that a donation of priority `P` through `l` meets and that run
    below it. -/
def donationChain (k : Kernel) (P : Int) : Nat → LockId → List Tid
  | 0, _ => []
  | n + 1, l =>
    match k.holder l with
    | none => []
    | some h =>
      if k.priority h < P then h :: (match (k.threads h).lock_waiting_for with
        | none => []
        | some next => donationChain k P n next)
      else []

/-- `Q` holds of the priority of each thread that is in the semaphore of a lock
    of `t`, the lock `besides` left out. -/
def EveryWaiter (k : Kernel) (t : Tid) (besides : Option LockId) (Q : Int → Prop) : Prop :=
  ∀ w < k.count, ∀ m ∈ (k.threads w).lock_waiting_for,
    w ∈ k.waiters m → k.holder m = some t → besides ≠ some m → Q (k.priority w)

/-- The threads at the front of the given locks' waiters reach the priority `p`. -/
def FrontReaches (k : Kernel) (locks : List LockId) (p : Int) : Prop :=
  p ≤ 0 ∨ ∃ m ∈ locks, ∃ w ∈ (k.waiters m).head?, p ≤ k.priority w

/-- The steps that keep every thread up with its waiters. A thread that takes a
    free lock outranks the waiters left there; a donation meets no holder below
    it that has reached the nesting limit; a thread that finds the lock taken
    again does not outrank the new holder, to which it no longer donates; a
    change of priority and a restored priority leave nobody behind. -/
def KeepsUp (k : Kernel) : Event → Prop
  | .thread_create _ | .lock_init _ => True
  | .lock_acquire t l => (k.holder l = none → ∀ w ∈ k.waiters l, k.priority w ≤ k.priority t) ∧
      ∀ h ∈ donationChain k (k.priority t) (k.count + 1) l, (k.threads h).donation_nested_level < MAX_NESTED_LEVEL
  | .resume t l => (k.holder l = none → ∀ w ∈ k.waiters l, k.priority w ≤ k.priority t) ∧
      ∀ h ∈ k.holder l, k.priority t ≤ k.priority h
  | .lock_release t l stray => (k.threads t).donation_nested_level ≠ 0 → l ∈ (k.threads t).lock_list →
      frontPriority k l stray = k.priority t →
      if (k.threads t).donation_nested_level = 1 then
        0 ≤ (k.threads t).orig_priority → EveryWaiter k t (some l) (fun p => p ≤ (k.threads t).orig_priority)
      else FrontReaches k ((k.threads t).lock_list.erase l) (k.base t) ∧
        EveryWaiter k t (some l) (FrontReaches k ((k.threads t).lock_list.erase l))
  | .thread_set_priority t p =>
      if (k.threads t).donation_nested_level = 0 then EveryWaiter k t none (fun q => q ≤ p) else p ≤ k.priority t

instance (k : Kernel) (t : Tid) (besides : Option LockId) (Q : Int → Prop) [DecidablePred Q] :
    Decidable (EveryWaiter k t besides Q) :=
  inferInstanceAs (Decidable (∀ w < k.count, ∀ m ∈ (k.threads w).lock_waiting_for,
    w ∈ k.waiters m → k.holder m = some t → besides ≠ some m → Q (k.priority w)))
instance (k : Kernel) (locks : List LockId) : DecidablePred (FrontReaches k locks) := fun p =>
  inferInstanceAs (Decidable (p ≤ 0 ∨ ∃ m ∈ locks, ∃ w ∈ (k.waiters m).head?, p ≤ k.priority w))

instance (k : Kernel) : (e : Event) → Decidable (KeepsUp k e)
  | .thread_create _ | .lock_init _ => .isTrue trivial
  | .lock_acquire t l => inferInstanceAs (Decidable ((k.holder l = none → ∀ w ∈ k.waiters l, k.priority w ≤ k.priority t) ∧
      ∀ h ∈ donationChain k (k.priority t) (k.count + 1) l, (k.threads h).donation_nested_level < MAX_NESTED_LEVEL))
  | .resume t l => inferInstanceAs (Decidable ((k.holder l = none → ∀ w ∈ k.waiters l, k.priority w ≤ k.priority t) ∧
      ∀ h ∈ k.holder l, k.priority t ≤ k.priority h))
  | .lock_release t l stray => inferInstanceAs (Decidable ((k.threads t).donation_nested_level ≠ 0 →
      l ∈ (k.threads t).lock_list → frontPriority k l stray = k.priority t →
      if (k.threads t).donation_nested_level = 1 then
        0 ≤ (k.threads t).orig_priority → EveryWaiter k t (some l) (fun p => p ≤ (k.threads t).orig_priority)
      else FrontReaches k ((k.threads t).lock_list.erase l) (k.base t) ∧
        EveryWaiter k t (some l) (FrontReaches k ((k.threads t).lock_list.erase l))))
  | .thread_set_priority t p => inferInstanceAs (Decidable (
      if (k.threads t).donation_nested_level = 0 then EveryWaiter k t none (fun q => q ≤ p) else p ≤ k.priority t))

/-! ### Donation along a chain -/

/-- The invariant of a run: `NoInversion`, with what `orig_priority` restores to. -/
structure Covered (k : Kernel) : Prop where
  base : ∀ t < k.count, k.base t ≤ k.priority t
  orig : ∀ t < k.count, k.base t ≤ (k.threads t).orig_priority
  waiters : ∀ l t w, k.holder l = some t → w ∈ k.waiters l → k.priority w ≤ k.priority t

/-- `Covered` while a donation of priority `P` is at the lock `l`, some of whose
    waiters may already have been raised to `P`. -/
structure CoveredBut (P : Int) (l : LockId) (k : Kernel) : Prop where
  base : ∀ t < k.count, k.base t ≤ k.priority t
  orig : ∀ t < k.count, k.base t ≤ (k.threads t).orig_priority
  waiters : ∀ m t w, k.holder m = some t → w ∈ k.waiters m →
    k.priority w ≤ k.priority t ∨ (m = l ∧ k.priority w ≤ P)

theorem covered_coveredBut (covered : Covered k) : CoveredBut P l k :=
  ⟨covered.base,covered.orig,fun m t w holds waits => .inl (covered.waiters m t w holds waits)⟩

theorem donated_setThread_priority (h : Tid) (l : LockId) (P : Int) (u : Tid) :
    (k.setThread h (donated (k.threads h) l P)).priority u = if u = h then P else k.priority u := by
  by_cases same : u = h
  · subst same; simp [Kernel.priority]
  · simp [Kernel.priority,setThread_other _ same,same]

/-- A donation to the holder `h` moves the exception on to the lock that `h`
    waits for. -/
theorem coveredBut_donated (wf : Wf k) {h : Tid} (next : LockId) (covered : CoveredBut P l k)
    (holds : k.holder l = some h) (lower : k.priority h < P)
    (onward : ∀ m, (k.threads h).lock_waiting_for = some m → m = next) :
    CoveredBut P next (k.setThread h (donated (k.threads h) l P)) where
  base u known := by
    rw [donated_setThread_priority]
    have before := covered.base u known
    by_cases same : u = h
    · subst same
      rw [if_pos rfl]
      exact Int.le_trans before (Int.le_of_lt lower)
    · rw [if_neg same]
      exact before
  orig u known := by
    by_cases same : u = h
    · subst same
      rw [setThread_same,donated_orig]
      by_cases zero : (k.threads u).donation_nested_level = 0
      · rw [if_pos zero]
        exact covered.base u known
      · rw [if_neg zero]
        exact covered.orig u known
    · rw [setThread_other _ same]
      exact covered.orig u known
  waiters m u w holdsToo waits := by
    rw [donated_setThread_priority,donated_setThread_priority]
    by_cases raised : w = h
    · -- The raised thread itself waits for `next` only.
      subst raised
      rw [if_pos rfl]
      exact .inr ⟨onward m (wf.waiting m w waits).2,Int.le_refl P⟩
    · rw [if_neg raised]
      have before := covered.waiters m u w holdsToo waits
      by_cases same : u = h
      · subst same
        rw [if_pos rfl]
        rcases before with below | ⟨_,below⟩
        · exact .inl (Int.le_trans below (Int.le_of_lt lower))
        · exact .inl below
      · rw [if_neg same]
        rcases before with below | ⟨rfl,_⟩
        · exact .inl below
        · have mine : some u = some h := holdsToo.symm.trans holds
          exact absurd (Option.some.inj mine) same

/-- A chain that a donation has not met yet is what is left of the chain before. -/
theorem donationChain_raised {h : Tid} (n : Nat) :
    ∀ m, ∀ g ∈ donationChain (k.setThread h (donated (k.threads h) l P)) P n m,
      g ≠ h ∧ g ∈ donationChain k P n m := by
  induction n with
  | zero => intro m g member; simp [donationChain] at member
  | succ n ih =>
    intro m g member
    rw [donationChain] at member ⊢
    rw [setThread_holder] at member
    cases holds : k.holder m with
    | none => simp [holds] at member
    | some o =>
      simp only [holds,donated_setThread_priority] at member ⊢
      by_cases raised : o = h
      · simp [raised] at member
      · simp only [raised,↓reduceIte,setThread_other _ raised] at member
        by_cases lower : k.priority o < P
        · rw [if_pos lower] at member ⊢
          rcases List.mem_cons.mp member with rfl | further
          · exact ⟨raised,List.mem_cons_self⟩
          · cases waits : (k.threads o).lock_waiting_for with
            | none => simp [waits] at further
            | some next =>
              simp only [waits] at further ⊢
              obtain ⟨other,inside⟩ := ih next g further
              exact ⟨other,List.mem_cons_of_mem o inside⟩
        · rw [if_neg lower] at member
          simp at member

theorem wf_donateOnce {next : Option LockId} (wf : Wf k) (ran : donateOnce k ct l = some (k',next)) : Wf k' :=
  wf_donated wf (donateOnce_same ran)

/-- The rule for the whole recursion: when no holder on the chain has reached the
    nesting limit, everybody is covered after it and the first holder is raised. -/
theorem covered_donate (n : Nat) : ∀ (k : Kernel) (l : LockId), Wf k → (k.priority ct = P) →
    CoveredBut P l k →
    (∀ h ∈ donationChain k P n l, (k.threads h).donation_nested_level < MAX_NESTED_LEVEL) →
    donate ct n k l = some d → Covered d ∧ ∀ h, k.holder l = some h → P ≤ d.priority h := by
  induction n with
  | zero => intro k l _ _ _ _ ran; simp [donate] at ran
  | succ n ih =>
    intro k l wf own covered chain ran
    rw [donate] at ran
    cases once : donateOnce k ct l with
    | none => simp [once] at ran
    | some result =>
      obtain ⟨middle,next⟩ := result
      rw [once] at ran
      rcases donateOnce_cases once with ⟨rfl,rfl,stopped⟩ | ⟨h,holds,lower,_,_,rfl,rfl⟩
      · have same := Option.some.inj ran
        subst same
        -- The recursion stops at a holder that is not below `P`.
        have reaches : ∀ h, middle.holder l = some h → P ≤ middle.priority h := by
          intro h holds
          by_contra enough
          have lower : middle.priority h < P := Int.not_le.mp enough
          have member : h ∈ donationChain middle P (n + 1) l := by
            simp [donationChain,holds,lower]
          have below := chain h member
          rcases stopped h holds with enough | limit
          · rw [own] at enough
            omega
          · omega
        refine ⟨⟨covered.base,covered.orig,?_⟩,reaches⟩
        intro m u w holds waits
        rcases covered.waiters m u w holds waits with below | ⟨rfl,below⟩
        · exact below
        · exact Int.le_trans below (reaches u holds)
      · rw [own] at lower ran
        have raised : (k.setThread h (donated (k.threads h) l P)).priority h = P := by
          rw [donated_setThread_priority,if_pos rfl]
        have further : Wf (k.setThread h (donated (k.threads h) l P)) := by
          have after := wf_donateOnce wf once
          rwa [own] at after
        have other : ct ≠ h := by
          rintro rfl
          omega
        cases waits : (k.threads h).lock_waiting_for with
        | none =>
          simp only [waits] at ran
          have same := Option.some.inj ran
          subst same
          have after := coveredBut_donated wf l covered holds lower (fun m waitsToo => by simp [waits] at waitsToo)
          refine ⟨⟨after.base,after.orig,?_⟩,?_⟩
          · intro m u w holdsToo inside
            rcases after.waiters m u w holdsToo inside with below | ⟨rfl,below⟩
            · exact below
            · have mine : some u = some h := holdsToo.symm.trans holds
              rw [Option.some.inj mine,raised]
              exact below
          · intro g holdsToo
            have mine : some g = some h := holdsToo.symm.trans holds
            rw [Option.some.inj mine]
            exact Int.le_of_eq raised.symm
        | some next =>
          simp only [waits] at ran
          have after := coveredBut_donated wf next covered holds lower
            (fun m waitsToo => by rw [waits] at waitsToo; exact (Option.some.inj waitsToo).symm)
          have chainAfter : ∀ g ∈ donationChain (k.setThread h (donated (k.threads h) l P)) P n next,
              ((k.setThread h (donated (k.threads h) l P)).threads g).donation_nested_level < MAX_NESTED_LEVEL := by
            intro g member
            obtain ⟨apart,before⟩ := donationChain_raised n next g member
            rw [setThread_other _ apart]
            refine chain g ?_
            simp only [donationChain,holds,lower,↓reduceIte,waits]
            exact List.mem_cons_of_mem h before
          have ownAfter : (k.setThread h (donated (k.threads h) l P)).priority ct = P := by
            rw [donated_setThread_priority,if_neg other,own]
          obtain ⟨done,_⟩ := ih _ next further ownAfter after chainAfter ran
          refine ⟨done,?_⟩
          intro g holdsToo
          have mine : some g = some h := holdsToo.symm.trans holds
          rw [Option.some.inj mine,← raised]
          exact (donate_same ran).raised h

/-! ### Releases -/

theorem highestFront_ge (locks : List LockId) (p : Int) : p ≤ highestFront k locks p := by
  induction locks generalizing p with
  | nil => exact Int.le_refl p
  | cons cl rest ih =>
    rw [highestFront]
    cases k.waiters cl with
    | nil => exact ih p
    | cons w others =>
      refine Int.le_trans ?_ (ih _)
      split <;> omega

theorem highestFront_front {locks : List LockId} (listed : m ∈ locks) (front : w ∈ (k.waiters m).head?) (p : Int) :
    k.priority w ≤ highestFront k locks p := by
  induction locks generalizing p with
  | nil => simp at listed
  | cons cl rest ih =>
    rw [highestFront]
    rcases List.mem_cons.mp listed with rfl | further
    · cases waiters : k.waiters m with
      | nil => simp [waiters] at front
      | cons first others =>
        simp only [waiters,List.head?_cons,Option.mem_def,Option.some.injEq] at front
        subst front
        refine Int.le_trans ?_ (highestFront_ge rest _)
        split <;> omega
    · cases k.waiters cl with
      | nil => exact ih further p
      | cons first others => exact ih further _

theorem frontReaches_highest {locks : List LockId} {p : Int} (reaches : FrontReaches k locks p) :
    p ≤ highestFront k locks 0 := by
  rcases reaches with low | ⟨m,listed,w,front,below⟩
  · exact Int.le_trans low (highestFront_ge locks 0)
  · exact Int.le_trans below (highestFront_front listed front 0)

/-- What `KeepsUp` asks of a release: the priority that is restored reaches the
    base priority and every waiter of the locks that are left. -/
theorem restoredPriority_covers (covered : Covered k) (known : t < k.count)
    (level : (k.threads t).donation_nested_level ≠ 0) (listed : l ∈ (k.threads t).lock_list)
    (front : frontPriority k l stray = k.priority t) (meets : KeepsUp k (.lock_release t l stray)) :
    k.base t ≤ restoredPriority k t l ∧
      ∀ w < k.count, ∀ m, (k.threads w).lock_waiting_for = some m → w ∈ k.waiters m → k.holder m = some t →
        m ≠ l → k.priority w ≤ restoredPriority k t l := by
  have guard := meets level listed front
  unfold restoredPriority
  by_cases last : (k.threads t).donation_nested_level = 1
  · rw [if_pos last] at guard
    simp only [last,Int.sub_self,↓reduceIte]
    by_cases sign : (k.threads t).orig_priority ≥ 0
    · rw [if_pos sign]
      refine ⟨covered.orig t known,?_⟩
      intro w below m waits inside holds other
      refine guard sign w below m waits inside holds ?_
      exact fun same => other (Option.some.inj same).symm
    · rw [if_neg sign]
      refine ⟨covered.base t known,?_⟩
      intro w _ m _ inside holds _
      exact covered.waiters m t w holds inside
  · rw [if_neg last] at guard
    have more : ¬ (k.threads t).donation_nested_level - 1 = 0 := by omega
    have sign : highestFront k ((k.threads t).lock_list.erase l) 0 ≥ 0 := highestFront_ge _ 0
    simp only [more,↓reduceIte,sign]
    refine ⟨frontReaches_highest guard.1,?_⟩
    intro w below m waits inside holds other
    refine frontReaches_highest (guard.2 w below m waits inside holds ?_)
    exact fun same => other (Option.some.inj same).symm

theorem covered_released (wf : Wf k) (covered : Covered k) (free : Free k t)
    (meets : KeepsUp k (.lock_release t l stray)) (released : Released k k' t l stray) : Covered k' := by
  have others : ∀ u, u ≠ t → k'.priority u = k.priority u := by
    intro u other
    simp [Kernel.priority,released.others u other]
  have orig : (restored k t l stray).orig_priority = (k.threads t).orig_priority := by
    rcases restored_cases k t l stray with ⟨_,same⟩ | ⟨_,_,_,same⟩ | ⟨_,_,_,same⟩ <;> rw [same]
  -- Whichever way the release goes, the thread stays above all that it has to cover.
  have own : k.base t ≤ k'.priority t ∧ ∀ w m, w ∈ k.waiters m → k.holder m = some t → m ≠ l →
      k.priority w ≤ k'.priority t := by
    have kept : k'.priority t = k.priority t → k.base t ≤ k'.priority t ∧
        ∀ w m, w ∈ k.waiters m → k.holder m = some t → m ≠ l → k.priority w ≤ k'.priority t := by
      intro same
      rw [same]
      exact ⟨covered.base t free.1,fun w m inside holds _ => covered.waiters m t w holds inside⟩
    have priority : k'.priority t = (restored k t l stray).priority := by rw [← released.own]; rfl
    rcases restored_cases k t l stray with ⟨_,same⟩ | ⟨level,listed,front,same⟩ | ⟨_,_,_,same⟩
    · exact kept (by rw [priority,same]; rfl)
    · rw [priority,same]
      obtain ⟨base,waiters⟩ := restoredPriority_covers covered free.1 level listed front meets
      refine ⟨base,?_⟩
      intro w m inside holds other
      obtain ⟨below,waits⟩ := wf.waiting m w inside
      exact waiters w below m waits inside holds other
    · exact kept (by rw [priority,same]; rfl)
  refine ⟨?_,?_,?_⟩
  · intro u known
    rw [released.base]
    by_cases same : u = t
    · exact same ▸ own.1
    · rw [others u same]
      exact covered.base u (released.count ▸ known)
  · intro u known
    rw [released.base]
    by_cases same : u = t
    · subst same
      rw [released.own,orig]
      exact covered.orig u free.1
    · rw [released.others u same]
      exact covered.orig u (released.count ▸ known)
  · intro m u w holds inside
    have apart : m ≠ l := by
      rintro rfl
      rw [released.holder] at holds
      cases holds
    simp only [Kernel.holder,Kernel.waiters,released.locks m apart] at holds inside
    have waiter : w ≠ t := by
      rintro rfl
      exact free_out wf free m inside
    rw [others w waiter]
    by_cases same : u = t
    · subst same
      exact own.2 w m inside holds apart
    · rw [others u same]
      exact covered.waiters m u w holds inside

/-! ### Every step -/

theorem covered_taken (covered : Covered k) (above : ∀ w ∈ k.waiters l, k.priority w ≤ k.priority t) :
    Covered (taken k t l) where
  base u known := by simpa using covered.base u known
  orig u known := by simpa using covered.orig u known
  waiters m u w holds inside := by
    rw [taken_holder] at holds
    rw [taken_waiters] at inside
    rw [taken_priority,taken_priority]
    by_cases same : m = l
    · subst same
      rw [if_pos rfl] at holds
      exact Option.some.inj holds ▸ above w inside
    · rw [if_neg same] at holds
      exact covered.waiters m u w holds inside

theorem covered_enqueued {h : Tid} (covered : Covered k) (held : k.holder l = some h)
    (above : k.priority t ≤ k.priority h) : Covered (enqueued k t l) where
  base := covered.base
  orig := covered.orig
  waiters m u w holds inside := by
    rw [enqueued_holder] at holds
    rcases mem_enqueued.mp inside with before | ⟨rfl,rfl⟩
    · exact covered.waiters m u w holds before
    · rw [held] at holds
      exact Option.some.inj holds ▸ above

theorem covered_waitingFor (covered : Covered k) : Covered (waitingFor k t l) := by
  have priority : ∀ u, (waitingFor k t l).priority u = k.priority u := by
    intro u
    by_cases same : u = t <;> simp [waitingFor,Kernel.priority,Kernel.setThread,same]
  refine ⟨?_,?_,?_⟩
  · intro u known
    rw [priority]
    exact covered.base u known
  · intro u known
    by_cases same : u = t
    · subst same; simpa [waitingFor] using covered.orig u known
    · simpa [waitingFor,setThread_other _ same] using covered.orig u known
  · intro m u w holds inside
    rw [priority,priority]
    exact covered.waiters m u w holds inside

theorem covered_blocked {h : Tid} (wf : Wf k) (covered : Covered k) (held : k.holder l = some h) (other : h ≠ t)
    (meets : KeepsUp k (.lock_acquire t l)) (ran : priority_donation k t l = some d) :
    Covered (enqueued (waitingFor d t l) t l) := by
  obtain ⟨after,raised⟩ := covered_donate (k.count + 1) k l wf rfl (covered_coveredBut covered) meets.2 ran
  have frame := priority_donation_same ran
  have heldAfter : d.holder l = some h := by simpa [Kernel.holder,frame.locks] using held
  refine covered_enqueued (h := h) (covered_waitingFor after) heldAfter ?_
  have above : d.priority t ≤ d.priority h := by
    rw [priority_donation_own ran]
    exact raised h held
  simpa [waitingFor,Kernel.priority,setThread_other _ other] using above

theorem covered_prioritised {p : Int} (wf : Wf k) (covered : Covered k) (free : Free k t)
    (meets : KeepsUp k (.thread_set_priority t p)) : Covered (thread_set_priority k t p) := by
  have others : ∀ u, u ≠ t → (thread_set_priority k t p).threads u = k.threads u := by
    intro u other
    simp [thread_set_priority,setThread_other _ other]
  have own : (thread_set_priority k t p).priority t =
      if (k.threads t).donation_nested_level = 0 then p else k.priority t := by
    simp [thread_set_priority,Kernel.priority]
  refine ⟨?_,?_,?_⟩
  · intro u known
    by_cases same : u = t
    · subst same
      rw [own]
      simp only [thread_set_priority,↓reduceIte]
      split
      · exact Int.le_refl p
      · next level =>
        have chosen := meets
        simp only [KeepsUp,level,↓reduceIte] at chosen
        exact chosen
    · simpa [thread_set_priority,Kernel.priority,setThread_other _ same,same] using covered.base u known
  · intro u known
    by_cases same : u = t
    · subst same
      simp [thread_set_priority]
    · simpa [thread_set_priority,setThread_other _ same,same] using covered.orig u known
  · intro m u w holds inside
    have before := covered.waiters m u w holds inside
    have waiter : w ≠ t := by
      rintro rfl
      exact free_out wf free m inside
    have unchanged : (thread_set_priority k t p).priority w = k.priority w := by
      simp [Kernel.priority,others w waiter]
    rw [unchanged]
    by_cases same : u = t
    · subst same
      rw [own]
      split
      · next level =>
        have guard : EveryWaiter k u none (fun q => q ≤ p) := by
          have chosen := meets
          simp only [KeepsUp,level,↓reduceIte] at chosen
          exact chosen
        obtain ⟨below,waits⟩ := wf.waiting m w inside
        exact guard w below m waits inside holds (by simp)
      · exact before
    · simpa [Kernel.priority,others u same] using before

theorem covered_boot : Covered boot where
  base _ _ := Int.le_refl _
  orig _ _ := Int.le_refl _
  waiters l t w holds := by simp [boot,Kernel.holder] at holds

theorem covered_steps (wf : Wf k) (covered : Covered k) (meets : KeepsUp k e) (steps : Steps k e k') :
    Covered k' := by
  cases steps with
  | create low high created =>
    simp only [thread_create,low,high,and_self,↓reduceIte,Option.some.injEq] at created
    subst created
    refine ⟨?_,?_,?_⟩
    · intro u known
      by_cases new : u = k.count
      · subst new; simp [Kernel.priority,init_thread]
      · have before := Nat.lt_of_le_of_ne (Nat.le_of_lt_succ known) new
        simpa [Kernel.priority,setThread_other _ new,new] using covered.base u before
    · intro u known
      by_cases new : u = k.count
      · subst new; simp [init_thread]
      · have before := Nat.lt_of_le_of_ne (Nat.le_of_lt_succ known) new
        simpa [setThread_other _ new,new] using covered.orig u before
    · intro m u w holds inside
      have holder : u ≠ k.count := Nat.ne_of_lt (wf.held m u holds).1
      have waiter : w ≠ k.count := Nat.ne_of_lt (wf.waiting m w inside).1
      simpa [Kernel.priority,setThread_other _ holder,setThread_other _ waiter] using covered.waiters m u w holds inside
  | @init l unused =>
    refine ⟨covered.base,covered.orig,?_⟩
    intro m u w holds inside
    by_cases same : m = l
    · subst same; simp [lock_init,Kernel.holder] at holds
    · simp only [lock_init,Kernel.holder,Kernel.waiters,setLock_other _ same] at holds inside
      exact covered.waiters m u w holds inside
  | acquire free unheld => exact covered_taken covered (meets.1 unheld)
  | block free held other ran => exact covered_blocked wf covered held other meets ran
  | resume woken unheld => exact covered_taken covered (meets.1 unheld)
  | again woken held => exact covered_enqueued covered held (meets.2 _ held)
  | release free held released => exact covered_released wf covered free meets released
  | prioritise free => exact covered_prioritised wf covered free meets

/-- A donation through two locks in a chain, undone from its far end. -/
def nestedChain : List Event :=
  [.lock_acquire 0 0,.thread_create 35,.lock_acquire 1 1,.lock_acquire 1 0,.thread_create 40,.lock_acquire 2 1,
    .lock_release 0 0 0,.resume 1 0]

/-- Two donors through two locks; the lock of the higher one is released, while
    the lower one, which came second, never got into `lock_list`. -/
def unrecordedDonor : List Event :=
  [.lock_acquire 0 0,.lock_acquire 0 1,.thread_create 40,.lock_acquire 1 0,.thread_create 35,.lock_acquire 2 1,
    .lock_release 0 0 0]

end Pintos.Inversion
