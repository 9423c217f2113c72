import Pintos.SynchSteps
import Mathlib.Data.List.Nodup
import Mathlib.Data.Finset.Card
import Mathlib.Data.Finset.Range

/-!
The books of donations. `priority_restoration` counts a release in
`donation_nested_level` on every path, but takes the lock out of `lock_list`
only when the waiter at the front has the holder's own priority. `FrontDonor` is
the exact condition on a step under which the books stay right.
-/
namespace Pintos.Donation
open Pintos.Lists Pintos.Machines Pintos.Synch
set_option linter.unusedSimpArgs false
variable {k k' d : Kernel} {t u w ct : Tid} {l m : LockId} {e : Event} {stray : Int}

/-- `donation_nested_level` is the number of locks in `lock_list`, and every one
    of them is held by the thread, in whose list alone it is linked. -/
structure BookKept (k : Kernel) : Prop where
  level : ∀ t < k.count, (k.threads t).donation_nested_level = (k.threads t).lock_list.length
  nonneg : ∀ t < k.count, 0 ≤ (k.threads t).donation_nested_level
  held : ∀ t < k.count, ∀ l ∈ (k.threads t).lock_list, k.holder l = some t
  once : ∀ t < k.count, (k.threads t).lock_list.Nodup
  alone : ∀ t < k.count, ∀ u < k.count, ∀ l ∈ (k.threads t).lock_list, l ∈ (k.threads u).lock_list → t = u

/-- A release of a lock in `lock_list` finds the holder's own priority at the
    front of the waiters. -/
def FrontDonor (k : Kernel) : Event → Prop
  | .lock_release t l stray => (k.threads t).donation_nested_level ≠ 0 → l ∈ (k.threads t).lock_list →
      frontPriority k l stray = k.priority t
  | _ => True

instance (k : Kernel) : (e : Event) → Decidable (FrontDonor k e)
  | .lock_release t l stray => inferInstanceAs (Decidable ((k.threads t).donation_nested_level ≠ 0 →
      l ∈ (k.threads t).lock_list → frontPriority k l stray = k.priority t))
  | .thread_create _ | .lock_init _ | .lock_acquire _ _ | .resume _ _ | .thread_set_priority _ _ => .isTrue trivial

theorem bookKept_of (level : ∀ t < k.count, (k.threads t).donation_nested_level = (k.threads t).lock_list.length)
    (held : ∀ t < k.count, ∀ l ∈ (k.threads t).lock_list, k.holder l = some t)
    (once : ∀ t < k.count, (k.threads t).lock_list.Nodup) : BookKept k where
  level := level
  nonneg t known := by rw [level t known]; omega
  held := held
  once := once
  alone t known u knownToo l member too := by
    have mine := held t known l member
    rw [held u knownToo l too] at mine
    exact (Option.some.inj mine).symm

theorem bookKept_boot : BookKept boot :=
  bookKept_of (fun _ _ => rfl) (fun t _ l member => by simp [boot,init_thread] at member) (fun _ _ => .nil)

/-- States that agree on the books. -/
theorem bookKept_congr (kept : BookKept k) (count : k'.count = k.count)
    (level : ∀ t, (k'.threads t).donation_nested_level = (k.threads t).donation_nested_level)
    (list : ∀ t, (k'.threads t).lock_list = (k.threads t).lock_list)
    (holder : ∀ l t, k.holder l = some t → k'.holder l = some t) : BookKept k' := by
  refine bookKept_of ?_ ?_ ?_
  · intro t known
    rw [level,list]
    exact kept.level t (count ▸ known)
  · intro t known l member
    rw [list] at member
    exact holder l t (kept.held t (count ▸ known) l member)
  · intro t known
    rw [list]
    exact kept.once t (count ▸ known)

theorem bookKept_donateOnce {next : Option LockId} (kept : BookKept k)
    (ran : donateOnce k ct l = some (k',next)) : BookKept k' := by
  rcases donateOnce_cases ran with ⟨rfl,_,_⟩ | ⟨lh,holds,_,_,_,rfl,_⟩
  · exact kept
  · by_cases listed : l ∈ (k.threads lh).lock_list
    · obtain ⟨list,level⟩ := donated_listed (k.threads lh) (k.priority ct) listed
      refine bookKept_congr kept rfl ?_ ?_ (fun _ _ same => same)
      · intro t
        by_cases same : t = lh
        · subst same; simp [level]
        · rw [setThread_other _ same]
      · intro t
        by_cases same : t = lh
        · subst same; simp [list]
        · rw [setThread_other _ same]
    · obtain ⟨list,level⟩ := donated_unlisted (k.threads lh) (k.priority ct) listed
      refine bookKept_of ?_ ?_ ?_
      · intro t known
        by_cases same : t = lh
        · subst same
          rw [setThread_same,list,level,kept.level t known]
          simp
        · rw [setThread_other _ same]
          exact kept.level t known
      · intro t known m member
        by_cases same : t = lh
        · subst same
          rw [setThread_same,list] at member
          rcases List.mem_append.mp member with before | added
          · exact kept.held t known m before
          · rw [List.mem_singleton.mp added]
            exact holds
        · rw [setThread_other _ same] at member
          exact kept.held t known m member
      · intro t known
        by_cases same : t = lh
        · subst same
          rw [setThread_same,list]
          exact List.Nodup.append (kept.once t known) (List.nodup_singleton l) (by simpa using listed)
        · rw [setThread_other _ same]
          exact kept.once t known

theorem bookKept_donation (kept : BookKept k) (ran : priority_donation k ct l = some d) : BookKept d := by
  refine donate_induction (fun k _ => BookKept k) _ ?_ _ k l kept ran
  intro k1 l1 k2 next before once
  have after := bookKept_donateOnce before once
  exact ⟨after,fun _ _ => after⟩

/-- No held lock is linked into the list of another thread than its holder. -/
def LinkedAtHolder (k : Kernel) : Prop := ∀ m h, k.holder m = some h → linkedElsewhere k h m = false

theorem linkedElsewhere_eq_false : linkedElsewhere k t l = false ↔
    ∀ u < k.count, u ≠ t → l ∉ (k.threads u).lock_list := by
  simp [linkedElsewhere]

theorem bookKept_linked (kept : BookKept k) : LinkedAtHolder k := by
  intro m h holds
  rw [linkedElsewhere_eq_false]
  intro u known other listed
  have mine := kept.held u known m listed
  rw [holds] at mine
  exact other (Option.some.inj mine).symm

theorem linked_donated {h : Tid} {p : Int} (linked : LinkedAtHolder k) (holds : k.holder l = some h) :
    LinkedAtHolder (k.setThread h (donated (k.threads h) l p)) := by
  intro m g holdsToo
  rw [linkedElsewhere_eq_false]
  intro u known other listed
  have apart := linkedElsewhere_eq_false.mp (linked m g holdsToo) u known other
  by_cases same : u = h
  · subst same
    rw [setThread_same] at listed
    by_cases before : l ∈ (k.threads u).lock_list
    · rw [(donated_listed _ p before).1] at listed
      exact apart listed
    · rw [(donated_unlisted _ p before).1] at listed
      rcases List.mem_append.mp listed with old | added
      · exact apart old
      · rw [List.mem_singleton.mp added,setThread_holder,holds] at holdsToo
        exact other (Option.some.inj holdsToo)
  · rw [setThread_other _ same] at listed
    exact apart listed

/-- The threads that a donation of priority `p` can still raise. -/
def below (k : Kernel) (p : Int) : Finset Tid := (Finset.range k.count).filter (fun u => k.priority u < p)

theorem below_donated {h : Tid} {p : Int} (known : h < k.count) (lower : k.priority h < p) :
    (below (k.setThread h (donated (k.threads h) l p)) p).card < (below k p).card := by
  apply Finset.card_lt_card
  refine (Finset.ssubset_iff_of_subset ?_).mpr ⟨h,?_,?_⟩
  · intro u member
    simp only [below,Finset.mem_filter,Finset.mem_range,setThread_count] at member ⊢
    refine ⟨member.1,?_⟩
    by_cases same : u = h
    · exact same ▸ lower
    · simpa [Kernel.priority,setThread_other _ same] using member.2
  · simp [below,known,lower]
  · intro member
    have raised := (Finset.mem_filter.mp member).2
    simp [Kernel.priority] at raised

/-- The recursion of `priority_donation` ends: each activation but the last
    raises one more thread. -/
theorem donate_total (n : Nat) : ∀ (k : Kernel) (l : LockId), Wf k → LinkedAtHolder k →
    (below k (k.priority ct)).card < n → ∃ d, donate ct n k l = some d := by
  induction n with
  | zero => intro k l _ _ fuel; exact absurd fuel (Nat.not_lt_zero _)
  | succ n ih =>
    intro k l wf linked fuel
    rw [donate]
    cases once : donateOnce k ct l with
    | none =>
      -- Only an element in a foreign list stops the donation.
      unfold donateOnce at once
      cases holds : k.holder l with
      | none => simp [holds] at once
      | some h =>
        simp only [holds,linked l h holds,Bool.false_eq_true,and_false,↓reduceIte] at once
        split at once
        · split at once <;> cases once
        · cases once
    | some result =>
      obtain ⟨middle,next⟩ := result
      cases next with
      | none => exact ⟨middle,rfl⟩
      | some next =>
        rcases donateOnce_cases once with ⟨_,none,_⟩ | ⟨h,holds,lower,_,_,rfl,_⟩
        · cases none
        · have other : ct ≠ h := by
            rintro rfl
            omega
          refine ih _ next (wf_donated wf (donateOnce_same once)) (linked_donated linked holds) ?_
          have own : (k.setThread h (donated (k.threads h) l (k.priority ct))).priority ct = k.priority ct := by
            simp [Kernel.priority,setThread_other _ other]
          rw [own]
          exact Nat.lt_of_lt_of_le (below_donated (wf.held l h holds).1 lower) (Nat.le_of_lt_succ fuel)

/-- With the books kept, a donation always runs to its end. -/
theorem priority_donation_total (wf : Wf k) (kept : BookKept k) (ct : Tid) (l : LockId) :
    ∃ d, priority_donation k ct l = some d := by
  refine donate_total (k.count + 1) k l wf (bookKept_linked kept) (Nat.lt_succ_of_le ?_)
  simpa [below] using Finset.card_filter_le (Finset.range k.count) (fun u => k.priority u < k.priority ct)

/-- What a release leaves in the books. -/
theorem restored_books (kept : BookKept k) (known : t < k.count)
    (front : FrontDonor k (.lock_release t l stray)) :
    (restored k t l stray).donation_nested_level = (restored k t l stray).lock_list.length ∧
      (restored k t l stray).lock_list = (k.threads t).lock_list.erase l := by
  have level := kept.level t known
  rcases restored_cases k t l stray with ⟨early,same⟩ | ⟨_,listed,_,same⟩ | ⟨some,listed,differs,_⟩
  · have unlisted : l ∉ (k.threads t).lock_list := by
      rcases early with zero | unlisted
      · rw [level] at zero
        simp [List.eq_nil_of_length_eq_zero (Int.ofNat_eq_zero.mp zero)]
      · exact unlisted
    rw [same]
    exact ⟨level,(List.erase_of_not_mem unlisted).symm⟩
  · rw [same]
    refine ⟨?_,rfl⟩
    have positive := List.length_pos_of_mem listed
    simp only [List.length_erase_of_mem listed,level]
    omega
  · exact absurd (front some listed) differs

theorem bookKept_steps (kept : BookKept k) (meets : FrontDonor k e) (steps : Steps k e k') :
    BookKept k' := by
  cases steps with
  | create low high created =>
    simp only [thread_create,low,high,and_self,↓reduceIte,Option.some.injEq] at created
    subst created
    have before : ∀ t, t < k.count + 1 → t ≠ k.count → t < k.count := by
      intro t bound other
      exact Nat.lt_of_le_of_ne (Nat.le_of_lt_succ bound) other
    refine bookKept_of ?_ ?_ ?_
    · intro t known
      by_cases new : t = k.count
      · subst new; simp [init_thread]
      · simpa [setThread_other _ new] using kept.level t (before t known new)
    · intro t known l member
      by_cases new : t = k.count
      · subst new; simp [init_thread] at member
      · exact kept.held t (before t known new) l (by simpa [setThread_other _ new] using member)
    · intro t known
      by_cases new : t = k.count
      · subst new; simp [init_thread]
      · simpa [setThread_other _ new] using kept.once t (before t known new)
  | @init l unused =>
    refine bookKept_congr kept rfl (fun _ => rfl) (fun _ => rfl) ?_
    intro m t holds
    have other : m ≠ l := by
      rintro rfl
      rw [unused.1] at holds
      cases holds
    simpa [lock_init,Kernel.holder,setLock_other _ other] using holds
  | @acquire t l free unheld =>
    refine bookKept_congr kept rfl (fun _ => taken_level) (fun _ => taken_lock_list) ?_
    intro m u holds
    have other : m ≠ l := by
      rintro rfl
      rw [unheld] at holds
      cases holds
    simpa [taken_holder,other] using holds
  | @block t h l d free held other ran =>
    refine bookKept_congr (bookKept_donation kept ran) rfl ?_ ?_ ?_
    · intro u
      by_cases same : u = t
      · subst same; simp [waitingFor]
      · simp [waitingFor,setThread_other _ same]
    · intro u
      by_cases same : u = t
      · subst same; simp [waitingFor]
      · simp [waitingFor,setThread_other _ same]
    · intro m u holds
      simpa [waitingFor] using holds
  | @resume t l woken unheld =>
    refine bookKept_congr kept rfl (fun _ => taken_level) (fun _ => taken_lock_list) ?_
    intro m u holds
    have other : m ≠ l := by
      rintro rfl
      rw [unheld] at holds
      cases holds
    simpa [taken_holder,other] using holds
  | again woken held =>
    exact bookKept_congr kept rfl (fun _ => rfl) (fun _ => rfl) (fun m u holds => by simpa using holds)
  | @release t l stray k' free held released =>
    obtain ⟨level,list⟩ := restored_books kept free.1 meets
    have holder : ∀ m, m ≠ l → k'.holder m = k.holder m := by
      intro m other
      simp [Kernel.holder,released.locks m other]
    refine bookKept_of ?_ ?_ ?_
    · intro u known
      by_cases same : u = t
      · rw [same,released.own,level]
      · rw [released.others u same]
        exact kept.level u (released.count ▸ known)
    · intro u known m member
      by_cases same : u = t
      · subst same
        rw [released.own,list] at member
        have other : m ≠ l := by
          rintro rfl
          exact (kept.once u free.1).not_mem_erase member
        rw [holder m other]
        exact kept.held u free.1 m (List.mem_of_mem_erase member)
      · rw [released.others u same] at member
        have holds := kept.held u (released.count ▸ known) m member
        have other : m ≠ l := by
          rintro rfl
          rw [held] at holds
          exact same (Option.some.inj holds).symm
        rw [holder m other]
        exact holds
    · intro u known
      by_cases same : u = t
      · rw [same,released.own,list]
        exact (kept.once t free.1).erase l
      · rw [released.others u same]
        exact kept.once u (released.count ▸ known)
  | @prioritise t p free =>
    refine bookKept_congr kept rfl ?_ ?_ (fun _ _ same => same)
    · intro u
      by_cases same : u = t
      · subst same; simp [thread_set_priority]
      · simp [thread_set_priority,setThread_other _ same]
    · intro u
      by_cases same : u = t
      · subst same; simp [thread_set_priority]
      · simp [thread_set_priority,setThread_other _ same]

theorem bookKept_breaks (meets : ¬ FrontDonor k e) (steps : Steps k e k') : ¬ BookKept k' := by
  cases steps with
  | @release t l stray k' free held released =>
    simp only [FrontDonor,not_forall] at meets
    obtain ⟨some,listed,front⟩ := meets
    intro kept
    have list : (k'.threads t).lock_list = (k.threads t).lock_list := by
      rw [released.own]
      rcases restored_cases k t l stray with ⟨_,same⟩ | ⟨_,_,equal,_⟩ | ⟨_,_,_,same⟩
      · rw [same]
      · exact absurd equal front
      · rw [same]
    have holds := kept.held t (released.count ▸ free.1) l (list ▸ listed)
    rw [released.holder] at holds
    cases holds
  | _ => exact absurd trivial meets

/-- In every state of a run whose releases all find the holder's own priority at
    the front of the waiters, the books are kept; and the next step keeps them
    exactly when it is such a release or no release of a donated lock at all. -/
theorem lock_list_kept_iff_front_donor (reached : Reaches machine FrontDonor k) :
    BookKept k ∧ ∀ e k', machine.Step k e k' → (BookKept k' ↔ FrontDonor k e) := by
  have wf := reaches_wf reached
  have kept : BookKept k := by
    refine reaches_kept BookKept bookKept_boot ?_ reached
    intro k e k' _ kept meets steps
    exact bookKept_steps kept meets steps
  refine ⟨kept,?_⟩
  intro e k' ran
  have steps := step_cases wf ran
  constructor
  · intro after
    by_contra fails
    exact bookKept_breaks fails steps after
  · exact fun meets => bookKept_steps kept meets steps

/-- Two donors through two locks, the higher of which is released first. -/
def highestFirst : List Event :=
  [.lock_acquire 0 0,.lock_acquire 0 1,.thread_create 34,.lock_acquire 1 0,.thread_create 36,.lock_acquire 2 1,
    .lock_release 0 1 0,.resume 2 1]

theorem lock_list_kept_highest_first : ∃ k, guardedRun step FrontDonor boot highestFirst = some k ∧
    BookKept k ∧ (k.threads 0).lock_list = [0] ∧ k.priority 0 = 34 :=
  ⟨_,rfl,(lock_list_kept_iff_front_donor (guardedRun_reachable boot step FrontDonor highestFirst rfl)).1,
    by decide,by decide⟩

/-- The test `priority-donate-multiple2`, up to its first release. -/
def donateMultiple2 : List Event :=
  [.lock_acquire 0 0,.lock_acquire 0 1,.thread_create 34,.lock_acquire 1 0,.thread_create 36,.lock_acquire 2 1,
    .lock_release 0 0 0]

/-- The lock that the main thread of the test has just released is still in its
    `lock_list`. -/
theorem released_lock_stays_listed : ∃ k, run step boot donateMultiple2 = some k ∧
    Reaches machine Anything k ∧ ¬ BookKept k := by
  refine ⟨_,rfl,run_reachable boot step donateMultiple2 rfl,?_⟩
  intro kept
  have counted := kept.level 0 (by decide)
  revert counted
  decide

end Pintos.Donation
