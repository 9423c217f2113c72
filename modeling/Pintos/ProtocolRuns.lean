import Pintos.ProtocolChild

/-!
The rest of `thread_exit`, the calls, and whole runs: every orderly run keeps the
invariant of `Protocol`, and none stops the kernel.
-/
namespace Pintos.Protocol
open Pintos.Machines Pintos.Processes
set_option linter.unusedSimpArgs false

variable {k k' : Kernel} {t c d u : Tid} {pc pc' : Pc} {r r' : Role} {e : Cursor} {v : View}

/-! ### The children of a thread that exits -/

theorem inv_exit_children (inv : Inv k) (here : (k.threads t).pc = .exit_children)
    (step : pcStep k t .exit_children = some k') : Inv k' := by
  cases list : (k.threads t).child_thread_list with
  | nil =>
    simp only [pcStep,list,Option.some.injEq] at step
    subst step
    exact inv_closed t inv here (by simp) rfl rfl (fun _ _ => no_subject) (fun _ _ => no_subject) (fun _ same => same) .inl
      (by simp [subject]) list
  | cons c rest =>
    simp only [pcStep,list,Option.some.injEq] at step
    subst step
    have listed : c ∈ (k.threads t).child_thread_list := by simp [list]
    obtain ⟨mine,pair,given⟩ := given_of_listed inv here (by simp [subject]) listed
    refine inv_closed c inv here (by simp) rfl rfl (fun _ _ => no_subject) (fun _ _ => same_subject) ?_ (not_down rfl rfl)
      (fun _ _ => mine) trivial
    intro _ _
    rw [role_subject rfl]
    exact pair_role pair given rfl rfl (by simp [Role.down])

theorem inv_exit_status (inv : Inv k) (here : (k.threads t).pc = .exit_status c) (orderly : ReadsWhole k t)
    (step : pcStep k t (.exit_status c) = some k') : Inv k' := by
  obtain ⟨mine,pair⟩ := pair_at inv here rfl
  have given : Given (view k c) := pair.joint
  have allocated : (k.child_threads c).freed = false := given.freed
  have unmarking : marking (view k c).pc = false := by
    refine orderly.2 c ?_
    rw [here]
    rfl
  have whole : finishing (view k c).pc = false := by
    have started := given.started
    cases at_ : (view k c).pc with
    | mark_exit_status m => cases m <;> simp_all [starting,marking]
    | _ => rfl
  simp only [pcStep,allocated,Bool.false_eq_true,if_false] at step
  by_cases dying : (k.child_threads c).status = .THREAD_DYING
  · rw [if_pos dying,Option.some.injEq] at step
    subst step
    refine inv_closed c inv here (by simp) rfl rfl (fun _ _ => same_subject) (fun _ _ => same_subject) ?_ (not_down rfl rfl)
      (fun _ _ => mine) trivial
    intro _ _
    rw [role_subject rfl]
    exact pair_role pair ⟨given.listed,given.toRecorded,.inl (closed_of_dying given whole dying)⟩ rfl rfl (by simp [Role.down])
  · rw [if_neg dying,Option.some.injEq] at step
    subst step
    refine inv_closed c inv here (by simp) rfl rfl (fun _ _ => same_subject) (fun _ _ => same_subject) ?_ (not_down rfl rfl)
      (fun _ _ => mine) trivial
    intro _ _
    rw [role_subject rfl]
    refine pair_role pair ⟨given,?_,unmarking⟩ rfl rfl (by simp [Role.down])
    cases shut : closed (view k c).pc with
    | false => rfl
    | true => exact absurd (given.closed shut).1 dying

theorem inv_exit_orphan (inv : Inv k) (here : (k.threads t).pc = .exit_orphan c)
    (step : pcStep k t (.exit_orphan c) = some k') : Inv k' := by
  obtain ⟨mine,pair⟩ := pair_at inv here rfl
  obtain ⟨given,opened,unmarking⟩ := pair.joint
  have live : c ∈ k.all_list := by
    by_contra left
    have gone : (view k c).pc = .gone := pair.fate.leaves left
    rw [gone] at opened
    cases opened
  have page : (k.child_threads c).t = (k.threads c).page := given.page
  simp only [pcStep,page,occupant_sole (inv.sound.pages c live) live,Option.some.injEq] at step
  subst step
  have touch : Touches k (setThread k c { k.threads c with parent_thread := .null }) c :=
    touches_thread k c .null (k.threads c).waiting_sema
  refine inv_touch inv touch here (by simp) mine ?_ (fun _ _ => same_subject) (fun _ _ => same_subject) ?_
    (self_closed inv here (by simp) rfl rfl) (not_down rfl rfl) (fun root => absurd root (no_root inv here (by simp) rfl)) trivial
  · simp
  · rw [role_subject rfl,touch.view_self,setThread_self]
    refine ⟨fate_shared pair.fate,⟨given.listed,⟨given.freed,given.page⟩,.inr ⟨rfl,unmarking,given.started⟩⟩,?_⟩
    exact signals_place (signals_role pair.signals rfl rfl (by simp [Role.down])) rfl

theorem inv_exit_remove (inv : Inv k) (here : (k.threads t).pc = .exit_remove c) (orderly : UnlinksClear k t)
    (step : pcStep k t (.exit_remove c) = some k') : Inv k' := by
  obtain ⟨-,pair⟩ := pair_at inv here rfl
  obtain ⟨listed,recorded,apart⟩ := pair.joint
  have allocated : (k.child_threads c).freed = false := recorded.freed
  simp only [pcStep,allocated,Bool.false_eq_true,if_false,Option.some.injEq] at step
  subst step
  refine inv_unlink inv here (by simp) rfl rfl rfl rfl listed apart (self_closed inv here (by simp) rfl rfl) ?_
    (fun root => absurd root (no_root inv here (by simp) rfl)) trivial
  refine orderly c ?_
  rw [here]
  rfl

theorem inv_exit_free (inv : Inv k) (here : (k.threads t).pc = .exit_free c)
    (step : pcStep k t (.exit_free c) = some k') : Inv k' := by
  obtain ⟨-,pair⟩ := pair_at inv here rfl
  have allocated : (k.child_threads c).freed = false := pair.joint.2.2
  simp only [pcStep,allocated,Bool.false_eq_true,if_false,Option.some.injEq] at step
  subst step
  exact inv_free inv here (by simp) rfl rfl (self_closed inv here (by simp) rfl rfl)
    (fun root => absurd root (no_root inv here (by simp) rfl)) trivial

/-! ### Leaving -/

/-- A thread leaves with nobody looking for its semaphore: whoever waits there finds
    what is left on the page. -/
theorem pair_leave {sema : Semaphore} {n : Nat} (pair : Pair v r) (here : v.pc = .exit_schedule) (known : r ≠ .sought)
    (up : 0 < n) : Pair { v with live := False, pc := .gone, sema := sema, stale := n } r.woken := by
  have shut : closed v.pc = true := by rw [here]; rfl
  have notEarly : ¬ Early v := by
    intro early
    have unmarked := early.unmarked
    rw [here] at unmarked
    cases unmarked
  have kept : Kept v → Kept { v with live := False, pc := .gone, sema := sema, stale := n } := fun h =>
    ⟨⟨h.freed,h.page⟩,h.listed,fun live => live.elim,fun _ => h.closed shut,by simp [finishing],fun _ => .inl rfl⟩
  have given : Given v → Given { v with live := False, pc := .gone, sema := sema, stale := n } := fun h =>
    ⟨kept h.toKept,h.load,rfl⟩
  refine ⟨⟨?_,?_,?_,?_,?_,?_,?_⟩,?_,⟨?_,?_,?_,?_,?_⟩⟩
  · have loading := pair.fate.loading
    rw [here] at loading
    simpa using loading
  · simp
  · simp [starting]
  · exact fun lost _ => pair.fate.status lost (by rw [here]; rfl)
  · exact fun _ => pair.fate.exited (.inr (.inr shut))
  · simp [starting]
  · exact fun _ => rfl
  · have joint := pair.joint
    cases r with
    | unrecorded => exact absurd joint.1 notEarly
    | unadopted => exact absurd joint.1 notEarly
    | unlisted => exact absurd joint.1 notEarly
    | sought => exact absurd rfl known
    | awaiting b => exact ⟨kept joint.1,joint.2.1,by simp⟩
    | checking => exact ⟨kept joint.1,joint.2.1,rfl⟩
    | refusing => exact ⟨kept joint.1,rfl,joint.2.2⟩
    | found => exact given joint
    | waiting b => exact given joint
    | collecting => exact ⟨given joint.1,rfl⟩
    | unlinked => exact ⟨joint.1,.inl rfl,joint.2.2⟩
    | orphaning =>
      have opened := joint.2.1
      rw [shut] at opened
      cases opened
    | removing => exact ⟨joint.1,⟨joint.2.1.freed,joint.2.1.page⟩,.inl rfl⟩
    | other => exact joint.imp given fun left => ⟨left.1,.inl rfl⟩
  · simp [starting]
  · exact fun live => live.elim
  · exact fun live => live.elim
  · exact fun _ _ => up
  · intro queued
    rw [woken_blocked] at queued
    cases queued

/-- What stands in place of a semaphore that nobody waits at, or that is up. -/
theorem pair_stale {n : Nat} (pair : Pair v r) (up : r.down = true → ¬ v.live → 0 < n) : Pair { v with stale := n } r where
  fate := fate_shared pair.fate
  joint := joint_place pair.joint rfl (fun early => ⟨early.unmarked,early.failed⟩) fun _ => rfl
  signals := ⟨pair.signals.starts,pair.signals.value,pair.signals.waiters,fun left down => up down left,pair.signals.awake⟩

theorem surveying_wake (pc : Pc) : surveying (wake pc) = surveying pc := by
  cases pc with
  | run a => cases a <;> rfl
  | _ => rfl

/-- `k'` is `m` without `t`. -/
structure Leaves (m k' : Kernel) (t : Tid) (n : Nat) : Prop where
  threads : k'.threads = (setPc m t .gone).threads
  all_list : k'.all_list = m.all_list.erase t
  stale : ∀ p, k'.stale p = if p = (m.threads t).page then n else m.stale p
  records : k'.child_threads = m.child_threads
  next_tid : k'.next_tid = m.next_tid
  fault : k'.fault = m.fault

theorem Leaves.live {m : Kernel} {n : Nat} (leaves : Leaves m k' t n) (other : c ≠ t) : c ∈ k'.all_list ↔ c ∈ m.all_list := by
  rw [leaves.all_list]
  exact List.mem_erase_of_ne other

theorem Leaves.sound {m : Kernel} {n : Nat} (leaves : Leaves m k' t n) (sound : Sound m)
    (empty : (m.threads t).child_thread_list = []) (created : (m.threads t).creator ≠ 0) : Sound k' := by
  refine ⟨?_,?_,?_,?_,?_,?_,?_,?_,?_⟩
  · intro u member
    rw [leaves.all_list] at member
    rw [leaves.next_tid]
    exact sound.ids u (List.mem_of_mem_erase member)
  · rw [leaves.all_list]
    exact sound.once.erase t
  · intro u member d liveToo page
    rw [leaves.all_list] at member liveToo
    rw [leaves.threads,setPc_page,setPc_page] at page
    exact sound.pages u (List.mem_of_mem_erase member) d (List.mem_of_mem_erase liveToo) page
  · intro u left
    rw [leaves.threads]
    by_cases same : u = t
    · subst same
      rw [setPc_self]
      exact ⟨rfl,empty⟩
    · rw [setPc_other same]
      exact sound.gone u fun member => left ((leaves.live same).mpr member)
  · simpa only [leaves.threads,leaves.next_tid,setPc_creator] using sound.creators
  · simpa only [leaves.threads,setPc_creator,setPc_list] using sound.listed
  · simpa only [leaves.threads,setPc_list] using sound.distinct
  · intro u c r about
    rw [leaves.threads] at about ⊢
    rw [setPc_creator]
    by_cases same : u = t
    · subst same
      rw [setPc_self] at about
      cases about
    · rw [setPc_other same] at about
      exact sound.owns u c r about
  · intro u root
    rw [leaves.threads,setPc_creator] at root
    by_cases same : u = t
    · exact absurd (same ▸ root) created
    · rw [leaves.threads,setPc_other same]
      exact sound.roots u root

theorem Leaves.view_self {m : Kernel} {n : Nat} (leaves : Leaves m k' t n) (once : m.all_list.Nodup) : view k' t =
    { view m t with live := False, pc := .gone, stale := n } := by
  have left : (t ∈ m.all_list.erase t) = False := eq_false once.not_mem_erase
  simp only [view,leaves.threads,leaves.all_list,leaves.stale,leaves.records,setPc_self,setPc_page,setPc_list,left,if_true]
theorem Leaves.view_other {m : Kernel} {n : Nat} (leaves : Leaves m k' t n) (other : c ≠ t) : view k' c =
    { view m c with stale := k'.stale (m.threads c).page } := by
  have live : (c ∈ k'.all_list) = (c ∈ m.all_list) := propext (leaves.live other)
  simp only [view,leaves.threads,live,leaves.records,setPc_other other,setPc_page,setPc_list]

/-- The local variables of the others when a thread leaves. -/
theorem local_leave {m : Kernel} {n : Nat} (leaves : Leaves m k' t n) (locally : Local m u pc) (clear : surveying pc ≠ some t) :
    Local k' u pc := by
  have page : ∀ c, (k'.threads c).page = (m.threads c).page := fun c => by rw [leaves.threads,setPc_page]
  have list : ∀ c, (k'.threads c).child_thread_list = (m.threads c).child_thread_list := fun c => by
    rw [leaves.threads,setPc_list]
  have sole : ∀ c, Sole m c → Sole k' c := by
    intro c h d member same
    rw [page,page] at same
    rw [leaves.all_list] at member
    exact h d (List.mem_of_mem_erase member) same
  have known : ∀ c, Acknowledged m u c → Acknowledged k' u c := by
    intro c h live parent
    rw [leaves.all_list] at live
    rw [page,leaves.threads,setPc_parent] at parent
    rw [list]
    exact h (List.mem_of_mem_erase live) parent
  have ahead : ∀ c e, Ahead m.all_list c e → e ≠ .elem t → Ahead k'.all_list c e := fun c e h other =>
    leaves.all_list ▸ ahead_erase h other
  cases pc with
  | run a =>
    cases a with
    | execute_lookup c e => exact ahead c e locally (by rintro rfl; exact clear rfl)
    | execute_record c new => exact ⟨by rw [page,locally.1],sole c locally.2⟩
    | execute_adopt c new => exact ⟨by rw [page,locally.1],sole c locally.2⟩
    | execute_sema c e => exact ahead c e locally (by rintro rfl; exact clear rfl)
    | execute_down c child b => exact ⟨by rw [page,locally.1],sole c locally.2⟩
    | wait_find c e => simpa only [Local,list] using locally
    | wait_lookup c e =>
      refine ⟨?_,fun begun => known c (locally.2 begun)⟩
      rintro f rfl
      have other : f ≠ t := by
        rintro rfl
        exact clear rfl
      exact (leaves.live other).mpr (locally.1 f rfl)
    | wait_parent c child => exact ⟨by rw [page,locally.1],sole c locally.2.1,known c locally.2.2.1,leaves.next_tid ▸ locally.2.2.2⟩
    | wait_record c child e => exact ⟨by rw [page,locally.1],sole c locally.2.1,by rw [list]; exact locally.2.2⟩
    | wait_down c child found b => exact ⟨by rw [page,locally.1],sole c locally.2.1,locally.2.2⟩
    | collect_remove f c ret =>
      cases f with
      | execute => exact locally
      | wait => simpa only [Local,leaves.threads,setPc_exited] using locally
    | collect_free f c ret =>
      cases f with
      | execute => simpa only [Local,leaves.threads,setPc_load] using locally
      | wait => simpa only [Local,leaves.threads,setPc_exited] using locally
    | _ => exact trivial
  | mark_find _ p e => simpa only [Local,leaves.threads,setPc_creator,setPc_page,setPc_list] using locally
  | exit_schedule => simpa only [Local,list] using locally
  | _ => exact trivial

/-- A thread that has no children leaves. -/
theorem inv_leave {m : Kernel} {n : Nat} (inv : Inv k) (signs : Signs k m t) (leaves : Leaves m k' t n)
    (here : (k.threads t).pc = .exit_schedule)
    (up : 0 < n) (clear : ∀ u ∈ k.all_list, surveying (m.threads u).pc ≠ some t)
    (self : Pair { view m t with live := False, pc := .gone, stale := n } (creatorRole m t)) : Inv k' := by
  have created := created_of_pc inv here (by simp) (by simp) (by simp)
  have distinct := creator_ne inv.sound created
  have sound := signs.sound inv.sound
  have empty : (m.threads t).child_thread_list = [] := (signs.cases t).2.2.1.trans (local_at inv here)
  have creator : ∀ c, (k'.threads c).creator = (k.threads c).creator := fun c => by
    rw [leaves.threads,setPc_creator,(signs.cases c).2.1]
  -- The children of `t` are nobody's business any more; the others' creators do what they did.
  have roles : ∀ c, c ≠ t → creatorRole k' c = creatorRole k c := by
    intro c other
    rw [creatorRole,creator,leaves.threads]
    by_cases mine : (k.threads c).creator = t
    · rw [creatorRole,mine,setPc_self,here]
      rfl
    · rw [setPc_other mine]
      exact signs.role_other _ mine other
  have ownRole : creatorRole k' t = creatorRole m t := by
    rw [creatorRole,creator,leaves.threads,setPc_other distinct,creatorRole,(signs.cases t).2.1]
  refine ⟨leaves.sound sound empty ((signs.cases t).2.1.symm ▸ created),?_,?_,?_,leaves.fault.trans (signs.fault.trans inv.runs)⟩
  · intro c existing
    rw [creator] at existing
    by_cases same : c = t
    · subst same
      rw [leaves.view_self sound.once,ownRole]
      exact self
    · rw [leaves.view_other same,roles c same]
      have before := signs.pair_other same (inv.pairs c existing)
      refine pair_stale before fun down left => ?_
      rw [leaves.stale]
      split
      · exact up
      · exact before.signals.stale left down
  · intro u
    rw [leaves.threads]
    by_cases same : u = t
    · subst same
      rw [setPc_self]
      exact trivial
    · rw [setPc_other same]
      by_cases live : u ∈ k.all_list
      · exact local_leave leaves (signs.local_other inv u same) (clear u live)
      · rw [(sound.gone u (signs.all_list ▸ live)).1]
        exact trivial
  · have old : ∀ c, (creatorRole k' c).down = true → (creatorRole k c).down = true := by
      intro c down
      by_cases same : c = t
      · subst same
        rw [ownRole,signs.role_down distinct] at down
        exact down
      · rw [roles c same] at down
        exact down
    intro c d downC downD page
    rw [leaves.threads,setPc_page,setPc_page,(signs.cases c).1,(signs.cases d).1] at page
    exact inv.exclusive c d (old c downC) (old d downD) page

theorem inv_exit_schedule (inv : Inv k) (here : (k.threads t).pc = .exit_schedule) (orderly : LeavesClear k t)
    (step : pcStep k t .exit_schedule = some k') : Inv k' := by
  have created := created_of_pc inv here (by simp) (by simp) (by simp)
  have live := live_of_pc inv.sound here (by simp)
  obtain ⟨clear,known⟩ := orderly here
  obtain ⟨others,own,creator⟩ := sema_up_threads inv created live
  obtain ⟨all_list,-,stale,-,-⟩ := sema_up_rest k t
  obtain ⟨signs,woken⟩ := signs_sema_up inv created live
  simp only [pcStep,Option.some.injEq] at step
  subst step
  refine inv_leave (n := POISON) inv signs ⟨rfl,?_,?_,rfl,rfl,rfl⟩ here (by decide) ?_ ?_
  · rw [all_list]
  · intro p
    rw [own,stale]
  · intro u member
    by_cases self : u = t
    · subst self
      rw [own]
      exact clear u member
    · by_cases above : u = (k.threads t).creator
      · subst above
        rw [creator]
        split
        · rw [surveying_wake]
          exact clear _ member
        · exact clear _ member
      · rw [others u self above]
        exact clear u member
  · rw [woken,signs.view_self,own]
    exact pair_leave (v := view k t) (inv.pairs t created) here known (by decide)

/-! ### A new thread -/

/-- `k'` is `k` with a new child of `t` on page `p`. -/
structure Creates (k k' : Kernel) (t : Tid) (p : Page) : Prop where
  threads : ∀ u, u ≠ k.next_tid → k'.threads u = k.threads u
  thread : k'.threads k.next_tid = newThread t p
  all_list : k'.all_list = k.all_list ++ [k.next_tid]
  stale : k'.stale = k.stale
  records : k'.child_threads = k.child_threads
  next_tid : k'.next_tid = k.next_tid + 1
  fault : k'.fault = k.fault

section
variable {p : Page}

theorem ne_next_tid (sound : Sound k) (created : (k.threads c).creator ≠ 0) : c ≠ k.next_tid :=
  Int.ne_of_lt (sound.creators c created).2.2
theorem live_ne_next_tid (sound : Sound k) (live : c ∈ k.all_list) : c ≠ k.next_tid :=
  Int.ne_of_lt (sound.ids c live).2
theorem creator_ne_next_tid (sound : Sound k) (created : (k.threads c).creator ≠ 0) : (k.threads c).creator ≠ k.next_tid := by
  obtain ⟨-,above,below⟩ := sound.creators c created
  exact Int.ne_of_lt (Int.lt_trans above below)

theorem Creates.live (creates : Creates k k' t p) (other : c ≠ k.next_tid) : c ∈ k'.all_list ↔ c ∈ k.all_list := by
  rw [creates.all_list]
  simp [other]

theorem Creates.view_other (creates : Creates k k' t p) (sound : Sound k) (created : (k.threads c).creator ≠ 0) :
    view k' c = view k c := by
  have live : (c ∈ k'.all_list) = (c ∈ k.all_list) := propext (creates.live (ne_next_tid sound created))
  simp only [view,creates.threads c (ne_next_tid sound created),creates.threads _ (creator_ne_next_tid sound created),live,
    creates.stale,creates.records]

theorem Creates.sound (creates : Creates k k' t p) (sound : Sound k) (live : t ∈ k.all_list) (vacant : occupant k p = none) :
    Sound k' := by
  rw [occupant_none] at vacant
  have next : ∀ u, u < k.next_tid → u < k'.next_tid := by
    intro u below
    rw [creates.next_tid]
    exact Int.lt_trans below (Int.lt_succ k.next_tid)
  obtain ⟨positive,below⟩ := sound.ids t live
  refine ⟨?_,?_,?_,?_,?_,?_,?_,?_,?_⟩
  · intro u member
    by_cases new : u = k.next_tid
    · subst new
      rw [creates.next_tid]
      exact ⟨Int.lt_trans positive below,Int.lt_succ _⟩
    · obtain ⟨above,small⟩ := sound.ids u ((creates.live new).mp member)
      exact ⟨above,next u small⟩
  · rw [creates.all_list,List.nodup_append]
    refine ⟨sound.once,by simp,?_⟩
    intro u member d isNew
    rw [List.mem_singleton.mp isNew]
    exact live_ne_next_tid sound member
  · intro u member d liveToo page
    by_cases new : u = k.next_tid
    · by_cases newToo : d = k.next_tid
      · rw [new,newToo]
      · subst new
        rw [creates.thread,creates.threads d newToo] at page
        exact absurd page (vacant d ((creates.live newToo).mp liveToo))
    · by_cases newToo : d = k.next_tid
      · subst newToo
        rw [creates.thread,creates.threads u new] at page
        exact absurd page.symm (vacant u ((creates.live new).mp member))
      · rw [creates.threads u new,creates.threads d newToo] at page
        exact sound.pages u ((creates.live new).mp member) d ((creates.live newToo).mp liveToo) page
  · intro u left
    have other : u ≠ k.next_tid := by
      rintro rfl
      exact left (by rw [creates.all_list]; simp)
    rw [creates.threads u other]
    exact sound.gone u fun member => left ((creates.live other).mpr member)
  · intro u created
    by_cases new : u = k.next_tid
    · subst new
      rw [creates.thread,creates.next_tid]
      exact ⟨positive,below,Int.lt_succ _⟩
    · rw [creates.threads u new] at created ⊢
      obtain ⟨first,second,third⟩ := sound.creators u created
      exact ⟨first,second,next u third⟩
  · intro u c listed
    by_cases new : u = k.next_tid
    · subst new
      rw [creates.thread] at listed
      cases listed
    · rw [creates.threads u new] at listed
      obtain ⟨mine,nonzero⟩ := sound.listed u c listed
      rw [creates.threads c (ne_next_tid sound (mine ▸ nonzero))]
      exact ⟨mine,nonzero⟩
  · intro u
    by_cases new : u = k.next_tid
    · subst new
      rw [creates.thread]
      exact List.nodup_nil
    · rw [creates.threads u new]
      exact sound.distinct u
  · intro u c r about
    by_cases new : u = k.next_tid
    · subst new
      rw [creates.thread] at about
      cases about
    · rw [creates.threads u new] at about
      obtain ⟨mine,nonzero⟩ := sound.owns u c r about
      rw [creates.threads c (ne_next_tid sound (mine ▸ nonzero))]
      exact ⟨mine,nonzero⟩
  · intro u root
    by_cases new : u = k.next_tid
    · subst new
      rw [creates.thread] at root
      exact absurd root (Int.ne_of_gt positive)
    · rw [creates.threads u new] at root ⊢
      exact sound.roots u root

/-- The local variables of the others when a thread is created where nobody looks. -/
theorem local_create (creates : Creates k k' t p) (inv : Inv k) (live : u ∈ k.all_list) (unheld : Unheld k p) :
    Local k' u (k.threads u).pc := by
  have other := live_ne_next_tid inv.sound live
  have locally := inv.locals u
  have free := unheld u live
  have owns := inv.sound.owns u
  have existing : ∀ c r, subject (k.threads u).pc = some (c,r) → c ≠ k.next_tid := fun c r about =>
    ne_next_tid inv.sound ((owns c r about).1 ▸ (owns c r about).2)
  have old : ∀ c, c ≠ k.next_tid → k'.threads c = k.threads c := creates.threads
  have sole : ∀ c, c ≠ k.next_tid → (k.threads c).page ≠ p → Sole k c → Sole k' c := by
    intro c before apart h d member page
    rw [old c before] at page
    by_cases new : d = k.next_tid
    · subst new
      rw [creates.thread] at page
      exact absurd page.symm apart
    · rw [old d new] at page
      exact h d ((creates.live new).mp member) page
  have known : ∀ c, Acknowledged k u c → Acknowledged k' u c := by
    intro c h liveToo parent
    by_cases new : c = k.next_tid
    · subst new
      rw [creates.thread] at parent
      cases parent
    · rw [old c new,old u other] at parent
      rw [old u other]
      exact h ((creates.live new).mp liveToo) parent
  have ahead : ∀ c e, c ≠ k.next_tid → Ahead k.all_list c e → Ahead k'.all_list c e := fun c e before h =>
    creates.all_list ▸ ahead_append h before.symm
  have parent : ∀ m q e, (k.threads u).pc = .mark_find m q e → (k.threads u).creator ≠ k.next_tid := fun m q e at_ =>
    creator_ne_next_tid inv.sound (created_of_pc inv at_ (by simp) (by simp) (by simp))
  generalize (k.threads u).pc = pc at locally free existing parent
  cases pc with
  | run a =>
    cases a with
    | execute_lookup c e => exact ahead c e (existing c _ rfl) locally
    | execute_record c new =>
      obtain ⟨rfl,alone⟩ := locally
      exact ⟨by rw [old c (existing c _ rfl)],sole c (existing c _ rfl) (fun same => free (congrArg some same)) alone⟩
    | execute_adopt c new =>
      obtain ⟨rfl,alone⟩ := locally
      exact ⟨by rw [old c (existing c _ rfl)],sole c (existing c _ rfl) (fun same => free (congrArg some same)) alone⟩
    | execute_sema c e => exact ahead c e (existing c _ rfl) locally
    | execute_down c child b =>
      obtain ⟨rfl,alone⟩ := locally
      exact ⟨by rw [old c (existing c _ rfl)],sole c (existing c _ rfl) (fun same => free (congrArg some same)) alone⟩
    | wait_find c e => simpa only [Local,old u other] using locally
    | wait_lookup c e =>
      refine ⟨?_,fun begun => known c (locally.2 begun)⟩
      rintro f rfl
      rw [creates.all_list]
      exact List.mem_append_left _ (locally.1 f rfl)
    | wait_parent c child =>
      obtain ⟨rfl,alone,acknowledged,below⟩ := locally
      have before := Int.ne_of_lt below
      refine ⟨by rw [old c before],sole c before (fun same => free (congrArg some same)) alone,known c acknowledged,?_⟩
      rw [creates.next_tid]
      exact Int.lt_trans below (Int.lt_succ _)
    | wait_record c child e =>
      obtain ⟨rfl,alone,walk⟩ := locally
      exact ⟨by rw [old c (existing c _ rfl)],sole c (existing c _ rfl) (fun same => free (congrArg some same)) alone,
        by rw [old u other]; exact walk⟩
    | wait_down c child found b =>
      obtain ⟨rfl,alone,isFound⟩ := locally
      exact ⟨by rw [old c (existing c _ rfl)],sole c (existing c _ rfl) (fun same => free (congrArg some same)) alone,isFound⟩
    | collect_remove f c ret =>
      cases f with
      | execute => exact locally
      | wait => simpa only [Local,old c (existing c _ rfl)] using locally
    | collect_free f c ret =>
      cases f with
      | execute => simpa only [Local,old c (existing c _ rfl)] using locally
      | wait => simpa only [Local,old c (existing c _ rfl)] using locally
    | _ => exact trivial
  | mark_find m q e => simpa only [Local,old u other,old _ (parent m q e rfl)] using locally
  | exit_schedule => simpa only [Local,old u other] using locally
  | _ => exact trivial

/-- The creator has everything to do about a new thread. -/
theorem pair_create (creates : Creates k k' t p) (sound : Sound k) (live : t ∈ k.all_list) :
    Pair (view k' k.next_tid) .unrecorded := by
  have unlisted : k.next_tid ∉ (k'.threads t).child_thread_list := by
    rw [creates.threads t (live_ne_next_tid sound live)]
    intro listed
    obtain ⟨mine,nonzero⟩ := sound.listed t _ listed
    exact ne_next_tid sound (mine ▸ nonzero) rfl
  have isLive : k.next_tid ∈ k'.all_list := by
    rw [creates.all_list]
    simp
  have shape : view k' k.next_tid =
      { view k' k.next_tid with
        live := True, pc := .load, load := none, parent := .garbage, exited := none, sema := ⟨0,[]⟩, listed := False } := by
    simp only [view,creates.thread,newThread,eq_true isLive,eq_false unlisted]
  rw [shape]
  refine ⟨⟨?_,?_,?_,?_,?_,?_,?_⟩,⟨⟨trivial,id,rfl,?_⟩,rfl⟩,⟨?_,?_,?_,?_,?_⟩⟩
  · simp
  · simp
  · simp
  · simp
  · simp [marking,closed]
  · exact fun _ => rfl
  · exact fun left => absurd trivial left
  · simp
  · exact fun _ => rfl
  · simp [starting]
  · exact fun _ => rfl
  · exact fun left => absurd trivial left
  · simp [Role.blocked]

theorem inv_process_execute (inv : Inv k) (here : (k.threads t).pc = .run .user) (vacant : occupant k p = none)
    (unheld : Unheld k p) : Inv (process_execute k t p) := by
  have live := live_of_pc inv.sound here (by simp)
  have nonzero : t ≠ 0 := Int.ne_of_gt (inv.sound.ids t live).1
  have old := live_ne_next_tid inv.sound live
  let k' : Kernel := { setThread k k.next_tid (newThread t p) with
    all_list := k.all_list ++ [k.next_tid], next_tid := k.next_tid + 1 }
  have creates : Creates k k' t p :=
    ⟨fun u other => setThread_other _ other,setThread_self k _ _,rfl,rfl,rfl,rfl,rfl⟩
  have positive : 0 < k.next_tid := Int.lt_trans (inv.sound.ids t live).1 (inv.sound.ids t live).2
  have roles : ∀ c, c ≠ k.next_tid → creatorRole k' c = creatorRole k c := by
    intro c other
    have existing : (k.threads c).creator ≠ k.next_tid := by
      by_cases created : (k.threads c).creator = 0
      · rw [created]
        exact Int.ne_of_lt positive
      · exact creator_ne_next_tid inv.sound created
    rw [creatorRole,creates.threads c other,creates.threads _ existing]
  have mine : (k'.threads k.next_tid).creator = t := by rw [creates.thread]; rfl
  have aside : ∀ c, c ≠ k.next_tid → role (.run (.execute_lookup k.next_tid .begin)) c = .other := fun c other =>
    role_other fun _ about => other (same_subject about)
  refine inv_move (creates.sound inv.sound live vacant) ?_ inv.runs ?_ ?_ ?_ ?_ trivial ?_ ?_ ?_ (fun _ => ⟨_,rfl⟩)
  · exact (creates.live old).mpr live
  · intro c created _ notMine
    have other : c ≠ k.next_tid := by
      rintro rfl
      exact notMine mine
    rw [creates.threads c other] at created
    rw [creates.view_other inv.sound created,roles c other]
    exact inv.pairs c created
  · intro created
    rw [creates.threads t old] at created
    rw [creates.view_other inv.sound created,roles t old]
    exact pair_run (inv.pairs t created) here
  · intro c isMine
    by_cases new : c = k.next_tid
    · subst new
      rw [role_subject rfl]
      exact pair_create creates inv.sound live
    · rw [creates.threads c new] at isMine
      have before := inv.pairs c (isMine ▸ nonzero)
      rw [creatorRole,isMine,here,role_none rfl] at before
      rw [creates.view_other inv.sound (isMine ▸ nonzero),aside c new]
      exact before
  · intro u other
    by_cases new : u = k.next_tid
    · subst new
      rw [creates.thread]
      exact trivial
    · rw [creates.threads u new]
      by_cases alive : u ∈ k.all_list
      · exact local_create creates inv alive unheld
      · rw [(inv.sound.gone u alive).1]
        exact trivial
  · have before : ∀ c, (creatorRole k' c).down = true → c ≠ k.next_tid ∧ (creatorRole k c).down = true := by
      intro c down
      by_cases new : c = k.next_tid
      · subst new
        rw [creatorRole,mine,creates.threads t old,here] at down
        cases down
      · rw [roles c new] at down
        exact ⟨new,down⟩
    intro c d downC downD page
    obtain ⟨oldC,downC⟩ := before c downC
    obtain ⟨oldD,downD⟩ := before d downD
    rw [creates.threads c oldC,creates.threads d oldD] at page
    exact inv.exclusive c d downC downD page
  · intro c isMine down
    by_cases new : c = k.next_tid
    · subst new
      rw [role_subject rfl] at down
      cases down
    · rw [aside c new] at down
      cases down
  · intro c r about
    rw [same_subject about]
    exact mine
end

/-! ### The other calls -/

theorem inv_process_wait (inv : Inv k) (here : (k.threads t).pc = .run .user) : Inv (process_wait k t c) := by
  rw [process_wait]
  split
  · refine inv_wait_returns ?_
    exact inv_activity c inv here (fun _ _ => no_subject) (fun _ _ => no_subject) (fun _ same => same) .inl
      (by simp [subject]) trivial
  · exact inv_activity c inv here (fun _ _ => no_subject) (fun _ _ => no_subject) (fun _ same => same) .inl
      (by simp [subject]) trivial

/-- Whoever waits for a child holds a pointer to its page. -/
theorem held_of_down (locally : Local k t pc) (down : (role pc c).down = true) : held pc = some (k.threads c).page := by
  have busy : role pc c ≠ .other := by
    intro other
    rw [other] at down
    cases down
  have about := subject_of_role busy
  generalize role pc c = r at about down
  cases pc with
  | run a =>
    cases a with
    | execute_down d child b => cases about; exact congrArg some locally.1
    | wait_record d child e => cases about; exact congrArg some locally.1
    | wait_down d child found b => cases about; exact congrArg some locally.1
    | collect_status f d => cases f <;> cases about <;> cases down
    | collect_remove f d ret => cases f <;> cases about <;> cases down
    | _ => cases about <;> cases down
  | _ => cases about <;> cases down

theorem inv_reuse {p : Page} {n : Nat} (inv : Inv k) (unheld : Unheld k p) :
    Inv { k with stale := fun q => if q = p then n else k.stale q } := by
  refine inv_stale inv p n ?_
  intro c down page _
  have holds := held_of_down (inv.locals (k.threads c).creator) down
  have live : (k.threads c).creator ∈ k.all_list := by
    by_contra left
    rw [(inv.sound.gone _ left).1] at holds
    cases holds
  exact absurd (holds.trans (congrArg some page)) (unheld _ live)

/-! ### Runs -/

theorem inv_activityStep {a : Activity} (inv : Inv k) (here : (k.threads t).pc = .run a) (orderly : OrderlyRun k t)
    (step : activityStep k t a = some k') : Inv k' := by
  obtain ⟨-,-,closedFirst,readsWhole,-,unlinksClear,-,collectedGone⟩ := orderly
  cases a with
  | user => cases step
  | execute_lookup c e => exact inv_execute_lookup inv here step
  | execute_record c new => exact inv_execute_record inv here step
  | execute_adopt c new => exact inv_execute_adopt inv here step
  | execute_push c => exact inv_execute_push inv here step
  | execute_sema c e => exact inv_execute_sema inv here step
  | execute_down c child b =>
    cases b with
    | false => exact inv_execute_down inv here step
    | true => cases step
  | execute_check c => exact inv_execute_check inv here closedFirst step
  | wait_find c e => exact inv_wait_find inv here step
  | wait_check c => exact inv_wait_check inv here readsWhole step
  | wait_lookup c e => exact inv_wait_lookup inv here collectedGone step
  | wait_parent c child => exact inv_wait_parent inv here step
  | wait_record c child e => exact inv_wait_record inv here step
  | wait_down c child found b =>
    cases b with
    | false => exact inv_wait_down inv here step
    | true => cases step
  | collect_status f c => exact inv_collect_status inv here step
  | collect_remove f c ret => exact inv_collect_remove inv here unlinksClear step
  | collect_free f c ret => exact inv_collect_free inv here step

theorem inv_pcStep (inv : Inv k) (here : (k.threads t).pc = pc) (orderly : OrderlyRun k t)
    (step : pcStep k t pc = some k') : Inv k' := by
  obtain ⟨listedFirst,returnedFirst,-,readsWhole,notOrphaned,unlinksClear,leavesClear,-⟩ := id orderly
  cases pc with
  | idle => cases step
  | load => cases step
  | loaded => exact inv_loaded inv here step
  | failed_up => exact inv_failed_up inv here step
  | mark m => exact inv_mark inv here listedFirst step
  | mark_find m p e => exact inv_mark_find inv here step
  | mark_status m => exact inv_mark_status inv here returnedFirst step
  | mark_exit_status m => exact inv_mark_exit_status inv here step
  | run a => exact inv_activityStep inv here orderly step
  | exit_check => exact inv_exit_check inv here notOrphaned step
  | exit_children => exact inv_exit_children inv here step
  | exit_status c => exact inv_exit_status inv here readsWhole step
  | exit_orphan c => exact inv_exit_orphan inv here step
  | exit_remove c => exact inv_exit_remove inv here unlinksClear step
  | exit_free c => exact inv_exit_free inv here step
  | exit_schedule => exact inv_exit_schedule inv here leavesClear step
  | gone => cases step

theorem inv_step {event : Event} (inv : Inv k) (orderly : Orderly k event) (step : Processes.step k event = some k') :
    Inv k' := by
  cases (taken_of_step step).2 with
  | load here => exact inv_load inv here step
  | process_execute here vacant => exact inv_process_execute inv here vacant orderly
  | process_execute_fails here => exact inv
  | process_wait here => exact inv_process_wait inv here
  | syscall_exit here created => exact inv_syscall_exit inv here created
  | run taken => exact inv_pcStep inv rfl orderly taken
  | reuse vacant => exact inv_reuse inv orderly

theorem inv_boot : Inv boot := by
  have live : ∀ t, t ∈ boot.all_list ↔ t = 1 ∨ t = 2 := by
    intro t
    simp [boot]
  have quiet : ∀ t, subject (boot.threads t).pc = none := by
    intro t
    simp only [boot]
    split
    · rfl
    · split <;> rfl
  refine ⟨⟨?_,by decide,?_,?_,?_,?_,?_,?_,?_⟩,?_,?_,?_,rfl⟩
  · intro t member
    rcases (live t).mp member with rfl | rfl <;> decide
  · intro t member d liveToo page
    rcases (live t).mp member with rfl | rfl <;> rcases (live d).mp liveToo with rfl | rfl <;> first | rfl | cases page
  · intro t left
    rw [live,not_or] at left
    simp [boot,left.1,left.2,newThread]
  · exact fun t created => absurd rfl created
  · intro t c listed
    cases listed
  · exact fun t => List.nodup_nil
  · intro t c r about
    rw [quiet t] at about
    cases about
  · intro t _
    simp only [boot]
    split
    · exact .inl ⟨_,rfl⟩
    · split
      · exact .inr (.inl rfl)
      · exact .inr (.inr rfl)
  · exact fun c created => absurd rfl created
  · intro t
    simp only [boot]
    split
    · exact trivial
    · split <;> exact trivial
  · intro c d down _ _
    rw [creatorRole,role_none (quiet _)] at down
    cases down

/-- The invariant holds in every orderly run. -/
theorem reaches_inv (reach : Reaches machine Orderly k) : Inv k := by
  refine reaches_invariant Inv ?_ ?_ reach
  · rintro s rfl
    exact inv_boot
  · exact fun s event s' inv orderly step => inv_step inv orderly step

end Pintos.Protocol
