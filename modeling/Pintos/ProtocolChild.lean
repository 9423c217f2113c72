import Pintos.ProtocolCreator

/-!
The steps of a child towards its creator: `start_process`, the marking of its
record, and its signals.
-/
namespace Pintos.Protocol
open Pintos.Machines Pintos.Processes
set_option linter.unusedSimpArgs false

variable {k k' : Kernel} {t c d u : Tid} {pc pc' : Pc} {r r' : Role} {e : Cursor} {v : View}

theorem created_of_pc (inv : Inv k) (here : (k.threads t).pc = pc) (started : ∀ a, pc ≠ .run a) (busy : pc ≠ .idle)
    (runs : pc ≠ .gone) : (k.threads t).creator ≠ 0 := by
  intro root
  rcases inv.sound.roots t root with ⟨a,same⟩ | same | same
  · exact started a (here.symm.trans same)
  · exact busy (here.symm.trans same)
  · exact runs (here.symm.trans same)

theorem touches_refl (k : Kernel) (c : Tid) : Touches k k c := ⟨fun _ _ => rfl,rfl,fun _ _ => rfl,rfl,rfl,rfl,rfl⟩

/-- A step of a thread about itself. -/
theorem inv_own (inv : Inv k) (touch : Touches k k' t)
    (parent : (k'.threads t).parent_thread = (k.threads t).parent_thread) (here : (k.threads t).pc = pc) (runs : pc ≠ .gone)
    (quiet : subject pc = none) (quiet' : subject pc' = none)
    (self : Pair { view k' t with pc := pc' } (creatorRole k t))
    (created : (k.threads t).creator ≠ 0) (locally : Local k t pc') : Inv (setPc k' t pc') := by
  have live := live_of_pc inv.sound here runs
  have nonzero : t ≠ 0 := Int.ne_of_gt (inv.sound.ids t live).1
  have creatorRole_same : ∀ d, creatorRole k' d = creatorRole k d := fun d => by
    rw [creatorRole,touch.creator,touch.here]
  have alike : ∀ u q, Alike k k' u q := fun u q => touch.alike fun same => parent ▸ same
  refine inv_move (touch.sound inv.sound) (touch.all_list ▸ live) (touch.fault.trans inv.runs) ?_ ?_ ?_ ?_
    (local_alike (alike t _) locally) ?_ ?_ ?_ ?_
  · intro d existing other _
    rw [touch.creator] at existing
    rw [touch.view_other other,creatorRole_same]
    exact inv.pairs d existing
  · intro _
    rw [creatorRole_same]
    exact self
  · intro d mine
    rw [touch.creator] at mine
    have other : d ≠ t := by
      rintro rfl
      exact creator_ne inv.sound created mine
    have before := inv.pairs d (mine ▸ nonzero)
    rw [creatorRole,mine,here,role_none quiet] at before
    rw [touch.view_other other,role_none quiet']
    exact before
  · intro u _
    rw [touch.here]
    exact local_alike (alike u _) (inv.locals u)
  · intro d f downD downF page
    rw [creatorRole_same] at downD downF
    rw [touch.page,touch.page] at page
    exact inv.exclusive d f downD downF page
  · intro d _ waits
    rw [role_none quiet'] at waits
    cases waits
  · intro d s about
    rw [quiet'] at about
    cases about
  · intro root
    rw [touch.creator] at root
    exact absurd root created

theorem starting_only (starts : starting pc = true) : pc ≠ .exit_check ∧ marking pc = false ∧ closed pc = false := by
  cases pc with
  | mark m => cases m <;> simp_all [starting,marking,closed]
  | mark_find m p e => cases m <;> simp_all [starting,marking,closed]
  | mark_status m => cases m <;> simp_all [starting,marking,closed]
  | mark_exit_status m => cases m <;> simp_all [starting,marking,closed]
  | _ => simp_all [starting,marking,closed]

theorem not_starting (marks : marking pc = true) : starting pc = false := by
  rw [Bool.eq_false_iff]
  intro starts
  rw [(starting_only starts).2.1] at marks
  cases marks

theorem open_of_busy (busy : marking pc = true ∨ starting pc = true) : closed pc = false := by
  cases pc <;> simp_all [marking,starting,closed]

theorem not_apart (busy : marking v.pc = true ∨ starting v.pc = true) : ¬ Apart v := by
  rintro (shut | ⟨-,notMarking,notStarting⟩)
  · rw [open_of_busy busy] at shut
    cases shut
  · rcases busy with h | h
    · rw [notMarking] at h
      cases h
    · rw [notStarting] at h
      cases h

/-- A child past its listing, and not past its record, is listed under its parent. -/
theorem kept_of_marking (joint : Joint v r) (listed : r.recording = false)
    (busy : marking v.pc = true ∨ starting v.pc = true) : Kept v := by
  have notApart := not_apart busy
  cases r with
  | unrecorded => cases listed
  | unadopted => cases listed
  | unlisted => cases listed
  | sought => exact joint.1
  | awaiting b => exact joint.1
  | checking => exact joint.1
  | refusing => exact joint.1
  | found => exact joint.toKept
  | waiting b => exact joint.toKept
  | collecting => exact joint.1.toKept
  | unlinked => exact absurd joint.2.1 notApart
  | orphaning => exact joint.1.toKept
  | removing => exact absurd joint.2.2 notApart
  | other => exact joint.elim (·.toKept) fun left => absurd left.2 notApart

/-- A child that has begun its search is past its listing. -/
theorem listed_of_searching (joint : Joint v r) (begun : unmarked v.pc = false) : r.recording = false := by
  have notEarly : ¬ Early v := by
    intro early
    rw [early.unmarked] at begun
    cases begun
  cases r with
  | unrecorded => exact absurd joint.1 notEarly
  | unadopted => exact absurd joint.1 notEarly
  | unlisted => exact absurd joint.1 notEarly
  | _ => rfl

/-- A record that the creator has not looked at is marked only for a failed load. -/
theorem lost_of_executing (joint : Joint v r) (kept : Kept v) (executing : r.executing = true)
    (dying : v.record.status = .THREAD_DYING) : v.load = some false := by
  cases r with
  | unrecorded => exact absurd kept.listed joint.1.unlisted
  | unadopted => exact absurd kept.listed joint.1.unlisted
  | unlisted => exact absurd kept.listed joint.1.unlisted
  | sought => exact joint.2.2 dying
  | awaiting b => exact joint.2.1 dying
  | checking => exact joint.2.1 dying
  | _ => cases executing

/-- A listed child goes on with its search and the marking of its record. -/
theorem joint_marked {record : ChildThread} (joint : Joint v r) (kept : Kept v)
    (busy : marking v.pc = true ∨ starting v.pc = true) (kept' : Kept { v with pc := pc, record := record })
    (started : starting pc = starting v.pc)
    (lost : r.executing = true → record.status = .THREAD_DYING → v.load = some false) :
    Joint { v with pc := pc, record := record } r := by
  have opened := open_of_busy busy
  have given : Given v → Given { v with pc := pc, record := record } := fun h =>
    ⟨kept',h.load,started.trans h.started⟩
  cases r with
  | unrecorded => exact absurd kept.listed joint.1.unlisted
  | unadopted => exact absurd kept.listed joint.1.unlisted
  | unlisted => exact absurd kept.listed joint.1.unlisted
  | sought => exact ⟨kept',joint.2.1,lost rfl⟩
  | awaiting b => exact ⟨kept',lost rfl,fun h => started.trans (joint.2.2 h)⟩
  | checking => exact ⟨kept',lost rfl,started.trans joint.2.2⟩
  | refusing =>
    rw [joint.2.1] at opened
    cases opened
  | found => exact given joint
  | waiting b => exact given joint
  | collecting =>
    rw [joint.2] at opened
    cases opened
  | unlinked => exact absurd kept.listed joint.1
  | orphaning =>
    obtain ⟨isGiven,-,notMarking⟩ := joint
    rcases busy with h | h
    · rw [notMarking] at h
      cases h
    · rw [isGiven.started] at h
      cases h
  | removing => exact absurd joint.2.2 (not_apart busy)
  | other => exact joint.imp given fun left => absurd kept.listed left.1

/-- A thread's own fate on the way through the marking of its record. -/
theorem fate_marked {record : ChildThread} (fate : Fate v) (live : v.live) (busy : marking v.pc = true ∨ starting v.pc = true)
    (past : v.pc ≠ .load) (pastToo : v.pc ≠ .loaded) (same : starting pc = starting v.pc)
    (goes : marking pc = true ∨ starting pc = true ∨ closed pc = true) (further : pc ≠ .load) (furtherToo : pc ≠ .loaded) :
    Fate { v with pc := pc, record := record } where
  loading := ⟨fun none => absurd (fate.loading.mp none) past,fun loading => absurd loading further⟩
  loaded := by
    rintro (⟨a,ran⟩ | ran)
    · change pc = .run a at ran
      rw [ran] at goes
      simp [marking,starting,closed] at goes
    · exact absurd ran furtherToo
  failed h _ _ := fate.failed (same.symm.trans h) past pastToo
  status lost h := fate.status lost (same.symm.trans h)
  exited h := by
    rcases busy with marks | starts
    · exact fate.exited (.inr (.inl marks))
    · change pc = .exit_check ∨ marking pc = true ∨ closed pc = true at h
      obtain ⟨notCheck,notMarking,opened⟩ := starting_only (same.trans starts)
      rcases h with check | marks | shut
      · exact absurd check notCheck
      · rw [notMarking] at marks
        cases marks
      · rw [opened] at shut
        cases shut
  alive h := by
    rcases busy with marks | starts
    · change starting pc = true ∨ (∃ a, pc = .run a) at h
      rw [same,not_starting marks] at h
      rcases h with h | ⟨a,ran⟩
      · cases h
      · rw [ran] at goes
        simp [marking,starting,closed] at goes
    · exact fate.alive (.inl starts)
  leaves left := absurd live left

theorem busy_mark (m : Marking) : marking (.mark m) = true ∨ starting (.mark m) = true := by
  cases m <;> simp [marking,starting]
theorem busy_mark_find (m : Marking) (p : Page) (e : Cursor) :
    marking (.mark_find m p e) = true ∨ starting (.mark_find m p e) = true := by
  cases m <;> simp [marking,starting]
theorem busy_mark_status (m : Marking) : marking (.mark_status m) = true ∨ starting (.mark_status m) = true := by
  cases m <;> simp [marking,starting]
theorem busy_mark_exit_status (m : Marking) :
    marking (.mark_exit_status m) = true ∨ starting (.mark_exit_status m) = true := by
  cases m <;> simp [marking,starting]

/-- A silent step on the way to the record. -/
theorem inv_towards (inv : Inv k) (here : (k.threads t).pc = pc) (runs : pc ≠ .gone)
    (busy : marking pc = true ∨ starting pc = true) (past : pc ≠ .load) (pastToo : pc ≠ .loaded)
    (same : place pc' = place pc) (busy' : marking pc' = true ∨ starting pc' = true) (further : pc' ≠ .load)
    (furtherToo : pc' ≠ .loaded) (quiet : subject pc = none) (quiet' : subject pc' = none) (kept : Kept (view k t))
    (locally : Local k t pc') : Inv (setPc k t pc') := by
  have created := created_of_pc inv here (by rintro a rfl; simp [marking,starting] at busy)
    (by rintro rfl; simp [marking,starting] at busy) runs
  have pair := inv.pairs t created
  have live : (view k t).live := live_of_pc inv.sound here runs
  have starts : starting pc' = starting pc := (Prod.mk.inj same).1
  refine inv_own inv (touches_refl k t) rfl here runs quiet quiet' ?_ created locally
  have at_ : (view k t).pc = pc := here
  refine ⟨?_,?_,?_⟩
  · exact fate_marked pair.fate live (by rwa [at_]) (by rwa [at_]) (by rwa [at_]) (by rw [at_,starts])
      (busy'.elim .inl (.inr ∘ .inl)) further furtherToo
  · exact joint_place pair.joint (by rw [at_,same]) (fun early => absurd kept.listed early.unlisted) fun _ => rfl
  · exact signals_place pair.signals (by rw [at_,starts])

theorem inv_mark {m : Marking} (inv : Inv k) (here : (k.threads t).pc = .mark m) (orderly : ListedFirst k t)
    (step : pcStep k t (.mark m) = some k') : Inv k' := by
  have created := created_of_pc inv here (by simp) (by simp) (by simp)
  have pair := inv.pairs t created
  have busy : marking (view k t).pc = true ∨ starting (view k t).pc = true := by
    rw [show (view k t).pc = .mark m from here]
    exact busy_mark m
  have listed : (creatorRole k t).recording = false := by
    refine orderly ?_
    rw [here]
    rfl
  have kept := kept_of_marking pair.joint listed busy
  have live : t ∈ k.all_list := live_of_pc inv.sound here (by simp)
  have parent : (k.threads t).parent_thread = .page (k.threads (k.threads t).creator).page := kept.parent live
  simp only [pcStep,parent,Option.some.injEq] at step
  subst step
  exact inv_towards inv here (by simp) (busy_mark m) (by simp) (by simp) (by cases m <;> rfl) (busy_mark_find m _ _)
    (by simp) (by simp) rfl rfl kept ⟨rfl,trivial⟩

theorem inv_mark_find {m : Marking} {p : Page} (inv : Inv k) (here : (k.threads t).pc = .mark_find m p e)
    (step : pcStep k t (.mark_find m p e) = some k') : Inv k' := by
  have created := created_of_pc inv here (by simp) (by simp) (by simp)
  have pair := inv.pairs t created
  have at_ : (view k t).pc = .mark_find m p e := here
  have kept : Kept (view k t) := by
    refine kept_of_marking pair.joint (listed_of_searching pair.joint ?_) ?_
    · rw [at_]
      rfl
    · rw [at_]
      exact busy_mark_find m p e
  have listed : t ∈ (k.threads (k.threads t).creator).child_thread_list := kept.listed
  obtain ⟨rfl,ahead⟩ := local_at inv here
  have parentLive : (k.threads t).creator ∈ k.all_list := by
    by_contra left
    rw [(inv.sound.gone _ left).2] at listed
    cases listed
  simp only [pcStep,occupant_sole (inv.sound.pages _ parentLive) parentLive] at step
  rcases search inv ahead with ⟨e',go,ahead'⟩ | ⟨found,-⟩ | ⟨-,unlisted⟩
  · simp only [go,Option.some.injEq] at step
    subst step
    exact inv_towards inv here (by simp) (busy_mark_find m _ _) (by simp) (by simp) (by cases m <;> rfl)
      (busy_mark_find m _ _) (by simp) (by simp) rfl rfl kept ⟨rfl,ahead'⟩
  · simp only [found,Option.some.injEq] at step
    subst step
    exact inv_towards inv here (by simp) (busy_mark_find m _ _) (by simp) (by simp) (by cases m <;> rfl)
      (busy_mark_status m) (by simp) (by simp) rfl rfl kept trivial
  · exact absurd listed unlisted

/-- A step that writes the thread's own record. -/
theorem inv_write {record : ChildThread} (inv : Inv k) (here : (k.threads t).pc = pc) (runs : pc ≠ .gone)
    (busy : marking pc = true ∨ starting pc = true) (begun : unmarked pc = false) (past : pc ≠ .load) (pastToo : pc ≠ .loaded)
    (same : starting pc' = starting pc) (goes : marking pc' = true ∨ starting pc' = true ∨ closed pc' = true)
    (further : pc' ≠ .load) (furtherToo : pc' ≠ .loaded) (quiet : subject pc = none) (quiet' : subject pc' = none)
    (kept' : Fate (view k t) → Kept (view k t) → Kept { view k t with pc := pc', record := record })
    (lost : (creatorRole k t).executing = true → record.status = .THREAD_DYING → Pair (view k t) (creatorRole k t) →
      Kept (view k t) → (k.threads t).load = some false)
    (locally : Local k t pc') : Inv (setPc (setRecord k t record) t pc') := by
  have created := created_of_pc inv here (by rintro a rfl; simp [marking,starting] at busy)
    (by rintro rfl; simp [marking,starting] at busy) runs
  have pair := inv.pairs t created
  have live : (view k t).live := live_of_pc inv.sound here runs
  have at_ : (view k t).pc = pc := here
  have kept : Kept (view k t) := by
    refine kept_of_marking pair.joint (listed_of_searching pair.joint ?_) ?_
    · rw [at_,begun]
    · rw [at_]
      exact busy
  have touch := touches_record k t record
  refine inv_own inv touch rfl here runs quiet quiet' ?_ created locally
  rw [touch.view_self]
  have written : (setRecord k t record).child_threads t = record := by simp [setRecord]
  rw [written]
  change Pair { view k t with pc := pc', record := record } _
  refine ⟨?_,?_,?_⟩
  · exact fate_marked pair.fate live (by rwa [at_]) (by rwa [at_]) (by rwa [at_]) (by rw [at_,same]) goes further furtherToo
  · exact joint_marked pair.joint kept (by rwa [at_]) (kept' pair.fate kept) (by rw [at_,same])
      fun executing dying => lost executing dying pair kept
  · exact signals_place pair.signals (by rw [at_,same])

/-- The record that a thread writes is its own. -/
theorem record_allocated (inv : Inv k) (here : (k.threads t).pc = pc) (runs : pc ≠ .gone)
    (busy : marking pc = true ∨ starting pc = true) (begun : unmarked pc = false) : (k.child_threads t).freed = false := by
  have created := created_of_pc inv here (by rintro a rfl; simp [marking,starting] at busy)
    (by rintro rfl; simp [marking,starting] at busy) runs
  have pair := inv.pairs t created
  have at_ : (view k t).pc = pc := here
  have kept : Kept (view k t) := by
    refine kept_of_marking pair.joint (listed_of_searching pair.joint ?_) ?_
    · rw [at_,begun]
    · rw [at_]
      exact busy
  exact kept.freed

theorem inv_mark_status {m : Marking} (inv : Inv k) (here : (k.threads t).pc = .mark_status m)
    (orderly : ReturnedFirst k t) (step : pcStep k t (.mark_status m) = some k') : Inv k' := by
  simp only [pcStep,record_allocated inv here (by simp) (busy_mark_status m) rfl,Bool.false_eq_true,if_false,
    Option.some.injEq] at step
  subst step
  refine inv_write inv here (by simp) (busy_mark_status m) rfl (by simp) (by simp) (by cases m <;> rfl)
    ((busy_mark_exit_status m).elim .inl (.inr ∘ .inl)) (by simp) (by simp) rfl rfl ?_ ?_ trivial
  · intro _ kept
    exact ⟨⟨rfl,kept.page⟩,kept.listed,kept.parent,fun shut => (by cases shut),fun _ => rfl,fun _ => .inr (.inl rfl)⟩
  · intro executing _ pair _
    have at_ : (view k t).pc = .mark_status m := here
    cases m with
    | failed =>
      refine pair.fate.failed ?_ ?_ ?_
      · rw [at_]
        rfl
      · rw [at_]
        simp
      · rw [at_]
        simp
    | exiting =>
      cases load : (k.threads t).load with
      | none =>
        have loading := pair.fate.loading.mp load
        rw [at_] at loading
        cases loading
      | some success =>
        cases success with
        | false => rfl
        | true =>
          have returned := orderly (by rw [here]; rfl) load
          rw [executing] at returned
          cases returned

theorem inv_mark_exit_status {m : Marking} (inv : Inv k) (here : (k.threads t).pc = .mark_exit_status m)
    (step : pcStep k t (.mark_exit_status m) = some k') : Inv k' := by
  have allocated := record_allocated inv here (by simp) (busy_mark_exit_status m) rfl
  have at_ : (view k t).pc = .mark_exit_status m := here
  cases m with
  | failed =>
    simp only [pcStep,allocated,Bool.false_eq_true,if_false,Option.some.injEq] at step
    subst step
    refine inv_write inv here (by simp) (busy_mark_exit_status _) rfl (by simp) (by simp) rfl (.inr (.inl rfl)) (by simp)
      (by simp) rfl rfl ?_ ?_ trivial
    · intro fate kept
      have lost : (view k t).load = some false := by
        refine fate.failed ?_ ?_ ?_
        · rw [at_]
          rfl
        · rw [at_]
          simp
        · rw [at_]
          simp
      exact ⟨⟨rfl,kept.page⟩,kept.listed,kept.parent,fun shut => (by cases shut),fun half => (by cases half),
        fun _ => .inr (.inr lost)⟩
    · exact fun executing dying pair kept => lost_of_executing pair.joint kept executing dying
  | exiting =>
    simp only [pcStep,allocated,Bool.false_eq_true,if_false,Option.some.injEq] at step
    subst step
    refine inv_write inv here (by simp) (busy_mark_exit_status _) rfl (by simp) (by simp) rfl (.inr (.inr rfl)) (by simp)
      (by simp) rfl rfl ?_ ?_ trivial
    · intro _ kept
      have dying : (k.child_threads t).status = .THREAD_DYING := by
        refine kept.finishing ?_
        rw [at_]
        rfl
      exact ⟨⟨rfl,kept.page⟩,kept.listed,kept.parent,fun _ => ⟨dying,rfl⟩,fun _ => dying,fun _ => .inl rfl⟩
    · exact fun executing dying pair kept => lost_of_executing pair.joint kept executing dying

/-! ### Signals -/

/-- `k'` differs from `k` in what only the child `t` writes to its own structure, and in
    the waking of its creator. -/
structure Signs (k k' : Kernel) (t : Tid) : Prop where
  threads : ∀ u, u ≠ t → u ≠ (k.threads t).creator → k'.threads u = k.threads u
  thread : k'.threads t =
    { k.threads t with
      load := (k'.threads t).load
      exit_status := (k'.threads t).exit_status
      exited := (k'.threads t).exited
      waiting_sema := (k'.threads t).waiting_sema }
  creator : k'.threads (k.threads t).creator =
    { k.threads (k.threads t).creator with pc := (k'.threads (k.threads t).creator).pc }
  wakes : (k'.threads (k.threads t).creator).pc = (k.threads (k.threads t).creator).pc ∨
    ∃ a b, (k.threads (k.threads t).creator).pc = .run a ∧ (k'.threads (k.threads t).creator).pc = .run b ∧
      (∃ r, subject (.run a) = some (t,r) ∧ ∃ r', subject (.run b) = some (t,r') ∧ r'.down = r.down) ∧
      (Local k (k.threads t).creator (.run a) → Local k (k.threads t).creator (.run b))
  load : ∀ b, (k.threads t).load = some b → (k'.threads t).load = some b
  exited : ∀ ret, (k.threads t).exited = some ret → (k'.threads t).exited = some ret
  records : k'.child_threads = k.child_threads
  all_list : k'.all_list = k.all_list
  stale : k'.stale = k.stale
  next_tid : k'.next_tid = k.next_tid
  fault : k'.fault = k.fault

/-- A thread is `t`, its creator, or out of the way. -/
theorem Signs.cases (signs : Signs k k' t) (u : Tid) :
    (k'.threads u).page = (k.threads u).page ∧ (k'.threads u).creator = (k.threads u).creator ∧
      (k'.threads u).child_thread_list = (k.threads u).child_thread_list ∧
      (k'.threads u).parent_thread = (k.threads u).parent_thread := by
  by_cases self : u = t
  · subst self
    rw [signs.thread]
    exact ⟨rfl,rfl,rfl,rfl⟩
  · by_cases above : u = (k.threads t).creator
    · subst above
      rw [signs.creator]
      exact ⟨rfl,rfl,rfl,rfl⟩
    · rw [signs.threads u self above]
      exact ⟨rfl,rfl,rfl,rfl⟩

theorem Signs.alike (signs : Signs k k' t) : Alike k k' u pc where
  all_list := signs.all_list
  next_tid := signs.next_tid
  page c := (signs.cases c).1
  creator c := (signs.cases c).2.1
  own := (signs.cases u).2.2.1
  walk _ _ _ _ ahead := (signs.cases _).2.2.1 ▸ ahead
  adopted c parent := (signs.cases c).2.2.2 ▸ parent
  load c b h := by
    by_cases self : c = t
    · subst self
      exact signs.load b h
    · by_cases above : c = (k.threads t).creator
      · subst above
        rw [signs.creator]
        exact h
      · rw [signs.threads c self above]
        exact h
  exited c ret h := by
    by_cases self : c = t
    · subst self
      exact signs.exited ret h
    · by_cases above : c = (k.threads t).creator
      · subst above
        rw [signs.creator]
        exact h
      · rw [signs.threads c self above]
        exact h

theorem Signs.view_other (signs : Signs k k' t) (self : c ≠ t) : view k' c = { view k c with pc := (k'.threads c).pc } := by
  have same : k'.threads c = { k.threads c with pc := (k'.threads c).pc } := by
    by_cases above : c = (k.threads t).creator
    · subst above
      exact signs.creator
    · rw [signs.threads c self above]
  have live : (k'.threads c).load = (k.threads c).load := by rw [same]
  have status : (k'.threads c).exit_status = (k.threads c).exit_status := by rw [same]
  have exited : (k'.threads c).exited = (k.threads c).exited := by rw [same]
  have sema : (k'.threads c).waiting_sema = (k.threads c).waiting_sema := by rw [same]
  simp only [view,(signs.cases _).1,(signs.cases _).2.1,(signs.cases _).2.2.1,(signs.cases _).2.2.2,signs.all_list,
    signs.stale,signs.records,live,status,exited,sema]

/-- The creator is woken about nobody but the child. -/
theorem Signs.role_other (signs : Signs k k' t) (u : Tid) (self : u ≠ t) (other : c ≠ t) :
    role (k'.threads u).pc c = role (k.threads u).pc c := by
  by_cases above : u = (k.threads t).creator
  · subst above
    rcases signs.wakes with same | ⟨a,b,old,new,⟨r,about,r',about',-⟩,-⟩
    · rw [same]
    · rw [old,new,Protocol.role_other fun s h => other (same_subject (about.symm.trans h)),
        Protocol.role_other fun s h => other (same_subject (about'.symm.trans h))]
  · rw [signs.threads u self above]

theorem Signs.sound (signs : Signs k k' t) (sound : Sound k) : Sound k' := by
  have here : ∀ u, (k'.threads u).pc = (k.threads u).pc ∨ ∃ a b, (k.threads u).pc = .run a ∧ (k'.threads u).pc = .run b ∧
      ∀ c r, subject (.run b) = some (c,r) → ∃ r', subject (.run a) = some (c,r') := by
    intro u
    by_cases above : u = (k.threads t).creator
    · subst above
      rcases signs.wakes with same | ⟨a,b,old,new,⟨r,about,r',about',-⟩,-⟩
      · exact .inl same
      · refine .inr ⟨a,b,old,new,?_⟩
        intro c s h
        rw [same_subject (about'.symm.trans h)]
        exact ⟨r,about⟩
    · by_cases self : u = t
      · subst self
        rw [signs.thread]
        exact .inl rfl
      · rw [signs.threads u self above]
        exact .inl rfl
  refine ⟨?_,?_,?_,?_,?_,?_,?_,?_,?_⟩
  · rw [signs.all_list,signs.next_tid]
    exact sound.ids
  · rw [signs.all_list]
    exact sound.once
  · intro u member d liveToo page
    rw [signs.all_list] at member liveToo
    rw [(signs.cases _).1,(signs.cases _).1] at page
    exact sound.pages u member d liveToo page
  · intro u left
    rw [(signs.cases u).2.2.1]
    obtain ⟨gone,empty⟩ := sound.gone u (signs.all_list ▸ left)
    refine ⟨?_,empty⟩
    rcases here u with same | ⟨a,b,old,_⟩
    · rw [same,gone]
    · rw [gone] at old
      cases old
  · simpa only [(signs.cases _).2.1,signs.next_tid] using sound.creators
  · simpa only [(signs.cases _).2.1,(signs.cases _).2.2.1] using sound.listed
  · simpa only [(signs.cases _).2.2.1] using sound.distinct
  · intro u c r about
    rw [(signs.cases c).2.1]
    rcases here u with same | ⟨a,b,old,new,subjects⟩
    · exact sound.owns u c r (same ▸ about)
    · rw [new] at about
      obtain ⟨r',before⟩ := subjects c r about
      exact sound.owns u c r' (old ▸ before)
  · intro u root
    rw [(signs.cases u).2.1] at root
    rcases here u with same | ⟨a,b,old,new,-⟩
    · rw [same]
      exact sound.roots u root
    · exact .inl ⟨b,new⟩

theorem Signs.pair_other (signs : Signs k k' t) (self : c ≠ t) (pair : Pair (view k c) r) : Pair (view k' c) r := by
  rw [signs.view_other self]
  by_cases above : c = (k.threads t).creator
  · subst above
    rcases signs.wakes with same | ⟨a,b,old,new,-⟩
    · rw [same]
      exact pair
    · rw [new]
      exact pair_run pair old
  · rw [signs.threads c self above]
    exact pair

theorem Signs.own_pc (signs : Signs k k' t) : (k'.threads t).pc = (k.threads t).pc := by rw [signs.thread]

theorem Signs.role_down (signs : Signs k k' t) (distinct : (k.threads t).creator ≠ t) (c : Tid) :
    (creatorRole k' c).down = (creatorRole k c).down := by
  rw [creatorRole,(signs.cases c).2.1]
  by_cases isIt : c = t
  · subst isIt
    rcases signs.wakes with same | ⟨a,b,old,new,⟨r,about,r',about',down⟩,-⟩
    · rw [same]
    · rw [new,creatorRole,old,role_subject about,role_subject about',down]
  · by_cases mine : (k.threads c).creator = t
    · rw [creatorRole,mine,signs.own_pc]
    · rw [signs.role_other _ mine isIt]

theorem Signs.local_other (signs : Signs k k' t) (inv : Inv k) (u : Tid) (self : u ≠ t) : Local k' u (k'.threads u).pc := by
  refine local_alike signs.alike ?_
  by_cases above : u = (k.threads t).creator
  · subst above
    rcases signs.wakes with same | ⟨a,b,old,new,-,goes⟩
    · rw [same]
      exact inv.locals _
    · rw [new]
      exact goes (old ▸ inv.locals _)
  · rw [signs.threads u self above]
    exact inv.locals u

/-- A step of a child about itself and its creator's waking. -/
theorem inv_signal (inv : Inv k) (signs : Signs k k' t) (here : (k.threads t).pc = pc) (runs : pc ≠ .gone)
    (quiet : subject pc = none) (quiet' : subject pc' = none) (created : (k.threads t).creator ≠ 0)
    (self : Pair { view k' t with pc := pc' } (creatorRole k' t)) (locally : Local k t pc') : Inv (setPc k' t pc') := by
  have live := live_of_pc inv.sound here runs
  have nonzero : t ≠ 0 := Int.ne_of_gt (inv.sound.ids t live).1
  have distinct := creator_ne inv.sound created
  refine inv_move (signs.sound inv.sound) (signs.all_list ▸ live) (signs.fault.trans inv.runs) ?_ (fun _ => self) ?_
    (fun u other => signs.local_other inv u other) (local_alike signs.alike locally) ?_ ?_ ?_ ?_
  · intro c existing other notMine
    rw [(signs.cases c).2.1] at existing notMine
    rw [creatorRole,(signs.cases c).2.1,signs.role_other _ notMine other]
    exact signs.pair_other other (inv.pairs c existing)
  · intro c mine
    rw [(signs.cases c).2.1] at mine
    have other : c ≠ t := by
      rintro rfl
      exact distinct mine
    have before := inv.pairs c (mine ▸ nonzero)
    rw [creatorRole,mine,here,role_none quiet] at before
    rw [role_none quiet']
    exact signs.pair_other other before
  · intro c d downC downD page
    rw [signs.role_down distinct] at downC downD
    rw [(signs.cases c).1,(signs.cases d).1] at page
    exact inv.exclusive c d downC downD page
  · intro c _ waits
    rw [role_none quiet'] at waits
    cases waits
  · intro c r about
    rw [quiet'] at about
    cases about
  · intro root
    rw [(signs.cases t).2.1] at root
    exact absurd root created

/-- A change that only the child's own structure sees. -/
theorem signs_own (k : Kernel) (t : Tid) (distinct : (k.threads t).creator ≠ t) (load : Option Bool) (status : Int)
    (exited : Option Int) (loads : ∀ b, (k.threads t).load = some b → load = some b)
    (exits : ∀ ret, (k.threads t).exited = some ret → exited = some ret) :
    Signs k (setThread k t { k.threads t with load := load, exit_status := status, exited := exited }) t where
  threads u self _ := setThread_other _ self
  thread := by simp
  creator := by rw [setThread_other _ distinct]
  wakes := .inl (by rw [setThread_other _ distinct])
  load := by simpa using loads
  exited := by simpa using exits
  records := rfl
  all_list := rfl
  stale := rfl
  next_tid := rfl
  fault := rfl

theorem Signs.view_self (signs : Signs k k' t) : view k' t =
    { view k t with
      load := (k'.threads t).load
      exit_status := (k'.threads t).exit_status
      exited := (k'.threads t).exited
      sema := (k'.threads t).waiting_sema } := by
  simp only [view,(signs.cases _).1,(signs.cases _).2.1,(signs.cases _).2.2.1,(signs.cases _).2.2.2,signs.all_list,
    signs.stale,signs.records,signs.own_pc]

/-- The program is loaded or not while the creator is still to be signalled. -/
theorem pair_load (pair : Pair v r) (here : v.pc = .load) (live : v.live) (success : Bool) :
    Pair { v with load := some success, pc := if success then .loaded else .mark .failed } r := by
  have fresh : v.load = none := pair.fate.loading.mpr here
  have unmarkedStatus : ∀ P : Prop, (v.record.status = .THREAD_DYING → v.load = some false) →
      v.record.status = .THREAD_DYING → P := by
    intro P lost dying
    rw [fresh] at lost
    cases lost dying
  have starts : starting v.pc = true := by rw [here]; rfl
  have pending := pair.signals.starts starts
  have early : Early v → Early { v with load := some success, pc := if success then .loaded else .mark .failed } := fun h =>
    ⟨h.live,h.unlisted,by cases success <;> rfl,by cases success <;> simp⟩
  have kept : Kept v → (v.record.status = .THREAD_DYING → v.load = some false) →
      Kept { v with load := some success, pc := if success then .loaded else .mark .failed } := fun h lost =>
    ⟨⟨h.freed,h.page⟩,h.listed,h.parent,by cases success <;> simp [closed],by cases success <;> simp [finishing],
      unmarkedStatus _ lost⟩
  refine ⟨⟨?_,?_,?_,?_,?_,?_,?_⟩,?_,?_⟩
  · cases success <;> simp
  · cases success <;> simp
  · cases success <;> simp
  · cases success <;> simp [starting]
  · cases success <;> simp [marking,closed]
  · exact fun _ => pair.fate.alive (.inl starts)
  · exact fun left => absurd live left
  · have joint := pair.joint
    cases r with
    | unrecorded => exact ⟨early joint.1,joint.2⟩
    | unadopted => exact ⟨early joint.1,joint.2.1,⟨joint.2.2.1.freed,joint.2.2.1.page⟩,joint.2.2.2⟩
    | unlisted => exact ⟨early joint.1,joint.2.1,⟨joint.2.2.1.freed,joint.2.2.1.page⟩,joint.2.2.2⟩
    | sought => exact ⟨kept joint.1 joint.2.2,joint.2.1,unmarkedStatus _ joint.2.2⟩
    | awaiting b =>
      exact ⟨kept joint.1 joint.2.1,unmarkedStatus _ joint.2.1,fun _ => by cases success <;> rfl⟩
    | _ => cases pending
  · refine signals_place pair.signals ?_
    show starting (if success then .loaded else .mark .failed) = starting v.pc
    rw [starts]
    cases success <;> rfl

theorem inv_load {success : Bool} (inv : Inv k) (here : (k.threads t).pc = .load)
    (step : Processes.step k (.load t success) = some k') : Inv k' := by
  have created := created_of_pc inv here (by simp) (by simp) (by simp)
  have distinct := creator_ne inv.sound created
  have pair := inv.pairs t created
  have at_ : (view k t).pc = .load := here
  have fresh : (k.threads t).load = none := pair.fate.loading.mpr at_
  simp only [Processes.step,inv.runs,ne_eq,not_true_eq_false,if_false,here,if_true,Option.some.injEq] at step
  subst step
  rw [setThread_pc (k.threads t).pc]
  have signs := signs_own k t distinct (some success) (k.threads t).exit_status (k.threads t).exited
    (by rw [fresh]; simp) (fun _ h => h)
  refine inv_signal inv signs here (by simp) rfl ?_ created ?_ ?_
  · cases success <;> rfl
  · have same : creatorRole (setThread k t { k.threads t with
        load := some success, exit_status := (k.threads t).exit_status, exited := (k.threads t).exited }) t =
        creatorRole k t := by
      rw [creatorRole,(signs.cases t).2.1,setThread_other _ distinct]
    rw [same,signs.view_self,setThread_self]
    exact pair_load pair at_ (live_of_pc inv.sound here (by simp)) success
  · cases success <;> exact trivial

theorem pair_exit (pair : Pair v r) (here : v.pc = .run .user) (live : v.live) (status : Int) :
    Pair { v with exit_status := status, exited := some status, pc := .exit_check } r := by
  have load : v.load = some true := pair.fate.loaded (.inl ⟨_,here⟩)
  refine ⟨⟨?_,?_,?_,?_,?_,?_,?_⟩,?_,?_⟩
  · simp [load]
  · simp
  · simp [starting]
  · simp [load]
  · exact fun _ => rfl
  · simp [starting]
  · exact fun left => absurd live left
  · refine joint_place pair.joint (by rw [here]; rfl) ?_ ?_
    · intro _
      refine ⟨rfl,?_⟩
      rw [load]
      simp
    · rw [here]
      simp [closed]
  · exact signals_place pair.signals (by rw [here]; rfl)

theorem inv_syscall_exit {status : Int} (inv : Inv k) (here : (k.threads t).pc = .run .user)
    (created : (k.threads t).creator ≠ 0) : Inv (syscall_exit k t status) := by
  have distinct := creator_ne inv.sound created
  have pair := inv.pairs t created
  have alive : (k.threads t).exited = none := pair.fate.alive (.inr ⟨_,here⟩)
  rw [syscall_exit,setThread_pc (k.threads t).pc]
  have signs := signs_own k t distinct (k.threads t).load status (some status) (fun _ h => h) (by rw [alive]; simp)
  refine inv_signal inv signs here (by simp) rfl rfl created ?_ trivial
  have same : creatorRole (setThread k t { k.threads t with
      load := (k.threads t).load, exit_status := status, exited := some status }) t = creatorRole k t := by
    rw [creatorRole,(signs.cases t).2.1,setThread_other _ distinct]
  rw [same,signs.view_self,setThread_self]
  exact pair_exit pair here (live_of_pc inv.sound here (by simp)) status

/-- The check of the parent in `thread_exit`, to the thread itself. -/
theorem fate_checked (fate : Fate v) (here : v.pc = .exit_check) (live : v.live) (started : starting pc = false)
    (notRun : ∀ a, pc ≠ .run a) : Fate { v with pc := pc } := by
  refine ⟨⟨?_,?_⟩,?_,?_,?_,?_,?_,?_⟩
  · intro none
    have loading := fate.loading.mp none
    rw [here] at loading
    cases loading
  · intro loading
    change pc = .load at loading
    rw [loading] at started
    cases started
  · rintro (⟨a,ran⟩ | ran)
    · exact absurd ran (notRun a)
    · change pc = .loaded at ran
      rw [ran] at started
      cases started
  · intro h
    change starting pc = true at h
    rw [started] at h
    cases h
  · exact fun lost _ => fate.status lost (by rw [here]; rfl)
  · exact fun _ => fate.exited (.inl here)
  · rintro (h | ⟨a,ran⟩)
    · change starting pc = true at h
      rw [started] at h
      cases h
    · exact absurd ran (notRun a)
  · exact fun left => absurd live left

/-- An orphan has nothing to mark. -/
theorem joint_unparented (joint : Joint v r) (live : v.live) (orphan : v.parent = .null) :
    Joint { v with pc := .exit_children } r := by
  have notKept : ¬ Kept v := by
    intro kept
    have parent := kept.parent live
    rw [orphan] at parent
    cases parent
  cases r with
  | unrecorded =>
    have parent := joint.2
    rw [orphan] at parent
    cases parent
  | unadopted =>
    have parent := joint.2.1
    rw [orphan] at parent
    cases parent
  | unlisted =>
    have parent := joint.2.1
    rw [orphan] at parent
    cases parent
  | sought => exact absurd joint.1 notKept
  | awaiting b => exact absurd joint.1 notKept
  | checking => exact absurd joint.1 notKept
  | refusing => exact absurd joint.1 notKept
  | found => exact absurd joint.toKept notKept
  | waiting b => exact absurd joint.toKept notKept
  | collecting => exact absurd joint.1.toKept notKept
  | unlinked => exact ⟨joint.1,.inl rfl,joint.2.2⟩
  | orphaning => exact absurd joint.1.toKept notKept
  | removing => exact ⟨joint.1,⟨joint.2.1.freed,joint.2.1.page⟩,.inl rfl⟩
  | other => exact joint.elim (fun h => absurd h.toKept notKept) fun left => .inr ⟨left.1,.inl rfl⟩

/-- A child that sees a parent, and is not about to be orphaned, is listed by it or will be. -/
theorem joint_parented (joint : Joint v r) (here : v.pc = .exit_check) (parented : v.parent ≠ .null)
    (attached : r ≠ .orphaning) : Joint { v with pc := .mark .exiting } r := by
  have opened : closed v.pc = false := by rw [here]; rfl
  have notApart : ¬ Apart v := by
    rintro (shut | ⟨orphan,-⟩)
    · rw [opened] at shut
      cases shut
    · exact parented orphan
  have kept : Kept v → Kept { v with pc := .mark .exiting } := fun h =>
    ⟨⟨h.freed,h.page⟩,h.listed,h.parent,by simp [closed],by simp [finishing],fun dying => by
      have old := h.dying dying
      rw [here] at old
      simpa [closed,finishing] using old⟩
  have early : Early v → Early { v with pc := .mark .exiting } := fun h =>
    ⟨h.live,h.unlisted,rfl,fun lost => by
      have failed := h.failed lost
      rw [here] at failed
      cases failed⟩
  have given : Given v → Given { v with pc := .mark .exiting } := fun h => ⟨kept h.toKept,h.load,rfl⟩
  cases r with
  | unrecorded => exact ⟨early joint.1,joint.2⟩
  | unadopted => exact ⟨early joint.1,joint.2.1,⟨joint.2.2.1.freed,joint.2.2.1.page⟩,joint.2.2.2⟩
  | unlisted => exact ⟨early joint.1,joint.2.1,⟨joint.2.2.1.freed,joint.2.2.1.page⟩,joint.2.2.2⟩
  | sought => exact ⟨kept joint.1,joint.2⟩
  | awaiting b =>
    refine ⟨kept joint.1,joint.2.1,fun h => ?_⟩
    have starts := joint.2.2 h
    rw [here] at starts
    cases starts
  | checking => exact ⟨kept joint.1,joint.2.1,rfl⟩
  | refusing =>
    rw [joint.2.1] at opened
    cases opened
  | found => exact given joint
  | waiting b => exact given joint
  | collecting =>
    rw [joint.2] at opened
    cases opened
  | unlinked => exact absurd joint.2.1 notApart
  | orphaning => exact absurd rfl attached
  | removing => exact absurd joint.2.2 notApart
  | other => exact joint.elim (fun h => .inl (given h)) fun left => absurd left.2 notApart

theorem inv_exit_check (inv : Inv k) (here : (k.threads t).pc = .exit_check) (orderly : NotOrphaned k t)
    (step : pcStep k t .exit_check = some k') : Inv k' := by
  have created := created_of_pc inv here (by simp) (by simp) (by simp)
  have pair := inv.pairs t created
  have live : (view k t).live := live_of_pc inv.sound here (by simp)
  have at_ : (view k t).pc = .exit_check := here
  simp only [pcStep] at step
  split at step
  · next orphan =>
    cases step
    refine inv_own inv (touches_refl k t) rfl here (by simp) rfl rfl ⟨?_,?_,?_⟩ created trivial
    · exact fate_checked pair.fate at_ live rfl (by simp)
    · exact joint_unparented pair.joint live orphan
    · exact signals_place pair.signals (by rw [at_]; rfl)
  · next parented =>
    cases step
    refine inv_own inv (touches_refl k t) rfl here (by simp) rfl rfl ⟨?_,?_,?_⟩ created trivial
    · exact fate_checked pair.fate at_ live rfl (by simp)
    · exact joint_parented pair.joint at_ parented (orderly here)
    · exact signals_place pair.signals (by rw [at_]; rfl)

/-! ### `sema_up` -/

/-- The role of a creator that is woken. -/
def Role.woken : Role → Role
  | .awaiting _ => .awaiting false
  | .waiting _ => .waiting false
  | r => r

theorem woken_calm (calm : r.blocked = false) : r.woken = r := by
  cases r <;> simp_all [Role.woken,Role.blocked]
theorem woken_pending (r : Role) : r.woken.pending = r.pending := by
  cases r <;> rfl
theorem woken_blocked (r : Role) : r.woken.blocked = false := by
  cases r <;> rfl
theorem woken_down (r : Role) : r.woken.down = r.down := by
  cases r <;> rfl

/-- Whoever is queued at a semaphore goes back to its `sema_down`. -/
theorem wake_queued (queued : (role pc t).blocked = true) :
    ∃ a b, pc = .run a ∧ wake pc = .run b ∧ subject (.run a) = some (t,role pc t) ∧
      subject (.run b) = some (t,(role pc t).woken) ∧ ∀ k u, Local k u (.run a) → Local k u (.run b) := by
  have busy : role pc t ≠ .other := by
    intro other
    rw [other] at queued
    cases queued
  have about := subject_of_role busy
  generalize role pc t = r at about queued
  cases pc with
  | run a =>
    cases a with
    | execute_down c child b => cases about; exact ⟨_,_,rfl,rfl,rfl,rfl,fun _ _ h => h⟩
    | wait_down c child found b => cases about; exact ⟨_,_,rfl,rfl,rfl,rfl,fun _ _ h => h⟩
    | collect_status f d => cases f <;> cases about <;> cases queued
    | collect_remove f d ret => cases f <;> cases about <;> cases queued
    | _ => cases about <;> cases queued
  | _ => cases about <;> cases queued

/-- What `sema_up` changes. -/
theorem sema_up_threads (inv : Inv k) (created : (k.threads t).creator ≠ 0) (live : t ∈ k.all_list) :
    (∀ u, u ≠ t → u ≠ (k.threads t).creator → (sema_up k t).threads u = k.threads u) ∧
      (sema_up k t).threads t =
        { k.threads t with waiting_sema := { value := (k.threads t).waiting_sema.value + 1, waiters := [] } } ∧
      (sema_up k t).threads (k.threads t).creator = { k.threads (k.threads t).creator with
        pc := if (creatorRole k t).blocked then wake (k.threads (k.threads t).creator).pc
          else (k.threads (k.threads t).creator).pc } := by
  have distinct := creator_ne inv.sound created
  have waiters : (k.threads t).waiting_sema.waiters = _ := (inv.pairs t created).signals.waiters live
  by_cases queued : (creatorRole k t).blocked = true
  · rw [queued,if_pos rfl] at waiters
    change (k.threads t).waiting_sema.waiters = [(k.threads t).creator] at waiters
    simp only [sema_up,waiters,List.tail_cons]
    refine ⟨?_,?_,?_⟩
    · intro u self above
      rw [setPc_other above,setThread_other _ self]
    · rw [setPc_other distinct.symm,setThread_self]
    · rw [setPc_self,setThread_other _ distinct,if_pos queued]
  · rw [if_neg queued] at waiters
    simp only [sema_up,waiters,List.tail_nil]
    refine ⟨?_,?_,?_⟩
    · exact fun u self _ => setThread_other _ self
    · rw [setThread_self]
    · rw [setThread_other _ distinct,if_neg queued]

theorem sema_up_rest (k : Kernel) (t : Tid) : (sema_up k t).all_list = k.all_list ∧
    (sema_up k t).child_threads = k.child_threads ∧ (sema_up k t).stale = k.stale ∧
    (sema_up k t).next_tid = k.next_tid ∧ (sema_up k t).fault = k.fault := by
  simp only [sema_up]
  cases (k.threads t).waiting_sema.waiters <;> exact ⟨rfl,rfl,rfl,rfl,rfl⟩

/-- The signal of a child. -/
theorem signs_up (inv : Inv k) (created : (k.threads t).creator ≠ 0) (live : t ∈ k.all_list) (status : Int)
    (exited : Option Int) (exits : ∀ ret, (k.threads t).exited = some ret → exited = some ret) :
    Signs k (setThread (sema_up k t) t { (sema_up k t).threads t with exit_status := status, exited := exited }) t ∧
      creatorRole (setThread (sema_up k t) t { (sema_up k t).threads t with exit_status := status, exited := exited }) t =
        (creatorRole k t).woken := by
  have distinct := creator_ne inv.sound created
  obtain ⟨others,own,creator⟩ := sema_up_threads inv created live
  obtain ⟨all_list,records,stale,next_tid,fault⟩ := sema_up_rest k t
  have sameCreator : ((setThread (sema_up k t) t
      { (sema_up k t).threads t with exit_status := status, exited := exited }).threads (k.threads t).creator) =
      { k.threads (k.threads t).creator with
        pc := if (creatorRole k t).blocked then wake (k.threads (k.threads t).creator).pc
          else (k.threads (k.threads t).creator).pc } := by
    rw [setThread_other _ distinct,creator]
  constructor
  · refine ⟨?_,?_,?_,?_,?_,?_,records,all_list,stale,next_tid,fault⟩
    · intro u self above
      rw [setThread_other _ self,others u self above]
    · rw [setThread_self,own]
    · rw [sameCreator]
    · rw [sameCreator]
      by_cases queued : (creatorRole k t).blocked = true
      · obtain ⟨a,b,old,new,about,about',goes⟩ := wake_queued queued
        rw [if_pos queued]
        exact .inr ⟨a,b,old,new,⟨_,about,_,about',woken_down _⟩,goes _ _⟩
      · rw [if_neg queued]
        exact .inl rfl
    · rw [setThread_self,own]
      exact fun _ h => h
    · rw [setThread_self]
      exact exits
  · have creator_t : ((setThread (sema_up k t) t
        { (sema_up k t).threads t with exit_status := status, exited := exited }).threads t).creator =
        (k.threads t).creator := by
      rw [setThread_self,own]
    rw [creatorRole,creator_t,sameCreator]
    by_cases queued : (creatorRole k t).blocked = true
    · obtain ⟨a,b,old,new,about,about',-⟩ := wake_queued queued
      rw [if_pos queued]
      show role (wake (k.threads (k.threads t).creator).pc) t = _
      rw [new,role_subject about']
    · rw [if_neg queued]
      rw [Bool.not_eq_true] at queued
      exact (woken_calm queued).symm

/-- The child signals its creator and goes on. -/
theorem pair_up {status : Int} {exited : Option Int} (pair : Pair v r) (starts : starting v.pc = true) (live : v.live)
    (place : place pc = (false,false,false,false))
    (early : Early v → unmarked pc = true ∧ v.load ≠ some false)
    (fate : Fate { v with
      pc := pc, exit_status := status, exited := exited, sema := { value := v.sema.value + 1, waiters := [] } }) :
    Pair { v with
      pc := pc, exit_status := status, exited := exited, sema := { value := v.sema.value + 1, waiters := [] } } r.woken := by
  have pending := pair.signals.starts starts
  simp only [Protocol.place,Prod.mk.injEq] at place
  obtain ⟨started,-,opened,whole⟩ := place
  have oldOpen := open_of_busy (.inr starts)
  have kept : Kept v → (v.record.status = .THREAD_DYING → v.load = some false) → Kept { v with
      pc := pc, exit_status := status, exited := exited, sema := { value := v.sema.value + 1, waiters := [] } } := by
    intro h lost
    refine ⟨⟨h.freed,h.page⟩,h.listed,h.parent,?_,?_,fun dying => .inr (.inr (lost dying))⟩
    · intro shut
      change closed pc = true at shut
      rw [opened] at shut
      cases shut
    · intro half
      change finishing pc = true at half
      rw [whole] at half
      cases half
  have earlyToo : Early v → Early { v with
      pc := pc, exit_status := status, exited := exited, sema := { value := v.sema.value + 1, waiters := [] } } :=
    fun h => ⟨h.live,h.unlisted,(early h).1,fun lost => absurd lost (early h).2⟩
  refine ⟨fate,?_,?_,?_,?_,?_,?_⟩
  · have joint := pair.joint
    cases r with
    | unrecorded => exact ⟨earlyToo joint.1,joint.2⟩
    | unadopted => exact ⟨earlyToo joint.1,joint.2.1,⟨joint.2.2.1.freed,joint.2.2.1.page⟩,joint.2.2.2⟩
    | unlisted => exact ⟨earlyToo joint.1,joint.2.1,⟨joint.2.2.1.freed,joint.2.2.1.page⟩,joint.2.2.2⟩
    | sought => exact ⟨kept joint.1 joint.2.2,joint.2⟩
    | awaiting b => exact ⟨kept joint.1 joint.2.1,joint.2.1,by simp⟩
    | _ => cases pending
  · intro h
    change starting pc = true at h
    rw [started] at h
    cases h
  · intro _
    have zero := pair.signals.value live
    rw [starts] at zero
    simp only [zero,woken_pending,pending,started]
    simp
  · intro _
    rw [woken_blocked]
    simp
  · exact fun left => absurd live left
  · intro h
    rw [woken_blocked] at h
    cases h

theorem setThread_eta (k : Kernel) (t : Tid) : setThread k t (k.threads t) = k := by
  simp only [setThread]
  congr
  funext u
  by_cases same : u = t <;> simp [same]

/-- `sema_up` alone. -/
theorem signs_sema_up (inv : Inv k) (created : (k.threads t).creator ≠ 0) (live : t ∈ k.all_list) :
    Signs k (sema_up k t) t ∧ creatorRole (sema_up k t) t = (creatorRole k t).woken := by
  obtain ⟨-,own,-⟩ := sema_up_threads inv created live
  have unchanged : { (sema_up k t).threads t with
      exit_status := (k.threads t).exit_status, exited := (k.threads t).exited } = (sema_up k t).threads t := by
    rw [own]
  have signs := signs_up inv created live (k.threads t).exit_status (k.threads t).exited fun _ h => h
  rw [unchanged,setThread_eta] at signs
  exact signs

theorem inv_loaded (inv : Inv k) (here : (k.threads t).pc = .loaded) (step : pcStep k t .loaded = some k') : Inv k' := by
  have created := created_of_pc inv here (by simp) (by simp) (by simp)
  have live := live_of_pc inv.sound here (by simp)
  have pair := inv.pairs t created
  have at_ : (view k t).pc = .loaded := here
  have load : (view k t).load = some true := pair.fate.loaded (.inr at_)
  have alive : (view k t).exited = none := pair.fate.alive (.inl (by rw [at_]; rfl))
  obtain ⟨-,own,-⟩ := sema_up_threads inv created live
  obtain ⟨signs,woken⟩ := signs_sema_up inv created live
  simp only [pcStep,Option.some.injEq] at step
  subst step
  refine inv_signal inv signs here (by simp) rfl rfl created ?_ trivial
  rw [woken,signs.view_self,own]
  refine pair_up pair (by rw [at_]; rfl) live rfl (fun _ => ⟨rfl,by rw [load]; simp⟩) ⟨?_,?_,?_,?_,?_,?_,?_⟩
  · simp [view] at load ⊢
    simp [load]
  · exact fun _ => load
  · simp [starting]
  · intro lost
    change (view k t).load = some false at lost
    rw [load] at lost
    cases lost
  · simp [marking,closed]
  · exact fun _ => alive
  · exact fun left => absurd live left

theorem inv_failed_up (inv : Inv k) (here : (k.threads t).pc = .failed_up) (step : pcStep k t .failed_up = some k') :
    Inv k' := by
  have created := created_of_pc inv here (by simp) (by simp) (by simp)
  have live := live_of_pc inv.sound here (by simp)
  have pair := inv.pairs t created
  have at_ : (view k t).pc = .failed_up := here
  have starts : starting (view k t).pc = true := by rw [at_]; rfl
  have load : (view k t).load = some false := pair.fate.failed starts (by rw [at_]; simp) (by rw [at_]; simp)
  have alive : (k.threads t).exited = none := pair.fate.alive (.inl starts)
  obtain ⟨-,own,-⟩ := sema_up_threads inv created live
  obtain ⟨signs,woken⟩ := signs_up inv created live (-1) (some (-1)) (by rw [alive]; simp)
  simp only [pcStep,Option.some.injEq] at step
  subst step
  rw [setThread_pc ((sema_up k t).threads t).pc]
  refine inv_signal inv signs here (by simp) rfl rfl created ?_ trivial
  rw [woken,signs.view_self,setThread_self,own]
  refine pair_up pair starts live rfl ?_ ⟨?_,?_,?_,?_,?_,?_,?_⟩
  · intro early
    have failed := early.failed load
    rw [at_] at failed
    cases failed
  · simp [view] at load ⊢
    simp [load]
  · simp
  · simp [starting]
  · exact fun _ _ => rfl
  · exact fun _ => rfl
  · simp [starting]
  · exact fun left => absurd live left

end Pintos.Protocol
