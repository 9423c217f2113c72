import Pintos.Protocol

/-!
The steps of a creator, in `process_execute` and `process_wait`: each one that is
orderly keeps the invariant of `Protocol` and does not stop the kernel.
-/
namespace Pintos.Protocol
open Pintos.Machines Pintos.Processes
set_option linter.unusedSimpArgs false

variable {k k' : Kernel} {t c d u : Tid} {pc pc' : Pc} {r r' : Role} {e : Cursor} {v : View}

theorem same_subject {s : Role} (same : some (c,r) = some (d,s)) : d = c := by
  cases same
  rfl
theorem no_subject (none : (none : Option (Tid × Role)) = some (c,r)) : c = d := by
  cases none

theorem not_down {A : Prop} (about : subject pc = some (c,r)) (calm : r.down = false) (down : (role pc c).down = true) :
    A := by
  rw [role_subject about,calm] at down
  cases down
theorem role_none (about : subject pc = none) (c : Tid) : role pc c = .other := by
  simp [role,about]

/-- What a step knows about the child it is about. -/
theorem pair_at (inv : Inv k) (here : (k.threads t).pc = pc) (about : subject pc = some (c,r)) :
    (k.threads c).creator = t ∧ Pair (view k c) r := by
  rw [← here] at about
  obtain ⟨mine,nonzero⟩ := inv.sound.owns t c r about
  have pair := inv.pairs c (mine ▸ nonzero)
  rw [creatorRole,mine,role_subject about] at pair
  exact ⟨mine,pair⟩

theorem local_at (inv : Inv k) (here : (k.threads t).pc = pc) : Local k t pc := here ▸ inv.locals t

/-- The record of every listed child is allocated. -/
theorem recorded_of_listed (joint : Joint v r) (listed : v.listed) : Recorded v := by
  cases r with
  | unrecorded => exact absurd listed joint.1.unlisted
  | unadopted => exact absurd listed joint.1.unlisted
  | unlisted => exact absurd listed joint.1.unlisted
  | sought => exact joint.1.toRecorded
  | awaiting b => exact joint.1.toRecorded
  | checking => exact joint.1.toRecorded
  | refusing => exact joint.1.toRecorded
  | found => exact joint.toRecorded
  | waiting b => exact joint.toRecorded
  | collecting => exact joint.1.toRecorded
  | unlinked => exact absurd listed joint.1
  | orphaning => exact joint.1.toRecorded
  | removing => exact joint.2.1
  | other => exact joint.elim (·.toRecorded) fun left => absurd listed left.1

theorem listed_pair (inv : Inv k) (listed : c ∈ (k.threads t).child_thread_list) :
    (k.threads c).creator = t ∧ (view k c).listed ∧ Pair (view k c) (role (k.threads t).pc c) := by
  obtain ⟨mine,nonzero⟩ := inv.sound.listed t c listed
  have pair := inv.pairs c (mine ▸ nonzero)
  rw [creatorRole,mine] at pair
  refine ⟨mine,?_,pair⟩
  show c ∈ (k.threads (k.threads c).creator).child_thread_list
  rw [mine]
  exact listed

theorem listed_recorded (inv : Inv k) (listed : c ∈ (k.threads t).child_thread_list) :
    (k.child_threads c).freed = false ∧ (k.child_threads c).t = (k.threads c).page := by
  obtain ⟨-,here,pair⟩ := listed_pair inv listed
  have recorded := recorded_of_listed pair.joint here
  exact ⟨recorded.freed,recorded.page⟩

theorem list_next_listed (inv : Inv k) (listed : c ∈ (k.threads t).child_thread_list) :
    list_next k c = cursorOf (after c (k.threads t).child_thread_list) := by
  obtain ⟨mine,-⟩ := inv.sound.listed t c listed
  rw [list_next,mine,if_pos listed]

/-! ### Walks -/

/-- A walk along `all_list` that is due to meet `c`. -/
theorem survey (inv : Inv k) (live : c ∈ k.all_list) (ahead : Ahead k.all_list c e) :
    (∃ e', get_thread_by_tid k c e = .go e' ∧ Ahead k.all_list c e') ∨ get_thread_by_tid k c e = .found := by
  cases e with
  | begin => exact .inl ⟨_,rfl,ahead_head k.all_list c⟩
  | elem f =>
    have member := ahead_mem ahead
    by_cases same : f = c
    · exact .inr (by simp [get_thread_by_tid,same,live])
    · exact .inl ⟨_,by simp [get_thread_by_tid,same,member],ahead_after inv.sound.once ahead same⟩
  | stop => exact absurd live ahead

theorem cursorOf_after_mem {list : List Tid} {f g : Tid} (next : cursorOf (after f list) = .elem g) : g ∈ list := by
  induction list with
  | nil => simp [after,cursorOf] at next
  | cons x rest ih =>
    simp only [after] at next
    split at next
    · cases rest with
      | nil => simp [cursorOf] at next
      | cons y rest =>
        simp only [List.head?_cons,cursorOf,Cursor.elem.injEq] at next
        simp [next]
    · exact List.mem_cons_of_mem x (ih next)

/-- A walk along `all_list` that may or may not meet `c`. -/
theorem enquiry (c : Tid) (standing : ∀ f, e = .elem f → f ∈ k.all_list) :
    (∃ e', get_thread_by_tid k c e = .go e' ∧ (∀ f, e' = .elem f → f ∈ k.all_list) ∧ e' ≠ .begin) ∨
      get_thread_by_tid k c e = .found ∧ c ∈ k.all_list ∧ e ≠ .begin ∨ get_thread_by_tid k c e = .missing ∧ e = .stop := by
  cases e with
  | begin =>
    refine .inl ⟨_,rfl,?_,?_⟩
    · intro f first
      cases all : k.all_list with
      | nil => simp [all,cursorOf] at first
      | cons x rest =>
        simp only [all,List.head?_cons,cursorOf,Cursor.elem.injEq] at first
        simp [first]
    · cases k.all_list <;> simp [cursorOf]
  | elem f =>
    have member := standing f rfl
    by_cases same : f = c
    · exact .inr (.inl ⟨by simp [get_thread_by_tid,same,same ▸ member],same ▸ member,by simp⟩)
    · refine .inl ⟨cursorOf (after f k.all_list),by simp [get_thread_by_tid,same,member],fun g next => cursorOf_after_mem next,?_⟩
      cases after f k.all_list <;> simp [cursorOf]
  | stop => exact .inr (.inr ⟨rfl,rfl⟩)

/-- A walk along a list of children, by the parent or one of them. -/
theorem search (inv : Inv k) (ahead : Ahead (k.threads t).child_thread_list c e) :
    (∃ e', find_child_by_tid k (k.threads t).child_thread_list c e = .go e' ∧
        Ahead (k.threads t).child_thread_list c e') ∨
      find_child_by_tid k (k.threads t).child_thread_list c e = .found ∧ c ∈ (k.threads t).child_thread_list ∨
      find_child_by_tid k (k.threads t).child_thread_list c e = .missing ∧ c ∉ (k.threads t).child_thread_list := by
  cases e with
  | begin => exact .inl ⟨_,rfl,ahead_head _ c⟩
  | elem f =>
    have member := ahead_mem ahead
    have allocated := (listed_recorded inv member).1
    by_cases same : f = c
    · exact .inr (.inl ⟨by simp [find_child_by_tid,allocated,same,same ▸ allocated],same ▸ member⟩)
    · refine .inl ⟨list_next k f,by simp [find_child_by_tid,allocated,same],?_⟩
      rw [list_next_listed inv member]
      exact ahead_after (inv.sound.distinct t) ahead same
  | stop => exact .inr (.inr ⟨rfl,ahead⟩)

/-! ### `process_execute` -/

theorem inv_execute_lookup (inv : Inv k) (here : (k.threads t).pc = .run (.execute_lookup c e))
    (step : activityStep k t (.execute_lookup c e) = some k') : Inv k' := by
  obtain ⟨mine,pair⟩ := pair_at inv here rfl
  have live : c ∈ k.all_list := pair.joint.1.live
  have ahead : Ahead k.all_list c e := local_at inv here
  rcases survey inv live ahead with ⟨e',go,ahead'⟩ | found
  · simp only [activityStep,go,Option.some.injEq] at step
    subst step
    exact inv_activity c inv here (fun _ _ => same_subject) (fun _ _ => same_subject) (fun _ same => same) .inl (fun _ _ => mine)
      ahead'
  · simp only [activityStep,found,Option.some.injEq] at step
    subst step
    exact inv_activity c inv here (fun _ _ => same_subject) (fun _ _ => same_subject) (fun _ same => same) .inl (fun _ _ => mine)
      ⟨rfl,inv.sound.pages c live⟩

theorem inv_execute_sema (inv : Inv k) (here : (k.threads t).pc = .run (.execute_sema c e))
    (step : activityStep k t (.execute_sema c e) = some k') : Inv k' := by
  obtain ⟨mine,pair⟩ := pair_at inv here rfl
  have live : c ∈ k.all_list := pair.joint.2.1
  have ahead : Ahead k.all_list c e := local_at inv here
  rcases survey inv live ahead with ⟨e',go,ahead'⟩ | found
  · simp only [activityStep,go,Option.some.injEq] at step
    subst step
    exact inv_activity c inv here (fun _ _ => same_subject) (fun _ _ => same_subject) (fun _ same => same) .inl (fun _ _ => mine)
      ahead'
  · simp only [activityStep,found,Option.some.injEq] at step
    subst step
    refine inv_activity c inv here (fun _ _ => same_subject) (fun _ _ => same_subject) ?_ (fun _ => .inr live)
      (fun _ _ => mine) ⟨rfl,inv.sound.pages c live⟩
    intro _ _
    rw [role_subject rfl]
    exact pair_role pair ⟨pair.joint.1,pair.joint.2.2,by simp⟩ rfl rfl fun _ => .inr live

theorem unmarked_open (early : unmarked pc = true) : closed pc = false ∧ finishing pc = false := by
  cases pc <;> simp_all [unmarked,closed,finishing]

theorem thread_status_alive (k : Kernel) (d : Tid) : thread_status k d ≠ .THREAD_DYING := by
  rw [thread_status]
  split <;> simp

section
variable {parent : Pointer} {sema : Semaphore} {stale : Nat} {record : ChildThread} {listed : Prop}

/-- What others can change does not touch a thread's own fate. -/
theorem fate_shared (fate : Fate v) :
    Fate { v with parent := parent, sema := sema, stale := stale, record := record, listed := listed } :=
  ⟨fate.loading,fate.loaded,fate.failed,fate.status,fate.exited,fate.alive,fate.leaves⟩

theorem early_shared (early : Early v) :
    Early { v with parent := parent, sema := sema, stale := stale, record := record } :=
  ⟨early.live,early.unlisted,early.unmarked,early.failed⟩
end

/-- A process in `process_execute` or `process_wait`, seen by its own parent. -/
theorem self_run {a b : Activity} (inv : Inv k) (here : (k.threads t).pc = .run a) :
    (k.threads t).creator ≠ 0 → Pair { view k t with pc := .run b } (creatorRole k t) :=
  fun created => pair_run (inv.pairs t created) here

theorem touches_record (k : Kernel) (c : Tid) (record : ChildThread) : Touches k (setRecord k c record) c where
  threads _ _ := rfl
  thread := rfl
  records d other := by simp [setRecord,other]
  all_list := rfl
  stale := rfl
  next_tid := rfl
  fault := rfl

theorem touches_thread (k : Kernel) (c : Tid) (parent : Pointer) (sema : Semaphore) :
    Touches k (setThread k c { k.threads c with parent_thread := parent, waiting_sema := sema }) c where
  threads u other := setThread_other _ other
  thread := by simp
  records _ _ := rfl
  all_list := rfl
  stale := rfl
  next_tid := rfl
  fault := rfl

theorem inv_execute_record {new : Page} (inv : Inv k) (here : (k.threads t).pc = .run (.execute_record c new))
    (step : activityStep k t (.execute_record c new) = some k') : Inv k' := by
  obtain ⟨mine,pair⟩ := pair_at inv here rfl
  obtain ⟨early,parent⟩ := pair.joint
  obtain ⟨rfl,sole⟩ := local_at inv here
  simp only [activityStep,occupant_sole sole early.live,Option.some.injEq] at step
  subst step
  refine inv_touch inv (touches_record k c _) here (by simp) mine (fun _ _ _ same => same) (fun _ _ => same_subject)
    (fun _ _ => same_subject) ?_ (self_run inv here) (not_down rfl rfl) (fun _ => ⟨_,rfl⟩) ⟨rfl,sole⟩
  rw [role_subject rfl,(touches_record k c _).view_self]
  refine ⟨fate_shared pair.fate,⟨early_shared early,parent,?_,?_⟩,?_⟩
  · exact ⟨by simp [setRecord,newRecord],by simp [setRecord,newRecord,view]⟩
  · simpa [setRecord,newRecord] using thread_status_alive k c
  · exact signals_place (signals_role pair.signals rfl rfl (by simp [Role.down])) rfl

theorem inv_execute_adopt {new : Page} (inv : Inv k) (here : (k.threads t).pc = .run (.execute_adopt c new))
    (step : activityStep k t (.execute_adopt c new) = some k') : Inv k' := by
  obtain ⟨mine,pair⟩ := pair_at inv here rfl
  obtain ⟨early,-,recorded,alive⟩ := pair.joint
  obtain ⟨rfl,sole⟩ := local_at inv here
  have live := live_of_pc inv.sound here (by simp)
  simp only [activityStep,occupant_sole sole early.live,Option.some.injEq] at step
  subst step
  have touch := touches_thread k c (.page (k.threads t).page) (k.threads c).waiting_sema
  refine inv_touch inv touch here (by simp) mine ?_ (fun _ _ => same_subject)
    (fun _ _ => same_subject) ?_ (self_run inv here) (not_down rfl rfl) (fun _ => ⟨_,rfl⟩) trivial
  · intro u alive other same
    rw [setThread_self] at same
    exact absurd (inv.sound.pages t live u alive (Pointer.page.inj same).symm) other
  · rw [role_subject rfl,touch.view_self]
    refine ⟨fate_shared pair.fate,⟨early_shared early,?_,⟨recorded.freed,recorded.page⟩,alive⟩,?_⟩
    · simp [view,mine]
    · rw [setThread_self]
      exact signals_place (signals_role pair.signals rfl rfl (by simp [Role.down])) rfl

theorem setThread_pc (pc : Pc) (k : Kernel) (t : Tid) (v : Thread) :
    setThread k t v = setPc (setThread k t { v with pc := pc }) t v.pc := by
  simp only [setPc,setThread,Kernel.mk.injEq,and_true]
  funext u
  by_cases same : u = t <;> simp [same]

theorem inv_execute_push (inv : Inv k) (here : (k.threads t).pc = .run (.execute_push c))
    (step : activityStep k t (.execute_push c) = some k') : Inv k' := by
  obtain ⟨mine,pair⟩ := pair_at inv here rfl
  obtain ⟨early,parent,recorded,alive⟩ := pair.joint
  have unlisted : c ∉ (k.threads t).child_thread_list := by
    have unlisted := early.unlisted
    change c ∉ (k.threads (k.threads c).creator).child_thread_list at unlisted
    rw [mine] at unlisted
    exact unlisted
  simp only [activityStep,Option.some.injEq] at step
  subst step
  rw [setThread_pc (k.threads t).pc]
  have relist : Relists k (setThread k t { k.threads t with
      child_thread_list := (k.threads t).child_thread_list ++ [c] }) t c := by
    refine ⟨fun u other => setThread_other _ other,by simp,fun _ _ => rfl,?_,?_,rfl,rfl,rfl,rfl⟩
    · intro d other
      simp [other]
    · rw [setThread_self]
      exact List.nodup_append.mpr ⟨inv.sound.distinct t,by simp,by
        intro a member b isChild same
        rw [List.mem_singleton] at isChild
        exact unlisted (isChild ▸ same ▸ member)⟩
  refine inv_relist inv relist here (by simp) mine (fun _ _ => same_subject) (fun _ _ => same_subject) ?_ (self_run inv here)
    (not_down rfl rfl) ?_ (fun _ => ⟨_,rfl⟩) trivial
  · rw [role_subject rfl]
    refine ⟨fate_shared pair.fate,⟨⟨⟨recorded.freed,recorded.page⟩,?_,?_,?_,?_,?_⟩,early.live,?_⟩,?_⟩
    · simp
    · exact fun _ => parent
    · intro shut
      rw [(unmarked_open early.unmarked).1] at shut
      cases shut
    · intro half
      rw [(unmarked_open early.unmarked).2] at half
      cases half
    · exact fun dying => absurd dying alive
    · exact fun dying => absurd dying alive
    · exact signals_place (signals_role pair.signals rfl rfl (by simp [Role.down])) rfl
  · intro u member m p e at_ ahead
    rw [setThread_self]
    refine ahead_append ahead ?_
    rintro rfl
    have early := early.unmarked
    change unmarked (k.threads c).pc = true at early
    rw [at_] at early
    cases early

/-! ### `sema_down` -/

section
variable {n : Nat} {waiters : List Tid}

/-- The semaphore is no part of what creator and child have agreed on. -/
theorem joint_sema {sema : Semaphore} (joint : Joint v r) : Joint { v with sema := sema } r :=
  joint_place joint rfl (fun early => ⟨early.unmarked,early.failed⟩) fun _ => rfl

theorem semaValue_live (sole : Sole k c) (live : c ∈ k.all_list) :
    semaValue k (k.threads c).page = (k.threads c).waiting_sema.value := by
  simp [semaValue,occupant_sole sole live]
theorem semaValue_left (sole : Sole k c) (left : c ∉ k.all_list) :
    semaValue k (k.threads c).page = k.stale (k.threads c).page := by
  simp [semaValue,occupant_left sole left]

/-- The creator queues itself at the semaphore of a live child. -/
theorem inv_queue {a b : Activity} (inv : Inv k) (here : (k.threads t).pc = .run a)
    (about : subject (.run a) = some (c,r)) (about' : subject (.run b) = some (c,r')) (sole : Sole k c)
    (live : c ∈ k.all_list) (joint : Joint (view k c) r') (pending : r'.pending = r.pending) (calm : r.blocked = false)
    (blocks : r'.blocked = true) (locally : Local k t (.run b)) :
    Inv (setPc (semaQueue k t (k.threads c).page) t (.run b)) := by
  obtain ⟨mine,pair⟩ := pair_at inv here about
  have touch := touches_thread k c (k.threads c).parent_thread
    { (k.threads c).waiting_sema with waiters := (k.threads c).waiting_sema.waiters ++ [t] }
  have queue : semaQueue k t (k.threads c).page = setThread k c { k.threads c with
      parent_thread := (k.threads c).parent_thread
      waiting_sema := { (k.threads c).waiting_sema with waiters := (k.threads c).waiting_sema.waiters ++ [t] } } := by
    simp [semaQueue,occupant_sole sole live]
  rw [queue]
  refine inv_touch inv touch here (by simp) mine ?_ ?_ ?_ ?_ (self_run inv here) (fun _ => .inr live) (fun _ => ⟨_,rfl⟩) ?_
  · intro u _ _ same
    rw [setThread_self] at same
    exact same
  · exact fun d s h => same_subject (about.symm.trans h)
  · exact fun d s h => same_subject (about'.symm.trans h)
  · rw [role_subject about',touch.view_self]
    refine ⟨fate_shared pair.fate,?_,?_,?_,?_,?_,?_⟩
    · rw [setThread_self]
      exact joint_sema joint
    · exact fun h => pending.trans (pair.signals.starts h)
    · intro _
      rw [setThread_self,pending]
      exact pair.signals.value live
    · intro _
      rw [setThread_self,blocks]
      have empty := pair.signals.waiters live
      rw [calm] at empty
      change (k.threads c).waiting_sema.waiters = [] at empty
      simp [empty,view,mine]
    · exact fun left => absurd live left
    · exact fun _ => live
  · refine local_alike (touch.alike ?_) locally
    rw [setThread_self]
    exact id

/-- The creator passes the semaphore of a child that has left. -/
theorem inv_take_left {a b : Activity} (r' : Role) (inv : Inv k) (here : (k.threads t).pc = .run a)
    (about : subject (.run a) = some (c,r)) (about' : subject (.run b) = some (c,r')) (sole : Sole k c)
    (left : c ∉ k.all_list) (joint : Joint (view k c) r') (pending : r.pending = true → starting (k.threads c).pc = false)
    (down : r.down = true) (passed : r'.down = false) (calm : r'.blocked = false)
    (locally : Local k t (.run b)) : Inv (setPc (semaTake k (k.threads c).page) t (.run b)) := by
  obtain ⟨mine,pair⟩ := pair_at inv here about
  have moved : Inv (setPc k t (.run b)) := by
    refine inv_activity c inv here ?_ ?_ ?_ ?_ (fun _ _ => mine) locally
    · exact fun d s h => same_subject (about.symm.trans h)
    · exact fun d s h => same_subject (about'.symm.trans h)
    · intro _ _
      rw [role_subject about']
      refine ⟨pair.fate,joint,?_,?_,?_,?_,?_⟩
      · intro h
        have waits := pair.signals.starts h
        rw [show starting (view k c).pc = false from pending waits] at h
        cases h
      · exact fun live => absurd live left
      · exact fun live => absurd live left
      · intro _ h
        rw [passed] at h
        cases h
      · intro h
        rw [calm] at h
        cases h
    · exact not_down about' passed
  have taken : semaTake k (k.threads c).page =
      { k with stale := fun q => if q = (k.threads c).page then k.stale (k.threads c).page - 1 else k.stale q } := by
    simp [semaTake,occupant_left sole left]
  rw [taken]
  refine inv_stale moved (k.threads c).page _ ?_
  intro d waits page _
  rw [setPc_page] at page
  rw [creatorRole,setPc_creator] at waits
  have differ : d ≠ c := by
    rintro rfl
    rw [mine,setPc_self,role_subject about',passed] at waits
    cases waits
  have waited : (creatorRole k d).down = true := by
    by_cases isMine : (k.threads d).creator = t
    · rw [isMine,setPc_self,role_other fun s h => differ (same_subject (about'.symm.trans h))] at waits
      cases waits
    · rw [setPc_other isMine] at waits
      exact waits
  refine absurd (inv.exclusive d c waited ?_ page) differ
  rw [creatorRole,mine,here,role_subject about,down]

end

theorem inv_execute_down {child : Page} (inv : Inv k) (here : (k.threads t).pc = .run (.execute_down c child false))
    (step : activityStep k t (.execute_down c child false) = some k') : Inv k' := by
  obtain ⟨mine,pair⟩ := pair_at inv here rfl
  obtain ⟨kept,lost,-⟩ := pair.joint
  obtain ⟨rfl,sole⟩ := local_at inv here
  by_cases live : c ∈ k.all_list
  · have value := pair.signals.value live
    change (k.threads c).waiting_sema.value = _ at value
    by_cases started : starting (k.threads c).pc = true
    · have zero : semaValue k (k.threads c).page = 0 := by
        rw [semaValue_live sole live,value]
        simp [view,started]
      simp only [activityStep,zero,if_true,Option.some.injEq] at step
      subst step
      exact inv_queue inv here rfl rfl sole live ⟨kept,lost,fun _ => started⟩ rfl rfl rfl ⟨rfl,sole⟩
    · rw [Bool.not_eq_true] at started
      have one : (k.threads c).waiting_sema.value = 1 := by
        rw [value]
        simp [view,started,Role.pending]
      simp only [activityStep,semaValue_live sole live,one,Nat.one_ne_zero,if_false,Option.some.injEq] at step
      subst step
      have touch := touches_thread k c (k.threads c).parent_thread { (k.threads c).waiting_sema with value := 0 }
      have take : semaTake k (k.threads c).page = setThread k c { k.threads c with
          parent_thread := (k.threads c).parent_thread
          waiting_sema := { (k.threads c).waiting_sema with value := 0 } } := by
        simp [semaTake,occupant_sole sole live,one]
      rw [take]
      refine inv_touch inv touch here (by simp) mine ?_ (fun _ _ => same_subject) (fun _ _ => same_subject) ?_
        (self_run inv here) (not_down rfl rfl) (fun _ => ⟨_,rfl⟩) trivial
      · intro u _ _ same
        rw [setThread_self] at same
        exact same
      · rw [role_subject rfl,touch.view_self]
        refine ⟨fate_shared pair.fate,?_,?_,?_,?_,?_,?_⟩
        · rw [setThread_self]
          exact joint_sema (r := .checking) ⟨kept,lost,started⟩
        · intro h
          change starting (k.threads c).pc = true at h
          rw [started] at h
          cases h
        · intro _
          rw [setThread_self]
          simp [Role.pending]
        · intro _
          rw [setThread_self]
          exact pair.signals.waiters live
        · exact fun left => absurd live left
        · exact fun h => by cases h
  · have positive := pair.signals.stale live rfl
    change 0 < k.stale (k.threads c).page at positive
    have passes : semaValue k (k.threads c).page ≠ 0 := by
      rw [semaValue_left sole live]
      exact Nat.ne_of_gt positive
    simp only [activityStep,passes,if_false,Option.some.injEq] at step
    subst step
    have left : (k.threads c).pc = .gone := pair.fate.leaves live
    have started : starting (k.threads c).pc = false := by
      rw [left]
      rfl
    exact inv_take_left .checking inv here rfl rfl sole live ⟨kept,lost,started⟩ (fun _ => started) rfl rfl rfl
      trivial

/-! ### Returning -/

/-- A creator that is done with a child which has settled. -/
theorem inv_return {a : Activity} (d : Tid) (inv : Inv k) (here : (k.threads t).pc = .run a)
    (old : ∀ c r, subject (.run a) = some (c,r) → c = d)
    (joint : (k.threads d).creator = t → Joint (view k d) .other)
    (settled : (k.threads d).creator = t → (role (.run a) d).pending = false ∧ (role (.run a) d).blocked = false) :
    Inv (setPc k t (.run .user)) := by
  refine inv_activity d inv here old (fun _ _ => no_subject) ?_ ?_ ?_ trivial
  · intro mine pair
    rw [role_none rfl]
    exact pair_role pair (joint mine) (settled mine).1.symm (settled mine).2.symm (by simp [Role.down])
  · rw [role_none rfl]
    simp [Role.down]
  · simp [subject]

theorem inv_execute_returns {ret : Int} (inv : Inv (setPc k t (.run .user))) : Inv (execute_returns k t c ret) :=
  inv_same inv (fun _ => rfl) rfl rfl rfl rfl rfl

theorem inv_wait_returns {ret : Int} (inv : Inv (setPc k t (.run .user))) : Inv (wait_returns k t c ret) := by
  refine inv_same inv ?_ rfl rfl rfl rfl rfl
  intro u
  by_cases same : u = t
  · subst same
    simp [wait_returns,setPc,setThread]
  · simp [wait_returns,setPc,setThread,same]

/-- `process_execute` sees a record that is marked exactly when the program was not loaded. -/
theorem checked (pair : Pair v .checking) (closedFirst : v.load = some false → closed v.pc = true) :
    v.record.status = .THREAD_DYING ∧ v.load = some false ∧ closed v.pc = true ∨
      v.record.status ≠ .THREAD_DYING ∧ v.load = some true := by
  obtain ⟨kept,lost,started⟩ := pair.joint
  cases load : v.load with
  | none =>
    have loading := pair.fate.loading.mp load
    rw [loading] at started
    cases started
  | some success =>
    cases success with
    | true =>
      refine .inr ⟨?_,rfl⟩
      intro dying
      rw [load] at lost
      cases lost dying
    | false =>
      have shut := closedFirst load
      exact .inl ⟨(kept.closed shut).1,rfl,shut⟩

theorem inv_execute_check (inv : Inv k) (here : (k.threads t).pc = .run (.execute_check c)) (orderly : ClosedFirst k t)
    (step : activityStep k t (.execute_check c) = some k') : Inv k' := by
  obtain ⟨mine,pair⟩ := pair_at inv here rfl
  have kept := pair.joint.1
  have closedFirst : (view k c).load = some false → closed (view k c).pc = true := by
    refine orderly c ?_
    rw [here]
    rfl
  have allocated : (k.child_threads c).freed = false := kept.freed
  simp only [activityStep,allocated,Bool.false_eq_true,if_false] at step
  rcases checked pair closedFirst with ⟨dying,lost,shut⟩ | ⟨alive,load⟩
  · change (k.child_threads c).status = .THREAD_DYING at dying
    rw [if_pos dying,Option.some.injEq] at step
    subst step
    refine inv_activity c inv here (fun _ _ => same_subject) (fun _ _ => same_subject) ?_ (not_down rfl rfl) (fun _ _ => mine)
      trivial
    intro _ _
    rw [role_subject rfl]
    exact pair_role pair ⟨kept,shut,lost⟩ rfl rfl (by simp [Role.down])
  · change (k.child_threads c).status ≠ .THREAD_DYING at alive
    rw [if_neg alive,Option.some.injEq] at step
    subst step
    have moved : Inv (setPc k t (.run .user)) := by
      refine inv_return c inv here (fun _ _ => same_subject) (fun _ => .inl ⟨kept,load,pair.joint.2.2⟩) ?_
      intro _
      rw [role_subject rfl]
      exact ⟨rfl,rfl⟩
    refine inv_same moved ?_ rfl rfl rfl rfl rfl
    intro u
    by_cases same : u = t
    · subst same
      simp [execute_returns,setPc,setThread]
    · simp [execute_returns,setPc,setThread,same]

/-! ### Collecting a record -/

theorem collect_role (f : Call) (c : Tid) : ∃ r, subject (.run (.collect_status f c)) = some (c,r) ∧
    (∀ ret, subject (.run (.collect_remove f c ret)) = some (c,r)) ∧ r.pending = false ∧ r.blocked = false ∧
    ∀ v, Joint v r → Kept v ∧ closed v.pc = true := by
  cases f with
  | execute => exact ⟨.refusing,rfl,fun _ => rfl,rfl,rfl,fun _ joint => ⟨joint.1,joint.2.1⟩⟩
  | wait => exact ⟨.collecting,rfl,fun _ => rfl,rfl,rfl,fun _ joint => ⟨joint.1.toKept,joint.2⟩⟩

theorem inv_collect_status {f : Call} (inv : Inv k) (here : (k.threads t).pc = .run (.collect_status f c))
    (step : activityStep k t (.collect_status f c) = some k') : Inv k' := by
  obtain ⟨r,about,about',-,-,joint⟩ := collect_role f c
  obtain ⟨mine,pair⟩ := pair_at inv here about
  obtain ⟨kept,shut⟩ := joint _ pair.joint
  have allocated : (k.child_threads c).freed = false := kept.freed
  have status : (k.child_threads c).exit_status = (k.threads c).exit_status := (kept.closed shut).2
  simp only [activityStep,allocated,Bool.false_eq_true,if_false,Option.some.injEq] at step
  subst step
  refine inv_activity c inv here ?_ ?_ ?_ ?_ (fun _ _ => mine) ?_
  · exact fun d s h => same_subject (about.symm.trans h)
  · exact fun d s h => same_subject ((about' _).symm.trans h)
  · intro _ _
    rw [role_subject (about' _)]
    exact pair
  · rw [role_subject (about' _),role_subject about]
    exact .inl
  · cases f with
    | execute =>
      cases about
      show (k.child_threads c).exit_status = -1
      rw [status]
      exact pair.fate.status pair.joint.2.2 (by
        have past := shut
        cases at_ : (view k c).pc <;> simp_all [starting,closed])
    | wait =>
      show (k.threads c).exited = some (k.child_threads c).exit_status
      rw [status]
      exact pair.fate.exited (.inr (.inr shut))

/-- Unlinking the record of a child that is done with it, or orphaned. -/
theorem inv_unlink {pc pc' : Pc} (inv : Inv k) (here : (k.threads t).pc = pc) (runs : pc ≠ .gone)
    (about : subject pc = some (c,r)) (about' : subject pc' = some (c,.unlinked)) (pending : r.pending = false)
    (calm : r.blocked = false) (listed : (view k c).listed) (apart : Apart (view k c))
    (self : (k.threads t).creator ≠ 0 → Pair { view k t with pc := pc' } (creatorRole k t))
    (clear : ∀ u ∈ k.all_list, standing (k.threads u).pc ≠ some c)
    (roots : (k.threads t).creator = 0 → ∃ a, pc' = .run a) (locally : Local (list_remove k t c) t pc') :
    Inv (setPc (list_remove k t c) t pc') := by
  obtain ⟨mine,pair⟩ := pair_at inv here about
  have allocated : (k.child_threads c).freed = false := (recorded_of_listed pair.joint listed).freed
  have relist : Relists k (list_remove k t c) t c := by
    refine ⟨fun u other => setThread_other _ other,by simp [list_remove],?_,?_,?_,rfl,rfl,rfl,rfl⟩
    · intro d other
      simp [list_remove,setThread,setRecord,other]
    · intro d other
      simp only [list_remove,setThread_self]
      exact List.mem_erase_of_ne other
    · simp only [list_remove,setThread_self]
      exact (inv.sound.distinct t).erase c
  refine inv_relist inv relist here runs mine ?_ ?_ ?_ self (not_down about' rfl) ?_ roots locally
  · exact fun d s h => same_subject (about.symm.trans h)
  · exact fun d s h => same_subject (about'.symm.trans h)
  · rw [role_subject about']
    refine ⟨fate_shared pair.fate,⟨?_,apart,?_⟩,?_⟩
    · simp only [list_remove,setThread_self]
      exact (inv.sound.distinct t).not_mem_erase
    · simpa [list_remove,setThread,setRecord] using allocated
    · exact signals_place (signals_role pair.signals pending.symm calm.symm (by simp [Role.down])) rfl
  · intro u member m p e at_ ahead
    simp only [list_remove,setThread_self]
    refine ahead_erase ahead ?_
    rintro rfl
    refine clear u member ?_
    rw [at_]
    rfl

theorem inv_collect_remove {f : Call} {ret : Int} (inv : Inv k) (here : (k.threads t).pc = .run (.collect_remove f c ret))
    (orderly : UnlinksClear k t) (step : activityStep k t (.collect_remove f c ret) = some k') : Inv k' := by
  obtain ⟨r,-,about,pending,calm,joint⟩ := collect_role f c
  obtain ⟨mine,pair⟩ := pair_at inv here (about ret)
  obtain ⟨kept,shut⟩ := joint _ pair.joint
  have allocated : (k.child_threads c).freed = false := kept.freed
  simp only [activityStep,allocated,Bool.false_eq_true,if_false,Option.some.injEq] at step
  subst step
  refine inv_unlink inv here (by simp) (about ret) rfl pending calm kept.listed (.inl shut) (self_run inv here) ?_
    (fun _ => ⟨_,rfl⟩) ?_
  · refine orderly c ?_
    rw [here]
    rfl
  · have before := local_at inv here
    have same : ∀ d, ((list_remove k t c).threads d).load = (k.threads d).load ∧
        ((list_remove k t c).threads d).exited = (k.threads d).exited := by
      intro d
      by_cases isIt : d = t
      · subst isIt
        simp [list_remove]
      · simp [list_remove,setThread_other _ isIt]
    cases f with
    | execute =>
      cases about ret
      exact ⟨(same c).1.trans pair.joint.2.2,before⟩
    | wait => exact (same c).2.trans before

/-- Freeing a record that is not listed any more. -/
theorem inv_free {pc pc' : Pc} (inv : Inv k) (here : (k.threads t).pc = pc) (runs : pc ≠ .gone)
    (about : subject pc = some (c,.unlinked)) (about' : subject pc' = none)
    (self : (k.threads t).creator ≠ 0 → Pair { view k t with pc := pc' } (creatorRole k t))
    (roots : (k.threads t).creator = 0 → ∃ a, pc' = .run a) (locally : Local (free k c) t pc') :
    Inv (setPc (free k c) t pc') := by
  obtain ⟨mine,pair⟩ := pair_at inv here about
  obtain ⟨unlisted,apart,-⟩ := pair.joint
  have touch : Touches k (free k c) c := touches_record k c _
  refine inv_touch inv touch here runs mine (fun _ _ _ same => same) ?_ ?_ ?_ self ?_ roots locally
  · exact fun d s h => same_subject (about.symm.trans h)
  · exact fun d s h => no_subject (about'.symm.trans h)
  · rw [role_none about',touch.view_self]
    refine ⟨fate_shared pair.fate,.inr ⟨unlisted,apart⟩,?_⟩
    exact signals_place (signals_role pair.signals rfl rfl (by simp [Role.down])) rfl
  · rw [role_none about']
    simp [Role.down]

theorem inv_collect_free {f : Call} {ret : Int} (inv : Inv k) (here : (k.threads t).pc = .run (.collect_free f c ret))
    (step : activityStep k t (.collect_free f c ret) = some k') : Inv k' := by
  obtain ⟨-,pair⟩ := pair_at inv here rfl
  have allocated : (k.child_threads c).freed = false := pair.joint.2.2
  simp only [activityStep,allocated,Bool.false_eq_true,if_false,Option.some.injEq] at step
  subst step
  have moved : Inv (setPc (free k c) t (.run .user)) :=
    inv_free inv here (by simp) rfl rfl (self_run inv here) (fun _ => ⟨_,rfl⟩) trivial
  cases f with
  | execute => exact inv_execute_returns moved
  | wait => exact inv_wait_returns moved

/-! ### `process_wait` -/

/-- A listed child that the creator is not busy with has been returned by `process_execute`. -/
theorem given_of_listed (inv : Inv k) (here : (k.threads t).pc = pc) (idle : ∀ r, subject pc ≠ some (c,r))
    (listed : c ∈ (k.threads t).child_thread_list) :
    (k.threads c).creator = t ∧ Pair (view k c) .other ∧ Given (view k c) := by
  obtain ⟨mine,isListed,pair⟩ := listed_pair inv listed
  rw [here,role_other idle] at pair
  exact ⟨mine,pair,pair.joint.elim id fun left => absurd isListed left.1⟩

theorem inv_wait_find (inv : Inv k) (here : (k.threads t).pc = .run (.wait_find c e))
    (step : activityStep k t (.wait_find c e) = some k') : Inv k' := by
  have ahead : Ahead (k.threads t).child_thread_list c e := local_at inv here
  rcases search inv ahead with ⟨e',go,ahead'⟩ | ⟨found,listed⟩ | ⟨missing,-⟩
  · simp only [activityStep,go,Option.some.injEq] at step
    subst step
    exact inv_activity c inv here (fun _ _ => no_subject) (fun _ _ => no_subject) (fun _ same => same) .inl
      (by simp [subject]) ahead'
  · simp only [activityStep,found,Option.some.injEq] at step
    subst step
    obtain ⟨mine,pair,given⟩ := given_of_listed inv here (by simp [subject]) listed
    refine inv_activity c inv here (fun _ _ => no_subject) (fun _ _ => same_subject) ?_ (not_down rfl rfl) (fun _ _ => mine)
      trivial
    intro _ _
    rw [role_subject rfl]
    exact pair_role pair given rfl rfl (by simp [Role.down])
  · simp only [activityStep,missing,Option.some.injEq] at step
    subst step
    exact inv_activity c inv here (fun _ _ => no_subject) (fun _ _ => no_subject) (fun _ same => same) .inl
      (by simp [subject]) ⟨by simp,by simp⟩

/-- A marked record of a returned child, not read half-way, is that of a child that
    is done with it. -/
theorem closed_of_dying (given : Given v) (whole : finishing v.pc = false) (dying : v.record.status = .THREAD_DYING) :
    closed v.pc = true := by
  rcases given.dying dying with shut | half | lost
  · exact shut
  · rw [whole] at half
    cases half
  · rw [given.load] at lost
    cases lost

theorem inv_wait_check (inv : Inv k) (here : (k.threads t).pc = .run (.wait_check c)) (orderly : ReadsWhole k t)
    (step : activityStep k t (.wait_check c) = some k') : Inv k' := by
  obtain ⟨mine,pair⟩ := pair_at inv here rfl
  have given : Given (view k c) := pair.joint
  have allocated : (k.child_threads c).freed = false := given.freed
  have whole : finishing (view k c).pc = false := by
    refine orderly.1 c ?_
    rw [here]
    rfl
  simp only [activityStep,allocated,Bool.false_eq_true,if_false] at step
  by_cases dying : (k.child_threads c).status = .THREAD_DYING
  · rw [if_pos dying,Option.some.injEq] at step
    subst step
    refine inv_activity c inv here (fun _ _ => same_subject) (fun _ _ => same_subject) ?_ (not_down rfl rfl) (fun _ _ => mine)
      trivial
    intro _ _
    rw [role_subject rfl]
    exact pair_role pair ⟨given,closed_of_dying given whole dying⟩ rfl rfl (by simp [Role.down])
  · rw [if_neg dying,Option.some.injEq] at step
    subst step
    refine inv_activity c inv here (fun _ _ => same_subject) (fun _ _ => no_subject) ?_ ?_ (by simp [subject])
      ⟨by simp,by simp⟩
    · intro _ _
      rw [role_none rfl]
      exact pair_role pair (.inl given) rfl rfl (by simp [Role.down])
    · rw [role_none rfl]
      simp [Role.down]

theorem inv_wait_lookup (inv : Inv k) (here : (k.threads t).pc = .run (.wait_lookup c e)) (orderly : CollectedGone k t)
    (step : activityStep k t (.wait_lookup c e) = some k') : Inv k' := by
  obtain ⟨standing,known⟩ := local_at inv here
  have acknowledged : Acknowledged k t c := by
    by_cases first : e = .begin
    · refine orderly c ?_
      rw [here,first]
      rfl
    · exact known first
  rcases enquiry c standing with ⟨e',go,standing',-⟩ | ⟨found,live,-⟩ | ⟨missing,-⟩
  · simp only [activityStep,go,Option.some.injEq] at step
    subst step
    exact inv_activity c inv here (fun _ _ => no_subject) (fun _ _ => no_subject) (fun _ same => same) .inl
      (by simp [subject]) ⟨standing',fun _ => acknowledged⟩
  · simp only [activityStep,found,Option.some.injEq] at step
    subst step
    exact inv_activity c inv here (fun _ _ => no_subject) (fun _ _ => no_subject) (fun _ same => same) .inl
      (by simp [subject]) ⟨rfl,inv.sound.pages c live,acknowledged,(inv.sound.ids c live).2⟩
  · simp only [activityStep,missing,Option.some.injEq] at step
    subst step
    refine inv_wait_returns (inv_activity c inv here (fun _ _ => no_subject) (fun _ _ => no_subject) (fun _ same => same) .inl
      (by simp [subject]) trivial)

theorem inv_wait_parent {child : Page} (inv : Inv k) (here : (k.threads t).pc = .run (.wait_parent c child))
    (step : activityStep k t (.wait_parent c child) = some k') : Inv k' := by
  obtain ⟨rfl,sole,acknowledged,-⟩ := local_at inv here
  have back : Inv (setPc k t (.run .user)) :=
    inv_activity c inv here (fun _ _ => no_subject) (fun _ _ => no_subject) (fun _ same => same) .inl (by simp [subject]) trivial
  by_cases live : c ∈ k.all_list
  · simp only [activityStep,occupant_sole sole live] at step
    split at step
    · next parent =>
      cases step
      have listed := acknowledged live parent
      obtain ⟨mine,pair,given⟩ := given_of_listed inv here (by simp [subject]) listed
      refine inv_activity c inv here (fun _ _ => no_subject) (fun _ _ => same_subject) ?_ (fun _ => .inr live)
        (fun _ _ => mine) ⟨rfl,sole,trivial⟩
      intro _ _
      rw [role_subject rfl]
      exact pair_role pair given rfl rfl fun _ => .inr live
    · cases step
      exact inv_wait_returns back
  · simp only [activityStep,occupant_left sole live,Option.some.injEq] at step
    subst step
    exact inv_wait_returns back

theorem inv_wait_record {child : Page} (inv : Inv k) (here : (k.threads t).pc = .run (.wait_record c child e))
    (step : activityStep k t (.wait_record c child e) = some k') : Inv k' := by
  obtain ⟨mine,pair⟩ := pair_at inv here rfl
  have given : Given (view k c) := pair.joint
  obtain ⟨rfl,sole,ahead⟩ := local_at inv here
  rcases search inv ahead with ⟨e',go,ahead'⟩ | ⟨found,-⟩ | ⟨-,unlisted⟩
  · simp only [activityStep,go,Option.some.injEq] at step
    subst step
    exact inv_activity c inv here (fun _ _ => same_subject) (fun _ _ => same_subject) (fun _ same => same) .inl
      (fun _ _ => mine) ⟨rfl,sole,ahead'⟩
  · simp only [activityStep,found,Option.some.injEq] at step
    subst step
    have moved : Inv (setPc k t (.run (.wait_down c (k.threads c).page true false))) :=
      inv_activity c inv here (fun _ _ => same_subject) (fun _ _ => same_subject) (fun _ same => same) .inl
        (fun _ _ => mine) ⟨rfl,sole,rfl⟩
    refine inv_same moved ?_ rfl rfl rfl rfl rfl
    intro u
    by_cases same : u = t
    · subst same
      simp [setPc,setThread]
    · simp [setPc,setThread,same]
  · have listed := given.listed
    change c ∈ (k.threads (k.threads c).creator).child_thread_list at listed
    rw [mine] at listed
    exact absurd listed unlisted

theorem inv_wait_down {child : Page} {found : Bool} (inv : Inv k)
    (here : (k.threads t).pc = .run (.wait_down c child found false))
    (step : activityStep k t (.wait_down c child found false) = some k') : Inv k' := by
  obtain ⟨mine,pair⟩ := pair_at inv here rfl
  have given : Given (view k c) := pair.joint
  obtain ⟨rfl,sole,rfl⟩ := local_at inv here
  by_cases live : c ∈ k.all_list
  · have value := pair.signals.value live
    change (k.threads c).waiting_sema.value = _ at value
    have zero : semaValue k (k.threads c).page = 0 := by
      rw [semaValue_live sole live,value]
      simp [Role.pending]
    simp only [activityStep,zero,if_true,Option.some.injEq] at step
    subst step
    exact inv_queue inv here rfl rfl sole live given rfl rfl rfl ⟨rfl,sole,rfl⟩
  · have positive := pair.signals.stale live rfl
    change 0 < k.stale (k.threads c).page at positive
    have passes : semaValue k (k.threads c).page ≠ 0 := by
      rw [semaValue_left sole live]
      exact Nat.ne_of_gt positive
    simp only [activityStep,passes,if_false,if_true,Option.some.injEq] at step
    subst step
    have shut : closed (k.threads c).pc = true := by
      rw [show (k.threads c).pc = .gone from pair.fate.leaves live]
      rfl
    have moved : Inv (setPc (semaTake k (k.threads c).page) t (.run (.collect_status .wait c))) :=
      inv_take_left .collecting inv here rfl rfl sole live ⟨given,shut⟩ (fun h => by cases h) rfl rfl rfl trivial
    refine inv_same moved ?_ rfl rfl rfl rfl rfl
    intro u
    by_cases same : u = t
    · subst same
      simp [setPc,setThread]
    · simp [setPc,setThread,same]

end Pintos.Protocol
