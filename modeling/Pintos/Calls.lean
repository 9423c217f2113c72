import Pintos.ProtocolRuns

/-!
The calls of `process_execute` and `process_wait` in an orderly run: what the steps
of others leave alone, when a call is blocked, and how many steps it has left.
-/
namespace Pintos.Calls
open Pintos.Machines Pintos.Processes Pintos.Protocol
set_option linter.unusedSimpArgs false

variable {k k' m : Kernel} {t c u : Tid} {pc : Pc} {a : Activity} {event : Event}

/-! ### What a step changes -/

/-- `k'` differs from `k` in the thread `t`, in the records, and in the parents and the
    semaphores of others at most. -/
structure Minor (k k' : Kernel) (t : Tid) : Prop where
  others : ∀ u, u ≠ t → k'.threads u =
    { k.threads u with parent_thread := (k'.threads u).parent_thread, waiting_sema := (k'.threads u).waiting_sema }
  all_list : k'.all_list = k.all_list
  next_tid : k'.next_tid = k.next_tid

theorem minor_refl (k : Kernel) (t : Tid) : Minor k k t := ⟨fun _ _ => rfl,rfl,rfl⟩
theorem Minor.crash (minor : Minor k m t) (f : Fault) : Minor k (crash m t f) t :=
  ⟨minor.others,minor.all_list,minor.next_tid⟩
theorem Minor.setThread (minor : Minor k m t) (v : Thread) : Minor k (setThread m t v) t where
  others u other := by rw [setThread_other v other]; exact minor.others u other
  all_list := minor.all_list
  next_tid := minor.next_tid
theorem Minor.setPc (minor : Minor k m t) (pc : Pc) : Minor k (setPc m t pc) t := minor.setThread _
theorem Minor.setRecord (minor : Minor k m t) (c : Tid) (v : ChildThread) : Minor k (setRecord m c v) t :=
  ⟨minor.others,minor.all_list,minor.next_tid⟩
theorem Minor.touch (minor : Minor k m t) (d : Tid) (parent : Pointer) (sema : Semaphore) :
    Minor k (Processes.setThread m d { m.threads d with parent_thread := parent, waiting_sema := sema }) t where
  others u other := by
    by_cases same : u = d
    · subst same
      rw [setThread_self,minor.others u other]
    · rw [setThread_other _ same]
      exact minor.others u other
  all_list := minor.all_list
  next_tid := minor.next_tid

theorem Minor.semaTake (minor : Minor k m t) (p : Page) : Minor k (semaTake m p) t := by
  unfold Processes.semaTake
  split
  · exact minor.touch _ _ _
  · exact ⟨minor.others,minor.all_list,minor.next_tid⟩

theorem Minor.semaQueue (minor : Minor k m t) (p : Page) : Minor k (semaQueue m t p) t := by
  unfold Processes.semaQueue
  split
  · exact minor.touch _ _ _
  · exact minor.crash _

theorem Minor.list_remove (minor : Minor k m t) (c : Tid) : Minor k (list_remove m t c) t :=
  (minor.setRecord c _).setThread _
theorem Minor.free (minor : Minor k m t) (c : Tid) : Minor k (free m c) t := minor.setRecord c _
theorem Minor.returns (minor : Minor k m t) (c : Tid) (ret : Int) (f : Call) : Minor k (returns m t c ret f) t := by
  cases f with
  | execute =>
    have moved := minor.setPc (.run .user)
    exact ⟨moved.others,moved.all_list,moved.next_tid⟩
  | wait =>
    have moved := minor.setThread
      { m.threads t with pc := .run .user, children := (m.threads t).children.erase c }
    exact ⟨moved.others,moved.all_list,moved.next_tid⟩

theorem activity_minor (step : activityStep k t a = some k') : Minor k k' t := by
  have here := minor_refl k t
  cases a with
  | user => cases step
  | execute_lookup c e =>
    simp only [activityStep] at step
    split at step <;> cases step
    · exact here.setPc _
    · exact here.setPc _
    · exact here.crash _
    · exact here.crash _
  | execute_record c new =>
    simp only [activityStep] at step
    split at step <;> cases step
    · exact (here.setRecord c _).setPc _
    · exact here.crash _
  | execute_adopt c new =>
    simp only [activityStep] at step
    split at step <;> cases step
    · exact (here.touch _ _ _).setPc _
    · exact here.crash _
  | execute_push c =>
    cases step
    exact here.setThread _
  | execute_sema c e =>
    simp only [activityStep] at step
    split at step <;> cases step
    · exact here.setPc _
    · exact here.setPc _
    · exact here.crash _
    · exact here.crash _
  | execute_down c child b =>
    cases b with
    | false =>
      simp only [activityStep] at step
      split at step <;> cases step
      · exact (here.semaQueue _).setPc _
      · exact (here.semaTake _).setPc _
    | true => cases step
  | execute_check c =>
    simp only [activityStep] at step
    split at step
    · cases step
      exact here.crash _
    · split at step <;> cases step
      · exact here.setPc _
      · exact (here.setThread _).returns c c .execute
  | wait_find c e =>
    simp only [activityStep] at step
    split at step <;> cases step
    · exact here.setPc _
    · exact here.setPc _
    · exact here.setPc _
    · exact here.crash _
  | wait_check c =>
    simp only [activityStep] at step
    split at step
    · cases step
      exact here.crash _
    · split at step <;> cases step
      · exact here.setPc _
      · exact here.setPc _
  | wait_lookup c e =>
    simp only [activityStep] at step
    split at step <;> cases step
    · exact here.setPc _
    · exact here.setPc _
    · exact here.returns c (-1) .wait
    · exact here.crash _
  | wait_parent c child =>
    simp only [activityStep] at step
    split at step
    · split at step <;> cases step
      · exact here.setPc _
      · exact here.returns c (-1) .wait
    · cases step
      exact here.returns c (-1) .wait
  | wait_record c child e =>
    simp only [activityStep] at step
    split at step <;> cases step
    · exact here.setPc _
    · exact (here.setThread _).setPc _
    · exact (here.setThread _).setPc _
    · exact here.crash _
  | wait_down c child found b =>
    cases b with
    | false =>
      simp only [activityStep] at step
      split at step
      · cases step
        exact (here.semaQueue _).setPc _
      · split at step <;> cases step
        · exact ((here.semaTake _).setThread _).setPc _
        · exact ((here.semaTake _).setThread _).crash _
    | true => cases step
  | collect_status f c =>
    simp only [activityStep] at step
    split at step <;> cases step
    · exact here.crash _
    · exact here.setPc _
  | collect_remove f c ret =>
    simp only [activityStep] at step
    split at step <;> cases step
    · exact here.crash _
    · exact (here.list_remove c).setPc _
  | collect_free f c ret =>
    simp only [activityStep] at step
    split at step <;> cases step
    · exact here.crash _
    · exact (here.free c).returns c ret f

/-- The steps that signal. -/
def signals : Pc → Bool
  | .loaded => true
  | .failed_up => true
  | .exit_schedule => true
  | _ => false

theorem pcStep_minor (quiet : signals pc = false) (step : pcStep k t pc = some k') : Minor k k' t := by
  have here := minor_refl k t
  cases pc with
  | idle => cases step
  | load => cases step
  | loaded => cases quiet
  | failed_up => cases quiet
  | exit_schedule => cases quiet
  | gone => cases step
  | run a => exact activity_minor step
  | mark s =>
    simp only [pcStep] at step
    split at step <;> cases step
    · exact here.setPc _
    · exact here.crash _
    · exact here.crash _
  | mark_find s p e =>
    simp only [pcStep] at step
    split at step
    · split at step <;> cases step
      · exact here.setPc _
      · exact here.setPc _
      · exact here.crash _
      · exact here.crash _
    · cases step
      exact here.crash _
  | mark_status s =>
    simp only [pcStep] at step
    split at step <;> cases step
    · exact here.crash _
    · exact (here.setRecord t _).setPc _
  | mark_exit_status s =>
    cases s <;> simp only [pcStep] at step <;> split at step <;> cases step
    · exact here.crash _
    · exact (here.setRecord t _).setPc _
    · exact here.crash _
    · exact (here.setRecord t _).setPc _
  | exit_check =>
    simp only [pcStep] at step
    split at step <;> cases step
    · exact here.setPc _
    · exact here.setPc _
  | exit_children =>
    simp only [pcStep] at step
    split at step <;> cases step
    · exact here.setPc _
    · exact here.setPc _
  | exit_status c =>
    simp only [pcStep] at step
    split at step
    · cases step
      exact here.crash _
    · split at step <;> cases step
      · exact here.setPc _
      · exact here.setPc _
  | exit_orphan c =>
    simp only [pcStep] at step
    split at step <;> cases step
    · exact (here.touch _ _ _).setPc _
    · exact here.setPc _
  | exit_remove c =>
    simp only [pcStep] at step
    split at step <;> cases step
    · exact here.crash _
    · exact (here.list_remove c).setPc _
  | exit_free c =>
    simp only [pcStep] at step
    split at step <;> cases step
    · exact here.crash _
    · exact (here.free c).setPc _

/-- `sema_up` wakes the first waiter. -/
theorem up_other (other : t ≠ u) : (sema_up k u).threads t = { k.threads t with
    pc := if (k.threads u).waiting_sema.waiters.head? = some t then wake (k.threads t).pc else (k.threads t).pc } := by
  unfold sema_up
  dsimp only
  cases waiters : (k.threads u).waiting_sema.waiters with
  | nil => simp [setThread_other _ other]
  | cons w rest =>
    by_cases woken : w = t
    · subst woken
      simp [setThread_other _ other]
    · simp [setPc_other (Ne.symm woken),setThread_other _ other,woken]

/-! ### Steps of others -/

/-- The thread that takes a step. -/
def actor : Event → Option Tid
  | .process_execute t _ => some t
  | .process_execute_fails t => some t
  | .load t _ => some t
  | .process_wait t _ => some t
  | .syscall_exit t _ => some t
  | .run t => some t
  | .reuse _ _ => none

/-- What the steps of others leave alone of a thread; one of them may wake it. -/
structure Beside (k k' : Kernel) (event : Event) (t : Tid) : Prop where
  child_thread_list : (k'.threads t).child_thread_list = (k.threads t).child_thread_list
  children : (k'.threads t).children = (k.threads t).children
  waiting_child : (k'.threads t).waiting_child = (k.threads t).waiting_child
  creator : (k'.threads t).creator = (k.threads t).creator
  pc : (k'.threads t).pc = (k.threads t).pc ∨ (k'.threads t).pc = wake (k.threads t).pc ∧
    ∃ u, event = .run u ∧ signals (k.threads u).pc = true ∧ (k.threads u).waiting_sema.waiters.head? = some t

theorem beside_same (same : k'.threads t = k.threads t) : Beside k k' event t :=
  ⟨by rw [same],by rw [same],by rw [same],by rw [same],.inl (by rw [same])⟩

theorem beside_minor (minor : Minor k k' u) (other : t ≠ u) : Beside k k' event t := by
  have same := minor.others t other
  exact ⟨by rw [same],by rw [same],by rw [same],by rw [same],.inl (by rw [same])⟩

theorem beside_up (other : t ≠ u) (signal : signals (k.threads u).pc = true)
    (up : k'.threads t = (sema_up k u).threads t) : Beside k k' (.run u) t := by
  rw [up_other other] at up
  refine ⟨by rw [up],by rw [up],by rw [up],by rw [up],?_⟩
  rw [up]
  dsimp only
  split
  · next waits => exact .inr ⟨rfl,u,rfl,signal,waits⟩
  · exact .inl rfl

theorem beside_run (other : t ≠ u) (here : (k.threads u).pc = pc) (step : pcStep k u pc = some k') :
    Beside k k' (.run u) t := by
  cases signal : signals pc with
  | false => exact beside_minor (pcStep_minor signal step) other
  | true =>
    have signalling : signals (k.threads u).pc = true := by rw [here,signal]
    cases pc with
    | loaded =>
      cases step
      exact beside_up other signalling (setPc_other other)
    | failed_up =>
      cases step
      exact beside_up other signalling (setThread_other _ other)
    | exit_schedule =>
      cases step
      exact beside_up other signalling (setPc_other other)
    | _ => cases signal

theorem step_beside (other : actor event ≠ some t) (known : ∀ u p, event = .process_execute u p → t ≠ k.next_tid)
    (step : Processes.step k event = some k') : Beside k k' event t := by
  have away : ∀ u, actor event = some u → t ≠ u := by
    rintro u acts rfl
    exact other acts
  cases (taken_of_step step).2 with
  | @process_execute u p here vacant =>
    exact beside_same (by simp [process_execute,setPc,setThread,known u p rfl,away u rfl])
  | process_execute_fails here => exact beside_same rfl
  | load here => exact beside_same (setThread_other _ (away _ rfl))
  | process_wait here =>
    unfold process_wait
    split
    · exact beside_same (setThread_other _ (away _ rfl))
    · exact beside_same (setPc_other (away _ rfl))
  | syscall_exit here created => exact beside_same (setThread_other _ (away _ rfl))
  | run taken => exact beside_run (away _ rfl) rfl taken
  | reuse vacant => exact beside_same rfl

/-- A step leaves `all_list` alone, appends a new thread, or takes one out that exits. -/
theorem step_all_list (step : Processes.step k event = some k') : k'.all_list = k.all_list ∨
    (∃ u p, event = .process_execute u p) ∧ k'.all_list = k.all_list ++ [k.next_tid] ∨
    ∃ u, event = .run u ∧ (k.threads u).pc = .exit_schedule ∧ k'.all_list = k.all_list.erase u := by
  cases (taken_of_step step).2 with
  | @process_execute u p here vacant => exact .inr (.inl ⟨⟨u,p,rfl⟩,rfl⟩)
  | process_execute_fails here => exact .inl rfl
  | load here => exact .inl rfl
  | process_wait here =>
    unfold process_wait
    split <;> exact .inl rfl
  | syscall_exit here created => exact .inl rfl
  | reuse vacant => exact .inl rfl
  | @run u _ taken =>
    generalize here : (k.threads u).pc = pc at taken
    cases signal : signals pc with
    | false => exact .inl (pcStep_minor signal taken).all_list
    | true =>
      cases pc with
      | loaded =>
        cases taken
        exact .inl (sema_up_rest k u).1
      | failed_up =>
        cases taken
        exact .inl (sema_up_rest k u).1
      | exit_schedule =>
        cases taken
        exact .inr (.inr ⟨u,rfl,here,rfl⟩)
      | _ => cases signal

/-! ### Stages of a thread -/

inductive Stage
  | idle
  | loading
  | loaded
  | refused
  | running
  | exiting
  | gone
deriving DecidableEq

def stage : Pc → Stage
  | .idle => .idle
  | .load => .loading
  | .loaded => .loaded
  | .failed_up => .refused
  | .mark .failed => .refused
  | .mark_find .failed _ _ => .refused
  | .mark_status .failed => .refused
  | .mark_exit_status .failed => .refused
  | .run _ => .running
  | .gone => .gone
  | _ => .exiting

/-- A step outside of calls stays in its stage or takes the thread towards its end. -/
theorem stage_pcStep (here : (k.threads t).pc = pc) (outside : ∀ a, pc ≠ .run a) (step : pcStep k t pc = some k') :
    pc = .loaded ∨ stage (k'.threads t).pc = stage pc ∨ stage (k'.threads t).pc = .exiting ∨
      stage (k'.threads t).pc = .gone := by
  have crashed : ∀ f, stage ((crash k t f).threads t).pc = stage pc := fun _ => congrArg stage here
  have moved : ∀ m pc', stage ((setPc m t pc').threads t).pc = stage pc' := fun m pc' => by rw [setPc_self]
  cases pc with
  | idle => cases step
  | load => cases step
  | gone => cases step
  | loaded => exact .inl rfl
  | run a => exact absurd rfl (outside a)
  | failed_up =>
    cases step
    exact .inr (.inr (.inl (by simp [stage])))
  | mark s =>
    simp only [pcStep] at step
    split at step <;> cases step
    · cases s <;> exact .inr (.inl (moved _ _))
    · exact .inr (.inl (crashed _))
    · exact .inr (.inl (crashed _))
  | mark_find s p e =>
    simp only [pcStep] at step
    split at step
    · split at step <;> cases step
      · cases s <;> exact .inr (.inl (moved _ _))
      · cases s <;> exact .inr (.inl (moved _ _))
      · exact .inr (.inl (crashed _))
      · exact .inr (.inl (crashed _))
    · cases step
      exact .inr (.inl (crashed _))
  | mark_status s =>
    simp only [pcStep] at step
    split at step <;> cases step
    · exact .inr (.inl (crashed _))
    · cases s <;> exact .inr (.inl (moved _ _))
  | mark_exit_status s =>
    cases s <;> simp only [pcStep] at step <;> split at step <;> cases step
    · exact .inr (.inl (crashed _))
    · exact .inr (.inl (moved _ _))
    · exact .inr (.inl (crashed _))
    · exact .inr (.inl (moved _ _))
  | exit_check =>
    simp only [pcStep] at step
    split at step <;> cases step <;> exact .inr (.inl (moved _ _))
  | exit_children =>
    simp only [pcStep] at step
    split at step <;> cases step <;> exact .inr (.inl (moved _ _))
  | exit_status e =>
    simp only [pcStep] at step
    split at step
    · cases step
      exact .inr (.inl (crashed _))
    · split at step <;> cases step <;> exact .inr (.inl (moved _ _))
  | exit_orphan e =>
    simp only [pcStep] at step
    split at step <;> cases step <;> exact .inr (.inl (moved _ _))
  | exit_remove e =>
    simp only [pcStep] at step
    split at step <;> cases step
    · exact .inr (.inl (crashed _))
    · exact .inr (.inl (moved _ _))
  | exit_free e =>
    simp only [pcStep] at step
    split at step <;> cases step
    · exact .inr (.inl (crashed _))
    · exact .inr (.inl (moved _ _))
  | exit_schedule =>
    cases step
    exact .inr (.inr (.inr (by simp [stage])))

/-! ### Calls -/

/-- The call that a process is in, and the child it is about. -/
def call : Pc → Option (Call × Tid)
  | .run (.execute_lookup c _) => some (.execute,c)
  | .run (.execute_record c _) => some (.execute,c)
  | .run (.execute_adopt c _) => some (.execute,c)
  | .run (.execute_push c) => some (.execute,c)
  | .run (.execute_sema c _) => some (.execute,c)
  | .run (.execute_down c _ _) => some (.execute,c)
  | .run (.execute_check c) => some (.execute,c)
  | .run (.wait_find c _) => some (.wait,c)
  | .run (.wait_check c) => some (.wait,c)
  | .run (.wait_lookup c _) => some (.wait,c)
  | .run (.wait_parent c _) => some (.wait,c)
  | .run (.wait_record c _ _) => some (.wait,c)
  | .run (.wait_down c _ _ _) => some (.wait,c)
  | .run (.collect_status f c) => some (f,c)
  | .run (.collect_remove f c _) => some (f,c)
  | .run (.collect_free f c _) => some (f,c)
  | _ => none

/-- What a step of a call does in an orderly run, where no pointer leads astray. -/
inductive Goes (k : Kernel) (t : Tid) : Activity → Kernel → Prop
  | execute_walk {c : Tid} {e e' : Cursor} (go : get_thread_by_tid k c e = .go e') :
      Goes k t (.execute_lookup c e) (setPc k t (.run (.execute_lookup c e')))
  | execute_met {c : Tid} {e : Cursor} :
      Goes k t (.execute_lookup c e) (setPc k t (.run (.execute_record c (k.threads c).page)))
  | execute_record {c : Tid} {new : Page} (v : ChildThread) :
      Goes k t (.execute_record c new) (setPc (setRecord k c v) t (.run (.execute_adopt c new)))
  | execute_adopt {c : Tid} {new : Page} (other : c ≠ t) (parent : Pointer) :
      Goes k t (.execute_adopt c new)
        (setPc (setThread k c { k.threads c with parent_thread := parent }) t (.run (.execute_push c)))
  | execute_push {c : Tid} :
      Goes k t (.execute_push c) (setThread k t { k.threads t with
        child_thread_list := (k.threads t).child_thread_list ++ [c], pc := .run (.execute_sema c .begin) })
  | sema_walk {c : Tid} {e e' : Cursor} (go : get_thread_by_tid k c e = .go e') :
      Goes k t (.execute_sema c e) (setPc k t (.run (.execute_sema c e')))
  | sema_met {c : Tid} {e : Cursor} :
      Goes k t (.execute_sema c e) (setPc k t (.run (.execute_down c (k.threads c).page false)))
  | execute_queue {c : Tid} {child : Page} (starts : starting (k.threads c).pc = true) :
      Goes k t (.execute_down c child false) (setPc (semaQueue k t child) t (.run (.execute_down c child true)))
  | execute_take {c : Tid} {child : Page} :
      Goes k t (.execute_down c child false) (setPc (semaTake k child) t (.run (.execute_check c)))
  | execute_refuses {c : Tid} : Goes k t (.execute_check c) (setPc k t (.run (.collect_status .execute c)))
  | execute_gives {c : Tid} (loaded : (k.threads c).load = some true) (listed : c ∈ (k.threads t).child_thread_list) :
      Goes k t (.execute_check c)
        (execute_returns (setThread k t { k.threads t with children := (k.threads t).children ++ [c] }) t c c)
  | find_walk {c : Tid} {e e' : Cursor} (go : find_child_by_tid k (k.threads t).child_thread_list c e = .go e') :
      Goes k t (.wait_find c e) (setPc k t (.run (.wait_find c e')))
  | find_met {c : Tid} {e : Cursor} (listed : c ∈ (k.threads t).child_thread_list) :
      Goes k t (.wait_find c e) (setPc k t (.run (.wait_check c)))
  | find_missed {c : Tid} {e : Cursor} (unlisted : c ∉ (k.threads t).child_thread_list) :
      Goes k t (.wait_find c e) (setPc k t (.run (.wait_lookup c .begin)))
  | check_dying {c : Tid} (listed : c ∈ (k.threads t).child_thread_list) :
      Goes k t (.wait_check c) (setPc k t (.run (.collect_status .wait c)))
  | check_alive {c : Tid} (live : c ∈ k.all_list) :
      Goes k t (.wait_check c) (setPc k t (.run (.wait_lookup c .begin)))
  | lookup_walk {c : Tid} {e e' : Cursor} (go : get_thread_by_tid k c e = .go e') :
      Goes k t (.wait_lookup c e) (setPc k t (.run (.wait_lookup c e')))
  | lookup_met {c : Tid} {e : Cursor} (live : c ∈ k.all_list) :
      Goes k t (.wait_lookup c e) (setPc k t (.run (.wait_parent c (k.threads c).page)))
  | lookup_missed {c : Tid} : Goes k t (.wait_lookup c .stop) (wait_returns k t c (-1))
  | parent_mine {c : Tid} {child : Page} (listed : c ∈ (k.threads t).child_thread_list) :
      Goes k t (.wait_parent c child) (setPc k t (.run (.wait_record c child .begin)))
  | parent_other {c : Tid} {child : Page}
      (stranger : c ∈ k.all_list → (k.threads c).parent_thread ≠ .page (k.threads t).page) :
      Goes k t (.wait_parent c child) (wait_returns k t c (-1))
  | record_walk {c : Tid} {child : Page} {e e' : Cursor}
      (go : find_child_by_tid k (k.threads t).child_thread_list c e = .go e') :
      Goes k t (.wait_record c child e) (setPc k t (.run (.wait_record c child e')))
  | record_met {c : Tid} {child : Page} {e : Cursor} :
      Goes k t (.wait_record c child e)
        (setPc (setThread k t { k.threads t with waiting_child := c }) t (.run (.wait_down c child true false)))
  | wait_queue {c : Tid} {child : Page} (live : c ∈ k.all_list) :
      Goes k t (.wait_down c child true false) (setPc (semaQueue k t child) t (.run (.wait_down c child true true)))
  | wait_take {c : Tid} {child : Page} (left : c ∉ k.all_list) :
      Goes k t (.wait_down c child true false)
        (setPc (setThread (semaTake k child) t { (semaTake k child).threads t with waiting_child := 0 }) t
          (.run (.collect_status .wait c)))
  | collect_status {f : Call} {c : Tid} (ret : Int) :
      Goes k t (.collect_status f c) (setPc k t (.run (.collect_remove f c ret)))
  | collect_remove {f : Call} {c : Tid} {ret : Int} (listed : c ∈ (k.threads t).child_thread_list) :
      Goes k t (.collect_remove f c ret) (setPc (list_remove k t c) t (.run (.collect_free f c ret)))
  | collect_refused {c : Tid} (lost : (k.threads c).load = some false) (unlisted : c ∉ (k.threads t).child_thread_list) :
      Goes k t (.collect_free .execute c (-1)) (execute_returns (free k c) t c (-1))
  | collect_waited {c : Tid} {ret : Int} (exited : (k.threads c).exited = some ret)
      (unlisted : c ∉ (k.threads t).child_thread_list) :
      Goes k t (.collect_free .wait c ret) (wait_returns (free k c) t c ret)

theorem listed_mine (mine : (k.threads c).creator = t) (listed : (view k c).listed) : c ∈ (k.threads t).child_thread_list :=
  mine ▸ listed
theorem unlisted_mine (mine : (k.threads c).creator = t) (unlisted : ¬ (view k c).listed) :
    c ∉ (k.threads t).child_thread_list :=
  fun listed => unlisted (show c ∈ (k.threads (k.threads c).creator).child_thread_list from mine ▸ listed)

/-- Whether an activity collects a record. -/
def collects : Activity → Bool
  | .collect_status _ _ => true
  | .collect_remove _ _ _ => true
  | .collect_free _ _ _ => true
  | _ => false

theorem goes_collect (inv : Inv k) (here : (k.threads t).pc = .run a) (called : collects a = true)
    (step : activityStep k t a = some k') : Goes k t a k' := by
  cases a with
  | collect_status f c =>
    obtain ⟨r,about,-,-,-,joint⟩ := collect_role f c
    obtain ⟨mine,pair⟩ := pair_at inv here about
    have allocated : (k.child_threads c).freed = false := (joint _ pair.joint).1.freed
    simp only [activityStep,allocated,Bool.false_eq_true,if_false,Option.some.injEq] at step
    exact step ▸ .collect_status _
  | collect_remove f c ret =>
    obtain ⟨r,-,about,-,-,joint⟩ := collect_role f c
    obtain ⟨mine,pair⟩ := pair_at inv here (about ret)
    have kept : Kept (view k c) := (joint _ pair.joint).1
    have allocated : (k.child_threads c).freed = false := kept.freed
    simp only [activityStep,allocated,Bool.false_eq_true,if_false,Option.some.injEq] at step
    exact step ▸ .collect_remove (listed_mine mine kept.listed)
  | collect_free f c ret =>
    obtain ⟨mine,pair⟩ := pair_at inv here rfl
    obtain ⟨unlisted,-,allocated⟩ := pair.joint
    change (k.child_threads c).freed = false at allocated
    have locally := local_at inv here
    simp only [activityStep,allocated,Bool.false_eq_true,if_false,Option.some.injEq] at step
    cases f with
    | execute =>
      obtain ⟨lost,rfl⟩ := locally
      exact step ▸ .collect_refused lost (unlisted_mine mine unlisted)
    | wait => exact step ▸ .collect_waited locally (unlisted_mine mine unlisted)
  | _ => cases called

theorem goes_execute (inv : Inv k) (here : (k.threads t).pc = .run a) (closedFirst : ClosedFirst k t)
    (called : call (.run a) = some (.execute,c)) (step : activityStep k t a = some k') : Goes k t a k' := by
  cases a with
  | execute_lookup c e =>
    obtain ⟨mine,pair⟩ := pair_at inv here rfl
    rcases survey inv pair.joint.1.live (local_at inv here) with ⟨e',go,-⟩ | found
    · simp only [activityStep,go,Option.some.injEq] at step
      exact step ▸ .execute_walk go
    · simp only [activityStep,found,Option.some.injEq] at step
      exact step ▸ .execute_met
  | execute_record c new =>
    obtain ⟨mine,pair⟩ := pair_at inv here rfl
    obtain ⟨rfl,sole⟩ := local_at inv here
    have live : c ∈ k.all_list := pair.joint.1.live
    simp only [activityStep,occupant_sole sole live,Option.some.injEq] at step
    exact step ▸ .execute_record _
  | execute_adopt c new =>
    obtain ⟨mine,pair⟩ := pair_at inv here rfl
    obtain ⟨rfl,sole⟩ := local_at inv here
    have live : c ∈ k.all_list := pair.joint.1.live
    have nonzero : t ≠ 0 := (inv.sound.owns t c .unadopted (here ▸ rfl)).2
    have other : c ≠ t := fun same => creator_ne inv.sound (c := c) (mine ▸ nonzero) (mine.trans same.symm)
    simp only [activityStep,occupant_sole sole live,Option.some.injEq] at step
    exact step ▸ .execute_adopt other _
  | execute_push c =>
    cases step
    exact .execute_push
  | execute_sema c e =>
    obtain ⟨mine,pair⟩ := pair_at inv here rfl
    rcases survey inv pair.joint.2.1 (local_at inv here) with ⟨e',go,-⟩ | found
    · simp only [activityStep,go,Option.some.injEq] at step
      exact step ▸ .sema_walk go
    · simp only [activityStep,found,Option.some.injEq] at step
      exact step ▸ .sema_met
  | execute_down c child b =>
    cases b with
    | true => cases step
    | false =>
      obtain ⟨mine,pair⟩ := pair_at inv here rfl
      obtain ⟨rfl,sole⟩ := local_at inv here
      simp only [activityStep] at step
      split at step
      · next zero =>
        cases step
        refine .execute_queue ?_
        by_contra started
        rw [Bool.not_eq_true] at started
        by_cases live : c ∈ k.all_list
        · have value := pair.signals.value live
          change (k.threads c).waiting_sema.value = if starting (k.threads c).pc = false ∧ true = true then 1 else 0 at value
          rw [semaValue_live sole live,value,if_pos ⟨started,rfl⟩] at zero
          cases zero
        · rw [semaValue_left sole live] at zero
          exact Nat.ne_of_gt (pair.signals.stale live rfl) zero
      · cases step
        exact .execute_take
  | execute_check c =>
    obtain ⟨mine,pair⟩ := pair_at inv here rfl
    have kept : Kept (view k c) := pair.joint.1
    have allocated : (k.child_threads c).freed = false := kept.freed
    have first : (view k c).load = some false → closed (view k c).pc = true := by
      refine closedFirst c ?_
      rw [here]
      rfl
    simp only [activityStep,allocated,Bool.false_eq_true,if_false] at step
    rcases checked pair first with ⟨dying,-,-⟩ | ⟨alive,loaded⟩
    · change (k.child_threads c).status = .THREAD_DYING at dying
      rw [if_pos dying,Option.some.injEq] at step
      exact step ▸ .execute_refuses
    · change (k.child_threads c).status ≠ .THREAD_DYING at alive
      rw [if_neg alive,Option.some.injEq] at step
      exact step ▸ .execute_gives loaded (listed_mine mine kept.listed)
  | collect_status f c => exact goes_collect inv here rfl step
  | collect_remove f c ret => exact goes_collect inv here rfl step
  | collect_free f c ret => exact goes_collect inv here rfl step
  | _ => cases called

theorem goes_wait (inv : Inv k) (here : (k.threads t).pc = .run a)
    (called : call (.run a) = some (.wait,c)) (step : activityStep k t a = some k') : Goes k t a k' := by
  cases a with
  | wait_find c e =>
    rcases search inv (local_at inv here) with ⟨e',go,-⟩ | ⟨found,listed⟩ | ⟨missing,unlisted⟩
    · simp only [activityStep,go,Option.some.injEq] at step
      exact step ▸ .find_walk go
    · simp only [activityStep,found,Option.some.injEq] at step
      exact step ▸ .find_met listed
    · simp only [activityStep,missing,Option.some.injEq] at step
      exact step ▸ .find_missed unlisted
  | wait_check c =>
    obtain ⟨mine,pair⟩ := pair_at inv here rfl
    have given : Given (view k c) := pair.joint
    have allocated : (k.child_threads c).freed = false := given.freed
    simp only [activityStep,allocated,Bool.false_eq_true,if_false] at step
    split at step
    · cases step
      exact .check_dying (listed_mine mine given.listed)
    · next alive =>
      cases step
      refine .check_alive ?_
      by_contra left
      refine alive (given.closed ?_).1
      rw [pair.fate.leaves left]
      rfl
  | wait_lookup c e =>
    rcases enquiry c (local_at inv here).1 with ⟨e',go,-⟩ | ⟨found,live,-⟩ | ⟨missing,rfl⟩
    · simp only [activityStep,go,Option.some.injEq] at step
      exact step ▸ .lookup_walk go
    · simp only [activityStep,found,Option.some.injEq] at step
      exact step ▸ .lookup_met live
    · simp only [activityStep,missing,Option.some.injEq] at step
      exact step ▸ .lookup_missed
  | wait_parent c child =>
    obtain ⟨rfl,sole,acknowledged,-⟩ := local_at inv here
    by_cases live : c ∈ k.all_list
    · simp only [activityStep,occupant_sole sole live] at step
      split at step
      · next parent =>
        cases step
        exact .parent_mine (acknowledged live parent)
      · next parent =>
        cases step
        exact .parent_other fun _ => parent
    · simp only [activityStep,occupant_left sole live,Option.some.injEq] at step
      exact step ▸ .parent_other fun isLive => absurd isLive live
  | wait_record c child e =>
    obtain ⟨mine,pair⟩ := pair_at inv here rfl
    have given : Given (view k c) := pair.joint
    rcases search inv (local_at inv here).2.2 with ⟨e',go,-⟩ | ⟨found,-⟩ | ⟨-,unlisted⟩
    · simp only [activityStep,go,Option.some.injEq] at step
      exact step ▸ .record_walk go
    · simp only [activityStep,found,Option.some.injEq] at step
      exact step ▸ .record_met
    · exact absurd (listed_mine mine given.listed) unlisted
  | wait_down c child found b =>
    cases b with
    | true => cases step
    | false =>
      obtain ⟨mine,pair⟩ := pair_at inv here rfl
      obtain ⟨rfl,sole,rfl⟩ := local_at inv here
      simp only [activityStep,if_true] at step
      split at step
      · next zero =>
        cases step
        refine .wait_queue ?_
        by_contra left
        rw [semaValue_left sole left] at zero
        exact Nat.ne_of_gt (pair.signals.stale left rfl) zero
      · next value =>
        cases step
        refine .wait_take fun live => value ?_
        have calm := pair.signals.value live
        rw [semaValue_live sole live]
        simpa [Role.pending,view] using calm
  | collect_status f c => exact goes_collect inv here rfl step
  | collect_remove f c ret => exact goes_collect inv here rfl step
  | collect_free f c ret => exact goes_collect inv here rfl step
  | _ => cases called

theorem goes_of_step {f : Call} (inv : Inv k) (here : (k.threads t).pc = .run a) (closedFirst : ClosedFirst k t)
    (called : call (.run a) = some (f,c)) (step : activityStep k t a = some k') : Goes k t a k' := by
  cases f with
  | execute => exact goes_execute inv here closedFirst called step
  | wait => exact goes_wait inv here called step

/-! ### Turns of a walk -/

section
variable {size : List Tid → Nat} {list : List Tid} {e : Cursor} {f : Tid}

/-- The turns that a walk has left, by the size of the rest of the list. -/
def turns (size : List Tid → Nat) (list : List Tid) : Cursor → Nat
  | .begin => size list + 1
  | .elem f => size (list.dropWhile (· ≠ f))
  | .stop => 0

theorem rest_split {pre : List Tid} (post : List Tid) (fresh : f ∉ pre) : (pre ++ f :: post).dropWhile (· ≠ f) = f :: post := by
  rw [List.dropWhile_append_of_pos]
  · simp
  · intro x member
    simp only [ne_eq,decide_not,Bool.not_eq_eq_eq_not,Bool.not_true,decide_eq_false_iff_not]
    rintro rfl
    exact fresh member

/-- The list around one of its elements. -/
theorem split_once (once : list.Nodup) (member : f ∈ list) : ∃ pre post, list = pre ++ f :: post ∧ f ∉ pre := by
  obtain ⟨pre,post,rfl⟩ := List.append_of_mem member
  refine ⟨pre,post,rfl,?_⟩
  intro inside
  exact (List.nodup_append.mp once).2.2 f inside f (by simp) rfl

theorem turns_head (size : List Tid → Nat) (list : List Tid) :
    turns size list (cursorOf list.head?) < turns size list .begin := by
  cases list with
  | nil => simp [turns,cursorOf]
  | cons x rest => simp [turns,cursorOf]

theorem turns_after (once : list.Nodup) (member : f ∈ list) (smaller : ∀ post, size post < size (f :: post)) :
    turns size list (cursorOf (after f list)) < turns size list (.elem f) := by
  obtain ⟨pre,post,rfl,fresh⟩ := split_once once member
  rw [after_split fresh]
  simp only [turns,rest_split _ fresh]
  cases post with
  | nil =>
    have less := smaller []
    simp only [cursorOf,List.head?_nil]
    omega
  | cons x rest =>
    have apart : x ∉ pre ++ [f] := by
      intro inside
      have flat : (pre ++ [f]) ++ x :: rest = pre ++ f :: x :: rest := by simp
      rw [← flat] at once
      exact (List.nodup_append.mp once).2.2 x inside x (by simp) rfl
    have flat : pre ++ f :: x :: rest = (pre ++ [f]) ++ x :: rest := by simp
    simp only [cursorOf,List.head?_cons]
    rw [flat,rest_split _ apart]
    exact smaller (x :: rest)

theorem idxOf_smaller (differ : f ≠ c) (post : List Tid) : post.idxOf c < (f :: post).idxOf c := by
  rw [List.idxOf_cons_ne post differ]
  exact Nat.lt_succ_self _

theorem turns_get {e' : Cursor} (size : List Tid → Nat) (inv : Inv k)
    (smaller : ∀ f, f ≠ c → ∀ post, size post < size (f :: post))
    (go : get_thread_by_tid k c e = .go e') : turns size k.all_list e' < turns size k.all_list e := by
  cases e with
  | begin =>
    cases go
    exact turns_head size k.all_list
  | elem f =>
    simp only [get_thread_by_tid] at go
    split at go
    · cases go
    · next member =>
      split at go
      · cases go
      · next differ =>
        cases go
        exact turns_after inv.sound.once (not_not.mp member) (smaller f differ)
  | stop => cases go

theorem turns_find {e' : Cursor} (inv : Inv k) (ahead : Ahead (k.threads t).child_thread_list c e)
    (go : find_child_by_tid k (k.threads t).child_thread_list c e = .go e') :
    turns List.length (k.threads t).child_thread_list e' < turns List.length (k.threads t).child_thread_list e := by
  cases e with
  | begin =>
    cases go
    exact turns_head List.length _
  | elem f =>
    have member := ahead_mem ahead
    simp only [find_child_by_tid,(listed_recorded inv member).1,Bool.false_eq_true,if_false] at go
    split at go
    · cases go
    · cases go
      rw [list_next_listed inv member]
      exact turns_after (inv.sound.distinct t) member fun post => by simp
  | stop => cases go

theorem turns_erase {a : Tid} (once : list.Nodup) (standing : ∀ f, e = .elem f → f ∈ list) (clear : e ≠ .elem a)
    (shrinks : ∀ l, size (l.erase a) ≤ size l) : turns size (list.erase a) e ≤ turns size list e := by
  cases e with
  | begin => exact Nat.succ_le_succ (shrinks list)
  | elem f =>
    have differ : f ≠ a := by
      rintro rfl
      exact clear rfl
    obtain ⟨pre,post,rfl,fresh⟩ := split_once once (standing f rfl)
    simp only [turns,rest_split _ fresh]
    by_cases member : a ∈ pre
    · have same := rest_split post fun inside => fresh (List.mem_of_mem_erase (b := a) inside)
      exact Nat.le_of_eq (congrArg size (by rw [List.erase_append_left _ member,same]))
    · rw [List.erase_append_right _ member,List.erase_cons_tail (by simpa using differ),rest_split _ fresh]
      have shrunk := shrinks (f :: post)
      rwa [List.erase_cons_tail (by simpa using differ)] at shrunk
  | stop => exact Nat.le_refl 0

theorem length_append (x : Tid) (once : list.Nodup) (standing : ∀ f, e = .elem f → f ∈ list) :
    turns List.length (list ++ [x]) e ≤ turns List.length list e + 1 := by
  cases e with
  | begin => simp [turns]
  | elem f =>
    obtain ⟨pre,post,rfl,fresh⟩ := split_once once (standing f rfl)
    have flat : (pre ++ f :: post) ++ [x] = pre ++ f :: (post ++ [x]) := by simp
    simp only [turns,flat,rest_split _ fresh]
    simp
  | stop => simp [turns]

theorem idxOf_append (x : Tid) (once : list.Nodup) (member : c ∈ list) (ahead : Ahead list c e) :
    turns (·.idxOf c) (list ++ [x]) e = turns (·.idxOf c) list e := by
  cases e with
  | begin => simp only [turns,List.idxOf_append_of_mem member]
  | elem f =>
    obtain ⟨pre,post,rfl,passed⟩ := ahead
    have fresh : f ∉ pre := by
      intro inside
      exact (List.nodup_append.mp once).2.2 f inside f (by simp) rfl
    have within : c ∈ f :: post := (List.mem_append.mp member).resolve_left passed
    have flat : (pre ++ f :: post) ++ [x] = pre ++ f :: (post ++ [x]) := by simp
    simp only [turns,flat,rest_split _ fresh]
    rw [← List.cons_append,List.idxOf_append_of_mem within]
  | stop => rfl

theorem idxOf_erase {a : Tid} (differ : a ≠ c) (list : List Tid) : (list.erase a).idxOf c ≤ list.idxOf c := by
  induction list with
  | nil => simp
  | cons x rest ih =>
    by_cases same : x = a
    · subst same
      rw [List.erase_cons_head]
      exact Nat.le_of_lt (idxOf_smaller differ rest)
    · rw [List.erase_cons_tail (by simpa using same)]
      by_cases found : x = c
      · subst found
        simp
      · rw [List.idxOf_cons_ne _ found,List.idxOf_cons_ne _ found]
        exact Nat.succ_le_succ ih
end

/-! ### Steps left -/

/-- The steps that a call has left, with those of nobody else. -/
def left (k : Kernel) (t : Tid) : Nat :=
  let all := k.all_list
  let own := (k.threads t).child_thread_list
  match (k.threads t).pc with
  | .run (.execute_lookup c e) => turns (·.idxOf c) all e + all.idxOf c + 13
  | .run (.execute_record c _) => all.idxOf c + 12
  | .run (.execute_adopt c _) => all.idxOf c + 11
  | .run (.execute_push c) => all.idxOf c + 10
  | .run (.execute_sema c e) => turns (·.idxOf c) all e + 8
  | .run (.execute_down c _ false) => if starting (k.threads c).pc then 7 else 5
  | .run (.execute_check _) => 4
  | .run (.wait_find _ e) => turns List.length own e + all.length + own.length + 16
  | .run (.wait_check _) => all.length + own.length + 15
  | .run (.wait_lookup _ e) => turns List.length all e + own.length + 12
  | .run (.wait_parent _ _) => own.length + 11
  | .run (.wait_record _ _ e) => turns List.length own e + 8
  | .run (.wait_down c _ _ false) => if c ∈ all then 7 else 5
  | .run (.execute_down _ _ true) => 6
  | .run (.wait_down _ _ _ true) => 6
  | .run (.collect_status _ _) => 3
  | .run (.collect_remove _ _ _) => 2
  | .run (.collect_free _ _ _) => 1
  | _ => 0

/-- A call returns. -/
def Returned (k k' : Kernel) (t c : Tid) : Call → Prop
  | .execute => ∃ x, k'.executes = k.executes ++ [x] ∧ x.caller = t ∧ x.child = c
  | .wait => ∃ x, k'.waits = k.waits ++ [x] ∧ x.caller = t ∧ x.child = c

theorem left_goes (inv : Inv k) (here : (k.threads t).pc = .run a) (goes : Goes k t a k') :
    left k' t < left k t := by
  cases goes with
  | execute_walk go =>
    have fewer := turns_get (·.idxOf _) inv (fun f differ => idxOf_smaller differ) go
    simp only [left,here,setPc_self,setPc_all_list]
    omega
  | execute_met =>
    simp only [left,here,setPc_self,setPc_all_list]
    omega
  | execute_record v =>
    simp only [left,here,setPc_self,setPc_all_list,setRecord_all_list]
    omega
  | execute_adopt other parent =>
    simp only [left,here,setPc_self,setPc_all_list,setThread_all_list]
    omega
  | execute_push =>
    simp only [left,here,setThread_self,setThread_all_list,turns]
    omega
  | sema_walk go =>
    have fewer := turns_get (·.idxOf _) inv (fun f differ => idxOf_smaller differ) go
    simp only [left,here,setPc_self,setPc_all_list]
    omega
  | sema_met =>
    simp only [left,here,setPc_self,setPc_all_list]
    split <;> omega
  | execute_queue starts =>
    simp only [left,here,setPc_self,starts,if_true]
    omega
  | execute_take =>
    simp only [left,here,setPc_self]
    split <;> omega
  | execute_refuses =>
    simp only [left,here,setPc_self]
    omega
  | execute_gives loaded listed =>
    simp only [left,here,execute_returns,setPc_self]
    omega
  | find_walk go =>
    have fewer := turns_find inv (local_at inv here) go
    simp only [left,here,setPc_self,setPc_all_list]
    omega
  | find_met listed =>
    simp only [left,here,setPc_self,setPc_all_list]
    omega
  | find_missed unlisted =>
    simp only [left,here,setPc_self,setPc_all_list,turns]
    omega
  | check_dying listed =>
    simp only [left,here,setPc_self]
    omega
  | check_alive live =>
    simp only [left,here,setPc_self,setPc_all_list,turns]
    omega
  | lookup_walk go =>
    have fewer := turns_get List.length inv (fun f differ post => by simp) go
    simp only [left,here,setPc_self,setPc_all_list]
    omega
  | lookup_met live =>
    simp only [left,here,setPc_self]
    omega
  | lookup_missed =>
    simp only [left,here,wait_returns,setThread_self]
    omega
  | parent_mine listed =>
    simp only [left,here,setPc_self,turns]
    omega
  | parent_other stranger =>
    simp only [left,here,wait_returns,setThread_self]
    omega
  | record_walk go =>
    have fewer := turns_find inv (local_at inv here).2.2 go
    simp only [left,here,setPc_self]
    omega
  | record_met =>
    simp only [left,here,setPc_self]
    split <;> omega
  | wait_queue live =>
    simp only [left,here,setPc_self,live,if_true]
    omega
  | wait_take gone =>
    simp only [left,here,setPc_self,gone,if_false]
    omega
  | collect_status ret =>
    simp only [left,here,setPc_self]
    omega
  | collect_remove listed =>
    simp only [left,here,setPc_self]
    omega
  | collect_refused lost unlisted =>
    simp only [left,here,execute_returns,setPc_self]
    omega
  | collect_waited exited unlisted =>
    simp only [left,here,wait_returns,setThread_self]
    omega

theorem call_pc {f : Call} (called : call pc = some (f,c)) : ∃ a, pc = .run a := by
  cases pc with
  | run a => exact ⟨a,rfl⟩
  | _ => cases called

/-- A thread in a call takes only the steps of the call. -/
theorem call_actor {f : Call} (called : call (k.threads t).pc = some (f,c)) (own : actor event = some t)
    (step : Processes.step k event = some k') : event = .run t := by
  have busy : ∀ u pc, actor event = some u → (k.threads u).pc = pc → call pc ≠ none := by
    intro u pc acts here idle
    rw [own] at acts
    cases acts
    rw [here,idle] at called
    cases called
  cases (taken_of_step step).2 with
  | run taken =>
    cases own
    rfl
  | process_execute here vacant => exact absurd rfl (busy _ _ rfl here)
  | process_execute_fails here => exact absurd rfl (busy _ _ rfl here)
  | load here => exact absurd rfl (busy _ _ rfl here)
  | process_wait here => exact absurd rfl (busy _ _ rfl here)
  | syscall_exit here created => exact absurd rfl (busy _ _ rfl here)
  | reuse vacant => cases own

/-- A call goes on until it returns. -/
theorem call_goes {f : Call} (goes : Goes k t a k') (called : call (.run a) = some (f,c)) :
    call (k'.threads t).pc = some (f,c) ∨ Returned k k' t c f := by
  cases goes with
  | execute_gives loaded listed =>
    cases called
    exact .inr ⟨_,rfl,rfl,rfl⟩
  | lookup_missed =>
    cases called
    exact .inr ⟨_,rfl,rfl,rfl⟩
  | parent_other stranger =>
    cases called
    exact .inr ⟨_,rfl,rfl,rfl⟩
  | collect_refused lost unlisted =>
    cases called
    exact .inr ⟨_,rfl,rfl,rfl⟩
  | collect_waited exited unlisted =>
    cases called
    exact .inr ⟨_,rfl,rfl,rfl⟩
  | _ =>
    rw [← called]
    exact .inl (by simp [call])

/-- A step of the caller brings a call nearer to its end, or ends it. -/
theorem call_own {f : Call} (inv : Inv k) (orderly : OrderlyRun k t) (called : call (k.threads t).pc = some (f,c))
    (step : Processes.step k (.run t) = some k') :
    left k' t < left k t ∧ (call (k'.threads t).pc = some (f,c) ∨ Returned k k' t c f) := by
  obtain ⟨a,here⟩ := call_pc called
  rw [here] at called
  cases (taken_of_step step).2 with
  | run taken =>
  rw [here] at taken
  have goes := goes_of_step inv here orderly.2.2.1 called taken
  exact ⟨left_goes inv here goes,call_goes goes called⟩

end Pintos.Calls
