import Pintos.Calls

/-!
What `process_execute` returns, in orderly runs: the tid of a child whose program was
loaded, with a record that `process_wait` can collect, or -1 and no record. A call
that has not returned has a step to take, or waits for a child that has one.
-/
namespace Pintos.Executions
open Pintos.Machines Pintos.Processes Pintos.Protocol Pintos.Calls
set_option linter.unusedSimpArgs false

variable {k k' m : Kernel} {t c u : Tid} {pc : Pc} {a : Activity} {event : Event}

/-! ### Results -/

/-- A result that agrees with the fate of the program. -/
def Answers (x : Executed) : Prop :=
  x.load = some true ∧ x.ret = x.child ∧ x.recorded = true ∨ x.load = some false ∧ x.ret = -1 ∧ x.recorded = false

structure SameLogs (k k' : Kernel) : Prop where
  executes : k'.executes = k.executes
  waits : k'.waits = k.waits

theorem sameLogs_up (k : Kernel) (t : Tid) : SameLogs k (sema_up k t) := by
  unfold sema_up
  dsimp only
  split <;> exact ⟨rfl,rfl⟩
theorem sameLogs_take (k : Kernel) (p : Page) : SameLogs k (semaTake k p) := by
  unfold semaTake
  split <;> exact ⟨rfl,rfl⟩
theorem sameLogs_queue (k : Kernel) (t : Tid) (p : Page) : SameLogs k (semaQueue k t p) := by
  unfold semaQueue
  split <;> exact ⟨rfl,rfl⟩

/-- Only a call that returns writes a result. -/
theorem sameLogs_pcStep (quiet : ∀ a, pc ≠ .run a) (step : pcStep k t pc = some k') : SameLogs k k' := by
  cases pc with
  | idle => cases step
  | load => cases step
  | gone => cases step
  | run a => exact absurd rfl (quiet a)
  | loaded =>
    cases step
    exact ⟨(sameLogs_up k t).executes,(sameLogs_up k t).waits⟩
  | failed_up =>
    cases step
    exact ⟨(sameLogs_up k t).executes,(sameLogs_up k t).waits⟩
  | exit_schedule =>
    cases step
    exact ⟨(sameLogs_up k t).executes,(sameLogs_up k t).waits⟩
  | mark s =>
    simp only [pcStep] at step
    split at step <;> cases step <;> exact ⟨rfl,rfl⟩
  | mark_find s p e =>
    simp only [pcStep] at step
    split at step
    · split at step <;> cases step <;> exact ⟨rfl,rfl⟩
    · cases step
      exact ⟨rfl,rfl⟩
  | mark_status s =>
    simp only [pcStep] at step
    split at step <;> cases step <;> exact ⟨rfl,rfl⟩
  | mark_exit_status s =>
    cases s <;> simp only [pcStep] at step <;> split at step <;> cases step <;> exact ⟨rfl,rfl⟩
  | exit_check =>
    simp only [pcStep] at step
    split at step <;> cases step <;> exact ⟨rfl,rfl⟩
  | exit_children =>
    simp only [pcStep] at step
    split at step <;> cases step <;> exact ⟨rfl,rfl⟩
  | exit_status e =>
    simp only [pcStep] at step
    split at step
    · cases step
      exact ⟨rfl,rfl⟩
    · split at step <;> cases step <;> exact ⟨rfl,rfl⟩
  | exit_orphan e =>
    simp only [pcStep] at step
    split at step <;> cases step <;> exact ⟨rfl,rfl⟩
  | exit_remove e =>
    simp only [pcStep] at step
    split at step <;> cases step <;> exact ⟨rfl,rfl⟩
  | exit_free e =>
    simp only [pcStep] at step
    split at step <;> cases step <;> exact ⟨rfl,rfl⟩

/-- What a step of a call writes. -/
theorem executes_goes (goes : Goes k t a k') : k'.executes = k.executes ∨ ∃ x, k'.executes = k.executes ++ [x] ∧ Answers x := by
  cases goes with
  | execute_gives loaded listed =>
    refine .inr ⟨_,rfl,.inl ⟨?_,rfl,?_⟩⟩
    · simp only [executed,setThread_threads]
      split
      · next self => rw [← self]; exact loaded
      · exact loaded
    · simpa [executed] using listed
  | collect_refused lost unlisted =>
    refine .inr ⟨_,rfl,.inr ⟨?_,rfl,?_⟩⟩
    · exact lost
    · exact decide_eq_false unlisted
  | execute_queue starts => exact .inl (sameLogs_queue k t _).executes
  | execute_take => exact .inl (sameLogs_take k _).executes
  | wait_queue live => exact .inl (sameLogs_queue k t _).executes
  | wait_take left => exact .inl (sameLogs_take k _).executes
  | _ => exact .inl rfl

theorem call_run (busy : a ≠ .user) : ∃ f c, call (.run a) = some (f,c) := by
  cases a with
  | user => exact absurd rfl busy
  | _ => exact ⟨_,_,rfl⟩

/-- Where results are written: in a step of a call, or by `process_wait` at once. -/
theorem step_logs (inv : Inv k) (orderly : Orderly k event) (step : Processes.step k event = some k') :
    SameLogs k k' ∨ (∃ t a, (k.threads t).pc = .run a ∧ Goes k t a k') ∨
      ∃ t, (k.threads t).pc = .run .user ∧ k' = wait_returns k t (k.threads t).waiting_child (-1) := by
  cases (taken_of_step step).2 with
  | process_execute here vacant => exact .inl ⟨rfl,rfl⟩
  | process_execute_fails here => exact .inl ⟨rfl,rfl⟩
  | load here => exact .inl ⟨rfl,rfl⟩
  | syscall_exit here created => exact .inl ⟨rfl,rfl⟩
  | reuse vacant => exact .inl ⟨rfl,rfl⟩
  | process_wait here =>
    unfold process_wait
    split
    · next waiting => exact .inr (.inr ⟨_,here,by rw [waiting]⟩)
    · exact .inl ⟨rfl,rfl⟩
  | @run u _ taken =>
    by_cases running : ∃ a, (k.threads u).pc = .run a
    · obtain ⟨a,here⟩ := running
      rw [here] at taken
      by_cases user : a = .user
      · subst user
        cases taken
      · obtain ⟨f,c,called⟩ := call_run user
        exact .inr (.inl ⟨u,a,here,goes_of_step inv here orderly.2.2.1 called taken⟩)
    · exact .inl (sameLogs_pcStep (fun a same => running ⟨a,same⟩) taken)

theorem executes_step (inv : Inv k) (orderly : Orderly k event) (step : Processes.step k event = some k') :
    k'.executes = k.executes ∨ ∃ x, k'.executes = k.executes ++ [x] ∧ Answers x := by
  rcases step_logs inv orderly step with same | ⟨t,a,-,goes⟩ | ⟨t,-,rfl⟩
  · exact .inl same.executes
  · exact executes_goes goes
  · exact .inl rfl

/-! ### Records that can be collected -/

/-- `process_wait` can take the record: it is allocated, and once the child is done with
    it, it says so and has the status the child exited with. -/
def Collectable (k : Kernel) (c : Tid) : Prop :=
  (k.child_threads c).freed = false ∧ (closed (k.threads c).pc = true →
    (k.child_threads c).status = .THREAD_DYING ∧ (k.threads c).exited = some (k.child_threads c).exit_status)

theorem collectable_kept (fate : Fate (view k c)) (kept : Kept (view k c)) : Collectable k c := by
  refine ⟨kept.freed,?_⟩
  intro done
  obtain ⟨dying,status⟩ := kept.closed done
  have exited := fate.exited (.inr (.inr done))
  rw [← status] at exited
  exact ⟨dying,exited⟩

/-- These roles belong to `thread_exit`. -/
theorem run_role {r : Role} (about : subject (.run a) = some (c,r)) : r ≠ .orphaning ∧ r ≠ .removing ∧ r ≠ .other := by
  cases a with
  | collect_status f d => cases f <;> cases about <;> simp
  | collect_remove f d ret => cases f <;> cases about <;> simp
  | _ => cases about <;> simp

/-- A process that is not exiting keeps the records on its list. -/
theorem listed_collectable (inv : Inv k) (here : (k.threads t).pc = .run a) (listed : c ∈ (k.threads t).child_thread_list) :
    Collectable k c := by
  obtain ⟨-,inList,pair⟩ := listed_pair inv listed
  refine collectable_kept pair.fate ?_
  have joint := pair.joint
  rw [here] at joint
  by_cases busy : role (.run a) c = .other
  · rw [busy] at joint
    rcases joint with given | ⟨unlisted,-⟩
    · exact given.toKept
    · exact absurd inList unlisted
  · have about := subject_of_role busy
    generalize role (.run a) c = r at joint about
    cases r with
    | unrecorded => exact absurd inList joint.1.unlisted
    | unadopted => exact absurd inList joint.1.unlisted
    | unlisted => exact absurd inList joint.1.unlisted
    | sought => exact joint.1
    | awaiting b => exact joint.1
    | checking => exact joint.1
    | refusing => exact joint.1
    | found => exact joint.toKept
    | waiting b => exact joint.toKept
    | collecting => exact joint.1.toKept
    | unlinked => exact absurd inList joint.1
    | orphaning => exact absurd rfl (run_role about).1
    | removing => exact absurd rfl (run_role about).2.1
    | other => exact absurd rfl (run_role about).2.2

/-! ### Progress -/

/-- A call that is not queued at a semaphore has a step to take. -/
theorem call_enabled (runs : k.fault = none) (here : (k.threads t).pc = .run a) (busy : a ≠ .user)
    (awake : blocked (.run a) = false) : (Processes.step k (.run t)).isSome := by
  unfold Processes.step
  rw [if_neg (not_not.mpr runs)]
  simp only [here,pcStep]
  cases a with
  | user => exact absurd rfl busy
  | execute_down c p b =>
    cases b with
    | true => cases awake
    | false =>
      simp only [activityStep]
      split <;> rfl
  | wait_down c p found b =>
    cases b with
    | true => cases awake
    | false =>
      simp only [activityStep]
      split
      · rfl
      · split <;> rfl
  | execute_lookup c e => simp only [activityStep]; split <;> rfl
  | execute_record c new => simp only [activityStep]; split <;> rfl
  | execute_adopt c new => simp only [activityStep]; split <;> rfl
  | execute_push c => rfl
  | execute_sema c e => simp only [activityStep]; split <;> rfl
  | execute_check c =>
    simp only [activityStep]
    split
    · rfl
    · split <;> rfl
  | wait_find c e => simp only [activityStep]; split <;> rfl
  | wait_check c =>
    simp only [activityStep]
    split
    · rfl
    · split <;> rfl
  | wait_lookup c e => simp only [activityStep]; split <;> rfl
  | wait_parent c child =>
    simp only [activityStep]
    split
    · split <;> rfl
    · rfl
  | wait_record c child e => simp only [activityStep]; split <;> rfl
  | collect_status f c => simp only [activityStep]; split <;> rfl
  | collect_remove f c ret => simp only [activityStep]; split <;> rfl
  | collect_free f c ret => simp only [activityStep]; split <;> rfl

/-- The next event of a thread that starts or exits. -/
def next (c : Tid) : Pc → Event
  | .load => .load c true
  | _ => .run c

theorem starting_enabled (runs : k.fault = none) (starts : starting (k.threads c).pc = true) :
    (Processes.step k (next c (k.threads c).pc)).isSome := by
  unfold Processes.step
  rw [if_neg (not_not.mpr runs)]
  generalize here : (k.threads c).pc = pc at starts ⊢
  cases pc with
  | load => simp [next,here]
  | loaded => simp [next,here,pcStep]
  | failed_up => simp [next,here,pcStep]
  | mark s => simp only [next,here,pcStep]; split <;> rfl
  | mark_find s p e =>
    simp only [next,here,pcStep]
    split
    · split <;> rfl
    · rfl
  | mark_status s => simp only [next,here,pcStep]; split <;> rfl
  | mark_exit_status s => cases s <;> simp only [next,here,pcStep] <;> split <;> rfl
  | _ => cases starts

/-- A call of `process_execute` that is queued waits for a child that is starting. -/
theorem execute_blocked (inv : Inv k) {p : Page} (here : (k.threads t).pc = .run (.execute_down c p true)) :
    c ∈ k.all_list ∧ starting (k.threads c).pc = true := by
  obtain ⟨mine,pair⟩ := pair_at inv here rfl
  exact ⟨pair.signals.awake rfl,pair.joint.2.2 rfl⟩

theorem execute_queued (called : call pc = some (.execute,c)) (queued : blocked pc = true) :
    ∃ p, pc = .run (.execute_down c p true) := by
  cases pc with
  | run a =>
    cases a with
    | execute_down d p b =>
      cases called
      obtain rfl : b = true := queued
      exact ⟨p,rfl⟩
    | wait_down d p found b => cases called
    | _ => cases queued
  | _ => cases called

/-! ### Steps of others -/

/-- `process_execute` before its `sema_down`: the child is looked for in `all_list`. -/
def seeks : Pc → Bool
  | .run (.execute_lookup _ _) => true
  | .run (.execute_record _ _) => true
  | .run (.execute_adopt _ _) => true
  | .run (.execute_push _) => true
  | .run (.execute_sema _ _) => true
  | _ => false

/-- Where its walk stands. -/
def walks : Pc → Option Cursor
  | .run (.execute_lookup _ e) => some e
  | .run (.execute_sema _ e) => some e
  | _ => none

theorem seeks_pair (inv : Inv k) (called : call (k.threads t).pc = some (.execute,c)) (seeking : seeks (k.threads t).pc = true) :
    (k.threads c).creator = t ∧ ∃ r, subject (k.threads t).pc = some (c,r) ∧ r.pending = true ∧ r.down = false := by
  generalize here : (k.threads t).pc = pc at called seeking
  have known : ∀ r, subject pc = some (c,r) → (k.threads c).creator = t :=
    fun r about => (inv.sound.owns t c r (here ▸ about)).1
  cases pc with
  | run a =>
    cases a with
    | execute_lookup d e => cases called; exact ⟨known _ rfl,_,rfl,rfl,rfl⟩
    | execute_record d new => cases called; exact ⟨known _ rfl,_,rfl,rfl,rfl⟩
    | execute_adopt d new => cases called; exact ⟨known _ rfl,_,rfl,rfl,rfl⟩
    | execute_push d => cases called; exact ⟨known _ rfl,_,rfl,rfl,rfl⟩
    | execute_sema d e => cases called; exact ⟨known _ rfl,_,rfl,rfl,rfl⟩
    | _ => cases seeking
  | _ => cases seeking

/-- The child that is looked for is there, and does not leave. -/
theorem seeks_live (inv : Inv k) (called : call (k.threads t).pc = some (.execute,c)) (seeking : seeks (k.threads t).pc = true) :
    c ∈ k.all_list ∧ ((k.threads c).pc = .exit_schedule → creatorRole k c = .sought) := by
  obtain ⟨mine,r,about,pending,up⟩ := seeks_pair inv called seeking
  obtain ⟨-,pair⟩ := pair_at inv rfl about
  have same : creatorRole k c = r := by rw [creatorRole,mine,role_subject about]
  have stays (early : unmarked (view k c).pc = true) (leaving : (k.threads c).pc = .exit_schedule) : False := by
    rw [show (view k c).pc = .exit_schedule from leaving] at early
    cases early
  cases r with
  | unrecorded =>
    exact ⟨pair.joint.1.live,fun leaving => (stays pair.joint.1.unmarked leaving).elim⟩
  | unadopted =>
    exact ⟨pair.joint.1.live,fun leaving => (stays pair.joint.1.unmarked leaving).elim⟩
  | unlisted =>
    exact ⟨pair.joint.1.live,fun leaving => (stays pair.joint.1.unmarked leaving).elim⟩
  | sought => exact ⟨pair.joint.2.1,fun _ => same⟩
  | awaiting b => cases up
  | _ => cases pending

theorem walks_ahead (inv : Inv k) (called : call (k.threads t).pc = some (.execute,c)) {e : Cursor}
    (walking : walks (k.threads t).pc = some e) : Ahead k.all_list c e ∧ seeks (k.threads t).pc = true := by
  have locally := inv.locals t
  generalize (k.threads t).pc = pc at called walking locally
  cases pc with
  | run a =>
    cases a with
    | execute_lookup d e => cases called; cases walking; exact ⟨locally,rfl⟩
    | execute_sema d e => cases called; cases walking; exact ⟨locally,rfl⟩
    | _ => cases walking
  | _ => cases walking

/-- A call keeps its place while the child does not start again and `all_list` does not
    put it further back. -/
theorem left_le (called : call (k.threads t).pc = some (.execute,c)) (here : (k'.threads t).pc = (k.threads t).pc)
    (starts : starting (k'.threads c).pc = true → starting (k.threads c).pc = true)
    (index : seeks (k.threads t).pc = true → k'.all_list.idxOf c ≤ k.all_list.idxOf c)
    (turn : ∀ e, walks (k.threads t).pc = some e → turns (·.idxOf c) k'.all_list e ≤ turns (·.idxOf c) k.all_list e) :
    left k' t ≤ left k t := by
  unfold left
  rw [here]
  generalize (k.threads t).pc = pc at called index turn
  cases pc with
  | run a =>
    cases a with
    | execute_lookup d e =>
      cases called
      have nearer := index rfl
      have sooner := turn e rfl
      simp only
      omega
    | execute_record d new =>
      cases called
      have nearer := index rfl
      simp only
      omega
    | execute_adopt d new =>
      cases called
      have nearer := index rfl
      simp only
      omega
    | execute_push d =>
      cases called
      have nearer := index rfl
      simp only
      omega
    | execute_sema d e =>
      cases called
      have sooner := turn e rfl
      simp only
      omega
    | execute_down d p b =>
      cases called
      cases b with
      | true => exact Nat.le_refl _
      | false =>
        simp only
        split
        · next still => simp [starts still]
        · split <;> omega
    | collect_status f d => exact Nat.le_refl _
    | collect_remove f d ret => exact Nat.le_refl _
    | collect_free f d ret => exact Nat.le_refl _
    | execute_check d => exact Nat.le_refl _
    | _ => cases called
  | _ => cases called

theorem unstarted_goes (goes : Goes k t a k') : starting (k'.threads t).pc = false := by
  cases goes with
  | execute_gives loaded listed => simp [execute_returns,starting]
  | lookup_missed => simp [wait_returns,starting]
  | parent_other stranger => simp [wait_returns,starting]
  | collect_refused lost unlisted => simp [execute_returns,starting]
  | collect_waited exited unlisted => simp [wait_returns,starting]
  | execute_push => simp [starting]
  | _ => simp [starting]

theorem starting_stage (pc : Pc) : starting pc = true ↔ stage pc = .loading ∨ stage pc = .loaded ∨ stage pc = .refused := by
  cases pc with
  | mark s => cases s <;> simp [starting,stage]
  | mark_find s p e => cases s <;> simp [starting,stage]
  | mark_status s => cases s <;> simp [starting,stage]
  | mark_exit_status s => cases s <;> simp [starting,stage]
  | _ => simp [starting,stage]

theorem starting_wake (pc : Pc) : starting (wake pc) = starting pc := by
  cases pc with
  | run a => cases a <;> rfl
  | _ => rfl

theorem starting_run (inv : Inv k) (here : (k.threads t).pc = pc) (orderly : OrderlyRun k t)
    (step : pcStep k t pc = some k') (starts : starting (k'.threads t).pc = true) : starting pc = true := by
  by_cases running : ∃ a, pc = .run a
  · obtain ⟨a,rfl⟩ := running
    by_cases user : a = .user
    · subst user
      cases step
    · obtain ⟨f,c,called⟩ := call_run user
      rw [unstarted_goes (goes_of_step inv here orderly.2.2.1 called step)] at starts
      cases starts
  · rcases stage_pcStep here (fun a same => running ⟨a,same⟩) step with rfl | same | exiting | gone
    · rfl
    · rwa [starting_stage,same,← starting_stage] at starts
    · rw [starting_stage,exiting] at starts
      simp at starts
    · rw [starting_stage,gone] at starts
      simp at starts

/-- A thread that has started does not start again. -/
theorem starting_step (inv : Inv k) (orderly : Orderly k event) (known : c ≠ k.next_tid)
    (step : Processes.step k event = some k') (starts : starting (k'.threads c).pc = true) :
    starting (k.threads c).pc = true := by
  by_cases own : actor event = some c
  · cases (taken_of_step step).2 with
    | process_execute here vacant =>
      cases own
      simp [process_execute,starting] at starts
    | process_execute_fails here => exact starts
    | load here =>
      cases own
      rw [here]
      rfl
    | process_wait here =>
      cases own
      unfold process_wait at starts
      split at starts <;> simp [wait_returns,starting] at starts
    | syscall_exit here created =>
      cases own
      simp [syscall_exit,starting] at starts
    | run taken =>
      cases own
      exact starting_run inv rfl orderly taken starts
    | reuse vacant => cases own
  · rcases (step_beside own (fun _ _ _ => known) step).pc with same | ⟨woken,-⟩
    · rwa [same] at starts
    · rwa [woken,starting_wake] at starts

/-- A waiter is the creator, queued. -/
theorem waiter_blocked (inv : Inv k) (live : u ∈ k.all_list) (created : (k.threads u).creator ≠ 0)
    (waits : (k.threads u).waiting_sema.waiters.head? = some t) :
    (k.threads u).creator = t ∧ (role (k.threads t).pc u).blocked = true := by
  have waiters := (inv.pairs u created).signals.waiters live
  change (k.threads u).waiting_sema.waiters = _ at waiters
  rw [waiters] at waits
  split at waits
  · next queued =>
    obtain rfl : (k.threads u).creator = t := by simpa [view] using waits
    exact ⟨rfl,queued⟩
  · cases waits

/-- A creator that is queued is in a call about the child. -/
theorem role_queued (queued : (role pc u).blocked = true) : blocked pc = true ∧ ∃ f, call pc = some (f,u) := by
  have about : subject pc = some (u,role pc u) := by
    refine subject_of_role ?_
    intro idle
    rw [idle] at queued
    cases queued
  generalize role pc u = r at about queued
  cases pc with
  | run a =>
    cases a with
    | execute_down d p b =>
      cases about
      exact ⟨queued,.execute,rfl⟩
    | wait_down d p found b =>
      cases about
      exact ⟨queued,.wait,rfl⟩
    | collect_status f d => cases f <;> cases about <;> cases queued
    | collect_remove f d ret => cases f <;> cases about <;> cases queued
    | _ => cases about <;> cases queued
  | _ => cases about <;> cases queued

/-- The child that `process_execute` is about is the caller's. -/
theorem execute_owns (inv : Inv k) (called : call (k.threads t).pc = some (.execute,c)) : (k.threads c).creator = t ∧ t ≠ 0 := by
  have owns := inv.sound.owns t c
  generalize (k.threads t).pc = pc at called owns
  cases pc with
  | run a =>
    cases a with
    | execute_lookup d e => cases called; exact owns _ rfl
    | execute_record d new => cases called; exact owns _ rfl
    | execute_adopt d new => cases called; exact owns _ rfl
    | execute_push d => cases called; exact owns _ rfl
    | execute_sema d e => cases called; exact owns _ rfl
    | execute_down d p b => cases called; exact owns _ rfl
    | execute_check d => cases called; exact owns _ rfl
    | collect_status f d => cases called; exact owns _ rfl
    | collect_remove f d ret => cases called; exact owns _ rfl
    | collect_free f d ret => cases called; exact owns _ rfl
    | _ => cases called
  | _ => cases called

/-- Changes of `all_list` do not put the child further back. -/
theorem left_lists (inv : Inv k) (orderly : Orderly k event) (called : call (k.threads t).pc = some (.execute,c))
    (step : Processes.step k event = some k') :
    (seeks (k.threads t).pc = true → k'.all_list.idxOf c ≤ k.all_list.idxOf c) ∧
    ∀ e, walks (k.threads t).pc = some e → turns (·.idxOf c) k'.all_list e ≤ turns (·.idxOf c) k.all_list e := by
  rcases step_all_list step with same | ⟨-,more⟩ | ⟨u,rfl,leaves,fewer⟩
  · rw [same]
    exact ⟨fun _ => Nat.le_refl _,fun _ _ => Nat.le_refl _⟩
  · rw [more]
    constructor
    · intro seeking
      have live := (seeks_live inv called seeking).1
      exact Nat.le_of_eq (List.idxOf_append_of_mem live)
    · intro e walking
      obtain ⟨ahead,seeking⟩ := walks_ahead inv called walking
      exact Nat.le_of_eq (idxOf_append _ inv.sound.once (seeks_live inv called seeking).1 ahead)
  · rw [fewer]
    obtain ⟨clear,known⟩ := orderly.2.2.2.2.2.2.1 leaves
    have apart : seeks (k.threads t).pc = true → u ≠ c := by
      rintro seeking rfl
      exact known ((seeks_live inv called seeking).2 leaves)
    refine ⟨fun seeking => idxOf_erase (apart seeking) _,?_⟩
    intro e walking
    obtain ⟨ahead,seeking⟩ := walks_ahead inv called walking
    refine turns_erase inv.sound.once ?_ ?_ (fun l => idxOf_erase (apart seeking) l)
    · rintro f rfl
      exact ahead_mem ahead
    · rintro rfl
      obtain ⟨a,here⟩ := call_pc called
      refine clear t (live_of_pc inv.sound here (by simp)) ?_
      rw [here] at walking ⊢
      cases a with
      | execute_lookup d e => cases walking; rfl
      | execute_sema d e => cases walking; rfl
      | _ => cases walking

theorem signals_live (inv : Inv k) (signal : signals (k.threads u).pc = true) :
    u ∈ k.all_list ∧ (k.threads u).creator ≠ 0 := by
  constructor
  · exact live_of_pc inv.sound rfl (by intro gone; rw [gone] at signal; cases signal)
  · intro root
    rcases inv.sound.roots u root with ⟨a,running⟩ | idle | gone
    · rw [running] at signal; cases signal
    · rw [idle] at signal; cases signal
    · rw [gone] at signal; cases signal

/-- A signal ends the start of a child. -/
theorem started_signal (signal : signals (k.threads u).pc = true) (step : Processes.step k (.run u) = some k') :
    starting (k'.threads u).pc = false := by
  cases (taken_of_step step).2 with
  | run taken =>
  generalize (k.threads u).pc = pc at signal taken
  cases pc with
  | loaded => cases taken; simp [starting]
  | failed_up => cases taken; simp [starting]
  | exit_schedule => cases taken; simp [starting]
  | _ => cases signal

/-- No step of another thread takes a call of `process_execute` back. -/
theorem left_other (inv : Inv k) (orderly : Orderly k event) (called : call (k.threads t).pc = some (.execute,c))
    (other : actor event ≠ some t) (step : Processes.step k event = some k') :
    call (k'.threads t).pc = some (.execute,c) ∧ left k' t ≤ left k t := by
  obtain ⟨mine,nonzero⟩ := execute_owns inv called
  obtain ⟨a,here⟩ := call_pc called
  have present : t ∈ k.all_list := live_of_pc inv.sound here (by simp)
  have old : c ≠ k.next_tid := ne_next_tid inv.sound (mine ▸ nonzero)
  have beside := step_beside other (fun _ _ _ => live_ne_next_tid inv.sound present) step
  rcases beside.pc with same | ⟨woken,u,rfl,signal,waits⟩
  · rw [same]
    obtain ⟨index,turn⟩ := left_lists inv orderly called step
    exact ⟨called,left_le called same (starting_step inv orderly old step) index turn⟩
  · obtain ⟨live,created⟩ := signals_live inv signal
    obtain ⟨queued,f,about⟩ := role_queued (waiter_blocked inv live created waits).2
    rw [called] at about
    cases about
    obtain ⟨p,down⟩ := execute_queued called queued
    rw [down] at woken
    have up : (k'.threads t).pc = .run (.execute_down c p false) := woken
    refine ⟨by rw [up]; rfl,?_⟩
    simp [left,up,down,started_signal signal step]

/-! ### The start of a child -/

/-- The steps that a child has left until it signals, while its creator is queued. -/
def startLeft (k : Kernel) (c : Tid) : Nat :=
  let own := (k.threads (k.threads c).creator).child_thread_list
  match (k.threads c).pc with
  | .load => own.length + 7
  | .loaded => 1
  | .mark .failed => own.length + 6
  | .mark_find .failed _ e => turns List.length own e + 4
  | .mark_status .failed => 3
  | .mark_exit_status .failed => 2
  | .failed_up => 1
  | _ => 0

theorem startLeft_load (inv : Inv k) {success : Bool} (mine : (k.threads c).creator = t) (nonzero : t ≠ 0)
    (here : (k.threads c).pc = .load) :
    startLeft (setThread k c { k.threads c with
      load := some success, pc := if success then .loaded else .mark .failed }) c < startLeft k c := by
  have apart : t ≠ c := by
    rintro rfl
    have created : (k.threads t).creator ≠ 0 := by
      rw [mine]
      exact nonzero
    have below := (inv.sound.creators t created).2.1
    rw [mine] at below
    exact Int.lt_irrefl t below
  cases success <;> simp [startLeft,here,mine,setThread_other _ apart]

/-- A child that starts signals, or has fewer steps left. -/
theorem startLeft_run (inv : Inv k) (runs : k'.fault = none) (mine : (k.threads c).creator = t) (present : t ∈ k.all_list)
    (here : (k.threads c).pc = pc) (starts : starting pc = true) (step : pcStep k c pc = some k') :
    signals pc = true ∨ startLeft k' c < startLeft k c := by
  cases pc with
  | load => cases step
  | loaded => exact .inl rfl
  | failed_up => exact .inl rfl
  | mark s =>
    cases s with
    | exiting => cases starts
    | failed =>
      simp only [pcStep] at step
      split at step <;> cases step
      · refine .inr ?_
        simp [startLeft,here,turns]
      · cases runs
      · cases runs
  | mark_find s p e =>
    cases s with
    | exiting => cases starts
    | failed =>
      obtain ⟨page,ahead⟩ := local_at inv here
      rw [mine] at page ahead
      simp only [pcStep,page,occupant_sole (inv.sound.pages t present) present] at step
      split at step <;> cases step
      · next go =>
        have fewer := turns_find inv ahead go
        refine .inr ?_
        simp only [startLeft,here,setPc_self,setPc_list,mine]
        omega
      · refine .inr ?_
        simp only [startLeft,here,setPc_self,setPc_list]
        omega
      · cases runs
      · cases runs
  | mark_status s =>
    cases s with
    | exiting => cases starts
    | failed =>
      simp only [pcStep] at step
      split at step <;> cases step
      · cases runs
      · refine .inr ?_
        simp [startLeft,here]
  | mark_exit_status s =>
    cases s with
    | exiting => cases starts
    | failed =>
      simp only [pcStep] at step
      split at step <;> cases step
      · cases runs
      · refine .inr ?_
        simp [startLeft,here]
  | _ => cases starts

/-- While a call of `process_execute` is queued, each step of the child brings the end
    of the waiting nearer, or ends it. -/
theorem child_own (inv : Inv k) (orderly : Orderly k event) (called : call (k.threads t).pc = some (.execute,c))
    (queued : blocked (k.threads t).pc = true) (own : actor event = some c) (step : Processes.step k event = some k') :
    blocked (k'.threads t).pc = false ∨ startLeft k' c < startLeft k c := by
  obtain ⟨mine,nonzero⟩ := execute_owns inv called
  obtain ⟨p,down⟩ := execute_queued called queued
  have present : t ∈ k.all_list := live_of_pc inv.sound down (by simp)
  have starts := (execute_blocked inv down).2
  have inv' := inv_step inv orderly step
  have apart : actor event ≠ some t := by
    intro same
    rw [same] at own
    cases own
    rw [down] at starts
    cases starts
  have kept := (left_other inv orderly called apart step).1
  have idle : ∀ u pc, actor event = some u → (k.threads u).pc = pc → starting pc = true := by
    rintro u pc acts rfl
    rw [own] at acts
    cases acts
    exact starts
  cases (taken_of_step step).2 with
  | load here =>
    cases own
    exact .inr (startLeft_load inv mine nonzero here)
  | run taken =>
    cases own
    rcases startLeft_run inv inv'.runs mine present rfl starts taken with signal | fewer
    · refine .inl ?_
      by_contra still
      rw [Bool.not_eq_false] at still
      obtain ⟨p,downToo⟩ := execute_queued kept still
      have startsToo := (execute_blocked inv' downToo).2
      rw [started_signal signal step] at startsToo
      cases startsToo
    · exact .inr fewer
  | process_execute here vacant => cases idle _ _ rfl here
  | process_execute_fails here => cases idle _ _ rfl here
  | process_wait here => cases idle _ _ rfl here
  | syscall_exit here created => cases idle _ _ rfl here
  | reuse vacant => cases own

/-- The steps of others do not put it off. -/
theorem child_other (inv : Inv k) (called : call (k.threads t).pc = some (.execute,c))
    (queued : blocked (k.threads t).pc = true) (other : actor event ≠ some c) (step : Processes.step k event = some k') :
    startLeft k' c = startLeft k c := by
  obtain ⟨mine,nonzero⟩ := execute_owns inv called
  obtain ⟨p,down⟩ := execute_queued called queued
  have present : t ∈ k.all_list := live_of_pc inv.sound down (by simp)
  obtain ⟨live,starts⟩ := execute_blocked inv down
  have apart : actor event ≠ some t := by
    intro own
    cases call_actor called own step
    cases (taken_of_step step).2 with
    | run taken =>
    rw [down] at taken
    cases taken
  have child := step_beside other (fun _ _ _ => live_ne_next_tid inv.sound live) step
  have creator := step_beside apart (fun _ _ _ => live_ne_next_tid inv.sound present) step
  have same : (k'.threads c).pc = (k.threads c).pc := by
    rcases child.pc with same | ⟨woken,-⟩
    · exact same
    · rw [woken]
      generalize (k.threads c).pc = pc at starts
      cases pc with
      | run a => cases starts
      | _ => rfl
  simp only [startLeft,same,child.creator,mine,creator.child_thread_list]

/-! ### Every orderly run -/

theorem reaches_answers (reached : Reaches machine Orderly k) : Inv k ∧ ∀ x ∈ k.executes, Answers x := by
  refine reaches_invariant (fun k => Inv k ∧ ∀ x ∈ k.executes, Answers x) ?_ ?_ reached
  · rintro s rfl
    refine ⟨inv_boot,?_⟩
    intro x logged
    cases logged
  · intro s event s' before orderly step
    refine ⟨inv_step before.1 orderly step,?_⟩
    rcases executes_step before.1 orderly step with same | ⟨y,more,answers⟩
    · rw [same]
      exact before.2
    · intro x logged
      rw [more] at logged
      rcases List.mem_append.mp logged with old | new
      · exact before.2 x old
      · rw [List.mem_singleton.mp new]
        exact answers

/-- In an orderly run every `process_execute` answers for the child's program, leaves a
    record that can be collected exactly when it was loaded, and returns. -/
theorem process_execute_answers (reached : Reaches machine Orderly k) :
    k.fault = none ∧ (∀ x ∈ k.executes, Answers x) ∧
    (∀ t a, (k.threads t).pc = .run a → ∀ c ∈ (k.threads t).child_thread_list, Collectable k c) ∧
    (∀ t c, call (k.threads t).pc = some (.execute,c) →
      (blocked (k.threads t).pc = false → (Processes.step k (.run t)).isSome) ∧
      (blocked (k.threads t).pc = true → c ∈ k.all_list ∧ starting (k.threads c).pc = true ∧
        (Processes.step k (next c (k.threads c).pc)).isSome ∧
        ∀ event k', Orderly k event → Processes.step k event = some k' →
          (actor event = some c → blocked (k'.threads t).pc = false ∨ startLeft k' c < startLeft k c) ∧
          (actor event ≠ some c → startLeft k' c ≤ startLeft k c)) ∧
      ∀ event k', Orderly k event → Processes.step k event = some k' →
        (event = .run t →
          left k' t < left k t ∧ (call (k'.threads t).pc = some (.execute,c) ∨ Returned k k' t c .execute)) ∧
        (event ≠ .run t → call (k'.threads t).pc = some (.execute,c) ∧ left k' t ≤ left k t)) := by
  obtain ⟨inv,answers⟩ := reaches_answers reached
  refine ⟨inv.runs,answers,fun t a here c listed => listed_collectable inv here listed,?_⟩
  intro t c called
  refine ⟨?_,?_,?_⟩
  · intro awake
    obtain ⟨a,here⟩ := call_pc called
    rw [here] at called awake
    refine call_enabled inv.runs here ?_ awake
    rintro rfl
    cases called
  · intro queued
    obtain ⟨p,here⟩ := execute_queued called queued
    obtain ⟨live,starts⟩ := execute_blocked inv here
    refine ⟨live,starts,starting_enabled inv.runs starts,?_⟩
    intro event k' orderly step
    constructor
    · intro own
      exact child_own inv orderly called queued own step
    · intro other
      exact Nat.le_of_eq (child_other inv called queued other step)
  · intro event k' orderly step
    constructor
    · rintro rfl
      exact call_own inv orderly called step
    · intro other
      exact left_other inv orderly called (fun own => other (call_actor called own step)) step

/-- The initial thread executes a program and waits for it to load. -/
def executes : List Event :=
  .process_execute 1 3 :: List.replicate 12 (.run 1) ++ [.load 3 true,.run 3]

/-- The child exits once its creator has looked at the record. -/
def returnsFirst : List Event :=
  executes ++ List.replicate 2 (.run 1) ++ .syscall_exit 3 7 :: List.replicate 8 (.run 3)

theorem process_execute_answers_exited : ∃ k, guardedRun step Orderly boot returnsFirst = some k ∧
    k.executes = [{ caller := 1, child := 3, load := some true, ret := 3, recorded := true }] ∧
    (k.threads 3).pc = .gone ∧ 3 ∈ (k.threads 1).child_thread_list ∧ Collectable k 3 := by
  refine ⟨_,rfl,rfl,rfl,by decide,?_⟩
  exact (process_execute_answers (guardedRun_reachable boot step Orderly returnsFirst rfl)).2.2.1 1 .user rfl 3 (by decide)

/-- The child exits before its creator has looked. -/
def exitsFirst : List Event :=
  executes ++ .syscall_exit 3 7 :: List.replicate 8 (.run 3) ++ List.replicate 5 (.run 1)

/-- The creator takes it for a program that was not loaded. -/
theorem process_execute_returns_status : ∃ k, run step boot exitsFirst = some k ∧ Reaches machine Anything k ∧
    k.fault = none ∧ k.executes = [{ caller := 1, child := 3, load := some true, ret := 7, recorded := false }] ∧
    (k.threads 1).child_thread_list = [] :=
  ⟨_,rfl,run_reachable boot step exitsFirst rfl,rfl,rfl,rfl⟩

end Pintos.Executions
