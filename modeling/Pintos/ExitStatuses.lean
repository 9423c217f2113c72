import Pintos.Waits

/-!
The exit status of a thread: 0 until it exits, and then what it exited with, which is also what
`process_wait` has returned about it.
-/
namespace Pintos.ExitStatuses
open Pintos.Machines Pintos.Processes Pintos.Protocol Pintos.Calls Pintos.Executions Pintos.Waits
set_option linter.unusedSimpArgs false

variable {k k' : Kernel} {t c : Tid} {pc : Pc} {a : Activity} {event : Event}

/-- What a thread says of its exit, and who created it. -/
def status (v : Thread) : Option Int × Int × Tid := (v.exited,v.exit_status,v.creator)

@[simp] theorem status_setPc (k : Kernel) (t u : Tid) (pc : Pc) :
    status ((setPc k t pc).threads u) = status (k.threads u) := by
  simp [status]

theorem status_setThread (v : Thread) (own : status v = status (k.threads t)) (u : Tid) :
    status ((setThread k t v).threads u) = status (k.threads u) := by
  by_cases same : u = t
  · rw [same,setThread_self,own]
  · rw [setThread_other v same]

theorem status_up (k : Kernel) (t u : Tid) : status ((sema_up k t).threads u) = status (k.threads u) := by
  unfold sema_up
  dsimp only
  split
  · exact status_setThread _ (by rfl) u
  · rw [status_setPc]
    exact status_setThread _ (by rfl) u

theorem status_semaQueue (k : Kernel) (t u : Tid) (p : Page) :
    status ((semaQueue k t p).threads u) = status (k.threads u) := by
  rw [semaQueue_thread]
  rfl

theorem status_semaTake (k : Kernel) (u : Tid) (p : Page) :
    status ((semaTake k p).threads u) = status (k.threads u) := by
  rw [semaTake_thread]
  rfl

/-- Only `failed_up` sets a status outside of `syscall_exit`. -/
theorem status_pcStep (other : pc ≠ .failed_up) (outside : ∀ a, pc ≠ .run a) (step : pcStep k t pc = some k')
    (u : Tid) : status (k'.threads u) = status (k.threads u) := by
  cases pc with
  | idle => cases step
  | load => cases step
  | gone => cases step
  | run a => exact absurd rfl (outside a)
  | failed_up => exact absurd rfl other
  | loaded =>
    cases step
    rw [status_setPc,status_up]
  | exit_schedule =>
    cases step
    exact (status_setPc _ _ _ _).trans (status_up k t u)
  | mark s =>
    simp only [pcStep] at step
    split at step <;> cases step
    · exact status_setPc _ _ _ _
    · rfl
    · rfl
  | mark_find s p e =>
    simp only [pcStep] at step
    split at step
    · split at step <;> cases step
      · exact status_setPc _ _ _ _
      · exact status_setPc _ _ _ _
      · rfl
      · rfl
    · cases step
      rfl
  | mark_status s =>
    simp only [pcStep] at step
    split at step <;> cases step
    · rfl
    · exact status_setPc _ _ _ _
  | mark_exit_status s =>
    cases s <;> simp only [pcStep] at step <;> split at step <;> cases step
    · rfl
    · exact status_setPc _ _ _ _
    · rfl
    · exact status_setPc _ _ _ _
  | exit_check =>
    simp only [pcStep] at step
    split at step <;> cases step <;> exact status_setPc _ _ _ _
  | exit_children =>
    simp only [pcStep] at step
    split at step <;> cases step <;> exact status_setPc _ _ _ _
  | exit_status e =>
    simp only [pcStep] at step
    split at step
    · cases step
      rfl
    · split at step <;> cases step <;> exact status_setPc _ _ _ _
  | exit_orphan e =>
    simp only [pcStep] at step
    split at step <;> cases step
    · rw [status_setPc]
      exact status_setThread _ (by rfl) u
    · exact status_setPc _ _ _ _
  | exit_remove e =>
    simp only [pcStep] at step
    split at step <;> cases step
    · rfl
    · rw [status_setPc]
      exact status_setThread (k := setRecord k e _) _ (by rfl) u
  | exit_free e =>
    simp only [pcStep] at step
    split at step <;> cases step
    · rfl
    · exact status_setPc _ _ _ _

theorem status_goes (goes : Goes k t a k') (u : Tid) : status (k'.threads u) = status (k.threads u) := by
  cases goes with
  | execute_adopt other parent =>
    rw [status_setPc]
    exact status_setThread _ (by rfl) u
  | execute_push => exact status_setThread _ (by rfl) u
  | execute_queue starts => rw [status_setPc,status_semaQueue]
  | execute_take => rw [status_setPc,status_semaTake]
  | execute_gives loaded listed =>
    exact (status_setPc _ _ _ _).trans (status_setThread _ (by rfl) u)
  | lookup_missed => exact status_setThread _ (by rfl) u
  | parent_other stranger => exact status_setThread _ (by rfl) u
  | record_met =>
    rw [status_setPc]
    exact status_setThread _ (by rfl) u
  | wait_queue live => rw [status_setPc,status_semaQueue]
  | wait_take left =>
    rw [status_setPc]
    exact (status_setThread _ (by rfl) u).trans (status_semaTake k u _)
  | collect_remove listed =>
    rw [status_setPc]
    exact status_setThread (k := setRecord k _ _) _ (by rfl) u
  | collect_waited exited unlisted => exact status_setThread (k := free k _) _ (by rfl) u
  | _ => exact status_setPc _ _ _ _

theorem status_fields {v w : Thread} (same : status v = status w) :
    v.exited = w.exited ∧ v.exit_status = w.exit_status ∧ v.creator = w.creator := by
  obtain ⟨exited,rest⟩ := Prod.mk.inj same
  exact ⟨exited,Prod.mk.inj rest⟩

/-- What a step does to the status of a thread: nothing, or it gives one that had none. -/
inductive Reports (k k' : Kernel) (event : Event) (c : Tid) : Prop
  | stays (same : status (k'.threads c) = status (k.threads c))
  | failed (event : event = .run c) (here : (k.threads c).pc = .failed_up)
      (becomes : status (k'.threads c) = (some (-1),-1,(k.threads c).creator))
  | exits {r : Int} (event : event = .syscall_exit c r) (here : (k.threads c).pc = .run .user)
      (created : (k.threads c).creator ≠ 0) (becomes : status (k'.threads c) = (some r,r,(k.threads c).creator))
  | new (next_tid : c = k.next_tid) {u : Tid} {p : Page} (event : event = .process_execute u p)
      (becomes : k'.threads c = newThread u p)

theorem reports_step (inv : Inv k) (orderly : Orderly k event) (step : Processes.step k event = some k') (c : Tid) :
    Reports k k' event c := by
  cases (taken_of_step step).2 with
  | @process_execute u p here vacant =>
    by_cases new : c = k.next_tid
    · refine .new new rfl ?_
      have other : k.next_tid ≠ u := (live_ne_next_tid inv.sound (live_of_pc inv.sound here (by simp))).symm
      rw [new]
      exact (setPc_other other).trans (setThread_self k k.next_tid _)
    · refine .stays ((status_setPc _ _ _ _).trans ?_)
      exact congrArg status (setThread_other (k := k) (newThread u p) new)
  | process_execute_fails here => exact .stays rfl
  | load here => exact .stays (status_setThread _ (by rfl) c)
  | @process_wait t d here =>
    unfold process_wait
    split
    · exact .stays (status_setThread _ (by rfl) c)
    · exact .stays (status_setPc _ _ _ _)
  | @syscall_exit t r here created =>
    by_cases own : c = t
    · subst own
      exact .exits rfl here created (congrArg status (setThread_self k c _))
    · exact .stays (congrArg status (setThread_other (k := k) _ own))
  | reuse vacant => exact .stays rfl
  | @run u _ taken =>
    by_cases running : ∃ a, (k.threads u).pc = .run a
    · obtain ⟨a,here⟩ := running
      rw [here] at taken
      by_cases user : a = .user
      · subst user
        cases taken
      · obtain ⟨f,d,called⟩ := call_run user
        exact .stays (status_goes (goes_of_step inv here orderly.2.2.1 called taken) c)
    · by_cases failed : (k.threads u).pc = .failed_up
      · rw [failed] at taken
        cases taken
        by_cases own : c = u
        · subst own
          refine .failed rfl failed ((congrArg status (setThread_self _ c _)).trans ?_)
          rw [← (status_fields (status_up k c c)).2.2]
          rfl
        · refine .stays ((congrArg status (setThread_other (k := sema_up k u) _ own)).trans ?_)
          exact status_up k u c
      · exact .stays (status_pcStep failed (fun a same => running ⟨a,same⟩) taken c)

theorem next_tid_step (step : Processes.step k event = some k') :
    k'.next_tid = k.next_tid ∨ (∃ u p, event = .process_execute u p) ∧ k'.next_tid = k.next_tid + 1 := by
  cases (taken_of_step step).2 with
  | @process_execute u p here vacant => exact .inr ⟨⟨u,p,rfl⟩,rfl⟩
  | process_execute_fails here => exact .inl rfl
  | load here => exact .inl rfl
  | process_wait here =>
    unfold process_wait
    split <;> exact .inl rfl
  | syscall_exit here created => exact .inl rfl
  | reuse vacant => exact .inl rfl
  | @run u _ taken =>
    generalize (k.threads u).pc = pc at taken
    have up : (sema_up k u).next_tid = k.next_tid := (sema_up_rest k u).2.2.2.1
    cases signal : signals pc with
    | false => exact .inl (pcStep_minor signal taken).next_tid
    | true =>
      cases pc with
      | loaded =>
        cases taken
        exact .inl up
      | failed_up =>
        cases taken
        exact .inl up
      | exit_schedule =>
        cases taken
        exact .inl up
      | _ => cases signal

theorem next_tid_le (step : Processes.step k event = some k') : k.next_tid ≤ k'.next_tid := by
  rcases next_tid_step step with same | ⟨-,more⟩
  · exact Int.le_of_eq same.symm
  · rw [more]
    exact Int.le_of_lt (Int.lt_succ k.next_tid)

/-- What the kernel has told of exits. -/
structure Told (k : Kernel) : Prop where
  inv : Inv k
  families : Families k
  collects : ∀ x ∈ k.waits, Collects x
  young : ∀ t, k.next_tid ≤ t → (k.threads t).exited = none
  /-- Every thread but the first two has a creator. -/
  created : ∀ t, 3 ≤ t → t < k.next_tid → (k.threads t).creator ≠ 0
  /-- `init_thread` sets the status to 0. -/
  zero : ∀ t, (k.threads t).exited = none → (k.threads t).exit_status = 0
  delivered : ∀ x ∈ k.waits, x.direct = true → (k.threads x.child).exited = some x.ret

/-- A thread with a status has begun to exit. -/
theorem unexited (inv : Inv k) (here : (k.threads c).pc = pc) (early : starting pc = true ∨ (∃ a, pc = .run a))
    (created : (k.threads c).creator ≠ 0) : (k.threads c).exited = none :=
  (inv.pairs c created).fate.alive (by rw [← here] at early; exact early)

theorem failed_created (inv : Inv k) (here : (k.threads c).pc = .failed_up) : (k.threads c).creator ≠ 0 := by
  intro root
  rcases inv.sound.roots c root with ⟨a,runs⟩ | idle | gone
  · rw [here] at runs
    cases runs
  · rw [here] at idle
    cases idle
  · rw [here] at gone
    cases gone

/-- A status stays. -/
theorem exited_step {r : Int} (told : Told k) (timely : Timely k event) (step : Processes.step k event = some k')
    (exited : (k.threads c).exited = some r) : (k'.threads c).exited = some r := by
  have inv := told.inv
  cases reports_step inv (timely_orderly timely) step c with
  | stays same => exact (status_fields same).1.trans exited
  | failed event here becomes =>
    rw [unexited inv here (.inl rfl) (failed_created inv here)] at exited
    cases exited
  | exits event here created becomes =>
    rw [unexited inv here (.inr ⟨_,rfl⟩) created] at exited
    cases exited
  | new next_tid event becomes =>
    rw [told.young c (Int.le_of_eq next_tid.symm)] at exited
    cases exited

theorem late_gone (inv : Inv k) (late : k.next_tid ≤ c) : (k.threads c).pc = .gone :=
  (inv.sound.gone c fun live => Int.not_lt.mpr late (inv.sound.ids c live).2).1

/-- The answer of `process_wait` that a step adds. -/
theorem waits_exited (inv : Inv k) (orderly : Orderly k event) (step : Processes.step k event = some k') :
    k'.waits = k.waits ∨ ∃ x, k'.waits = k.waits ++ [x] ∧ x.exited = (k'.threads x.child).exited := by
  have answers : ∀ (m : Kernel) (t c : Tid) (ret : Int),
      (waited m t c ret).exited = ((wait_returns m t c ret).threads c).exited := by
    intro m t c ret
    exact (status_fields (status_setThread (k := m) _ (by rfl) c)).1.symm
  rcases step_logs inv orderly step with same | ⟨t,a,here,goes⟩ | ⟨t,here,rfl⟩
  · exact .inl same.waits
  · cases goes with
    | lookup_missed => exact .inr ⟨_,rfl,answers k t _ _⟩
    | parent_other stranger => exact .inr ⟨_,rfl,answers k t _ _⟩
    | collect_waited exited unlisted => exact .inr ⟨_,rfl,answers (free k _) t _ _⟩
    | execute_queue starts => exact .inl (sameLogs_queue k t _).waits
    | execute_take => exact .inl (sameLogs_take k _).waits
    | wait_queue live => exact .inl (sameLogs_queue k t _).waits
    | wait_take left => exact .inl (sameLogs_take k _).waits
    | _ => exact .inl rfl
  · exact .inr ⟨_,rfl,answers k t _ _⟩

theorem created_step (told : Told k) (timely : Timely k event) (step : Processes.step k event = some k') (old : 3 ≤ t)
    (known : t < k'.next_tid) : (k'.threads t).creator ≠ 0 := by
  have inv := told.inv
  by_cases new : t = k.next_tid
  · rcases next_tid_step step with same | ⟨⟨u,p,rfl⟩,-⟩
    · rw [same,new] at known
      exact absurd known (Int.lt_irrefl _)
    · cases (taken_of_step step).2 with
      | process_execute here vacant =>
        have live := live_of_pc inv.sound here (by simp)
        have other : k.next_tid ≠ u := (live_ne_next_tid inv.sound live).symm
        have becomes : (process_execute k u p).threads t = newThread u p := by
          rw [new]
          exact (setPc_other other).trans (setThread_self k k.next_tid _)
        rw [becomes]
        exact Int.ne_of_gt (inv.sound.ids u live).1
  · have below : t < k.next_tid := by
      rcases next_tid_step step with same | ⟨-,more⟩
      · rwa [same] at known
      · rw [more] at known
        exact Int.lt_iff_le_and_ne.mpr ⟨Int.lt_add_one_iff.mp known,new⟩
    have before := told.created t old below
    cases reports_step inv (timely_orderly timely) step t with
    | stays same =>
      rw [(status_fields same).2.2]
      exact before
    | failed event here becomes =>
      rw [(Prod.mk.inj (Prod.mk.inj becomes).2).2]
      exact before
    | exits event here created becomes =>
      rw [(Prod.mk.inj (Prod.mk.inj becomes).2).2]
      exact before
    | new next_tid event becomes => exact absurd next_tid new

theorem told_step (told : Told k) (timely : Timely k event) (step : Processes.step k event = some k') : Told k' := by
  have inv := told.inv
  have orderly := timely_orderly timely
  have reports := reports_step inv orderly step
  have waits := waits_step inv told.families orderly step
  refine ⟨inv_step inv orderly step,families_step inv timely told.families step,fun x logged => ?_,fun t late => ?_,
    fun t old known => created_step told timely step old known,fun t unset => ?_,fun x logged direct => ?_⟩
  · rcases waits with same | ⟨y,more,answers⟩
    · exact told.collects x (same ▸ logged)
    · rw [more] at logged
      rcases List.mem_append.mp logged with old | new
      · exact told.collects x old
      · rw [List.mem_singleton.mp new]
        exact answers
  · have late : k.next_tid ≤ t := Int.le_trans (next_tid_le step) late
    have gone := late_gone inv late
    cases reports t with
    | stays same => exact (status_fields same).1.trans (told.young t late)
    | failed event here becomes =>
      rw [here] at gone
      cases gone
    | exits event here created becomes =>
      rw [here] at gone
      cases gone
    | new next_tid event becomes => rw [becomes]; rfl
  · cases reports t with
    | stays same =>
      obtain ⟨exited,exit_status,-⟩ := status_fields same
      rw [exit_status]
      exact told.zero t (exited ▸ unset)
    | failed event here becomes =>
      rw [(Prod.mk.inj becomes).1] at unset
      cases unset
    | exits event here created becomes =>
      rw [(Prod.mk.inj becomes).1] at unset
      cases unset
    | new next_tid event becomes => rw [becomes]; rfl
  · rcases waits_exited inv orderly step with same | ⟨y,more,exited⟩
    · exact exited_step told timely step (told.delivered x (same ▸ logged) direct)
    · rw [more] at logged
      rcases List.mem_append.mp logged with old | new
      · exact exited_step told timely step (told.delivered x old direct)
      · obtain rfl := List.mem_singleton.mp new
        rcases waits with same | ⟨z,moreToo,answers⟩
        · rw [same] at more
          simp at more
        · obtain rfl : x = z := by
            rw [more] at moreToo
            exact List.singleton_inj.mp (List.append_cancel_left moreToo)
          exact exited.symm.trans (answers.1 direct)

theorem told_boot : Told boot where
  inv := inv_boot
  families := families_boot
  collects x logged := by cases logged
  young t _ := rfl
  created t old known := absurd known (Int.not_lt.mpr old)
  zero t _ := rfl
  delivered x logged := by cases logged

end Pintos.ExitStatuses
