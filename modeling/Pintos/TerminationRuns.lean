import Pintos.Executables
import Pintos.ExitStatuses
import Pintos.Terminations

/-!
What holds of a process from its end on, in every run.
-/
namespace Pintos.Terminations
open Pintos.Machines Pintos.Lifetimes Pintos.FileCounts Pintos.FdMappings Pintos.ExitStatuses
open Pintos.Files hiding Event step boot machine start_process
open Pintos.Processes (Kernel Page)
open Pintos.Executables (programs disk plenty anywhere)
set_option linter.unusedSimpArgs false
variable {s s' : System} {t u : Tid} {how : End} {e : Event}

/-! ### What is kept -/

/-- The status that the kernel gives a process that it ends. -/
def End.status : End → Option Int
  | .catch_addr_error | .page_fault => some (-1)
  | .kill => some 0
  | .exit | .load => none

/-- What holds of a process from its end on. -/
structure Ended (s : System) (t : Tid) (how : End) : Prop where
  gone : s.lifetimes.stage t = .gone
  status : ∀ r, how.status = some r → (s.kernel.threads (kernelTid t)).exited = some r
  dead : how ≠ .kill → s.lifetimes.files.live t = false
  closes : how ≠ .kill → ∀ id ∈ s.had t, id ∈ s.closed

structure Kept (s : System) : Prop where
  runs : s.panicked = false
  told : Told s.kernel
  lives : Lives s.lifetimes
  ended : ∀ t how, s.ends t = some how → Ended s t how
  once : s.closed.Nodup
  shut : ∀ id ∈ s.closed, id < s.lifetimes.files.next_file ∧ ∀ m ∈ s.lifetimes.files.fd_name_mapping, m.file ≠ id

/-- What happens on the side of the protocol meanwhile. -/
def Hears (k k' : Kernel) : Prop := k' = k ∨ ∃ e, Waits.Timely k e ∧ Processes.step k e = some k'

section
variable {k : Kernel} {lifetimes : Lifetimes.System} {files' : Sys} {closed : List FileId}

theorem hears_told (told : Told s.kernel) (hears : Hears s.kernel k) : Told k := by
  rcases hears with rfl | ⟨e,timely,step⟩
  · exact told
  · exact told_step told timely step

theorem hears_exited {u : Processes.Tid} {r : Int} (told : Told s.kernel) (hears : Hears s.kernel k)
    (exited : (s.kernel.threads u).exited = some r) : (k.threads u).exited = some r := by
  rcases hears with rfl | ⟨e,timely,step⟩
  · exact exited
  · exact exited_step told timely step exited

theorem kept_hears (kept : Kept s) (hears : Hears s.kernel k) : Kept { s with kernel := k } := by
  refine ⟨kept.runs,hears_told kept.told hears,kept.lives,fun t how ends => ?_,kept.once,kept.shut⟩
  obtain ⟨gone,status,dead,closes⟩ := kept.ended t how ends
  exact ⟨gone,fun r same => hears_exited kept.told hears (status r same),dead,closes⟩

/-- A process that has ended is not the one that works. -/
theorem kept_works (kept : Kept s) (hears : Hears s.kernel k) (works : Works t s.lifetimes lifetimes) :
    Kept { s with kernel := k, lifetimes := lifetimes } := by
  refine ⟨kept.runs,hears_told kept.told hears,works.lives,fun u how ends => ?_,kept.once,fun id member => ?_⟩
  · obtain ⟨gone,status,dead,closes⟩ := kept.ended u how ends
    have other : u ≠ t := by
      rintro rfl
      exact works.runs gone
    refine ⟨(works.stage u other).trans gone,fun r same => hears_exited kept.told hears (status r same),fun how => ?_,
      closes⟩
    exact (works.live u other).trans (dead how)
  · obtain ⟨known,unmapped⟩ := kept.shut id member
    refine ⟨Nat.lt_of_lt_of_le known works.next_file,fun m mapped => ?_⟩
    rcases works.mapped m mapped with ⟨m',before,file⟩ | new
    · exact file ▸ unmapped m' before
    · exact Nat.ne_of_gt (Nat.lt_of_lt_of_le known new)

/-- A process ends. -/
theorem kept_left (kept : Kept s) (hears : Hears s.kernel k) (runs : s.lifetimes.stage t ≠ .gone)
    (called : Called t true s.lifetimes.files files') (lives : Lives (s.lifetimes.leave t files'))
    (status : ∀ r, how.status = some r → (k.threads (kernelTid t)).exited = some r)
    (dead : how ≠ .kill → files'.live t = false)
    (closes : how ≠ .kill → ∀ id ∈ mine s.lifetimes.files t, id ∈ closed) (once : closed.Nodup)
    (mapped : ∀ id ∈ closed, ∃ m ∈ s.lifetimes.files.fd_name_mapping, m.file = id)
    (shut : ∀ id ∈ closed, ∀ m ∈ files'.fd_name_mapping, m.file ≠ id) :
    Kept { s.left t how (s.lifetimes.leave t files') closed with kernel := k } := by
  refine ⟨kept.runs,hears_told kept.told hears,lives,fun u how' ends => ?_,?_,fun id member => ?_⟩
  · change Function.update s.ends t (some how) u = some how' at ends
    by_cases same : u = t
    · subst same
      rw [Function.update_self] at ends
      obtain rfl := Option.some.inj ends
      refine ⟨Function.update_self _ _ _,status,dead,fun exits id had => ?_⟩
      refine List.mem_append_right _ (closes exits id ?_)
      exact (Function.update_self u (mine s.lifetimes.files u) s.had) ▸ had
    · rw [Function.update_of_ne same] at ends
      obtain ⟨gone,before,dead',closes'⟩ := kept.ended u how' ends
      refine ⟨(Function.update_of_ne same _ _).trans gone,fun r told => hears_exited kept.told hears (before r told),
        fun exits => ?_,fun exits id had => ?_⟩
      · exact (called.live u (.inr same)).trans (dead' exits)
      · refine List.mem_append_left _ (closes' exits id ?_)
        exact (Function.update_of_ne same (mine s.lifetimes.files t) s.had) ▸ had
  · refine List.nodup_append.mpr ⟨kept.once,once,fun id old other new same => ?_⟩
    obtain ⟨m,member,file⟩ := mapped other new
    exact (kept.shut id old).2 m member (file.trans same.symm)
  · rcases List.mem_append.mp member with old | new
    · obtain ⟨known,unmapped⟩ := kept.shut id old
      refine ⟨Nat.lt_of_lt_of_le known called.next_file,fun m member => ?_⟩
      rcases called.mapped m member with ⟨m',before,file⟩ | fresh
      · exact file ▸ unmapped m' before
      · exact Nat.ne_of_gt (Nat.lt_of_lt_of_le known fresh)
    · obtain ⟨m,listed,rfl⟩ := mapped id new
      obtain ⟨f,found⟩ := (kept.lives.inv.entry m listed).2
      exact ⟨Nat.lt_of_lt_of_le (file_known kept.lives.inv.toCounted found) called.next_file,shut m.file new⟩

theorem loopCloses_mine {files : Sys} (inv : Inv files) (t : Tid) : loopCloses files t = mine files t := by
  obtain ⟨closed,s₁,-,cleaned,turns,-⟩ := exit_clean_up inv t 0
  simp only [loopCloses,turns _ (Nat.le_refl _)]
  exact cleaned.exact

/-- `syscall_exit` closes what the process has. -/
theorem kept_exits {r : Int} {files : Sys} (kept : Kept s) (hears : Hears s.kernel k)
    (here : s.lifetimes.stage t = .user ∨ ∃ success, s.lifetimes.stage t = .start_check success)
    (exits : Files.syscall_exit s.lifetimes.files t r = .ok (.exited r files))
    (status : ∀ r, how.status = some r → (k.threads (kernelTid t)).exited = some r) :
    Kept { s.left t how (s.lifetimes.leave t files) (loopCloses s.lifetimes.files t) with kernel := k } := by
  have inv := kept.lives.inv
  obtain ⟨runs,started,bare⟩ : s.lifetimes.stage t ≠ .gone ∧ s.lifetimes.stage t ≠ .unborn ∧
      pending (s.lifetimes.stage t) = [] := by
    rcases here with here | ⟨success,here⟩
    · simp [here,pending]
    · simp [here,pending]
  obtain ⟨files₁,exits₁,inv',called,-⟩ := exit_called (t := t) inv r
  obtain rfl : files₁ = files := by
    rw [exits] at exits₁
    cases exits₁
    rfl
  obtain ⟨files₂,exits₂,-,gone⟩ := exit_spec (t := t) inv r
  obtain rfl : files₂ = files₁ := by
    rw [exits] at exits₂
    cases exits₂
    rfl
  rw [loopCloses_mine inv]
  refine kept_left kept hears runs called (lives_leave kept.lives started called inv' bare) status ?_ (fun _ _ => id) ?_ ?_ ?_
  · intro _
    rw [gone.live,if_pos rfl]
  · exact inv.once.sublist (List.filter_sublist.map _)
  · intro id member
    obtain ⟨m,own,rfl⟩ := List.mem_map.mp member
    exact ⟨m,(List.mem_filter.mp own).1,rfl⟩
  · intro id member m later same
    obtain ⟨m',own,rfl⟩ := List.mem_map.mp member
    obtain ⟨listed,owner⟩ := List.mem_filter.mp own
    rw [gone.fd_name_mapping] at later
    obtain ⟨listedToo,other⟩ := List.mem_filter.mp later
    obtain rfl : m = m' := List.inj_on_of_nodup_map inv.once listedToo listed same
    simp only [ne_eq,decide_not,owner] at other
    cases other

/-- `kill` closes nothing. -/
theorem kept_kill (kept : Kept s) (hears : Hears s.kernel k) (here : s.lifetimes.stage t = .user)
    (killed : Lifetimes.kill s.lifetimes t = .ok lifetimes) (status : (k.threads (kernelTid t)).exited = some 0) :
    Kept { s.left t .kill lifetimes [] with kernel := k } := by
  have inv := kept.lives.inv
  have lives := lives_kill kept.lives here killed
  obtain ⟨files',called,rfl⟩ : ∃ files',
      Called t true s.lifetimes.files files' ∧ lifetimes = s.lifetimes.leave t files' := by
    unfold Lifetimes.kill at killed
    cases runs : s.lifetimes.files.executable t with
    | none =>
      rw [runs] at killed
      exact ⟨_,called_refl,(Except.ok.inj killed).symm⟩
    | some id =>
      obtain ⟨files',allowed,-,called⟩ := allow_called inv runs
      simp only [runs,allowed,Except.map] at killed
      exact ⟨files',called,(Except.ok.inj killed).symm⟩
  refine kept_left kept hears (by rw [here]; simp) called lives ?_ (fun other => absurd rfl other)
    (fun other => absurd rfl other) List.nodup_nil (fun id member => by cases member) (fun id member => by cases member)
  intro r same
  obtain rfl := Option.some.inj same
  exact status

end

/-! ### Every step -/

/-- No fault handler fails, and the protocol is in time. -/
def Regular (s : System) : Event → Prop
  | .kernel e => Waits.Timely s.kernel e
  | .process_execute u page _ => Waits.Timely s.kernel (.process_execute u page)
  | .page_fault t vm fault_addr alloc => (Vm.page_fault vm t fault_addr alloc).toOption.isSome = true
  | _ => True

instance (s : System) : ∀ e, Decidable (Regular s e)
  | .kernel e => inferInstanceAs (Decidable (Waits.Timely s.kernel e))
  | .process_execute u page _ => inferInstanceAs (Decidable (Waits.Timely s.kernel (.process_execute u page)))
  | .page_fault t vm fault_addr alloc =>
    inferInstanceAs (Decidable ((Vm.page_fault vm t fault_addr alloc).toOption.isSome = true))
  | .next _ _ | .fail _ | .read _ _ | .catch_addr_error _ _ _ | .syscall _ _ _ _ | .write_returns _ | .kill _ =>
    inferInstanceAs (Decidable True)

theorem user_of_running (running : Running s t) : s.lifetimes.stage t = .user := by
  obtain ⟨stage,-⟩ := running
  generalize s.lifetimes.stage t = st at stage
  cases st with
  | user => rfl
  | _ => cases stage

theorem exit_gives {files files' : Sys} {r r' : Int} (inv : Inv files)
    (exits : Files.syscall_exit files t r = .ok (.exited r' files')) : r' = r := by
  obtain ⟨files₁,same,-⟩ := exit_spec (t := t) inv r
  rw [same] at exits
  cases exits
  rfl

/-- A call that ends its process for what it was given exits with -1. -/
theorem handler_gives {files files' : Sys} {user : User} {space : Space} {c : Call} {r : Int} (inv : Inv files)
    (other : ∀ status, c ≠ .exit status) (ran : syscall_handler files t user space c = .ok (.exited r files')) :
    r = -1 := by
  cases c with
  | halt => cases ran
  | exit status => exact absurd rfl (other status)
  | exec file pid =>
    simp only [syscall_handler,syscall_exec] at ran
    split at ran
    · exact exit_gives inv ran
    · split at ran
      · exact exit_gives inv ran
      · split at ran
        · cases ran
        · split at ran <;> cases ran
  | wait pid ret => cases ran
  | create file initial_size =>
    simp only [syscall_handler,syscall_create] at ran
    split at ran
    · exact exit_gives inv ran
    · split at ran
      · exact exit_gives inv ran
      · split at ran
        · exact exit_gives inv ran
        · obtain ⟨r,-,same⟩ := map_ok ran
          cases same
  | remove file =>
    simp only [syscall_handler,syscall_remove] at ran
    split at ran
    · cases ran
    · obtain ⟨r,-,same⟩ := map_ok ran
      cases same
  | «open» file =>
    simp only [syscall_handler,syscall_open] at ran
    split at ran
    · exact exit_gives inv ran
    · split at ran
      · exact exit_gives inv ran
      · split at ran
        · cases ran
        · split at ran
          · cases ran
          · cases ran
          · split at ran <;> cases ran
  | filesize fd =>
    simp only [syscall_handler,syscall_filesize] at ran
    split at ran <;> cases ran
  | read fd buffer length =>
    simp only [syscall_handler,syscall_read] at ran
    split at ran
    · exact exit_gives inv ran
    · split at ran
      · cases ran
      · split at ran <;> cases ran
  | write fd buffer length =>
    simp only [syscall_handler,syscall_write] at ran
    split at ran
    · exact exit_gives inv ran
    · split at ran
      · cases ran
      · split at ran <;> cases ran
  | seek fd position =>
    obtain ⟨files,-,same⟩ := map_ok ran
    cases same
  | tell fd =>
    obtain ⟨pos,-,same⟩ := map_ok ran
    cases same
  | close fd =>
    simp only [syscall_handler,syscall_close] at ran
    split at ran <;> cases ran
  | other number => cases ran

/-- `thread_exit` gives the thread its status. -/
theorem thread_exit_gives {k k' : Kernel} {u : Processes.Tid} {r : Int}
    (step : Processes.step k (.syscall_exit u r) = some k') :
    (k'.threads u).exited = some r ∧ (k.threads u).creator ≠ 0 := by
  cases (Processes.taken_of_step step).2 with
  | syscall_exit here created => exact ⟨congrArg Processes.Thread.exited (Protocol.setThread_self k u _),created⟩

theorem kept_syscall_exit {r : Int} (kept : Kept s) (running : Running s t) (ran : exits s t how r = some s')
    (minus : ∀ r', how.status = some r' → r' = r) : Kept s' := by
  have here := user_of_running running
  unfold exits at ran
  split at ran
  · next r' files exits =>
    obtain rfl := exit_gives kept.lives.inv exits
    obtain ⟨k,step,rfl⟩ := Option.map_eq_some_iff.mp ran
    refine kept_exits kept (.inr ⟨.syscall_exit _ _,trivial,step⟩) (.inl here) exits fun r told => ?_
    rw [minus r told]
    exact (thread_exit_gives step).1
  · cases ran

theorem kept_killed (kept : Kept s) (running : Running s t) (ran : kill s t = some s') : Kept s' := by
  have here := user_of_running running
  obtain ⟨lifetimes,killed,ran⟩ := Option.bind_eq_some_iff.mp ran
  obtain ⟨k,step,rfl⟩ := Option.map_eq_some_iff.mp ran
  obtain ⟨exited,created⟩ := thread_exit_gives step
  have unset := unexited kept.told.inv running.2 (.inr ⟨_,rfl⟩) created
  refine kept_kill kept (.inr ⟨.syscall_exit _ _,trivial,step⟩) here (ok_of_toOption killed) ?_
  rw [exited,kept.told.zero _ unset]

theorem kept_files {e : Lifetimes.Event} (kept : Kept s)
    (works : ∀ lifetimes, Lifetimes.step s.lifetimes e = .ok lifetimes → Works t s.lifetimes lifetimes)
    (ran : s.works e = some s') : Kept s' := by
  obtain ⟨lifetimes,step,rfl⟩ := Option.map_eq_some_iff.mp ran
  exact kept_works kept (.inl rfl) (works lifetimes (ok_of_toOption step))

theorem kept_protocol {e : Processes.Event} (kept : Kept s) (timely : Waits.Timely s.kernel e) (ran : s.hears e = some s') :
    Kept s' := by
  obtain ⟨k,step,rfl⟩ := Option.map_eq_some_iff.mp ran
  exact kept_hears kept (.inr ⟨e,timely,step⟩)

theorem kept_handled {user : User} {space : Space} {c : Call} (kept : Kept s) (running : Running s t)
    (ran : handled s t user space c = some s') : Kept s' := by
  have here := user_of_running running
  unfold handled at ran
  split at ran
  · next files returned =>
    obtain rfl := Option.some.inj ran
    exact kept_works kept (.inl rfl) (works_returned kept.lives here returned)
  · next r files exited =>
    refine kept_syscall_exit kept running ran fun r' told => ?_
    by_cases exit : ∃ status, c = .exit status
    · obtain ⟨status,rfl⟩ := exit
      cases told
    · rw [handler_gives kept.lives.inv (fun status same => exit ⟨status,same⟩) exited]
      cases c with
      | exit status => exact absurd ⟨status,rfl⟩ exit
      | _ => exact (Option.some.inj told).symm
  · cases ran

theorem kept_syscall {user : User} {space : Space} {c : Call} (kept : Kept s) (running : Running s t)
    (ran : syscall s t user space c = some s') : Kept s' := by
  by_cases writes : ∃ fd buffer length, c = .write fd buffer length
  · obtain ⟨fd,buffer,length,rfl⟩ := writes
    simp only [syscall] at ran
    split at ran
    · next valid => exact kept_files kept (fun lifetimes step => works_write kept.lives valid step) ran
    · exact kept_syscall_exit kept running ran fun r' told => (Option.some.inj told).symm
  · have same : syscall s t user space c = handled s t user space c := by
      cases c with
      | write fd buffer length => exact absurd ⟨fd,buffer,length,rfl⟩ writes
      | _ => rfl
    exact kept_handled kept running (same ▸ ran)

theorem kept_next {space : Space} (kept : Kept s) (ran : next s t space = some s') : Kept s' := by
  unfold next at ran
  cases here : checked (s.lifetimes.stage t) with
  | none =>
    rw [here] at ran
    exact kept_files kept (fun lifetimes step => works_next kept.lives (by rw [here]; simp) step) ran
  | some success =>
    rw [here] at ran
    obtain ⟨k,step,ran⟩ := Option.bind_eq_some_iff.mp ran
    have told := kept_hears kept (k := k) (.inr ⟨.load _ _,trivial,step⟩)
    cases success with
    | true => exact kept_files told (fun lifetimes step => works_next kept.lives (by rw [here]; simp) step) ran
    | false => exact Option.some.inj ran ▸ told

theorem kept_load_fails {k : Kernel} (kept : Kept s) (hears : Hears s.kernel k) (ran : load_fails s t k = some s') :
    Kept s' := by
  unfold load_fails at ran
  split at ran
  · next r files failed exits =>
    obtain rfl := Option.some.inj ran
    obtain rfl := exit_gives kept.lives.inv exits
    generalize here : s.lifetimes.stage t = st at failed
    cases st with
    | start_check success =>
      exact kept_exits kept hears (.inr ⟨success,here⟩) exits fun r told => by cases told
    | _ => cases failed
  · cases ran

theorem kept_run {v : Processes.Tid} (kept : Kept s) (timely : Waits.Timely s.kernel (.run v)) (ran : run s v = some s') :
    Kept s' := by
  obtain ⟨k,step,ran⟩ := Option.bind_eq_some_iff.mp ran
  have hears : Hears s.kernel k := .inr ⟨_,timely,step⟩
  split at ran
  · exact kept_load_fails kept hears ran
  · exact Option.some.inj ran ▸ kept_hears kept hears

theorem kept_step (kept : Kept s) (regular : Regular s e) (ran : step s e = some s') : Kept s' := by
  unfold step at ran
  split at ran
  · cases ran
  · cases e with
    | kernel e =>
      cases e with
      | run v => exact kept_run kept regular ran
      | process_wait v c =>
        obtain ⟨-,ran⟩ := Option.ite_none_right_eq_some.mp ran
        exact kept_protocol (e := .process_wait v c) kept regular ran
      | process_execute_fails v =>
        obtain ⟨-,ran⟩ := Option.ite_none_right_eq_some.mp ran
        exact kept_protocol (e := .process_execute_fails v) kept regular ran
      | reuse page value => exact kept_protocol (e := .reuse page value) kept regular ran
      | process_execute v page => cases ran
      | load v success => cases ran
      | syscall_exit v r => cases ran
    | process_execute v page name =>
      obtain ⟨-,ran⟩ := Option.ite_none_right_eq_some.mp ran
      obtain ⟨k,step,rfl⟩ := Option.map_eq_some_iff.mp ran
      exact kept_works kept (.inr ⟨.process_execute v page,regular,step⟩) (works_process_execute kept.lives name)
    | next t space => exact kept_next kept (Option.ite_none_right_eq_some.mp ran).2
    | fail t =>
      exact kept_files kept (fun lifetimes step => works_fail kept.lives step) (Option.ite_none_right_eq_some.mp ran).2
    | read t pos =>
      exact kept_files kept (fun lifetimes step => works_read kept.lives step) (Option.ite_none_right_eq_some.mp ran).2
    | catch_addr_error t user addr =>
      obtain ⟨running,ran⟩ := Option.ite_none_right_eq_some.mp ran
      split at ran
      · exact Option.some.inj ran ▸ kept
      · exact kept_syscall_exit kept running ran fun r told => (Option.some.inj told).symm
    | syscall t user space c =>
      obtain ⟨running,ran⟩ := Option.ite_none_right_eq_some.mp ran
      exact kept_syscall kept running ran
    | write_returns t => exact kept_files kept (fun lifetimes step => works_write_returns kept.lives step) ran
    | page_fault t vm fault_addr alloc =>
      obtain ⟨running,ran⟩ := Option.ite_none_right_eq_some.mp ran
      unfold page_fault at ran
      split at ran
      · exact Option.some.inj ran ▸ kept
      · exact kept_syscall_exit kept running ran fun r told => (Option.some.inj told).symm
      · next fails =>
        simp only [Regular,fails] at regular
        cases regular
    | kill t =>
      obtain ⟨running,ran⟩ := Option.ite_none_right_eq_some.mp ran
      exact kept_killed kept running ran

theorem kept_boot (root : List (String × Sector)) (inodes : Sector → Inode) : Kept (boot root inodes) where
  runs := rfl
  told := told_boot
  lives := lives_boot root inodes
  ended t how ends := by cases ends
  once := List.nodup_nil
  shut id member := by cases member

theorem reaches_kept {root : List (String × Sector)} {inodes : Sector → Inode}
    (reached : Reaches (machine root inodes) Regular s) : Kept s := by
  refine reaches_invariant Kept ?_ ?_ reached
  · rintro s rfl
    exact kept_boot root inodes
  · exact fun s e s' kept regular ran => kept_step kept regular ran

/-! ### Reports and clean-up -/

/-- The kernel ended the process for what it did. -/
def Abnormal (s : System) (t : Tid) : Prop := ∃ how ∈ s.ends t, how ≠ .exit ∧ how ≠ .load

/-- The process exits with -1, and this is what `process_wait` returns about it. -/
def Reported (s : System) (t : Tid) : Prop :=
  (s.kernel.threads (kernelTid t)).exited = some (-1) ∧ ∀ x ∈ s.kernel.waits, x.child = kernelTid t → x.ret = -1

/-- It has no descriptor, and the file of each that it had was closed once. -/
def CleanedUp (s : System) (t : Tid) : Prop :=
  (∀ m ∈ s.lifetimes.files.fd_name_mapping, m.tid ≠ t) ∧ ∀ id ∈ s.had t, s.closed.count id = 1

/-- In a regular run these are the processes that `kill` did not end. -/
theorem terminated_alike_iff {root : List (String × Sector)} {inodes : Sector → Inode}
    (reached : Reaches (machine root inodes) Regular s) (abnormal : Abnormal s t) :
    Reported s t ∧ CleanedUp s t ↔ s.ends t ≠ some .kill := by
  have kept := reaches_kept reached
  obtain ⟨how,ends,unasked,loaded⟩ := abnormal
  obtain ⟨-,status,dead,closes⟩ := kept.ended t how ends
  rw [show s.ends t = some how from ends]
  constructor
  · rintro ⟨⟨reported,-⟩,-⟩ killed
    obtain rfl := Option.some.inj killed
    rw [status 0 rfl] at reported
    cases reported
  · intro other
    have unkilled : how ≠ .kill := fun same => other (congrArg some same)
    have exited : (s.kernel.threads (kernelTid t)).exited = some (-1) := by
      refine status (-1) ?_
      cases how with
      | exit => exact absurd rfl unasked
      | load => exact absurd rfl loaded
      | kill => exact absurd rfl unkilled
      | _ => rfl
    refine ⟨⟨exited,fun x logged about => ?_⟩,fun m member same => ?_,fun id had => ?_⟩
    · cases direct : x.direct with
      | true =>
        have told := kept.told.delivered x logged direct
        rw [about,exited] at told
        exact (Option.some.inj told).symm
      | false => exact (kept.told.collects x logged).2 direct
    · have live := (kept.lives.inv.entry m member).1
      rw [same,dead unkilled] at live
      cases live
    · exact List.count_eq_one_of_mem kept.once (closes unkilled id had)

def nowhere : User where
  valid _ := false
  memory _ := 0

/-- The initial thread executes a program, which opens a file, and waits for it. -/
def opensFile : List Event :=
  .process_execute 1 3 "program" :: List.replicate 12 (.kernel (.run 1)) ++ List.replicate 9 (.next 0 plenty) ++
    .kernel (.run 3) :: List.replicate 2 (.kernel (.run 1)) ++
    .syscall 0 anywhere plenty (.open { addr := 64, text := "program" }) ::
    .kernel (.process_wait 1 3) :: List.replicate 11 (.kernel (.run 1))

/-- The program ends, and then the wait. -/
def endsBy (e : Event) : List Event :=
  opensFile ++ e :: List.replicate 8 (.kernel (.run 3)) ++ List.replicate 4 (.kernel (.run 1))

def answer (ret : Int) : Processes.Waited where
  caller := 1
  child := 3
  direct := true
  exited := some ret
  ret := ret

theorem terminated_alike_argument : ∃ s,
    guardedRun step Regular (boot programs disk) (endsBy (.catch_addr_error 0 nowhere 0)) = some s ∧
    s.had 0 = [2] ∧ s.kernel.waits = [answer (-1)] ∧ Reported s 0 ∧ CleanedUp s 0 := by
  obtain ⟨s,ran,facts⟩ : ∃ s,
      guardedRun step Regular (boot programs disk) (endsBy (.catch_addr_error 0 nowhere 0)) = some s ∧
      (s.ends 0 = some .catch_addr_error && s.had 0 = [2] && s.kernel.waits = [answer (-1)]) = true :=
    (Option.any_eq_true _ _).mp (by decide +kernel)
  simp only [Bool.and_eq_true,decide_eq_true_eq] at facts
  obtain ⟨⟨ends,had⟩,waits⟩ := facts
  have reached := guardedRun_reachable (boot programs disk) step Regular _ ran
  exact ⟨s,ran,had,waits,(terminated_alike_iff reached ⟨_,ends,by simp,by simp⟩).mpr (by rw [ends]; simp)⟩

/-- `kill` reports 0 and leaves the descriptor. -/
theorem killed_unlike : ∃ s, Reaches (machine programs disk) Anything s ∧ Abnormal s 0 ∧ s.kernel.waits = [answer 0] ∧
    ¬ Reported s 0 ∧ ¬ CleanedUp s 0 := by
  obtain ⟨s,ran,facts⟩ : ∃ s, Machines.run step (boot programs disk) (endsBy (.kill 0)) = some s ∧
      (s.ends 0 = some .kill && s.kernel.waits = [answer 0] &&
        s.lifetimes.files.fd_name_mapping.map Mapping.tid = [0]) = true :=
    (Option.any_eq_true _ _).mp (by decide +kernel)
  simp only [Bool.and_eq_true,decide_eq_true_eq] at facts
  obtain ⟨⟨ends,waits⟩,tids⟩ := facts
  refine ⟨s,run_reachable (boot programs disk) step _ ran,⟨_,ends,by simp,by simp⟩,waits,?_,?_⟩
  · rintro ⟨-,answers⟩
    have zero := answers (answer 0) (by rw [waits]; exact List.mem_singleton.mpr rfl) rfl
    cases zero
  · rintro ⟨none_,-⟩
    have listed : (0 : Tid) ∈ s.lifetimes.files.fd_name_mapping.map Mapping.tid := by
      rw [tids]
      exact List.mem_singleton.mpr rfl
    obtain ⟨m,member,tid⟩ := List.mem_map.mp listed
    exact none_ m member tid

/-! ### Nothing is in the way -/

theorem running_created (kept : Kept s) (running : Running s t) : (s.kernel.threads (kernelTid t)).creator ≠ 0 := by
  have live := Protocol.live_of_pc kept.told.inv.sound running.2 (by simp)
  refine kept.told.created _ ?_ (kept.told.inv.sound.ids _ live).2
  exact Int.le_add_of_nonneg_left (Int.natCast_nonneg t)

theorem thread_exit_step {r : Int} (kept : Kept s) (running : Running s t) :
    Processes.step s.kernel (.syscall_exit (kernelTid t) r) = some (Processes.syscall_exit s.kernel (kernelTid t) r) := by
  unfold Processes.step
  rw [if_neg (not_not.mpr kept.told.inv.runs)]
  exact if_pos ⟨running.2,running_created kept running⟩

theorem exits_ends {r : Int} (kept : Kept s) (running : Running s t) (how : End) :
    ∃ s', exits s t how r = some s' ∧ s'.ends t = some how := by
  obtain ⟨files,exits_,-⟩ := exit_spec (t := t) kept.lives.inv r
  refine ⟨{ s.left t how (s.lifetimes.leave t files) (loopCloses s.lifetimes.files t) with
    kernel := Processes.syscall_exit s.kernel (kernelTid t) r },?_,?_⟩
  · simp only [exits,exits_]
    exact congrArg (Option.map _) (thread_exit_step kept running)
  · exact Function.update_self t (some how) s.ends

/-- Nothing stands in the way of an end. -/
theorem abnormal_ends {root : List (String × Sector)} {inodes : Sector → Inode}
    (reached : Reaches (machine root inodes) Regular s) (running : Running s t) :
    (∀ user addr, user.valid addr = false →
      ∃ s', step s (.catch_addr_error t user addr) = some s' ∧ s'.ends t = some .catch_addr_error) ∧
    (∀ vm fault_addr alloc vm', Vm.page_fault vm t fault_addr alloc = .ok (.exited vm') →
      ∃ s', step s (.page_fault t vm fault_addr alloc) = some s' ∧ s'.ends t = some .page_fault) ∧
    ∃ s', step s (.kill t) = some s' ∧ s'.ends t = some .kill := by
  have kept := reaches_kept reached
  refine ⟨fun user addr invalid => ?_,fun vm fault_addr alloc vm' exited => ?_,?_⟩
  · obtain ⟨s',ran,ends⟩ := exits_ends (r := -1) kept running .catch_addr_error
    refine ⟨s',?_,ends⟩
    simp only [step,kept.runs,running,invalid,Bool.false_eq_true,↓reduceIte]
    exact ran
  · obtain ⟨s',ran,ends⟩ := exits_ends (r := -1) kept running .page_fault
    refine ⟨s',?_,ends⟩
    simp only [step,kept.runs,running,page_fault,exited,Bool.false_eq_true,↓reduceIte]
    exact ran
  · have killed : ∃ lifetimes, Lifetimes.kill s.lifetimes t = .ok lifetimes := by
      unfold Lifetimes.kill
      cases runs : s.lifetimes.files.executable t with
      | none => exact ⟨_,rfl⟩
      | some id =>
        obtain ⟨files',allowed,-⟩ := allow_called kept.lives.inv runs
        simp only [allowed]
        exact ⟨_,rfl⟩
    obtain ⟨lifetimes,killed⟩ := killed
    refine ⟨{ s.left t .kill lifetimes [] with
      kernel := Processes.syscall_exit s.kernel (kernelTid t) (s.kernel.threads (kernelTid t)).exit_status },?_,?_⟩
    · simp only [step,kept.runs,running,kill,killed,Bool.false_eq_true,↓reduceIte]
      exact congrArg (Option.map _) (thread_exit_step kept running)
    · exact Function.update_self t (some .kill) s.ends

/-- A page fault that its handler cannot handle is the end of the kernel, and nobody hears of the process. -/
theorem failing_page_fault {root : List (String × Sector)} {inodes : Sector → Inode} {vm : Vm.Vm} {fault_addr : Nat}
    {alloc : Bool} {fault : Vm.Fault} (reached : Reaches (machine root inodes) Regular s) (running : Running s t)
    (fails : Vm.page_fault vm t fault_addr alloc = .error fault) :
    ∃ s', step s (.page_fault t vm fault_addr alloc) = some s' ∧ s'.panicked = true ∧ Abnormal s' t ∧
      ¬ Reported s' t := by
  have kept := reaches_kept reached
  refine ⟨{ s.left t .page_fault s.lifetimes [] with panicked := true },?_,rfl,?_,?_⟩
  · simp only [step,kept.runs,running,page_fault,fails,Bool.false_eq_true,↓reduceIte]
  · refine ⟨.page_fault,?_,by simp,by simp⟩
    exact Function.update_self t (some .page_fault) s.ends
  · rintro ⟨exited,-⟩
    have unset := unexited kept.told.inv running.2 (.inr ⟨_,rfl⟩) (running_created kept running)
    exact absurd (exited.symm.trans unset) (by simp)

end Pintos.Terminations
