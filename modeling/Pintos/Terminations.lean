import Pintos.FdMappings
import Pintos.LifetimeRuns
import Pintos.Processes
import Pintos.Vm

/-!
The ways in which a process ends, over the protocol of `process_execute`, `process_wait` and
`thread_exit` on one side and the descriptors and files of processes on the other. A step is one
of either side or of both. A system call of `exec` or `wait` is its checks, and then
`process_execute` or `process_wait`. A page fault comes from user code, or from a system call that
has not changed anything yet; the virtual memory that `page_fault` finds is an argument.

`ends`, `had` and `closed` are not in the source: how a process ended, the files of the
descriptors that it had then, and the files that the loop of `syscall_exit` has closed.
-/
namespace Pintos.Terminations
open Pintos.Machines Pintos.Lifetimes Pintos.FileCounts Pintos.FdMappings
open Pintos.Files hiding Event step boot machine start_process
open Pintos.Processes (Kernel Page)
set_option linter.unusedSimpArgs false

/-- The kernel's tid of a process. The initial thread and the idle thread have no files. -/
def kernelTid (t : Tid) : Processes.Tid := t + 3

inductive End
  | exit
  /-- `load` fails. -/
  | load
  | catch_addr_error
  | page_fault
  | kill
deriving DecidableEq

structure System where
  kernel : Kernel
  lifetimes : Lifetimes.System
  ends : Tid → Option End
  had : Tid → List FileId
  closed : List FileId
  panicked : Bool

inductive Event
  | kernel (e : Processes.Event)
  | process_execute (u : Processes.Tid) (page : Page) (name : String)
  /-- `load` and `start_process`. -/
  | next (t : Tid) (space : Space)
  | fail (t : Tid)
  | read (t : Tid) (pos : Nat)
  /-- `syscall_handler` looks at its stack pointer or at the place of an argument. -/
  | catch_addr_error (t : Tid) (user : User) (addr : UInt32)
  | syscall (t : Tid) (user : User) (space : Space) (c : Call)
  | write_returns (t : Tid)
  | page_fault (t : Tid) (vm : Vm.Vm) (fault_addr : Nat) (alloc : Bool)
  | kill (t : Tid)

/-! ### Ends -/

def atUser : Stage → Bool
  | .user => true
  | _ => false

/-- The process runs its own code. -/
def Running (s : System) (t : Tid) : Prop :=
  atUser (s.lifetimes.stage t) = true ∧ (s.kernel.threads (kernelTid t)).pc = .run .user

instance (s : System) (t : Tid) : Decidable (Running s t) := inferInstanceAs (Decidable (_ ∧ _))

/-- The files of its descriptors. -/
def mine (files : Sys) (t : Tid) : List FileId := (files.fd_name_mapping.filter fun m => m.tid = t).map Mapping.file

/-- The files that the loop of `syscall_exit` closes. -/
def loopCloses (files : Sys) (t : Tid) : List FileId :=
  match exitCloses files.fd_name_mapping.length files t with
  | .ok r => r.1
  | .error _ => []

/-- The process has ended on the side of the files. -/
def System.left (s : System) (t : Tid) (how : End) (lifetimes : Lifetimes.System) (closed : List FileId) : System :=
  { s with
    lifetimes := lifetimes
    ends := Function.update s.ends t (some how)
    had := Function.update s.had t (mine s.lifetimes.files t)
    closed := s.closed ++ closed }

/-- `thread_exit`, with the member `exit_status` of the thread. -/
def thread_exit (s : System) (t : Tid) (status : Int) : Option System :=
  (Processes.step s.kernel (.syscall_exit (kernelTid t) status)).map fun kernel => { s with kernel := kernel }

/-- `syscall_exit`. -/
def exits (s : System) (t : Tid) (how : End) (status : Int) : Option System :=
  match Files.syscall_exit s.lifetimes.files t status with
  | .ok (.exited _ files) =>
    thread_exit (s.left t how (s.lifetimes.leave t files) (loopCloses s.lifetimes.files t)) t status
  | _ => none

/-- `kill` calls `thread_exit` at once. -/
def kill (s : System) (t : Tid) : Option System :=
  (Lifetimes.kill s.lifetimes t).toOption.bind fun lifetimes =>
    thread_exit (s.left t .kill lifetimes []) t (s.kernel.threads (kernelTid t)).exit_status

/-! ### Steps -/

def howEnded : Call → End
  | .exit _ => .exit
  | _ => .catch_addr_error

/-- A step on the side of the files alone. -/
def System.works (s : System) (e : Lifetimes.Event) : Option System :=
  (Lifetimes.step s.lifetimes e).toOption.map fun lifetimes => { s with lifetimes := lifetimes }

def handled (s : System) (t : Tid) (user : User) (space : Space) (c : Call) : Option System :=
  match syscall_handler s.lifetimes.files t user space c with
  | .ok (.returned _ files) => some { s with lifetimes := { s.lifetimes with files := files } }
  | .ok (.exited status _) => exits s t (howEnded c) status
  | _ => none

/-- The calls that write are two steps where both calls of `catch_addr_error` return. -/
def syscall (s : System) (t : Tid) (user : User) (space : Space) : Call → Option System
  | .write fd buffer length =>
    if validBuffer user buffer length then s.works (.write t user fd buffer length) else exits s t .catch_addr_error (-1)
  | c => handled s t user space c

/-- A fault in the handler stops the kernel. -/
def page_fault (s : System) (t : Tid) (vm : Vm.Vm) (fault_addr : Nat) (alloc : Bool) : Option System :=
  match Vm.page_fault vm t fault_addr alloc with
  | .ok (.returned _) => some s
  | .ok (.exited _) => exits s t .page_fault (-1)
  | .error _ => some { s.left t .page_fault s.lifetimes [] with panicked := true }

def checked : Stage → Option Bool
  | .start_check success => some success
  | _ => none

/-- A statement of `load` or `start_process`. The kernel hears of the result where it is looked at. -/
def next (s : System) (t : Tid) (space : Space) : Option System :=
  match checked (s.lifetimes.stage t) with
  | none => s.works (.next t space)
  | some success =>
    (Processes.step s.kernel (.load (kernelTid t) success)).bind fun kernel =>
      if success then { s with kernel := kernel }.works (.next t space) else some { s with kernel := kernel }

/-- `start_process` calls `syscall_exit`. -/
def load_fails (s : System) (t : Tid) (kernel : Kernel) : Option System :=
  match checked (s.lifetimes.stage t),Files.syscall_exit s.lifetimes.files t (-1) with
  | some false,.ok (.exited _ files) =>
    some { s.left t .load (s.lifetimes.leave t files) (loopCloses s.lifetimes.files t) with kernel := kernel }
  | _,_ => none

/-- A step of the protocol. -/
def run (s : System) (u : Processes.Tid) : Option System :=
  (Processes.step s.kernel (.run u)).bind fun kernel =>
    if (s.kernel.threads u).pc = .failed_up then load_fails s (u - 3).toNat kernel else some { s with kernel := kernel }

/-- A process that is in the middle of a write does not call anything. -/
def Calls (s : System) (u : Processes.Tid) : Prop := u < 3 ∨ atUser (s.lifetimes.stage (u - 3).toNat) = true

instance (s : System) (u : Processes.Tid) : Decidable (Calls s u) := inferInstanceAs (Decidable (_ ∨ _))

/-- A step of the protocol alone. -/
def System.hears (s : System) (e : Processes.Event) : Option System :=
  (Processes.step s.kernel e).map fun kernel => { s with kernel := kernel }

def kernelStep (s : System) : Processes.Event → Option System
  | .run u => run s u
  | .process_wait u c => if Calls s u then s.hears (.process_wait u c) else none
  | .process_execute_fails u => if Calls s u then s.hears (.process_execute_fails u) else none
  | .reuse page value => s.hears (.reuse page value)
  | .process_execute _ _ | .load _ _ | .syscall_exit _ _ => none

def step (s : System) (e : Event) : Option System :=
  if s.panicked then none
  else
    match e with
    | .kernel e => kernelStep s e
    | .process_execute u page name =>
      if Calls s u then
        (Processes.step s.kernel (.process_execute u page)).map fun kernel =>
          { s with kernel := kernel, lifetimes := Lifetimes.process_execute s.lifetimes name }
      else none
    | .next t space => if (s.kernel.threads (kernelTid t)).pc = .load then next s t space else none
    | .fail t => if (s.kernel.threads (kernelTid t)).pc = .load then s.works (.fail t) else none
    | .read t pos => if (s.kernel.threads (kernelTid t)).pc = .load then s.works (.read t pos) else none
    | .catch_addr_error t user addr =>
      if Running s t then if user.valid addr then some s else exits s t .catch_addr_error (-1) else none
    | .syscall t user space c => if Running s t then syscall s t user space c else none
    | .write_returns t => s.works (.write_returns t)
    | .page_fault t vm fault_addr alloc => if Running s t then page_fault s t vm fault_addr alloc else none
    | .kill t => if Running s t then kill s t else none

def boot (root : List (String × Sector)) (inodes : Sector → Inode) : System where
  kernel := Processes.boot
  lifetimes := Lifetimes.boot root inodes
  ends _ := none
  had _ := []
  closed := []
  panicked := false

def machine (root : List (String × Sector)) (inodes : Sector → Inode) : Machine System Event :=
  ofStep (boot root inodes) step

variable {s s' : System} {t u : Tid} {how : End} {e : Event}

/-! ### Steps in which no process ends -/

/-- What `load` and `start_process` leave alone of the descriptors. -/
structure Steady (s s' : Sys) : Prop where
  fd_name_mapping : s'.fd_name_mapping = s.fd_name_mapping
  live : s'.live = s.live
  next_file : s.next_file ≤ s'.next_file

theorem steady_open {s s' : Sys} {name : Option String} {space : Space} {file : Option FileId}
    (ran : filesys_open s name space = .ok (file,s')) : Steady s s' := by
  unfold filesys_open at ran
  split at ran
  · cases ran
    exact ⟨rfl,rfl,Nat.le_refl _⟩
  · split at ran
    · cases ran
    · split at ran
      · cases ran
        exact ⟨rfl,rfl,Nat.le_refl _⟩
      · split at ran
        · cases ran
          rw [inode_open_frame]
          exact ⟨rfl,rfl,Nat.le_succ _⟩
        · cases ran
          exact ⟨rfl,rfl,Nat.le_refl _⟩

theorem steady_deny {s s' : Sys} {id : FileId} (ran : file_deny_write s id = .ok s') : Steady s s' := by
  unfold file_deny_write inode_deny_write at ran
  split at ran
  · cases ran
  · split at ran
    · cases ran
      exact ⟨rfl,rfl,Nat.le_refl _⟩
    · dsimp only at ran
      split at ran <;> cases ran
      exact ⟨rfl,rfl,Nat.le_refl _⟩

theorem steady_allow {s s' : Sys} {id : FileId} (ran : file_allow_write s id = .ok s') : Steady s s' := by
  unfold file_allow_write inode_allow_write at ran
  split at ran
  · cases ran
  · split at ran
    · dsimp only at ran
      split at ran <;> cases ran
      exact ⟨rfl,rfl,Nat.le_refl _⟩
    · cases ran
      exact ⟨rfl,rfl,Nat.le_refl _⟩

theorem steady_close {s s' : Sys} {id : FileId} (ran : file_close s id = .ok s') : Steady s s' := by
  unfold file_close at ran
  split at ran
  · cases ran
  · obtain ⟨allowed,how,rfl⟩ := map_ok ran
    have steady := steady_allow how
    exact ⟨steady.fd_name_mapping,steady.live,steady.next_file⟩

/-- What a step of a process leaves alone of the others, and of files that no descriptor is for. -/
structure Works (t : Tid) (s s' : Lifetimes.System) : Prop where
  lives : Lives s'
  runs : s.stage t ≠ .gone
  stage : ∀ u, u ≠ t → s'.stage u = s.stage u
  live : ∀ u, u ≠ t → s'.files.live u = s.files.live u
  mapped : ∀ m ∈ s'.files.fd_name_mapping,
    (∃ m' ∈ s.files.fd_name_mapping, m'.file = m.file) ∨ s.files.next_file ≤ m.file
  next_file : s.files.next_file ≤ s'.files.next_file

section
variable {s s' : Lifetimes.System} {files' : Sys} {e : Lifetimes.Event} {space : Space}

theorem works_steady (lives : Lives s') (runs : s.stage t ≠ .gone) (stage : ∀ u, u ≠ t → s'.stage u = s.stage u)
    (steady : Steady s.files s'.files) : Works t s s' where
  lives := lives
  runs := runs
  stage := stage
  live u _ := by rw [steady.live]
  mapped m member := .inl ⟨m,steady.fd_name_mapping ▸ member,rfl⟩
  next_file := steady.next_file

theorem works_called (lives : Lives s') (runs : s.stage t ≠ .gone) (stage : ∀ u, u ≠ t → s'.stage u = s.stage u)
    (called : Called t false s.files s'.files) : Works t s s' where
  lives := lives
  runs := runs
  stage := stage
  live u _ := called.live u (.inl rfl)
  mapped := called.mapped
  next_file := called.next_file

theorem setStage_other (s : Lifetimes.System) (v : Stage) (u : Tid) (other : u ≠ t) :
    (s.setStage t v).stage u = s.stage u :=
  Function.update_of_ne other _ _

/-- The statements before the last one. -/
theorem next_steady (unchecked : checked (s.stage t) = none) (ran : Lifetimes.next s t space (s.stage t) = .ok s') :
    s.stage t ≠ .gone ∧ (∀ u, u ≠ t → s'.stage u = s.stage u) ∧ Steady s.files s'.files := by
  have same : Steady s.files s.files := ⟨rfl,rfl,Nat.le_refl _⟩
  generalize here : s.stage t = st at unchecked ran
  cases st with
  | unborn | user | writing id inode buffer size offset | gone => cases ran
  | load_open name =>
    cases opens : filesys_open s.files (some name) space with
    | error fault =>
      simp only [Lifetimes.next,opens] at ran
      cases ran
    | ok r =>
      obtain ⟨file,files⟩ := r
      simp only [Lifetimes.next,opens] at ran
      obtain rfl := Except.ok.inj ran
      refine ⟨by simp,fun u other => ?_,?_⟩
      · cases file <;> exact setStage_other _ _ u other
      · cases file <;> exact steady_open opens
  | load_deny name id =>
    cases denied : file_deny_write s.files id with
    | error fault =>
      simp only [Lifetimes.next,denied] at ran
      cases ran
    | ok files =>
      simp only [Lifetimes.next,denied] at ran
      obtain rfl := Except.ok.inj ran
      exact ⟨by simp,setStage_other s _,steady_deny denied⟩
  | load_header name id =>
    simp only [Lifetimes.next] at ran
    split at ran
    · cases ran
    · obtain rfl := Except.ok.inj ran
      exact ⟨by simp,setStage_other s _,⟨rfl,rfl,Nat.le_refl _⟩⟩
  | load_read name id =>
    obtain rfl := Except.ok.inj ran
    exact ⟨by simp,setStage_other s _,same⟩
  | load_allow name id =>
    cases allowed : file_allow_write s.files id with
    | error fault =>
      simp only [Lifetimes.next,allowed] at ran
      cases ran
    | ok files =>
      simp only [Lifetimes.next,allowed] at ran
      obtain rfl := Except.ok.inj ran
      exact ⟨by simp,setStage_other s _,steady_allow allowed⟩
  | load_close name file success =>
    cases file with
    | none =>
      obtain rfl := Except.ok.inj ran
      exact ⟨by simp,setStage_other s _,same⟩
    | some id =>
      cases closed : file_close s.files id with
      | error fault =>
        simp only [Lifetimes.next,closed] at ran
        cases ran
      | ok files =>
        simp only [Lifetimes.next,closed] at ran
        obtain rfl := Except.ok.inj ran
        exact ⟨by simp,setStage_other s _,steady_close closed⟩
  | start_open name success =>
    cases opens : filesys_open s.files (some name) space with
    | error fault =>
      simp only [Lifetimes.next,opens] at ran
      cases ran
    | ok r =>
      obtain ⟨file,files⟩ := r
      simp only [Lifetimes.next,opens] at ran
      obtain rfl := Except.ok.inj ran
      have steady := steady_open opens
      refine ⟨by simp,fun u other => ?_,?_⟩
      · cases file <;> exact setStage_other _ _ u other
      · cases file <;> exact ⟨steady.fd_name_mapping,steady.live,steady.next_file⟩
  | start_deny success id =>
    cases denied : file_deny_write s.files id with
    | error fault =>
      simp only [Lifetimes.next,denied] at ran
      cases ran
    | ok files =>
      simp only [Lifetimes.next,denied] at ran
      obtain rfl := Except.ok.inj ran
      exact ⟨by simp,setStage_other s _,steady_deny denied⟩
  | start_check success => cases unchecked

theorem works_next (lives : Lives s) (unfailed : checked (s.stage t) ≠ some false)
    (ran : Lifetimes.step s (.next t space) = .ok s') : Works t s s' := by
  have lives' := lives_step lives ran
  change Lifetimes.next s t space (s.stage t) = .ok s' at ran
  cases here : checked (s.stage t) with
  | none =>
    obtain ⟨runs,stage,steady⟩ := next_steady here ran
    exact works_steady lives' runs stage steady
  | some success =>
    generalize at_ : s.stage t = st at here ran unfailed
    cases st with
    | start_check success =>
      cases success with
      | true =>
        obtain rfl := Except.ok.inj ran
        exact works_steady lives' (by rw [at_]; simp) (setStage_other s _) ⟨rfl,rfl,Nat.le_refl _⟩
      | false => exact absurd rfl unfailed
    | _ => cases here

theorem works_fail (lives : Lives s) (ran : Lifetimes.step s (.fail t) = .ok s') : Works t s s' := by
  have lives' := lives_step lives ran
  change Lifetimes.fail s t (s.stage t) = .ok s' at ran
  generalize here : s.stage t = st at ran
  cases st with
  | load_open name =>
    obtain rfl := Except.ok.inj ran
    exact works_steady lives' (by rw [here]; simp) (setStage_other s _) ⟨rfl,rfl,Nat.le_refl _⟩
  | load_read name id =>
    obtain rfl := Except.ok.inj ran
    exact works_steady lives' (by rw [here]; simp) (setStage_other s _) ⟨rfl,rfl,Nat.le_refl _⟩
  | _ => cases ran

theorem works_read {pos : Nat} (lives : Lives s) (ran : Lifetimes.step s (.read t pos) = .ok s') : Works t s s' := by
  have lives' := lives_step lives ran
  change Lifetimes.read s pos (s.stage t) = .ok s' at ran
  generalize here : s.stage t = st at ran
  cases st with
  | load_read name id =>
    obtain ⟨files,sought,rfl⟩ := map_ok ran
    refine works_steady lives' (by rw [here]; simp) (fun _ _ => rfl) ?_
    unfold file_seek at sought
    split at sought
    · cases sought
    · split at sought
      · cases sought
      · cases sought
        exact ⟨rfl,rfl,Nat.le_refl _⟩
  | _ => cases ran

theorem works_write_returns (lives : Lives s) (ran : Lifetimes.step s (.write_returns t) = .ok s') : Works t s s' := by
  have lives' := lives_step lives ran
  change Lifetimes.write_returns s t (s.stage t) = .ok s' at ran
  generalize here : s.stage t = st at ran
  cases st with
  | writing id inode buffer size offset =>
    obtain rfl := Except.ok.inj ran
    exact works_called lives' (by rw [here]; simp) (setStage_other s _) (called_write_returns lives.inv.toCounted)
  | _ => cases ran

theorem works_write {user : User} {fd : Int} {buffer length : UInt32} (lives : Lives s)
    (valid : validBuffer user buffer length = true)
    (ran : Lifetimes.step s (.write t user fd buffer length) = .ok s') : Works t s s' := by
  have lives' := lives_step lives ran
  cases here : s.stage t with
  | user =>
    simp only [Lifetimes.step,here] at ran
    rcases write_cases ran with ⟨invalid,-⟩ | rfl | ⟨id,f,-,-,rfl⟩
    · rw [valid] at invalid
      cases invalid
    · exact works_steady lives' (by rw [here]; simp) (fun _ _ => rfl) ⟨rfl,rfl,Nat.le_refl _⟩
    · exact works_steady lives' (by rw [here]; simp) (setStage_other s _) ⟨rfl,rfl,Nat.le_refl _⟩
  | _ =>
    simp only [Lifetimes.step,here] at ran
    cases ran

/-- A system call that returns. -/
theorem works_returned {user : User} {c : Call} {eax : Option Int} (lives : Lives s) (here : s.stage t = .user)
    (ran : syscall_handler s.files t user space c = .ok (.returned eax files')) : Works t s { s with files := files' } := by
  have leaves := leaves_handler lives.inv (awake (lives.own t) here (by simp) (by simp)) ran
  have lives' : Lives { s with files := files' } := lives_outcome lives here leaves rfl
  cases leaves with
  | returned inv called => exact works_called lives' (by rw [here]; simp) (fun _ _ => rfl) called

theorem works_process_execute (lives : Lives s) (name : String) :
    Works s.files.next_tid s (Lifetimes.process_execute s name) where
  lives := lives_process_execute lives name
  runs := by
    rw [lives.unborn s.files.next_tid (Nat.le_refl _)]
    simp
  stage u other := Function.update_of_ne other _ _
  live u other := if_neg other
  mapped m member := .inl ⟨m,member,rfl⟩
  next_file := Nat.le_refl _

end

end Pintos.Terminations
