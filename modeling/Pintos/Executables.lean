import Pintos.LifetimeRuns

/-!
What becomes of the files that a process has of its executable. The one of `load` is closed
there; `t->file` is never closed, so that its inode stays open when the last process that ran
the program is gone. Between `file_allow_write` in `load` and `file_deny_write` in
`start_process`, and for as long as `t->file` is null or is on another inode, the inode of the
program may be written.
-/
namespace Pintos.Executables
open Pintos.Machines Pintos.FileCounts Pintos.Lifetimes
open Pintos.Files (Tid FileId Sector User Space Call Unused find_file_by_fd file_allow_write)
set_option linter.unusedSimpArgs false
variable {root : List (String × Sector)} {inodes : Sector → Files.Inode} {s s' : System} {t u : Tid} {h id : FileId} {i : Sector}
  {e : Event}

/-! ### The files are returned -/

/-- The processes that have a file on the inode from `load` or `start_process` are gone, and the
    descriptors on it are closed. -/
structure Abandoned (s : System) (i : Sector) : Prop where
  exited : ∀ t h, Holds s t h → on s.files i h = true → s.stage t = .gone
  closed : ∀ m ∈ s.files.fd_name_mapping, on s.files i m.file = true → m.file_state = .FILE_CLOSED

/-- `inode_close` took the inode off `open_inodes`, and gave its sectors back if the directory
    has no entry for it. -/
def Released (s : System) (i : Sector) : Prop :=
  (s.files.inodes i).open_cnt = 0 ∧ ((∀ e ∈ s.files.root, e.2 ≠ i) → Unused s.files i)

/-- Every file of a process that is gone was closed once, and inodes are released. -/
structure Returned (s : System) : Prop where
  handles : ∀ t, s.stage t = .gone → ∀ h ∈ s.obtained t, s.closed.count h = 1
  inodes : ∀ i, Abandoned s i → Released s i

/-- `filesys_open` in `start_process` gave no file to a process that is gone, and `syscall_exit`
    has closed the descriptors on abandoned inodes. -/
structure Bare (s : System) : Prop where
  executable : ∀ t, s.stage t = .gone → s.files.executable t = none
  descriptors : ∀ i, Abandoned s i → ∀ m ∈ s.files.fd_name_mapping, on s.files i m.file = false

/-- A process that is gone holds its executable, which was not closed, and nothing else. -/
theorem gone_holds (gone : s.stage t = .gone) : Holds s t h ↔ s.files.executable t = some h := by
  rw [Holds,gone]
  exact or_iff_right List.not_mem_nil

theorem closed_once_iff (lives : Lives s) (gone : s.stage t = .gone) :
    (∀ h ∈ s.obtained t, s.closed.count h = 1) ↔ s.files.executable t = none := by
  have own := lives.own t
  constructor
  · intro once
    cases runs : s.files.executable t with
    | none => rfl
    | some h =>
      have held : Holds s t h := .inr runs
      have member := own.obtains h held
      have never := (own.closes h member).1 held
      rw [once h member] at never
      cases never
  · intro none_ h member
    refine (own.closes h member).2 fun held => ?_
    rw [gone_holds gone,none_] at held
    cases held

/-- An inode is open just when a file is on it. -/
theorem open_cnt_zero (lives : Lives s) (i : Sector) : (s.files.inodes i).open_cnt = 0 ↔ ∀ id, on s.files i id = false := by
  rw [lives.inv.opens,List.countP_eq_zero]
  constructor
  · intro none_ id
    by_cases known : id < s.files.next_file
    · exact Bool.eq_false_iff.mpr (none_ id (List.mem_range.mpr known))
    · rw [on,lives.inv.fresh id (Nat.not_lt.mp known)]
      rfl
  · intro none_ id _
    rw [none_ id]
    exact Bool.false_ne_true

/-- The files of a process that is gone are all closed just when it had none from `start_process`. -/
theorem executables_returned_iff (reached : Reaches (machine root inodes) Anything s) : Returned s ↔ Bare s := by
  have lives := reaches_lives reached
  constructor
  · intro returned
    refine ⟨fun t gone => (closed_once_iff lives gone).mp (returned.handles t gone),fun i abandoned m _ => ?_⟩
    exact (open_cnt_zero lives i).mp (returned.inodes i abandoned).1 m.file
  · intro bare
    refine ⟨fun t gone => (closed_once_iff lives gone).mpr (bare.executable t gone),fun i abandoned => ?_⟩
    have closed : (s.files.inodes i).open_cnt = 0 := by
      refine (open_cnt_zero lives i).mpr fun id => ?_
      by_contra still
      have still : on s.files i id = true := Bool.not_eq_false _ |>.mp still
      obtain ⟨f,found⟩ : ∃ f, s.files.files id = some f := by
        cases found : s.files.files id with
        | none => simp [on,found] at still
        | some f => exact ⟨f,rfl⟩
      rcases lives.owned id f found with ⟨m,member,rfl⟩ | ⟨t,held⟩
      · rw [bare.descriptors i abandoned m member] at still
        cases still
      · have gone := abandoned.exited t id held still
        rw [gone_holds gone,bare.executable t gone] at held
        cases held
    exact ⟨closed,fun unlisted => ⟨closed,unlisted⟩⟩

/-- Two programs. -/
def programs : List (String × Sector) := [("editor",2),("program",3)]
def disk (_ : Sector) : Files.Inode :=
  { open_cnt := 0, removed := false, deny_write_cnt := 0, length := 100, bytes := fun _ => 0 }
def plenty : Space where
  root := true
  sector := none
  data := true
  slot := true
  memory := true

def anywhere : User where
  valid _ := true
  memory _ := 0

/-- A process whose program is not there. -/
def fails : List Event := .process_execute "nothing" :: List.replicate 4 (.next 0 plenty)

def left : Stage → Bool
  | .gone => true
  | _ => false

theorem left_gone {v : Stage} (gone : left v = true) : v = .gone := by
  cases v <;> first | rfl | cases gone

/-- Where there was only one process. -/
theorem only_first (lives : Lives s) (one : s.files.next_tid = 1) (started : s.stage t ≠ .unborn) : t = 0 := by
  have first := born lives started
  rw [one] at first
  exact Nat.lt_one_iff.mp first

theorem executables_returned_failed : ∃ s, run (fun s e => (step s e).toOption) (boot programs disk) fails = some s ∧
    s.stage 0 = .gone ∧ Returned s := by
  obtain ⟨s,ran,facts⟩ : ∃ s, run (fun s e => (step s e).toOption) (boot programs disk) fails = some s ∧
      (left (s.stage 0) && s.files.next_tid = 1 && s.files.executable 0 = none && s.files.fd_name_mapping = []) = true :=
    (Option.any_eq_true _ _).mp (by decide +kernel)
  simp only [Bool.and_eq_true,decide_eq_true_eq] at facts
  obtain ⟨⟨⟨gone,one⟩,none_⟩,empty⟩ := facts
  have reached := run_reachable (boot programs disk) (fun s e => (step s e).toOption) fails ran
  refine ⟨s,ran,left_gone gone,(executables_returned_iff reached).mpr ⟨fun t exited => ?_,fun i _ m member => ?_⟩⟩
  · obtain rfl := only_first (reaches_lives reached) one (show s.stage t ≠ .unborn by rw [exited]; simp)
    exact none_
  · rw [empty] at member
    cases member

/-- `load` and `start_process` of a process whose program loads. -/
def starts (t : Tid) (name : String) : List Event := .process_execute name :: List.replicate 9 (.next t plenty)

/-- A process that runs its program and exits. -/
def exits : List Event := starts 0 "program" ++ [.syscall 0 anywhere plenty (.exit 0)]

/-- The second file of the process was never closed, and the inode is still open. -/
theorem executable_never_closed : ∃ s, Reaches (machine programs disk) Anything s ∧ s.stage 0 = .gone ∧
    s.obtained 0 = [0,1] ∧ s.closed = [0] ∧ Abandoned s 3 ∧ (s.files.inodes 3).open_cnt = 1 ∧ ¬ Returned s := by
  obtain ⟨s,ran,facts⟩ : ∃ s, run (fun s e => (step s e).toOption) (boot programs disk) exits = some s ∧
      (left (s.stage 0) && s.files.next_tid = 1 && s.obtained 0 = [0,1] && s.closed = [0] && s.files.fd_name_mapping = [] &&
        (s.files.inodes 3).open_cnt = 1) = true := (Option.any_eq_true _ _).mp (by decide +kernel)
  simp only [Bool.and_eq_true,decide_eq_true_eq] at facts
  obtain ⟨⟨⟨⟨⟨gone,one⟩,obtained⟩,closed⟩,empty⟩,open_cnt⟩ := facts
  have reached := run_reachable (boot programs disk) (fun s e => (step s e).toOption) exits ran
  have abandoned : Abandoned s 3 := by
    refine ⟨fun t h held _ => ?_,fun m member => ?_⟩
    · obtain rfl := only_first (reaches_lives reached) one (holds_born (reaches_lives reached) held)
      exact left_gone gone
    · rw [empty] at member
      cases member
  refine ⟨s,reached,left_gone gone,obtained,closed,abandoned,open_cnt,fun returned => ?_⟩
  rw [(returned.inodes 3 abandoned).1] at open_cnt
  cases open_cnt

/-! ### Nothing writes a program that runs -/

/-- The inode of a process that is in `inode_write_at`, past the check of `deny_write_cnt`. -/
def writes : Stage → Option Sector
  | .writing _ inode _ _ _ => some inode
  | _ => none

/-- No call of `inode_write_at` returns a positive count where the inode is that of a program
    which is loaded or runs. -/
def Undisturbed (s : System) : Prop := ∀ t u id i buffer size offset, s.stage t = .writing id i buffer size offset →
  s.program u = some i → ¬ 0 < (rest_of_write s i buffer size offset).1

/-- `load` has allowed writes and `start_process` not yet denied them, or `t->file` is null or on
    another inode. -/
def unprotected (s : System) (u : Tid) (i : Sector) : Stage → Bool
  | .load_close _ _ success => success
  | .start_open .. | .start_deny .. => true
  | .start_check _ | .user | .writing .. => (s.files.executable u).all fun id => !on s.files i id
  | _ => false

/-- The process loads or runs the inode, and denies no writes to it. -/
def Exposed (s : System) (u : Tid) (i : Sector) : Prop := s.program u = some i ∧ unprotected s u i (s.stage u) = true

instance (s : System) (u : Tid) (i : Sector) : Decidable (Exposed s u i) := inferInstanceAs (Decidable (_ ∧ _))

/-- The file of which `load` is to read the header. -/
def reads : Stage → Option FileId
  | .load_header _ id => some id
  | _ => none

/-- `load` reads the header while no call of `inode_write_at` is past the check, and
    `inode_write_at` gets past it on no program that is exposed. -/
def KeepsOut (s : System) : Event → Prop
  | .next t _ => ∀ h ∈ reads (s.stage t), ∀ u < s.files.next_tid, ∀ i ∈ writes (s.stage u), on s.files i h = false
  | .write _ _ fd _ _ => ∀ file ∈ find_file_by_fd s.files fd, (s.files.inodes file.2.inode).deny_write_cnt = 0 →
    ∀ u < s.files.next_tid, ¬ Exposed s u file.2.inode
  | _ => True

instance : ∀ (s : System) (e : Event), Decidable (KeepsOut s e)
  | s, .next t _ => inferInstanceAs (Decidable (∀ h ∈ reads (s.stage t), ∀ u < s.files.next_tid, ∀ i ∈ writes (s.stage u),
      on s.files i h = false))
  | s, .write _ _ fd _ _ => inferInstanceAs (Decidable (∀ file ∈ find_file_by_fd s.files fd,
      (s.files.inodes file.2.inode).deny_write_cnt = 0 → ∀ u < s.files.next_tid, ¬ Exposed s u file.2.inode))
  | _, .process_execute _ | _, .fail _ | _, .read _ _ | _, .syscall .. | _, .write_returns _ | _, .kill _ => .isTrue trivial

/-- No process is past the check on the inode of a program. -/
def Apart (s : System) : Prop := ∀ t u i, writes (s.stage t) = some i → s.program u ≠ some i

/-- A step after which no more processes write, and no more programs are loaded or run. -/
structure Calm (s s' : System) : Prop where
  writing : ∀ t i, writes (s'.stage t) = some i → writes (s.stage t) = some i
  program : ∀ u i, s'.program u = some i → s.program u = some i

theorem apart_calm (apart : Apart s) (calm : Calm s s') : Apart s' := fun t u i writing runs =>
  apart t u i (calm.writing t i writing) (calm.program u i runs)

theorem calm_stage {v : Stage} (stage : s'.stage = Function.update s.stage t v) (quiet : writes v = none)
    (program : ∀ u i, s'.program u = some i → s.program u = some i) : Calm s s' := by
  refine ⟨fun u i writing => ?_,program⟩
  rw [stage] at writing
  by_cases same : u = t
  · rw [same,Function.update_self,quiet] at writing
    cases writing
  · rw [Function.update_of_ne same] at writing
    exact writing

theorem calm_same (stage : s'.stage = s.stage) (program : s'.program = s.program) : Calm s s' :=
  ⟨fun _ _ writing => stage ▸ writing,fun _ _ runs => program ▸ runs⟩

theorem calm_leave (files : Files.Sys) : Calm s (s.leave t files) := by
  refine calm_stage (t := t) (v := .gone) rfl rfl fun u i runs => ?_
  by_cases same : u = t
  · have runs : Function.update s.program t none u = some i := runs
    rw [same,Function.update_self] at runs
    cases runs
  · exact (Function.update_of_ne same _ _).symm.trans runs

theorem calm_outcome {out : Files.Outcome} (ran : outcome s t out = .ok s') : Calm s s' := by
  cases out with
  | returned eax files =>
    obtain rfl := Except.ok.inj ran
    exact calm_same rfl rfl
  | exited status files =>
    obtain rfl := Except.ok.inj ran
    exact calm_leave files
  | halted => cases ran

/-- A file that denies writes keeps `deny_write_cnt` of its inode positive. -/
theorem denies_positive (lives : Lives s) (flag : Flag s h true) (here : on s.files i h = true) :
    (s.files.inodes i).deny_write_cnt ≠ 0 := by
  obtain ⟨f,found,denies⟩ := flag
  rw [lives.inv.denies]
  refine Nat.ne_of_gt (List.countP_pos_iff.mpr ⟨h,List.mem_range.mpr (file_known lives.inv.toCounted found),?_⟩)
  rw [on,found] at here
  rw [denying,found,Option.any_some,denies,Bool.and_true]
  exact here

theorem on_program (runs : s.program u = some i) (file : OnProgram s u h) : on s.files i h = true := by
  obtain ⟨f,found,inode⟩ := file
  rw [runs] at inode
  rw [on,found,Option.some.inj inode]
  exact decide_eq_true rfl

/-- The inode of a program that is not exposed is not written. -/
theorem denied (lives : Lives s) (runs : s.program u = some i) (hidden : ¬ Exposed s u i) :
    (s.files.inodes i).deny_write_cnt ≠ 0 := by
  have fits := (lives.own u).fits
  have idle : s.program u ≠ none := by rw [runs]; simp
  have covers : ¬ (s.files.executable u).all (fun id => !on s.files i id) = true →
      (∀ id, s.files.executable u = some id → Flag s id true) → (s.files.inodes i).deny_write_cnt ≠ 0 := by
    intro other flags
    cases executable : s.files.executable u with
    | none => exact absurd (by rw [executable]; rfl) other
    | some id =>
      rw [executable] at other
      exact denies_positive lives (flags id executable) (by simpa using other)
  cases here : s.stage u with
  | unborn | load_open name =>
    rw [here] at fits
    exact absurd fits.2 idle
  | gone =>
    rw [here] at fits
    exact absurd fits idle
  | load_deny name h | load_header name h =>
    rw [here] at fits
    exact absurd fits.2.1 idle
  | load_read name h | load_allow name h =>
    rw [here] at fits
    exact denies_positive lives fits.2.1 (on_program runs fits.2.2)
  | load_close name file success =>
    rw [here] at fits
    cases file with
    | none => exact absurd fits.2 idle
    | some h =>
      cases success with
      | true => exact absurd ⟨runs,by rw [here]; rfl⟩ hidden
      | false => exact denies_positive lives fits.2.1 (on_program runs fits.2.2)
  | start_open name success => exact absurd ⟨runs,by rw [here]; rfl⟩ hidden
  | start_deny success h => exact absurd ⟨runs,by rw [here]; rfl⟩ hidden
  | start_check success =>
    rw [here] at fits
    exact covers (fun all => hidden ⟨runs,by rw [here]; exact all⟩) fits
  | user =>
    rw [here] at fits
    exact covers (fun all => hidden ⟨runs,by rw [here]; exact all⟩) fits
  | writing id inode buffer size offset =>
    rw [here] at fits
    exact covers (fun all => hidden ⟨runs,by rw [here]; exact all⟩) fits

theorem calm_next {space : Space} (ran : next s t space (s.stage t) = .ok s') (header : reads (s.stage t) = none) :
    Calm s s' := by
  have moves : ∀ {files : Files.Sys} {obtained closed v}, writes v = none →
      Calm s { s.setStage t v with files := files, obtained := obtained, closed := closed } :=
    fun quiet => calm_stage rfl quiet fun _ _ runs => runs
  have bound : ∀ {α : Type} {x : Except Files.Fault α} {f : α → Except Files.Fault System}, x >>= f = .ok s' →
      ∃ a, x = .ok a ∧ f a = .ok s' := by
    intro α x f same
    cases x with
    | error fault => cases same
    | ok a => exact ⟨a,rfl,same⟩
  cases here : s.stage t with
  | load_header name h =>
    rw [here] at header
    cases header
  | unborn | user | writing id inode buffer size offset | gone =>
    rw [here] at ran
    cases ran
  | load_open name =>
    rw [here] at ran
    obtain ⟨opened,-,ran⟩ := bound ran
    obtain ⟨file,files⟩ := opened
    cases file <;> exact Except.ok.inj ran ▸ moves rfl
  | load_deny name h | load_allow name h | start_deny success h =>
    rw [here] at ran
    obtain ⟨files,-,ran⟩ := bound ran
    exact Except.ok.inj ran ▸ moves rfl
  | load_read name h =>
    rw [here] at ran
    exact Except.ok.inj ran ▸ moves rfl
  | load_close name file success =>
    rw [here] at ran
    cases file with
    | none => exact Except.ok.inj ran ▸ moves rfl
    | some h =>
      obtain ⟨files,-,ran⟩ := bound ran
      exact Except.ok.inj ran ▸ moves rfl
  | start_open name success =>
    rw [here] at ran
    obtain ⟨opened,-,ran⟩ := bound ran
    obtain ⟨file,files⟩ := opened
    cases file <;> exact Except.ok.inj ran ▸ moves rfl
  | start_check success =>
    rw [here] at ran
    cases success with
    | true => exact Except.ok.inj ran ▸ moves rfl
    | false =>
      obtain ⟨out,-,ran⟩ := bound ran
      cases out with
      | exited status files => exact Except.ok.inj ran ▸ calm_leave files
      | returned eax files | halted => cases ran

/-- `load` reads the header. -/
theorem apart_header {space : Space} {name : String} (lives : Lives s) (apart : Apart s) (here : s.stage t = .load_header name h)
    (clear : ∀ u < s.files.next_tid, ∀ i ∈ writes (s.stage u), on s.files i h = false)
    (ran : next s t space (s.stage t) = .ok s') : Apart s' := by
  rw [here] at ran
  cases found : s.files.files h with
  | none =>
    simp only [next,found] at ran
    cases ran
  | some f =>
    simp only [next,found] at ran
    obtain rfl := Except.ok.inj ran
    intro v u i writing runs
    have writing : writes (Function.update s.stage t (.load_read name h) v) = some i := writing
    have runs : Function.update s.program t (some f.inode) u = some i := runs
    have other : v ≠ t := by
      rintro rfl
      rw [Function.update_self] at writing
      cases writing
    rw [Function.update_of_ne other] at writing
    have started : s.stage v ≠ .unborn := fun unborn => by
      rw [unborn] at writing
      cases writing
    by_cases same : u = t
    · rw [same,Function.update_self] at runs
      have off := clear v (born lives started) i writing
      rw [on,found,Option.any_some] at off
      exact of_decide_eq_false off (Option.some.inj runs)
    · rw [Function.update_of_ne same] at runs
      exact apart v u i writing runs

/-- A process that has a program was created. -/
theorem program_born (lives : Lives s) (runs : s.program u = some i) : u < s.files.next_tid := by
  refine born lives fun unborn => ?_
  have fits := (lives.own u).fits
  rw [unborn] at fits
  rw [fits.2] at runs
  cases runs

theorem apart_write {user : User} {fd : Int} {buffer length : UInt32} (lives : Lives s) (apart : Apart s)
    (hidden : ∀ file ∈ find_file_by_fd s.files fd, (s.files.inodes file.2.inode).deny_write_cnt = 0 →
      ∀ u < s.files.next_tid, ¬ Exposed s u file.2.inode)
    (ran : write s t user fd buffer length = .ok s') : Apart s' := by
  rcases write_cases ran with ⟨-,out,-,ran⟩ | rfl | ⟨id,f,found,allows,rfl⟩
  · exact apart_calm apart (calm_outcome ran)
  · exact apart
  · intro v u i writing runs
    have runs : s.program u = some i := runs
    have writing : writes (Function.update s.stage t (.writing id f.inode (fun o => user.memory (buffer + UInt32.ofInt o))
      (Files.off_t length) f.pos) v) = some i := writing
    by_cases same : v = t
    · rw [same,Function.update_self] at writing
      obtain rfl := Option.some.inj writing
      exact denied lives runs (hidden (id,f) found allows u (program_born lives runs)) allows
    · rw [Function.update_of_ne same] at writing
      exact apart v u i writing runs

theorem reads_header {v : Stage} (header : reads v = some h) : ∃ name, v = .load_header name h := by
  cases v with
  | load_header name id => exact ⟨name,by rw [Option.some.inj header]⟩
  | _ => cases header

theorem apart_step (lives : Lives s) (apart : Apart s) (keeps : KeepsOut s e) (ran : step s e = .ok s') : Apart s' := by
  cases e with
  | process_execute name =>
    obtain rfl := Except.ok.inj ran
    exact apart_calm apart (calm_stage rfl rfl fun _ _ runs => runs)
  | next t space =>
    cases header : reads (s.stage t) with
    | none => exact apart_calm apart (calm_next ran header)
    | some h =>
      obtain ⟨name,here⟩ := reads_header header
      exact apart_header lives apart here (keeps h header) ran
  | fail t =>
    cases here : s.stage t with
    | load_open name | load_read name id =>
      simp only [step,here] at ran
      obtain rfl := Except.ok.inj ran
      exact apart_calm apart (calm_stage rfl rfl fun _ _ runs => runs)
    | _ =>
      simp only [step,here] at ran
      cases ran
  | read t pos =>
    cases here : s.stage t with
    | load_read name id =>
      simp only [step,here,Lifetimes.read] at ran
      obtain ⟨files,-,rfl⟩ := map_ok ran
      exact apart_calm apart (calm_same rfl rfl)
    | _ =>
      simp only [step,here] at ran
      cases ran
  | syscall t user space c =>
    obtain ⟨-,out,-,ran⟩ := syscall_cases ran
    exact apart_calm apart (calm_outcome ran)
  | write t user fd buffer length =>
    cases here : s.stage t with
    | user =>
      simp only [step,here] at ran
      exact apart_write lives apart keeps ran
    | _ =>
      simp only [step,here] at ran
      cases ran
  | write_returns t =>
    cases here : s.stage t with
    | writing id inode buffer size offset =>
      simp only [step,here] at ran
      obtain rfl := Except.ok.inj ran
      exact apart_calm apart (calm_stage rfl rfl fun _ _ runs => runs)
    | _ =>
      simp only [step,here] at ran
      cases ran
  | kill t =>
    cases here : s.stage t with
    | user =>
      simp only [step,here,kill] at ran
      split at ran
      · obtain rfl := Except.ok.inj ran
        exact apart_calm apart (calm_leave _)
      · obtain ⟨files,-,rfl⟩ := map_ok ran
        exact apart_calm apart (calm_leave files)
    | _ =>
      simp only [step,here] at ran
      cases ran

theorem reaches_apart (reached : Reaches (machine root inodes) KeepsOut s) : Apart s := by
  refine (reaches_invariant (fun s => Lives s ∧ Apart s) ?_ ?_ reached).2
  · rintro s rfl
    refine ⟨lives_boot root inodes,?_⟩
    intro t u i writing
    cases writing
  · intro s e s' both keeps ran
    exact ⟨lives_step both.1 (ok_of_toOption ran),apart_step both.1 both.2 keeps (ok_of_toOption ran)⟩

/-- No program is written while it is loaded or runs, in a run whose every step keeps writers out
    where nothing denies them. -/
theorem executables_undisturbed (reached : Reaches (machine root inodes) KeepsOut s) : Undisturbed s := by
  intro t u id i buffer size offset writing runs _
  exact reaches_apart reached t u i (by rw [writing]; rfl) runs

/-- The editor opens the other program, and writes it before that one is loaded. -/
def writesFirst : List Event := starts 0 "editor" ++
  [.syscall 0 anywhere plenty (.open { addr := 64, text := "program" }),.write 0 anywhere 2 64 10,.write_returns 0] ++
  starts 1 "program" ++ [.write 0 anywhere 2 64 10]

theorem executables_undisturbed_first : ∃ s, guardedRun (fun s e => (step s e).toOption) KeepsOut (boot programs disk) writesFirst = some s ∧
    s.program 1 = some 3 ∧ Undisturbed s := by
  obtain ⟨s,ran,runs⟩ : ∃ s, guardedRun (fun s e => (step s e).toOption) KeepsOut (boot programs disk) writesFirst = some s ∧
      (s.program 1 = some 3 : Bool) = true := (Option.any_eq_true _ _).mp (by decide +kernel)
  exact ⟨s,ran,of_decide_eq_true runs,executables_undisturbed
    (guardedRun_reachable (boot programs disk) (fun s e => (step s e).toOption) KeepsOut writesFirst ran)⟩

/-- It writes between `load` and `start_process`, and goes on when the program runs. -/
def writesBetween : List Event := starts 0 "editor" ++
  [.syscall 0 anywhere plenty (.open { addr := 64, text := "program" }),.process_execute "program"] ++
  List.replicate 6 (.next 1 plenty) ++ [.write 0 anywhere 2 64 10] ++ List.replicate 3 (.next 1 plenty)

/-- How many bytes the write of a process is about to report. -/
def reports (s : System) (t : Tid) : Option Int :=
  match s.stage t with
  | .writing _ i buffer size offset => some (rest_of_write s i buffer size offset).1
  | _ => none

theorem executable_written : ∃ s, Reaches (machine programs disk) Anything s ∧ s.program 1 = some 3 ∧
    writes (s.stage 0) = some 3 ∧
    reports s 0 = some 10 ∧ ¬ Undisturbed s := by
  obtain ⟨s,ran,facts⟩ : ∃ s, run (fun s e => (step s e).toOption) (boot programs disk) writesBetween = some s ∧
      (s.program 1 = some 3 && writes (s.stage 0) = some 3 && reports s 0 = some 10) = true :=
    (Option.any_eq_true _ _).mp (by decide +kernel)
  simp only [Bool.and_eq_true,decide_eq_true_eq] at facts
  obtain ⟨⟨runs,writing⟩,count⟩ := facts
  refine ⟨s,run_reachable (boot programs disk) (fun s e => (step s e).toOption) writesBetween ran,runs,writing,count,
    fun undisturbed => ?_⟩
  cases here : s.stage 0 with
  | writing id i buffer size offset =>
    rw [here] at writing
    obtain rfl := Option.some.inj writing
    simp only [reports,here,Option.some.injEq] at count
    exact undisturbed 0 1 id 3 buffer size offset here runs (by omega)
  | _ =>
    rw [here] at writing
    cases writing

end Pintos.Executables
