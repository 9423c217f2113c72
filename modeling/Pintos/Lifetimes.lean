import Pintos.FileCounts

/-!
The two files that a process has of its executable. `load` opens it, denies writes to it,
reads it, allows writes where it succeeds, and closes it; `start_process` opens it again, by
its name, as `t->file`, and denies writes; `thread_exit` allows them. Each of these is a step,
and other processes take theirs in between. A `syscall_write` is two steps: `inode_write_at`
looks at `deny_write_cnt` once, before it writes. A process that is killed leaves without
`syscall_exit`; for what stays in `fd_name_mapping` it is still live.
`syscall_lock`, which keeps two writes from going on at the same time, is left out: there are
more runs here than in the code.

`program`, `obtained` and `closed` are not in the code: the inode from which the program that
a process loads or runs was read, the files that `load` and `start_process` got from
`filesys_open`, and those that were passed to `file_close` there.
-/
namespace Pintos.Lifetimes
open Pintos.Machines Pintos.FileCounts
open Pintos.Files hiding Event step boot machine start_process
set_option linter.unusedSimpArgs false

inductive Stage
  | unborn
  /-- `load`, before each call on `file`; `load_read` is before the segments and the stack. -/
  | load_open (name : String)
  | load_deny (name : String) (file : FileId)
  | load_header (name : String) (file : FileId)
  | load_read (name : String) (file : FileId)
  | load_allow (name : String) (file : FileId)
  /-- At `done`. -/
  | load_close (name : String) (file : Option FileId) (success : Bool)
  /-- `start_process`, before each call on `t->file`, and where it looks at `success`. -/
  | start_open (name : String) (success : Bool)
  | start_deny (success : Bool) (file : FileId)
  | start_check (success : Bool)
  | user
  /-- In `inode_write_at`, past the check. -/
  | writing (file : FileId) (inode : Sector) (buffer : Int → UInt8) (size offset : Int)
  | gone

structure System where
  files : Sys
  stage : Tid → Stage
  program : Tid → Option Sector
  obtained : Tid → List FileId
  closed : List FileId

inductive Event
  | process_execute (name : String)
  /-- The next statement of `load` or `start_process`; in `load_read`, where it succeeds. -/
  | next (t : Tid) (space : Space)
  /-- `load` goes to `done` without success. -/
  | fail (t : Tid)
  /-- `load` seeks and reads, which leaves the file somewhere. -/
  | read (t : Tid) (pos : Nat)
  | syscall (t : Tid) (user : User) (space : Space) (c : Call)
  | write (t : Tid) (user : User) (fd : Int) (buffer length : UInt32)
  | write_returns (t : Tid)
  /-- `kill` calls `thread_exit`. -/
  | kill (t : Tid)

def System.setStage (s : System) (t : Tid) (v : Stage) : System := { s with stage := Function.update s.stage t v }

def sizeof_Ehdr : Int := 52

/-- A file that `filesys_open` gave to `t`. -/
def System.obtain (s : System) (t : Tid) (file : Option FileId) : System :=
  { s with obtained := Function.update s.obtained t (s.obtained t ++ file.toList) }

/-- `thread_exit`: the process has no program any more. -/
def System.leave (s : System) (t : Tid) (files : Sys) : System :=
  { s.setStage t .gone with files := files, program := Function.update s.program t none }

def process_execute (s : System) (name : String) : System :=
  let t := s.files.next_tid
  { s.setStage t (.load_open name) with files := { s.files with
      next_tid := t + 1
      live := fun u => if u = t then true else s.files.live u
      executable := fun u => if u = t then none else s.files.executable u } }

/-- The statements of `load` and `start_process`. -/
def next (s : System) (t : Tid) (space : Space) : Stage → Except Fault System
  | .load_open name => do
    let (file,files) ← filesys_open s.files (some name) space
    let opened := { s.obtain t file with files := files }
    pure (match file with
      | none => opened.setStage t (.load_close name none false)
      | some id => opened.setStage t (.load_deny name id))
  | .load_deny name id => do
    let files ← file_deny_write s.files id
    pure { s.setStage t (.load_header name id) with files := files }
  | .load_header name id =>
    match s.files.files id with
    | none => .error .bad_pointer
    | some f => .ok { s.setStage t (.load_read name id) with
        files := (file_read s.files id f sizeof_Ehdr).2
        program := Function.update s.program t (some f.inode) }
  | .load_read name id => .ok (s.setStage t (.load_allow name id))
  | .load_allow name id => do
    let files ← file_allow_write s.files id
    pure { s.setStage t (.load_close name (some id) true) with files := files }
  | .load_close name none success => .ok (s.setStage t (.start_open name success))
  | .load_close name (some id) success => do
    let files ← file_close s.files id
    pure { s.setStage t (.start_open name success) with files := files, closed := s.closed ++ [id] }
  | .start_open name success => do
    let (file,files) ← filesys_open s.files (some name) space
    let opened := { s.obtain t file with files := { files with executable := fun u => if u = t then file else files.executable u } }
    pure (match file with
      | none => opened.setStage t (.start_check success)
      | some id => opened.setStage t (.start_deny success id))
  | .start_deny success id => do
    let files ← file_deny_write s.files id
    pure { s.setStage t (.start_check success) with files := files }
  | .start_check true => .ok (s.setStage t .user)
  | .start_check false => do
    match ← syscall_exit s.files t (-1) with
    | .exited _ files => pure (s.leave t files)
    | .returned _ _ | .halted => .error .impossible
  | .unborn | .user | .writing .. | .gone => .error .impossible

def fail (s : System) (t : Tid) : Stage → Except Fault System
  | .load_open name => .ok (s.setStage t (.load_close name none false))
  | .load_read name id => .ok (s.setStage t (.load_close name (some id) false))
  | _ => .error .impossible

def read (s : System) (pos : Nat) : Stage → Except Fault System
  | .load_read _ id => (file_seek s.files ((s.files.files id).map fun f => (id,f)) pos).map fun files => { s with files := files }
  | _ => .error .impossible

def outcome (s : System) (t : Tid) : Outcome → Except Fault System
  | .returned _ files => .ok { s with files := files }
  | .exited _ files => .ok (s.leave t files)
  | .halted => .error .impossible

/-- `syscall_write` as far as the check of `inode_write_at`. -/
def write (s : System) (t : Tid) (user : User) (fd : Int) (buffer length : UInt32) : Except Fault System :=
  if !validBuffer user buffer length then syscall_exit s.files t (-1) >>= outcome s t
  else if fd = 1 then .ok s
  else match find_file_by_fd s.files fd with
    | none => .ok s
    | some (id,f) =>
      if (s.files.inodes f.inode).deny_write_cnt ≠ 0 then .ok s
      else .ok (s.setStage t (.writing id f.inode (fun o => user.memory (buffer + UInt32.ofInt o)) (off_t length) f.pos))

/-- What `inode_write_at` returns, and the bytes of the inode. -/
def rest_of_write (s : System) (inode : Sector) (buffer : Int → UInt8) (size offset : Int) : Int × (Int → UInt8) :=
  writeLoop (s.files.inodes inode).length buffer size.toNat size offset 0 (s.files.inodes inode).bytes

/-- A file that another process has closed meanwhile is gone, and with it `pos`. -/
def write_returns (s : System) (t : Tid) : Stage → Except Fault System
  | .writing id inode buffer size offset =>
    let written := rest_of_write s inode buffer size offset
    let files := s.files.setInode inode { s.files.inodes inode with bytes := written.2 }
    .ok { s.setStage t .user with
      files := files.setFile id ((s.files.files id).map fun f => { f with pos := f.pos + written.1 }) }
  | _ => .error .impossible

/-- `kill` for an exception of user code: the loop of `syscall_exit` is not run. -/
def kill (s : System) (t : Tid) : Except Fault System :=
  match s.files.executable t with
  | none => .ok (s.leave t s.files)
  | some id => (file_allow_write s.files id).map (s.leave t)

def step (s : System) : Event → Except Fault System
  | .process_execute name => .ok (process_execute s name)
  | .next t space => next s t space (s.stage t)
  | .fail t => fail s t (s.stage t)
  | .read t pos => read s pos (s.stage t)
  | .syscall t user space c =>
    match s.stage t,c with
    | .user,.write .. => .error .impossible
    | .user,c => syscall_handler s.files t user space c >>= outcome s t
    | _,_ => .error .impossible
  | .write t user fd buffer length =>
    match s.stage t with
    | .user => write s t user fd buffer length
    | _ => .error .impossible
  | .write_returns t => write_returns s t (s.stage t)
  | .kill t =>
    match s.stage t with
    | .user => kill s t
    | _ => .error .impossible

/-- The disk holds files already. -/
def boot (root : List (String × Sector)) (inodes : Sector → Inode) : System where
  files := { Files.boot with
    root := root
    inodes := fun i => { inodes i with open_cnt := 0, removed := false, deny_write_cnt := 0 } }
  stage _ := .unborn
  program _ := none
  obtained _ := []
  closed := []

def machine (root : List (String × Sector)) (inodes : Sector → Inode) : Machine System Event :=
  ofStep (boot root inodes) (fun s e => (step s e).toOption)

variable {s s' : System} {t u : Tid} {h id : FileId} {f : File} {st : Stage} {i : Sector} {files' : Sys} {e : Event} {c : Call}

/-! ### Whose file is whose -/

/-- The file of `load`. -/
def pending : Stage → List FileId
  | .load_deny _ id | .load_header _ id | .load_read _ id | .load_allow _ id | .load_close _ (some id) _ => [id]
  | _ => []

/-- A process has a file until `load` closes it, and `t->file` for good. -/
def Holds (s : System) (t : Tid) (h : FileId) : Prop := h ∈ pending (s.stage t) ∨ s.files.executable t = some h

def Flag (s : System) (h : FileId) (deny_write : Bool) : Prop := ∃ f, s.files.files h = some f ∧ f.deny_write = deny_write

/-- The file is on the inode of the program. -/
def OnProgram (s : System) (t : Tid) (h : FileId) : Prop := ∃ f, s.files.files h = some f ∧ s.program t = some f.inode

/-- Which files a process has at each stage, and which deny writes. -/
def Fits (s : System) (t : Tid) : Stage → Prop
  | .unborn | .load_open _ | .load_close _ none _ => s.files.executable t = none ∧ s.program t = none
  | .load_deny _ h => s.files.executable t = none ∧ s.program t = none ∧ Flag s h false
  | .load_header _ h => s.files.executable t = none ∧ s.program t = none ∧ Flag s h true
  | .load_read _ h | .load_allow _ h => s.files.executable t = none ∧ Flag s h true ∧ OnProgram s t h
  | .load_close _ (some h) success => s.files.executable t = none ∧ Flag s h (!success) ∧ OnProgram s t h
  | .start_open _ _ => s.files.executable t = none
  | .start_deny _ h => s.files.executable t = some h ∧ Flag s h false
  | .start_check _ | .user | .writing .. => ∀ h, s.files.executable t = some h → Flag s h true
  | .gone => s.program t = none

structure Own (s : System) (t : Tid) : Prop where
  live : (match s.stage t with
    | .unborn | .gone => True
    | _ => s.files.live t = true)
  fits : Fits s t (s.stage t)
  unmapped : ∀ h, Holds s t h → ∀ m ∈ s.files.fd_name_mapping, m.file ≠ h
  obtains : ∀ h, Holds s t h → h ∈ s.obtained t
  known : ∀ h ∈ s.obtained t, h < s.files.next_file
  closes : ∀ h ∈ s.obtained t, (Holds s t h → s.closed.count h = 0) ∧ (¬ Holds s t h → s.closed.count h = 1)

structure Lives (s : System) : Prop where
  inv : Inv s.files
  unborn : ∀ t, s.files.next_tid ≤ t → s.stage t = .unborn
  own : ∀ t, Own s t
  owner : ∀ t u h, h ∈ s.obtained t → h ∈ s.obtained u → t = u
  owned : ∀ id f, s.files.files id = some f → (∃ m ∈ s.files.fd_name_mapping, m.file = id) ∨ ∃ t, Holds s t id
  closedKnown : ∀ h ∈ s.closed, h < s.files.next_file

/-- What a step of `t` leaves alone. -/
structure Frame (t : Tid) (s s' : System) : Prop where
  stage : ∀ u, u ≠ t → s'.stage u = s.stage u
  program : ∀ u, u ≠ t → s'.program u = s.program u
  obtained : ∀ u, u ≠ t → s'.obtained u = s.obtained u
  executable : ∀ u, u ≠ t → s'.files.executable u = s.files.executable u
  live : ∀ u, u ≠ t → s'.files.live u = s.files.live u
  next_tid : s.files.next_tid ≤ s'.files.next_tid
  born : t < s'.files.next_tid
  next_file : s.files.next_file ≤ s'.files.next_file
  files : ∀ h f, (∀ m ∈ s.files.fd_name_mapping, m.file ≠ h) → ¬ Holds s t h → s.files.files h = some f →
    ∃ f', s'.files.files h = some f' ∧ f'.inode = f.inode ∧ f'.deny_write = f.deny_write
  mapped : ∀ m ∈ s'.files.fd_name_mapping, (∃ m' ∈ s.files.fd_name_mapping, m'.file = m.file) ∨ s.files.next_file ≤ m.file
  closed : ∀ h, ¬ Holds s t h → s'.closed.count h = s.closed.count h
  gains : ∀ h ∈ s'.obtained t, h ∈ s.obtained t ∨ s.files.next_file ≤ h
  owned : ∀ id f, s'.files.files id = some f → (∃ m ∈ s'.files.fd_name_mapping, m.file = id) ∨ Holds s' t id ∨
    ((∃ f, s.files.files id = some f) ∧ (∀ m ∈ s.files.fd_name_mapping, m.file ≠ id) ∧ ¬ Holds s t id)

theorem flag_same {d : Bool} (flag : Flag s h d) (same : ∀ f, s.files.files h = some f →
    ∃ f', s'.files.files h = some f' ∧ f'.inode = f.inode ∧ f'.deny_write = f.deny_write) : Flag s' h d := by
  obtain ⟨f,found,deny_write⟩ := flag
  obtain ⟨f',found',-,still⟩ := same f found
  exact ⟨f',found',still.trans deny_write⟩

theorem onProgram_same (runs : OnProgram s t h) (program : s'.program t = s.program t) (same : ∀ f, s.files.files h = some f →
    ∃ f', s'.files.files h = some f' ∧ f'.inode = f.inode ∧ f'.deny_write = f.deny_write) : OnProgram s' t h := by
  obtain ⟨f,found,inode⟩ := runs
  obtain ⟨f',found',still,-⟩ := same f found
  exact ⟨f',found',by rw [program,inode,still]⟩

/-- What fits a stage depends on the files that the process holds there. -/
theorem fits_same (fits : Fits s t st) (executable : s'.files.executable t = s.files.executable t)
    (program : s'.program t = s.program t)
    (same : ∀ h, h ∈ pending st ∨ s.files.executable t = some h → ∀ f, s.files.files h = some f →
      ∃ f', s'.files.files h = some f' ∧ f'.inode = f.inode ∧ f'.deny_write = f.deny_write) : Fits s' t st := by
  have mine : ∀ {h}, pending st = [h] → ∀ f, s.files.files h = some f →
      ∃ f', s'.files.files h = some f' ∧ f'.inode = f.inode ∧ f'.deny_write = f.deny_write :=
    fun only => same _ (.inl (only ▸ List.mem_singleton.mpr rfl))
  cases st with
  | unborn | load_open name => exact ⟨executable.trans fits.1,program.trans fits.2⟩
  | load_deny name h | load_header name h =>
    obtain ⟨none_,idle,flag⟩ := fits
    exact ⟨executable.trans none_,program.trans idle,flag_same flag (mine rfl)⟩
  | load_read name h | load_allow name h =>
    obtain ⟨none_,flag,runs⟩ := fits
    exact ⟨executable.trans none_,flag_same flag (mine rfl),onProgram_same runs program (mine rfl)⟩
  | load_close name file success =>
    cases file with
    | none => exact ⟨executable.trans fits.1,program.trans fits.2⟩
    | some h =>
      obtain ⟨none_,flag,runs⟩ := fits
      exact ⟨executable.trans none_,flag_same flag (mine rfl),onProgram_same runs program (mine rfl)⟩
  | start_open name success => exact executable.trans fits
  | start_deny success h =>
    obtain ⟨runs,flag⟩ := fits
    exact ⟨executable.trans runs,flag_same flag (same h (.inr runs))⟩
  | start_check success | user | writing id inode buffer size offset =>
    intro h runs
    rw [executable] at runs
    exact flag_same (fits h runs) (same h (.inr runs))
  | gone => exact program.trans fits

/-- Two processes hold different files. -/
theorem holds_apart (lives : Lives s) (other : u ≠ t) (mine : Holds s u h) : ¬ Holds s t h := fun theirs =>
  other (lives.owner u t h ((lives.own u).obtains h mine) ((lives.own t).obtains h theirs))

theorem lives_frame (lives : Lives s) (frame : Frame t s s') (inv : Inv s'.files) (own : Own s' t) : Lives s' := by
  have holds : ∀ u, u ≠ t → ∀ h, Holds s' u h ↔ Holds s u h := by
    intro u other h
    rw [Holds,Holds,frame.stage u other,frame.executable u other]
  refine ⟨inv,fun u later => ?_,fun u => ?_,?_,fun id f found => ?_,fun h member => ?_⟩
  · have other : u ≠ t := Nat.ne_of_gt (Nat.lt_of_lt_of_le frame.born later)
    rw [frame.stage u other]
    exact lives.unborn u (Nat.le_trans frame.next_tid later)
  · by_cases same : u = t
    · exact same ▸ own
    have old := lives.own u
    refine ⟨?_,?_,fun h mine m member => ?_,fun h mine => ?_,fun h member => ?_,fun h member => ?_⟩
    · rw [frame.stage u same,frame.live u same]
      exact old.live
    · rw [frame.stage u same]
      refine fits_same old.fits (frame.executable u same) (frame.program u same) ?_
      intro h mine f found
      exact frame.files h f (old.unmapped h mine) (holds_apart lives same mine) found
    · rw [holds u same] at mine
      rcases frame.mapped m member with ⟨m',before,file⟩ | new
      · exact file ▸ old.unmapped h mine m' before
      · exact Nat.ne_of_gt (Nat.lt_of_lt_of_le (old.known h (old.obtains h mine)) new)
    · rw [frame.obtained u same]
      exact old.obtains h ((holds u same h).mp mine)
    · rw [frame.obtained u same] at member
      exact Nat.lt_of_lt_of_le (old.known h member) frame.next_file
    · rw [frame.obtained u same] at member
      have apart : ¬ Holds s t h := fun theirs => same (lives.owner u t h member ((lives.own t).obtains h theirs))
      rw [holds u same,frame.closed h apart]
      exact old.closes h member
  · have mixed : ∀ u, u ≠ t → ∀ h ∈ s'.obtained t, h ∉ s'.obtained u := by
      intro u other h mine theirs
      rw [frame.obtained u other] at theirs
      rcases frame.gains h mine with before | new
      · exact other (lives.owner u t h theirs before)
      · exact Nat.not_lt.mpr new ((lives.own u).known h theirs)
    intro v u h first second
    by_cases mine : v = t
    · by_cases mineToo : u = t
      · rw [mine,mineToo]
      · exact absurd second (mixed u mineToo h (mine ▸ first))
    · by_cases mineToo : u = t
      · exact absurd first (mixed v mine h (mineToo ▸ second))
      · rw [frame.obtained v mine] at first
        rw [frame.obtained u mineToo] at second
        exact lives.owner v u h first second
  · rcases frame.owned id f found with mapped | mine | ⟨⟨f₀,before⟩,unmapped,notMine⟩
    · exact .inl mapped
    · exact .inr ⟨t,mine⟩
    · rcases lives.owned id f₀ before with ⟨m,member,file⟩ | ⟨u,theirs⟩
      · exact absurd file (unmapped m member)
      · have other : u ≠ t := fun same => notMine (same ▸ theirs)
        exact .inr ⟨u,(holds u other id).mpr theirs⟩
  · by_cases mine : Holds s t h
    · exact Nat.lt_of_lt_of_le ((lives.own t).known h ((lives.own t).obtains h mine)) frame.next_file
    · have before : h ∈ s.closed := by
        rw [← List.count_pos_iff,frame.closed h mine,List.count_pos_iff] at member
        exact member
      exact Nat.lt_of_lt_of_le (lives.closedKnown h before) frame.next_file

/-! ### Steps on the files of one process -/

/-- During `load` there is no `t->file` yet. -/
theorem pending_bare (fits : Fits s t st) (member : h ∈ pending st) : s.files.executable t = none := by
  cases st with
  | load_deny name id | load_header name id | load_read name id | load_allow name id => exact fits.1
  | load_close name file success =>
    cases file with
    | none => exact absurd member List.not_mem_nil
    | some id => exact fits.1
  | _ => exact absurd member List.not_mem_nil

theorem pending_one (first : h ∈ pending st) (second : id ∈ pending st) : h = id := by
  have listed : ∀ x : FileId, h ∈ [x] → id ∈ [x] → h = id := fun x one two => by
    rw [List.mem_singleton.mp one,List.mem_singleton.mp two]
  cases st with
  | load_deny name x | load_header name x | load_read name x | load_allow name x => exact listed x first second
  | load_close name file success =>
    cases file with
    | none => exact absurd first List.not_mem_nil
    | some x => exact listed x first second
  | _ => exact absurd first List.not_mem_nil

/-- A process holds one file at a time. -/
theorem holds_one (own : Own s t) (first : Holds s t h) (second : Holds s t id) : h = id := by
  rcases first with pending₁ | runs₁
  · rcases second with pending₂ | runs₂
    · exact pending_one pending₁ pending₂
    · rw [pending_bare own.fits pending₁] at runs₂
      cases runs₂
  · rcases second with pending₂ | runs₂
    · rw [pending_bare own.fits pending₂] at runs₁
      cases runs₁
    · rw [runs₁] at runs₂
      exact Option.some.inj runs₂

theorem born (lives : Lives s) (started : s.stage t ≠ .unborn) : t < s.files.next_tid := by
  by_contra later
  exact started (lives.unborn t (Nat.not_lt.mp later))

theorem holds_born (lives : Lives s) (held : Holds s t h) : s.stage t ≠ .unborn := by
  intro here
  have fits := (lives.own t).fits
  rw [here] at fits
  rcases held with listed | runs
  · rw [here] at listed
    exact List.not_mem_nil listed
  · rw [fits.1] at runs
    cases runs

/-- A step on one file that `t` holds. -/
theorem frame_only (lives : Lives s) (started : s.stage t ≠ .unborn) (mine : Holds s t id) (only : OnlyFile id s.files s'.files)
    (stage : ∀ u, u ≠ t → s'.stage u = s.stage u) (program : ∀ u, u ≠ t → s'.program u = s.program u)
    (obtained : s'.obtained = s.obtained) (closed : ∀ h, h ≠ id → s'.closed.count h = s.closed.count h)
    (after : ∀ f, s'.files.files id = some f → Holds s' t id) : Frame t s s' where
  stage := stage
  program := program
  obtained u _ := by rw [obtained]
  executable u _ := by rw [only.executable]
  live u _ := by rw [only.live]
  next_tid := Nat.le_of_eq only.next_tid.symm
  born := by rw [only.next_tid]; exact born lives started
  next_file := Nat.le_of_eq only.next_file.symm
  files h f _ notMine found := ⟨f,by rw [only.files h fun same => notMine (same ▸ mine)]; exact found,rfl,rfl⟩
  mapped m member := .inl ⟨m,only.fd_name_mapping ▸ member,rfl⟩
  closed h notMine := closed h fun same => notMine (same ▸ mine)
  gains h member := .inl (obtained ▸ member)
  owned x f found := by
    by_cases same : x = id
    · subst same
      exact .inr (.inl (after f found))
    · rw [only.files x same] at found
      by_cases mapped : ∃ m ∈ s.files.fd_name_mapping, m.file = x
      · rw [only.fd_name_mapping]
        exact .inl mapped
      · refine .inr (.inr ⟨⟨f,found⟩,fun m member file => mapped ⟨m,member,file⟩,fun held => ?_⟩)
        exact same (holds_one (lives.own t) held mine)

/-- A step that changes no file. -/
theorem frame_stage (lives : Lives s) (started : s.stage t ≠ .unborn) (files : s'.files = s.files)
    (stage : ∀ u, u ≠ t → s'.stage u = s.stage u) (program : ∀ u, u ≠ t → s'.program u = s.program u)
    (obtained : s'.obtained = s.obtained) (closed : s'.closed = s.closed) (keeps : ∀ h, Holds s t h → Holds s' t h) :
    Frame t s s' where
  stage := stage
  program := program
  obtained u _ := by rw [obtained]
  executable u _ := by rw [files]
  live u _ := by rw [files]
  next_tid := Nat.le_of_eq (by rw [files])
  born := by rw [files]; exact born lives started
  next_file := Nat.le_of_eq (by rw [files])
  files h f _ _ found := ⟨f,by rw [files]; exact found,rfl,rfl⟩
  mapped m member := .inl ⟨m,files ▸ member,rfl⟩
  closed h _ := by rw [closed]
  gains h member := .inl (obtained ▸ member)
  owned x f found := by
    rw [files] at found ⊢
    rcases lives.owned x f found with mapped | ⟨u,held⟩
    · exact .inl mapped
    · by_cases same : u = t
      · exact .inr (.inl (keeps x (same ▸ held)))
      · have unmapped := (lives.own u).unmapped x held
        exact .inr (.inr ⟨⟨f,found⟩,unmapped,holds_apart lives same held⟩)

/-- The process holds what it held. -/
theorem own_keep (own : Own s t) (alive : s'.files.live t = true) (fits : Fits s' t (s'.stage t))
    (holds : ∀ h, Holds s' t h ↔ Holds s t h) (mapping : s'.files.fd_name_mapping = s.files.fd_name_mapping)
    (next_file : s'.files.next_file = s.files.next_file) (obtained : s'.obtained = s.obtained) (closed : s'.closed = s.closed) :
    Own s' t where
  live := by split <;> trivial
  fits := fits
  unmapped h mine := by rw [mapping]; exact own.unmapped h ((holds h).mp mine)
  obtains h mine := by rw [obtained]; exact own.obtains h ((holds h).mp mine)
  known h member := by rw [next_file]; exact own.known h (obtained ▸ member)
  closes h member := by
    rw [holds h,closed]
    exact own.closes h (obtained ▸ member)

/-- A step on a file that `t` keeps. -/
theorem lives_only (lives : Lives s) (started : s.stage t ≠ .unborn) (mine : Holds s t id) (only : OnlyFile id s.files s'.files)
    (inv : Inv s'.files) (alive : s.files.live t = true)
    (stage : ∀ u, u ≠ t → s'.stage u = s.stage u) (program : ∀ u, u ≠ t → s'.program u = s.program u)
    (obtained : s'.obtained = s.obtained) (closed : s'.closed = s.closed)
    (same : pending (s'.stage t) = pending (s.stage t)) (fits : Fits s' t (s'.stage t)) : Lives s' := by
  have holds : ∀ h, Holds s' t h ↔ Holds s t h := fun h => by rw [Holds,Holds,same,only.executable]
  refine lives_frame lives (frame_only lives started mine only stage program obtained (fun h _ => by rw [closed])
    (fun _ _ => (holds id).mpr mine)) inv ?_
  refine own_keep (lives.own t) ?_ fits holds only.fd_name_mapping only.next_file obtained closed
  rw [only.live]
  exact alive

theorem lives_stage (lives : Lives s) (v : Stage) (started : s.stage t ≠ .unborn) (alive : s.files.live t = true)
    (same : pending v = pending (s.stage t)) (fits : Fits (s.setStage t v) t v) : Lives (s.setStage t v) := by
  have here : (s.setStage t v).stage t = v := Function.update_self _ _ _
  have holds : ∀ h, Holds (s.setStage t v) t h ↔ Holds s t h := fun h => by
    rw [Holds,Holds,here,same]
    rfl
  refine lives_frame lives (frame_stage lives started rfl (fun u other => Function.update_of_ne other _ _) (fun _ _ => rfl)
    rfl rfl fun h mine => (holds h).mpr mine) lives.inv ?_
  exact own_keep (lives.own t) alive (by rw [here]; exact fits) holds rfl rfl rfl rfl

/-- The calls on the one file of `load` and `start_process`, and what they leave of it. -/
theorem lives_call (lives : Lives s) (v : Stage) (started : s.stage t ≠ .unborn) (mine : Holds s t id)
    (only : OnlyFile id s.files files')
    (counted : Counted files') (found : files'.files id = some f) (alive : s.files.live t = true)
    (same : pending v = pending (s.stage t)) (fits : Fits { s.setStage t v with files := files' } t v) :
    Lives { s.setStage t v with files := files' } := by
  have here : ({ s.setStage t v with files := files' } : System).stage t = v := Function.update_self _ _ _
  refine lives_only lives started mine only ⟨counted,linked_only lives.inv.toLinked only ⟨f,found⟩⟩ alive
    (fun u other => Function.update_of_ne other _ _) (fun _ _ => rfl) rfl rfl ?_ ?_
  · rw [here]
    exact same
  · rw [here]
    exact fits

theorem inv_close (inv : Inv s.files) (counted : Counted files') (only : OnlyFile id s.files files')
    (unmapped : ∀ m ∈ s.files.fd_name_mapping, m.file ≠ id) (idle : ∀ u, s.files.executable u ≠ some id) : Inv files' := by
  refine ⟨counted,linked_fewer inv.toLinked (by rw [only.fd_name_mapping]) (fun m member => ?_) (fun u x runs => ?_) only.live
    only.executable only.next_tid only.fd_index⟩
  · rw [only.fd_name_mapping] at member
    rw [only.files _ (unmapped m member)]
    exact (inv.entry m member).2
  · have other : x ≠ id := fun same => idle u (same ▸ runs)
    rw [only.files x other]
    exact inv.running u x runs

/-- `file_close` of the file of `load`. -/
theorem lives_close {name : String} {success : Bool} (lives : Lives s) (here : s.stage t = .load_close name (some id) success)
    (ran : file_close s.files id = .ok files') :
    Lives { s.setStage t (.start_open name success) with files := files', closed := s.closed ++ [id] } := by
  have own := lives.own t
  have started : s.stage t ≠ .unborn := by rw [here]; simp
  have mine : Holds s t id := .inl (by rw [here]; exact List.mem_singleton.mpr rfl)
  have fits := own.fits
  rw [here] at fits
  obtain ⟨none_,⟨f,found,-⟩,-⟩ := fits
  obtain ⟨files₂,closes,counted,only,gone⟩ := close_spec lives.inv.toCounted found
  obtain rfl := Except.ok.inj (closes.symm.trans ran)
  have idle : ∀ u, s.files.executable u ≠ some id := by
    intro u runs
    by_cases same : u = t
    · rw [same,none_] at runs
      cases runs
    · exact holds_apart lives same (.inr runs) mine
  obtain ⟨s₂,shape⟩ : ∃ s₂ : System, s₂ = { s.setStage t (.start_open name success) with files := files₂, closed := s.closed ++ [id] } :=
    ⟨_,rfl⟩
  have stage : s₂.stage t = .start_open name success := by rw [shape]; exact Function.update_self _ _ _
  have drops : ∀ h, ¬ Holds s₂ t h := by
    rintro h (listed | runs)
    · rw [stage] at listed
      exact List.not_mem_nil listed
    · rw [shape] at runs
      have runs : files₂.executable t = some h := runs
      rw [only.executable,none_] at runs
      cases runs
  have count : ∀ h, s₂.closed.count h = s.closed.count h + if h = id then 1 else 0 := by
    intro h
    rw [shape]
    show (s.closed ++ [id]).count h = _
    rw [List.count_append,List.count_singleton]
    by_cases same : h = id
    · simp [same]
    · simp [same,Ne.symm same]
  rw [← shape]
  refine lives_frame lives (frame_only lives started mine (by rw [shape]; exact only) ?_ ?_ (by rw [shape]; rfl) ?_ ?_) ?_ ?_
  · intro u other
    rw [shape]
    exact Function.update_of_ne other _ _
  · intro u _
    rw [shape]
    rfl
  · intro h other
    rw [count,if_neg other,Nat.add_zero]
  · intro f found
    rw [shape] at found
    have found : files₂.files id = some f := found
    rw [gone] at found
    cases found
  · rw [shape]
    exact inv_close lives.inv counted only (own.unmapped id mine) idle
  · refine ⟨?_,?_,fun h held => absurd held (drops h),fun h held => absurd held (drops h),fun h member => ?_,fun h member => ?_⟩
    · have alive := own.live
      rw [here] at alive
      rw [stage,shape]
      show files₂.live t = true
      rw [only.live]
      exact alive
    · rw [stage,shape]
      show files₂.executable t = none
      rw [only.executable,none_]
    · rw [shape] at member ⊢
      show h < files₂.next_file
      rw [only.next_file]
      exact own.known h member
    · have before : h ∈ s.obtained t := by rw [shape] at member; exact member
      refine ⟨fun held => absurd held (drops h),fun _ => ?_⟩
      rw [count]
      by_cases same : h = id
      · rw [if_pos same,(own.closes h before).1 (same ▸ mine)]
      · rw [if_neg same,(own.closes h before).2 fun held => same (holds_one own held mine)]

/-! ### `filesys_open` -/

structure Opens (s : Sys) (file : Option FileId) (s' : Sys) : Prop where
  files : ∀ x f, s.files x = some f → s'.files x = some f
  only : ∀ x f, s'.files x = some f → s.files x = some f ∨ file = some x
  new : ∀ x, file = some x → x = s.next_file ∧ x < s'.next_file
  next_file : s.next_file ≤ s'.next_file
  fd_name_mapping : s'.fd_name_mapping = s.fd_name_mapping
  live : s'.live = s.live
  executable : s'.executable = s.executable
  next_tid : s'.next_tid = s.next_tid

theorem opens_of_opened {s s' : Sys} {file : Option FileId} (counted : Counted s) (opened : Opened s file s') :
    Opens s file s' := by
  cases opened with
  | refused => exact ⟨fun x f found => found,fun x f found => .inl found,fun x none_ => (nomatch none_),Nat.le_refl _,rfl,rfl,rfl,rfl⟩
  | new i here files next_file bytes fd_name_mapping fd_index live executable next_tid =>
    refine ⟨fun x f found => ?_,fun x f found => ?_,fun x same => ?_,?_,fd_name_mapping,live,executable,next_tid⟩
    · rw [files x (Nat.ne_of_lt (file_known counted found))]
      exact found
    · by_cases newest : x = s.next_file
      · exact .inr (newest ▸ rfl)
      · rw [files x newest] at found
        exact .inl found
    · obtain rfl := Option.some.inj same
      exact ⟨rfl,next_file ▸ Nat.lt_succ_self _⟩
    · exact next_file ▸ Nat.le_succ _

/-- A file that is opened is the only one of a process that had none. -/
theorem lives_opened {file : Option FileId} (lives : Lives s) (started : s.stage t ≠ .unborn) (bare : ∀ h, ¬ Holds s t h)
    (opens : Opens s.files file files') (inv : Inv s'.files) (files : s'.files.files = files'.files)
    (next_file : s'.files.next_file = files'.next_file) (mapping : s'.files.fd_name_mapping = files'.fd_name_mapping)
    (live : s'.files.live = files'.live) (next_tid : s'.files.next_tid = files'.next_tid)
    (executable : ∀ u, u ≠ t → s'.files.executable u = s.files.executable u)
    (stage : ∀ u, u ≠ t → s'.stage u = s.stage u) (program : ∀ u, u ≠ t → s'.program u = s.program u)
    (obtained : s'.obtained = Function.update s.obtained t (s.obtained t ++ file.toList)) (closed : s'.closed = s.closed)
    (holds : ∀ h, Holds s' t h ↔ file = some h) (alive : s.files.live t = true) (fits : Fits s' t (s'.stage t)) : Lives s' := by
  have own := lives.own t
  have gained : ∀ h, h ∈ s'.obtained t ↔ h ∈ s.obtained t ∨ file = some h := by
    intro h
    rw [obtained,Function.update_self,List.mem_append,Option.mem_toList]
  refine lives_frame lives ⟨stage,program,?_,executable,?_,?_,?_,?_,?_,?_,?_,?_,?_⟩ inv ⟨?_,fits,?_,?_,?_,?_⟩
  · intro u other
    rw [obtained,Function.update_of_ne other]
  · intro u _
    rw [live,opens.live]
  · rw [next_tid,opens.next_tid]
  · rw [next_tid,opens.next_tid]
    exact born lives started
  · rw [next_file]
    exact opens.next_file
  · intro h f _ _ found
    exact ⟨f,by rw [files]; exact opens.files h f found,rfl,rfl⟩
  · intro m member
    rw [mapping,opens.fd_name_mapping] at member
    exact .inl ⟨m,member,rfl⟩
  · intro h _
    rw [closed]
  · intro h member
    rcases (gained h).mp member with before | new
    · exact .inl before
    · exact .inr (Nat.le_of_eq (opens.new h new).1.symm)
  · intro x f found
    rw [files] at found
    rcases opens.only x f found with before | new
    · by_cases mapped : ∃ m ∈ s.files.fd_name_mapping, m.file = x
      · rw [mapping,opens.fd_name_mapping]
        exact .inl mapped
      · exact .inr (.inr ⟨⟨f,before⟩,fun m member file => mapped ⟨m,member,file⟩,bare x⟩)
    · exact .inr (.inl ((holds x).mpr new))
  · rw [live,opens.live]
    split <;> trivial
  · intro h held m member
    rw [mapping,opens.fd_name_mapping] at member
    obtain ⟨newest,-⟩ := opens.new h ((holds h).mp held)
    obtain ⟨f,found⟩ := (lives.inv.entry m member).2
    exact newest ▸ Nat.ne_of_lt (file_known lives.inv.toCounted found)
  · intro h held
    exact (gained h).mpr (.inr ((holds h).mp held))
  · intro h member
    rw [next_file]
    rcases (gained h).mp member with before | new
    · exact Nat.lt_of_lt_of_le (own.known h before) opens.next_file
    · exact (opens.new h new).2
  · intro h member
    rw [closed,holds h]
    rcases (gained h).mp member with before | new
    · have older : file ≠ some h := by
        intro new
        exact Nat.lt_irrefl _ ((opens.new h new).1 ▸ own.known h before)
      exact ⟨fun new => absurd new older,fun _ => (own.closes h before).2 (bare h)⟩
    · refine ⟨fun _ => ?_,fun old => absurd new old⟩
      -- A number that has not been given out has not been closed either.
      exact List.count_eq_zero.mpr fun member => Nat.lt_irrefl _ ((opens.new h new).1 ▸ lives.closedKnown h member)

theorem inv_executable {s : Sys} {file : Option FileId} (inv : Inv s) (known : t < s.next_tid)
    (new : ∀ id, file = some id → (∃ f, s.files id = some f) ∧ (∀ m ∈ s.fd_name_mapping, m.file ≠ id) ∧
      ∀ u, s.executable u ≠ some id) :
    Inv { s with executable := fun u => if u = t then file else s.executable u } := by
  have runs : ∀ u id, (if u = t then file else s.executable u) = some id → u = t ∧ file = some id ∨ s.executable u = some id := by
    intro u id same
    split at same
    · next self => exact .inl ⟨self,same⟩
    · exact .inr same
  refine ⟨counted_same inv.toCounted rfl rfl (fun _ => rfl) (fun _ => rfl),?_⟩
  refine ⟨inv.entry,inv.once,?_,?_,?_,?_,inv.fds,inv.fdsOnce,inv.index⟩
  · intro u id same
    rcases runs u id same with ⟨-,own⟩ | before
    · exact (new id own).2.1
    · exact inv.apart u id before
  · intro u id same
    rcases runs u id same with ⟨-,own⟩ | before
    · exact (new id own).1
    · exact inv.running u id before
  · intro u v id first second
    rcases runs u id first with ⟨self,own⟩ | before
    · rcases runs v id second with ⟨selfToo,-⟩ | beforeToo
      · rw [self,selfToo]
      · exact absurd beforeToo ((new id own).2.2 v)
    · rcases runs v id second with ⟨-,own⟩ | beforeToo
      · exact absurd before ((new id own).2.2 u)
      · exact inv.runOnce u v id before beforeToo
  · intro u later
    have other : u ≠ t := Nat.ne_of_gt (Nat.lt_of_lt_of_le known later)
    obtain ⟨live,none_⟩ := inv.tids u later
    exact ⟨live,(if_neg other).trans none_⟩

end Pintos.Lifetimes
