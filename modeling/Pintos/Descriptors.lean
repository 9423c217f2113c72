import Pintos.FileCounts

/-!
File descriptors. All processes share `fd_name_mapping`; `find_file_by_fd` and
`find_mapping_by_fd` compare the descriptor and not the process, and look at no
state. So any process may use the descriptors of any other, and `syscall_close`
only writes a state that nobody reads: the file stays open until its process exits.
-/
namespace Pintos.Descriptors
open Pintos.Machines Pintos.Files Pintos.FileCounts
set_option linter.unusedSimpArgs false
variable {s s' : Sys} {a b t : Tid} {m : Mapping} {f : File} {user : User} {space : Space} {c : Call} {fd : Int}

/-- A descriptor is given out once, so a lookup finds the mapping it was given to. -/
theorem find_own (inv : Inv s) (member : m ∈ s.fd_name_mapping) : find_mapping_by_fd s m.fd = some m := by
  have once := inv.fdsOnce
  unfold find_mapping_by_fd
  generalize s.fd_name_mapping = mapping at member once
  induction mapping with
  | nil => cases member
  | cons d rest ih =>
    rw [List.map_cons,List.nodup_cons] at once
    rcases List.mem_cons.mp member with rfl | later
    · simp
    · have other : d.fd ≠ m.fd := fun same => once.1 (same ▸ List.mem_map.mpr ⟨m,later,rfl⟩)
      rw [List.find?_cons_of_neg (by simpa using other)]
      exact ih later once.2

/-! ### Other processes' descriptors -/

/-- The calls that take a descriptor. -/
inductive OnDescriptor (fd : Int) : Call → Prop
  | filesize : OnDescriptor fd (.filesize fd)
  | read (buffer length : UInt32) : OnDescriptor fd (.read fd buffer length)
  | write (buffer length : UInt32) : OnDescriptor fd (.write fd buffer length)
  | seek (position : UInt32) : OnDescriptor fd (.seek fd position)
  | tell : OnDescriptor fd (.tell fd)
  | close : OnDescriptor fd (.close fd)

/-- The mapping, the position of its file and the bytes of its inode are as before. -/
structure Untouched (m : Mapping) (s s' : Sys) : Prop where
  mapping : m ∈ s'.fd_name_mapping
  file : s'.files m.file = s.files m.file
  bytes : ∀ f, s.files m.file = some f → (s'.inodes f.inode).bytes = (s.inodes f.inode).bytes ∧
    (s'.inodes f.inode).length = (s.inodes f.inode).length

/-- A call that goes as one on a descriptor that is not open: it returns -1 or has no
    effect, or its process is ended for another reason, and `m` is untouched. -/
def Private (s : Sys) (m : Mapping) : Except Fault Outcome → Prop
  | .ok (.returned (some eax) s') => eax = -1 ∧ Untouched m s s'
  | .ok (.returned none s') => s' = s
  | .ok (.exited status s') => status = -1 ∧ Untouched m s s'
  | .ok .halted => False
  | .error _ => False

/-- The call is stopped by the check of its buffer, or happens to change nothing. -/
def Spared (s : Sys) (user : User) (m : Mapping) : Call → Prop
  | .read _ buffer length | .write _ buffer length => validBuffer user buffer length = false
  | .seek _ position => ∀ f, s.files m.file = some f → f.pos = off_t position
  | .close _ => m.file_state = .FILE_CLOSED
  | _ => False

/-- The exit of another process. -/
theorem untouched_gone (inv : Inv s) (member : m ∈ s.fd_name_mapping) (other : m.tid ≠ b) (gone : Gone b s s') :
    Untouched m s s' := by
  refine ⟨?_,?_,fun f _ => gone.bytes f.inode⟩
  · rw [gone.fd_name_mapping]
    exact List.mem_filter.mpr ⟨member,by simpa using other⟩
  · refine gone.files m.file ?_ ?_
    · intro d listed owner same
      have equal : d = m := List.inj_on_of_nodup_map inv.once listed member same
      exact other (equal ▸ owner)
    · intro runs
      exact inv.apart b m.file runs m member rfl

theorem private_exit (inv : Inv s) (member : m ∈ s.fd_name_mapping) (other : m.tid ≠ b) :
    Private s m (syscall_exit s b (-1)) := by
  obtain ⟨s',exits,-,gone⟩ := exit_spec (t := b) inv (-1)
  rw [exits]
  exact ⟨rfl,untouched_gone inv member other gone⟩

theorem setFile_same (found : s.files m.file = some f) : s.setFile m.file (some f) = s := by
  have same : (s.setFile m.file (some f)).files = s.files := by
    funext x
    by_cases own : x = m.file
    · simp [Sys.setFile,own,found]
    · simp [Sys.setFile,own]
  cases s
  simp only [Sys.setFile] at same ⊢
  rw [same]

theorem markClosed_same {mapping : List Mapping} (found : mapping.find? (fun d => d.fd = fd) = some m) :
    markClosed fd mapping = mapping ↔ m.file_state = .FILE_CLOSED := by
  induction mapping with
  | nil => cases found
  | cons d rest ih =>
    unfold markClosed
    by_cases here : d.fd = fd
    · obtain rfl : d = m := by simpa [here] using found
      rw [if_pos here]
      cases d
      simp [eq_comm]
    · rw [if_neg here]
      have later : rest.find? (fun d => d.fd = fd) = some m := by simpa [here] using found
      simpa using ih later

/-- A process that uses a descriptor of another one is treated as if it were not
    open just when the check of its buffer stops it, it seeks to where the file is,
    or it closes what is closed. -/
theorem descriptor_private_iff (reached : Reaches machine Anything s) (member : m ∈ s.fd_name_mapping) (owner : m.tid = a)
    (other : a ≠ b) (user : User) (space : Space) (uses : OnDescriptor m.fd c) :
    Private s m (syscall_handler s b user space c) ↔ Spared s user m c := by
  have inv := reaches_inv reached
  have notOwn : m.tid ≠ b := owner ▸ other
  have found := find_own inv member
  obtain ⟨f,here,file⟩ := find_file_some inv found
  have real := inv.fds m member
  cases uses with
  | filesize =>
    simp only [syscall_handler,syscall_filesize,file,Private,Spared,iff_false]
    omega
  | read buffer length =>
    simp only [syscall_handler,syscall_read,Spared]
    cases valid : validBuffer user buffer length with
    | false =>
      simp only [Bool.not_false,↓reduceIte,iff_true]
      exact private_exit inv member notOwn
    | true =>
      have more := read_ge (s.inodes f.inode) (off_t length) f.pos
      simp only [Bool.not_true,Bool.false_eq_true,↓reduceIte,show ¬ m.fd = 0 by omega,file,Private,file_read,Bool.true_eq_false,
        iff_false]
      omega
  | write buffer length =>
    simp only [syscall_handler,syscall_write,Spared]
    cases valid : validBuffer user buffer length with
    | false =>
      simp only [Bool.not_false,↓reduceIte,iff_true]
      exact private_exit inv member notOwn
    | true =>
      have more := write_ge (s.inodes f.inode) (fun o => user.memory (buffer + UInt32.ofInt o)) (off_t length) f.pos
      simp only [Bool.not_true,Bool.false_eq_true,↓reduceIte,show ¬ m.fd = 1 by omega,file,Private,file_write,Bool.true_eq_false,
        iff_false]
      omega
  | seek position =>
    have ahead := inv.pos m.file f here
    simp only [syscall_handler,syscall_seek,Spared,file,file_seek]
    split
    · next negative =>
      simp only [Except.map,Private,false_iff]
      intro same
      have := same f here
      omega
    · simp only [Except.map,Private]
      constructor
      · intro same g known
        have moved := congrArg (fun s => s.files m.file) same
        simp only [Sys.setFile,↓reduceIte,known,Option.some.injEq] at moved
        rw [← moved]
      · intro same
        rw [← same f here]
        exact setFile_same here
  | tell =>
    have ahead := inv.pos m.file f here
    simp only [syscall_handler,syscall_tell,file,file_tell,Except.map,Private,Spared,iff_false]
    omega
  | close =>
    simp only [syscall_handler,syscall_close,found,Private,Spared]
    rw [← markClosed_same found]
    constructor
    · intro same
      exact congrArg Sys.fd_name_mapping same
    · intro same
      rw [same]

/-- Memory of a process that is all valid, and a disk with room. -/
def anywhere : User where
  valid _ := true
  memory _ := 0
def nowhere : User where
  valid _ := false
  memory _ := 0
def room (i : Sector) : Space where
  root := true
  sector := some i
  data := true
  slot := true
  memory := true

/-- The first of two processes creates and opens a file. -/
def opensOne : List Event :=
  [.start_process "first" (room 9),.start_process "second" (room 9),
    .syscall 0 anywhere (room 7) (.create { addr := 64, text := "data" } 10),
    .syscall 0 anywhere (room 7) (.open { addr := 64, text := "data" })]

def opened : Mapping := { tid := 0, fd := 2, name := "data", file := 0, file_state := .FILE_OPEN }

/-- The second process reads through it from a buffer that is not valid. -/
theorem descriptor_private_bad_buffer : ∃ s, run (fun s e => (step s e).toOption) boot opensOne = some s ∧
    s.live 1 = true ∧ Private s opened (syscall_handler s 1 nowhere (room 7) (.read 2 64 4)) :=
  ⟨_,rfl,rfl,(descriptor_private_iff (run_reachable boot (fun s e => (step s e).toOption) opensOne rfl)
    (m := opened) (a := 0) List.mem_cons_self rfl (by decide) nowhere (room 7) (.read 64 4)).mpr rfl⟩

/-- The second process learns the size of the file and moves its position. -/
theorem descriptor_used_by_other : ∃ s s', Reaches machine Anything s ∧ opened ∈ s.fd_name_mapping ∧
    opened.tid ≠ 1 ∧ s.live 1 = true ∧ syscall_handler s 1 anywhere (room 7) (.filesize 2) = .ok (.returned (some 10) s) ∧
    syscall_handler s 1 anywhere (room 7) (.seek 2 5) = .ok (.returned none s') ∧
    (s.files 0).map File.pos = some 0 ∧ (s'.files 0).map File.pos = some 5 :=
  ⟨_,_,run_reachable boot (fun s e => (step s e).toOption) opensOne rfl,List.mem_cons_self,by decide,rfl,rfl,rfl,rfl,rfl⟩

/-! ### Closing -/

/-- The calls that use a file through a descriptor. -/
inductive UsesFile (fd : Int) : Call → Prop
  | filesize : UsesFile fd (.filesize fd)
  | read (buffer length : UInt32) : UsesFile fd (.read fd buffer length)
  | write (buffer length : UInt32) : UsesFile fd (.write fd buffer length)
  | seek (position : UInt32) : UsesFile fd (.seek fd position)
  | tell : UsesFile fd (.tell fd)

/-- A call returns, and not with -1. -/
def Succeeds : Except Fault Outcome → Prop
  | .ok (.returned (some eax) _) => eax ≠ -1
  | .ok (.returned none _) => True
  | _ => False

/-- States that a run may come to. -/
def Later (s s' : Sys) : Prop := Relation.ReflTransGen (fun s s' => ∃ e, step s e = .ok s') s s'

/-- The file of `m` was closed between `s` and `s'`, once, and no process uses it
    afterwards. -/
structure ClosedForGood (m : Mapping) (s s' : Sys) : Prop where
  unused : ∀ s2, Later s' s2 → ∀ b user space c, s2.live b = true → UsesFile m.fd c →
    ¬ Succeeds (syscall_handler s2 b user space c)
  closed : s'.files m.file = none
  counted : ∀ f, s.files m.file = some f → (s'.inodes f.inode).open_cnt + 1 = (s.inodes f.inode).open_cnt

/-- No close of a descriptor, by its owner or another process, closes it: every
    process still learns the size of the file, the file is there, and its inode counts
    it as before. -/
theorem close_never_closes (reached : Reaches machine Anything s) (member : m ∈ s.fd_name_mapping) (t : Tid)
    (user : User) (space : Space) : ∃ s', syscall_handler s t user space (.close m.fd) = .ok (.returned none s') ∧
      ¬ ClosedForGood m s s' ∧ (∀ b user space, Succeeds (syscall_handler s' b user space (.filesize m.fd))) ∧
      s'.files m.file ≠ none ∧ ∀ i, (s'.inodes i).open_cnt = (s.inodes i).open_cnt := by
  have inv := reaches_inv reached
  have found := find_own inv member
  obtain ⟨f,here,-⟩ := find_file_some inv found
  refine ⟨{ s with fd_name_mapping := markClosed m.fd s.fd_name_mapping },?_,?_,?_,?_,fun _ => rfl⟩
  · simp only [syscall_handler,syscall_close,found]
  · intro good
    have still : s.files m.file = none := good.closed
    rw [here] at still
    cases still
  · intro b user space
    have invToo := inv_markClosed inv m.fd
    have listed : m.fd ∈ (markClosed m.fd s.fd_name_mapping).map Mapping.fd := by
      rw [(markClosed_map m.fd s.fd_name_mapping).2.1]
      exact List.mem_map.mpr ⟨m,member,rfl⟩
    obtain ⟨d,inside,same⟩ := List.mem_map.mp listed
    obtain ⟨g,-,file⟩ := find_file_some invToo (find_own invToo (m := d) inside)
    rw [same] at file
    simp only [syscall_handler,syscall_filesize,file,Succeeds]
    omega
  · show s.files m.file ≠ none
    rw [here]
    simp

theorem close_never_closes_opened : ∃ s s', run (fun s e => (step s e).toOption) boot opensOne = some s ∧
    syscall_handler s 0 anywhere (room 7) (.close 2) = .ok (.returned none s') ∧ ¬ ClosedForGood opened s s' := by
  obtain ⟨s',closes,never,-⟩ := close_never_closes (run_reachable boot (fun s e => (step s e).toOption) opensOne rfl)
    (m := opened) List.mem_cons_self 0 anywhere (room 7)
  exact ⟨_,s',rfl,closes,never⟩

/-- The process that closed its descriptor asks for the size of the file and gets it,
    and the inode still counts the file. -/
theorem closed_descriptor_used : ∃ s s', Reaches machine Anything s ∧ opened ∈ s.fd_name_mapping ∧
    syscall_handler s 0 anywhere (room 7) (.close 2) = .ok (.returned none s') ∧
    syscall_handler s' 0 anywhere (room 7) (.filesize 2) = .ok (.returned (some 10) s') ∧
    (s.inodes 7).open_cnt = 1 ∧ (s'.inodes 7).open_cnt = 1 ∧ ¬ ClosedForGood opened s s' := by
  refine ⟨_,_,run_reachable boot (fun s e => (step s e).toOption) opensOne rfl,List.mem_cons_self,rfl,rfl,rfl,rfl,?_⟩
  intro good
  have still := good.closed
  cases still

end Pintos.Descriptors
