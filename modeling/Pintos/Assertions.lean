import Pintos.Descriptors

/-!
Which system calls fail an assertion. The counts of the inodes keep those of
`inode_deny_write` and `inode_allow_write` true, so that a process can always exit.
What is left are arguments that nobody checks: a descriptor that is not open or a
position that is negative as an `off_t`, such a size, a null name, and a command line
without a word.
-/
namespace Pintos.Assertions
open Pintos.Machines Pintos.Files Pintos.FileCounts Pintos.Descriptors
set_option linter.unusedSimpArgs false
variable {s : Sys} {t : Tid} {user : User} {space : Space} {fd : Int} {out : Except Fault Outcome}

/-- A string argument that is not null points to a string. -/
def NullOrValid (user : User) : Call → Prop
  | .exec file _ | .create file _ | .remove file | .open file => file.addr = 0 ∨ user.valid file.addr = true
  | _ => True

/-- The value that a call on a descriptor that is not open returns. -/
def ErrorValue (s : Sys) (eax : Option Int) : Call → Prop
  | .filesize fd => find_mapping_by_fd s fd = none → eax = some (-1)
  | .read fd _ _ => fd ≠ 0 → find_mapping_by_fd s fd = none → eax = some (-1)
  | .write fd _ _ => fd ≠ 1 → find_mapping_by_fd s fd = none → eax = some (-1)
  | _ => True

/-- The call fails no assertion and follows no bad pointer: it returns, with an error
    value where its descriptor is not open, or its process ends, with -1 unless it
    asked for another status. -/
def Graceful (s : Sys) (c : Call) : Except Fault Outcome → Prop
  | .ok (.returned eax _) => ErrorValue s eax c
  | .ok (.exited status _) => status = -1 ∨ c = .exit status
  | .ok .halted => c = .halt
  | .error (.assertion _) => False
  | .error .bad_pointer => False
  | .error .fd_overflow => True
  | .error .impossible => True

/-- A size or position that is not negative as an `off_t`. -/
def Positive (x : UInt32) : Prop := x.toNat < 2147483648

instance (x : UInt32) : Decidable (Positive x) := inferInstanceAs (Decidable (_ < _))

/-- The calls that are stopped before the assertion, or whose arguments meet it. -/
def Safe (s : Sys) (user : User) (space : Space) : Call → Prop
  | .seek fd position => (find_mapping_by_fd s fd).isSome ∧ Positive position
  | .tell fd => (find_mapping_by_fd s fd).isSome
  | .create file initial_size => file.addr = 0 ∨ user.valid file.addr = false ∨ file.text = "" ∨ Positive initial_size ∨
      space.root = false ∨ space.sector = none
  | .remove file => file.addr ≠ 0 ∨ space.root = false
  | .exec file _ => user.valid file.addr = false ∨ user.valid (file.addr + file.text.length.toUInt32 - 1) = false ∨
      space.memory = false ∨ ∃ c ∈ file.text.toList, c ≠ ' '
  | _ => True

theorem off_t_negative (x : UInt32) : off_t x < 0 ↔ ¬ Positive x := by
  unfold off_t Positive
  rw [BitVec.toInt_eq_toNat_cond,UInt32.toNat_toBitVec]
  have small := UInt32.toNat_lt x
  split <;> omega

theorem find_file_none (inv : Inv s) : find_file_by_fd s fd = none ↔ find_mapping_by_fd s fd = none := by
  constructor
  · intro none
    cases found : find_mapping_by_fd s fd with
    | none => rfl
    | some m =>
      obtain ⟨f,-,file⟩ := find_file_some inv found
      rw [file] at none
      cases none
  · intro none
    simp [find_file_by_fd,none]

theorem find_file_isSome (inv : Inv s) : (find_mapping_by_fd s fd).isSome ↔ ∃ id f, find_file_by_fd s fd = some (id,f) := by
  constructor
  · intro found
    obtain ⟨m,found⟩ := Option.isSome_iff_exists.mp found
    obtain ⟨f,-,file⟩ := find_file_some inv found
    exact ⟨m.file,f,file⟩
  · rintro ⟨id,f,file⟩
    obtain ⟨-,m,found,-⟩ := find_file_found file
    simp [found]

/-- A process can always exit. -/
theorem graceful_exit (inv : Inv s) (c : Call) : Graceful s c (syscall_exit s t (-1)) := by
  obtain ⟨s',exits,-⟩ := exit_spec (t := t) inv (-1)
  rw [exits]
  exact .inl rfl

theorem graceful_create (inv : Inv s) {file : UserString} {initial_size : UInt32} :
    Graceful s (.create file initial_size) (syscall_create s t user space file initial_size) ↔
      Safe s user space (.create file initial_size) := by
  unfold syscall_create
  simp only [Safe]
  by_cases null : file.addr = 0
  · simp only [null,↓reduceIte,true_or,iff_true]
    exact graceful_exit inv _
  cases valid : user.valid file.addr with
  | false =>
    simp only [null,↓reduceIte,valid,Bool.not_false,true_or,or_true,iff_true]
    exact graceful_exit inv _
  | true =>
    by_cases empty : file.text = ""
    · simp only [null,valid,empty,↓reduceIte,Bool.not_true,Bool.false_eq_true,true_or,or_true,iff_true]
      exact graceful_exit inv _
    simp only [null,valid,empty,↓reduceIte,Bool.not_true,Bool.false_eq_true,Bool.true_eq_false,false_or]
    unfold filesys_create
    cases root : space.root with
    | false => simp [Except.map,Graceful,ErrorValue]
    | true =>
      cases sector : space.sector with
      | none => simp [Except.map,Graceful,ErrorValue]
      | some i =>
        simp only [Bool.not_true,Bool.false_eq_true,↓reduceIte,reduceCtorEq,or_false]
        unfold inode_create
        by_cases negative : off_t initial_size < 0
        · simp only [if_pos negative,Except.map,Graceful,false_iff]
          exact (off_t_negative initial_size).mp negative
        · have positive : Positive initial_size := by
            by_contra large
            exact negative ((off_t_negative initial_size).mpr large)
          simp only [if_neg negative,positive,iff_true]
          split
          · next fault failed =>
            split at failed <;> cases failed
          · split
            · simp [Except.map,Graceful,ErrorValue]
            · simp [Except.map,Graceful]

theorem graceful_remove {file : UserString} (valid : file.addr = 0 ∨ user.valid file.addr = true) :
    Graceful s (.remove file) (syscall_remove s user space file) ↔ Safe s user space (.remove file) := by
  have pointer : ¬ (file.addr ≠ 0 ∧ (!user.valid file.addr) = true) := by
    rintro ⟨some,bad⟩
    rcases valid with null | good
    · exact some null
    · simp [good] at bad
  unfold syscall_remove
  rw [if_neg pointer]
  unfold filesys_remove
  cases root : space.root with
  | false => simp [Except.map,Graceful,ErrorValue,Safe,root]
  | true =>
    by_cases null : file.addr = 0
    · simp [null,Except.map,Graceful,Safe,root]
    · simp only [Bool.not_true,Bool.false_eq_true,↓reduceIte,null,Safe,ne_eq,not_false_eq_true,true_or,iff_true]
      split
      · simp [Except.map,Graceful,ErrorValue]
      · split <;> simp [Except.map,Graceful,ErrorValue]

theorem graceful_open (inv : Inv s) {file : UserString} : Graceful s (.open file) (syscall_open s t user space file) := by
  unfold syscall_open
  split
  · exact graceful_exit inv _
  · split
    · exact graceful_exit inv _
    · split
      · trivial
      · obtain ⟨found,s1,opens,-⟩ := open_spec inv.toCounted file.text space
        rw [opens]
        cases found with
        | none => trivial
        | some id =>
          dsimp only
          split <;> trivial

theorem graceful_exec (inv : Inv s) {file : UserString} {pid : Int} :
    Graceful s (.exec file pid) (syscall_exec s t user space file pid) ↔ Safe s user space (.exec file pid) := by
  unfold syscall_exec
  simp only [Safe]
  cases valid : user.valid file.addr with
  | false =>
    simp only [Bool.not_false,↓reduceIte,true_or,iff_true]
    exact graceful_exit inv _
  | true =>
    cases end_ : user.valid (file.addr + file.text.length.toUInt32 - 1) with
    | false =>
      simp only [Bool.not_true,Bool.not_false,Bool.false_eq_true,↓reduceIte,true_or,or_true,iff_true]
      exact graceful_exit inv _
    | true =>
      cases memory : space.memory with
      | false => simp [Graceful,ErrorValue]
      | true =>
        simp only [Bool.not_true,Bool.false_eq_true,↓reduceIte,Bool.true_eq_false,false_or]
        split
        · next blank =>
          simp only [Graceful,false_iff]
          rintro ⟨c,member,word⟩
          exact word (by simpa using List.all_eq_true.mp blank c member)
        · next word =>
          simp only [Graceful,ErrorValue,true_iff]
          by_contra none
          refine word (List.all_eq_true.mpr ?_)
          intro c member
          by_contra other
          exact none ⟨c,member,by simpa using other⟩

theorem graceful_read (inv : Inv s) {buffer length : UInt32} :
    Graceful s (.read fd buffer length) (syscall_read s t user fd buffer length) := by
  unfold syscall_read
  split
  · exact graceful_exit inv _
  · split
    · next console => exact fun other => absurd console other
    · split
      · exact fun _ _ => rfl
      · next id f found =>
        intro _ none
        rw [(find_file_none inv).mpr none] at found
        cases found

theorem graceful_write (inv : Inv s) {buffer length : UInt32} :
    Graceful s (.write fd buffer length) (syscall_write s t user fd buffer length) := by
  unfold syscall_write
  split
  · exact graceful_exit inv _
  · split
    · next console => exact fun other => absurd console other
    · split
      · exact fun _ _ => rfl
      · next id f found =>
        intro _ none
        rw [(find_file_none inv).mpr none] at found
        cases found

theorem graceful_filesize (inv : Inv s) : Graceful s (.filesize fd) (syscall_filesize s fd) := by
  unfold syscall_filesize
  split
  · next id f found =>
    intro none
    rw [(find_file_none inv).mpr none] at found
    cases found
  · exact fun _ => rfl

/-- Both assertions of `file_seek` are in reach: the file may be null and the offset negative. -/
theorem graceful_seek (inv : Inv s) {position : UInt32} :
    Graceful s (.seek fd position) (syscall_handler s t user space (.seek fd position)) ↔
      Safe s user space (.seek fd position) := by
  simp only [syscall_handler,syscall_seek,Safe]
  rw [find_file_isSome inv]
  unfold file_seek
  split
  · next none => simp [none,Except.map,Graceful]
  · next id f found =>
    split
    · next negative =>
      simp only [Except.map,Graceful,false_iff]
      exact fun both => (off_t_negative position).mp negative both.2
    · next positive =>
      simp only [Except.map,Graceful,ErrorValue,true_iff]
      refine ⟨⟨id,f,found⟩,?_⟩
      by_contra large
      exact positive ((off_t_negative position).mpr large)

theorem graceful_tell (inv : Inv s) :
    Graceful s (.tell fd) (syscall_handler s t user space (.tell fd)) ↔ Safe s user space (.tell fd) := by
  simp only [syscall_handler,syscall_tell,Safe]
  rw [find_file_isSome inv]
  unfold file_tell
  split
  · next none => simp [none,Except.map,Graceful]
  · next id f found =>
    simp only [Except.map,Graceful,ErrorValue,true_iff]
    exact ⟨id,f,found⟩

end Pintos.Assertions
