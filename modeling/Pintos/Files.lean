import Pintos.Machines
import Mathlib.Data.UInt

/-!
The file system calls of project 3: `fd_name_mapping` and the system calls of
`userprog/syscall.c` over `filesys/filesys.c`, `filesys/file.c`, `filesys/inode.c`
and `filesys/directory.c`. A call is atomic. It returns, ends its process or halts
the machine, or it fails an assertion.

An inode is named by its sector. One that is not open has the count zero; it is read
from the disk again when it is opened. The bytes of a file are a function, not yet
cut into sectors. A character of a string is a byte. The free map and the kernel's memory are not modelled: what they
have room for is an argument of the call. The strings that `syscall_open` compares
the name with, and does not use, are left out.
-/
namespace Pintos.Files
open Pintos.Machines

abbrev Tid := Nat
abbrev FileId := Nat
abbrev Sector := Nat

def BLOCK_SECTOR_SIZE : Int := 512
def NAME_MAX : Nat := 14

/-- The conversion of an unsigned argument to `off_t` or `int`. -/
def off_t (x : UInt32) : Int := x.toBitVec.toInt

/-- `struct inode`, with its `struct inode_disk` and the data sectors. -/
structure Inode where
  open_cnt : Nat
  removed : Bool
  deny_write_cnt : Nat
  length : Nat
  bytes : Int → UInt8

/-- `struct file`. -/
structure File where
  inode : Sector
  pos : Int
  deny_write : Bool
/-- `enum FILE_STATE`. -/
inductive FileState
  | FILE_IDLE | FILE_OPEN | FILE_CLOSED
deriving DecidableEq
/-- `struct file_fd_name`. -/
structure Mapping where
  tid : Tid
  fd : Int
  name : String
  file : FileId
  file_state : FileState
deriving DecidableEq

structure Sys where
  fd_name_mapping : List Mapping
  fd_index : Int
  /-- The files in memory; one that was closed is gone. -/
  files : FileId → Option File
  next_file : FileId
  inodes : Sector → Inode
  /-- The entries of the root directory that are in use. -/
  root : List (String × Sector)
  /-- The processes that have not exited, and the member `file` of their threads. -/
  live : Tid → Bool
  executable : Tid → Option FileId
  next_tid : Tid

inductive Assertion
  | file_seek_file | file_seek_new_pos | file_tell_file | inode_create_length
  | dir_lookup_name | dir_remove_name | inode_deny_write | inode_allow_write | init_thread_name
deriving DecidableEq

inductive Fault
  | assertion (a : Assertion)
  /-- A null or dangling pointer. -/
  | bad_pointer
  /-- `fd_index++` of the greatest `int`. -/
  | fd_overflow
  /-- Not a step of the system. -/
  | impossible
deriving DecidableEq

/-- What the disk and the kernel's memory have room for. -/
structure Space where
  /-- Whether `dir_open_root` succeeds. -/
  root : Bool
  /-- What `free_map_allocate (1)` gives. -/
  sector : Option Sector
  /-- Whether `inode_create` and then `dir_add` find room. -/
  data : Bool
  slot : Bool
  memory : Bool

/-- The memory of the calling process: the verdicts of `is_valid_addr` and the bytes. -/
structure User where
  valid : UInt32 → Bool
  memory : UInt32 → UInt8
/-- A pointer to a string of the calling process, null or not. -/
structure UserString where
  addr : UInt32
  text : String

def Sys.setFile (s : Sys) (id : FileId) (f : Option File) : Sys :=
  { s with files := fun x => if x = id then f else s.files x }
def Sys.setInode (s : Sys) (i : Sector) (v : Inode) : Sys :=
  { s with inodes := fun j => if j = i then v else s.inodes j }

/-! ### Inodes -/

/-- How many bytes one turn of the loops of `inode_read_at` and `inode_write_at` moves. -/
def chunkSize (length size offset : Int) : Int :=
  let sector_left := BLOCK_SECTOR_SIZE - offset % BLOCK_SECTOR_SIZE
  let min_left := if length - offset < sector_left then length - offset else sector_left
  if size < min_left then size else min_left

def readLoop (length : Int) : Nat → Int → Int → Int → Int
  | 0, _, _, bytes_read => bytes_read
  | n + 1, size, offset, bytes_read =>
    let chunk_size := chunkSize length size offset
    if size ≤ 0 ∨ chunk_size ≤ 0 then bytes_read
    else readLoop length n (size - chunk_size) (offset + chunk_size) (bytes_read + chunk_size)

/-- `inode_read_at`: how many bytes it reads. -/
def inode_read_at (i : Inode) (size offset : Int) : Int := readLoop i.length size.toNat size offset 0

def writeLoop (length : Int) (buffer : Int → UInt8) : Nat → Int → Int → Int → (Int → UInt8) → Int × (Int → UInt8)
  | 0, _, _, bytes_written, bytes => (bytes_written,bytes)
  | n + 1, size, offset, bytes_written, bytes =>
    let chunk_size := chunkSize length size offset
    if size ≤ 0 ∨ chunk_size ≤ 0 then (bytes_written,bytes)
    else writeLoop length buffer n (size - chunk_size) (offset + chunk_size) (bytes_written + chunk_size)
      (fun o => if offset ≤ o ∧ o < offset + chunk_size then buffer (bytes_written + (o - offset)) else bytes o)

/-- `inode_write_at`: how many bytes it writes, and the bytes of the file after it. -/
def inode_write_at (i : Inode) (buffer : Int → UInt8) (size offset : Int) : Int × (Int → UInt8) :=
  if i.deny_write_cnt ≠ 0 then (0,i.bytes)
  else writeLoop i.length buffer size.toNat size offset 0 i.bytes

def inode_open (s : Sys) (i : Sector) : Sys :=
  let v := s.inodes i
  if v.open_cnt = 0 then s.setInode i { v with open_cnt := 1, deny_write_cnt := 0, removed := false }
  else s.setInode i { v with open_cnt := v.open_cnt + 1 }
def inode_close (s : Sys) (i : Sector) : Sys :=
  s.setInode i { s.inodes i with open_cnt := (s.inodes i).open_cnt - 1 }
def inode_remove (s : Sys) (i : Sector) : Sys := s.setInode i { s.inodes i with removed := true }
def inode_deny_write (s : Sys) (i : Sector) : Except Fault Sys :=
  let v := s.inodes i
  if v.deny_write_cnt + 1 ≤ v.open_cnt then .ok (s.setInode i { v with deny_write_cnt := v.deny_write_cnt + 1 })
  else .error (.assertion .inode_deny_write)
def inode_allow_write (s : Sys) (i : Sector) : Except Fault Sys :=
  let v := s.inodes i
  if 0 < v.deny_write_cnt ∧ v.deny_write_cnt ≤ v.open_cnt then
    .ok (s.setInode i { v with deny_write_cnt := v.deny_write_cnt - 1 })
  else .error (.assertion .inode_allow_write)

def inode_create (s : Sys) (sector : Sector) (length : Int) (room : Bool) : Except Fault (Sys × Bool) :=
  if length < 0 then .error (.assertion .inode_create_length)
  else if room then .ok (s.setInode sector { s.inodes sector with length := length.toNat, bytes := fun _ => 0 },true)
  else .ok (s,false)

/-! ### Files -/

def file_deny_write (s : Sys) (id : FileId) : Except Fault Sys :=
  match s.files id with
  | none => .error .bad_pointer
  | some f =>
    if f.deny_write then .ok s
    else inode_deny_write (s.setFile id (some { f with deny_write := true })) f.inode

def file_allow_write (s : Sys) (id : FileId) : Except Fault Sys :=
  match s.files id with
  | none => .error .bad_pointer
  | some f =>
    if f.deny_write then inode_allow_write (s.setFile id (some { f with deny_write := false })) f.inode
    else .ok s

def file_close (s : Sys) (id : FileId) : Except Fault Sys :=
  match s.files id with
  | none => .error .bad_pointer
  | some f => (file_allow_write s id).map (fun s => (inode_close s f.inode).setFile id none)

def file_read (s : Sys) (id : FileId) (f : File) (size : Int) : Int × Sys :=
  let bytes_read := inode_read_at (s.inodes f.inode) size f.pos
  (bytes_read,s.setFile id (some { f with pos := f.pos + bytes_read }))
def file_write (s : Sys) (id : FileId) (f : File) (buffer : Int → UInt8) (size : Int) : Int × Sys :=
  let written := inode_write_at (s.inodes f.inode) buffer size f.pos
  (written.1,(s.setInode f.inode { s.inodes f.inode with bytes := written.2 }).setFile id
    (some { f with pos := f.pos + written.1 }))
def file_seek (s : Sys) (file : Option (FileId × File)) (new_pos : Int) : Except Fault Sys :=
  match file with
  | none => .error (.assertion .file_seek_file)
  | some (id,f) =>
    if new_pos < 0 then .error (.assertion .file_seek_new_pos) else .ok (s.setFile id (some { f with pos := new_pos }))

def file_tell (file : Option (FileId × File)) : Except Fault Int :=
  match file with
  | none => .error (.assertion .file_tell_file)
  | some (_,f) => .ok f.pos

/-! ### The root directory -/

def lookup (s : Sys) (name : String) : Option Sector := (s.root.find? (fun e => e.1 = name)).map Prod.snd

/-- `filesys_open`: the file, if there is one. A null name is `none`. -/
def filesys_open (s : Sys) (name : Option String) (space : Space) : Except Fault (Option FileId × Sys) :=
  if !space.root then .ok (none,s)
  else match name with
    | none => .error (.assertion .dir_lookup_name)
    | some name =>
      match lookup s name with
      | none => .ok (none,s)
      | some i =>
        if space.memory then
          let opened := inode_open s i
          .ok (some s.next_file,{ opened.setFile s.next_file (some { inode := i, pos := 0, deny_write := false }) with
            next_file := s.next_file + 1 })
        else .ok (none,s)

/-- Neither open nor in the directory: what the free map gives. -/
def Unused (s : Sys) (i : Sector) : Prop := (s.inodes i).open_cnt = 0 ∧ ∀ e ∈ s.root, e.2 ≠ i

instance (s : Sys) (i : Sector) : Decidable (Unused s i) := inferInstanceAs (Decidable (_ ∧ _))

def dir_add (s : Sys) (name : String) (i : Sector) (slot : Bool) : Bool × Sys :=
  if name = "" ∨ name.length > NAME_MAX then (false,s)
  else if (lookup s name).isSome then (false,s)
  else if slot then (true,{ s with root := s.root ++ [(name,i)] })
  else (false,s)

def filesys_create (s : Sys) (name : String) (initial_size : Int) (space : Space) : Except Fault (Bool × Sys) :=
  if !space.root then .ok (false,s)
  else match space.sector with
    | none => .ok (false,s)
    | some i =>
      match inode_create s i initial_size space.data with
      | .error fault => .error fault
      | .ok (written,created) =>
        if Unused s i then .ok (if created then dir_add written name i space.slot else (false,written))
        else .error .impossible

def filesys_remove (s : Sys) (name : Option String) (space : Space) : Except Fault (Bool × Sys) :=
  if !space.root then .ok (false,s)
  else match name with
    | none => .error (.assertion .dir_remove_name)
    | some name =>
      match lookup s name with
      | none => .ok (false,s)
      | some i =>
        if space.memory then
          .ok (true,inode_close (inode_remove
            { inode_open s i with root := s.root.eraseP (fun e => e.1 = name) } i) i)
        else .ok (false,s)

/-! ### System calls -/

def find_mapping_by_fd (s : Sys) (fd : Int) : Option Mapping := s.fd_name_mapping.find? (fun m => m.fd = fd)
def find_mapping_by_tid (s : Sys) (t : Tid) : Option Mapping := s.fd_name_mapping.find? (fun m => m.tid = t)
/-- `find_file_by_fd`, with the file the pointer leads to. -/
def find_file_by_fd (s : Sys) (fd : Int) : Option (FileId × File) :=
  (find_mapping_by_fd s fd).bind (fun m => (s.files m.file).map (fun f => (m.file,f)))

/-- The loop of `syscall_exit`. -/
def exitLoop : Nat → Sys → Tid → Except Fault Sys
  | 0, s, _ => .ok s
  | n + 1, s, t =>
    match find_mapping_by_tid s t with
    | none => .ok s
    | some m =>
      match file_close { s with fd_name_mapping := s.fd_name_mapping.eraseP (fun m => m.tid = t) } m.file with
      | .error fault => .error fault
      | .ok s => exitLoop n s t

inductive Outcome
  /-- The value of `eax`, where the call sets it. -/
  | returned (eax : Option Int) (s : Sys)
  | exited (status : Int) (s : Sys)
  | halted

/-- `syscall_exit`, and what `thread_exit` does to the executable. -/
def syscall_exit (s : Sys) (t : Tid) (status : Int) : Except Fault Outcome :=
  match exitLoop s.fd_name_mapping.length s t with
  | .error fault => .error fault
  | .ok s =>
    let dead := { s with live := fun u => if u = t then false else s.live u }
    match s.executable t with
    | none => .ok (.exited status dead)
    | some id => (file_allow_write dead id).map (.exited status)

def syscall_create (s : Sys) (t : Tid) (user : User) (space : Space) (file : UserString) (initial_size : UInt32) :
    Except Fault Outcome :=
  if file.addr = 0 then syscall_exit s t (-1)
  else if !user.valid file.addr then syscall_exit s t (-1)
  else if file.text = "" then syscall_exit s t (-1)
  else (filesys_create s file.text (off_t initial_size) space).map (fun r => .returned (some (if r.1 then 1 else 0)) r.2)

/-- A null pointer is handed on to `filesys_remove`. -/
def syscall_remove (s : Sys) (user : User) (space : Space) (file : UserString) : Except Fault Outcome :=
  if file.addr ≠ 0 ∧ !user.valid file.addr then .error .bad_pointer
  else (filesys_remove s (if file.addr = 0 then none else some file.text) space).map
    (fun r => .returned (some (if r.1 then 1 else 0)) r.2)

def syscall_open (s : Sys) (t : Tid) (user : User) (space : Space) (file : UserString) : Except Fault Outcome :=
  if file.addr = 0 then syscall_exit s t (-1)
  else if !user.valid file.addr then syscall_exit s t (-1)
  else if file.text = "" then .ok (.returned (some (-1)) s)
  else match filesys_open s (some file.text) space with
    | .error fault => .error fault
    | .ok (none,s) => .ok (.returned (some (-1)) s)
    | .ok (some id,s) =>
      if s.fd_index < 2147483647 then
        .ok (.returned (some s.fd_index) { s with
          fd_index := s.fd_index + 1
          fd_name_mapping := s.fd_name_mapping ++
            [{ tid := t, fd := s.fd_index, name := file.text, file := id, file_state := .FILE_OPEN }] })
      else .error .fd_overflow

def syscall_filesize (s : Sys) (fd : Int) : Except Fault Outcome :=
  match find_file_by_fd s fd with
  | some (_,f) => .ok (.returned (some (s.inodes f.inode).length) s)
  | none => .ok (.returned (some (-1)) s)

/-- Whether both calls of `catch_addr_error` return. -/
def validBuffer (user : User) (buffer length : UInt32) : Bool := user.valid buffer && user.valid (buffer + length - 1)

def syscall_read (s : Sys) (t : Tid) (user : User) (fd : Int) (buffer length : UInt32) : Except Fault Outcome :=
  if !validBuffer user buffer length then syscall_exit s t (-1)
  else if fd = 0 then .ok (.returned (some 1) s)
  else match find_file_by_fd s fd with
    | none => .ok (.returned (some (-1)) s)
    | some (id,f) =>
      let r := file_read s id f (off_t length)
      .ok (.returned (some r.1) r.2)

def syscall_write (s : Sys) (t : Tid) (user : User) (fd : Int) (buffer length : UInt32) : Except Fault Outcome :=
  if !validBuffer user buffer length then syscall_exit s t (-1)
  else if fd = 1 then .ok (.returned (some (off_t length)) s)
  else match find_file_by_fd s fd with
    | none => .ok (.returned (some (-1)) s)
    | some (id,f) =>
      let r := file_write s id f (fun o => user.memory (buffer + UInt32.ofInt o)) (off_t length)
      .ok (.returned (some r.1) r.2)

def syscall_seek (s : Sys) (fd : Int) (position : UInt32) : Except Fault Outcome :=
  (file_seek s (find_file_by_fd s fd) (off_t position)).map (.returned none)
def syscall_tell (s : Sys) (fd : Int) : Except Fault Outcome :=
  (file_tell (find_file_by_fd s fd)).map (fun pos => .returned (some pos) s)

/-- The write through the pointer that `find_mapping_by_fd` returns. -/
def markClosed (fd : Int) : List Mapping → List Mapping
  | [] => []
  | m :: rest => if m.fd = fd then { m with file_state := .FILE_CLOSED } :: rest else m :: markClosed fd rest
def syscall_close (s : Sys) (fd : Int) : Except Fault Outcome :=
  match find_mapping_by_fd s fd with
  | none => .ok (.returned none s)
  | some _ => .ok (.returned none { s with fd_name_mapping := markClosed fd s.fd_name_mapping })

/-- `syscall_exec`, up to the creation of the thread, which gives `pid`. A command
    line without a word has no name for the thread. -/
def syscall_exec (s : Sys) (t : Tid) (user : User) (space : Space) (file : UserString) (pid : Int) : Except Fault Outcome :=
  if !user.valid file.addr then syscall_exit s t (-1)
  else if !user.valid (file.addr + file.text.length.toUInt32 - 1) then syscall_exit s t (-1)
  else if !space.memory then .ok (.returned (some (-1)) s)
  else if file.text.toList.all (fun c => c = ' ') then .error (.assertion .init_thread_name)
  else .ok (.returned (some pid) s)

inductive Call
  | halt
  | exit (status : Int)
  | exec (file : UserString) (pid : Int)
  | wait (pid ret : Int)
  | create (file : UserString) (initial_size : UInt32)
  | remove (file : UserString)
  | open (file : UserString)
  | filesize (fd : Int)
  | read (fd : Int) (buffer length : UInt32)
  | write (fd : Int) (buffer length : UInt32)
  | seek (fd : Int) (position : UInt32)
  | tell (fd : Int)
  | close (fd : Int)
  /-- A number that `syscall_handler` does not know. -/
  | other (number : Int)

/-- `syscall_handler`. What `process_wait` gives is an argument of the call. -/
def syscall_handler (s : Sys) (t : Tid) (user : User) (space : Space) : Call → Except Fault Outcome
  | .halt => .ok .halted
  | .exit status => syscall_exit s t status
  | .exec file pid => syscall_exec s t user space file pid
  | .wait _ ret => .ok (.returned (some ret) s)
  | .create file initial_size => syscall_create s t user space file initial_size
  | .remove file => syscall_remove s user space file
  | .open file => syscall_open s t user space file
  | .filesize fd => syscall_filesize s fd
  | .read fd buffer length => syscall_read s t user fd buffer length
  | .write fd buffer length => syscall_write s t user fd buffer length
  | .seek fd position => syscall_seek s fd position
  | .tell fd => syscall_tell s fd
  | .close fd => syscall_close s fd
  | .other _ => .ok (.returned none s)

/-! ### The machine -/

inductive Event
  /-- `start_process`: the new process opens its executable and denies writes to it. -/
  | start_process (name : String) (space : Space)
  | syscall (t : Tid) (user : User) (space : Space) (c : Call)

def start_process (s : Sys) (name : String) (space : Space) : Except Fault Sys :=
  match filesys_open s (some name) space with
  | .error fault => .error fault
  | .ok (file,s) =>
    let started := { s with
      next_tid := s.next_tid + 1
      live := fun u => if u = s.next_tid then true else s.live u
      executable := fun u => if u = s.next_tid then file else s.executable u }
    match file with
    | none => .ok started
    | some id => file_deny_write started id

def step (s : Sys) : Event → Except Fault Sys
  | .start_process name space => start_process s name space
  | .syscall t user space c =>
    if s.live t then
      match syscall_handler s t user space c with
      | .error fault => .error fault
      | .ok (.returned _ s) => .ok s
      | .ok (.exited _ s) => .ok s
      | .ok .halted => .error .impossible
    else .error .impossible

def boot : Sys where
  fd_name_mapping := []
  fd_index := 2
  files _ := none
  next_file := 0
  inodes _ := { open_cnt := 0, removed := false, deny_write_cnt := 0, length := 0, bytes := fun _ => 0 }
  root := []
  live _ := false
  executable _ := none
  next_tid := 0

def machine : Machine Sys Event := ofStep boot (fun s e => (step s e).toOption)

end Pintos.Files
