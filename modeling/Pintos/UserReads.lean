import Pintos.UserMemory
import Pintos.Bitmaps
import Pintos.Traces

/-!
What the kernel reads of a process in `syscall_handler`, `syscall_exec`,
`syscall_create`, `syscall_remove` and `syscall_open`. A computation logs every
lookup of `is_valid_addr` and every byte that it fetches through a pointer of the
process. It stops at a byte that is not mapped, which is a page fault.

The page directory and the memory do not change during a call. What the file
system and the allocators have room for is in `Env`, and so are the names that
the call compares with: the entries of the root directory, and the pointers that
`fd_name_mapping` keeps of earlier calls of any process.
-/
namespace Pintos.UserReads
open Pintos Pintos.UserMemory Pintos.Traces
open Pintos.Bitmaps (Byte)
set_option linter.unusedSimpArgs false

/-- The memory that a page directory maps; `ram` is read at kernel addresses. -/
structure Memory where
  pd : PageDir
  ram : Addr → Byte

inductive Event
  /-- `is_valid_addr` and its verdict. -/
  | check (addr : Addr) (passed : Bool)
  | fetch (addr : Addr)
deriving DecidableEq
inductive Stop
  | exit (status : Int)
  | page_fault (addr : Addr)
  | assertion
  /-- A loop over more bytes than there are addresses. -/
  | endless
deriving DecidableEq

abbrev Kernel := Traced Memory Event Stop

/-- What the processor finds at an address. The kernel's own pages are in every page
    directory. -/
def peek (m : Memory) (a : Addr) : Option Byte :=
  if is_user_vaddr a then
    match lookup_page m.pd a with
    | none => none
    | some pte => if pte &&& PTE_P ≠ 0 then some (m.ram (pte_get_page pte + pg_ofs a)) else none
  else if (a - PHYS_BASE).toNat / PGSIZE < m.pd.init_ram_pages then some (m.ram a) else none

def fetch (a : Addr) : Kernel Byte := fun m =>
  ([.fetch a],match peek m a with
    | none => .error (.page_fault a)
    | some b => .ok b)
/-- A word that the processor reads; a fault is at its first byte that is not mapped. -/
def fetch_word (a : Addr) : Kernel (BitVec 32) := do
  let b0 ← fetch a
  let b1 ← fetch (a + 1)
  let b2 ← fetch (a + 2)
  let b3 ← fetch (a + 3)
  return b3 ++ b2 ++ b1 ++ b0

def syscall_exit {α : Type} (status : Int) : Kernel α := halt (.exit status)
def is_valid_addr (addr : Addr) : Kernel Bool := fun m => ([.check addr (UserMemory.is_valid_addr m.pd addr)],.ok (UserMemory.is_valid_addr m.pd addr))
def catch_addr_error (addr : Addr) : Kernel Unit := do
  let valid ← is_valid_addr addr
  if !valid then syscall_exit (-1) else return ()

/-! ### Strings -/

/-- An argument of `strcmp`: a pointer of a process, or a string of the kernel. -/
inductive Source
  | user (a : Addr)
  | kernel (text : List Byte)

def Source.read : Source → Nat → Kernel Byte
  | .user a, i => fetch (a + BitVec.ofNat 32 i)
  | .kernel text, i => return text.getD i 0
def Source.null : Source → Bool
  | .user a => a == 0
  | .kernel _ => false

def strlen_from (string : Addr) : Nat → Nat → Kernel Nat
  | 0, _ => halt .endless
  | n + 1, i => do
    let c ← fetch (string + BitVec.ofNat 32 i)
    if c ≠ 0 then strlen_from string n (i + 1) else return i

def strlen (string : Addr) : Kernel Nat := if string = 0 then halt .assertion else strlen_from string (2 ^ 32) 0

def memcpy_from (src : Addr) : Nat → Nat → Kernel (List Byte)
  | 0, _ => return []
  | n + 1, i => do
    let c ← fetch (src + BitVec.ofNat 32 i)
    let rest ← memcpy_from src n (i + 1)
    return c :: rest

/-- `strlcpy` to the kernel, where `dst` says whether its buffer is there. -/
def strlcpy (dst : Bool) (src : Addr) (size : Nat) : Kernel (List Byte) :=
  if !dst then halt .assertion
  else do
    let src_len ← strlen src
    if size > 0 then memcpy_from src (min src_len (size - 1)) 0 else return []

def difference (a b : Source) (i : Nat) : Kernel Int := do
  let x ← a.read i
  let y ← b.read i
  return if x < y then -1 else if y < x then 1 else 0
def strcmp_from (a b : Source) : Nat → Nat → Kernel Int
  | 0, _ => halt .endless
  | n + 1, i => do
    let x ← a.read i
    if x ≠ 0 then
      let y ← b.read i
      if x = y then strcmp_from a b n (i + 1) else difference a b i
    else difference a b i

def strcmp (a b : Source) : Kernel Int := if a.null || b.null then halt .assertion else strcmp_from a b (2 ^ 32) 0

/-- The loops of `lookup` and `find_mapping_by_name`: the first element that compares
    equal. -/
def search {α : Type} (compare : α → Kernel Int) : List α → Kernel (Option α)
  | [] => return none
  | x :: rest => do
    let c ← compare x
    if c = 0 then return some x else search compare rest

/-! ### The calls -/

def NAME_MAX : Nat := 14
def TID_ERROR : Int := -1

/-- The member `name` of an element of `fd_name_mapping`; `syscall_open` exits on a null
    pointer before it stores one. -/
structure FileFdName where
  name : Addr
  named : name ≠ 0

structure Env where
  /-- Whether `palloc_get_page` and `malloc` give memory. -/
  page : Bool
  block : Bool
  /-- Whether `dir_open_root` does. -/
  root : Bool
  /-- Whether a sector is free, and then whether `inode_create` succeeds. -/
  room : BitVec 32 → Bool
  /-- The names of the root directory that are in use, in the order of their slots. -/
  names : List { name : List Byte // name.length ≤ NAME_MAX }
  fd_name_mapping : List FileFdName
  pid : Int

def process_execute (env : Env) (file_name : Addr) : Kernel Int :=
  if !env.page then return TID_ERROR
  else do
    let _ ← strlcpy true file_name PGSIZE
    let _ ← strlen file_name
    let n ← strlen file_name
    let _ ← strlcpy env.block file_name (n + 1)
    return env.pid

def syscall_exec (env : Env) (file : Addr) : Kernel Int := do
  catch_addr_error file
  let n ← strlen file
  catch_addr_error (file + BitVec.ofNat 32 n - 1)
  process_execute env file

def lookup (env : Env) (name : Addr) : Kernel Bool :=
  if name = 0 then halt .assertion
  else do
    let found ← search (fun e => strcmp (.user name) (.kernel e.val)) env.names
    return found.isSome

def dir_add (env : Env) (name : Addr) : Kernel Bool :=
  if name = 0 then halt .assertion
  else do
    let c ← fetch name
    if c = 0 then return false
    else
      let n ← strlen name
      if n > NAME_MAX then return false
      else
        let found ← lookup env name
        if found then return false
        else
          let _ ← strlcpy true name (NAME_MAX + 1)
          return true

def filesys_create (env : Env) (name : Addr) (initial_size : BitVec 32) : Kernel Bool :=
  if env.root && env.room initial_size then dir_add env name else return false
def filesys_open (env : Env) (name : Addr) : Kernel Bool := if env.root then lookup env name else return false
def filesys_remove (env : Env) (name : Addr) : Kernel Bool := if env.root then lookup env name else return false

def syscall_create (env : Env) (file : Addr) (initial_size : BitVec 32) : Kernel Bool :=
  if file = 0 then syscall_exit (-1)
  else do
    let valid ← is_valid_addr file
    if !valid then syscall_exit (-1)
    else
      let c ← strcmp (.user file) (.kernel [])
      if c = 0 then syscall_exit (-1) else filesys_create env file initial_size

def syscall_remove (env : Env) (file : Addr) : Kernel Bool := filesys_remove env file

def find_mapping_by_name (env : Env) (f : Addr) : Kernel (Option FileFdName) :=
  search (fun ffn => strcmp (.user ffn.name) (.user f)) env.fd_name_mapping
def syscall_open (env : Env) (file : Addr) : Kernel Bool :=
  if file = 0 then syscall_exit (-1)
  else do
    let valid ← is_valid_addr file
    if !valid then syscall_exit (-1)
    else
      let c ← strcmp (.user file) (.kernel [])
      if c = 0 then return false
      else
        let _ ← find_mapping_by_name env file
        filesys_open env file

inductive Nr
  | SYS_HALT | SYS_EXIT | SYS_EXEC | SYS_WAIT | SYS_CREATE | SYS_REMOVE | SYS_OPEN
  | SYS_FILESIZE | SYS_READ | SYS_WRITE | SYS_SEEK | SYS_TELL | SYS_CLOSE
deriving DecidableEq

/-- The numbers that `syscall_handler` has a case for. -/
def numbers : List Nr :=
  [.SYS_HALT,.SYS_EXIT,.SYS_EXEC,.SYS_WAIT,.SYS_CREATE,.SYS_REMOVE,.SYS_OPEN,
    .SYS_FILESIZE,.SYS_READ,.SYS_WRITE,.SYS_SEEK,.SYS_TELL,.SYS_CLOSE]
def Nr.of_word (w : BitVec 32) : Option Nr := numbers[w.toNat]?

/-- What the handler goes on with, once it has its arguments. -/
inductive Action
  | syscall_halt
  | syscall_exit (status : BitVec 32)
  | syscall_wait (pid : BitVec 32)
  | syscall_filesize (fd : BitVec 32)
  | syscall_read (fd buffer_addr length : BitVec 32)
  | syscall_write (fd buffer_addr length : BitVec 32)
  | syscall_seek (fd position : BitVec 32)
  | syscall_tell (fd : BitVec 32)
  | syscall_close (fd : BitVec 32)
  /-- The value of `f->eax`. -/
  | eax (pid : Int)
  | eax_bool (b : Bool)
  | nothing

/-- The cases with one argument. -/
def one_argument {α : Type} (esp : Addr) (rest : BitVec 32 → Kernel α) : Kernel α := do
  catch_addr_error (esp + 4)
  let x ← fetch_word (esp + 4)
  rest x
/-- The cases with two. -/
def two_arguments {α : Type} (esp : Addr) (rest : BitVec 32 → BitVec 32 → Kernel α) : Kernel α := do
  catch_addr_error (esp + 8)
  let x ← fetch_word (esp + 4)
  let y ← fetch_word (esp + 8)
  rest x y

/-- The cases with three. -/
def three_arguments {α : Type} (esp : Addr) (rest : BitVec 32 → BitVec 32 → BitVec 32 → Kernel α) : Kernel α := do
  catch_addr_error (esp + 12)
  let x ← fetch_word (esp + 4)
  let y ← fetch_word (esp + 8)
  let z ← fetch_word (esp + 12)
  rest x y z

def dispatch (env : Env) (esp : Addr) : Option Nr → Kernel Action
  | some .SYS_HALT => return .syscall_halt
  | some .SYS_EXIT => one_argument esp fun status => return .syscall_exit status
  | some .SYS_EXEC => one_argument esp fun file => do return .eax (← syscall_exec env file)
  | some .SYS_WAIT => one_argument esp fun pid => return .syscall_wait pid
  | some .SYS_CREATE => two_arguments esp fun file initial_size => do return .eax_bool (← syscall_create env file initial_size)
  | some .SYS_REMOVE => one_argument esp fun file => do return .eax_bool (← syscall_remove env file)
  | some .SYS_OPEN => one_argument esp fun file => do return .eax_bool (← syscall_open env file)
  | some .SYS_FILESIZE => one_argument esp fun fd => return .syscall_filesize fd
  | some .SYS_READ => three_arguments esp fun fd buffer_addr length => return .syscall_read fd buffer_addr length
  | some .SYS_WRITE => three_arguments esp fun fd buffer_addr length => return .syscall_write fd buffer_addr length
  | some .SYS_SEEK => two_arguments esp fun fd position => return .syscall_seek fd position
  | some .SYS_TELL => one_argument esp fun fd => return .syscall_tell fd
  | some .SYS_CLOSE => one_argument esp fun fd => return .syscall_close fd
  | none => return .nothing

def syscall_handler (env : Env) (esp : Addr) : Kernel Action := do
  catch_addr_error esp
  let syscall_number ← fetch_word esp
  dispatch env esp (Nr.of_word syscall_number)

end Pintos.UserReads
