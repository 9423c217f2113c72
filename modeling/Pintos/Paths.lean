import Pintos.Machines

/-!
The paths of system calls and page faults of project 3 through the five locks of the
kernel: `userprog/syscall.c`, `page_fault`, and what they reach of `filesys.c`,
`process.c`, `pagetable.c`, `swap.c` and `palloc.c`. What a process still has to do
is a list of instructions; any process may run its next one, so a path can be cut
between any two of them.

An instruction that touches memory touches one byte. Kernel code that touches a byte it
cannot reach enters `page_fault`, and tries again when that returns. The tables keep
what decides a fault: which user pages are mapped, which have a page entry and whether
it is marked as swapped, and the entries of the swap table. Which frame or victim an
allocation gets, how many bytes a call reads or writes, and how long a string is are
arguments. A failed assertion has no successor.
-/
namespace Pintos.Paths
open Pintos.Machines

abbrev Tid := Nat

def PGSIZE : Nat := 4096
def PHYS_BASE : Nat := 0xc0000000
/-- Addresses have 32 bits. -/
def add (a b : Nat) : Nat := (a + b) % 0x100000000

inductive Lock
  | syscall_lock | filesys_lock | exception_lock | page_lock | swap_lock
deriving DecidableEq

inductive Instr
  /-- `catch_addr_error`, or `is_valid_addr` with the exit that follows it. -/
  | check (addr : Nat)
  /-- The kernel touches `n` bytes from `addr` on. -/
  | touch (addr n : Nat) (write : Bool)
  | acquire (l : Lock)
  | release (l : Lock)
  | exit (status : Int)
  | page_fault (fault_addr : Nat)
  /-- `page_fault` once it has `exception_lock`. -/
  | lookup (fault_addr : Nat)
  /-- `palloc_get_page (PAL_USER)`. -/
  | get_page
  /-- `page_swap_to_disk`, up to its call of `swap_frame_to_disk`. -/
  | evict
  | swap_insert
  /-- `swap_disk_to_frame` once it has `swap_lock`. -/
  | swap_lookup (upage : Nat)
  /-- `page_fault` after `swap_disk_to_frame`, up to the release of its lock. -/
  | map (upage : Nat)
  /-- `install_page` for a new page. -/
  | install (upage : Nat) (writable : Bool)
deriving DecidableEq

structure Pte where
  kpage : Nat
  writable : Bool
structure PageEntry where
  kpage : Nat
  writable : Bool
  is_swapped : Bool

structure Sys where
  init_ram_pages : Nat
  holder : Lock → Option Tid
  /-- `sys_lock_hold` and `file_lock_hold` of `struct thread`. -/
  sys_lock_hold : Tid → Bool
  file_lock_hold : Tid → Bool
  pagedir : Tid → Nat → Option Pte
  pagetable : Tid → Nat → Option PageEntry
  /-- The `kpage` members of a process's swap entries. -/
  swap_table : Tid → List Nat
  /-- Local variables: the page that `palloc_get_page` returned, and the frame and the
      owner of the page that is evicted. -/
  pages : Tid → Nat
  victim : Tid → Nat × Tid
  pc : Tid → List Instr
  live : Tid → Bool
  dead : Tid → Bool

def Sys.setPc (s : Sys) (t : Tid) (code : List Instr) : Sys :=
  { s with pc := fun u => if u = t then code else s.pc u }
/-- Instructions ahead of what a process still has to do. -/
def Sys.enter (s : Sys) (t : Tid) (code : List Instr) : Sys := s.setPc t (code ++ s.pc t)
def Sys.setHolder (s : Sys) (l : Lock) (t : Option Tid) : Sys :=
  { s with holder := fun m => if m = l then t else s.holder m }
def Sys.setPte (s : Sys) (t : Tid) (upage : Nat) (p : Option Pte) : Sys :=
  { s with pagedir := fun u v => if u = t ∧ v = upage then p else s.pagedir u v }
def Sys.setEntry (s : Sys) (t : Tid) (upage : Nat) (p : PageEntry) : Sys :=
  { s with pagetable := fun u v => if u = t ∧ v = upage then some p else s.pagetable u v }

/-! ### Locks -/

/-- A lock that the process holds already fails an assertion; one that another process
    holds keeps it waiting. -/
def lock_acquire (s : Sys) (t : Tid) (l : Lock) : Option Sys :=
  if s.holder l = none then some (s.setHolder l (some t)) else none
def lock_release (s : Sys) (t : Tid) (l : Lock) : Option Sys :=
  if s.holder l = some t then some (s.setHolder l none) else none
def check_filesys_lock (s : Sys) : Bool := (s.holder .filesys_lock).isSome
def filesys_lock_release (s : Sys) (t : Tid) : Option Sys :=
  lock_release { s with file_lock_hold := fun u => if u = t then false else s.file_lock_hold u } t .filesys_lock
def syscall_lock_release (s : Sys) (t : Tid) : Option Sys :=
  lock_release { s with sys_lock_hold := fun u => if u = t then false else s.sys_lock_hold u } t .syscall_lock

/-- `process_exit`, the two releases of `thread_exit`, and its last switch. -/
def thread_exit (s : Sys) (t : Tid) : Option Sys := do
  let s := { s with pagedir := fun u v => if u = t then none else s.pagedir u v }
  let s ← if s.file_lock_hold t then filesys_lock_release s t else some s
  let s ← if s.sys_lock_hold t then syscall_lock_release s t else some s
  some { s.setPc t [] with
    live := fun u => if u = t then false else s.live u
    dead := fun u => if u = t then true else s.dead u }

/-! ### Memory -/

/-- Whether kernel code reaches a byte. All of physical memory is mapped from
    `PHYS_BASE` on, and the processor keeps the kernel from writing to pages that
    are not writable. -/
def reaches (s : Sys) (t : Tid) (addr : Nat) (write : Bool) : Bool :=
  if addr < PHYS_BASE then
    match s.pagedir t (addr / PGSIZE) with
    | none => false
    | some p => !write || p.writable
  else addr < PHYS_BASE + s.init_ram_pages * PGSIZE

def is_valid_addr (s : Sys) (t : Tid) (addr : Nat) : Bool := addr < PHYS_BASE && (s.pagedir t (addr / PGSIZE)).isSome

/-- The code of `palloc_get_page` without a free page: `page_swap_to_disk`. -/
def page_swap_to_disk : List Instr :=
  [.acquire .page_lock,.evict,.acquire .swap_lock,.swap_insert,.release .swap_lock,.release .page_lock]
/-- `page_fault` on a page that is marked as swapped. -/
def swapIn (upage : Nat) : List Instr :=
  [.get_page,.acquire .swap_lock,.swap_lookup upage,.map upage,.release .exception_lock]

/-- What the tables outside the model decide: a free page of the user pool, the victim
    at the front of `frametable`, and whether there is a page for a page table. -/
structure Choice where
  free : Option Nat
  victim : Tid × Nat
  alloc : Bool

/-- A process runs one instruction, already taken from its `pc`. -/
def exec (s : Sys) (t : Tid) (choice : Choice) : Instr → Option Sys
  | .check addr => if is_valid_addr s t addr then some s else thread_exit s t
  | .touch _ 0 _ => some s
  | .touch addr (n + 1) write =>
    if reaches s t addr write then some (s.enter t [.touch (add addr 1) n write])
    else some (s.enter t [.page_fault addr,.touch addr (n + 1) write])
  | .acquire l => lock_acquire s t l
  | .release l => lock_release s t l
  | .exit _ => thread_exit s t
  | .page_fault fault_addr =>
    if check_filesys_lock s ∧ PHYS_BASE ≤ fault_addr then some s
    else if fault_addr < PHYS_BASE then some (s.enter t [.acquire .exception_lock,.lookup fault_addr])
    else thread_exit s t
  | .lookup fault_addr =>
    match s.pagedir t (fault_addr / PGSIZE) with
    | some _ => some (s.enter t [.release .exception_lock])
    | none =>
      match s.pagetable t (fault_addr / PGSIZE) with
      -- The arguments of a `printf` read `kpage` and `upage` through the null pointer.
      | none => some (s.enter t [.touch 12 4 false,.touch 8 4 false,.release .exception_lock,.exit (-1)])
      | some p =>
        if p.is_swapped then some (s.enter t (swapIn (fault_addr / PGSIZE)))
        else some (s.enter t [.release .exception_lock])
  | .get_page =>
    match choice.free with
    | some kpage => some { s with pages := fun u => if u = t then kpage else s.pages u }
    | none => some (s.enter t page_swap_to_disk)
  | .evict =>
    match s.pagetable choice.victim.1 choice.victim.2 with
    | none => none
    | some p =>
      if p.is_swapped then none
      else some { ((s.setPte choice.victim.1 choice.victim.2 none).setEntry choice.victim.1 choice.victim.2
          { p with is_swapped := true }) with
        pages := fun u => if u = t then p.kpage else s.pages u
        victim := fun u => if u = t then (p.kpage,choice.victim.1) else s.victim u }
  | .swap_insert =>
    let (kpage,owner) := s.victim t
    some { s with swap_table := fun u => if u = owner then s.swap_table u ++ [kpage] else s.swap_table u }
  | .swap_lookup upage =>
    match s.pagetable t upage with
    | none => none
    | some p =>
      -- With no entry, `swap_disk_to_frame` returns without releasing the lock.
      if p.kpage ∈ s.swap_table t then
        some ({ s with swap_table := fun u => if u = t then (s.swap_table t).erase p.kpage else s.swap_table u }.enter t
          [.release .swap_lock])
      else some s
  | .map upage =>
    match s.pagetable t upage with
    | none => none
    | some p =>
      let flapped := s.setEntry t upage { p with is_swapped := !p.is_swapped, kpage := s.pages t }
      if (s.pagedir t upage).isSome then none
      else if choice.alloc then some (flapped.setPte t upage (some { kpage := s.pages t, writable := p.writable }))
      else some flapped
  | .install upage writable =>
    if (s.pagedir t upage).isSome ∨ !choice.alloc then some s
    else
      let mapped := s.setPte t upage (some { kpage := s.pages t, writable := writable })
      match s.pagetable t upage with
      | some _ => some mapped
      | none => some (mapped.setEntry t upage { kpage := s.pages t, writable := writable, is_swapped := false })

/-! ### System calls -/

/-- `filesys_create`, `filesys_remove` and `filesys_open` read the name, whose bytes
    `touched` are, inside their lock. -/
def bytes (touched : List Nat) : List Instr := touched.map (fun addr => .touch addr 1 false)
def filesys (touched : List Nat) : List Instr :=
  [.acquire .filesys_lock] ++ bytes touched ++ [.release .filesys_lock]
def locked (code : List Instr) : List Instr := [.acquire .syscall_lock] ++ code ++ [.release .syscall_lock]

/-- The words that the process has pushed, and what decides the paths beside them: the
    length `n` of a string, the bytes of names that are read, whether there is a file,
    and how many bytes it gives or takes. -/
inductive Call
  | exit (status : Int)
  | exec (file n : Nat)
  | wait
  | create (file n : Nat) (touched : List Nat)
  | remove (touched : List Nat)
  | «open» (file n : Nat) (compared touched : List Nat)
  | filesize
  | read (fd : Int) (buffer length : Nat) (found : Bool) (n : Nat)
  | write (fd : Int) (buffer length : Nat) (found : Bool) (n : Nat)
  | seek
  | tell
  | close

/-- `buffer + length - 1`. -/
def lastByte (buffer length : Nat) : Nat := add buffer (length + 0xffffffff)

def syscall_exec (file n : Nat) : List Instr :=
  [.check file,.touch file (n + 1) false,.check (lastByte file n)] ++ locked [.touch file (n + 1) false]
def syscall_create (file n : Nat) (touched : List Nat) : List Instr :=
  if file = 0 then [.exit (-1)]
  else [.check file,.touch file 1 false] ++ if n = 0 then [.exit (-1)] else locked (filesys touched)
def syscall_remove (touched : List Nat) : List Instr := locked (filesys touched)
/-- `find_mapping_by_name` compares the name with the stored ones. -/
def syscall_open (file n : Nat) (compared touched : List Nat) : List Instr :=
  if file = 0 then [.exit (-1)]
  else [.check file,.touch file 1 false] ++ if n = 0 then [] else locked (bytes compared ++ filesys touched)
def syscall_filesize : List Instr := locked []
def syscall_read (fd : Int) (buffer length : Nat) (found : Bool) (n : Nat) : List Instr :=
  [.check buffer,.check (lastByte buffer length)] ++
    if fd = 0 then [.touch buffer 1 true]
    else if found then locked [.touch buffer (min n length) true]
    else []

def syscall_write (fd : Int) (buffer length : Nat) (found : Bool) (n : Nat) : List Instr :=
  [.check buffer,.check (lastByte buffer length)] ++
    locked (if fd = 1 then [.touch buffer length false]
      else if found then [.touch buffer (min n length) false]
      else [])

def syscall_seek : List Instr := locked []

/-- The arguments up to `esp + top`, of which the last one is checked. -/
def arguments (esp top : Nat) : List Instr := [.check (add esp top),.touch (add esp 4) top false]

def syscall_handler (esp : Nat) (c : Call) : List Instr :=
  [.check esp,.touch esp 4 false] ++ match c with
    | .exit status => arguments esp 4 ++ [.exit status]
    | .exec file n => arguments esp 4 ++ syscall_exec file n
    | .wait => arguments esp 4
    | .create file n touched => arguments esp 8 ++ syscall_create file n touched
    | .remove touched => arguments esp 4 ++ syscall_remove touched
    | .open file n compared touched => arguments esp 4 ++ syscall_open file n compared touched
    | .filesize => arguments esp 4 ++ syscall_filesize
    | .read fd buffer length found n => arguments esp 12 ++ syscall_read fd buffer length found n
    | .write fd buffer length found n => arguments esp 12 ++ syscall_write fd buffer length found n
    | .seek => arguments esp 8 ++ syscall_seek
    | .tell => arguments esp 4
    | .close => arguments esp 4

/-- `start_process`: the program is opened, its pages are installed, the arguments are
    pushed, and the file is opened once more. -/
def start_process (segments : List (Nat × Bool)) (esp n : Nat) (success : Bool) : List Instr :=
  filesys [] ++ segments.flatMap (fun p => [.get_page,.install p.1 p.2]) ++ [.touch esp n true] ++ filesys [] ++
    if success then [] else [.exit (-1)]

inductive Event
  /-- A new process loads its program. -/
  | start (t : Tid) (segments : List (Nat × Bool)) (esp n : Nat) (success : Bool)
  | syscall (t : Tid) (esp : Nat) (c : Call)
  /-- An instruction of the program faults at an address. -/
  | fault (t : Tid) (fault_addr : Nat)
  /-- Any other exception of the program. -/
  | kill (t : Tid)
  | run (t : Tid) (choice : Choice)

/-- The process runs its own code. -/
def InUser (s : Sys) (t : Tid) : Prop := s.live t = true ∧ s.pc t = []

instance (s : Sys) (t : Tid) : Decidable (InUser s t) := inferInstanceAs (Decidable (_ ∧ _))

def step (s : Sys) : Event → Option Sys
  | .start t segments esp n success =>
    -- `validate_segment` refuses the first page.
    if s.live t = false ∧ s.dead t = false ∧ ∀ p ∈ segments, p.1 ≠ 0 then
      some ({ s with live := fun u => if u = t then true else s.live u }.setPc t (start_process segments esp n success))
    else none
  | .syscall t esp c => if InUser s t then some (s.setPc t (syscall_handler esp c)) else none
  | .fault t fault_addr => if InUser s t then some (s.setPc t [.page_fault fault_addr]) else none
  | .kill t => if InUser s t then some (s.setPc t [.exit (-1)]) else none
  | .run t choice =>
    match s.pc t with
    | [] => none
    | i :: rest => exec (s.setPc t rest) t choice i

def boot (init_ram_pages : Nat) : Sys where
  init_ram_pages := init_ram_pages
  holder _ := none
  sys_lock_hold _ := false
  file_lock_hold _ := false
  pagedir _ _ := none
  pagetable _ _ := none
  swap_table _ := []
  pages _ := 0
  victim _ := (0,0)
  pc _ := []
  live _ := false
  dead _ := false

def machine (init_ram_pages : Nat) : Machine Sys Event := ofStep (boot init_ram_pages) step

end Pintos.Paths
