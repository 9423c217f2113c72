import Pintos.Blocks
import Pintos.Machines

/-!
The virtual memory of project 3: `vm/frame.c`, `vm/pagetable.c`, `vm/swap.c`, the
user pool of `threads/palloc.c`, `userprog/pagedir.c` and `page_fault`. Every
operation is atomic; a step that fails an assertion, follows a null pointer or
takes a lock that is never released ends in a `Fault`.

Pages are numbers: a user page is an address divided by `PGSIZE`, a kernel page
an index into the user pool. The lists `pagetable` and `swap_table`, which the
source searches for the list of an owner first, are functions of the owner. The
kernel pool is not modelled: whether it has a page for a new page table is the
argument `alloc`. Files, children and the parent of an exiting process have no
part in this machine.

Three members are not in the source. `clock` counts evictions; `evicted_at` and
`saved` keep the time and the bytes of the last eviction of each user page.
-/
namespace Pintos.Vm
open Pintos.Blocks Pintos.Machines

abbrev Tid := Nat
abbrev Page := Nat → UInt8

def PGSIZE : Nat := 4096
def PHYS_BASE : Nat := 0xc0000000
def BLOCK_SECTOR_SIZE : Nat := 512
def pd_no (upage : Nat) : Nat := upage / 1024

/-- `struct frame_entry`. -/
structure FrameEntry where
  upage : Nat
  kpage : Nat
  owner_pid : Tid
deriving DecidableEq
/-- `struct page_entry`, in the list of its owner. -/
structure PageEntry where
  upage : Nat
  kpage : Nat
  writable : Bool
  is_swapped : Bool
deriving DecidableEq
/-- `struct swap_entry`, in the list of its owner. The member `victim` is not in
    the source: the user page whose eviction made the entry. -/

structure SwapEntry where
  kpage : Nat
  disk_offset : Nat
  victim : Nat
deriving DecidableEq
/-- A page table entry, all zero before it is written. -/
structure Pte where
  present : Bool
  writable : Bool
  kpage : Nat
/-- A page directory: the numbers of the page tables it has, their entries, and
    the pages whose entry has been written. -/

structure Pagedir where
  tables : List Nat
  pte : Nat → Pte
  written : List Nat

structure Vm where
  user_pages : Nat
  used_map : Nat → Bool
  mem : Nat → Page
  frametable : List FrameEntry
  pagetable : Tid → List PageEntry
  swap_table : Tid → List SwapEntry
  swap_disk_size : Nat
  empty_block_sector : Nat → Bool
  swap_disk : Nat → Nat → UInt8
  swap_lock : Bool
  exception_lock : Bool
  filesys_lock : Bool
  /-- The page directories of the live processes. -/
  pagedir : Tid → Option Pagedir
  exit_status : Tid → Int
  next_tid : Tid
  clock : Nat
  evicted_at : Tid → Nat → Nat
  saved : Tid → Nat → Page

inductive Fault
  /-- `list_pop_front` of an empty `frametable`. -/
  | no_victim
  /-- The assertions of `page_swap_to_disk`. -/
  | no_page_entry
  | already_swapped
  | swap_full
  | swap_locked
  | exception_locked
  /-- `page_entry_upage (NULL)`. -/
  | null_page_entry
  | null_pagedir
  | pte_present
  /-- `palloc_free_page` of a page that is not in use. -/
  | free_unused
  /-- Not a step of the system. -/
  | impossible
deriving DecidableEq

/-! ### Page directories -/

def Pagedir.Present (pd : Pagedir) (upage : Nat) : Prop := pd_no upage ∈ pd.tables ∧ (pd.pte upage).present = true

instance (pd : Pagedir) (upage : Nat) : Decidable (pd.Present upage) := inferInstanceAs (Decidable (_ ∧ _))

def pagedir_create : Pagedir where
  tables := []
  pte _ := { present := false, writable := false, kpage := 0 }
  written := []

/-- A page directory with a new page table, all zero. -/
def Pagedir.addTable (pd : Pagedir) (n : Nat) : Pagedir :=
  { pd with
    tables := n :: pd.tables
    pte := fun u => if pd_no u = n then { present := false, writable := false, kpage := 0 } else pd.pte u }
/-- `lookup_page`, with the page table it may add. -/
def lookup_page (pd : Pagedir) (upage : Nat) (create alloc : Bool) : Option Pagedir :=
  if pd_no upage ∈ pd.tables then some pd
  else if create && alloc then some (pd.addTable (pd_no upage))
  else none

def Pagedir.setPte (pd : Pagedir) (upage : Nat) (v : Pte) : Pagedir :=
  { pd with
    pte := fun u => if u = upage then v else pd.pte u
    written := if upage ∈ pd.written then pd.written else upage :: pd.written }

def pagedir_clear_page (pd : Pagedir) (upage : Nat) : Pagedir :=
  if pd.Present upage then { pd with
    pte := fun u => if u = upage then { pd.pte upage with present := false } else pd.pte u }
  else pd

def Vm.setPagedir (s : Vm) (t : Tid) (pd : Option Pagedir) : Vm :=
  { s with pagedir := fun u => if u = t then pd else s.pagedir u }

def pagedir_get_page (s : Vm) (t : Tid) (upage : Nat) : Option Nat :=
  match s.pagedir t with
  | none => none
  | some pd => if pd.Present upage then some (pd.pte upage).kpage else none

/-! ### The tables -/

def page_entry_lookup (s : Vm) (upage : Nat) (t : Tid) : Option PageEntry :=
  (s.pagetable t).find? (fun p => p.upage = upage)

def page_entry_insert (s : Vm) (upage kpage : Nat) (writable : Bool) (t : Tid) : Vm :=
  if (page_entry_lookup s upage t).isSome then s
  else
    let new_page_entry := { upage := upage, kpage := kpage, writable := writable, is_swapped := false }
    { s with pagetable := fun u => if u = t then s.pagetable t ++ [new_page_entry] else s.pagetable u }

/-- A write through the pointer that `page_entry_lookup` returns. -/
def updateFirst (upage : Nat) (f : PageEntry → PageEntry) : List PageEntry → List PageEntry
  | [] => []
  | p :: rest => if p.upage = upage then f p :: rest else p :: updateFirst upage f rest
def Vm.updateEntry (s : Vm) (upage : Nat) (t : Tid) (f : PageEntry → PageEntry) : Vm :=
  { s with pagetable := fun u => if u = t then updateFirst upage f (s.pagetable t) else s.pagetable u }
def flap_swapped_flag (s : Vm) (upage : Nat) (t : Tid) : Vm :=
  s.updateEntry upage t (fun p => { p with is_swapped := !p.is_swapped })
def page_entry_update_kpage (s : Vm) (upage : Nat) (t : Tid) (new_kpage : Nat) : Vm :=
  s.updateEntry upage t (fun p => { p with kpage := new_kpage })

def frame_entry_insert (s : Vm) (upage kpage : Nat) (t : Tid) : Vm :=
  { s with frametable := s.frametable ++ [{ upage := upage, kpage := kpage, owner_pid := t }] }
def frame_delete_by_pid (s : Vm) (t : Tid) : Vm :=
  { s with frametable := s.frametable.filter (fun f => f.owner_pid ≠ t) }

/-! ### Swapping -/

def Vm.setMem (s : Vm) (kpage : Nat) (bytes : Page) : Vm :=
  { s with mem := fun k => if k = kpage then bytes else s.mem k }

def swap_find_empty_sector (s : Vm) : Option Nat :=
  (List.range s.swap_disk_size).find? (fun i => s.empty_block_sector i)

def swap_entry_lookup (s : Vm) (kpage : Nat) (t : Tid) : Option SwapEntry :=
  (s.swap_table t).find? (fun e => e.kpage = kpage)

/-- The state with the bytes of `kpage` in the slot `slot`. -/
def swappedOut (s : Vm) (kpage : Nat) (t : Tid) (victim slot : Nat) : Vm :=
  { s with
    empty_block_sector := fun i => if i = slot then false else s.empty_block_sector i
    swap_table := fun u => if u = t then
        s.swap_table t ++ [{ kpage := kpage, disk_offset := slot, victim := victim }]
      else s.swap_table u
    swap_disk := writeBlocks BLOCK_SECTOR_SIZE (s.mem kpage) (8 * slot) s.swap_disk 8 }

def swap_frame_to_disk (s : Vm) (kpage : Nat) (t : Tid) (victim : Nat) : Except Fault Vm :=
  if s.swap_lock then .error .swap_locked
  else match swap_find_empty_sector s with
    | none => .error .swap_full
    | some slot => .ok (swappedOut s kpage t victim slot)

/-- The state with the bytes of the slot of `e` in the frame `dst`. -/
def swappedIn (s : Vm) (dst kpage : Nat) (t : Tid) (e : SwapEntry) : Vm :=
  { s with
    mem := fun k => if k = dst then
        readBlocks BLOCK_SECTOR_SIZE s.swap_disk (8 * e.disk_offset) (s.mem dst) 8
      else s.mem k
    empty_block_sector := fun i => if i = e.disk_offset then true else s.empty_block_sector i
    swap_table := fun u => if u = t then (s.swap_table t).eraseP (fun e => e.kpage = kpage) else s.swap_table u }

/-- `swap_disk_to_frame`. When there is no entry, it returns without releasing
    `swap_lock`. -/

def swap_disk_to_frame (s : Vm) (dst kpage : Nat) (t : Tid) : Except Fault Vm :=
  if s.swap_lock then .error .swap_locked
  else match swap_entry_lookup s kpage t with
    | none => .ok { s with swap_lock := true }
    | some e => .ok (swappedIn s dst kpage t e)

/-- The bytes of a user page, as its owner's page directory maps it. -/
def bytesOf (s : Vm) (t : Tid) (upage : Nat) : Page :=
  match s.pagedir t with
  | none => fun _ => 0
  | some pd => s.mem (pd.pte upage).kpage

/-- What `page_swap_to_disk` has done to the victim `f` before it swaps. -/
def unmapped (s : Vm) (f : FrameEntry) (rest : List FrameEntry) : Vm :=
  let cleared := match s.pagedir f.owner_pid with
    | none => s
    | some pd => s.setPagedir f.owner_pid (some (pagedir_clear_page pd f.upage))
  { flap_swapped_flag cleared f.upage f.owner_pid with
    frametable := rest
    clock := s.clock + 1
    evicted_at := fun t u => if t = f.owner_pid ∧ u = f.upage then s.clock else s.evicted_at t u
    saved := fun t u => if t = f.owner_pid ∧ u = f.upage then bytesOf s f.owner_pid f.upage else s.saved t u }

/-- The victim is the front of `frametable`. The second unlinking of the entry by
    `frame_entry_delete` changes nothing here, since nobody else has run. -/
def page_swap_to_disk (s : Vm) : Except Fault (Nat × Vm) :=
  match s.frametable with
  | [] => .error .no_victim
  | f :: rest =>
    match page_entry_lookup s f.upage f.owner_pid with
    | none => .error .no_page_entry
    | some p =>
      if p.is_swapped then .error .already_swapped
      else match swap_frame_to_disk (unmapped s f rest) f.kpage f.owner_pid f.upage with
        | .error fault => .error fault
        | .ok swapped => .ok (p.kpage,swapped.setMem p.kpage (fun _ => 0))

/-! ### The user pool -/

def Vm.setUsed (s : Vm) (kpage : Nat) (used : Bool) : Vm :=
  { s with used_map := fun k => if k = kpage then used else s.used_map k }

def findFree (s : Vm) : Option Nat := (List.range s.user_pages).find? (fun k => !s.used_map k)

/-- `palloc_get_page (PAL_USER)`. -/
def palloc_get_page (s : Vm) : Except Fault (Nat × Vm) :=
  match findFree s with
  | some kpage => .ok (kpage,s.setUsed kpage true)
  | none => page_swap_to_disk s

def palloc_free_page (s : Vm) (kpage : Nat) : Except Fault Vm :=
  if s.used_map kpage then .ok ((s.setUsed kpage false).setMem kpage (fun _ => 0xcc)) else .error .free_unused

/-! ### Installing, faulting and exiting -/

/-- The state that `pagedir_set_page` leaves when there is a page table. -/
def withPage (s : Vm) (t : Tid) (pd : Pagedir) (upage kpage : Nat) (writable : Bool) : Vm :=
  frame_entry_insert
    (page_entry_insert (s.setPagedir t
      (some (pd.setPte upage { present := true, writable := writable, kpage := kpage }))) upage kpage writable t)
    upage kpage t

def pagedir_set_page (s : Vm) (t : Tid) (upage kpage : Nat) (writable alloc : Bool) : Except Fault (Vm × Bool) :=
  match s.pagedir t with
  | none => .error .null_pagedir
  | some pd =>
    match lookup_page pd upage true alloc with
    | none => .ok (s,false)
    | some pd =>
      if (pd.pte upage).present then .error .pte_present
      else .ok (withPage s t pd upage kpage writable,true)

def install_page (s : Vm) (t : Tid) (upage kpage : Nat) (writable alloc : Bool) : Except Fault (Vm × Bool) :=
  if (pagedir_get_page s t upage).isSome then .ok (s,false)
  else pagedir_set_page s t upage kpage writable alloc

/-- One page of `load_segment` or `setup_stack`, with the bytes that it holds in
    the end; `loaded` says whether `file_read` read them all. -/
def load_page (s : Vm) (t : Tid) (upage : Nat) (writable : Bool) (bytes : Page) (loaded alloc : Bool) :
    Except Fault Vm :=
  match palloc_get_page s with
  | .error fault => .error fault
  | .ok (kpage,s) =>
    if loaded then
      match install_page (s.setMem kpage bytes) t upage kpage writable alloc with
      | .error fault => .error fault
      | .ok (s,true) => .ok s
      | .ok (s,false) => palloc_free_page s kpage
    else palloc_free_page s kpage

/-- The frees of `pagedir_destroy`. -/
def freeAll (s : Vm) : List Nat → Except Fault Vm
  | [] => .ok s
  | kpage :: rest =>
    match palloc_free_page s kpage with
    | .error fault => .error fault
    | .ok s => freeAll s rest

def pagedir_destroy (s : Vm) (pd : Pagedir) : Except Fault Vm :=
  freeAll s ((pd.written.filter (fun u => pd.Present u)).map (fun u => (pd.pte u).kpage))

def thread_exit (s : Vm) (t : Tid) : Except Fault Vm :=
  match s.pagedir t with
  | none => .ok (frame_delete_by_pid s t)
  | some pd => pagedir_destroy ((frame_delete_by_pid s t).setPagedir t none) pd

def syscall_exit (s : Vm) (t : Tid) (status : Int) : Except Fault Vm :=
  thread_exit { s with exit_status := fun u => if u = t then status else s.exit_status u } t

/-- How `page_fault` ends: it returns, so that the instruction is tried again, or
    the process exits. -/
inductive Outcome
  | returned (s : Vm)
  | exited (s : Vm)

/-- `page_fault` on a swapped-out page `p` of `t`, between its lookups and the
    release of `exception_lock`. -/
def swapIn (s : Vm) (t : Tid) (p : PageEntry) (alloc : Bool) : Except Fault Vm :=
  match palloc_get_page s with
  | .error fault => .error fault
  | .ok (pages,s) =>
    match swap_disk_to_frame s pages p.kpage t with
    | .error fault => .error fault
    | .ok s =>
      match pagedir_set_page (flap_swapped_flag s p.upage t) t p.upage pages p.writable alloc with
      | .error fault => .error fault
      | .ok (s,_) => .ok (page_entry_update_kpage s p.upage t pages)

/-- The handler never reads the error code, so the kind of access is no argument.
    A null `p_e` is dereferenced by the arguments of a `printf`. -/
def page_fault (s : Vm) (t : Tid) (fault_addr : Nat) (alloc : Bool) : Except Fault Outcome :=
  if s.filesys_lock ∧ PHYS_BASE ≤ fault_addr then .ok (.returned s)
  else if fault_addr < PHYS_BASE then
    if s.exception_lock then .error .exception_locked
    else
      let locked := { s with exception_lock := true }
      match pagedir_get_page locked t (fault_addr / PGSIZE) with
      | some _ => .ok (.returned { locked with exception_lock := false })
      | none =>
        match page_entry_lookup locked (fault_addr / PGSIZE) t with
        | none => .error .null_page_entry
        | some p =>
          if p.is_swapped then
            match swapIn locked t p alloc with
            | .error fault => .error fault
            | .ok s => .ok (.returned { s with exception_lock := false })
          else .ok (.returned { locked with exception_lock := false })
  else
    match syscall_exit s t (-1) with
    | .error fault => .error fault
    | .ok s => .ok (.exited s)

/-! ### The machine -/

inductive Event
  | start
  | install (t : Tid) (upage : Nat) (writable : Bool) (bytes : Page) (loaded alloc : Bool)
  /-- Stores of a process to a resident page, with the bytes they leave in it. -/
  | write (t : Tid) (upage : Nat) (bytes : Page)
  | page_fault (t : Tid) (fault_addr : Nat) (alloc : Bool)
  | thread_exit (t : Tid)
  /-- `filesys_lock` is taken or released. -/
  | filesys (held : Bool)

def Live (s : Vm) (t : Tid) : Prop := (s.pagedir t).isSome

instance (s : Vm) (t : Tid) : Decidable (Live s t) := inferInstanceAs (Decidable (_ = true))

def write (s : Vm) (t : Tid) (upage : Nat) (bytes : Page) : Except Fault Vm :=
  match s.pagedir t with
  | none => .error .impossible
  | some pd =>
    if pd.Present upage ∧ (pd.pte upage).writable then .ok (s.setMem (pd.pte upage).kpage bytes)
    else .error .impossible

def step (s : Vm) : Event → Except Fault Vm
  | .start => .ok { s.setPagedir s.next_tid (some pagedir_create) with next_tid := s.next_tid + 1 }
  | .install t upage writable bytes loaded alloc =>
    if Live s t ∧ upage * PGSIZE < PHYS_BASE then load_page s t upage writable bytes loaded alloc
    else .error .impossible
  | .write t upage bytes => write s t upage bytes
  | .page_fault t fault_addr alloc =>
    if Live s t then
      match page_fault s t fault_addr alloc with
      | .error fault => .error fault
      | .ok (.returned s) => .ok s
      | .ok (.exited s) => .ok s
    else .error .impossible
  | .thread_exit t => if Live s t then thread_exit s t else .error .impossible
  | .filesys held => .ok { s with filesys_lock := held }

/-- A user pool of `pages` pages and a swap disk of `slots` slots, both unused. -/
def boot (pages slots : Nat) : Vm where
  user_pages := pages
  used_map _ := false
  mem _ _ := 0
  frametable := []
  pagetable _ := []
  swap_table _ := []
  swap_disk_size := slots
  empty_block_sector _ := true
  swap_disk _ _ := 0
  swap_lock := false
  exception_lock := false
  filesys_lock := false
  pagedir _ := none
  exit_status _ := 0
  next_tid := 0
  clock := 0
  evicted_at _ _ := 0
  saved _ _ _ := 0

def machine (pages slots : Nat) : Machine Vm Event := ofStep (boot pages slots) (fun s e => (step s e).toOption)

end Pintos.Vm
