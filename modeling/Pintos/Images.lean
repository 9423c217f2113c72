import Pintos.Segments
import Pintos.Stores
import Pintos.Triples
import Pintos.Ownership

/-!
`load` of `userprog/process.c`, with what it calls of `userprog/pagedir.c`: the image
that a file leaves in the memory of a process.

The kernel's pages for page tables are counted; the page tables themselves are not in
`ram`. Free pages of the user pool are taken in the order in which they are listed. Of
a page entry only its user page is kept, and of a frame entry nothing; `malloc` is
that of the file system's model. `installed` is not in the code.
-/
namespace Pintos.Images
open Pintos Pintos.UserMemory Pintos.Segments Pintos.Stores Pintos.Triples
open Pintos.Bitmaps (Byte word_of)
set_option linter.unusedSimpArgs false

structure Process where
  fs : FileSystem.FileSystem
  init_page_dir : PageDir
  pagedir : PageDir
  ram : Addr → Byte
  /-- The free pages of the user pool. -/
  user_pool : List Addr
  /-- How many pages of the kernel pool are free. -/
  kernel_pages : Nat
  /-- The user pages in the list of page entries of the process, if it has one. -/
  entries : Option (List Addr)
  /-- The user pages that were mapped, in order. -/
  installed : List Addr

inductive Stop
  | panic
  /-- `palloc_get_page` calls `page_swap_to_disk`. -/
  | evicts
  /-- A write through the null pointer that `malloc` returned. -/
  | no_memory
deriving DecidableEq

abbrev Kernel := StateT Process (Except Stop)

def stop {α : Type} (reason : Stop) : Kernel α := fun _ => .error reason
def assert (p : Prop) [Decidable p] : Kernel Unit := if p then pure () else stop .panic

/-- A call of the file system. -/
def disk {α : Type} (call : FileSystem.FileSystem → Option (α × FileSystem.FileSystem)) : Kernel α := fun s =>
  match call s.fs with
  | none => .error .panic
  | some (a,fs) => .ok (a,{ s with fs := fs })
/-- A call of the file system that returns nothing. -/
def disk_void (call : FileSystem.FileSystem → Option FileSystem.FileSystem) :
    Kernel Unit := disk fun fs => (call fs).map fun fs => ((),fs)
/-- `malloc`, of what is then written to. -/
def malloc : Kernel Unit := do
  if ← disk fun fs => some (FileSystem.malloc fs) then pure () else stop .no_memory

def file_length (file : Nat) : Kernel (BitVec 32) := disk fun fs => do
  let f ← fs.files file
  let n ← fs.inodes f.inode
  some (n.data.length,fs)

/-! ### Pages -/

def PTE_W : BitVec 32 := 2
def PTE_U : BitVec 32 := 4
def vtop (vaddr : Addr) : BitVec 32 := vaddr - PHYS_BASE
def pte_create_user (page : Addr) (writable : Bool) :
    BitVec 32 := vtop page ||| PTE_P ||| (if writable then PTE_W else 0) ||| PTE_U

/-- `palloc_get_page (PAL_USER)` -/
def palloc_get_page : Kernel Addr := fun s =>
  match s.user_pool with
  | [] => .error .evicts
  | kpage :: rest => .ok (kpage,{ s with user_pool := rest })
/-- `palloc_get_page` from the kernel pool: whether there is one. -/
def palloc_get_kernel_page : Kernel Bool := fun s =>
  if s.kernel_pages = 0 then .ok (false,s) else .ok (true,{ s with kernel_pages := s.kernel_pages - 1 })

/-- `memset` -/
def memset (dst : Addr) (value : Byte) (size : Nat) :
    Kernel Unit := modify fun s => { s with ram := put s.ram (dst,List.replicate size value) }

/-- `palloc_free_page`, of a page of the user pool. -/
def palloc_free_page (page : Addr) : Kernel Unit := do
  assert (pg_ofs page = 0)
  memset page 0xcc PGSIZE
  let s ← get
  assert (page ∉ s.user_pool)
  set { s with user_pool := page :: s.user_pool }

theorem pte_addr (page : Addr) (writable : Bool) : (pte_create_user page writable &&& PTE_ADDR).toNat = (vtop page).toNat / 4096 * 4096 := by
  rw [← and_not_pgmask]
  refine congrArg BitVec.toNat ?_
  have low : ∀ w : Bool, (if w then PTE_W else 0) &&& PTE_ADDR = 0 := by decide
  rw [pte_create_user,BitVec.and_or_distrib_right,BitVec.and_or_distrib_right,BitVec.and_or_distrib_right,low]
  rw [show PTE_P &&& PTE_ADDR = 0#32 by decide,show PTE_U &&& PTE_ADDR = 0#32 by decide]
  show vtop page &&& PTE_ADDR ||| 0#32 ||| 0#32 ||| 0#32 = _
  rw [BitVec.or_zero,BitVec.or_zero,BitVec.or_zero]
  rfl

theorem pte_in_ram {page : Addr} {n : Nat} (in_ram : (vtop page).toNat / PGSIZE < n) (writable : Bool) :
    (pte_create_user page writable &&& PTE_ADDR).toNat / PGSIZE < n := by
  rw [pte_addr,PGSIZE,Nat.mul_div_cancel _ (by decide)]
  exact in_ram

/-- The entry for `upage` is `pte`, in a page table that is there or that is new. -/
def set_entry (pd : PageDir) (upage : Addr) (pte : BitVec 32)
    (in_ram : (pte &&& PTE_ADDR).toNat / PGSIZE < pd.init_ram_pages) : PageDir where
  init_ram_pages := pd.init_ram_pages
  table i := if i = pd_no upage then
      some fun j => if j = pt_no upage then pte else (pd.table i).elim 0 fun pt => pt j
    else pd.table i
  capped := pd.capped
  in_ram := by
    intro i pt j found present
    split at found
    · cases found
      by_cases here : j = pt_no upage
      · simp only [here,if_true]
        exact in_ram
      · simp only [here,if_false] at present ⊢
        cases table : pd.table i with
        | none =>
          rw [table] at present
          exact absurd (show (0 : BitVec 32) &&& PTE_P = 0 by decide) present
        | some pt =>
          rw [table] at present
          exact pd.in_ram i pt j table present
    · exact pd.in_ram i pt j found present

/-- The list of page entries of the process, which is made where there is none. -/
def page_entry_list : Kernel (List Addr) := do
  let s ← get
  match s.entries with
  | some list => pure list
  | none =>
    malloc
    modify fun s => { s with entries := some [] }
    pure []

def page_entry_insert (upage : Addr) : Kernel Unit := do
  let s ← get
  if (s.entries.getD []).contains upage then pure ()
  else
    let list ← page_entry_list
    malloc
    modify fun s => { s with entries := some (list ++ [upage]) }

/-- `frame_entry_insert` -/
def frame_entry_insert : Kernel Unit := malloc

/-- `lookup_page` with `create`: whether there is a page table. -/
def page_table (upage : Addr) : Kernel Bool := do
  let s ← get
  if (s.pagedir.table (pd_no upage)).isSome then pure true else palloc_get_kernel_page

def pagedir_set_page (upage kpage : Addr) (writable : Bool) : Kernel Bool := do
  assert (pg_ofs upage = 0)
  assert (pg_ofs kpage = 0)
  assert (is_user_vaddr upage)
  assert (PHYS_BASE ≤ kpage)
  if ← page_table upage then
    let s ← get
    assert ((lookup_page s.pagedir upage).getD 0 &&& PTE_P = 0)
    if in_ram : (vtop kpage).toNat / PGSIZE < s.pagedir.init_ram_pages then
      set { s with
        pagedir := set_entry s.pagedir upage (pte_create_user kpage writable) (pte_in_ram in_ram writable)
        installed := s.installed ++ [upage] }
      page_entry_insert upage
      frame_entry_insert
      pure true
    else stop .panic
  else pure false

def install_page (upage kpage : Addr) (writable : Bool) : Kernel Bool := do
  assert (is_user_vaddr upage)
  let s ← get
  if pagedir_get_page s.pagedir upage = 0 then pagedir_set_page upage kpage writable else pure false

/-! ### Segments -/

/-- A turn of the loop of `load_segment`. -/
def load_page (file : Nat) (writable : Bool) (t : Turn) : Kernel Bool := do
  let kpage ← palloc_get_page
  let bytes ← disk fun fs => FileSystem.file_read fs file t.page_read_bytes
  modify fun s => { s with ram := put s.ram (kpage,bytes) }
  if bytes.length ≠ t.page_read_bytes.toNat then
    palloc_free_page kpage
    pure false
  else
    memset (kpage + t.page_read_bytes) 0 t.page_zero_bytes.toNat
    if ← install_page t.upage kpage writable then pure true
    else
      palloc_free_page kpage
      pure false

/-- Its loop, in at most so many turns. -/
def load_pages (file : Nat) (writable : Bool) : Nat → Turn → Kernel Bool
  | 0, _ => stop .panic
  | n + 1, t => do
    if t.read_bytes > 0 ∨ t.zero_bytes > 0 then
      if ← load_page file writable t then load_pages file writable n t.advance else pure false
    else pure true

def load_segment (file : Nat) (ofs : BitVec 32) (t : Turn) (writable : Bool) : Kernel Bool := do
  assert (asserts ofs t)
  disk_void fun fs => FileSystem.file_seek fs file ofs
  load_pages file writable Segments.limit t

/-! ### Headers -/

/-- `struct Elf32_Ehdr`, without what is never read. -/
structure Elf32_Ehdr where
  e_ident : List Byte
  e_type : BitVec 16
  e_machine : BitVec 16
  e_version : BitVec 32
  e_entry : BitVec 32
  e_phoff : BitVec 32
  e_phentsize : BitVec 16
  e_phnum : BitVec 16

def sizeof_ehdr : Nat := 52
def sizeof_phdr : Nat := 32
def half_of (bytes : Nat → Byte) : BitVec 16 := bytes 1 ++ bytes 0

def elf32_ehdr (bytes : Nat → Byte) : Elf32_Ehdr where
  e_ident := (List.range 16).map bytes
  e_type := half_of fun k => bytes (16 + k)
  e_machine := half_of fun k => bytes (18 + k)
  e_version := word_of fun k => bytes (20 + k)
  e_entry := word_of fun k => bytes (24 + k)
  e_phoff := word_of fun k => bytes (28 + k)
  e_phentsize := half_of fun k => bytes (42 + k)
  e_phnum := half_of fun k => bytes (44 + k)

def elf32_phdr (bytes : Nat → Byte) : Elf32_Phdr where
  p_type := word_of bytes
  p_offset := word_of fun k => bytes (4 + k)
  p_vaddr := word_of fun k => bytes (8 + k)
  p_filesz := word_of fun k => bytes (16 + k)
  p_memsz := word_of fun k => bytes (20 + k)
  p_flags := word_of fun k => bytes (24 + k)

def PT_LOAD : BitVec 32 := 1
def PT_DYNAMIC : BitVec 32 := 2
def PT_INTERP : BitVec 32 := 3
def PT_SHLIB : BitVec 32 := 5
/-- `"\177ELF\1\1\1"` -/
def ELF_IDENT : List Byte := [0x7f,0x45,0x4c,0x46,1,1,1]

/-- What `load` does with a program header that it has read. -/
def load_phdr (file : Nat) (phdr : Elf32_Phdr) : Kernel Bool := do
  if phdr.p_type = PT_DYNAMIC ∨ phdr.p_type = PT_INTERP ∨ phdr.p_type = PT_SHLIB then pure false
  else if phdr.p_type = PT_LOAD then
    let length ← file_length file
    if validate_segment phdr length then load_segment file (file_page phdr) (first phdr) (writable phdr) else pure false
  else pure true

/-- The loop over the program headers. -/
def load_phdrs (file : Nat) : Nat → BitVec 32 → Kernel Bool
  | 0, _ => pure true
  | n + 1, file_ofs => do
    let length ← file_length file
    if file_ofs.toInt < 0 ∨ file_ofs.toInt > length.toInt then pure false
    else
      disk_void fun fs => FileSystem.file_seek fs file file_ofs
      let bytes ← disk fun fs => FileSystem.file_read fs file (BitVec.ofNat 32 sizeof_phdr)
      if bytes.length ≠ sizeof_phdr then pure false
      else if ← load_phdr file (elf32_phdr fun k => bytes.getD k 0) then load_phdrs file n (file_ofs + BitVec.ofNat 32 sizeof_phdr)
      else pure false

def stack_page : Addr := PHYS_BASE - BitVec.ofNat 32 PGSIZE
/-- `setup_stack`: the new `esp`. -/
def setup_stack : Kernel (Option Addr) := do
  let kpage ← palloc_get_page
  memset kpage 0 PGSIZE
  if ← install_page stack_page kpage true then pure (some PHYS_BASE)
  else
    palloc_free_page kpage
    pure none

def verify (ehdr : Elf32_Ehdr) : Bool :=
  ehdr.e_ident.take 7 == ELF_IDENT && ehdr.e_type == 2 && ehdr.e_machine == 3 && ehdr.e_version == 1 &&
    ehdr.e_phentsize == BitVec.ofNat 16 sizeof_phdr && !decide (ehdr.e_phnum > 1024)

/-- `load` with the file that it has opened: the new `eip` and `esp`. -/
def load_file (file : Nat) : Kernel (Option (BitVec 32 × Addr)) := do
  let bytes ← disk fun fs => FileSystem.file_read fs file (BitVec.ofNat 32 sizeof_ehdr)
  let ehdr := elf32_ehdr fun k => bytes.getD k 0
  if bytes.length ≠ sizeof_ehdr ∨ verify ehdr = false then pure none
  else if ← load_phdrs file ehdr.e_phnum.toNat ehdr.e_phoff then
    match ← setup_stack with
    | none => pure none
    | some esp =>
      disk_void fun fs => FileSystem.file_allow_write fs file
      pure (some (ehdr.e_entry,esp))
  else pure none

/-- `load`: the new `eip` and `esp` for true, nothing for false. -/
def load (file_name : List Byte) : Kernel (Option (BitVec 32 × Addr)) := do
  if ← palloc_get_kernel_page then
    modify fun s => { s with pagedir := s.init_page_dir }
    match ← disk fun fs => FileSystem.filesys_open fs file_name with
    | none => pure none
    | some file =>
      disk_void fun fs => FileSystem.file_deny_write fs file
      let loaded ← load_file file
      disk_void fun fs => FileSystem.file_close fs file
      pure loaded
  else pure none

/-! ### What is mapped -/

abbrev NoPanic (e : Stop) : Prop := e ≠ .panic

/-- The user page that holds `a` has the entry `pte`. -/
def Entry (pd : PageDir) (a : Addr) (pte : BitVec 32) : Prop := a < PHYS_BASE ∧ lookup_page pd a = some pte ∧ pte &&& PTE_P ≠ 0

/-- What the process finds at an address, and whether it may write there. -/
def view (s : Process) (a : Addr) : Option (Byte × Bool) :=
  if a < PHYS_BASE then
    match lookup_page s.pagedir a with
    | none => none
    | some pte => if pte &&& PTE_P ≠ 0 then some (s.ram (pte_get_page pte + pg_ofs a),decide (pte &&& PTE_W ≠ 0)) else none
  else none

/-- No page is in two places. -/
structure Laid (s : Process) : Prop where
  once : s.user_pool.Nodup
  free : ∀ p ∈ s.user_pool, p.toNat % 4096 = 0 ∧ PHYS_BASE ≤ p ∧ (vtop p).toNat / PGSIZE < s.pagedir.init_ram_pages
  taken : ∀ a pte, Entry s.pagedir a pte → pte_get_page pte ∉ s.user_pool
  apart : ∀ a b pte qte, Entry s.pagedir a pte → Entry s.pagedir b qte → pte_get_page pte = pte_get_page qte → pg_no a = pg_no b
  mapped : ∀ a < PHYS_BASE, Present s.pagedir a ↔ ∃ p ∈ s.installed, pg_no p = pg_no a
  distinct : (s.installed.map pg_no).Nodup

section
variable {s s' : Process} {pd : PageDir} {a b upage kpage : Addr} {pte qte : BitVec 32} {d : FileSystem.Device}
  {L : Nat → Option FileSystem.InodeDisk} {file pos : Nat} {i : FileSystem.InodeDisk} {t : Turn} {w : Bool}

theorem view_entry (entry : Entry s.pagedir a pte) :
    view s a = some (s.ram (pte_get_page pte + pg_ofs a),decide (pte &&& PTE_W ≠ 0)) := by
  obtain ⟨user,found,present⟩ := entry
  rw [view,if_pos user,found]
  exact if_pos present

theorem entry_present (user : a < PHYS_BASE) : Present pd a ↔ ∃ pte, Entry pd a pte :=
  ⟨fun ⟨pte,found,present⟩ => ⟨pte,user,found,present⟩,fun ⟨pte,_,found,present⟩ => ⟨pte,found,present⟩⟩

theorem view_some : view s a ≠ none ↔ ∃ pte, Entry s.pagedir a pte := by
  constructor
  · intro some_
    rw [view] at some_
    split_ifs at some_ with user
    · cases found : lookup_page s.pagedir a with
      | none =>
        rw [found] at some_
        exact absurd rfl some_
      | some pte =>
        rw [found] at some_
        by_cases present : pte &&& PTE_P ≠ 0
        · exact ⟨pte,user,found,present⟩
        · exact absurd (if_neg present) some_
    · exact absurd rfl some_
  · rintro ⟨pte,entry⟩
    rw [view_entry entry]
    exact Option.some_ne_none _

theorem pg_no_split : pg_no a = pg_no b ↔ pd_no a = pd_no b ∧ pt_no a = pt_no b := by
  constructor
  · intro same
    rw [pd_no_pg_no,pd_no_pg_no,pt_no_pg_no,pt_no_pg_no,same]
    exact ⟨rfl,rfl⟩
  · rintro ⟨directory,table⟩
    have high := congrArg BitVec.toNat directory
    have low := congrArg BitVec.toNat table
    rw [pd_no_pg_no,pd_no_pg_no,BitVec.toNat_ushiftRight,BitVec.toNat_ushiftRight,Nat.shiftRight_eq_div_pow,
      Nat.shiftRight_eq_div_pow] at high
    rw [pt_no_pg_no,pt_no_pg_no,BitVec.toNat_and,BitVec.toNat_and] at low
    have mask (x : Nat) : x &&& (0x3ff : BitVec 32).toNat = x % 2 ^ 10 := Nat.and_two_pow_sub_one_eq_mod x 10
    rw [mask,mask] at low
    refine BitVec.eq_of_toNat_eq ?_
    omega

/-- What `pagedir_set_page` changes. -/
theorem entry_set (in_ram : (pte &&& PTE_ADDR).toNat / PGSIZE < pd.init_ram_pages) (present : pte &&& PTE_P ≠ 0) :
    Entry (set_entry pd upage pte in_ram) a qte ↔
      (a < PHYS_BASE ∧ pg_no a = pg_no upage ∧ qte = pte) ∨ (pg_no a ≠ pg_no upage ∧ Entry pd a qte) := by
  have same : pg_no a = pg_no upage ↔ pd_no a = pd_no upage ∧ pt_no a = pt_no upage := pg_no_split
  have table : (set_entry pd upage pte in_ram).table (pd_no a) = if pd_no a = pd_no upage then
      some (fun j => if j = pt_no upage then pte else (pd.table (pd_no a)).elim 0 fun pt => pt j) else pd.table (pd_no a) := rfl
  rw [Entry,Entry,lookup_page,lookup_page,table]
  by_cases directory : pd_no a = pd_no upage
  · rw [if_pos directory]
    by_cases slot : pt_no a = pt_no upage
    · simp only [same,directory,slot,Option.map_some,if_true,and_self,true_and,not_true,ne_eq,false_and,or_false,
        Option.some.injEq]
      constructor
      · rintro ⟨user,rfl,-⟩
        exact ⟨user,rfl⟩
      · rintro ⟨user,rfl⟩
        exact ⟨user,rfl,present⟩
    · simp only [same,directory,slot,Option.map_some,if_false,and_false,false_and,false_or,ne_eq,not_false_eq_true,true_and,
        Option.some.injEq]
      refine and_congr_right fun _ => ?_
      cases found : pd.table (pd_no upage) with
      | none =>
        simp only [Option.elim_none,Option.map_none]
        constructor
        · rintro ⟨rfl,nonzero⟩
          exact absurd rfl nonzero
        · rintro ⟨none_,-⟩
          cases none_
      | some pt => simp only [Option.elim_some,Option.map_some,Option.some.injEq]
  · simp only [same,directory,if_false,false_and,and_false,false_or,ne_eq,not_false_eq_true,true_and]

/-! ### Installing a page -/

theorem pte_present (page : Addr) (w : Bool) : pte_create_user page w &&& PTE_P ≠ 0 := by
  intro zero
  have bit := congrArg (fun x : BitVec 32 => x.getLsbD 0) zero
  revert bit
  cases w <;> simp [pte_create_user,PTE_P,PTE_W,PTE_U]

theorem vtop_toNat (kernel : PHYS_BASE ≤ kpage) : (vtop kpage).toNat = kpage.toNat - 0xc0000000 := by
  rw [vtop]
  exact BitVec.toNat_sub_of_le kernel

theorem pte_page (aligned : kpage.toNat % 4096 = 0) (kernel : PHYS_BASE ≤ kpage) (w : Bool) :
    pte_get_page (pte_create_user kpage w) = kpage := by
  have low := vtop_toNat kernel
  have page := pte_addr kpage w
  have bound : 0xc0000000 ≤ kpage.toNat := kernel
  rw [pte_get_page,ptov,PHYS_BASE]
  generalize pte_create_user kpage w &&& PTE_ADDR = x at page
  bv_omega

theorem pte_writable (aligned : kpage.toNat % 4096 = 0) (kernel : PHYS_BASE ≤ kpage) (w : Bool) :
    decide (pte_create_user kpage w &&& PTE_W ≠ 0) = w := by
  have low := vtop_toNat kernel
  have bound : 0xc0000000 ≤ kpage.toNat := kernel
  have offset : vtop kpage &&& PGMASK = 0#32 := by
    refine BitVec.eq_of_toNat_eq ?_
    rw [and_pgmask]
    show (vtop kpage).toNat % 4096 = 0
    omega
  have none_ : vtop kpage &&& PTE_W = 0#32 := by
    rw [show PTE_W = PGMASK &&& PTE_W by decide,← BitVec.and_assoc,offset]
    exact BitVec.zero_and
  rw [pte_create_user,BitVec.and_or_distrib_right,BitVec.and_or_distrib_right,BitVec.and_or_distrib_right,none_]
  cases w <;> decide

theorem pte_get_page_aligned (pte : BitVec 32) : (pte_get_page pte).toNat % 4096 = 0 := by
  have page : (pte &&& PTE_ADDR).toNat = pte.toNat / 4096 * 4096 := and_not_pgmask pte
  rw [pte_get_page,ptov,PHYS_BASE]
  generalize pte &&& PTE_ADDR = x at page
  bv_omega

theorem malloc_spec (s : Process) : Runs NoPanic malloc s fun _ s' => s' = { s with fs := FileSystem.forget s.fs 1 } := by
  rw [malloc]
  refine runs_bind (Q := fun b s' => s' = { s with fs := FileSystem.forget s.fs 1 }) (runs_ok rfl rfl) fun b s' same => ?_
  cases b with
  | true => exact runs_pure same
  | false => exact runs_error rfl (by decide)

theorem page_entry_list_spec (s : Process) :
    Runs NoPanic page_entry_list s fun _ s' => ∃ k e, s' = { s with fs := FileSystem.forget s.fs k, entries := e } := by
  rw [page_entry_list]
  refine runs_get ?_
  cases list : s.entries with
  | some l => exact runs_pure ⟨0,s.entries,rfl⟩
  | none =>
    refine runs_bind (malloc_spec s) ?_
    rintro _ _ rfl
    exact runs_ok rfl ⟨1,some [],rfl⟩

theorem page_entry_insert_spec (s : Process) (upage : Addr) :
    Runs NoPanic (page_entry_insert upage) s fun _ s' => ∃ k e, s' = { s with fs := FileSystem.forget s.fs k, entries := e } := by
  rw [page_entry_insert]
  refine runs_get ?_
  split
  · exact runs_pure ⟨0,s.entries,rfl⟩
  · refine runs_bind (page_entry_list_spec s) ?_
    rintro list _ ⟨k,e,rfl⟩
    refine runs_bind (malloc_spec _) ?_
    rintro _ _ rfl
    refine runs_ok rfl ⟨1 + k,some (list ++ [upage]),?_⟩
    simp only [FileSystem.forget,Nat.add_assoc]

theorem runs_assert {α : Type} {f : Unit → Kernel α} {R : α → Process → Prop} {p : Prop} [Decidable p] (holds : p)
    (later : Runs NoPanic (f ()) s R) : Runs NoPanic (assert p >>= f) s R := by
  rw [assert,if_pos holds]
  exact later

theorem page_table_spec (s : Process) (upage : Addr) :
    Runs NoPanic (page_table upage) s fun r s' => (r = false ∧ s' = s) ∨ (r = true ∧ ∃ n, s' = { s with kernel_pages := n }) := by
  rw [page_table]
  refine runs_get ?_
  split
  · exact runs_pure (.inr ⟨rfl,s.kernel_pages,rfl⟩)
  · rw [Runs,palloc_get_kernel_page]
    split
    · rename_i found
      split at found
      · cases found
        exact .inl ⟨rfl,rfl⟩
      · cases found
        exact .inr ⟨rfl,_,rfl⟩
    · rename_i found
      split at found
      · cases found
      · cases found

/-- What a page that is mapped changes. -/
structure Installed (s s' : Process) (upage kpage : Addr) (w : Bool) : Prop where
  fs : ∃ k, s'.fs = FileSystem.forget s.fs k
  ram : s'.ram = s.ram
  user_pool : s'.user_pool = s.user_pool
  init_ram_pages : s'.pagedir.init_ram_pages = s.pagedir.init_ram_pages
  installed : s'.installed = s.installed ++ [upage]
  absent : ¬ Present s.pagedir upage
  entry : ∀ a qte, Entry s'.pagedir a qte ↔
    (a < PHYS_BASE ∧ pg_no a = pg_no upage ∧ qte = pte_create_user kpage w) ∨ (pg_no a ≠ pg_no upage ∧ Entry s.pagedir a qte)

theorem install_page_spec (user : upage < PHYS_BASE) (aligned : pg_ofs upage = 0) (page : pg_ofs kpage = 0)
    (kernel : PHYS_BASE ≤ kpage)
    (in_ram : (vtop kpage).toNat / PGSIZE < s.pagedir.init_ram_pages) (w : Bool) :
    Runs NoPanic (install_page upage kpage w) s fun r s' => (r = false ∧ s' = s) ∨ (r = true ∧ Installed s s' upage kpage w) := by
  have below : is_user_vaddr upage = true := decide_eq_true user
  rw [install_page]
  refine runs_assert below (runs_get ?_)
  split
  · rename_i null
    have absent : ¬ Present s.pagedir upage := fun present => (pagedir_get_page_spec _ _).mpr present null
    have clear : (lookup_page s.pagedir upage).getD 0 &&& PTE_P = 0 := by
      cases found : lookup_page s.pagedir upage with
      | none => decide
      | some pte => exact Decidable.byContradiction fun present => absent ⟨pte,found,present⟩
    rw [pagedir_set_page]
    refine runs_assert aligned (runs_assert page (runs_assert below (runs_assert kernel ?_)))
    refine runs_bind (page_table_spec s upage) ?_
    rintro r s' (⟨rfl,same⟩ | ⟨rfl,n,rfl⟩)
    · exact runs_pure (.inl ⟨rfl,same⟩)
    · refine runs_get (runs_assert clear ?_)
      rw [dif_pos in_ram]
      refine runs_set ?_
      refine runs_bind (page_entry_insert_spec _ upage) ?_
      rintro _ _ ⟨k,e,rfl⟩
      refine runs_bind (malloc_spec _) ?_
      rintro _ _ rfl
      refine runs_pure (.inr ⟨rfl,⟨1 + k,?_⟩,rfl,rfl,rfl,rfl,absent,fun a qte => entry_set (pte_in_ram in_ram w) (pte_present kpage w)⟩)
      simp only [FileSystem.forget,Nat.add_assoc]
  · exact runs_pure (.inl ⟨rfl,rfl⟩)

/-! ### Reading the file -/

def file_byte (d : FileSystem.Device) (i : FileSystem.InodeDisk) (k : Nat) : Byte := FileSystem.content d.data i.start.toNat k

/-- The file that is loaded is open, and its next byte is that at `pos`. -/
structure On (d : FileSystem.Device) (L : Nat → Option FileSystem.InodeDisk) (file : Nat) (i : FileSystem.InodeDisk) (pos : Nat)
    (fs : FileSystem.FileSystem) : Prop where
  sane : FileSystem.Sane fs L []
  device : fs.fs_device = d
  user : fs.free_map_file ≠ some file
  handle : ∃ u n, fs.files file = some u ∧ u.pos = pos ∧ fs.inodes u.inode = some n ∧ n.data = i

theorem on_forget {fs : FileSystem.FileSystem} (on : On d L file i pos fs) (k : Nat) :
    On d L file i pos (FileSystem.forget fs k) :=
  ⟨FileSystem.sane_forget on.sane k,on.device,on.user,on.handle⟩

theorem on_length {fs : FileSystem.FileSystem} (on : On d L file i pos fs) :
    FileSystem.off_t i.length = i.length.toNat ∧ i.length.toNat < 2 ^ 31 := by
  obtain ⟨u,n,handle,-,inode,rfl⟩ := on.handle
  have owned := on.sane.opened.stored _ n inode
  have small := on.sane.ledger.length _ _ owned
  exact ⟨FileSystem.ledger_off_t on.sane.ledger owned,by omega⟩

theorem file_read_on (on : On d L file i pos s.fs) (size : BitVec 32) :
    Runs NoPanic (disk fun fs => FileSystem.file_read fs file size) s fun bytes s' => ∃ fs, s' = { s with fs := fs } ∧
      On d L file i (pos + bytes.length) fs ∧ bytes.length ≤ FileSystem.off_t size ∧
      (bytes = [] ∨ pos + bytes.length ≤ i.length.toNat) ∧
      bytes = (List.range bytes.length).map fun k => file_byte d i (pos + k) := by
  have size_eq := (on_length on).1
  obtain ⟨sane,rfl,user,u,n,handle,rfl,inode,rfl⟩ := on
  obtain ⟨m,bytes,inode',content,ran,kept⟩ := FileSystem.file_read_spec sane handle user size
  rw [inode] at inode'
  cases inode'
  have amount := FileSystem.transferred_le (s.fs.memory 0) u.pos (FileSystem.reach n.data (FileSystem.off_t size) u.pos)
  have count : bytes.length = FileSystem.transferred (s.fs.memory 0) u.pos (FileSystem.reach n.data (FileSystem.off_t size) u.pos) := by
    rw [content,List.length_map,List.length_range]
  have called : disk (fun fs => FileSystem.file_read fs file size) s = .ok (bytes,{ s with fs := { FileSystem.forget s.fs 1 with
      files := Function.update s.fs.files file (some { u with pos := u.pos + bytes.length }) } }) := by
    rw [disk,ran]
  refine runs_ok called ⟨_,rfl,⟨kept,rfl,user,_,n,Function.update_self ..,rfl,inode,rfl⟩,?_,?_,?_⟩
  · rw [← count,FileSystem.reach] at amount
    omega
  · rw [← count,FileSystem.reach,size_eq] at amount
    rcases Nat.eq_zero_or_pos bytes.length with none_ | some_
    · exact .inl (List.length_eq_zero_iff.mp none_)
    · exact .inr (by omega)
  · rw [count]
    exact content

theorem file_seek_on (on : On d L file i pos s.fs) {ofs : BitVec 32} (nonnegative : 0 ≤ ofs.toInt) :
    Runs NoPanic (disk_void fun fs => FileSystem.file_seek fs file ofs) s fun _ s' => ∃ fs, s' = { s with fs := fs } ∧
      On d L file i (FileSystem.off_t ofs) fs := by
  obtain ⟨sane,rfl,user,u,n,handle,rfl,inode,rfl⟩ := on
  obtain ⟨ran,kept⟩ := FileSystem.file_seek_spec sane handle user nonnegative
  have called : disk_void (fun fs => FileSystem.file_seek fs file ofs) s = .ok ((),{ s with fs := { s.fs with
      files := Function.update s.fs.files file (some { u with pos := FileSystem.off_t ofs }) } }) := by
    rw [disk_void,disk,ran]
    rfl
  exact runs_ok called ⟨_,rfl,kept,rfl,user,_,n,Function.update_self ..,rfl,inode,rfl⟩

theorem file_length_on (on : On d L file i pos s.fs) :
    Runs NoPanic (file_length file) s fun length s' => length = i.length ∧ s' = s := by
  obtain ⟨sane,rfl,user,u,n,handle,rfl,inode,rfl⟩ := on
  have called : file_length file s = .ok (n.data.length,s) := by
    rw [file_length,disk,handle]
    simp only [Option.bind_eq_bind,Option.bind_some,inode]
  exact runs_ok called ⟨rfl,rfl⟩

/-! ### A page -/

theorem memset_spec (dst : Addr) (value : Byte) (size : Nat) (s : Process) :
    Runs NoPanic (memset dst value size) s fun _ s' => s'.fs = s.fs ∧ s'.ram = put s.ram (dst,List.replicate size value) ∧
      s'.user_pool = s.user_pool ∧ s'.pagedir = s.pagedir ∧ s'.installed = s.installed :=
  runs_ok rfl ⟨rfl,rfl,rfl,rfl,rfl⟩

/-- The bytes of a page that is read and then zeroed. -/
theorem filled {ram : Addr → Byte} {bytes : List Byte} {cleared : Nat} (whole : bytes.length + cleared = 4096) {o : Nat}
    (below : o < 4096)
    {x : Addr} (at_ : (x - kpage).toNat = o) :
    put (put ram (kpage,bytes)) (kpage + BitVec.ofNat 32 bytes.length,List.replicate cleared 0) x = (bytes[o]?).getD 0 := by
  rw [put,put]
  simp only [at_]
  by_cases inside : o < bytes.length
  · have beyond : cleared ≤ (x - (kpage + BitVec.ofNat 32 bytes.length)).toNat := by bv_omega
    rw [List.getElem?_eq_none (by simpa using beyond),List.getElem?_eq_getElem inside]
    rfl
  · have here : (x - (kpage + BitVec.ofNat 32 bytes.length)).toNat = o - bytes.length := by bv_omega
    rw [here,List.getElem?_replicate,if_pos (by omega),List.getElem?_eq_none (by omega)]
    rfl

theorem filled_outside {ram : Addr → Byte} {bytes : List Byte} {cleared : Nat} (whole : bytes.length + cleared = 4096) {x : Addr}
    (outside : 4096 ≤ (x - kpage).toNat) :
    put (put ram (kpage,bytes)) (kpage + BitVec.ofNat 32 bytes.length,List.replicate cleared 0) x = ram x := by
  have beyond : cleared ≤ (x - (kpage + BitVec.ofNat 32 bytes.length)).toNat := by bv_omega
  rw [put_outside (by simpa using beyond),put_outside (show bytes.length ≤ (x - kpage).toNat by omega)]

theorem pg_ofs_lt (a : Addr) : (pg_ofs a).toNat < 4096 := by
  rw [pg_ofs,and_pgmask]
  exact Nat.mod_lt _ (by decide)

/-- Another page does not overlap. -/
theorem page_outside (one : kpage.toNat % 4096 = 0) (two : b.toNat % 4096 = 0) (apart : b ≠ kpage) (a : Addr) :
    4096 ≤ (b + pg_ofs a - kpage).toNat := by
  have below := pg_ofs_lt a
  generalize pg_ofs a = o at below
  have distinct : b.toNat ≠ kpage.toNat := fun same => apart (BitVec.eq_of_toNat_eq same)
  bv_omega

/-- What is mapped stays as it is. -/
def Extends (s s' : Process) : Prop := ∀ a, view s a ≠ none → view s' a = view s a

theorem extends_refl (s : Process) : Extends s s := fun _ _ => rfl
theorem extends_trans {s'' : Process} (first : Extends s s') (later : Extends s' s'') : Extends s s'' := by
  intro a some_
  rw [later a (by rwa [first a some_]),first a some_]

/-- A page that is filled and mapped, with `kpage` the first of the free ones. -/
theorem installed_laid {rest : List Addr} {s₁ : Process} (laid : Laid s) (pool : s.user_pool = kpage :: rest)
    (user : upage < PHYS_BASE)
    (done : Installed s₁ s' upage kpage w) (pool₁ : s₁.user_pool = rest) (dir : s₁.pagedir = s.pagedir)
    (same : s₁.installed = s.installed) :
    Laid s' := by
  obtain ⟨fresh,once⟩ := List.nodup_cons.mp (pool ▸ laid.once)
  obtain ⟨aligned,kernel,-⟩ := laid.free kpage (by rw [pool]; exact List.mem_cons_self)
  have elsewhere {a : Addr} {pte : BitVec 32} (entry : Entry s.pagedir a pte) : pte_get_page pte ≠ kpage := by
    intro here
    exact laid.taken a pte entry (by rw [here,pool]; exact List.mem_cons_self)
  have entry := done.entry
  have absent := done.absent
  rw [dir] at entry absent
  refine ⟨?_,?_,?_,?_,?_,?_⟩
  · rw [done.user_pool,pool₁]
    exact once
  · rw [done.user_pool,pool₁,done.init_ram_pages,dir]
    exact fun p member => laid.free p (by rw [pool]; exact List.mem_cons_of_mem _ member)
  · intro a pte found
    rw [done.user_pool,pool₁]
    rcases (entry a pte).mp found with ⟨-,-,rfl⟩ | ⟨-,before⟩
    · rw [pte_page aligned kernel]
      exact fresh
    · exact fun member => laid.taken a pte before (by rw [pool]; exact List.mem_cons_of_mem _ member)
  · intro a b pte qte one two same_page
    rcases (entry a pte).mp one with ⟨-,page,rfl⟩ | ⟨-,before⟩
    · rcases (entry b qte).mp two with ⟨-,page',rfl⟩ | ⟨-,before'⟩
      · exact page.trans page'.symm
      · rw [pte_page aligned kernel] at same_page
        exact absurd same_page.symm (elsewhere before')
    · rcases (entry b qte).mp two with ⟨-,page',rfl⟩ | ⟨-,before'⟩
      · rw [pte_page aligned kernel] at same_page
        exact absurd same_page (elsewhere before)
      · exact laid.apart a b pte qte before before' same_page
  · intro a below
    rw [done.installed,same,entry_present below]
    constructor
    · rintro ⟨pte,found⟩
      rcases (entry a pte).mp found with ⟨-,page,-⟩ | ⟨-,before⟩
      · exact ⟨upage,List.mem_append_right _ (List.mem_singleton_self _),page.symm⟩
      · obtain ⟨p,member,page⟩ := (laid.mapped a below).mp ((entry_present below).mpr ⟨pte,before⟩)
        exact ⟨p,List.mem_append_left _ member,page⟩
    · rintro ⟨p,member,page⟩
      by_cases here : pg_no a = pg_no upage
      · exact ⟨_,(entry a _).mpr (.inl ⟨below,here,rfl⟩)⟩
      · rcases List.mem_append.mp member with old | new
        · obtain ⟨pte,found⟩ := (entry_present below).mp ((laid.mapped a below).mpr ⟨p,old,page⟩)
          exact ⟨pte,(entry a pte).mpr (.inr ⟨here,found⟩)⟩
        · rw [List.mem_singleton] at new
          subst new
          exact absurd page.symm here
  · rw [done.installed,same,List.map_append]
    refine List.nodup_append.mpr ⟨laid.distinct,by simp,fun x old y new equal => ?_⟩
    obtain ⟨p,member,rfl⟩ := List.mem_map.mp old
    simp only [List.map_cons,List.map_nil,List.mem_singleton] at new
    exact absent ((laid.mapped upage user).mpr ⟨p,member,equal.trans new⟩)

/-- What else is mapped does not change when only the bytes of the new page do. -/
theorem installed_extends {rest : List Addr} {s₁ : Process} (laid : Laid s) (pool : s.user_pool = kpage :: rest)
    (done : Installed s₁ s' upage kpage w) (dir : s₁.pagedir = s.pagedir)
    (ram : ∀ x, 4096 ≤ (x - kpage).toNat → s'.ram x = s.ram x) :
    Extends s s' := by
  intro a some_
  obtain ⟨aligned,-⟩ := laid.free kpage (by rw [pool]; exact List.mem_cons_self)
  have absent := done.absent
  have entry := done.entry
  rw [dir] at absent entry
  obtain ⟨pte,found⟩ := view_some.mp some_
  have other : pg_no a ≠ pg_no upage := fun same => absent ((present_same_page same).mp ⟨pte,found.2⟩)
  have elsewhere : pte_get_page pte ≠ kpage := by
    intro here
    exact laid.taken a pte found (by rw [here,pool]; exact List.mem_cons_self)
  rw [view_entry found,view_entry ((entry a pte).mpr (.inr ⟨other,found⟩)),
    ram _ (page_outside aligned (pte_get_page_aligned pte) elsewhere a)]

/-- The byte at offset `o` of pages of which `count` bytes were read from `pos` on. -/
def loaded_byte (d : FileSystem.Device) (i : FileSystem.InodeDisk) (pos count o : Nat) :
    Byte := if o < count then file_byte d i (pos + o) else 0

/-- What `count` bytes of the file and `size` bytes of pages from `upage` on look like. -/
structure Filled (d : FileSystem.Device) (i : FileSystem.InodeDisk) (s s' : Process) (upage : Addr) (w : Bool)
    (pos count size : Nat) : Prop where
  laid : Laid s'
  extends_ : Extends s s'
  inside : count = 0 ∨ pos + count ≤ i.length.toNat
  view : ∀ o < size, view s' (upage + BitVec.ofNat 32 o) = some (loaded_byte d i pos count o,w)

theorem upage_page (aligned : upage.toNat % 4096 = 0) (high : upage.toNat + 4096 ≤ 0xc0000000) {o : Nat} (below : o < 4096) :
    upage + BitVec.ofNat 32 o < PHYS_BASE ∧ pg_no (upage + BitVec.ofNat 32 o) = pg_no upage ∧
    (pg_ofs (upage + BitVec.ofNat 32 o)).toNat = o := by
  have sum : (upage + BitVec.ofNat 32 o).toNat = upage.toNat + o := by bv_omega
  refine ⟨user_lt.mpr (by omega),BitVec.eq_of_toNat_eq ?_,?_⟩
  · rw [pg_no_eq,pg_no_eq,sum]
    omega
  · rw [pg_ofs,and_pgmask,sum]
    omega

/-- Without a page in the pool a frame is evicted, which is not followed here. -/
theorem palloc_get_page_spec (laid : Laid s) : Runs NoPanic palloc_get_page s fun kpage s' => ∃ rest, s.user_pool = kpage :: rest ∧
    s' = { s with user_pool := rest } ∧ kpage ∉ rest ∧ kpage.toNat % 4096 = 0 ∧ pg_ofs kpage = 0 ∧ PHYS_BASE ≤ kpage ∧
    (vtop kpage).toNat / PGSIZE < s.pagedir.init_ram_pages := by
  cases pool : s.user_pool with
  | nil =>
    refine runs_error (e := .evicts) ?_ (by decide)
    rw [palloc_get_page,pool]
  | cons kpage rest =>
    obtain ⟨fresh,-⟩ := List.nodup_cons.mp (pool ▸ laid.once)
    obtain ⟨page,kernel,in_ram⟩ := laid.free kpage (by rw [pool]; exact List.mem_cons_self)
    refine runs_ok (by rw [palloc_get_page,pool]) ⟨rest,rfl,rfl,fresh,page,BitVec.eq_of_toNat_eq ?_,kernel,in_ram⟩
    rw [pg_ofs,and_pgmask]
    exact page

theorem load_page_spec (laid : Laid s) (on : On d L file i pos s.fs)
    (fits : t.page_read_bytes.toNat + t.page_zero_bytes.toNat = 4096)
    (aligned : t.upage.toNat % 4096 = 0) (high : t.upage.toNat + 4096 ≤ 0xc0000000) (w : Bool) :
    Runs NoPanic (load_page file w t) s fun r s' => (∃ pos, On d L file i pos s'.fs) ∧
    (r = true → On d L file i (pos + t.page_read_bytes.toNat) s'.fs ∧
      s'.installed = s.installed ++ [t.upage] ∧ Filled d i s s' t.upage w pos t.page_read_bytes.toNat 4096) := by
  have user : t.upage < PHYS_BASE := user_lt.mpr (by omega)
  have offset : pg_ofs t.upage = 0 := by
    refine BitVec.eq_of_toNat_eq ?_
    rw [pg_ofs,and_pgmask]
    exact aligned
  rw [load_page]
  refine runs_bind (palloc_get_page_spec laid) ?_
  rintro kpage _ ⟨rest,pool,rfl,fresh,page,koffset,kernel,in_ram⟩
  refine runs_bind (file_read_on (s := { s with user_pool := rest }) on t.page_read_bytes) ?_
  rintro bytes _ ⟨fs,rfl,on',-,within,content⟩
  -- From here on the state is known by what the turn has changed of it.
  refine runs_bind (Q := fun _ s₁ => s₁.fs = fs ∧ s₁.ram = put s.ram (kpage,bytes) ∧ s₁.user_pool = rest ∧ s₁.pagedir = s.pagedir ∧
    s₁.installed = s.installed) (runs_ok rfl ⟨rfl,rfl,rfl,rfl,rfl⟩) ?_
  rintro _ s₁ ⟨same_fs,ram₁,pool₁,dir₁,installed₁⟩
  have given_back {s₂ : Process} (kept : s₂.fs = fs ∧ s₂.user_pool = rest) :
      Runs NoPanic (palloc_free_page kpage >>= fun _ => pure false) s₂ fun r s' => (∃ pos, On d L file i pos s'.fs) ∧
        (r = true → On d L file i (pos + t.page_read_bytes.toNat) s'.fs ∧ s'.installed = s.installed ++ [t.upage] ∧
          Filled d i s s' t.upage w pos t.page_read_bytes.toNat 4096) := by
    obtain ⟨rfl,rfl⟩ := kept
    refine runs_bind (Q := fun _ s' => s'.fs = s₂.fs) ?_ fun _ s' same => runs_pure ⟨⟨_,same ▸ on'⟩,fun true_ => by cases true_⟩
    exact runs_assert koffset (runs_modify (runs_get (runs_assert fresh (runs_ok rfl rfl))))
  split
  · exact given_back ⟨same_fs,pool₁⟩
  · rename_i enough
    rw [not_not] at enough
    have read : t.page_read_bytes = BitVec.ofNat 32 bytes.length := by
      rw [enough,BitVec.ofNat_toNat,BitVec.setWidth_eq]
    refine runs_bind (memset_spec _ _ _ s₁) ?_
    rintro _ s₂ ⟨same_fs₂,ram₂,pool₂,dir₂,installed₂⟩
    rw [same_fs] at same_fs₂
    rw [pool₁] at pool₂
    rw [dir₁] at dir₂
    rw [installed₁] at installed₂
    rw [ram₁,read] at ram₂
    refine runs_bind (install_page_spec user offset koffset kernel (by rw [dir₂]; exact in_ram) w) ?_
    rintro r s' (⟨rfl,rfl⟩ | ⟨rfl,done⟩)
    · exact given_back ⟨same_fs₂,pool₂⟩
    · have laid' := installed_laid laid pool user done pool₂ dir₂ installed₂
      obtain ⟨k,forgot⟩ := done.fs
      have ram := done.ram.trans ram₂
      have after : On d L file i (pos + t.page_read_bytes.toNat) s'.fs := by
        rw [forgot,same_fs₂,← enough]
        exact on_forget on' k
      refine runs_pure ⟨⟨_,after⟩,fun _ => ⟨after,by rw [done.installed,installed₂],laid',?_,?_,?_⟩⟩
      · refine installed_extends laid pool done dir₂ fun x outside => ?_
        rw [ram,filled_outside (by rw [enough]; exact fits) outside]
      · rw [← enough]
        rcases within with none_ | inside
        · exact .inl (by rw [none_]; rfl)
        · exact .inr inside
      · intro o below
        obtain ⟨user',same,at_⟩ := upage_page aligned high below
        have index : (kpage + pg_ofs (t.upage + BitVec.ofNat 32 o) - kpage).toNat = o := by
          rw [BitVec.add_comm,BitVec.add_sub_cancel]
          exact at_
        rw [view_entry ((done.entry _ _).mpr (.inl ⟨user',same,rfl⟩)),pte_page page kernel,pte_writable page kernel,ram]
        rw [filled (by rw [enough]; exact fits) below index,loaded_byte,← enough]
        by_cases part : o < bytes.length
        · rw [if_pos part,content]
          simp [part]
        · rw [if_neg part,List.getElem?_eq_none (by omega)]
          rfl

theorem advance_counts {n : Nat} (whole : Whole t (n + 1)) :
    t.advance.upage.toNat = t.upage.toNat + 4096 ∧ t.advance.read_bytes.toNat = t.read_bytes.toNat - min t.read_bytes.toNat 4096 := by
  obtain ⟨read,-,less,-⟩ := turn_fits whole
  have high := whole.high
  constructor
  · rw [Turn.advance,page_size]
    bv_omega
  · rw [← read]
    exact BitVec.toNat_sub_of_le less

theorem load_pages_spec {n k : Nat} (whole : Whole t n) (enough : n < k) (laid : Laid s) (on : On d L file i pos s.fs)
    (w : Bool) :
    Runs NoPanic (load_pages file w k t) s fun r s' => (∃ pos, On d L file i pos s'.fs) ∧
    (r = true → On d L file i (pos + t.read_bytes.toNat) s'.fs ∧
      s'.installed = s.installed ++ (Segments.turns n t).map Turn.upage ∧
      Filled d i s s' t.upage w pos t.read_bytes.toNat (4096 * n)) := by
  induction n generalizing k t s pos with
  | zero =>
    have total := whole.total
    obtain ⟨k,rfl⟩ : ∃ m, k = m + 1 := ⟨k - 1,by omega⟩
    have none_ : t.read_bytes.toNat = 0 := by omega
    rw [load_pages,if_neg (by bv_omega),none_]
    refine runs_pure ⟨⟨_,on⟩,fun _ => ⟨on,by rw [Segments.turns,List.map_nil,List.append_nil],laid,extends_refl s,.inl rfl,fun o below => ?_⟩⟩
    omega
  | succ n ih =>
    obtain ⟨k,rfl⟩ : ∃ m, k = m + 1 := ⟨k - 1,by omega⟩
    obtain ⟨read,sum,-,-⟩ := turn_fits whole
    obtain ⟨next,left⟩ := advance_counts whole
    have low := whole.low
    have aligned := whole.aligned
    have room : t.upage.toNat + 4096 ≤ 0xc0000000 := Nat.le_trans (Nat.add_le_add_left (by omega) _) whole.high
    rw [load_pages,if_pos (whole_positive whole)]
    refine runs_bind (load_page_spec laid on sum aligned room w) ?_
    rintro r s₁ ⟨on₁,done⟩
    cases r with
    | false => exact runs_pure ⟨on₁,fun true_ => by cases true_⟩
    | true =>
      obtain ⟨after,installed,first⟩ := done rfl
      refine runs_mono (ih (whole_advance whole) (by omega) first.laid after) ?_
      rintro r s' ⟨on',rest⟩
      refine ⟨on',fun true_ => ?_⟩
      obtain ⟨end_,installed',later⟩ := rest true_
      rw [read] at first after
      rw [read,left] at later end_
      refine ⟨?_,?_,later.laid,extends_trans first.extends_ later.extends_,?_,fun o below => ?_⟩
      · rw [show pos + t.read_bytes.toNat = pos + min t.read_bytes.toNat 4096 + (t.read_bytes.toNat - min t.read_bytes.toNat 4096) by omega]
        exact end_
      · rw [installed',installed,List.append_assoc]
        rfl
      · have one := first.inside
        have two := later.inside
        omega
      · by_cases here : o < 4096
        · have shown := first.view o here
          rw [later.extends_ _ (by rw [shown]; exact Option.some_ne_none _),shown,loaded_byte,loaded_byte]
          by_cases part : o < t.read_bytes.toNat
          · rw [if_pos part,if_pos (by omega)]
          · rw [if_neg part,if_neg (by omega)]
        · have shown := later.view (o - 4096) (by omega)
          have same : t.advance.upage + BitVec.ofNat 32 (o - 4096) = t.upage + BitVec.ofNat 32 o := by
            refine BitVec.eq_of_toNat_eq ?_
            rw [BitVec.toNat_add,BitVec.toNat_add,next,BitVec.toNat_ofNat,BitVec.toNat_ofNat,Nat.add_mod_mod,Nat.add_mod_mod]
            exact congrArg (· % 2 ^ 32) (by omega)
          rw [← same,shown,loaded_byte,loaded_byte]
          by_cases part : o < t.read_bytes.toNat
          · rw [if_pos part,if_pos (by omega),show pos + min t.read_bytes.toNat 4096 + (o - 4096) = pos + o by omega]
          · rw [if_neg part,if_neg (by omega)]

/-! ### Program headers -/

/-- The user pages that a program header has mapped. -/
def loaded_pages (h : Elf32_Phdr) : List Addr := if h.p_type = PT_LOAD then (Segments.turns (page_count h) (first h)).map Turn.upage else []

/-- The segment of a program header is in the file and in memory. -/
structure Described (d : FileSystem.Device) (i : FileSystem.InodeDisk) (s : Process) (h : Elf32_Phdr) : Prop where
  valid : validate_segment h i.length = true
  inside : (read_bytes h).toNat = 0 ∨ (file_page h).toNat + (read_bytes h).toNat ≤ i.length.toNat
  view : ∀ o < 4096 * page_count h,
    view s (mem_page h + BitVec.ofNat 32 o) = some (loaded_byte d i (file_page h).toNat (read_bytes h).toNat o,writable h)

/-- Which of the headers are those of segments that are described. -/
structure Accepted (d : FileSystem.Device) (i : FileSystem.InodeDisk) (s : Process) (h : Elf32_Phdr) : Prop where
  supported : h.p_type ≠ PT_DYNAMIC ∧ h.p_type ≠ PT_INTERP ∧ h.p_type ≠ PT_SHLIB
  described : h.p_type = PT_LOAD → Described d i s h

theorem accepted_extends {h : Elf32_Phdr} (accepted : Accepted d i s h) (extends_ : Extends s s') : Accepted d i s' h := by
  refine ⟨accepted.supported,fun load => ?_⟩
  obtain ⟨valid,inside,shown⟩ := accepted.described load
  refine ⟨valid,inside,fun o below => ?_⟩
  rw [extends_ _ (by rw [shown o below]; exact Option.some_ne_none _),shown o below]

theorem off_t_small {x : BitVec 32} (small : x.toNat < 2 ^ 31) : 0 ≤ x.toInt ∧ FileSystem.off_t x = x.toNat := by
  refine ⟨?_,FileSystem.off_t_eq small⟩
  rw [BitVec.toInt_eq_toNat_of_lt (by omega)]
  exact Int.natCast_nonneg _

theorem load_phdr_spec (laid : Laid s) (on : On d L file i pos s.fs) (h : Elf32_Phdr) :
    Runs NoPanic (load_phdr file h) s fun r s' => (∃ pos, On d L file i pos s'.fs) ∧ (r = true → Laid s' ∧ Extends s s' ∧
      s'.installed = s.installed ++ loaded_pages h ∧ Accepted d i s' h) := by
  rw [load_phdr]
  split
  · exact runs_pure ⟨⟨_,on⟩,fun true_ => by cases true_⟩
  · rename_i supported
    simp only [not_or] at supported
    split
    · rename_i load
      refine runs_bind (file_length_on on) ?_
      rintro _ _ ⟨rfl,same⟩
      subst same
      split
      · rename_i s accepts
        have valid := validate_segment_spec.mp accepts
        obtain ⟨-,-,-,-,-,asserted,-⟩ := segment_arithmetic.{0} h i.length accepts
        obtain ⟨whole,-⟩ := first_whole valid
        have page := and_not_pgmask h.p_offset
        have small := (on_length on).2
        have within := valid.inside
        obtain ⟨nonnegative,place⟩ := off_t_small (show (file_page h).toNat < 2 ^ 31 by rw [file_page]; omega)
        rw [load_segment]
        refine runs_assert asserted (runs_bind (file_seek_on on nonnegative) ?_)
        rintro _ _ ⟨fs,rfl,on'⟩
        rw [place] at on'
        have enough : page_count h < Segments.limit := by
          have high := whole.high
          rw [Segments.limit]
          omega
        refine runs_mono (load_pages_spec whole enough (s := { s with fs := fs }) ⟨laid.once,laid.free,laid.taken,laid.apart,laid.mapped,laid.distinct⟩
          on' (writable h)) ?_
        rintro r s' ⟨after,done⟩
        refine ⟨after,fun true_ => ?_⟩
        obtain ⟨-,installed,filled⟩ := done true_
        refine ⟨filled.laid,filled.extends_,?_,⟨supported.1,supported.2.1,supported.2.2⟩,
          fun _ => ⟨accepts,filled.inside,filled.view⟩⟩
        rw [installed,loaded_pages,if_pos load]
      · exact runs_pure ⟨⟨_,on⟩,fun true_ => by cases true_⟩
    · rename_i other
      refine runs_pure ⟨⟨_,on⟩,fun _ => ⟨laid,extends_refl s,?_,⟨supported.1,supported.2.1,supported.2.2⟩,fun load => absurd load other⟩⟩
      rw [loaded_pages,if_neg other,List.append_nil]

/-- The program headers from `ofs` on, in a file of which these are the bytes. -/
def phdrs (bytes : Nat → Byte) : Nat → Nat → List Elf32_Phdr
  | 0, _ => []
  | n + 1, ofs => elf32_phdr (fun k => bytes (ofs + k)) :: phdrs bytes n (ofs + sizeof_phdr)

theorem elf32_phdr_congr {f g : Nat → Byte} (same : ∀ k < sizeof_phdr, f k = g k) : elf32_phdr f = elf32_phdr g := by
  have word (at_ : Nat) (below : at_ + 4 ≤ sizeof_phdr) : word_of (fun k => f (at_ + k)) = word_of fun k => g (at_ + k) :=
    Bitmaps.word_of_congr fun k small => same _ (by omega)
  rw [elf32_phdr,elf32_phdr,word 4 (by decide),word 8 (by decide),word 16 (by decide),word 20 (by decide),word 24 (by decide),
    show word_of f = word_of g from Bitmaps.word_of_congr fun k small => same k (by rw [sizeof_phdr]; omega)]

theorem load_phdrs_spec (n : Nat) (ofs : BitVec 32) (laid : Laid s) (on : On d L file i pos s.fs) :
    Runs NoPanic (load_phdrs file n ofs) s fun r s' => (∃ pos, On d L file i pos s'.fs) ∧ (r = true → Laid s' ∧ Extends s s' ∧
      s'.installed = s.installed ++ (phdrs (file_byte d i) n ofs.toNat).flatMap loaded_pages ∧
      (n = 0 ∨ ofs.toNat + sizeof_phdr * n ≤ i.length.toNat) ∧ ∀ h ∈ phdrs (file_byte d i) n ofs.toNat, Accepted d i s' h) := by
  induction n generalizing ofs s pos with
  | zero =>
    refine runs_pure ⟨⟨_,on⟩,fun _ => ⟨laid,extends_refl s,?_,.inl rfl,fun h member => by cases member⟩⟩
    rw [phdrs,List.flatMap_nil,List.append_nil]
  | succ n ih =>
    rw [load_phdrs]
    refine runs_bind (file_length_on on) ?_
    rintro _ _ ⟨rfl,same⟩
    subst same
    rename_i s
    split
    · exact runs_pure ⟨⟨_,on⟩,fun true_ => by cases true_⟩
    · rename_i inside
      simp only [not_or,Int.not_lt,gt_iff_lt] at inside
      have small := (on_length on).2
      have length : i.length.toInt = i.length.toNat := BitVec.toInt_eq_toNat_of_lt (by omega)
      have place : ofs.toNat ≤ i.length.toNat := by
        have nonnegative := inside.1
        have below := inside.2
        rw [length] at below
        rw [BitVec.toInt_eq_toNat_cond] at nonnegative below
        split at nonnegative
        · rename_i half
          rw [if_pos half] at below
          omega
        · omega
      refine runs_bind (file_seek_on on inside.1) ?_
      rintro _ _ ⟨fs,rfl,on₁⟩
      rw [(off_t_small (x := ofs) (by omega)).2] at on₁
      refine runs_bind (file_read_on (s := { s with fs := fs }) on₁ (BitVec.ofNat 32 sizeof_phdr)) ?_
      rintro bytes _ ⟨fs₂,rfl,on₂,-,within,content⟩
      split
      · exact runs_pure ⟨⟨_,on₂⟩,fun true_ => by cases true_⟩
      · rename_i count
        rw [not_not] at count
        have laid₂ : Laid { s with fs := fs₂ } := ⟨laid.once,laid.free,laid.taken,laid.apart,laid.mapped,laid.distinct⟩
        have header : elf32_phdr (fun k => bytes.getD k 0) = elf32_phdr fun k => file_byte d i (ofs.toNat + k) := by
          refine elf32_phdr_congr fun k below => ?_
          rw [content]
          exact FileSystem.range_getD _ (by omega)
        have end_ : ofs.toNat + sizeof_phdr ≤ i.length.toNat := by
          rcases within with none_ | fits
          · rw [none_] at count
            cases count
          · omega
        have next : (ofs + BitVec.ofNat 32 sizeof_phdr).toNat = ofs.toNat + sizeof_phdr := by
          rw [sizeof_phdr] at end_ ⊢
          bv_omega
        rw [header]
        refine runs_bind (load_phdr_spec laid₂ on₂ _) ?_
        rintro r s₃ ⟨on₃,done⟩
        cases r with
        | false => exact runs_pure ⟨on₃,fun true_ => by cases true_⟩
        | true =>
          obtain ⟨laid₃,extends₃,installed₃,accepted⟩ := done rfl
          obtain ⟨pos₃,on₃⟩ := on₃
          refine runs_mono (ih (ofs + BitVec.ofNat 32 sizeof_phdr) laid₃ on₃) ?_
          rintro r s' ⟨on',rest⟩
          refine ⟨on',fun true_ => ?_⟩
          obtain ⟨laid',extends',installed',fits,others⟩ := rest true_
          rw [next] at installed' fits others
          refine ⟨laid',?_,?_,.inr ?_,fun h member => ?_⟩
          · exact extends_trans (fun a some_ => extends₃ a some_) extends'
          · rw [installed',installed₃,phdrs,List.flatMap_cons,List.append_assoc]
          · rcases fits with none_ | fits
            · subst none_
              exact end_
            · rw [sizeof_phdr] at fits ⊢
              omega
          · rcases List.mem_cons.mp member with here | later
            · rw [here]
              exact accepted_extends accepted extends'
            · exact others h later

/-! ### The whole file -/

theorem setup_stack_spec (laid : Laid s) (on : On d L file i pos s.fs) :
    Runs NoPanic setup_stack s fun r s' => (∃ pos, On d L file i pos s'.fs) ∧ ∀ esp, r = some esp → Laid s' ∧ Extends s s' ∧
      s'.installed = s.installed ++ [stack_page] ∧ esp = PHYS_BASE := by
  rw [setup_stack]
  refine runs_bind (palloc_get_page_spec laid) ?_
  rintro kpage _ ⟨rest,pool,rfl,fresh,-,koffset,kernel,in_ram⟩
  refine runs_bind (memset_spec _ _ _ _) ?_
  rintro _ s₁ ⟨same_fs,ram,pool₁,dir,installed⟩
  have user : stack_page < PHYS_BASE := by decide
  refine runs_bind (install_page_spec user (by decide) koffset kernel (by rw [dir]; exact in_ram) true) ?_
  rintro r s' (⟨rfl,rfl⟩ | ⟨rfl,done⟩)
  · refine runs_bind (Q := fun _ s₂ => s₂.fs = s'.fs) ?_ fun _ s₂ same => runs_pure ⟨⟨pos,by rw [same,same_fs]; exact on⟩,fun _ none_ => by cases none_⟩
    exact runs_assert koffset (runs_modify (runs_get (runs_assert (by show kpage ∉ s'.user_pool; rw [pool₁]; exact fresh) (runs_ok rfl rfl))))
  · obtain ⟨k,forgot⟩ := done.fs
    refine runs_pure ⟨⟨pos,?_⟩,fun esp same => ⟨installed_laid laid pool user done pool₁ dir installed,?_,?_,(Option.some.inj same).symm⟩⟩
    · rw [forgot,same_fs]
      exact on_forget on k
    · refine installed_extends laid pool done dir fun x outside => ?_
      rw [done.ram,ram]
      exact put_outside (by rw [List.length_replicate]; exact outside)
    · rw [done.installed,installed]

theorem denying_on {fs : FileSystem.FileSystem} (on : On d L file i pos fs) (r : Bool) : ∃ u n, fs.files file = some u ∧
    fs.inodes u.inode = some n ∧ (FileSystem.Sane (FileSystem.denying fs file u n r) L [] →
      On d L file i pos (FileSystem.denying fs file u n r)) := by
  obtain ⟨-,device,user,u,n,handle,place,inode,data⟩ := on
  exact ⟨u,n,handle,inode,fun sane => ⟨sane,device,user,_,_,Function.update_self ..,place,Function.update_self ..,data⟩⟩

theorem file_allow_write_on (on : On d L file i pos s.fs) :
    Runs NoPanic (disk_void fun fs => FileSystem.file_allow_write fs file) s fun _ s' => ∃ fs, s' = { s with fs := fs } ∧
    On d L file i pos fs := by
  obtain ⟨u,n,handle,inode,kept⟩ := denying_on on false
  obtain ⟨ran,sane⟩ := FileSystem.file_allow_write_spec on.sane handle inode on.user
  have called : disk_void (fun fs => FileSystem.file_allow_write fs file) s = .ok ((),{ s with fs := FileSystem.denying s.fs file u n false }) := by
    rw [disk_void,disk,ran]
    rfl
  exact runs_ok called ⟨_,rfl,kept sane⟩

theorem file_deny_write_on (on : On d L file i pos s.fs) :
    Runs NoPanic (disk_void fun fs => FileSystem.file_deny_write fs file) s fun _ s' => ∃ fs, s' = { s with fs := fs } ∧
    On d L file i pos fs := by
  obtain ⟨u,n,handle,inode,kept⟩ := denying_on on true
  obtain ⟨ran,sane⟩ := FileSystem.file_deny_write_spec on.sane handle inode on.user
  have called : disk_void (fun fs => FileSystem.file_deny_write fs file) s = .ok ((),{ s with fs := FileSystem.denying s.fs file u n true }) := by
    rw [disk_void,disk,ran]
    rfl
  exact runs_ok called ⟨_,rfl,kept sane⟩

theorem file_close_on (on : On d L file i pos s.fs) :
    Runs NoPanic (disk_void fun fs => FileSystem.file_close fs file) s fun _ s' => ∃ fs, s' = { s with fs := fs } := by
  obtain ⟨u,n,handle,-,inode,-⟩ := on.handle
  obtain ⟨m,fs,-,ran,-⟩ := FileSystem.file_close_spec on.sane handle on.user
  have called : disk_void (fun fs => FileSystem.file_close fs file) s = .ok ((),{ s with fs := fs }) := by
    rw [disk_void,disk,ran]
    rfl
  exact runs_ok called ⟨_,rfl⟩

theorem elf32_ehdr_congr {f g : Nat → Byte} (same : ∀ k < sizeof_ehdr, f k = g k) : elf32_ehdr f = elf32_ehdr g := by
  have word (at_ : Nat) (below : at_ + 4 ≤ sizeof_ehdr) : word_of (fun k => f (at_ + k)) = word_of fun k => g (at_ + k) :=
    Bitmaps.word_of_congr fun k small => same _ (by omega)
  have half (at_ : Nat) (below : at_ + 2 ≤ sizeof_ehdr) : half_of (fun k => f (at_ + k)) = half_of fun k => g (at_ + k) := by
    rw [half_of,half_of,same (at_ + 0) (by omega),same (at_ + 1) (by omega)]
  have ident : (List.range 16).map f = (List.range 16).map g := by
    refine List.map_congr_left fun k member => same k ?_
    rw [List.mem_range] at member
    rw [sizeof_ehdr]
    omega
  rw [elf32_ehdr,elf32_ehdr,ident,word 20 (by decide),word 24 (by decide),word 28 (by decide),half 16 (by decide),half 18 (by decide),
    half 42 (by decide),half 44 (by decide)]

def program_headers (bytes : Nat → Byte) : List Elf32_Phdr :=
  phdrs bytes (elf32_ehdr bytes).e_phnum.toNat (elf32_ehdr bytes).e_phoff.toNat

/-- What a file that is loaded has left. -/
structure Loaded (d : FileSystem.Device) (i : FileSystem.InodeDisk) (s : Process) (eip : BitVec 32) : Prop where
  laid : Laid s
  entry : eip = (elf32_ehdr (file_byte d i)).e_entry
  installed : s.installed = (program_headers (file_byte d i)).flatMap loaded_pages ++ [stack_page]
  accepted : ∀ h ∈ program_headers (file_byte d i), Accepted d i s h

theorem load_file_spec (laid : Laid s) (on : On d L file i 0 s.fs) (fresh : s.installed = []) :
    Runs NoPanic (load_file file) s fun r s' => (∃ pos, On d L file i pos s'.fs) ∧ ∀ eip esp, r = some (eip,esp) →
    Loaded d i s' eip := by
  rw [load_file]
  refine runs_bind (file_read_on on _) ?_
  rintro bytes _ ⟨fs,rfl,on₁,-,-,content⟩
  dsimp only
  split
  · exact runs_pure ⟨⟨_,on₁⟩,fun _ _ none_ => by cases none_⟩
  · rename_i verified
    simp only [not_or,not_not] at verified
    have header : elf32_ehdr (fun k => bytes.getD k 0) = elf32_ehdr (file_byte d i) := by
      refine elf32_ehdr_congr fun k below => ?_
      rw [content,FileSystem.range_getD _ (by omega),Nat.zero_add]
    have laid₁ : Laid { s with fs := fs } := ⟨laid.once,laid.free,laid.taken,laid.apart,laid.mapped,laid.distinct⟩
    rw [header]
    refine runs_bind (load_phdrs_spec _ _ laid₁ on₁) ?_
    rintro r s₂ ⟨on₂,done⟩
    cases r with
    | false => exact runs_pure ⟨on₂,fun _ _ none_ => by cases none_⟩
    | true =>
      obtain ⟨laid₂,-,installed₂,-,accepted⟩ := done rfl
      obtain ⟨pos₂,on₂⟩ := on₂
      refine runs_bind (setup_stack_spec laid₂ on₂) ?_
      rintro r s₃ ⟨⟨pos₃,on₃⟩,made⟩
      cases r with
      | none => exact runs_pure ⟨⟨_,on₃⟩,fun _ _ none_ => by cases none_⟩
      | some esp =>
        obtain ⟨laid₃,extends₃,installed₃,-⟩ := made esp rfl
        refine runs_bind (file_allow_write_on on₃) ?_
        rintro _ _ ⟨fs₄,rfl,on₄⟩
        refine runs_pure ⟨⟨_,on₄⟩,fun eip esp same => ?_⟩
        cases same
        refine ⟨⟨laid₃.once,laid₃.free,laid₃.taken,laid₃.apart,laid₃.mapped,laid₃.distinct⟩,rfl,?_,fun h member => ?_⟩
        · show s₃.installed = _
          rw [installed₃,installed₂]
          show s.installed ++ _ ++ _ = _
          rw [fresh,List.nil_append]
          rfl
        · exact accepted_extends (accepted h member) fun a some_ => extends₃ a some_

/-- The inode of the file that `load` opens. -/
def executable (s : Process) (file_name : List Byte) : Option FileSystem.InodeDisk :=
  match FileSystem.filesys_open s.fs file_name with
  | some (some file,fs) => (fs.files file).bind fun f => (fs.inodes f.inode).map fun n => n.data
  | _ => none

/-- A process without pages of its own, and free pages in memory. -/
structure Ready (s : Process) : Prop where
  sane : ∃ L, FileSystem.Sane s.fs L []
  once : s.user_pool.Nodup
  free : ∀ p ∈ s.user_pool, p.toNat % 4096 = 0 ∧ PHYS_BASE ≤ p ∧ (vtop p).toNat / PGSIZE < s.init_page_dir.init_ram_pages
  kernel_only : ∀ a < PHYS_BASE, ¬ Present s.init_page_dir a
  installed : s.installed = []

theorem ready_laid (ready : Ready s) : Laid { s with pagedir := s.init_page_dir } where
  once := ready.once
  free := ready.free
  taken a pte entry := absurd ⟨pte,entry.2⟩ (ready.kernel_only a entry.1)
  apart a b pte qte entry _ _ := absurd ⟨pte,entry.2⟩ (ready.kernel_only a entry.1)
  mapped a user := by
    refine iff_of_false (ready.kernel_only a user) ?_
    rintro ⟨p,member,-⟩
    rw [show ({ s with pagedir := s.init_page_dir } : Process).installed = [] from ready.installed] at member
    cases member
  distinct := by
    show (s.installed.map pg_no).Nodup
    rw [ready.installed]
    exact List.nodup_nil

theorem load_spec (ready : Ready s) (file_name : List Byte) : Runs NoPanic (load file_name) s fun r s' =>
    ∀ eip esp, r = some (eip,esp) → ∃ i, executable s file_name = some i ∧ Loaded s.fs.fs_device i s' eip := by
  have laid := ready_laid ready
  have fresh := ready.installed
  have found : ∀ file fs i u n, FileSystem.filesys_open s.fs file_name = some (some file,fs) → fs.files file = some u →
      fs.inodes u.inode = some n → n.data = i → executable s file_name = some i := by
    intro file fs i u n opens handle inode data
    rw [executable,opens]
    simp only [handle,inode,Option.bind_some,Option.map_some,data]
  obtain ⟨L,sane⟩ := ready.sane
  obtain ⟨answer,fs,opens,-,device,-,map_file,sane',-,handles⟩ := FileSystem.filesys_open_spec sane file_name
  rw [load]
  refine runs_bind (Q := fun _ s' => s'.fs = s.fs ∧ s'.init_page_dir = s.init_page_dir ∧ s'.user_pool = s.user_pool ∧
    s'.installed = s.installed) ?_ ?_
  · by_cases none_ : s.kernel_pages = 0
    · have given : palloc_get_kernel_page s = .ok (false,s) := if_pos none_
      exact runs_ok given ⟨rfl,rfl,rfl,rfl⟩
    · have given : palloc_get_kernel_page s = .ok (true,{ s with kernel_pages := s.kernel_pages - 1 }) := if_neg none_
      exact runs_ok given ⟨rfl,rfl,rfl,rfl⟩
  · rintro r s₁ ⟨same_fs,same_dir,same_pool,same_installed⟩
    cases r with
    | false => exact runs_pure fun _ _ none_ => by cases none_
    | true =>
      refine runs_modify ?_
      have called : disk (fun fs => FileSystem.filesys_open fs file_name) { s₁ with pagedir := s₁.init_page_dir } =
          .ok (answer,{ s₁ with pagedir := s₁.init_page_dir, fs := fs }) := by
        rw [disk,same_fs,opens]
      have laid₁ : Laid { s₁ with pagedir := s₁.init_page_dir, fs := fs } := by
        obtain ⟨once,free,taken,apart,mapped,distinct⟩ := laid
        rw [← same_pool] at once free taken
        rw [← same_installed] at mapped distinct
        rw [← same_dir] at free taken apart mapped
        exact ⟨once,free,taken,apart,mapped,distinct⟩
      refine runs_bind (Q := fun r s' => r = answer ∧ s' = { s₁ with pagedir := s₁.init_page_dir, fs := fs }) (runs_ok called ⟨rfl,rfl⟩) ?_
      rintro _ _ ⟨rfl,rfl⟩
      rename_i answer
      cases answer with
      | none => exact runs_pure fun _ _ none_ => by cases none_
      | some file =>
        obtain ⟨a,k,opened⟩ := handles file rfl
        obtain ⟨i,owned,takes⟩ := opened.inode
        obtain ⟨n,inode,-,data,-⟩ := FileSystem.takes_found takes
        have handle : fs.files file = some { inode := a, pos := 0, deny_write := false } := by
          rw [opened.files]
          exact Function.update_self ..
        have on : On s.fs.fs_device L file i 0 fs :=
          ⟨sane',device,by rw [map_file]; exact opened.unused.2,_,n,handle,rfl,inode,data⟩
        refine runs_bind (file_deny_write_on (s := { s₁ with pagedir := s₁.init_page_dir, fs := fs }) on) ?_
        rintro _ _ ⟨fs₂,rfl,on₂⟩
        have laid₂ : Laid { s₁ with pagedir := s₁.init_page_dir, fs := fs₂ } :=
          ⟨laid₁.once,laid₁.free,laid₁.taken,laid₁.apart,laid₁.mapped,laid₁.distinct⟩
        refine runs_bind (load_file_spec laid₂ on₂ (same_installed.trans fresh)) ?_
        rintro r s₃ ⟨⟨pos,on₃⟩,done⟩
        refine runs_bind (file_close_on on₃) ?_
        rintro _ _ ⟨fs₄,rfl⟩
        refine runs_pure fun eip esp same => ⟨i,found file fs i _ n opens handle inode data,?_⟩
        obtain ⟨laid₃,entry,installed,accepted⟩ := done eip esp same
        exact ⟨⟨laid₃.once,laid₃.free,laid₃.taken,laid₃.apart,laid₃.mapped,laid₃.distinct⟩,entry,installed,
          fun h member => accepted_extends (accepted h member) (extends_refl s₃)⟩

/-! ### Images -/

/-- The pages that hold a byte of a segment. -/
def Covers (h : Elf32_Phdr) (a : Addr) : Prop :=
  h.p_vaddr.toNat / PGSIZE ≤ a.toNat / PGSIZE ∧ a.toNat / PGSIZE ≤ (h.p_vaddr.toNat + h.p_memsz.toNat - 1) / PGSIZE

/-- The image that a file of these bytes describes. -/
structure Image (bytes : Nat → Byte) (s : Process) (eip : BitVec 32) : Prop where
  entry : eip = (elf32_ehdr bytes).e_entry
  segment : ∀ h ∈ program_headers bytes, h.p_type = PT_LOAD → ∀ k < h.p_memsz.toNat,
    view s (h.p_vaddr + BitVec.ofNat 32 k) =
      some (if k < h.p_filesz.toNat then bytes (h.p_offset.toNat + k) else 0,decide (h.p_flags &&& PF_W ≠ 0))
  writable : ∀ h ∈ program_headers bytes, h.p_type = PT_LOAD → ∀ a, Covers h a →
    (view s a).map Prod.snd = some (decide (h.p_flags &&& PF_W ≠ 0))
  once : (s.installed.map pg_no).Nodup
  mapped : ∀ a, view s a ≠ none → ∃ p ∈ s.installed, pg_no p = pg_no a

/-- A segment is malformed, goes on after the end of the file, or has a page of a segment
    before it or of the stack. -/
def Defective (bytes : Nat → Byte) (length : BitVec 32) : Prop :=
  ∃ before h after, program_headers bytes = before ++ h :: after ∧ h.p_type = PT_LOAD ∧
    (validate_segment h length = false ∨ (0 < h.p_filesz.toNat ∧ length.toNat < h.p_offset.toNat + h.p_filesz.toNat) ∨
      Covers h stack_page ∨ ∃ g ∈ before, g.p_type = PT_LOAD ∧ ∃ a, Covers h a ∧ Covers g a)

/-- The addresses of a segment and of its pages. -/
structure Spread (h : Elf32_Phdr) (n : Nat) : Prop where
  base : (mem_page h).toNat = h.p_vaddr.toNat / 4096 * 4096
  high : (mem_page h).toNat + 4096 * n ≤ 0xc0000000
  covers : ∀ a, Covers h a ↔ (mem_page h).toNat ≤ a.toNat ∧ a.toNat < (mem_page h).toNat + 4096 * n
  count : h.p_vaddr.toNat % 4096 + h.p_memsz.toNat ≤ 4096 * n

theorem spread {h : Elf32_Phdr} {length : BitVec 32} (accepts : validate_segment h length = true) : Spread h (page_count h) := by
  have valid := validate_segment_spec.mp accepts
  obtain ⟨whole,positive⟩ := first_whole valid
  obtain ⟨base,low,-,total⟩ := sizes valid
  have total' : (read_bytes h).toNat + (zero_bytes h).toNat = 4096 * page_count h := whole.total
  have some_ := valid.nonempty
  refine ⟨base,whole.high,fun a => ?_,?_⟩
  · rw [Covers,base,PGSIZE]
    omega
  · omega

theorem covers_offset {h : Elf32_Phdr} {n : Nat} (spread : Spread h n) (covers : Covers h a) :
    ∃ o < 4096 * n, a = mem_page h + BitVec.ofNat 32 o := by
  obtain ⟨low,high⟩ := (spread.covers a).mp covers
  refine ⟨a.toNat - (mem_page h).toNat,by omega,?_⟩
  bv_omega

theorem turns_pages {n : Nat} (whole : Whole t n) {o : Nat} (below : o < 4096 * n) :
    pg_no (t.upage + BitVec.ofNat 32 o) ∈ ((Segments.turns n t).map Turn.upage).map pg_no := by
  induction n generalizing t o with
  | zero => omega
  | succ n ih =>
    have room : t.upage.toNat + 4096 ≤ 0xc0000000 := Nat.le_trans (Nat.add_le_add_left (by omega) _) whole.high
    rw [Segments.turns,List.map_cons,List.map_cons]
    by_cases here : o < 4096
    · rw [(upage_page whole.aligned room here).2.1]
      exact List.mem_cons_self
    · have next := (advance_counts whole).1
      have same : t.upage + BitVec.ofNat 32 o = t.advance.upage + BitVec.ofNat 32 (o - 4096) := by
        refine BitVec.eq_of_toNat_eq ?_
        rw [BitVec.toNat_add,BitVec.toNat_add,next,BitVec.toNat_ofNat,BitVec.toNat_ofNat,Nat.add_mod_mod,Nat.add_mod_mod]
        exact congrArg (· % 2 ^ 32) (by omega)
      rw [same]
      exact List.mem_cons_of_mem _ (ih (whole_advance whole) (by omega))

theorem covers_loaded {h : Elf32_Phdr} {length : BitVec 32} (accepts : validate_segment h length = true)
    (load : h.p_type = PT_LOAD)
    (covers : Covers h a) : pg_no a ∈ (loaded_pages h).map pg_no := by
  obtain ⟨o,below,rfl⟩ := covers_offset (spread accepts) covers
  rw [loaded_pages,if_pos load]
  exact turns_pages (first_whole (validate_segment_spec.mp accepts)).1 below

/-- A byte of a segment in terms of its header. -/
theorem described_segment {h : Elf32_Phdr} (described : Described d i s h) {k : Nat} (below : k < h.p_memsz.toNat) :
    view s (h.p_vaddr + BitVec.ofNat 32 k) = some (if k < h.p_filesz.toNat then file_byte d i (h.p_offset.toNat + k) else 0,writable h) := by
  have valid := validate_segment_spec.mp described.valid
  obtain ⟨base,high,-,count⟩ := spread described.valid
  obtain ⟨-,-,read,-⟩ := sizes valid
  have offset := valid.offset
  have page : (file_page h).toNat = h.p_offset.toNat / 4096 * 4096 := and_not_pgmask _
  have shown := described.view (h.p_vaddr.toNat % 4096 + k) (by omega)
  have same : mem_page h + BitVec.ofNat 32 (h.p_vaddr.toNat % 4096 + k) = h.p_vaddr + BitVec.ofNat 32 k := by
    refine BitVec.eq_of_toNat_eq ?_
    rw [BitVec.toNat_add,BitVec.toNat_add,base,BitVec.toNat_ofNat,BitVec.toNat_ofNat,Nat.add_mod_mod,Nat.add_mod_mod]
    exact congrArg (· % 2 ^ 32) (by omega)
  rw [← same,shown,loaded_byte,read,page]
  by_cases none_ : h.p_filesz = 0
  · rw [if_pos none_,none_,if_neg (Nat.not_lt_zero _),if_neg (show ¬ k < BitVec.toNat 0 from Nat.not_lt_zero k)]
  · rw [if_neg none_]
    by_cases part : k < h.p_filesz.toNat
    · rw [if_pos part,if_pos (by omega),show h.p_offset.toNat / 4096 * 4096 + (h.p_vaddr.toNat % 4096 + k) = h.p_offset.toNat + k by omega]
    · rw [if_neg part,if_neg (by omega)]

theorem loaded_image_of {eip : BitVec 32} (loaded : Loaded d i s eip) : Image (file_byte d i) s eip := by
  obtain ⟨laid,entry,installed,accepted⟩ := loaded
  refine ⟨entry,fun h member load k below => described_segment ((accepted h member).described load) below,
    fun h member load a covers => ?_,
    laid.distinct,fun a some_ => ?_⟩
  · have described := (accepted h member).described load
    obtain ⟨o,below,rfl⟩ := covers_offset (spread described.valid) covers
    rw [described.view o below]
    rfl
  · obtain ⟨pte,found⟩ := view_some.mp some_
    exact (laid.mapped a found.1).mp ((entry_present found.1).mpr ⟨pte,found⟩)

theorem loaded_sound {eip : BitVec 32} (loaded : Loaded d i s eip) : ¬ Defective (file_byte d i) i.length := by
  rintro ⟨before,h,after,headers,load,defect⟩
  obtain ⟨laid,entry,installed,accepted⟩ := loaded
  have described := (accepted h (by rw [headers]; simp)).described load
  have valid := validate_segment_spec.mp described.valid
  rcases defect with malformed | ⟨some_,truncated⟩ | overlap
  · rw [described.valid] at malformed
    cases malformed
  · obtain ⟨-,-,read,-⟩ := sizes valid
    have offset := valid.offset
    have page : (file_page h).toNat = h.p_offset.toNat / 4096 * 4096 := and_not_pgmask _
    have nonzero : h.p_filesz ≠ 0 := by
      intro zero
      rw [zero] at some_
      exact absurd some_ (Nat.lt_irrefl 0)
    have inside := described.inside
    rw [if_neg nonzero] at read
    omega
  · -- The pages of a segment are in the list of those that were mapped, each in a place of its own.
    have distinct := laid.distinct
    rw [installed,headers,List.flatMap_append,List.flatMap_cons,List.map_append,List.map_append,List.map_append] at distinct
    obtain ⟨segments,-,stack⟩ := List.nodup_append.mp distinct
    obtain ⟨-,-,apart⟩ := List.nodup_append.mp segments
    rcases overlap with stack_covered | ⟨g,member,load',a,covers,covers'⟩
    · have mine := covers_loaded described.valid load stack_covered
      exact stack _ (List.mem_append_right _ (List.mem_append_left _ mine)) _ (List.mem_singleton_self _) rfl
    · have described' := (accepted g (by rw [headers]; exact List.mem_append_left _ member)).described load'
      have mine := covers_loaded described.valid load covers
      have theirs := covers_loaded described'.valid load' covers'
      obtain ⟨p,page,same⟩ := List.mem_map.mp theirs
      refine apart _ (List.mem_map.mpr ⟨p,List.mem_flatMap.mpr ⟨g,member,page⟩,same⟩) _ (List.mem_append_left _ mine) rfl

end

/-- `load` does not panic. Where it succeeds, the file that it opened has left the image
    that it describes; where that file has a segment that is malformed, truncated or
    overlaps, it does not succeed. -/
theorem loaded_image (s : Process) (ready : Ready s) (file_name : List Byte) :
    load file_name s ≠ .error .panic ∧
    (∀ eip esp s', load file_name s = .ok (some (eip,esp),s') →
      ∃ i, executable s file_name = some i ∧ Image (file_byte s.fs.fs_device i) s' eip) ∧
    ∀ i, executable s file_name = some i → Defective (file_byte s.fs.fs_device i) i.length →
      ∀ r s', load file_name s = .ok (r,s') → r = none := by
  have spec := load_spec ready file_name
  refine ⟨fun panics => runs_stop spec panics rfl,fun eip esp s' ran => ?_,fun i opens defective r s' ran => ?_⟩
  · obtain ⟨i,opens,loaded⟩ := runs_result spec ran eip esp rfl
    exact ⟨i,opens,loaded_image_of loaded⟩
  · cases r with
    | none => rfl
    | some start =>
      obtain ⟨j,opens',loaded⟩ := runs_result spec ran start.1 start.2 rfl
      rw [opens] at opens'
      cases opens'
      exact absurd defective (loaded_sound loaded)

/-- A process of a system with three free pages. -/
def fresh (fs : FileSystem.FileSystem) : Process where
  fs := fs
  init_page_dir := { init_ram_pages := 0x400, table := fun _ => none, capped := four_megabytes, in_ram := fun _ _ _ found => by cases found }
  pagedir := { init_ram_pages := 0x400, table := fun _ => none, capped := four_megabytes, in_ram := fun _ _ _ found => by cases found }
  ram _ := 0xcc
  user_pool := [0xc0200000,0xc0201000,0xc0202000]
  kernel_pages := 3
  entries := none
  installed := []

/-- An executable with one segment: the file itself, and six bytes more. -/
def one_segment : List Byte :=
  [0x7f,0x45,0x4c,0x46,1,1,1,0,0,0,0,0,0,0,0,0,2,0,3,0,1,0,0,0,0x34,0x80,4,8,0x34,0,0,0,0,0,0,0,0,0,0,0,0x34,0,0x20,0,1,0,0,0,0,0,0,0,
    1,0,0,0,0,0,0,0,0,0x80,4,8,0,0,0,0,84,0,0,0,90,0,0,0,5,0,0,0,0,0,0,0]

/-- The calls that put it into a new file system, under the name "a". -/
def puts : List FileSystem.Call :=
  [.filesys_create [97] 84,.filesys_open [97],.file_write 7 (fun k => one_segment.getD k 0) 84,.file_close 7]

theorem loaded_image_one_segment : ∃ s eip esp s', load [97] s = .ok (some (eip,esp),s') ∧
    ∃ i, executable s [97] = some i ∧ Image (file_byte s.fs.fs_device i) s' eip := by
  have formats : (FileSystem.filesys_init true FileSystem.boot).isSome = true := by decide +kernel
  have ran : (((FileSystem.filesys_init true FileSystem.boot).bind (FileSystem.calls (fun _ _ => True) puts)).any fun fs =>
      (load [97] (fresh fs)).toOption.any fun r => r.1.isSome) = true := by decide +kernel
  obtain ⟨fs₀,initial⟩ := Option.isSome_iff_exists.mp formats
  rw [initial,Option.bind_some] at ran
  obtain ⟨fs,later,loads⟩ := (Option.any_eq_true _ _).mp ran
  obtain ⟨⟨r,s'⟩,loads,succeeds⟩ := (Option.any_eq_true _ _).mp loads
  obtain ⟨start,rfl⟩ := Option.isSome_iff_exists.mp succeeds
  have sane := FileSystem.reaches_sane (@FileSystem.calls_reaches (fun _ _ => True) _ puts fs₀ fs (.start ⟨FileSystem.boot,initial⟩) later)
  have ready : Ready (fresh fs) := by
    refine ⟨sane,?_,?_,?_,rfl⟩
    · show ([0xc0200000,0xc0201000,0xc0202000] : List Addr).Nodup
      decide
    · intro p member
      show p.toNat % 4096 = 0 ∧ PHYS_BASE ≤ p ∧ (vtop p).toNat / PGSIZE < 0x400
      rcases List.mem_cons.mp member with rfl | member
      · decide
      · rcases List.mem_cons.mp member with rfl | member
        · decide
        · obtain rfl := List.mem_singleton.mp member
          decide
    · rintro a - ⟨pte,found,-⟩
      cases found
  have ran := Machines.ok_of_toOption loads
  exact ⟨fresh fs,start.1,start.2,s',ran,(loaded_image (fresh fs) ready [97]).2.1 _ _ _ ran⟩

end Pintos.Images
