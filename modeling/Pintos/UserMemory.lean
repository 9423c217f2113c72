import Pintos.Files
import Mathlib.Data.BitVec

/-!
The addresses of a process: `threads/vaddr.h`, `threads/pte.h`, the lookups of
`userprog/pagedir.c` and the checks that `userprog/syscall.c` makes of a user
pointer. An address is a word, and its arithmetic wraps.

A page directory entry is zero or names a page table, whose entries are words in
the format of the processor. Memory is capped at 64 MB by `start.S`, and
`pagedir_set_page` asserts that what it maps is memory.
-/
namespace Pintos.UserMemory
open Pintos
set_option linter.unusedSimpArgs false

abbrev Addr := BitVec 32

def PGBITS : Nat := 12
def PGSIZE : Nat := 4096
def PDSHIFT : Nat := 22
def PHYS_BASE : Addr := 0xc0000000
def PGMASK : Addr := 0xfff
def PTMASK : Addr := 0x3ff000
def PTE_ADDR : BitVec 32 := 0xfffff000
def PTE_P : BitVec 32 := 1

def pg_ofs (va : Addr) : BitVec 32 := va &&& PGMASK
def pg_no (va : Addr) : BitVec 32 := va >>> PGBITS
def pt_no (va : Addr) : BitVec 32 := (va &&& PTMASK) >>> PGBITS
def pd_no (va : Addr) : BitVec 32 := va >>> PDSHIFT
def is_user_vaddr (vaddr : Addr) : Bool := decide (vaddr < PHYS_BASE)
def ptov (paddr : BitVec 32) : Addr := paddr + PHYS_BASE
def pte_get_page (pte : BitVec 32) : Addr := ptov (pte &&& PTE_ADDR)

/-- A page directory and its page tables. -/
structure PageDir where
  init_ram_pages : Nat
  table : BitVec 32 → Option (BitVec 32 → BitVec 32)
  capped : init_ram_pages ≤ 0x4000
  in_ram : ∀ i pt j, table i = some pt → pt j &&& PTE_P ≠ 0 → (pt j &&& PTE_ADDR).toNat / PGSIZE < init_ram_pages

/-- `lookup_page` without `create`: the entry itself, for the pointer to it. -/
def lookup_page (pd : PageDir) (vaddr : Addr) : Option (BitVec 32) := (pd.table (pd_no vaddr)).map fun pt => pt (pt_no vaddr)
/-- `pagedir_get_page`, with zero for the null pointer. -/
def pagedir_get_page (pd : PageDir) (uaddr : Addr) : Addr :=
  match lookup_page pd uaddr with
  | none => 0
  | some pte => if pte &&& PTE_P ≠ 0 then pte_get_page pte + pg_ofs uaddr else 0

/-- `is_valid_addr` in a process whose page directory is `pd`. -/
def is_valid_addr (pd : PageDir) (addr : Addr) : Bool := if is_user_vaddr addr then pagedir_get_page pd addr != 0 else false
/-- `catch_addr_error`: an error is the status of a process that exits. -/
def catch_addr_error (pd : PageDir) (addr : Addr) : Except Int Unit := if !is_valid_addr pd addr then .error (-1) else .ok ()

/-- The two checks of `syscall_read`, with what it does after them. -/
def syscall_read {α : Type} (pd : PageDir) (buffer length : Addr) (rest : Except Int α) : Except Int α := do
  catch_addr_error pd buffer
  catch_addr_error pd (buffer + length - 1)
  rest
/-- The two checks of `syscall_write`, with what it does after them. -/
def syscall_write {α : Type} (pd : PageDir) (buffer length : Addr) (rest : Except Int α) : Except Int α := do
  catch_addr_error pd buffer
  catch_addr_error pd (buffer + length - 1)
  rest

/-! ### What is mapped -/

/-- The page that holds an address has a present entry. -/
def Present (pd : PageDir) (vaddr : Addr) : Prop := ∃ pte, lookup_page pd vaddr = some pte ∧ pte &&& PTE_P ≠ 0
/-- A byte of user memory. -/
def Mapped (pd : PageDir) (vaddr : Addr) : Prop := vaddr < PHYS_BASE ∧ Present pd vaddr

variable {pd : PageDir} {a b buffer length : Addr} {α : Type}

theorem user_lt : a < PHYS_BASE ↔ a.toNat < 0xc0000000 := by
  rw [BitVec.lt_def]
  exact Iff.rfl

theorem pg_no_eq (a : Addr) : (pg_no a).toNat = a.toNat / 4096 := by
  rw [pg_no,PGBITS,BitVec.toNat_ushiftRight,Nat.shiftRight_eq_div_pow]

theorem and_pgmask (x : BitVec 32) : (x &&& PGMASK).toNat = x.toNat % 4096 := by
  rw [PGMASK,BitVec.toNat_and]
  exact Nat.and_two_pow_sub_one_eq_mod x.toNat 12

/-- Both indices of an address are read off its page number. -/
theorem pd_no_pg_no (a : Addr) : pd_no a = pg_no a >>> 10 := by
  rw [pd_no,pg_no,PDSHIFT,PGBITS,← BitVec.shiftRight_add]

theorem pt_no_pg_no (a : Addr) : pt_no a = pg_no a &&& 0x3ff := by
  rw [pt_no,pg_no,PGBITS,PTMASK,BitVec.ushiftRight_and_distrib]
  rfl

theorem lookup_same_page (same : pg_no a = pg_no b) : lookup_page pd a = lookup_page pd b := by
  rw [lookup_page,lookup_page,pd_no_pg_no,pt_no_pg_no,same,← pd_no_pg_no,← pt_no_pg_no]

theorem present_same_page (same : pg_no a = pg_no b) : Present pd a ↔ Present pd b := by
  rw [Present,Present,lookup_same_page same]

/-- The kernel address of a byte in memory is not the null pointer. -/
theorem kernel_page_nonnull {pte : BitVec 32} (in_ram : (pte &&& PTE_ADDR).toNat / PGSIZE < 0x4000) :
    pte_get_page pte + pg_ofs a ≠ 0 := by
  have offset : (pg_ofs a).toNat < 4096 := by
    rw [pg_ofs,PGMASK,BitVec.toNat_and]
    exact Nat.lt_of_le_of_lt Nat.and_le_right (by decide)
  obtain ⟨page,named⟩ : ∃ page, pte &&& PTE_ADDR = page := ⟨_,rfl⟩
  rw [named,PGSIZE] at in_ram
  rw [pte_get_page,named,ptov,PHYS_BASE]
  bv_omega

theorem pagedir_get_page_spec (pd : PageDir) (a : Addr) : pagedir_get_page pd a ≠ 0 ↔ Present pd a := by
  unfold pagedir_get_page Present
  cases looked : lookup_page pd a with
  | none => simp
  | some pte =>
    by_cases present : pte &&& PTE_P ≠ 0
    · obtain ⟨pt,table,entry⟩ := Option.map_eq_some_iff.mp looked
      subst entry
      have in_ram := Nat.lt_of_lt_of_le (pd.in_ram _ _ _ table present) pd.capped
      show (if _ then _ else _) ≠ _ ↔ _
      rw [if_pos present]
      exact ⟨fun _ => ⟨_,rfl,present⟩,fun _ => kernel_page_nonnull in_ram⟩
    · show (if _ then _ else _) ≠ _ ↔ _
      rw [if_neg present]
      simpa using present

theorem is_valid_addr_spec (pd : PageDir) (a : Addr) : is_valid_addr pd a = true ↔ Mapped pd a := by
  rw [is_valid_addr,Mapped,← pagedir_get_page_spec]
  by_cases user : a < PHYS_BASE
  · simp [is_user_vaddr,user]
  · simp [is_user_vaddr,user]

theorem catch_addr_error_spec (pd : PageDir) (a : Addr) :
    (catch_addr_error pd a = .ok () ∧ Mapped pd a) ∨ (catch_addr_error pd a = .error (-1) ∧ ¬ Mapped pd a) := by
  rw [← is_valid_addr_spec,catch_addr_error]
  cases is_valid_addr pd a <;> simp

theorem mapped_same_page (same : pg_no a = pg_no b) (user : b < PHYS_BASE) (mapped : Mapped pd a) : Mapped pd b :=
  ⟨user,(present_same_page same).mp mapped.2⟩

/-! ### Buffers -/

/-- Every byte from `buffer` on, `length` of them and without wrapping, is user memory. -/
def Whole (pd : PageDir) (buffer length : Addr) : Prop :=
  ∀ i < length.toNat, ∃ byte : Addr, byte.toNat = buffer.toNat + i ∧ Mapped pd byte

/-- What the two checks leave open. For no bytes at all: the byte before the buffer.
    Otherwise, when both ends are mapped, that the addresses do not wrap and that
    no page between the two ends is missing. -/
def Sufficient (pd : PageDir) (buffer length : Addr) : Prop :=
  if length = 0 then Mapped pd buffer ∧ Mapped pd (buffer - 1)
  else Mapped pd buffer → Mapped pd (buffer + length - 1) →
    buffer.toNat + length.toNat ≤ 2 ^ 32 ∧
    ∀ byte : Addr, pg_no buffer < pg_no byte → pg_no byte < pg_no (buffer + length - 1) → Present pd byte

theorem syscall_read_spec (pd : PageDir) (buffer length : Addr) (rest : Except Int α) :
    (syscall_read pd buffer length rest = rest ∧ Mapped pd buffer ∧ Mapped pd (buffer + length - 1)) ∨
    (syscall_read pd buffer length rest = .error (-1) ∧ ¬ (Mapped pd buffer ∧ Mapped pd (buffer + length - 1))) := by
  unfold syscall_read
  rcases catch_addr_error_spec pd buffer with ⟨first,mapped⟩ | ⟨first,unmapped⟩
  · rcases catch_addr_error_spec pd (buffer + length - 1) with ⟨last,end_mapped⟩ | ⟨last,unmapped⟩
    · rw [first,last]
      exact .inl ⟨rfl,mapped,end_mapped⟩
    · rw [first,last]
      exact .inr ⟨rfl,fun both => unmapped both.2⟩
  · rw [first]
    exact .inr ⟨rfl,fun both => unmapped both.1⟩

/-- Both calls make the same checks. -/
theorem syscall_write_read (rest : Except Int α) : syscall_write pd buffer length rest = syscall_read pd buffer length rest := rfl

/-- Whether a call gets past its checks: what follows them decides its result. -/
def Proceeds (call : Except Int Unit → Except Int Unit) : Prop := call (.ok ()) = .ok ()

theorem read_proceeds : Proceeds (syscall_read pd buffer length) ↔ Mapped pd buffer ∧ Mapped pd (buffer + length - 1) := by
  unfold Proceeds
  rcases syscall_read_spec pd buffer length (.ok ()) with ⟨passed,both⟩ | ⟨failed,not_both⟩
  · exact ⟨fun _ => both,fun _ => passed⟩
  · rw [failed]
    exact ⟨(fun passed => by cases passed),fun both => absurd both not_both⟩

theorem whole_ends (some : length ≠ 0) (whole : Whole pd buffer length) : Mapped pd buffer ∧ Mapped pd (buffer + length - 1) := by
  have positive : 0 < length.toNat := by bv_omega
  obtain ⟨first,start,mapped⟩ := whole 0 positive
  obtain ⟨last,stop,end_mapped⟩ := whole (length.toNat - 1) (by omega)
  have user := user_lt.mp end_mapped.1
  constructor
  · rwa [show buffer = first by bv_omega]
  · rwa [show buffer + length - 1 = last by bv_omega]

/-- A byte between the ends is on the first page, on the last page or between them. -/
theorem whole_of_pages (fits : buffer.toNat + length.toNat ≤ 2 ^ 32) (first : Mapped pd buffer)
    (last : Mapped pd (buffer + length - 1))
    (between : ∀ byte : Addr, pg_no buffer < pg_no byte → pg_no byte < pg_no (buffer + length - 1) → Present pd byte) :
    Whole pd buffer length := by
  intro i inside
  have stop : (buffer + length - 1).toNat = buffer.toNat + length.toNat - 1 := by bv_omega
  have user := user_lt.mp last.1
  obtain ⟨byte,named⟩ : ∃ byte : Addr, byte.toNat = buffer.toNat + i :=
    ⟨BitVec.ofNat 32 (buffer.toNat + i),by rw [BitVec.toNat_ofNat]; exact Nat.mod_eq_of_lt (by omega)⟩
  have below : byte < PHYS_BASE := user_lt.mpr (by omega)
  refine ⟨byte,named,?_⟩
  rcases Nat.lt_trichotomy (pg_no buffer).toNat (pg_no byte).toNat with after | same | before
  · rcases Nat.lt_trichotomy (pg_no byte).toNat (pg_no (buffer + length - 1)).toNat with inner | same | beyond
    · exact ⟨below,between byte (BitVec.lt_def.mpr after) (BitVec.lt_def.mpr inner)⟩
    · exact mapped_same_page (BitVec.eq_of_toNat_eq same.symm) below last
    · rw [pg_no_eq,pg_no_eq] at beyond
      omega
  · exact mapped_same_page (BitVec.eq_of_toNat_eq same) below first
  · rw [pg_no_eq,pg_no_eq] at before
    omega

theorem pages_of_whole (some : length ≠ 0) (whole : Whole pd buffer length) :
    buffer.toNat + length.toNat ≤ 2 ^ 32 ∧
    ∀ byte : Addr, pg_no buffer < pg_no byte → pg_no byte < pg_no (buffer + length - 1) → Present pd byte := by
  have positive : 0 < length.toNat := by bv_omega
  obtain ⟨last,stop,end_mapped⟩ := whole (length.toNat - 1) (by omega)
  have user := user_lt.mp end_mapped.1
  refine ⟨by omega,fun byte after before => ?_⟩
  rw [BitVec.lt_def,pg_no_eq,pg_no_eq] at after before
  have end_at : (buffer + length - 1).toNat = buffer.toNat + length.toNat - 1 := by bv_omega
  obtain ⟨same,named,mapped⟩ := whole (byte.toNat - buffer.toNat) (by omega)
  rw [show byte = same by bv_omega]
  exact mapped.2

/-- The checks of `syscall_read` and `syscall_write` pass for the buffers that are user
    memory, and for no others, exactly where `Sufficient` holds. -/
theorem checked_buffer_is_user_memory_iff (pd : PageDir) (buffer length : Addr) :
    ((Proceeds (syscall_read pd buffer length) ↔ Whole pd buffer length) ∧
      (Proceeds (syscall_write pd buffer length) ↔ Whole pd buffer length)) ↔ Sufficient pd buffer length := by
  have writes : Proceeds (syscall_write pd buffer length) ↔ Proceeds (syscall_read pd buffer length) := Iff.rfl
  rw [writes,and_self,read_proceeds,Sufficient]
  by_cases none : length = 0
  · subst none
    have whole : Whole pd buffer 0 := fun i inside => absurd inside (Nat.not_lt_zero i)
    rw [if_pos rfl,show buffer + (0 : Addr) = buffer from BitVec.add_zero buffer]
    exact ⟨fun agrees => agrees.mpr whole,fun both => ⟨fun _ => whole,fun _ => both⟩⟩
  · rw [if_neg none]
    constructor
    · intro agrees first last
      exact pages_of_whole none (agrees.mp ⟨first,last⟩)
    · intro sufficient
      constructor
      · rintro ⟨first,last⟩
        obtain ⟨fits,between⟩ := sufficient first last
        exact whole_of_pages fits first last between
      · exact whole_ends none

theorem four_megabytes : 0x400 ≤ 0x4000 := by decide

/-- A page directory with one page table, for the addresses from `0x08000000` on. -/
def one_table (pages : BitVec 32 → Bool) : PageDir where
  init_ram_pages := 0x400
  table i := if i = 0x20 then some (fun j => if pages j then 0x00200007 else 0) else none
  capped := four_megabytes
  in_ram := by
    intro i pt j found present
    split at found
    · cases found
      cases mapped : pages j with
      | true => simp [mapped,PTE_ADDR,PGSIZE]
      | false => simp [mapped] at present
    · cases found

instance (pd : PageDir) (a : Addr) : Decidable (Mapped pd a) := decidable_of_iff _ (is_valid_addr_spec pd a)

/-- With the pages `0x08048` and `0x0804a`: a buffer over the hole between them passes
    and a request for no bytes at the start of a page does not. A buffer that wraps
    passes where both of its ends are mapped. -/
theorem ends_do_not_suffice :
    (Proceeds (syscall_read (one_table fun j => j == 0x48 || j == 0x4a) 0x08048000 0x2001) ∧
      ¬ Whole (one_table fun j => j == 0x48 || j == 0x4a) 0x08048000 0x2001) ∧
    (¬ Proceeds (syscall_write (one_table fun j => j == 0x48) 0x08048000 0) ∧ Whole (one_table fun j => j == 0x48) 0x08048000 0) ∧
    (Proceeds (syscall_write (one_table fun j => j == 0x48) 0x08048010 0xffffffff) ∧
      ¬ Whole (one_table fun j => j == 0x48) 0x08048010 0xffffffff) := by
  refine ⟨⟨read_proceeds.mpr (by decide),fun whole => ?_⟩,⟨?_,fun i inside => absurd inside (Nat.not_lt_zero i)⟩,
    ⟨read_proceeds.mpr (by decide),fun whole => ?_⟩⟩
  · obtain ⟨byte,named,mapped⟩ := whole 0x1000 (by decide)
    rw [show byte = 0x08049000 from BitVec.eq_of_toNat_eq named] at mapped
    exact absurd mapped (by decide)
  · show ¬ Proceeds (syscall_read _ _ _)
    rw [read_proceeds]
    decide
  · obtain ⟨byte,named,mapped⟩ := whole 0xf0000000 (by decide)
    rw [show byte = 0xf8048010 from BitVec.eq_of_toNat_eq named] at mapped
    exact absurd mapped (by decide)

/-! ### The calls of a process with a page directory -/

/-- The memory of a process whose page directory is `pd`, in the model of the file
    system calls. -/
def user (pd : PageDir) (memory : UInt32 → UInt8) : Files.User where
  valid addr := is_valid_addr pd addr.toBitVec
  memory := memory

theorem validBuffer_proceeds (pd : PageDir) (memory : UInt32 → UInt8) (buffer length : UInt32) :
    Files.validBuffer (user pd memory) buffer length = true ↔ Proceeds (syscall_read pd buffer.toBitVec length.toBitVec) := by
  rw [read_proceeds,← is_valid_addr_spec,← is_valid_addr_spec,Files.validBuffer,Bool.and_eq_true]
  rfl

end Pintos.UserMemory
