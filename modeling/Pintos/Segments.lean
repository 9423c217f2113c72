import Pintos.UserMemory

/-!
The segments of an executable: `validate_segment`, the sizes that `load` derives
from a program header, and the loop of `load_segment`. All arithmetic is on words.

What one turn of the loop does with its page is an argument, over any state: the loop
goes on while the turns succeed. `turns` lists them.
-/
namespace Pintos.Segments
open Pintos.UserMemory
set_option linter.unusedSimpArgs false
universe u

/-- `struct Elf32_Phdr`; `p_paddr` and `p_align` are never read. -/
structure Elf32_Phdr where
  p_type : BitVec 32
  p_offset : BitVec 32
  p_vaddr : BitVec 32
  p_filesz : BitVec 32
  p_memsz : BitVec 32
  p_flags : BitVec 32
deriving DecidableEq

def PF_W : BitVec 32 := 2
def page_size : BitVec 32 := 4096
def ROUND_UP (x step : BitVec 32) : BitVec 32 := (x + step - 1) / step * step

/-- `validate_segment`, given what `file_length` returns. -/
def validate_segment (phdr : Elf32_Phdr) (file_length : BitVec 32) : Bool :=
  if phdr.p_offset &&& PGMASK ≠ phdr.p_vaddr &&& PGMASK then false
  else if phdr.p_offset > file_length then false
  else if phdr.p_memsz < phdr.p_filesz then false
  else if phdr.p_memsz = 0 then false
  else if !is_user_vaddr phdr.p_vaddr then false
  else if !is_user_vaddr (phdr.p_vaddr + phdr.p_memsz) then false
  else if phdr.p_vaddr + phdr.p_memsz < phdr.p_vaddr then false
  else if phdr.p_vaddr < page_size then false
  else true

def file_page (phdr : Elf32_Phdr) : BitVec 32 := phdr.p_offset &&& ~~~PGMASK
def mem_page (phdr : Elf32_Phdr) : BitVec 32 := phdr.p_vaddr &&& ~~~PGMASK
def page_offset (phdr : Elf32_Phdr) : BitVec 32 := phdr.p_vaddr &&& PGMASK
def writable (phdr : Elf32_Phdr) : Bool := decide (phdr.p_flags &&& PF_W ≠ 0)
def read_bytes (phdr : Elf32_Phdr) : BitVec 32 := if phdr.p_filesz > 0 then page_offset phdr + phdr.p_filesz else 0
def zero_bytes (phdr : Elf32_Phdr) : BitVec 32 :=
  if phdr.p_filesz > 0 then ROUND_UP (page_offset phdr + phdr.p_memsz) page_size - read_bytes phdr
  else ROUND_UP (page_offset phdr + phdr.p_memsz) page_size

/-- One turn of the loop of `load_segment`: the counters it finds, and how it fills its
    page. -/
structure Turn where
  upage : Addr
  read_bytes : BitVec 32
  zero_bytes : BitVec 32
deriving DecidableEq

def Turn.page_read_bytes (t : Turn) : BitVec 32 := if t.read_bytes < page_size then t.read_bytes else page_size
def Turn.page_zero_bytes (t : Turn) : BitVec 32 := page_size - t.page_read_bytes
def Turn.advance (t : Turn) : Turn where
  upage := t.upage + page_size
  read_bytes := t.read_bytes - t.page_read_bytes
  zero_bytes := t.zero_bytes - t.page_zero_bytes

/-- The loop; a turn that gives no state makes it return false. -/
def load_pages {σ : Type u} (page : σ → Turn → Option σ) : Nat → σ → Turn → Option (Bool × σ)
  | 0, _, _ => none
  | n + 1, s, t =>
    if t.read_bytes > 0 ∨ t.zero_bytes > 0 then
      match page s t with
      | none => some (false,s)
      | some s => load_pages page n s t.advance
    else some (true,s)

/-- More than a segment has pages. -/
def limit : Nat := 2 ^ 20

/-- The three assertions that `load_segment` begins with; the offset is an `off_t`. -/
def asserts (ofs : BitVec 32) (t : Turn) : Bool :=
  decide ((t.read_bytes + t.zero_bytes) % page_size = 0) && decide (pg_ofs t.upage = 0) && decide (BitVec.srem ofs page_size = 0)

/-- The first turn for a program header. -/
def first (phdr : Elf32_Phdr) : Turn where
  upage := mem_page phdr
  read_bytes := read_bytes phdr
  zero_bytes := zero_bytes phdr

/-- All turns, when none of them fails. -/
def turns : Nat → Turn → List Turn
  | 0, _ => []
  | n + 1, t => t :: turns n t.advance

/-- The loop over a list of turns that is known. -/
def run_turns {σ : Type u} (page : σ → Turn → Option σ) : σ → List Turn → Bool × σ
  | s, [] => (true,s)
  | s, t :: rest =>
    match page s t with
    | none => (false,s)
    | some s => run_turns page s rest

/-- How many pages a segment takes. -/
def page_count (phdr : Elf32_Phdr) : Nat := (read_bytes phdr + zero_bytes phdr).toNat / 4096

variable {phdr : Elf32_Phdr} {file_length : BitVec 32} {t : Turn} {x : BitVec 32} {σ : Type u}

/-! ### Arithmetic -/

theorem and_not_pgmask (x : BitVec 32) : (x &&& ~~~PGMASK).toNat = x.toNat / 4096 * 4096 := by
  have sum : (x &&& PGMASK) + (x &&& ~~~PGMASK) = x := by
    rw [BitVec.add_eq_or_of_and_eq_zero]
    · rw [← BitVec.and_or_distrib_left,BitVec.or_not_self,BitVec.and_allOnes]
    · refine BitVec.eq_of_getLsbD_eq fun i _ => ?_
      simp only [BitVec.getLsbD_and,BitVec.getLsbD_not,BitVec.getLsbD_zero]
      cases x.getLsbD i <;> cases PGMASK.getLsbD i <;> simp
  have low := and_pgmask x
  have whole := congrArg BitVec.toNat sum
  bv_omega

theorem round_up (small : x.toNat ≤ 0xc0000000) : (ROUND_UP x page_size).toNat = (x.toNat + 4095) / 4096 * 4096 := by
  have sum : (x + page_size - 1).toNat = x.toNat + 4095 := by
    rw [page_size]
    bv_omega
  rw [ROUND_UP,BitVec.toNat_mul,BitVec.toNat_udiv,sum]
  show (x.toNat + 4095) / 4096 * 4096 % 2 ^ 32 = _
  omega

/-- What a valid program header says. -/
structure Valid (phdr : Elf32_Phdr) (file_length : BitVec 32) : Prop where
  offset : phdr.p_offset.toNat % 4096 = phdr.p_vaddr.toNat % 4096
  inside : phdr.p_offset.toNat ≤ file_length.toNat
  covers : phdr.p_filesz.toNat ≤ phdr.p_memsz.toNat
  nonempty : 0 < phdr.p_memsz.toNat
  user : phdr.p_vaddr.toNat + phdr.p_memsz.toNat < 0xc0000000
  not_first : 4096 ≤ phdr.p_vaddr.toNat

theorem validate_segment_spec : validate_segment phdr file_length = true ↔ Valid phdr file_length := by
  have same : phdr.p_offset &&& PGMASK = phdr.p_vaddr &&& PGMASK ↔ phdr.p_offset.toNat % 4096 = phdr.p_vaddr.toNat % 4096 := by
    rw [← BitVec.toNat_inj,and_pgmask,and_pgmask]
  have start : is_user_vaddr phdr.p_vaddr = true ↔ phdr.p_vaddr.toNat < 0xc0000000 := by
    rw [is_user_vaddr,decide_eq_true_iff,user_lt]
  have stop : is_user_vaddr (phdr.p_vaddr + phdr.p_memsz) = true ↔ (phdr.p_vaddr + phdr.p_memsz).toNat < 0xc0000000 := by
    rw [is_user_vaddr,decide_eq_true_iff,user_lt]
  unfold validate_segment
  constructor
  · intro valid
    split_ifs at valid with offset inside covers empty user user_end wraps null
    rw [Bool.not_eq_true',Bool.not_eq_false] at user user_end
    rw [start] at user
    rw [stop] at user_end
    rw [page_size] at null
    have nonzero : phdr.p_memsz.toNat ≠ 0 := fun zero => empty (BitVec.eq_of_toNat_eq zero)
    exact ⟨same.mp (not_not.mp offset),by bv_omega,by bv_omega,by omega,by bv_omega,by bv_omega⟩
  · rintro ⟨offset,inside,covers,nonempty,user,not_first⟩
    have sum : (phdr.p_vaddr + phdr.p_memsz).toNat = phdr.p_vaddr.toNat + phdr.p_memsz.toNat := by bv_omega
    have nonzero : phdr.p_memsz ≠ 0 := by
      intro zero
      rw [zero] at nonempty
      exact absurd nonempty (by decide)
    rw [if_neg (not_not.mpr (same.mpr offset)),if_neg (by bv_omega),if_neg (by bv_omega),if_neg nonzero,
      if_neg (by simpa using start.mpr (by omega)),if_neg (by simpa using stop.mpr (by omega)),if_neg (by bv_omega),
      if_neg (by rw [page_size]; bv_omega)]

/-! ### Sizes -/

/-- What `load` computes for a valid header, as numbers. -/
theorem sizes (valid : Valid phdr file_length) :
    (mem_page phdr).toNat = phdr.p_vaddr.toNat / 4096 * 4096 ∧ (page_offset phdr).toNat = phdr.p_vaddr.toNat % 4096 ∧
    (read_bytes phdr).toNat = (if phdr.p_filesz = 0 then 0 else phdr.p_vaddr.toNat % 4096 + phdr.p_filesz.toNat) ∧
    (read_bytes phdr).toNat + (zero_bytes phdr).toNat =
      (phdr.p_vaddr.toNat % 4096 + phdr.p_memsz.toNat + 4095) / 4096 * 4096 := by
  obtain ⟨offset,inside,covers,nonempty,user,not_first⟩ := valid
  have low : (page_offset phdr).toNat = phdr.p_vaddr.toNat % 4096 := and_pgmask _
  have total : (page_offset phdr + phdr.p_memsz).toNat = phdr.p_vaddr.toNat % 4096 + phdr.p_memsz.toNat := by bv_omega
  have rounded : (ROUND_UP (page_offset phdr + phdr.p_memsz) page_size).toNat =
      (phdr.p_vaddr.toNat % 4096 + phdr.p_memsz.toNat + 4095) / 4096 * 4096 := by
    rw [round_up (by omega),total]
  refine ⟨and_not_pgmask _,low,?_⟩
  rw [zero_bytes,read_bytes]
  by_cases none : phdr.p_filesz = 0
  · have zero : ¬ phdr.p_filesz > 0 := by
      rw [none]
      decide
    rw [if_neg zero,if_neg zero,if_pos none,rounded]
    exact ⟨rfl,Nat.zero_add _⟩
  · have some : phdr.p_filesz > 0 := by bv_omega
    rw [if_pos some,if_pos some,if_neg none]
    have read : (page_offset phdr + phdr.p_filesz).toNat = phdr.p_vaddr.toNat % 4096 + phdr.p_filesz.toNat := by bv_omega
    refine ⟨read,?_⟩
    rw [BitVec.toNat_sub_of_le (by rw [BitVec.le_def,rounded,read]; omega),rounded,read]
    omega

/-! ### Turns -/

/-- What holds of the counters at each turn: they add up to whole pages, which end in
    user space. -/
structure Whole (t : Turn) (n : Nat) : Prop where
  total : t.read_bytes.toNat + t.zero_bytes.toNat = 4096 * n
  low : 4096 ≤ t.upage.toNat
  aligned : t.upage.toNat % 4096 = 0
  high : t.upage.toNat + 4096 * n ≤ 0xc0000000

/-- A turn reads and zeroes no more than is left. -/
theorem turn_fits {n : Nat} (whole : Whole t (n + 1)) :
    t.page_read_bytes.toNat = min t.read_bytes.toNat 4096 ∧ t.page_read_bytes.toNat + t.page_zero_bytes.toNat = 4096 ∧
    t.page_read_bytes ≤ t.read_bytes ∧ t.page_zero_bytes ≤ t.zero_bytes := by
  have total := whole.total
  rw [Turn.page_zero_bytes,Turn.page_read_bytes,page_size]
  by_cases less : t.read_bytes < (4096 : BitVec 32)
  · rw [if_pos less]
    refine ⟨by bv_omega,by bv_omega,by bv_omega,by bv_omega⟩
  · rw [if_neg less]
    refine ⟨by bv_omega,by bv_omega,by bv_omega,by bv_omega⟩

theorem whole_advance {n : Nat} (whole : Whole t (n + 1)) : Whole t.advance n := by
  obtain ⟨read,sum,less,less_zero⟩ := turn_fits whole
  obtain ⟨total,low,aligned,high⟩ := whole
  have next : t.advance.upage.toNat = t.upage.toNat + 4096 := by
    rw [Turn.advance,page_size]
    bv_omega
  have reads : t.advance.read_bytes.toNat = t.read_bytes.toNat - t.page_read_bytes.toNat := BitVec.toNat_sub_of_le less
  have zeroes : t.advance.zero_bytes.toNat = t.zero_bytes.toNat - t.page_zero_bytes.toNat := BitVec.toNat_sub_of_le less_zero
  rw [BitVec.le_def] at less less_zero
  constructor
  · omega
  · rw [next]
    exact Nat.le_trans low (Nat.le_add_right _ _)
  · omega
  · omega

theorem whole_positive {n : Nat} (whole : Whole t (n + 1)) : t.read_bytes > 0 ∨ t.zero_bytes > 0 := by
  have total := whole.total
  bv_omega

theorem load_pages_turns (page : σ → Turn → Option σ) {n k : Nat} (whole : Whole t n) (enough : n < k) (s : σ) :
    load_pages page k s t = some (run_turns page s (turns n t)) := by
  induction k generalizing n s t with
  | zero => omega
  | succ k ih =>
    rw [load_pages]
    cases n with
    | zero =>
      have total := whole.total
      rw [if_neg (by bv_omega)]
      rfl
    | succ n =>
      rw [if_pos (whole_positive whole),turns,run_turns]
      cases page s t with
      | none => rfl
      | some s => exact ih (whole_advance whole) (by omega) s

theorem turns_length (n : Nat) (t : Turn) : (turns n t).length = n := by
  induction n generalizing t with
  | zero => rfl
  | succ n ih => rw [turns,List.length_cons,ih]

/-- What every turn of a segment does with its counters and its page. -/
theorem turns_fit {n : Nat} (whole : Whole t n) : ∀ u ∈ turns n t,
    u.page_read_bytes ≤ u.read_bytes ∧ u.page_zero_bytes ≤ u.zero_bytes ∧ 4096 ≤ u.upage.toNat ∧
    u.upage.toNat + 4096 ≤ PHYS_BASE.toNat := by
  induction n generalizing t with
  | zero => exact fun u member => by cases member
  | succ n ih =>
    intro u member
    rcases List.mem_cons.mp member with same | later
    · subst same
      obtain ⟨_,_,less,less_zero⟩ := turn_fits whole
      have page : u.upage.toNat + 4096 ≤ u.upage.toNat + 4096 * (n + 1) := by omega
      exact ⟨less,less_zero,whole.low,Nat.le_trans page whole.high⟩
    · exact ih (whole_advance whole) u later

theorem first_whole (valid : Valid phdr file_length) : Whole (first phdr) (page_count phdr) ∧ 0 < page_count phdr := by
  obtain ⟨base,_,_,total⟩ := sizes valid
  obtain ⟨offset,inside,covers,nonempty,user,not_first⟩ := valid
  have sum : (read_bytes phdr + zero_bytes phdr).toNat = (read_bytes phdr).toNat + (zero_bytes phdr).toNat := by bv_omega
  have count : page_count phdr = (phdr.p_vaddr.toNat % 4096 + phdr.p_memsz.toNat + 4095) / 4096 := by
    rw [page_count,sum,total]
    omega
  refine ⟨⟨?_,?_,?_,?_⟩,by omega⟩
  · show (read_bytes phdr).toNat + (zero_bytes phdr).toNat = _
    omega
  · show 4096 ≤ (mem_page phdr).toNat
    omega
  · show (mem_page phdr).toNat % 4096 = 0
    omega
  · show (mem_page phdr).toNat + _ ≤ _
    omega

theorem file_page_aligned (phdr : Elf32_Phdr) : BitVec.srem (file_page phdr) page_size = 0 := by
  have multiple := and_not_pgmask phdr.p_offset
  refine BitVec.eq_of_toInt_eq ?_
  rw [BitVec.toInt_srem]
  refine Int.tmod_eq_zero_of_dvd ?_
  show (4096 : Int) ∣ (file_page phdr).toInt
  rw [BitVec.toInt_eq_toNat_cond,file_page]
  split
  · omega
  · omega

/-- For every program header that `validate_segment` accepts, with any file length: the
    counters are computed without wrapping, and add up to a positive number of whole
    pages; the assertions of `load_segment` hold; its loop makes one turn for each page,
    unless a turn fails, takes no more from a counter than is in it, and touches only
    pages of user space other than the first. -/
theorem segment_arithmetic (phdr : Elf32_Phdr) (file_length : BitVec 32) (valid : validate_segment phdr file_length = true) :
    (read_bytes phdr).toNat = (if phdr.p_filesz = 0 then 0 else (page_offset phdr).toNat + phdr.p_filesz.toNat) ∧
    (read_bytes phdr).toNat + (zero_bytes phdr).toNat = ((page_offset phdr).toNat + phdr.p_memsz.toNat + 4095) / 4096 * 4096 ∧
    (read_bytes phdr + zero_bytes phdr).toNat = (read_bytes phdr).toNat + (zero_bytes phdr).toNat ∧
    (read_bytes phdr + zero_bytes phdr).toNat = 4096 * page_count phdr ∧ 0 < page_count phdr ∧
    asserts (file_page phdr) (first phdr) = true ∧
    (turns (page_count phdr) (first phdr)).length = page_count phdr ∧
    (∀ (σ : Type u) (page : σ → Turn → Option σ) (s : σ),
      load_pages page limit s (first phdr) = some (run_turns page s (turns (page_count phdr) (first phdr)))) ∧
    ∀ t ∈ turns (page_count phdr) (first phdr), t.page_read_bytes ≤ t.read_bytes ∧ t.page_zero_bytes ≤ t.zero_bytes ∧
      4096 ≤ t.upage.toNat ∧ t.upage.toNat + 4096 ≤ PHYS_BASE.toNat := by
  have valid := validate_segment_spec.mp valid
  obtain ⟨whole,positive⟩ := first_whole valid
  obtain ⟨base,low,read,total⟩ := sizes valid
  have count := whole.total
  have high := whole.high
  have sum : (read_bytes phdr + zero_bytes phdr).toNat = (read_bytes phdr).toNat + (zero_bytes phdr).toNat := by
    rw [BitVec.toNat_add]
    refine Nat.mod_eq_of_lt ?_
    have top : (read_bytes phdr).toNat + (zero_bytes phdr).toNat = 4096 * page_count phdr := count
    omega
  have multiple : (read_bytes phdr + zero_bytes phdr).toNat = 4096 * page_count phdr := sum.trans count
  refine ⟨by rw [read,low],by rw [total,low],sum,multiple,positive,?_,turns_length _ _,fun σ page s => ?_,turns_fit whole⟩
  · rw [asserts,Bool.and_eq_true,Bool.and_eq_true,decide_eq_true_iff,decide_eq_true_iff,decide_eq_true_iff]
    refine ⟨⟨BitVec.eq_of_toNat_eq ?_,BitVec.eq_of_toNat_eq ?_⟩,file_page_aligned phdr⟩
    · rw [BitVec.toNat_umod]
      show (read_bytes phdr + zero_bytes phdr).toNat % 4096 = 0
      omega
    · rw [pg_ofs,and_pgmask]
      exact whole.aligned
  · refine load_pages_turns page whole ?_ s
    rw [limit]
    omega

/-- A segment of one byte of the file and two pages of memory. -/
def small : Elf32_Phdr where
  p_type := 1
  p_offset := 0x10
  p_vaddr := 0x08048010
  p_filesz := 1
  p_memsz := 0x1000
  p_flags := 4

theorem segment_arithmetic_small : validate_segment small 17 = true ∧
    (read_bytes small + zero_bytes small).toNat = 4096 * page_count small ∧
    0 < page_count small ∧ asserts (file_page small) (first small) = true := by
  obtain ⟨_,_,_,whole,some,asserted,_⟩ := segment_arithmetic.{0} small 17 (by decide)
  exact ⟨by decide,whole,some,asserted⟩

end Pintos.Segments
