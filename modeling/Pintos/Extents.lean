import Pintos.FileSystem
import Mathlib.Tactic.Common

/-!
What the loops of `inode_read_at` and `inode_write_at` do to the bytes of a file, with
and without a bounce buffer, and the records that the file system keeps on the device:
what is written of them is read back.
-/
namespace Pintos.FileSystem
open Pintos.Machines Pintos.Bitmaps
set_option linter.unusedSimpArgs false

/-- Byte `k` of the sectors from `start` on. -/
def content (data : Nat → Nat → Byte) (start k : Nat) : Byte := data (start + k / BLOCK_SECTOR_SIZE) (k % BLOCK_SECTOR_SIZE)

/-- Of `want` bytes at `offset` those that are transferred: without a bounce buffer
    only whole sectors, as long as they come first. -/
def transferred (bounce : Bool) (offset want : Nat) : Nat :=
  if bounce then want
  else if offset % BLOCK_SECTOR_SIZE = 0 then want / BLOCK_SECTOR_SIZE * BLOCK_SECTOR_SIZE else 0

/-- The bytes from `offset` on that a request may reach. -/
def reach (i : InodeDisk) (size offset : Nat) : Nat := min size (off_t i.length - offset)

/-- The bytes of an inode are on the device. -/
def Inside (d : Device) (i : InodeDisk) : Prop :=
  d.size < 2 ^ 31 ∧ ∀ pos < off_t i.length, i.start.toNat + pos / BLOCK_SECTOR_SIZE < d.size

/-- The same on any device whose sectors have numbers. -/
def OnDevice (d : Device) (i : InodeDisk) : Prop :=
  d.size ≤ 2 ^ 32 ∧ ∀ pos < off_t i.length, i.start.toNat + pos / BLOCK_SECTOR_SIZE < d.size

theorem on_device {d : Device} {i : InodeDisk} (inside : Inside d i) : OnDevice d i :=
  ⟨inside.1.le.trans (by decide),inside.2⟩

section
variable {d d' : Device} {i : InodeDisk} {bounce : Bool} {buffer : Nat → Byte} {n size offset bytes_written start k : Nat}
  {bytes : List Byte}

theorem transferred_le (bounce : Bool) (offset want : Nat) : transferred bounce offset want ≤ want := by
  rw [transferred,BLOCK_SECTOR_SIZE]
  split
  · exact Nat.le_refl _
  · split
    · omega
    · exact Nat.zero_le _

theorem transferred_true (offset want : Nat) : transferred true offset want = want := if_pos rfl

/-- Within one sector it is all or nothing. -/
theorem transferred_sector (bounce : Bool) {want : Nat} (within : offset % BLOCK_SECTOR_SIZE + want < BLOCK_SECTOR_SIZE) :
    transferred bounce offset want = if bounce then want else 0 := by
  rw [BLOCK_SECTOR_SIZE] at within
  rw [transferred,BLOCK_SECTOR_SIZE]
  split
  · rfl
  · split
    · omega
    · rfl

/-- Whole sectors need no bounce buffer. -/
theorem transferred_whole (bounce : Bool) {want : Nat} (whole : want % BLOCK_SECTOR_SIZE = 0) :
    transferred bounce 0 want = want := by
  rw [BLOCK_SECTOR_SIZE] at whole
  rw [transferred,BLOCK_SECTOR_SIZE,Nat.zero_mod,if_pos rfl]
  split
  · rfl
  · omega

theorem chunk_reach (i : InodeDisk) (size offset : Nat) :
    chunk i size offset = min (reach i size offset) (BLOCK_SECTOR_SIZE - offset % BLOCK_SECTOR_SIZE) := by
  rw [chunk,reach]
  omega

theorem reach_rest (i : InodeDisk) (size offset : Nat) :
    reach i (size - chunk i size offset) (offset + chunk i size offset) = reach i size offset - chunk i size offset := by
  rw [reach,reach]
  omega

theorem transferred_stop (stop : chunk i size offset = 0 ∨ ¬ Full i size offset ∧ bounce = false) :
    transferred bounce offset (reach i size offset) = 0 := by
  rw [Full,chunk_reach] at stop
  rw [transferred]
  rw [BLOCK_SECTOR_SIZE] at *
  rcases stop with none_ | ⟨partial_,rfl⟩
  · have zero : reach i size offset = 0 := by omega
    rw [zero]
    simp
  · rw [if_neg Bool.false_ne_true]
    split
    · next aligned =>
      rw [Nat.div_eq_of_lt,Nat.zero_mul]
      omega
    · rfl

theorem transferred_go (go : ¬ (¬ Full i size offset ∧ bounce = false)) :
    transferred bounce offset (reach i size offset) =
      chunk i size offset + transferred bounce (offset + chunk i size offset) (reach i size offset - chunk i size offset) := by
  rw [Full,chunk_reach] at go
  rw [transferred,transferred,chunk_reach]
  rw [BLOCK_SECTOR_SIZE] at *
  cases bounce with
  | true =>
    rw [if_pos rfl,if_pos rfl]
    omega
  | false =>
    rw [if_neg Bool.false_ne_true,if_neg Bool.false_ne_true]
    have full := Decidable.byContradiction fun partial_ => go ⟨partial_,rfl⟩
    rw [if_pos full.1,full.2,if_pos (by omega)]
    omega

theorem byte_to_sector_spec (inside : OnDevice d i) (below : offset < off_t i.length) :
    byte_to_sector i offset = i.start.toNat + offset / BLOCK_SECTOR_SIZE := by
  have bound := inside.2 offset below
  have small := inside.1
  rw [byte_to_sector,if_pos below,BitVec.toNat_add,BitVec.toNat_ofNat]
  generalize offset / BLOCK_SECTOR_SIZE = sector at bound
  omega

theorem chunk_below (some_ : chunk i size offset ≠ 0) : offset < off_t i.length := by
  rw [chunk] at some_
  omega

/-- The bytes of a chunk are in one sector. -/
theorem content_chunk (below : k < chunk i size offset) (data : Nat → Nat → Byte) (start : Nat) :
    content data start (offset + k) = data (start + offset / BLOCK_SECTOR_SIZE) (offset % BLOCK_SECTOR_SIZE + k) := by
  rw [chunk_reach] at below
  rw [content]
  rw [BLOCK_SECTOR_SIZE] at *
  rw [show (offset + k) / 512 = offset / 512 by omega,show (offset + k) % 512 = offset % 512 + k by omega]

/-- The loop runs with enough turns. -/
theorem readLoop_spec (inside : OnDevice d i) (enough : size ≤ n) :
    readLoop d i bounce n size offset bytes = some (bytes ++
      (List.range (transferred bounce offset (reach i size offset))).map fun k => content d.data i.start.toNat (offset + k)) := by
  induction n generalizing size offset bytes with
  | zero =>
    have zero : reach i size offset = 0 := by rw [reach]; omega
    have none_ : transferred bounce offset (reach i size offset) = 0 := Nat.le_zero.mp (zero ▸ transferred_le bounce offset _)
    rw [none_,readLoop]
    simp
  | succ n ih =>
    rw [readLoop]
    by_cases stop : chunk i size offset = 0 ∨ ¬ Full i size offset ∧ bounce = false
    · rw [transferred_stop stop,List.range_zero,List.map_nil,List.append_nil]
      rcases stop with none_ | short
      · rw [if_pos none_]
      · rw [if_pos short]
        split <;> rfl
    · have some_ : chunk i size offset ≠ 0 := fun none_ => stop (.inl none_)
      have go : ¬ (¬ Full i size offset ∧ bounce = false) := fun short => stop (.inr short)
      have below := chunk_below some_
      rw [if_neg some_,if_neg go,byte_to_sector_spec inside below,block_read,if_pos (inside.2 offset below),transferred_go go,
        ← reach_rest]
      simp only [Option.bind_eq_bind,Option.bind_some]
      rw [ih (by omega),List.append_assoc,List.range_add,List.map_append,List.map_map]
      refine congrArg (fun l => some (bytes ++ l)) (congrArg₂ _ ?_ ?_)
      · refine List.map_congr_left fun k member => ?_
        exact (content_chunk (List.mem_range.mp member) _ _).symm
      · refine List.map_congr_left fun k _ => ?_
        rw [Function.comp_apply,Nat.add_assoc]

/-- What a write of the bytes from `offset` on, up to `offset + n`, does to the device. -/
structure Written (d d' : Device) (i : InodeDisk) (buffer : Nat → Byte) (offset n : Nat) : Prop where
  size : d'.size = d.size
  outside : ∀ y, (∀ pos < off_t i.length, y ≠ i.start.toNat + pos / BLOCK_SECTOR_SIZE) → d'.data y = d.data y
  content : ∀ k, content d'.data i.start.toNat k =
    if offset ≤ k ∧ k < offset + n then buffer (k - offset) else content d.data i.start.toNat k

theorem written_none (d : Device) (i : InodeDisk) (buffer : Nat → Byte) (offset : Nat) : Written d d i buffer offset 0 where
  size := rfl
  outside _ _ := rfl
  content k := by rw [if_neg (by omega)]

theorem written_append {m : Nat} {d'' : Device} (first : Written d d' i buffer offset n)
    (later : Written d' d'' i (fun k => buffer (n + k)) (offset + n) m) : Written d d'' i buffer offset (n + m) where
  size := later.size.trans first.size
  outside y out := (later.outside y out).trans (first.outside y out)
  content k := by
    rw [later.content,first.content]
    by_cases after : offset + n ≤ k ∧ k < offset + n + m
    · rw [if_pos after,if_pos (by omega),show n + (k - (offset + n)) = k - offset by omega]
    · rw [if_neg after]
      by_cases before : offset ≤ k ∧ k < offset + n
      · rw [if_pos before,if_pos (by omega)]
      · rw [if_neg before,if_neg (by omega)]

theorem block_write_spec (inside : OnDevice d i) (below : offset < off_t i.length) (sector : Nat → Byte)
    (same : ∀ o < BLOCK_SECTOR_SIZE, sector o =
      if offset % BLOCK_SECTOR_SIZE ≤ o ∧ o < offset % BLOCK_SECTOR_SIZE + chunk i size offset then buffer (o - offset % BLOCK_SECTOR_SIZE)
      else d.data (i.start.toNat + offset / BLOCK_SECTOR_SIZE) o) :
    ∃ d', block_write d (byte_to_sector i offset) sector = some d' ∧ Written d d' i buffer offset (chunk i size offset) := by
  rw [byte_to_sector_spec inside below,block_write,if_pos (inside.2 offset below)]
  refine ⟨_,rfl,rfl,fun y outside => Function.update_of_ne (outside offset below) _ _,fun k => ?_⟩
  have bound : chunk i size offset ≤ BLOCK_SECTOR_SIZE - offset % BLOCK_SECTOR_SIZE := by
    rw [chunk]
    omega
  rw [FileSystem.content,FileSystem.content]
  show Function.update d.data (i.start.toNat + offset / BLOCK_SECTOR_SIZE) sector (i.start.toNat + k / BLOCK_SECTOR_SIZE) _ = _
  by_cases mine : k / BLOCK_SECTOR_SIZE = offset / BLOCK_SECTOR_SIZE
  · rw [mine,Function.update_self,same _ (Nat.mod_lt k (by decide))]
    rw [BLOCK_SECTOR_SIZE] at *
    by_cases here : offset ≤ k ∧ k < offset + chunk i size offset
    · rw [if_pos (by omega),if_pos here,show k % 512 - offset % 512 = k - offset by omega]
    · rw [if_neg (by omega),if_neg here]
  · rw [Function.update_of_ne fun equal => mine (Nat.add_left_cancel equal)]
    rw [BLOCK_SECTOR_SIZE] at *
    rw [if_neg (by omega)]

theorem write_chunk_spec (inside : OnDevice d i) (below : offset < off_t i.length) (buffer : Nat → Byte) (size : Nat) :
    ∃ d', write_chunk d i buffer size offset = some d' ∧ Written d d' i buffer offset (chunk i size offset) := by
  rw [write_chunk]
  by_cases full : Full i size offset
  · rw [if_pos full]
    refine block_write_spec inside below _ fun o inSector => ?_
    rw [full.1,full.2,Nat.zero_add,if_pos ⟨Nat.zero_le o,inSector⟩,Nat.sub_zero]
  · -- A sector that is filled from its start to its end is full.
    have short : offset % BLOCK_SECTOR_SIZE > 0 ∨ chunk i size offset < BLOCK_SECTOR_SIZE - offset % BLOCK_SECTOR_SIZE := by
      rw [Full,chunk] at full
      rw [chunk]
      rw [BLOCK_SECTOR_SIZE] at *
      omega
    have read : block_read d (byte_to_sector i offset) = some (d.data (i.start.toNat + offset / BLOCK_SECTOR_SIZE)) := by
      rw [byte_to_sector_spec inside below,block_read,if_pos (inside.2 offset below)]
    rw [if_neg full,if_pos short,read,Option.bind_some]
    exact block_write_spec inside below _ fun o _ => rfl

theorem writeLoop_spec (inside : OnDevice d i) (enough : size ≤ n) :
    ∃ d', writeLoop i bounce buffer n size offset bytes_written d =
        some (bytes_written + transferred bounce offset (reach i size offset),d') ∧
      Written d d' i (fun k => buffer (bytes_written + k)) offset (transferred bounce offset (reach i size offset)) := by
  induction n generalizing size offset bytes_written d with
  | zero =>
    have zero : reach i size offset = 0 := by rw [reach]; omega
    have none_ : transferred bounce offset (reach i size offset) = 0 := Nat.le_zero.mp (zero ▸ transferred_le bounce offset _)
    rw [none_]
    exact ⟨d,rfl,written_none d i _ offset⟩
  | succ n ih =>
    rw [writeLoop]
    by_cases stop : chunk i size offset = 0 ∨ ¬ Full i size offset ∧ bounce = false
    · rw [transferred_stop stop]
      refine ⟨d,?_,written_none d i _ offset⟩
      rcases stop with none_ | short
      · rw [if_pos none_]
        rfl
      · rw [if_pos short]
        split <;> rfl
    · have some_ : chunk i size offset ≠ 0 := fun none_ => stop (.inl none_)
      have go : ¬ (¬ Full i size offset ∧ bounce = false) := fun short => stop (.inr short)
      obtain ⟨d₁,wrote,first⟩ := write_chunk_spec inside (chunk_below some_) (fun o => buffer (bytes_written + o)) size
      have inside₁ : OnDevice d₁ i := by
        rw [OnDevice,first.size]
        exact inside
      obtain ⟨d₂,ran,later⟩ := @ih d₁ (size - chunk i size offset) (offset + chunk i size offset) (bytes_written + chunk i size offset) inside₁
        (by omega)
      rw [transferred_go go,← reach_rest,← Nat.add_assoc]
      refine ⟨d₂,?_,written_append first ?_⟩
      · rw [if_neg some_,if_neg go,wrote]
        exact ran
      · simpa only [Nat.add_assoc] using later

/-- Nothing is transferred, and nothing is written. -/
theorem writeLoop_none (d : Device) (buffer : Nat → Byte) (n bytes_written : Nat)
    (none_ : transferred bounce offset (reach i size offset) = 0) :
    writeLoop i bounce buffer n size offset bytes_written d = some (bytes_written,d) := by
  cases n with
  | zero => rfl
  | succ n =>
    rw [writeLoop]
    by_cases stop : chunk i size offset = 0
    · rw [if_pos stop]
    · rw [if_neg stop]
      by_cases short : ¬ Full i size offset ∧ bounce = false
      · rw [if_pos short]
      · rw [transferred_go short] at none_
        omega

/-! ### Sizes -/

theorem off_t_eq {x : BitVec 32} (small : x.toNat < 2 ^ 31) : off_t x = x.toNat := by
  rw [off_t,BitVec.toInt_eq_toNat_of_lt (by omega),Int.toNat_natCast]

/-- The rounding is right, or the size is so near the greatest `off_t` that it overflows
    to more sectors than there are. -/
theorem bytes_to_sectors_spec {x : BitVec 32} (nonnegative : 0 ≤ x.toInt) :
    (x.toNat + 511 < 2 ^ 31 ∧ bytes_to_sectors x = (x.toNat + 511) / 512) ∨
    (2 ^ 31 ≤ x.toNat + 511 ∧ 2 ^ 31 ≤ bytes_to_sectors x) := by
  have half : x.toNat < 2 ^ 31 := by
    rw [BitVec.toInt_eq_toNat_cond] at nonnegative
    have bound := x.isLt
    split at nonnegative
    · omega
    · omega
  have sum : (x + 512#32 - 1#32).toNat = x.toNat + 511 := by
    rw [BitVec.toNat_sub,BitVec.toNat_add,BitVec.toNat_ofNat,BitVec.toNat_ofNat]
    omega
  have even : (512#32).msb = false := by decide
  rw [bytes_to_sectors,BitVec.sdiv_eq]
  by_cases fits : x.toNat + 511 < 2 ^ 31
  · refine .inl ⟨fits,?_⟩
    have positive : (x + 512#32 - 1#32).msb = false := by
      have small : 2 * (x.toNat + 511) < 2 ^ 32 := Nat.lt_of_lt_of_le (Nat.mul_lt_mul_of_pos_left fits (by decide)) (by decide)
      refine BitVec.msb_eq_false_iff_two_mul_lt.mpr ?_
      rw [sum]
      exact small
    simp only [positive,even]
    rw [BitVec.udiv_eq,BitVec.toNat_udiv,sum]
    rfl
  · refine .inr ⟨by omega,?_⟩
    have negative : (x + 512#32 - 1#32).msb = true := by
      rw [BitVec.msb_eq_true_iff_two_mul_ge,sum]
      omega
    simp only [negative,even]
    rw [BitVec.toNat_neg,BitVec.udiv_eq,BitVec.toNat_udiv,BitVec.toNat_neg,sum,BitVec.toNat_ofNat]
    simp only [Nat.reducePow,Nat.reduceMod] at *
    omega

/-! ### Records -/

theorem inode_disk_bytes (i : InodeDisk) : inode_disk i.bytes = i := by
  have start : word_of i.bytes = i.start := by
    rw [← word_of_byte_of i.start]
    exact word_of_congr fun k below => if_pos below
  have length : (word_of fun k => i.bytes (4 + k)) = i.length := by
    rw [← word_of_byte_of i.length]
    refine word_of_congr fun k below => ?_
    rw [InodeDisk.bytes,if_neg (by omega),if_pos (by omega),Nat.add_sub_cancel_left]
  have magic : (word_of fun k => i.bytes (8 + k)) = i.magic := by
    rw [← word_of_byte_of i.magic]
    refine word_of_congr fun k below => ?_
    rw [InodeDisk.bytes,if_neg (by omega),if_neg (by omega),if_pos (by omega),Nat.add_sub_cancel_left]
  rw [inode_disk,start,length,magic]

theorem range_getD {m : Nat} {v : Byte} (f : Nat → Byte) (below : k < m) : ((List.range m).map f).getD k v = f k := by
  simp [List.getD,below]

theorem dir_entry_bytes (e : DirEntry) : dir_entry ((List.range sizeof_dir_entry).map e.bytes) = e := by
  have sector : (word_of fun k => ((List.range sizeof_dir_entry).map e.bytes).getD k 0#8) = e.inode_sector := by
    rw [← word_of_byte_of e.inode_sector]
    refine word_of_congr fun k below => ?_
    rw [range_getD _ (by rw [sizeof_dir_entry]; omega),DirEntry.bytes,if_pos below]
  have name : (fun k : Fin (NAME_MAX + 1) => ((List.range sizeof_dir_entry).map e.bytes).getD (4 + k) 0#8) = e.name := by
    funext k
    have below : k.val < NAME_MAX + 1 := k.isLt
    have inside : 4 + k.val < sizeof_dir_entry := by
      simp only [NAME_MAX,sizeof_dir_entry] at below ⊢
      omega
    rw [range_getD _ inside,DirEntry.bytes,if_neg (by omega)]
    simp only [Nat.add_sub_cancel_left,below,↓reduceDIte]
  have in_use : decide (((List.range sizeof_dir_entry).map e.bytes).getD 19 0#8 ≠ 0#8) = e.in_use := by
    rw [range_getD _ (by decide),DirEntry.bytes,if_neg (by decide),dif_neg (by decide)]
    cases e.in_use <;> rfl
  rw [dir_entry,sector,name,in_use]
end

end Pintos.FileSystem
