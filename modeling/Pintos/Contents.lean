import Pintos.Inodes

/-!
An inode is a flat array of bytes: its data sectors one after the other, cut at its length. A read
and a write are a read and a write of this array, whichever sectors they take and whichever way
they take them, and a write touches no other byte of the device.
-/
namespace Pintos.FileSystem
open Pintos.Machines Pintos.Bitmaps
set_option linter.unusedSimpArgs false
variable {s : FileSystem} {d d' : Device} {i : InodeDisk} {n : Inode} {a : Nat} {buffer : Nat → Byte}

/-- The data sectors of an inode. -/
def data_sectors (d : Device) (i : InodeDisk) : List (List Byte) :=
  (List.range ((off_t i.length + (BLOCK_SECTOR_SIZE - 1)) / BLOCK_SECTOR_SIZE)).map fun k =>
    (List.range BLOCK_SECTOR_SIZE).map (d.data (i.start.toNat + k))
def contents (d : Device) (i : InodeDisk) : List Byte := (data_sectors d i).flatten.take (off_t i.length)

/-- Rows of one length, one after the other. -/
theorem flatten_rows {β : Type} (f : Nat → Nat → β) (size m : Nat) (positive : 0 < size) :
    ((List.range m).map fun k => (List.range size).map (f k)).flatten = (List.range (m * size)).map fun j => f (j / size)
    (j % size) := by
  induction m with
  | zero => simp
  | succ m ih =>
    rw [List.range_succ,List.map_append,List.flatten_append,ih,Nat.add_mul,Nat.one_mul,List.range_add,List.map_append]
    congr 1
    rw [List.map_singleton,List.flatten_singleton,List.map_map]
    refine List.map_congr_left fun j member => ?_
    have below := List.mem_range.mp member
    rw [Function.comp_apply,Nat.mul_comm m,Nat.mul_add_div positive,Nat.div_eq_of_lt below,Nat.add_zero,Nat.mul_add_mod,
      Nat.mod_eq_of_lt below]

theorem contents_eq (d : Device) (i : InodeDisk) : contents d i = (List.range (off_t i.length)).map (content d.data i.start.toNat) := by
  rw [contents,data_sectors,flatten_rows (fun k => d.data (i.start.toNat + k)) _ _ (by decide),← List.map_take,List.take_range]
  congr 2
  rw [BLOCK_SECTOR_SIZE]
  omega

theorem contents_length (d : Device) (i : InodeDisk) : (contents d i).length = off_t i.length := by
  rw [contents_eq,List.length_map,List.length_range]

/-- A range of the array. -/
theorem contents_range (d : Device) (i : InodeDisk) (size offset : Nat) :
    ((contents d i).drop offset).take size =
      (List.range (reach i size offset)).map fun k => content d.data i.start.toNat (offset + k) := by
  apply List.ext_getElem
  · simp [contents_length,reach]
  · intro k left right
    simp [contents_eq]

/-- Only the bytes of the range are written, by number of sector and place in it. -/
theorem written_bytes {offset amount : Nat} (written : Written d d' i buffer offset amount) {y o : Nat}
    (place : o < BLOCK_SECTOR_SIZE)
    (other : ∀ k, offset ≤ k → k < offset + amount → ¬(y = i.start.toNat + k / BLOCK_SECTOR_SIZE ∧ o = k % BLOCK_SECTOR_SIZE)) :
    d'.data y o = d.data y o := by
  by_cases inside : ∃ pos < off_t i.length, y = i.start.toNat + pos / BLOCK_SECTOR_SIZE
  · obtain ⟨pos,_,rfl⟩ := inside
    have whole := written.content (BLOCK_SECTOR_SIZE * (pos / BLOCK_SECTOR_SIZE) + o)
    have div : (BLOCK_SECTOR_SIZE * (pos / BLOCK_SECTOR_SIZE) + o) / BLOCK_SECTOR_SIZE = pos / BLOCK_SECTOR_SIZE := by
      rw [Nat.mul_add_div (by decide),Nat.div_eq_of_lt place,Nat.add_zero]
    have mod : (BLOCK_SECTOR_SIZE * (pos / BLOCK_SECTOR_SIZE) + o) % BLOCK_SECTOR_SIZE = o := by
      rw [Nat.mul_add_mod,Nat.mod_eq_of_lt place]
    rw [if_neg fun range => other _ range.1 range.2 ⟨by rw [div],mod.symm⟩] at whole
    simpa only [content,div,mod] using whole
  · rw [written.outside y fun pos below same => inside ⟨pos,below,same⟩]

theorem written_contents {offset amount : Nat} (written : Written d d' i buffer offset amount)
    (within : amount ≠ 0 → offset + amount ≤ off_t i.length) :
    contents d' i = (contents d i).take offset ++ (List.range amount).map buffer ++ (contents d i).drop (offset + amount) := by
  apply List.ext_getElem
  · simp only [contents_length,List.length_append,List.length_take,List.length_map,List.length_range,List.length_drop]
    omega
  · intro k left right
    have below : k < off_t i.length := by rwa [contents_length] at left
    have new : (contents d' i)[k] = content d'.data i.start.toNat k := by simp [contents_eq]
    rw [new,written.content]
    by_cases before : k < offset
    · rw [if_neg (by omega),List.getElem_append_left (by simp [contents_length]; omega),
        List.getElem_append_left (by simp [contents_length]; omega)]
      simp [contents_eq]
    · by_cases range : k < offset + amount
      · rw [if_pos ⟨by omega,range⟩,List.getElem_append_left (by simp [contents_length]; omega),
          List.getElem_append_right (by simp [contents_length]; omega)]
        have full : min offset (off_t i.length) = offset := by omega
        simp [contents_length,full]
      · rw [if_neg (by omega),List.getElem_append_right (by simp [contents_length]; omega)]
        by_cases none_ : amount = 0
        · subst none_
          have full : min offset (off_t i.length) = offset := by omega
          have place : offset + (k - offset) = k := by omega
          simp [contents_eq,full,place]
        · have full : min offset (off_t i.length) = offset := by
            have := within none_
            omega
          have place : offset + amount + (k - (offset + amount)) = k := by omega
          simp [contents_eq,full,place]

/-- Every turn takes a byte or ends the loop. -/
theorem writeLoop_turns {bounce : Bool} {turns more size offset bytes_written : Nat} (enough : size ≤ turns)
    (enough' : size ≤ more) :
    writeLoop i bounce buffer turns size offset bytes_written d = writeLoop i bounce buffer more size offset bytes_written d := by
  have ended : ∀ turns offset bytes_written d, writeLoop i bounce buffer turns 0 offset bytes_written d = some (bytes_written,d) :=
    fun turns offset bytes_written d => writeLoop_none d buffer turns bytes_written (by simp [reach,transferred])
  induction turns generalizing more size offset bytes_written d with
  | zero =>
    obtain rfl : size = 0 := by omega
    rw [ended,ended]
  | succ turns ih =>
    cases more with
    | zero =>
      obtain rfl : size = 0 := by omega
      rw [ended,ended]
    | succ more =>
      rw [writeLoop,writeLoop]
      by_cases stop : chunk i size offset = 0
      · rw [if_pos stop,if_pos stop]
      · rw [if_neg stop,if_neg stop]
        congr 2
        funext d
        exact ih (by omega) (by omega)

/-- The number of bytes that a request transfers. -/
def request (n : Inode) (size offset : BitVec 32) : Nat := (max 0 (min size.toInt (n.data.length.toInt - offset.toInt))).toNat

theorem request_reach (n : Inode) {size offset : BitVec 32} (nonnegative : 0 ≤ offset.toInt) :
    request n size offset = reach n.data (off_t size) (off_t offset) := by
  rw [request,reach,off_t,off_t,off_t]
  omega

/-- `inode_read_at` and `inode_write_at` read and write the contents as an array. The loops end within as many turns as there
    are bytes: with more they come to the same. -/
theorem contents_read_and_written (found : s.inodes a = some n) (extent : OnDevice s.fs_device n.data)
    (bounce : s.memory 0 = true)
    (buffer : Nat → Byte) (size offset : BitVec 32) (nonnegative : 0 ≤ offset.toInt) :
    (∃ bytes, inode_read_at s a (off_t size) (off_t offset) = some (bytes,forget s 1) ∧
      bytes = ((contents s.fs_device n.data).drop (off_t offset)).take (request n size offset) ∧
      bytes.length = request n size offset ∧
      ∀ turns, off_t size ≤ turns → readLoop s.fs_device n.data true turns (off_t size) (off_t offset) [] = some bytes) ∧
    (n.deny_write_cnt ≠ 0 → inode_write_at s a buffer (off_t size) (off_t offset) = some (0,forget s 1)) ∧
    (n.deny_write_cnt = 0 → ∃ d', inode_write_at s a buffer (off_t size) (off_t offset) =
        some (request n size offset,{ forget s 1 with fs_device := d' }) ∧ d'.size = s.fs_device.size ∧
      contents d' n.data = (contents s.fs_device n.data).take (off_t offset) ++ (List.range (request n size offset)).map buffer ++
        (contents s.fs_device n.data).drop (off_t offset + request n size offset) ∧
      (∀ y o, o < BLOCK_SECTOR_SIZE →
        (∀ k, off_t offset ≤ k → k < off_t offset + request n size offset →
          ¬(y = n.data.start.toNat + k / BLOCK_SECTOR_SIZE ∧ o = k % BLOCK_SECTOR_SIZE)) → d'.data y o = s.fs_device.data y o) ∧
      ∀ turns, off_t size ≤ turns → writeLoop n.data true buffer turns (off_t size) (off_t offset) 0 s.fs_device =
        some (request n size offset,d')) := by
  have amount := @request_reach n size _ nonnegative
  rw [amount]
  generalize off_t size = size at *
  generalize off_t offset = offset at *
  refine ⟨?_,fun denied => ?_,fun writable => ?_⟩
  · refine ⟨_,inode_read_at_spec found extent size offset,?_,?_,fun turns enough => ?_⟩
    · rw [bounce,transferred_true,← contents_range,List.take_eq_take_iff,List.length_drop,contents_length,reach]
      omega
    · simp [bounce,transferred_true]
    · rw [readLoop_spec extent enough,bounce]
      rfl
  · show write_at (forget s 1) (s.memory 0) a buffer size offset = _
    have found : (forget s 1).inodes a = some n := found
    simp only [write_at,found,Option.bind_eq_bind,Option.bind_some,denied,ne_eq,not_false_eq_true,if_true]
  · obtain ⟨d',looped,written⟩ := @writeLoop_spec _ _ true _ _ _ offset 0
      extent (Nat.le_refl size)
    simp only [transferred_true,Nat.zero_add] at looped written
    refine ⟨d',?_,written.size,?_,?_,?_⟩
    · show write_at (forget s 1) (s.memory 0) a buffer size offset = _
      have found : (forget s 1).inodes a = some n := found
      have looped : writeLoop n.data true buffer size size offset 0 (forget s 1).fs_device = _ := looped
      simp only [write_at,found,bounce,Option.bind_eq_bind,Option.bind_some,writable,ne_eq,not_true_eq_false,if_false,looped]
    · refine written_contents written fun some_ => ?_
      rw [reach] at some_ ⊢
      omega
    · intro y o place other
      exact written_bytes written place other
    · intro turns enough
      rw [writeLoop_turns enough (Nat.le_refl size)]
      exact looped

/-- A file of 600 bytes in the sectors 7 and 8. -/
def two_sectors : FileSystem where
  fs_device := ⟨9,fun _ o => BitVec.ofNat 8 o⟩
  free_map := ⟨0,fun _ => 0#32⟩
  free_map_file := none
  open_inodes := [0]
  inodes a := if a = 0 then some ⟨5,1,false,0,⟨7#32,600#32,INODE_MAGIC⟩⟩ else none
  files _ := none
  next := 1
  memory _ := true
  map_memory _ := true
  stack := ⟨0#32,fun _ => 0#8,false⟩

theorem contents_read_two_sectors : ∃ bytes, inode_read_at two_sectors 0 (off_t 200#32) (off_t 500#32) =
    some (bytes,forget two_sectors 1) ∧ bytes.length = 100 := by
  have extent : OnDevice two_sectors.fs_device ⟨7#32,600#32,INODE_MAGIC⟩ := by
    refine ⟨by decide,fun pos below => ?_⟩
    have length : off_t 600#32 = 600 := by decide
    rw [length] at below
    show 7 + pos / 512 < 9
    omega
  obtain ⟨⟨bytes,read,_,length,_⟩,_⟩ := contents_read_and_written (s := two_sectors) (a := 0)
    (n := ⟨5,1,false,0,⟨7#32,600#32,INODE_MAGIC⟩⟩) rfl extent rfl (fun _ => 0#8) 200#32 500#32 (by decide)
  exact ⟨bytes,read,length⟩

end Pintos.FileSystem
