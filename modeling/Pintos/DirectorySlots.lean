import Pintos.Directories
import Pintos.SlotTables

/-!
The directory in any inode whose length is that of a number of entries. Its slots are the
entries one after the other; `lookup`, `dir_add` and `dir_readdir` each scan them on
their own, as bytes. Here no allocation fails.
-/
namespace Pintos.DirectoryMaps
open Pintos.Machines Pintos.Bitmaps Pintos.FileSystem Pintos.SlotTables
set_option linter.unusedSimpArgs false

/-- The loop of `dir_readdir`, in at most `n` turns: what it stores, and the position it
    leaves. -/
def readdirLoop (dir : Nat) (name : Fin (NAME_MAX + 1) → Byte) : Nat → Nat → FileSystem →
    Option (Option (Fin (NAME_MAX + 1) → Byte) × Nat × FileSystem)
  | 0, pos, s => some (none,pos,s)
  | n + 1, pos, s => do
    let (bytes,s) ← inode_read_at s dir sizeof_dir_entry pos
    if bytes.length = sizeof_dir_entry then
      let e := dir_entry bytes
      if e.in_use then some (some (strlcpy name (c_string e.name)),pos + sizeof_dir_entry,s)
      else readdirLoop dir name n (pos + sizeof_dir_entry) s
    else some (none,pos,s)

/-- With the position of the directory in `pos`, and the caller's buffer in `name`. -/
def dir_readdir (s : FileSystem) (dir pos : Nat) (name : Fin (NAME_MAX + 1) → Byte) :
    Option (Option (Fin (NAME_MAX + 1) → Byte) × Nat × FileSystem) :=
  readdirLoop dir name (turns s dir) pos s

/-! ### Slots -/

def layout : Layout DirEntry (List Byte) Nat where
  used e := e.in_use
  key e := c_string e.name
  value e := e.inode_sector.toNat

/-- Entry `k` of the directory whose data begins in sector `start`. -/
def entry_at (d : Device) (start k : Nat) : DirEntry :=
  dir_entry ((List.range sizeof_dir_entry).map fun j => content d.data start (sizeof_dir_entry * k + j))

def slots (d : Device) (i : InodeDisk) : List DirEntry :=
  (List.range (off_t i.length / sizeof_dir_entry)).map (entry_at d i.start.toNat)

/-- The directory in inode `a`, open and with memory for all that is done to it. -/
structure IsDir (s : FileSystem) (a : Nat) (i : InodeDisk) : Prop where
  inode : ∃ n, s.inodes a = some n ∧ n.data = i ∧ n.deny_write_cnt = 0
  inside : OnDevice s.fs_device i
  whole : off_t i.length % sizeof_dir_entry = 0
  plenty : Plenty s

section
variable {s : FileSystem} {a k : Nat} {i : InodeDisk} {d d' : Device} {e old : DirEntry} {before rest after : List DirEntry}
  {name : List Byte}

theorem forget_plenty (plenty : Plenty s) (m : Nat) : forget s m = s := by
  have same : (fun n => s.memory (n + m)) = s.memory := funext fun n => by rw [plenty.1,plenty.1]
  rw [forget,same]

@[simp] theorem slots_length (d : Device) (i : InodeDisk) : (slots d i).length = off_t i.length / sizeof_dir_entry := by
  simp [slots]

theorem slots_cut (cut : slots d i = before ++ e :: after) :
    before.length < off_t i.length / sizeof_dir_entry ∧ entry_at d i.start.toNat before.length = e := by
  have length := congrArg List.length cut
  rw [slots_length,List.length_append,List.length_cons] at length
  have here := congrArg (fun l => l[before.length]?) cut
  simp only [List.getElem?_append_right (Nat.le_refl _),Nat.sub_self,List.getElem?_cons_zero] at here
  refine ⟨by omega,?_⟩
  simpa [slots,show before.length < off_t i.length / sizeof_dir_entry by omega] using here

/-- The slots depend on the sectors of the directory alone. -/
theorem slots_same
    (same : ∀ pos < off_t i.length, d'.data (i.start.toNat + pos / BLOCK_SECTOR_SIZE) = d.data (i.start.toNat + pos / BLOCK_SECTOR_SIZE)) :
    slots d' i = slots d i := by
  refine List.map_congr_left fun k member => congrArg dir_entry (List.map_congr_left fun j small => ?_)
  have below := List.mem_range.mp member
  have inside := List.mem_range.mp small
  rw [content,content,same]
  rw [sizeof_dir_entry] at *
  omega

/-- A slot of the directory is read and written whole. -/
theorem reach_entry (below : k < off_t i.length / sizeof_dir_entry) :
    reach i sizeof_dir_entry (sizeof_dir_entry * k) = sizeof_dir_entry := by
  rw [reach]
  rw [sizeof_dir_entry] at *
  omega

theorem reach_end (whole : off_t i.length % sizeof_dir_entry = 0) :
    reach i sizeof_dir_entry (sizeof_dir_entry * (slots d i).length) = 0 := by
  rw [reach,slots_length]
  rw [sizeof_dir_entry] at *
  omega

theorem turns_dir (dir : IsDir s a i) : turns s a = (slots s.fs_device i).length + 1 := by
  obtain ⟨n,found,rfl,-⟩ := dir.inode
  rw [turns,found,slots_length]
  rfl

theorem read_entry (dir : IsDir s a i) (cut : slots s.fs_device i = before ++ e :: after) :
    ∃ bytes, inode_read_at s a sizeof_dir_entry (sizeof_dir_entry * before.length) = some (bytes,s) ∧
      bytes.length = sizeof_dir_entry ∧ dir_entry bytes = e := by
  obtain ⟨n,found,rfl,-⟩ := dir.inode
  obtain ⟨below,entry⟩ := slots_cut cut
  have read := inode_read_at_spec found dir.inside sizeof_dir_entry (sizeof_dir_entry * before.length)
  rw [dir.plenty.1,transferred_true,reach_entry below,forget_plenty dir.plenty] at read
  exact ⟨_,read,by simp,entry⟩

/-- A read at the end of the directory is short. -/
theorem read_end (dir : IsDir s a i) :
    inode_read_at s a sizeof_dir_entry (sizeof_dir_entry * (slots s.fs_device i).length) = some ([],s) := by
  obtain ⟨n,found,rfl,-⟩ := dir.inode
  have read := inode_read_at_spec found dir.inside sizeof_dir_entry (sizeof_dir_entry * (slots s.fs_device n.data).length)
  rw [dir.plenty.1,transferred_true,reach_end dir.whole,forget_plenty dir.plenty] at read
  exact read

/-! ### The scans -/

/-- After a slot comes the rest of the directory, at the next position and with a turn less. -/
theorem next_slot {turns : Nat} (cut : slots s.fs_device i = before ++ e :: rest) (enough : (e :: rest).length ≤ turns) :
    ∃ left, turns = left + 1 ∧ rest.length ≤ left ∧ slots s.fs_device i = before ++ [e] ++ rest ∧
      sizeof_dir_entry * (before ++ [e]).length = sizeof_dir_entry * before.length + sizeof_dir_entry := by
  rw [List.length_cons] at enough
  refine ⟨turns - 1,by omega,by omega,?_,?_⟩
  · rw [cut,List.append_assoc,List.singleton_append]
  · rw [List.length_append,List.length_singleton,Nat.mul_add,Nat.mul_one]

theorem lookupLoop_scan (dir : IsDir s a i) (name : List Byte) (rest before : List DirEntry) (turns : Nat)
    (cut : slots s.fs_device i = before ++ rest) (enough : rest.length ≤ turns) :
    (name ∉ layout.keys rest ∧ lookupLoop a name (turns + 1) (sizeof_dir_entry * before.length) s = some (none,s)) ∨
      ∃ mid e after, rest = mid ++ e :: after ∧ e.in_use = true ∧ c_string e.name = name ∧ name ∉ layout.keys mid ∧
        lookupLoop a name (turns + 1) (sizeof_dir_entry * before.length) s =
          some (some (e,sizeof_dir_entry * (before ++ mid).length),s) := by
  induction rest generalizing before turns with
  | nil =>
    rw [List.append_nil] at cut
    refine .inl ⟨by simp [Layout.keys],?_⟩
    rw [lookupLoop,← cut,read_end dir]
    simp [sizeof_dir_entry]
  | cons e rest ih =>
    obtain ⟨bytes,read,length,entry⟩ := read_entry dir cut
    rw [lookupLoop,read]
    simp only [Option.bind_eq_bind,Option.bind_some,if_pos length,entry]
    by_cases hit : e.in_use = true ∧ name = c_string e.name
    · rw [if_pos hit]
      exact .inr ⟨[],e,rest,rfl,hit.1,hit.2.symm,by simp [Layout.keys],by rw [List.append_nil]⟩
    · rw [if_neg hit]
      obtain ⟨left,rfl,enough,cut,position⟩ := next_slot cut enough
      have later := ih (before ++ [e]) left cut enough
      rw [position] at later
      have fresh : ∀ es, name ∉ layout.keys es → name ∉ layout.keys (e :: es) := by
        intro es absent
        cases used : e.in_use with
        | false => rwa [keys_unused layout es used]
        | true =>
          rw [keys_used layout es used,List.mem_cons,not_or]
          exact ⟨fun same => hit ⟨used,same⟩,absent⟩
      rcases later with ⟨absent,ran⟩ | ⟨mid,f,after,rfl,used,same,absent,ran⟩
      · exact .inl ⟨fresh rest absent,ran⟩
      · exact .inr ⟨e :: mid,f,after,rfl,used,same,fresh mid absent,by simpa using ran⟩

/-- A search finds the first slot of the name. -/
theorem lookup_scan (dir : IsDir s a i) (name : List Byte) :
    (name ∉ layout.keys (slots s.fs_device i) ∧ lookup s a name = some (none,s)) ∨
      ∃ before e after, slots s.fs_device i = before ++ e :: after ∧ e.in_use = true ∧ c_string e.name = name ∧
        name ∉ layout.keys before ∧ lookup s a name = some (some (e,sizeof_dir_entry * before.length),s) := by
  rw [lookup,turns_dir dir]
  exact lookupLoop_scan dir name _ [] _ rfl (Nat.le_refl _)

theorem slotLoop_scan (dir : IsDir s a i) (rest before : List DirEntry) (stack : DirEntry) (turns : Nat)
    (cut : slots s.fs_device i = before ++ rest) (enough : rest.length ≤ turns) :
    ((∀ e ∈ rest, e.in_use = true) ∧ ∃ e, slotLoop a (turns + 1) (sizeof_dir_entry * before.length) stack s =
        some (sizeof_dir_entry * (slots s.fs_device i).length,e,s)) ∨
      ∃ mid e after, rest = mid ++ e :: after ∧ e.in_use = false ∧
        slotLoop a (turns + 1) (sizeof_dir_entry * before.length) stack s = some (sizeof_dir_entry * (before ++ mid).length,e,s) := by
  induction rest generalizing before turns stack with
  | nil =>
    rw [List.append_nil] at cut
    refine .inl ⟨fun e none_ => (by cases none_),stack,?_⟩
    rw [slotLoop,← cut,read_end dir]
    simp [sizeof_dir_entry]
  | cons e rest ih =>
    obtain ⟨bytes,read,length,entry⟩ := read_entry dir cut
    rw [slotLoop,read]
    simp only [Option.bind_eq_bind,Option.bind_some,if_pos length,entry]
    cases used : e.in_use with
    | false => exact .inr ⟨[],e,rest,rfl,used,by simp⟩
    | true =>
      obtain ⟨left,rfl,enough,cut,position⟩ := next_slot cut enough
      have later := ih (before ++ [e]) e left cut enough
      rw [position] at later
      rcases later with ⟨all,f,ran⟩ | ⟨mid,f,after,rfl,free,ran⟩
      · refine .inl ⟨fun g member => ?_,f,by simpa using ran⟩
        rcases List.mem_cons.mp member with rfl | member
        · exact used
        · exact all g member
      · exact .inr ⟨e :: mid,f,after,rfl,free,by simpa using ran⟩

theorem readdirLoop_scan (dir : IsDir s a i) (name : Fin (NAME_MAX + 1) → Byte) (rest before : List DirEntry) (turns : Nat)
    (cut : slots s.fs_device i = before ++ rest) (enough : rest.length ≤ turns) :
    (layout.keys rest = [] ∧ readdirLoop a name (turns + 1) (sizeof_dir_entry * before.length) s =
        some (none,sizeof_dir_entry * (slots s.fs_device i).length,s)) ∨
      ∃ mid e after, rest = mid ++ e :: after ∧ e.in_use = true ∧ layout.keys mid = [] ∧
        readdirLoop a name (turns + 1) (sizeof_dir_entry * before.length) s =
          some (some (strlcpy name (c_string e.name)),sizeof_dir_entry * (before ++ mid ++ [e]).length,s) := by
  induction rest generalizing before turns with
  | nil =>
    rw [List.append_nil] at cut
    refine .inl ⟨rfl,?_⟩
    rw [readdirLoop,← cut,read_end dir]
    simp [sizeof_dir_entry]
  | cons e rest ih =>
    obtain ⟨bytes,read,length,entry⟩ := read_entry dir cut
    rw [readdirLoop,read]
    simp only [Option.bind_eq_bind,Option.bind_some,if_pos length,entry]
    cases used : e.in_use with
    | true => exact .inr ⟨[],e,rest,rfl,used,rfl,by simp [Nat.mul_add]⟩
    | false =>
      obtain ⟨left,rfl,enough,cut,position⟩ := next_slot cut enough
      have later := ih (before ++ [e]) left cut enough
      rw [position] at later
      have keys : ∀ es, layout.keys (e :: es) = layout.keys es := fun es => keys_unused layout es used
      rcases later with ⟨empty,ran⟩ | ⟨mid,f,after,rfl,busy,empty,ran⟩
      · exact .inl ⟨(keys rest).trans empty,by simpa using ran⟩
      · exact .inr ⟨e :: mid,f,after,rfl,busy,(keys mid).trans empty,by simpa using ran⟩

/-! ### Writing an entry -/

theorem write_entry (dir : IsDir s a i) (cut : slots s.fs_device i = before ++ old :: after) (e : DirEntry) :
    ∃ d', inode_write_at s a e.bytes sizeof_dir_entry (sizeof_dir_entry * before.length) =
        some (sizeof_dir_entry,{ s with fs_device := d' }) ∧
      slots d' i = before ++ e :: after ∧ d'.size = s.fs_device.size ∧
      ∀ z, (∀ pos < off_t i.length, z ≠ i.start.toNat + pos / BLOCK_SECTOR_SIZE) → d'.data z = s.fs_device.data z := by
  obtain ⟨n,found,rfl,writable⟩ := dir.inode
  obtain ⟨below,-⟩ := slots_cut cut
  obtain ⟨d',ran,written⟩ := write_at_spec (s := forget s 1) found writable dir.inside (s.memory 0) e.bytes sizeof_dir_entry
    (sizeof_dir_entry * before.length)
  rw [dir.plenty.1,transferred_true,reach_entry below] at ran written
  refine ⟨d',?_,?_,written.size,written.outside⟩
  · rw [inode_write_at,malloc_eq]
    show write_at (forget s 1) (s.memory 0) a e.bytes sizeof_dir_entry (sizeof_dir_entry * before.length) = _
    rw [dir.plenty.1,ran,forget_plenty dir.plenty]
  · have whole : before ++ e :: after = (slots s.fs_device n.data).set before.length e := by
      rw [cut]
      simp
    rw [whole]
    refine List.ext_getElem (by simp) fun k left right => ?_
    rw [List.getElem_set]
    simp only [slots,List.getElem_map,List.getElem_range]
    split
    · next here =>
      refine (congrArg dir_entry (List.map_congr_left fun j member => ?_)).trans (dir_entry_bytes e)
      have small := List.mem_range.mp member
      rw [written.content,← here,if_pos (by omega),Nat.add_sub_cancel_left]
    · next other =>
      refine congrArg dir_entry (List.map_congr_left fun j member => ?_)
      have small := List.mem_range.mp member
      rw [written.content,if_neg]
      · rfl
      · rw [sizeof_dir_entry] at *
        omega

/-- Nothing is written at the end of the directory. -/
theorem write_end (dir : IsDir s a i) (buffer : Nat → Byte) :
    inode_write_at s a buffer sizeof_dir_entry (sizeof_dir_entry * (slots s.fs_device i).length) = some (0,s) := by
  obtain ⟨n,found,rfl,writable⟩ := dir.inode
  have amount : transferred (s.memory 0) (sizeof_dir_entry * (slots s.fs_device n.data).length)
      (reach n.data sizeof_dir_entry (sizeof_dir_entry * (slots s.fs_device n.data).length)) = 0 := by
    rw [dir.plenty.1,transferred_true,reach_end dir.whole]
  have kept := writeLoop_none s.fs_device buffer sizeof_dir_entry 0 amount
  rw [inode_write_at,malloc_eq]
  show write_at (forget s 1) (s.memory 0) a buffer sizeof_dir_entry (sizeof_dir_entry * (slots s.fs_device n.data).length) = _
  rw [forget_plenty dir.plenty]
  simp only [write_at,found,Option.bind_eq_bind,Option.bind_some,writable,ne_eq,not_true_eq_false,if_false,kept]

/-! ### Adding an entry -/

/-- What an entry for a name and a sector is. -/
def Entry (e : DirEntry) (name : List Byte) (x : Nat) : Prop :=
  e.in_use = true ∧ c_string e.name = name ∧ e.inode_sector.toNat = x

theorem dir_add_scan (dir : IsDir s a i) {x : Nat} (string : 0#8 ∉ name) (small : x < 2 ^ 32) :
    (dir_add s a name x = some (false,s) ∧ ¬ (1 ≤ name.length ∧ name.length ≤ NAME_MAX ∧
        name ∉ layout.keys (slots s.fs_device i) ∧ ∃ e ∈ slots s.fs_device i, e.in_use = false)) ∨
      ∃ d' before old e after, dir_add s a name x = some (true,{ s with fs_device := d' }) ∧
        (1 ≤ name.length ∧ name.length ≤ NAME_MAX ∧ name ∉ layout.keys (slots s.fs_device i)) ∧
        slots s.fs_device i = before ++ old :: after ∧ old.in_use = false ∧
        slots d' i = before ++ e :: after ∧ Entry e name x ∧ d'.size = s.fs_device.size ∧
        ∀ z, (∀ pos < off_t i.length, z ≠ i.start.toNat + pos / BLOCK_SECTOR_SIZE) → d'.data z = s.fs_device.data z := by
  rw [dir_add]
  by_cases bad : name = [] ∨ name.length > NAME_MAX
  · refine .inl ⟨by rw [if_pos bad],fun both => ?_⟩
    rcases bad with rfl | long
    · exact absurd both.1 (by decide)
    · omega
  · have fits : 1 ≤ name.length ∧ name.length ≤ NAME_MAX := by
      refine ⟨List.length_pos_iff.mpr fun empty => bad (.inl empty),?_⟩
      omega
    rw [if_neg bad]
    rcases lookup_scan dir name with ⟨absent,looked⟩ | ⟨before,e,after,cut,used,named,-,looked⟩
    · simp only [looked,Option.bind_eq_bind,Option.bind_some,turns_dir dir]
      rcases slotLoop_scan dir (slots s.fs_device i) [] s.stack _ rfl (Nat.le_refl _) with ⟨all,e,ran⟩ | ⟨before,old,after,
        cut,free,ran⟩
      · rw [List.length_nil,Nat.mul_zero] at ran
        simp only [ran,Option.bind_some,write_end dir]
        refine .inl ⟨by simp [sizeof_dir_entry],fun both => ?_⟩
        obtain ⟨f,member,unused⟩ := both.2.2.2
        exact Bool.false_ne_true (unused.symm.trans (all f member))
      · rw [List.length_nil,Nat.mul_zero,List.nil_append] at ran
        obtain ⟨d',wrote,cut',size,outside⟩ := write_entry dir cut
          { in_use := true, name := strlcpy old.name name, inode_sector := BitVec.ofNat 32 x }
        simp only [ran,Option.bind_some,wrote]
        refine .inr ⟨d',before,old,_,after,by simp,⟨fits.1,fits.2,absent⟩,cut,free,cut',⟨rfl,?_,?_⟩,size,outside⟩
        · exact c_string_strlcpy _ string fits.2
        · show (BitVec.ofNat 32 x).toNat = x
          rw [BitVec.toNat_ofNat,Nat.mod_eq_of_lt small]
    · simp only [looked,Option.bind_eq_bind,Option.bind_some]
      refine .inl ⟨trivial,fun both => both.2.2.1 ((mem_keys layout).mpr ⟨e,?_,used,named⟩)⟩
      rw [cut]
      simp

end

end Pintos.DirectoryMaps
