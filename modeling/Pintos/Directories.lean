import Pintos.Inodes

/-!
The root directory, as a table of slots: what a search of it finds, and what adding and
removing an entry does to the slots.
-/
namespace Pintos.FileSystem
open Pintos.Machines Pintos.Bitmaps Pintos.Lists
set_option linter.unusedSimpArgs false

/-- The number of entries of the root directory. -/
def entry_cnt : Nat := 16

/-- Where the root directory is on the device. -/
def root_start (d : Device) : Nat := (inode_disk (d.data ROOT_DIR_SECTOR)).start.toNat

/-- Entry `k` of the root directory on the device. -/
def slot (d : Device) (k : Nat) : DirEntry :=
  dir_entry ((List.range sizeof_dir_entry).map fun j => content d.data (root_start d) (sizeof_dir_entry * k + j))

/-- The entry is of a file of this name. -/
def Names (e : DirEntry) (name : List Byte) : Prop := e.in_use = true ∧ name = c_string e.name

/-- The directory in inode `a`. -/
structure IsRoot (s : FileSystem) (L : Nat → Option InodeDisk) (a : Nat) (n : Inode) : Prop where
  inode : s.inodes a = some n
  sector : n.sector = ROOT_DIR_SECTOR
  stored : L ROOT_DIR_SECTOR = some n.data
  length : n.data.length.toNat = sizeof_dir_entry * entry_cnt
  writable : n.deny_write_cnt = 0

section
variable {s s' : FileSystem} {L : Nat → Option InodeDisk} {x z a k l : Nat} {i j m : InodeDisk} {n : Inode} {extra : List Nat}
  {name : List Byte} {d d' : Device} {e : DirEntry}

theorem root_start_eq {map : Bitmap} (ledger : Ledger d map L) (owned : L ROOT_DIR_SECTOR = some i) :
    root_start d = i.start.toNat := by
  rw [root_start,ledger.stored _ i owned]

/-- The slots depend on the sectors of the directory alone. -/
theorem slot_same {map : Bitmap} (ledger : Ledger d map L) (owned : L ROOT_DIR_SECTOR = some i) (below : k < entry_cnt)
    (length : i.length.toNat = sizeof_dir_entry * entry_cnt) (same : ∀ z, Span ROOT_DIR_SECTOR i z → d'.data z = d.data z) :
    slot d' k = slot d k := by
  have start : root_start d' = root_start d := by rw [root_start,root_start,same _ (.inl rfl)]
  rw [slot,slot,start]
  refine congrArg dir_entry (List.map_congr_left fun j member => ?_)
  have inside : sizeof_dir_entry * k + j < off_t i.length := by
    rw [ledger_off_t ledger owned,length]
    have small := List.mem_range.mp member
    rw [sizeof_dir_entry,entry_cnt] at *
    omega
  rw [content,content,root_start_eq ledger owned,same _ (.inr (extent_pos ledger owned inside))]

theorem turns_eq {map : Bitmap} (ledger : Ledger s.fs_device map L) (root : IsRoot s L a n) : turns s a = entry_cnt + 1 := by
  rw [turns,root.inode]
  simp only [Option.map_some,Option.getD_some]
  rw [ledger_off_t ledger root.stored,root.length]
  rfl

/-- An entry is read, unless the bounce buffer is missing. -/
theorem read_slot (ledger : Ledger s.fs_device s.free_map L) (root : IsRoot s L a n) (k : Nat) :
    ∃ bytes, inode_read_at s a sizeof_dir_entry (sizeof_dir_entry * k) = some (bytes,forget s 1) ∧
      (bytes.length = sizeof_dir_entry → k < entry_cnt ∧ dir_entry bytes = slot s.fs_device k) ∧
      (s.memory 0 = true → k < entry_cnt → bytes.length = sizeof_dir_entry) := by
  have read := inode_read_at_spec root.inode (on_device (ledger_inside ledger root.stored)) sizeof_dir_entry (sizeof_dir_entry * k)
  have off : off_t n.data.length = sizeof_dir_entry * entry_cnt := by rw [ledger_off_t ledger root.stored,root.length]
  refine ⟨_,read,fun full => ?_,fun memory below => ?_⟩
  · rw [List.length_map,List.length_range] at full
    have bound := transferred_le (s.memory 0) (sizeof_dir_entry * k) (reach n.data sizeof_dir_entry (sizeof_dir_entry * k))
    rw [full,reach,off] at bound
    have below : k < entry_cnt := by
      rw [sizeof_dir_entry,entry_cnt] at *
      omega
    refine ⟨below,?_⟩
    rw [full,slot,root_start_eq ledger root.stored]
  · rw [List.length_map,List.length_range,memory,transferred_true,reach,off]
    rw [sizeof_dir_entry,entry_cnt] at *
    omega

theorem root_forget (root : IsRoot s L a n) (m : Nat) : IsRoot (forget s m) L a n :=
  ⟨root.inode,root.sector,root.stored,root.length,root.writable⟩

theorem plenty_forget (plenty : Plenty s) (m : Nat) : Plenty (forget s m) := ⟨fun k => plenty.1 (k + m),plenty.2⟩

/-- What a search from slot `k` on finds. -/
def Finds (d : Device) (name : List Byte) (k : Nat) (plenty : Prop) : Option (DirEntry × Nat) → Prop
  | some (e,ofs) => ∃ l, k ≤ l ∧ l < entry_cnt ∧ ofs = sizeof_dir_entry * l ∧ e = slot d l ∧ Names e name ∧
      ∀ q, k ≤ q → q < l → ¬ Names (slot d q) name
  | none => plenty → ∀ q, k ≤ q → q < entry_cnt → ¬ Names (slot d q) name

theorem lookupLoop_spec (turns k : Nat) (s : FileSystem) (ledger : Ledger s.fs_device s.free_map L) (root : IsRoot s L a n)
    (enough : k + turns = entry_cnt + 1) (name : List Byte) :
    ∃ r m, lookupLoop a name turns (sizeof_dir_entry * k) s = some (r,forget s m) ∧ Finds s.fs_device name k (Plenty s) r := by
  induction turns generalizing k s with
  | zero =>
    refine ⟨none,0,rfl,fun _ q low high => ?_⟩
    omega
  | succ turns ih =>
    obtain ⟨bytes,read,whole,full⟩ := read_slot ledger root k
    rw [lookupLoop,read]
    simp only [Option.bind_eq_bind,Option.bind_some]
    by_cases length : bytes.length = sizeof_dir_entry
    · obtain ⟨below,entry⟩ := whole length
      rw [if_pos length,entry]
      by_cases names : (slot s.fs_device k).in_use = true ∧ name = c_string (slot s.fs_device k).name
      · rw [if_pos names]
        refine ⟨_,1,rfl,k,Nat.le_refl k,below,rfl,rfl,names,fun q low high => ?_⟩
        omega
      · obtain ⟨r,m,ran,finds⟩ := ih (k + 1) (forget s 1) ledger (root_forget root 1) (by omega)
        rw [if_neg names,← Nat.mul_succ]
        refine ⟨r,1 + m,by rw [← forget_forget]; exact ran,?_⟩
        cases r with
        | none =>
          intro plenty q low high
          by_cases first : q = k
          · rw [first]
            exact names
          · exact finds (plenty_forget plenty 1) q (by omega) high
        | some found =>
          obtain ⟨l,low,high,ofs,same,hit,before⟩ := finds
          refine ⟨l,by omega,high,ofs,same,hit,fun q after early => ?_⟩
          by_cases first : q = k
          · rw [first]
            exact names
          · exact before q (by omega) early
    · rw [if_neg length]
      refine ⟨none,1,rfl,fun plenty q low high => ?_⟩
      exact absurd (full (plenty.1 0) (by omega)) length

theorem lookup_spec (ledger : Ledger s.fs_device s.free_map L) (root : IsRoot s L a n) (name : List Byte) :
    ∃ r m, lookup s a name = some (r,forget s m) ∧ Finds s.fs_device name 0 (Plenty s) r := by
  rw [lookup,turns_eq ledger root]
  exact lookupLoop_spec (entry_cnt + 1) 0 s ledger root (Nat.zero_add _) name

theorem slotLoop_spec (turns k : Nat) (e : DirEntry) (s : FileSystem) (ledger : Ledger s.fs_device s.free_map L)
    (root : IsRoot s L a n)
    (enough : k + turns = entry_cnt + 1) :
    ∃ l e' m, slotLoop a turns (sizeof_dir_entry * k) e s = some (sizeof_dir_entry * l,e',forget s m) ∧ k ≤ l ∧
      (Plenty s → (∀ q, k ≤ q → q < l → (slot s.fs_device q).in_use = true) ∧
        (l < entry_cnt → (slot s.fs_device l).in_use = false)) := by
  induction turns generalizing k e s with
  | zero =>
    refine ⟨k,e,0,rfl,Nat.le_refl k,fun _ => ⟨fun q low high => ?_,fun below => ?_⟩⟩
    · omega
    · omega
  | succ turns ih =>
    obtain ⟨bytes,read,whole,full⟩ := read_slot ledger root k
    rw [slotLoop,read]
    simp only [Option.bind_eq_bind,Option.bind_some]
    by_cases length : bytes.length = sizeof_dir_entry
    · obtain ⟨below,entry⟩ := whole length
      rw [if_pos length,entry]
      by_cases used : (slot s.fs_device k).in_use = true
      · obtain ⟨l,e',m,ran,low,finds⟩ := ih (k + 1) (slot s.fs_device k) (forget s 1) ledger (root_forget root 1) (by omega)
        rw [if_pos used,← Nat.mul_succ]
        refine ⟨l,e',1 + m,by rw [← forget_forget]; exact ran,by omega,fun plenty => ?_⟩
        obtain ⟨before,here⟩ := finds (plenty_forget plenty 1)
        refine ⟨fun q after early => ?_,here⟩
        by_cases first : q = k
        · rw [first]
          exact used
        · exact before q (by omega) early
      · rw [if_neg used]
        refine ⟨k,_,1,rfl,Nat.le_refl k,fun _ => ⟨fun q low high => ?_,fun _ => Bool.eq_false_iff.mpr used⟩⟩
        omega
    · rw [if_neg length]
      refine ⟨k,e,1,rfl,Nat.le_refl k,fun plenty => ⟨fun q low high => ?_,fun below => ?_⟩⟩
      · omega
      · exact absurd (full (plenty.1 0) below) length

/-! ### Writing an entry -/

/-- Only one slot changes. -/
structure Entered (d d' : Device) (L : Nat → Option InodeDisk) (k : Nat) (e : DirEntry) : Prop where
  size : d'.size = d.size
  outside : ∀ z, (∀ i, L ROOT_DIR_SECTOR = some i → ¬ Extent i z) → d'.data z = d.data z
  here : slot d' k = e
  others : ∀ l < entry_cnt, l ≠ k → slot d' l = slot d l

/-- The directory stays where it is. -/
theorem root_written {buffer : Nat → Byte} {offset amount : Nat} (ledger : Ledger d s.free_map L) (root : IsRoot s L a n)
    (written : Written d d' n.data buffer offset amount) : root_start d' = n.data.start.toNat := by
  rw [root_start,written.outside,ledger.stored _ _ root.stored]
  intro pos below same
  refine ledger.own _ _ root.stored ?_
  rw [same]
  exact extent_pos ledger root.stored below

/-- An entry is written whole or not at all. -/
theorem write_slot (ledger : Ledger s.fs_device s.free_map L) (root : IsRoot s L a n) (k : Nat) (e : DirEntry) :
    ∃ written d', inode_write_at s a e.bytes sizeof_dir_entry (sizeof_dir_entry * k) = some (written,{ forget s 1 with fs_device := d' }) ∧
      (written = sizeof_dir_entry → k < entry_cnt ∧ Entered s.fs_device d' L k e) ∧
      (written ≠ sizeof_dir_entry → d' = s.fs_device) ∧
      (s.memory 0 = true → k < entry_cnt → written = sizeof_dir_entry) := by
  have inside := ledger_inside ledger root.stored
  obtain ⟨d',ran,written⟩ := write_at_spec (s := forget s 1) root.inode root.writable (on_device inside) (s.memory 0) e.bytes sizeof_dir_entry
    (sizeof_dir_entry * k)
  have off : off_t n.data.length = sizeof_dir_entry * entry_cnt := by rw [ledger_off_t ledger root.stored,root.length]
  have amount : transferred (s.memory 0) (sizeof_dir_entry * k) (reach n.data sizeof_dir_entry (sizeof_dir_entry * k)) =
      if k < entry_cnt ∧ s.memory 0 = true then sizeof_dir_entry else 0 := by
    rw [reach,off]
    by_cases below : k < entry_cnt
    · have whole : min sizeof_dir_entry (sizeof_dir_entry * entry_cnt - sizeof_dir_entry * k) = sizeof_dir_entry := by
        rw [sizeof_dir_entry,entry_cnt] at *
        omega
      rw [whole,transferred_sector]
      · simp only [below,true_and]
      · rw [sizeof_dir_entry,BLOCK_SECTOR_SIZE]
        rw [entry_cnt] at below
        rw [Nat.mod_eq_of_lt (by omega)]
        omega
    · have none_ : min sizeof_dir_entry (sizeof_dir_entry * entry_cnt - sizeof_dir_entry * k) = 0 := by
        rw [sizeof_dir_entry,entry_cnt] at *
        omega
      rw [none_,if_neg fun both => below both.1]
      exact Nat.le_zero.mp (transferred_le _ _ 0)
  by_cases full : k < entry_cnt ∧ s.memory 0 = true
  · rw [if_pos full] at amount
    rw [amount] at ran written
    refine ⟨_,d',ran,fun _ => ⟨full.1,written.size,?_,?_,?_⟩,fun other => absurd rfl other,fun _ _ => rfl⟩
    · intro z out
      refine written.outside z fun pos below same => out n.data root.stored ?_
      rw [same]
      exact extent_pos ledger root.stored below
    · rw [slot,root_written ledger root written]
      refine (congrArg dir_entry (List.map_congr_left fun j member => ?_)).trans (dir_entry_bytes e)
      have small := List.mem_range.mp member
      rw [written.content,if_pos (by omega),Nat.add_sub_cancel_left]
    · intro l below other
      rw [slot,slot,root_written ledger root written,root_start_eq ledger root.stored]
      refine congrArg dir_entry (List.map_congr_left fun j member => ?_)
      have small := List.mem_range.mp member
      have apart : ¬ (sizeof_dir_entry * k ≤ sizeof_dir_entry * l + j ∧ sizeof_dir_entry * l + j < sizeof_dir_entry * k + sizeof_dir_entry) := by
        rw [sizeof_dir_entry] at small ⊢
        omega
      rw [written.content,if_neg apart]
      rfl
  · rw [if_neg full] at amount
    have kept := writeLoop_none s.fs_device e.bytes sizeof_dir_entry 0 amount
    refine ⟨0,s.fs_device,?_,fun wrong => (by cases wrong),fun _ => rfl,fun memory below => absurd ⟨below,memory⟩ full⟩
    rw [inode_write_at,malloc_eq]
    show write_at (forget s 1) (s.memory 0) a e.bytes sizeof_dir_entry (sizeof_dir_entry * k) = _
    rw [write_at]
    show (s.inodes a).bind _ = _
    rw [root.inode]
    simp only [Option.bind_some,root.writable,ne_eq,not_true_eq_false,if_false]
    show (writeLoop n.data (s.memory 0) e.bytes sizeof_dir_entry sizeof_dir_entry (sizeof_dir_entry * k) 0 s.fs_device).bind _ = _
    rw [kept]
    rfl

/-! ### Adding an entry -/

/-- The entries of the directory are not in the file of the free map. -/
theorem steady_entered (ledger : Ledger s.fs_device s.free_map L) (owned : L FREE_MAP_SECTOR = some m)
    (length : m.length.toNat = byte_cnt s.free_map.bit_cnt) (entered : Entered s.fs_device d' L k e) (asked : Nat) :
    Steady 0 s { forget s asked with fs_device := d' } := by
  refine steady_trans (steady_forget s asked) (steady_device (s := forget s asked) ledger owned length entered.size ?_)
  refine fun z within => entered.outside z fun j also inside => ?_
  exact ledger.apart FREE_MAP_SECTOR _ _ j owned also (by decide) z within (.inr inside)

/-- A string that fits is copied as it is. -/
theorem c_string_strlcpy (dst : Fin (NAME_MAX + 1) → Byte) (string : 0#8 ∉ name) (fits : name.length ≤ NAME_MAX) :
    c_string (strlcpy dst name) = name := by
  have short : min name.length NAME_MAX = name.length := Nat.min_eq_left fits
  have length : (List.ofFn (strlcpy dst name)).length = NAME_MAX + 1 := List.length_ofFn
  have first : (List.ofFn (strlcpy dst name)).take name.length = name := by
    refine List.ext_getElem (by rw [List.length_take,length]; omega) fun k _ below => ?_
    rw [List.getElem_take,List.getElem_ofFn,strlcpy,short,if_pos below]
    simp [List.getD,below]
  have ends : strlcpy dst name ⟨name.length,by omega⟩ = 0#8 := by
    rw [strlcpy,short,if_neg (Nat.lt_irrefl _),if_pos rfl]
  rw [c_string,← List.take_append_drop name.length (List.ofFn (strlcpy dst name)),first,
    List.drop_eq_getElem_cons (by rw [length]; omega),
    List.getElem_ofFn,ends,List.takeWhile_append_of_pos,List.takeWhile_cons_of_neg (by decide),List.append_nil]
  intro b member
  exact decide_eq_true fun zero => string (zero ▸ member)

theorem dir_add_spec (ledger : Ledger s.fs_device s.free_map L) (root : IsRoot s L a n) (string : 0#8 ∉ name)
    (small : x < 2 ^ 32) :
    ∃ ok m d', dir_add s a name x = some (ok,{ forget s m with fs_device := d' }) ∧ (ok = false → d' = s.fs_device) ∧
      (ok = true → name ≠ [] ∧ name.length ≤ NAME_MAX ∧ ∃ k e, k < entry_cnt ∧ Entered s.fs_device d' L k e ∧
        e.inode_sector.toNat = x ∧
        Names e name ∧ (Plenty s → (slot s.fs_device k).in_use = false ∧
          ∀ q < entry_cnt, ¬ Names (slot s.fs_device q) name)) := by
  rw [dir_add]
  by_cases bad : name = [] ∨ name.length > NAME_MAX
  · rw [if_pos bad]
    exact ⟨false,0,s.fs_device,rfl,fun _ => rfl,fun none_ => (by cases none_)⟩
  · obtain ⟨r,m,found,finds⟩ := lookup_spec ledger root name
    rw [if_neg bad,found]
    simp only [Option.bind_eq_bind,Option.bind_some]
    cases r with
    | some found => exact ⟨false,m,s.fs_device,rfl,fun _ => rfl,fun none_ => (by cases none_)⟩
    | none =>
      obtain ⟨k,e,m',ran,-,free⟩ := slotLoop_spec (entry_cnt + 1) 0 (forget s m).stack (forget s m) ledger (root_forget root m) (Nat.zero_add _)
      obtain ⟨new,made⟩ : ∃ new : DirEntry, { in_use := true, name := strlcpy e.name name, inode_sector := BitVec.ofNat 32 x } = new := ⟨_,rfl⟩
      obtain ⟨written,d',wrote,whole,nothing,-⟩ := write_slot (s := forget s (m + m')) ledger (root_forget root _) k new
      rw [Nat.mul_zero] at ran
      rw [turns_eq (s := forget s m) ledger (root_forget root m),ran]
      simp only [Option.bind_some,forget_forget,made,wrote]
      refine ⟨_,m + m' + 1,d',rfl,fun none_ => nothing (of_decide_eq_false none_),fun full => ?_⟩
      obtain ⟨below,entered⟩ := whole (of_decide_eq_true full)
      refine ⟨fun empty => bad (.inl empty),Nat.le_of_not_lt fun long => bad (.inr long),k,new,below,entered,?_,?_,
        fun plenty => ?_⟩
      · rw [← made]
        show (BitVec.ofNat 32 x).toNat = x
        rw [BitVec.toNat_ofNat,Nat.mod_eq_of_lt small]
      · rw [← made]
        exact ⟨rfl,(c_string_strlcpy _ string (Nat.le_of_not_lt fun long => bad (.inr long))).symm⟩
      · exact ⟨(free (plenty_forget plenty m)).2 below,fun q inside => finds plenty q (Nat.zero_le q) inside⟩

/-! ### The root directory -/

/-- What is in the root directory. -/
structure Root (d : Device) (t : Tables) (L : Nat → Option InodeDisk) : Prop where
  root : ∃ i, L ROOT_DIR_SECTOR = some i ∧ i.length.toNat = sizeof_dir_entry * entry_cnt
  named : ∀ k < entry_cnt, (slot d k).in_use = true → (∃ i, L (slot d k).inode_sector.toNat = some i) ∧
    (slot d k).inode_sector.toNat ≠ FREE_MAP_SECTOR ∧ (slot d k).inode_sector.toNat ≠ ROOT_DIR_SECTOR
  once : ∀ k < entry_cnt, ∀ l < entry_cnt, (slot d k).in_use = true → (slot d l).in_use = true →
    (slot d k).inode_sector.toNat = (slot d l).inode_sector.toNat → k = l
  removed : ∀ a n, t.inodes a = some n → n.removed = true → n.sector ≠ FREE_MAP_SECTOR ∧ n.sector ≠ ROOT_DIR_SECTOR ∧
    ∀ k < entry_cnt, (slot d k).in_use = true → (slot d k).inode_sector.toNat ≠ n.sector

/-- The device and the memory agree. -/
structure Sane (s : FileSystem) (L : Nat → Option InodeDisk) (extra : List Nat) : Prop where
  ledger : Ledger s.fs_device s.free_map L
  opened : Opened s.tables L extra
  mapped : Mapped s.tables s.free_map.bit_cnt
  root : Root s.fs_device s.tables L

theorem mapped_keep {t t' : Tables} {cnt : Nat} (mapped : Mapped t cnt) (map_file : t'.free_map_file = t.free_map_file)
    (files : ∀ f u, t.free_map_file = some f → t.files f = some u → t'.files f = some u)
    (inodes : ∀ b m, t.inodes b = some m → m.sector = FREE_MAP_SECTOR → ∃ m', t'.inodes b = some m' ∧ m'.sector = m.sector ∧
      m'.data = m.data) :
    Mapped t' cnt := by
  obtain ⟨f,u,m,file,found,writable,inode,sector,length⟩ := mapped
  obtain ⟨m',inode',sector',data⟩ := inodes _ m inode sector
  exact ⟨f,u,m',map_file.trans file,files f u file found,writable,inode',sector'.trans sector,by rw [data]; exact length⟩

/-- No file is on the root directory. -/
theorem root_alone (sane : Sane s L extra) (inode : s.inodes a = some n) (sector : n.sector = ROOT_DIR_SECTOR) {f : Nat}
    {u : File}
    (file : s.files f = some u) : u.inode ≠ a := by
  rintro rfl
  obtain ⟨g,v,m,map,found,-,there,mine,-⟩ := sane.mapped
  by_cases same : s.free_map_file = some f
  · have equal : s.free_map_file = some g := map
    rw [same] at equal
    cases equal
    have both : s.files f = some v := found
    rw [file] at both
    cases both
    have one : s.inodes u.inode = some m := there
    rw [inode] at one
    cases one
    rw [sector] at mine
    cases mine
  · exact (sane.opened.user f u n file same inode).2 sector

theorem root_refs (sane : Sane s L extra) (inode : s.inodes a = some n) (sector : n.sector = ROOT_DIR_SECTOR) :
    refs s.tables a = 0 := by
  rw [refs,List.countP_eq_zero]
  intro f _ there
  cases file : s.tables.files f with
  | none => simp [file] at there
  | some u =>
    simp only [file,Option.any_some,decide_eq_true_eq] at there
    exact root_alone sane inode sector file there

theorem is_root (sane : Sane s L extra) (inode : s.inodes a = some n) (sector : n.sector = ROOT_DIR_SECTOR) : IsRoot s L a n := by
  have stored : L ROOT_DIR_SECTOR = some n.data := sector ▸ sane.opened.stored a n inode
  obtain ⟨i,owned,length⟩ := sane.root.root
  rw [stored] at owned
  cases owned
  refine ⟨inode,sector,stored,length,?_⟩
  rw [sane.opened.deny a n inode,denials,List.countP_eq_zero]
  intro f _ there
  cases file : s.tables.files f with
  | none => simp [file] at there
  | some u =>
    simp only [file,Option.any_some,decide_eq_true_eq,Bool.and_eq_true] at there
    exact root_alone sane inode sector file there.1

/-- Writes of the free map spare the root directory. -/
theorem slot_map {map : Bitmap} (ledger : Ledger d map L)
    (root : ∃ i, L ROOT_DIR_SECTOR = some i ∧ i.length.toNat = sizeof_dir_entry * entry_cnt)
    (outside : ∀ z, (∀ m, L FREE_MAP_SECTOR = some m → ¬ Extent m z) → d'.data z = d.data z) (below : k < entry_cnt) :
    slot d' k = slot d k := by
  obtain ⟨i,owned,length⟩ := root
  refine slot_same ledger owned below length fun z mine => outside z fun m theirs inside => ?_
  exact ledger.apart _ _ i m owned theirs (by decide) z mine (.inr inside)

/-! ### Removing an entry -/

theorem closed_other {y : Nat} (other : n.open_cnt = 1 → y ≠ n.sector) : closed L n y = L y := by
  rw [closed]
  split
  · next ends => exact Function.update_of_ne (other ends.1) _ _
  · rfl

/-- The entry `k` is gone, and its inode with the last that has it open. -/
structure Unlinked (s s' : FileSystem) (L L' : Nat → Option InodeDisk) (k : Nat) : Prop where
  below : k < entry_cnt
  used : (slot s.fs_device k).in_use = true
  here : (slot s'.fs_device k).in_use = false
  others : ∀ l < entry_cnt, l ≠ k → slot s'.fs_device l = slot s.fs_device l
  outside : ∀ z, (∀ i, L ROOT_DIR_SECTOR = some i → ¬ Extent i z) → (∀ m, L FREE_MAP_SECTOR = some m → ¬ Extent m z) →
    s'.fs_device.data z = s.fs_device.data z
  inodes : ∀ b, s'.inodes b = (s.inodes b).map fun n => if n.sector = (slot s.fs_device k).inode_sector.toNat then { n with removed := true } else n
  kept : (∃ b n, s.inodes b = some n ∧ n.sector = (slot s.fs_device k).inode_sector.toNat) → L' = L
  gone : (∀ b n, s.inodes b = some n → n.sector ≠ (slot s.fs_device k).inode_sector.toNat) →
    L' = Function.update L (slot s.fs_device k).inode_sector.toNat none

theorem sane_keep {held : List Nat} (sane : Sane s L extra) (opened : Opened s'.tables L held)
    (device : s'.fs_device = s.fs_device)
    (map : s'.free_map = s.free_map) (inodes : s'.inodes = s.inodes) (map_file : s'.free_map_file = s.free_map_file)
    (files : s'.files = s.files) : Sane s' L held where
  ledger := by rw [device,map]; exact sane.ledger
  opened := opened
  mapped := by
    rw [map]
    refine mapped_keep sane.mapped map_file (fun f u _ found => ?_) fun b m found _ => ⟨m,?_,rfl,rfl⟩
    · show s'.files f = some u
      rw [files]
      exact found
    · show s'.inodes b = some m
      rw [inodes]
      exact found
  root := by
    rw [device]
    refine ⟨sane.root.root,sane.root.named,sane.root.once,fun b m found => sane.root.removed b m ?_⟩
    have there : s'.inodes b = some m := found
    rw [inodes] at there
    exact there

theorem sane_forget (sane : Sane s L extra) (m : Nat) : Sane (forget s m) L extra :=
  ⟨sane.ledger,sane.opened,sane.mapped,⟨sane.root.root,sane.root.named,sane.root.once,sane.root.removed⟩⟩

/-- An inode that was taken is given back. -/
theorem give_back {t : Tables} {extra : List Nat} {b : Nat} (positive : ∀ m, t.inodes b = some m → 0 < m.open_cnt)
    (takes : Takes t s.inodes b x i) (opened : Opened s.tables L (b :: extra)) (ledger : Ledger s.fs_device s.free_map L)
    (mapped : Mapped s.tables s.free_map.bit_cnt) :
    ∃ s', inode_close s b = some s' ∧ Same s s' ∧ s'.inodes = t.inodes ∧ Opened s'.tables L extra := by
  obtain ⟨m,found,sector,data,removed⟩ := takes_found takes
  have stays : ¬ Ends m := by
    rintro ⟨one,gone⟩
    rcases takes with ⟨q,was,-,-,changed⟩ | ⟨was,-,changed⟩
    · rw [changed,Function.update_self] at found
      cases found
      have counted := positive q was
      have two : q.open_cnt + 1 = 1 := one
      omega
    · rw [removed,was] at gone
      cases gone
  obtain ⟨s',ran,done⟩ := inode_close_spec ledger (map_file opened mapped) found (opened.stored b m found) fun ends => absurd ends stays
  have close : ∀ c, s'.inodes c = (s.tables.close b m).inodes c := fun c => congrFun (congrArg Tables.inodes done.tables) c
  have same : closed L m = L := if_neg stays
  obtain ⟨device,map,map_memory⟩ := done.kept stays
  refine ⟨s',ran,⟨device,map,?_,?_,map_memory,0,done.memory⟩,funext fun c => ?_,?_⟩
  · have files : s'.free_map_file = _ := congrArg Tables.free_map_file done.tables
    rw [files,close_map_file]
    rfl
  · have files : s'.files = _ := congrArg Tables.files done.tables
    rw [files,close_files]
    rfl
  · have back := takes_close (q := s.tables) positive takes found m.removed (v := some m) c
    rw [show Function.update s.tables.inodes b (some m) = s.tables.inodes from (funext fun d => by
      by_cases here : d = b
      · rw [here,Function.update_self]
        exact found.symm
      · exact Function.update_of_ne here _ _)] at back
    rw [close,back]
    split
    · next here =>
      rw [here]
      rw [here] at back
      cases was : t.inodes b with
      | none => rfl
      | some q =>
        rw [was] at removed
        rw [removed]
        rfl
    · rfl
  · rw [done.tables]
    exact opened_close_ref opened found fun y _ => rfl

/-- Only the inode that is taken has its sector. -/
theorem takes_sector {inodes : Nat → Option Inode} {b c : Nat} {p : Inode} (sane : Sane s L extra)
    (takes : Takes s.tables inodes b x i) (there : s.inodes c = some p) : p.sector = x ↔ c = b := by
  rcases takes with ⟨q,before,same,-,-⟩ | ⟨before,closed,-⟩
  · constructor
    · exact fun equal => sane.opened.sector c b p q there before (equal.trans same.symm)
    · rintro rfl
      have one : s.inodes c = some q := before
      rw [there] at one
      cases one
      exact same
  · refine ⟨fun equal => absurd equal (closed c p there),?_⟩
    rintro rfl
    have one : s.inodes c = none := before
    rw [there] at one
    cases one

/-- It is open once where it was not open before. -/
theorem takes_last {inodes : Nat → Option Inode} {b : Nat} {m : Inode} (sane : Sane s L extra)
    (takes : Takes s.tables inodes b x i) (found : inodes b = some m) :
    m.open_cnt = 1 ↔ ∀ c p, s.inodes c = some p → p.sector ≠ x := by
  rcases takes with ⟨q,before,same,-,changed⟩ | ⟨-,closed,changed⟩
  · rw [changed,Function.update_self] at found
    cases found
    have positive := (sane.opened.count b q before).2
    exact ⟨fun one => absurd one (show q.open_cnt + 1 ≠ 1 by omega),fun none_ => absurd same (none_ b q before)⟩
  · rw [changed,Function.update_self] at found
    cases found
    exact ⟨fun _ => closed,fun _ => rfl⟩

/-- The directory without the entry `k`, and with the inodes of its sector removed. -/
theorem root_unlinked {t t' : Tables} {L' : Nat → Option InodeDisk} (root : Root d t L) (below : k < entry_cnt)
    (used : (slot d k).in_use = true) (here : (slot d' k).in_use = false)
    (others : ∀ l < entry_cnt, l ≠ k → slot d' l = slot d l) (stays : ∀ y, y ≠ (slot d k).inode_sector.toNat → L' y = L y)
    (inodes : ∀ c, t'.inodes c =
      (t.inodes c).map fun n => if n.sector = (slot d k).inode_sector.toNat then { n with removed := true } else n) :
    Root d' t' L' := by
  obtain ⟨-,notMap,notRoot⟩ := root.named k below used
  have left : ∀ l < entry_cnt, (slot d' l).in_use = true → l ≠ k ∧ slot d' l = slot d l := by
    intro l inside busy
    have other : l ≠ k := by
      rintro rfl
      rw [here] at busy
      cases busy
    exact ⟨other,others l inside other⟩
  refine ⟨?_,?_,?_,?_⟩
  · obtain ⟨i,first,length⟩ := root.root
    exact ⟨i,by rw [stays _ notRoot.symm]; exact first,length⟩
  · intro l inside busy
    obtain ⟨other,same⟩ := left l inside busy
    rw [same] at busy ⊢
    obtain ⟨there,rest⟩ := root.named l inside busy
    exact ⟨by rw [stays _ fun equal => other (root.once l inside k below busy used equal)]; exact there,rest⟩
  · intro l inside l' inside' busy busy'
    obtain ⟨-,same⟩ := left l inside busy
    obtain ⟨-,same'⟩ := left l' inside' busy'
    rw [same] at busy ⊢
    rw [same'] at busy' ⊢
    exact root.once l inside l' inside' busy busy'
  · intro c p there gone
    rw [inodes] at there
    obtain ⟨q,before,changed⟩ := Option.map_eq_some_iff.mp there
    by_cases equal : q.sector = (slot d k).inode_sector.toNat
    · rw [if_pos equal] at changed
      cases changed
      refine ⟨by rw [equal]; exact notMap,by rw [equal]; exact notRoot,fun l inside busy => ?_⟩
      obtain ⟨other,same⟩ := left l inside busy
      rw [same] at busy ⊢
      exact fun also => other (root.once l inside k below busy used (also.trans equal))
    · rw [if_neg equal] at changed
      cases changed
      obtain ⟨one,two,three⟩ := root.removed c _ before gone
      refine ⟨one,two,fun l inside busy => ?_⟩
      obtain ⟨-,same⟩ := left l inside busy
      rw [same] at busy ⊢
      exact three l inside busy

/-- The name is removed, and its inode with the last reference. -/
theorem unlink_spec {b : Nat} {m : Inode} {t : Tables} (s' : FileSystem) (sane : Sane s L [a]) (inode : s.inodes a = some n)
    (sector : n.sector = ROOT_DIR_SECTOR) (below : k < entry_cnt)
    (used : (slot s.fs_device k).in_use = true) (owned : L (slot s.fs_device k).inode_sector.toNat = some i)
    (entered : Entered s.fs_device s'.fs_device L k { slot s.fs_device k with in_use := false })
    (map : s'.free_map = s.free_map) (files : s'.files = s.files) (file : s'.free_map_file = s.free_map_file)
    (opened : Opened t L (b :: a :: [])) (takes : Takes s.tables t.inodes b (slot s.fs_device k).inode_sector.toNat i)
    (found : t.inodes b = some m)
    (tables : s'.tables = { t with inodes := Function.update t.inodes b (some { m with removed := true }) }) :
    ∃ s'' L', inode_close s' b = some s'' ∧ Steady 2 s' s'' ∧ s''.files = s.files ∧ s''.free_map_file = s.free_map_file ∧
      Unlinked s s'' L L' k ∧ Sane s'' L' [a] := by
  obtain ⟨-,notMap,notRoot⟩ := sane.root.named k below used
  have root := is_root sane inode sector
  obtain ⟨m',found',mine,data,-⟩ := takes_found takes
  rw [found] at found'
  cases found'
  have inodes' : s'.inodes = Function.update t.inodes b (some { m with removed := true }) := congrArg Tables.inodes tables
  have ledger' : Ledger s'.fs_device s'.free_map L := by
    rw [map]
    refine ledger_outside sane.ledger root.stored entered.size fun z out => entered.outside z fun i also => ?_
    rw [root.stored] at also
    cases also
    exact out
  have opened' : Opened s'.tables L [b,a] := by
    rw [tables]
    exact opened_remove opened found
  have mapped' : Mapped s'.tables s'.free_map.bit_cnt := by
    rw [map]
    refine mapped_keep sane.mapped file (fun f u _ there => ?_) fun c p there first => ⟨p,?_,rfl,rfl⟩
    · show s'.files f = some u
      rw [files]
      exact there
    · have other : c ≠ b := fun same => notMap (((takes_sector sane takes there).mpr same).symm.trans first)
      show s'.inodes c = some p
      rw [inodes',Function.update_of_ne other,takes_other takes other]
      exact there
  obtain ⟨s'',ran,done⟩ := inode_close_spec (a := b) (n := { m with removed := true }) ledger' (map_file opened' mapped')
    (by rw [inodes',Function.update_self]) (by rw [mine,data]; exact owned) (fun _ => by rw [mine]; exact notMap)
  have inodes'' : ∀ c, s''.inodes c =
      (s.inodes c).map fun n => if n.sector = (slot s.fs_device k).inode_sector.toNat then { n with removed := true } else n := by
    intro c
    have close : s''.inodes c = _ := congrFun (congrArg Tables.inodes done.tables) c
    rw [tables,takes_close (fun q was => (sane.opened.count b q was).2) takes found true c] at close
    rw [close]
    show (if c = b then (s.inodes c).map _ else s.inodes c) = _
    cases there : s.inodes c with
    | none => simp
    | some p =>
      by_cases same : c = b
      · rw [if_pos same,Option.map_some,Option.map_some,if_pos ((takes_sector sane takes there).mpr same)]
      · rw [if_neg same,Option.map_some,if_neg fun equal => same ((takes_sector sane takes there).mp equal)]
  have files'' : s''.files = s.files := by
    have close : s''.files = _ := congrArg Tables.files done.tables
    rw [close,close_files]
    exact files
  have map_file'' : s''.free_map_file = s.free_map_file := by
    have close : s''.free_map_file = _ := congrArg Tables.free_map_file done.tables
    rw [close,close_map_file]
    exact file
  have slots : ∀ l < entry_cnt, slot s''.fs_device l = slot s'.fs_device l :=
    fun l inside => slot_map ledger' sane.root.root done.outside inside
  have here : (slot s''.fs_device k).in_use = false := by rw [slots k below,entered.here]
  have others : ∀ l < entry_cnt, l ≠ k → slot s''.fs_device l = slot s.fs_device l :=
    fun l inside other => (slots l inside).trans (entered.others l inside other)
  have stays : ∀ y, y ≠ (slot s.fs_device k).inode_sector.toNat → closed L { m with removed := true } y = L y := fun y other =>
    closed_other fun _ => by rw [mine]; exact other
  have last := takes_last sane takes found
  refine ⟨s'',_,ran,done.steady,files'',map_file'',⟨below,used,here,others,?_,inodes'',?_,?_⟩,⟨done.ledger,?_,?_,?_⟩⟩
  · exact fun z outRoot outMap => (done.outside z outMap).trans (entered.outside z outRoot)
  · rintro ⟨c,p,there,same⟩
    exact if_neg fun ends => last.mp ends.1 c p there same
  · intro none_
    have ends : Ends { m with removed := true } := ⟨last.mpr none_,rfl⟩
    rw [closed,if_pos ends,mine]
  · rw [done.tables]
    exact opened_close_ref opened' (by rw [tables]; exact Function.update_self ..) fun y other => closed_other other
  · rw [done.steady.bits,map]
    refine mapped_keep sane.mapped map_file'' (fun f u _ there => ?_) fun c p there _ => ?_
    · show s''.files f = some u
      rw [files'']
      exact there
    · have one : s.inodes c = some p := there
      show ∃ m', s''.inodes c = some m' ∧ _
      rw [inodes'',one,Option.map_some]
      refine ⟨_,rfl,?_,?_⟩
      · split <;> rfl
      · split <;> rfl
  · exact root_unlinked sane.root below used here others stays inodes''

theorem dir_remove_spec (sane : Sane s L [a]) (inode : s.inodes a = some n) (sector : n.sector = ROOT_DIR_SECTOR)
    (name : List Byte) :
    ∃ ok s', dir_remove s a name = some (ok,s') ∧ Steady 2 s s' ∧ s'.files = s.files ∧ s'.free_map_file = s.free_map_file ∧
      (ok = false → s'.fs_device = s.fs_device ∧ s'.free_map = s.free_map ∧ s'.inodes = s.inodes ∧ Sane s' L [a] ∧
        (Plenty s → ∀ q < entry_cnt, ¬ Names (slot s.fs_device q) name)) ∧
      (ok = true → ∃ k L', Names (slot s.fs_device k) name ∧ Unlinked s s' L L' k ∧ Sane s' L' [a]) := by
  have root := is_root sane inode sector
  obtain ⟨r,j,looked,finds⟩ := lookup_spec sane.ledger root name
  rw [dir_remove,looked]
  simp only [Option.bind_eq_bind,Option.bind_some]
  have quiet : Sane (forget s j) L [a] := sane_forget sane j
  cases r with
  | none =>
    exact ⟨false,forget s j,rfl,steady_mono (steady_forget s j) (Nat.zero_le 2),rfl,rfl,
      fun _ => ⟨rfl,rfl,rfl,quiet,fun plenty q below => finds plenty q (Nat.zero_le q) below⟩,fun none_ => (by cases none_)⟩
  | some found =>
    obtain ⟨e,ofs⟩ := found
    obtain ⟨k,-,below,rfl,rfl,names,-⟩ := finds
    obtain ⟨⟨i,owned⟩,-,notRoot⟩ := sane.root.named k below names.1
    obtain ⟨answer,s₁,opens,same,none_,some_⟩ := inode_open_spec (s := forget s j) sane.ledger sane.opened owned
    simp only [opens,Option.bind_some]
    have steady₁ : Steady 0 s s₁ := steady_trans (steady_forget s j) (same_steady same)
    cases answer with
    | none =>
      obtain ⟨tables,memory⟩ := none_ rfl
      refine ⟨false,s₁,rfl,steady_mono steady₁ (Nat.zero_le 2),same.files,same.free_map_file,
        fun _ => ⟨same.fs_device,same.free_map,
        congrArg Tables.inodes tables,?_,fun plenty => ?_⟩,fun none_ => (by cases none_)⟩
      · exact sane_keep sane (by rw [tables]; exact sane.opened) same.fs_device same.free_map (congrArg Tables.inodes tables)
          same.free_map_file same.files
      · rw [(plenty_forget plenty j).1 0] at memory
        cases memory
    | some b =>
      obtain ⟨opened,takes⟩ := some_ b rfl
      obtain ⟨m,there,mine,data,removed⟩ := takes_found takes
      have other : a ≠ b := fun equal => notRoot (((takes_sector sane takes inode).mpr equal).symm.trans sector)
      have device : s₁.fs_device = s.fs_device := same.fs_device
      have map₁ : s₁.free_map = s.free_map := same.free_map
      have root₁ : IsRoot s₁ L a n := ⟨(takes_other takes other).trans inode,sector,root.stored,root.length,root.writable⟩
      obtain ⟨written,d',wrote,whole,nothing,enough⟩ := write_slot (s := s₁) (by rw [device,map₁]; exact sane.ledger) root₁ k
        { slot s.fs_device k with in_use := false }
      simp only [wrote,Option.bind_some]
      have steady₂ : Steady 0 s { forget s₁ 1 with fs_device := d' } := by
        obtain ⟨-,-,p,-,-,-,-,mine,length⟩ := map_file sane.opened sane.mapped
        refine @steady_trans _ _ _ 0 0 steady₁ ?_
        by_cases full : written = sizeof_dir_entry
        · refine steady_entered ?_ mine ?_ (whole full).2 1
          · rw [device,map₁]
            exact sane.ledger
          · rw [map₁]
            exact length
        · rw [nothing full]
          exact steady_forget s₁ 1
      by_cases full : written = sizeof_dir_entry
      · obtain ⟨-,entered⟩ := whole full
        rw [device] at entered
        obtain ⟨s₂,L',ran,steady',files,map_file,unlinked,sane'⟩ := unlink_spec
          { forget s₁ 1 with fs_device := d', inodes := Function.update s₁.inodes b (some { m with removed := true }) } sane inode sector below names.1 owned entered map₁ same.files same.free_map_file opened takes there rfl
        refine ⟨true,s₂,?_,?_,files,map_file,fun none_ => (by cases none_),fun _ => ⟨k,L',names,unlinked,sane'⟩⟩
        · rw [if_pos full,inode_remove]
          show (Option.bind (s₁.inodes b) _).bind _ = _
          have there' : s₁.inodes b = some m := there
          rw [there']
          simp only [Option.bind_some]
          show (inode_close { forget s₁ 1 with fs_device := d', inodes := Function.update s₁.inodes b (some { m with removed := true }) } b).map _ = _
          rw [ran]
          rfl
        · have marked : Steady 0 { forget s₁ 1 with fs_device := d' }
              { forget s₁ 1 with fs_device := d', inodes := Function.update s₁.inodes b (some { m with removed := true }) } :=
            steady_same rfl rfl rfl id fun _ _ => rfl
          exact steady_trans steady₂ (steady_trans marked steady')
      · have kept : d' = s.fs_device := (nothing full).trans device
        have mapped : Mapped s₁.tables s₁.free_map.bit_cnt := by
          rw [map₁]
          refine mapped_keep sane.mapped same.free_map_file (fun f u _ found => ?_) fun c p found first => ?_
          · show s₁.files f = some u
            rw [same.files]
            exact found
          · exact takes_kept takes found
        rw [if_neg full]
        obtain ⟨s₂,ran,back,inodes,opened₂⟩ := give_back (s := { forget s₁ 1 with fs_device := d' })
          (fun q was => (sane.opened.count b q was).2) takes opened (by rw [kept]; exact map₁ ▸ sane.ledger) mapped
        have files' : s₂.files = s.files := back.files.trans same.files
        have map_file' : s₂.free_map_file = s.free_map_file := back.free_map_file.trans same.free_map_file
        have device' : s₂.fs_device = s.fs_device := back.fs_device.trans kept
        have map' : s₂.free_map = s.free_map := back.free_map.trans map₁
        refine ⟨false,s₂,by rw [ran]; rfl,steady_mono (steady_trans steady₂ (same_steady back)) (Nat.zero_le 2),files',map_file',
          fun _ => ⟨device',map',inodes,?_,fun plenty => ?_⟩,fun none_ => (by cases none_)⟩
        · exact sane_keep sane opened₂ device' map' inodes map_file' files'
        · exact absurd (enough ((steady₁.plenty plenty).1 0) below) full
end

end Pintos.FileSystem
