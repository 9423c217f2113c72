import Pintos.Extents
import Pintos.Lists

/-!
Who owns which sectors. A ledger gives the inode of each sector that holds one, and the
tables in memory agree with it: an open inode is that of its sector, and is open as
often as it is referred to, by the files on it and by the call that is going on.
-/
namespace Pintos.FileSystem
open Pintos.Machines Pintos.Bitmaps Pintos.Lists
set_option linter.unusedSimpArgs false

/-- The sectors of the data of an inode. -/
def Extent (i : InodeDisk) (z : Nat) : Prop := i.start.toNat ≤ z ∧ z < i.start.toNat + bytes_to_sectors i.length
/-- The sectors of a file whose inode is in sector `x`. -/
def Span (x : Nat) (i : InodeDisk) (z : Nat) : Prop := z = x ∨ Extent i z

structure Ledger (d : Device) (map : Bitmap) (L : Nat → Option InodeDisk) : Prop where
  device : d.size < 2 ^ 31 ∧ map.bit_cnt = d.size
  sector : ∀ x i, L x = some i → x < d.size
  extent : ∀ x i, L x = some i → i.start.toNat + bytes_to_sectors i.length ≤ d.size
  length : ∀ x i, L x = some i → i.length.toNat + 511 < 2 ^ 31
  stored : ∀ x i, L x = some i → inode_disk (d.data x) = i
  own : ∀ x i, L x = some i → ¬ Extent i x
  apart : ∀ x y i j, L x = some i → L y = some j → x ≠ y → ∀ z, Span x i z → ¬ Span y j z
  used : ∀ x i, L x = some i → ∀ z, Span x i z → map.has z = true

/-- What is in memory of inodes and files. -/
structure Tables where
  open_inodes : List Nat
  inodes : Nat → Option Inode
  files : Nat → Option File
  next : Nat
  free_map_file : Option Nat

def FileSystem.tables (s : FileSystem) : Tables where
  open_inodes := s.open_inodes
  inodes := s.inodes
  files := s.files
  next := s.next
  free_map_file := s.free_map_file

/-- How many files are on an inode, and how many of them deny writes. -/
def refs (t : Tables) (a : Nat) : Nat := (List.range t.next).countP fun f => (t.files f).any fun x => x.inode = a
def denials (t : Tables) (a : Nat) : Nat := (List.range t.next).countP fun f => (t.files f).any fun x => x.inode = a && x.deny_write

/-- `extra` are the references of the call that is going on. -/
structure Opened (t : Tables) (L : Nat → Option InodeDisk) (extra : List Nat) : Prop where
  once : t.open_inodes.Nodup
  listed : ∀ a, a ∈ t.open_inodes ↔ t.inodes a ≠ none
  stored : ∀ a i, t.inodes a = some i → L i.sector = some i.data
  count : ∀ a i, t.inodes a = some i → i.open_cnt = refs t a + extra.count a ∧ 0 < i.open_cnt
  deny : ∀ a i, t.inodes a = some i → i.deny_write_cnt = denials t a
  sector : ∀ a b i j, t.inodes a = some i → t.inodes b = some j → i.sector = j.sector → a = b
  file : ∀ f x, t.files f = some x → t.inodes x.inode ≠ none
  held : ∀ a ∈ extra, t.inodes a ≠ none
  fresh : ∀ a, t.next ≤ a → t.inodes a = none ∧ t.files a = none
  /-- Only the kernel's own file is on the free map, and none is on the root directory. -/
  user : ∀ f x i, t.files f = some x → t.free_map_file ≠ some f → t.inodes x.inode = some i →
    i.sector ≠ FREE_MAP_SECTOR ∧ i.sector ≠ ROOT_DIR_SECTOR

/-- The file of the free map is open. -/
def Mapped (t : Tables) (bit_cnt : Nat) : Prop :=
  ∃ f x i, t.free_map_file = some f ∧ t.files f = some x ∧ x.deny_write = false ∧ t.inodes x.inode = some i ∧
    i.sector = FREE_MAP_SECTOR ∧ i.data.length.toNat = byte_cnt bit_cnt

section
variable {d d' : Device} {map map' : Bitmap} {L L' : Nat → Option InodeDisk} {x y z a b f : Nat} {i j : InodeDisk} {n m : Inode}
  {t t' : Tables} {extra : List Nat} {u : File}

/-! ### Sectors -/

theorem ledger_off_t (ledger : Ledger d map L) (owned : L x = some i) : off_t i.length = i.length.toNat := by
  have small := ledger.length x i owned
  exact off_t_eq (by omega)

theorem ledger_sectors (ledger : Ledger d map L) (owned : L x = some i) :
    bytes_to_sectors i.length = (i.length.toNat + 511) / 512 := by
  have small := ledger.length x i owned
  have nonnegative : 0 ≤ i.length.toInt := by
    rw [BitVec.toInt_eq_toNat_of_lt (by omega)]
    exact Int.natCast_nonneg _
  rcases bytes_to_sectors_spec nonnegative with ⟨-,rounded⟩ | ⟨large,-⟩
  · exact rounded
  · omega

/-- Every byte of a file is in its extent. -/
theorem extent_pos (ledger : Ledger d map L) (owned : L x = some i) {pos : Nat} (below : pos < off_t i.length) :
    Extent i (i.start.toNat + pos / BLOCK_SECTOR_SIZE) := by
  rw [ledger_off_t ledger owned] at below
  rw [Extent,ledger_sectors ledger owned,BLOCK_SECTOR_SIZE]
  omega

theorem ledger_inside (ledger : Ledger d map L) (owned : L x = some i) : Inside d i := by
  refine ⟨ledger.device.1,fun pos below => ?_⟩
  have within := extent_pos ledger owned below
  have room := ledger.extent x i owned
  rw [Extent] at within
  omega

/-- The inodes stay where they are. -/
theorem ledger_data (ledger : Ledger d map L) (size : d'.size = d.size) (same : ∀ x i, L x = some i → d'.data x = d.data x) :
    Ledger d' map L where
  device := by rw [size]; exact ledger.device
  sector := by rw [size]; exact ledger.sector
  extent := by rw [size]; exact ledger.extent
  length := ledger.length
  stored x i owned := by rw [same x i owned]; exact ledger.stored x i owned
  own := ledger.own
  apart := ledger.apart
  used := ledger.used

theorem ledger_map (ledger : Ledger d map L) (cnt : map'.bit_cnt = map.bit_cnt)
    (used : ∀ x i, L x = some i → ∀ z, Span x i z → map'.has z = true) : Ledger d map' L where
  device := by rw [cnt]; exact ledger.device
  sector := ledger.sector
  extent := ledger.extent
  length := ledger.length
  stored := ledger.stored
  own := ledger.own
  apart := ledger.apart
  used := used

theorem ledger_remove (ledger : Ledger d map L) (y : Nat) : Ledger d map (Function.update L y none) := by
  have kept : ∀ x i, Function.update L y none x = some i → L x = some i := by
    intro x i owned
    by_cases same : x = y
    · subst same
      simp at owned
    · rwa [Function.update_of_ne same] at owned
  exact ⟨ledger.device,fun x i owned => ledger.sector x i (kept x i owned),fun x i owned => ledger.extent x i (kept x i owned),
    fun x i owned => ledger.length x i (kept x i owned),fun x i owned => ledger.stored x i (kept x i owned),
    fun x i owned => ledger.own x i (kept x i owned),
    fun x y i j one two => ledger.apart x y i j (kept x i one) (kept y j two),
    fun x i owned => ledger.used x i (kept x i owned)⟩

theorem ledger_insert (ledger : Ledger d map L) (sector : y < d.size)
    (extent : j.start.toNat + bytes_to_sectors j.length ≤ d.size)
    (length : j.length.toNat + 511 < 2 ^ 31) (stored : inode_disk (d.data y) = j) (own : ¬ Extent j y)
    (apart : ∀ x i, L x = some i → x ≠ y → ∀ z, Span y j z → ¬ Span x i z) (used : ∀ z, Span y j z → map.has z = true) :
    Ledger d map (Function.update L y (some j)) := by
  have cases_ : ∀ {P : Nat → InodeDisk → Prop}, P y j → (∀ x i, L x = some i → x ≠ y → P x i) →
      ∀ x i, Function.update L y (some j) x = some i → P x i := by
    intro P new old x i owned
    by_cases same : x = y
    · subst same
      rw [Function.update_self] at owned
      cases owned
      exact new
    · rw [Function.update_of_ne same] at owned
      exact old x i owned same
  refine ⟨ledger.device,cases_ sector fun x i owned _ => ledger.sector x i owned,cases_ extent fun x i owned _ => ledger.extent x i owned,
    cases_ length fun x i owned _ => ledger.length x i owned,cases_ stored fun x i owned _ => ledger.stored x i owned,
    cases_ own fun x i owned _ => ledger.own x i owned,?_,cases_ used fun x i owned _ => ledger.used x i owned⟩
  intro x x' i i' one two
  revert two
  refine cases_ (P := fun x' i' => x ≠ x' → ∀ z, Span x i z → ¬ Span x' i' z) ?_ ?_ x' i'
  · refine cases_ (P := fun x i => x ≠ y → ∀ z, Span x i z → ¬ Span y j z) (fun other => absurd rfl other) ?_ x i one
    exact fun x i owned other _ z inside new => apart x i owned other z new inside
  · intro x' i' owned other
    refine cases_ (P := fun x i => x ≠ x' → ∀ z, Span x i z → ¬ Span x' i' z) ?_ ?_ x i one
    · exact fun different => apart x' i' owned other
    · exact fun x i also _ => ledger.apart x x' i i' also owned

/-! ### References -/

theorem file_known (opened : Opened t L extra) (found : t.files f = some u) : f < t.next := by
  refine Nat.lt_of_not_le fun later => ?_
  rw [(opened.fresh f later).2] at found
  cases found

/-- The files on an inode once one of them has changed. -/
theorem refs_update (known : f < t.next) (after : Option File) (a : Nat) :
    refs { t with files := Function.update t.files f after } a + ((t.files f).any fun x => x.inode = a).toNat =
      refs t a + (after.any fun x => x.inode = a).toNat := by
  have change := countP_range_change (p := fun f => (t.files f).any fun x => decide (x.inode = a))
    (q := fun g => (Function.update t.files f after g).any fun x => decide (x.inode = a)) known
    (fun g other => by rw [Function.update_of_ne other])
  rwa [Function.update_self] at change

theorem denials_update (known : f < t.next) (after : Option File) (a : Nat) :
    denials { t with files := Function.update t.files f after } a + ((t.files f).any fun x => x.inode = a && x.deny_write).toNat =
      denials t a + (after.any fun x => x.inode = a && x.deny_write).toNat := by
  have change := countP_range_change (p := fun f => (t.files f).any fun x => decide (x.inode = a) && x.deny_write)
    (q := fun g => (Function.update t.files f after g).any fun x => decide (x.inode = a) && x.deny_write) known
    (fun g other => by rw [Function.update_of_ne other])
  rwa [Function.update_self] at change

theorem update_inode {inodes : Nat → Option Inode} {v : Option Inode} (found : Function.update inodes a v b = some m) :
    (b = a ∧ v = some m) ∨ (b ≠ a ∧ inodes b = some m) := by
  by_cases same : b = a
  · subst same
    rw [Function.update_self] at found
    exact .inl ⟨rfl,found⟩
  · rw [Function.update_of_ne same] at found
    exact .inr ⟨same,found⟩

theorem update_some {inodes : Nat → Option Inode} (some_ : inodes b ≠ none) (n : Inode) :
    Function.update inodes a (some n) b ≠ none := by
  by_cases same : b = a
  · subst same
    rw [Function.update_self]
    exact Option.some_ne_none n
  · rwa [Function.update_of_ne same]

/-- Inodes and files change, but not which there are and what they are of. -/
theorem opened_adjust {inodes : Nat → Option Inode} {g : Nat → Option File} {h : List Nat} (opened : Opened t L extra)
    (same : ∀ b m, inodes b = some m → ∃ n, t.inodes b = some n ∧ m.sector = n.sector ∧ m.data = n.data)
    (kept : ∀ b, t.inodes b ≠ none → inodes b ≠ none)
    (old : ∀ f u, g f = some u → ∃ v, t.files f = some v ∧ u.inode = v.inode)
    (count : ∀ b m, inodes b = some m → m.open_cnt = refs { t with files := g } b + h.count b ∧ 0 < m.open_cnt)
    (deny : ∀ b m, inodes b = some m → m.deny_write_cnt = denials { t with files := g } b)
    (holds : ∀ b ∈ h, t.inodes b ≠ none) : Opened { t with inodes := inodes, files := g } L h where
  once := opened.once
  listed b := by
    rw [opened.listed]
    refine ⟨kept b,fun some_ => ?_⟩
    obtain ⟨m,found⟩ := Option.ne_none_iff_exists'.mp some_
    obtain ⟨n,before,-⟩ := same b m found
    rw [before]
    exact Option.some_ne_none n
  stored b m found := by
    obtain ⟨n,before,sector,data⟩ := same b m found
    rw [sector,data]
    exact opened.stored b n before
  count := count
  deny := deny
  sector b b' m m' one two equal := by
    obtain ⟨n,before,sector,-⟩ := same b m one
    obtain ⟨n',before',sector',-⟩ := same b' m' two
    exact opened.sector b b' n n' before before' (by rw [← sector,← sector',equal])
  file f u found := by
    obtain ⟨v,before,inode⟩ := old f u found
    rw [inode]
    exact kept _ (opened.file f v before)
  held b member := kept b (holds b member)
  fresh b later := by
    obtain ⟨inode,file⟩ := opened.fresh b later
    constructor
    · show inodes b = none
      cases found : inodes b with
      | none => rfl
      | some m =>
        obtain ⟨n,before,-⟩ := same b m found
        rw [inode] at before
        cases before
    · show g b = none
      cases found : g b with
      | none => rfl
      | some u =>
        obtain ⟨v,before,-⟩ := old b u found
        rw [file] at before
        cases before
  user f u m found other inode := by
    obtain ⟨v,before,same_⟩ := old f u found
    obtain ⟨n,was,sector,-⟩ := same _ m inode
    rw [sector]
    rw [same_] at was
    exact opened.user f v n before other was

theorem opened_reopen (opened : Opened t L extra) (found : t.inodes a = some n) :
    Opened { t with inodes := Function.update t.inodes a (some { n with open_cnt := n.open_cnt + 1 }) } L (a :: extra) := by
  refine opened_adjust (g := t.files) opened ?_ ?_ (fun f u file => ⟨u,file,rfl⟩) ?_ ?_ ?_
  · intro b m inode
    rcases update_inode inode with ⟨rfl,same⟩ | ⟨-,before⟩
    · cases same
      exact ⟨n,found,rfl,rfl⟩
    · exact ⟨m,before,rfl,rfl⟩
  · exact fun b some_ => update_some some_ _
  · intro b m inode
    rcases update_inode inode with ⟨rfl,same⟩ | ⟨other,before⟩
    · cases same
      have count := opened.count b n found
      rw [List.count_cons_self]
      exact ⟨by rw [count.1,Nat.add_assoc],Nat.succ_pos _⟩
    · rw [List.count_cons_of_ne other.symm]
      exact opened.count b m before
  · intro b m inode
    rcases update_inode inode with ⟨rfl,same⟩ | ⟨-,before⟩
    · cases same
      exact opened.deny b n found
    · exact opened.deny b m before
  · intro b member
    rcases List.mem_cons.mp member with rfl | before
    · rw [found]
      exact Option.some_ne_none n
    · exact opened.held b before

/-- What is counted in the files does not see a new number. -/
theorem refs_unused (unused : t.files t.next = none) (a : Nat) : refs { t with next := t.next + 1 } a = refs t a := by
  rw [refs,refs]
  show (List.range (t.next + 1)).countP _ = _
  rw [List.range_succ,List.countP_append,List.countP_singleton]
  simp [unused]

theorem denials_unused (unused : t.files t.next = none) (a : Nat) :
    denials { t with next := t.next + 1 } a = denials t a := by
  rw [denials,denials]
  show (List.range (t.next + 1)).countP _ = _
  rw [List.range_succ,List.countP_append,List.countP_singleton]
  simp [unused]

theorem refs_next (opened : Opened t L extra) (a : Nat) : refs { t with next := t.next + 1 } a = refs t a :=
  refs_unused (opened.fresh t.next (Nat.le_refl _)).2 a
theorem denials_next (opened : Opened t L extra) (a : Nat) : denials { t with next := t.next + 1 } a = denials t a :=
  denials_unused (opened.fresh t.next (Nat.le_refl _)).2 a

/-- No file is on an inode that is not open. -/
theorem refs_none (opened : Opened t L extra) (none_ : t.inodes a = none) : refs t a = 0 ∧ denials t a = 0 := by
  constructor
  · rw [refs,List.countP_eq_zero]
    intro f _ there
    cases found : t.files f with
    | none => simp [found] at there
    | some u =>
      simp only [found,Option.any_some,decide_eq_true_eq] at there
      exact opened.file f u found (there ▸ none_)
  · rw [denials,List.countP_eq_zero]
    intro f _ there
    cases found : t.files f with
    | none => simp [found] at there
    | some u =>
      simp only [found,Option.any_some,decide_eq_true_eq,Bool.and_eq_true] at there
      exact opened.file f u found (there.1 ▸ none_)

theorem opened_new (opened : Opened t L extra) (owned : L x = some i) (closed : ∀ b m, t.inodes b = some m → m.sector ≠ x) :
    Opened { t with
      open_inodes := t.next :: t.open_inodes
      inodes := Function.update t.inodes t.next (some { sector := x, open_cnt := 1, removed := false, deny_write_cnt := 0, data := i })
      next := t.next + 1 } L (t.next :: extra) := by
  obtain ⟨unused,unfiled⟩ := opened.fresh t.next (Nat.le_refl _)
  have counted : ∀ b, refs { t with
      open_inodes := t.next :: t.open_inodes
      inodes := Function.update t.inodes t.next (some { sector := x, open_cnt := 1, removed := false, deny_write_cnt := 0, data := i })
      next := t.next + 1 } b = refs t b := refs_next opened
  have denied : ∀ b, denials { t with
      open_inodes := t.next :: t.open_inodes
      inodes := Function.update t.inodes t.next (some { sector := x, open_cnt := 1, removed := false, deny_write_cnt := 0, data := i })
      next := t.next + 1 } b = denials t b := denials_next opened
  have elsewhere : ∀ b, t.inodes b ≠ none → b ≠ t.next := by
    rintro b some_ rfl
    exact some_ unused
  have nowhere := refs_none opened unused
  refine ⟨?_,?_,?_,?_,?_,?_,?_,?_,?_,?_⟩
  · exact List.nodup_cons.mpr ⟨fun member => (opened.listed t.next).mp member unused,opened.once⟩
  · intro b
    rw [List.mem_cons,opened.listed]
    by_cases same : b = t.next
    · subst same
      simp
    · simp [same]
  · intro b m inode
    rcases update_inode inode with ⟨rfl,same⟩ | ⟨-,before⟩
    · cases same
      exact owned
    · exact opened.stored b m before
  · intro b m inode
    rw [counted]
    rcases update_inode inode with ⟨rfl,same⟩ | ⟨other,before⟩
    · cases same
      rw [nowhere.1,List.count_cons_self,List.count_eq_zero.mpr fun member => opened.held _ member unused]
      exact ⟨rfl,Nat.one_pos⟩
    · rw [List.count_cons_of_ne other.symm]
      exact opened.count b m before
  · intro b m inode
    rw [denied]
    rcases update_inode inode with ⟨rfl,same⟩ | ⟨-,before⟩
    · cases same
      exact nowhere.2.symm
    · exact opened.deny b m before
  · intro b b' m m' one two equal
    rcases update_inode one with ⟨rfl,same⟩ | ⟨-,before⟩
    · cases same
      rcases update_inode two with ⟨rfl,-⟩ | ⟨-,before'⟩
      · rfl
      · exact absurd equal.symm (closed b' m' before')
    · rcases update_inode two with ⟨rfl,same⟩ | ⟨-,before'⟩
      · cases same
        exact absurd equal (closed b m before)
      · exact opened.sector b b' m m' before before' equal
  · intro f u found
    have before := opened.file f u found
    show Function.update t.inodes t.next _ _ ≠ none
    rwa [Function.update_of_ne (elsewhere _ before)]
  · intro b member
    show Function.update t.inodes t.next _ _ ≠ none
    rcases List.mem_cons.mp member with rfl | before
    · rw [Function.update_self]
      exact Option.some_ne_none _
    · have some_ := opened.held b before
      rwa [Function.update_of_ne (elsewhere b some_)]
  · intro b later
    have bound : t.next < b := later
    obtain ⟨inode,file⟩ := opened.fresh b (Nat.le_of_lt bound)
    refine ⟨?_,file⟩
    show Function.update t.inodes t.next _ _ = none
    rwa [Function.update_of_ne (Nat.ne_of_gt bound)]
  · intro f u m found other inode
    rcases update_inode inode with ⟨same,-⟩ | ⟨-,before⟩
    · exact absurd same (elsewhere _ (opened.file f u found))
    · exact opened.user f u m found other before

/-- The tables once a reference to an inode is dropped. -/
def Tables.close (t : Tables) (a : Nat) (n : Inode) : Tables :=
  if n.open_cnt = 1 then { t with open_inodes := t.open_inodes.erase a, inodes := Function.update t.inodes a none }
  else { t with inodes := Function.update t.inodes a (some { n with open_cnt := n.open_cnt - 1 }) }

@[simp] theorem close_files (t : Tables) (a : Nat) (n : Inode) : (t.close a n).files = t.files := by
  rw [Tables.close]
  split <;> rfl

@[simp] theorem close_map_file (t : Tables) (a : Nat) (n : Inode) : (t.close a n).free_map_file = t.free_map_file := by
  rw [Tables.close]
  split <;> rfl

theorem opened_close {g : Nat → Option File} {h : List Nat} (opened : Opened t L extra) (found : t.inodes a = some n)
    (old : ∀ f u, g f = some u → t.files f = some u)
    (counted : ∀ b, refs { t with files := g } b + h.count b + (if b = a then 1 else 0) = refs t b + extra.count b)
    (denied : ∀ b, denials { t with files := g } b = denials t b) (holds : ∀ b ∈ h, b ∈ extra)
    (ledger : ∀ y, (n.open_cnt = 1 → y ≠ n.sector) → L' y = L y) : Opened { t.close a n with files := g } L' h := by
  have mine := opened.count a n found
  have here := counted a
  rw [if_pos rfl,← mine.1] at here
  rw [Tables.close]
  by_cases last : n.open_cnt = 1
  · rw [if_pos last]
    have none_ : refs { t with files := g } a = 0 ∧ h.count a = 0 := by omega
    have gone : ∀ f u, g f = some u → u.inode ≠ a := by
      intro f u file same
      refine absurd none_.1 (Nat.ne_of_gt ?_)
      have before := old f u file
      rw [refs,List.countP_pos_iff]
      exact ⟨f,List.mem_range.mpr (show f < t.next from file_known opened before),by simp [file,same]⟩
    refine ⟨opened.once.erase a,?_,?_,?_,?_,?_,?_,?_,?_,?_⟩
    · intro b
      rw [opened.once.mem_erase_iff,opened.listed]
      by_cases same : b = a
      · subst same
        simp
      · simp [same]
    · intro b m inode
      rcases update_inode inode with ⟨-,nothing⟩ | ⟨other,before⟩
      · cases nothing
      · rw [ledger m.sector fun _ same => other (opened.sector b a m n before found same)]
        exact opened.stored b m before
    · intro b m inode
      rcases update_inode inode with ⟨-,nothing⟩ | ⟨other,before⟩
      · cases nothing
      · have count := opened.count b m before
        have there := counted b
        rw [if_neg other] at there
        exact ⟨count.1.trans there.symm,count.2⟩
    · intro b m inode
      rcases update_inode inode with ⟨-,nothing⟩ | ⟨other,before⟩
      · cases nothing
      · exact (opened.deny b m before).trans (denied b).symm
    · intro b b' m m' one two equal
      rcases update_inode one with ⟨-,nothing⟩ | ⟨-,before⟩
      · cases nothing
      · rcases update_inode two with ⟨-,nothing⟩ | ⟨-,before'⟩
        · cases nothing
        · exact opened.sector b b' m m' before before' equal
    · intro f u file
      show Function.update t.inodes a none _ ≠ none
      rw [Function.update_of_ne (gone f u file)]
      exact opened.file f u (old f u file)
    · intro b member
      have other : b ≠ a := by
        rintro rfl
        exact List.count_eq_zero.mp none_.2 member
      show Function.update t.inodes a none _ ≠ none
      rw [Function.update_of_ne other]
      exact opened.held b (holds b member)
    · intro b later
      obtain ⟨inode,file⟩ := opened.fresh b later
      constructor
      · show Function.update t.inodes a none _ = none
        by_cases same : b = a
        · rw [same,Function.update_self]
        · rwa [Function.update_of_ne same]
      · show g b = none
        cases there : g b with
        | none => rfl
        | some u =>
          rw [old b u there] at file
          cases file
    · intro f u m file other inode
      rcases update_inode inode with ⟨-,nothing⟩ | ⟨-,before⟩
      · cases nothing
      · exact opened.user f u m (old f u file) other before
  · rw [if_neg last]
    have same : L' = L := funext fun y => ledger y fun one => absurd one last
    rw [same]
    refine opened_adjust (t := t) opened ?_ ?_ (fun f u file => ⟨u,old f u file,rfl⟩) ?_ ?_ fun b member => opened.held b (holds b member)
    · intro b m inode
      rcases update_inode inode with ⟨rfl,same⟩ | ⟨-,before⟩
      · cases same
        exact ⟨n,found,rfl,rfl⟩
      · exact ⟨m,before,rfl,rfl⟩
    · exact fun b some_ => update_some some_ _
    · intro b m inode
      rcases update_inode inode with ⟨rfl,same⟩ | ⟨other,before⟩
      · cases same
        show n.open_cnt - 1 = _ ∧ 0 < n.open_cnt - 1
        omega
      · have count := opened.count b m before
        have there := counted b
        rw [if_neg other] at there
        exact ⟨count.1.trans there.symm,count.2⟩
    · intro b m inode
      rcases update_inode inode with ⟨rfl,same⟩ | ⟨-,before⟩
      · cases same
        exact (opened.deny b n found).trans (denied b).symm
      · exact (opened.deny b m before).trans (denied b).symm

theorem opened_close_ref (opened : Opened t L (a :: extra)) (found : t.inodes a = some n)
    (ledger : ∀ y, (n.open_cnt = 1 → y ≠ n.sector) → L' y = L y) : Opened (t.close a n) L' extra := by
  have closed := opened_close (g := t.files) (h := extra) opened found (fun _ _ file => file) ?_ (fun _ => rfl)
    (fun b member => List.mem_cons_of_mem a member) ledger
  · have same : { t.close a n with files := t.files } = t.close a n := by
      rw [Tables.close]
      split <;> rfl
    rwa [same] at closed
  · intro b
    by_cases same : b = a
    · subst same
      rw [if_pos rfl,List.count_cons_self]
      exact Nat.add_assoc ..
    · rw [if_neg same,List.count_cons_of_ne (Ne.symm same)]
      rfl

theorem opened_close_file (opened : Opened t L extra) (file : t.files f = some u) (found : t.inodes u.inode = some n)
    (writable : u.deny_write = false) (ledger : ∀ y, (n.open_cnt = 1 → y ≠ n.sector) → L' y = L y) :
    Opened { t.close u.inode n with files := Function.update t.files f none } L' extra := by
  have known := file_known opened file
  refine opened_close (h := extra) opened found ?_ ?_ ?_ (fun b member => member) ledger
  · intro g v there
    by_cases same : g = f
    · subst same
      rw [Function.update_self] at there
      cases there
    · rwa [Function.update_of_ne same] at there
  · intro b
    have change := refs_update known none b
    simp only [file,Option.any_some,Option.any_none,Bool.toNat_false,Nat.add_zero] at change
    by_cases same : b = u.inode
    · subst same
      simp only [decide_true,Bool.toNat_true] at change
      rw [if_pos rfl]
      omega
    · rw [if_neg same]
      simp only [decide_eq_false (Ne.symm same),Bool.toNat_false] at change
      omega
  · intro b
    have change := denials_update known none b
    simpa only [file,writable,Option.any_some,Option.any_none,Bool.toNat_false,Nat.add_zero,Bool.and_false] using change

/-- The call hands its reference on to a file. -/
theorem opened_file_open (opened : Opened t L (a :: extra)) (map_file : Option Nat)
    (user : ∀ f u n, Function.update t.files t.next (some { inode := a, pos := 0, deny_write := false }) f = some u →
      map_file ≠ some f →
      t.inodes u.inode = some n → n.sector ≠ FREE_MAP_SECTOR ∧ n.sector ≠ ROOT_DIR_SECTOR) :
    Opened { t with
      files := Function.update t.files t.next (some { inode := a, pos := 0, deny_write := false })
      next := t.next + 1
      free_map_file := map_file } L extra := by
  have unfiled := (opened.fresh t.next (Nat.le_refl _)).2
  have counted : ∀ b, refs { t with
      files := Function.update t.files t.next (some { inode := a, pos := 0, deny_write := false })
      next := t.next + 1
      free_map_file := map_file } b = refs t b + if a = b then 1 else 0 := by
    intro b
    have change := @refs_update t.next { t with next := t.next + 1 } (Nat.lt_succ_self _)
      (some { inode := a, pos := 0, deny_write := false }) b
    rw [refs_next opened] at change
    simp only [unfiled,Option.any_none,Bool.toNat_false,Nat.add_zero,Option.any_some] at change
    refine change.trans (congrArg _ ?_)
    by_cases same : a = b
    · simp [same]
    · simp [same]
  have denied : ∀ b, denials { t with
      files := Function.update t.files t.next (some { inode := a, pos := 0, deny_write := false })
      next := t.next + 1
      free_map_file := map_file } b = denials t b := by
    intro b
    have change := @denials_update t.next { t with next := t.next + 1 } (Nat.lt_succ_self _)
      (some { inode := a, pos := 0, deny_write := false }) b
    rw [denials_next opened] at change
    simp only [unfiled,Option.any_none,Bool.toNat_false,Nat.add_zero,Option.any_some,Bool.and_false] at change
    exact change
  refine ⟨opened.once,opened.listed,opened.stored,?_,?_,opened.sector,?_,?_,?_,user⟩
  · intro b m inode
    rw [counted]
    have count := opened.count b m inode
    by_cases same : a = b
    · subst same
      rw [List.count_cons_self] at count
      rw [if_pos rfl]
      omega
    · rw [List.count_cons_of_ne same] at count
      rw [if_neg same]
      exact count
  · intro b m inode
    rw [denied]
    exact opened.deny b m inode
  · intro f u file
    by_cases same : f = t.next
    · subst same
      simp only [Function.update_self,Option.some.injEq] at file
      subst file
      exact opened.held a (List.mem_cons_self ..)
    · simp only [Function.update_of_ne same] at file
      exact opened.file f u file
  · exact fun b member => opened.held b (List.mem_cons_of_mem a member)
  · intro b later
    have bound : t.next < b := later
    obtain ⟨inode,file⟩ := opened.fresh b (Nat.le_of_lt bound)
    refine ⟨inode,?_⟩
    show Function.update t.files t.next _ b = none
    rwa [Function.update_of_ne (Nat.ne_of_gt bound)]

/-- A file moves its position. -/
theorem opened_file_move (opened : Opened t L extra) (file : t.files f = some u) (pos : Nat) :
    Opened { t with files := Function.update t.files f (some { u with pos := pos }) } L extra := by
  have known := file_known opened file
  have counted : ∀ b, refs { t with files := Function.update t.files f (some { u with pos := pos }) } b = refs t b := by
    intro b
    have change := refs_update known (some { u with pos := pos }) b
    simp only [file,Option.any_some] at change
    omega
  have denied : ∀ b, denials { t with files := Function.update t.files f (some { u with pos := pos }) } b = denials t b := by
    intro b
    have change := denials_update known (some { u with pos := pos }) b
    simp only [file,Option.any_some] at change
    omega
  refine opened_adjust opened (fun b m inode => ⟨m,inode,rfl,rfl⟩) (fun b some_ => some_) ?_ ?_ ?_ opened.held
  · intro g v there
    by_cases same : g = f
    · subst same
      rw [Function.update_self] at there
      cases there
      exact ⟨u,file,rfl⟩
    · rw [Function.update_of_ne same] at there
      exact ⟨v,there,rfl⟩
  · intro b m inode
    rw [counted]
    exact opened.count b m inode
  · intro b m inode
    rw [denied]
    exact opened.deny b m inode

/-- An inode is marked for removal. -/
theorem opened_remove (opened : Opened t L extra) (found : t.inodes a = some n) :
    Opened { t with inodes := Function.update t.inodes a (some { n with removed := true }) } L extra := by
  have change : ∀ b m, Function.update t.inodes a (some { n with removed := true }) b = some m → ∃ n, t.inodes b = some n ∧
      m.sector = n.sector ∧ m.data = n.data ∧ m.open_cnt = n.open_cnt ∧ m.deny_write_cnt = n.deny_write_cnt := by
    intro b m inode
    rcases update_inode inode with ⟨rfl,same⟩ | ⟨-,before⟩
    · cases same
      exact ⟨n,found,rfl,rfl,rfl,rfl⟩
    · exact ⟨m,before,rfl,rfl,rfl,rfl⟩
  refine opened_adjust (g := t.files) opened ?_ ?_ (fun f u file => ⟨u,file,rfl⟩) ?_ ?_ opened.held
  · intro b m inode
    obtain ⟨k,before,sector,data,-⟩ := change b m inode
    exact ⟨k,before,sector,data⟩
  · exact fun b some_ => update_some some_ _
  · intro b m inode
    obtain ⟨k,before,-,-,count,-⟩ := change b m inode
    rw [count]
    exact opened.count b k before
  · intro b m inode
    obtain ⟨k,before,-,-,-,deny⟩ := change b m inode
    rw [deny]
    exact opened.deny b k before
end

end Pintos.FileSystem
