import Pintos.Ledger

/-!
What the calls on inodes and on the free map do, from any state in which the ledger and
the tables agree: they return, they touch no other sectors, and the free map on the
device stays the one in memory as long as its writes have their bounce buffer.
-/
namespace Pintos.FileSystem
open Pintos.Machines Pintos.Bitmaps Pintos.Lists
set_option linter.unusedSimpArgs false

/-- `m` answers are used up. -/
def forget (s : FileSystem) (m : Nat) : FileSystem := { s with memory := fun n => s.memory (n + m) }

/-- No allocation fails. -/
def Plenty (s : FileSystem) : Prop := (∀ n, s.memory n = true) ∧ ∀ n, s.map_memory n = true

/-- The next `n` writes of the free map need no bounce buffer, or get one. -/
def Ready (s : FileSystem) (n : Nat) : Prop := byte_cnt s.free_map.bit_cnt % BLOCK_SECTOR_SIZE = 0 ∨
    ∀ k < n, s.map_memory k = true

/-- Where the free map is on the device. -/
def map_start (d : Device) : Nat := (inode_disk (d.data FREE_MAP_SECTOR)).start.toNat

/-- The free map on the device is the one in memory, bit for bit. -/
def Synced (s : FileSystem) : Prop :=
  ∀ k < s.free_map.bit_cnt, (content s.fs_device.data (map_start s.fs_device) (k / 8)).getLsbD (k % 8) = s.free_map.has k

/-- `n` is a bound on the writes of the free map. -/
structure Steady (n : Nat) (s s' : FileSystem) : Prop where
  size : s'.fs_device.size = s.fs_device.size
  bits : s'.free_map.bit_cnt = s.free_map.bit_cnt
  plenty : Plenty s → Plenty s'
  ready : ∀ m, Ready s (m + n) → Ready s' m
  synced : Ready s n → Synced s → Synced s'

section
variable {s s' s'' : FileSystem} {L L' : Nat → Option InodeDisk} {x y z a f k cnt : Nat} {i j m : InodeDisk} {n : Inode}
  {extra : List Nat}
  {u : File}

theorem forget_forget (s : FileSystem) (m n : Nat) : forget (forget s m) n = forget s (m + n) := by
  have same : (fun k => s.memory (k + n + m)) = fun k => s.memory (k + (m + n)) :=
    funext fun k => by rw [Nat.add_assoc,Nat.add_comm n]
  rw [forget,forget,forget]
  simp only [same]

theorem malloc_eq (s : FileSystem) : malloc s = (s.memory 0,forget s 1) := rfl

theorem ready_mono {n m : Nat} (ready : Ready s n) (fewer : m ≤ n) : Ready s m :=
  ready.imp_right fun all k below => all k (Nat.lt_of_lt_of_le below fewer)

theorem ready_of_plenty (plenty : Plenty s) (n : Nat) : Ready s n := .inr fun k _ => plenty.2 k

theorem steady_trans {n m : Nat} (first : Steady n s s') (later : Steady m s' s'') : Steady (n + m) s s'' where
  size := later.size.trans first.size
  bits := later.bits.trans first.bits
  plenty all := later.plenty (first.plenty all)
  ready k ready := later.ready k (first.ready (k + m) (ready_mono ready (by omega)))
  synced ready synced := later.synced (first.ready m (ready_mono ready (by omega))) (first.synced (ready_mono ready (by omega)) synced)

theorem steady_mono {n m : Nat} (steady : Steady n s s') (more : n ≤ m) : Steady m s s' where
  size := steady.size
  bits := steady.bits
  plenty := steady.plenty
  ready k ready := steady.ready k (ready_mono ready (by omega))
  synced ready := steady.synced (ready_mono ready more)

theorem byte_below {bit_cnt : Nat} (below : k < bit_cnt) : k / 8 < byte_cnt bit_cnt := by
  rw [byte_cnt,elem_cnt,ELEM_BITS]
  omega

/-- Neither the free map nor its file changes. -/
theorem steady_same (size : s'.fs_device.size = s.fs_device.size) (map : s'.free_map = s.free_map)
    (map_memory : s'.map_memory = s.map_memory)
    (plenty : (∀ n, s.memory n = true) → ∀ n, s'.memory n = true)
    (file : ∀ k < byte_cnt s.free_map.bit_cnt, content s'.fs_device.data (map_start s'.fs_device) k =
      content s.fs_device.data (map_start s.fs_device) k) : Steady 0 s s' where
  size := size
  bits := by rw [map]
  plenty all := ⟨plenty all.1,by rw [map_memory]; exact all.2⟩
  ready k ready := by
    rw [Ready,map,map_memory]
    exact ready
  synced _ synced k below := by
    rw [map] at below ⊢
    rw [file _ (byte_below below)]
    exact synced k below

theorem steady_refl (s : FileSystem) : Steady 0 s s := steady_same rfl rfl rfl id fun _ _ => rfl

theorem steady_forget (s : FileSystem) (m : Nat) : Steady 0 s (forget s m) :=
  steady_same rfl rfl rfl (fun all n => all (n + m)) fun _ _ => rfl

/-! ### Reading and writing -/

theorem inode_read_at_spec (found : s.inodes a = some n) (inside : OnDevice s.fs_device n.data) (size offset : Nat) :
    inode_read_at s a size offset = some ((List.range (transferred (s.memory 0) offset (reach n.data size offset))).map
      fun k => content s.fs_device.data n.data.start.toNat (offset + k),forget s 1) := by
  rw [inode_read_at,found]
  simp only [Option.bind_eq_bind,Option.bind_some]
  show (readLoop s.fs_device n.data (s.memory 0) size size offset []).bind _ = _
  rw [readLoop_spec inside (Nat.le_refl size)]
  rfl

theorem write_at_spec (found : s.inodes a = some n) (writable : n.deny_write_cnt = 0) (inside : OnDevice s.fs_device n.data)
    (bounce : Bool)
    (buffer : Nat → Byte) (size offset : Nat) :
    ∃ d', write_at s bounce a buffer size offset = some (transferred bounce offset (reach n.data size offset),{ s with fs_device := d' }) ∧
      Written s.fs_device d' n.data buffer offset (transferred bounce offset (reach n.data size offset)) := by
  obtain ⟨d',ran,written⟩ := @writeLoop_spec s.fs_device n.data bounce buffer size size offset 0 inside (Nat.le_refl size)
  simp only [Nat.zero_add] at ran written
  refine ⟨d',?_,written⟩
  rw [write_at,found]
  simp only [Option.bind_eq_bind,Option.bind_some,writable,ne_eq,not_true_eq_false,if_false]
  rw [ran]
  rfl

/-! ### The free map -/

/-- Nobody denies writes to the free map. -/
theorem map_writable {t : Tables} (opened : Opened t L extra) (file : t.free_map_file = some f) (found : t.files f = some u)
    (allows : u.deny_write = false) (inode : t.inodes u.inode = some n) (map : n.sector = FREE_MAP_SECTOR) :
    n.deny_write_cnt = 0 := by
  rw [opened.deny _ n inode,denials,List.countP_eq_zero]
  intro g _ denies
  cases there : t.files g with
  | none => simp [there] at denies
  | some v =>
    simp only [there,Option.any_some,decide_eq_true_eq,Bool.and_eq_true] at denies
    by_cases same : g = f
    · subst same
      rw [found] at there
      cases there
      rw [allows] at denies
      cases denies.2
    · refine (opened.user g v n there ?_ (denies.1 ▸ inode)).1 map
      rw [file]
      exact fun equal => same (Option.some.inj equal).symm

/-- The free map can be written to its file. -/
def MapFile (t : Tables) (L : Nat → Option InodeDisk) (bit_cnt : Nat) : Prop :=
  ∃ f u n, t.free_map_file = some f ∧ t.files f = some u ∧ t.inodes u.inode = some n ∧ n.deny_write_cnt = 0 ∧
    L FREE_MAP_SECTOR = some n.data ∧ n.data.length.toNat = byte_cnt bit_cnt

theorem map_file {t : Tables} (opened : Opened t L extra) (mapped : Mapped t cnt) : MapFile t L cnt := by
  obtain ⟨f,u,n,file,found,allows,inode,map,length⟩ := mapped
  exact ⟨f,u,n,file,found,inode,map_writable opened file found allows inode map,map ▸ opened.stored _ n inode,length⟩

/-- No inode is in the data of another. -/
theorem extent_apart {d : Device} {map : Bitmap} (ledger : Ledger d map L) (owned : L x = some i) (mine : L y = some m) :
    ¬ Extent m x := by
  by_cases same : x = y
  · subst same
    exact ledger.own _ m mine
  · exact fun inside => ledger.apart x _ i m owned mine same x (.inl rfl) (.inr inside)

theorem ledger_outside {d d' : Device} {map : Bitmap} (ledger : Ledger d map L) (mine : L y = some m)
    (size : d'.size = d.size) (outside : ∀ z, ¬ Extent m z → d'.data z = d.data z) : Ledger d' map L :=
  ledger_data ledger size fun x _ owned => outside x (extent_apart ledger owned mine)

theorem map_start_eq {d : Device} {map : Bitmap} (ledger : Ledger d map L) (mine : L FREE_MAP_SECTOR = some m) :
    map_start d = m.start.toNat := by
  rw [map_start,ledger.stored _ m mine]

theorem bitmap_write_spec (ledger : Ledger s.fs_device s.free_map L) (found : s.files f = some u)
    (inode : s.inodes u.inode = some n)
    (writable : n.deny_write_cnt = 0) (owned : L FREE_MAP_SECTOR = some n.data)
    (length : n.data.length.toNat = byte_cnt s.free_map.bit_cnt) :
    ∃ ok s', bitmap_write s f = some (ok,s') ∧ s'.tables = s.tables ∧ s'.free_map = s.free_map ∧ s'.memory = s.memory ∧
      s'.map_memory = (fun n => s.map_memory (n + 1)) ∧ s'.fs_device.size = s.fs_device.size ∧
      (∀ z, ¬ Extent n.data z → s'.fs_device.data z = s.fs_device.data z) ∧ (ok = true ↔ Ready s 1) ∧
      (Ready s 1 → Synced s') := by
  have inside := ledger_inside ledger owned
  obtain ⟨d',ran,written⟩ := write_at_spec (s := { s with map_memory := fun n => s.map_memory (n + 1) }) inode writable (on_device inside) (s.map_memory 0)
    (image s.free_map) (byte_cnt s.free_map.bit_cnt) 0
  have whole : reach n.data (byte_cnt s.free_map.bit_cnt) 0 = byte_cnt s.free_map.bit_cnt := by
    rw [reach,ledger_off_t ledger owned,length,Nat.sub_zero,Nat.min_self]
  rw [whole] at ran written
  have all : Ready s 1 → transferred (s.map_memory 0) 0 (byte_cnt s.free_map.bit_cnt) = byte_cnt s.free_map.bit_cnt := by
    rintro (whole | answers)
    · exact transferred_whole _ whole
    · rw [answers 0 Nat.one_pos,transferred_true]
  refine ⟨decide (transferred (s.map_memory 0) 0 (byte_cnt s.free_map.bit_cnt) = byte_cnt s.free_map.bit_cnt),
    { s with map_memory := fun n => s.map_memory (n + 1), fs_device := d' },?_,rfl,rfl,rfl,rfl,written.size,fun z out => ?_,⟨fun full => ?_,fun ready => ?_⟩,
    fun ready => ?_⟩
  · rw [bitmap_write,found]
    simp only [Option.bind_eq_bind,Option.bind_some]
    rw [ran]
    rfl
  · refine written.outside z fun pos below same => out ?_
    rw [same]
    exact extent_pos ledger owned below
  · have amount := of_decide_eq_true full
    cases answer : s.map_memory 0 with
    | true =>
      refine .inr fun k below => ?_
      rw [Nat.lt_one_iff.mp below]
      exact answer
    | false =>
      rw [answer,transferred,if_neg Bool.false_ne_true,Nat.zero_mod,if_pos rfl,BLOCK_SECTOR_SIZE] at amount
      refine .inl ?_
      rw [BLOCK_SECTOR_SIZE]
      omega
  · exact decide_eq_true (all ready)
  · intro k below
    have start : map_start d' = n.data.start.toNat := by
      rw [map_start,written.outside,← map_start,map_start_eq ledger owned]
      intro pos below same
      refine ledger.own _ _ owned ?_
      rw [same]
      exact extent_pos ledger owned below
    show (content d'.data (map_start d') (k / 8)).getLsbD (k % 8) = s.free_map.has k
    rw [start,written.content,all ready,if_pos ⟨Nat.zero_le _,by rw [Nat.zero_add]; exact byte_below below⟩,Nat.sub_zero,
      image_bit _ _ _ (Nat.mod_lt k (by decide)),Nat.div_add_mod]

/-- Where no ledger entry is, the bits may change. -/
theorem ledger_bits {d : Device} {map map' : Bitmap} (ledger : Ledger d map L) (bit_cnt : map'.bit_cnt = map.bit_cnt)
    (more : ∀ z, map.has z = true → map'.has z = true) : Ledger d map' L :=
  ledger_map ledger bit_cnt fun x i owned z inside => more z (ledger.used x i owned z inside)

/-- What `free_map_allocate` does with its answer. -/
structure Allocated (s s' : FileSystem) (L : Nat → Option InodeDisk) (cnt : Nat) (answer : Option Nat) : Prop where
  tables : s'.tables = s.tables
  memory : s'.memory = s.memory
  ledger : Ledger s'.fs_device s'.free_map L
  outside : ∀ z, (∀ m, L FREE_MAP_SECTOR = some m → ¬ Extent m z) → s'.fs_device.data z = s.fs_device.data z
  none_ : answer = none → ∀ z, s'.free_map.has z = s.free_map.has z
  some_ : ∀ x, answer = some x → x + cnt ≤ s.fs_device.size ∧ s.free_map.Run x cnt false ∧
    ∀ z, s'.free_map.has z = if x ≤ z ∧ z < x + cnt then true else s.free_map.has z
  flipped : ∀ x, answer = some x → bitmap_scan_and_flip s.free_map 0 cnt false = some (some x,s'.free_map)

theorem free_map_allocate_spec (ledger : Ledger s.fs_device s.free_map L) (mapped : MapFile s.tables L s.free_map.bit_cnt)
    (cnt : Nat) :
    ∃ answer s', free_map_allocate s cnt = some (answer,s') ∧ Allocated s s' L cnt answer ∧ Steady 1 s s' ∧
      (answer = none ↔ ¬ (Ready s 1 ∧ ∃ x map, bitmap_scan_and_flip s.free_map 0 cnt false = some (some x,map))) ∧
      (answer ≠ none → s'.map_memory = fun n => s.map_memory (n + 1)) := by
  obtain ⟨f,u,n,file,found,inode,writable,owned,length⟩ := mapped
  obtain ⟨r,b,flipped,cnt',scanned,result⟩ := bitmap_scan_and_flip_spec (b := s.free_map) false cnt (Nat.zero_le _)
  cases r with
  | none =>
    have same : { s with free_map := b } = s := by rw [show b = s.free_map from result]
    refine ⟨none,s,?_,⟨rfl,rfl,ledger,fun _ _ => rfl,fun _ _ => rfl,fun x none_ => (by cases none_),fun x none_ => (by cases none_)⟩,
      steady_mono (steady_refl s) (Nat.zero_le 1),⟨fun _ => ?_,fun _ => rfl⟩,fun some_ => absurd rfl some_⟩
    · rw [free_map_allocate,flipped]
      simp only [Option.bind_eq_bind,Option.bind_some,same]
    · rintro ⟨-,x,map,some_⟩
      rw [flipped] at some_
      cases some_
  | some x =>
    obtain ⟨-,room,run,bits⟩ := result
    have more : ∀ z, s.free_map.has z = true → b.has z = true := by
      intro z used
      rw [bits]
      split
      · rfl
      · exact used
    have taken : Ledger s.fs_device b L := ledger_bits ledger cnt' more
    obtain ⟨ok,s₁,wrote,tables,map₁,memory,map_memory,size,outside,success,synced⟩ :=
      bitmap_write_spec (s := { s with free_map := b }) taken
      found inode writable owned (by rw [cnt']; exact length)
    have device : Ledger s₁.fs_device b L := ledger_outside taken owned size outside
    have elsewhere : ∀ z, (∀ m, L FREE_MAP_SECTOR = some m → ¬ Extent m z) → s₁.fs_device.data z = s.fs_device.data z :=
      fun z out => outside z (out n.data owned)
    have rest : ∀ m, Ready s (m + 1) → byte_cnt s.free_map.bit_cnt % BLOCK_SECTOR_SIZE = 0 ∨ ∀ k < m, s₁.map_memory k = true := by
      intro m ready
      refine ready.imp_right fun answers k below => ?_
      rw [map_memory]
      exact answers (k + 1) (by omega)
    have start : free_map_allocate s cnt = if ok then some (some x,s₁) else
        (bitmap_set_multiple s₁.free_map x cnt false).bind fun map => some (none,{ s₁ with free_map := map }) := by
      have file' : s.free_map_file = some f := file
      rw [file'] at wrote
      rw [free_map_allocate,flipped]
      simp only [Option.bind_eq_bind,Option.bind_some,file',wrote]
    have fits : x + cnt ≤ s.fs_device.size := by rw [← ledger.device.2]; exact room
    cases ok with
    | true =>
      rw [if_pos rfl] at start
      have ready₁ : Ready s 1 := by
        have ready := success.mp rfl
        rw [Ready,cnt'] at ready
        exact ready
      refine ⟨some x,s₁,start,⟨tables,memory,by rw [map₁]; exact device,elsewhere,fun none_ => (by cases none_),?_,?_⟩,⟨size,?_,?_,?_,?_⟩,
        ⟨fun none_ => (by cases none_),fun never => absurd ⟨ready₁,x,b,flipped⟩ never⟩,fun _ => map_memory⟩
      · intro y same
        cases same
        refine ⟨fits,run,fun z => ?_⟩
        rw [map₁,bits]
        rfl
      · intro y same
        cases same
        rw [map₁]
        exact flipped
      · rw [map₁]
        exact cnt'
      · intro plenty
        refine ⟨by rw [memory]; exact plenty.1,fun k => ?_⟩
        rw [map_memory]
        exact plenty.2 (k + 1)
      · intro m ready
        rw [Ready,map₁,cnt']
        exact rest m ready
      · intro ready _
        refine synced ?_
        rw [Ready,cnt']
        exact ready
    | false =>
      obtain ⟨b',set,cnt'',bits'⟩ := bitmap_set_multiple_spec false (show x + cnt ≤ b.bit_cnt by rw [cnt']; exact room)
      rw [if_neg Bool.false_ne_true,map₁,set,Option.bind_some] at start
      have restored : ∀ z, b'.has z = s.free_map.has z := by
        intro z
        rw [bits',bits]
        by_cases inside : x ≤ z ∧ z < x + cnt
        · rw [if_pos inside]
          exact (run z inside.1 inside.2).symm
        · rw [if_neg inside,if_neg inside]
      have unready : ¬ Ready s 1 := by
        intro ready
        have wrong := success.mpr (by rw [Ready,cnt']; exact ready)
        cases wrong
      refine ⟨none,{ s₁ with free_map := b' },start,⟨tables,memory,?_,elsewhere,fun _ => restored,fun x none_ => (by cases none_),
        fun x none_ => (by cases none_)⟩,⟨size,cnt''.trans cnt',?_,?_,?_⟩,⟨fun _ both => unready both.1,fun _ => rfl⟩,
        fun some_ => absurd rfl some_⟩
      · refine ledger_map device cnt'' fun x i also z inside => ?_
        rw [restored]
        exact ledger.used x i also z inside
      · exact fun plenty => absurd (ready_of_plenty plenty 1) unready
      · intro m ready
        rw [Ready,show ({ s₁ with free_map := b' } : FileSystem).free_map = b' from rfl,cnt'',cnt']
        exact rest m ready
      · exact fun ready => absurd ready unready

/-- What `free_map_release` does. -/
structure Released (s s' : FileSystem) (L : Nat → Option InodeDisk) (x cnt : Nat) : Prop where
  tables : s'.tables = s.tables
  memory : s'.memory = s.memory
  outside : ∀ z, (∀ m, L FREE_MAP_SECTOR = some m → ¬ Extent m z) → s'.fs_device.data z = s.fs_device.data z
  bits : ∀ z, s'.free_map.has z = if x ≤ z ∧ z < x + cnt then false else s.free_map.has z
  steady : Steady 1 s s'

/-- The sectors are used and belong to nobody. -/
theorem free_map_release_spec (ledger : Ledger s.fs_device s.free_map L) (mapped : MapFile s.tables L s.free_map.bit_cnt)
    (room : x + cnt ≤ s.fs_device.size)
    (used : ∀ z, x ≤ z → z < x + cnt → s.free_map.has z = true)
    (orphan : ∀ z, x ≤ z → z < x + cnt → ∀ y i, L y = some i → ¬ Span y i z) :
    ∃ s', free_map_release s x cnt = some s' ∧ Ledger s'.fs_device s'.free_map L ∧ Released s s' L x cnt := by
  obtain ⟨f,u,n,file,found,inode,writable,owned,length⟩ := mapped
  have inside : x + cnt ≤ s.free_map.bit_cnt := by rw [ledger.device.2]; exact room
  obtain ⟨r,all,every⟩ := bitmap_all_spec inside
  have yes : r = true := every.mpr used
  subst yes
  obtain ⟨b,set,cnt',bits⟩ := bitmap_set_multiple_spec false inside
  have free : Ledger s.fs_device b L := by
    refine ledger_map ledger cnt' fun y i also z within => ?_
    rw [bits,if_neg fun range => orphan z range.1 range.2 y i also within]
    exact ledger.used y i also z within
  obtain ⟨ok,s₁,wrote,tables,map₁,memory,map_memory,size,outside,-,synced⟩ :=
    bitmap_write_spec (s := { s with free_map := b }) free
    found inode writable owned (by rw [cnt']; exact length)
  refine ⟨s₁,?_,by rw [map₁]; exact ledger_outside free owned size outside,tables,memory,fun z out => outside z (out n.data owned),
    fun z => by rw [map₁]; exact bits z,size,by rw [map₁]; exact cnt',?_,?_,?_⟩
  · have file' : s.free_map_file = some f := file
    rw [file'] at wrote
    rw [free_map_release,all]
    simp only [Option.bind_eq_bind,Option.bind_some,if_true,set,file',wrote]
  · intro plenty
    refine ⟨by rw [memory]; exact plenty.1,fun k => ?_⟩
    rw [map_memory]
    exact plenty.2 (k + 1)
  · intro m ready
    rw [Ready,map₁,cnt']
    refine ready.imp_right fun answers k below => ?_
    rw [map_memory]
    exact answers (k + 1) (by omega)
  · intro ready _
    refine synced ?_
    rw [Ready,cnt']
    exact ready

/-! ### Creating -/

/-- A sector that is used, and holds nothing yet. -/
def Vacant (d : Device) (map : Bitmap) (L : Nat → Option InodeDisk) (x : Nat) : Prop :=
  x < d.size ∧ map.has x = true ∧ ∀ y i, L y = some i → ¬ Span y i x

theorem zeroLoop_spec (start n i : Nat) (d : Device) (inside : start + i + n ≤ d.size) :
    ∃ d', zeroLoop start n i d = some d' ∧ d'.size = d.size ∧
      (∀ y, ¬ (start + i ≤ y ∧ y < start + i + n) → d'.data y = d.data y) ∧
      ∀ y, start + i ≤ y → y < start + i + n → d'.data y = fun _ => 0#8 := by
  induction n generalizing i d with
  | zero =>
    refine ⟨d,rfl,rfl,fun _ _ => rfl,fun y low high => ?_⟩
    omega
  | succ n ih =>
    obtain ⟨d',ran,size,outside,zero⟩ := ih (i + 1) { d with data := Function.update d.data (start + i) fun _ => 0#8 }
      (by show start + (i + 1) + n ≤ d.size; omega)
    refine ⟨d',?_,size,fun y out => ?_,fun y low high => ?_⟩
    · rw [zeroLoop,block_write,if_pos (by omega)]
      exact ran
    · rw [outside y (by omega)]
      exact Function.update_of_ne (by omega) _ _
    · by_cases first : y = start + i
      · rw [outside y (by omega),first]
        exact Function.update_self ..
      · exact zero y (by omega) (by omega)

/-- A new inode in the sector `x`, with its data. -/
structure Created (s s' : FileSystem) (L : Nat → Option InodeDisk) (x : Nat) (i : InodeDisk) : Prop where
  tables : s'.tables = s.tables
  ledger : Ledger s'.fs_device s'.free_map (Function.update L x (some i))
  room : s.free_map.Run i.start.toNat (bytes_to_sectors i.length) false
  bits : ∀ z, s'.free_map.has z = if i.start.toNat ≤ z ∧
    z < i.start.toNat + bytes_to_sectors i.length then true else s.free_map.has z
  outside : ∀ z, (∀ m, L FREE_MAP_SECTOR = some m → ¬ Extent m z) → z ≠ x → ¬ Extent i z →
    s'.fs_device.data z = s.fs_device.data z
  zero : ∀ z, Extent i z → s'.fs_device.data z = fun _ => 0#8

/-- The sectors are there. -/
theorem inode_create_some {length : BitVec 32} {start : Nat} {s₁ : FileSystem} (before : Ledger s.fs_device s.free_map L)
    (nonnegative : 0 ≤ length.toInt)
    (memory : s.memory 0 = true) (vacant : Vacant s.fs_device s.free_map L x)
    (ran : free_map_allocate (forget s 1) (bytes_to_sectors length) = some (some start,s₁))
    (allocated : Allocated (forget s 1) s₁ L (bytes_to_sectors length) (some start))
    (size : s₁.fs_device.size = s.fs_device.size) :
    ∃ i d', i.length = length ∧ inode_create s x length = some (true,{ s₁ with fs_device := d' }) ∧
      Created s { s₁ with fs_device := d' } L x i ∧ d'.size = s.fs_device.size ∧
      ∀ z, z ≠ x → ¬ Extent i z → d'.data z = s₁.fs_device.data z := by
  obtain ⟨room,run,bits⟩ := allocated.some_ start rfl
  have ledger := allocated.ledger
  have small := ledger.device.1
  rw [size] at small
  have exact : (BitVec.ofNat 32 start).toNat = start := by
    rw [BitVec.toNat_ofNat]
    refine Nat.mod_eq_of_lt ?_
    have bound : start + bytes_to_sectors length ≤ s.fs_device.size := room
    omega
  obtain ⟨inside,used,alone⟩ := vacant
  obtain ⟨i,made⟩ : ∃ i : InodeDisk, { start := BitVec.ofNat 32 start, length := length, magic := INODE_MAGIC } = i := ⟨_,rfl⟩
  obtain ⟨d',zeroed,size',outside,zero⟩ := zeroLoop_spec start (bytes_to_sectors length) 0
    { s₁.fs_device with data := Function.update s₁.fs_device.data x i.bytes }
    (by show start + 0 + bytes_to_sectors length ≤ s₁.fs_device.size; rw [size]; exact room)
  rw [Nat.add_zero] at outside zero
  have begins : i.start.toNat = start := by rw [← made]; exact exact
  have long : i.length = length := by rw [← made]
  have extent : ∀ z, Extent i z ↔ start ≤ z ∧ z < start + bytes_to_sectors length := by
    intro z
    rw [Extent,begins,long]
  have apart : ¬ Extent i x := by
    intro within
    rw [extent] at within
    have free := run x within.1 within.2
    rw [show (forget s 1).free_map = s.free_map from rfl,used] at free
    cases free
  have elsewhere : ∀ z, z ≠ x → ¬ Extent i z → d'.data z = s₁.fs_device.data z := by
    intro z other out
    rw [outside z (by rwa [extent] at out)]
    exact Function.update_of_ne other _ _
  have written : d'.data x = i.bytes := by
    rw [outside x (by rwa [extent] at apart)]
    exact Function.update_self ..
  -- No inode that is there already is written over.
  have kept : ∀ y j, L y = some j → d'.data y = s₁.fs_device.data y := by
    intro y j owned
    refine elsewhere y ?_ fun within => ?_
    · rintro rfl
      exact alone y j owned (.inl rfl)
    · rw [extent] at within
      have free := run y within.1 within.2
      rw [show (forget s 1).free_map = s.free_map from rfl,before.used y j owned y (.inl rfl)] at free
      cases free
  have same : s₁.fs_device.size = s.fs_device.size := size
  refine ⟨i,d',long,?_,⟨allocated.tables,?_,?_,?_,?_,?_⟩,size'.trans size,elsewhere⟩
  · rw [inode_create,if_neg (Int.not_lt.mpr nonnegative),malloc_eq,memory]
    simp only [if_true,ran,Option.bind_eq_bind,Option.bind_some,made]
    rw [block_write,if_pos (by rw [size]; exact inside),Option.bind_some,zeroed]
    rfl
  · have stays := ledger_data ledger size' kept
    refine ledger_insert stays (by rw [size',size]; exact inside) ?_ ?_ (by rw [written,inode_disk_bytes]) apart ?_ ?_
    · rw [begins,long,size',size]
      exact room
    · rw [long]
      rcases bytes_to_sectors_spec nonnegative with ⟨fits,-⟩ | ⟨-,many⟩
      · exact fits
      · have bound : start + bytes_to_sectors length ≤ s.fs_device.size := room
        omega
    · rintro y j owned other z (rfl | within) taken
      · exact alone y j owned taken
      · rw [extent] at within
        have free := run z within.1 within.2
        rw [show (forget s 1).free_map = s.free_map from rfl,before.used y j owned z taken] at free
        cases free
    · rintro z (rfl | within)
      · show s₁.free_map.has z = true
        rw [bits]
        split
        · rfl
        · exact used
      · show s₁.free_map.has z = true
        rw [extent] at within
        rw [bits,if_pos within]
  · rw [begins,long]
    exact run
  · intro z
    rw [begins,long]
    exact bits z
  · intro z out other out'
    exact (elsewhere z other out').trans (allocated.outside z out)
  · intro z within
    rw [extent] at within
    exact zero z within.1 within.2

/-- Writes that spare the free map. -/
theorem steady_device {d' : Device} (ledger : Ledger s.fs_device s.free_map L) (owned : L FREE_MAP_SECTOR = some m)
    (length : m.length.toNat = byte_cnt s.free_map.bit_cnt) (size : d'.size = s.fs_device.size)
    (spared : ∀ z, z = FREE_MAP_SECTOR ∨ Extent m z → d'.data z = s.fs_device.data z) :
    Steady 0 s { s with fs_device := d' } := by
  refine steady_same size rfl rfl id fun k below => ?_
  have start : map_start d' = map_start s.fs_device := by rw [map_start,map_start,spared _ (.inl rfl)]
  rw [← length,← ledger_off_t ledger owned] at below
  show content d'.data (map_start d') k = _
  rw [start,map_start_eq ledger owned,content,content,spared _ (.inr (extent_pos ledger owned below))]

theorem inode_create_spec {length : BitVec 32} (ledger : Ledger s.fs_device s.free_map L)
    (mapped : MapFile s.tables L s.free_map.bit_cnt) (nonnegative : 0 ≤ length.toInt)
    (vacant : Vacant s.fs_device s.free_map L x) :
    ∃ created s', inode_create s x length = some (created,s') ∧ Steady 1 s s' ∧
      (created = false → s'.tables = s.tables ∧ Ledger s'.fs_device s'.free_map L ∧ (∀ z, s'.free_map.has z = s.free_map.has z) ∧
        ∀ z, (∀ m, L FREE_MAP_SECTOR = some m → ¬ Extent m z) → s'.fs_device.data z = s.fs_device.data z) ∧
      (created = true → ∃ i, i.length = length ∧ Created s s' L x i) ∧
      (created = true ↔ s.memory 0 = true ∧ Ready s 1 ∧
        ∃ y map, bitmap_scan_and_flip s.free_map 0 (bytes_to_sectors length) false = some (some y,map)) := by
  cases memory : s.memory 0 with
  | false =>
    refine ⟨false,forget s 1,?_,steady_mono (steady_forget s 1) (Nat.zero_le 1),fun _ => ⟨rfl,ledger,fun _ => rfl,fun _ _ => rfl⟩,
      fun none_ => (by cases none_),fun none_ => (by cases none_),fun none_ => (by cases none_.1)⟩
    rw [inode_create,if_neg (Int.not_lt.mpr nonnegative),malloc_eq,memory]
    rfl
  | true =>
    obtain ⟨answer,s₁,ran,allocated,steady,missing,-⟩ :=
      free_map_allocate_spec (s := forget s 1) ledger mapped (bytes_to_sectors length)
    have steady₁ : Steady 1 s s₁ := by
      have both := steady_trans (steady_forget s 1) steady
      rwa [Nat.zero_add] at both
    cases answer with
    | none =>
      refine ⟨false,s₁,?_,steady₁,fun _ => ⟨allocated.tables,allocated.ledger,allocated.none_ rfl,allocated.outside⟩,
        fun none_ => (by cases none_),fun none_ => (by cases none_),fun room => absurd room.2 (missing.mp rfl)⟩
      rw [inode_create,if_neg (Int.not_lt.mpr nonnegative),malloc_eq,memory]
      simp only [if_true,ran,Option.bind_eq_bind,Option.bind_some]
    | some start =>
      obtain ⟨i,d',long,created,made,size,elsewhere⟩ :=
        inode_create_some ledger nonnegative memory vacant ran allocated steady₁.size
      obtain ⟨-,-,n,-,-,-,-,owned,length'⟩ := mapped
      have fresh : ∀ z, s.free_map.has z = true → ¬ Extent i z := by
        intro z used within
        rw [made.room z within.1 within.2] at used
        cases used
      have spared : ∀ z, z = FREE_MAP_SECTOR ∨ Extent n.data z → d'.data z = s₁.fs_device.data z := by
        intro z inside
        refine elsewhere z ?_ (fresh z (ledger.used _ n.data owned z inside))
        rintro rfl
        exact vacant.2.2 _ n.data owned inside
      have steady₂ := steady_device (s := s₁) allocated.ledger owned (by rw [steady₁.bits]; exact length') (by rw [size,steady₁.size]) spared
      refine ⟨true,{ s₁ with fs_device := d' },created,steady_trans steady₁ steady₂,
        fun none_ => (by cases none_),fun _ => ⟨i,long,made⟩,
        fun _ => ⟨rfl,?_⟩,fun _ => rfl⟩
      exact Classical.byContradiction fun never => absurd (missing.mpr never) (Option.some_ne_none start)

/-! ### Opening and closing -/

/-- What is the same in memory and on the device. -/
structure Same (s s' : FileSystem) : Prop where
  fs_device : s'.fs_device = s.fs_device
  free_map : s'.free_map = s.free_map
  free_map_file : s'.free_map_file = s.free_map_file
  files : s'.files = s.files
  map_memory : s'.map_memory = s.map_memory
  memory : ∃ k, s'.memory = fun n => s.memory (n + k)

theorem same_steady (same : Same s s') : Steady 0 s s' := by
  obtain ⟨k,memory⟩ := same.memory
  refine steady_same (by rw [same.fs_device]) same.free_map same.map_memory (fun all n => ?_) fun _ _ => by rw [same.fs_device]
  rw [memory]
  exact all (n + k)

/-- Finds the inode where it is open. -/
theorem open_find (opened : Opened s.tables L extra) (sector : Nat) :
    match s.open_inodes.find? fun a => (s.inodes a).any fun i => i.sector = sector with
      | some a => ∃ n, s.inodes a = some n ∧ n.sector = sector
      | none => ∀ a n, s.inodes a = some n → n.sector ≠ sector := by
  split
  · next a found =>
    have match_ := List.find?_some found
    cases there : s.inodes a with
    | none => simp [there] at match_
    | some n => exact ⟨n,rfl,by simpa [there] using match_⟩
  · next missing =>
    intro a n inode same
    have member : a ∈ s.open_inodes := (opened.listed a).mpr (by
      show s.inodes a ≠ none
      rw [inode]
      exact Option.some_ne_none n)
    have refused := List.find?_eq_none.mp missing a member
    simp [inode,same] at refused

/-- The inode `a` of sector `x` is open once more. -/
def Takes (t : Tables) (inodes : Nat → Option Inode) (a x : Nat) (i : InodeDisk) : Prop :=
  (∃ m, t.inodes a = some m ∧ m.sector = x ∧ m.data = i ∧ inodes = Function.update t.inodes a (some { m with open_cnt := m.open_cnt + 1 })) ∨
  (t.inodes a = none ∧ (∀ b m, t.inodes b = some m → m.sector ≠ x) ∧
    inodes = Function.update t.inodes a (some { sector := x, open_cnt := 1, removed := false, deny_write_cnt := 0, data := i }))

/-- Memory with a new inode in it. -/
def with_inode (s : FileSystem) (x : Nat) (i : InodeDisk) : FileSystem :=
  { s with
    open_inodes := s.next :: s.open_inodes
    inodes := Function.update s.inodes s.next (some { sector := x, open_cnt := 1, removed := false, deny_write_cnt := 0, data := i })
    next := s.next + 1 }

theorem inode_open_closed {map : Bitmap} (ledger : Ledger s.fs_device map L) (opened : Opened s.tables L extra)
    (owned : L x = some i)
    (closed : ∀ b m, s.inodes b = some m → m.sector ≠ x) :
    inode_open s x = some (if s.memory 0 then (some s.next,with_inode (forget s 1) x i) else (none,forget s 1)) := by
  have found := open_find opened x
  rw [inode_open]
  cases there : s.open_inodes.find? fun a => (s.inodes a).any fun i => i.sector = x with
  | some a =>
    rw [there] at found
    obtain ⟨n,inode,sector⟩ := found
    exact absurd sector (closed a n inode)
  | none =>
    rw [malloc_eq]
    cases memory : s.memory 0 with
    | false => rfl
    | true =>
      simp only [if_true,block_read,Option.bind_eq_bind]
      rw [if_pos (show x < (forget s 1).fs_device.size from ledger.sector x i owned),Option.bind_some,
        show inode_disk ((forget s 1).fs_device.data x) = i from ledger.stored x i owned]
      rfl

theorem inode_open_spec (ledger : Ledger s.fs_device s.free_map L) (opened : Opened s.tables L extra) (owned : L x = some i) :
    ∃ answer s', inode_open s x = some (answer,s') ∧ Same s s' ∧
      (answer = none → s'.tables = s.tables ∧ s.memory 0 = false) ∧
      ∀ a, answer = some a → Opened s'.tables L (a :: extra) ∧ Takes s.tables s'.inodes a x i := by
  have found := open_find opened x
  cases there : s.open_inodes.find? fun a => (s.inodes a).any fun i => i.sector = x with
  | some a =>
    rw [there] at found
    obtain ⟨n,inode,sector⟩ := found
    have stored := opened.stored a n inode
    rw [sector,owned] at stored
    refine ⟨some a,{ s with inodes := Function.update s.inodes a (some { n with open_cnt := n.open_cnt + 1 }) },
      ?_,⟨rfl,rfl,rfl,rfl,rfl,0,rfl⟩,fun none_ => (by cases none_),fun b same => ?_⟩
    · rw [inode_open,there]
      simp only [inode_reopen,inode,Option.bind_eq_bind,Option.bind_some,Option.map_some]
    · cases same
      exact ⟨opened_reopen opened inode,.inl ⟨n,inode,sector,(Option.some.inj stored).symm,rfl⟩⟩
  | none =>
    rw [there] at found
    rw [inode_open_closed ledger opened owned found]
    cases memory : s.memory 0 with
    | false => exact ⟨none,forget s 1,rfl,⟨rfl,rfl,rfl,rfl,rfl,1,rfl⟩,fun _ => ⟨rfl,rfl⟩,fun a none_ => (by cases none_)⟩
    | true =>
      refine ⟨some s.next,with_inode (forget s 1) x i,rfl,⟨rfl,rfl,rfl,rfl,rfl,1,rfl⟩,
        fun none_ => (by cases none_),fun a same => ?_⟩
      cases same
      exact ⟨opened_new opened owned found,.inr ⟨(opened.fresh s.next (Nat.le_refl _)).1,found,rfl⟩⟩

theorem takes_found {t : Tables} {inodes : Nat → Option Inode} (takes : Takes t inodes a x i) :
    ∃ n, inodes a = some n ∧ n.sector = x ∧ n.data = i ∧ n.removed = ((t.inodes a).map Inode.removed).getD false := by
  rcases takes with ⟨m,found,sector,data,rfl⟩ | ⟨none_,-,rfl⟩
  · exact ⟨_,Function.update_self ..,sector,data,by rw [found]; rfl⟩
  · exact ⟨_,Function.update_self ..,rfl,rfl,by rw [none_]; rfl⟩

theorem takes_other {t : Tables} {inodes : Nat → Option Inode} {b : Nat} (takes : Takes t inodes a x i) (other : b ≠ a) :
    inodes b = t.inodes b := by
  rcases takes with ⟨m,-,-,-,rfl⟩ | ⟨-,-,rfl⟩
  · exact Function.update_of_ne other _ _
  · exact Function.update_of_ne other _ _

theorem takes_kept {t : Tables} {inodes : Nat → Option Inode} {b : Nat} (takes : Takes t inodes a x i)
    (found : t.inodes b = some n) :
    ∃ m, inodes b = some m ∧ m.sector = n.sector ∧ m.data = n.data := by
  by_cases here : b = a
  · subst here
    rcases takes with ⟨m,before,-,-,rfl⟩ | ⟨none_,-,-⟩
    · rw [found] at before
      cases before
      exact ⟨_,Function.update_self ..,rfl,rfl⟩
    · rw [found] at none_
      cases none_
  · exact ⟨n,(takes_other takes here).trans found,rfl,rfl⟩

/-- Closed again, the inode is as it was, but for the removal. -/
theorem takes_close {t q : Tables} (positive : ∀ m, t.inodes a = some m → 0 < m.open_cnt) (takes : Takes t q.inodes a x i)
    (found : q.inodes a = some n) (r : Bool)
    {v : Option Inode} (b : Nat) :
    (Tables.close { q with inodes := Function.update q.inodes a v } a { n with removed := r }).inodes b =
      if b = a then (t.inodes b).map fun m => { m with removed := r } else t.inodes b := by
  have other : b ≠ a → q.inodes b = t.inodes b := takes_other takes
  rw [Tables.close]
  rcases takes with ⟨m,before,-,-,same⟩ | ⟨before,-,same⟩
  · rw [same,Function.update_self] at found
    cases found
    have counted := positive m before
    rw [if_neg (show m.open_cnt + 1 ≠ 1 by omega)]
    by_cases here : b = a
    · subst here
      simp [before]
    · rw [if_neg here,← other here]
      simp only [Function.update_of_ne here]
  · rw [same,Function.update_self] at found
    cases found
    rw [if_pos rfl]
    by_cases here : b = a
    · subst here
      simp [before]
    · rw [if_neg here,← other here]
      simp only [Function.update_of_ne here]

/-- The last reference to an inode that was removed. -/
def Ends (n : Inode) : Prop := n.open_cnt = 1 ∧ n.removed = true

instance (n : Inode) : Decidable (Ends n) := inferInstanceAs (Decidable (_ ∧ _))

/-- The ledger after a close. -/
def closed (L : Nat → Option InodeDisk) (n : Inode) :
    Nat → Option InodeDisk := if Ends n then Function.update L n.sector none else L

/-- What `inode_close` does. -/
structure Closed (s s' : FileSystem) (L : Nat → Option InodeDisk) (a : Nat) (n : Inode) : Prop where
  tables : s'.tables = s.tables.close a n
  memory : s'.memory = s.memory
  ledger : Ledger s'.fs_device s'.free_map (closed L n)
  outside : ∀ z, (∀ m, L FREE_MAP_SECTOR = some m → ¬ Extent m z) → s'.fs_device.data z = s.fs_device.data z
  kept : ¬ Ends n → s'.fs_device = s.fs_device ∧ s'.free_map = s.free_map ∧ s'.map_memory = s.map_memory
  freed : Ends n → ∀ z, s'.free_map.has z = true ↔ s.free_map.has z = true ∧ ¬ Span n.sector n.data z
  steady : Steady 2 s s'

theorem inode_close_spec (ledger : Ledger s.fs_device s.free_map L) (mapped : MapFile s.tables L s.free_map.bit_cnt)
    (found : s.inodes a = some n) (stored : L n.sector = some n.data) (user : Ends n → n.sector ≠ FREE_MAP_SECTOR) :
    ∃ s', inode_close s a = some s' ∧ Closed s s' L a n := by
  rw [inode_close,found]
  simp only [Option.bind_eq_bind,Option.bind_some]
  by_cases last : n.open_cnt = 1
  · rw [if_pos last]
    by_cases removed : n.removed = true
    · have ends : Ends n := ⟨last,removed⟩
      have other := user ends
      have gone : Ledger s.fs_device s.free_map (Function.update L n.sector none) := ledger_remove ledger n.sector
      have mapped₁ : MapFile s.tables (Function.update L n.sector none) s.free_map.bit_cnt := by
        obtain ⟨f,u,m,file,there,inode,writable,owned,length⟩ := mapped
        exact ⟨f,u,m,file,there,inode,writable,by rw [Function.update_of_ne other.symm]; exact owned,length⟩
      have alone : ∀ z, Span n.sector n.data z → ∀ y i, Function.update L n.sector none y = some i → ¬ Span y i z := by
        intro z mine y i owned theirs
        by_cases same : y = n.sector
        · subst same
          simp at owned
        · rw [Function.update_of_ne same] at owned
          exact ledger.apart y n.sector i n.data owned stored same z theirs mine
      obtain ⟨s₁,ran₁,ledger₁,released₁⟩ := free_map_release_spec (s := { s with open_inodes := s.open_inodes.erase a }) gone mapped₁
        (show n.sector + 1 ≤ _ from ledger.sector _ _ stored) (fun z low high => by
          obtain rfl : z = n.sector := by omega
          exact ledger.used _ _ stored _ (.inl rfl))
        (fun z low high => alone z (.inl (by omega)))
      have bits₁ : s₁.free_map.bit_cnt = s.free_map.bit_cnt := released₁.steady.bits
      have tables₁ := released₁.tables
      have apart := ledger.own _ _ stored
      obtain ⟨s₂,ran₂,ledger₂,released₂⟩ := free_map_release_spec (s := s₁) ledger₁
        (by rw [tables₁,bits₁]; exact mapped₁) (show n.data.start.toNat + bytes_to_sectors n.data.length ≤ _ by
          rw [released₁.steady.size]
          exact ledger.extent _ _ stored) (fun z low high => by
          rw [released₁.bits,if_neg fun range => apart (by
            obtain rfl : z = n.sector := by omega
            exact ⟨low,high⟩)]
          exact ledger.used _ _ stored _ (.inr ⟨low,high⟩))
        (fun z low high => alone z (.inr ⟨low,high⟩))
      have entry : ∀ m, Function.update L n.sector none FREE_MAP_SECTOR = some m ↔ L FREE_MAP_SECTOR = some m := by
        intro m
        rw [Function.update_of_ne other.symm]
      rw [if_pos removed,ran₁,Option.bind_some,ran₂,Option.bind_some]
      refine ⟨_,rfl,?_,?_,?_,?_,fun none_ => absurd ends none_,fun _ z => ?_,?_⟩
      · have tables₂ := released₂.tables.trans tables₁
        rw [Tables.close,if_pos last]
        show ({ s₂.tables with inodes := Function.update s₂.tables.inodes a none } : Tables) = _
        rw [tables₂]
        rfl
      · exact released₂.memory.trans released₁.memory
      · rw [closed,if_pos ends]
        exact ledger₂
      · intro z out
        exact (released₂.outside z fun m owned => out m ((entry m).mp owned)).trans (released₁.outside z fun m owned => out m ((entry m).mp owned))
      · show s₂.free_map.has z = true ↔ _
        rw [released₂.bits,released₁.bits,Span,Extent]
        show (if _ then false else if _ then false else s.free_map.has z) = true ↔ _
        by_cases within : n.data.start.toNat ≤ z ∧ z < n.data.start.toNat + bytes_to_sectors n.data.length
        · simp [within]
        · by_cases here : n.sector ≤ z ∧ z < n.sector + 1
          · have same : z = n.sector := by omega
            rw [if_neg within,if_pos here]
            simp [same]
          · have different : z ≠ n.sector := by omega
            rw [if_neg within,if_neg here]
            simp [within,different]
      · have both : Steady 2 { s with open_inodes := s.open_inodes.erase a } s₂ := steady_trans released₁.steady released₂.steady
        exact ⟨both.size,both.bits,both.plenty,both.ready,both.synced⟩
    · have stays : ¬ Ends n := fun ends => removed ends.2
      rw [if_neg removed]
      refine ⟨_,rfl,?_,rfl,?_,fun _ _ => rfl,fun _ => ⟨rfl,rfl,rfl⟩,fun ends => absurd ends stays,?_⟩
      · rw [Tables.close,if_pos last]
        rfl
      · rw [closed,if_neg stays]
        exact ledger
      · exact steady_mono (steady_same rfl rfl rfl id fun _ _ => rfl) (Nat.zero_le 2)
  · have stays : ¬ Ends n := fun ends => last ends.1
    rw [if_neg last]
    refine ⟨_,rfl,?_,rfl,?_,fun _ _ => rfl,fun _ => ⟨rfl,rfl,rfl⟩,fun ends => absurd ends stays,?_⟩
    · rw [Tables.close,if_neg last]
      rfl
    · rw [closed,if_neg stays]
      exact ledger
    · exact steady_mono (steady_same rfl rfl rfl id fun _ _ => rfl) (Nat.zero_le 2)
end

end Pintos.FileSystem
