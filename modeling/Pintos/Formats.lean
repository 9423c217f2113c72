import Pintos.Handles

/-!
How the file system comes up: from a format, which writes the free map and an empty root
directory, and from a device that is mounted as it is.
-/
namespace Pintos.FileSystem
open Pintos.Machines Pintos.Bitmaps Pintos.Lists
set_option linter.unusedSimpArgs false

/-- Memory once the free map file is open. -/
def with_map (s : FileSystem) (i : InodeDisk) : FileSystem :=
  { s with
    open_inodes := s.next :: s.open_inodes
    inodes := Function.update s.inodes s.next (some { sector := FREE_MAP_SECTOR, open_cnt := 1, removed := false, deny_write_cnt := 0, data := i })
    files := Function.update s.files (s.next + 1) (some { inode := s.next, pos := 0, deny_write := false })
    next := s.next + 2
    free_map_file := some (s.next + 1)
    memory := fun n => s.memory (n + 2) }

section
variable {s s' : FileSystem} {L : Nat → Option InodeDisk} {map : Bitmap} {i m : InodeDisk} {n : Inode} {u : File} {f : Nat}

/-- The two allocations and the size are checked before the map is made. -/
theorem free_map_init_eq (elements : Nat → BitVec 32) :
    free_map_init s elements = if s.memory 0 = true ∧ s.memory 1 = true ∧ s.fs_device.size < 2 ^ 31 then
      (bitmap_create s.fs_device.size elements).bind fun map =>
        some { forget s 2 with free_map := bitmap_mark (bitmap_mark map FREE_MAP_SECTOR) ROOT_DIR_SECTOR }
      else none := rfl

theorem free_map_init_spec {elements : Nat → BitVec 32} (ran : free_map_init s elements = some s') :
    s.fs_device.size < 2 ^ 31 ∧ ∃ map, s' = { forget s 2 with free_map := map } ∧ map.bit_cnt = s.fs_device.size ∧
      ∀ z < map.bit_cnt, map.has z = decide (z = FREE_MAP_SECTOR ∨ z = ROOT_DIR_SECTOR) := by
  obtain ⟨b,created,cnt,clear⟩ := bitmap_create_spec s.fs_device.size elements
  rw [free_map_init_eq,created] at ran
  split at ran
  · next there =>
    rw [Option.bind_some,Option.some.injEq] at ran
    refine ⟨there.2.2,_,ran.symm,cnt,fun z below => ?_⟩
    have free : b.has z = false := clear z (by rw [← cnt]; exact below)
    rw [has_mark,has_mark,free,Bool.or_false]
    by_cases map : z = FREE_MAP_SECTOR
    · simp [map]
    · by_cases root : z = ROOT_DIR_SECTOR
      · simp [root]
      · simp [map,root]
  · cases ran

theorem free_map_init_some (small : s.fs_device.size < 2 ^ 31) (all : ∀ n, s.memory n = true) (elements : Nat → BitVec 32) :
    ∃ s', free_map_init s elements = some s' ∧ ∀ n, s'.memory n = true := by
  obtain ⟨b,created,-⟩ := bitmap_create_spec s.fs_device.size elements
  rw [free_map_init_eq,if_pos ⟨all 0,all 1,small⟩,created]
  exact ⟨_,rfl,fun n => all (n + 2)⟩

theorem open_map_spec (ledger : Ledger s.fs_device map L) (opened : Opened s.tables L []) (owned : L FREE_MAP_SECTOR = some i)
    (empty : s.inodes = fun _ => none) (unfiled : s.files = fun _ => none) :
    open_map s = (if s.memory 0 = true ∧ s.memory 1 = true then some (s.next + 1,with_map s i) else none) ∧
      Opened (with_map s i).tables L [] := by
  have closed : ∀ b m, s.inodes b = some m → m.sector ≠ FREE_MAP_SECTOR := by
    intro b m found
    rw [empty] at found
    cases found
  constructor
  · rw [open_map,inode_open_closed ledger opened owned closed]
    simp only [Option.bind_eq_bind,Option.bind_some]
    cases first : s.memory 0 with
    | false => rfl
    | true =>
      have asks : file_open (with_inode (forget s 1) FREE_MAP_SECTOR i) (some s.next) = if s.memory 1 then
          some (some (s.next + 1),{ with_map s i with free_map_file := s.free_map_file })
          else (inode_close (forget (with_inode (forget s 1) FREE_MAP_SECTOR i) 1) s.next).map fun s => (none,s) := rfl
      simp only [if_true,asks]
      cases second : s.memory 1 with
      | true => rfl
      | false =>
        rw [if_neg Bool.false_ne_true]
        cases inode_close (forget (with_inode (forget s 1) FREE_MAP_SECTOR i) 1) s.next <;> rfl
  · have new := opened_new opened owned closed
    refine opened_file_open new (some (s.next + 1)) fun g u p found other there => ?_
    by_cases here : g = s.next + 1
    · exact absurd (by rw [here]) other
    · have same : s.files g = some u := by
        rw [← found]
        exact (Function.update_of_ne here _ _).symm
      rw [unfiled] at same
      cases same

theorem bitmap_read_spec (found : s.files f = some u) (inode : s.inodes u.inode = some n) (inside : Inside s.fs_device n.data)
    (length : off_t n.data.length = byte_cnt s.free_map.bit_cnt) (positive : 0 < s.free_map.bit_cnt) :
    ∃ map ok, bitmap_read s f = some (ok,{ forget s 1 with free_map := map }) ∧ map.bit_cnt = s.free_map.bit_cnt ∧
      (ok = true → ∀ k < map.bit_cnt, map.has k = (content s.fs_device.data n.data.start.toNat (k / 8)).getLsbD (k % 8)) ∧
      (s.memory 0 = true → ok = true) := by
  have whole : reach n.data (byte_cnt s.free_map.bit_cnt) 0 = byte_cnt s.free_map.bit_cnt := by
    rw [reach,length,Nat.sub_zero,Nat.min_self]
  have read := inode_read_at_spec inode (on_device inside) (byte_cnt s.free_map.bit_cnt) 0
  rw [whole] at read
  obtain ⟨amount,same⟩ : ∃ amount, transferred (s.memory 0) 0 (byte_cnt s.free_map.bit_cnt) = amount := ⟨_,rfl⟩
  rw [same] at read
  refine ⟨trim (overwrite s.free_map ((List.range amount).map fun k => content s.fs_device.data n.data.start.toNat (0 + k))),
    decide (((List.range amount).map fun k => content s.fs_device.data n.data.start.toNat (0 + k)).length = byte_cnt s.free_map.bit_cnt),
    ?_,rfl,fun full k below => ?_,fun memory => ?_⟩
  · rw [bitmap_read,if_pos positive,file_read_at,found]
    simp only [Option.bind_eq_bind,Option.bind_some,read]
    rfl
  · have all := of_decide_eq_true full
    rw [List.length_map,List.length_range] at all
    have within : k / 8 < amount := by
      rw [all]
      exact byte_below below
    refine (has_trim (overwrite s.free_map _) k below).trans ?_
    have bit := image_bit (overwrite s.free_map ((List.range amount).map fun k => content s.fs_device.data n.data.start.toNat (0 + k))) (k / 8)
      (k % 8) (Nat.mod_lt k (by decide))
    rw [Nat.div_add_mod] at bit
    rw [← bit,image_overwrite,range_getD _ within,Nat.zero_add]
  · rw [memory,transferred_true] at same
    exact decide_eq_true (by rw [List.length_map,List.length_range,same])

/-! ### The format -/

theorem opened_empty {t : Tables} (list : t.open_inodes = []) (inodes : t.inodes = fun _ => none)
    (files : t.files = fun _ => none) :
    Opened t L [] := by
  refine ⟨by rw [list]; exact List.nodup_nil,fun a => ?_,fun a n found => ?_,fun a n found => ?_,fun a n found => ?_,fun a b n p found => ?_,
    fun f u found => ?_,fun a member => (by cases member),fun a _ => by rw [inodes,files]; exact ⟨rfl,rfl⟩,fun f u n found => ?_⟩
  · rw [list,inodes]
    simp
  all_goals first | (rw [inodes] at found; cases found) | (rw [files] at found; cases found)

/-- Memory before the first inode is opened. -/
structure Empty (s : FileSystem) : Prop where
  open_inodes : s.open_inodes = []
  inodes : s.inodes = fun _ => none
  files : s.files = fun _ => none

/-- While the free map has no file, nothing is written. -/
theorem allocate_boot (s : FileSystem) (cnt : Nat) (none_ : s.free_map_file = none) {answer : Option Nat}
    (ran : free_map_allocate s cnt = some (answer,s')) :
    ∃ map, s' = { s with free_map := map } ∧ bitmap_scan_and_flip s.free_map 0 cnt false = some (answer,map) := by
  obtain ⟨r,b,flipped,-⟩ := bitmap_scan_and_flip_spec (b := s.free_map) false cnt (Nat.zero_le _)
  have asks : free_map_allocate s cnt = some (r,{ s with free_map := b }) := by
    rw [free_map_allocate,flipped]
    simp only [Option.bind_eq_bind,Option.bind_some]
    cases r with
    | none => rfl
    | some x => simp only [none_]
  rw [asks] at ran
  cases ran
  exact ⟨b,rfl,flipped⟩

theorem block_write_inside {d d' : Device} {x : Nat} {buffer : Nat → Byte} (wrote : block_write d x buffer = some d') :
    x < d.size := by
  by_cases there : x < d.size
  · exact there
  · rw [block_write,if_neg there] at wrote
    cases wrote

theorem byte_cnt_small {cnt : Nat} (small : cnt < 2 ^ 31) : byte_cnt cnt < 2 ^ 30 := by
  rw [byte_cnt,elem_cnt,ELEM_BITS]
  omega

/-- The file of the free map. -/
theorem create_map_spec (none_ : s.free_map_file = none) (small : s.fs_device.size < 2 ^ 31)
    (cnt : s.free_map.bit_cnt = s.fs_device.size)
    (bits : ∀ z < s.free_map.bit_cnt, s.free_map.has z = decide (z = FREE_MAP_SECTOR ∨ z = ROOT_DIR_SECTOR))
    (ran : inode_create s FREE_MAP_SECTOR (BitVec.ofNat 32 (byte_cnt s.free_map.bit_cnt)) = some (true,s')) :
    ∃ i, i.length.toNat = byte_cnt s.free_map.bit_cnt ∧ Created s s' (fun _ => none) FREE_MAP_SECTOR i ∧
    s'.fs_device.size = s.fs_device.size ∧
      s'.free_map.bit_cnt = s.free_map.bit_cnt ∧ ROOT_DIR_SECTOR < s.fs_device.size := by
  have bound := byte_cnt_small (cnt.trans_lt small)
  have long : (BitVec.ofNat 32 (byte_cnt s.free_map.bit_cnt)).toNat = byte_cnt s.free_map.bit_cnt := by
    rw [BitVec.toNat_ofNat]
    exact Nat.mod_eq_of_lt (by omega)
  have nonnegative : 0 ≤ (BitVec.ofNat 32 (byte_cnt s.free_map.bit_cnt)).toInt := by
    rw [BitVec.toInt_eq_toNat_of_lt (by omega)]
    exact Int.natCast_nonneg _
  have asked := ran
  rw [inode_create,if_neg (Int.not_lt.mpr nonnegative),malloc_eq] at asked
  cases memory : s.memory 0 with
  | false =>
    rw [memory] at asked
    cases asked
  | true =>
    simp only [memory,if_true,Option.bind_eq_bind] at asked
    obtain ⟨⟨answer,s₁⟩,allocated,rest⟩ := Option.bind_eq_some_iff.mp asked
    cases answer with
    | none => cases rest
    | some start =>
      obtain ⟨map,rfl,flipped⟩ := allocate_boot (forget s 1) _ none_ allocated
      obtain ⟨r,b,flipped',cnt',-,result⟩ := bitmap_scan_and_flip_spec (b := s.free_map) false
        (bytes_to_sectors (BitVec.ofNat 32 (byte_cnt s.free_map.bit_cnt))) (Nat.zero_le _)
      have flipped₁ : bitmap_scan_and_flip s.free_map 0 (bytes_to_sectors (BitVec.ofNat 32 (byte_cnt s.free_map.bit_cnt))) false =
        some (some start,map) := flipped
      rw [flipped₁] at flipped'
      cases flipped'
      obtain ⟨-,room,run,bits'⟩ := result
      obtain ⟨d,wrote,-⟩ := Option.bind_eq_some_iff.mp rest
      have inside : FREE_MAP_SECTOR < s.fs_device.size := block_write_inside wrote
      have sectors : 0 < bytes_to_sectors (BitVec.ofNat 32 (byte_cnt s.free_map.bit_cnt)) := by
        rcases bytes_to_sectors_spec nonnegative with ⟨-,rounded⟩ | ⟨-,many⟩
        · rw [rounded,long,byte_cnt,elem_cnt,ELEM_BITS]
          rw [FREE_MAP_SECTOR] at inside
          omega
        · omega
      have free := run start (Nat.le_refl _) (by omega)
      rw [bits start (by omega)] at free
      have later : start ≠ FREE_MAP_SECTOR ∧ start ≠ ROOT_DIR_SECTOR := by simpa using free
      have root : ROOT_DIR_SECTOR < s.fs_device.size := by
        rw [FREE_MAP_SECTOR,ROOT_DIR_SECTOR] at later
        rw [ROOT_DIR_SECTOR]
        omega
      have ledger : Ledger s.fs_device s.free_map (fun _ => none) :=
        ⟨⟨small,cnt⟩,by simp,by simp,by simp,by simp,by simp,by simp,by simp⟩
      have ledger' : Ledger s.fs_device map (fun _ => none) :=
        ⟨⟨small,cnt'.trans cnt⟩,by simp,by simp,by simp,by simp,by simp,by simp,by simp⟩
      have taken : Allocated (forget s 1) { forget s 1 with free_map := map } (fun _ => none)
          (bytes_to_sectors (BitVec.ofNat 32 (byte_cnt s.free_map.bit_cnt))) (some start) :=
        ⟨rfl,rfl,ledger',fun _ _ => rfl,fun none_ => (by cases none_),fun x same => by
          cases same
          exact ⟨cnt ▸ room,run,bits'⟩,fun x same => by
          cases same
          exact flipped⟩
      have vacant : Vacant s.fs_device s.free_map (fun _ => none) FREE_MAP_SECTOR :=
        ⟨inside,by rw [bits _ (by rw [cnt]; exact inside)]; rfl,by simp⟩
      obtain ⟨i,d',length,created,made,size,-⟩ := inode_create_some ledger nonnegative memory vacant allocated taken rfl
      rw [created] at ran
      cases ran
      exact ⟨i,by rw [length]; exact long,made,size,cnt',root⟩

/-- What is in the free map once it was read. -/
theorem free_map_open_spec (ledger : Ledger s.fs_device map L) (empty : Empty s) (owned : L FREE_MAP_SECTOR = some i)
    (length : i.length.toNat = byte_cnt s.free_map.bit_cnt) (positive : 0 < s.free_map.bit_cnt) :
    (∀ s', free_map_open s = some s' → ∃ map', s' = { forget (with_map s i) 1 with free_map := map' } ∧
      map'.bit_cnt = s.free_map.bit_cnt ∧
      Opened s'.tables L [] ∧ Mapped s'.tables s'.free_map.bit_cnt ∧ Synced s') ∧
    ((∀ n, s.memory n = true) → ∃ s', free_map_open s = some s') := by
  obtain ⟨opens,opened⟩ := open_map_spec ledger (opened_empty empty.open_inodes empty.inodes empty.files) owned empty.inodes empty.files
  obtain ⟨map',ok,read,cnt',bits,enough⟩ := bitmap_read_spec (s := with_map s i) (f := s.next + 1) (Function.update_self ..)
    (Function.update_self ..) (show Inside s.fs_device i from ledger_inside ledger owned) (by rw [ledger_off_t ledger owned]; exact length) positive
  have start : map_start s.fs_device = i.start.toNat := map_start_eq ledger owned
  by_cases memory : s.memory 0 = true ∧ s.memory 1 = true
  · have asks : free_map_open s = if ok then some { forget (with_map s i) 1 with free_map := map' } else none := by
      rw [free_map_open,opens,if_pos memory]
      simp only [Option.bind_eq_bind,Option.bind_some,read]
    rw [asks]
    constructor
    · intro s' ran
      cases ok with
      | false => cases ran
      | true =>
        cases ran
        refine ⟨map',rfl,cnt',opened,⟨s.next + 1,_,_,rfl,Function.update_self ..,rfl,Function.update_self ..,rfl,?_⟩,
          fun k below => ?_⟩
        · show i.length.toNat = byte_cnt map'.bit_cnt
          rw [cnt']
          exact length
        · show (content s.fs_device.data (map_start s.fs_device) (k / 8)).getLsbD (k % 8) = map'.has k
          rw [start]
          exact (bits rfl k below).symm
    · intro all
      rw [if_pos (enough (all 2))]
      exact ⟨_,rfl⟩
  · rw [free_map_open,opens,if_neg memory]
    exact ⟨fun s' none_ => (by cases none_),fun all => absurd ⟨all 0,all 1⟩ memory⟩

/-- What a free map that agrees with the device is. -/
theorem ledger_synced {map' : Bitmap} (ledger : Ledger s.fs_device map L) (cnt : map'.bit_cnt = map.bit_cnt)
    (same : ∀ z < map.bit_cnt, map'.has z = map.has z) : Ledger s.fs_device map' L := by
  refine ledger_map ledger cnt fun x i owned z inside => ?_
  have below : z < map.bit_cnt := by
    rw [ledger.device.2]
    rcases inside with rfl | within
    · exact ledger.sector _ i owned
    · exact Nat.lt_of_lt_of_le within.2 (ledger.extent x i owned)
  rw [same z below]
  exact ledger.used x i owned z inside

/-- A formatted device. -/
structure Formatted (s : FileSystem) (L : Nat → Option InodeDisk) : Prop where
  sane : Sane s L []
  synced : Synced s
  positive : 0 < s.free_map.bit_cnt
  unnamed : ∀ k < entry_cnt, (slot s.fs_device k).in_use = false
  unhandled : ∀ f, s.files f ≠ none → s.free_map_file = some f

theorem do_format_spec (empty : Empty s) (none_ : s.free_map_file = none) (small : s.fs_device.size < 2 ^ 31)
    (cnt : s.free_map.bit_cnt = s.fs_device.size)
    (bits : ∀ z < s.free_map.bit_cnt, s.free_map.has z = decide (z = FREE_MAP_SECTOR ∨ z = ROOT_DIR_SECTOR))
    (ran : do_format s = some s') :
    ∃ L i j, Ledger s'.fs_device s'.free_map L ∧ Empty s' ∧ L FREE_MAP_SECTOR = some i ∧
    i.length.toNat = byte_cnt s'.free_map.bit_cnt ∧
      L ROOT_DIR_SECTOR = some j ∧ j.length.toNat = sizeof_dir_entry * entry_cnt ∧ 0 < s'.free_map.bit_cnt ∧ Synced s' ∧
      ∀ k < entry_cnt, (slot s'.fs_device k).in_use = false := by
  obtain ⟨s₄,creates,rest⟩ := Option.bind_eq_some_iff.mp ran
  obtain ⟨⟨created,s₂⟩,makes,later⟩ := Option.bind_eq_some_iff.mp creates
  cases created with
  | false => cases later
  | true =>
    obtain ⟨i,length,made,size,cnt₂,root⟩ := create_map_spec none_ small cnt bits makes
    have owned : Function.update (fun _ => none) FREE_MAP_SECTOR (some i) FREE_MAP_SECTOR = some i := Function.update_self ..
    have empty₂ : Empty s₂ := ⟨(congrArg Tables.open_inodes made.tables).trans empty.open_inodes,
      (congrArg Tables.inodes made.tables).trans empty.inodes,(congrArg Tables.files made.tables).trans empty.files⟩
    obtain ⟨opens,opened⟩ := open_map_spec made.ledger (opened_empty empty₂.open_inodes empty₂.inodes empty₂.files) owned empty₂.inodes empty₂.files
    -- The free map is written to its file.
    obtain ⟨⟨file,s₃⟩,opens',writes⟩ := Option.bind_eq_some_iff.mp later
    rw [opens] at opens'
    split at opens'
    · cases opens'
      obtain ⟨ok,s₅,wrote,tables₅,map₅,memory₅,map_memory₅,size₅,outside₅,success,synced₅⟩ :=
        bitmap_write_spec (s := with_map s₂ i)
        (f := s₂.next + 1) made.ledger (Function.update_self ..) (Function.update_self ..) rfl owned (by
          show _ = byte_cnt s₂.free_map.bit_cnt
          rw [cnt₂]
          exact length)
      simp only [wrote,Option.bind_eq_bind,Option.bind_some] at writes
      cases ok with
      | false => cases writes
      | true =>
        obtain rfl : s₅ = s₄ := Option.some.inj writes
        have ledger₅ : Ledger s₅.fs_device s₅.free_map (Function.update (fun _ => none) FREE_MAP_SECTOR (some i)) := by
          rw [map₅]
          exact ledger_outside made.ledger owned size₅ outside₅
        have cnt₅ : s₅.free_map.bit_cnt = s.free_map.bit_cnt := by
          rw [map₅]
          exact cnt₂
        have mapped₅ : MapFile s₅.tables (Function.update (fun _ => none) FREE_MAP_SECTOR (some i)) s₅.free_map.bit_cnt := by
          rw [tables₅,cnt₅]
          exact ⟨s₂.next + 1,_,_,rfl,Function.update_self ..,Function.update_self ..,rfl,owned,length⟩
        have busy : ∀ z, z = FREE_MAP_SECTOR ∨ z = ROOT_DIR_SECTOR → s.free_map.has z = true := by
          intro z first
          rw [bits z (by
            rw [cnt]
            rw [FREE_MAP_SECTOR,ROOT_DIR_SECTOR] at *
            omega)]
          exact decide_eq_true first
        have vacant : Vacant s₅.fs_device s₅.free_map (Function.update (fun _ => none) FREE_MAP_SECTOR (some i)) ROOT_DIR_SECTOR := by
          refine ⟨?_,?_,fun y j there inside => ?_⟩
          · rw [size₅]
            show _ < s₂.fs_device.size
            rw [size]
            exact root
          · rw [map₅]
            show s₂.free_map.has _ = true
            rw [made.bits]
            split
            · rfl
            · exact busy _ (.inr rfl)
          · rcases Decidable.em (y = FREE_MAP_SECTOR) with rfl | other
            · rw [owned] at there
              cases there
              rcases inside with same | within
              · cases same
              · have free := made.room _ within.1 within.2
                rw [busy _ (.inr rfl)] at free
                cases free
            · rw [Function.update_of_ne other] at there
              cases there
        obtain ⟨⟨created,s₆⟩,makes₆,closes⟩ := Option.bind_eq_some_iff.mp rest
        obtain ⟨created',s₆',ran₆,steady₆,-,made₆,exactly⟩ := inode_create_spec ledger₅ mapped₅
          (show 0 ≤ (BitVec.ofNat 32 (16 * sizeof_dir_entry)).toInt by decide) vacant
        rw [dir_create,ran₆] at makes₆
        cases makes₆
        cases created with
        | false => cases closes
        | true =>
          obtain ⟨j,length₆,made₆⟩ := made₆ rfl
          have tables₆ : s₆.tables = (with_map s₂ i).tables := made₆.tables.trans tables₅
          have there : Function.update (Function.update (fun _ => none) FREE_MAP_SECTOR (some i)) ROOT_DIR_SECTOR (some j) FREE_MAP_SECTOR = some i := by
            rw [Function.update_of_ne (by decide)]
            exact owned
          -- The file is closed again.
          have closed : free_map_close s₆ = some { s₆ with
              open_inodes := s₂.open_inodes
              inodes := fun _ => none
              files := fun _ => none } := by
            have files : s₆.files = (with_map s₂ i).files := congrArg Tables.files tables₆
            have inodes : s₆.inodes = (with_map s₂ i).inodes := congrArg Tables.inodes tables₆
            have list : s₆.open_inodes = (with_map s₂ i).open_inodes := congrArg Tables.open_inodes tables₆
            have map_file : s₆.free_map_file = some (s₂.next + 1) := congrArg Tables.free_map_file tables₆
            have file : s₆.files (s₂.next + 1) = some { inode := s₂.next, pos := 0, deny_write := false } := by
              rw [files]
              exact Function.update_self ..
            have inode : s₆.inodes s₂.next = some { sector := FREE_MAP_SECTOR, open_cnt := 1, removed := false, deny_write_cnt := 0, data := i } := by
              rw [inodes]
              exact Function.update_self ..
            have allows : file_allow_write s₆ (s₂.next + 1) = some s₆ := by
              rw [file_allow_write,file]
              rfl
            have gone : inode_close s₆ s₂.next = some { s₆ with
                open_inodes := s₆.open_inodes.erase s₂.next, inodes := Function.update s₆.inodes s₂.next none } := by
              rw [inode_close,inode]
              rfl
            rw [free_map_close,map_file,Option.bind_some,file_close,allows]
            simp only [Option.bind_eq_bind,Option.bind_some,file,gone]
            have first : s₆.open_inodes.erase s₂.next = s₂.open_inodes := by
              rw [list]
              exact List.erase_cons_head ..
            have second : Function.update s₆.inodes s₂.next none = fun _ => none := by
              rw [inodes,with_map,empty₂.inodes]
              show Function.update (Function.update (fun _ => none) s₂.next _) s₂.next none = _
              rw [Function.update_idem]
              exact Function.update_eq_self s₂.next _
            have third : Function.update s₆.files (s₂.next + 1) none = fun _ => none := by
              rw [files,with_map,empty₂.files]
              show Function.update (Function.update (fun _ => none) (s₂.next + 1) _) (s₂.next + 1) none = _
              rw [Function.update_idem]
              exact Function.update_eq_self (s₂.next + 1) _
            rw [first,second,third,map_file]
          have ends : some { s₆ with open_inodes := s₂.open_inodes, inodes := fun _ => none, files := fun _ => none } = some s' :=
            closed.symm.trans closes
          cases ends
          have stored : root_start s₆.fs_device = j.start.toNat := root_start_eq made₆.ledger (Function.update_self ..)
          have cnt₆ : s₆.free_map.bit_cnt = s.free_map.bit_cnt := steady₆.bits.trans cnt₅
          have length' : j.length.toNat = sizeof_dir_entry * entry_cnt := by
            rw [length₆]
            rfl
          refine ⟨_,i,j,made₆.ledger,⟨empty₂.open_inodes,rfl,rfl⟩,there,?_,Function.update_self ..,length',?_,?_,
            fun k below => ?_⟩
          · show _ = byte_cnt s₆.free_map.bit_cnt
            rw [cnt₆]
            exact length
          · show 0 < s₆.free_map.bit_cnt
            rw [cnt₆,cnt]
            omega
          · exact steady₆.synced (exactly.mp rfl).2.1 (synced₅ (success.mp rfl))
          · show (slot s₆.fs_device k).in_use = false
            have zero : content s₆.fs_device.data (root_start s₆.fs_device) (sizeof_dir_entry * k + 19) = 0#8 := by
              have inside : sizeof_dir_entry * k + 19 < off_t j.length := by
                rw [ledger_off_t made₆.ledger (Function.update_self ..),length',sizeof_dir_entry,entry_cnt]
                rw [entry_cnt] at below
                omega
              rw [content,stored,made₆.zero _ (extent_pos made₆.ledger (Function.update_self ..) inside)]
            have byte : (slot s₆.fs_device k).in_use = decide (content s₆.fs_device.data (root_start s₆.fs_device) (sizeof_dir_entry * k + 19) ≠ 0#8) := by
              rw [slot,dir_entry]
              show decide (((List.range sizeof_dir_entry).map _).getD 19 0#8 ≠ 0#8) = _
              rw [range_getD _ (by decide)]
            rw [byte,zero]
            rfl
    · cases opens'

theorem filesys_init_format {boot : FileSystem} (ran : filesys_init true boot = some s) : ∃ L, Formatted s L := by
  obtain ⟨s₁,inits,rest⟩ := Option.bind_eq_some_iff.mp ran
  obtain ⟨small,map,same,cnt,bits⟩ := free_map_init_spec inits
  obtain ⟨s₂,formats,opens⟩ := Option.bind_eq_some_iff.mp rest
  obtain ⟨L,i,j,ledger,empty,owned,length,root,length',positive,synced,unused⟩ :=
    do_format_spec (by rw [same]; exact ⟨rfl,rfl,rfl⟩)
    (by rw [same]; rfl) (by rw [same]; exact small) (by rw [same]; exact cnt) (by rw [same]; exact bits) formats
  obtain ⟨map',rfl,cnt',opened,mapped,synced'⟩ := (free_map_open_spec ledger empty owned length positive).1 s opens
  have ledger' : Ledger s₂.fs_device map' L := ledger_synced ledger cnt' fun z below => by
    have one := synced z below
    have two := synced' z (show z < map'.bit_cnt by rw [cnt']; exact below)
    rw [← one]
    exact two.symm
  refine ⟨L,⟨ledger',opened,mapped,⟨j,root,length'⟩,fun k below busy => ?_,fun k below _ _ busy => ?_,fun a n found gone => ?_⟩,synced',?_,unused,
    fun f there => ?_⟩
  · exact absurd ((unused k below).symm.trans busy) Bool.false_ne_true
  · exact absurd ((unused k below).symm.trans busy) Bool.false_ne_true
  · have one : Function.update s₂.inodes s₂.next _ a = some n := found
    rcases update_inode one with ⟨-,same⟩ | ⟨-,before⟩
    · cases same
      cases gone
    · rw [empty.inodes] at before
      cases before
  · show 0 < map'.bit_cnt
    rw [cnt']
    exact positive
  · have one : Function.update s₂.files (s₂.next + 1) _ f ≠ none := there
    by_cases same : f = s₂.next + 1
    · rw [same]
      rfl
    · rw [Function.update_of_ne same,empty.files] at one
      exact absurd rfl one
end

end Pintos.FileSystem
