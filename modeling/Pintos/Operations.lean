import Pintos.Directories

/-!
What the calls of `filesys.c` and `file.c` do from a state in which the device and the
memory agree, whether or not there is memory: they return, they keep that agreement, and
the bytes of the files that they are not about stay as they were.
-/
namespace Pintos.FileSystem
open Pintos.Machines Pintos.Bitmaps Pintos.Lists
set_option linter.unusedSimpArgs false

section
variable {s s' s₁ : FileSystem} {L L' : Nat → Option InodeDisk} {x z a b f k : Nat} {i m : InodeDisk} {n : Inode}
  {extra : List Nat}
  {name : List Byte} {d d' : Device} {u : File}

/-! ### The root directory is opened and closed -/

theorem takes_removed {t : Tables} {inodes : Nat → Option Inode} (takes : Takes t inodes a x i) (found : t.inodes b = some n) :
    ∃ m, inodes b = some m ∧ m.sector = n.sector ∧ m.data = n.data ∧ m.removed = n.removed := by
  by_cases here : b = a
  · subst here
    rcases takes with ⟨m,before,-,-,rfl⟩ | ⟨none_,-,-⟩
    · rw [found] at before
      cases before
      exact ⟨_,Function.update_self ..,rfl,rfl,rfl⟩
    · rw [found] at none_
      cases none_
  · exact ⟨n,(takes_other takes here).trans found,rfl,rfl,rfl⟩

/-- Between two calls the root directory is closed. -/
theorem root_closed (sane : Sane s L []) (found : s.inodes b = some n) : n.sector ≠ ROOT_DIR_SECTOR := by
  intro sector
  have count := sane.opened.count b n found
  rw [root_refs sane found sector] at count
  have none_ : n.open_cnt = 0 := count.1
  omega

/-- An inode is open once more. -/
theorem sane_takes (sane : Sane s L extra) (same : Same s s') (opened : Opened s'.tables L (a :: extra))
    (takes : Takes s.tables s'.inodes a x i)
    (fresh : ∀ n, s.inodes a = some n → n.removed = true → False) : Sane s' L (a :: extra) where
  ledger := by rw [same.fs_device,same.free_map]; exact sane.ledger
  opened := opened
  mapped := by
    rw [same.free_map]
    refine mapped_keep sane.mapped same.free_map_file (fun f u _ found => ?_) fun c p found _ => takes_kept takes found
    show s'.files f = some u
    rw [same.files]
    exact found
  root := by
    rw [same.fs_device]
    refine ⟨sane.root.root,sane.root.named,sane.root.once,fun c p found gone => ?_⟩
    by_cases here : c = a
    · subst here
      obtain ⟨q,there,-,-,removed⟩ := takes_found takes
      have one : s'.inodes c = some p := found
      rw [there] at one
      cases one
      rw [removed] at gone
      cases was : s.tables.inodes c with
      | none =>
        rw [was] at gone
        cases gone
      | some q =>
        rw [was] at gone
        exact (fresh q was gone).elim
    · have there : s'.inodes c = some p := found
      rw [takes_other takes here] at there
      exact sane.root.removed c p there gone

theorem dir_open_root_spec (sane : Sane s L []) :
    ∃ answer s₁, dir_open_root s = some (answer,s₁) ∧ Same s s₁ ∧
      (answer = none → ¬ (s.memory 0 = true ∧ s.memory 1 = true) ∧ s₁.inodes = s.inodes ∧ Sane s₁ L []) ∧
      ∀ a, answer = some a → s.memory 0 = true ∧ s.memory 1 = true ∧ s₁.memory = (fun n => s.memory (n + 2)) ∧ Sane s₁ L [a] ∧
        ∃ i, Takes s.tables s₁.inodes a ROOT_DIR_SECTOR i := by
  obtain ⟨i,owned,-⟩ := sane.root.root
  have closed : ∀ b m, s.inodes b = some m → m.sector ≠ ROOT_DIR_SECTOR := fun b m found => root_closed sane found
  have unused : s.inodes s.next = none := (sane.opened.fresh s.next (Nat.le_refl _)).1
  rw [dir_open_root,inode_open_closed sane.ledger sane.opened owned closed,Option.bind_some]
  cases first : s.memory 0 with
  | false =>
    refine ⟨none,forget s 2,rfl,⟨rfl,rfl,rfl,rfl,rfl,2,rfl⟩,
      fun _ => ⟨fun both => (by cases both.1),rfl,?_⟩,fun a none_ => (by cases none_)⟩
    exact sane_forget sane 2
  | true =>
    have takes : Takes s.tables (with_inode (forget s 1) ROOT_DIR_SECTOR i).inodes s.next ROOT_DIR_SECTOR i :=
      .inr ⟨unused,closed,rfl⟩
    have opened := opened_new sane.opened owned closed
    have taken : Sane (forget (with_inode (forget s 1) ROOT_DIR_SECTOR i) 1) L [s.next] :=
      sane_takes sane (show Same s (forget (with_inode (forget s 1) ROOT_DIR_SECTOR i) 1) from ⟨rfl,rfl,rfl,rfl,rfl,2,rfl⟩) opened takes fun n found => by
        rw [unused] at found
        cases found
    have asks : dir_open (with_inode (forget s 1) ROOT_DIR_SECTOR i) (some s.next) =
        if s.memory 1 then some (some s.next,forget (with_inode (forget s 1) ROOT_DIR_SECTOR i) 1)
        else (inode_close (forget (with_inode (forget s 1) ROOT_DIR_SECTOR i) 1) s.next).map fun s => (none,s) := rfl
    simp only [if_true,asks]
    cases second : s.memory 1 with
    | true =>
      refine ⟨some s.next,forget (with_inode (forget s 1) ROOT_DIR_SECTOR i) 1,rfl,⟨rfl,rfl,rfl,rfl,rfl,2,rfl⟩,
        fun none_ => (by cases none_),
        fun a same => ?_⟩
      cases same
      exact ⟨trivial,rfl,rfl,taken,i,takes⟩
    | false =>
      obtain ⟨s',ran,back,inodes,opened'⟩ := give_back (s := forget (with_inode (forget s 1) ROOT_DIR_SECTOR i) 1)
        (fun q was => (sane.opened.count _ q was).2) takes opened taken.ledger taken.mapped
      refine ⟨none,s',?_,?_,fun _ => ⟨fun both => (by cases both.2),inodes,?_⟩,fun a none_ => (by cases none_)⟩
      · rw [if_neg Bool.false_ne_true,ran]
        rfl
      · obtain ⟨k,memory⟩ := back.memory
        exact ⟨back.fs_device,back.free_map,back.free_map_file,back.files,back.map_memory,k + 2,memory⟩
      · exact sane_keep sane opened' back.fs_device back.free_map inodes back.free_map_file back.files

/-- The directory is closed, and memory is as it was before it was opened. -/
theorem dir_close_spec {t : Tables} (positive : ∀ m, t.inodes a = some m → 0 < m.open_cnt)
    (takes : Takes t s.inodes a ROOT_DIR_SECTOR i)
    (sane : Sane s L (a :: extra)) : ∃ s', dir_close s (some a) = some s' ∧ Same s s' ∧ s'.inodes = t.inodes ∧
    Sane s' L extra := by
  obtain ⟨s',ran,same,inodes,opened⟩ := give_back positive takes sane.opened sane.ledger sane.mapped
  refine ⟨s',ran,same,inodes,by rw [same.fs_device,same.free_map]; exact sane.ledger,opened,?_,?_⟩
  · rw [same.free_map]
    refine mapped_keep sane.mapped same.free_map_file (fun f u _ found => ?_) fun c p found first => ?_
    · show s'.files f = some u
      rw [same.files]
      exact found
    · show ∃ p', s'.inodes c = some p' ∧ _
      rw [inodes]
      by_cases here : c = a
      · subst here
        obtain ⟨q,there,mine,-⟩ := takes_found takes
        have one : s.inodes c = some p := found
        rw [there] at one
        cases one
        rw [mine] at first
        cases first
      · exact ⟨p,(takes_other takes here).symm.trans found,rfl,rfl⟩
  · rw [same.fs_device]
    refine ⟨sane.root.root,sane.root.named,sane.root.once,fun c p found gone => ?_⟩
    have there : s'.inodes c = some p := found
    rw [inodes] at there
    obtain ⟨q,now,sector,-,removed⟩ := takes_removed takes there
    have rest := sane.root.removed c q now (removed.trans gone)
    rw [sector] at rest
    exact rest

/-! ### Creating a file -/

/-- Sectors in use stay as they are, those of the free map apart. -/
def Spared (s s' : FileSystem) (L : Nat → Option InodeDisk) : Prop :=
  ∀ z, s.free_map.has z = true → (∀ m, L FREE_MAP_SECTOR = some m → ¬ Extent m z) → s'.fs_device.data z = s.fs_device.data z

theorem slot_spared (ledger : Ledger s.fs_device s.free_map L)
    (root : ∃ i, L ROOT_DIR_SECTOR = some i ∧ i.length.toNat = sizeof_dir_entry * entry_cnt)
    (spared : Spared s s' L) (below : k < entry_cnt) : slot s'.fs_device k = slot s.fs_device k := by
  obtain ⟨i,owned,length⟩ := root
  refine slot_same ledger owned below length fun z mine => spared z (ledger.used _ i owned z mine) fun m theirs inside => ?_
  exact ledger.apart _ _ i m owned theirs (by decide) z mine (.inr inside)

/-- The first sector that is free and the sectors of the data are there, and so is the
    memory to take them. -/
def Reserves (s : FileSystem) (size : BitVec 32) : Prop :=
  s.memory 0 = true ∧ s.memory 1 = true ∧ s.memory 2 = true ∧ Ready s 2 ∧ ∃ x map y map',
    bitmap_scan_and_flip s.free_map 0 1 false = some (some x,map) ∧
      bitmap_scan_and_flip map 0 (bytes_to_sectors size) false = some (some y,map')

/-- What a call that creates a file has done, with the inode in sector `x` and the entry
    in slot `k`. -/
structure NewFile (s s' : FileSystem) (L : Nat → Option InodeDisk) (name : List Byte) (size : BitVec 32) (x : Nat)
    (i : InodeDisk) (k : Nat) :
    Prop where
  unused : L x = none
  alone : ∀ y j, L y = some j → ¬ Span y j x
  length : i.length = size
  named : name ≠ [] ∧ name.length ≤ NAME_MAX
  below : k < entry_cnt
  entry : Names (slot s'.fs_device k) name
  sector : (slot s'.fs_device k).inode_sector.toNat = x
  others : ∀ l < entry_cnt, l ≠ k → slot s'.fs_device l = slot s.fs_device l
  outside : ∀ z, z ≠ x → s.free_map.has z = true → (∀ i, L ROOT_DIR_SECTOR = some i → ¬ Extent i z) →
    (∀ m, L FREE_MAP_SECTOR = some m → ¬ Extent m z) → s'.fs_device.data z = s.fs_device.data z
  zero : ∀ z, Extent i z → s'.fs_device.data z = fun _ => 0#8
  absent : Plenty s → (slot s.fs_device k).in_use = false ∧ ∀ q < entry_cnt, ¬ Names (slot s.fs_device q) name

/-- A new inode is no one's yet. -/
theorem opened_ledger {t : Tables} (opened : Opened t L extra) (more : ∀ y i, L y = some i → L' y = some i) : Opened t L' extra :=
  ⟨opened.once,opened.listed,fun b n found => more _ _ (opened.stored b n found),opened.count,opened.deny,opened.sector,opened.file,opened.held,
    opened.fresh,opened.user⟩

/-- A sector that was just allocated. -/
theorem allocated_vacant (ledger : Ledger s.fs_device s.free_map L) (allocated : Allocated s s₁ L 1 (some x))
    (size : s₁.fs_device.size = s.fs_device.size) :
    Vacant s₁.fs_device s₁.free_map L x ∧ L x = none ∧ s.free_map.has x = false := by
  obtain ⟨room,run,bits⟩ := allocated.some_ x rfl
  have free := run x (Nat.le_refl x) (Nat.lt_succ_self x)
  have alone : ∀ y i, L y = some i → ¬ Span y i x := by
    intro y i owned mine
    rw [ledger.used y i owned x mine] at free
    cases free
  refine ⟨⟨by rw [size]; exact room,?_,alone⟩,?_,free⟩
  · rw [bits,if_pos ⟨Nat.le_refl x,Nat.lt_succ_self x⟩]
  · cases owned : L x with
    | none => rfl
    | some i => exact absurd (.inl rfl) (alone x i owned)

theorem root_slots {t : Tables} (root : Root d t L) (slots : ∀ l < entry_cnt, slot d' l = slot d l) : Root d' t L := by
  refine ⟨root.root,fun l inside busy => ?_,fun l inside l' inside' busy busy' equal => ?_,fun b n found gone => ?_⟩
  · rw [slots l inside] at busy ⊢
    exact root.named l inside busy
  · rw [slots l inside] at busy equal
    rw [slots l' inside'] at busy' equal
    exact root.once l inside l' inside' busy busy' equal
  · obtain ⟨one,two,three⟩ := root.removed b n found gone
    refine ⟨one,two,fun l inside busy => ?_⟩
    rw [slots l inside] at busy ⊢
    exact three l inside busy

theorem sane_add {e : DirEntry} (sane : Sane s L extra) (unused : L x = none) (other : x ≠ FREE_MAP_SECTOR ∧ x ≠ ROOT_DIR_SECTOR)
    (tables : s'.tables = s.tables) (bits : s'.free_map.bit_cnt = s.free_map.bit_cnt)
    (ledger : Ledger s'.fs_device s'.free_map (Function.update L x (some i))) (here : slot s'.fs_device k = e)
    (sector : e.inode_sector.toNat = x)
    (others : ∀ l < entry_cnt, l ≠ k → slot s'.fs_device l = slot s.fs_device l) :
    Sane s' (Function.update L x (some i)) extra := by
  have more : ∀ y j, L y = some j → Function.update L x (some i) y = some j := by
    intro y j owned
    have different : y ≠ x := by
      rintro rfl
      rw [unused] at owned
      cases owned
    rw [Function.update_of_ne different]
    exact owned
  have apart : ∀ l < entry_cnt, (slot s.fs_device l).in_use = true → (slot s.fs_device l).inode_sector.toNat ≠ x := by
    intro l inside busy same
    obtain ⟨⟨j,owned⟩,-⟩ := sane.root.named l inside busy
    rw [same,unused] at owned
    cases owned
  refine ⟨ledger,by rw [tables]; exact opened_ledger sane.opened more,by rw [tables,bits]; exact sane.mapped,?_,?_,?_,?_⟩
  · obtain ⟨j,owned,length⟩ := sane.root.root
    exact ⟨j,more _ j owned,length⟩
  · intro l inside busy
    by_cases same : l = k
    · rw [same,here,sector]
      exact ⟨⟨i,Function.update_self ..⟩,other⟩
    · rw [others l inside same] at busy ⊢
      obtain ⟨⟨j,owned⟩,rest⟩ := sane.root.named l inside busy
      exact ⟨⟨j,more _ j owned⟩,rest⟩
  · intro l inside l' inside' busy busy' equal
    by_cases same : l = k
    · by_cases same' : l' = k
      · rw [same,same']
      · rw [same,here,sector,others l' inside' same'] at equal
        rw [others l' inside' same'] at busy'
        exact absurd equal.symm (apart l' inside' busy')
    · by_cases same' : l' = k
      · rw [same',here,sector,others l inside same] at equal
        rw [others l inside same] at busy
        exact absurd equal (apart l inside busy)
      · rw [others l inside same] at busy equal
        rw [others l' inside' same'] at busy' equal
        exact sane.root.once l inside l' inside' busy busy' equal
  · rw [tables]
    intro b n found gone
    obtain ⟨one,two,three⟩ := sane.root.removed b n found gone
    refine ⟨one,two,fun l inside busy => ?_⟩
    by_cases same : l = k
    · rw [same,here,sector]
      rintro rfl
      have stored := sane.opened.stored b n found
      rw [unused] at stored
      cases stored
    · rw [others l inside same] at busy ⊢
      exact three l inside busy

/-- What `inode_create` asks for. -/
def Gets (s : FileSystem) (size : BitVec 32) : Prop :=
  s.memory 0 = true ∧ Ready s 1 ∧ ∃ y map, bitmap_scan_and_flip s.free_map 0 (bytes_to_sectors size) false = some (some y,map)

/-- Sectors from `y` on are taken. -/
def Took (s s' : FileSystem) (y cnt : Nat) : Prop :=
  s.free_map.Run y cnt false ∧ y + cnt ≤ s.free_map.bit_cnt ∧
    ∀ z, s'.free_map.has z = if y ≤ z ∧ z < y + cnt then true else s.free_map.has z

theorem create_at_spec {size : BitVec 32} (sane : Sane s L [a]) (inode : s.inodes a = some n)
    (sector : n.sector = ROOT_DIR_SECTOR)
    (string : 0#8 ∉ name) (nonnegative : 0 ≤ size.toInt) (vacant : Vacant s.fs_device s.free_map L x) (unused : L x = none) :
    ∃ success s', create_at s a name x size = some (success,s') ∧ s'.tables = s.tables ∧ Steady 1 s s' ∧
      (success = false → Sane s' L [a] ∧ Vacant s'.fs_device s'.free_map L x ∧
        (∀ z, z ≠ x → s.free_map.has z = true → (∀ m, L FREE_MAP_SECTOR = some m → ¬ Extent m z) →
          s'.fs_device.data z = s.fs_device.data z) ∧
        (¬ Gets s size → ∀ z, s'.free_map.has z = s.free_map.has z) ∧ (Gets s size → ∃ y, Took s s' y (bytes_to_sectors size))) ∧
      (success = true → ∃ i k, NewFile s s' L name size x i k ∧ Sane s' (Function.update L x (some i)) [a] ∧
        ∃ y, Took s s' y (bytes_to_sectors size)) := by
  obtain ⟨created,s₁,ran,steady,failed,made,exactly⟩ :=
    inode_create_spec sane.ledger (map_file sane.opened sane.mapped) nonnegative vacant
  rw [create_at,ran]
  simp only [Option.bind_eq_bind,Option.bind_some]
  cases created with
  | false =>
    obtain ⟨tables,ledger,bits,outside⟩ := failed rfl
    have slots : ∀ l < entry_cnt, slot s₁.fs_device l = slot s.fs_device l :=
      fun l inside => slot_map sane.ledger sane.root.root outside inside
    refine ⟨false,s₁,rfl,tables,steady,fun _ => ⟨⟨ledger,by rw [tables]; exact sane.opened,by rw [tables,steady.bits]; exact sane.mapped,?_⟩,
      ⟨by rw [steady.size]; exact vacant.1,by rw [bits]; exact vacant.2.1,vacant.2.2⟩,fun z _ _ out => outside z out,fun _ => bits,fun gets => ?_⟩,
      fun none_ => (by cases none_)⟩
    · rw [tables]
      exact root_slots sane.root slots
    · exact absurd (exactly.mpr gets) Bool.false_ne_true
  | true =>
    obtain ⟨i,length,made⟩ := made rfl
    have gets : Gets s size := exactly.mp rfl
    obtain ⟨inside,used,alone⟩ := vacant
    have small : x < 2 ^ 32 := Nat.lt_trans inside (Nat.lt_trans sane.ledger.device.1 (by decide))
    have root := is_root sane inode sector
    have notRoot : ROOT_DIR_SECTOR ≠ x := fun same => alone _ _ root.stored (.inl same.symm)
    obtain ⟨-,-,p,-,-,-,-,mine,-⟩ := map_file sane.opened sane.mapped
    have notMap : FREE_MAP_SECTOR ≠ x := fun same => alone _ _ mine (.inl same.symm)
    have owned₁ : Function.update L x (some i) ROOT_DIR_SECTOR = some n.data := by
      rw [Function.update_of_ne notRoot]
      exact root.stored
    have root₁ : IsRoot s₁ (Function.update L x (some i)) a n := by
      have inodes : s₁.inodes = s.inodes := congrArg Tables.inodes made.tables
      exact ⟨by rw [inodes]; exact inode,sector,owned₁,root.length,root.writable⟩
    -- The sectors of the new file were free.
    have fresh : ∀ z, s.free_map.has z = true → ¬ Extent i z := by
      intro z busy within
      rw [made.room z within.1 within.2] at busy
      cases busy
    have spared : ∀ z, z ≠ x → s.free_map.has z = true → (∀ m, L FREE_MAP_SECTOR = some m → ¬ Extent m z) →
        s₁.fs_device.data z = s.fs_device.data z := fun z other busy out => made.outside z out other (fresh z busy)
    have slots : ∀ l < entry_cnt, slot s₁.fs_device l = slot s.fs_device l := fun l below =>
      slot_same sane.ledger root.stored below root.length fun z mine' => spared z (fun same => alone _ _ root.stored (same ▸ mine'))
        (sane.ledger.used _ _ root.stored z mine') fun q theirs within =>
          sane.ledger.apart _ _ _ q root.stored theirs (by decide) z mine' (.inr within)
    have took : ∀ s', s'.free_map = s₁.free_map → Took s s' i.start.toNat (bytes_to_sectors size) := by
      intro s' map
      have room := made.ledger.extent x i (Function.update_self ..)
      rw [← made.ledger.device.2,steady.bits,length] at room
      rw [Took,map,← length]
      exact ⟨made.room,by rw [length]; exact room,made.bits⟩
    obtain ⟨ok,j,d',added,nothing,entered⟩ := dir_add_spec made.ledger root₁ string small
    simp only [if_true,added]
    cases ok with
    | false =>
      cases nothing rfl
      refine ⟨false,_,rfl,made.tables,steady_trans steady (steady_forget s₁ j),fun _ => ⟨⟨?_,?_,?_,?_⟩,⟨?_,?_,alone⟩,spared,
        fun never => absurd gets never,fun _ => ⟨_,took _ rfl⟩⟩,fun none_ => (by cases none_)⟩
      · have without := ledger_remove made.ledger x
        rw [Function.update_idem] at without
        have same : Function.update L x none = L := by
          rw [← unused]
          exact Function.update_eq_self x L
        rw [same] at without
        exact without
      · show Opened s₁.tables L [a]
        rw [made.tables]
        exact sane.opened
      · show Mapped s₁.tables s₁.free_map.bit_cnt
        rw [made.tables,steady.bits]
        exact sane.mapped
      · show Root s₁.fs_device s₁.tables L
        rw [made.tables]
        exact root_slots sane.root slots
      · show x < s₁.fs_device.size
        rw [steady.size]
        exact inside
      · show s₁.free_map.has x = true
        rw [made.bits]
        split
        · rfl
        · exact used
    | true =>
      obtain ⟨nonempty,short,k,e,below,entered,target,names,absent⟩ := entered rfl
      have extra_ : ∀ l < entry_cnt, l ≠ k → slot d' l = slot s.fs_device l :=
        fun l within other => (entered.others l within other).trans (slots l within)
      have outside : ∀ z, ¬ Extent n.data z → d'.data z = s₁.fs_device.data z := fun z out => entered.outside z fun q theirs => by
        rw [owned₁] at theirs
        cases theirs
        exact out
      have ledger' : Ledger d' s₁.free_map (Function.update L x (some i)) :=
        ledger_outside made.ledger owned₁ entered.size outside
      have steady' : Steady 0 s₁ { forget s₁ j with fs_device := d' } := by
        obtain ⟨-,-,q,-,-,-,-,mine',length'⟩ := map_file sane.opened sane.mapped
        have there : Function.update L x (some i) FREE_MAP_SECTOR = some q.data := by
          rw [Function.update_of_ne notMap]
          exact mine'
        refine steady_entered made.ledger there ?_ entered j
        rw [steady.bits]
        exact length'
      refine ⟨true,_,rfl,made.tables,steady_trans steady steady',fun none_ => (by cases none_),fun _ => ⟨i,k,
        ⟨unused,alone,length,⟨nonempty,short⟩,below,?_,?_,extra_,?_,?_,fun plenty => ?_⟩,?_,_,took _ rfl⟩⟩
      · show Names (slot d' k) name
        rw [entered.here]
        exact names
      · show (slot d' k).inode_sector.toNat = x
        rw [entered.here]
        exact target
      · exact fun z other busy outRoot outMap => (outside z (outRoot _ root.stored)).trans (spared z other busy outMap)
      · intro z within
        refine (outside z fun also => ?_).trans (made.zero z within)
        exact made.ledger.apart _ _ _ _ owned₁ (Function.update_self ..) notRoot z (.inr also) (.inr within)
      · obtain ⟨free,others⟩ := absent (steady.plenty plenty)
        rw [slots k below] at free
        refine ⟨free,fun q within => ?_⟩
        rw [← slots q within]
        exact others q within
      · exact sane_add sane unused ⟨notMap.symm,notRoot.symm⟩ made.tables steady.bits ledger' entered.here target extra_

theorem sane_same (sane : Sane s L extra) (tables : s'.tables = s.tables) (ledger : Ledger s'.fs_device s'.free_map L)
    (bits : s'.free_map.bit_cnt = s.free_map.bit_cnt) (slots : ∀ l < entry_cnt, slot s'.fs_device l = slot s.fs_device l) :
    Sane s' L extra where
  ledger := ledger
  opened := by rw [tables]; exact sane.opened
  mapped := by rw [tables,bits]; exact sane.mapped
  root := by rw [tables]; exact root_slots sane.root slots

/-- What is asked for after the first sector was allocated. -/
theorem reserves_gets {s₂ : FileSystem} (size : BitVec 32) (same : Same s s₁) (memory : s₁.memory = fun n => s.memory (n + 2))
    (answers : s.memory 0 = true ∧ s.memory 1 = true) (allocated : Allocated s₁ s₂ L 1 (some x)) (ready : Ready s₁ 1)
    (map_memory : s₂.map_memory = fun n => s₁.map_memory (n + 1)) (bits : s₂.free_map.bit_cnt = s.free_map.bit_cnt) :
    Reserves s size ↔ Gets s₂ size := by
  have flipped := allocated.flipped x rfl
  rw [same.free_map] at flipped
  have later : s₂.memory 0 = s.memory 2 := by rw [allocated.memory,memory]
  have both : Ready s 2 ↔ Ready s₂ 1 := by
    rw [Ready,same.free_map,same.map_memory] at ready
    rw [Ready,Ready,bits,map_memory,same.map_memory]
    constructor
    · refine fun all => all.imp_right fun every k below => every (k + 1) (by omega)
    · rintro (whole | second)
      · exact .inl whole
      · refine ready.imp_right fun first k below => ?_
        by_cases zero : k = 0
        · rw [zero]
          exact first 0 Nat.one_pos
        · have one : k = 0 + 1 := by omega
          rw [one]
          exact second 0 Nat.one_pos
  rw [Reserves,Gets,later,both]
  constructor
  · rintro ⟨-,-,third,second,x',map,y,map',first,run⟩
    rw [flipped] at first
    cases first
    exact ⟨third,second,y,map',run⟩
  · rintro ⟨third,second,y,map',run⟩
    exact ⟨answers.1,answers.2,third,second,x,_,y,map',flipped,run⟩

/-- What is taken while sector `x` is marked is taken as well when it is released again. -/
theorem took_released {s₃ s₄ : FileSystem} {y cnt : Nat} (before : ∀ z, s₂.free_map.has z = if z = x then true else s.free_map.has z)
    (free : s.free_map.has x = false) (after : ∀ z, s₄.free_map.has z = if z = x then false else s₃.free_map.has z)
    (bit_cnt : s₂.free_map.bit_cnt = s.free_map.bit_cnt) (took : Took s₂ s₃ y cnt) : Took s s₄ y cnt := by
  obtain ⟨run,room,bits⟩ := took
  have apart : ∀ z, y ≤ z → z < y + cnt → z ≠ x := by
    rintro z low high rfl
    have taken := before z
    rw [if_pos rfl,run z low high] at taken
    cases taken
  refine ⟨fun z low high => ?_,by rw [← bit_cnt]; exact room,fun z => ?_⟩
  · have clear := run z low high
    rw [before,if_neg (apart z low high)] at clear
    exact clear
  · rw [after,bits,before]
    by_cases within : y ≤ z ∧ z < y + cnt
    · rw [if_neg (apart z within.1 within.2),if_pos within,if_pos within]
    · rw [if_neg within,if_neg within]
      by_cases here : z = x
      · rw [if_pos here,here,free]
      · rw [if_neg here,if_neg here]

theorem filesys_create_spec {size : BitVec 32} (sane : Sane s L []) (string : 0#8 ∉ name) (nonnegative : 0 ≤ size.toInt) :
    ∃ ok s', filesys_create s name size = some (ok,s') ∧ Steady 3 s s' ∧ s'.files = s.files ∧ s'.free_map_file = s.free_map_file ∧
      s'.inodes = s.inodes ∧
      (ok = false → Sane s' L [] ∧ Spared s s' L ∧ (¬ Reserves s size → ∀ z, s'.free_map.has z = s.free_map.has z) ∧
        (Reserves s size → ∃ y, Took s s' y (bytes_to_sectors size))) ∧
      (ok = true → ∃ x i k, NewFile s s' L name size x i k ∧ Sane s' (Function.update L x (some i)) []) := by
  obtain ⟨answer,s₁,opens,same₁,none_,some_⟩ := dir_open_root_spec sane
  rw [filesys_create,opens]
  simp only [Option.bind_eq_bind,Option.bind_some]
  cases answer with
  | none =>
    obtain ⟨short,inodes,sane₁⟩ := none_ rfl
    refine ⟨false,s₁,rfl,steady_mono (same_steady same₁) (by decide),same₁.files,same₁.free_map_file,inodes,fun _ => ⟨sane₁,?_,?_,?_⟩,
      fun none_ => (by cases none_)⟩
    · intro z _ _
      rw [same₁.fs_device]
    · intro _ z
      rw [same₁.free_map]
    · exact fun reserves => absurd ⟨reserves.1,reserves.2.1⟩ short
  | some a =>
    obtain ⟨first,second,memory₁,sane₁,i₀,takes⟩ := some_ a rfl
    obtain ⟨n,inode,sector,-⟩ := takes_found takes
    obtain ⟨answer,s₂,allocates,allocated,steady₂,missing,answered⟩ :=
      free_map_allocate_spec sane₁.ledger (map_file sane₁.opened sane₁.mapped) 1
    have slots : ∀ l < entry_cnt, slot s₂.fs_device l = slot s.fs_device l := by
      intro l below
      rw [← same₁.fs_device]
      exact slot_map sane₁.ledger sane₁.root.root allocated.outside below
    have sane₂ : Sane s₂ L [a] := sane_same sane₁ allocated.tables allocated.ledger steady₂.bits fun l below => by
      rw [same₁.fs_device]
      exact slots l below
    have takes₂ : Takes s.tables s₂.inodes a ROOT_DIR_SECTOR i₀ := by
      rw [show s₂.inodes = s₁.inodes from congrArg Tables.inodes allocated.tables]
      exact takes
    have files₂ : s₂.files = s.files := (congrArg Tables.files allocated.tables).trans same₁.files
    have map_file₂ : s₂.free_map_file = s.free_map_file :=
      (congrArg Tables.free_map_file allocated.tables).trans same₁.free_map_file
    have spared₂ : ∀ z, (∀ m, L FREE_MAP_SECTOR = some m → ¬ Extent m z) → s₂.fs_device.data z = s.fs_device.data z := by
      intro z out
      rw [← same₁.fs_device]
      exact allocated.outside z out
    have steady₁₂ : Steady 1 s s₂ := by
      have both := steady_trans (same_steady same₁) steady₂
      rwa [Nat.zero_add] at both
    rw [allocates]
    simp only [Option.bind_some]
    cases answer with
    | none =>
      obtain ⟨s₃,closes,same₃,inodes,sane₃⟩ := dir_close_spec (fun q was => (sane.opened.count a q was).2) takes₂ sane₂
      rw [closes]
      refine ⟨false,s₃,rfl,steady_mono (steady_trans steady₁₂ (same_steady same₃)) (by decide),same₃.files.trans files₂,
        same₃.free_map_file.trans map_file₂,inodes,fun _ => ⟨sane₃,?_,?_,?_⟩,fun none_ => (by cases none_)⟩
      · intro z _ out
        rw [same₃.fs_device]
        exact spared₂ z out
      · intro _ z
        rw [same₃.free_map,allocated.none_ rfl,same₁.free_map]
      · rintro ⟨-,-,-,ready,x,map,y,map',flipped,-⟩
        refine absurd ⟨?_,x,map,?_⟩ (missing.mp rfl)
        · rw [Ready,same₁.free_map,same₁.map_memory]
          exact ready_mono ready (by decide)
        · rw [same₁.free_map]
          exact flipped
    | some x =>
      obtain ⟨vacant,unused,free⟩ := allocated_vacant sane₁.ledger allocated steady₂.size
      have ready₁ : Ready s₁ 1 := Classical.byContradiction fun unready => by
        have never := missing.mpr fun both => unready both.1
        cases never
      have gets := reserves_gets size same₁ memory₁ ⟨first,second⟩ allocated ready₁ (answered (Option.some_ne_none x)) steady₁₂.bits
      obtain ⟨root₂,-⟩ := sane₂.root.root
      have inode₂ : s₂.inodes a = some n := by
        rw [show s₂.inodes = s₁.inodes from congrArg Tables.inodes allocated.tables]
        exact inode
      obtain ⟨success,s₃,creates,tables₃,steady₃,failed,succeeded⟩ :=
        create_at_spec sane₂ inode₂ sector string nonnegative vacant unused
      have more : ∀ z, s.free_map.has z = true → s₂.free_map.has z = true := by
        intro z used
        rw [(allocated.some_ x rfl).2.2,same₁.free_map]
        split
        · rfl
        · exact used
      have back : ∀ s₃ : FileSystem, s₃.tables = s₂.tables → Takes s.tables s₃.inodes a ROOT_DIR_SECTOR i₀ ∧ s₃.files = s.files ∧
          s₃.free_map_file = s.free_map_file := by
        intro s₃ tables
        refine ⟨?_,(congrArg Tables.files tables).trans files₂,(congrArg Tables.free_map_file tables).trans map_file₂⟩
        rw [show s₃.inodes = s₂.inodes from congrArg Tables.inodes tables]
        exact takes₂
      simp only [creates,Option.bind_some]
      cases success with
      | false =>
        obtain ⟨sane₃,⟨inside,used,alone⟩,spared₃,kept,took⟩ := failed rfl
        obtain ⟨-,-,p,-,-,-,-,mine,-⟩ := map_file sane₃.opened sane₃.mapped
        have nonzero : x ≠ 0 := fun same => alone _ _ mine (.inl same)
        obtain ⟨s₄,releases,ledger₄,released⟩ := free_map_release_spec sane₃.ledger (map_file sane₃.opened sane₃.mapped)
          (show x + 1 ≤ _ from inside)
          (fun z low high => by
            obtain rfl : z = x := by omega
            exact used)
          (fun z low high => by
            obtain rfl : z = x := by omega
            exact alone)
        have sane₄ : Sane s₄ L [a] := sane_same sane₃ released.tables ledger₄ released.steady.bits fun l below =>
          slot_map sane₃.ledger sane₃.root.root released.outside below
        obtain ⟨takes₄,files₄,map_file₄⟩ := back s₄ (released.tables.trans tables₃)
        obtain ⟨s₅,closes,same₅,inodes,sane₅⟩ := dir_close_spec (fun q was => (sane.opened.count a q was).2) takes₄ sane₄
        rw [if_pos ⟨rfl,nonzero⟩,releases,Option.bind_some,closes]
        have bits : ∀ z, s₅.free_map.has z = if z = x then false else s₃.free_map.has z := by
          intro z
          rw [same₅.free_map,released.bits]
          by_cases here : z = x
          · rw [if_pos (by omega),if_pos here]
          · rw [if_neg (by omega),if_neg here]
        have before : ∀ z, s₂.free_map.has z = if z = x then true else s.free_map.has z := by
          intro z
          rw [(allocated.some_ x rfl).2.2,same₁.free_map]
          by_cases here : z = x
          · rw [if_pos (by omega),if_pos here]
          · rw [if_neg (by omega),if_neg here]
        rw [same₁.free_map] at free
        refine ⟨false,s₅,rfl,steady_trans steady₁₂ (steady_trans steady₃ (steady_trans released.steady (same_steady same₅))),
          same₅.files.trans files₄,same₅.free_map_file.trans map_file₄,inodes,fun _ => ⟨sane₅,?_,?_,?_⟩,fun none_ => (by cases none_)⟩
        · intro z busy out
          have other : z ≠ x := by
            rintro rfl
            rw [free] at busy
            cases busy
          rw [same₅.fs_device,released.outside z out,spared₃ z other (more z busy) out,spared₂ z out]
        · intro never z
          rw [bits,kept fun got => never (gets.mpr got),before]
          by_cases here : z = x
          · rw [if_pos here,here,free]
          · rw [if_neg here,if_neg here]
        · intro reserves
          obtain ⟨y,taken⟩ := took (gets.mp reserves)
          exact ⟨y,took_released before free bits steady₁₂.bits taken⟩
      | true =>
        obtain ⟨i,k,new,sane₃,-⟩ := succeeded rfl
        obtain ⟨takes₃,files₃,map_file₃⟩ := back s₃ tables₃
        obtain ⟨s₄,closes,same₄,inodes,sane₄⟩ := dir_close_spec (fun q was => (sane.opened.count a q was).2) takes₃ sane₃
        rw [if_neg fun both => Bool.false_ne_true both.1,closes]
        have steady₄ : Steady 3 s s₄ := steady_mono (steady_trans steady₁₂ (steady_trans steady₃ (same_steady same₄))) (by decide)
        refine ⟨true,s₄,rfl,steady₄,same₄.files.trans files₃,same₄.free_map_file.trans map_file₃,inodes,
          fun none_ => (by cases none_),
          fun _ => ⟨x,i,k,⟨unused,new.alone,new.length,new.named,new.below,?_,?_,?_,?_,?_,fun plenty => ?_⟩,sane₄⟩⟩
        · rw [same₄.fs_device]
          exact new.entry
        · rw [same₄.fs_device]
          exact new.sector
        · intro l below other
          rw [same₄.fs_device,new.others l below other,slots l below]
        · intro z other busy outRoot outMap
          rw [same₄.fs_device,new.outside z other (more z busy) outRoot outMap,spared₂ z outMap]
        · rw [same₄.fs_device]
          exact new.zero
        · obtain ⟨unused_,others⟩ := new.absent (steady₁₂.plenty plenty)
          rw [slots k new.below] at unused_
          refine ⟨unused_,fun q below => ?_⟩
          rw [← slots q below]
          exact others q below

/-! ### Opening a file -/

theorem opened_perm {t : Tables} {held : List Nat} (opened : Opened t L extra) (same : extra.Perm held) : Opened t L held :=
  ⟨opened.once,opened.listed,opened.stored,fun b n found => by rw [← same.count_eq]; exact opened.count b n found,opened.deny,opened.sector,
    opened.file,fun b member => opened.held b (same.mem_iff.mpr member),opened.fresh,opened.user⟩

/-- An inode that was closed is the first of its sector. -/
theorem takes_new {t : Tables} {inodes : Nat → Option Inode} (takes : Takes t inodes a x i)
    (closed : ∀ b m, t.inodes b = some m → m.sector ≠ x) :
    t.inodes a = none ∧ inodes = Function.update t.inodes a (some { sector := x, open_cnt := 1, removed := false, deny_write_cnt := 0, data := i }) := by
  rcases takes with ⟨m,found,sector,-⟩ | ⟨none_,-,same⟩
  · exact absurd sector (closed a m found)
  · exact ⟨none_,same⟩

/-- An inode that is referred to once can be given back. -/
theorem takes_once {t : Tables} {inodes : Nat → Option Inode}
    (there : inodes a = some { sector := x, open_cnt := 1, removed := false, deny_write_cnt := 0, data := i })
    (only : ∀ c m, c ≠ a → inodes c = some m → m.sector ≠ x) :
    Takes { t with inodes := Function.update inodes a none } inodes a x i := by
  refine .inr ⟨Function.update_self ..,fun c m found => ?_,?_⟩
  · rcases update_inode found with ⟨-,nothing⟩ | ⟨other,before⟩
    · cases nothing
    · exact only c m other before
  · show inodes = Function.update (Function.update inodes a none) a _
    rw [Function.update_idem,← there,Function.update_eq_self]

/-- The directory is closed while the inode `b` stays open. -/
theorem takes_swap {t t₁ : Tables} {inodes : Nat → Option Inode} {j : InodeDisk} (root : Takes t t₁.inodes a ROOT_DIR_SECTOR j)
    (closed : ∀ b m, t.inodes b = some m → m.sector ≠ ROOT_DIR_SECTOR) (takes : Takes t₁ inodes b x i)
    (other : x ≠ ROOT_DIR_SECTOR) :
    Takes { t₁ with inodes := Function.update inodes a none } inodes a ROOT_DIR_SECTOR j ∧
    Takes t (Function.update inodes a none) b x i := by
  obtain ⟨unused,first⟩ := takes_new root closed
  have apart : b ≠ a := by
    rintro rfl
    rcases takes with ⟨m,found,sector,-⟩ | ⟨none_,-⟩
    · rw [first,Function.update_self] at found
      cases found
      exact other sector.symm
    · rw [first,Function.update_self] at none_
      cases none_
  have there : inodes a = some { sector := ROOT_DIR_SECTOR, open_cnt := 1, removed := false, deny_write_cnt := 0, data := j } := by
    rw [takes_other takes apart.symm,first,Function.update_self]
  constructor
  · refine takes_once there fun c m notRoot before => ?_
    by_cases here : c = b
    · subst here
      obtain ⟨p,now,sector,-⟩ := takes_found takes
      rw [before] at now
      cases now
      rw [sector]
      exact other
    · rw [takes_other takes here,first,Function.update_of_ne notRoot] at before
      exact closed c m before
  · have clear : ∀ v, Function.update (Function.update t₁.inodes b v) a none = Function.update t.inodes b v := by
      intro v
      rw [first,Function.update_comm apart,Function.update_idem,← unused,Function.update_eq_self]
    rcases takes with ⟨m,found,sector,data,rfl⟩ | ⟨none_,closed',rfl⟩
    · rw [first,Function.update_of_ne apart] at found
      exact .inl ⟨m,found,sector,data,clear _⟩
    · rw [first,Function.update_of_ne apart] at none_
      refine .inr ⟨none_,fun c m found => ?_,clear _⟩
      have notRoot : c ≠ a := by
        rintro rfl
        rw [unused] at found
        cases found
      exact closed' c m (by rw [first,Function.update_of_ne notRoot]; exact found)

/-- What a call that opens a file has done, with its name in slot `k` and its inode at `a`. -/
structure NewHandle (s s' : FileSystem) (L : Nat → Option InodeDisk) (name : List Byte) (f a k : Nat) : Prop where
  unused : s.files f = none ∧ s.free_map_file ≠ some f
  files : s'.files = Function.update s.files f (some { inode := a, pos := 0, deny_write := false })
  below : k < entry_cnt
  entry : Names (slot s.fs_device k) name
  inode : ∃ i, L (slot s.fs_device k).inode_sector.toNat = some i ∧
    Takes s.tables s'.inodes a (slot s.fs_device k).inode_sector.toNat i

theorem dir_lookup_spec (sane : Sane s L [a]) (inode : s.inodes a = some n) (sector : n.sector = ROOT_DIR_SECTOR)
    (name : List Byte) :
    ∃ answer s', dir_lookup s a name = some (answer,s') ∧ Same s s' ∧
      (answer = none → s'.tables = s.tables ∧ (Plenty s → ∀ q < entry_cnt, ¬ Names (slot s.fs_device q) name)) ∧
      ∀ b, answer = some b → Sane s' L [b,a] ∧ ∃ k i, k < entry_cnt ∧ Names (slot s.fs_device k) name ∧
        L (slot s.fs_device k).inode_sector.toNat = some i ∧
        Takes s.tables s'.inodes b (slot s.fs_device k).inode_sector.toNat i := by
  obtain ⟨r,j,looked,finds⟩ := lookup_spec sane.ledger (is_root sane inode sector) name
  rw [dir_lookup,looked]
  simp only [Option.bind_eq_bind,Option.bind_some]
  cases r with
  | none =>
    exact ⟨none,forget s j,rfl,⟨rfl,rfl,rfl,rfl,rfl,j,rfl⟩,
      fun _ => ⟨rfl,fun plenty q below => finds plenty q (Nat.zero_le q) below⟩,
      fun b none_ => (by cases none_)⟩
  | some found =>
    obtain ⟨e,ofs⟩ := found
    obtain ⟨k,-,below,-,rfl,names,-⟩ := finds
    obtain ⟨⟨i,owned⟩,-⟩ := sane.root.named k below names.1
    have quiet : Sane (forget s j) L [a] := sane_forget sane j
    obtain ⟨answer,s₁,opens,same,none_,some_⟩ := inode_open_spec (s := forget s j) sane.ledger sane.opened owned
    have same₁ : Same s s₁ := by
      obtain ⟨l,memory⟩ := same.memory
      refine ⟨same.fs_device,same.free_map,same.free_map_file,same.files,same.map_memory,l + j,?_⟩
      rw [memory]
      show (fun n => s.memory (n + l + j)) = fun n => s.memory (n + (l + j))
      exact funext fun n => by rw [Nat.add_assoc]
    refine ⟨answer,s₁,opens,same₁,fun missing => ?_,fun b found => ?_⟩
    · obtain ⟨tables,memory⟩ := none_ missing
      refine ⟨tables,fun plenty => ?_⟩
      rw [(plenty_forget plenty j).1 0] at memory
      cases memory
    · obtain ⟨opened,takes⟩ := some_ b found
      refine ⟨sane_takes quiet same opened takes fun p was gone => ?_,k,i,below,names,owned,takes⟩
      rcases takes with ⟨q,before,sector',-,-⟩ | ⟨before,-⟩
      · have one : s.inodes b = some q := before
        have two : s.inodes b = some p := was
        rw [one] at two
        cases two
        exact (sane.root.removed b _ one gone).2.2 k below names.1 sector'.symm
      · have one : s.inodes b = none := before
        have two : s.inodes b = some p := was
        rw [one] at two
        cases two

theorem steady_quiet (device : s'.fs_device = s.fs_device) (map : s'.free_map = s.free_map)
    (map_memory : s'.map_memory = s.map_memory)
    (memory : ∃ k, s'.memory = fun n => s.memory (n + k)) : Steady 0 s s' := by
  obtain ⟨k,memory⟩ := memory
  refine steady_same (by rw [device]) map map_memory (fun all n => ?_) fun _ _ => by rw [device]
  rw [memory]
  exact all (n + k)

/-- The reference that the call has goes to a file, or is given back. -/
theorem file_open_spec {t : Tables} (positive : ∀ m, t.inodes b = some m → 0 < m.open_cnt) (takes : Takes t s.inodes b x i)
    (sane : Sane s L [b])
    (user : x ≠ FREE_MAP_SECTOR ∧ x ≠ ROOT_DIR_SECTOR)
    (removed : ∀ c m, t.inodes c = some m → m.removed = true → ∃ q, s.inodes c = some q ∧
      q.removed = true ∧ q.sector = m.sector) :
    ∃ answer s', file_open s (some b) = some (answer,s') ∧ Steady 0 s s' ∧ s'.fs_device = s.fs_device ∧ s'.free_map = s.free_map ∧
      s'.free_map_file = s.free_map_file ∧ Sane s' L [] ∧ (answer = none → s'.files = s.files ∧ s'.inodes = t.inodes ∧
        ¬ Plenty s) ∧
      ∀ f, answer = some f → s.files f = none ∧ s.free_map_file ≠ some f ∧ s'.inodes = s.inodes ∧
        s'.files = Function.update s.files f (some { inode := b, pos := 0, deny_write := false }) := by
  obtain ⟨n,inode,sector,-⟩ := takes_found takes
  have unfiled : s.files s.next = none := (sane.opened.fresh s.next (Nat.le_refl _)).2
  have notMap : s.free_map_file ≠ some s.next := by
    intro same
    obtain ⟨f,u,-,file,found,-⟩ := sane.mapped
    have equal : s.free_map_file = some f := file
    rw [same] at equal
    cases equal
    have there : s.files s.next = some u := found
    rw [unfiled] at there
    cases there
  have asks : file_open s (some b) = if s.memory 0 then some (some s.next,{ forget s 1 with
      files := Function.update s.files s.next (some { inode := b, pos := 0, deny_write := false }), next := s.next + 1 })
      else (inode_close (forget s 1) b).map fun s => (none,s) := rfl
  rw [asks]
  cases memory : s.memory 0 with
  | true =>
    refine ⟨some s.next,{ forget s 1 with
      files := Function.update s.files s.next (some { inode := b, pos := 0, deny_write := false }), next :=
        s.next + 1 },rfl,?_,rfl,rfl,rfl,
      ⟨sane.ledger,?_,?_,⟨sane.root.root,sane.root.named,sane.root.once,sane.root.removed⟩⟩,fun none_ => (by cases none_),fun f same => ?_⟩
    · exact steady_quiet rfl rfl rfl ⟨1,rfl⟩
    · refine opened_file_open sane.opened s.free_map_file fun f u p found other there => ?_
      by_cases here : f = s.next
      · subst here
        rw [show s.tables.next = s.next from rfl,Function.update_self] at found
        cases found
        have one : s.inodes b = some p := there
        rw [inode] at one
        cases one
        rw [sector]
        exact user
      · rw [show s.tables.next = s.next from rfl,Function.update_of_ne here] at found
        exact sane.opened.user f u p found other there
    · refine mapped_keep (t := s.tables) sane.mapped rfl (fun f u file found => ?_) fun c p found _ => ⟨p,found,rfl,rfl⟩
      have other : f ≠ s.next := by
        rintro rfl
        exact notMap file
      show Function.update s.files s.next _ f = some u
      rw [Function.update_of_ne other]
      exact found
    · cases same
      exact ⟨unfiled,notMap,rfl,rfl⟩
  | false =>
    obtain ⟨s',ran,same,inodes,opened⟩ := give_back (s := forget s 1) positive takes sane.opened sane.ledger sane.mapped
    rw [if_neg Bool.false_ne_true,ran]
    have quiet : Steady 0 s s' := steady_trans (steady_forget s 1) (same_steady same)
    refine ⟨none,s',rfl,quiet,same.fs_device,same.free_map,same.free_map_file,⟨?_,opened,?_,?_⟩,
      fun _ => ⟨same.files,inodes,fun plenty => ?_⟩,
      fun f none_ => (by cases none_)⟩
    · rw [same.fs_device,same.free_map]
      exact sane.ledger
    · rw [same.free_map]
      refine mapped_keep sane.mapped same.free_map_file (fun f u _ found => ?_) fun c p found first => ?_
      · show s'.files f = some u
        rw [same.files]
        exact found
      · show ∃ p', s'.inodes c = some p' ∧ _
        rw [inodes]
        have other : c ≠ b := by
          rintro rfl
          have one : s.inodes c = some p := found
          rw [inode] at one
          cases one
          exact user.1 (sector.symm.trans first)
        exact ⟨p,(takes_other takes other).symm.trans found,rfl,rfl⟩
    · rw [same.fs_device]
      refine ⟨sane.root.root,sane.root.named,sane.root.once,fun c p found gone => ?_⟩
      have there : s'.inodes c = some p := found
      rw [inodes] at there
      obtain ⟨q,before,dead,at_⟩ := removed c p there gone
      rw [← at_]
      exact sane.root.removed c q before dead
    · rw [plenty.1 0] at memory
      cases memory

theorem filesys_open_spec (sane : Sane s L []) (name : List Byte) :
    ∃ answer s', filesys_open s name = some (answer,s') ∧ Steady 0 s s' ∧ s'.fs_device = s.fs_device ∧ s'.free_map = s.free_map ∧
      s'.free_map_file = s.free_map_file ∧ Sane s' L [] ∧
      (answer = none → s'.files = s.files ∧ s'.inodes = s.inodes ∧
        (Plenty s → ∀ q < entry_cnt, ¬ Names (slot s.fs_device q) name)) ∧
      ∀ f, answer = some f → ∃ a k, NewHandle s s' L name f a k := by
  obtain ⟨answer,s₁,opens,same₁,none_,some_⟩ := dir_open_root_spec sane
  have asks : ∀ s : FileSystem, file_open s none = some (none,forget s 1) := fun _ => rfl
  have closed : ∀ b m, s.inodes b = some m → m.sector ≠ ROOT_DIR_SECTOR := fun b m found => root_closed sane found
  rw [filesys_open,opens]
  simp only [Option.bind_eq_bind,Option.bind_some]
  cases answer with
  | none =>
    obtain ⟨short,inodes,sane₁⟩ := none_ rfl
    rw [dir_close,Option.bind_some,asks]
    refine ⟨none,forget s₁ 1,rfl,steady_trans (same_steady same₁) (steady_forget s₁ 1),same₁.fs_device,same₁.free_map,
      same₁.free_map_file,
      sane_forget sane₁ 1,
      fun _ => ⟨same₁.files,inodes,fun plenty => absurd ⟨plenty.1 0,plenty.1 1⟩ short⟩,fun f none_ => (by cases none_)⟩
  | some a =>
    obtain ⟨-,-,-,sane₁,i₀,takes₁⟩ := some_ a rfl
    obtain ⟨n,inode,sector,-⟩ := takes_found takes₁
    obtain ⟨answer,s₂,looked,same₂,none₂,some₂⟩ := dir_lookup_spec sane₁ inode sector name
    have steady₂ : Steady 0 s s₂ := steady_trans (same_steady same₁) (same_steady same₂)
    simp only [looked,Option.bind_some]
    cases answer with
    | none =>
      obtain ⟨tables,nobody⟩ := none₂ rfl
      have inodes₂ : s₂.inodes = s₁.inodes := congrArg Tables.inodes tables
      have sane₂ : Sane s₂ L [a] := sane_keep sane₁ (by rw [tables]; exact sane₁.opened) same₂.fs_device same₂.free_map inodes₂
        same₂.free_map_file same₂.files
      obtain ⟨s₃,closes,same₃,inodes,sane₃⟩ := dir_close_spec (t := s.tables) (fun q was => (sane.opened.count a q was).2)
        (by rw [inodes₂]; exact takes₁) sane₂
      rw [closes,Option.bind_some,asks]
      refine ⟨none,forget s₃ 1,rfl,steady_trans steady₂ (steady_trans (same_steady same₃) (steady_forget s₃ 1)),
        same₃.fs_device.trans (same₂.fs_device.trans same₁.fs_device),same₃.free_map.trans (same₂.free_map.trans same₁.free_map),
        same₃.free_map_file.trans (same₂.free_map_file.trans same₁.free_map_file),
        sane_forget sane₃ 1,
        fun _ => ⟨same₃.files.trans (same₂.files.trans same₁.files),inodes,fun plenty => ?_⟩,fun f none_ => (by cases none_)⟩
      have absent := nobody ((same_steady same₁).plenty plenty)
      rw [same₁.fs_device] at absent
      exact absent
    | some b =>
      obtain ⟨sane₂,k,i,below,names,owned,takes₂⟩ := some₂ b rfl
      rw [same₁.fs_device] at names owned takes₂
      obtain ⟨-,notMap,notRoot⟩ := sane.root.named k below names.1
      obtain ⟨dir,file⟩ := takes_swap takes₁ closed takes₂ notRoot
      have sane₂' : Sane s₂ L [a,b] := ⟨sane₂.ledger,opened_perm sane₂.opened (List.Perm.swap ..),sane₂.mapped,sane₂.root⟩
      obtain ⟨s₃,closes,same₃,inodes₃,sane₃⟩ := dir_close_spec (fun q was => by
        have none_ : Function.update s₂.inodes a none a = some q := was
        rw [Function.update_self] at none_
        cases none_) dir sane₂'
      have inodes₃' : s₃.inodes = Function.update s₂.inodes a none := inodes₃
      have takes₃ : Takes s.tables s₃.inodes b (slot s.fs_device k).inode_sector.toNat i := by
        rw [inodes₃']
        exact file
      obtain ⟨answer,s₄,ran,steady₄,device₄,map₄,map_file₄,sane₄,none₄,some₄⟩ :=
        file_open_spec (fun q was => (sane.opened.count b q was).2) takes₃
        sane₃ ⟨notMap,notRoot⟩ fun c m found gone => by
          obtain ⟨q,there,at_,-,dead⟩ := takes_removed takes₃ found
          exact ⟨q,there,dead.trans gone,at_⟩
      have files₃ : s₃.files = s.files := same₃.files.trans (same₂.files.trans same₁.files)
      have map_file₃ : s₃.free_map_file = s.free_map_file :=
        same₃.free_map_file.trans (same₂.free_map_file.trans same₁.free_map_file)
      have steady₃ : Steady 0 s s₃ := steady_trans steady₂ (same_steady same₃)
      rw [closes,Option.bind_some,ran]
      refine ⟨answer,s₄,rfl,steady_trans steady₃ steady₄,
        device₄.trans (same₃.fs_device.trans (same₂.fs_device.trans same₁.fs_device)),
        map₄.trans (same₃.free_map.trans (same₂.free_map.trans same₁.free_map)),map_file₄.trans map_file₃,sane₄,fun missing => ?_,fun f found => ?_⟩
      · obtain ⟨files,inodes,short⟩ := none₄ missing
        exact ⟨files.trans files₃,inodes,fun plenty => absurd (steady₃.plenty plenty) short⟩
      · obtain ⟨unfiled,other,inodes,files⟩ := some₄ f found
        rw [files₃] at unfiled files
        rw [map_file₃] at other
        rw [← inodes] at takes₃
        exact ⟨b,k,⟨unfiled,other⟩,files,below,names,i,owned,takes₃⟩

/-! ### Removing a file -/

theorem filesys_remove_spec (sane : Sane s L []) (name : List Byte) :
    ∃ ok s', filesys_remove s name = some (ok,s') ∧ Steady 2 s s' ∧ s'.files = s.files ∧ s'.free_map_file = s.free_map_file ∧
      (ok = false → s'.fs_device = s.fs_device ∧ s'.free_map = s.free_map ∧ s'.inodes = s.inodes ∧ Sane s' L [] ∧
        (Plenty s → ∀ q < entry_cnt, ¬ Names (slot s.fs_device q) name)) ∧
      (ok = true → ∃ k L', Names (slot s.fs_device k) name ∧ Unlinked s s' L L' k ∧ Sane s' L' []) := by
  obtain ⟨answer,s₁,opens,same₁,none_,some_⟩ := dir_open_root_spec sane
  have closed : ∀ b m, s.inodes b = some m → m.sector ≠ ROOT_DIR_SECTOR := fun b m found => root_closed sane found
  rw [filesys_remove,opens]
  simp only [Option.bind_eq_bind,Option.bind_some]
  cases answer with
  | none =>
    obtain ⟨short,inodes,sane₁⟩ := none_ rfl
    rw [dir_close]
    exact ⟨false,s₁,rfl,steady_mono (same_steady same₁) (Nat.zero_le 2),same₁.files,same₁.free_map_file,
      fun _ => ⟨same₁.fs_device,same₁.free_map,
      inodes,sane₁,fun plenty => absurd ⟨plenty.1 0,plenty.1 1⟩ short⟩,fun none_ => (by cases none_)⟩
  | some a =>
    obtain ⟨-,-,-,sane₁,i₀,takes₁⟩ := some_ a rfl
    obtain ⟨n,inode,sector,-⟩ := takes_found takes₁
    obtain ⟨unused,first⟩ := takes_new takes₁ closed
    obtain ⟨ok,s₂,removes,steady₂,files₂,map_file₂,failed,done⟩ := dir_remove_spec sane₁ inode sector name
    have steady₁₂ : Steady 2 s s₂ := by
      have both := steady_trans (same_steady same₁) steady₂
      rwa [Nat.zero_add] at both
    simp only [removes,Option.bind_some]
    cases ok with
    | false =>
      obtain ⟨device₂,map₂,inodes₂,sane₂,absent⟩ := failed rfl
      obtain ⟨s₃,closes,same₃,inodes,sane₃⟩ := dir_close_spec (t := s.tables) (fun q was => (sane.opened.count a q was).2)
        (by rw [inodes₂]; exact takes₁) sane₂
      rw [closes]
      refine ⟨false,s₃,rfl,steady_trans steady₁₂ (same_steady same₃),same₃.files.trans (files₂.trans same₁.files),
        same₃.free_map_file.trans (map_file₂.trans same₁.free_map_file),fun _ => ⟨same₃.fs_device.trans (device₂.trans same₁.fs_device),
        same₃.free_map.trans (map₂.trans same₁.free_map),inodes,sane₃,fun plenty => ?_⟩,fun none_ => (by cases none_)⟩
      have nobody := absent ((same_steady same₁).plenty plenty)
      rw [same₁.fs_device] at nobody
      exact nobody
    | true =>
      obtain ⟨k,L',names,unlinked,sane₂⟩ := done rfl
      obtain ⟨below,used,here,others,outside,inodes₂,kept,gone⟩ := unlinked
      rw [same₁.fs_device] at names used others outside inodes₂ kept gone
      obtain ⟨-,-,notRoot⟩ := sane.root.named k below used
      have there : s₂.inodes a = some { sector := ROOT_DIR_SECTOR, open_cnt := 1, removed := false, deny_write_cnt := 0, data := i₀ } := by
        rw [inodes₂,first,Function.update_self,Option.map_some,if_neg notRoot.symm]
      have elsewhere : ∀ c, c ≠ a → s₁.inodes c = s.inodes c := fun c other => takes_other takes₁ other
      have takes₂ : Takes { s.tables with inodes := Function.update s₂.inodes a none } s₂.inodes a ROOT_DIR_SECTOR i₀ := by
        refine takes_once there fun c m other found => ?_
        rw [inodes₂,elsewhere c other] at found
        obtain ⟨q,before,changed⟩ := Option.map_eq_some_iff.mp found
        have at_ : m.sector = q.sector := by
          rw [← changed]
          split <;> rfl
        rw [at_]
        exact closed c q before
      obtain ⟨s₃,closes,same₃,inodes₃,sane₃⟩ := dir_close_spec (fun q was => by
        have none_ : Function.update s₂.inodes a none a = some q := was
        rw [Function.update_self] at none_
        cases none_) takes₂ sane₂
      rw [closes]
      refine ⟨true,s₃,rfl,steady_trans steady₁₂ (same_steady same₃),same₃.files.trans (files₂.trans same₁.files),
        same₃.free_map_file.trans (map_file₂.trans same₁.free_map_file),fun none_ => (by cases none_),fun _ => ⟨k,L',names,
        ⟨below,used,?_,fun l within other => ?_,fun z outRoot outMap => ?_,fun c => ?_,?_,?_⟩,sane₃⟩⟩
      · rw [same₃.fs_device]
        exact here
      · rw [same₃.fs_device]
        exact others l within other
      · rw [same₃.fs_device]
        exact outside z outRoot outMap
      · have after : s₃.inodes c = Function.update s₂.inodes a none c := congrFun inodes₃ c
        rw [after]
        by_cases same : c = a
        · subst same
          have was : s.inodes c = none := unused
          rw [Function.update_self,was]
          rfl
        · rw [Function.update_of_ne same,inodes₂,elsewhere c same]
      · rintro ⟨c,m,found,at_⟩
        have other : c ≠ a := by
          rintro rfl
          have was : s.inodes c = none := unused
          rw [found] at was
          cases was
        exact kept ⟨c,m,(elsewhere c other).trans found,at_⟩
      · intro none_
        refine gone fun c m found => ?_
        by_cases same : c = a
        · subst same
          have was : s₁.inodes c = some n := inode
          rw [found] at was
          cases was
          rw [sector]
          exact notRoot.symm
        · exact none_ c m ((elsewhere c same).symm.trans found)
end

end Pintos.FileSystem
