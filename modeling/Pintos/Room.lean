import Pintos.FileStore

/-!
Where a file can be created. Sectors are taken from the lowest run that is long enough,
so a run of free sectors is left with what was not taken from its beginning; with a
valid name that is not there yet and a free slot, `filesys_create` succeeds.
-/
namespace Pintos.FileSystem
open Pintos.Machines Pintos.Bitmaps Pintos.Lists
set_option linter.unusedSimpArgs false

/-- There is a run of `n` free sectors. -/
def Room (s : FileSystem) (n : Nat) : Prop := ∃ m, m + n ≤ s.free_map.bit_cnt ∧ s.free_map.Run m n false

section
variable {b map : Bitmap} {s s' s₁ : FileSystem} {L : Nat → Option InodeDisk} {cnt x k a m : Nat} {n : Inode} {name : List Byte}

/-- No run begins before the one that is found. -/
theorem bitmap_scan_lowest (ran : bitmap_scan_and_flip b 0 cnt false = some (some x,map)) (run : b.Run k cnt false) :
    x ≤ k := by
  obtain ⟨r,b',ran',-,scanned,-⟩ := bitmap_scan_and_flip_spec (b := b) false cnt (Nat.zero_le _)
  rw [ran] at ran'
  cases ran'
  obtain ⟨r',scanned',result⟩ := bitmap_scan_spec (b := b) false cnt (Nat.zero_le _)
  obtain rfl := Option.some.inj (scanned.symm.trans scanned')
  exact Nat.le_of_not_lt fun high => result.2.2.2 k (Nat.zero_le k) high run

/-- Sectors are allocated, and the rest of the run is still free. -/
theorem room_allocate (ledger : Ledger s.fs_device s.free_map L) (mapped : MapFile s.tables L s.free_map.bit_cnt)
    (ready : Ready s 1)
    (room : Room s (cnt + m)) : ∃ x s', free_map_allocate s cnt = some (some x,s') ∧ Allocated s s' L cnt (some x) ∧
    Steady 1 s s' ∧ Room s' m := by
  obtain ⟨k,inside,run⟩ := room
  have first : s.free_map.Run k cnt false := fun j low high => run j low (by omega)
  obtain ⟨answer,s',ran,allocated,steady,missing,-⟩ := free_map_allocate_spec ledger mapped cnt
  cases answer with
  | none =>
    obtain ⟨r,b,flipped,-,scanned,-⟩ := bitmap_scan_and_flip_spec (b := s.free_map) false cnt (Nat.zero_le _)
    cases r with
    | some x => exact absurd ⟨ready,x,b,flipped⟩ (missing.mp rfl)
    | none =>
      obtain ⟨r,scanned',finds⟩ := bitmap_scan_spec (b := s.free_map) false cnt (Nat.zero_le _)
      rw [scanned] at scanned'
      cases scanned'
      exact absurd first (finds k (Nat.zero_le k) (by omega))
  | some x =>
    have lowest := bitmap_scan_lowest (allocated.flipped x rfl) first
    refine ⟨x,s',ran,allocated,steady,k + cnt,by rw [steady.bits]; omega,fun j low high => ?_⟩
    rw [(allocated.some_ x rfl).2.2,if_neg (by omega)]
    exact run j (by omega) (by omega)

theorem room_same (map : s'.free_map = s.free_map) (room : Room s cnt) : Room s' cnt := by
  rw [Room,map]
  exact room

/-- The free map after a new inode is that after its sectors were allocated. -/
theorem inode_create_map {length : BitVec 32} (ran : inode_create s x length = some (true,s')) :
    ∃ y s₁, free_map_allocate (forget s 1) (bytes_to_sectors length) = some (some y,s₁) ∧ s'.free_map = s₁.free_map := by
  rw [inode_create] at ran
  split at ran
  · cases ran
  · rw [malloc_eq] at ran
    dsimp only at ran
    split at ran
    · obtain ⟨⟨start,s₁⟩,allocates,rest⟩ := Option.bind_eq_some_iff.mp ran
      cases start with
      | none => cases rest
      | some y =>
        obtain ⟨d,-,rest⟩ := Option.bind_eq_some_iff.mp rest
        obtain ⟨d',-,rest⟩ := Option.bind_eq_some_iff.mp rest
        cases rest
        exact ⟨y,s₁,allocates,rfl⟩
    · cases ran

/-- An inode that was not removed gives no sectors back. -/
theorem inode_close_map (inode : s.inodes a = some n) (stays : n.removed = false) :
    ∃ s', inode_close s a = some s' ∧ s'.free_map = s.free_map := by
  rw [inode_close,inode]
  simp only [Option.bind_eq_bind,Option.bind_some,stays,Bool.false_eq_true,if_false]
  split
  · exact ⟨_,rfl,rfl⟩
  · exact ⟨_,rfl,rfl⟩

theorem dir_add_room (ledger : Ledger s.fs_device s.free_map L) (root : IsRoot s L a n) (plenty : Plenty s)
    (named : name ≠ [] ∧ name.length ≤ NAME_MAX)
    (absent : ∀ q < entry_cnt, ¬ Names (slot s.fs_device q) name)
    (free : ∃ k < entry_cnt, (slot s.fs_device k).in_use = false) (x : Nat) :
    ∃ m d', dir_add s a name x = some (true,{ forget s m with fs_device := d' }) := by
  obtain ⟨r,m,found,finds⟩ := lookup_spec ledger root name
  rw [dir_add,if_neg fun bad => bad.elim named.1 (Nat.not_lt.mpr named.2),found]
  simp only [Option.bind_eq_bind,Option.bind_some]
  cases r with
  | some found =>
    obtain ⟨l,-,below,-,same,names,-⟩ := finds
    rw [same] at names
    exact absurd names (absent l below)
  | none =>
    obtain ⟨k,e,m',ran,-,searched⟩ := slotLoop_spec (entry_cnt + 1) 0 (forget s m).stack (forget s m) ledger (root_forget root m) (Nat.zero_add _)
    obtain ⟨new,made⟩ : ∃ new : DirEntry, { in_use := true, name := strlcpy e.name name, inode_sector := BitVec.ofNat 32 x } = new := ⟨_,rfl⟩
    obtain ⟨written,d',wrote,-,-,whole⟩ := write_slot (s := forget s (m + m')) ledger (root_forget root _) k new
    have below : k < entry_cnt := by
      obtain ⟨q,inside,unused⟩ := free
      refine Nat.lt_of_not_le fun beyond => ?_
      have busy := (searched (plenty_forget plenty m)).1 q (Nat.zero_le q) (Nat.lt_of_lt_of_le inside beyond)
      exact Bool.false_ne_true (unused.symm.trans busy)
    rw [Nat.mul_zero] at ran
    rw [turns_eq (s := forget s m) ledger (root_forget root m),ran]
    simp only [Option.bind_some,forget_forget,made,wrote]
    rw [whole (plenty.1 _) below,decide_eq_true rfl]
    exact ⟨m + m' + 1,d',rfl⟩

/-- A file is created where there is room. -/
theorem filesys_create_room {size : BitVec 32} (sane : Sane s L []) (plenty : Plenty s)
    (named : name ≠ [] ∧ name.length ≤ NAME_MAX)
    (nonnegative : 0 ≤ size.toInt) (absent : ∀ q < entry_cnt, ¬ Names (slot s.fs_device q) name)
    (free : ∃ k < entry_cnt, (slot s.fs_device k).in_use = false) (room : Room s (1 + (bytes_to_sectors size + m))) :
    ∃ s', filesys_create s name size = some (true,s') ∧ Room s' m := by
  obtain ⟨answer,s₁,opens,same₁,none_,some_⟩ := dir_open_root_spec sane
  cases answer with
  | none => exact absurd ⟨plenty.1 0,plenty.1 1⟩ (none_ rfl).1
  | some a =>
    obtain ⟨-,-,-,sane₁,i₀,takes⟩ := some_ a rfl
    have plenty₁ := (same_steady same₁).plenty plenty
    obtain ⟨n,inode,sector,-⟩ := takes_found takes
    -- The sector of the inode.
    obtain ⟨x,s₂,allocates,allocated,steady₂,room₂⟩ :=
      room_allocate sane₁.ledger (map_file sane₁.opened sane₁.mapped) (ready_of_plenty plenty₁ 1)
      (room_same same₁.free_map room)
    have plenty₂ := steady₂.plenty plenty₁
    have slots₂ : ∀ l < entry_cnt, slot s₂.fs_device l = slot s.fs_device l := by
      intro l below
      rw [← same₁.fs_device]
      exact slot_map sane₁.ledger sane₁.root.root allocated.outside below
    have sane₂ : Sane s₂ L [a] := sane_same sane₁ allocated.tables allocated.ledger steady₂.bits fun l below => by
      rw [same₁.fs_device]
      exact slots₂ l below
    obtain ⟨vacant,unused,-⟩ := allocated_vacant sane₁.ledger allocated steady₂.size
    have inode₂ : s₂.inodes a = some n := by
      rw [show s₂.inodes = s₁.inodes from congrArg Tables.inodes allocated.tables]
      exact inode
    have root₂ := is_root sane₂ inode₂ sector
    -- The sectors of the data.
    obtain ⟨created,s₃,creates,steady₃,-,made,exactly⟩ :=
      inode_create_spec sane₂.ledger (map_file sane₂.opened sane₂.mapped) nonnegative vacant
    have room₂' : Room (forget s₂ 1) (bytes_to_sectors size + m) := room₂
    obtain ⟨y,t₃,takes₃,allocated₃,-,room₃⟩ := room_allocate (s := forget s₂ 1) sane₂.ledger
      (map_file sane₂.opened sane₂.mapped) (ready_of_plenty plenty₂ 1) room₂'
    obtain rfl := exactly.mpr ⟨plenty₂.1 0,ready_of_plenty plenty₂ 1,y,_,allocated₃.flipped y rfl⟩
    obtain ⟨i,length,made⟩ := made rfl
    have room₄ : Room s₃ m := by
      obtain ⟨y',t₃',takes₃',map⟩ := inode_create_map creates
      rw [takes₃] at takes₃'
      cases takes₃'
      exact room_same map room₃
    have notRoot : ROOT_DIR_SECTOR ≠ x := fun same => vacant.2.2 _ _ root₂.stored (.inl same.symm)
    have root₃ : IsRoot s₃ (Function.update L x (some i)) a n := by
      have inodes : s₃.inodes = s₂.inodes := congrArg Tables.inodes made.tables
      exact ⟨by rw [inodes]; exact inode₂,sector,by rw [Function.update_of_ne notRoot]; exact root₂.stored,root₂.length,root₂.writable⟩
    have slots₃ : ∀ l < entry_cnt, slot s₃.fs_device l = slot s.fs_device l := by
      intro l below
      rw [← slots₂ l below]
      refine slot_same sane₂.ledger root₂.stored below root₂.length fun z mine => made.outside z (fun q theirs within =>
        sane₂.ledger.apart _ _ _ q root₂.stored theirs (by decide) z mine (.inr within)) ?_ fun within => ?_
      · rintro rfl
        exact vacant.2.2 _ _ root₂.stored mine
      · have busy := sane₂.ledger.used _ _ root₂.stored z mine
        rw [made.room z within.1 within.2] at busy
        cases busy
    obtain ⟨j,d',added⟩ := dir_add_room made.ledger root₃ (steady₃.plenty plenty₂) named (fun q below => by rw [slots₃ q below]; exact absent q below)
      (by obtain ⟨k,below,unused⟩ := free; exact ⟨k,below,by rw [slots₃ k below]; exact unused⟩) x
    -- The root directory was not removed.
    have stays : n.removed = false := Bool.eq_false_iff.mpr fun gone => (sane₁.root.removed a n inode gone).2.1 sector
    obtain ⟨s₅,closes,map₅⟩ := inode_close_map (s := { forget s₃ j with fs_device := d' }) root₃.inode stays
    refine ⟨s₅,?_,room_same map₅ room₄⟩
    rw [filesys_create,opens]
    simp only [Option.bind_eq_bind,Option.bind_some,allocates]
    rw [create_at,creates]
    simp only [Option.bind_eq_bind,Option.bind_some,if_true,added]
    rw [if_neg fun both => Bool.false_ne_true both.1,dir_close,closes]
    rfl
end

end Pintos.FileSystem
