import Pintos.Persistence

/-!
What a failed `filesys_create` leaves behind. The sector of the inode is released again,
the sectors of the data are not: they stay in use whenever they were reserved before the
entry could not be added.
-/
namespace Pintos.FileSystem
open Pintos.Machines Pintos.Bitmaps Pintos.Lists
set_option linter.unusedSimpArgs false

/-- The free map, the root directory and what the files hold are as they were. -/
structure Unchanged (s s' : FileSystem) : Prop where
  bit_cnt : s'.free_map.bit_cnt = s.free_map.bit_cnt
  free_map : ∀ z < s.free_map.bit_cnt, bitmap_test s'.free_map z = bitmap_test s.free_map z
  entries : ∀ k < entry_cnt, slot s'.fs_device k = slot s.fs_device k
  inodes : ∀ x i, Owner s x i → inode_data s' x = inode_data s x
  contents : ∀ x i, Owner s x i → x ≠ FREE_MAP_SECTOR →
    ∀ pos < off_t (inode_data s x).length, file_byte s' x pos = file_byte s x pos

section
variable {s s' : FileSystem} {L : Nat → Option InodeDisk} {x y : Nat} {i : InodeDisk} {name : List Byte} {size : BitVec 32}

/-- The bytes of the files are in sectors in use. -/
theorem spared_byte (sane : Sane s L []) (sane' : Sane s' L []) (spared : Spared s s' L) (owned : L x = some i)
    (other : x ≠ FREE_MAP_SECTOR) {pos : Nat}
    (below : pos < off_t i.length) : file_byte s' x pos = file_byte s x pos := by
  rw [file_byte,file_byte,inode_data_eq sane owned,inode_data_eq sane' owned,content,content]
  have inside := extent_pos sane.ledger owned below
  rw [spared _ (sane.ledger.used x i owned _ (.inr inside)) fun m mine within =>
    sane.ledger.apart x _ i m owned mine other _ (.inr inside) (.inr within)]

theorem bits_tested (cnt : s'.free_map.bit_cnt = s.free_map.bit_cnt) :
    (∀ z < s.free_map.bit_cnt, bitmap_test s'.free_map z = bitmap_test s.free_map z) ↔
      ∀ z < s.free_map.bit_cnt, s'.free_map.has z = s.free_map.has z := by
  refine forall_congr' fun z => imp_congr_right fun below => ?_
  rw [bitmap_test_spec below,bitmap_test_spec (by rw [cnt]; exact below)]
  exact Option.some_inj

/-- A failed call changes nothing exactly where no sector was reserved for the data. -/
theorem failed_create_leaks_nothing_iff (reached : Reaches machine Anything s) (lawful : Lawful s (.filesys_create name size))
    (failed : filesys_create s name size = some (false,s')) : Unchanged s s' ↔ bytes_to_sectors size = 0 ∨ ¬ Reserves s size := by
  obtain ⟨L,sane⟩ := reaches_sane reached
  obtain ⟨ok,s₁,ran,steady,-,-,-,leaves,-⟩ := filesys_create_spec sane lawful.1 lawful.2
  rw [failed] at ran
  cases ran
  obtain ⟨sane',spared,kept,took⟩ := leaves rfl
  have cnt := steady.bits
  constructor
  · intro unchanged
    by_cases reserves : Reserves s size
    · refine .inl (Nat.eq_zero_of_not_pos fun some_ => ?_)
      obtain ⟨y,run,room,bits⟩ := took reserves
      have same := (bits_tested cnt).mp unchanged.free_map y (by omega)
      rw [bits,if_pos ⟨Nat.le_refl y,by omega⟩,run y (Nat.le_refl y) (by omega)] at same
      cases same
    · exact .inr reserves
  · intro nothing
    have bits : ∀ z, s'.free_map.has z = s.free_map.has z := by
      rcases nothing with none_ | refused
      · by_cases reserves : Reserves s size
        · obtain ⟨y,-,-,bits⟩ := took reserves
          intro z
          rw [bits,none_,if_neg (by omega)]
        · exact kept reserves
      · exact kept refused
    refine ⟨cnt,(bits_tested cnt).mpr fun z _ => bits z,fun k below => slot_spared sane.ledger sane.root.root spared below,
      fun x i owner => ?_,fun x i owner other pos below => ?_⟩
    · have owned := owner_listed sane owner
      rw [inode_data_eq sane owned,inode_data_eq sane' owned]
    · have owned := owner_listed sane owner
      rw [inode_data_eq sane owned] at below
      exact spared_byte sane sane' spared owned other below
end

/-- A name without characters fails, and an empty file takes no sectors. -/
theorem failed_create_leaks_nothing_empty : ∃ s s', filesys_init true boot = some s ∧
    filesys_create s [] 0#32 = some (false,s') ∧ Unchanged s s' := by
  have ran : ((filesys_init true boot).any fun s => (filesys_create s [] 0#32).any fun r => !r.1) = true := by decide +kernel
  obtain ⟨s,initial,fails⟩ := (Option.any_eq_true _ _).mp ran
  obtain ⟨⟨ok,s'⟩,created,refused⟩ := (Option.any_eq_true _ _).mp fails
  obtain rfl : ok = false := by simpa using refused
  exact ⟨s,s',initial,created,(failed_create_leaks_nothing_iff (.start ⟨boot,initial⟩) ⟨by decide,by decide⟩ created).mpr (.inl (by decide))⟩

/-- The name is there already: sector 8 stays in use. -/
theorem failed_create_leaks : ¬ ∀ s s' name size, Reaches machine Anything s → Lawful s (.filesys_create name size) →
    filesys_create s name size = some (false,s') → Unchanged s s' := by
  intro always
  have ran : (((filesys_init true boot).bind (calls (fun _ _ => True) [.filesys_create [97#8] 600#32])).any fun s =>
      (filesys_create s [97#8] 600#32).any fun r =>
        !r.1 && decide (8 < s.free_map.bit_cnt) && (bitmap_test r.2.free_map 8 != bitmap_test s.free_map 8)) = true := by
          decide +kernel
  obtain ⟨s,after,leaks⟩ := (Option.any_eq_true _ _).mp ran
  obtain ⟨⟨ok,s'⟩,created,differs⟩ := (Option.any_eq_true _ _).mp leaks
  obtain ⟨s₀,initial,later⟩ := Option.bind_eq_some_iff.mp after
  obtain ⟨⟨refused,inside⟩,other⟩ : (_ ∧ _) ∧ _ := by simpa only [Bool.and_eq_true,decide_eq_true_eq] using differs
  obtain rfl : ok = false := by simpa using refused
  have reached : Reaches machine Anything s := @calls_reaches (fun _ _ => True) _ _ s₀ s (.start ⟨_,initial⟩) later
  have same := (always s s' [97#8] 600#32 reached ⟨by decide,by decide⟩ created).free_map 8 inside
  rw [same] at other
  simp at other

end Pintos.FileSystem
