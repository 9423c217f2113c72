import Pintos.Formats

/-!
Every sector has at most one owner: in every state that the calls reach from a format,
whatever succeeds and whatever fails. No call is stopped by an assertion.
-/
namespace Pintos.FileSystem
open Pintos.Machines Pintos.Bitmaps Pintos.Lists
set_option linter.unusedSimpArgs false

/-- The owners of sectors: the free map, the root directory, the files that it names and
    those that are open. -/
def Owner (s : FileSystem) (x : Nat) (i : InodeDisk) : Prop :=
  ((x = FREE_MAP_SECTOR ∨ x = ROOT_DIR_SECTOR ∨ ∃ k < entry_cnt, (slot s.fs_device k).in_use = true ∧ (slot s.fs_device k).inode_sector.toNat = x) ∧
    inode_disk (s.fs_device.data x) = i) ∨
  ∃ a ∈ s.open_inodes, ∃ n, s.inodes a = some n ∧ n.sector = x ∧ n.data = i

section
variable {s s' : FileSystem} {L : Nat → Option InodeDisk} {x y z : Nat} {i j : InodeDisk} {c : Call} {answer : Answer}

/-- A call returns, and what agreed before agrees afterwards. -/
theorem call_spec (sane : Sane s L []) (lawful : Lawful s c) :
    ∃ answer s', call s c = some (answer,s') ∧ ∃ L', Sane s' L' [] := by
  cases c with
  | filesys_create name initial_size =>
    obtain ⟨ok,s',ran,-,-,-,-,failed,done⟩ := filesys_create_spec sane lawful.1 lawful.2
    refine ⟨.success ok,s',by rw [call,ran]; rfl,?_⟩
    cases ok with
    | false => exact ⟨L,(failed rfl).1⟩
    | true =>
      obtain ⟨x,i,k,-,sane'⟩ := done rfl
      exact ⟨_,sane'⟩
  | filesys_open name =>
    obtain ⟨f,s',ran,-,-,-,-,sane',-⟩ := filesys_open_spec sane name
    exact ⟨.file f,s',by rw [call,ran]; rfl,L,sane'⟩
  | filesys_remove name =>
    obtain ⟨ok,s',ran,-,-,-,failed,done⟩ := filesys_remove_spec sane name
    refine ⟨.success ok,s',by rw [call,ran]; rfl,?_⟩
    cases ok with
    | false => exact ⟨L,(failed rfl).2.2.2.1⟩
    | true =>
      obtain ⟨k,L',-,-,sane'⟩ := done rfl
      exact ⟨L',sane'⟩
  | file_read file size =>
    obtain ⟨u,there⟩ := Option.ne_none_iff_exists'.mp lawful.1
    obtain ⟨n,bytes,-,-,ran,sane'⟩ := file_read_spec sane there lawful.2 size
    exact ⟨.bytes bytes,_,by rw [call,ran]; rfl,L,sane'⟩
  | file_write file buffer size =>
    obtain ⟨u,there⟩ := Option.ne_none_iff_exists'.mp lawful.1
    obtain ⟨n,amount,d',-,-,ran,-,-,sane',-⟩ := file_write_spec sane there lawful.2 buffer size
    exact ⟨.count amount,_,by rw [call,ran]; rfl,L,sane'⟩
  | file_seek file new_pos =>
    obtain ⟨u,there⟩ := Option.ne_none_iff_exists'.mp lawful.1.1
    obtain ⟨ran,sane'⟩ := file_seek_spec sane there lawful.1.2 lawful.2
    exact ⟨.nothing,_,by rw [call,ran]; rfl,L,sane'⟩
  | file_close file =>
    obtain ⟨u,there⟩ := Option.ne_none_iff_exists'.mp lawful.1
    obtain ⟨n,s',-,ran,-,sane',-⟩ := file_close_spec sane there lawful.2
    exact ⟨.nothing,s',by rw [call,ran]; rfl,_,sane'⟩

/-- In every run the device and the memory agree. -/
theorem reaches_sane {Guard : FileSystem → Call × Answer → Prop} (reached : Reaches machine Guard s) : ∃ L, Sane s L [] := by
  refine reaches_invariant (fun s => ∃ L, Sane s L []) (fun s => ?_) (fun s e s' => ?_) reached
  · rintro ⟨boot,formats⟩
    obtain ⟨L,formatted⟩ := filesys_init_format formats
    exact ⟨L,formatted.sane⟩
  · rintro ⟨L,sane⟩ - ⟨lawful,ran⟩
    obtain ⟨answer,s₁,ran',L',sane'⟩ := call_spec sane lawful
    rw [ran] at ran'
    cases ran'
    exact ⟨L',sane'⟩

/-- Owners are in the ledger. -/
theorem owner_listed (sane : Sane s L []) (owner : Owner s x i) : L x = some i := by
  rcases owner with ⟨named,stored⟩ | ⟨a,-,n,found,rfl,rfl⟩
  · have listed : ∃ j, L x = some j := by
      rcases named with rfl | rfl | ⟨k,below,busy,rfl⟩
      · obtain ⟨-,-,n,-,-,-,-,owned,-⟩ := map_file sane.opened sane.mapped
        exact ⟨n.data,owned⟩
      · obtain ⟨j,owned,-⟩ := sane.root.root
        exact ⟨j,owned⟩
      · exact (sane.root.named k below busy).1
    obtain ⟨j,owned⟩ := listed
    rw [sane.ledger.stored x j owned] at stored
    rw [owned,stored]
  · exact sane.opened.stored a n found

/-- Sectors have at most one owner, are on the device and in use; and every call returns,
    so no assertion fails. -/
theorem sectors_owned_once (reached : Reaches machine Anything s) :
    (∀ x i, Owner s x i → ¬ Extent i x ∧ ∀ z, Span x i z → z < s.fs_device.size ∧ bitmap_test s.free_map z = some true) ∧
    (∀ x y i j, Owner s x i → Owner s y j → if x = y then i = j else ∀ z, Span x i z → ¬ Span y j z) ∧
    ∀ c, Lawful s c → ∃ answer s', call s c = some (answer,s') := by
  obtain ⟨L,sane⟩ := reaches_sane reached
  refine ⟨fun x i owner => ?_,fun x y i j one two => ?_,fun c lawful => ?_⟩
  · have owned := owner_listed sane owner
    refine ⟨sane.ledger.own x i owned,fun z inside => ?_⟩
    have below : z < s.fs_device.size := by
      rcases inside with rfl | within
      · exact sane.ledger.sector z i owned
      · exact Nat.lt_of_lt_of_le within.2 (sane.ledger.extent x i owned)
    refine ⟨below,?_⟩
    rw [bitmap_test_spec (by rw [sane.ledger.device.2]; exact below),sane.ledger.used x i owned z inside]
  · have owned := owner_listed sane one
    have owned' := owner_listed sane two
    by_cases same : x = y
    · rw [if_pos same]
      rw [← same,owned] at owned'
      exact Option.some.inj owned'
    · rw [if_neg same]
      exact sane.ledger.apart x y i j owned owned' same
  · obtain ⟨answer,s',ran,-⟩ := call_spec sane lawful
    exact ⟨answer,s',ran⟩
end

/-- A device of 64 sectors before the first format. -/
def boot : FileSystem where
  fs_device := { size := 64, data := fun _ _ => 0xcc#8 }
  free_map := { bit_cnt := 0, bits := fun _ => 0xcccccccc#32 }
  free_map_file := none
  open_inodes := []
  inodes _ := none
  files _ := none
  next := 0
  memory _ := true
  map_memory _ := true
  stack := { inode_sector := 0xcccccccc#32, name := fun _ => 0xcc#8, in_use := true }

/-- A file is created, opened and removed while it is open. -/
def removesOpen : List Call := [.filesys_create [97#8] 600#32,.filesys_open [97#8],.filesys_remove [97#8]]

theorem sectors_owned_once_removed : ∃ s₀ s, filesys_init true boot = some s₀ ∧ calls (fun _ _ => True) removesOpen s₀ = some s ∧
    (∀ x y i j, Owner s x i → Owner s y j → if x = y then i = j else ∀ z, Span x i z → ¬ Span y j z) := by
  have formats : (filesys_init true boot).isSome = true := by decide +kernel
  have ran : ((filesys_init true boot).bind (calls (fun _ _ => True) removesOpen)).isSome = true := by decide +kernel
  obtain ⟨s₀,initial⟩ := Option.isSome_iff_exists.mp formats
  rw [initial] at ran
  obtain ⟨s,later⟩ := Option.isSome_iff_exists.mp ran
  exact ⟨s₀,s,initial,later,(sectors_owned_once
    (@calls_reaches (fun _ _ => True) _ removesOpen s₀ s (.start ⟨boot,initial⟩) later)).2.1⟩

end Pintos.FileSystem
