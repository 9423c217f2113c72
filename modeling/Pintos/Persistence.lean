import Pintos.Ownership

/-!
The disk image and the mounted state. The device is written through, so that mounting a
copy of it gives the state there was, as long as the free map gets the bounce buffer
that it is rewritten with: `free_map_release` does not look whether it was.
-/
namespace Pintos.FileSystem
open Pintos.Machines Pintos.Bitmaps Pintos.Lists
set_option linter.unusedSimpArgs false

/-- The inode that `inode_open` would give: the one in memory, or that on the device. -/
def inode_data (s : FileSystem) (x : Nat) : InodeDisk :=
  match s.open_inodes.find? fun a => (s.inodes a).any fun i => i.sector = x with
    | some a => ((s.inodes a).map Inode.data).getD (inode_disk (s.fs_device.data x))
    | none => inode_disk (s.fs_device.data x)

/-- Byte `pos` of the file whose inode is in sector `x`. -/
def file_byte (s : FileSystem) (x pos : Nat) : Byte := content s.fs_device.data (inode_data s x).start.toNat pos

/-- `s'` has the free map, the directory and the files that `s` has. -/
structure SameDisk (s s' : FileSystem) : Prop where
  bit_cnt : s'.free_map.bit_cnt = s.free_map.bit_cnt
  free_map : ∀ z < s.free_map.bit_cnt, bitmap_test s'.free_map z = bitmap_test s.free_map z
  entries : ∀ k < entry_cnt, slot s'.fs_device k = slot s.fs_device k
  length : ∀ k < entry_cnt, (slot s.fs_device k).in_use = true →
    (inode_data s' (slot s.fs_device k).inode_sector.toNat).length = (inode_data s (slot s.fs_device k).inode_sector.toNat).length
  contents : ∀ k < entry_cnt, (slot s.fs_device k).in_use = true →
    ∀ pos < off_t (inode_data s (slot s.fs_device k).inode_sector.toNat).length,
      file_byte s' (slot s.fs_device k).inode_sector.toNat pos = file_byte s (slot s.fs_device k).inode_sector.toNat pos

/-- Every mount of a copy of the device gives what is there, and there is one. -/
def Persistent (s : FileSystem) : Prop :=
  (∀ t s', t.fs_device = s.fs_device → filesys_init false t = some s' → SameDisk s s') ∧
  ∀ t, t.fs_device = s.fs_device → (∀ n, t.memory n = true) → ∃ s', filesys_init false t = some s'

/-- No removed file is open. -/
def Settled (s : FileSystem) : Prop := ∀ a ∈ s.open_inodes, ∀ n, s.inodes a = some n → n.removed = false

/-- The most often that a call rewrites the free map. -/
def rewrites : Call → Nat
  | .filesys_create _ _ => 3
  | .filesys_remove _ => 2
  | .file_close _ => 2
  | _ => 0

instance (s : FileSystem) (n : Nat) : Decidable (Ready s n) := inferInstanceAs (Decidable (_ ∨ _))

/-- The free map fills whole sectors, or each rewrite of it gets its bounce buffer. -/
def Buffered (s : FileSystem) (c : Call) : Prop := Ready s (rewrites c)

instance (s : FileSystem) (c : Call) : Decidable (Buffered s c) := inferInstanceAs (Decidable (Ready s (rewrites c)))

section
variable {s s' : FileSystem} {L : Nat → Option InodeDisk} {x : Nat} {i : InodeDisk} {c : Call} {answer : Answer}

/-- The calls rewrite the free map no more often. -/
theorem call_steady (sane : Sane s L []) (lawful : Lawful s c) (ran : call s c = some (answer,s')) :
    Steady (rewrites c) s s' := by
  cases c with
  | filesys_create name initial_size =>
    obtain ⟨ok,s₁,ran',steady,-⟩ := filesys_create_spec sane lawful.1 lawful.2
    rw [call,ran'] at ran
    cases ran
    exact steady
  | filesys_open name =>
    obtain ⟨f,s₁,ran',steady,-⟩ := filesys_open_spec sane name
    rw [call,ran'] at ran
    cases ran
    exact steady
  | filesys_remove name =>
    obtain ⟨ok,s₁,ran',steady,-⟩ := filesys_remove_spec sane name
    rw [call,ran'] at ran
    cases ran
    exact steady
  | file_read file size =>
    obtain ⟨u,there⟩ := Option.ne_none_iff_exists'.mp lawful.1
    obtain ⟨n,bytes,-,-,ran',-⟩ := file_read_spec sane there lawful.2 size
    rw [call,ran'] at ran
    cases ran
    exact steady_files (steady_forget s 1) _
  | file_write file buffer size =>
    obtain ⟨u,there⟩ := Option.ne_none_iff_exists'.mp lawful.1
    obtain ⟨n,amount,d',-,-,ran',-,-,-,steady⟩ := file_write_spec sane there lawful.2 buffer size
    rw [call,ran'] at ran
    cases ran
    exact steady
  | file_seek file new_pos =>
    obtain ⟨u,there⟩ := Option.ne_none_iff_exists'.mp lawful.1.1
    obtain ⟨ran',-⟩ := file_seek_spec sane there lawful.1.2 lawful.2
    rw [call,ran'] at ran
    cases ran
    exact steady_files (steady_refl s) _
  | file_close file =>
    obtain ⟨u,there⟩ := Option.ne_none_iff_exists'.mp lawful.1
    obtain ⟨n,s₁,-,ran',steady,-⟩ := file_close_spec sane there lawful.2
    rw [call,ran'] at ran
    cases ran
    exact steady

theorem reaches_synced (reached : Reaches machine (fun s e => Buffered s e.1) s) : (∃ L, Sane s L []) ∧ Synced s := by
  refine reaches_invariant (fun s => (∃ L, Sane s L []) ∧ Synced s) (fun s => ?_) (fun s e s' => ?_) reached
  · rintro ⟨boot,formats⟩
    obtain ⟨L,formatted⟩ := filesys_init_format formats
    exact ⟨⟨L,formatted.sane⟩,formatted.synced⟩
  · rintro ⟨⟨L,sane⟩,synced⟩ buffered ⟨lawful,ran⟩
    obtain ⟨answer,s₁,ran',L',sane'⟩ := call_spec sane lawful
    have steady := call_steady sane lawful ran
    rw [ran] at ran'
    cases ran'
    exact ⟨⟨L',sane'⟩,steady.synced buffered synced⟩

/-- In memory is what is on the device. -/
theorem inode_data_eq (sane : Sane s L []) (owned : L x = some i) : inode_data s x = i := by
  have found := open_find sane.opened x
  rw [inode_data]
  cases there : s.open_inodes.find? fun a => (s.inodes a).any fun i => i.sector = x with
  | none => exact sane.ledger.stored x i owned
  | some a =>
    rw [there] at found
    obtain ⟨n,inode,sector⟩ := found
    have stored := sane.opened.stored a n inode
    rw [sector,owned] at stored
    simp only [inode,Option.map_some,Option.getD_some]
    exact (Option.some.inj stored).symm

theorem mount_spec (sane : Sane s L []) (synced : Synced s) : Persistent s := by
  obtain ⟨-,-,n,-,-,-,-,owned,length⟩ := map_file sane.opened sane.mapped
  have cnt := sane.ledger.device.2
  have positive : 0 < s.free_map.bit_cnt := by
    have inside := sane.ledger.sector _ _ owned
    rw [cnt]
    exact inside
  have mounting : ∀ t s₁ : FileSystem, t.fs_device = s.fs_device → free_map_init { t with
      open_inodes := [], free_map_file := none, inodes := fun _ => none, files := fun _ => none } t.free_map.bits = some s₁ →
      Ledger s₁.fs_device s.free_map L ∧ Empty s₁ ∧ n.data.length.toNat = byte_cnt s₁.free_map.bit_cnt ∧
          0 < s₁.free_map.bit_cnt := by
    intro t s₁ device inits
    obtain ⟨-,map,rfl,cnt₁,-⟩ := free_map_init_spec inits
    have bits₁ : map.bit_cnt = s.free_map.bit_cnt := by
      rw [cnt]
      exact cnt₁.trans (congrArg Device.size device)
    refine ⟨?_,⟨rfl,rfl,rfl⟩,?_,?_⟩
    · show Ledger t.fs_device s.free_map L
      rw [device]
      exact sane.ledger
    · show _ = byte_cnt map.bit_cnt
      rw [bits₁]
      exact length
    · show 0 < map.bit_cnt
      rw [bits₁]
      exact positive
  constructor
  · intro t s' device ran
    obtain ⟨s₁,inits,rest⟩ := Option.bind_eq_some_iff.mp ran
    obtain ⟨small,map,same,cnt₁,-⟩ := free_map_init_spec inits
    have device₁ : s₁.fs_device = s.fs_device := by
      rw [same]
      exact device
    have bits₁ : s₁.free_map.bit_cnt = s.free_map.bit_cnt := by
      rw [same,cnt]
      exact cnt₁.trans (congrArg Device.size device)
    obtain ⟨ledger₁,empty₁,length₁,positive₁⟩ := mounting t s₁ device inits
    obtain ⟨map',ends,cnt',opened,mapped,synced'⟩ := (free_map_open_spec ledger₁ empty₁ owned length₁ positive₁).1 s' rest
    have device' : s'.fs_device = s.fs_device := by
      rw [ends]
      exact device₁
    have cnt'' : s'.free_map.bit_cnt = s.free_map.bit_cnt := by
      rw [ends]
      exact cnt'.trans bits₁
    have bits : ∀ z < s.free_map.bit_cnt, s'.free_map.has z = s.free_map.has z := by
      intro z below
      have one := synced' z (by rw [cnt'']; exact below)
      have two := synced z below
      rw [device'] at one
      exact one.symm.trans two
    have sane' : Sane s' L [] := by
      refine ⟨?_,opened,mapped,?_⟩
      · rw [device']
        exact ledger_synced sane.ledger cnt'' bits
      · rw [device']
        refine ⟨sane.root.root,sane.root.named,sane.root.once,fun a m found gone => ?_⟩
        rw [ends] at found
        have one : Function.update s₁.inodes s₁.next _ a = some m := found
        rcases update_inode one with ⟨-,equal⟩ | ⟨-,before⟩
        · cases equal
          cases gone
        · rw [empty₁.inodes] at before
          cases before
    refine ⟨cnt'',fun z below => ?_,fun k _ => by rw [device'],fun k below busy => ?_,fun k below busy pos _ => ?_⟩
    · rw [bitmap_test_spec below,bitmap_test_spec (by rw [cnt'']; exact below),bits z below]
    · obtain ⟨⟨i,named⟩,-⟩ := sane.root.named k below busy
      rw [inode_data_eq sane named,inode_data_eq sane' named]
    · obtain ⟨⟨i,named⟩,-⟩ := sane.root.named k below busy
      rw [file_byte,file_byte,inode_data_eq sane named,inode_data_eq sane' named,device']
  · intro t device all
    have size : t.fs_device.size < 2 ^ 31 := by
      rw [device]
      exact sane.ledger.device.1
    obtain ⟨s₁,inits,all₁⟩ := free_map_init_some (s := { t with open_inodes := [], free_map_file := none, inodes := fun _ => none, files := fun _ => none })
      size all t.free_map.bits
    obtain ⟨ledger₁,empty₁,length₁,positive₁⟩ := mounting t s₁ device inits
    obtain ⟨s',opens⟩ := (free_map_open_spec ledger₁ empty₁ owned length₁ positive₁).2 all₁
    refine ⟨s',?_⟩
    rw [filesys_init,inits]
    exact opens

/-- In the runs in which no rewrite of the free map goes without its buffer, the device
    always holds the state. -/
theorem persistent_if_buffered (reached : Reaches machine (fun s e => Buffered s e.1) s) : Persistent s := by
  obtain ⟨⟨L,sane⟩,synced⟩ := reaches_synced reached
  exact mount_spec sane synced
end

/-- A file is created and removed, and has had its sectors. -/
def removesNamed : List Call := [.filesys_create [97#8] 600#32,.filesys_remove [97#8]]

theorem persistent_if_buffered_removed : ∃ s₀ s, filesys_init true boot = some s₀ ∧
    calls Buffered removesNamed s₀ = some s ∧ Persistent s := by
  have ran : ((filesys_init true boot).bind (calls Buffered removesNamed)).isSome = true := by decide +kernel
  obtain ⟨s,after⟩ := Option.isSome_iff_exists.mp ran
  obtain ⟨s₀,initial,later⟩ := Option.bind_eq_some_iff.mp after
  exact ⟨s₀,s,initial,later,persistent_if_buffered (calls_reaches removesNamed (.start ⟨boot,initial⟩) later)⟩

/-- The sectors of the removed file are free in memory, but its inode's is in use on the
    device: the removal had no memory to write the free map with. -/
theorem removal_not_persistent : ¬ ∀ s, Reaches machine Anything s → Settled s → Persistent s := by
  intro always
  have ran : (((filesys_init true { boot with map_memory := fun n => decide (n < 4) }).bind (calls (fun _ _ => True) removesNamed)).any fun s =>
      s.open_inodes.all (fun a => (s.inodes a).all fun n => !n.removed) && decide (4 < s.free_map.bit_cnt) &&
        (filesys_init false { boot with fs_device := s.fs_device }).any fun s' => bitmap_test s'.free_map 4 != bitmap_test s.free_map 4) = true := by
    decide +kernel
  obtain ⟨s,after,differs⟩ := (Option.any_eq_true _ _).mp ran
  obtain ⟨s₀,initial,later⟩ := Option.bind_eq_some_iff.mp after
  obtain ⟨⟨settled,inside⟩,mounted⟩ : (_ ∧ _) ∧ _ := by simpa only [Bool.and_eq_true,decide_eq_true_eq] using differs
  obtain ⟨s',mounts,other⟩ := (Option.any_eq_true _ _).mp mounted
  have reached : Reaches machine Anything s := @calls_reaches (fun _ _ => True) _ removesNamed s₀ s (.start ⟨_,initial⟩) later
  have persistent := always s reached fun a member n found => by
    have each := List.all_eq_true.mp settled a member
    rw [found] at each
    simpa using each
  have same := (persistent.1 { boot with fs_device := s.fs_device } s' rfl mounts).free_map 4 inside
  rw [same] at other
  simp at other

end Pintos.FileSystem
