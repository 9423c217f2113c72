import Pintos.Ownership
import Pintos.Simulations
import Mathlib.Data.Set.Card

/-!
The file system as a store of files of fixed lengths. A name stands for a file, and so
does a handle, with a position of its own; a file without a name lasts as long as a
handle on it. Every run without a failed allocation is one of the store.
-/
namespace Pintos.FileSystem
open Pintos.Machines Pintos.Bitmaps Pintos.Lists Pintos.Simulations
set_option linter.unusedSimpArgs false

/-! ### The store -/

structure Store where
  names : List Byte → Option Nat
  files : Nat → List Byte
  /-- The file of a handle and the position in it. -/
  handles : Nat → Option (Nat × Nat)

/-- `bytes` in the place of those at `pos`. -/
def patch (file : List Byte) (pos : Nat) (bytes : List Byte) :
    List Byte := file.take pos ++ bytes ++ file.drop (pos + bytes.length)

/-- No name and no handle is of file `x`. -/
def Store.Unused (a : Store) (x : Nat) : Prop := (∀ name, a.names name ≠ some x) ∧ ∀ f pos, a.handles f ≠ some (x,pos)

/-- What the store answers to a call, and what it is afterwards. -/
def Store.Answers (a : Store) : Call → Answer → Store → Prop
  | .filesys_create _ _, .success false, a' => a' = a
  | .filesys_create name initial_size, .success true, a' =>
    1 ≤ name.length ∧ name.length ≤ 14 ∧ a.names name = none ∧ { name | a.names name ≠ none }.ncard < 16 ∧
    ∃ x, a.Unused x ∧ a' = { a with
      names := Function.update a.names name (some x)
      files := Function.update a.files x (List.replicate (off_t initial_size) 0#8) }
  | .filesys_open name, .file none, a' => a.names name = none ∧ a' = a
  | .filesys_open name, .file (some f), a' =>
    ∃ x, a.names name = some x ∧ a.handles f = none ∧ a' = { a with handles := Function.update a.handles f (some (x,0)) }
  | .filesys_remove name, .success ok, a' => ok = (a.names name).isSome ∧ a' = { a with names := Function.update a.names name none }
  | .file_read f size, .bytes bytes, a' =>
    ∃ x pos, a.handles f = some (x,pos) ∧ bytes = ((a.files x).drop pos).take (off_t size) ∧
      a' = { a with handles := Function.update a.handles f (some (x,pos + bytes.length)) }
  | .file_write f buffer size, .count n, a' =>
    ∃ x pos, a.handles f = some (x,pos) ∧ n = min (off_t size) ((a.files x).length - pos) ∧
      a' = { a with
        files := Function.update a.files x (patch (a.files x) pos ((List.range n).map buffer))
        handles := Function.update a.handles f (some (x,pos + n)) }
  | .file_seek f new_pos, .nothing, a' =>
    ∃ x pos, a.handles f = some (x,pos) ∧ a' = { a with handles := Function.update a.handles f (some (x,off_t new_pos)) }
  | .file_close f, .nothing, a' => a.handles f ≠ none ∧ a' = { a with handles := Function.update a.handles f none }
  | _, _, _ => False

/-- From a store without names and handles on. -/
def store : Machine Store (Call × Answer) where
  Initial a := a.names = (fun _ => none) ∧ a.handles = fun _ => none
  Step a event a' := a.Answers event.1 event.2 a'

/-- From a format on, and no allocation fails. -/
def plentiful : Machine FileSystem (Call × Answer) where
  Initial s := ∃ boot, Plenty boot ∧ filesys_init true boot = some s
  Step := machine.Step

/-! ### What a state holds -/

/-- The bytes of a file, whose inode is `i`. -/
def file_bytes (d : Device) (i : InodeDisk) : List Byte := (List.range (off_t i.length)).map (content d.data i.start.toNat)

/-- A name has the inode in sector `x`. -/
def Named (s : FileSystem) (name : List Byte) (x : Nat) : Prop :=
  ∃ k < entry_cnt, Names (slot s.fs_device k) name ∧ (slot s.fs_device k).inode_sector.toNat = x
/-- Where a handle of the file system is. -/
def At (s : FileSystem) (f x pos : Nat) : Prop :=
  s.free_map_file ≠ some f ∧ ∃ u n, s.files f = some u ∧ s.inodes u.inode = some n ∧ n.sector = x ∧ u.pos = pos

/-- The store `a` is what the state holds. -/
structure Holds (s : FileSystem) (L : Nat → Option InodeDisk) (a : Store) : Prop where
  sane : Sane s L []
  plenty : Plenty s
  allows : ∀ f u, s.files f = some u → u.deny_write = false
  names : ∀ name x, a.names name = some x ↔ Named s name x
  files : ∀ x i, L x = some i → x ≠ FREE_MAP_SECTOR → x ≠ ROOT_DIR_SECTOR → a.files x = file_bytes s.fs_device i
  handles : ∀ f x pos, a.handles f = some (x,pos) ↔ At s f x pos

section
variable {s s' : FileSystem} {L L' : Nat → Option InodeDisk} {a : Store} {x y f k : Nat} {i j : InodeDisk} {u : File}
  {n : Inode} {d d' : Device}
  {name : List Byte}

theorem file_bytes_length (d : Device) (i : InodeDisk) : (file_bytes d i).length = off_t i.length := by
  rw [file_bytes,List.length_map,List.length_range]

theorem file_bytes_same {map : Bitmap} (ledger : Ledger d map L) (owned : L x = some i)
    (same : ∀ z, Extent i z → d'.data z = d.data z) :
    file_bytes d' i = file_bytes d i := by
  refine List.map_congr_left fun pos inside => ?_
  rw [content,content,same _ (extent_pos ledger owned (List.mem_range.mp inside))]

/-- Part of a file, as a read returns it. -/
theorem file_bytes_part (d : Device) (i : InodeDisk) (pos size : Nat) :
    ((file_bytes d i).drop pos).take size = (List.range (reach i size pos)).map fun k => content d.data i.start.toNat (pos + k) := by
  refine List.ext_getElem ?_ fun k left right => ?_
  · rw [List.length_take,List.length_drop,file_bytes_length,List.length_map,List.length_range,reach]
  · rw [List.getElem_take,List.getElem_drop]
    simp only [file_bytes,List.getElem_map,List.getElem_range]

/-- A file after a write. -/
theorem file_bytes_written {buffer : Nat → Byte} {pos size : Nat} (written : Written d d' i buffer pos (reach i size pos)) :
    file_bytes d' i = patch (file_bytes d i) pos ((List.range (reach i size pos)).map buffer) := by
  have long := file_bytes_length d i
  have amount : (reach i size pos) ≤ off_t i.length - pos := Nat.min_le_right _ _
  refine List.ext_getElem ?_ fun k left right => ?_
  · rw [patch,List.length_append,List.length_append,List.length_take,List.length_drop,List.length_map,List.length_range,
      file_bytes_length,long]
    omega
  · have below : k < off_t i.length := by rw [← file_bytes_length d' i]; exact left
    simp only [patch]
    rw [List.getElem_append]
    split
    · next before =>
      rw [List.getElem_append]
      split
      · next early =>
        rw [List.length_take,long] at early
        rw [List.getElem_take]
        simp only [file_bytes,List.getElem_map,List.getElem_range]
        rw [written.content,if_neg (by omega)]
      · next late =>
        rw [List.length_take,long] at late
        simp only [List.length_append,List.length_take,List.length_map,List.length_range,long] at before
        simp only [file_bytes,List.getElem_map,List.getElem_range]
        rw [written.content,if_pos (by omega)]
        congr 1
        rw [List.length_take,List.length_map,List.length_range]
        omega
    · next after =>
      simp only [List.length_append,List.length_take,List.length_map,List.length_range,long] at after
      rw [List.getElem_drop]
      simp only [file_bytes,List.getElem_map,List.getElem_range,List.length_append,List.length_take,List.length_map,
        List.length_range]
      rw [written.content,if_neg (by omega)]
      congr 1
      omega

/-- The file of a handle of the store. -/
theorem handle_held (holds : Holds s L a) (handle : Handle s f) :
    ∃ u n, s.files f = some u ∧ s.inodes u.inode = some n ∧ L n.sector = some n.data ∧
    (n.sector ≠ FREE_MAP_SECTOR ∧ n.sector ≠ ROOT_DIR_SECTOR) ∧ a.handles f = some (n.sector,u.pos) := by
  obtain ⟨u,file⟩ := Option.ne_none_iff_exists'.mp handle.1
  obtain ⟨n,found,owned,user⟩ := handle_inode holds.sane file
  exact ⟨u,n,file,found,owned,user handle.2,(holds.handles f _ _).mpr ⟨handle.2,u,n,file,found,rfl,rfl⟩⟩

/-- A name of no slot stands for nothing. -/
theorem names_none (holds : Holds s L a) : a.names name = none ↔ ∀ q < entry_cnt, ¬ Names (slot s.fs_device q) name := by
  rw [Option.eq_none_iff_forall_ne_some]
  constructor
  · exact fun absent q below entry => absent _ ((holds.names name _).mpr ⟨q,below,entry,rfl⟩)
  · intro absent x present
    obtain ⟨k,below,entry,-⟩ := (holds.names name x).mp present
    exact absent k below entry

/-- Names stay as they are where the root directory does. -/
theorem named_same (slots : ∀ l < entry_cnt, slot s'.fs_device l = slot s.fs_device l) (name : List Byte) (x : Nat) :
    Named s name x ↔ Named s' name x := by
  refine exists_congr fun l => and_congr_right fun below => ?_
  rw [slots l below]

/-- Handles stay as they are where files and the sectors of inodes do. -/
theorem at_same (sane : Sane s L []) (files : s'.files = s.files) (map_file : s'.free_map_file = s.free_map_file)
    (inodes : ∀ b n, s.inodes b = some n → ∃ m, s'.inodes b = some m ∧ m.sector = n.sector) (f x pos : Nat) :
    At s f x pos ↔ At s' f x pos := by
  rw [At,At,files,map_file]
  refine and_congr_right fun _ => ⟨?_,?_⟩
  · rintro ⟨u,n,file,found,rfl,rfl⟩
    obtain ⟨m,found',same⟩ := inodes _ n found
    exact ⟨u,m,file,found',same,rfl⟩
  · rintro ⟨u,m,file,found',rfl,rfl⟩
    obtain ⟨n,found⟩ := Option.ne_none_iff_exists'.mp (sane.opened.file f u file)
    obtain ⟨m',found'',same⟩ := inodes _ n found
    rw [found'] at found''
    cases found''
    exact ⟨u,n,file,found,same.symm,rfl⟩

theorem unused_held (holds : Holds s L a) (unused : L x = none) : a.Unused x := by
  refine ⟨fun other named => ?_,fun f pos handle => ?_⟩
  · obtain ⟨l,below,entry,sector⟩ := (holds.names other x).mp named
    obtain ⟨⟨j,owned⟩,-⟩ := holds.sane.root.named l below entry.1
    rw [sector,unused] at owned
    cases owned
  · obtain ⟨-,u,n,-,found,sector,-⟩ := (holds.handles f x pos).mp handle
    have owned := holds.sane.opened.stored _ n found
    rw [sector,unused] at owned
    cases owned

/-- Each name has a slot of its own. -/
theorem room_held (holds : Holds s L a) (below : k < entry_cnt) (free : (slot s.fs_device k).in_use = false) :
    { name | a.names name ≠ none }.ncard < 16 := by
  have inside : { name | a.names name ≠ none } ⊆ (((Finset.range entry_cnt).erase k).image fun l => c_string (slot s.fs_device l).name : Finset (List Byte)) := by
    intro other present
    obtain ⟨y,named⟩ := Option.ne_none_iff_exists'.mp present
    obtain ⟨l,inside,entry,-⟩ := (holds.names other y).mp named
    refine Finset.mem_coe.mpr (Finset.mem_image.mpr ⟨l,Finset.mem_erase.mpr ⟨?_,Finset.mem_range.mpr inside⟩,entry.2.symm⟩)
    rintro rfl
    exact Bool.false_ne_true (free.symm.trans entry.1)
  calc { name | a.names name ≠ none }.ncard
      ≤ _ := Set.ncard_le_ncard inside (Finset.finite_toSet _)
    _ ≤ ((Finset.range entry_cnt).erase k).card := by
      rw [Set.ncard_coe_finset]
      exact Finset.card_image_le
    _ = 15 := by rw [Finset.card_erase_of_mem (Finset.mem_range.mpr below),Finset.card_range]; rfl
    _ < 16 := by decide

/-! ### The calls -/

/-- A failed call that spares what is in use. -/
theorem holds_spared (holds : Holds s L a) (steady : Steady k s s') (sane' : Sane s' L []) (spared : Spared s s' L)
    (files : s'.files = s.files)
    (map_file : s'.free_map_file = s.free_map_file) (inodes : s'.inodes = s.inodes) : Holds s' L a where
  sane := sane'
  plenty := steady.plenty holds.plenty
  allows f u file := holds.allows f u (files ▸ file)
  names name x := (holds.names name x).trans (named_same (fun l below => slot_spared holds.sane.ledger holds.sane.root.root spared below) name x)
  files x i owned notMap notRoot := by
    rw [holds.files x i owned notMap notRoot]
    refine (file_bytes_same holds.sane.ledger owned fun z inside => spared z (holds.sane.ledger.used x i owned z (.inr inside)) fun m mine within => ?_).symm
    exact holds.sane.ledger.apart x _ i m owned mine notMap z (.inr inside) (.inr within)
  handles f x pos := (holds.handles f x pos).trans (at_same holds.sane files map_file (fun b n found => ⟨n,by rw [inodes]; exact found,rfl⟩) f x pos)

theorem create_held {size : BitVec 32} (holds : Holds s L a) (string : 0#8 ∉ name) (nonnegative : 0 ≤ size.toInt) {ok : Bool}
    (ran : filesys_create s name size = some (ok,s')) :
    ∃ L' a', a.Answers (.filesys_create name size) (.success ok) a' ∧ Holds s' L' a' := by
  obtain ⟨ok',s₁,ran',steady,files,map_file,inodes,failed,done⟩ := filesys_create_spec holds.sane string nonnegative
  rw [ran] at ran'
  cases ran'
  cases ok with
  | false =>
    obtain ⟨sane',spared,-⟩ := failed rfl
    exact ⟨L,a,rfl,holds_spared holds steady sane' spared files map_file inodes⟩
  | true =>
    obtain ⟨x,i,k,made,sane'⟩ := done rfl
    obtain ⟨free,absent⟩ := made.absent holds.plenty
    have others : ∀ y j, y ≠ x → L y = some j → y ≠ FREE_MAP_SECTOR → y ≠ ROOT_DIR_SECTOR →
        file_bytes s'.fs_device j = file_bytes s.fs_device j := by
      intro y j other owned notMap notRoot
      refine file_bytes_same holds.sane.ledger owned fun z inside => made.outside z ?_ ?_ ?_ ?_
      · rintro rfl
        exact made.alone y j owned (.inr inside)
      · exact holds.sane.ledger.used y j owned z (.inr inside)
      · exact fun m mine within => holds.sane.ledger.apart y _ j m owned mine notRoot z (.inr inside) (.inr within)
      · exact fun m mine within => holds.sane.ledger.apart y _ j m owned mine notMap z (.inr inside) (.inr within)
    have zeros : file_bytes s'.fs_device i = List.replicate (off_t size) 0#8 := by
      rw [file_bytes,made.length]
      refine List.eq_replicate_iff.mpr ⟨by rw [List.length_map,List.length_range],fun b member => ?_⟩
      obtain ⟨pos,inside,rfl⟩ := List.mem_map.mp member
      have below : pos < off_t i.length := by rw [made.length]; exact List.mem_range.mp inside
      rw [content,made.zero _ (extent_pos sane'.ledger (Function.update_self x (some i) L) below)]
    refine ⟨Function.update L x (some i),_,⟨List.length_pos_iff.mpr made.named.1,made.named.2,(names_none holds).mpr absent,
        room_held holds made.below free,x,unused_held holds made.unused,rfl⟩,
      sane',steady.plenty holds.plenty,fun f u file => holds.allows f u (files ▸ file),fun other y => ?_,fun y j owned notMap notRoot => ?_,
      fun f y pos => (holds.handles f y pos).trans (at_same holds.sane files map_file (fun b n found => ⟨n,by rw [inodes]; exact found,rfl⟩) f y pos)⟩
    · show Function.update a.names name (some x) other = some y ↔ _
      by_cases same : other = name
      · subst same
        rw [Function.update_self]
        constructor
        · intro here
          cases here
          exact ⟨k,made.below,made.entry,made.sector⟩
        · rintro ⟨l,below,entry,rfl⟩
          by_cases here : l = k
          · rw [here,made.sector]
          · rw [made.others l below here] at entry
            exact absurd entry (absent l below)
      · rw [Function.update_of_ne same,holds.names,Named,Named]
        refine exists_congr fun l => and_congr_right fun below => ?_
        by_cases here : l = k
        · subst here
          constructor
          · rintro ⟨entry,-⟩
            exact absurd (free.symm.trans entry.1) Bool.false_ne_true
          · rintro ⟨entry,-⟩
            exact absurd (entry.2.trans made.entry.2.symm) same
        · rw [made.others l below here]
    · show Function.update a.files x _ y = _
      by_cases same : y = x
      · subst same
        rw [Function.update_self] at owned ⊢
        cases owned
        exact zeros.symm
      · rw [Function.update_of_ne same] at owned ⊢
        rw [holds.files y j owned notMap notRoot]
        exact (others y j same owned notMap notRoot).symm

/-- An inode that a call takes is where it was, or new. -/
theorem takes_sectors {t : Tables} {inodes : Nat → Option Inode} {b : Nat} (takes : Takes t inodes b x i) :
    (∃ n, inodes b = some n ∧ n.sector = x) ∧ ∀ c n, t.inodes c = some n → ∃ m, inodes c = some m ∧ m.sector = n.sector := by
  rcases takes with ⟨m,found,sector,-,rfl⟩ | ⟨none_,-,rfl⟩
  · refine ⟨⟨_,Function.update_self ..,sector⟩,fun c n before => ?_⟩
    by_cases same : c = b
    · subst same
      rw [found] at before
      cases before
      exact ⟨_,Function.update_self ..,rfl⟩
    · exact ⟨n,by rw [Function.update_of_ne same]; exact before,rfl⟩
  · refine ⟨⟨_,Function.update_self ..,rfl⟩,fun c n before => ⟨n,?_,rfl⟩⟩
    rw [Function.update_of_ne fun same => by rw [same,none_] at before; cases before]
    exact before

theorem open_held (holds : Holds s L a) {answer : Option Nat} (ran : filesys_open s name = some (answer,s')) :
    ∃ a', a.Answers (.filesys_open name) (.file answer) a' ∧ Holds s' L a' := by
  obtain ⟨answer',s₁,ran',steady,device,map,map_file,sane',failed,done⟩ := filesys_open_spec holds.sane name
  rw [ran] at ran'
  cases ran'
  cases answer with
  | none =>
    obtain ⟨files,inodes,absent⟩ := failed rfl
    refine ⟨a,⟨(names_none holds).mpr (absent holds.plenty),rfl⟩,
      holds_spared holds steady sane' (fun z _ _ => by rw [device]) files map_file inodes⟩
  | some f =>
    obtain ⟨b,k,made⟩ := done f rfl
    obtain ⟨i,owned,takes⟩ := made.inode
    obtain ⟨⟨n,found,sector⟩,others⟩ := takes_sectors takes
    have unheld : a.handles f = none := Option.eq_none_iff_forall_ne_some.mpr fun place handle => by
      obtain ⟨-,u,-,file,-⟩ := (holds.handles f place.1 place.2).mp handle
      rw [made.unused.1] at file
      cases file
    refine ⟨_,⟨_,(holds.names name _).mpr ⟨k,made.below,made.entry,rfl⟩,unheld,rfl⟩,sane',steady.plenty holds.plenty,
      fun g u file => ?_,
      fun other y => (holds.names other y).trans (named_same (fun l _ => by rw [device]) other y),fun y j owned => by rw [device]; exact holds.files y j owned,fun g y pos => ?_⟩
    · rw [made.files] at file
      by_cases same : g = f
      · subst same
        rw [Function.update_self] at file
        cases file
        rfl
      · rw [Function.update_of_ne same] at file
        exact holds.allows g u file
    · show Function.update a.handles f _ g = some (y,pos) ↔ _
      rw [At,made.files,map_file]
      by_cases same : g = f
      · subst same
        rw [Function.update_self,Function.update_self]
        constructor
        · intro here
          cases here
          exact ⟨made.unused.2,_,n,rfl,found,sector,rfl⟩
        · rintro ⟨-,u,m,file,found',rfl,rfl⟩
          cases file
          rw [found] at found'
          cases found'
          rw [sector]
      · rw [Function.update_of_ne same,Function.update_of_ne same,holds.handles,← map_file]
        have files : ({ s' with files := s.files } : FileSystem).files = s.files := rfl
        exact at_same holds.sane files map_file others g y pos

theorem remove_held (holds : Holds s L a) {ok : Bool} (ran : filesys_remove s name = some (ok,s')) :
    ∃ L' a', a.Answers (.filesys_remove name) (.success ok) a' ∧ Holds s' L' a' := by
  obtain ⟨ok',s₁,ran',steady,files,map_file,failed,done⟩ := filesys_remove_spec holds.sane name
  rw [ran] at ran'
  cases ran'
  cases ok with
  | false =>
    obtain ⟨device,map,inodes,sane',absent⟩ := failed rfl
    have none_ : a.names name = none := (names_none holds).mpr (absent holds.plenty)
    refine ⟨L,a,⟨by rw [none_]; rfl,?_⟩,holds_spared holds steady sane' (fun z _ _ => by rw [device]) files map_file inodes⟩
    rw [← none_,Function.update_eq_self]
  | true =>
    obtain ⟨k,L',entry,gone,sane'⟩ := done rfl
    have named : a.names name = some _ := (holds.names name _).mpr ⟨k,gone.below,entry,rfl⟩
    have fewer : ∀ x i, L' x = some i → L x = some i := by
      intro x i owned
      by_cases shared : ∃ b n, s.inodes b = some n ∧ n.sector = (slot s.fs_device k).inode_sector.toNat
      · rw [← gone.kept shared]
        exact owned
      · rw [gone.gone fun b n found same => shared ⟨b,n,found,same⟩] at owned
        rw [← owned,Function.update_of_ne]
        rintro rfl
        rw [Function.update_self] at owned
        cases owned
    refine ⟨L',_,⟨by rw [named]; rfl,rfl⟩,sane',steady.plenty holds.plenty,fun f u file => holds.allows f u (files ▸ file),fun other y => ?_,
      fun x i owned notMap notRoot => ?_,fun f x pos => ?_⟩
    · show Function.update a.names name none other = some y ↔ _
      by_cases same : other = name
      · subst same
        rw [Function.update_self]
        refine ⟨fun none_ => (by cases none_),?_⟩
        rintro ⟨l,below,entry',-⟩
        by_cases here : l = k
        · rw [here] at entry'
          exact absurd (gone.here.symm.trans entry'.1) Bool.false_ne_true
        · rw [gone.others l below here] at entry'
          have one := (holds.names other _).mpr ⟨l,below,entry',rfl⟩
          rw [named] at one
          exact absurd (holds.sane.root.once l below k gone.below entry'.1 entry.1 (Option.some.inj one).symm) here
      · rw [Function.update_of_ne same,holds.names,Named,Named]
        refine exists_congr fun l => and_congr_right fun below => ?_
        by_cases here : l = k
        · rw [here]
          constructor
          · exact fun entry' => absurd (entry'.1.2.trans entry.2.symm) same
          · exact fun entry' => absurd (gone.here.symm.trans entry'.1.1) Bool.false_ne_true
        · rw [gone.others l below here]
    · have before := fewer x i owned
      show a.files x = _
      rw [holds.files x i before notMap notRoot]
      refine (file_bytes_same holds.sane.ledger before fun z inside => gone.outside z (fun j theirs within => ?_) fun m mine within => ?_).symm
      · exact holds.sane.ledger.apart x _ i j before theirs notRoot z (.inr inside) (.inr within)
      · exact holds.sane.ledger.apart x _ i m before mine notMap z (.inr inside) (.inr within)
    · refine (holds.handles f x pos).trans (at_same holds.sane files map_file (fun b n found => ⟨_,by rw [gone.inodes,found]; rfl,?_⟩) f x pos)
      show (if n.sector = _ then { n with removed := true } else n).sector = n.sector
      split
      · rfl
      · rfl

/-- One handle moves. -/
theorem handles_move (holds : Holds s L a) (file : s.files f = some u) (found : s.inodes u.inode = some n)
    (user : s.free_map_file ≠ some f) {pos : Nat}
    (files : s'.files = Function.update s.files f (some { u with pos := pos })) (inodes : s'.inodes = s.inodes)
    (map_file : s'.free_map_file = s.free_map_file) (g z p : Nat) :
    Function.update a.handles f (some (n.sector,pos)) g = some (z,p) ↔ At s' g z p := by
  rw [At,files,inodes,map_file]
  by_cases same : g = f
  · subst same
    rw [Function.update_self,Function.update_self]
    constructor
    · intro here
      cases here
      exact ⟨user,_,n,rfl,found,rfl,rfl⟩
    · rintro ⟨-,v,m,after,found',rfl,rfl⟩
      cases after
      rw [found] at found'
      cases found'
      rfl
  · rw [Function.update_of_ne same,Function.update_of_ne same]
    exact holds.handles g z p

theorem allows_move (holds : Holds s L a) (file : s.files f = some u) {pos : Nat}
    (files : s'.files = Function.update s.files f (some { u with pos := pos }))
    (g : Nat) (v : File) (after : s'.files g = some v) : v.deny_write = false := by
  rw [files] at after
  by_cases same : g = f
  · subst same
    rw [Function.update_self] at after
    cases after
    exact holds.allows g u file
  · rw [Function.update_of_ne same] at after
    exact holds.allows g v after

theorem read_held (holds : Holds s L a) (handle : Handle s f) {size : BitVec 32} {bytes : List Byte}
    (ran : file_read s f size = some (bytes,s')) :
    ∃ a', a.Answers (.file_read f size) (.bytes bytes) a' ∧ Holds s' L a' := by
  obtain ⟨u,n,file,found,owned,user,here⟩ := handle_held holds handle
  obtain ⟨n',bytes',found',whole,ran',sane'⟩ := file_read_spec holds.sane file handle.2 size
  rw [ran] at ran'
  cases ran'
  rw [found] at found'
  cases found'
  rw [holds.plenty.1 0,transferred_true,← file_bytes_part,← holds.files _ _ owned user.1 user.2] at whole
  exact ⟨_,⟨_,_,here,whole,rfl⟩,sane',⟨fun k => holds.plenty.1 (k + 1),holds.plenty.2⟩,allows_move holds file rfl,
    holds.names,holds.files,
    handles_move holds file found handle.2 rfl rfl rfl⟩

theorem seek_held (holds : Holds s L a) (handle : Handle s f) {new_pos : BitVec 32} (nonnegative : 0 ≤ new_pos.toInt)
    (ran : file_seek s f new_pos = some s') : ∃ a', a.Answers (.file_seek f new_pos) .nothing a' ∧ Holds s' L a' := by
  obtain ⟨u,n,file,found,owned,user,here⟩ := handle_held holds handle
  obtain ⟨ran',sane'⟩ := file_seek_spec holds.sane file handle.2 nonnegative
  rw [ran] at ran'
  cases ran'
  exact ⟨_,⟨_,_,here,rfl⟩,sane',holds.plenty,allows_move holds file rfl,holds.names,holds.files,
    handles_move holds file found handle.2 rfl rfl rfl⟩

theorem write_held (holds : Holds s L a) (handle : Handle s f) {buffer : Nat → Byte} {size : BitVec 32} {amount : Nat}
    (ran : file_write s f buffer size = some (amount,s')) :
    ∃ a', a.Answers (.file_write f buffer size) (.count amount) a' ∧ Holds s' L a' := by
  obtain ⟨u,n,file,found,owned,user,here⟩ := handle_held holds handle
  obtain ⟨n',amount',d',found',many,ran',written,-,sane',steady⟩ := file_write_spec holds.sane file handle.2 buffer size
  rw [ran] at ran'
  cases ran'
  rw [found] at found'
  cases found'
  -- No file denies writes.
  have writable : n.deny_write_cnt = 0 := by
    rw [holds.sane.opened.deny _ n found,denials,List.countP_eq_zero]
    intro g _ denies
    obtain ⟨v,file',both⟩ := (Option.any_eq_true _ _).mp denies
    rw [holds.allows g v file',Bool.and_false] at both
    cases both
  rw [if_pos writable,holds.plenty.1 0,transferred_true] at many
  subst many
  have contents : a.files n.sector = file_bytes s.fs_device n.data := holds.files _ _ owned user.1 user.2
  obtain ⟨-,-,outside,slots⟩ := sane_write holds.sane owned user written
  refine ⟨_,⟨_,_,here,by rw [contents,file_bytes_length]; rfl,rfl⟩,sane',steady.plenty holds.plenty,allows_move holds file rfl,
    fun other y => ?_,fun y j owned' notMap notRoot => ?_,handles_move holds file found handle.2 rfl rfl rfl⟩
  · refine (holds.names other y).trans (exists_congr fun l => and_congr_right fun below => ?_)
    rw [← slots l below]
  show Function.update a.files n.sector _ y = _
  by_cases same : y = n.sector
  · subst same
    rw [owned] at owned'
    cases owned'
    rw [Function.update_self,contents]
    exact (file_bytes_written written).symm
  · rw [Function.update_of_ne same,holds.files y j owned' notMap notRoot]
    exact (file_bytes_same holds.sane.ledger owned' fun z inside => outside z fun also =>
      holds.sane.ledger.apart y _ j n.data owned' owned same z (.inr inside) (.inr also)).symm

theorem close_held (holds : Holds s L a) (handle : Handle s f) (ran : file_close s f = some s') :
    ∃ L' a', a.Answers (.file_close f) .nothing a' ∧ Holds s' L' a' := by
  obtain ⟨u,n,file,found,owned,user,here⟩ := handle_held holds handle
  obtain ⟨n',s₁,found',ran',steady,sane',dropped⟩ := file_close_spec holds.sane file handle.2
  rw [ran] at ran'
  cases ran'
  rw [found] at found'
  cases found'
  have fewer : ∀ x i, closed L n x = some i → L x = some i := by
    intro x i owned
    rw [closed] at owned
    split at owned
    · by_cases same : x = n.sector
      · rw [same,Function.update_self] at owned
        cases owned
      · rw [Function.update_of_ne same] at owned
        exact owned
    · exact owned
  have spared : Spared s s' L := fun z _ out => dropped.outside z out
  refine ⟨_,_,⟨by rw [here]; exact Option.some_ne_none _,rfl⟩,sane',steady.plenty holds.plenty,fun g v after => ?_,
    fun other y => (holds.names other y).trans (named_same (fun l below => slot_spared holds.sane.ledger holds.sane.root.root spared below) other y),
    fun x i owned' notMap notRoot => ?_,fun g y pos => ?_⟩
  · rw [dropped.files] at after
    by_cases same : g = f
    · rw [same,Function.update_self] at after
      cases after
    · rw [Function.update_of_ne same] at after
      exact holds.allows g v after
  · have before := fewer x i owned'
    show a.files x = _
    rw [holds.files x i before notMap notRoot]
    exact (file_bytes_same holds.sane.ledger before fun z inside => dropped.outside z fun m mine within =>
      holds.sane.ledger.apart x _ i m before mine notMap z (.inr inside) (.inr within)).symm
  · show Function.update a.handles f none g = some (y,pos) ↔ _
    rw [At,dropped.files,dropped.map_file]
    by_cases same : g = f
    · subst same
      rw [Function.update_self,Function.update_self]
      constructor
      · intro none_
        cases none_
      · rintro ⟨-,v,m,after,-⟩
        cases after
    · rw [Function.update_of_ne same,Function.update_of_ne same,holds.handles,At]
      refine and_congr_right fun _ => exists_congr fun v => ?_
      have here' : s'.files g = s.files g := by rw [dropped.files,Function.update_of_ne same]
      by_cases shared : v.inode = u.inode
      · -- While another handle has it, the inode stays.
        constructor
        · rintro ⟨m,file',found',rfl,rfl⟩
          rw [shared,found] at found'
          cases found'
          by_cases last : n.open_cnt = 1
          · exact absurd (by rw [shared]; exact (dropped.last last).1) (sane'.opened.file g v (here'.trans file'))
          · obtain ⟨p,found',sector,-⟩ := dropped.more last
            exact ⟨p,file',by rw [shared]; exact found',sector,rfl⟩
        · rintro ⟨p,file',found',rfl,rfl⟩
          rw [shared] at found'
          by_cases last : n.open_cnt = 1
          · rw [(dropped.last last).1] at found'
            cases found'
          · obtain ⟨p',found'',sector,-⟩ := dropped.more last
            rw [found'] at found''
            cases found''
            exact ⟨n,file',by rw [shared]; exact found,sector.symm,rfl⟩
      · rw [dropped.others _ shared]

/-! ### From the boot on -/

theorem write_at_memory {bounce : Bool} {inode size offset : Nat} {buffer : Nat → Byte} {r : Nat × FileSystem}
    (ran : write_at s bounce inode buffer size offset = some r) (plenty : Plenty s) : Plenty r.2 := by
  obtain ⟨n,-,wrote⟩ := Option.bind_eq_some_iff.mp ran
  split at wrote
  · cases wrote
    exact plenty
  · obtain ⟨⟨written,d⟩,-,later⟩ := Option.bind_eq_some_iff.mp wrote
    cases later
    exact plenty

theorem bitmap_write_memory {r : Bool × FileSystem} (ran : bitmap_write s f = some r) (plenty : Plenty s) : Plenty r.2 := by
  obtain ⟨u,-,wrote⟩ := Option.bind_eq_some_iff.mp ran
  obtain ⟨⟨written,s₁⟩,writes,later⟩ := Option.bind_eq_some_iff.mp wrote
  cases later
  exact write_at_memory writes ⟨plenty.1,fun n => plenty.2 (n + 1)⟩

theorem free_map_allocate_memory {cnt : Nat} {r : Option Nat × FileSystem} (ran : free_map_allocate s cnt = some r)
    (plenty : Plenty s) :
    Plenty r.2 := by
  obtain ⟨⟨sector,map⟩,-,rest⟩ := Option.bind_eq_some_iff.mp ran
  dsimp only at rest
  split at rest
  · obtain ⟨⟨written,s₁⟩,writes,later⟩ := Option.bind_eq_some_iff.mp rest
    have kept := bitmap_write_memory writes plenty
    dsimp only at later
    split at later
    · cases later
      exact kept
    · obtain ⟨map',-,last⟩ := Option.bind_eq_some_iff.mp later
      cases last
      exact kept
  · cases rest
    exact plenty

theorem free_map_release_memory {sector cnt : Nat} (ran : free_map_release s sector cnt = some s') (plenty : Plenty s) :
    Plenty s' := by
  obtain ⟨used,-,rest⟩ := Option.bind_eq_some_iff.mp ran
  split at rest
  · obtain ⟨map,-,rest⟩ := Option.bind_eq_some_iff.mp rest
    obtain ⟨file,-,rest⟩ := Option.bind_eq_some_iff.mp rest
    obtain ⟨⟨written,s₁⟩,writes,last⟩ := Option.bind_eq_some_iff.mp rest
    cases last
    exact bitmap_write_memory writes plenty
  · cases rest

theorem inode_create_memory {sector : Nat} {length : BitVec 32} {r : Bool × FileSystem}
    (ran : inode_create s sector length = some r)
    (plenty : Plenty s) : Plenty r.2 := by
  have fewer : Plenty (forget s 1) := ⟨fun n => plenty.1 (n + 1),plenty.2⟩
  rw [inode_create] at ran
  split at ran
  · cases ran
  · rw [malloc_eq] at ran
    simp only [plenty.1 0,if_true] at ran
    obtain ⟨⟨start,s₁⟩,allocates,rest⟩ := Option.bind_eq_some_iff.mp ran
    have kept := free_map_allocate_memory allocates fewer
    cases start with
    | none =>
      cases rest
      exact kept
    | some start =>
      obtain ⟨d,-,rest⟩ := Option.bind_eq_some_iff.mp rest
      obtain ⟨d',-,rest⟩ := Option.bind_eq_some_iff.mp rest
      cases rest
      exact kept

theorem inode_open_memory {sector : Nat} {r : Option Nat × FileSystem} (ran : inode_open s sector = some r)
    (plenty : Plenty s) : Plenty r.2 := by
  have fewer : Plenty (forget s 1) := ⟨fun n => plenty.1 (n + 1),plenty.2⟩
  rw [inode_open] at ran
  split at ran
  · obtain ⟨s₁,reopens,later⟩ := Option.map_eq_some_iff.mp ran
    obtain ⟨n,-,rest⟩ := Option.bind_eq_some_iff.mp reopens
    cases rest
    cases later
    exact plenty
  · rw [malloc_eq] at ran
    simp only [plenty.1 0,if_true] at ran
    obtain ⟨buffer,-,rest⟩ := Option.bind_eq_some_iff.mp ran
    cases rest
    exact fewer

theorem inode_close_memory {b : Nat} (ran : inode_close s b = some s') (plenty : Plenty s) : Plenty s' := by
  obtain ⟨n,-,rest⟩ := Option.bind_eq_some_iff.mp ran
  split at rest
  · dsimp only at rest
    split at rest
    · obtain ⟨s₁,frees,later⟩ := Option.bind_eq_some_iff.mp rest
      cases later
      obtain ⟨s₂,first,second⟩ := Option.bind_eq_some_iff.mp frees
      have released : Plenty s₁ := free_map_release_memory second (free_map_release_memory first plenty)
      exact released
    · cases rest
      exact plenty
  · cases rest
    exact plenty

theorem file_close_memory (ran : file_close s f = some s') (plenty : Plenty s) : Plenty s' := by
  obtain ⟨s₁,allows,rest⟩ := Option.bind_eq_some_iff.mp ran
  obtain ⟨v,-,rest⟩ := Option.bind_eq_some_iff.mp rest
  obtain ⟨s₂,closes,rest⟩ := Option.bind_eq_some_iff.mp rest
  cases rest
  have allowed : Plenty s₁ := by
    obtain ⟨u,-,rest⟩ := Option.bind_eq_some_iff.mp allows
    split at rest
    · obtain ⟨n,-,rest⟩ := Option.bind_eq_some_iff.mp rest
      split at rest
      · cases rest
        exact plenty
      · cases rest
    · cases rest
      exact plenty
  have closed : Plenty s₂ := inode_close_memory closes allowed
  exact closed

theorem open_map_memory {r : Nat × FileSystem} (ran : open_map s = some r) (plenty : Plenty s) : Plenty r.2 := by
  obtain ⟨⟨inode,s₁⟩,opens,rest⟩ := Option.bind_eq_some_iff.mp ran
  obtain ⟨⟨file,s₂⟩,files,rest⟩ := Option.bind_eq_some_iff.mp rest
  obtain ⟨file,there,rest⟩ := Option.bind_eq_some_iff.mp rest
  cases rest
  have kept : Plenty s₁ := inode_open_memory opens plenty
  subst there
  rw [file_open,malloc_eq] at files
  dsimp only at files
  cases inode with
  | none => cases files
  | some b =>
    simp only [kept.1 0,if_true] at files
    cases files
    exact ⟨fun n => kept.1 (n + 1),kept.2⟩

theorem file_read_at_memory {size file_ofs : Nat} {r : List Byte × FileSystem}
    (ran : file_read_at s f size file_ofs = some r) (plenty : Plenty s) :
    Plenty r.2 := by
  obtain ⟨u,-,reads⟩ := Option.bind_eq_some_iff.mp ran
  obtain ⟨n,-,reads⟩ := Option.bind_eq_some_iff.mp reads
  obtain ⟨bytes,-,last⟩ := Option.bind_eq_some_iff.mp reads
  cases last
  exact ⟨fun n => plenty.1 (n + 1),plenty.2⟩

theorem filesys_init_memory {boot : FileSystem} (ran : filesys_init true boot = some s) (plenty : Plenty boot) : Plenty s := by
  obtain ⟨s₁,inits,rest⟩ := Option.bind_eq_some_iff.mp ran
  obtain ⟨s₅,formats,opens⟩ := Option.bind_eq_some_iff.mp rest
  have kept₁ : Plenty s₁ := by
    obtain ⟨-,map,rfl,-⟩ := free_map_init_spec inits
    exact ⟨fun n => plenty.1 (n + 2),plenty.2⟩
  have kept₅ : Plenty s₅ := by
    obtain ⟨s₂,creates,rest⟩ := Option.bind_eq_some_iff.mp formats
    obtain ⟨⟨created,s₃⟩,root,rest⟩ := Option.bind_eq_some_iff.mp rest
    have kept₂ : Plenty s₂ := by
      obtain ⟨⟨created,t₁⟩,makes,later⟩ := Option.bind_eq_some_iff.mp creates
      have one := inode_create_memory makes kept₁
      dsimp only at later
      split at later
      · obtain ⟨⟨file,t₂⟩,opens',writes⟩ := Option.bind_eq_some_iff.mp later
        obtain ⟨⟨written,t₃⟩,wrote,last⟩ := Option.bind_eq_some_iff.mp writes
        have two := bitmap_write_memory wrote (open_map_memory opens' one)
        dsimp only at last
        split at last
        · cases last
          exact two
        · cases last
      · cases later
    have kept₃ : Plenty s₃ := inode_create_memory root kept₂
    dsimp only at rest
    split at rest
    · obtain ⟨file,-,closes⟩ := Option.bind_eq_some_iff.mp rest
      exact file_close_memory closes kept₃
    · cases rest
  obtain ⟨⟨file,t₁⟩,maps,rest⟩ := Option.bind_eq_some_iff.mp opens
  obtain ⟨⟨read,t₂⟩,reads,last⟩ := Option.bind_eq_some_iff.mp rest
  have one : Plenty t₁ := open_map_memory maps kept₅
  dsimp only at last
  split at last
  · cases last
    rw [bitmap_read] at reads
    dsimp only at reads
    split at reads
    · obtain ⟨⟨bytes,t₃⟩,asked,last⟩ := Option.bind_eq_some_iff.mp reads
      cases last
      have two : Plenty t₃ := file_read_at_memory asked one
      exact two
    · cases reads
      exact one
  · cases last

theorem init_held {boot : FileSystem} (plenty : Plenty boot) (ran : filesys_init true boot = some s) :
    ∃ L a, store.Initial a ∧ Holds s L a := by
  obtain ⟨L,formatted⟩ := filesys_init_format ran
  have nothing : ∀ f x pos, ¬ At s f x pos := by
    rintro f x pos ⟨user,u,n,file,-⟩
    exact user (formatted.unhandled f (by rw [file]; exact Option.some_ne_none u))
  refine ⟨L,{ names := fun _ => none, files := fun x => (L x).elim [] (file_bytes s.fs_device), handles := fun _ => none },⟨rfl,rfl⟩,formatted.sane,
    filesys_init_memory ran plenty,fun f u file => ?_,fun name x => ⟨fun none_ => (by cases none_),?_⟩,fun x i owned _ _ => ?_,
    fun f x pos => ⟨fun none_ => (by cases none_),fun handle => absurd handle (nothing f x pos)⟩⟩
  · obtain ⟨g,v,n,map_file,file',allows,-⟩ := formatted.sane.mapped
    have same := formatted.unhandled f (by rw [file]; exact Option.some_ne_none u)
    rw [show s.free_map_file = some g from map_file] at same
    cases same
    rw [show s.files f = some v from file'] at file
    cases file
    exact allows
  · rintro ⟨k,below,entry,-⟩
    exact absurd ((formatted.unnamed k below).symm.trans entry.1) Bool.false_ne_true
  · show (L x).elim [] _ = _
    rw [owned]
    rfl

/-- Every call is answered as the store answers it. -/
theorem call_held (holds : Holds s L a) {c : Call} {answer : Answer} (lawful : Lawful s c) (ran : call s c = some (answer,s')) :
    ∃ L' a', a.Answers c answer a' ∧ Holds s' L' a' := by
  cases c with
  | filesys_create name initial_size =>
    obtain ⟨⟨ok,s₁⟩,created,same⟩ := Option.map_eq_some_iff.mp ran
    cases same
    exact create_held holds lawful.1 lawful.2 created
  | filesys_open name =>
    obtain ⟨⟨f,s₁⟩,opened,same⟩ := Option.map_eq_some_iff.mp ran
    cases same
    exact ⟨L,open_held holds opened⟩
  | filesys_remove name =>
    obtain ⟨⟨ok,s₁⟩,removed,same⟩ := Option.map_eq_some_iff.mp ran
    cases same
    exact remove_held holds removed
  | file_read file size =>
    obtain ⟨⟨bytes,s₁⟩,reads,same⟩ := Option.map_eq_some_iff.mp ran
    cases same
    exact ⟨L,read_held holds lawful reads⟩
  | file_write file buffer size =>
    obtain ⟨⟨n,s₁⟩,writes,same⟩ := Option.map_eq_some_iff.mp ran
    cases same
    exact ⟨L,write_held holds lawful writes⟩
  | file_seek file new_pos =>
    obtain ⟨s₁,seeks,same⟩ := Option.map_eq_some_iff.mp ran
    cases same
    exact ⟨L,seek_held holds lawful.1 lawful.2 seeks⟩
  | file_close file =>
    obtain ⟨s₁,closes,same⟩ := Option.map_eq_some_iff.mp ran
    cases same
    exact close_held holds lawful closes

theorem store_simulates : Simulates plentiful store fun s a => ∃ L, Holds s L a where
  initial s := by
    rintro ⟨boot,plenty,ran⟩
    obtain ⟨L,a,initial,holds⟩ := init_held plenty ran
    exact ⟨a,initial,L,holds⟩
  step s event s' a := by
    rintro ⟨L,holds⟩ ⟨lawful,ran⟩
    obtain ⟨L',a',answers,holds'⟩ := call_held holds lawful ran
    exact ⟨a',answers,L',holds'⟩

/-- The calls of every run are answered as a store answers them, and every call returns. -/
theorem file_system_refines_store {events : List (Call × Answer)} (ran : Shows plentiful events s) :
    (∃ a, Shows store events a) ∧ ∀ c, Lawful s c → ∃ answer s', call s c = some (answer,s') := by
  obtain ⟨a,shown,L,holds⟩ := simulated_run store_simulates ran
  refine ⟨⟨a,shown⟩,fun c lawful => ?_⟩
  obtain ⟨answer,s',returns,-⟩ := call_spec holds.sane lawful
  exact ⟨answer,s',returns⟩

theorem calls_shown (list : List Call) {events : List (Call × Answer)} (before : Shows plentiful events s)
    (ran : calls (fun _ _ => True) list s = some s') :
    ∃ later, later.map Prod.fst = list ∧ Shows plentiful (events ++ later) s' := by
  induction list generalizing s events with
  | nil =>
    cases ran
    exact ⟨[],rfl,by rw [List.append_nil]; exact before⟩
  | cons c rest ih =>
    rw [calls] at ran
    split at ran
    · next meets =>
      obtain ⟨⟨answer,s₁⟩,first,ran⟩ := Option.bind_eq_some_iff.mp ran
      obtain ⟨later,same,shown⟩ := ih (.next (e := (c,answer)) before ⟨meets.1,first⟩) ran
      exact ⟨(c,answer) :: later,congrArg (c :: ·) same,by rw [List.append_cons]; exact shown⟩
    · cases ran
end

/-- A file is removed while it is open, another is created under its name, and the first
    is written and read. -/
def outlives : List Call :=
  [.filesys_create [97#8] 600#32,.filesys_open [97#8],.filesys_remove [97#8],.filesys_create [97#8] 3#32,.file_write 7 (fun k => BitVec.ofNat 8 k) 4#32,
    .file_seek 7 1#32,.file_read 7 2#32,.file_close 7]

theorem file_system_refines_store_outlives : ∃ events s a, events.map Prod.fst = outlives ∧ Shows plentiful events s ∧
    Shows store events a := by
  have ran : ((filesys_init true boot).bind (calls (fun _ _ => True) outlives)).isSome = true := by decide +kernel
  obtain ⟨s,ran⟩ := Option.isSome_iff_exists.mp ran
  obtain ⟨s₀,initial,ran⟩ := Option.bind_eq_some_iff.mp ran
  obtain ⟨events,same,shown⟩ := calls_shown outlives (.start ⟨boot,⟨fun _ => rfl,fun _ => rfl⟩,initial⟩) ran
  obtain ⟨⟨a,answered⟩,-⟩ := file_system_refines_store shown
  exact ⟨events,s,a,same,shown,answered⟩

end Pintos.FileSystem
