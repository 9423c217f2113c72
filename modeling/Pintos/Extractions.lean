import Pintos.Archives

/-!
`fsutil_extract` of what a list of appends left: every member is created as it was. What comes behind the
members decides whether the loop stops there.
-/
namespace Pintos.Archives
open Pintos.FileSystem Pintos.Ustar Pintos.Fsutil Pintos.Machines Pintos.Simulations
open Pintos.Bitmaps (Byte)
set_option linter.unusedSimpArgs false

/-- From sector `k` on are headers of directories, and then one of zeros. -/
inductive Fileless (d : Device) : Nat → Prop
  | stop {k : Nat} {file_name : Option (List Byte)} {size : BitVec 32} (inside : k < d.size)
    (parsed : ustar_parse_header (d.data k) = .ok (file_name,.USTAR_EOF,size)) : Fileless d k
  | skip {k : Nat} {file_name : Option (List Byte)} {size : BitVec 32} (inside : k < d.size)
    (parsed : ustar_parse_header (d.data k) = .ok (file_name,.USTAR_DIRECTORY,size)) (rest : Fileless d (k + 1)) : Fileless d k

/-- What the loop does with the header that it has read. -/
def turn (n : Nat) (u : State) : Except String (Option (List Byte) × UstarType × BitVec 32) → Option State
  | .error _ => none
  | .ok (_,.USTAR_EOF,_) => some u
  | .ok (_,.USTAR_DIRECTORY,_) => extractLoop n u
  | .ok (file_name,.USTAR_REGULAR,size) => file_name.bind fun name => (put_file u name size).bind (extractLoop n)

/-- A kernel that has just started. -/
def start (fs : FileSystem) (d : Device) : State where
  fs := fs
  scratch := d
  append_sector := 0
  extract_sector := 0
  sources := []

/-- Files of `s`, each with the memory of the buffer that its append gets, a scratch device with enough sectors
    for them, and a newly formatted file system `t` with enough space. -/
structure Archivable (s t : FileSystem) (d : Device) (files : List ((Nat → Byte) × List Byte × List Byte)) : Prop where
  source : ∃ events, Shows plentiful events s
  there : ∀ f ∈ files, Has s f.2.1 f.2.2
  plain : ∀ f ∈ files, strip_antisocial_prefixes f.2.1 = f.2.1
  distinct : (files.map fun f => f.2.1).Nodup
  sectors : extent (files.map Prod.snd) < d.size ∧ 2 ≤ d.size
  fresh : ∃ boot, Plenty boot ∧ filesys_init true boot = some t
  space : Room t (extent (files.map Prod.snd))

/-- The files are appended one after another, and then extracted by another kernel: it has exactly these. -/
def RoundTrip (s t : FileSystem) (d : Device) (files : List ((Nat → Byte) × List Byte × List Byte)) : Prop :=
  ∃ u v, appends (files.map fun f => (f.1,f.2.1)) (start s d) = some u ∧ fsutil_extract (start t u.scratch) = some v ∧
    ∀ name bytes, Has v.fs name bytes ↔ (name,bytes) ∈ files.map Prod.snd

/-- The byte after the buffer of the last append is zero. Where there is none, the device has no file. -/
def Closing (d : Device) (files : List ((Nat → Byte) × List Byte × List Byte)) : Prop :=
  match files.getLast? with
    | none => Fileless d 0
    | some f => f.1 BLOCK_SECTOR_SIZE = 0#8

section
variable {v v' : State} {s s' : FileSystem} {L : Nat → Option InodeDisk} {a a' : Store} {d : Device} {name file bytes part : List Byte}
  {files : List (List Byte × List Byte)} {k m n x pos size dst : Nat}

/-! ### The bytes of a member -/

theorem patch_length (inside : pos + part.length ≤ file.length) : (patch file pos part).length = file.length := by
  rw [patch,List.length_append,List.length_append,List.length_take,List.length_drop]
  omega

theorem patch_take (inside : pos ≤ file.length) : (patch file pos part).take (pos + part.length) = file.take pos ++ part := by
  have front : (file.take pos ++ part).length = pos + part.length := by
    rw [List.length_append,List.length_take]
    omega
  rw [patch,List.take_left' front]

/-- Nothing is left to copy. -/
theorem copyLoop_end (n : Nat) (holds : Holds v.fs L a) (here : a.handles dst = some (x,pos))
    (length : (a.files x).length = bytes.length) (before : (a.files x).take pos = bytes.take pos) (whole : pos = bytes.length) :
    ∃ v', copyLoop dst n 0 v = some v' ∧ v'.scratch = v.scratch ∧ v'.extract_sector = v.extract_sector + sectors 0 ∧
      v'.fs.free_map = v.fs.free_map ∧
      Holds v'.fs L { a with files := Function.update a.files x bytes, handles := Function.update a.handles dst (some (x,bytes.length)) } := by
  subst whole
  rw [List.take_of_length_le (Nat.le_of_eq length),List.take_length] at before
  refine ⟨v,?_,rfl,rfl,rfl,?_⟩
  · cases n with
    | zero => rfl
    | succ n => exact if_pos rfl
  · rw [Function.update_eq_self_iff.mpr before.symm,Function.update_eq_self_iff.mpr here.symm]
    exact holds

/-- The part of a member that is in one sector. -/
theorem sector_bytes {chunk : Nat} (small : chunk ≤ 512) (inside : pos + chunk ≤ bytes.length)
    (data : ∀ o < chunk, bytes[pos + o]? = some (d.data (k + o / BLOCK_SECTOR_SIZE) (o % BLOCK_SECTOR_SIZE))) :
    (List.range chunk).map (d.data k) = (bytes.drop pos).take chunk := by
  refine List.ext_getElem (by rw [List.length_map,List.length_range,List.length_take,List.length_drop]; omega) fun o left right => ?_
  rw [List.length_map,List.length_range] at left
  have byte := data o left
  rw [BLOCK_SECTOR_SIZE,Nat.div_eq_of_lt (by omega),Nat.mod_eq_of_lt (by omega),Nat.add_zero,List.getElem?_eq_getElem (by omega)] at byte
  rw [List.getElem_take,List.getElem_drop,Option.some.inj byte,List.getElem_map,List.getElem_range]

/-- The sectors of a member are copied to the new file. -/
theorem copyLoop_member (n : Nat) (holds : Holds v.fs L a) (here : a.handles dst = some (x,pos))
    (length : (a.files x).length = bytes.length) (before : (a.files x).take pos = bytes.take pos)
    (rest : pos + size = bytes.length) (enough : size ≤ n) (inside : v.extract_sector + sectors size ≤ v.scratch.size)
    (data : ∀ o < size, bytes[pos + o]? = some (v.scratch.data (v.extract_sector + o / BLOCK_SECTOR_SIZE) (o % BLOCK_SECTOR_SIZE))) :
    ∃ v', copyLoop dst n size v = some v' ∧ v'.scratch = v.scratch ∧ v'.extract_sector = v.extract_sector + sectors size ∧
      v'.fs.free_map = v.fs.free_map ∧
      Holds v'.fs L { a with files := Function.update a.files x bytes, handles := Function.update a.handles dst (some (x,bytes.length)) } := by
  induction n generalizing v a pos size with
  | zero =>
    obtain rfl : size = 0 := by omega
    exact copyLoop_end 0 holds here length before (by omega)
  | succ n ih =>
    by_cases zero : size = 0
    · subst zero
      exact copyLoop_end (n + 1) holds here length before (by omega)
    obtain ⟨chunk,chosen⟩ : ∃ chunk, chunk = min size BLOCK_SECTOR_SIZE := ⟨_,rfl⟩
    have small : chunk ≤ 512 := by rw [chosen]; exact Nat.min_le_right _ _
    have fits : off_t (BitVec.ofNat 32 chunk) = chunk := chunk_off_t small
    rw [sectors,BLOCK_SECTOR_SIZE] at inside
    rw [BLOCK_SECTOR_SIZE] at chosen
    obtain ⟨fs,writes,map,holds₁⟩ := write_answer holds here (BitVec.ofNat 32 chunk) (v.scratch.data v.extract_sector) chunk
      (by rw [fits,length]; omega)
    obtain ⟨part,partIs⟩ : ∃ part, part = (List.range chunk).map (v.scratch.data v.extract_sector) := ⟨_,rfl⟩
    have long : part.length = chunk := by rw [partIs,List.length_map,List.length_range]
    have copied : part = (bytes.drop pos).take chunk := partIs.trans (sector_bytes small (by omega) fun o below => data o (by omega))
    rw [← partIs] at holds₁
    obtain ⟨w,wIs⟩ : ∃ w : State, w = { v with fs := fs, extract_sector := v.extract_sector + 1 } := ⟨_,rfl⟩
    have turn : copyLoop dst (n + 1) size v = copyLoop dst n (size - chunk) w := by
      rw [copyLoop,if_neg zero]
      dsimp only
      rw [block_read,if_pos (by omega),BLOCK_SECTOR_SIZE,← chosen]
      simp only [Option.bind_eq_bind,Option.bind_some,writes]
      rw [if_pos trivial,wIs]
    obtain ⟨v',ran,scratch,next,map',holds'⟩ := @ih w
      { a with files := Function.update a.files x (patch (a.files x) pos part), handles := Function.update a.handles dst (some (x,pos + chunk)) }
      (pos + chunk) (size - chunk)
      (by rw [wIs]; exact holds₁) (Function.update_self _ _ _)
      (by
        show (Function.update a.files x _ x).length = _
        rw [Function.update_self,patch_length (by omega),length])
      (by
        show (Function.update a.files x _ x).take _ = _
        rw [Function.update_self,← long,patch_take (by omega),before,copied,List.length_take,List.length_drop,← List.take_add]
        congr 1
        omega)
      (by omega) (by omega)
      (by
        rw [wIs,sectors,BLOCK_SECTOR_SIZE]
        show v.extract_sector + 1 + (size - chunk + (512 - 1)) / 512 ≤ v.scratch.size
        omega)
      (fun o below => by
        have later := data (chunk + o) (by omega)
        have full : chunk = 512 := by omega
        rw [BLOCK_SECTOR_SIZE] at later ⊢
        rw [wIs]
        show _ = some (v.scratch.data (v.extract_sector + 1 + o / 512) (o % 512))
        rw [Nat.add_assoc pos,later]
        congr 2
        · omega
        · omega)
    refine ⟨v',turn.trans ran,scratch.trans (by rw [wIs]),next.trans ?_,map'.trans (by rw [wIs]; exact map),?_⟩
    · rw [wIs,sectors,sectors,BLOCK_SECTOR_SIZE]
      show v.extract_sector + 1 + _ = _
      omega
    · simp only [Function.update_idem] at holds'
      exact holds'

/-! ### Creating a member -/

/-- As many names as there are slots. -/
theorem names_few (holds : Holds s L a) : { name | a.names name ≠ none }.Finite ∧ { name | a.names name ≠ none }.ncard ≤ 16 := by
  have inside : { name | a.names name ≠ none } ⊆
      ((Finset.range entry_cnt).image fun l => c_string (slot s.fs_device l).name : Finset (List Byte)) := by
    intro other present
    obtain ⟨y,named⟩ := Option.ne_none_iff_exists'.mp present
    obtain ⟨l,below,entry,-⟩ := (holds.names other y).mp named
    exact Finset.mem_coe.mpr (Finset.mem_image.mpr ⟨l,Finset.mem_range.mpr below,entry.2.symm⟩)
  refine ⟨(Finset.finite_toSet _).subset inside,(Set.ncard_le_ncard inside (Finset.finite_toSet _)).trans ?_⟩
  rw [Set.ncard_coe_finset]
  exact Finset.card_image_le.trans (Nat.le_of_eq (Finset.card_range _))

/-- With fewer names there is a free slot. -/
theorem free_slot (holds : Holds s L a) (few : { name | a.names name ≠ none }.ncard < 16) :
    ∃ k < entry_cnt, (slot s.fs_device k).in_use = false := by
  by_contra none_
  push Not at none_
  have busy : ∀ k < entry_cnt, (slot s.fs_device k).in_use = true := fun k below => Bool.eq_true_of_not_eq_false (none_ k below)
  have named : ∀ k < entry_cnt, a.names (c_string (slot s.fs_device k).name) = some (slot s.fs_device k).inode_sector.toNat :=
    fun k below => (holds.names _ _).mpr ⟨k,below,⟨busy k below,rfl⟩,rfl⟩
  have apart : Set.InjOn (fun l => c_string (slot s.fs_device l).name) (Finset.range entry_cnt) := by
    intro k first l second same
    have below := Finset.mem_range.mp (Finset.mem_coe.mp first)
    have below' := Finset.mem_range.mp (Finset.mem_coe.mp second)
    refine holds.sane.root.once k below l below' (busy k below) (busy l below') (Option.some.inj ?_)
    rw [← named k below,← named l below']
    exact congrArg a.names same
  have inside : (((Finset.range entry_cnt).image fun l => c_string (slot s.fs_device l).name : Finset (List Byte)) : Set (List Byte)) ⊆
      { name | a.names name ≠ none } := by
    intro other present
    obtain ⟨k,member,rfl⟩ := Finset.mem_image.mp (Finset.mem_coe.mp present)
    exact ne_of_eq_of_ne (named k (Finset.mem_range.mp member)) (Option.some_ne_none _)
  have many := Set.ncard_le_ncard inside (names_few holds).1
  rw [Set.ncard_coe_finset,Finset.card_image_of_injOn apart,Finset.card_range] at many
  exact absurd few (Nat.not_lt.mpr many)

theorem in_store_created (unused : a.Unused x) (absent : a.names name = none) (handles : Nat → Option (Nat × Nat)) (n b : List Byte) :
    InStore ⟨Function.update a.names name (some x),Function.update a.files x bytes,handles⟩ n b ↔ InStore a n b ∨ (n,b) = (name,bytes) := by
  constructor
  · rintro ⟨y,named,held⟩
    dsimp only at named held
    by_cases same : n = name
    · subst same
      rw [Function.update_self] at named
      cases named
      rw [Function.update_self] at held
      exact .inr (Prod.ext rfl held.symm)
    · rw [Function.update_of_ne same] at named
      have other : y ≠ x := fun both => unused.1 n (both ▸ named)
      rw [Function.update_of_ne other] at held
      exact .inl ⟨y,named,held⟩
  · rintro (⟨y,named,held⟩ | same)
    · have other : n ≠ name := by
        rintro rfl
        rw [absent] at named
        cases named
      refine ⟨y,(Function.update_of_ne other _ _).trans named,(Function.update_of_ne ?_ _ _).trans held⟩
      exact fun both => unused.1 n (both ▸ named)
    · cases same
      exact ⟨x,Function.update_self _ _ _,Function.update_self _ _ _⟩

/-- Only the new name has been added. -/
theorem names_gained (gained : ∀ n b, InStore a' n b ↔ InStore a n b ∨ (n,b) = (name,bytes)) (n : List Byte) :
    a'.names n = none ↔ a.names n = none ∧ n ≠ name := by
  constructor
  · intro gone
    refine ⟨Option.eq_none_iff_forall_ne_some.mpr fun y there => ?_,?_⟩
    · obtain ⟨z,named,-⟩ := (gained n _).mpr (.inl ⟨y,there,rfl⟩)
      rw [gone] at named
      cases named
    · rintro rfl
      obtain ⟨z,named,-⟩ := (gained n bytes).mpr (.inr rfl)
      rw [gone] at named
      cases named
  · rintro ⟨gone,other⟩
    refine Option.eq_none_iff_forall_ne_some.mpr fun y there => ?_
    rcases (gained n _).mp ⟨y,there,rfl⟩ with ⟨z,named,-⟩ | both
    · rw [gone] at named
      cases named
    · exact other (Prod.mk.inj both).1

theorem count_gained (gained : ∀ n b, InStore a' n b ↔ InStore a n b ∨ (n,b) = (name,bytes)) :
    { name | a'.names name ≠ none }.ncard ≤ { name | a.names name ≠ none }.ncard + 1 := by
  have whole : { name | a'.names name ≠ none } = insert name { name | a.names name ≠ none } := by
    ext n
    refine Iff.trans (not_congr (names_gained gained n)) ?_
    rw [not_and_or,or_comm,not_not]
    rfl
  rw [whole]
  exact Set.ncard_insert_le _ _

theorem put_file_member {size : BitVec 32} (holds : Holds v.fs L a) (string : 0#8 ∉ name) (fits : name ≠ [] ∧ name.length ≤ NAME_MAX)
    (absent : a.names name = none) (few : { name | a.names name ≠ none }.ncard < 16)
    (room : Room v.fs (1 + sectors bytes.length + m)) (small : bytes.length + 511 < 2 ^ 31) (length : size.toNat = bytes.length)
    (inside : v.extract_sector + sectors bytes.length ≤ v.scratch.size)
    (data : ∀ o < bytes.length, bytes[o]? = some (v.scratch.data (v.extract_sector + o / BLOCK_SECTOR_SIZE) (o % BLOCK_SECTOR_SIZE))) :
    ∃ v' L' a', put_file v name size = some v' ∧ Holds v'.fs L' a' ∧ v'.scratch = v.scratch ∧
      v'.extract_sector = v.extract_sector + sectors bytes.length ∧ Room v'.fs m ∧
      ∀ n b, InStore a' n b ↔ InStore a n b ∨ (n,b) = (name,bytes) := by
  have nonnegative : 0 ≤ size.toInt := by
    rw [BitVec.toInt_eq_toNat_of_lt (by omega)]
    exact Int.natCast_nonneg _
  have amount : off_t size = bytes.length := (off_t_eq (by omega)).trans length
  have cnt : bytes_to_sectors size = sectors bytes.length := by
    rcases bytes_to_sectors_spec nonnegative with ⟨-,rounded⟩ | ⟨large,-⟩
    · rw [rounded,length,sectors,BLOCK_SECTOR_SIZE]
    · omega
  obtain ⟨s₁,creates,room₁⟩ := filesys_create_room (m := m) holds.sane holds.plenty fits nonnegative ((names_none holds).mp absent)
    (free_slot holds few) (by rw [cnt,← Nat.add_assoc]; exact room)
  obtain ⟨L₁,a₁,⟨-,-,-,-,x,unused,rfl⟩,holds₁⟩ := create_held holds string nonnegative creates
  obtain ⟨dst,s₂,opens,map₂,unheld,holds₂⟩ := open_answer holds₁ (Function.update_self name _ _)
  have zeros : (Function.update a.files x (List.replicate (off_t size) 0#8) x).length = bytes.length := by
    rw [Function.update_self,List.length_replicate,amount]
  obtain ⟨v',copies,scratch,next,map',holds'⟩ := copyLoop_member (v := { v with fs := s₂ }) (bytes.length) holds₂
    (Function.update_self _ _ _) zeros rfl (Nat.zero_add _) (Nat.le_refl _) inside (fun o below => by rw [Nat.zero_add]; exact data o below)
  obtain ⟨s₄,L₄,closes,map₄,holds₄⟩ := close_named holds' (Function.update_self _ _ _) (Function.update_self name _ _)
  refine ⟨{ v' with fs := s₄ },L₄,_,?_,holds₄,scratch,next,?_,fun n b => ?_⟩
  · rw [put_file,creates]
    simp only [Option.bind_eq_bind,Option.bind_some,if_true,opens,amount]
    rw [copies]
    simp only [Option.bind_some,closes]
  · exact room_same ((map₄.trans map').trans map₂) room₁
  · simp only [Function.update_idem]
    exact in_store_created unused absent _ n b

/-! ### Turns of the loop -/

theorem extractLoop_turn (inside : v.extract_sector < v.scratch.size) (n : Nat) :
    extractLoop (n + 1) v =
      turn n { v with extract_sector := v.extract_sector + 1 } (ustar_parse_header (v.scratch.data v.extract_sector)) := by
  have read : block_read v.scratch v.extract_sector = some (v.scratch.data v.extract_sector) := if_pos inside
  show (block_read v.scratch v.extract_sector).bind _ = _
  rw [read,Option.bind_some]
  dsimp only
  rcases ustar_parse_header (v.scratch.data v.extract_sector) with text | ⟨file_name,type,size⟩
  · rfl
  · cases type with
    | USTAR_REGULAR => rfl
    | USTAR_DIRECTORY => rfl
    | USTAR_EOF => rfl

theorem extractLoop_inside (ran : extractLoop n v = some v') : v.extract_sector < v.scratch.size ∧ ∃ m, n = m + 1 := by
  cases n with
  | zero => cases ran
  | succ n =>
    refine ⟨Decidable.byContradiction fun outside => ?_,n,rfl⟩
    have read : block_read v.scratch v.extract_sector = none := if_neg outside
    obtain ⟨header,reads,-⟩ := Option.bind_eq_some_iff.mp (show (block_read v.scratch v.extract_sector).bind _ = _ from ran)
    rw [read] at reads
    cases reads

/-- Members are extracted one after another. -/
theorem extract_members (files : List (List Byte × List Byte)) (n : Nat) (holds : Holds v.fs L a)
    (members : Members v.scratch v.extract_sector files) (distinct : (files.map Prod.fst).Nodup)
    (absent : ∀ f ∈ files, a.names f.1 = none) (fits : ∀ f ∈ files, 0#8 ∉ f.1 ∧ f.1 ≠ [] ∧ f.1.length ≤ NAME_MAX)
    (few : { name | a.names name ≠ none }.ncard + files.length ≤ 16) (room : Room v.fs (extent files)) :
    ∃ v' L' a', extractLoop (files.length + n) v = extractLoop n v' ∧ Holds v'.fs L' a' ∧ v'.scratch = v.scratch ∧
      v'.extract_sector = v.extract_sector + extent files ∧
      ∀ name bytes, InStore a' name bytes ↔ InStore a name bytes ∨ (name,bytes) ∈ files := by
  induction files generalizing v L a with
  | nil => exact ⟨v,L,a,by rw [List.length_nil,Nat.zero_add],holds,rfl,rfl,fun name bytes => by simp⟩
  | cons file rest ih =>
    obtain ⟨name,bytes⟩ := file
    obtain ⟨member,members⟩ := members
    obtain ⟨⟨length,parsed,same⟩,small,inside,data⟩ := member
    obtain ⟨string,fits₁⟩ := fits _ List.mem_cons_self
    rw [List.map_cons,List.nodup_cons] at distinct
    rw [List.length_cons] at few
    obtain ⟨v₁,L₁,a₁,puts,holds₁,scratch,next,room₁,gained⟩ :=
      @put_file_member { v with extract_sector := v.extract_sector + 1 } L a name bytes (extent rest) length holds string
        fits₁ (absent _ List.mem_cons_self) (by omega) room small same
      (by show v.extract_sector + 1 + _ ≤ v.scratch.size; omega) data
    have more := count_gained gained
    obtain ⟨v',L',a',ran,holds',scratch',next',gained'⟩ := ih (v := v₁) holds₁ (by rw [scratch,next]; exact members) distinct.2
      (fun f later => (names_gained gained f.1).mpr ⟨absent f (List.mem_cons_of_mem _ later),fun both =>
        distinct.1 (List.mem_map.mpr ⟨f,later,both⟩)⟩)
      (fun f later => fits f (List.mem_cons_of_mem _ later)) (by omega) room₁
    refine ⟨v',L',a',?_,holds',scratch'.trans scratch,?_,fun n b => ?_⟩
    · rw [List.length_cons,Nat.add_right_comm,extractLoop_turn (by omega),parsed,turn,Option.bind_some,puts]
      exact ran
    · rw [next',next,extent]
      show v.extract_sector + 1 + _ + _ = _
      omega
    · rw [gained',gained,List.mem_cons,or_assoc]

/-- The end of an archive, or something that is no header. -/
theorem marker_parses {header : Nat → Byte} {b : Byte}
    (marker : ∀ o < BLOCK_SECTOR_SIZE, header o = if o = BLOCK_SECTOR_SIZE - 1 then b else 0#8) :
    ustar_parse_header header = if b = 0#8 then .ok (none,.USTAR_EOF,0#32) else .error "not a ustar archive" := by
  rw [ustar_parse_header]
  by_cases zero : b = 0#8
  · rw [if_pos zero,if_pos]
    refine (is_all_zeros_iff _ _).mpr fun o below => ?_
    rw [marker o below,zero,ite_self]
  · rw [if_neg zero,if_neg,if_pos]
    · intro magic
      have first := congrArg List.head? magic
      rw [show (List.range 6).map (fun k => header (257 + k)) = header 257 :: (List.range' 1 5).map (fun k => header (257 + k)) from rfl,
        marker 257 (by decide),if_neg (by decide)] at first
      cases first
    · intro all
      have last := (is_all_zeros_iff _ _).mp all (BLOCK_SECTOR_SIZE - 1) (by decide)
      rw [marker _ (by decide),if_pos rfl] at last
      exact zero last

/-- A header that is read as that of a regular file has a name, which is a string, and a size. -/
theorem parse_regular {header : Nat → Byte} {file_name : Option (List Byte)} {length : BitVec 32}
    (parsed : ustar_parse_header header = .ok (file_name,.USTAR_REGULAR,length)) :
    ∃ name, file_name = some name ∧ 0#8 ∉ name ∧ 0 ≤ length.toInt := by
  obtain ⟨-,other⟩ | ⟨-,rfl,-,small⟩ := ustar_parse_header_ok parsed
  · cases other
  refine ⟨_,rfl,strip_nonzero (string_nonzero header 0 100),?_⟩
  rw [BitVec.toInt_eq_toNat_of_lt (by omega)]
  exact Int.natCast_nonneg _

/-! ### What comes behind the members -/

theorem copyLoop_keeps (n : Nat) (holds : Holds v.fs L a) (here : a.handles dst = some (x,pos)) (ran : copyLoop dst n size v = some v') :
    v'.scratch = v.scratch ∧ ∃ a' pos', Holds v'.fs L a' ∧ a'.names = a.names ∧ a'.handles dst = some (x,pos') := by
  induction n generalizing v a pos size with
  | zero =>
    cases ran
    exact ⟨rfl,a,pos,holds,rfl,here⟩
  | succ n ih =>
    rw [copyLoop] at ran
    split at ran
    · cases ran
      exact ⟨rfl,a,pos,holds,rfl,here⟩
    · obtain ⟨data,-,ran⟩ := Option.bind_eq_some_iff.mp ran
      obtain ⟨⟨written,fs⟩,writes,ran⟩ := Option.bind_eq_some_iff.mp ran
      dsimp only at ran
      split at ran
      · obtain ⟨a₁,⟨y,p,there,-,rfl⟩,holds₁⟩ := write_held holds (handle_open holds here) writes
        rw [here] at there
        cases there
        obtain ⟨scratch,later⟩ :=
          ih (v := { v with fs := fs, extract_sector := v.extract_sector + 1 }) holds₁ (Function.update_self _ _ _) ran
        exact ⟨scratch,later⟩
      · cases ran

/-- What is created has a name that there was not, and the others stay. -/
theorem put_file_keeps {length : BitVec 32} (holds : Holds v.fs L a) (string : 0#8 ∉ name) (nonnegative : 0 ≤ length.toInt)
    (ran : put_file v name length = some v') : v'.scratch = v.scratch ∧ ∃ L' a', Holds v'.fs L' a' ∧
    a.names name = none ∧ ∀ n, a'.names n ≠ none ↔ a.names n ≠ none ∨ n = name := by
  obtain ⟨⟨created,s₁⟩,creates,ran⟩ := Option.bind_eq_some_iff.mp ran
  cases created with
  | false => cases ran
  | true =>
    obtain ⟨⟨opened,s₂⟩,opens,ran⟩ := Option.bind_eq_some_iff.mp ran
    obtain ⟨dst,here,ran⟩ := Option.bind_eq_some_iff.mp ran
    obtain ⟨v₃,copies,ran⟩ := Option.bind_eq_some_iff.mp ran
    obtain ⟨s₄,closes,last⟩ := Option.bind_eq_some_iff.mp ran
    cases last
    subst here
    obtain ⟨L₁,a₁,⟨-,-,absent,-,x,-,rfl⟩,holds₁⟩ := create_held holds string nonnegative creates
    obtain ⟨a₂,⟨y,-,-,rfl⟩,holds₂⟩ := open_held holds₁ opens
    obtain ⟨scratch,a₃,pos,holds₃,names,here⟩ := copyLoop_keeps (v := { v with fs := s₂ }) _ holds₂ (Function.update_self _ _ _) copies
    obtain ⟨L₄,a₄,⟨-,rfl⟩,holds₄⟩ := close_held holds₃ (handle_open holds₃ here) closes
    refine ⟨scratch,L₄,_,holds₄,absent,fun n => ?_⟩
    show a₃.names n ≠ none ↔ _
    rw [names]
    show Function.update a.names name (some x) n ≠ none ↔ _
    by_cases same : n = name
    · subst same
      rw [Function.update_self]
      exact ⟨fun _ => .inr rfl,fun _ => Option.some_ne_none x⟩
    · rw [Function.update_of_ne same]
      exact ⟨.inl,fun either => either.resolve_right same⟩

/-- An extraction that creates nothing has met nothing but directories. -/
theorem extractLoop_keeps (n : Nat) (holds : Holds v.fs L a) (ran : extractLoop n v = some v') :
    v'.scratch = v.scratch ∧ ∃ L' a', Holds v'.fs L' a' ∧ (∀ n, a.names n ≠ none → a'.names n ≠ none) ∧
      ((∀ n, a'.names n ≠ none → a.names n ≠ none) → Fileless v.scratch v.extract_sector) := by
  induction n generalizing v L a with
  | zero => cases ran
  | succ n ih =>
    obtain ⟨inside,-⟩ := extractLoop_inside ran
    rw [extractLoop_turn inside] at ran
    rcases parsed : ustar_parse_header (v.scratch.data v.extract_sector) with text | ⟨file_name,type,length⟩
    · rw [parsed] at ran
      cases ran
    · rw [parsed] at ran
      cases type with
      | USTAR_EOF =>
        cases ran
        exact ⟨rfl,L,a,holds,fun _ there => there,fun _ => .stop inside parsed⟩
      | USTAR_DIRECTORY =>
        obtain ⟨scratch,L',a',holds',kept,fileless⟩ := ih (v := { v with extract_sector := v.extract_sector + 1 }) holds ran
        exact ⟨scratch,L',a',holds',kept,fun none_ => .skip inside parsed (fileless none_)⟩
      | USTAR_REGULAR =>
        obtain ⟨name,rfl,string,nonnegative⟩ := parse_regular parsed
        obtain ⟨v₁,puts,ran⟩ := Option.bind_eq_some_iff.mp ran
        obtain ⟨scratch,L₁,a₁,holds₁,absent,more⟩ :=
          put_file_keeps (v := { v with extract_sector := v.extract_sector + 1 }) holds string nonnegative puts
        obtain ⟨scratch',L',a',holds',kept,-⟩ := ih holds₁ ran
        refine ⟨scratch'.trans scratch,L',a',holds',fun n there => kept n ((more n).mpr (.inl there)),fun none_ => ?_⟩
        exact absurd absent (none_ name (kept name ((more name).mpr (.inr rfl))))

/-- With only directories the loop stops, and nothing is created. -/
theorem extractLoop_fileless (fileless : Fileless d k) (n : Nat) (scratch : v.scratch = d) (cursor : v.extract_sector = k)
    (enough : d.size < n + k) :
    ∃ v', extractLoop n v = some v' ∧ v'.fs = v.fs := by
  induction fileless generalizing v n with
  | @stop k file_name length inside parsed =>
    subst scratch cursor
    obtain ⟨n,rfl⟩ := Nat.exists_eq_succ_of_ne_zero (show n ≠ 0 by omega)
    exact ⟨{ v with extract_sector := v.extract_sector + 1 },by rw [extractLoop_turn inside,parsed]; rfl,rfl⟩
  | @skip k file_name length inside parsed rest ih =>
    subst scratch cursor
    obtain ⟨n,rfl⟩ := Nat.exists_eq_succ_of_ne_zero (show n ≠ 0 by omega)
    obtain ⟨v',ran,same⟩ := ih (v := { v with extract_sector := v.extract_sector + 1 }) n rfl rfl (by omega)
    exact ⟨v',by rw [extractLoop_turn inside,parsed]; exact ran,same⟩

/-! ### There and back -/

/-- The two sectors that are erased at the end. -/
def erase (u : State) : Option State := (write_from u 0 (fun _ => 0#8) 0).bind fun u => write_from u 1 (fun _ => 0#8) 0

theorem erase_ok (wide : 2 ≤ v.scratch.size) : ∃ v', erase v = some v' ∧ v'.fs = v.fs := by
  rw [erase,write_from_ok (by omega),Option.bind_some,write_from_ok (by exact wide)]
  exact ⟨_,rfl,rfl⟩

theorem erase_fs (ran : erase v = some v') : v'.fs = v.fs := by
  obtain ⟨w,first,second⟩ := Option.bind_eq_some_iff.mp ran
  obtain ⟨-,rfl⟩ := write_from_spec first
  obtain ⟨-,rfl⟩ := write_from_spec second
  rfl

theorem fsutil_extract_eq (plenty : Plenty v.fs) : fsutil_extract v =
    (extractLoop (v.scratch.size + 1 - v.extract_sector) { v with fs := forget v.fs 2 }).bind erase := by
  rw [fsutil_extract,malloc_eq]
  dsimp only
  rw [malloc_eq,forget_forget]
  exact if_pos ⟨plenty.1 0,plenty.1 1⟩

/-- Names of a store are those that were created. -/
theorem store_names {events : List (Call × Answer)} (shown : Shows store events a) :
    ∀ name, a.names name ≠ none → name ≠ [] ∧ name.length ≤ NAME_MAX := by
  induction shown with
  | start initial =>
    intro name there
    rw [initial.1] at there
    exact absurd rfl there
  | @next events a a' event before step ih =>
    obtain ⟨call,answer⟩ := event
    intro name there
    cases call with
    | filesys_create new size =>
      cases answer with
      | success ok =>
        cases ok with
        | false =>
          obtain rfl : a' = a := step
          exact ih name there
        | true =>
          obtain ⟨positive,short,-,-,x,-,rfl⟩ := step
          by_cases same : name = new
          · subst same
            exact ⟨List.length_pos_iff.mp positive,short⟩
          · exact ih name ((Function.update_of_ne same (some x) a.names) ▸ there)
      | _ => exact absurd step id
    | filesys_open _ =>
      cases answer with
      | file f =>
        cases f with
        | none =>
          obtain ⟨-,rfl⟩ := step
          exact ih name there
        | some f =>
          obtain ⟨x,-,-,rfl⟩ := step
          exact ih name there
      | _ => exact absurd step id
    | filesys_remove gone =>
      cases answer with
      | success ok =>
        obtain ⟨-,rfl⟩ := step
        by_cases same : name = gone
        · subst same
          exact absurd (Function.update_self name none a.names) there
        · exact ih name ((Function.update_of_ne same none a.names) ▸ there)
      | _ => exact absurd step id
    | file_read _ _ =>
      cases answer with
      | bytes _ =>
        obtain ⟨x,pos,-,-,rfl⟩ := step
        exact ih name there
      | _ => exact absurd step id
    | file_write _ _ _ =>
      cases answer with
      | count _ =>
        obtain ⟨x,pos,-,-,rfl⟩ := step
        exact ih name there
      | _ => exact absurd step id
    | file_seek _ _ =>
      cases answer with
      | nothing =>
        obtain ⟨x,pos,-,rfl⟩ := step
        exact ih name there
      | _ => exact absurd step id
    | file_close _ =>
      cases answer with
      | nothing =>
        obtain ⟨-,rfl⟩ := step
        exact ih name there
      | _ => exact absurd step id

/-- Different names that are there are no more than the slots. -/
theorem distinct_few (holds : Holds s L a) (list : List (List Byte)) (distinct : list.Nodup) (named : ∀ n ∈ list, a.names n ≠ none) :
    list.length ≤ 16 := by
  obtain ⟨finite,few⟩ := names_few holds
  have inside : (list.toFinset : Set (List Byte)) ⊆ { name | a.names name ≠ none } :=
    fun n member => named n (List.mem_toFinset.mp (Finset.mem_coe.mp member))
  have many := Set.ncard_le_ncard inside finite
  rw [Set.ncard_coe_finset,List.toFinset_card_of_nodup distinct] at many
  exact many.trans few

theorem extent_length (files : List (List Byte × List Byte)) : files.length ≤ extent files := by
  induction files with
  | nil => exact Nat.le_refl _
  | cons file rest ih =>
    rw [extent,List.length_cons]
    omega

/-- The source: the appends return, and their names are those that a directory can have. -/
theorem archived {t : FileSystem} {list : List ((Nat → Byte) × List Byte × List Byte)} (archivable : Archivable s t d list) :
    ((list.map Prod.snd).length ≤ 16 ∧ ∀ f ∈ list.map Prod.snd, 0#8 ∉ f.1 ∧ f.1 ≠ [] ∧ f.1.length ≤ NAME_MAX) ∧
    ∃ u, appends (list.map fun f => (f.1,f.2.1)) (start s d) = some u ∧ u.scratch.size = d.size ∧
      u.append_sector = extent (list.map Prod.snd) ∧ Members u.scratch 0 (list.map Prod.snd) := by
  obtain ⟨events,shown⟩ := archivable.source
  obtain ⟨a,stored,L,holds⟩ := simulated_run store_simulates shown
  have there : ∀ f ∈ list, InStore a f.2.1 f.2.2 := fun f member => (has_held holds).mp (archivable.there f member)
  have named : ∀ f ∈ list.map Prod.snd, a.names f.1 ≠ none := by
    intro f member
    obtain ⟨g,inside,rfl⟩ := List.mem_map.mp member
    obtain ⟨x,names,-⟩ := there g inside
    rw [names]
    exact Option.some_ne_none x
  refine ⟨⟨?_,fun f member => ?_⟩,?_⟩
  · rw [List.length_map,← List.length_map fun f => f.2.1]
    refine distinct_few holds _ archivable.distinct fun n member => ?_
    obtain ⟨f,inside,rfl⟩ := List.mem_map.mp member
    exact named f.2 (List.mem_map.mpr ⟨f,inside,rfl⟩)
  · obtain ⟨x,here⟩ := Option.ne_none_iff_exists'.mp (named f member)
    exact ⟨names_string holds here,store_names stored f.1 (named f member)⟩
  · obtain ⟨u,ran,size,cursor,members⟩ := @appends_members (start s d) L a list holds there archivable.plain (by
      show 0 + _ < d.size
      rw [Nat.zero_add]
      exact archivable.sectors.1)
    exact ⟨u,ran,size,cursor.trans (Nat.zero_add _),members⟩

/-- The target: the extraction gets to where the members end, with exactly their files. -/
theorem extracted {t boot : FileSystem} (plenty : Plenty boot) (formats : filesys_init true boot = some t) (members : Members d 0 files)
    (distinct : (files.map Prod.fst).Nodup) (few : files.length ≤ 16)
    (fits : ∀ f ∈ files, 0#8 ∉ f.1 ∧ f.1 ≠ [] ∧ f.1.length ≤ NAME_MAX)
    (space : Room t (extent files)) (room : extent files < d.size) :
    ∃ n v L a, fsutil_extract (start t d) = (extractLoop n v).bind erase ∧ Holds v.fs L a ∧ v.scratch = d ∧
      v.extract_sector = extent files ∧ d.size < n + extent files ∧ ∀ name bytes, InStore a name bytes ↔ (name,bytes) ∈ files := by
  obtain ⟨L₀,a₀,initial,holds₀⟩ := init_held plenty formats
  have nothing : ∀ n, a₀.names n = none := fun n => congrFun initial.1 n
  have empty : { n | a₀.names n ≠ none } = ∅ := Set.eq_empty_of_forall_notMem fun n there => there (nothing n)
  have short := extent_length files
  obtain ⟨n,many⟩ : ∃ n, d.size + 1 = files.length + n := ⟨d.size + 1 - files.length,by omega⟩
  obtain ⟨v,L,a,turns,holds,scratch,cursor,held⟩ := @extract_members { start t d with fs := forget t 2 } L₀ a₀
    files n (holds_forget holds₀ 2) members distinct (fun f _ => nothing f.1) fits
    (by rw [empty,Set.ncard_empty,Nat.zero_add]; exact few) space
  refine ⟨n,v,L,a,?_,holds,scratch,cursor.trans (Nat.zero_add _),by omega,fun name bytes => ?_⟩
  · rw [@fsutil_extract_eq (start t d) holds₀.plenty]
    show (extractLoop (d.size + 1 - 0) { start t d with fs := forget t 2 }).bind _ = _
    rw [Nat.sub_zero,many,turns]
  · rw [held]
    refine or_iff_right fun old => ?_
    obtain ⟨x,names,-⟩ := old
    rw [nothing] at names
    cases names

/-- What comes back is decided where the appends ended. -/
theorem round_trip_fileless {t : FileSystem} {list : List ((Nat → Byte) × List Byte × List Byte)} (archivable : Archivable s t d list) :
    ∃ u, appends (list.map fun f => (f.1,f.2.1)) (start s d) = some u ∧
      (RoundTrip s t d list ↔ Fileless u.scratch u.append_sector) := by
  obtain ⟨⟨few,fits⟩,u,ran,size,ends,members⟩ := archived archivable
  obtain ⟨boot,plenty,formats⟩ := archivable.fresh
  obtain ⟨n,v,L,a,extracts,holds,scratch,cursor,enough,held⟩ := extracted plenty formats members
    (by rw [List.map_map]; exact archivable.distinct) few fits archivable.space (by rw [size]; exact archivable.sectors.1)
  refine ⟨u,ran,?_⟩
  rw [← scratch,ends,← cursor]
  constructor
  · rintro ⟨u',v',ran',done,exactly⟩
    rw [ran] at ran'
    cases ran'
    rw [extracts] at done
    obtain ⟨w,loops,erased⟩ := Option.bind_eq_some_iff.mp done
    obtain ⟨-,L',a',holds',-,fileless⟩ := extractLoop_keeps n holds loops
    rw [erase_fs erased] at exactly
    refine fileless fun name there => ?_
    -- Every name that is there now is that of a member.
    obtain ⟨x,names⟩ := Option.ne_none_iff_exists'.mp there
    have old := (exactly name (a'.files x)).mp ((has_held holds').mpr ⟨x,names,rfl⟩)
    obtain ⟨y,names',-⟩ := (held name _).mpr old
    rw [names']
    exact Option.some_ne_none y
  · intro fileless
    obtain ⟨w,loops,same⟩ := extractLoop_fileless fileless n rfl rfl (by rw [scratch,cursor]; exact enough)
    obtain ⟨scratch',-⟩ := extractLoop_keeps n holds loops
    obtain ⟨v',erased,same'⟩ := @erase_ok w (by rw [scratch',scratch,size]; exact archivable.sectors.2)
    refine ⟨u,v',ran,by rw [extracts,loops]; exact erased,fun name bytes => ?_⟩
    rw [same',same,has_held holds,held]

/-- After a last append there are zeros where it ended, and then the byte after its buffer. -/
theorem closing_iff {u : State} {fs : FileSystem} {list : List ((Nat → Byte) × List Byte × List Byte)}
    (ran : appends (list.map fun f => (f.1,f.2.1)) (start fs d) = some u) :
    Fileless u.scratch u.append_sector ↔ Closing d list := by
  rcases List.eq_nil_or_concat list with rfl | ⟨front,⟨block,name,bytes⟩,rfl⟩
  · cases ran
    exact Iff.rfl
  · rw [List.concat_eq_append] at ran ⊢
    rw [List.map_append] at ran
    obtain ⟨inside,marker⟩ := appends_marker _ ran
    have parsed := marker_parses marker
    have last : Closing d (front ++ [(block,name,bytes)]) ↔ block BLOCK_SECTOR_SIZE = 0#8 := by rw [Closing,List.getLast?_concat]
    rw [last]
    constructor
    · intro fileless
      by_contra other
      rw [if_neg other] at parsed
      cases fileless with
      | stop _ parsed' =>
        rw [parsed] at parsed'
        cases parsed'
      | skip _ parsed' _ =>
        rw [parsed] at parsed'
        cases parsed'
    · intro zero
      rw [if_pos zero] at parsed
      exact .stop inside parsed

/-- Files that are appended come back, and nothing else does, exactly where the byte after the buffer of the last
    append is zero; with no file to append, where the device has none. -/
theorem archives_round_trip_iff {t : FileSystem} {list : List ((Nat → Byte) × List Byte × List Byte)} (archivable : Archivable s t d list) :
    RoundTrip s t d list ↔ Closing d list := by
  obtain ⟨u,ran,decided⟩ := round_trip_fileless archivable
  exact decided.trans (closing_iff ran)

end

def file_contents : List Byte := (List.range 600).map (BitVec.ofNat 8)

/-- A file of two sectors, and the byte after the buffer that it is appended with. -/
def one_file (b : Byte) : List ((Nat → Byte) × List Byte × List Byte) := [(fun _ => b,[97#8],file_contents)]

def scratch_disk : Device where
  size := 8
  data _ _ := 0xcc#8

def writes_file : List Call := [.filesys_create [97#8] 600#32,.filesys_open [97#8],.file_write 7 (BitVec.ofNat 8) 600#32]

theorem one_extent (b : Byte) : extent ((one_file b).map Prod.snd) = 3 := by
  simp only [one_file,file_contents,List.map_cons,List.map_nil,extent,List.length_map,List.length_range]
  rfl

theorem one_archivable (b : Byte) : ∃ s t, Archivable s t scratch_disk (one_file b) := by
  have written : ((filesys_init true boot).bind (calls (fun _ _ => True) writes_file)).any (fun s => decide (
      ((slot s.fs_device 0).in_use = true ∧ [97#8] = c_string (slot s.fs_device 0).name) ∧
      file_bytes s.fs_device (inode_data s (slot s.fs_device 0).inode_sector.toNat) = file_contents)) = true := by
    decide +kernel
  have formatted : (filesys_init true boot).any (fun t => decide (4 + 3 ≤ t.free_map.bit_cnt ∧
      ∀ j < 4 + 3, 4 ≤ j → t.free_map.has j = false)) = true := by decide +kernel
  obtain ⟨s,ran,holds⟩ := (Option.any_eq_true _ _).mp written
  obtain ⟨s₀,initial,ran⟩ := Option.bind_eq_some_iff.mp ran
  obtain ⟨t,fresh,free⟩ := (Option.any_eq_true _ _).mp formatted
  obtain ⟨entry,bytes⟩ := of_decide_eq_true holds
  obtain ⟨inside,run⟩ := of_decide_eq_true free
  have plenty : Plenty boot := ⟨fun _ => rfl,fun _ => rfl⟩
  obtain ⟨events,-,shown⟩ := calls_shown writes_file (.start ⟨boot,plenty,initial⟩) ran
  refine ⟨s,t,⟨_,shown⟩,fun f member => ?_,fun f member => ?_,List.nodup_singleton _,by rw [one_extent]; decide,⟨boot,plenty,fresh⟩,?_⟩
  · rw [List.mem_singleton.mp member]
    dsimp only
    exact ⟨_,⟨0,by decide,entry,rfl⟩,bytes⟩
  · rw [List.mem_singleton.mp member]
    rfl
  · rw [one_extent]
    exact ⟨4,inside,fun j low high => run j high low⟩

theorem archives_round_trip_iff_zero : ∃ s t, Archivable s t scratch_disk (one_file 0#8) ∧ RoundTrip s t scratch_disk (one_file 0#8) := by
  obtain ⟨s,t,archivable⟩ := one_archivable 0#8
  exact ⟨s,t,archivable,(archives_round_trip_iff archivable).mpr rfl⟩

/-- The byte after the buffer is in the sector in which the extraction looks for the end. -/
theorem archives_not_read_back : ¬ ∀ s t d list, Archivable s t d list → RoundTrip s t d list := by
  intro always
  obtain ⟨s,t,archivable⟩ := one_archivable 0xcc#8
  obtain ⟨u,ran,decided⟩ := round_trip_fileless archivable
  have zero : Closing scratch_disk (one_file 0xcc#8) := (closing_iff ran).mp (decided.mp (always s t _ _ archivable))
  cases zero

end Pintos.Archives
