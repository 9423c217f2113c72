import Pintos.Fsutil
import Pintos.Room
import Pintos.Persistence
import Mathlib.Data.List.TakeWhile

/-!
What `fsutil_append` leaves of a list of files on the scratch device: a member for each of them, one
after another, and behind the last a sector that may end the archive.
-/
namespace Pintos.Archives
open Pintos.FileSystem Pintos.Ustar Pintos.Fsutil Pintos.Machines
open Pintos.Bitmaps (Byte)
set_option linter.unusedSimpArgs false

/-- The header of a file is in sector `k`, and its bytes are in the sectors that follow. -/
structure Member (d : Device) (k : Nat) (name bytes : List Byte) : Prop where
  header : ∃ size, ustar_parse_header (d.data k) = .ok (some name,.USTAR_REGULAR,size) ∧ size.toNat = bytes.length
  small : bytes.length + 511 < 2 ^ 31
  inside : k + sectors bytes.length < d.size
  data : ∀ o < bytes.length, bytes[o]? = some (d.data (k + 1 + o / BLOCK_SECTOR_SIZE) (o % BLOCK_SECTOR_SIZE))

/-- Members one after another. -/
def Members (d : Device) : Nat → List (List Byte × List Byte) → Prop
  | _, [] => True
  | k, (name,bytes) :: rest => Member d k name bytes ∧ Members d (k + 1 + sectors bytes.length) rest

/-- How many sectors the members have. A file takes as many: one for its inode, and those of its bytes. -/
def extent : List (List Byte × List Byte) → Nat
  | [] => 0
  | (_,bytes) :: rest => 1 + sectors bytes.length + extent rest

/-- The file system has a file of this name, with these bytes. -/
def Has (s : FileSystem) (name bytes : List Byte) : Prop := ∃ x, Named s name x ∧ file_bytes s.fs_device (inode_data s x) = bytes

/-- So has the store. -/
def InStore (a : Store) (name bytes : List Byte) : Prop := ∃ x, a.names name = some x ∧ a.files x = bytes

section
variable {u u' u₁ : State} {s s' s₁ : FileSystem} {L : Nat → Option InodeDisk} {a : Store} {d d' : Device} {buffer block : Nat → Byte}
  {name bytes : List Byte} {files : List (List Byte × List Byte)} {n size pos src k x : Nat}

/-! ### One call of the file system -/

theorem holds_forget (holds : Holds s L a) (m : Nat) : Holds (forget s m) L a :=
  holds_spared holds (steady_forget s m) (sane_forget holds.sane m) (fun _ _ _ => rfl) rfl rfl rfl

theorem handle_open (holds : Holds s L a) (here : a.handles src = some (x,pos)) : Handle s src := by
  obtain ⟨user,u,-,file,-⟩ := (holds.handles src x pos).mp here
  exact ⟨by rw [file]; exact Option.some_ne_none u,user⟩

theorem read_answer (holds : Holds s L a) (here : a.handles src = some (x,pos)) (amount : BitVec 32) :
    ∃ s' L', file_read s src amount = some (((a.files x).drop pos).take (off_t amount),s') ∧
      Holds s' L' { a with handles := Function.update a.handles src (some (x,pos + (((a.files x).drop pos).take (off_t amount)).length)) } := by
  have handle := handle_open holds here
  obtain ⟨answer,s',ran,-⟩ := call_spec (c := .file_read src amount) holds.sane handle
  obtain ⟨⟨bytes,s₁⟩,reads,same⟩ := Option.map_eq_some_iff.mp ran
  cases same
  obtain ⟨a',⟨y,p,there,rfl,rfl⟩,holds'⟩ := read_held holds handle reads
  rw [here] at there
  cases there
  exact ⟨s₁,L,reads,holds'⟩

theorem write_answer (holds : Holds s L a) (here : a.handles src = some (x,pos)) (amount : BitVec 32) (buffer : Nat → Byte)
    (n : Nat) (count : n = min (off_t amount) ((a.files x).length - pos)) :
    ∃ s', file_write s src buffer amount = some (n,s') ∧ s'.free_map = s.free_map ∧
      Holds s' L { a with
        files := Function.update a.files x (patch (a.files x) pos ((List.range n).map buffer))
        handles := Function.update a.handles src (some (x,pos + n)) } := by
  have handle := handle_open holds here
  obtain ⟨f,file⟩ := Option.ne_none_iff_exists'.mp handle.1
  obtain ⟨m,amount',d',found,-,ran,-⟩ := file_write_spec holds.sane file handle.2 buffer amount
  obtain ⟨a',⟨y,p,there,many,rfl⟩,holds'⟩ := write_held holds handle ran
  rw [here] at there
  cases there
  rw [← count] at many
  subst many
  exact ⟨_,ran,rfl,holds'⟩

/-- A file that is still named keeps its sectors when it is closed. -/
theorem close_named (holds : Holds s L a) (here : a.handles src = some (x,pos)) (named : a.names name = some x) :
    ∃ s' L', file_close s src = some s' ∧ s'.free_map = s.free_map ∧
      Holds s' L' { a with handles := Function.update a.handles src none } := by
  have handle := handle_open holds here
  obtain ⟨u,i,opened,found,-,-,there⟩ := handle_held holds handle
  rw [here] at there
  obtain ⟨rfl,-⟩ := Prod.mk.inj (Option.some.inj there)
  obtain ⟨i',s',found',closes,-,-,dropped⟩ := file_close_spec holds.sane opened handle.2
  rw [found] at found'
  cases found'
  obtain ⟨k,below,entry,sector⟩ := (holds.names name _).mp named
  have stays : ¬ Ends i := fun ends => (holds.sane.root.removed _ i found ends.2).2.2 k below entry.1 sector
  obtain ⟨L',a',⟨-,rfl⟩,holds'⟩ := close_held holds handle closes
  exact ⟨s',L',closes,(dropped.kept stays).2,holds'⟩

/-- A name that is there is opened. -/
theorem open_answer (holds : Holds s L a) (named : a.names name = some x) : ∃ f s', filesys_open s name = some (some f,s') ∧
    s'.free_map = s.free_map ∧ a.handles f = none ∧
    Holds s' L { a with handles := Function.update a.handles f (some (x,0)) } := by
  obtain ⟨answer,s',ran,-,-,map,-⟩ := filesys_open_spec holds.sane name
  obtain ⟨a',answers,holds'⟩ := open_held holds ran
  cases answer with
  | none =>
    rw [answers.1] at named
    cases named
  | some f =>
    obtain ⟨y,there,unheld,rfl⟩ := answers
    rw [named] at there
    cases there
    exact ⟨f,s',ran,map,unheld,holds'⟩

/-! ### Appending -/

theorem write_from_ok {sector offset : Nat} (inside : sector < u.scratch.size) :
    write_from u sector buffer offset = some { u with
      scratch := { u.scratch with data := Function.update u.scratch.data sector fun o => buffer (offset + o) }
      sources := u.sources ++ [offset] } := by
  rw [write_from,block_write,if_pos inside]
  rfl

theorem chunk_off_t {n : Nat} (small : n ≤ BLOCK_SECTOR_SIZE) : off_t (BitVec.ofNat 32 n) = n := by
  rw [BLOCK_SECTOR_SIZE] at small
  rw [off_t_eq (by rw [BitVec.toNat_ofNat]; omega),BitVec.toNat_ofNat]
  omega

/-- Nothing is left to copy. -/
theorem appendLoop_end (n : Nat) (holds : Holds u.fs L a) (here : a.handles src = some (x,pos)) :
    ∃ buffer' u' L', appendLoop src n 0 buffer u = some (buffer',u') ∧
      Holds u'.fs L' { a with handles := Function.update a.handles src (some (x,pos + 0)) } ∧ u'.extract_sector = u.extract_sector ∧
      ∀ o < 0, (a.files x)[pos + o]? = some (u'.scratch.data (u.append_sector + o / BLOCK_SECTOR_SIZE) (o % BLOCK_SECTOR_SIZE)) := by
  refine ⟨buffer,u,L,?_,?_,rfl,fun o below => absurd below (Nat.not_lt_zero o)⟩
  · cases n with
    | zero => rfl
    | succ n => exact if_pos rfl
  · rw [Nat.add_zero,Function.update_eq_self_iff.mpr here.symm]
    exact holds

/-- The rest of the file goes to the sectors that follow. -/
theorem appendLoop_member (n : Nat) (holds : Holds u.fs L a) (here : a.handles src = some (x,pos))
    (rest : pos + size = (a.files x).length) (enough : size ≤ n)
    (room : u.append_sector + sectors size ≤ u.scratch.size) : ∃ buffer' u' L', appendLoop src n size buffer u = some (buffer',u') ∧
      Holds u'.fs L' { a with handles := Function.update a.handles src (some (x,pos + size)) } ∧
      u'.extract_sector = u.extract_sector ∧
      ∀ o < size, (a.files x)[pos + o]? = some (u'.scratch.data (u.append_sector + o / BLOCK_SECTOR_SIZE) (o % BLOCK_SECTOR_SIZE)) := by
  induction n generalizing u buffer size pos L a with
  | zero =>
    obtain rfl : size = 0 := by omega
    exact appendLoop_end 0 holds here
  | succ n ih =>
    by_cases zero : size = 0
    · subst zero
      exact appendLoop_end (n + 1) holds here
    obtain ⟨chunk,chosen⟩ : ∃ chunk, chunk = min size BLOCK_SECTOR_SIZE := ⟨_,rfl⟩
    have sector : u.append_sector < u.scratch.size := by
      rw [sectors,BLOCK_SECTOR_SIZE] at room
      omega
    have whole : off_t (BitVec.ofNat 32 chunk) = chunk := chunk_off_t (by omega)
    obtain ⟨fs,L₁,reads,holds₁⟩ := read_answer holds here (BitVec.ofNat 32 chunk)
    rw [whole] at reads holds₁
    obtain ⟨part,partIs⟩ : ∃ part, part = ((a.files x).drop pos).take chunk := ⟨_,rfl⟩
    have length : part.length = chunk := by
      rw [partIs,List.length_take,List.length_drop]
      omega
    rw [← partIs] at reads holds₁
    rw [length] at holds₁
    obtain ⟨filled,filledIs⟩ : ∃ filled, filled = clear (put buffer 0 part) chunk := ⟨_,rfl⟩
    obtain ⟨v,vIs⟩ : ∃ v : State, v = { u with
        fs := fs
        scratch := { u.scratch with data := Function.update u.scratch.data u.append_sector fun o => filled (0 + o) }
        sources := u.sources ++ [0]
        append_sector := u.append_sector + 1 } := ⟨_,rfl⟩
    have turn : appendLoop src (n + 1) size buffer u = appendLoop src n (size - chunk) filled v := by
      rw [appendLoop,if_neg zero]
      dsimp only
      rw [if_neg (Nat.not_le.mpr sector),← chosen,reads]
      simp only [Option.bind_eq_bind,Option.bind_some]
      rw [if_pos length,← filledIs,write_from_ok (by exact sector),vIs]
      rfl
    have moved : ({ a with handles := Function.update a.handles src (some (x,pos + chunk)) } : Store).handles src = some (x,pos + chunk) :=
      Function.update_self _ _ _
    obtain ⟨buffer',u',L',ran,holds',extract_sector,copied⟩ := @ih v L₁ _ filled (size - chunk) (pos + chunk)
      (by rw [vIs]; exact holds₁) moved (by show pos + chunk + (size - chunk) = (a.files x).length; omega)
      (by rw [BLOCK_SECTOR_SIZE] at chosen; omega)
      (by
        rw [vIs]
        show u.append_sector + 1 + sectors (size - chunk) ≤ u.scratch.size
        rw [sectors,BLOCK_SECTOR_SIZE] at room ⊢
        rw [BLOCK_SECTOR_SIZE] at chosen
        omega)
    refine ⟨buffer',u',L',turn.trans ran,?_,?_,fun o below => ?_⟩
    · have last : pos + chunk + (size - chunk) = pos + size := by omega
      simp only [Function.update_idem,last] at holds'
      exact holds'
    · rw [extract_sector,vIs]
    · rw [BLOCK_SECTOR_SIZE] at chosen ⊢
      by_cases first : o < 512
      · -- The sector of this turn, which no later turn writes.
        have kept := (appendLoop_spec (show size - chunk ≤ n by omega) ran).1.data u.append_sector
          (.inl (by rw [vIs]; exact Nat.lt_succ_self _))
        have inChunk : o < chunk := by omega
        have byte : (a.files x)[pos + o]? = some (filled o) := by
          rw [filledIs,clear,if_neg (by omega),← Nat.zero_add o,put_inside (by omega : o < part.length)]
          rw [Nat.zero_add,← List.getElem?_eq_getElem (by omega : o < part.length),partIs,List.getElem?_take_of_lt inChunk,List.getElem?_drop]
        rw [byte,Nat.div_eq_of_lt first,Nat.mod_eq_of_lt first,Nat.add_zero,kept,vIs]
        show some (filled o) = some (Function.update u.scratch.data u.append_sector (fun o => filled (0 + o)) u.append_sector o)
        rw [Function.update_self,Nat.zero_add]
      · have full : chunk = 512 := by omega
        have later := copied (o - 512) (by omega)
        rw [BLOCK_SECTOR_SIZE] at later
        have place : pos + chunk + (o - 512) = pos + o := by omega
        have sectorIs : v.append_sector + (o - 512) / 512 = u.append_sector + o / 512 := by
          rw [vIs]
          show u.append_sector + 1 + (o - 512) / 512 = _
          omega
        have offset : (o - 512) % 512 = o % 512 := by omega
        rw [sectorIs,offset] at later
        rw [← place]
        exact later

/-- A name in the directory is the string of an entry. -/
theorem names_string (holds : Holds s L a) (named : a.names name = some x) : 0#8 ∉ name := by
  obtain ⟨k,-,⟨-,string⟩,-⟩ := (holds.names name x).mp named
  intro zero
  rw [string,c_string] at zero
  have other := List.mem_takeWhile_imp zero
  exact absurd rfl (of_decide_eq_true other)

/-- The end of the archive is written where the next member would be. -/
theorem mark_ok (buffer : Nat → Byte) (inside : u.append_sector < u.scratch.size) :
    ∃ u₁ u', write_from u u.append_sector (clear buffer 0) 0 = some u₁ ∧ write_from u₁ u₁.append_sector (clear buffer 0) 1 = some u' ∧
      u'.fs = u.fs ∧ u'.append_sector = u.append_sector ∧ u'.extract_sector = u.extract_sector ∧ u'.scratch.size = u.scratch.size ∧
      ∀ k, k ≠ u.append_sector → u'.scratch.data k = u.scratch.data k := by
  refine ⟨_,_,write_from_ok inside,write_from_ok (by exact inside),rfl,rfl,rfl,rfl,fun k other => ?_⟩
  exact (Function.update_of_ne other _ _).trans (Function.update_of_ne other _ _)

/-- An append of a file leaves a member behind, and the file system as it was. -/
theorem fsutil_append_member (holds : Holds u.fs L a) (named : a.names name = some x) (plain : strip_antisocial_prefixes name = name)
    (short : name.length ≤ 99) (room : u.append_sector + 1 + sectors (a.files x).length < u.scratch.size) :
    ∃ u' L', fsutil_append u block name = some u' ∧ Holds u'.fs L' a ∧ Member u'.scratch u.append_sector name (a.files x) ∧
      u'.append_sector = u.append_sector + 1 + sectors (a.files x).length ∧ u'.extract_sector = u.extract_sector := by
  have string := names_string holds named
  obtain ⟨src,fs₁,opens,-,unheld,holds₁⟩ := open_answer (holds_forget holds 1) named
  have here : ({ a with handles := Function.update a.handles src (some (x,0)) } : Store).handles src = some (x,0) :=
    Function.update_self _ _ _
  -- The length that the header gets is that of the inode in memory.
  obtain ⟨f,i,file,found,owned,⟨notMap,notRoot⟩,there⟩ := handle_held holds₁ (handle_open holds₁ here)
  rw [here] at there
  obtain ⟨rfl,-⟩ := Prod.mk.inj (Option.some.inj there)
  have asked : file_length fs₁ src = some i.data.length := by
    rw [file_length,file]
    simp only [Option.bind_eq_bind,Option.bind_some,found]
  have length : (a.files i.sector).length = i.data.length.toNat := by
    have bytes : a.files i.sector = file_bytes fs₁.fs_device i.data := holds₁.files i.sector i.data owned notMap notRoot
    rw [bytes,file_bytes_length,ledger_off_t holds₁.sane.ledger owned]
  have small := holds₁.sane.ledger.length i.sector i.data owned
  obtain ⟨header,made,parsed⟩ := @ustar_round_trip block name .USTAR_REGULAR i.data.length (by decide) plain string short (by omega)
  have amount : off_t i.data.length = (a.files i.sector).length := by rw [ledger_off_t holds₁.sane.ledger owned,length]
  obtain ⟨v,vIs⟩ : ∃ v : State, v = { u with
      fs := fs₁
      scratch := { u.scratch with data := Function.update u.scratch.data u.append_sector fun o => header (0 + o) }
      sources := u.sources ++ [0]
      append_sector := u.append_sector + 1 } := ⟨_,rfl⟩
  obtain ⟨buffer,w,L₂,copies,holds₂,extract_sector,copied⟩ := @appendLoop_member v L _ header _ _ _ _ (off_t i.data.length)
    (by rw [vIs]; exact holds₁) here (by rw [Nat.zero_add]; exact amount) (Nat.le_refl _) (by
      rw [vIs,amount]
      exact Nat.le_of_lt room)
  obtain ⟨advanced,-⟩ := appendLoop_spec (Nat.le_refl _) copies
  have next : w.append_sector = u.append_sector + 1 + sectors (a.files i.sector).length := by rw [advanced.sector,vIs,amount]
  have inside : w.append_sector < w.scratch.size := by
    rw [next,advanced.size,vIs]
    exact room
  obtain ⟨w₁,w₂,first,second,fs_same,append_same,extract_same,size_same,others⟩ := mark_ok buffer inside
  obtain ⟨fs',L',closes,-,holds'⟩ := close_named holds₂ (Function.update_self _ _ _) named
  rw [← fs_same] at closes
  have same : ({ a with handles := Function.update a.handles src none } : Store) = a := by
    rw [Function.update_eq_self_iff.mpr unheld.symm]
  simp only [Function.update_idem,same] at holds'
  refine ⟨{ w₂ with fs := fs' },L',?_,holds',⟨⟨i.data.length,?_,length.symm⟩,by omega,?_,fun o below => ?_⟩,?_,?_⟩
  · rw [fsutil_append,malloc_eq]
    dsimp only
    rw [if_pos (holds.plenty.1 0),opens]
    simp only [Option.bind_eq_bind,Option.bind_some,asked,made]
    rw [write_from_ok (by exact Nat.lt_of_le_of_lt (by omega) room)]
    simp only [Option.bind_some]
    rw [← vIs,copies]
    simp only [Option.bind_some,first,second,closes]
  · show ustar_parse_header (w₂.scratch.data u.append_sector) = _
    rw [others _ (by omega),advanced.data _ (.inl (by rw [vIs]; exact Nat.lt_succ_self _)),vIs]
    show ustar_parse_header (Function.update u.scratch.data u.append_sector (fun o => header (0 + o)) u.append_sector) = _
    rw [Function.update_self]
    simp only [Nat.zero_add]
    exact parsed
  · show u.append_sector + sectors (a.files i.sector).length < w₂.scratch.size
    omega
  · show _ = some (w₂.scratch.data _ _)
    have inExtent : o / BLOCK_SECTOR_SIZE < sectors (a.files i.sector).length := by
      rw [sectors,BLOCK_SECTOR_SIZE]
      omega
    have byte := copied o (by rw [amount]; exact below)
    rw [Nat.zero_add,vIs] at byte
    rw [others _ (by omega)]
    exact byte
  · exact append_same.trans next
  · exact extract_same.trans (extract_sector.trans (by rw [vIs]))

theorem has_held (holds : Holds s L a) : Has s name bytes ↔ InStore a name bytes := by
  refine exists_congr fun x => ?_
  rw [holds.names]
  refine and_congr_right fun named => ?_
  obtain ⟨k,below,entry,rfl⟩ := named
  obtain ⟨⟨i,owned⟩,notMap,notRoot⟩ := holds.sane.root.named k below entry.1
  rw [holds.files _ i owned notMap notRoot,inode_data_eq holds.sane owned]

/-- Names in the directory fit in its entries. -/
theorem names_short (holds : Holds s L a) (named : a.names name = some x) : name.length ≤ NAME_MAX + 1 := by
  obtain ⟨k,-,⟨-,string⟩,-⟩ := (holds.names name x).mp named
  rw [string,c_string]
  exact (List.takeWhile_prefix _).length_le.trans (Nat.le_of_eq List.length_ofFn)

/-! ### One append after another -/

theorem appends_before (calls : List ((Nat → Byte) × List Byte)) (ran : appends calls u = some u') :
    ∀ k < u.append_sector, u'.scratch.data k = u.scratch.data k := by
  induction calls generalizing u with
  | nil =>
    cases ran
    exact fun _ _ => rfl
  | cons call rest ih =>
    obtain ⟨u₁,first,later⟩ := Option.bind_eq_some_iff.mp ran
    have done := fsutil_append_spec first
    obtain ⟨cnt,sector,-⟩ := done.advanced
    exact fun k below => (ih later k (by omega)).trans (done.before k below)

theorem member_same (member : Member d k name bytes) (size : d'.size = d.size)
    (same : ∀ j < k + 1 + sectors bytes.length, d'.data j = d.data j) : Member d' k name bytes where
  header := by
    rw [same k (by omega)]
    exact member.header
  small := member.small
  inside := by
    rw [size]
    exact member.inside
  data o below := by
    rw [same _ (by rw [sectors,BLOCK_SECTOR_SIZE]; omega)]
    exact member.data o below

/-- The appends leave their files behind, one after another, and the file system as it was. -/
theorem appends_members (files : List ((Nat → Byte) × List Byte × List Byte)) (holds : Holds u.fs L a)
    (there : ∀ f ∈ files, InStore a f.2.1 f.2.2) (plain : ∀ f ∈ files, strip_antisocial_prefixes f.2.1 = f.2.1)
    (room : u.append_sector + extent (files.map Prod.snd) < u.scratch.size) :
    ∃ u', appends (files.map fun f => (f.1,f.2.1)) u = some u' ∧ u'.scratch.size = u.scratch.size ∧
      u'.append_sector = u.append_sector + extent (files.map Prod.snd) ∧ Members u'.scratch u.append_sector (files.map Prod.snd) := by
  induction files generalizing u L with
  | nil => exact ⟨u,rfl,rfl,rfl,trivial⟩
  | cons file rest ih =>
    obtain ⟨block,name,bytes⟩ := file
    obtain ⟨x,named,rfl⟩ := there _ List.mem_cons_self
    have total : extent (((block,name,a.files x) :: rest).map Prod.snd) =
      1 + sectors (a.files x).length + extent (rest.map Prod.snd) := rfl
    rw [total] at room
    obtain ⟨u₁,L₁,first,holds₁,member,next,-⟩ := @fsutil_append_member u L a block name x holds named (plain _ List.mem_cons_self)
      (Nat.le_trans (names_short holds named) (by decide)) (by omega)
    have size := (fsutil_append_spec first).size
    obtain ⟨u',later,size',next',members⟩ := ih holds₁ (fun f inside => there f (List.mem_cons_of_mem _ inside))
      (fun f inside => plain f (List.mem_cons_of_mem _ inside)) (by rw [next,size]; omega)
    refine ⟨u',?_,size'.trans size,by rw [next',next,total]; omega,member_same member size' ?_,next ▸ members⟩
    · rw [List.map_cons,appends,first]
      exact later
    · rw [← next]
      exact appends_before _ later

/-- Where the next member would be are zeros, and then the byte after the last buffer. -/
theorem appends_marker (calls : List ((Nat → Byte) × List Byte)) (ran : appends (calls ++ [(block,name)]) u = some u') :
    u'.append_sector < u'.scratch.size ∧ ∀ o < BLOCK_SECTOR_SIZE, u'.scratch.data u'.append_sector o =
      if o = BLOCK_SECTOR_SIZE - 1 then block BLOCK_SECTOR_SIZE else 0#8 := by
  rw [appends_append] at ran
  obtain ⟨u₁,-,last⟩ := Option.bind_eq_some_iff.mp ran
  obtain ⟨u₂,appended,same⟩ := Option.bind_eq_some_iff.mp last
  cases same
  have done := fsutil_append_spec appended
  exact ⟨done.inside,done.marker⟩

end

end Pintos.Archives
