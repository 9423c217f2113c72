import Pintos.Ustar
import Pintos.FileStore

/-!
`fsutil_append` and `fsutil_extract` of `filesys/fsutil.c`, and what an append leaves on
the scratch device. A panic has no result, and there is a scratch device.

A buffer is memory from the address of a block of 512 bytes on; what comes after the
block is whatever it is when the end of the archive is written. `sources` is not in the
code: it lists where in its buffer each sector was written from.
-/
namespace Pintos.Fsutil
open Pintos.FileSystem Pintos.Ustar Pintos.Machines
open Pintos.Bitmaps (Byte)
set_option linter.unusedSimpArgs false

structure State where
  fs : FileSystem
  scratch : Device
  /-- The `sector` of `fsutil_append`. -/
  append_sector : Nat
  /-- The `sector` of `fsutil_extract`. -/
  extract_sector : Nat
  sources : List Nat

/-- `memset` of the block from `k` on. -/
def clear (buffer : Nat → Byte) (k : Nat) : Nat → Byte := fun o => if k ≤ o ∧ o < BLOCK_SECTOR_SIZE then 0#8 else buffer o

def file_length (s : FileSystem) (file : Nat) : Option (BitVec 32) := do
  let f ← s.files file
  let i ← s.inodes f.inode
  some i.data.length

/-- `block_write (dst, sector, buffer + offset)` -/
def write_from (u : State) (sector : Nat) (buffer : Nat → Byte) (offset : Nat) : Option State :=
  (block_write u.scratch sector fun o => buffer (offset + o)).map fun d => { u with scratch := d, sources := u.sources ++ [offset] }

/-! ### Appending -/

/-- The loop of `fsutil_append`, in at most `n` turns. -/
def appendLoop (src : Nat) : Nat → Nat → (Nat → Byte) → State → Option ((Nat → Byte) × State)
  | 0, _, buffer, u => some (buffer,u)
  | n + 1, size, buffer, u =>
    if size = 0 then some (buffer,u)
    else
      let chunk_size := min size BLOCK_SECTOR_SIZE
      if u.append_sector ≥ u.scratch.size then none
      else do
        let (bytes,fs) ← file_read u.fs src (BitVec.ofNat 32 chunk_size)
        if bytes.length = chunk_size then
          let buffer := clear (put buffer 0 bytes) chunk_size
          let u ← write_from { u with fs := fs } u.append_sector buffer 0
          appendLoop src n (size - chunk_size) buffer { u with append_sector := u.append_sector + 1 }
        else none

/-- `fsutil_append`, with the memory that `malloc` returns. -/
def fsutil_append (u : State) (block : Nat → Byte) (file_name : List Byte) : Option State :=
  let (memory,fs) := malloc u.fs
  if memory then do
    let (src,fs) ← filesys_open fs file_name
    let src ← src
    let size ← file_length fs src
    let header ← ustar_make_header file_name .USTAR_REGULAR size block
    let u ← write_from { u with fs := fs } u.append_sector header 0
    let (buffer,u) ← appendLoop src (off_t size) (off_t size) header { u with append_sector := u.append_sector + 1 }
    let buffer := clear buffer 0
    let u ← write_from u u.append_sector buffer 0
    let u ← write_from u u.append_sector buffer 1
    let fs ← file_close u.fs src
    some { u with fs := fs }
  else none

/-- One call after another, each with the memory of its buffer. -/
def appends : List ((Nat → Byte) × List Byte) → State → Option State
  | [], u => some u
  | (block,file_name) :: rest, u => (fsutil_append u block file_name).bind (appends rest)

/-! ### Extracting -/

/-- The loop that copies a file of the archive, in at most `n` turns. -/
def copyLoop (dst : Nat) : Nat → Nat → State → Option State
  | 0, _, u => some u
  | n + 1, size, u =>
    if size = 0 then some u
    else do
      let chunk_size := min size BLOCK_SECTOR_SIZE
      let data ← block_read u.scratch u.extract_sector
      let (written,fs) ← file_write u.fs dst data (BitVec.ofNat 32 chunk_size)
      if written = chunk_size then copyLoop dst n (size - chunk_size) { u with fs := fs, extract_sector := u.extract_sector + 1 } else none

/-- A regular file of the archive. -/
def put_file (u : State) (file_name : List Byte) (size : BitVec 32) : Option State := do
  let (created,fs) ← filesys_create u.fs file_name size
  if created then
    let (dst,fs) ← filesys_open fs file_name
    let dst ← dst
    let u ← copyLoop dst (off_t size) (off_t size) { u with fs := fs }
    let fs ← file_close u.fs dst
    some { u with fs := fs }
  else none

/-- The loop of `fsutil_extract`. Each turn reads a sector, so there are at most as many
    as the device has sectors left, and one that panics. -/
def extractLoop : Nat → State → Option State
  | 0, _ => none
  | n + 1, u => do
    let header ← block_read u.scratch u.extract_sector
    let u := { u with extract_sector := u.extract_sector + 1 }
    match ustar_parse_header header with
      | .error _ => none
      | .ok (_,.USTAR_EOF,_) => some u
      | .ok (_,.USTAR_DIRECTORY,_) => extractLoop n u
      | .ok (file_name,.USTAR_REGULAR,size) => do
        let file_name ← file_name
        let u ← put_file u file_name size
        extractLoop n u

def fsutil_extract (u : State) : Option State :=
  let (header,fs) := malloc u.fs
  let (data,fs) := malloc fs
  if header ∧ data then do
    let u ← extractLoop (u.scratch.size + 1 - u.extract_sector) { u with fs := fs }
    let u ← write_from u 0 (fun _ => 0#8) 0
    write_from u 1 (fun _ => 0#8) 0
  else none

section
variable {u u' u₁ : State} {buffer buffer' block header : Nat → Byte} {file_name : List Byte} {n size sector offset src k o : Nat}

/-! ### What an append writes -/

theorem clear_outside (outside : BLOCK_SECTOR_SIZE ≤ o) :
    clear buffer k o = buffer o := if_neg fun both => absurd both.2 (Nat.not_lt.mpr outside)

theorem clear_inside (inside : o < BLOCK_SECTOR_SIZE) : clear buffer 0 o = 0#8 := if_pos ⟨Nat.zero_le o,inside⟩

theorem write_from_spec (ran : write_from u sector buffer offset = some u') : sector < u.scratch.size ∧
    u' = { u with scratch := { u.scratch with data := Function.update u.scratch.data sector fun o => buffer (offset + o) }, sources := u.sources ++ [offset] } := by
  obtain ⟨d,wrote,made⟩ := Option.map_eq_some_iff.mp ran
  rw [block_write] at wrote
  split at wrote
  · next inside =>
    cases wrote
    exact ⟨inside,made.symm⟩
  · cases wrote

/-- How many sectors a file of `size` bytes has in an archive. -/
def sectors (size : Nat) : Nat := (size + (BLOCK_SECTOR_SIZE - 1)) / BLOCK_SECTOR_SIZE

/-- Sectors from that of `u` to that of `u'` were written, all from the beginning of a
    buffer. -/
structure Advanced (u u' : State) (cnt : Nat) : Prop where
  sector : u'.append_sector = u.append_sector + cnt
  size : u'.scratch.size = u.scratch.size
  data : ∀ k, k < u.append_sector ∨ u.append_sector + cnt ≤ k → u'.scratch.data k = u.scratch.data k
  sources : u'.sources = u.sources ++ List.replicate cnt 0

theorem advanced_zero (u : State) (fs : FileSystem) :
    Advanced u { u with fs := fs } 0 := ⟨rfl,rfl,fun _ _ => rfl,by rw [List.replicate_zero,List.append_nil]⟩

theorem advanced_next {cnt : Nat} {fs : FileSystem} (wrote : write_from { u with fs := fs } u.append_sector buffer 0 = some u₁)
    (later : Advanced { u₁ with append_sector := u.append_sector + 1 } u' cnt) : Advanced u u' (cnt + 1) := by
  obtain ⟨-,rfl⟩ := write_from_spec wrote
  refine ⟨later.sector.trans (by show u.append_sector + 1 + cnt = _; omega),later.size,fun k outside => ?_,?_⟩
  · rw [later.data k (by show k < u.append_sector + 1 ∨ u.append_sector + 1 + cnt ≤ k; omega)]
    exact Function.update_of_ne (by omega) _ _
  · rw [later.sources,List.replicate_succ,List.append_assoc]
    rfl

theorem appendLoop_spec (enough : size ≤ n) (ran : appendLoop src n size buffer u = some (buffer',u')) :
    Advanced u u' (sectors size) ∧ ∀ o, BLOCK_SECTOR_SIZE ≤ o → buffer' o = buffer o := by
  induction n generalizing size buffer u with
  | zero =>
    cases ran
    obtain rfl : size = 0 := by omega
    exact ⟨advanced_zero u' u'.fs,fun _ _ => rfl⟩
  | succ n ih =>
    rw [appendLoop] at ran
    split at ran
    · next zero =>
      cases ran
      subst zero
      exact ⟨advanced_zero u' u'.fs,fun _ _ => rfl⟩
    · next positive =>
      dsimp only at ran
      split at ran
      · cases ran
      · obtain ⟨⟨bytes,fs⟩,-,ran⟩ := Option.bind_eq_some_iff.mp ran
        dsimp only at ran
        split at ran
        · next whole =>
          obtain ⟨u₁,wrote,ran⟩ := Option.bind_eq_some_iff.mp ran
          have sector : u₁.append_sector = u.append_sector := by rw [(write_from_spec wrote).2]
          obtain ⟨later,kept⟩ := ih (by rw [BLOCK_SECTOR_SIZE]; omega) ran
          rw [sector] at later
          have more : sectors size = sectors (size - min size BLOCK_SECTOR_SIZE) + 1 := by
            rw [sectors,sectors,BLOCK_SECTOR_SIZE]
            omega
          rw [more]
          refine ⟨advanced_next wrote later,fun o outside => ?_⟩
          rw [kept o outside,clear_outside outside,put_outside (.inr ?_)]
          rw [whole,Nat.zero_add]
          exact Nat.le_trans (Nat.min_le_right _ _) outside
        · cases ran

theorem ustar_make_header_outside {type : UstarType} {length : BitVec 32}
    (made : ustar_make_header file_name type length block = some header)
    (outside : USTAR_HEADER_SIZE ≤ o) : header o = block o := by
  rw [USTAR_HEADER_SIZE] at outside
  rw [ustar_make_header] at made
  dsimp only at made
  split at made
  · cases made
  · cases made
    rw [put_string_outside (by decide) (by omega),put_string_outside (by decide) (by omega),put_string_outside (by decide) (by omega),
      put_outside (.inr (Nat.le_trans (by decide : 263 + 2 ≤ 512) outside)),put_string_outside (by decide) (by omega),
      put_outside (.inr (Nat.le_trans (by decide : 156 + 1 ≤ 512) outside)),put_string_outside (by decide) (by omega),put_string_outside (by decide) (by omega),
      put_string_outside (by decide) (by omega),put_string_outside (by decide) (by omega),put_string_outside (by decide) (by omega),
      put_string_outside (by decide) (by omega),if_neg (by rw [USTAR_HEADER_SIZE]; omega)]

/-- What one append leaves behind. -/
structure Appended (u u' : State) (block : Nat → Byte) : Prop where
  advanced : ∃ cnt, u'.append_sector = u.append_sector + 1 + cnt ∧ u'.sources = u.sources ++ List.replicate (cnt + 2) 0 ++ [1]
  size : u'.scratch.size = u.scratch.size
  inside : u'.append_sector < u'.scratch.size
  before : ∀ k < u.append_sector, u'.scratch.data k = u.scratch.data k
  after : ∀ k, u'.append_sector < k → u'.scratch.data k = u.scratch.data k
  marker : ∀ o < BLOCK_SECTOR_SIZE, u'.scratch.data u'.append_sector o = if o = BLOCK_SECTOR_SIZE - 1 then block BLOCK_SECTOR_SIZE else 0#8

/-- The two writes of the end of the archive. -/
structure Marked (u u' : State) (sector : Nat) (next : Byte) : Prop where
  inside : sector < u.scratch.size
  append_sector : u'.append_sector = u.append_sector
  size : u'.scratch.size = u.scratch.size
  others : ∀ k, k ≠ sector → u'.scratch.data k = u.scratch.data k
  marker : ∀ o < BLOCK_SECTOR_SIZE, u'.scratch.data sector o = if o = BLOCK_SECTOR_SIZE - 1 then next else 0#8
  sources : u'.sources = u.sources ++ [0,1]

theorem marked (first : write_from u sector (clear buffer 0) 0 = some u₁)
    (second : write_from u₁ sector (clear buffer 0) 1 = some u') :
    Marked u u' sector (buffer BLOCK_SECTOR_SIZE) := by
  obtain ⟨inside,rfl⟩ := write_from_spec first
  obtain ⟨-,rfl⟩ := write_from_spec second
  refine ⟨inside,rfl,rfl,fun k other => ?_,fun o within => ?_,List.append_assoc ..⟩
  · exact (Function.update_of_ne other _ _).trans (Function.update_of_ne other _ _)
  · refine (congrFun (Function.update_self sector _ _) o).trans ?_
    split
    · next final =>
      rw [final]
      exact clear_outside (Nat.le_refl _)
    · exact clear_inside (by omega)

theorem fsutil_append_spec (ran : fsutil_append u block file_name = some u') : Appended u u' block := by
  rw [fsutil_append] at ran
  dsimp only at ran
  split at ran
  · obtain ⟨⟨src,fs⟩,-,ran⟩ := Option.bind_eq_some_iff.mp ran
    obtain ⟨f,-,ran⟩ := Option.bind_eq_some_iff.mp ran
    obtain ⟨length,-,ran⟩ := Option.bind_eq_some_iff.mp ran
    obtain ⟨header,made,ran⟩ := Option.bind_eq_some_iff.mp ran
    obtain ⟨u₁,first,ran⟩ := Option.bind_eq_some_iff.mp ran
    obtain ⟨⟨buffer,u₂⟩,copied,ran⟩ := Option.bind_eq_some_iff.mp ran
    obtain ⟨u₃,third,ran⟩ := Option.bind_eq_some_iff.mp ran
    obtain ⟨u₄,fourth,ran⟩ := Option.bind_eq_some_iff.mp ran
    obtain ⟨fs',-,last⟩ := Option.bind_eq_some_iff.mp ran
    cases last
    obtain ⟨later,kept⟩ := appendLoop_spec (Nat.le_refl _) copied
    have sector : u₁.append_sector = u.append_sector := by rw [(write_from_spec first).2]
    rw [sector] at later
    have advanced := advanced_next first later
    have same : u₃.append_sector = u₂.append_sector := by rw [(write_from_spec third).2]
    rw [same] at fourth
    have ends : Marked u₂ u₄ u₂.append_sector (buffer BLOCK_SECTOR_SIZE) := marked third fourth
    have next := advanced.sector
    rw [kept _ (Nat.le_refl _),ustar_make_header_outside (o := BLOCK_SECTOR_SIZE) made (Nat.le_refl _)] at ends
    refine ⟨⟨sectors (off_t length),?_,?_⟩,ends.size.trans advanced.size,?_,fun k below => ?_,fun k above => ?_,?_⟩
    · show u₄.append_sector = _
      rw [ends.append_sector,next]
      omega
    · show u₄.sources = _
      rw [ends.sources,advanced.sources,List.replicate_succ' (n := sectors (off_t length) + 1),List.append_assoc,
        List.append_assoc,List.append_assoc]
      rfl
    · show u₄.append_sector < u₄.scratch.size
      rw [ends.append_sector,ends.size]
      exact ends.inside
    · exact (ends.others k (by show k ≠ u₂.append_sector; omega)).trans (advanced.data k (.inl below))
    · have beyond : u₂.append_sector < k := by rw [← ends.append_sector]; exact above
      exact (ends.others k (Nat.ne_of_gt beyond)).trans (advanced.data k (.inr (by omega)))
    · show ∀ o < BLOCK_SECTOR_SIZE, u₄.scratch.data u₄.append_sector o = _
      rw [ends.append_sector]
      exact ends.marker
  · cases ran

/-! ### The end of the archive -/

/-- Two sectors of zeros, the end of an archive, are where the next member would be. -/
def Ended (u : State) : Prop := ∀ k < 2, u.append_sector + k < u.scratch.size ∧
    ∀ o < BLOCK_SECTOR_SIZE, u.scratch.data (u.append_sector + k) o = 0#8

/-- What an append is to leave behind. -/
structure Terminated (u u' : State) : Prop where
  ended : Ended u'
  /-- Every sector was written from inside of its buffer. -/
  inside : ∀ offset ∈ u'.sources, offset + BLOCK_SECTOR_SIZE ≤ BLOCK_SECTOR_SIZE
  members : ∀ k < u.append_sector, u'.scratch.data k = u.scratch.data k

/-- The second sector of the marker goes where the first went, from one byte further. -/
theorem ended_iff (done : Appended u u' block) :
    Ended u' ↔ block BLOCK_SECTOR_SIZE = 0#8 ∧ u'.append_sector + 1 < u.scratch.size ∧
    ∀ o < BLOCK_SECTOR_SIZE, u.scratch.data (u'.append_sector + 1) o = 0#8 := by
  have next := done.after (u'.append_sector + 1) (Nat.lt_succ_self _)
  constructor
  · intro ended
    obtain ⟨room,zeros⟩ := ended 1 (by decide)
    have last := (ended 0 (by decide)).2 (BLOCK_SECTOR_SIZE - 1) (by decide)
    rw [Nat.add_zero,done.marker _ (by decide),if_pos rfl] at last
    rw [next] at zeros
    rw [done.size] at room
    exact ⟨last,room,zeros⟩
  · rintro ⟨last,room,zeros⟩ k below
    by_cases first : k = 0
    · subst first
      refine ⟨done.inside,fun o within => ?_⟩
      rw [Nat.add_zero,done.marker o within]
      split
      · exact last
      · rfl
    · obtain rfl : k = 1 := by omega
      rw [next,done.size]
      exact ⟨room,zeros⟩

/-- Sectors that were not reached are as they were. -/
theorem appends_after (calls : List ((Nat → Byte) × List Byte)) (ran : appends calls u = some u') :
    u.append_sector ≤ u'.append_sector ∧ u'.scratch.size = u.scratch.size ∧ ∀ k, u'.append_sector < k →
    u'.scratch.data k = u.scratch.data k := by
  induction calls generalizing u with
  | nil =>
    cases ran
    exact ⟨Nat.le_refl _,rfl,fun _ _ => rfl⟩
  | cons call rest ih =>
    obtain ⟨u₁,first,later⟩ := Option.bind_eq_some_iff.mp ran
    have done := fsutil_append_spec first
    obtain ⟨more,size,after⟩ := ih later
    obtain ⟨cnt,sector,-⟩ := done.advanced
    exact ⟨by omega,size.trans done.size,fun k above => (after k above).trans (done.after k (by omega))⟩

theorem appends_append (calls later : List ((Nat → Byte) × List Byte)) (u : State) :
    appends (calls ++ later) u = (appends calls u).bind (appends later) := by
  induction calls generalizing u with
  | nil => rfl
  | cons call rest ih =>
    rw [List.cons_append,appends,appends,Option.bind_assoc]
    exact congrArg _ (funext fun u₁ => ih u₁)

/-- No append of any run leaves behind what it is to: each writes a sector from beyond
    its buffer. Earlier members are unchanged, and the two sectors are zero exactly
    where the byte after the buffer is and the second was before the run. -/
theorem archive_never_terminated {calls : List ((Nat → Byte) × List Byte)}
    (ran : appends (calls ++ [(block,file_name)]) u = some u') :
    ∃ u₁, appends calls u = some u₁ ∧ fsutil_append u₁ block file_name = some u' ∧ ¬ Terminated u₁ u' ∧
      (∀ k < u₁.append_sector, u'.scratch.data k = u₁.scratch.data k) ∧
      (Ended u' ↔ block BLOCK_SECTOR_SIZE = 0#8 ∧ u'.append_sector + 1 < u.scratch.size ∧
        ∀ o < BLOCK_SECTOR_SIZE, u.scratch.data (u'.append_sector + 1) o = 0#8) := by
  rw [appends_append] at ran
  obtain ⟨u₁,before,last⟩ := Option.bind_eq_some_iff.mp ran
  obtain ⟨u₂,appended,same⟩ := Option.bind_eq_some_iff.mp last
  cases same
  have done := fsutil_append_spec appended
  obtain ⟨-,size,after⟩ := appends_after calls before
  obtain ⟨cnt,sector,sources⟩ := done.advanced
  refine ⟨u₁,before,appended,fun terminated => ?_,done.before,?_⟩
  · have beyond := terminated.inside 1 (by rw [sources]; exact List.mem_append_right _ (List.mem_singleton_self 1))
    rw [BLOCK_SECTOR_SIZE] at beyond
    omega
  · rw [ended_iff done,size,after _ (by omega)]
end

/-- A file system, and a scratch device of eight sectors. -/
def with_file (fs : FileSystem) : State where
  fs := fs
  scratch := { size := 8, data := fun _ _ => 0xcc#8 }
  append_sector := 0
  extract_sector := 0
  sources := []

theorem archive_never_terminated_one : ∃ u u', appends [(fun _ => 0xcc#8,[97#8])] u = some u' ∧ ¬ Terminated u u' := by
  have ran : ((filesys_init true boot).bind (calls (fun _ _ => True) [.filesys_create [97#8] 600#32])).any
      (fun fs => (appends [(fun _ => 0xcc#8,[97#8])] (with_file fs)).isSome) = true := by decide +kernel
  obtain ⟨fs,-,ran⟩ := (Option.any_eq_true _ _).mp ran
  obtain ⟨u',ran⟩ := Option.isSome_iff_exists.mp ran
  have ran : appends ([] ++ [(fun _ => 0xcc#8,[97#8])]) (with_file fs) = some u' := ran
  obtain ⟨u₁,start,-,never,-⟩ := archive_never_terminated ran
  cases start
  exact ⟨with_file fs,u',ran,never⟩

/-- The byte after the buffer is in the archive, which has room for its end. -/
theorem append_not_terminated : ¬ ∀ calls u u₁ u' block file_name, appends calls u = some u₁ →
    fsutil_append u₁ block file_name = some u' →
    u'.append_sector + 1 < u'.scratch.size → Terminated u₁ u' := by
  intro always
  have ran : ((filesys_init true boot).bind (calls (fun _ _ => True) [.filesys_create [97#8] 600#32])).any
      (fun fs => (fsutil_append (with_file fs) (fun _ => 0xcc#8) [97#8]).any fun u =>
        decide (u.append_sector + 1 < u.scratch.size ∧ u.scratch.data u.append_sector 511 = 0xcc#8)) = true := by
    decide +kernel
  obtain ⟨fs,-,ran⟩ := (Option.any_eq_true _ _).mp ran
  obtain ⟨u',ran,last⟩ := (Option.any_eq_true _ _).mp ran
  obtain ⟨room,last⟩ := of_decide_eq_true last
  have zero := ((always [] _ _ u' _ _ rfl ran room).ended 0 (by decide)).2 511 (by decide)
  rw [Nat.add_zero,last] at zero
  cases zero

end Pintos.Fsutil
