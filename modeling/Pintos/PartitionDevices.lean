import Pintos.Partitions

/-!
`block_read` and `block_write` of `devices/block.c` for a disk and for the partitions that
`partition_scan` registers on it, with `partition_read` and `partition_write`. A call that
panics has no result.

`contents` is what a partition is for: a device of its own, which holds what was last
written to each of its sectors.
-/
namespace Pintos.PartitionDevices
open Pintos.Bitmaps (Byte)
open Pintos.Partitions (Sector Block Event Inside partition_scan read_log registered_of_log yields_registered)

abbrev Data := Nat → Byte

inductive block_type
  | BLOCK_KERNEL | BLOCK_FILESYS | BLOCK_SCRATCH | BLOCK_SWAP | BLOCK_RAW | BLOCK_FOREIGN
  deriving DecidableEq

/-- As `found_partition` has it. -/
def type_of (part_type : Byte) : block_type :=
  if part_type = 0x20 then .BLOCK_KERNEL else if part_type = 0x21 then .BLOCK_FILESYS
  else if part_type = 0x22 then .BLOCK_SCRATCH else if part_type = 0x23 then .BLOCK_SWAP else .BLOCK_FOREIGN

/-- The members of `struct partition` and of its block that the calls read. -/
structure Partition where
  type : block_type
  start : Sector
  size : Sector
  deriving DecidableEq

/-- The partitions that a scan has registered. -/
def partitions (log : List Event) : List Partition := log.filterMap fun
  | .registered _ type start size => some ⟨type_of type,start,size⟩
  | .parsed _ _ => none

/-! ### The code -/

/-- `check_sector` and then the operation of the block. -/
def block_read (size : Sector) (read : Sector → Option Data) (sector : Sector) : Option Data :=
  if size ≤ sector then none else read sector

def block_write (type : block_type) (size : Sector) (write : Sector → Data → Option Block) (sector : Sector) (buffer : Data) :
    Option Block :=
  if size ≤ sector then none else if type = .BLOCK_FOREIGN then none else write sector buffer

/-- The disk, which is registered as `BLOCK_RAW`. -/
def disk_write (disk : Block) (sector : Sector) (buffer : Data) : Block :=
  { disk with data := Function.update disk.data sector buffer }

def partition_read (disk : Block) (p : Partition) (sector : Sector) : Option Data :=
  block_read disk.size (fun sector => some (disk.data sector)) (p.start + sector)

def partition_write (disk : Block) (p : Partition) (sector : Sector) (buffer : Data) : Option Block :=
  block_write .BLOCK_RAW disk.size (fun sector buffer => some (disk_write disk sector buffer)) (p.start + sector) buffer

def Partition.read (p : Partition) (disk : Block) (sector : Sector) : Option Data :=
  block_read p.size (partition_read disk p) sector

def Partition.write (p : Partition) (disk : Block) (sector : Sector) (buffer : Data) : Option Block :=
  block_write p.type p.size (partition_write disk p) sector buffer

/-- A call of `block_write` with a partition. -/
structure Write where
  p : Partition
  sector : Sector
  buffer : Data

def writes : List Write → Block → Option Block
  | [], disk => some disk
  | w :: ws, disk => (w.p.write disk w.sector w.buffer).bind (writes ws)

/-! ### Partitions as devices -/

/-- What the sectors of a partition hold after some writes. -/
def contents (p : Partition) : List Write → (Sector → Data) → Sector → Data
  | [], held => held
  | w :: ws, held => contents p ws (if w.p = p then Function.update held w.sector w.buffer else held)

/-- A write that `block_write` lets through. -/
def Write.Allowed (w : Write) : Prop := w.sector < w.p.size ∧ w.p.type ≠ .BLOCK_FOREIGN

def Covers (p : Partition) (a : Sector) : Prop := p.start.toNat ≤ a.toNat ∧ a.toNat < p.start.toNat + p.size.toNat
def Apart (p q : Partition) : Prop := ∀ a, ¬ (Covers p a ∧ Covers q a)

variable {disk : Block} {p q : Partition} {ps : List Partition} {s : Sector} {buffer : Data} {w : Write} {ws : List Write}
  {held : Sector → Data}

theorem covers_sector (inside : Inside disk p.start p.size) (small : s < p.size) :
    Covers p (p.start + s) ∧ p.start + s < disk.size := by
  unfold Inside at inside
  unfold Covers
  bv_omega

/-- Of a partition that lies inside of the disk the disk itself refuses no sector. -/
theorem read_spec (inside : Inside disk p.start p.size) :
    p.read disk s = if s < p.size then some (disk.data (p.start + s)) else none := by
  rw [Partition.read,block_read]
  by_cases small : s < p.size
  · have below := (covers_sector inside small).2
    rw [if_neg (BitVec.not_le.mpr small),if_pos small,partition_read,block_read,if_neg (BitVec.not_le.mpr below)]
  · rw [if_pos (BitVec.not_lt.mp small),if_neg small]

theorem write_spec (inside : Inside disk w.p.start w.p.size) :
    (w.Allowed → w.p.write disk w.sector w.buffer = some (disk_write disk (w.p.start + w.sector) w.buffer)) ∧
      (¬ w.Allowed → w.p.write disk w.sector w.buffer = none) := by
  rw [Partition.write,block_write]
  by_cases small : w.sector < w.p.size
  · rw [if_neg (BitVec.not_le.mpr small)]
    by_cases foreign : w.p.type = .BLOCK_FOREIGN
    · exact ⟨fun allowed => absurd foreign allowed.2,fun _ => if_pos foreign⟩
    · have below := (covers_sector inside small).2
      refine ⟨fun _ => ?_,fun refused => absurd ⟨small,foreign⟩ refused⟩
      rw [if_neg foreign,partition_write,block_write,if_neg (BitVec.not_le.mpr below),if_neg (by decide)]
  · exact ⟨fun allowed => absurd allowed.1 small,fun _ => if_pos (BitVec.not_lt.mp small)⟩

/-- A write through one partition, seen through another or through the same. -/
theorem write_seen (inside : Inside disk p.start p.size) (inside' : Inside disk w.p.start w.p.size) (allowed : w.Allowed)
    (apart : w.p ≠ p → Apart p w.p) (same : ∀ s < p.size, disk.data (p.start + s) = held s) (small : s < p.size) :
    (disk_write disk (w.p.start + w.sector) w.buffer).data (p.start + s) =
      (if w.p = p then Function.update held w.sector w.buffer else held) s := by
  change Function.update disk.data (w.p.start + w.sector) w.buffer (p.start + s) = _
  by_cases this : w.p = p
  · rw [if_pos this,this]
    by_cases there : s = w.sector
    · rw [there,Function.update_self,Function.update_self]
    · have other : p.start + s ≠ p.start + w.sector := fun equal => there ((BitVec.add_right_inj p.start).mp equal)
      rw [Function.update_of_ne other,Function.update_of_ne there,same s small]
  · have other : p.start + s ≠ w.p.start + w.sector := by
      intro equal
      have mine := (covers_sector inside small).1
      rw [equal] at mine
      exact apart this _ ⟨mine,(covers_sector inside' allowed.1).1⟩
    rw [if_neg this,Function.update_of_ne other,same s small]

/-- A run of writes through partitions inside of the disk goes through exactly if each of
    them is allowed. -/
theorem writes_spec (inside : ∀ w ∈ ws, Inside disk w.p.start w.p.size) :
    (writes ws disk).isSome = true ↔ ∀ w ∈ ws, w.Allowed := by
  induction ws generalizing disk with
  | nil => exact ⟨fun _ w member => (List.not_mem_nil member).elim,fun _ => rfl⟩
  | cons w ws ih =>
    obtain ⟨goes,panics⟩ := write_spec (inside w List.mem_cons_self)
    rw [writes,List.forall_mem_cons]
    by_cases allowed : w.Allowed
    · have later : ∀ v ∈ ws, Inside (disk_write disk (w.p.start + w.sector) w.buffer) v.p.start v.p.size :=
        fun v member => inside v (List.mem_cons_of_mem _ member)
      rw [goes allowed,Option.bind_some]
      exact (ih later).trans (and_iff_right allowed).symm
    · rw [panics allowed]
      exact ⟨fun some => absurd some Bool.false_ne_true,fun all => absurd all.1 allowed⟩

theorem writes_seen {after : Block} (inside : Inside disk p.start p.size) (insides : ∀ w ∈ ws, Inside disk w.p.start w.p.size)
    (apart : ∀ w ∈ ws, w.p ≠ p → Apart p w.p) (same : ∀ s < p.size, disk.data (p.start + s) = held s)
    (ran : writes ws disk = some after) :
    after.size = disk.size ∧ ∀ s < p.size, after.data (p.start + s) = contents p ws held s := by
  induction ws generalizing disk held with
  | nil =>
    cases ran
    exact ⟨rfl,same⟩
  | cons w ws ih =>
    obtain ⟨goes,panics⟩ := write_spec (insides w List.mem_cons_self)
    rw [writes] at ran
    by_cases allowed : w.Allowed
    · rw [goes allowed,Option.bind_some] at ran
      have later : ∀ v ∈ ws, Inside (disk_write disk (w.p.start + w.sector) w.buffer) v.p.start v.p.size :=
        fun v member => insides v (List.mem_cons_of_mem _ member)
      have seen (s : Sector) (small : s < p.size) :=
        write_seen inside (insides w List.mem_cons_self) allowed (apart w List.mem_cons_self) same small
      have still : Inside (disk_write disk (w.p.start + w.sector) w.buffer) p.start p.size := inside
      have rest := ih still later (fun v member => apart v (List.mem_cons_of_mem _ member)) seen ran
      exact rest
    · rw [panics allowed] at ran
      cases ran

theorem writes_outside {after : Block} {a : Sector} (insides : ∀ w ∈ ws, Inside disk w.p.start w.p.size)
    (free : ∀ w ∈ ws, ¬ Covers w.p a) (ran : writes ws disk = some after) : after.data a = disk.data a := by
  induction ws generalizing disk with
  | nil =>
    cases ran
    rfl
  | cons w ws ih =>
    obtain ⟨goes,panics⟩ := write_spec (insides w List.mem_cons_self)
    rw [writes] at ran
    by_cases allowed : w.Allowed
    · rw [goes allowed,Option.bind_some] at ran
      have later : ∀ v ∈ ws, Inside (disk_write disk (w.p.start + w.sector) w.buffer) v.p.start v.p.size :=
        fun v member => insides v (List.mem_cons_of_mem _ member)
      have kept := ih later (fun v member => free v (List.mem_cons_of_mem _ member)) ran
      have other : a ≠ w.p.start + w.sector := by
        intro here
        exact free w List.mem_cons_self (here ▸ (covers_sector (insides w List.mem_cons_self) allowed.1).1)
      exact kept.trans (Function.update_of_ne other _ _)
    · rw [panics allowed] at ran
      cases ran

/-- What a scan registers lies inside of the disk. -/
theorem partitions_inside {fuel part_nr : Nat} {log : List Event} (ran : partition_scan disk fuel = some (part_nr,log))
    (member : p ∈ partitions log) : Inside disk p.start p.size := by
  obtain ⟨event,logged,found⟩ := List.mem_filterMap.mp member
  cases event with
  | parsed sector pt => cases found
  | registered number type start size =>
    cases found
    have listed := registered_of_log.mp ⟨number,logged⟩
    obtain ⟨b,-,-,-,e,-,-,-,-,-,-,inside⟩ := yields_registered.mp ((read_log (a := (0,0)) ran _).mp listed)
    exact inside

/-- Each partition that a scan registers and that no other one of them overlaps is a device
    of its own, whatever is written through all of them: a write panics exactly when its
    sector is not of the partition or the partition is foreign, a read gives what was last
    written there, and sectors outside of the partitions are never written. -/
theorem partition_is_a_device {fuel part_nr : Nat} {log : List Event} (scanned : partition_scan disk fuel = some (part_nr,log))
    (through : ∀ w ∈ ws, w.p ∈ partitions log) :
    ((writes ws disk).isSome = true ↔ ∀ w ∈ ws, w.Allowed) ∧
      ∀ after, writes ws disk = some after →
        (∀ p ∈ partitions log, (∀ q ∈ partitions log, q ≠ p → Apart p q) → ∀ s,
          p.read after s = if s < p.size then some (contents p ws (fun s => disk.data (p.start + s)) s) else none) ∧
        ∀ a, (∀ p ∈ partitions log, ¬ Covers p a) → after.data a = disk.data a := by
  have insides (w : Write) (member : w ∈ ws) := partitions_inside scanned (through w member)
  refine ⟨writes_spec insides,fun after ran => ⟨fun p member apart s => ?_,fun a free => ?_⟩⟩
  · have inside := partitions_inside scanned member
    obtain ⟨size,seen⟩ := writes_seen inside insides (fun w written => apart w.p (through w written))
      (fun s _ => rfl) ran
    have still : Inside after p.start p.size := by
      rw [Inside,size]
      exact inside
    rw [read_spec still]
    split
    · rename_i small
      rw [seen s small]
    · rfl
  · exact writes_outside insides (fun w member => free w.p (through w member)) ran

/-- One write to the file system partition of a device of four sectors. -/
theorem partition_is_a_device_plain : ∃ log, (⟨.BLOCK_FILESYS,1,3⟩ : Partition) ∈ partitions log ∧
    (writes [⟨⟨.BLOCK_FILESYS,1,3⟩,2,fun _ => 7⟩] Partitions.plain_device).isSome = true := by
  have scanned : partition_scan Partitions.plain_device 1 =
      some (1,[.parsed 0 (Partitions.tableOf (Partitions.sectorOf 0x21 1 3)),.registered 1 0x21 1 3]) := by decide
  have member : (⟨.BLOCK_FILESYS,1,3⟩ : Partition) ∈
      partitions [.parsed 0 (Partitions.tableOf (Partitions.sectorOf 0x21 1 3)),.registered 1 0x21 1 3] := List.mem_singleton.mpr rfl
  have whole := partition_is_a_device scanned
    (show ∀ w ∈ [(⟨⟨.BLOCK_FILESYS,1,3⟩,2,fun _ => 7⟩ : Write)], w.p ∈ _ from
      fun w written => (List.mem_singleton.mp written) ▸ member)
  refine ⟨_,member,whole.1.mpr fun w written => ?_⟩
  rw [List.mem_singleton.mp written]
  exact ⟨by decide,by decide⟩

end Pintos.PartitionDevices
