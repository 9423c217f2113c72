import Pintos.Bitmaps
import Pintos.Links
import Mathlib.Data.BitVec

/-!
`partition_scan` of `devices/partition.c`. A run lists the tables that the calls parse and the
partitions that are registered, in their order; a run of too few nested calls has no result.
Memory suffices, and what is printed is left out.
-/
namespace Pintos.Partitions
open Pintos.Bitmaps (Byte)
open Pintos.Links Relation
set_option linter.unusedSimpArgs false

abbrev Sector := BitVec 32

structure partition_table_entry where
  type : Byte
  offset : Sector
  size : Sector
  deriving DecidableEq

structure partition_table where
  partitions : List partition_table_entry
  signature : BitVec 16
  deriving DecidableEq

/-- A device: its size, and the bytes of its sectors. -/
structure Block where
  size : Sector
  data : Sector → Nat → Byte

def word (bytes : Nat → Byte) (o : Nat) : BitVec 32 := bytes (o + 3) ++ bytes (o + 2) ++ bytes (o + 1) ++ bytes o

/-- The table in the bytes of a sector. -/
def tableOf (bytes : Nat → Byte) : partition_table where
  partitions := (List.range 4).map fun i =>
    ⟨bytes (446 + 16 * i + 4),word bytes (446 + 16 * i + 8),word bytes (446 + 16 * i + 12)⟩
  signature := bytes 511 ++ bytes 510

inductive Event
  | parsed (sector : Sector) (pt : partition_table)
  | registered (part_nr : Nat) (type : Byte) (start size : Sector)
  deriving DecidableEq

def partition_table_entry.Empty (e : partition_table_entry) : Prop := e.size = 0 ∨ e.type = 0

def partition_table_entry.Extended (e : partition_table_entry) : Prop :=
  e.type = 0x05 ∨ e.type = 0x0f ∨ e.type = 0x85 ∨ e.type = 0xc5

instance : DecidablePred partition_table_entry.Empty := fun e => inferInstanceAs (Decidable (e.size = 0 ∨ e.type = 0))

instance : DecidablePred partition_table_entry.Extended := fun e =>
  inferInstanceAs (Decidable (e.type = 0x05 ∨ e.type = 0x0f ∨ e.type = 0x85 ∨ e.type = 0xc5))

/-- `found_partition`: the partition is registered if it lies inside of the device. -/
def found_partition (block : Block) (type : Byte) (start size : Sector) (part_nr : Nat) : List Event :=
  if block.size ≤ start then []
  else if start + size < start ∨ block.size < start + size then []
  else [.registered part_nr type start size]

/-- The sector that an extended partition leads to, and the primary extended sector there. -/
def target (sector primary : Sector) (e : partition_table_entry) : Sector × Sector :=
  if sector = 0 then (e.offset,e.offset) else (e.offset + primary,primary)

/-- The loop over the entries that are left. -/
def parseEntries (read : Sector → Sector → Nat → Option (Nat × List Event)) (block : Block) (sector primary : Sector) :
    List partition_table_entry → Nat → Option (Nat × List Event)
  | [], part_nr => some (part_nr,[])
  | e :: rest, part_nr =>
    if e.Empty then parseEntries read block sector primary rest part_nr
    else if e.Extended then
      (read (target sector primary e).1 (target sector primary e).2 part_nr).bind fun done =>
      (parseEntries read block sector primary rest done.1).map fun after => (after.1,done.2 ++ after.2)
    else
      (parseEntries read block sector primary rest (part_nr + 1)).map fun after =>
        (after.1,found_partition block e.type (e.offset + sector) e.size (part_nr + 1) ++ after.2)

/-- Every call reads sector 0 of the device. -/
def read_partition_table (block : Block) : Nat → Sector → Sector → Nat → Option (Nat × List Event)
  | 0, _, _, _ => none
  | fuel + 1, sector, primary_extended_sector, part_nr =>
    if block.size ≤ sector then some (part_nr,[])
    else
      let pt := tableOf (block.data 0)
      if pt.signature ≠ 0xaa55 then some (part_nr,[.parsed sector pt])
      else
        (parseEntries (read_partition_table block fuel) block sector primary_extended_sector pt.partitions part_nr).map
          fun done => (done.1,.parsed sector pt :: done.2)

def partition_scan (block : Block) (fuel : Nat) : Option (Nat × List Event) := read_partition_table block fuel 0 0 0

/-! ### What is to be found -/

/-- A call: the sector of the table, and the primary extended sector. -/
abbrev Call := Sector × Sector

/-- An extended partition of the table of a call leads to another, if there is a table. -/
def Link (block : Block) (tables : Sector → partition_table) (a b : Call) : Prop :=
  a.1 < block.size ∧ (tables a.1).signature = 0xaa55 ∧
    ∃ e ∈ (tables a.1).partitions, ¬ e.Empty ∧ e.Extended ∧ b = target a.1 a.2 e

/-- The partition starts and ends inside of the device. -/
def Inside (block : Block) (start size : Sector) : Prop :=
  start < block.size ∧ start.toNat + size.toNat ≤ block.size.toNat

/-- The entry is a partition, and what is registered for it. -/
def Lists (block : Block) (sector : Sector) (e : partition_table_entry) (event : Event) : Prop :=
  ¬ e.Empty ∧ ¬ e.Extended ∧ Inside block (e.offset + sector) e.size ∧ event = .registered 0 e.type (e.offset + sector) e.size

/-- What the call itself parses and registers, numbers apart. -/
def Emits (block : Block) (tables : Sector → partition_table) (a : Call) (event : Event) : Prop :=
  a.1 < block.size ∧ (event = .parsed a.1 (tables a.1) ∨
    ((tables a.1).signature = 0xaa55 ∧ ∃ e ∈ (tables a.1).partitions, Lists block a.1 e event))

/-- What the call and all those that it leads to parse and register. -/
def Yields (block : Block) (tables : Sector → partition_table) (a : Call) (event : Event) : Prop :=
  ∃ b, ReflTransGen (Link block tables) a b ∧ Emits block tables b event

/-- The event without the number of the partition. -/
def Event.unnumbered : Event → Event
  | .parsed sector pt => .parsed sector pt
  | .registered _ type start size => .registered 0 type start size

/-- The tables that are on the device, and the one that is read instead. -/
def onDevice (block : Block) (sector : Sector) : partition_table := tableOf (block.data sector)

def first (block : Block) (_ : Sector) : partition_table := tableOf (block.data 0)

variable {block : Block} {tables tables' : Sector → partition_table} {a b : Call} {event : Event} {log : List Event}
  {fuel fuel' part_nr : Nat} {e : partition_table_entry} {entries : List partition_table_entry}
  {read read' : Sector → Sector → Nat → Option (Nat × List Event)} {sector primary start size : Sector}
  {done : Nat × List Event} {type : Byte}

theorem inside_iff :
    Inside block start size ↔ ¬ block.size ≤ start ∧ ¬ (start + size < start ∨ block.size < start + size) := by
  rw [Inside]
  bv_omega

theorem found_partition_spec :
    event ∈ (found_partition block type start size part_nr).map Event.unnumbered ↔
      Inside block start size ∧ event = .registered 0 type start size := by
  rw [inside_iff,found_partition]
  by_cases past : block.size ≤ start
  · simp [past]
  · by_cases end_past : start + size < start ∨ block.size < start + size
    · simp [past,end_past]
    · simp [past,end_past,Event.unnumbered]

theorem yields_iff : Yields block tables a event ↔
    Emits block tables a event ∨ ∃ b, Link block tables a b ∧ Yields block tables b event := by
  constructor
  · rintro ⟨b,path,emits⟩
    rcases path.cases_head with same | ⟨next,linked,rest⟩
    · exact .inl (same ▸ emits)
    · exact .inr ⟨next,linked,b,rest,emits⟩
  · rintro (emits | ⟨next,linked,b,rest,emits⟩)
    · exact ⟨a,ReflTransGen.refl,emits⟩
    · exact ⟨b,rest.head linked,emits⟩

/-- The loop registers the partitions among the entries, and does what the calls for the extended ones do. -/
theorem parseEntries_log {yields : Call → Event → Prop}
    (calls : ∀ sector primary part_nr done, read sector primary part_nr = some done →
      ∀ event, event ∈ done.2.map Event.unnumbered ↔ yields (sector,primary) event)
    (ran : parseEntries read block sector primary entries part_nr = some done) (event : Event) :
    event ∈ done.2.map Event.unnumbered ↔ ∃ e ∈ entries, Lists block sector e event ∨
      (¬ e.Empty ∧ e.Extended ∧ yields (target sector primary e) event) := by
  induction entries generalizing part_nr done with
  | nil =>
    cases ran
    simp
  | cons e rest ih =>
    rw [parseEntries] at ran
    simp only [List.mem_cons,exists_eq_or_imp]
    by_cases empty : e.Empty
    · rw [if_pos empty] at ran
      rw [ih ran]
      simp [Lists,empty]
    · rw [if_neg empty] at ran
      by_cases extended : e.Extended
      · rw [if_pos extended] at ran
        obtain ⟨called,call,after⟩ := Option.bind_eq_some_iff.mp ran
        obtain ⟨done',loop,same⟩ := Option.map_eq_some_iff.mp after
        rw [← same,List.map_append,List.mem_append,calls _ _ _ _ call,ih loop]
        simp [Lists,empty,extended]
      · rw [if_neg extended] at ran
        obtain ⟨done',loop,same⟩ := Option.map_eq_some_iff.mp ran
        rw [← same,List.map_append,List.mem_append,found_partition_spec,ih loop]
        simp [Lists,empty,extended]

/-- A run yields what the calls yield that the table in sector 0 leads to. -/
theorem read_log (ran : read_partition_table block fuel a.1 a.2 part_nr = some done) (event : Event) :
    event ∈ done.2.map Event.unnumbered ↔ Yields block (first block) a event := by
  induction fuel generalizing a part_nr done event with
  | zero => cases ran
  | succ fuel ih =>
    rw [read_partition_table] at ran
    rw [yields_iff]
    by_cases past : block.size ≤ a.1
    · rw [if_pos past] at ran
      cases ran
      have outside : ¬ a.1 < block.size := BitVec.not_lt.mpr past
      simp [Emits,Link,outside]
    · have inside : a.1 < block.size := BitVec.not_le.mp past
      rw [if_neg past] at ran
      by_cases signed : (tableOf (block.data 0)).signature = 0xaa55
      · rw [if_neg (not_not_intro signed)] at ran
        obtain ⟨done',loop,same⟩ := Option.map_eq_some_iff.mp ran
        have calls : ∀ sector primary part_nr done, read_partition_table block fuel sector primary part_nr = some done →
            ∀ event, event ∈ done.2.map Event.unnumbered ↔ Yields block (first block) (sector,primary) event :=
          fun sector primary part_nr done call event => @ih (sector,primary) part_nr done call event
        have entries := parseEntries_log calls loop event
        rw [← same,List.map_cons,List.mem_cons,entries]
        constructor
        · rintro (here | ⟨e,member,lists | ⟨nonempty,extended,yields⟩⟩)
          · exact .inl ⟨inside,.inl here⟩
          · exact .inl ⟨inside,.inr ⟨signed,e,member,lists⟩⟩
          · exact .inr ⟨target a.1 a.2 e,⟨inside,signed,e,member,nonempty,extended,rfl⟩,yields⟩
        · rintro (⟨-,here | ⟨-,e,member,lists⟩⟩ | ⟨b,⟨-,-,e,member,nonempty,extended,rfl⟩,yields⟩)
          · exact .inl here
          · exact .inr ⟨e,member,.inl lists⟩
          · exact .inr ⟨e,member,.inr ⟨nonempty,extended,yields⟩⟩
      · rw [if_pos signed] at ran
        cases ran
        refine List.mem_singleton.trans ⟨fun here => .inl ⟨inside,.inl here⟩,?_⟩
        rintro (⟨-,here | ⟨valid,-⟩⟩ | ⟨b,⟨-,valid,-⟩,-⟩)
        · exact here
        · exact absurd valid signed
        · exact absurd valid signed

/-! ### Ends of runs -/

theorem parseEntries_more (more : ∀ sector primary part_nr done, read sector primary part_nr = some done →
      read' sector primary part_nr = some done)
    (ran : parseEntries read block sector primary entries part_nr = some done) :
    parseEntries read' block sector primary entries part_nr = some done := by
  induction entries generalizing part_nr done with
  | nil => exact ran
  | cons e rest ih =>
    rw [parseEntries] at ran ⊢
    by_cases empty : e.Empty
    · rw [if_pos empty] at ran ⊢
      exact ih ran
    · rw [if_neg empty] at ran ⊢
      by_cases extended : e.Extended
      · rw [if_pos extended] at ran ⊢
        obtain ⟨called,call,after⟩ := Option.bind_eq_some_iff.mp ran
        obtain ⟨done',loop,same⟩ := Option.map_eq_some_iff.mp after
        rw [more _ _ _ _ call,Option.bind_some,ih loop,Option.map_some,same]
      · rw [if_neg extended] at ran ⊢
        obtain ⟨done',loop,same⟩ := Option.map_eq_some_iff.mp ran
        rw [ih loop,Option.map_some,same]

/-- More nested calls do not change a result. -/
theorem read_more (more : fuel ≤ fuel') (ran : read_partition_table block fuel sector primary part_nr = some done) :
    read_partition_table block fuel' sector primary part_nr = some done := by
  induction fuel generalizing fuel' sector primary part_nr done with
  | zero => cases ran
  | succ fuel ih =>
    obtain ⟨fuel',rfl⟩ := Nat.exists_eq_add_of_le' (Nat.le_trans (Nat.succ_le_succ (Nat.zero_le fuel)) more)
    rw [read_partition_table] at ran ⊢
    by_cases past : block.size ≤ sector
    · rw [if_pos past] at ran ⊢
      exact ran
    · rw [if_neg past] at ran ⊢
      by_cases signed : (tableOf (block.data 0)).signature ≠ 0xaa55
      · rw [if_pos signed] at ran ⊢
        exact ran
      · rw [if_neg signed] at ran ⊢
        obtain ⟨done',loop,same⟩ := Option.map_eq_some_iff.mp ran
        rw [parseEntries_more (fun _ _ _ _ call => ih (by omega) call) loop,Option.map_some,same]

/-- The loop ends if all of its calls do. -/
theorem parseEntries_ends (calls : ∀ e ∈ entries, ¬ e.Empty → e.Extended → ∃ fuel, ∀ part_nr, ∃ done,
      read_partition_table block fuel (target sector primary e).1 (target sector primary e).2 part_nr = some done) :
    ∃ fuel, ∀ part_nr, ∃ done, parseEntries (read_partition_table block fuel) block sector primary entries part_nr = some done := by
  induction entries with
  | nil => exact ⟨0,fun part_nr => ⟨_,rfl⟩⟩
  | cons e rest ih =>
    obtain ⟨fuel,loops⟩ := ih fun e' later => calls e' (List.mem_cons_of_mem e later)
    by_cases empty : e.Empty
    · refine ⟨fuel,fun part_nr => ?_⟩
      rw [parseEntries,if_pos empty]
      exact loops part_nr
    · by_cases extended : e.Extended
      · obtain ⟨fuel₁,call⟩ := calls e List.mem_cons_self empty extended
        refine ⟨max fuel fuel₁,fun part_nr => ?_⟩
        obtain ⟨called,ran⟩ := call part_nr
        obtain ⟨done,loop⟩ := loops called.1
        rw [parseEntries,if_neg empty,if_pos extended,read_more (Nat.le_max_right _ _) ran,Option.bind_some,
          parseEntries_more (fun _ _ _ _ call => read_more (Nat.le_max_left _ _) call) loop]
        exact ⟨_,rfl⟩
      · refine ⟨fuel,fun part_nr => ?_⟩
        obtain ⟨done,loop⟩ := loops (part_nr + 1)
        rw [parseEntries,if_neg empty,if_neg extended,loop]
        exact ⟨_,rfl⟩

instance : Finite Call :=
  Finite.of_injective (fun call : Call => (call.1.toFin,call.2.toFin)) fun a b same => by
    obtain ⟨left,right⟩ := Prod.ext_iff.mp same
    exact Prod.ext (BitVec.eq_of_toFin_eq left) (BitVec.eq_of_toFin_eq right)

/-- The calls come to an end if the table in sector 0 leads to none in a circle. -/
theorem read_ends (acyclic : AcyclicFrom (Link block (first block)) a) :
    ∃ fuel, ∀ part_nr, ∃ done, read_partition_table block fuel a.1 a.2 part_nr = some done := by
  refine acyclic_induction (P := fun a : Call => ∃ fuel, ∀ part_nr, ∃ done,
    read_partition_table block fuel a.1 a.2 part_nr = some done) acyclic fun a _ calls => ?_
  by_cases past : block.size ≤ a.1
  · exact ⟨1,fun part_nr => ⟨_,if_pos past⟩⟩
  · by_cases signed : (tableOf (block.data 0)).signature = 0xaa55
    · obtain ⟨fuel,loops⟩ := @parseEntries_ends block (tableOf (block.data 0)).partitions a.1 a.2
        fun e member nonempty extended =>
          calls (target a.1 a.2 e) ⟨BitVec.not_le.mp past,signed,e,member,nonempty,extended,rfl⟩
      refine ⟨fuel + 1,fun part_nr => ?_⟩
      obtain ⟨done,loop⟩ := loops part_nr
      rw [read_partition_table,if_neg past]
      simp only [ne_eq,signed,not_true_eq_false,if_false,loop]
      exact ⟨_,rfl⟩
    · refine ⟨1,fun part_nr => ?_⟩
      rw [read_partition_table,if_neg past]
      exact ⟨_,if_pos signed⟩

/-! ### Scanning -/

/-- The scan ends, every call parses the table of its sector, and what is registered are the partitions of the tables
that the MBR leads to. -/
def Scans (block : Block) : Prop :=
  ∃ fuel part_nr log, partition_scan block fuel = some (part_nr,log) ∧
    (∀ sector pt, .parsed sector pt ∈ log → pt = onDevice block sector) ∧
    ∀ type start size, (∃ number, .registered number type start size ∈ log) ↔
      ∃ a, ReflTransGen (Link block (onDevice block)) (0,0) a ∧ a.1 < block.size ∧
        (onDevice block a.1).signature = 0xaa55 ∧ ∃ e ∈ (onDevice block a.1).partitions, ¬ e.Empty ∧ ¬ e.Extended ∧
          type = e.type ∧ start = e.offset + a.1 ∧ size = e.size ∧ Inside block start size

/-- The extended partitions of the device lead to no table in a circle. -/
def Acyclic (block : Block) : Prop := AcyclicFrom (Link block (onDevice block)) (0,0)

theorem parsed_of_log {pt : partition_table} : .parsed sector pt ∈ log ↔ Event.parsed sector pt ∈ log.map Event.unnumbered := by
  refine ⟨fun member => List.mem_map.mpr ⟨_,member,rfl⟩,fun member => ?_⟩
  obtain ⟨event,member,same⟩ := List.mem_map.mp member
  cases event with
  | parsed sector' pt' => exact same ▸ member
  | registered number type start size => cases same

theorem registered_of_log : (∃ number, .registered number type start size ∈ log) ↔
    Event.registered 0 type start size ∈ log.map Event.unnumbered := by
  constructor
  · rintro ⟨number,member⟩
    exact List.mem_map.mpr ⟨_,member,rfl⟩
  · intro member
    obtain ⟨event,logged,same⟩ := List.mem_map.mp member
    cases event with
    | parsed sector pt => cases same
    | registered number type' start' size' =>
      obtain ⟨-,rfl,rfl,rfl⟩ := Event.registered.inj same
      exact ⟨number,logged⟩

theorem yields_parsed {pt : partition_table} : Yields block tables a (.parsed sector pt) ↔
    ∃ b, ReflTransGen (Link block tables) a b ∧ b.1 < block.size ∧ sector = b.1 ∧ pt = tables b.1 := by
  refine exists_congr fun b => and_congr_right fun _ => and_congr_right fun _ => ?_
  constructor
  · rintro (same | ⟨-,e,-,-,-,-,other⟩)
    · exact Event.parsed.inj same
    · cases other
  · rintro ⟨rfl,rfl⟩
    exact .inl rfl

theorem yields_registered : Yields block tables a (.registered 0 type start size) ↔
    ∃ b, ReflTransGen (Link block tables) a b ∧ b.1 < block.size ∧ (tables b.1).signature = 0xaa55 ∧
      ∃ e ∈ (tables b.1).partitions, ¬ e.Empty ∧ ¬ e.Extended ∧ type = e.type ∧ start = e.offset + b.1 ∧ size = e.size ∧
        Inside block start size := by
  refine exists_congr fun b => and_congr_right fun _ => and_congr_right fun _ => ?_
  constructor
  · rintro (other | ⟨signed,e,member,nonempty,plain,inside,same⟩)
    · cases other
    · obtain ⟨-,rfl,rfl,rfl⟩ := Event.registered.inj same
      exact ⟨signed,e,member,nonempty,plain,rfl,rfl,rfl,inside⟩
  · rintro ⟨signed,e,member,nonempty,plain,rfl,rfl,rfl,inside⟩
    exact .inr ⟨signed,e,member,nonempty,plain,inside,rfl⟩

/-- The same table on the device has the same links. -/
theorem link_same (same : a.1 < block.size → tables a.1 = tables' a.1) : Link block tables a b ↔ Link block tables' a b := by
  refine and_congr_right fun inside => ?_
  rw [same inside]

/-- Scanning is right exactly if every table that the MBR leads to, and that is on the device, is the same as that
in sector 0. -/
theorem partition_scan_correct_iff (block : Block) (acyclic : Acyclic block) :
    Scans block ↔ ∀ a, ReflTransGen (Link block (onDevice block)) (0,0) a → a.1 < block.size →
      onDevice block a.1 = onDevice block 0 := by
  constructor
  · rintro ⟨fuel,part_nr,log,ran,own,-⟩
    have read : ∀ a, ReflTransGen (Link block (first block)) (0,0) a → a.1 < block.size →
        first block a.1 = onDevice block a.1 := fun a reached inside =>
      own a.1 _ (parsed_of_log.mpr ((read_log (a := (0,0)) ran _).mpr (yields_parsed.mpr ⟨a,reached,inside,rfl,rfl⟩)))
    intro a reached inside
    have reads := (reach_same (fun a reached b => link_same (read a reached)) a).mpr reached
    exact (read a reads inside).symm
  · intro equal
    have table : ∀ a, ReflTransGen (Link block (onDevice block)) (0,0) a → a.1 < block.size →
        onDevice block a.1 = first block a.1 := equal
    have same : ∀ a, ReflTransGen (Link block (onDevice block)) (0,0) a → ∀ b,
        Link block (onDevice block) a b ↔ Link block (first block) a b := fun a reached b => link_same (table a reached)
    obtain ⟨fuel,ends⟩ := read_ends (acyclic_same same acyclic)
    obtain ⟨done,ran⟩ := ends 0
    have found := read_log ran
    refine ⟨fuel,done.1,done.2,ran,fun sector pt member => ?_,fun type start size => ?_⟩
    · obtain ⟨b,reached,inside,rfl,rfl⟩ := yields_parsed.mp ((found _).mp (parsed_of_log.mp member))
      exact (table b ((reach_same same b).mpr reached) inside).symm
    · rw [registered_of_log,found,yields_registered]
      refine exists_congr fun b => ?_
      rw [← reach_same same b]
      refine and_congr_right fun reached => and_congr_right fun inside => ?_
      rw [table b reached inside]

/-! ### Examples -/

/-- A sector with one entry of the given type, offset and size. -/
def sectorOf (type offset size : Byte) : Nat → Byte := fun k =>
  if k = 450 then type else if k = 454 then offset else if k = 458 then size else if k = 510 then 0x55
  else if k = 511 then 0xaa else 0

/-- A device of four sectors with a file system partition in the last three. -/
def plain_device : Block := ⟨4,fun _ => sectorOf 0x21 1 3⟩

theorem partition_scan_plain : Scans plain_device := by
  have no_link : ∀ a b, ¬ Link plain_device (onDevice plain_device) a b := by
    rintro a b ⟨-,-,e,member,nonempty,extended,-⟩
    have none_ : ∀ e ∈ (tableOf (sectorOf 0x21 1 3)).partitions, e.Extended → e.Empty := by decide
    exact nonempty (none_ e member extended)
  refine (partition_scan_correct_iff plain_device ?_).mpr fun a _ _ => rfl
  intro a _ circle
  obtain ⟨b,linked,-⟩ := TransGen.head'_iff.mp circle
  exact no_link a b linked

/-- Its MBR leads to a table in sector 1, with a partition in sector 2. -/
def extended_device : Block := ⟨4,fun sector => if sector = 0 then sectorOf 0x05 1 3 else sectorOf 0x21 1 1⟩

/-- The call for sector 1 parses the MBR again. -/
theorem partition_scan_rereads : Acyclic extended_device ∧ ¬ Scans extended_device := by
  have links : ∀ a b, Link extended_device (onDevice extended_device) a b → a.1 = 0 ∧ b.1 = 1 := by
    rintro a b ⟨-,-,e,member,nonempty,extended,rfl⟩
    by_cases mbr : a.1 = 0
    · have offset : ∀ e ∈ (tableOf (sectorOf 0x05 1 3)).partitions, e.Extended → e.offset = 1 := by decide
      rw [onDevice,extended_device] at member
      simp only [mbr,if_true] at member
      rw [target,if_pos mbr]
      exact ⟨mbr,offset e member extended⟩
    · have none_ : ∀ e ∈ (tableOf (sectorOf 0x21 1 1)).partitions, e.Extended → e.Empty := by decide
      rw [onDevice,extended_device] at member
      simp only [mbr,if_false] at member
      exact absurd (none_ e member extended) nonempty
  constructor
  · intro a _ circle
    obtain ⟨b,linked,rest⟩ := TransGen.head'_iff.mp circle
    obtain ⟨c,-,last⟩ := TransGen.tail'_iff.mp circle
    have start := (links a b linked).1
    have stop := (links c a last).2
    rw [start] at stop
    exact absurd stop (by decide)
  · rintro ⟨fuel,part_nr,log,ran,own,-⟩
    have linked : Link extended_device (first extended_device) (0,0) (1,1) :=
      ⟨by decide,by decide,⟨0x05,1,3⟩,by decide,by decide,by decide,by decide⟩
    have reads : Event.parsed 1 (first extended_device 1) ∈ log :=
      parsed_of_log.mpr ((read_log (a := (0,0)) ran _).mpr
        (yields_parsed.mpr ⟨(1,1),ReflTransGen.single linked,by decide,rfl,rfl⟩))
    exact absurd (own 1 _ reads) (by decide)

end Pintos.Partitions
