import Pintos.Bitmaps
import Pintos.Machines
import Mathlib.Data.List.OfFn
import Mathlib.Algebra.Group.Nat.Defs

/-!
The file system down to the bytes of the block device: `filesys/inode.c`,
`filesys/free-map.c`, `filesys/file.c`, `filesys/directory.c` and `filesys/filesys.c`.
A call is one step, as `filesys_lock` makes it. A panic, a failed assertion and a bad
pointer have no result.

An open inode and an open file are named by their addresses, which are not used twice.
`memory` holds the answers of the allocations to come. Each call of `inode_read_at` and
of `inode_write_at` has an answer of its own for the bounce buffer, whether it needs one
or not; `map_memory` holds those for the writes of the free map. A negative `off_t`
counts as zero wherever it bounds a loop. The part of a directory entry that `dir_add`
leaves as it was on its stack is `stack`. A buffer is a function of the offset.
-/
namespace Pintos.FileSystem
open Pintos.Machines Pintos.Bitmaps
set_option linter.unusedSimpArgs false

def BLOCK_SECTOR_SIZE : Nat := 512
def INODE_MAGIC : BitVec 32 := 0x494e4f44#32
def NAME_MAX : Nat := 14
def FREE_MAP_SECTOR : Nat := 0
def ROOT_DIR_SECTOR : Nat := 1
/-- `sizeof (struct dir_entry)` -/
def sizeof_dir_entry : Nat := 20

structure Device where
  size : Nat
  data : Nat → Nat → Byte

/-- `struct inode_disk`, without the unused words. -/
structure InodeDisk where
  start : BitVec 32
  length : BitVec 32
  magic : BitVec 32

/-- `struct inode` -/
structure Inode where
  sector : Nat
  open_cnt : Nat
  removed : Bool
  deny_write_cnt : Nat
  data : InodeDisk

/-- `struct file` -/
structure File where
  inode : Nat
  pos : Nat
  deny_write : Bool

/-- `struct dir_entry` -/
structure DirEntry where
  inode_sector : BitVec 32
  name : Fin (NAME_MAX + 1) → Byte
  in_use : Bool

structure FileSystem where
  fs_device : Device
  free_map : Bitmap
  free_map_file : Option Nat
  open_inodes : List Nat
  inodes : Nat → Option Inode
  files : Nat → Option File
  next : Nat
  memory : Nat → Bool
  map_memory : Nat → Bool
  stack : DirEntry

/-- Whether the next allocation succeeds. -/
def malloc (s : FileSystem) : Bool × FileSystem := (s.memory 0,{ s with memory := fun n => s.memory (n + 1) })

/-! ### The device -/

def block_read (d : Device) (sector : Nat) : Option (Nat → Byte) := if sector < d.size then some (d.data sector) else none
def block_write (d : Device) (sector : Nat) (buffer : Nat → Byte) : Option Device :=
  if sector < d.size then some { d with data := Function.update d.data sector buffer } else none

/-- The bytes of `struct inode_disk` in its sector. -/
def InodeDisk.bytes (i : InodeDisk) (o : Nat) : Byte :=
  if o < 4 then byte_of i.start o
  else if o < 8 then byte_of i.length (o - 4)
  else if o < 12 then byte_of i.magic (o - 8)
  else 0#8

def inode_disk (bytes : Nat → Byte) : InodeDisk where
  start := word_of bytes
  length := word_of fun k => bytes (4 + k)
  magic := word_of fun k => bytes (8 + k)

def DirEntry.bytes (e : DirEntry) (o : Nat) : Byte :=
  if o < 4 then byte_of e.inode_sector o
  else if h : o - 4 < NAME_MAX + 1 then e.name ⟨o - 4,h⟩
  else if e.in_use then 1#8 else 0#8
def dir_entry (bytes : List Byte) : DirEntry where
  inode_sector := word_of fun k => bytes.getD k 0#8
  name k := bytes.getD (4 + k) 0#8
  in_use := bytes.getD 19 0#8 ≠ 0#8

/-! ### Reading and writing inodes -/

def off_t (x : BitVec 32) : Nat := x.toInt.toNat

/-- `DIV_ROUND_UP (size, BLOCK_SECTOR_SIZE)` -/
def bytes_to_sectors (size : BitVec 32) : Nat := ((size + 512#32 - 1#32).sdiv 512#32).toNat

def byte_to_sector (i : InodeDisk) (pos : Nat) : Nat :=
  if pos < off_t i.length then (i.start + BitVec.ofNat 32 (pos / BLOCK_SECTOR_SIZE)).toNat else 2 ^ 32 - 1

/-- The bytes to copy out of a sector, or into it. -/
def chunk (i : InodeDisk) (size offset : Nat) : Nat :=
  min size (min (off_t i.length - offset) (BLOCK_SECTOR_SIZE - offset % BLOCK_SECTOR_SIZE))

/-- A whole sector needs no bounce buffer. -/
def Full (i : InodeDisk) (size offset : Nat) : Prop :=
  offset % BLOCK_SECTOR_SIZE = 0 ∧ chunk i size offset = BLOCK_SECTOR_SIZE

instance (i : InodeDisk) (size offset : Nat) : Decidable (Full i size offset) := inferInstanceAs (Decidable (_ ∧ _))

/-- The loop of `inode_read_at`, in at most `n` turns; `bytes` are those it has. -/
def readLoop (d : Device) (i : InodeDisk) (bounce : Bool) : Nat → Nat → Nat → List Byte → Option (List Byte)
  | 0, _, _, bytes => some bytes
  | n + 1, size, offset, bytes =>
    let chunk_size := chunk i size offset
    if chunk_size = 0 then some bytes
    else if ¬ Full i size offset ∧ bounce = false then some bytes
    else do
      let buffer ← block_read d (byte_to_sector i offset)
      readLoop d i bounce n (size - chunk_size) (offset + chunk_size)
        (bytes ++ (List.range chunk_size).map fun k => buffer (offset % BLOCK_SECTOR_SIZE + k))

/-- A turn of the loop of `inode_write_at`; `buffer` is what is left of it. -/
def write_chunk (d : Device) (i : InodeDisk) (buffer : Nat → Byte) (size offset : Nat) : Option Device :=
  let chunk_size := chunk i size offset
  let sector_idx := byte_to_sector i offset
  let sector_ofs := offset % BLOCK_SECTOR_SIZE
  if Full i size offset then block_write d sector_idx buffer
  else
    (if sector_ofs > 0 ∨ chunk_size < BLOCK_SECTOR_SIZE - sector_ofs then block_read d sector_idx else some fun _ => 0#8).bind fun bounce =>
      block_write d sector_idx fun o =>
        if sector_ofs ≤ o ∧ o < sector_ofs + chunk_size then buffer (o - sector_ofs) else bounce o

/-- The loop of `inode_write_at`. -/
def writeLoop (i : InodeDisk) (bounce : Bool) (buffer : Nat → Byte) : Nat → Nat → Nat → Nat → Device → Option (Nat × Device)
  | 0, _, _, bytes_written, d => some (bytes_written,d)
  | n + 1, size, offset, bytes_written, d =>
    let chunk_size := chunk i size offset
    if chunk_size = 0 then some (bytes_written,d)
    else if ¬ Full i size offset ∧ bounce = false then some (bytes_written,d)
    else (write_chunk d i (fun o => buffer (bytes_written + o)) size offset).bind
      (writeLoop i bounce buffer n (size - chunk_size) (offset + chunk_size) (bytes_written + chunk_size))

def inode_read_at (s : FileSystem) (inode size offset : Nat) : Option (List Byte × FileSystem) := do
  let i ← s.inodes inode
  let (bounce,s) := malloc s
  let bytes ← readLoop s.fs_device i.data bounce size size offset []
  some (bytes,s)

/-- `inode_write_at`, with the answer for the bounce buffer. -/
def write_at (s : FileSystem) (bounce : Bool) (inode : Nat) (buffer : Nat → Byte) (size offset : Nat) :
    Option (Nat × FileSystem) := do
  let i ← s.inodes inode
  if i.deny_write_cnt ≠ 0 then some (0,s)
  else
    let (bytes_written,d) ← writeLoop i.data bounce buffer size size offset 0 s.fs_device
    some (bytes_written,{ s with fs_device := d })

def inode_write_at (s : FileSystem) (inode : Nat) (buffer : Nat → Byte) (size offset : Nat) : Option (Nat × FileSystem) :=
  let (bounce,s) := malloc s
  write_at s bounce inode buffer size offset

/-! ### The free map -/

def file_read_at (s : FileSystem) (file size file_ofs : Nat) : Option (List Byte × FileSystem) := do
  let f ← s.files file
  inode_read_at s f.inode size file_ofs

/-- The free map is read from its file. -/
def bitmap_read (s : FileSystem) (file : Nat) : Option (Bool × FileSystem) :=
  let size := byte_cnt s.free_map.bit_cnt
  if s.free_map.bit_cnt > 0 then do
    let (bytes,s) ← file_read_at s file size 0
    some (decide (bytes.length = size),{ s with free_map := trim (overwrite s.free_map bytes) })
  else some (true,s)

/-- The free map is written to its file. -/
def bitmap_write (s : FileSystem) (file : Nat) : Option (Bool × FileSystem) := do
  let f ← s.files file
  let size := byte_cnt s.free_map.bit_cnt
  let (written,s) ← write_at { s with map_memory := fun n => s.map_memory (n + 1) } (s.map_memory 0) f.inode (image s.free_map) size 0
  some (decide (written = size),s)

/-- The first of `cnt` sectors, if there are so many. -/
def free_map_allocate (s : FileSystem) (cnt : Nat) : Option (Option Nat × FileSystem) := do
  let (sector,map) ← bitmap_scan_and_flip s.free_map 0 cnt false
  let s := { s with free_map := map }
  match sector, s.free_map_file with
    | some sector, some file =>
      let (written,s) ← bitmap_write s file
      if written then some (some sector,s)
      else
        let map ← bitmap_set_multiple s.free_map sector cnt false
        some (none,{ s with free_map := map })
    | sector, _ => some (sector,s)

def free_map_release (s : FileSystem) (sector cnt : Nat) : Option FileSystem := do
  let used ← bitmap_all s.free_map sector cnt
  if used then
    let map ← bitmap_set_multiple s.free_map sector cnt false
    let file ← s.free_map_file
    let (_,s) ← bitmap_write { s with free_map := map } file
    some s
  else none

/-! ### Inodes -/

def zeroLoop (start : Nat) : Nat → Nat → Device → Option Device
  | 0, _, d => some d
  | n + 1, i, d => (block_write d (start + i) fun _ => 0#8).bind (zeroLoop start n (i + 1))

def inode_create (s : FileSystem) (sector : Nat) (length : BitVec 32) : Option (Bool × FileSystem) :=
  if length.toInt < 0 then none
  else
    let (memory,s) := malloc s
    if memory then do
      let sectors := bytes_to_sectors length
      let (start,s) ← free_map_allocate s sectors
      match start with
        | none => some (false,s)
        | some start =>
          let i : InodeDisk := { start := BitVec.ofNat 32 start, length := length, magic := INODE_MAGIC }
          let d ← block_write s.fs_device sector i.bytes
          let d ← zeroLoop start sectors 0 d
          some (true,{ s with fs_device := d })
    else some (false,s)

def inode_reopen (s : FileSystem) (inode : Nat) : Option FileSystem := do
  let i ← s.inodes inode
  some { s with inodes := Function.update s.inodes inode (some { i with open_cnt := i.open_cnt + 1 }) }

def inode_open (s : FileSystem) (sector : Nat) : Option (Option Nat × FileSystem) :=
  match s.open_inodes.find? fun a => (s.inodes a).any fun i => i.sector = sector with
    | some a => (inode_reopen s a).map fun s => (some a,s)
    | none =>
      let (memory,s) := malloc s
      if memory then do
        let buffer ← block_read s.fs_device sector
        let i := { sector := sector, open_cnt := 1, removed := false, deny_write_cnt := 0, data := inode_disk buffer }
        some (some s.next,{ s with
          open_inodes := s.next :: s.open_inodes
          inodes := Function.update s.inodes s.next (some i)
          next := s.next + 1 })
      else some (none,s)

def inode_close (s : FileSystem) (inode : Nat) : Option FileSystem := do
  let i ← s.inodes inode
  if i.open_cnt = 1 then
    let s := { s with open_inodes := s.open_inodes.erase inode }
    let s ← if i.removed then
        (free_map_release s i.sector 1).bind fun s => free_map_release s i.data.start.toNat (bytes_to_sectors i.data.length)
      else some s
    some { s with inodes := Function.update s.inodes inode none }
  else some { s with inodes := Function.update s.inodes inode (some { i with open_cnt := i.open_cnt - 1 }) }

def inode_remove (s : FileSystem) (inode : Nat) : Option FileSystem := do
  let i ← s.inodes inode
  some { s with inodes := Function.update s.inodes inode (some { i with removed := true }) }

def inode_deny_write (s : FileSystem) (inode : Nat) : Option FileSystem := do
  let i ← s.inodes inode
  if i.deny_write_cnt + 1 ≤ i.open_cnt then
    some { s with inodes := Function.update s.inodes inode (some { i with deny_write_cnt := i.deny_write_cnt + 1 }) }
  else none

def inode_allow_write (s : FileSystem) (inode : Nat) : Option FileSystem := do
  let i ← s.inodes inode
  if 0 < i.deny_write_cnt ∧ i.deny_write_cnt ≤ i.open_cnt then
    some { s with inodes := Function.update s.inodes inode (some { i with deny_write_cnt := i.deny_write_cnt - 1 }) }
  else none

/-! ### Files -/

def file_open (s : FileSystem) (inode : Option Nat) : Option (Option Nat × FileSystem) :=
  let (memory,s) := malloc s
  match inode with
    | none => some (none,s)
    | some a =>
      if memory then
        some (some s.next,{ s with
          files := Function.update s.files s.next (some { inode := a, pos := 0, deny_write := false })
          next := s.next + 1 })
      else (inode_close s a).map fun s => (none,s)

def file_deny_write (s : FileSystem) (file : Nat) : Option FileSystem := do
  let f ← s.files file
  if f.deny_write then some s
  else inode_deny_write { s with files := Function.update s.files file (some { f with deny_write := true }) } f.inode
def file_allow_write (s : FileSystem) (file : Nat) : Option FileSystem := do
  let f ← s.files file
  if f.deny_write then inode_allow_write { s with files := Function.update s.files file (some { f with deny_write := false }) } f.inode
  else some s

def file_close (s : FileSystem) (file : Nat) : Option FileSystem := do
  let s ← file_allow_write s file
  let f ← s.files file
  let s ← inode_close s f.inode
  some { s with files := Function.update s.files file none }

def file_read (s : FileSystem) (file : Nat) (size : BitVec 32) : Option (List Byte × FileSystem) := do
  let f ← s.files file
  let (bytes,s) ← inode_read_at s f.inode (off_t size) f.pos
  some (bytes,{ s with files := Function.update s.files file (some { f with pos := f.pos + bytes.length }) })
def file_write (s : FileSystem) (file : Nat) (buffer : Nat → Byte) (size : BitVec 32) : Option (Nat × FileSystem) := do
  let f ← s.files file
  let (bytes_written,s) ← inode_write_at s f.inode buffer (off_t size) f.pos
  some (bytes_written,{ s with files := Function.update s.files file (some { f with pos := f.pos + bytes_written }) })
def file_seek (s : FileSystem) (file : Nat) (new_pos : BitVec 32) : Option FileSystem := do
  let f ← s.files file
  if new_pos.toInt < 0 then none
  else some { s with files := Function.update s.files file (some { f with pos := off_t new_pos }) }

/-! ### Directories -/

/-- A string ends at its first null byte. -/
def c_string (name : Fin (NAME_MAX + 1) → Byte) : List Byte := (List.ofFn name).takeWhile (· ≠ 0#8)

/-- `strlcpy (dst, src, sizeof dst)` -/
def strlcpy (dst : Fin (NAME_MAX + 1) → Byte) (src : List Byte) (k : Fin (NAME_MAX + 1)) : Byte :=
  if k < min src.length NAME_MAX then src.getD k 0#8
  else if k.val = min src.length NAME_MAX then 0#8
  else dst k

/-- The directory of an inode; a directory has no state besides. -/
def dir_open (s : FileSystem) (inode : Option Nat) : Option (Option Nat × FileSystem) :=
  let (memory,s) := malloc s
  match inode with
    | none => some (none,s)
    | some a => if memory then some (some a,s) else (inode_close s a).map fun s => (none,s)

def dir_open_root (s : FileSystem) : Option (Option Nat × FileSystem) :=
  (inode_open s ROOT_DIR_SECTOR).bind fun (inode,s) => dir_open s inode
def dir_close (s : FileSystem) : Option Nat → Option FileSystem
  | none => some s
  | some dir => inode_close s dir

def lookupLoop (dir : Nat) (name : List Byte) : Nat → Nat → FileSystem → Option (Option (DirEntry × Nat) × FileSystem)
  | 0, _, s => some (none,s)
  | n + 1, ofs, s => do
    let (bytes,s) ← inode_read_at s dir sizeof_dir_entry ofs
    if bytes.length = sizeof_dir_entry then
      let e := dir_entry bytes
      if e.in_use ∧ name = c_string e.name then some (some (e,ofs),s)
      else lookupLoop dir name n (ofs + sizeof_dir_entry) s
    else some (none,s)

/-- More turns than a directory has entries. -/
def turns (s : FileSystem) (dir : Nat) : Nat := ((s.inodes dir).map fun i => off_t i.data.length / sizeof_dir_entry).getD 0 + 1

/-- The entry and its offset. -/
def lookup (s : FileSystem) (dir : Nat) (name : List Byte) : Option (Option (DirEntry × Nat) × FileSystem) :=
  lookupLoop dir name (turns s dir) 0 s

def dir_lookup (s : FileSystem) (dir : Nat) (name : List Byte) : Option (Option Nat × FileSystem) := do
  let (found,s) ← lookup s dir name
  match found with
    | some (e,_) => inode_open s e.inode_sector.toNat
    | none => some (none,s)

/-- The loop of `dir_add`: the offset of the slot, and what the stack holds. -/
def slotLoop (dir : Nat) : Nat → Nat → DirEntry → FileSystem → Option (Nat × DirEntry × FileSystem)
  | 0, ofs, e, s => some (ofs,e,s)
  | n + 1, ofs, e, s => do
    let (bytes,s) ← inode_read_at s dir sizeof_dir_entry ofs
    if bytes.length = sizeof_dir_entry then
      let e := dir_entry bytes
      if e.in_use then slotLoop dir n (ofs + sizeof_dir_entry) e s else some (ofs,e,s)
    else some (ofs,e,s)

def dir_add (s : FileSystem) (dir : Nat) (name : List Byte) (inode_sector : Nat) : Option (Bool × FileSystem) :=
  if name = [] ∨ name.length > NAME_MAX then some (false,s)
  else do
    let (found,s) ← lookup s dir name
    match found with
      | some _ => some (false,s)
      | none =>
        let (ofs,e,s) ← slotLoop dir (turns s dir) 0 s.stack s
        let e := { in_use := true, name := strlcpy e.name name, inode_sector := BitVec.ofNat 32 inode_sector : DirEntry }
        let (written,s) ← inode_write_at s dir e.bytes sizeof_dir_entry ofs
        some (decide (written = sizeof_dir_entry),s)

def dir_remove (s : FileSystem) (dir : Nat) (name : List Byte) : Option (Bool × FileSystem) := do
  let (found,s) ← lookup s dir name
  match found with
    | none => some (false,s)
    | some (e,ofs) =>
      let (inode,s) ← inode_open s e.inode_sector.toNat
      match inode with
        | none => some (false,s)
        | some a =>
          let (written,s) ← inode_write_at s dir ({ e with in_use := false } : DirEntry).bytes sizeof_dir_entry ofs
          if written = sizeof_dir_entry then
            let s ← inode_remove s a
            (inode_close s a).map fun s => (true,s)
          else (inode_close s a).map fun s => (false,s)

/-! ### The file system -/

/-- What follows `dir_open_root` and `free_map_allocate` in `filesys_create`. -/
def create_at (s : FileSystem) (dir : Nat) (name : List Byte) (inode_sector : Nat) (initial_size : BitVec 32) :
    Option (Bool × FileSystem) := do
  let (created,s) ← inode_create s inode_sector initial_size
  if created then dir_add s dir name inode_sector else some (false,s)

def filesys_create (s : FileSystem) (name : List Byte) (initial_size : BitVec 32) : Option (Bool × FileSystem) := do
  let (dir,s) ← dir_open_root s
  match dir with
    | none => some (false,s)
    | some a =>
      let (sector,s) ← free_map_allocate s 1
      match sector with
        | none => (dir_close s dir).map fun s => (false,s)
        | some inode_sector =>
          let (success,s) ← create_at s a name inode_sector initial_size
          let s ← if !success ∧ inode_sector ≠ 0 then free_map_release s inode_sector 1 else some s
          (dir_close s dir).map fun s => (success,s)

def filesys_open (s : FileSystem) (name : List Byte) : Option (Option Nat × FileSystem) := do
  let (dir,s) ← dir_open_root s
  let (inode,s) ← match dir with
    | some a => dir_lookup s a name
    | none => some (none,s)
  let s ← dir_close s dir
  file_open s inode

def filesys_remove (s : FileSystem) (name : List Byte) : Option (Bool × FileSystem) := do
  let (dir,s) ← dir_open_root s
  let (success,s) ← match dir with
    | some a => dir_remove s a name
    | none => some (false,s)
  (dir_close s dir).map fun s => (success,s)

def dir_create (s : FileSystem) (sector entry_cnt : Nat) : Option (Bool × FileSystem) :=
  inode_create s sector (BitVec.ofNat 32 (entry_cnt * sizeof_dir_entry))

/-- The elements of the new map are `elements`. The map of a device of 2^31 sectors
    does not fit in memory. -/
def free_map_init (s : FileSystem) (elements : Nat → BitVec 32) : Option FileSystem :=
  let (first,s) := malloc s
  let (second,s) := malloc s
  if first ∧ second ∧ s.fs_device.size < 2 ^ 31 then do
    let map ← bitmap_create s.fs_device.size elements
    some { s with free_map := bitmap_mark (bitmap_mark map FREE_MAP_SECTOR) ROOT_DIR_SECTOR }
  else none

/-- Opens the free map file. -/
def open_map (s : FileSystem) : Option (Nat × FileSystem) := do
  let (inode,s) ← inode_open s FREE_MAP_SECTOR
  let (file,s) ← file_open s inode
  let file ← file
  some (file,{ s with free_map_file := some file })

def free_map_create (s : FileSystem) : Option FileSystem := do
  let (created,s) ← inode_create s FREE_MAP_SECTOR (BitVec.ofNat 32 (byte_cnt s.free_map.bit_cnt))
  if created then
    let (file,s) ← open_map s
    let (written,s) ← bitmap_write s file
    if written then some s else none
  else none

def free_map_open (s : FileSystem) : Option FileSystem := do
  let (file,s) ← open_map s
  let (read,s) ← bitmap_read s file
  if read then some s else none

def free_map_close (s : FileSystem) : Option FileSystem := s.free_map_file.bind (file_close s)

def do_format (s : FileSystem) : Option FileSystem := do
  let s ← free_map_create s
  let (created,s) ← dir_create s ROOT_DIR_SECTOR 16
  if created then free_map_close s else none

/-- From any state of the memory, with the device that is there. -/
def filesys_init (format : Bool) (s : FileSystem) : Option FileSystem := do
  let s ← free_map_init { s with open_inodes := [], free_map_file := none, inodes := fun _ => none, files := fun _ => none } s.free_map.bits
  let s ← if format then do_format s else some s
  free_map_open s

/-! ### Runs -/

inductive Call
  | filesys_create (name : List Byte) (initial_size : BitVec 32)
  | filesys_open (name : List Byte)
  | filesys_remove (name : List Byte)
  | file_read (file : Nat) (size : BitVec 32)
  | file_write (file : Nat) (buffer : Nat → Byte) (size : BitVec 32)
  | file_seek (file : Nat) (new_pos : BitVec 32)
  | file_close (file : Nat)

inductive Answer
  | success (b : Bool)
  | file (f : Option Nat)
  | bytes (l : List Byte)
  | count (n : Nat)
  | nothing

def call (s : FileSystem) : Call → Option (Answer × FileSystem)
  | .filesys_create name initial_size => (filesys_create s name initial_size).map fun r => (.success r.1,r.2)
  | .filesys_open name => (filesys_open s name).map fun r => (.file r.1,r.2)
  | .filesys_remove name => (filesys_remove s name).map fun r => (.success r.1,r.2)
  | .file_read file size => (file_read s file size).map fun r => (.bytes r.1,r.2)
  | .file_write file buffer size => (file_write s file buffer size).map fun r => (.count r.1,r.2)
  | .file_seek file new_pos => (file_seek s file new_pos).map fun s => (.nothing,s)
  | .file_close file => (file_close s file).map fun s => (.nothing,s)

/-- A handle is open, and not the kernel's own. -/
def Handle (s : FileSystem) (file : Nat) : Prop := s.files file ≠ none ∧ s.free_map_file ≠ some file

/-- A name is a string; a handle was opened and not yet closed; a size and a position
    are not negative. -/
def Lawful (s : FileSystem) : Call → Prop
  | .filesys_create name initial_size => 0#8 ∉ name ∧ 0 ≤ initial_size.toInt
  | .filesys_open name => 0#8 ∉ name
  | .filesys_remove name => 0#8 ∉ name
  | .file_read file _ => Handle s file
  | .file_write file _ _ => Handle s file
  | .file_seek file new_pos => Handle s file ∧ 0 ≤ new_pos.toInt
  | .file_close file => Handle s file

instance (s : FileSystem) (file : Nat) : Decidable (Handle s file) :=
  have : Decidable (s.files file ≠ none) := decidable_of_iff ((s.files file).isSome = true) Option.isSome_iff_ne_none
  inferInstanceAs (Decidable (_ ∧ _))

instance (s : FileSystem) (c : Call) : Decidable (Lawful s c) :=
  match c with
  | .filesys_create _ _ => inferInstanceAs (Decidable (_ ∧ _))
  | .filesys_open _ => inferInstanceAs (Decidable (¬ _))
  | .filesys_remove _ => inferInstanceAs (Decidable (¬ _))
  | .file_read file _ => inferInstanceAs (Decidable (Handle s file))
  | .file_write file _ _ => inferInstanceAs (Decidable (Handle s file))
  | .file_seek file _ => inferInstanceAs (Decidable (Handle s file ∧ _))
  | .file_close file => inferInstanceAs (Decidable (Handle s file))

/-- From a format on. -/
def machine : Machine FileSystem (Call × Answer) where
  Initial s := ∃ boot, filesys_init true boot = some s
  Step s event s' := Lawful s event.1 ∧ call s event.1 = some (event.2,s')

/-- The state after lawful calls, each of which meets `Guard`. -/
def calls (Guard : FileSystem → Call → Prop) [∀ s c, Decidable (Guard s c)] : List Call → FileSystem → Option FileSystem
  | [], s => some s
  | c :: rest, s => if Lawful s c ∧ Guard s c then (call s c).bind fun r => calls Guard rest r.2 else none

theorem calls_reaches {Guard : FileSystem → Call → Prop} [∀ s c, Decidable (Guard s c)] (list : List Call) {s s' : FileSystem}
    (before : Reaches machine (fun s e => Guard s e.1) s) (ran : calls Guard list s = some s') :
    Reaches machine (fun s e => Guard s e.1) s' := by
  induction list generalizing s with
  | nil =>
    cases ran
    exact before
  | cons c rest ih =>
    rw [calls] at ran
    split at ran
    · next meets =>
      obtain ⟨⟨answer,s₁⟩,first,later⟩ := Option.bind_eq_some_iff.mp ran
      exact ih (.next (e := (c,answer)) before meets.2 ⟨meets.1,first⟩) later
    · cases ran

end Pintos.FileSystem
