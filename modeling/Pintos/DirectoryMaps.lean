import Pintos.DirectorySlots
import Pintos.FileStore

/-!
A directory is a finite map from names to sectors, through any calls of `dir_add`,
`dir_remove`, `dir_lookup` and `dir_readdir` on it. Its inode is held by whoever makes
the calls. The inodes that `dir_lookup` opened are closed at any time, and an inode that
was removed goes with its last reference.
-/
namespace Pintos.DirectoryMaps
open Pintos.Machines Pintos.Bitmaps Pintos.FileSystem Pintos.SlotTables Pintos.Simulations
set_option linter.unusedSimpArgs false

/-! ### The file system around a directory -/

/-- The directory is in inode `a`, and `held` are the references to inodes that callers
    have. -/
structure Kept (s : FileSystem) (L : Nat → Option InodeDisk) (held : List Nat) (a : Nat) (i : InodeDisk) : Prop where
  ledger : Ledger s.fs_device s.free_map L
  opened : Opened s.tables L held
  mapped : Mapped s.tables s.free_map.bit_cnt
  plenty : Plenty s
  inode : ∃ n, s.inodes a = some n ∧ n.data = i ∧ n.deny_write_cnt = 0 ∧ n.sector ≠ FREE_MAP_SECTOR
  mine : a ∈ held
  whole : off_t i.length % sizeof_dir_entry = 0

/-- The inodes on the device once the entry for that in sector `x` is removed: it is gone
    unless somebody has it open. -/
def unlinked (s : FileSystem) (L : Nat → Option InodeDisk) (x : Nat) : Nat → Option InodeDisk :=
  if s.open_inodes.any fun b => (s.inodes b).any fun n => n.sector = x then L else Function.update L x none

section
variable {s s' : FileSystem} {L : Nat → Option InodeDisk} {held : List Nat} {a b c x : Nat} {i j : InodeDisk} {n m : Inode}
  {d' : Device}
  {t : Tables} {name : List Byte} {before after : List DirEntry} {old : DirEntry}

theorem kept_owned (kept : Kept s L held a i) : ∃ y, y ≠ FREE_MAP_SECTOR ∧ L y = some i := by
  obtain ⟨n,found,rfl,-,other⟩ := kept.inode
  exact ⟨n.sector,other,kept.opened.stored a n found⟩

theorem kept_dir (kept : Kept s L held a i) : IsDir s a i := by
  obtain ⟨y,-,owned⟩ := kept_owned kept
  obtain ⟨n,found,data,writable,-⟩ := kept.inode
  exact ⟨⟨n,found,data,writable⟩,on_device (ledger_inside kept.ledger owned),kept.whole,kept.plenty⟩

/-- The data of the directory is written. -/
theorem kept_written (kept : Kept s L held a i) (size : d'.size = s.fs_device.size)
    (outside : ∀ z, (∀ pos < off_t i.length, z ≠ i.start.toNat + pos / BLOCK_SECTOR_SIZE) → d'.data z = s.fs_device.data z) :
    Kept { s with fs_device := d' } L held a i := by
  obtain ⟨y,-,owned⟩ := kept_owned kept
  refine ⟨ledger_outside kept.ledger owned size fun z out => outside z fun pos below same => out ?_,kept.opened,kept.mapped,
    kept.plenty,
    kept.inode,kept.mine,kept.whole⟩
  rw [same]
  exact extent_pos kept.ledger owned below

theorem takes_writable {inodes : Nat → Option Inode} (takes : Takes t inodes b x j) (found : t.inodes c = some n) :
    ∃ m, inodes c = some m ∧ m.sector = n.sector ∧ m.data = n.data ∧ m.deny_write_cnt = n.deny_write_cnt := by
  by_cases here : c = b
  · subst here
    rcases takes with ⟨m,was,-,-,rfl⟩ | ⟨none_,-,-⟩
    · rw [found] at was
      cases was
      exact ⟨_,Function.update_self ..,rfl,rfl,rfl⟩
    · rw [found] at none_
      cases none_
  · exact ⟨n,(takes_other takes here).trans found,rfl,rfl,rfl⟩

theorem open_kept (kept : Kept s L held a i) (owned : L x = some j) :
    ∃ b s', inode_open s x = some (some b,s') ∧ Kept s' L (b :: held) a i ∧ s'.fs_device = s.fs_device ∧
      Takes s.tables s'.inodes b x j := by
  obtain ⟨answer,s',ran,same,none_,some_⟩ := inode_open_spec kept.ledger kept.opened owned
  cases answer with
  | none =>
    have full := (none_ rfl).2
    rw [kept.plenty.1] at full
    cases full
  | some b =>
    obtain ⟨opened,takes⟩ := some_ b rfl
    refine ⟨b,s',ran,⟨?_,opened,?_,(same_steady same).plenty kept.plenty,?_,List.mem_cons_of_mem b kept.mine,kept.whole⟩,
      same.fs_device,takes⟩
    · rw [same.fs_device,same.free_map]
      exact kept.ledger
    · rw [same.free_map]
      refine mapped_keep kept.mapped same.free_map_file (fun f u _ found => ?_) fun c p found _ => takes_kept takes found
      show s'.files f = some u
      rw [same.files]
      exact found
    · obtain ⟨n,found,data,writable,other⟩ := kept.inode
      obtain ⟨m,found',sector,data',deny⟩ := takes_writable takes found
      exact ⟨m,found',data'.trans data,deny.trans writable,by rw [sector]; exact other⟩

/-- An inode is marked as removed. -/
theorem mark_kept (kept : Kept s L held a i) (found : s.inodes b = some n) :
    Kept { s with inodes := Function.update s.inodes b (some { n with removed := true }) } L held a i := by
  have marked : ∀ c m, s.inodes c = some m → ∃ m', Function.update s.inodes b (some { n with removed := true }) c = some m' ∧
      m'.sector = m.sector ∧ m'.data = m.data ∧ m'.deny_write_cnt = m.deny_write_cnt := by
    intro c m there
    by_cases here : c = b
    · subst here
      rw [found] at there
      cases there
      exact ⟨_,Function.update_self ..,rfl,rfl,rfl⟩
    · exact ⟨m,(Function.update_of_ne here _ _).trans there,rfl,rfl,rfl⟩
  refine ⟨kept.ledger,opened_remove kept.opened found,?_,kept.plenty,?_,kept.mine,kept.whole⟩
  · refine mapped_keep kept.mapped rfl (fun f u _ there => there) fun c m there _ => ?_
    obtain ⟨m',there',sector,data,-⟩ := marked c m there
    exact ⟨m',there',sector,data⟩
  · obtain ⟨p,there,data,writable,other⟩ := kept.inode
    obtain ⟨m,there',sector,data',deny⟩ := marked a p there
    exact ⟨m,there',data'.trans data,deny.trans writable,by rw [sector]; exact other⟩

/-- An inode that has another reference stays. -/
theorem close_survives (found : t.inodes b = some n) (more : c = b → n.open_cnt ≠ 1) (there : t.inodes c = some m) :
    ∃ m', (t.close b n).inodes c = some m' ∧ m'.sector = m.sector ∧ m'.data = m.data ∧ m'.deny_write_cnt = m.deny_write_cnt := by
  rw [Tables.close]
  by_cases here : c = b
  · subst here
    rw [found] at there
    cases there
    rw [if_neg (more rfl)]
    exact ⟨_,Function.update_self ..,rfl,rfl,rfl⟩
  · split
    · exact ⟨m,(Function.update_of_ne here _ _).trans there,rfl,rfl,rfl⟩
    · exact ⟨m,(Function.update_of_ne here _ _).trans there,rfl,rfl,rfl⟩

/-- Nothing is removed by a close. -/
theorem close_removed (found : t.inodes b = some n) (there : (t.close b n).inodes c = some m) :
    ∃ q, t.inodes c = some q ∧ q.sector = m.sector ∧ q.removed = m.removed := by
  rw [Tables.close] at there
  split at there
  · have there : Function.update t.inodes b none c = some m := there
    rcases update_inode there with ⟨-,nothing⟩ | ⟨-,was⟩
    · cases nothing
    · exact ⟨m,was,rfl,rfl⟩
  · have there : Function.update t.inodes b (some { n with open_cnt := n.open_cnt - 1 }) c = some m := there
    rcases update_inode there with ⟨rfl,same⟩ | ⟨-,was⟩
    · cases same
      exact ⟨n,found,rfl,rfl⟩
    · exact ⟨m,was,rfl,rfl⟩

/-- Nor by an open. -/
theorem takes_back {inodes : Nat → Option Inode} (takes : Takes t inodes b x j) (there : inodes c = some m)
    (gone : m.removed = true) :
    ∃ q, t.inodes c = some q ∧ q.sector = m.sector ∧ q.removed = true := by
  by_cases here : c = b
  · subst here
    rcases takes with ⟨q,was,-,-,rfl⟩ | ⟨-,-,rfl⟩
    · rw [Function.update_self] at there
      cases there
      exact ⟨q,was,rfl,gone⟩
    · rw [Function.update_self] at there
      cases there
      cases gone
  · exact ⟨m,(takes_other takes here).symm.trans there,rfl,gone⟩

/-- The inodes that are open and removed, but for that of sector `x`, were so before. -/
def Spares (s s' : FileSystem) (x : Option Nat) : Prop :=
  ∀ c p, s'.inodes c = some p → p.removed = true → some p.sector = x ∨ ∃ q, s.inodes c = some q ∧ q.sector = p.sector ∧
    q.removed = true

/-- The kernel's own file has the inode of the free map open. -/
theorem map_counted {cnt : Nat} (opened : Opened t L (b :: held)) (mapped : Mapped t cnt) (found : t.inodes b = some n)
    (map : n.sector = FREE_MAP_SECTOR) : n.open_cnt ≠ 1 := by
  obtain ⟨f,u,m,-,file,-,inode,sector,-⟩ := mapped
  obtain rfl := opened.sector b u.inode n m found inode (map.trans sector.symm)
  have count := (opened.count _ n found).1
  have on_it : 0 < refs t u.inode := by
    rw [refs,List.countP_pos_iff]
    exact ⟨f,List.mem_range.mpr (file_known opened file),by simp [file]⟩
  rw [List.count_cons_self] at count
  omega

theorem opened_perm {more : List Nat} (opened : Opened t L held) (order : held.Perm more) : Opened t L more where
  once := opened.once
  listed := opened.listed
  stored := opened.stored
  count c m found := by
    rw [← order.count_eq]
    exact opened.count c m found
  deny := opened.deny
  sector := opened.sector
  file := opened.file
  held c member := opened.held c (order.mem_iff.mpr member)
  fresh := opened.fresh
  user := opened.user

theorem close_kept (kept : Kept s L (b :: held) a i) (mine : a ∈ held) (found : s.inodes b = some n) :
    ∃ s', inode_close s b = some s' ∧ Kept s' (closed L n) held a i ∧ slots s'.fs_device i = slots s.fs_device i ∧
      s'.tables = s.tables.close b n := by
  have stored := kept.opened.stored b n found
  obtain ⟨s',ran,done⟩ := inode_close_spec kept.ledger (map_file kept.opened kept.mapped) found stored
    fun ends map => map_counted kept.opened kept.mapped found map ends.1
  have opened : Opened s'.tables (closed L n) held := by
    rw [done.tables]
    exact opened_close_ref kept.opened found fun y other => closed_other other
  have own : a = b → n.open_cnt ≠ 1 := by
    rintro rfl one
    have count := (kept.opened.count a n found).1
    have positive := List.count_pos_iff.mpr mine
    rw [List.count_cons_self] at count
    omega
  refine ⟨s',ran,⟨done.ledger,opened,?_,done.steady.plenty kept.plenty,?_,mine,kept.whole⟩,?_,done.tables⟩
  · rw [done.steady.bits,done.tables]
    refine mapped_keep kept.mapped (close_map_file ..) (fun f u _ there => ?_) fun c m there map => ?_
    · rw [close_files]
      exact there
    · have more : c = b → n.open_cnt ≠ 1 := by
        rintro rfl
        rw [show s.tables.inodes c = some n from found] at there
        cases there
        exact map_counted kept.opened kept.mapped found map
      obtain ⟨m',there',sector,data,-⟩ := close_survives found more there
      exact ⟨m',there',sector,data⟩
  · obtain ⟨p,there,data,writable,other⟩ := kept.inode
    obtain ⟨m,there',sector,data',deny⟩ := close_survives (t := s.tables) found own there
    refine ⟨m,?_,data'.trans data,deny.trans writable,by rw [sector]; exact other⟩
    rw [show s'.inodes a = s'.tables.inodes a from rfl,done.tables]
    exact there'
  · obtain ⟨y,other,owned⟩ := kept_owned kept
    refine slots_same fun pos below => done.outside _ fun m map inside => ?_
    exact kept.ledger.apart y FREE_MAP_SECTOR i m owned map other _ (.inr (extent_pos kept.ledger owned below)) (.inr inside)

/-! ### The calls -/

/-- Whether the entry was the last reference to its inode. -/
theorem unlinked_eq (opened : Opened s.tables L held) (takes : Takes s.tables s'.inodes b x j) (found : s'.inodes b = some m) :
    closed L { m with removed := true } = unlinked s L x := by
  have positive : ∀ q, s.inodes b = some q → 0 < q.open_cnt := fun q was => (opened.count b q was).2
  have busy : (s.open_inodes.any fun b => (s.inodes b).any fun n => n.sector = x) = true ↔ ∃ c p, s.inodes c = some p ∧
      p.sector = x := by
    rw [List.any_eq_true]
    constructor
    · rintro ⟨c,-,there⟩
      cases inode : s.inodes c with
      | none => simp [inode] at there
      | some p => exact ⟨c,p,inode,by simpa [inode] using there⟩
    · rintro ⟨c,p,inode,same⟩
      refine ⟨c,(opened.listed c).mpr ?_,by simp [inode,same]⟩
      rw [show s.tables.inodes c = some p from inode]
      exact Option.some_ne_none p
  rw [closed,unlinked]
  rcases takes with ⟨q,was,sector,-,changed⟩ | ⟨-,nowhere,changed⟩
  · rw [changed,Function.update_self] at found
    cases found
    have two := positive q was
    rw [if_neg fun ends => absurd ends.1 (show q.open_cnt + 1 ≠ 1 by omega),if_pos (busy.mpr ⟨b,q,was,sector⟩)]
  · rw [changed,Function.update_self] at found
    cases found
    rw [if_pos ⟨rfl,rfl⟩,if_neg fun there => ?_]
    obtain ⟨c,p,inode,same⟩ := busy.mp there
    exact nowhere c p inode same

theorem bound_first {d : Device} {before after : List DirEntry} {e : DirEntry} (cut : slots d i = before ++ e :: after)
    (used : e.in_use = true) (first : c_string e.name ∉ layout.keys before) :
    layout.bound (slots d i) (c_string e.name) = some e.inode_sector.toNat := by
  rw [cut]
  exact bound_found layout used first

theorem dir_lookup_kept (kept : Kept s L held a i) (name : List Byte)
    (alive : ∀ x, layout.bound (slots s.fs_device i) name = some x → L x ≠ none) :
    ∃ answer s', dir_lookup s a name = some (answer,s') ∧ Kept s' L (answer.toList ++ held) a i ∧ s'.fs_device = s.fs_device ∧
      (answer.bind fun b => (s'.inodes b).map Inode.sector) = layout.bound (slots s.fs_device i) name ∧ Spares s s' none := by
  rw [dir_lookup]
  rcases lookup_scan (kept_dir kept) name with ⟨absent,looked⟩ | ⟨before,e,after,cut,used,rfl,first,looked⟩
  · simp only [looked,Option.bind_eq_bind,Option.bind_some]
    exact ⟨none,s,rfl,kept,rfl,((bound_none layout).mpr absent).symm,fun c p there gone => .inr ⟨p,there,rfl,gone⟩⟩
  · have bound := bound_first cut used first
    obtain ⟨j,owned⟩ := Option.ne_none_iff_exists'.mp (alive _ bound)
    obtain ⟨b,s',ran,kept',device,takes⟩ := open_kept kept owned
    obtain ⟨m,there,sector,-⟩ := takes_found takes
    simp only [looked,Option.bind_eq_bind,Option.bind_some]
    refine ⟨some b,s',ran,kept',device,?_,fun c p there gone => .inr (takes_back takes there gone)⟩
    rw [Option.bind_some,there,bound,Option.map_some,sector]

theorem dir_remove_kept (kept : Kept s L held a i) (name : List Byte)
    (alive : ∀ x, layout.bound (slots s.fs_device i) name = some x → L x ≠ none) :
    (name ∉ layout.keys (slots s.fs_device i) ∧ dir_remove s a name = some (false,s)) ∨
      ∃ s' before e after, dir_remove s a name = some (true,s') ∧ slots s.fs_device i = before ++ e :: after ∧
        Entry e name e.inode_sector.toNat ∧ layout.bound (slots s.fs_device i) name = some e.inode_sector.toNat ∧
        slots s'.fs_device i = before ++ { e with in_use := false } :: after ∧
        Kept s' (unlinked s L e.inode_sector.toNat) held a i ∧ Spares s s' (some e.inode_sector.toNat) := by
  rw [dir_remove]
  rcases lookup_scan (kept_dir kept) name with ⟨absent,looked⟩ | ⟨before,e,after,cut,used,rfl,first,looked⟩
  · simp only [looked,Option.bind_eq_bind,Option.bind_some]
    exact .inl ⟨absent,trivial⟩
  · have bound := bound_first cut used first
    obtain ⟨j,owned⟩ := Option.ne_none_iff_exists'.mp (alive _ bound)
    obtain ⟨b,s₁,opens,kept₁,device,takes⟩ := open_kept kept owned
    obtain ⟨m,there,sector,-⟩ := takes_found takes
    have cut₁ : slots s₁.fs_device i = before ++ e :: after := by rw [device]; exact cut
    obtain ⟨d',wrote,cut₂,size,outside⟩ := write_entry (kept_dir kept₁) cut₁ { e with in_use := false }
    have kept₂ := kept_written kept₁ size outside
    have kept₃ := mark_kept kept₂ there
    obtain ⟨s₄,ran,kept₄,same,tables⟩ := close_kept kept₃ kept.mine (Function.update_self ..)
    refine .inr ⟨s₄,before,e,after,?_,cut,⟨used,rfl,rfl⟩,bound,same.trans cut₂,?_,fun c p there' gone => ?_⟩
    · simp only [looked,Option.bind_eq_bind,Option.bind_some,opens,wrote,if_true,inode_remove,there]
      rw [ran]
      rfl
    · rw [unlinked_eq kept.opened takes there] at kept₄
      exact kept₄
    · rw [show s₄.inodes c = s₄.tables.inodes c from rfl,tables] at there'
      obtain ⟨q,was,same_sector,same_removed⟩ := close_removed (Function.update_self ..) there'
      rcases update_inode was with ⟨rfl,marked⟩ | ⟨-,was⟩
      · cases marked
        exact .inl (by rw [← same_sector]; exact congrArg some sector)
      · obtain ⟨r,before_,sector',removed⟩ := takes_back takes was (same_removed.trans gone)
        exact .inr ⟨r,before_,sector'.trans same_sector,removed⟩

end

/-! ### Runs -/

inductive Call
  | dir_add (name : List Byte) (inode_sector : Nat)
  | dir_remove (name : List Byte)
  | dir_lookup (name : List Byte)
  /-- On one of the `struct dir` of the inode, with the caller's buffer. -/
  | dir_readdir (dir : Nat) (name : Fin (NAME_MAX + 1) → Byte)
  | inode_close (inode : Nat)

inductive Answer
  | success (b : Bool)
  /-- The sector of the inode that was opened. -/
  | sector (x : Option Nat)
  | name (name : Option (List Byte))
  | nothing

/-- A directory inode in use: the file system, the inode in each sector that holds one,
    the references of the callers, and the positions of the `struct dir`. -/
structure Use where
  sys : FileSystem
  stored : Nat → Option InodeDisk
  held : List Nat
  pos : Nat → Nat

def Use.slots (u : Use) (i : InodeDisk) : List DirEntry := DirectoryMaps.slots u.sys.fs_device i

def apply (a : Nat) (i : InodeDisk) (u : Use) : Call → Option (Answer × Use)
  | .dir_add name inode_sector =>
    (dir_add u.sys a name inode_sector).map fun r => (.success r.1,{ u with sys := r.2 })
  | .dir_remove name => (dir_remove u.sys a name).map fun r => (.success r.1,{ u with
      sys := r.2
      stored := (layout.bound (u.slots i) name).elim u.stored (unlinked u.sys u.stored) })
  | .dir_lookup name => (dir_lookup u.sys a name).map fun r => (.sector (r.1.bind fun b => (r.2.inodes b).map Inode.sector),{ u with
      sys := r.2
      held := r.1.toList ++ u.held })
  | .dir_readdir dir name => (dir_readdir u.sys a (u.pos dir) name).map fun r => (.name (r.1.map c_string),{ u with
      sys := r.2.2
      pos := Function.update u.pos dir r.2.1 })
  | .inode_close inode => (u.sys.inodes inode).bind fun n => (inode_close u.sys inode).map fun s => (.nothing,{ u with
      sys := s
      stored := closed u.stored n
      held := u.held.erase inode })

/-- A name to be added is a string. A sector that is added, or is found under a name, holds
    an inode. The reference to the directory itself is kept. -/
def Lawful (a : Nat) (i : InodeDisk) (u : Use) : Call → Prop
  | .dir_add name inode_sector => 0#8 ∉ name ∧ u.stored inode_sector ≠ none
  | .dir_remove name => ∀ x, layout.bound (u.slots i) name = some x → u.stored x ≠ none
  | .dir_lookup name => ∀ x, layout.bound (u.slots i) name = some x → u.stored x ≠ none
  | .dir_readdir _ _ => True
  | .inode_close inode => inode ∈ u.held ∧ a ∈ u.held.erase inode

/-- No two entries have the same name, and each name ends within its field. -/
structure WellFormed (es : List DirEntry) : Prop where
  unique : (layout.keys es).Nodup
  ended : ∀ e ∈ es, e.in_use = true → (c_string e.name).length ≤ NAME_MAX

/-- From any directory that is well formed. -/
def machine (a : Nat) (i : InodeDisk) : Machine Use (Call × Answer) where
  Initial u := Kept u.sys u.stored u.held a i ∧ WellFormed (u.slots i) ∧ ∀ dir, u.pos dir = 0
  Step u event u' := Lawful a i u event.1 ∧ apply a i u event.1 = some (event.2,u')

/-! ### The map -/

/-- What a directory is: a map from names to sectors, with room for `free` more names. -/
structure Table where
  sectors : List Byte → Option Nat
  free : Nat

/-- How the map answers a call, and what it is then. -/
def Table.Answers (t t' : Table) : Call → Answer → Prop
  | .dir_add name x, .success ok =>
    (ok = true ↔ 1 ≤ name.length ∧ name.length ≤ NAME_MAX ∧ t.sectors name = none ∧ 0 < t.free) ∧
      t' = if ok then { sectors := Function.update t.sectors name (some x), free := t.free - 1 } else t
  | .dir_remove name, .success ok =>
    (ok = true ↔ t.sectors name ≠ none) ∧
      t' = if ok then { sectors := Function.update t.sectors name none, free := t.free + 1 } else t
  | .dir_lookup name, .sector x => x = t.sectors name ∧ t' = t
  | .dir_readdir _ _, .name r => (∀ name, r = some name → t.sectors name ≠ none) ∧ t' = t
  | .inode_close _, .nothing => t' = t
  | _, _ => False

def table : Machine Table (Call × Answer) where
  Initial _ := True
  Step t event t' := t.Answers t' event.1 event.2

def tableOf (es : List DirEntry) : Table where
  sectors := layout.bound es
  free := layout.free es

/-- `n` calls of `dir_readdir`, one after the other with one buffer. -/
def readdirs (dir : Nat) : Nat → (Fin (NAME_MAX + 1) → Byte) → Nat → FileSystem → Option (List (Option (List Byte)))
  | 0, _, _, _ => some []
  | n + 1, name, pos, s => do
    let (stored,pos,s) ← dir_readdir s dir pos name
    let names ← readdirs dir n (stored.getD name) pos s
    some (stored.map c_string :: names)

section
variable {s : FileSystem} {L : Nat → Option InodeDisk} {held : List Nat} {a b : Nat} {i : InodeDisk} {u u' : Use} {c : Call}
  {answer : Answer} {events : List (Call × Answer)}
  {t t' : Table} {name : List Byte} {x : Nat} {es fs before after rest : List DirEntry} {old e : DirEntry}

/-! ### Reading the names -/

theorem c_string_string (name : Fin (NAME_MAX + 1) → Byte) : 0#8 ∉ c_string name := by
  intro zero
  have all : ((List.ofFn name).takeWhile (· ≠ 0#8)).all (· ≠ 0#8) = true := List.all_takeWhile
  simpa using List.all_eq_true.mp all _ zero

/-- What is stored in the buffer is the name of the entry. -/
theorem stored_name (formed : WellFormed es) (member : e ∈ es) (used : e.in_use = true) (name : Fin (NAME_MAX + 1) → Byte) :
    c_string (strlcpy name (c_string e.name)) = c_string e.name :=
  c_string_strlcpy name (c_string_string e.name) (formed.ended e member used)

/-- From any slot on, the names in use come one after the other, and then no more. -/
theorem readdirs_spec (dir : IsDir s a i) (formed : WellFormed (slots s.fs_device i)) (n : Nat) (name : Fin (NAME_MAX + 1) → Byte)
    (before rest : List DirEntry) (cut : slots s.fs_device i = before ++ rest) :
    readdirs a n name (sizeof_dir_entry * before.length) s = some ((List.range n).map fun k => (layout.keys rest)[k]?) := by
  induction n generalizing name before rest with
  | zero => rfl
  | succ n ih =>
    have turns : turns s a = (slots s.fs_device i).length + 1 := turns_dir dir
    have enough : rest.length ≤ (slots s.fs_device i).length := by
      rw [cut,List.length_append]
      omega
    rw [readdirs,dir_readdir,turns,List.range_succ_eq_map,List.map_cons,List.map_map]
    rcases readdirLoop_scan dir name rest before _ cut enough with ⟨empty,ran⟩ | ⟨mid,e,after,rfl,used,empty,ran⟩
    · have later := ih name (slots s.fs_device i) [] (List.append_nil _).symm
      simp only [ran,Option.bind_eq_bind,Option.bind_some,Option.getD_none,later,empty]
      rfl
    · have later := ih (strlcpy name (c_string e.name)) (before ++ mid ++ [e]) after (by rw [cut]; simp)
      have stored := stored_name formed (e := e) (by rw [cut]; simp) used name
      have keys : layout.keys (mid ++ e :: after) = c_string e.name :: layout.keys after := by
        rw [keys_append,empty,keys_used layout after used]
        rfl
      simp only [ran,Option.bind_eq_bind,Option.bind_some,Option.getD_some,later,Option.map_some,stored,keys]
      rfl

/-! ### One call -/

theorem formed_take (formed : WellFormed (before ++ old :: after)) (free : old.in_use = false) (entry : Entry e name x)
    (fits : name.length ≤ NAME_MAX) (fresh : name ∉ layout.keys (before ++ old :: after)) :
    WellFormed (before ++ e :: after) := by
  obtain ⟨used,rfl,-⟩ := entry
  refine ⟨unique_take layout free used fresh formed.unique,fun f member busy => ?_⟩
  rcases List.mem_append.mp member with early | late
  · exact formed.ended f (by simp [early]) busy
  · rcases List.mem_cons.mp late with rfl | late
    · exact fits
    · exact formed.ended f (by simp [late]) busy

theorem formed_clear (formed : WellFormed (before ++ old :: after)) (used : old.in_use = true) :
    WellFormed (before ++ { old with in_use := false } :: after) := by
  refine ⟨unique_clear layout used rfl formed.unique,fun f member busy => ?_⟩
  rcases List.mem_append.mp member with early | late
  · exact formed.ended f (by simp [early]) busy
  · rcases List.mem_cons.mp late with rfl | late
    · cases busy
    · exact formed.ended f (by simp [late]) busy

theorem table_take (free : old.in_use = false) (entry : Entry e name x) (fresh : name ∉ layout.keys (before ++ old :: after)) :
    tableOf (before ++ e :: after) = { sectors := Function.update (tableOf (before ++ old :: after)).sectors name (some x)
                                       free := (tableOf (before ++ old :: after)).free - 1 } := by
  obtain ⟨used,rfl,rfl⟩ := entry
  have bound := bound_take layout free used fresh
  have few : layout.free (before ++ e :: after) = layout.free (before ++ old :: after) - 1 := by
    rw [free_used layout used,free_unused layout free,Nat.add_sub_cancel]
  rw [tableOf,tableOf,bound,few]
  rfl

theorem table_clear (formed : WellFormed (before ++ old :: after)) (used : old.in_use = true) :
    tableOf (before ++ { old with in_use := false } :: after) =
      { sectors := Function.update (tableOf (before ++ old :: after)).sectors (c_string old.name) none
        free := (tableOf (before ++ old :: after)).free + 1 } := by
  have bound := @bound_clear _ _ _ layout before after old { old with in_use := false } _ used rfl formed.unique
  have more : layout.free (before ++ { old with in_use := false } :: after) = layout.free (before ++ old :: after) + 1 := by
    rw [free_used layout used,free_unused layout rfl]
  rw [tableOf,tableOf,bound,more]
  rfl

/-- What holds in every state of a run. -/
structure Sound (a : Nat) (i : InodeDisk) (u : Use) : Prop where
  kept : Kept u.sys u.stored u.held a i
  formed : WellFormed (u.slots i)
  pos : ∀ dir, ∃ before rest, u.slots i = before ++ rest ∧ u.pos dir = sizeof_dir_entry * before.length

/-- The calls that only read, and those that fail, leave the slots as they are. -/
def Answer.Leaves : Answer → Prop
  | .success ok => ok = false
  | _ => True

theorem kept_close (kept : Kept s L held a i) (member : b ∈ held) (mine : a ∈ held.erase b) : ∃ n s', s.inodes b = some n ∧
    inode_close s b = some s' ∧ Kept s' (closed L n) (held.erase b) a i ∧ slots s'.fs_device i = slots s.fs_device i ∧
    s'.tables = s.tables.close b n := by
  have arranged : Kept s L (b :: held.erase b) a i := by
    have order := List.perm_cons_erase member
    exact ⟨kept.ledger,opened_perm kept.opened order,kept.mapped,kept.plenty,kept.inode,order.mem_iff.mp kept.mine,kept.whole⟩
  obtain ⟨n,found⟩ := Option.ne_none_iff_exists'.mp (kept.opened.held b member)
  obtain ⟨s',ran,kept',same,tables⟩ := close_kept arranged mine found
  exact ⟨n,s',found,ran,kept',same,tables⟩

theorem pos_same (pos : ∀ dir, ∃ before rest, es = before ++ rest ∧ u.pos dir = sizeof_dir_entry * before.length)
    (length : fs.length = es.length) : ∀ dir, ∃ before rest, fs = before ++ rest ∧
    u.pos dir = sizeof_dir_entry * before.length := by
  intro dir
  obtain ⟨before,rest,cut,at_⟩ := pos dir
  refine ⟨fs.take before.length,fs.drop before.length,(List.take_append_drop _ _).symm,?_⟩
  rw [at_,List.length_take,length,cut,List.length_append,Nat.min_eq_left (Nat.le_add_right _ _)]

/-- The names that are read are in the directory, and the position stays at a slot. -/
theorem readdir_kept (dir : IsDir s a i) (formed : WellFormed (slots s.fs_device i)) {pos : Nat}
    (at_ : ∃ before rest, slots s.fs_device i = before ++ rest ∧ pos = sizeof_dir_entry * before.length)
    (name : Fin (NAME_MAX + 1) → Byte) :
    ∃ r pos', dir_readdir s a pos name = some (r,pos',s) ∧
      (∃ before rest, slots s.fs_device i = before ++ rest ∧ pos' = sizeof_dir_entry * before.length) ∧
      ∀ stored, r = some stored → c_string stored ∈ layout.keys (slots s.fs_device i) := by
  obtain ⟨before,rest,cut,rfl⟩ := at_
  have turns : turns s a = (slots s.fs_device i).length + 1 := turns_dir dir
  have enough : rest.length ≤ (slots s.fs_device i).length := by
    rw [cut,List.length_append]
    omega
  rw [dir_readdir,turns]
  rcases readdirLoop_scan dir name rest before _ cut enough with ⟨empty,ran⟩ | ⟨mid,e,after,rfl,used,empty,ran⟩
  · exact ⟨none,_,ran,⟨slots s.fs_device i,[],(List.append_nil _).symm,rfl⟩,fun stored none_ => by cases none_⟩
  · have member : e ∈ slots s.fs_device i := by
      rw [cut]
      simp
    refine ⟨_,_,ran,⟨before ++ mid ++ [e],after,by rw [cut]; simp,rfl⟩,fun stored same => ?_⟩
    cases same
    rw [stored_name formed member used]
    exact (mem_keys layout).mpr ⟨e,member,used,rfl⟩

theorem owned_small (sound : Sound a i u) {x : Nat} (stored : u.stored x ≠ none) : x < 2 ^ 32 := by
  obtain ⟨j,owned⟩ := Option.ne_none_iff_exists'.mp stored
  have inside := sound.kept.ledger.sector x j owned
  have device := sound.kept.ledger.device.1
  omega

/-- A lawful call has an answer, that of the map. -/
theorem apply_sound (sound : Sound a i u) (lawful : Lawful a i u c) :
    ∃ answer u', apply a i u c = some (answer,u') ∧ Sound a i u' ∧
    (tableOf (u.slots i)).Answers (tableOf (u'.slots i)) c answer ∧ (answer.Leaves → u'.slots i = u.slots i) := by
  have dir := kept_dir sound.kept
  have absent : ∀ name, layout.bound (u.slots i) name = none ↔ name ∉ layout.keys (u.slots i) := fun name => bound_none layout
  cases c with
  | dir_add name x =>
    have small := owned_small sound lawful.2
    rw [apply]
    rcases dir_add_scan dir lawful.1 small with ⟨ran,fails⟩ | ⟨d',before,old,e,after,ran,fits,cut,free,cut',entry,size,outside⟩
    · rw [ran]
      refine ⟨_,_,rfl,sound,⟨⟨fun none_ => (by cases none_),fun all => ?_⟩,rfl⟩,fun _ => rfl⟩
      exact absurd ⟨all.1,all.2.1,(absent name).mp all.2.2.1,(free_pos layout).mp all.2.2.2⟩ fails
    · have whole : u.slots i = before ++ old :: after := cut
      have formed := sound.formed
      have fresh := fits.2.2
      rw [ran]
      rw [whole] at formed
      rw [cut] at fresh
      refine ⟨_,_,rfl,⟨kept_written sound.kept size outside,?_,?_⟩,⟨⟨fun _ => ?_,fun _ => rfl⟩,?_⟩,fun none_ => (by cases none_)⟩
      · show WellFormed (slots d' i)
        rw [cut']
        exact formed_take formed free entry fits.2.1 fresh
      · exact pos_same sound.pos (show (slots d' i).length = (slots _ i).length by rw [slots_length,slots_length])
      · exact ⟨fits.1,fits.2.1,(absent name).mpr fits.2.2,(free_pos layout).mpr ⟨old,by rw [whole]; simp,free⟩⟩
      · show tableOf (slots d' i) = _
        rw [cut',whole]
        exact table_take free entry fresh
  | dir_remove name =>
    rw [apply]
    rcases dir_remove_kept sound.kept name lawful with ⟨missing,ran⟩ | ⟨s',before,e,after,ran,cut,entry,bound,cut',kept',-⟩
    · rw [ran,show layout.bound (u.slots i) name = none from (absent name).mpr missing]
      exact ⟨_,_,rfl,sound,⟨⟨fun none_ => (by cases none_),fun there => absurd ((absent name).mpr missing) there⟩,rfl⟩,fun _ => rfl⟩
    · have whole : u.slots i = before ++ e :: after := cut
      have formed := sound.formed
      rw [whole] at formed
      rw [ran,show layout.bound (u.slots i) name = some e.inode_sector.toNat from bound]
      obtain ⟨used,rfl,-⟩ := entry
      refine ⟨_,_,rfl,⟨kept',?_,?_⟩,⟨⟨fun _ => ?_,fun _ => rfl⟩,?_⟩,fun none_ => (by cases none_)⟩
      · show WellFormed (slots s'.fs_device i)
        rw [cut']
        exact formed_clear formed used
      · exact pos_same sound.pos (show (slots s'.fs_device i).length = (slots _ i).length by rw [slots_length,slots_length])
      · show layout.bound (u.slots i) (c_string e.name) ≠ none
        rw [show layout.bound (u.slots i) (c_string e.name) = _ from bound]
        exact Option.some_ne_none _
      · show tableOf (slots s'.fs_device i) = _
        rw [cut',whole]
        exact table_clear formed used
  | dir_lookup name =>
    obtain ⟨answer,s',ran,kept',device,found,-⟩ := dir_lookup_kept sound.kept name lawful
    have same : slots s'.fs_device i = u.slots i := by rw [device]; rfl
    rw [apply,ran]
    refine ⟨_,_,rfl,⟨kept',?_,?_⟩,⟨found,congrArg tableOf same⟩,fun _ => same⟩
    · show WellFormed (slots s'.fs_device i)
      rw [same]
      exact sound.formed
    · exact pos_same sound.pos (congrArg List.length same)
  | dir_readdir h name =>
    obtain ⟨r,pos,ran,place,names⟩ := readdir_kept dir sound.formed (sound.pos h) name
    rw [apply,ran]
    refine ⟨_,_,rfl,⟨sound.kept,sound.formed,fun g => ?_⟩,⟨fun name same => ?_,rfl⟩,fun _ => rfl⟩
    · by_cases here : g = h
      · obtain ⟨before,rest,cut,at_⟩ := place
        exact ⟨before,rest,cut,by rw [here]; exact (Function.update_self ..).trans at_⟩
      · obtain ⟨before,rest,cut,at_⟩ := sound.pos g
        exact ⟨before,rest,cut,(Function.update_of_ne here _ _).trans at_⟩
    · obtain ⟨stored,told,rfl⟩ := Option.map_eq_some_iff.mp same
      exact fun none_ => (absent _).mp none_ (names stored told)
  | inode_close b =>
    obtain ⟨n,s',found,ran,kept',same,-⟩ := kept_close sound.kept lawful.1 lawful.2
    rw [apply,found,Option.bind_some,ran]
    refine ⟨_,_,rfl,⟨kept',?_,?_⟩,congrArg tableOf same,fun _ => same⟩
    · show WellFormed (slots s'.fs_device i)
      rw [same]
      exact sound.formed
    · exact pos_same sound.pos (congrArg List.length same)

theorem shows_sound (ran : Shows (machine a i) events u) : Sound a i u ∧ Shows table events (tableOf (u.slots i)) := by
  induction ran with
  | start initial =>
    obtain ⟨kept,formed,pos⟩ := initial
    exact ⟨⟨kept,formed,fun dir => ⟨[],_,rfl,pos dir⟩⟩,.start trivial⟩
  | next _ step ih =>
    obtain ⟨answer,u',applied,sound,answers,-⟩ := apply_sound ih.1 step.1
    obtain ⟨same,rfl⟩ := Prod.mk.inj (Option.some.inj (applied.symm.trans step.2))
    rw [same] at answers
    exact ⟨sound,.next ih.2 answers⟩

/-- In the map, a name that was added and not removed since keeps its sector. -/
theorem table_keeps (answers : t.Answers t' c answer) (bound : t.sectors name = some x)
    (kept : (c,answer) ≠ (.dir_remove name,.success true)) : t'.sectors name = some x := by
  cases c <;> cases answer <;> try exact answers.elim
  case dir_add.success other y ok =>
    obtain ⟨condition,rfl⟩ := answers
    cases ok with
    | false => exact bound
    | true =>
      have unbound := (condition.mp rfl).2.2.1
      have different : name ≠ other := by
        rintro rfl
        rw [bound] at unbound
        cases unbound
      exact (Function.update_of_ne different _ _).trans bound
  case dir_remove.success other ok =>
    obtain ⟨-,rfl⟩ := answers
    cases ok with
    | false => exact bound
    | true =>
      have different : name ≠ other := by
        rintro rfl
        exact kept rfl
      exact (Function.update_of_ne different _ _).trans bound
  case dir_lookup.sector other y =>
    obtain ⟨-,rfl⟩ := answers
    exact bound
  case dir_readdir.name dir buffer r =>
    obtain ⟨-,rfl⟩ := answers
    exact bound
  case inode_close.nothing inode =>
    obtain rfl := answers
    exact bound

theorem last_added (ran : Shows table events t) (earlier later : List (Call × Answer))
    (history : events = earlier ++ (.dir_add name x,.success true) :: later)
    (kept : ∀ event ∈ later, event ≠ (.dir_remove name,.success true)) : t.sectors name = some x := by
  induction ran generalizing later with
  | start _ => simp at history
  | @next before t t' event _ answers ih =>
    rcases List.eq_nil_or_concat later with rfl | ⟨rest,last,rfl⟩
    · obtain ⟨-,same⟩ := List.append_inj' history rfl
      obtain rfl := List.singleton_inj.mp same
      rw [answers.2,if_pos rfl]
      exact Function.update_self ..
    · rw [List.concat_eq_append,← List.cons_append,← List.append_assoc] at history
      obtain ⟨early,same⟩ := List.append_inj' history rfl
      obtain rfl := List.singleton_inj.mp same
      have bound := ih rest early fun event member => kept event (by simp [member])
      exact table_keeps answers bound (kept event (by simp))

/-! ### Names with sectors of their own -/

def by_sector : Layout DirEntry Nat (List Byte) where
  used e := e.in_use
  key e := e.inode_sector.toNat
  value e := c_string e.name

/-- Each name has a sector of its own, with an inode that is not to be removed. -/
structure Own (i : InodeDisk) (u : Use) : Prop where
  stored : ∀ x ∈ by_sector.keys (u.slots i), u.stored x ≠ none
  once : (by_sector.keys (u.slots i)).Nodup
  removed : ∀ b n, u.sys.inodes b = some n → n.removed = true → n.sector ∉ by_sector.keys (u.slots i)

/-- So has a name that is added. -/
def Fresh (i : InodeDisk) (u : Use) : Call → Prop
  | .dir_add _ inode_sector => inode_sector ∉ by_sector.keys (u.slots i) ∧
      ∀ b n, u.sys.inodes b = some n → n.sector = inode_sector → n.removed = false
  | _ => True

/-- A sector that is found holds an inode. -/
theorem own_found (own : Own i u) (name : List Byte) (x : Nat) (bound : layout.bound (u.slots i) name = some x) :
    u.stored x ≠ none := by
  obtain ⟨e,member,used,-,same⟩ := mem_of_bound layout bound
  exact own.stored x ((mem_keys by_sector).mpr ⟨e,member,used,same⟩)

theorem own_same {s' : FileSystem} {L' : Nat → Option InodeDisk} {held' : List Nat} {pos' : Nat → Nat} (own : Own i u)
    (same : slots s'.fs_device i = u.slots i)
    (stored : ∀ x ∈ by_sector.keys (u.slots i), L' x = u.stored x)
    (spares : Spares u.sys s' none) : Own i ⟨s',L',held',pos'⟩ := by
  have same : Use.slots ⟨s',L',held',pos'⟩ i = u.slots i := same
  refine ⟨fun x member => ?_,by rw [same]; exact own.once,fun b n found gone => ?_⟩
  · rw [same] at member
    rw [show Use.stored ⟨s',L',held',pos'⟩ x = u.stored x from stored x member]
    exact own.stored x member
  · rw [same]
    rcases spares b n found gone with none_ | ⟨q,was,sector,removed⟩
    · cases none_
    · rw [← sector]
      exact own.removed b q was removed

theorem own_take (own : Own i u) (fresh : x ∉ by_sector.keys (u.slots i) ∧ ∀ b n, u.sys.inodes b = some n → n.sector = x →
      n.removed = false)
    (owned : u.stored x ≠ none) (cut : u.slots i = before ++ old :: after) (free : old.in_use = false) {d' : Device}
    (cut' : slots d' i = before ++ e :: after) (entry : Entry e name x) :
    Own i { u with sys := { u.sys with fs_device := d' } } := by
  obtain ⟨used,-,rfl⟩ := entry
  have whole : Use.slots { u with sys := { u.sys with fs_device := d' } } i = before ++ e :: after := cut'
  have more : ∀ y, y ∈ by_sector.keys (before ++ e :: after) ↔ y = e.inode_sector.toNat ∨ y ∈ by_sector.keys (u.slots i) := by
    intro y
    rw [cut]
    exact mem_keys_take by_sector free used
  refine ⟨fun y member => ?_,?_,fun b n found gone => ?_⟩
  · rw [whole,more] at member
    rcases member with rfl | member
    · exact owned
    · exact own.stored y member
  · rw [whole]
    refine unique_take by_sector free used ?_ ?_
    · rw [← cut]
      exact fresh.1
    · rw [← cut]
      exact own.once
  · rw [whole,more,not_or]
    refine ⟨fun same => ?_,own.removed b n found gone⟩
    rw [fresh.2 b n found same] at gone
    cases gone

theorem own_clear {s' : FileSystem} (own : Own i u) (cut : u.slots i = before ++ e :: after) (used : e.in_use = true)
    (cut' : slots s'.fs_device i = before ++ { e with in_use := false } :: after)
    (spares : Spares u.sys s' (some e.inode_sector.toNat)) :
    Own i { u with sys := s', stored := unlinked u.sys u.stored e.inode_sector.toNat } := by
  have whole : Use.slots { u with sys := s', stored := unlinked u.sys u.stored e.inode_sector.toNat } i =
      before ++ { e with in_use := false } :: after := cut'
  have once : (by_sector.keys (before ++ e :: after)).Nodup := by
    rw [← cut]
    exact own.once
  have fewer : ∀ y, y ∈ by_sector.keys (before ++ { e with in_use := false } :: after) ↔
      y ∈ by_sector.keys (u.slots i) ∧ y ≠ e.inode_sector.toNat := by
    intro y
    rw [cut]
    exact mem_keys_clear by_sector used rfl once
  refine ⟨fun y member => ?_,?_,fun b n found gone => ?_⟩
  · rw [whole,fewer] at member
    show unlinked u.sys u.stored e.inode_sector.toNat y ≠ none
    rw [unlinked]
    split
    · exact own.stored y member.1
    · rw [Function.update_of_ne member.2]
      exact own.stored y member.1
  · rw [whole]
    exact unique_clear by_sector used rfl once
  · rw [whole,fewer]
    rintro ⟨member,other⟩
    rcases spares b n found gone with same | ⟨q,was,sector,removed⟩
    · exact other (Option.some.inj same)
    · rw [← sector] at member
      exact own.removed b q was removed member

/-- Where each name has a sector of its own it stays so. -/
theorem own_kept (sound : Sound a i u) (own : Own i u) (fresh : Fresh i u c) (step : (machine a i).Step u (c,answer) u') :
    Own i u' := by
  obtain ⟨lawful,ran⟩ := step
  have quiet : Spares u.sys u.sys none := fun b n found gone => .inr ⟨n,found,rfl,gone⟩
  cases c with
  | dir_add name x =>
    have small := owned_small sound lawful.2
    rw [apply] at ran
    rcases dir_add_scan (kept_dir sound.kept) lawful.1 small with ⟨added,-⟩ | ⟨d',before,old,e,after,added,-,cut,free,cut',
      entry,-⟩
    · rw [added] at ran
      cases ran
      exact own
    · rw [added] at ran
      cases ran
      exact own_take own fresh lawful.2 cut free cut' entry
  | dir_remove name =>
    rw [apply] at ran
    rcases dir_remove_kept sound.kept name lawful with ⟨missing,removed⟩ | ⟨s',before,e,after,removed,cut,entry,bound,cut',-,
      spares⟩
    · rw [removed,show layout.bound (u.slots i) name = none from (bound_none layout).mpr missing] at ran
      cases ran
      exact own
    · rw [removed,show layout.bound (u.slots i) name = some e.inode_sector.toNat from bound] at ran
      cases ran
      exact own_clear own cut entry.1 cut' spares
  | dir_lookup name =>
    obtain ⟨r,s',looked,-,device,-,spares⟩ := dir_lookup_kept sound.kept name lawful
    rw [apply,looked] at ran
    cases ran
    exact own_same own (by rw [device]; rfl) (fun _ _ => rfl) spares
  | dir_readdir dir name =>
    obtain ⟨r,pos,read,-⟩ := readdir_kept (kept_dir sound.kept) sound.formed (sound.pos dir) name
    rw [apply,read] at ran
    cases ran
    exact own_same own rfl (fun _ _ => rfl) quiet
  | inode_close b =>
    obtain ⟨n,s',found,closes,-,same,tables⟩ := kept_close sound.kept lawful.1 lawful.2
    rw [apply,found,Option.bind_some,closes] at ran
    cases ran
    refine own_same own same (fun y member => ?_) fun c p there gone => .inr ?_
    · rw [closed]
      split
      · next ends =>
        refine Function.update_of_ne ?_ _ _
        rintro rfl
        exact own.removed b n found ends.2 member
      · rfl
    · rw [show s'.inodes c = s'.tables.inodes c from rfl,tables] at there
      obtain ⟨q,was,sector,removed⟩ := close_removed found there
      exact ⟨q,was,sector,removed.trans gone⟩

/-- A directory is a finite map: whatever calls came before, no two entries have the same
    name, each call is answered as the map answers it, a call that fails or reads leaves
    the entries as they are, and a name has the sector that was last added for it.
    `dir_readdir` from the start on gives each name once, and then no more. That the sectors
    that are found hold inodes follows for names with sectors of their own. -/
theorem directory_is_map (ran : Shows (machine a i) events u) :
    (layout.keys (u.slots i)).Nodup ∧
      Shows table events (tableOf (u.slots i)) ∧
      (∀ c, Lawful a i u c → ∃ answer u', (machine a i).Step u (c,answer) u') ∧
      (∀ c answer u', (machine a i).Step u (c,answer) u' → (tableOf (u.slots i)).Answers (tableOf (u'.slots i)) c answer ∧
        (answer.Leaves → u'.slots i = u.slots i)) ∧
      (∀ earlier name x later, events = earlier ++ (.dir_add name x,.success true) :: later →
        (∀ event ∈ later, event ≠ (.dir_remove name,.success true)) → layout.bound (u.slots i) name = some x) ∧
      (∀ n buffer, readdirs a n buffer 0 u.sys = some ((List.range n).map fun k => (layout.keys (u.slots i))[k]?)) ∧
      (Own i u → (∀ name, Lawful a i u (.dir_remove name) ∧ Lawful a i u (.dir_lookup name)) ∧
        ∀ c answer u', Fresh i u c → (machine a i).Step u (c,answer) u' → Own i u') := by
  obtain ⟨sound,shown⟩ := shows_sound ran
  refine ⟨sound.formed.unique,shown,fun c lawful => ?_,fun c answer u' step => ?_,fun earlier name x later history kept => ?_,fun n buffer => ?_,
    fun own => ⟨fun name => ⟨own_found own name,own_found own name⟩,fun c answer u' fresh step => own_kept sound own fresh step⟩⟩
  · obtain ⟨answer,u',applied,-⟩ := apply_sound sound lawful
    exact ⟨answer,u',lawful,applied⟩
  · obtain ⟨answer',u₁,applied,-,answers,leaves⟩ := apply_sound sound step.1
    obtain ⟨rfl,rfl⟩ := Prod.mk.inj (Option.some.inj (applied.symm.trans step.2))
    exact ⟨answers,leaves⟩
  · exact last_added shown earlier later history kept
  · exact readdirs_spec (kept_dir sound.kept) sound.formed n buffer [] (u.slots i) rfl

end

/-- The root directory of a new file system, with a name for its own sector. -/
theorem directory_is_map_added : ∃ a i u, Shows (machine a i) [(.dir_add [97#8] 1,.success true)] u ∧
    layout.bound (u.slots i) [97#8] = some 1 := by
  have formats : (filesys_init true boot).isSome = true := by decide +kernel
  obtain ⟨s,ran⟩ := Option.isSome_iff_exists.mp formats
  obtain ⟨L,formatted⟩ := filesys_init_format ran
  have plenty : Plenty s := filesys_init_memory ran ⟨fun _ => rfl,fun _ => rfl⟩
  obtain ⟨answer,s₁,-,same,none_,some_⟩ := dir_open_root_spec formatted.sane
  cases answer with
  | none => exact absurd ⟨plenty.1 0,plenty.1 1⟩ (none_ rfl).1
  | some a =>
    obtain ⟨-,-,-,sane,j,takes⟩ := some_ a rfl
    obtain ⟨n,found,sector,-⟩ := takes_found takes
    have root := is_root sane found sector
    have length : off_t n.data.length = sizeof_dir_entry * entry_cnt := by rw [ledger_off_t sane.ledger root.stored,root.length]
    have kept : Kept s₁ L [a] a n.data := by
      refine ⟨sane.ledger,sane.opened,sane.mapped,(same_steady same).plenty plenty,⟨n,found,rfl,root.writable,?_⟩,by simp,?_⟩
      · rw [sector]
        decide
      · rw [length]
        decide
    have unused : ∀ e ∈ slots s₁.fs_device n.data, e.in_use = false := by
      intro e member
      obtain ⟨k,below,rfl⟩ := List.mem_map.mp member
      have below : k < entry_cnt := by
        have inside := List.mem_range.mp below
        rwa [length,Nat.mul_div_cancel_left _ (by decide)] at inside
      have free := formatted.unnamed k below
      rwa [← same.fs_device,slot,root_start_eq sane.ledger root.stored] at free
    have empty : layout.keys (slots s₁.fs_device n.data) = [] := by
      refine List.eq_nil_iff_forall_not_mem.mpr fun name member => ?_
      obtain ⟨e,there,used,-⟩ := (mem_keys layout).mp member
      exact Bool.false_ne_true ((unused e there).symm.trans used)
    have initial : (machine a n.data).Initial ⟨s₁,L,[a],fun _ => 0⟩ := by
      refine ⟨kept,⟨?_,fun e member used => absurd ((unused e member).symm.trans used) Bool.false_ne_true⟩,fun _ => rfl⟩
      show (layout.keys (slots s₁.fs_device n.data)).Nodup
      rw [empty]
      exact List.nodup_nil
    have stored : L 1 ≠ none := by
      rw [show L 1 = some n.data from root.stored]
      exact Option.some_ne_none _
    have start := Shows.start initial
    obtain ⟨answer,u,step⟩ := (directory_is_map start).2.2.1 (.dir_add [97#8] 1)
      ⟨by decide,stored⟩
    have answers := ((directory_is_map start).2.2.2.1 _ _ _ step).1
    have added : answer = .success true := by
      cases answer with
      | success ok =>
        refine congrArg Answer.success (answers.1.mpr ⟨by decide,by decide,?_,?_⟩)
        · refine (bound_none layout).mpr ?_
          show _ ∉ layout.keys (slots s₁.fs_device n.data)
          rw [empty]
          exact List.not_mem_nil
        · refine (free_pos layout).mpr ?_
          have some_slot : 0 < (slots s₁.fs_device n.data).length := by
            rw [slots_length,length]
            decide
          obtain ⟨e,member⟩ := List.exists_mem_of_length_pos some_slot
          exact ⟨e,member,unused e member⟩
      | sector x => exact answers.elim
      | name name => exact answers.elim
      | nothing => exact answers.elim
    rw [added] at step
    have shown := Shows.next start step
    exact ⟨a,n.data,u,shown,(directory_is_map shown).2.2.2.2.1 [] _ _ [] rfl fun event none_ => by cases none_⟩

end Pintos.DirectoryMaps
