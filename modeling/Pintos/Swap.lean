import Pintos.Frames

/-!
Swapping out and in again. A swap entry is found by the kernel page that the user
page was evicted from, and frames are used again: two pages of one process that
were evicted from the same frame have entries with the same key, and a fault gets
the older one. Slots themselves are kept apart, and what is written to a slot is
read back.
-/
namespace Pintos.Swap
open Pintos.Blocks Pintos.Machines Pintos.Vm Pintos.Frames
set_option linter.unusedSimpArgs false
variable {s s' : Vm} {t w : Tid} {u v k : Nat} {pd : Pagedir} {p q : PageEntry} {f : FrameEntry} {e d : SwapEntry}
  {ev : Event}

/-- No other page of the process that was evicted from the same frame as `p`, and
    before it, is still swapped out. -/
def Oldest (s : Vm) (t : Tid) (p : PageEntry) : Prop :=
  ∀ q ∈ s.pagetable t, q.upage ≠ p.upage → q.is_swapped = true → q.kpage = p.kpage →
    s.evicted_at t p.upage < s.evicted_at t q.upage

/-- No page is installed twice, and a fault is on the oldest of the pages that
    were evicted from its frame. -/
def OldestFirst (s : Vm) : Event → Prop
  | .page_fault t fault_addr _ => ∀ p ∈ page_entry_lookup s (fault_addr / PGSIZE) t, p.is_swapped = true → Oldest s t p
  | .install t upage _ _ _ _ => page_entry_lookup s upage t = none
  | .start | .write _ _ _ | .thread_exit _ | .filesys _ => True

instance (s : Vm) (t : Tid) (p : PageEntry) : Decidable (Oldest s t p) :=
  inferInstanceAs (Decidable (∀ q ∈ s.pagetable t, q.upage ≠ p.upage → q.is_swapped = true → q.kpage = p.kpage →
    s.evicted_at t p.upage < s.evicted_at t q.upage))
instance (s : Vm) : (ev : Event) → Decidable (OldestFirst s ev)
  | .page_fault t fault_addr _ => inferInstanceAs (Decidable (∀ p ∈ page_entry_lookup s (fault_addr / PGSIZE) t,
      p.is_swapped = true → Oldest s t p))
  | .install t upage _ _ _ _ => inferInstanceAs (Decidable (page_entry_lookup s upage t = none))
  | .start | .write _ _ _ | .thread_exit _ | .filesys _ => .isTrue trivial

/-- The bytes of a slot. -/
def slotBytes (s : Vm) (slot : Nat) (old : Page) : Page :=
  readBlocks BLOCK_SECTOR_SIZE s.swap_disk (8 * slot) old 8

/-- The swap table and the swapped-out pages describe each other: every entry has
    a slot of its own with the bytes of its victim, and the entries of a process
    stand in the order of the evictions. -/
structure Slots (s : Vm) : Prop where
  unlocked : s.swap_lock = false
  taken : ∀ t, ∀ e ∈ s.swap_table t, s.empty_block_sector e.disk_offset = false
  apart : ∀ t w, ∀ e ∈ s.swap_table t, ∀ d ∈ s.swap_table w, e.disk_offset = d.disk_offset → t = w ∧ e.victim = d.victim
  ordered : ∀ t, (s.swap_table t).Pairwise (fun e d => s.evicted_at t e.victim < s.evicted_at t d.victim)
  past : ∀ t, ∀ e ∈ s.swap_table t, s.evicted_at t e.victim < s.clock
  bytes : ∀ t, ∀ e ∈ s.swap_table t, ∀ old, ∀ o < PGSIZE, slotBytes s e.disk_offset old o = s.saved t e.victim o
  entry : ∀ t, ∀ e ∈ s.swap_table t, ∃ p, page_entry_lookup s e.victim t = some p ∧ p.is_swapped = true ∧ p.kpage = e.kpage
  slot : ∀ t u p, page_entry_lookup s u t = some p → p.is_swapped = true → ∃ e ∈ s.swap_table t, e.victim = u
  keys : ∀ t, ((s.pagetable t).map PageEntry.upage).Nodup

theorem victim_unique (slots : Slots s) (first : e ∈ s.swap_table t) (second : d ∈ s.swap_table t)
    (same : e.victim = d.victim) : e = d := by
  have ordered := slots.ordered t
  generalize s.swap_table t = entries at first second ordered
  induction entries with
  | nil => simp at first
  | cons x rest ih =>
    obtain ⟨least,ordered⟩ := List.pairwise_cons.mp ordered
    rcases List.mem_cons.mp first with rfl | later
    · rcases List.mem_cons.mp second with rfl | laterToo
      · rfl
      · have before := least d laterToo
        rw [same] at before
        exact absurd before (Nat.lt_irrefl _)
    · rcases List.mem_cons.mp second with rfl | laterToo
      · have before := least e later
        rw [same] at before
        exact absurd before (Nat.lt_irrefl _)
      · exact ih later laterToo ordered

/-- With unique keys, every entry of the list is found. -/
theorem lookup_of_mem (slots : Slots s) (member : q ∈ s.pagetable t) : page_entry_lookup s q.upage t = some q := by
  have keys := slots.keys t
  unfold page_entry_lookup
  generalize s.pagetable t = entries at member keys
  induction entries with
  | nil => simp at member
  | cons first rest ih =>
    rw [List.map_cons,List.nodup_cons] at keys
    rcases List.mem_cons.mp member with rfl | later
    · simp
    · have other : ¬ first.upage = q.upage := by
        intro same
        exact keys.1 (same ▸ List.mem_map_of_mem later)
      simpa [other] using ih later keys.2

theorem updateFirst_keys {change : PageEntry → PageEntry} (keeps : ∀ p, (change p).upage = p.upage)
    (entries : List PageEntry) : (updateFirst u change entries).map PageEntry.upage = entries.map PageEntry.upage := by
  induction entries with
  | nil => rfl
  | cons p rest ih =>
    by_cases here : p.upage = u
    · simp [updateFirst,here,keeps]
    · simp [updateFirst,here,ih]

/-! ### Out -/

/-- What an eviction does to the swap table and the entries. -/
structure Moved (s s' : Vm) (f : FrameEntry) (slot : Nat) : Prop where
  swap_lock : s'.swap_lock = s.swap_lock
  swap_table : ∀ w, s'.swap_table w = if w = f.owner_pid then
      s.swap_table f.owner_pid ++ [{ kpage := f.kpage, disk_offset := slot, victim := f.upage }] else s.swap_table w
  empty_block_sector : ∀ i, s'.empty_block_sector i = if i = slot then false else s.empty_block_sector i
  swap_disk : s'.swap_disk = writeBlocks BLOCK_SECTOR_SIZE (s.mem f.kpage) (8 * slot) s.swap_disk 8
  clock : s'.clock = s.clock + 1
  evicted_at : ∀ w v, s'.evicted_at w v = if w = f.owner_pid ∧ v = f.upage then s.clock else s.evicted_at w v
  saved : ∀ w v, s'.saved w v = if w = f.owner_pid ∧ v = f.upage then bytesOf s f.owner_pid f.upage else s.saved w v
  keys : ∀ w, (s'.pagetable w).map PageEntry.upage = (s.pagetable w).map PageEntry.upage

theorem unmapped_ghosts (s : Vm) (f : FrameEntry) (rest : List FrameEntry) :
    (unmapped s f rest).clock = s.clock + 1 ∧
    (unmapped s f rest).evicted_at = (fun w v => if w = f.owner_pid ∧ v = f.upage then s.clock else s.evicted_at w v) ∧
    (unmapped s f rest).saved = fun w v => if w = f.owner_pid ∧ v = f.upage then bytesOf s f.owner_pid f.upage
      else s.saved w v := by
  unfold unmapped
  cases s.pagedir f.owner_pid <;> exact ⟨rfl,rfl,rfl⟩

theorem moved_of_ok (ran : page_swap_to_disk s = .ok (k,s')) : ∃ f rest slot, Evicted s s' f rest k ∧
    s.empty_block_sector slot = true ∧ Moved s s' f slot := by
  obtain ⟨f,rest,p,slot,queue,found,resident,rfl,unlocked,free,rfl⟩ := page_swap_to_disk_ok ran
  obtain ⟨f',rest',evicted⟩ := evicted_of_ok ran
  have same := evicted.queue
  rw [queue] at same
  cases same
  have frame := unmapped_frame s f rest
  obtain ⟨clock,times,saved⟩ := unmapped_ghosts s f rest
  refine ⟨f,rest,slot,evicted,by simpa using List.find?_some free,frame.swap_lock,?_,?_,?_,clock,?_,?_,?_⟩
  · intro w
    simp [swappedOut,Vm.setMem,frame.swap_table]
  · intro i
    simp [swappedOut,Vm.setMem,frame.empty_block_sector]
  · simp [swappedOut,Vm.setMem,frame.mem,frame.swap_disk]
  · intro w v
    simp [swappedOut,Vm.setMem,times]
  · intro w v
    simp [swappedOut,Vm.setMem,saved]
  · intro w
    simp only [swappedOut,Vm.setMem,frame.pagetable,flap_swapped_flag,Vm.updateEntry]
    by_cases owner : w = f.owner_pid
    · subst owner
      simp only [↓reduceIte]
      rw [updateFirst_keys]
      exact fun _ => rfl
    · simp [owner]

/-- The bytes of another slot are left alone. -/
theorem slotBytes_other {slot other : Nat} {buffer old : Page} (differs : other ≠ slot)
    (disk : s'.swap_disk = writeBlocks BLOCK_SECTOR_SIZE buffer (8 * slot) s.swap_disk 8) :
    slotBytes s' other old = slotBytes s other old := by
  unfold slotBytes
  rw [disk]
  refine readBlocks_congr ?_
  intro i inside
  exact writeBlocks_outside (by omega)

theorem slotBytes_own {slot o : Nat} {buffer old : Page} (inside : o < PGSIZE)
    (disk : s'.swap_disk = writeBlocks BLOCK_SECTOR_SIZE buffer (8 * slot) s.swap_disk 8) :
    slotBytes s' slot old o = buffer o := by
  unfold slotBytes
  rw [disk]
  exact readBlocks_writeBlocks inside

theorem slots_moved {rest : List FrameEntry} {slot : Nat} (inv : Inv none s) (slots : Slots s)
    (evicted : Evicted s s' f rest k) (free : s.empty_block_sector slot = true) (moved : Moved s s' f slot) :
    Slots s' := by
  obtain ⟨pd,p,directory,found,resident,kpage,_,mapped⟩ := inv.framed f (by rw [evicted.queue]; exact List.mem_cons_self)
  -- The victim was resident, so no entry of the table is about it.
  have unlisted : ∀ w, ∀ e ∈ s.swap_table w, ¬ (w = f.owner_pid ∧ e.victim = f.upage) := by
    rintro w e member ⟨rfl,same⟩
    obtain ⟨q,foundToo,swapped,_⟩ := slots.entry f.owner_pid e member
    rw [same,found] at foundToo
    cases foundToo
    rw [swapped] at resident
    cases resident
  have differs : ∀ w, ∀ e ∈ s.swap_table w, e.disk_offset ≠ slot := by
    rintro w e member rfl
    rw [slots.taken w e member] at free
    cases free
  -- An entry of the new table is an old one or the victim's.
  have cases : ∀ w, ∀ e ∈ s'.swap_table w, e ∈ s.swap_table w ∨
      (w = f.owner_pid ∧ e = { kpage := f.kpage, disk_offset := slot, victim := f.upage }) := by
    intro w e member
    rw [moved.swap_table] at member
    split at member
    · next owner =>
      rcases List.mem_append.mp member with before | added
      · exact .inl (owner ▸ before)
      · exact .inr ⟨owner,List.mem_singleton.mp added⟩
    · exact .inl member
  have oldTime : ∀ w, ∀ e ∈ s.swap_table w, s'.evicted_at w e.victim = s.evicted_at w e.victim := by
    intro w e member
    rw [moved.evicted_at,if_neg (unlisted w e member)]
  have newTime : s'.evicted_at f.owner_pid f.upage = s.clock := by rw [moved.evicted_at,if_pos ⟨rfl,rfl⟩]
  refine ⟨?_,?_,?_,?_,?_,?_,?_,?_,?_⟩
  · rw [moved.swap_lock]
    exact slots.unlocked
  · intro w e member
    rw [moved.empty_block_sector]
    rcases cases w e member with before | ⟨_,rfl⟩
    · rw [if_neg (differs w e before)]
      exact slots.taken w e before
    · exact if_pos rfl
  · intro w x e member d memberToo same
    rcases cases w e member with before | ⟨rfl,rfl⟩
    · rcases cases x d memberToo with beforeToo | ⟨rfl,rfl⟩
      · exact slots.apart w x e before d beforeToo same
      · exact absurd same (differs w e before)
    · rcases cases x d memberToo with beforeToo | ⟨rfl,rfl⟩
      · exact absurd same.symm (differs x d beforeToo)
      · exact ⟨rfl,rfl⟩
  · intro w
    have old : (s.swap_table w).Pairwise (fun e d => s'.evicted_at w e.victim < s'.evicted_at w d.victim) := by
      refine (slots.ordered w).imp_of_mem ?_
      intro e d first second before
      rw [oldTime w e first,oldTime w d second]
      exact before
    rw [moved.swap_table]
    split
    · next owner =>
      subst owner
      refine List.pairwise_append.mpr ⟨old,List.pairwise_singleton _ _,?_⟩
      intro e first d second
      rw [List.mem_singleton.mp second,oldTime _ e first,newTime]
      exact slots.past _ e first
    · exact old
  · intro w e member
    rw [moved.clock]
    rcases cases w e member with before | ⟨rfl,rfl⟩
    · rw [oldTime w e before]
      exact Nat.lt_succ_of_lt (slots.past w e before)
    · rw [newTime]
      exact Nat.lt_succ_self _
  · intro w e member old o inside
    rw [moved.saved]
    rcases cases w e member with before | ⟨rfl,rfl⟩
    · rw [if_neg (unlisted w e before),slotBytes_other (differs w e before) moved.swap_disk]
      exact slots.bytes w e before old o inside
    · rw [if_pos ⟨rfl,rfl⟩,slotBytes_own inside moved.swap_disk,bytesOf,directory]
      simp only [mapped]
  · intro w e member
    rw [evicted.entries]
    rcases cases w e member with before | ⟨rfl,rfl⟩
    · rw [if_neg (unlisted w e before)]
      exact slots.entry w e before
    · rw [if_pos ⟨rfl,rfl⟩,found]
      exact ⟨_,rfl,by simp [resident],kpage⟩
  · intro w v q foundToo swapped
    rw [evicted.entries] at foundToo
    rw [moved.swap_table]
    split at foundToo
    · next same =>
      refine ⟨{ kpage := f.kpage, disk_offset := slot, victim := f.upage },?_,same.2.symm⟩
      rw [if_pos same.1]
      exact List.mem_append_right _ (List.mem_singleton_self _)
    · obtain ⟨e,member,victim⟩ := slots.slot w v q foundToo swapped
      refine ⟨e,?_,victim⟩
      split
      · next owner => exact List.mem_append_left _ (owner ▸ member)
      · exact member
  · intro w
    rw [moved.keys]
    exact slots.keys w

/-- Taking a frame keeps the table, and what it says of the pages that were
    swapped out already; a page that it evicts is younger than all of them. -/
theorem slots_palloc (inv : Inv none s) (slots : Slots s) (ran : palloc_get_page s = .ok (k,s')) : Slots s' ∧
    (∀ t u p, page_entry_lookup s u t = some p → p.is_swapped = true →
      s'.evicted_at t u = s.evicted_at t u ∧ s'.saved t u = s.saved t u) ∧
    ∀ t u p, page_entry_lookup s' u t = some p → p.is_swapped = true →
      page_entry_lookup s u t = some p ∨ s'.evicted_at t u = s.clock := by
  unfold palloc_get_page at ran
  split at ran
  · cases ran
    refine ⟨?_,fun _ _ _ _ _ => ⟨rfl,rfl⟩,fun _ _ _ found _ => .inl found⟩
    exact ⟨slots.unlocked,slots.taken,slots.apart,slots.ordered,slots.past,slots.bytes,slots.entry,slots.slot,slots.keys⟩
  · obtain ⟨f,rest,slot,evicted,free,moved⟩ := moved_of_ok ran
    refine ⟨slots_moved inv slots evicted free moved,?_,?_⟩
    · intro t u p found swapped
      have other : ¬ (t = f.owner_pid ∧ u = f.upage) := by
        rintro ⟨rfl,rfl⟩
        obtain ⟨q,foundToo,resident,_⟩ := evicted.entry
        rw [found] at foundToo
        cases foundToo
        rw [swapped] at resident
        cases resident
      rw [moved.evicted_at,moved.saved,if_neg other,if_neg other]
      exact ⟨rfl,rfl⟩
    · intro t u p found _
      rw [evicted.entries] at found
      rw [moved.evicted_at]
      split at found
      · next same => exact .inr (if_pos same)
      · exact .inl found

/-- Whether a page is the oldest does not depend on the frame taken for it. -/
theorem oldest_palloc (inv : Inv none s) (slots : Slots s) (ran : palloc_get_page s = .ok (k,s'))
    (known : page_entry_lookup s p.upage t = some p) (swapped : p.is_swapped = true) :
    Oldest s' t p ↔ Oldest s t p := by
  obtain ⟨after,kept,younger⟩ := slots_palloc inv slots ran
  have time := (kept t p.upage p known swapped).1
  constructor
  · intro oldest q member other swappedToo same
    have found := lookup_of_mem slots member
    have foundAfter := palloc_lookup_swapped ran found swappedToo
    have order := oldest q (List.mem_of_find?_eq_some foundAfter) other swappedToo same
    rwa [time,(kept t q.upage q found swappedToo).1] at order
  · intro oldest q member other swappedToo same
    rw [time]
    rcases younger t q.upage q (lookup_of_mem after member) swappedToo with before | now
    · rw [(kept t q.upage q before swappedToo).1]
      exact oldest q (List.mem_of_find?_eq_some before) other swappedToo same
    · obtain ⟨e,listed,victim⟩ := slots.slot t p.upage p known swapped
      rw [now,← victim]
      exact slots.past t e listed

/-! ### In -/

/-- The lookup finds an entry, and the entries before it have another key. -/
theorem found_first (slots : Slots s) (known : page_entry_lookup s p.upage t = some p) (swapped : p.is_swapped = true) :
    ∃ e before after, swap_entry_lookup s p.kpage t = some e ∧ e.kpage = p.kpage ∧
      s.swap_table t = before ++ e :: after ∧ ∀ d ∈ before, d.kpage ≠ p.kpage := by
  obtain ⟨own,listed,victim⟩ := slots.slot t p.upage p known swapped
  obtain ⟨q,foundToo,_,kpage⟩ := slots.entry t own listed
  rw [victim,known] at foundToo
  cases foundToo
  cases found : swap_entry_lookup s p.kpage t with
  | none => exact absurd (List.find?_eq_none.mp found own listed) (by simp [kpage])
  | some e =>
    obtain ⟨same,before,after,split,earlier⟩ := List.find?_eq_some_iff_append.mp found
    exact ⟨e,before,after,rfl,by simpa using same,split,by simpa using earlier⟩

/-- The entry that is found is the page's own exactly when the page is the oldest
    of those with its key. -/
theorem own_entry_iff (slots : Slots s) (known : page_entry_lookup s p.upage t = some p) (swapped : p.is_swapped = true) :
    (∃ e, swap_entry_lookup s p.kpage t = some e ∧ e.victim = p.upage) ↔ Oldest s t p := by
  obtain ⟨e,before,after,found,key,split,earlier⟩ := found_first slots known swapped
  have listed : e ∈ s.swap_table t := by rw [split]; simp
  have ordered := slots.ordered t
  rw [split] at ordered
  have least := (List.pairwise_cons.mp (List.pairwise_append.mp ordered).2.1).1
  -- An entry with the same key stands behind the one that is found.
  have later : ∀ d ∈ s.swap_table t, d.kpage = p.kpage → d = e ∨ s.evicted_at t e.victim < s.evicted_at t d.victim := by
    intro d member same
    rw [split] at member
    rcases List.mem_append.mp member with early | late
    · exact absurd same (earlier d early)
    · rcases List.mem_cons.mp late with rfl | behind
      · exact .inl rfl
      · exact .inr (least d behind)
  constructor
  · rintro ⟨e',foundToo,victim⟩ q member other swappedToo same
    rw [found] at foundToo
    cases foundToo
    obtain ⟨d,memberToo,victimToo⟩ := slots.slot t q.upage q (lookup_of_mem slots member) swappedToo
    obtain ⟨r,found',_,kpage⟩ := slots.entry t d memberToo
    rw [victimToo,lookup_of_mem slots member] at found'
    cases found'
    rcases later d memberToo (kpage.symm.trans same) with rfl | behind
    · exact absurd (victimToo.symm.trans victim) other
    · rwa [victim,victimToo] at behind
  · intro oldest
    refine ⟨e,found,?_⟩
    by_contra other
    obtain ⟨q,foundToo,swappedToo,kpage⟩ := slots.entry t e listed
    have page : q.upage = e.victim := lookup_upage foundToo
    have younger := oldest q (List.mem_of_find?_eq_some foundToo) (by rwa [page]) swappedToo (kpage.trans key)
    obtain ⟨own,ownListed,victim⟩ := slots.slot t p.upage p known swapped
    obtain ⟨r,found',_,ownKey⟩ := slots.entry t own ownListed
    rw [victim,known] at found'
    cases found'
    rcases later own ownListed ownKey.symm with rfl | behind
    · exact other victim
    · rw [page] at younger
      rw [victim] at behind
      exact Nat.lt_asymm younger behind

/-- What swapping in the page `p` of `t` through its own entry `e` does. -/
structure Restored (s s' : Vm) (t : Tid) (p : PageEntry) (e : SwapEntry) : Prop where
  swap_lock : s'.swap_lock = s.swap_lock
  swap_table : ∀ w, s'.swap_table w = if w = t then (s.swap_table t).eraseP (fun e => e.kpage = p.kpage)
    else s.swap_table w
  empty_block_sector : ∀ i, s'.empty_block_sector i = if i = e.disk_offset then true else s.empty_block_sector i
  swap_disk : s'.swap_disk = s.swap_disk
  clock : s'.clock = s.clock
  evicted_at : s'.evicted_at = s.evicted_at
  saved : s'.saved = s.saved
  entries : ∃ r : PageEntry, r.is_swapped = false ∧ ∀ v w, page_entry_lookup s' v w =
    if w = t ∧ v = p.upage then some r else page_entry_lookup s v w
  keys : ∀ w, (s'.pagetable w).map PageEntry.upage = (s.pagetable w).map PageEntry.upage

theorem slots_restored (slots : Slots s) (known : page_entry_lookup s p.upage t = some p) (swapped : p.is_swapped = true)
    (found : swap_entry_lookup s p.kpage t = some e) (victim : e.victim = p.upage) (restored : Restored s s' t p e) :
    Slots s' := by
  obtain ⟨e',before,after,foundToo,key,split,earlier⟩ := found_first slots known swapped
  rw [found] at foundToo
  cases foundToo
  have listed : e ∈ s.swap_table t := by rw [split]; simp
  have erased : (s.swap_table t).eraseP (fun e => e.kpage = p.kpage) = before ++ after := by
    rw [split,List.eraseP_append_right _ (by simpa using earlier)]
    simp [key]
  -- What is left are the entries of other pages.
  have left : ∀ w, ∀ d ∈ s'.swap_table w, d ∈ s.swap_table w ∧ ¬ (w = t ∧ d.victim = p.upage) := by
    intro w d member
    rw [restored.swap_table] at member
    split at member
    · next owner =>
      subst owner
      rw [erased] at member
      have inside : d ∈ s.swap_table w := by
        rw [split]
        rcases List.mem_append.mp member with early | late
        · exact List.mem_append_left _ early
        · exact List.mem_append_right _ (List.mem_cons_of_mem e late)
      refine ⟨inside,?_⟩
      rintro ⟨_,same⟩
      have equal := victim_unique slots inside listed (same.trans victim.symm)
      subst equal
      have ordered := slots.ordered w
      rw [split] at ordered
      rcases List.mem_append.mp member with early | late
      · exact earlier d early key
      · exact Nat.lt_irrefl _ ((List.pairwise_cons.mp (List.pairwise_append.mp ordered).2.1).1 d late)
    · next owner => exact ⟨member,fun both => owner both.1⟩
  obtain ⟨r,resident,entries⟩ := restored.entries
  refine ⟨?_,?_,?_,?_,?_,?_,?_,?_,?_⟩
  · rw [restored.swap_lock]
    exact slots.unlocked
  · intro w d member
    obtain ⟨inside,other⟩ := left w d member
    have differs : d.disk_offset ≠ e.disk_offset := by
      intro same
      obtain ⟨owner,page⟩ := slots.apart w t d inside e listed same
      exact other ⟨owner,page.trans victim⟩
    rw [restored.empty_block_sector,if_neg differs]
    exact slots.taken w d inside
  · intro w x d first c second same
    exact slots.apart w x d (left w d first).1 c (left x c second).1 same
  · intro w
    rw [restored.evicted_at,restored.swap_table]
    split
    · next owner =>
      subst owner
      exact (slots.ordered w).sublist List.eraseP_sublist
    · exact slots.ordered w
  · intro w d member
    rw [restored.evicted_at,restored.clock]
    exact slots.past w d (left w d member).1
  · intro w d member old o inside
    unfold slotBytes
    rw [restored.saved,restored.swap_disk]
    exact slots.bytes w d (left w d member).1 old o inside
  · intro w d member
    obtain ⟨inside,other⟩ := left w d member
    rw [entries,if_neg other]
    exact slots.entry w d inside
  · intro w v q foundToo swappedToo
    rw [entries] at foundToo
    split at foundToo
    · cases foundToo
      rw [resident] at swappedToo
      cases swappedToo
    · next other =>
      obtain ⟨d,inside,page⟩ := slots.slot w v q foundToo swappedToo
      refine ⟨d,?_,page⟩
      rw [restored.swap_table]
      split
      · next owner =>
        subst owner
        rw [erased]
        rw [split] at inside
        rcases List.mem_append.mp inside with early | late
        · exact List.mem_append_left _ early
        · rcases List.mem_cons.mp late with rfl | behind
          · exact absurd ⟨rfl,page.symm.trans victim⟩ other
          · exact List.mem_append_right _ behind
      · exact inside
  · intro w
    rw [restored.keys]
    exact slots.keys w

/-- The fault on the oldest page brings its own bytes back. -/
theorem slots_swapIn {alloc : Bool} (inv : Inv none s) (slots : Slots s) (directory : s.pagedir t = some pd)
    (known : page_entry_lookup s p.upage t = some p) (swapped : p.is_swapped = true) (oldest : Oldest s t p)
    (ran : swapIn s t p alloc = .ok s') : Slots s' ∧
      ∃ k, pagedir_get_page s' t p.upage = some k ∧ ∀ o < PGSIZE, s'.mem k o = s.saved t p.upage o := by
  obtain ⟨k,s1,s2,pd1,taken,moved,here,table,absent,knownToo,rfl⟩ :=
    swapIn_spec directory (inv.tabled t pd p.upage p directory known) known swapped ran
  obtain ⟨slots1,kept,_⟩ := slots_palloc inv slots taken
  obtain ⟨e,found,victim⟩ := (own_entry_iff slots1 knownToo swapped).mpr
    ((oldest_palloc inv slots taken known swapped).mpr oldest)
  have listed : e ∈ s1.swap_table t := List.mem_of_find?_eq_some found
  simp only [swap_disk_to_frame,slots1.unlocked,found,Bool.false_eq_true,↓reduceIte,Except.ok.injEq] at moved
  subst moved
  have tables : SameTables s1 (swappedIn s1 k p.kpage t e) := ⟨rfl,rfl,rfl,rfl,rfl⟩
  have mapped := mapped_known pd1 k tables knownToo swapped
    (rfl : withPage (flap_swapped_flag (swappedIn s1 k p.kpage t e) p.upage t) t pd1 p.upage k p.writable = _)
  have flapped : page_entry_lookup (flap_swapped_flag (swappedIn s1 k p.kpage t e) p.upage t) p.upage t =
      some { p with is_swapped := !p.is_swapped } := by
    rw [lookup_flap,if_pos ⟨rfl,rfl⟩]
    have same : page_entry_lookup (swappedIn s1 k p.kpage t e) p.upage t = some p := knownToo
    rw [same]
    rfl
  rw [withPage_known flapped] at mapped ⊢
  constructor
  · refine slots_restored slots1 knownToo swapped found victim ⟨rfl,fun _ => rfl,fun _ => rfl,rfl,rfl,rfl,rfl,?_,?_⟩
    · obtain ⟨r,resident,_,entries⟩ := mapped.entries
      exact ⟨r,resident,entries⟩
    · intro w
      simp only [page_entry_update_kpage,flap_swapped_flag,Vm.updateEntry,frame_entry_insert,Vm.setPagedir,swappedIn]
      by_cases owner : w = t
      · subst owner
        simp only [↓reduceIte]
        rw [updateFirst_keys,updateFirst_keys]
        · exact fun _ => rfl
        · exact fun _ => rfl
      · simp [owner]
  · refine ⟨k,?_,?_⟩
    · obtain ⟨writable,directories⟩ := mapped.pagedir
      rw [pagedir_get_page,directories,if_pos rfl]
      have present : (pd1.setPte p.upage { present := true, writable := writable, kpage := k }).Present p.upage :=
        (setPte_present rfl table).mpr (.inl rfl)
      simp only [present,↓reduceIte]
      simp [Pagedir.setPte]
    · intro o inside
      have bytes := slots1.bytes t e listed (s1.mem k) o inside
      rw [victim,(kept t p.upage p known swapped).2] at bytes
      rw [← bytes]
      simp [page_entry_update_kpage,flap_swapped_flag,Vm.updateEntry,frame_entry_insert,Vm.setPagedir,swappedIn,slotBytes]

/-! ### Every step -/

theorem slots_installed {writable : Bool} (slots : Slots s) (new : page_entry_lookup s u t = none) :
    Slots (withPage s t pd u k writable) := by
  have mapped : Mapped s (withPage s t pd u k writable) t pd u k := mapped_new new
  obtain ⟨r,resident,_,entries⟩ := mapped.entries
  have list : (withPage s t pd u k writable).pagetable = fun w => if w = t then
      s.pagetable t ++ [{ upage := u, kpage := k, writable := writable, is_swapped := false }] else s.pagetable w := by
    have same : page_entry_lookup (s.setPagedir t (some (pd.setPte u
        { present := true, writable := writable, kpage := k }))) u t = none := new
    simp only [withPage,frame_entry_insert,page_entry_insert,same]
    rfl
  have swap : (withPage s t pd u k writable).swap_lock = s.swap_lock ∧
      (withPage s t pd u k writable).swap_table = s.swap_table ∧
      (withPage s t pd u k writable).empty_block_sector = s.empty_block_sector ∧
      (withPage s t pd u k writable).swap_disk = s.swap_disk ∧ (withPage s t pd u k writable).clock = s.clock ∧
      (withPage s t pd u k writable).evicted_at = s.evicted_at ∧ (withPage s t pd u k writable).saved = s.saved := by
    unfold withPage page_entry_insert
    split <;> exact ⟨rfl,rfl,rfl,rfl,rfl,rfl,rfl⟩
  obtain ⟨lock,table,empty,disk,clock,times,saved⟩ := swap
  have other : ∀ w, ∀ e ∈ s.swap_table w, ¬ (w = t ∧ e.victim = u) := by
    rintro w e member ⟨rfl,rfl⟩
    obtain ⟨q,found,_⟩ := slots.entry w e member
    rw [new] at found
    cases found
  refine ⟨by rw [lock]; exact slots.unlocked,?_,?_,?_,?_,?_,?_,?_,?_⟩
  · rw [table,empty]
    exact slots.taken
  · rw [table]
    exact slots.apart
  · rw [table,times]
    exact slots.ordered
  · rw [table,times,clock]
    exact slots.past
  · intro w e member old o inside
    rw [table] at member
    unfold slotBytes
    rw [disk,saved]
    exact slots.bytes w e member old o inside
  · intro w e member
    rw [table] at member
    rw [entries,if_neg (other w e member)]
    exact slots.entry w e member
  · intro w v q found swapped
    rw [table]
    rw [entries] at found
    split at found
    · cases found
      rw [resident] at swapped
      cases swapped
    · exact slots.slot w v q found swapped
  · intro w
    rw [list]
    by_cases owner : w = t
    · subst owner
      simp only [↓reduceIte,List.map_append]
      refine List.Nodup.append (slots.keys w) (List.nodup_singleton u) (List.disjoint_singleton.mpr ?_)
      intro member
      obtain ⟨q,inside,page⟩ := List.mem_map.mp member
      have found := lookup_of_mem slots inside
      rw [page,new] at found
      cases found
    · simp only [owner,↓reduceIte]
      exact slots.keys w

theorem slots_free (slots : Slots s) (ran : palloc_free_page s k = .ok s') : Slots s' := by
  unfold palloc_free_page at ran
  split at ran
  · cases ran
    exact ⟨slots.unlocked,slots.taken,slots.apart,slots.ordered,slots.past,slots.bytes,slots.entry,slots.slot,slots.keys⟩
  · cases ran

theorem slots_load {writable loaded alloc : Bool} {bytes : Page} (inv : Inv none s) (slots : Slots s)
    (new : page_entry_lookup s u t = none) (ran : load_page s t u writable bytes loaded alloc = .ok s') : Slots s' := by
  unfold load_page at ran
  split at ran
  · cases ran
  · next k s1 taken =>
    have before := (slots_palloc inv slots taken).1
    have filled : Slots (s1.setMem k bytes) :=
      ⟨before.unlocked,before.taken,before.apart,before.ordered,before.past,before.bytes,before.entry,before.slot,
        before.keys⟩
    split at ran
    · split at ran
      · cases ran
      · next s2 installed =>
        cases ran
        unfold install_page at installed
        split at installed
        · cases installed
        · obtain ⟨pd,_,⟨no,_⟩ | ⟨pd',_,_,_,rfl⟩⟩ := pagedir_set_page_ok installed
          · cases no
          · have newToo : page_entry_lookup s1 u t = none := palloc_lookup_none taken new
            exact slots_installed filled newToo
      · next s2 installed =>
        refine slots_free ?_ ran
        unfold install_page at installed
        split at installed
        · cases installed
          exact filled
        · obtain ⟨pd,_,⟨_,rfl,_⟩ | ⟨pd',no,_⟩⟩ := pagedir_set_page_ok installed
          · exact filled
          · cases no
    · exact slots_free before ran

theorem slots_freeAll (kpages : List Nat) : ∀ s : Vm, Slots s → freeAll s kpages = .ok s' → Slots s' := by
  induction kpages with
  | nil =>
    intro s slots ran
    cases ran
    exact slots
  | cons first others ih =>
    intro s slots ran
    rw [freeAll] at ran
    split at ran
    · cases ran
    · next s1 freed => exact ih s1 (slots_free slots freed) ran

theorem slots_exit (slots : Slots s) (ran : thread_exit s t = .ok s') : Slots s' := by
  unfold thread_exit at ran
  split at ran
  · cases ran
    exact ⟨slots.unlocked,slots.taken,slots.apart,slots.ordered,slots.past,slots.bytes,slots.entry,slots.slot,slots.keys⟩
  · refine slots_freeAll _ _ ?_ ran
    exact ⟨slots.unlocked,slots.taken,slots.apart,slots.ordered,slots.past,slots.bytes,slots.entry,slots.slot,slots.keys⟩

theorem slots_fault {fault_addr : Nat} {alloc : Bool} {out : Outcome} (inv : Inv none s) (slots : Slots s)
    (live : Live s t) (meets : OldestFirst s (.page_fault t fault_addr alloc))
    (ran : page_fault s t fault_addr alloc = .ok out) :
    (∀ s', out = .returned s' → Slots s') ∧ ∀ s', out = .exited s' → Slots s' := by
  obtain ⟨pd,directory⟩ := Option.isSome_iff_exists.mp live
  have locked : ∀ b, Slots { s with exception_lock := b } := fun _ =>
    ⟨slots.unlocked,slots.taken,slots.apart,slots.ordered,slots.past,slots.bytes,slots.entry,slots.slot,slots.keys⟩
  have lockedInv : Inv none { s with exception_lock := true } :=
    ⟨inv.framed,inv.mapped,inv.distinct,inv.used,inv.apart,inv.tabled,inv.present,inv.written,inv.fresh⟩
  unfold page_fault at ran
  split at ran
  · cases ran
    exact ⟨fun _ same => by cases same; exact slots,fun _ same => by cases same⟩
  · split at ran
    · split at ran
      · cases ran
      · dsimp only at ran
        split at ran
        · cases ran
          exact ⟨fun _ same => by cases same; exact locked false,fun _ same => by cases same⟩
        · split at ran
          · cases ran
          · next p found =>
            split at ran
            · next swapped =>
              split at ran
              · cases ran
              · next s1 moved =>
                cases ran
                refine ⟨fun _ same => ?_,fun _ same => by cases same⟩
                cases same
                have page := lookup_upage found
                have known : page_entry_lookup { s with exception_lock := true } p.upage t = some p := by
                  rw [page]
                  exact found
                have after := (slots_swapIn lockedInv (locked true) directory known swapped
                  (meets p found swapped) moved).1
                exact ⟨after.unlocked,after.taken,after.apart,after.ordered,after.past,after.bytes,after.entry,
                  after.slot,after.keys⟩
            · cases ran
              exact ⟨fun _ same => by cases same; exact locked false,fun _ same => by cases same⟩
    · split at ran
      · cases ran
      · next s1 gone =>
        cases ran
        refine ⟨fun _ same => by (cases same),fun _ same => ?_⟩
        cases same
        refine slots_exit ?_ gone
        exact ⟨slots.unlocked,slots.taken,slots.apart,slots.ordered,slots.past,slots.bytes,slots.entry,slots.slot,
          slots.keys⟩

theorem slots_step (inv : Inv none s) (slots : Slots s) (meets : OldestFirst s ev) (ran : step s ev = .ok s') :
    Slots s' := by
  cases ev with
  | start =>
    cases ran
    exact ⟨slots.unlocked,slots.taken,slots.apart,slots.ordered,slots.past,slots.bytes,slots.entry,slots.slot,slots.keys⟩
  | install t upage writable bytes loaded alloc =>
    simp only [step] at ran
    split at ran
    · exact slots_load inv slots meets ran
    · cases ran
  | write t upage bytes =>
    simp only [step,write] at ran
    split at ran
    · cases ran
    · split at ran
      · cases ran
        exact ⟨slots.unlocked,slots.taken,slots.apart,slots.ordered,slots.past,slots.bytes,slots.entry,slots.slot,
          slots.keys⟩
      · cases ran
  | page_fault t fault_addr alloc =>
    simp only [step] at ran
    split at ran
    · next live =>
      split at ran
      · cases ran
      · next s1 returned =>
        cases ran
        exact (slots_fault inv slots live meets returned).1 s' rfl
      · next s1 exited =>
        cases ran
        exact (slots_fault inv slots live meets exited).2 s' rfl
    · cases ran
  | thread_exit t =>
    simp only [step] at ran
    split at ran
    · exact slots_exit slots ran
    · cases ran
  | filesys held =>
    cases ran
    exact ⟨slots.unlocked,slots.taken,slots.apart,slots.ordered,slots.past,slots.bytes,slots.entry,slots.slot,slots.keys⟩

theorem slots_boot (pages slots : Nat) : Slots (boot pages slots) where
  unlocked := rfl
  taken t e member := by simp [boot] at member
  apart t w e member := by simp [boot] at member
  ordered t := .nil
  past t e member := by simp [boot] at member
  bytes t e member := by simp [boot] at member
  entry t e member := by simp [boot] at member
  slot t u p found := by simp [boot,page_entry_lookup] at found
  keys t := .nil

theorem freshInstalls_of_oldestFirst (s : Vm) (ev : Event) (meets : OldestFirst s ev) : FreshInstalls s ev := by
  cases ev with
  | install t upage writable bytes loaded alloc => exact meets
  | start | write _ _ _ | page_fault _ _ _ | thread_exit _ | filesys _ => trivial

theorem reaches_slots {pages slots : Nat} (reached : Reaches (machine pages slots) OldestFirst s) :
    Inv none s ∧ Slots s := by
  refine reaches_invariant (fun s => Inv none s ∧ Slots s) ?_ ?_ reached
  · rintro s rfl
    exact ⟨inv_boot pages slots,slots_boot pages slots⟩
  · rintro s ev s' ⟨inv,kept⟩ meets ran
    have ran := ok_of_toOption ran
    exact ⟨inv_step inv (freshInstalls_of_oldestFirst s ev meets) ran,slots_step inv kept meets ran⟩

/-- The swap entry that `page_fault` reads for the page `p` of `t`, once it has a
    frame. -/
def entryRead (s : Vm) (t : Tid) (p : PageEntry) : Option SwapEntry :=
  match palloc_get_page { s with exception_lock := true } with
  | .error _ => none
  | .ok (_,s) => swap_entry_lookup s p.kpage t

/-- What a returning fault on a swapped-out page has done. -/
theorem page_fault_swapped {fault_addr : Nat} {alloc : Bool} (directory : s.pagedir t = some pd)
    (absent : ¬ pd.Present (fault_addr / PGSIZE)) (user : fault_addr < PHYS_BASE)
    (known : page_entry_lookup s (fault_addr / PGSIZE) t = some p) (swapped : p.is_swapped = true)
    (ran : page_fault s t fault_addr alloc = .ok (.returned s')) :
    ∃ s1, swapIn { s with exception_lock := true } t p alloc = .ok s1 ∧ s' = { s1 with exception_lock := false } := by
  have kernel : ¬ (s.filesys_lock = true ∧ PHYS_BASE ≤ fault_addr) := fun both => Nat.not_le.mpr user both.2
  have knownToo : page_entry_lookup { s with exception_lock := true } (fault_addr / PGSIZE) t = some p := known
  have unmapped : pagedir_get_page { s with exception_lock := true } t (fault_addr / PGSIZE) = none := by
    simp [pagedir_get_page,directory,absent]
  unfold page_fault at ran
  rw [if_neg kernel,if_pos user] at ran
  split at ran
  · cases ran
  · simp only [unmapped,knownToo,swapped,↓reduceIte] at ran
    split at ran
    · cases ran
    · next s1 moved =>
      cases ran
      exact ⟨s1,moved,rfl⟩

/-- In every run whose faults are on the oldest of the pages that were evicted
    from their frame: the next fault on a swapped-out page reads the entry of that
    page exactly when it is such a fault too, and then the page has the bytes it
    was evicted with. -/
theorem swapped_in_as_evicted {pages slots : Nat} (t : Tid) (fault_addr : Nat) (alloc : Bool)
    (reached : Reaches (machine pages slots) OldestFirst s) (live : Live s t) (user : fault_addr < PHYS_BASE)
    (known : page_entry_lookup s (fault_addr / PGSIZE) t = some p) (swapped : p.is_swapped = true)
    (ran : page_fault s t fault_addr alloc = .ok (.returned s')) :
    ((∃ e, entryRead s t p = some e ∧ e.victim = fault_addr / PGSIZE) ↔
      OldestFirst s (.page_fault t fault_addr alloc)) ∧
    (OldestFirst s (.page_fault t fault_addr alloc) → ∃ k, pagedir_get_page s' t (fault_addr / PGSIZE) = some k ∧
      ∀ o < PGSIZE, s'.mem k o = s.saved t (fault_addr / PGSIZE) o) := by
  obtain ⟨inv,kept⟩ := reaches_slots reached
  obtain ⟨pd,directory⟩ := Option.isSome_iff_exists.mp live
  have lockedInv : Inv none { s with exception_lock := true } :=
    ⟨inv.framed,inv.mapped,inv.distinct,inv.used,inv.apart,inv.tabled,inv.present,inv.written,inv.fresh⟩
  have locked : Slots { s with exception_lock := true } :=
    ⟨kept.unlocked,kept.taken,kept.apart,kept.ordered,kept.past,kept.bytes,kept.entry,kept.slot,kept.keys⟩
  have page := lookup_upage known
  have absent : ¬ pd.Present (fault_addr / PGSIZE) := by
    rintro ⟨_,set⟩
    rw [absent_of_entry inv directory (fun q found => by rw [known] at found; cases found; exact swapped)] at set
    cases set
  obtain ⟨s1,moved,rfl⟩ := page_fault_swapped directory absent user known swapped ran
  rw [← page] at known ⊢
  have oldest : OldestFirst s (.page_fault t fault_addr alloc) ↔ Oldest s t p := by
    simp only [OldestFirst]
    rw [← page,known]
    constructor
    · intro meets
      exact meets p rfl swapped
    · rintro meets q same _
      cases same
      exact meets
  rw [oldest]
  constructor
  · obtain ⟨k,s2,_,_,_,taken,_⟩ := swapIn_ok moved
    have same : Oldest s2 t p ↔ Oldest { s with exception_lock := true } t p :=
      oldest_palloc lockedInv locked taken known swapped
    rw [entryRead,taken]
    exact (own_entry_iff (slots_palloc lockedInv locked taken).1 (palloc_lookup_swapped taken known swapped)
      swapped).trans same
  · intro meets
    exact (slots_swapIn lockedInv locked directory known swapped meets moved).2

/-- One frame and one process: its second page evicts the first. -/
def twoPages : List Event :=
  [.start,.install 0 5 true (fun _ => 1) true true,.install 0 6 true (fun _ => 2) true true]

theorem swapped_in_two_pages : ∃ s s', guardedRun (fun s ev => (step s ev).toOption) OldestFirst (boot 1 4)
      twoPages = some s ∧
    page_fault s 0 (5 * PGSIZE) true = .ok (.returned s') ∧
    ∃ k, pagedir_get_page s' 0 5 = some k ∧ ∀ o < PGSIZE, s'.mem k o = s.saved 0 5 o := by
  refine ⟨_,_,rfl,rfl,?_⟩
  exact (swapped_in_as_evicted (p := { upage := 5, kpage := 0, writable := true, is_swapped := true })
    0 (5 * PGSIZE) true
    (guardedRun_reachable (boot 1 4) (fun s ev => (step s ev).toOption) OldestFirst twoPages rfl)
    rfl (by decide) rfl rfl rfl).2 (by decide)

/-- A third page evicts the second from the same frame; then the process touches
    the second page. -/
def threePages : List Event := twoPages ++ [.install 0 7 true (fun _ => 3) true true]

/-- The second page comes back with the bytes of the first. -/
theorem swapped_in_other_page : ∃ s s' k, run (fun s ev => (step s ev).toOption) (boot 1 4) threePages = some s ∧
    Reaches (machine 1 4) Anything s ∧ (page_entry_lookup s 6 0).map PageEntry.is_swapped = some true ∧
    page_fault s 0 (6 * PGSIZE) true = .ok (.returned s') ∧ pagedir_get_page s' 0 6 = some k ∧
    s.saved 0 6 0 = 2 ∧ s'.mem k 0 = 1 :=
  ⟨_,_,_,rfl,run_reachable (boot 1 4) (fun s ev => (step s ev).toOption) threePages rfl,by decide,rfl,rfl,
    by decide,by decide⟩

end Pintos.Swap
