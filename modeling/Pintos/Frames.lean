import Pintos.Vm
import Mathlib.Data.List.Nodup

/-!
`frametable`, the page entries, the page directories and the user pool describe
the same frames. Inside an operation one frame may be out of the table: the one
that `palloc_get_page` has just returned, which the invariant calls held.
-/
namespace Pintos.Frames
open Pintos.Machines Pintos.Vm
set_option linter.unusedSimpArgs false
variable {s s' : Vm} {t w : Tid} {u v k : Nat} {pd pd' : Pagedir} {p : PageEntry} {f g : FrameEntry}
  {rest : List FrameEntry} {held : Option Nat} {e : Event} {fault : Fault}

/-- The four structures agree. -/
structure Consistent (s : Vm) : Prop where
  framed : ∀ f ∈ s.frametable, ∃ pd p, s.pagedir f.owner_pid = some pd ∧
    page_entry_lookup s f.upage f.owner_pid = some p ∧ p.is_swapped = false ∧ p.kpage = f.kpage ∧
    pd.Present f.upage ∧ (pd.pte f.upage).kpage = f.kpage
  mapped : ∀ t pd u, s.pagedir t = some pd → pd.Present u →
    s.frametable.countP (fun f => f.owner_pid = t ∧ f.upage = u) = 1
  distinct : (s.frametable.map FrameEntry.kpage).Nodup
  used : ∀ k, s.used_map k = true ↔ ∃ f ∈ s.frametable, f.kpage = k

/-- A process installs no page twice. -/
def FreshInstalls (s : Vm) : Event → Prop
  | .install t upage _ _ _ _ => page_entry_lookup s upage t = none
  | .start | .write _ _ _ | .page_fault _ _ _ | .thread_exit _ | .filesys _ => True

instance (s : Vm) : (e : Event) → Decidable (FreshInstalls s e)
  | .install t upage _ _ _ _ => inferInstanceAs (Decidable (page_entry_lookup s upage t = none))
  | .start | .write _ _ _ | .page_fault _ _ _ | .thread_exit _ | .filesys _ => .isTrue trivial

/-- The invariant, with the frame that is held outside of `frametable`. -/
structure Inv (held : Option Nat) (s : Vm) : Prop where
  framed : ∀ f ∈ s.frametable, ∃ pd p, s.pagedir f.owner_pid = some pd ∧
    page_entry_lookup s f.upage f.owner_pid = some p ∧ p.is_swapped = false ∧ p.kpage = f.kpage ∧
    pd.Present f.upage ∧ (pd.pte f.upage).kpage = f.kpage
  mapped : ∀ t pd u, s.pagedir t = some pd → pd.Present u → ∃ f ∈ s.frametable, f.owner_pid = t ∧ f.upage = u
  distinct : (s.frametable.map FrameEntry.kpage).Nodup
  used : ∀ k, s.used_map k = true ↔ (∃ f ∈ s.frametable, f.kpage = k) ∨ held = some k
  apart : ∀ k, held = some k → ∀ f ∈ s.frametable, f.kpage ≠ k
  tabled : ∀ t pd u p, s.pagedir t = some pd → page_entry_lookup s u t = some p → pd_no u ∈ pd.tables
  present : ∀ t pd u, s.pagedir t = some pd → (pd.pte u).present = true → pd_no u ∈ pd.tables ∧ u ∈ pd.written
  written : ∀ t pd, s.pagedir t = some pd → pd.written.Nodup
  fresh : ∀ t, s.next_tid ≤ t → s.pagedir t = none ∧ s.pagetable t = []

/-! ### Entries and mappings -/

theorem lookup_upage (found : page_entry_lookup s u t = some p) : p.upage = u := by
  simpa using List.find?_some found

/-- A write through a found entry, as later lookups see it. -/
theorem find_updateFirst {change : PageEntry → PageEntry} (keeps : ∀ p, (change p).upage = p.upage)
    (entries : List PageEntry) :
    (updateFirst u change entries).find? (fun p => p.upage = v) =
      if v = u then (entries.find? (fun p => p.upage = v)).map change
      else entries.find? (fun p => p.upage = v) := by
  induction entries with
  | nil => simp [updateFirst]
  | cons p rest ih =>
    by_cases here : p.upage = u
    · by_cases same : v = u
      · simp [updateFirst,here,same,keeps]
      · have other : ¬ u = v := fun equal => same equal.symm
        simp [updateFirst,here,same,keeps,other]
    · by_cases same : v = u
      · subst same
        simpa [updateFirst,here] using ih
      · by_cases found : p.upage = v
        · simp [updateFirst,here,same,found]
        · simpa [updateFirst,here,same,found] using ih

theorem lookup_updateEntry {change : PageEntry → PageEntry} (keeps : ∀ p, (change p).upage = p.upage) :
    page_entry_lookup (s.updateEntry u t change) v w =
      if w = t ∧ v = u then (page_entry_lookup s u t).map change else page_entry_lookup s v w := by
  by_cases owner : w = t
  · subst owner
    simp only [page_entry_lookup,Vm.updateEntry,↓reduceIte,find_updateFirst keeps,true_and]
    by_cases same : v = u
    · simp [same]
    · simp [same]
  · simp [page_entry_lookup,Vm.updateEntry,owner]

theorem lookup_flap : page_entry_lookup (flap_swapped_flag s u t) v w =
    if w = t ∧ v = u then (page_entry_lookup s u t).map (fun p => { p with is_swapped := !p.is_swapped })
    else page_entry_lookup s v w :=
  lookup_updateEntry (fun _ => rfl)

theorem lookup_update_kpage : page_entry_lookup (page_entry_update_kpage s u t k) v w =
    if w = t ∧ v = u then (page_entry_lookup s u t).map (fun p => { p with kpage := k })
    else page_entry_lookup s v w :=
  lookup_updateEntry (fun _ => rfl)

theorem lookup_insert {writable : Bool} (new : page_entry_lookup s u t = none) :
    page_entry_lookup (page_entry_insert s u k writable t) v w =
      if w = t ∧ v = u then some { upage := u, kpage := k, writable := writable, is_swapped := false }
      else page_entry_lookup s v w := by
  unfold page_entry_insert
  rw [new]
  simp only [Option.isSome_none,Bool.false_eq_true,↓reduceIte,page_entry_lookup]
  by_cases owner : w = t
  · subst owner
    simp only [↓reduceIte,List.find?_append,true_and]
    by_cases same : v = u
    · subst same
      have absent : (s.pagetable w).find? (fun p => p.upage = v) = none := new
      simp [absent]
    · have other : ¬ u = v := fun equal => same equal.symm
      cases (s.pagetable w).find? (fun p => p.upage = v) <;> simp [same,other]
  · simp [owner]

theorem insert_known {writable : Bool} (known : page_entry_lookup s u t = some p) :
    page_entry_insert s u k writable t = s := by
  simp [page_entry_insert,known]

section
variable {writable : Bool}
theorem insert_frametable : (page_entry_insert s u k writable t).frametable = s.frametable := by
  unfold page_entry_insert; split <;> rfl
theorem insert_pagedir : (page_entry_insert s u k writable t).pagedir = s.pagedir := by
  unfold page_entry_insert; split <;> rfl
theorem insert_used_map : (page_entry_insert s u k writable t).used_map = s.used_map := by
  unfold page_entry_insert; split <;> rfl
theorem insert_next_tid : (page_entry_insert s u k writable t).next_tid = s.next_tid := by
  unfold page_entry_insert; split <;> rfl
theorem insert_other (other : w ≠ t) : (page_entry_insert s u k writable t).pagetable w = s.pagetable w := by
  unfold page_entry_insert
  split
  · rfl
  · simp [other]
end

theorem clear_present : (pagedir_clear_page pd u).Present v ↔ pd.Present v ∧ ¬ (v = u ∧ pd.Present u) := by
  unfold pagedir_clear_page
  by_cases here : pd.Present u
  · rw [if_pos here]
    by_cases same : v = u
    · simp [Pagedir.Present,same,here]
    · simp [Pagedir.Present,same]
  · rw [if_neg here]
    simp [here]

theorem clear_tables : (pagedir_clear_page pd u).tables = pd.tables := by
  unfold pagedir_clear_page
  split <;> rfl
theorem clear_written : (pagedir_clear_page pd u).written = pd.written := by
  unfold pagedir_clear_page
  split <;> rfl
theorem clear_kpage : ((pagedir_clear_page pd u).pte v).kpage = (pd.pte v).kpage := by
  unfold pagedir_clear_page
  split
  · by_cases same : v = u <;> simp [same]
  · rfl

theorem clear_pte_present (set : ((pagedir_clear_page pd u).pte v).present = true) : (pd.pte v).present = true := by
  unfold pagedir_clear_page at set
  split at set
  · by_cases same : v = u
    · simp [same] at set
    · simpa [same] using set
  · exact set

/-- A page directory in which the page table for `u` has been looked up. -/
structure Tabled (pd pd' : Pagedir) (u : Nat) : Prop where
  table : pd_no u ∈ pd'.tables
  more : ∀ n ∈ pd.tables, n ∈ pd'.tables
  written : pd'.written = pd.written
  ptes : ∀ v, pd_no v ∈ pd.tables → pd'.pte v = pd.pte v
  fewer : ∀ v, (pd'.pte v).present = true → (pd.pte v).present = true

theorem lookup_page_some {create alloc : Bool} (found : lookup_page pd u create alloc = some pd') :
    Tabled pd pd' u := by
  unfold lookup_page at found
  split at found
  · next inside =>
    cases found
    exact ⟨inside,fun _ member => member,rfl,fun _ _ => rfl,fun _ set => set⟩
  · next outside =>
    split at found
    · cases found
      refine ⟨List.mem_cons_self,fun _ member => List.mem_cons_of_mem _ member,rfl,?_,?_⟩
      · intro v inside
        have other : ¬ pd_no v = pd_no u := fun same => outside (same ▸ inside)
        simp [Pagedir.addTable,other]
      · intro v set
        simp only [Pagedir.addTable] at set
        split at set
        · cases set
        · exact set
    · cases found

/-! ### Facts of the invariant -/

/-- Two frames of one page are one frame. -/
theorem frame_unique (inv : Inv held s) (first : f ∈ s.frametable) (second : g ∈ s.frametable)
    (owner : f.owner_pid = g.owner_pid) (page : f.upage = g.upage) : f = g := by
  obtain ⟨pd,_,directory,_,_,_,_,kpage⟩ := inv.framed f first
  obtain ⟨pd',_,directory',_,_,_,_,kpage'⟩ := inv.framed g second
  rw [owner,directory'] at directory
  cases directory
  have same : f.kpage = g.kpage := by rw [← kpage,← kpage',page]
  exact List.inj_on_of_nodup_map inv.distinct first second same

/-- A swapped-out page, and one that was never installed, is not present. -/
theorem absent_of_entry (inv : Inv held s) (directory : s.pagedir t = some pd)
    (entry : ∀ p, page_entry_lookup s u t = some p → p.is_swapped = true) : (pd.pte u).present = false := by
  by_contra set
  have set : (pd.pte u).present = true := by simpa using set
  have present : pd.Present u := ⟨(inv.present t pd u directory set).1,set⟩
  obtain ⟨f,member,rfl,rfl⟩ := inv.mapped t pd u directory present
  obtain ⟨_,p,_,found,resident,_⟩ := inv.framed f member
  rw [entry p found] at resident
  cases resident

theorem consistent_of_inv (inv : Inv none s) : Consistent s := by
  refine ⟨inv.framed,?_,inv.distinct,?_⟩
  · intro t pd u directory present
    obtain ⟨f,member,owner,page⟩ := inv.mapped t pd u directory present
    -- The list has no duplicates, and only `f` meets the predicate.
    have once : s.frametable.Nodup := List.Nodup.of_map _ inv.distinct
    have only : ∀ g ∈ s.frametable, (decide (g.owner_pid = t ∧ g.upage = u) = true ↔ (g == f) = true) := by
      intro g inside
      simp only [decide_eq_true_eq,beq_iff_eq]
      constructor
      · rintro ⟨ownerToo,pageToo⟩
        exact frame_unique inv inside member (ownerToo.trans owner.symm) (pageToo.trans page.symm)
      · rintro rfl
        exact ⟨owner,page⟩
    rw [List.countP_congr only]
    exact List.count_eq_one_of_mem once member
  · intro k
    simp [inv.used k]

/-! ### Taking a frame -/

/-- What an eviction does to the structures of the invariant. -/
structure Evicted (s s' : Vm) (f : FrameEntry) (rest : List FrameEntry) (k : Nat) : Prop where
  queue : s.frametable = f :: rest
  left : s'.frametable = rest
  entry : ∃ p, page_entry_lookup s f.upage f.owner_pid = some p ∧ p.is_swapped = false ∧ p.kpage = k
  entries : ∀ v w, page_entry_lookup s' v w = if w = f.owner_pid ∧ v = f.upage then
      (page_entry_lookup s f.upage f.owner_pid).map (fun p => { p with is_swapped := !p.is_swapped })
    else page_entry_lookup s v w
  empty : ∀ t, s.pagetable t = [] → s'.pagetable t = []
  pagedir : ∀ t, s'.pagedir t = if t = f.owner_pid then
      (s.pagedir t).map (fun pd => pagedir_clear_page pd f.upage) else s.pagedir t
  used_map : s'.used_map = s.used_map
  next_tid : s'.next_tid = s.next_tid

theorem unmapped_pagedir (s : Vm) (f : FrameEntry) (rest : List FrameEntry) (t : Tid) :
    (unmapped s f rest).pagedir t = if t = f.owner_pid then
      (s.pagedir t).map (fun pd => pagedir_clear_page pd f.upage) else s.pagedir t := by
  unfold unmapped
  cases directory : s.pagedir f.owner_pid with
  | none =>
    by_cases owner : t = f.owner_pid
    · simp [flap_swapped_flag,Vm.updateEntry,owner,directory]
    · simp [flap_swapped_flag,Vm.updateEntry,owner]
  | some pd =>
    by_cases owner : t = f.owner_pid
    · simp [flap_swapped_flag,Vm.updateEntry,Vm.setPagedir,owner,directory]
    · simp [flap_swapped_flag,Vm.updateEntry,Vm.setPagedir,owner]

/-- Only the page directory, the entry and the ghosts of the victim change. -/
structure Unmapped (s s' : Vm) (f : FrameEntry) (rest : List FrameEntry) : Prop where
  frametable : s'.frametable = rest
  pagetable : s'.pagetable = (flap_swapped_flag s f.upage f.owner_pid).pagetable
  used_map : s'.used_map = s.used_map
  next_tid : s'.next_tid = s.next_tid
  mem : s'.mem = s.mem
  swap_table : s'.swap_table = s.swap_table
  empty_block_sector : s'.empty_block_sector = s.empty_block_sector
  swap_disk : s'.swap_disk = s.swap_disk
  swap_lock : s'.swap_lock = s.swap_lock
  swap_disk_size : s'.swap_disk_size = s.swap_disk_size

theorem unmapped_frame (s : Vm) (f : FrameEntry) (rest : List FrameEntry) :
    Unmapped s (unmapped s f rest) f rest := by
  unfold unmapped
  cases s.pagedir f.owner_pid <;> exact ⟨rfl,rfl,rfl,rfl,rfl,rfl,rfl,rfl,rfl,rfl⟩

theorem page_swap_to_disk_ok (ran : page_swap_to_disk s = .ok (k,s')) : ∃ f rest p slot,
    s.frametable = f :: rest ∧ page_entry_lookup s f.upage f.owner_pid = some p ∧ p.is_swapped = false ∧
    k = p.kpage ∧ s.swap_lock = false ∧ swap_find_empty_sector s = some slot ∧
    s' = (swappedOut (unmapped s f rest) f.kpage f.owner_pid f.upage slot).setMem k (fun _ => 0) := by
  unfold page_swap_to_disk at ran
  split at ran
  · cases ran
  · next f rest queue =>
    split at ran
    · cases ran
    · next p found =>
      split at ran
      · cases ran
      · next resident =>
        split at ran
        · cases ran
        · next swapped moved =>
          cases ran
          have frame := unmapped_frame s f rest
          unfold swap_frame_to_disk at moved
          have sector : swap_find_empty_sector (unmapped s f rest) = swap_find_empty_sector s := by
            simp only [swap_find_empty_sector,frame.empty_block_sector,frame.swap_disk_size]
          rw [frame.swap_lock,sector] at moved
          split at moved
          · cases moved
          · next open_ =>
            split at moved
            · cases moved
            · next slot free =>
              cases moved
              exact ⟨f,rest,p,slot,queue,found,by simpa using resident,rfl,by simpa using open_,free,rfl⟩

theorem evicted_of_ok (ran : page_swap_to_disk s = .ok (k,s')) : ∃ f rest, Evicted s s' f rest k := by
  obtain ⟨f,rest,p,slot,queue,found,resident,rfl,_,_,rfl⟩ := page_swap_to_disk_ok ran
  have frame := unmapped_frame s f rest
  refine ⟨f,rest,queue,frame.frametable,⟨p,found,resident,rfl⟩,?_,?_,unmapped_pagedir s f rest,frame.used_map,
    frame.next_tid⟩
  · intro v w
    rw [← lookup_flap]
    simp only [page_entry_lookup,swappedOut,Vm.setMem,frame.pagetable]
  · intro t none
    simp only [swappedOut,Vm.setMem,frame.pagetable,flap_swapped_flag,Vm.updateEntry]
    by_cases owner : t = f.owner_pid
    · subst owner
      simp [none,updateFirst]
    · simp [owner,none]

/-- The page directory of a process after an eviction. -/
theorem evicted_pagedir (evicted : Evicted s s' f rest k) (directory : s'.pagedir t = some pd') :
    ∃ pd, s.pagedir t = some pd ∧ pd' = if t = f.owner_pid then pagedir_clear_page pd f.upage else pd := by
  rw [evicted.pagedir] at directory
  by_cases owner : t = f.owner_pid
  · rw [if_pos owner] at directory
    obtain ⟨pd,before,rfl⟩ := Option.map_eq_some_iff.mp directory
    exact ⟨pd,before,(if_pos owner).symm⟩
  · rw [if_neg owner] at directory
    exact ⟨pd',directory,(if_neg owner).symm⟩

/-- A frame that stays in the table is of another page than the victim. -/
theorem evicted_other (inv : Inv held s) (evicted : Evicted s s' f rest k) (member : g ∈ rest) :
    g ∈ s.frametable ∧ g ≠ f ∧ ¬ (g.owner_pid = f.owner_pid ∧ g.upage = f.upage) := by
  have inside : g ∈ s.frametable := by
    rw [evicted.queue]
    exact List.mem_cons_of_mem f member
  have first : f ∈ s.frametable := by
    rw [evicted.queue]
    exact List.mem_cons_self
  have other : g ≠ f := by
    rintro rfl
    have once := List.Nodup.of_map _ inv.distinct
    rw [evicted.queue] at once
    exact (List.nodup_cons.mp once).1 member
  exact ⟨inside,other,fun same => other (frame_unique inv inside first same.1 same.2)⟩

theorem inv_evicted (inv : Inv none s) (evicted : Evicted s s' f rest k) : Inv (some k) s' := by
  have first : f ∈ s.frametable := by
    rw [evicted.queue]
    exact List.mem_cons_self
  obtain ⟨_,q,_,found,_,kpage,_,_⟩ := inv.framed f first
  have frame : f.kpage = k := by
    obtain ⟨p,foundToo,_,rfl⟩ := evicted.entry
    rw [found] at foundToo
    cases foundToo
    exact kpage.symm
  have distinct := inv.distinct
  rw [evicted.queue,List.map_cons,List.nodup_cons] at distinct
  refine ⟨?_,?_,?_,?_,?_,?_,?_,?_,?_⟩
  · intro g member
    rw [evicted.left] at member
    obtain ⟨inside,_,apart⟩ := evicted_other inv evicted member
    obtain ⟨pd,p,directory,entry,resident,same,present,mapped⟩ := inv.framed g inside
    by_cases owner : g.owner_pid = f.owner_pid
    · have page : ¬ g.upage = f.upage := fun equal => apart ⟨owner,equal⟩
      refine ⟨pagedir_clear_page pd f.upage,p,?_,?_,resident,same,?_,?_⟩
      · rw [evicted.pagedir,if_pos owner,directory]
        rfl
      · rw [evicted.entries,if_neg apart]
        exact entry
      · rw [clear_present]
        exact ⟨present,fun both => page both.1⟩
      · rw [clear_kpage]
        exact mapped
    · refine ⟨pd,p,?_,?_,resident,same,present,mapped⟩
      · rw [evicted.pagedir,if_neg owner]
        exact directory
      · rw [evicted.entries,if_neg apart]
        exact entry
  · intro t pd' u directory present
    obtain ⟨pd,before,rfl⟩ := evicted_pagedir evicted directory
    have presentBefore : pd.Present u ∧ ¬ (t = f.owner_pid ∧ u = f.upage) := by
      by_cases owner : t = f.owner_pid
      · rw [if_pos owner,clear_present] at present
        refine ⟨present.1,?_⟩
        rintro ⟨_,rfl⟩
        exact present.2 ⟨rfl,present.1⟩
      · rw [if_neg owner] at present
        exact ⟨present,fun both => owner both.1⟩
    obtain ⟨g,member,rfl,rfl⟩ := inv.mapped t pd u before presentBefore.1
    refine ⟨g,?_,rfl,rfl⟩
    rw [evicted.left]
    rw [evicted.queue] at member
    refine (List.mem_cons.mp member).resolve_left ?_
    rintro rfl
    exact presentBefore.2 ⟨rfl,rfl⟩
  · rw [evicted.left]
    exact distinct.2
  · intro j
    rw [evicted.used_map,inv.used,evicted.queue,evicted.left]
    constructor
    · rintro (⟨g,member,rfl⟩ | none)
      · rcases List.mem_cons.mp member with rfl | later
        · exact .inr (congrArg some frame.symm)
        · exact .inl ⟨g,later,rfl⟩
      · cases none
    · rintro (⟨g,member,rfl⟩ | same)
      · exact .inl ⟨g,List.mem_cons_of_mem f member,rfl⟩
      · exact .inl ⟨f,List.mem_cons_self,frame.trans (Option.some.inj same)⟩
  · intro j same g member equal
    rw [evicted.left] at member
    apply distinct.1
    rw [frame,Option.some.inj same,← equal]
    exact List.mem_map_of_mem member
  · intro t pd' u p directory entry
    obtain ⟨pd,before,rfl⟩ := evicted_pagedir evicted directory
    have known : ∃ p, page_entry_lookup s u t = some p := by
      rw [evicted.entries] at entry
      split at entry
      · next same =>
        obtain ⟨p,entry,_⟩ := Option.map_eq_some_iff.mp entry
        exact ⟨p,by rw [same.1,same.2]; exact entry⟩
      · exact ⟨p,entry⟩
    obtain ⟨p,entry⟩ := known
    have tabled := inv.tabled t pd u p before entry
    split
    · rwa [clear_tables]
    · exact tabled
  · intro t pd' u directory set
    obtain ⟨pd,before,rfl⟩ := evicted_pagedir evicted directory
    split at set
    · next owner =>
      rw [if_pos owner,clear_tables,clear_written]
      exact inv.present t pd u before (clear_pte_present set)
    · next owner =>
      rw [if_neg owner]
      exact inv.present t pd u before set
  · intro t pd' directory
    obtain ⟨pd,before,rfl⟩ := evicted_pagedir evicted directory
    have once := inv.written t pd before
    split
    · rwa [clear_written]
    · exact once
  · intro t later
    rw [evicted.next_tid] at later
    obtain ⟨none,empty⟩ := inv.fresh t later
    refine ⟨?_,evicted.empty t empty⟩
    rw [evicted.pagedir,none]
    split <;> rfl

/-- A frame from the pool or from an eviction: the caller holds it. -/
theorem inv_palloc (inv : Inv none s) (ran : palloc_get_page s = .ok (k,s')) : Inv (some k) s' := by
  unfold palloc_get_page at ran
  split at ran
  · next kpage free =>
    cases ran
    have unused : s.used_map k = false := by simpa using List.find?_some free
    have none : ∀ f ∈ s.frametable, f.kpage ≠ k := by
      rintro f member rfl
      rw [(inv.used f.kpage).mpr (.inl ⟨f,member,rfl⟩)] at unused
      cases unused
    refine ⟨inv.framed,inv.mapped,inv.distinct,?_,?_,inv.tabled,inv.present,inv.written,inv.fresh⟩
    · intro j
      by_cases same : j = k
      · simp [Vm.setUsed,same]
      · have other : ¬ k = j := fun equal => same equal.symm
        simpa [Vm.setUsed,same,other] using inv.used j
    · intro j same f member
      cases same
      exact none f member
  · obtain ⟨f,rest,evicted⟩ := evicted_of_ok ran
    exact inv_evicted inv evicted

/-- Taking a frame makes no entries. -/
theorem palloc_lookup_none (ran : palloc_get_page s = .ok (k,s')) (none : page_entry_lookup s u t = none) :
    page_entry_lookup s' u t = Option.none := by
  unfold palloc_get_page at ran
  split at ran
  · cases ran
    exact none
  · obtain ⟨f,rest,evicted⟩ := evicted_of_ok ran
    rw [evicted.entries]
    split
    · next same =>
      rw [← same.1,← same.2,none]
      rfl
    · exact none

theorem inv_free (inv : Inv (some k) s) (ran : palloc_free_page s k = .ok s') : Inv none s' := by
  unfold palloc_free_page at ran
  split at ran
  · cases ran
    refine ⟨inv.framed,inv.mapped,inv.distinct,?_,by simp,inv.tabled,inv.present,inv.written,inv.fresh⟩
    intro j
    by_cases same : j = k
    · subst same
      simp only [Vm.setMem,Vm.setUsed,↓reduceIte,Bool.false_eq_true,reduceCtorEq,or_false,false_iff]
      rintro ⟨f,member,equal⟩
      exact inv.apart j rfl f member equal
    · have other : ¬ k = j := fun equal => same equal.symm
      simpa [Vm.setMem,Vm.setUsed,same,other] using inv.used j
  · cases ran

/-! ### Mapping the frame -/

/-- What mapping the page `u` of `t` to `k` does to the structures of the
    invariant; `pd` is the page directory, with its page table, before. -/
structure Mapped (s s' : Vm) (t : Tid) (pd : Pagedir) (u k : Nat) : Prop where
  frametable : s'.frametable = s.frametable ++ [{ upage := u, kpage := k, owner_pid := t }]
  pagedir : ∃ writable, ∀ w, s'.pagedir w = if w = t then
      some (pd.setPte u { present := true, writable := writable, kpage := k }) else s.pagedir w
  entries : ∃ p : PageEntry, p.is_swapped = false ∧ p.kpage = k ∧ ∀ v w, page_entry_lookup s' v w =
      if w = t ∧ v = u then some p else page_entry_lookup s v w
  others : ∀ w, w ≠ t → s'.pagetable w = s.pagetable w
  used_map : s'.used_map = s.used_map
  next_tid : s'.next_tid = s.next_tid

theorem setPte_present {q : Pte} (set : q.present = true) (table : pd_no u ∈ pd.tables) :
    (pd.setPte u q).Present v ↔ v = u ∨ pd.Present v := by
  by_cases same : v = u
  · subst same; simp [Pagedir.Present,Pagedir.setPte,set,table]
  · simp [Pagedir.Present,Pagedir.setPte,same]

theorem mem_setPte_written {q : Pte} : v ∈ (pd.setPte u q).written ↔ v = u ∨ v ∈ pd.written := by
  simp only [Pagedir.setPte]
  split
  · next inside =>
    constructor
    · exact .inr
    · rintro (rfl | member)
      · exact inside
      · exact member
  · exact List.mem_cons

theorem setPte_written_once {q : Pte} (once : pd.written.Nodup) : (pd.setPte u q).written.Nodup := by
  simp only [Pagedir.setPte]
  split
  · exact once
  · next outside => exact List.nodup_cons.mpr ⟨outside,once⟩

theorem inv_mapped {alloc : Bool} (inv : Inv (some k) s) (directory : s.pagedir t = some pd)
    (table : lookup_page pd u true alloc = some pd') (absent : (pd'.pte u).present = false)
    (mapped : Mapped s s' t pd' u k) : Inv none s' := by
  obtain ⟨tabled,more,written,ptes,fewer⟩ := lookup_page_some table
  obtain ⟨writable,pagedir⟩ := mapped.pagedir
  obtain ⟨p,resident,kpage,entries⟩ := mapped.entries
  have presence : ∀ v, pd'.Present v → pd.Present v := by
    rintro v ⟨_,set⟩
    exact ⟨(inv.present t pd v directory (fewer v set)).1,fewer v set⟩
  -- No frame of the table is of the page that is being mapped.
  have apart : ∀ f ∈ s.frametable, ¬ (f.owner_pid = t ∧ f.upage = u) := by
    rintro f member ⟨rfl,rfl⟩
    obtain ⟨pd0,_,directoryToo,_,_,_,present,_⟩ := inv.framed f member
    rw [directory] at directoryToo
    cases directoryToo
    rw [ptes f.upage present.1,present.2] at absent
    cases absent
  have new : (pd'.setPte u { present := true, writable := writable, kpage := k }).Present u ∧
      ((pd'.setPte u { present := true, writable := writable, kpage := k }).pte u).kpage = k :=
    ⟨(setPte_present rfl tabled).mpr (.inl rfl),by simp [Pagedir.setPte]⟩
  refine ⟨?_,?_,?_,?_,by simp,?_,?_,?_,?_⟩
  · intro f member
    rw [mapped.frametable] at member
    rcases List.mem_append.mp member with before | added
    · obtain ⟨pd0,q,directoryToo,found,residentToo,same,present,frame⟩ := inv.framed f before
      by_cases owner : f.owner_pid = t
      · subst owner
        rw [directory] at directoryToo
        cases directoryToo
        have other : ¬ f.upage = u := fun equal => apart f before ⟨rfl,equal⟩
        refine ⟨_,q,by rw [pagedir,if_pos rfl],?_,residentToo,same,?_,?_⟩
        · rw [entries,if_neg (fun both => other both.2)]
          exact found
        · exact (setPte_present rfl tabled).mpr (.inr ⟨more _ present.1,by rw [ptes _ present.1]; exact present.2⟩)
        · simpa [Pagedir.setPte,other,ptes _ present.1] using frame
      · refine ⟨pd0,q,?_,?_,residentToo,same,present,frame⟩
        · rw [pagedir,if_neg owner]
          exact directoryToo
        · rw [entries,if_neg (fun both => owner both.1)]
          exact found
    · rw [List.mem_singleton.mp added]
      refine ⟨_,p,by rw [pagedir,if_pos rfl],?_,resident,kpage,new.1,new.2⟩
      rw [entries,if_pos ⟨rfl,rfl⟩]
  · intro w pd0 v directoryToo present
    rw [mapped.frametable]
    rw [pagedir] at directoryToo
    by_cases owner : w = t
    · subst owner
      rw [if_pos rfl] at directoryToo
      cases directoryToo
      rcases (setPte_present rfl tabled).mp present with rfl | before
      · exact ⟨_,List.mem_append_right _ (List.mem_singleton_self _),rfl,rfl⟩
      · obtain ⟨f,member,same⟩ := inv.mapped w pd v directory (presence v before)
        exact ⟨f,List.mem_append_left _ member,same⟩
    · rw [if_neg owner] at directoryToo
      obtain ⟨f,member,same⟩ := inv.mapped w pd0 v directoryToo present
      exact ⟨f,List.mem_append_left _ member,same⟩
  · rw [mapped.frametable,List.map_append]
    refine List.Nodup.append inv.distinct (List.nodup_singleton k) (List.disjoint_singleton.mpr ?_)
    intro member
    obtain ⟨f,inside,same⟩ := List.mem_map.mp member
    exact inv.apart k rfl f inside same
  · intro j
    rw [mapped.used_map,inv.used,mapped.frametable]
    constructor
    · rintro (⟨f,member,same⟩ | same)
      · exact .inl ⟨f,List.mem_append_left _ member,same⟩
      · exact .inl ⟨_,List.mem_append_right _ (List.mem_singleton_self _),Option.some.inj same⟩
    · rintro (⟨f,member,same⟩ | none)
      · rcases List.mem_append.mp member with before | added
        · exact .inl ⟨f,before,same⟩
        · rw [List.mem_singleton.mp added] at same
          exact .inr (congrArg some same)
      · cases none
  · intro w pd0 v q directoryToo found
    rw [pagedir] at directoryToo
    rw [entries] at found
    by_cases owner : w = t
    · subst owner
      rw [if_pos rfl] at directoryToo
      cases directoryToo
      by_cases same : v = u
      · rw [same]
        exact tabled
      · rw [if_neg (fun both => same both.2)] at found
        exact more _ (inv.tabled w pd v q directory found)
    · rw [if_neg owner] at directoryToo
      rw [if_neg (fun both => owner both.1)] at found
      exact inv.tabled w pd0 v q directoryToo found
  · intro w pd0 v directoryToo set
    rw [pagedir] at directoryToo
    by_cases owner : w = t
    · subst owner
      rw [if_pos rfl] at directoryToo
      cases directoryToo
      rw [mem_setPte_written]
      by_cases same : v = u
      · subst same
        exact ⟨tabled,.inl rfl⟩
      · simp only [Pagedir.setPte,same,↓reduceIte] at set
        obtain ⟨inside,before⟩ := inv.present w pd v directory (fewer v set)
        exact ⟨more _ inside,.inr (by rw [written]; exact before)⟩
    · rw [if_neg owner] at directoryToo
      exact inv.present w pd0 v directoryToo set
  · intro w pd0 directoryToo
    rw [pagedir] at directoryToo
    by_cases owner : w = t
    · subst owner
      rw [if_pos rfl] at directoryToo
      cases directoryToo
      exact setPte_written_once (by rw [written]; exact inv.written w pd directory)
    · rw [if_neg owner] at directoryToo
      exact inv.written w pd0 directoryToo
  · intro w later
    rw [mapped.next_tid] at later
    obtain ⟨none,empty⟩ := inv.fresh w later
    have other : w ≠ t := by
      rintro rfl
      rw [directory] at none
      cases none
    rw [pagedir,if_neg other,mapped.others w other]
    exact ⟨none,empty⟩

/-- `pagedir_set_page`, when it succeeds. -/
theorem pagedir_set_page_ok {writable alloc done : Bool} (ran : pagedir_set_page s t u k writable alloc = .ok (s',done)) :
    ∃ pd, s.pagedir t = some pd ∧
      ((done = false ∧ s' = s ∧ lookup_page pd u true alloc = none) ∨
      ∃ pd', done = true ∧ lookup_page pd u true alloc = some pd' ∧ (pd'.pte u).present = false ∧
        s' = withPage s t pd' u k writable) := by
  unfold pagedir_set_page at ran
  split at ran
  · cases ran
  · next pd directory =>
    refine ⟨pd,directory,?_⟩
    split at ran
    · next none =>
      cases ran
      exact .inl ⟨rfl,rfl,none⟩
    · next pd' table =>
      split at ran
      · cases ran
      · next absent =>
        cases ran
        exact .inr ⟨pd',rfl,table,by simpa using absent,rfl⟩

/-- A page that has no entry gets one. -/
theorem mapped_new {writable : Bool} (new : page_entry_lookup s u t = none) :
    Mapped s (withPage s t pd u k writable) t pd u k := by
  have same : page_entry_lookup (s.setPagedir t (some (pd.setPte u
      { present := true, writable := writable, kpage := k }))) u t = none := new
  have inserted : ∀ v w, page_entry_lookup (withPage s t pd u k writable) v w =
      if w = t ∧ v = u then some { upage := u, kpage := k, writable := writable, is_swapped := false }
      else page_entry_lookup s v w := fun v w => lookup_insert same
  refine ⟨?_,⟨writable,?_⟩,⟨_,rfl,rfl,inserted⟩,?_,insert_used_map,insert_next_tid⟩
  · simp [withPage,frame_entry_insert,insert_frametable,Vm.setPagedir]
  · intro w
    simp [withPage,frame_entry_insert,insert_pagedir,Vm.setPagedir]
  · intro w other
    exact insert_other other

/-- A page that has an entry keeps it. -/
theorem withPage_known {writable : Bool} (known : page_entry_lookup s u t = some p) :
    withPage s t pd u k writable = frame_entry_insert (s.setPagedir t (some (pd.setPte u
      { present := true, writable := writable, kpage := k }))) u k t := by
  unfold withPage
  have same : page_entry_lookup (s.setPagedir t (some (pd.setPte u
      { present := true, writable := writable, kpage := k }))) u t = some p := known
  rw [insert_known same]

theorem inv_load {writable loaded alloc : Bool} {bytes : Page} (inv : Inv none s)
    (new : page_entry_lookup s u t = none) (ran : load_page s t u writable bytes loaded alloc = .ok s') :
    Inv none s' := by
  unfold load_page at ran
  split at ran
  · cases ran
  · next k s1 taken =>
    have before := inv_palloc inv taken
    have newToo : page_entry_lookup s1 u t = none := palloc_lookup_none taken new
    split at ran
    · have filled : Inv (some k) (s1.setMem k bytes) :=
        ⟨before.framed,before.mapped,before.distinct,before.used,before.apart,before.tabled,before.present,
          before.written,before.fresh⟩
      split at ran
      · cases ran
      · next s2 installed =>
        cases ran
        unfold install_page at installed
        split at installed
        · cases installed
        · obtain ⟨pd,directory,⟨no,_⟩ | ⟨pd',_,table,absent,rfl⟩⟩ := pagedir_set_page_ok installed
          · cases no
          · exact inv_mapped filled directory table absent (mapped_new newToo)
      · next s2 installed =>
        refine inv_free ?_ ran
        unfold install_page at installed
        split at installed
        · cases installed
          exact filled
        · obtain ⟨pd,directory,⟨_,rfl,_⟩ | ⟨pd',no,_⟩⟩ := pagedir_set_page_ok installed
          · exact filled
          · cases no
    · exact inv_free before ran

/-! ### Page faults -/

theorem swapIn_ok {alloc : Bool} (ran : swapIn s t p alloc = .ok s') : ∃ k s1 s2 s3 done,
    palloc_get_page s = .ok (k,s1) ∧ swap_disk_to_frame s1 k p.kpage t = .ok s2 ∧
    pagedir_set_page (flap_swapped_flag s2 p.upage t) t p.upage k p.writable alloc = .ok (s3,done) ∧
    s' = page_entry_update_kpage s3 p.upage t k := by
  unfold swapIn at ran
  split at ran
  · cases ran
  · next k s1 taken =>
    split at ran
    · cases ran
    · next s2 swapped =>
      split at ran
      · cases ran
      · next s3 done set =>
        cases ran
        exact ⟨k,s1,s2,s3,done,taken,swapped,set,rfl⟩

/-- Swapping in touches neither frames nor mappings. -/
structure SameTables (s s' : Vm) : Prop where
  frametable : s'.frametable = s.frametable
  pagetable : s'.pagetable = s.pagetable
  pagedir : s'.pagedir = s.pagedir
  used_map : s'.used_map = s.used_map
  next_tid : s'.next_tid = s.next_tid

theorem swap_disk_to_frame_tables {old : Nat} (ran : swap_disk_to_frame s k old t = .ok s') : SameTables s s' := by
  unfold swap_disk_to_frame at ran
  split at ran
  · cases ran
  · split at ran
    · cases ran
      exact ⟨rfl,rfl,rfl,rfl,rfl⟩
    · cases ran
      exact ⟨rfl,rfl,rfl,rfl,rfl⟩

theorem palloc_lookup_swapped (ran : palloc_get_page s = .ok (k,s')) (known : page_entry_lookup s u t = some p)
    (swapped : p.is_swapped = true) : page_entry_lookup s' u t = some p := by
  unfold palloc_get_page at ran
  split at ran
  · cases ran
    exact known
  · obtain ⟨f,rest,evicted⟩ := evicted_of_ok ran
    rw [evicted.entries]
    split
    · next same =>
      -- The victim's own entry was not swapped.
      obtain ⟨q,found,resident,_⟩ := evicted.entry
      rw [← same.1,← same.2,known] at found
      cases found
      rw [swapped] at resident
      cases resident
    · exact known

/-- A resident directory stays one; a page that was not present is not made so. -/
theorem palloc_pagedir (ran : palloc_get_page s = .ok (k,s')) (directory : s.pagedir t = some pd) :
    ∃ pd', s'.pagedir t = some pd' ∧ pd'.tables = pd.tables ∧
      ∀ v, (pd.pte v).present = false → (pd'.pte v).present = false := by
  unfold palloc_get_page at ran
  split at ran
  · cases ran
    exact ⟨pd,directory,rfl,fun _ absent => absent⟩
  · obtain ⟨f,rest,evicted⟩ := evicted_of_ok ran
    rw [evicted.pagedir,directory]
    split
    · refine ⟨_,rfl,clear_tables,?_⟩
      intro v absent
      by_contra set
      rw [clear_pte_present (by simpa using set)] at absent
      cases absent
    · exact ⟨pd,rfl,rfl,fun _ absent => absent⟩

theorem mapped_known {s2 s3 : Vm} {writable : Bool} (pd : Pagedir) (k : Nat) (tables : SameTables s s2)
    (known : page_entry_lookup s p.upage t = some p) (swapped : p.is_swapped = true)
    (set : s3 = withPage (flap_swapped_flag s2 p.upage t) t pd p.upage k writable) :
    Mapped s (page_entry_update_kpage s3 p.upage t k) t pd p.upage k := by
  have lookup : ∀ v w, page_entry_lookup s2 v w = page_entry_lookup s v w := by
    intro v w
    simp only [page_entry_lookup,tables.pagetable]
  have flapped : page_entry_lookup (flap_swapped_flag s2 p.upage t) p.upage t = some { p with is_swapped := false } := by
    rw [lookup_flap,if_pos ⟨rfl,rfl⟩,lookup,known]
    simp [swapped]
  rw [withPage_known flapped] at set
  subst set
  refine ⟨?_,⟨writable,?_⟩,⟨{ p with is_swapped := false, kpage := k },rfl,rfl,?_⟩,?_,tables.used_map,tables.next_tid⟩
  · simp [page_entry_update_kpage,flap_swapped_flag,Vm.updateEntry,frame_entry_insert,Vm.setPagedir,tables.frametable]
  · intro w
    simp [page_entry_update_kpage,flap_swapped_flag,Vm.updateEntry,frame_entry_insert,Vm.setPagedir,tables.pagedir]
  · intro v w
    rw [lookup_update_kpage]
    have stays : ∀ v w, page_entry_lookup (frame_entry_insert ((flap_swapped_flag s2 p.upage t).setPagedir t
        (some (pd.setPte p.upage { present := true, writable := writable, kpage := k }))) p.upage k t) v w =
        page_entry_lookup (flap_swapped_flag s2 p.upage t) v w := fun _ _ => rfl
    rw [stays,stays,flapped]
    split
    · rfl
    · next other => rw [lookup_flap,if_neg other,lookup]
  · intro w other
    simp [page_entry_update_kpage,flap_swapped_flag,Vm.updateEntry,frame_entry_insert,Vm.setPagedir,other,
      tables.pagetable]

/-- A fault on a swapped-out page: the page has its page table since it was
    installed, so that mapping it does not fail. -/
theorem swapIn_spec {alloc : Bool} (directory : s.pagedir t = some pd) (tabled : pd_no p.upage ∈ pd.tables)
    (known : page_entry_lookup s p.upage t = some p) (swapped : p.is_swapped = true)
    (ran : swapIn s t p alloc = .ok s') : ∃ k s1 s2 pd1,
      palloc_get_page s = .ok (k,s1) ∧ swap_disk_to_frame s1 k p.kpage t = .ok s2 ∧
      s1.pagedir t = some pd1 ∧ pd_no p.upage ∈ pd1.tables ∧ (pd1.pte p.upage).present = false ∧
      page_entry_lookup s1 p.upage t = some p ∧
      s' = page_entry_update_kpage (withPage (flap_swapped_flag s2 p.upage t) t pd1 p.upage k p.writable) p.upage t k := by
  obtain ⟨k,s1,s2,s3,done,taken,moved,set,rfl⟩ := swapIn_ok ran
  have tables := swap_disk_to_frame_tables moved
  obtain ⟨pd1,directory1,same,_⟩ := palloc_pagedir taken directory
  have table : pd_no p.upage ∈ pd1.tables := same ▸ tabled
  have here : (flap_swapped_flag s2 p.upage t).pagedir t = some pd1 := by
    simpa [flap_swapped_flag,Vm.updateEntry,tables.pagedir] using directory1
  have lookup : lookup_page pd1 p.upage true alloc = some pd1 := by simp [lookup_page,table]
  refine ⟨k,s1,s2,pd1,taken,moved,directory1,table,?_,palloc_lookup_swapped taken known swapped,?_⟩
  · obtain ⟨pd2,directory2,⟨_,_,none⟩ | ⟨pd3,_,found,absent,_⟩⟩ := pagedir_set_page_ok set
    · rw [here] at directory2
      cases directory2
      rw [lookup] at none
      cases none
    · rw [here] at directory2
      cases directory2
      rw [lookup] at found
      cases found
      exact absent
  · obtain ⟨pd2,directory2,⟨_,_,none⟩ | ⟨pd3,_,found,_,rfl⟩⟩ := pagedir_set_page_ok set
    · rw [here] at directory2
      cases directory2
      rw [lookup] at none
      cases none
    · rw [here] at directory2
      cases directory2
      rw [lookup] at found
      cases found
      rfl

theorem inv_swapIn {alloc : Bool} (inv : Inv none s) (directory : s.pagedir t = some pd)
    (known : page_entry_lookup s p.upage t = some p) (swapped : p.is_swapped = true)
    (ran : swapIn s t p alloc = .ok s') : Inv none s' := by
  obtain ⟨k,s1,s2,pd1,taken,moved,here,table,absent,knownToo,rfl⟩ :=
    swapIn_spec directory (inv.tabled t pd p.upage p directory known) known swapped ran
  have lookup : lookup_page pd1 p.upage true true = some pd1 := by simp [lookup_page,table]
  exact inv_mapped (inv_palloc inv taken) here lookup absent
    (mapped_known pd1 k (swap_disk_to_frame_tables moved) knownToo swapped rfl)

/-! ### Exits -/

/-- What the frees of `pagedir_destroy` leave alone. -/
structure Freed (s s' : Vm) (kpages : List Nat) : Prop where
  frametable : s'.frametable = s.frametable
  pagetable : s'.pagetable = s.pagetable
  pagedir : s'.pagedir = s.pagedir
  next_tid : s'.next_tid = s.next_tid
  exit_status : s'.exit_status = s.exit_status
  exception_lock : s'.exception_lock = s.exception_lock
  used_map : ∀ k, s'.used_map k = if k ∈ kpages then false else s.used_map k

theorem freeAll_ok (kpages : List Nat) : ∀ s : Vm, freeAll s kpages = .ok s' → Freed s s' kpages := by
  induction kpages with
  | nil =>
    intro s ran
    cases ran
    exact ⟨rfl,rfl,rfl,rfl,rfl,rfl,fun _ => by simp⟩
  | cons first others ih =>
    intro s ran
    rw [freeAll] at ran
    split at ran
    · cases ran
    · next s1 freed =>
      unfold palloc_free_page at freed
      split at freed
      · cases freed
        have later := ih _ ran
        refine ⟨later.frametable,later.pagetable,later.pagedir,later.next_tid,later.exit_status,
          later.exception_lock,?_⟩
        intro k
        rw [later.used_map]
        by_cases same : k = first
        · simp [same,Vm.setMem,Vm.setUsed]
        · simp [same,Vm.setMem,Vm.setUsed]
      · cases freed

theorem inv_exit (inv : Inv none s) (ran : thread_exit s t = .ok s') : Inv none s' := by
  unfold thread_exit at ran
  split at ran
  · next dead =>
    cases ran
    -- A process without a page directory has no frames.
    have all : s.frametable.filter (fun f => f.owner_pid ≠ t) = s.frametable := by
      refine List.filter_eq_self.mpr ?_
      intro f member
      obtain ⟨pd,_,directory,_⟩ := inv.framed f member
      simp only [ne_eq,decide_not,Bool.not_eq_eq_eq_not,Bool.not_true,decide_eq_false_iff_not]
      rintro rfl
      rw [dead] at directory
      cases directory
    have same : frame_delete_by_pid s t = s := by
      simp only [frame_delete_by_pid,all]
    rw [same]
    exact inv
  · next pd directory =>
    unfold pagedir_destroy at ran
    obtain ⟨frames,entries,directories,next,_,_,used⟩ := freeAll_ok _ _ ran
    have frametable : ∀ f, f ∈ s'.frametable ↔ f ∈ s.frametable ∧ f.owner_pid ≠ t := by
      intro f
      rw [frames]
      simp [Vm.setPagedir,frame_delete_by_pid]
    have lookup : ∀ v w, page_entry_lookup s' v w = page_entry_lookup s v w := by
      intro v w
      simp only [page_entry_lookup,entries,Vm.setPagedir,frame_delete_by_pid]
    have pagedir : ∀ w, s'.pagedir w = if w = t then none else s.pagedir w := by
      intro w
      rw [directories]
      rfl
    -- The frames that are freed are those of the process.
    have freed : ∀ k, k ∈ (pd.written.filter (fun u => pd.Present u)).map (fun u => (pd.pte u).kpage) ↔
        ∃ f ∈ s.frametable, f.owner_pid = t ∧ f.kpage = k := by
      intro k
      simp only [List.mem_map,List.mem_filter,decide_eq_true_eq]
      constructor
      · rintro ⟨u,⟨_,present⟩,rfl⟩
        obtain ⟨f,member,rfl,rfl⟩ := inv.mapped t pd u directory present
        obtain ⟨pd',_,directoryToo,_,_,_,_,kpage⟩ := inv.framed f member
        rw [directory] at directoryToo
        cases directoryToo
        exact ⟨f,member,rfl,kpage.symm⟩
      · rintro ⟨f,member,rfl,rfl⟩
        obtain ⟨pd',_,directoryToo,_,_,_,present,kpage⟩ := inv.framed f member
        rw [directory] at directoryToo
        cases directoryToo
        exact ⟨f.upage,⟨(inv.present _ _ _ directory present.2).2,present⟩,kpage⟩
    have live : ∀ w pd, s'.pagedir w = some pd → w ≠ t ∧ s.pagedir w = some pd := by
      intro w pd directoryToo
      rw [pagedir] at directoryToo
      by_cases owner : w = t
      · rw [if_pos owner] at directoryToo
        cases directoryToo
      · rw [if_neg owner] at directoryToo
        exact ⟨owner,directoryToo⟩
    refine ⟨?_,?_,?_,?_,by simp,?_,?_,?_,?_⟩
    · intro f member
      obtain ⟨before,other⟩ := (frametable f).mp member
      obtain ⟨pd',p,directoryToo,found,resident⟩ := inv.framed f before
      refine ⟨pd',p,?_,?_,resident⟩
      · rw [pagedir,if_neg other]
        exact directoryToo
      · rw [lookup]
        exact found
    · intro w pd' u directoryToo present
      obtain ⟨other,before⟩ := live w pd' directoryToo
      obtain ⟨f,member,owner,page⟩ := inv.mapped w pd' u before present
      exact ⟨f,(frametable f).mpr ⟨member,by rwa [owner]⟩,owner,page⟩
    · have kept : s'.frametable = s.frametable.filter (fun f => f.owner_pid ≠ t) := by
        rw [frames]
        rfl
      rw [kept]
      exact inv.distinct.sublist (List.Sublist.map _ List.filter_sublist)
    · intro k
      rw [used]
      split
      · next gone =>
        obtain ⟨f,member,owner,rfl⟩ := (freed k).mp gone
        simp only [Bool.false_eq_true,reduceCtorEq,or_false,false_iff]
        rintro ⟨g,memberToo,same⟩
        obtain ⟨before,other⟩ := (frametable g).mp memberToo
        exact other (List.inj_on_of_nodup_map inv.distinct before member same ▸ owner)
      · next stays =>
        have before := inv.used k
        simp only [reduceCtorEq,or_false] at before ⊢
        refine before.trans ⟨?_,?_⟩
        · rintro ⟨f,member,same⟩
          refine ⟨f,(frametable f).mpr ⟨member,?_⟩,same⟩
          intro owner
          exact stays ((freed k).mpr ⟨f,member,owner,same⟩)
        · rintro ⟨f,member,same⟩
          exact ⟨f,((frametable f).mp member).1,same⟩
    · intro w pd' u p directoryToo found
      rw [lookup] at found
      exact inv.tabled w pd' u p (live w pd' directoryToo).2 found
    · intro w pd' u directoryToo set
      exact inv.present w pd' u (live w pd' directoryToo).2 set
    · intro w pd' directoryToo
      exact inv.written w pd' (live w pd' directoryToo).2
    · intro w later
      rw [next] at later
      obtain ⟨none,empty⟩ := inv.fresh w later
      rw [pagedir,entries]
      refine ⟨?_,empty⟩
      split
      · rfl
      · exact none

/-! ### Every step -/

theorem inv_fault {fault_addr : Nat} {alloc : Bool} {out : Outcome} (inv : Inv none s) (live : Live s t)
    (ran : page_fault s t fault_addr alloc = .ok out) :
    (∀ s', out = .returned s' → Inv none s') ∧ ∀ s', out = .exited s' → Inv none s' := by
  obtain ⟨pd,directory⟩ := Option.isSome_iff_exists.mp live
  have locked : ∀ b, Inv none { s with exception_lock := b } := fun _ =>
    ⟨inv.framed,inv.mapped,inv.distinct,inv.used,inv.apart,inv.tabled,inv.present,inv.written,inv.fresh⟩
  unfold page_fault at ran
  split at ran
  · cases ran
    exact ⟨fun _ same => by cases same; exact inv,fun _ same => by cases same⟩
  · split at ran
    · split at ran
      · cases ran
      · dsimp only at ran
        split at ran
        · cases ran
          exact ⟨fun _ same => by cases same; exact locked false,fun _ same => by cases same⟩
        · split at ran
          · cases ran
          · next p found =>
            split at ran
            · next swapped =>
              split at ran
              · cases ran
              · next s1 moved =>
                cases ran
                refine ⟨fun _ same => ?_,fun _ same => by cases same⟩
                cases same
                have page := lookup_upage found
                have known : page_entry_lookup { s with exception_lock := true } p.upage t = some p := by
                  rw [page]
                  exact found
                have after := inv_swapIn (locked true) directory known swapped moved
                exact ⟨after.framed,after.mapped,after.distinct,after.used,after.apart,after.tabled,after.present,
                  after.written,after.fresh⟩
            · cases ran
              exact ⟨fun _ same => by cases same; exact locked false,fun _ same => by cases same⟩
    · split at ran
      · cases ran
      · next s1 gone =>
        cases ran
        refine ⟨fun _ same => by (cases same),fun _ same => ?_⟩
        cases same
        refine inv_exit ?_ gone
        exact ⟨inv.framed,inv.mapped,inv.distinct,inv.used,inv.apart,inv.tabled,inv.present,inv.written,inv.fresh⟩

/-- The directory of a new process is empty, and the others are as they were. -/
theorem started {w : Tid} {pd : Pagedir} (directory : (s.setPagedir s.next_tid (some pagedir_create)).pagedir w = some pd) :
    (w = s.next_tid ∧ pd = pagedir_create) ∨ s.pagedir w = some pd := by
  simp only [Vm.setPagedir] at directory
  split at directory
  · next new => exact .inl ⟨new,(Option.some.inj directory).symm⟩
  · exact .inr directory

theorem inv_start (inv : Inv none s) :
    Inv none { s.setPagedir s.next_tid (some pagedir_create) with next_tid := s.next_tid + 1 } := by
  obtain ⟨none,empty⟩ := inv.fresh s.next_tid (Nat.le_refl _)
  refine ⟨?_,?_,inv.distinct,inv.used,inv.apart,?_,?_,?_,?_⟩
  · intro f member
    obtain ⟨pd,p,directory,found⟩ := inv.framed f member
    have other : f.owner_pid ≠ s.next_tid := by
      intro same
      rw [same,none] at directory
      cases directory
    exact ⟨pd,p,by simpa [Vm.setPagedir,other] using directory,found⟩
  · intro w pd u directory present
    rcases started directory with ⟨_,rfl⟩ | before
    · simp [Pagedir.Present,pagedir_create] at present
    · exact inv.mapped w pd u before present
  · intro w pd u p directory found
    rcases started directory with ⟨rfl,_⟩ | before
    · simp [page_entry_lookup,Vm.setPagedir,empty] at found
    · exact inv.tabled w pd u p before found
  · intro w pd u directory set
    rcases started directory with ⟨_,rfl⟩ | before
    · simp [pagedir_create] at set
    · exact inv.present w pd u before set
  · intro w pd directory
    rcases started directory with ⟨_,rfl⟩ | before
    · exact .nil
    · exact inv.written w pd before
  · intro w later
    have later : s.next_tid + 1 ≤ w := later
    have other : w ≠ s.next_tid := fun same => by rw [same] at later; exact Nat.not_succ_le_self _ later
    obtain ⟨dead,bare⟩ := inv.fresh w (Nat.le_of_succ_le later)
    exact ⟨by simpa [Vm.setPagedir,other] using dead,bare⟩

theorem inv_step (inv : Inv none s) (fresh : FreshInstalls s e) (ran : step s e = .ok s') : Inv none s' := by
  cases e with
  | start =>
    cases ran
    exact inv_start inv
  | install t upage writable bytes loaded alloc =>
    simp only [step] at ran
    split at ran
    · exact inv_load inv fresh ran
    · cases ran
  | write t upage bytes =>
    simp only [step,write] at ran
    split at ran
    · cases ran
    · split at ran
      · cases ran
        exact ⟨inv.framed,inv.mapped,inv.distinct,inv.used,inv.apart,inv.tabled,inv.present,inv.written,inv.fresh⟩
      · cases ran
  | page_fault t fault_addr alloc =>
    simp only [step] at ran
    split at ran
    · next live =>
      split at ran
      · cases ran
      · next s1 returned =>
        cases ran
        exact (inv_fault inv live returned).1 s' rfl
      · next s1 exited =>
        cases ran
        exact (inv_fault inv live exited).2 s' rfl
    · cases ran
  | thread_exit t =>
    simp only [step] at ran
    split at ran
    · exact inv_exit inv ran
    · cases ran
  | filesys held =>
    cases ran
    exact ⟨inv.framed,inv.mapped,inv.distinct,inv.used,inv.apart,inv.tabled,inv.present,inv.written,inv.fresh⟩

/-! ### The assertions of `page_swap_to_disk` -/

/-- A fault other than the two assertions about the victim's page entry. -/
def Harmless (fault : Fault) : Prop := fault ≠ .no_page_entry ∧ fault ≠ .already_swapped

theorem harmless_palloc (inv : Inv none s) (ran : palloc_get_page s = .error fault) : Harmless fault := by
  unfold palloc_get_page at ran
  split at ran
  · cases ran
  · unfold page_swap_to_disk at ran
    split at ran
    · cases ran
      exact ⟨by decide,by decide⟩
    · next f rest queue =>
      -- The front of `frametable` has a page entry, and it is resident.
      obtain ⟨_,p,_,found,resident,_⟩ := inv.framed f (by rw [queue]; exact List.mem_cons_self)
      simp only [found,resident,Bool.false_eq_true,↓reduceIte] at ran
      split at ran
      · next moved =>
        cases ran
        unfold swap_frame_to_disk at moved
        split at moved
        · cases moved
          exact ⟨by decide,by decide⟩
        · split at moved
          · cases moved
            exact ⟨by decide,by decide⟩
          · cases moved
      · cases ran

theorem harmless_free (ran : palloc_free_page s k = .error fault) : Harmless fault := by
  unfold palloc_free_page at ran
  split at ran
  · cases ran
  · cases ran
    exact ⟨by decide,by decide⟩

theorem harmless_set_page {writable alloc : Bool} (ran : pagedir_set_page s t u k writable alloc = .error fault) :
    Harmless fault := by
  unfold pagedir_set_page at ran
  split at ran
  · cases ran
    exact ⟨by decide,by decide⟩
  · split at ran
    · cases ran
    · split at ran
      · cases ran
        exact ⟨by decide,by decide⟩
      · cases ran

theorem harmless_load {writable loaded alloc : Bool} {bytes : Page} (inv : Inv none s)
    (ran : load_page s t u writable bytes loaded alloc = .error fault) : Harmless fault := by
  unfold load_page at ran
  split at ran
  · next failed =>
    cases ran
    exact harmless_palloc inv failed
  · split at ran
    · split at ran
      · next failed =>
        cases ran
        unfold install_page at failed
        split at failed
        · cases failed
        · exact harmless_set_page failed
      · cases ran
      · exact harmless_free ran
    · exact harmless_free ran

theorem harmless_swapIn {alloc : Bool} (inv : Inv none s) (ran : swapIn s t p alloc = .error fault) :
    Harmless fault := by
  unfold swapIn at ran
  split at ran
  · next failed =>
    cases ran
    exact harmless_palloc inv failed
  · split at ran
    · next failed =>
      cases ran
      unfold swap_disk_to_frame at failed
      split at failed
      · cases failed
        exact ⟨by decide,by decide⟩
      · split at failed <;> cases failed
    · split at ran
      · next failed =>
        cases ran
        exact harmless_set_page failed
      · cases ran

theorem harmless_freeAll (kpages : List Nat) : ∀ s : Vm, freeAll s kpages = .error fault → Harmless fault := by
  induction kpages with
  | nil => intro s ran; cases ran
  | cons first others ih =>
    intro s ran
    rw [freeAll] at ran
    split at ran
    · next failed =>
      cases ran
      exact harmless_free failed
    · exact ih _ ran

theorem harmless_exit (ran : thread_exit s t = .error fault) : Harmless fault := by
  unfold thread_exit at ran
  split at ran
  · cases ran
  · exact harmless_freeAll _ _ ran

theorem harmless_fault {fault_addr : Nat} {alloc : Bool} (inv : Inv none s)
    (ran : page_fault s t fault_addr alloc = .error fault) : Harmless fault := by
  unfold page_fault at ran
  split at ran
  · cases ran
  · split at ran
    · split at ran
      · cases ran
        exact ⟨by decide,by decide⟩
      · dsimp only at ran
        split at ran
        · cases ran
        · split at ran
          · cases ran
            exact ⟨by decide,by decide⟩
          · split at ran
            · split at ran
              · next failed =>
                cases ran
                refine harmless_swapIn ?_ failed
                exact ⟨inv.framed,inv.mapped,inv.distinct,inv.used,inv.apart,inv.tabled,inv.present,inv.written,
                  inv.fresh⟩
              · cases ran
            · cases ran
    · split at ran
      · next failed =>
        cases ran
        exact harmless_exit failed
      · cases ran

theorem harmless_step (inv : Inv none s) (ran : step s e = .error fault) : Harmless fault := by
  cases e with
  | start => cases ran
  | install t upage writable bytes loaded alloc =>
    simp only [step] at ran
    split at ran
    · exact harmless_load inv ran
    · cases ran
      exact ⟨by decide,by decide⟩
  | write t upage bytes =>
    simp only [step,write] at ran
    split at ran
    · cases ran
      exact ⟨by decide,by decide⟩
    · split at ran
      · cases ran
      · cases ran
        exact ⟨by decide,by decide⟩
  | page_fault t fault_addr alloc =>
    simp only [step] at ran
    split at ran
    · split at ran
      · next failed =>
        cases ran
        exact harmless_fault inv failed
      · cases ran
      · cases ran
    · cases ran
      exact ⟨by decide,by decide⟩
  | thread_exit t =>
    simp only [step] at ran
    split at ran
    · exact harmless_exit ran
    · cases ran
      exact ⟨by decide,by decide⟩
  | filesys held => cases ran

/-! ### Every run -/

theorem inv_boot (pages slots : Nat) : Inv none (boot pages slots) where
  framed f member := by simp [boot] at member
  mapped t pd u directory := by simp [boot] at directory
  distinct := .nil
  used k := by simp [boot]
  apart k same := by cases same
  tabled t pd u p directory := by simp [boot] at directory
  present t pd u directory := by simp [boot] at directory
  written t pd directory := by simp [boot] at directory
  fresh _ _ := ⟨rfl,rfl⟩

theorem reaches_inv {pages slots : Nat} (reached : Reaches (machine pages slots) FreshInstalls s) : Inv none s := by
  refine reaches_invariant (Inv none) ?_ ?_ reached
  · rintro s rfl
    exact inv_boot pages slots
  · intro s e s' inv fresh ran
    exact inv_step inv fresh (ok_of_toOption ran)

/-- In every run in which no process installs a page twice, the frame table, the
    page entries, the page directories and the user pool agree, and no step fails
    an assertion of `page_swap_to_disk` about the victim's page entry. -/
theorem frames_consistent {pages slots : Nat} (reached : Reaches (machine pages slots) FreshInstalls s) :
    Consistent s ∧ ∀ e, step s e ≠ .error .no_page_entry ∧ step s e ≠ .error .already_swapped := by
  have inv := reaches_inv reached
  refine ⟨consistent_of_inv inv,?_⟩
  intro e
  exact ⟨fun failed => (harmless_step inv failed).1 rfl,fun failed => (harmless_step inv failed).2 rfl⟩

/-- Two processes share one frame; a fault brings back the page of the first. -/
def sharedFrame : List Event :=
  [.start,.start,.install 0 5 true (fun _ => 1) true true,.install 1 5 true (fun _ => 2) true true,
    .page_fault 0 (5 * PGSIZE + 7) true]

theorem frames_consistent_shared : ∃ s, guardedRun (fun s e => (step s e).toOption) FreshInstalls (boot 1 4)
      sharedFrame = some s ∧
    Consistent s ∧ s.frametable = [{ upage := 5, kpage := 0, owner_pid := 0 }] ∧
    (page_entry_lookup s 5 1).map PageEntry.is_swapped = some true :=
  ⟨_,rfl,(frames_consistent (guardedRun_reachable (boot 1 4) (fun s e => (step s e).toOption) FreshInstalls
    sharedFrame rfl)).1,by decide,by decide⟩

end Pintos.Frames
