import Pintos.Residency
import Pintos.SwapSlots
import Mathlib.Algebra.BigOperators.Group.Finset.Basic
import Mathlib.Data.Finset.Card

/-!
The swap slots in use and the pages that are swapped out. Every eviction takes a
slot and every fault on a swapped-out page gives one back, whichever of the pages
evicted from the same frame it reads. `thread_exit` gives none back: its call of
`swap_entry_delete_by_tid` is commented out.
-/
namespace Pintos.Reclaim
open Pintos.Machines Pintos.Vm Pintos.Frames Pintos.Residency
open Pintos.SwapSlots hiding Event step machine
set_option linter.unusedSimpArgs false
variable {s s' : Vm} {t w : Tid} {u v k slot : Nat} {pd pd' : Pagedir} {p : PageEntry} {f : FrameEntry}
  {e : Event} {entries : List PageEntry}

/-! ### The pages that are swapped out -/

/-- The old frames of the pages that are swapped out. -/
def swappedFrames (entries : List PageEntry) : List Nat := (entries.filter PageEntry.is_swapped).map PageEntry.kpage

/-- The entry of `u` changes its frame from not listed to listed, or back. -/
theorem swappedFrames_flap (found : entries.find? (fun p => p.upage = u) = some p) :
    (p.is_swapped = false → (swappedFrames (updateFirst u (fun p => { p with is_swapped := !p.is_swapped }) entries)).Perm
      (p.kpage :: swappedFrames entries)) ∧
    (p.is_swapped = true → (p.kpage :: swappedFrames (updateFirst u (fun p => { p with is_swapped := !p.is_swapped })
      entries)).Perm (swappedFrames entries)) := by
  induction entries with
  | nil => simp at found
  | cons q rest ih =>
    by_cases here : q.upage = u
    · obtain rfl : q = p := by simpa [here] using found
      rw [updateFirst,if_pos here]
      refine ⟨fun resident => ?_,fun swapped => ?_⟩
      · simp [swappedFrames,resident]
      · simp [swappedFrames,swapped]
    · have later : rest.find? (fun p => p.upage = u) = some p := by simpa [here] using found
      obtain ⟨out,back⟩ := ih later
      rw [updateFirst,if_neg here]
      cases listed : q.is_swapped with
      | false => simpa [swappedFrames,listed] using ih later
      | true =>
        simp only [swappedFrames,List.filter_cons,listed,↓reduceIte,List.map_cons] at out back ⊢
        refine ⟨fun resident => ?_,fun swapped => ?_⟩
        · exact ((out resident).cons q.kpage).trans (.swap _ _ _)
        · exact (List.Perm.swap _ _ _).trans ((back swapped).cons q.kpage)

/-- A resident page may move to another frame. -/
theorem swappedFrames_update_kpage (found : entries.find? (fun p => p.upage = u) = some p) (resident : p.is_swapped = false) :
    swappedFrames (updateFirst u (fun p => { p with kpage := k }) entries) = swappedFrames entries := by
  induction entries with
  | nil => simp at found
  | cons q rest ih =>
    by_cases here : q.upage = u
    · obtain rfl : q = p := by simpa [here] using found
      rw [updateFirst,if_pos here]
      simp [swappedFrames,resident]
    · have later : rest.find? (fun p => p.upage = u) = some p := by simpa [here] using found
      have same := ih later
      rw [updateFirst,if_neg here]
      simp only [swappedFrames,List.filter_cons] at same ⊢
      split
      · simp [same]
      · exact same

theorem unmapped_size (s : Vm) (f : FrameEntry) (rest : List FrameEntry) :
    (unmapped s f rest).swap_disk_size = s.swap_disk_size := by
  unfold unmapped
  cases s.pagedir f.owner_pid <;> rfl

/-! ### One slot for each of them -/

structure Tally (s : Vm) : Prop where
  unlocked : s.swap_lock = false
  used : ∀ i, s.empty_block_sector i = false ↔ ∃ t, ∃ e ∈ s.swap_table t, e.disk_offset = i
  inside : ∀ t, ∀ e ∈ s.swap_table t, e.disk_offset < s.swap_disk_size
  apart : ∀ t w, ∀ e ∈ s.swap_table t, ∀ d ∈ s.swap_table w, e.disk_offset = d.disk_offset → t = w
  once : ∀ t, ((s.swap_table t).map SwapEntry.disk_offset).Nodup
  frames : ∀ t, ((s.swap_table t).map SwapEntry.kpage).Perm (swappedFrames (s.pagetable t))
  dead : ∀ t, s.pagedir t = none → s.swap_table t = []

theorem tally_free (tally : Tally s) (free : Free s s') : Tally s' where
  unlocked := by rw [free.swap_lock]; exact tally.unlocked
  used := by simpa only [free.empty_block_sector,free.swap_table] using tally.used
  inside := by simpa only [free.swap_table,free.swap_disk_size] using tally.inside
  apart := by simpa only [free.swap_table] using tally.apart
  once := by simpa only [free.swap_table] using tally.once
  frames := by simpa only [free.swap_table,free.pagetable] using tally.frames
  dead := by simpa only [free.swap_table,free.pagedir] using tally.dead

theorem exclusive_of_tally (tally : Tally s) : Exclusive s := ⟨tally.used,tally.inside,tally.apart,tally.once⟩

/-- A slot that is taken for a page of `t`. -/
theorem tally_take (entry : SwapEntry) (tally : Tally s) (free : s.empty_block_sector entry.disk_offset = true)
    (inside : entry.disk_offset < s.swap_disk_size) (unlocked : s'.swap_lock = false)
    (size : s'.swap_disk_size = s.swap_disk_size)
    (sector : ∀ i, s'.empty_block_sector i = if i = entry.disk_offset then false else s.empty_block_sector i)
    (table : ∀ w, s'.swap_table w = if w = t then s.swap_table t ++ [entry] else s.swap_table w)
    (frames : ∀ w, (swappedFrames (s'.pagetable w)).Perm
      (if w = t then entry.kpage :: swappedFrames (s.pagetable t) else swappedFrames (s.pagetable w)))
    (live : s'.pagedir t ≠ none) (dead : ∀ w, w ≠ t → s'.pagedir w = none → s.pagedir w = none) : Tally s' := by
  have exclusive := exclusive_take entry (exclusive_of_tally tally) free inside size sector table
  refine ⟨unlocked,exclusive.used,exclusive.inside,exclusive.apart,exclusive.once,?_,?_⟩
  · intro w
    refine List.Perm.trans ?_ (frames w).symm
    rw [table]
    split
    · rw [List.map_append]
      exact (List.perm_append_singleton _ _).trans ((tally.frames t).cons _)
    · exact tally.frames w
  · intro w none
    by_cases owner : w = t
    · rw [owner] at none
      exact absurd none live
    · rw [table,if_neg owner]
      exact tally.dead w (dead w owner none)

theorem tally_evicted (tables : Tables s) (tally : Tally s) (ran : page_swap_to_disk s = .ok (k,s')) : Tally s' := by
  obtain ⟨f,rest,p,slot,queue,found,resident,rfl,unlocked,free,rfl⟩ := page_swap_to_disk_ok ran
  have frame := unmapped_frame s f rest
  obtain ⟨pd,q,directory,_,known,kpage⟩ := tables.framed f (by rw [queue]; exact List.mem_cons_self)
  obtain rfl : q = p := Option.some.inj (known.symm.trans found)
  have empty : s.empty_block_sector slot = true := by simpa using List.find?_some free
  have inside : slot < s.swap_disk_size := List.mem_range.mp (List.mem_of_find?_eq_some free)
  refine tally_take (t := f.owner_pid) { kpage := f.kpage, disk_offset := slot, victim := f.upage } tally empty
    inside ?_ ?_ ?_ ?_ ?_ ?_ ?_
  · exact frame.swap_lock.trans unlocked
  · exact unmapped_size s f rest
  · intro i
    simp [swappedOut,Vm.setMem,frame.empty_block_sector]
  · intro w
    simp [swappedOut,Vm.setMem,frame.swap_table]
  · intro w
    simp only [swappedOut,Vm.setMem,frame.pagetable,flap_swapped_flag,Vm.updateEntry]
    by_cases owner : w = f.owner_pid
    · subst owner
      simp only [↓reduceIte]
      rw [← kpage resident]
      exact (swappedFrames_flap found).1 resident
    · simp [owner]
  · show (unmapped s f rest).pagedir f.owner_pid ≠ none
    rw [unmapped_pagedir,if_pos rfl,directory]
    simp
  · intro w other gone
    have same : (unmapped s f rest).pagedir w = none := gone
    rwa [unmapped_pagedir,if_neg other] at same

theorem tally_palloc (tables : Tables s) (tally : Tally s) (ran : palloc_get_page s = .ok (k,s')) : Tally s' := by
  unfold palloc_get_page at ran
  split at ran
  · cases ran
    exact tally_free tally ⟨rfl,rfl,rfl,rfl,rfl,rfl,rfl,rfl⟩
  · exact tally_evicted tables tally ran

/-- A page that is swapped out has an entry with its old frame, though it may not
    be its own. -/
theorem tally_entry (tally : Tally s) (known : page_entry_lookup s p.upage t = some p) (swapped : p.is_swapped = true) :
    ∃ e before after, swap_entry_lookup s p.kpage t = some e ∧ e.kpage = p.kpage ∧ s.swap_table t = before ++ e :: after ∧
      (s.swap_table t).eraseP (fun e => e.kpage = p.kpage) = before ++ after := by
  have listed : p.kpage ∈ swappedFrames (s.pagetable t) :=
    List.mem_map.mpr ⟨p,List.mem_filter.mpr ⟨List.mem_of_find?_eq_some known,swapped⟩,rfl⟩
  obtain ⟨d,member,same⟩ := List.mem_map.mp ((tally.frames t).mem_iff.mpr listed)
  have some : ((s.swap_table t).find? (fun e => e.kpage = p.kpage)).isSome := by
    rw [List.find?_isSome]
    exact ⟨d,member,by simpa using same⟩
  obtain ⟨e,found⟩ := Option.isSome_iff_exists.mp some
  obtain ⟨before,after,split,erased⟩ := lookup_split found
  exact ⟨e,before,after,found,by simpa using List.find?_some found,split,erased⟩

/-- The slot of `e` is given back. -/
theorem tally_give {entry : SwapEntry} {before after : List SwapEntry} (tally : Tally s)
    (split : s.swap_table t = before ++ entry :: after) (unlocked : s'.swap_lock = false)
    (size : s'.swap_disk_size = s.swap_disk_size)
    (sector : ∀ i, s'.empty_block_sector i = if i = entry.disk_offset then true else s.empty_block_sector i)
    (table : ∀ w, s'.swap_table w = if w = t then before ++ after else s.swap_table w)
    (frames : ∀ w, (if w = t then entry.kpage :: swappedFrames (s'.pagetable t) else swappedFrames (s'.pagetable w)).Perm
      (swappedFrames (s.pagetable w))) (dead : ∀ w, s'.pagedir w = none → s.pagedir w = none) : Tally s' := by
  have exclusive := exclusive_give (exclusive_of_tally tally) split size sector table
  refine ⟨unlocked,exclusive.used,exclusive.inside,exclusive.apart,exclusive.once,?_,?_⟩
  · intro w
    have old := tally.frames w
    rw [table]
    by_cases owner : w = t
    · subst owner
      have given := frames w
      rw [if_pos rfl] at given ⊢
      rw [split,List.map_append,List.map_cons] at old
      refine List.Perm.cons_inv (a := entry.kpage) ?_
      rw [List.map_append]
      exact List.perm_middle.symm.trans (old.trans given.symm)
    · have given := frames w
      rw [if_neg owner] at given ⊢
      exact old.trans given.symm
  · intro w none
    have empty := tally.dead w (dead w none)
    rw [List.eq_nil_iff_forall_not_mem] at empty ⊢
    exact fun d member => empty d ((mem_given (exclusive_of_tally tally) split table w d).mp member).1

theorem tally_swapIn {alloc : Bool} (tables : Tables s) (tally : Tally s) (directory : s.pagedir t = some pd)
    (known : page_entry_lookup s p.upage t = some p) (swapped : p.is_swapped = true)
    (ran : swapIn s t p alloc = .ok s') : Tally s' := by
  obtain ⟨k,s1,s2,pd1,taken,moved,here,_,_,knownToo,rfl⟩ :=
    swapIn_spec directory (tables.tabled t pd p.upage p directory known) known swapped ran
  have tally1 := tally_palloc tables tally taken
  obtain ⟨entry,before,after,found,key,split,erased⟩ := tally_entry tally1 knownToo swapped
  simp only [swap_disk_to_frame,tally1.unlocked,found,Bool.false_eq_true,↓reduceIte,Except.ok.injEq] at moved
  subst moved
  have flapped : page_entry_lookup (flap_swapped_flag (swappedIn s1 k p.kpage t entry) p.upage t) p.upage t =
      some { p with is_swapped := false } := by
    rw [lookup_flap,if_pos ⟨rfl,rfl⟩]
    have same : page_entry_lookup (swappedIn s1 k p.kpage t entry) p.upage t = some p := knownToo
    rw [same]
    simp [swapped]
  rw [withPage_known flapped]
  refine tally_give tally1 split tally1.unlocked rfl (fun _ => rfl) ?_ ?_ ?_
  · intro w
    rw [← erased]
    rfl
  · intro w
    by_cases owner : w = t
    · subst owner
      rw [if_pos rfl,key]
      refine List.Perm.trans (List.Perm.cons _ (.of_eq ?_)) ((swappedFrames_flap knownToo).2 swapped)
      simp only [page_entry_update_kpage,flap_swapped_flag,Vm.updateEntry,frame_entry_insert,Vm.setPagedir,swappedIn,
        ↓reduceIte]
      refine swappedFrames_update_kpage (p := { p with is_swapped := false }) ?_ rfl
      simpa [page_entry_lookup,flap_swapped_flag,Vm.updateEntry,swappedIn] using flapped
    · rw [if_neg owner]
      simp [page_entry_update_kpage,flap_swapped_flag,Vm.updateEntry,frame_entry_insert,Vm.setPagedir,swappedIn,owner]
  · intro w gone
    by_cases owner : w = t
    · subst owner
      simp [page_entry_update_kpage,flap_swapped_flag,Vm.updateEntry,frame_entry_insert,Vm.setPagedir,swappedIn] at gone
    · simpa [page_entry_update_kpage,flap_swapped_flag,Vm.updateEntry,frame_entry_insert,Vm.setPagedir,swappedIn,owner]
        using gone

theorem insert_swaps (writable : Bool) : (page_entry_insert s u k writable t).swap_table = s.swap_table ∧
    (page_entry_insert s u k writable t).empty_block_sector = s.empty_block_sector ∧
    (page_entry_insert s u k writable t).swap_disk_size = s.swap_disk_size ∧
    (page_entry_insert s u k writable t).swap_lock = s.swap_lock := by
  unfold page_entry_insert
  split <;> exact ⟨rfl,rfl,rfl,rfl⟩

theorem withPage_swaps (s : Vm) (t : Tid) (pd' : Pagedir) (u k : Nat) (writable : Bool) :
    (withPage s t pd' u k writable).swap_table = s.swap_table ∧
    (withPage s t pd' u k writable).empty_block_sector = s.empty_block_sector ∧
    (withPage s t pd' u k writable).swap_disk_size = s.swap_disk_size ∧
    (withPage s t pd' u k writable).swap_lock = s.swap_lock :=
  insert_swaps (s := s.setPagedir t (some (pd'.setPte u { present := true, writable := writable, kpage := k }))) writable

/-- A page that is mapped anew is not swapped out, and one that is mapped again keeps
    its entry. -/
theorem tally_withPage {writable : Bool} (tally : Tally s) :
    Tally (withPage s t pd' u k writable) := by
  have live : ∀ w, (withPage s t pd' u k writable).pagedir w = none → s.pagedir w = none := by
    intro w gone
    simp only [withPage,frame_entry_insert,insert_pagedir,Vm.setPagedir] at gone
    split at gone
    · cases gone
    · exact gone
  obtain ⟨table,sector,size,lock⟩ := withPage_swaps s t pd' u k writable
  refine ⟨by rw [lock]; exact tally.unlocked,?_,?_,?_,?_,?_,?_⟩
  · simpa only [sector,table] using tally.used
  · simpa only [table,size] using tally.inside
  · simpa only [table] using tally.apart
  · simpa only [table] using tally.once
  · intro w
    rw [table]
    refine (tally.frames w).trans (.of_eq ?_)
    simp only [withPage,frame_entry_insert,page_entry_insert]
    split
    · rfl
    · simp only [Vm.setPagedir]
      split
      · next owner => simp [swappedFrames,owner]
      · rfl
  · intro w gone
    rw [table]
    exact tally.dead w (live w gone)

theorem tally_exited (tally : Tally s) (exited : Exited s s' t) (clean : ∀ p ∈ s.pagetable t, p.is_swapped = false) :
    Tally s' := by
  refine ⟨by rw [exited.swap_lock]; exact tally.unlocked,?_,?_,?_,?_,?_,?_⟩
  · simpa only [exited.empty_block_sector,exited.swap_table] using tally.used
  · simpa only [exited.swap_table,exited.swap_disk_size] using tally.inside
  · simpa only [exited.swap_table] using tally.apart
  · simpa only [exited.swap_table] using tally.once
  · simpa only [exited.swap_table,exited.pagetable] using tally.frames
  · intro w gone
    rw [exited.swap_table]
    rw [exited.pagedir] at gone
    by_cases owner : w = t
    · subst owner
      have none : swappedFrames (s.pagetable w) = [] := by
        have empty : (s.pagetable w).filter PageEntry.is_swapped = [] :=
          List.filter_eq_nil_iff.mpr (fun p member => by simp [clean p member])
        rw [swappedFrames,empty,List.map_nil]
      have frames := tally.frames w
      rw [none] at frames
      exact List.map_eq_nil_iff.mp frames.eq_nil
    · rw [if_neg owner] at gone
      exact tally.dead w gone

/-! ### Every run -/

/-- A process that exits, by itself or because of a fault at an address of the
    kernel, has no page swapped out. -/
def ExitsClean (s : Vm) : Event → Prop
  | .thread_exit t => ∀ p ∈ s.pagetable t, p.is_swapped = false
  | .page_fault t fault_addr _ => PHYS_BASE ≤ fault_addr ∧ s.filesys_lock = false →
      ∀ p ∈ s.pagetable t, p.is_swapped = false
  | .start | .install _ _ _ _ _ _ | .write _ _ _ | .filesys _ => True

instance (s : Vm) : (e : Event) → Decidable (ExitsClean s e)
  | .thread_exit t => inferInstanceAs (Decidable (∀ p ∈ s.pagetable t, p.is_swapped = false))
  | .page_fault t fault_addr _ => inferInstanceAs (Decidable (PHYS_BASE ≤ fault_addr ∧ s.filesys_lock = false →
      ∀ p ∈ s.pagetable t, p.is_swapped = false))
  | .start | .install _ _ _ _ _ _ | .write _ _ _ | .filesys _ => .isTrue trivial

theorem tally_moves (tables : Tables s) (tally : Tally s) (meets : ExitsClean s e) (moves : Moves s e s') : Tally s' := by
  cases moves with
  | stays free => exact tally_free tally free
  | start =>
    refine ⟨tally.unlocked,tally.used,tally.inside,tally.apart,tally.once,tally.frames,?_⟩
    intro w gone
    refine tally.dead w ?_
    simp only [Vm.setPagedir] at gone
    split at gone
    · cases gone
    · exact gone
  | refuse taken free => exact tally_free (tally_palloc tables tally taken) free
  | install taken directory unmapped table absent =>
    exact tally_withPage (tally_free (tally_palloc tables tally taken) (free_setMem _ _))
  | swapIn directory found swapped moved =>
    have locks : Free s { s with exception_lock := true } := ⟨rfl,rfl,rfl,rfl,rfl,rfl,rfl,rfl⟩
    have after := tally_swapIn (tables_free tables locks) (tally_free tally locks) directory found swapped moved
    exact tally_free after ⟨rfl,rfl,rfl,rfl,rfl,rfl,rfl,rfl⟩
  | exit live gone => exact tally_exited tally (exited_of_ok gone) meets
  | kill live kernel unlocked gone =>
    exact tally_exited (tally_free tally (free_status _ (-1))) (exited_of_ok gone) (meets ⟨kernel,unlocked⟩)

theorem tally_boot (pages slots : Nat) : Tally (boot pages slots) where
  unlocked := rfl
  used i := by simp [boot]
  inside t e member := by simp [boot] at member
  apart t w e member := by simp [boot] at member
  once t := .nil
  frames t := .nil
  dead t _ := rfl

theorem reaches_tally {pages slots : Nat} (reached : Reaches (machine pages slots) ExitsClean s) : Tables s ∧ Tally s := by
  refine reaches_invariant (fun s => Tables s ∧ Tally s) ?_ ?_ reached
  · rintro s rfl
    exact ⟨tables_boot pages slots,tally_boot pages slots⟩
  · rintro s e s' ⟨tables,tally⟩ meets ran
    have moves := moves_of_step (ok_of_toOption ran)
    exact ⟨tables_moves tables moves,tally_moves tables tally meets moves⟩

/-! ### Counting -/

def usedSlots (s : Vm) : Finset Nat := (Finset.range s.swap_disk_size).filter (fun i => s.empty_block_sector i = false)
def liveProcesses (s : Vm) : Finset Tid := (Finset.range s.next_tid).filter (fun t => Live s t)
/-- How many pages of live processes are swapped out. -/
def swappedPages (s : Vm) : Nat := ∑ t ∈ liveProcesses s, (s.pagetable t).countP PageEntry.is_swapped

theorem usedSlots_eq (tables : Tables s) (tally : Tally s) :
    usedSlots s = (liveProcesses s).biUnion (fun t => ((s.swap_table t).map SwapEntry.disk_offset).toFinset) := by
  ext i
  simp only [usedSlots,liveProcesses,Finset.mem_filter,Finset.mem_range,Finset.mem_biUnion,List.mem_toFinset,List.mem_map]
  constructor
  · rintro ⟨-,taken⟩
    obtain ⟨t,e,member,same⟩ := (tally.used i).mp taken
    have live : Live s t := by
      by_contra gone
      have none : s.pagedir t = none := by simpa [Live] using gone
      rw [tally.dead t none] at member
      cases member
    refine ⟨t,⟨?_,live⟩,e,member,same⟩
    by_contra later
    have none := (tables.fresh t (Nat.le_of_not_lt later)).1
    simp [Live,none] at live
  · rintro ⟨t,-,e,member,rfl⟩
    exact ⟨tally.inside t e member,(tally.used _).mpr ⟨t,e,member,rfl⟩⟩

theorem usedSlots_card (tables : Tables s) (tally : Tally s) : (usedSlots s).card = swappedPages s := by
  have disjoint : ∀ t ∈ liveProcesses s, ∀ w ∈ liveProcesses s, t ≠ w → Disjoint
      ((s.swap_table t).map SwapEntry.disk_offset).toFinset ((s.swap_table w).map SwapEntry.disk_offset).toFinset := by
    intro t _ w _ other
    rw [Finset.disjoint_left]
    intro i first second
    obtain ⟨e,listed,rfl⟩ := List.mem_map.mp (List.mem_toFinset.mp first)
    obtain ⟨d,listedToo,same⟩ := List.mem_map.mp (List.mem_toFinset.mp second)
    exact other (tally.apart t w e listed d listedToo same.symm)
  rw [usedSlots_eq tables tally,Finset.card_biUnion disjoint]
  refine Finset.sum_congr rfl ?_
  intro t _
  rw [List.toFinset_card_of_nodup (tally.once t),List.length_map,List.countP_eq_length_filter]
  simpa [swappedFrames] using (tally.frames t).length_eq

/-- In every run whose processes exit with no page swapped out, there are as many
    slots in use as pages swapped out, and `swap_entry_insert` fails only when these
    occupy the whole disk. -/
theorem slots_reclaimed {pages slots : Nat} (reached : Reaches (machine pages slots) ExitsClean s) :
    (usedSlots s).card = swappedPages s ∧
    (swap_find_empty_sector s = none → swappedPages s = s.swap_disk_size) := by
  obtain ⟨tables,tally⟩ := reaches_tally reached
  have counted := usedSlots_card tables tally
  refine ⟨counted,?_⟩
  intro full
  have all : usedSlots s = Finset.range s.swap_disk_size := by
    refine Finset.filter_true_of_mem ?_
    intro i inside
    simpa using List.find?_eq_none.mp full i (List.mem_range.mpr (Finset.mem_range.mp inside))
  rw [← counted,all,Finset.card_range]

/-- One frame: the second page of a process evicts the first. -/
def evictsOnce : List Event :=
  [.start,.install 0 5 true (fun _ => 1) true true,.install 0 6 true (fun _ => 2) true true]

theorem slots_reclaimed_one_evicted : ∃ s,
    guardedRun (fun s e => (step s e).toOption) ExitsClean (boot 1 2) evictsOnce = some s ∧
    swappedPages s = 1 ∧ (usedSlots s).card = 1 := by
  refine ⟨_,rfl,by decide,?_⟩
  rw [(slots_reclaimed (guardedRun_reachable (boot 1 2) (fun s e => (step s e).toOption) ExitsClean evictsOnce rfl)).1]
  decide

/-- Its exit leaves the slot in use, though no process is left. With a disk of one
    slot, the next eviction fails. -/
theorem slot_outlives_process : ∃ s s',
    run (fun s e => (step s e).toOption) (boot 1 1) (evictsOnce ++ [.thread_exit 0]) = some s ∧
    Reaches (machine 1 1) Anything s ∧ (usedSlots s).card = 1 ∧ swappedPages s = 0 ∧
    run (fun s e => (step s e).toOption) s [.start,.install 1 5 true (fun _ => 1) true true] = some s' ∧
    swappedPages s' = 0 ∧ step s' (.install 1 6 true (fun _ => 2) true true) = .error .swap_full :=
  ⟨_,_,rfl,run_reachable (boot 1 1) (fun s e => (step s e).toOption)
    (evictsOnce ++ [.thread_exit 0]) rfl,by decide,by decide,rfl,by decide,rfl⟩

end Pintos.Reclaim
