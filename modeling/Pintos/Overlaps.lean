import Pintos.Residency
import Pintos.PageFault

/-!
Installing a page that the process already has. `install_page` asks the page
directory only, whose present bit an eviction clears, so that it refuses a resident
page and puts a second one over a page that is swapped out: `page_entry_insert`
keeps the old entry, and the new frame is entered in `frametable`.

`load_segment` and `setup_stack` take a frame before they call `install_page`. When
the user pool is full, this evicts the front of `frametable`, and the page may be
the one that is evicted.
-/
namespace Pintos.Overlaps
open Pintos.Machines Pintos.Vm Pintos.Frames Pintos.PageFault Pintos.Residency
set_option linter.unusedSimpArgs false
variable {s s' : Vm} {t : Tid} {u k : Nat} {pd : Pagedir} {p : PageEntry}

/-- `install_page` returns false for the page and changes nothing. -/
def Refused (s : Vm) (t : Tid) (u : Nat) : Prop :=
  ∀ kpage writable alloc, install_page s t u kpage writable alloc = .ok (s,false)

/-- The page is at the front of `frametable`. -/
def Victim (s : Vm) (t : Tid) (u : Nat) : Prop := ∃ f ∈ s.frametable.head?, f.owner_pid = t ∧ f.upage = u

/-- The page is resident, and it is not the page to make room for a new one. -/
def Stays (s : Vm) (t : Tid) (u : Nat) : Prop := Resident s t u ∧ (findFree s = none → ¬ Victim s t u)

/-- A page that is owned and not resident is installed over. -/
theorem installed_over (tables : Tables s) (directory : s.pagedir t = some pd) (owned : page_entry_lookup s u t = some p)
    (gone : ¬ Resident s t u) (kpage : Nat) (writable alloc : Bool) :
    install_page s t u kpage writable alloc = .ok (withPage s t pd u kpage writable,true) := by
  have table : pd_no u ∈ pd.tables := tables.tabled t pd u p directory owned
  have looked : lookup_page pd u true alloc = some pd := by rw [lookup_page,if_pos table]
  have missing : ¬ (pagedir_get_page s t u).isSome := fun found => gone ((get_page_iff tables).mp found)
  have absent : ¬ pd.Present u := by
    intro present
    exact missing (by simp [pagedir_get_page,directory,present])
  rw [install_page,if_neg missing]
  exact pagedir_set_page_total directory absent looked

theorem refused_iff (tables : Tables s) (directory : s.pagedir t = some pd) (owned : page_entry_lookup s u t = some p) :
    Refused s t u ↔ Resident s t u := by
  constructor
  · intro refused
    by_contra gone
    have installed := installed_over tables directory owned gone 0 true true
    rw [refused 0 true true] at installed
    simp at installed
  · intro resident kpage writable alloc
    rw [install_page,if_pos ((get_page_iff tables).mpr resident)]

/-- Taking a frame evicts the page or leaves it where it is. -/
theorem resident_palloc (tables : Tables s) (taken : palloc_get_page s = .ok (k,s')) : Resident s' t u ↔ Stays s t u := by
  cases free : findFree s with
  | some frame =>
    have same : s'.frametable = s.frametable := by
      rw [palloc_get_page,free] at taken
      cases taken
      rfl
    simp only [Stays,Resident,same,free,reduceCtorEq,false_imp_iff,and_true]
  | none =>
    rw [palloc_get_page,free] at taken
    obtain ⟨f,rest,evicted⟩ := evicted_of_ok taken
    have once := tables.once
    rw [evicted.queue,List.map_cons,List.nodup_cons] at once
    have victim : Victim s t u ↔ f.owner_pid = t ∧ f.upage = u := by simp [Victim,evicted.queue]
    simp only [Stays,Resident,free,forall_const,victim,evicted.left]
    constructor
    · rintro ⟨g,member,rfl,rfl⟩
      refine ⟨⟨g,evicted.queue ▸ List.mem_cons_of_mem f member,rfl,rfl⟩,?_⟩
      rintro ⟨owner,page⟩
      exact once.1 (List.mem_map.mpr ⟨g,member,by rw [owner,page]⟩)
    · rintro ⟨⟨g,member,rfl,rfl⟩,other⟩
      rw [evicted.queue] at member
      rcases List.mem_cons.mp member with rfl | later
      · exact absurd ⟨rfl,rfl⟩ other
      · exact ⟨g,later,rfl,rfl⟩

/-- The process keeps its page, swapped out or not. -/
theorem owned_palloc (taken : palloc_get_page s = .ok (k,s')) (owned : page_entry_lookup s u t = some p) :
    ∃ p', page_entry_lookup s' u t = some p' := by
  rw [palloc_get_page] at taken
  split at taken
  · cases taken
    exact ⟨p,owned⟩
  · obtain ⟨f,rest,evicted⟩ := evicted_of_ok taken
    obtain ⟨q,entry,-,-⟩ := evicted.entry
    rw [evicted.entries]
    split
    · rw [entry]
      exact ⟨_,rfl⟩
    · exact ⟨p,owned⟩

/-- In every state of every run, for a page that a live process has: `install_page`
    refuses it exactly when it is resident, it is refused to `load` exactly when it
    is also not the page that makes room for the new one, and it has one frame at most. -/
theorem not_installed_over_iff {pages slots : Nat} (reached : Reaches (machine pages slots) Anything s)
    (directory : s.pagedir t = some pd) (owned : page_entry_lookup s u t = some p) :
    (Refused s t u ↔ Resident s t u) ∧
    (∀ k s', palloc_get_page s = .ok (k,s') → ((∀ bytes, Refused (s'.setMem k bytes) t u) ↔ Stays s t u)) ∧
    s.frametable.countP (fun f => f.owner_pid = t ∧ f.upage = u) ≤ 1 := by
  have tables := reaches_tables reached
  refine ⟨refused_iff tables directory owned,?_,?_⟩
  · intro k s' taken
    have after := tables_palloc tables taken
    obtain ⟨pd',directory',-⟩ := palloc_pagedir taken directory
    obtain ⟨p',owned'⟩ := owned_palloc taken owned
    rw [← resident_palloc tables taken]
    have each (bytes : Page) : Refused (s'.setMem k bytes) t u ↔ Resident s' t u :=
      refused_iff (tables_free after (free_setMem k bytes)) directory' owned'
    exact ⟨fun refused => (each _).mp (refused fun _ => 0),fun resident bytes => (each bytes).mpr resident⟩
  · have once := tables.once
    have count := List.nodup_iff_count_le_one.mp once (t,u)
    rw [List.count,List.countP_map] at count
    refine Nat.le_trans (Nat.le_of_eq (List.countP_congr ?_)) count
    intro f _
    simp

/-- One frame: the second page of a process evicts the first. -/
def firstEvicted : List Event :=
  [.start,.install 0 5 true (fun _ => 1) true true,.install 0 6 true (fun _ => 2) true true]

theorem resident_page_refused : ∃ s, run (fun s e => (step s e).toOption) (boot 1 4) firstEvicted = some s ∧
    Refused s 0 6 := by
  refine ⟨_,rfl,?_⟩
  have reached := run_reachable (boot 1 4) (fun s e => (step s e).toOption) firstEvicted rfl
  exact (not_installed_over_iff (p := { upage := 6, kpage := 0, writable := true, is_swapped := false }) reached rfl
    rfl).1.mpr (by decide)

/-- The page that was evicted is installed over, and so is by `load` the page that
    the call evicts to do so. -/
theorem evicted_page_installed_over : ∃ s, Reaches (machine 1 4) Anything s ∧
    (page_entry_lookup s 5 0).map PageEntry.is_swapped = some true ∧
    (∃ s', install_page s 0 5 0 true true = .ok (s',true)) ∧ Resident s 0 6 ∧
    ∃ s', step s (.install 0 6 true (fun _ => 3) true true) = .ok s' ∧
      (page_entry_lookup s' 6 0).map PageEntry.is_swapped = some true ∧ Resident s' 0 6 := by
  refine ⟨_,run_reachable (boot 1 4) (fun s e => (step s e).toOption) firstEvicted rfl,by decide,⟨_,rfl⟩,by decide,_,rfl,?_,?_⟩
  · decide
  · decide

end Pintos.Overlaps
