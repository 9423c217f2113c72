import Pintos.Frames

/-!
Which pages are resident, in every run: a page that is mapped has one entry in
`frametable`, and a page whose entry says it is not swapped out is mapped. A page
may here be installed a second time while it is swapped out; it then has a frame
and an entry that says it is swapped.

`Moves` says once what a step can do to the tables; what they keep is proved from
it. `is_valid_addr` looks into the page directory, so that it tells a resident page
from one that is swapped out.
-/
namespace Pintos.Residency
open Pintos.Machines Pintos.Vm Pintos.Frames
set_option linter.unusedSimpArgs false
variable {s s' : Vm} {t w : Tid} {u v k : Nat} {pd pd' : Pagedir} {p : PageEntry} {f g : FrameEntry}
  {rest : List FrameEntry} {e : Event}

/-! ### What a step can do -/

/-- Only memory, the user pool and flags of no table differ. -/
structure Free (s s' : Vm) : Prop where
  frametable : s'.frametable = s.frametable
  pagetable : s'.pagetable = s.pagetable
  pagedir : s'.pagedir = s.pagedir
  next_tid : s'.next_tid = s.next_tid
  swap_table : s'.swap_table = s.swap_table
  empty_block_sector : s'.empty_block_sector = s.empty_block_sector
  swap_disk_size : s'.swap_disk_size = s.swap_disk_size
  swap_lock : s'.swap_lock = s.swap_lock

inductive Moves (s : Vm) : Event → Vm → Prop
  | stays {e : Event} {s' : Vm} (free : Free s s') : Moves s e s'
  | start : Moves s .start { s.setPagedir s.next_tid (some pagedir_create) with next_tid := s.next_tid + 1 }
  /-- `load_page` gives its frame back. -/
  | refuse {t : Tid} {upage : Nat} {writable loaded alloc : Bool} {bytes : Page} {k : Nat} {s1 s' : Vm}
      (taken : palloc_get_page s = .ok (k,s1)) (free : Free s1 s') :
      Moves s (.install t upage writable bytes loaded alloc) s'
  | install {t : Tid} {upage : Nat} {writable loaded alloc : Bool} {bytes : Page} {k : Nat} {s1 : Vm} {pd pd' : Pagedir}
      (taken : palloc_get_page s = .ok (k,s1)) (directory : s1.pagedir t = some pd) (unmapped : ¬ pd.Present upage)
      (table : lookup_page pd upage true alloc = some pd') (absent : (pd'.pte upage).present = false) :
      Moves s (.install t upage writable bytes loaded alloc) (withPage (s1.setMem k bytes) t pd' upage k writable)
  | swapIn {t : Tid} {fault_addr : Nat} {alloc : Bool} {p : PageEntry} {pd : Pagedir} {s1 : Vm}
      (directory : s.pagedir t = some pd) (found : page_entry_lookup s p.upage t = some p) (swapped : p.is_swapped = true)
      (moved : swapIn { s with exception_lock := true } t p alloc = .ok s1) :
      Moves s (.page_fault t fault_addr alloc) { s1 with exception_lock := false }
  | exit {t : Tid} {s' : Vm} (live : Live s t) (gone : thread_exit s t = .ok s') : Moves s (.thread_exit t) s'
  /-- A fault at an address of the kernel. -/
  | kill {t : Tid} {fault_addr : Nat} {alloc : Bool} {s' : Vm} (live : Live s t) (kernel : PHYS_BASE ≤ fault_addr)
      (unlocked : s.filesys_lock = false) (gone : syscall_exit s t (-1) = .ok s') :
      Moves s (.page_fault t fault_addr alloc) s'

theorem free_refl : Free s s := ⟨rfl,rfl,rfl,rfl,rfl,rfl,rfl,rfl⟩

theorem free_trans {s'' : Vm} (first : Free s s') (second : Free s' s'') : Free s s'' where
  frametable := second.frametable.trans first.frametable
  pagetable := second.pagetable.trans first.pagetable
  pagedir := second.pagedir.trans first.pagedir
  next_tid := second.next_tid.trans first.next_tid
  swap_table := second.swap_table.trans first.swap_table
  empty_block_sector := second.empty_block_sector.trans first.empty_block_sector
  swap_disk_size := second.swap_disk_size.trans first.swap_disk_size
  swap_lock := second.swap_lock.trans first.swap_lock

theorem free_status (t : Tid) (status : Int) :
    Free s { s with exit_status := fun u => if u = t then status else s.exit_status u } :=
  ⟨rfl,rfl,rfl,rfl,rfl,rfl,rfl,rfl⟩

theorem free_setMem (k : Nat) (bytes : Page) : Free s (s.setMem k bytes) := ⟨rfl,rfl,rfl,rfl,rfl,rfl,rfl,rfl⟩

theorem free_page (ran : palloc_free_page s k = .ok s') : Free s s' := by
  unfold palloc_free_page at ran
  split at ran
  · cases ran
    exact ⟨rfl,rfl,rfl,rfl,rfl,rfl,rfl,rfl⟩
  · cases ran

theorem moves_load {writable loaded alloc : Bool} {bytes : Page} (ran : load_page s t u writable bytes loaded alloc = .ok s') :
    Moves s (.install t u writable bytes loaded alloc) s' := by
  unfold load_page at ran
  split at ran
  · cases ran
  · next k s1 taken =>
    split at ran
    · split at ran
      · cases ran
      · next s2 installed =>
        cases ran
        unfold install_page at installed
        split at installed
        · cases installed
        · next unmapped =>
          obtain ⟨pd,directory,⟨no,_⟩ | ⟨pd',_,table,absent,rfl⟩⟩ := pagedir_set_page_ok installed
          · cases no
          · refine .install taken directory ?_ table absent
            intro present
            refine unmapped ?_
            simp only [pagedir_get_page,directory,if_pos present,Option.isSome_some]
      · next s2 installed =>
        have free : Free s1 s2 := by
          unfold install_page at installed
          split at installed
          · cases installed
            exact ⟨rfl,rfl,rfl,rfl,rfl,rfl,rfl,rfl⟩
          · obtain ⟨pd,directory,⟨_,rfl,_⟩ | ⟨pd',no,_⟩⟩ := pagedir_set_page_ok installed
            · exact ⟨rfl,rfl,rfl,rfl,rfl,rfl,rfl,rfl⟩
            · cases no
        exact .refuse taken (free_trans free (free_page ran))
    · exact .refuse taken (free_page ran)

theorem moves_fault {fault_addr : Nat} {alloc : Bool} {out : Outcome} (live : Live s t)
    (ran : page_fault s t fault_addr alloc = .ok out) :
    (∀ s', out = .returned s' → Moves s (.page_fault t fault_addr alloc) s') ∧
    ∀ s', out = .exited s' → Moves s (.page_fault t fault_addr alloc) s' := by
  obtain ⟨pd,directory⟩ := Option.isSome_iff_exists.mp live
  have locks : ∀ b, Moves s (.page_fault t fault_addr alloc) { s with exception_lock := b } := fun _ =>
    .stays ⟨rfl,rfl,rfl,rfl,rfl,rfl,rfl,rfl⟩
  unfold page_fault at ran
  split at ran
  · cases ran
    exact ⟨fun _ same => by cases same; exact .stays free_refl,fun _ same => by cases same⟩
  · next kernel =>
    split at ran
    · split at ran
      · cases ran
      · dsimp only at ran
        split at ran
        · cases ran
          exact ⟨fun _ same => by cases same; exact locks false,fun _ same => by cases same⟩
        · split at ran
          · cases ran
          · next p found =>
            split at ran
            · next swapped =>
              split at ran
              · cases ran
              · next s1 moved =>
                cases ran
                refine ⟨fun _ same => ?_,fun _ same => by cases same⟩
                cases same
                have known : page_entry_lookup s p.upage t = some p := by
                  rw [lookup_upage found]
                  exact found
                exact .swapIn directory known swapped moved
            · cases ran
              exact ⟨fun _ same => by cases same; exact locks false,fun _ same => by cases same⟩
    · next user =>
      split at ran
      · cases ran
      · next s1 gone =>
        cases ran
        refine ⟨fun _ same => by (cases same),fun _ same => ?_⟩
        cases same
        have above : PHYS_BASE ≤ fault_addr := Nat.le_of_not_lt user
        refine .kill live above ?_ gone
        by_contra held
        exact kernel ⟨by simpa using held,above⟩

theorem moves_of_step (ran : step s e = .ok s') : Moves s e s' := by
  cases e with
  | start =>
    cases ran
    exact .start
  | install t upage writable bytes loaded alloc =>
    simp only [step] at ran
    split at ran
    · exact moves_load ran
    · cases ran
  | write t upage bytes =>
    simp only [step,write] at ran
    split at ran
    · cases ran
    · split at ran
      · cases ran
        exact .stays ⟨rfl,rfl,rfl,rfl,rfl,rfl,rfl,rfl⟩
      · cases ran
  | page_fault t fault_addr alloc =>
    simp only [step] at ran
    split at ran
    · next live =>
      split at ran
      · cases ran
      · next s1 returned =>
        cases ran
        exact (moves_fault live returned).1 s' rfl
      · next s1 exited =>
        cases ran
        exact (moves_fault live exited).2 s' rfl
    · cases ran
  | thread_exit t =>
    simp only [step] at ran
    split at ran
    · next live => exact .exit live ran
    · cases ran
  | filesys held =>
    cases ran
    exact .stays ⟨rfl,rfl,rfl,rfl,rfl,rfl,rfl,rfl⟩

/-! ### The tables -/

structure Tables (s : Vm) : Prop where
  framed : ∀ f ∈ s.frametable, ∃ pd p, s.pagedir f.owner_pid = some pd ∧ pd.Present f.upage ∧
    page_entry_lookup s f.upage f.owner_pid = some p ∧ (p.is_swapped = false → p.kpage = f.kpage)
  once : (s.frametable.map (fun f => (f.owner_pid,f.upage))).Nodup
  mapped : ∀ t pd u, s.pagedir t = some pd → pd.Present u → ∃ f ∈ s.frametable, f.owner_pid = t ∧ f.upage = u
  resident : ∀ t pd u p, s.pagedir t = some pd → page_entry_lookup s u t = some p → p.is_swapped = false → pd.Present u
  tabled : ∀ t pd u p, s.pagedir t = some pd → page_entry_lookup s u t = some p → pd_no u ∈ pd.tables
  present : ∀ t pd u, s.pagedir t = some pd → (pd.pte u).present = true → pd_no u ∈ pd.tables
  fresh : ∀ t, s.next_tid ≤ t → s.pagedir t = none ∧ s.pagetable t = []

theorem tables_free (tables : Tables s) (free : Free s s') : Tables s' := by
  have lookup : ∀ v w, page_entry_lookup s' v w = page_entry_lookup s v w := by
    intro v w
    simp only [page_entry_lookup,free.pagetable]
  refine ⟨?_,?_,?_,?_,?_,?_,?_⟩
  · simpa only [free.frametable,free.pagedir,lookup] using tables.framed
  · simpa only [free.frametable] using tables.once
  · simpa only [free.frametable,free.pagedir] using tables.mapped
  · simpa only [free.pagedir,lookup] using tables.resident
  · simpa only [free.pagedir,lookup] using tables.tabled
  · simpa only [free.pagedir] using tables.present
  · simpa only [free.next_tid,free.pagedir,free.pagetable] using tables.fresh

/-- The victim leaves the page directory, the frames and the resident pages at once. -/
theorem tables_evicted (tables : Tables s) (evicted : Evicted s s' f rest k) : Tables s' := by
  have once := tables.once
  rw [evicted.queue,List.map_cons,List.nodup_cons] at once
  have others : ∀ g ∈ rest, g ∈ s.frametable ∧ ¬ (g.owner_pid = f.owner_pid ∧ g.upage = f.upage) := by
    intro g member
    refine ⟨by rw [evicted.queue]; exact List.mem_cons_of_mem f member,?_⟩
    rintro ⟨owner,page⟩
    exact once.1 (List.mem_map.mpr ⟨g,member,by rw [owner,page]⟩)
  refine ⟨?_,?_,?_,?_,?_,?_,?_⟩
  · intro g member
    rw [evicted.left] at member
    obtain ⟨before,other⟩ := others g member
    obtain ⟨pd,p,directory,present,found,kpage⟩ := tables.framed g before
    rw [evicted.pagedir,evicted.entries,if_neg other,directory]
    split
    · next owner =>
      refine ⟨_,p,rfl,clear_present.mpr ⟨present,?_⟩,found,kpage⟩
      exact fun same => other ⟨owner,same.1⟩
    · exact ⟨pd,p,rfl,present,found,kpage⟩
  · rw [evicted.left]
    exact once.2
  · intro t pd' u directory present
    obtain ⟨pd,before,rfl⟩ := evicted_pagedir evicted directory
    have presentBefore : pd.Present u ∧ ¬ (t = f.owner_pid ∧ u = f.upage) := by
      split at present
      · next owner =>
        obtain ⟨here,other⟩ := clear_present.mp present
        refine ⟨here,?_⟩
        rintro ⟨-,rfl⟩
        exact other ⟨rfl,here⟩
      · next owner => exact ⟨present,fun both => owner both.1⟩
    obtain ⟨g,member,owner,page⟩ := tables.mapped t pd u before presentBefore.1
    rw [evicted.queue] at member
    rcases List.mem_cons.mp member with rfl | later
    · exact absurd ⟨owner.symm,page.symm⟩ presentBefore.2
    · exact ⟨g,by rw [evicted.left]; exact later,owner,page⟩
  · intro t pd' u p directory found still
    obtain ⟨pd,before,rfl⟩ := evicted_pagedir evicted directory
    rw [evicted.entries] at found
    split at found
    · -- The victim's entry says swapped now.
      obtain ⟨q,known,resident,_⟩ := evicted.entry
      rw [known] at found
      cases found
      simp [resident] at still
    · next other =>
      have present := tables.resident t pd u p before found still
      split
      · next owner => exact clear_present.mpr ⟨present,fun same => other ⟨owner,same.1⟩⟩
      · exact present
  · intro t pd' u p directory found
    obtain ⟨pd,before,rfl⟩ := evicted_pagedir evicted directory
    have known : ∃ q, page_entry_lookup s u t = some q := by
      rw [evicted.entries] at found
      split at found
      · next same =>
        obtain ⟨q,known,_⟩ := Option.map_eq_some_iff.mp found
        exact ⟨q,by rw [same.1,same.2,known]⟩
      · exact ⟨p,found⟩
    obtain ⟨q,known⟩ := known
    have table := tables.tabled t pd u q before known
    split
    · rw [clear_tables]
      exact table
    · exact table
  · intro t pd' u directory set
    obtain ⟨pd,before,rfl⟩ := evicted_pagedir evicted directory
    split at set
    · next owner =>
      rw [if_pos owner,clear_tables]
      exact tables.present t pd u before (clear_pte_present set)
    · next owner =>
      rw [if_neg owner]
      exact tables.present t pd u before set
  · intro t later
    rw [evicted.next_tid] at later
    obtain ⟨dead,empty⟩ := tables.fresh t later
    refine ⟨?_,evicted.empty t empty⟩
    rw [evicted.pagedir,dead]
    split <;> rfl

theorem tables_palloc (tables : Tables s) (ran : palloc_get_page s = .ok (k,s')) : Tables s' := by
  unfold palloc_get_page at ran
  split at ran
  · cases ran
    exact tables_free tables ⟨rfl,rfl,rfl,rfl,rfl,rfl,rfl,rfl⟩
  · obtain ⟨f,rest,evicted⟩ := evicted_of_ok ran
    exact tables_evicted tables evicted

/-- `pagedir_set_page` maps `u` to the frame `k`, with the entry that it leaves. -/
structure Remapped (s s' : Vm) (t : Tid) (pd : Pagedir) (u k : Nat) : Prop where
  frametable : s'.frametable = s.frametable ++ [{ upage := u, kpage := k, owner_pid := t }]
  pagedir : ∃ writable, ∀ w, s'.pagedir w = if w = t then
      some (pd.setPte u { present := true, writable := writable, kpage := k }) else s.pagedir w
  entries : ∃ p : PageEntry, (p.is_swapped = false → p.kpage = k) ∧ ∀ v w, page_entry_lookup s' v w =
      if w = t ∧ v = u then some p else page_entry_lookup s v w
  others : ∀ w, w ≠ t → s'.pagetable w = s.pagetable w
  next_tid : s'.next_tid = s.next_tid

/-- A page directory before and after `u` of `t` is mapped. -/
structure Grown (t w : Tid) (u : Nat) (pd pd' : Pagedir) : Prop where
  present : ∀ v, pd'.Present v ↔ pd.Present v ∨ (w = t ∧ v = u)
  tables : ∀ n ∈ pd.tables, n ∈ pd'.tables
  table : w = t → pd_no u ∈ pd'.tables
  set : ∀ v, (pd'.pte v).present = true → (pd.pte v).present = true ∨ (w = t ∧ v = u)

theorem grown_setPte {alloc writable : Bool} (tables : Tables s) (directory : s.pagedir t = some pd)
    (table : lookup_page pd u true alloc = some pd') :
    Grown t t u pd (pd'.setPte u { present := true, writable := writable, kpage := k }) := by
  obtain ⟨tabled,more,_,ptes,fewer⟩ := lookup_page_some table
  refine ⟨?_,more,fun _ => tabled,?_⟩
  · intro v
    rw [setPte_present rfl tabled]
    constructor
    · rintro (rfl | ⟨_,set⟩)
      · exact .inr ⟨rfl,rfl⟩
      · exact .inl ⟨tables.present t pd v directory (fewer v set),fewer v set⟩
    · rintro (⟨inside,set⟩ | ⟨-,rfl⟩)
      · exact .inr ⟨more _ inside,by rw [ptes v inside]; exact set⟩
      · exact .inl rfl
  · intro v set
    by_cases same : v = u
    · exact .inr ⟨rfl,same⟩
    · simp only [Pagedir.setPte,same,↓reduceIte] at set
      exact .inl (fewer v set)

theorem grown_other (other : w ≠ t) : Grown t w u pd pd :=
  ⟨fun v => by simp [other],fun _ member => member,fun same => absurd same other,fun _ set => .inl set⟩

theorem tables_remapped {alloc : Bool} (tables : Tables s) (directory : s.pagedir t = some pd)
    (table : lookup_page pd u true alloc = some pd') (absent : ¬ pd.Present u) (remapped : Remapped s s' t pd' u k) :
    Tables s' := by
  obtain ⟨writable,pagedir⟩ := remapped.pagedir
  obtain ⟨p,kpage,entries⟩ := remapped.entries
  have backward : ∀ w pd1, s'.pagedir w = some pd1 → ∃ pd0, s.pagedir w = some pd0 ∧ Grown t w u pd0 pd1 := by
    intro w pd1 after
    rw [pagedir] at after
    by_cases owner : w = t
    · subst owner
      rw [if_pos rfl] at after
      exact ⟨pd,directory,Option.some.inj after ▸ grown_setPte tables directory table⟩
    · rw [if_neg owner] at after
      exact ⟨pd1,after,grown_other owner⟩
  have forward : ∀ w pd0, s.pagedir w = some pd0 → ∃ pd1, s'.pagedir w = some pd1 ∧ Grown t w u pd0 pd1 := by
    intro w pd0 before
    rw [pagedir]
    by_cases owner : w = t
    · subst owner
      rw [directory] at before
      cases before
      exact ⟨_,if_pos rfl,grown_setPte tables directory table⟩
    · exact ⟨pd0,by rw [if_neg owner,before],grown_other owner⟩
  -- No frame of the table is of the page that is being mapped.
  have apart : ∀ f ∈ s.frametable, ¬ (f.owner_pid = t ∧ f.upage = u) := by
    rintro f member ⟨rfl,rfl⟩
    obtain ⟨pd0,_,directoryToo,present,_⟩ := tables.framed f member
    rw [directory] at directoryToo
    cases directoryToo
    exact absent present
  refine ⟨?_,?_,?_,?_,?_,?_,?_⟩
  · intro f member
    rw [remapped.frametable] at member
    rcases List.mem_append.mp member with before | added
    · obtain ⟨pd0,q,directory0,present,found,same⟩ := tables.framed f before
      obtain ⟨pd1,directory1,grown⟩ := forward _ pd0 directory0
      refine ⟨pd1,q,directory1,(grown.present _).mpr (.inl present),?_,same⟩
      rw [entries,if_neg (apart f before)]
      exact found
    · rw [List.mem_singleton.mp added]
      obtain ⟨pd1,directory1,grown⟩ := forward t pd directory
      refine ⟨pd1,p,directory1,(grown.present u).mpr (.inr ⟨rfl,rfl⟩),?_,kpage⟩
      rw [entries,if_pos ⟨rfl,rfl⟩]
  · rw [remapped.frametable,List.map_append]
    refine List.Nodup.append tables.once (List.nodup_singleton _) (List.disjoint_singleton.mpr ?_)
    intro member
    obtain ⟨f,inside,same⟩ := List.mem_map.mp member
    exact apart f inside ⟨(Prod.mk.inj same).1,(Prod.mk.inj same).2⟩
  · intro w pd1 v directory1 present
    obtain ⟨pd0,directory0,grown⟩ := backward w pd1 directory1
    rw [remapped.frametable]
    rcases (grown.present v).mp present with before | ⟨rfl,rfl⟩
    · obtain ⟨f,member,same⟩ := tables.mapped w pd0 v directory0 before
      exact ⟨f,List.mem_append_left _ member,same⟩
    · exact ⟨_,List.mem_append_right _ (List.mem_singleton_self _),rfl,rfl⟩
  · intro w pd1 v q directory1 found still
    obtain ⟨pd0,directory0,grown⟩ := backward w pd1 directory1
    rw [grown.present]
    rw [entries] at found
    split at found
    · next same => exact .inr same
    · exact .inl (tables.resident w pd0 v q directory0 found still)
  · intro w pd1 v q directory1 found
    obtain ⟨pd0,directory0,grown⟩ := backward w pd1 directory1
    rw [entries] at found
    split at found
    · next same =>
      rw [same.2]
      exact grown.table same.1
    · exact grown.tables _ (tables.tabled w pd0 v q directory0 found)
  · intro w pd1 v directory1 set
    obtain ⟨pd0,directory0,grown⟩ := backward w pd1 directory1
    rcases grown.set v set with before | ⟨owner,rfl⟩
    · exact grown.tables _ (tables.present w pd0 v directory0 before)
    · exact grown.table owner
  · intro w later
    rw [remapped.next_tid] at later
    obtain ⟨none,empty⟩ := tables.fresh w later
    have other : w ≠ t := by
      rintro rfl
      rw [directory] at none
      cases none
    rw [pagedir,if_neg other,remapped.others w other]
    exact ⟨none,empty⟩

/-- A mapping of a page that was never installed, or that is being swapped in. -/
theorem remapped_of_mapped (mapped : Mapped s s' t pd u k) : Remapped s s' t pd u k := by
  obtain ⟨p,_,kpage,entries⟩ := mapped.entries
  exact ⟨mapped.frametable,mapped.pagedir,⟨p,fun _ => kpage,entries⟩,mapped.others,mapped.next_tid⟩

/-- A second installation of a page that is swapped out leaves its entry as it is. -/
theorem remapped_known {writable : Bool} (known : page_entry_lookup s u t = some p) (swapped : p.is_swapped = true) :
    Remapped s (withPage s t pd u k writable) t pd u k := by
  rw [withPage_known known]
  refine ⟨rfl,⟨writable,fun _ => rfl⟩,⟨p,by simp [swapped],?_⟩,fun _ _ => rfl,rfl⟩
  intro v w
  show page_entry_lookup s v w = _
  split
  · next same => rw [same.1,same.2,known]
  · rfl

theorem tables_install {alloc writable : Bool} {bytes : Page} (tables : Tables s) (directory : s.pagedir t = some pd)
    (absent : ¬ pd.Present u) (table : lookup_page pd u true alloc = some pd') :
    Tables (withPage (s.setMem k bytes) t pd' u k writable) := by
  have filled := tables_free tables (free_setMem k bytes)
  have remapped : Remapped (s.setMem k bytes) (withPage (s.setMem k bytes) t pd' u k writable) t pd' u k := by
    cases known : page_entry_lookup s u t with
    | none => exact remapped_of_mapped (mapped_new known)
    | some p =>
      refine remapped_known (p := p) known ?_
      by_contra resident
      exact absent (tables.resident t pd u p directory known (by simpa using resident))
  exact tables_remapped filled directory table absent remapped

theorem tables_swapIn {alloc : Bool} (tables : Tables s) (directory : s.pagedir t = some pd)
    (known : page_entry_lookup s p.upage t = some p) (swapped : p.is_swapped = true)
    (ran : swapIn s t p alloc = .ok s') : Tables s' := by
  obtain ⟨k,s1,s2,pd1,taken,moved,here,table,absent,knownToo,rfl⟩ :=
    swapIn_spec directory (tables.tabled t pd p.upage p directory known) known swapped ran
  have lookup : lookup_page pd1 p.upage true true = some pd1 := by simp [lookup_page,table]
  refine tables_remapped (tables_palloc tables taken) here lookup ?_
    (remapped_of_mapped (mapped_known pd1 k (swap_disk_to_frame_tables moved) knownToo swapped rfl))
  intro present
  rw [present.2] at absent
  cases absent

/-- What `thread_exit` leaves of the tables. -/
structure Exited (s s' : Vm) (t : Tid) : Prop where
  frametable : s'.frametable = s.frametable.filter (fun f => f.owner_pid ≠ t)
  pagetable : s'.pagetable = s.pagetable
  pagedir : ∀ w, s'.pagedir w = if w = t then none else s.pagedir w
  next_tid : s'.next_tid = s.next_tid
  swap_table : s'.swap_table = s.swap_table
  empty_block_sector : s'.empty_block_sector = s.empty_block_sector
  swap_disk_size : s'.swap_disk_size = s.swap_disk_size
  swap_lock : s'.swap_lock = s.swap_lock

theorem free_all (kpages : List Nat) : ∀ s : Vm, freeAll s kpages = .ok s' → Free s s' := by
  induction kpages with
  | nil =>
    intro s ran
    cases ran
    exact free_refl
  | cons first others ih =>
    intro s ran
    rw [freeAll] at ran
    split at ran
    · cases ran
    · next s1 freed => exact free_trans (free_page freed) (ih s1 ran)

theorem exited_of_ok (ran : thread_exit s t = .ok s') : Exited s s' t := by
  unfold thread_exit at ran
  split at ran
  · next dead =>
    cases ran
    refine ⟨rfl,rfl,?_,rfl,rfl,rfl,rfl,rfl⟩
    intro w
    show s.pagedir w = _
    split
    · next same => rw [same,dead]
    · rfl
  · have free := free_all _ _ ran
    exact ⟨free.frametable,free.pagetable,fun w => by rw [free.pagedir]; rfl,free.next_tid,free.swap_table,
      free.empty_block_sector,free.swap_disk_size,free.swap_lock⟩

theorem tables_exited (tables : Tables s) (exited : Exited s s' t) : Tables s' := by
  have lookup : ∀ v w, page_entry_lookup s' v w = page_entry_lookup s v w := by
    intro v w
    simp only [page_entry_lookup,exited.pagetable]
  have live : ∀ w pd, s'.pagedir w = some pd → w ≠ t ∧ s.pagedir w = some pd := by
    intro w pd directory
    rw [exited.pagedir] at directory
    split at directory
    · cases directory
    · next other => exact ⟨other,directory⟩
  have frames : ∀ f, f ∈ s'.frametable ↔ f ∈ s.frametable ∧ f.owner_pid ≠ t := by
    intro f
    simp [exited.frametable]
  refine ⟨?_,?_,?_,?_,?_,?_,?_⟩
  · intro f member
    obtain ⟨before,other⟩ := (frames f).mp member
    obtain ⟨pd,p,directory,found⟩ := tables.framed f before
    exact ⟨pd,p,by rw [exited.pagedir,if_neg other,directory],by rw [lookup]; exact found⟩
  · rw [exited.frametable]
    exact tables.once.sublist (List.Sublist.map _ List.filter_sublist)
  · intro w pd u directory present
    obtain ⟨other,before⟩ := live w pd directory
    obtain ⟨f,member,owner,page⟩ := tables.mapped w pd u before present
    exact ⟨f,(frames f).mpr ⟨member,by rwa [owner]⟩,owner,page⟩
  · intro w pd u p directory found still
    rw [lookup] at found
    exact tables.resident w pd u p (live w pd directory).2 found still
  · intro w pd u p directory found
    rw [lookup] at found
    exact tables.tabled w pd u p (live w pd directory).2 found
  · intro w pd u directory set
    exact tables.present w pd u (live w pd directory).2 set
  · intro w later
    rw [exited.next_tid] at later
    obtain ⟨dead,empty⟩ := tables.fresh w later
    rw [exited.pagedir,exited.pagetable]
    refine ⟨?_,empty⟩
    split
    · rfl
    · exact dead

theorem tables_start (tables : Tables s) :
    Tables { s.setPagedir s.next_tid (some pagedir_create) with next_tid := s.next_tid + 1 } := by
  obtain ⟨none,empty⟩ := tables.fresh s.next_tid (Nat.le_refl _)
  refine ⟨?_,tables.once,?_,?_,?_,?_,?_⟩
  · intro f member
    obtain ⟨pd,p,directory,found⟩ := tables.framed f member
    have other : f.owner_pid ≠ s.next_tid := by
      intro same
      rw [same,none] at directory
      cases directory
    exact ⟨pd,p,by simpa [Vm.setPagedir,other] using directory,found⟩
  · intro w pd u directory present
    rcases started directory with ⟨_,rfl⟩ | before
    · simp [Pagedir.Present,pagedir_create] at present
    · exact tables.mapped w pd u before present
  · intro w pd u p directory found still
    rcases started directory with ⟨rfl,_⟩ | before
    · simp [page_entry_lookup,Vm.setPagedir,empty] at found
    · exact tables.resident w pd u p before found still
  · intro w pd u p directory found
    rcases started directory with ⟨rfl,_⟩ | before
    · simp [page_entry_lookup,Vm.setPagedir,empty] at found
    · exact tables.tabled w pd u p before found
  · intro w pd u directory set
    rcases started directory with ⟨_,rfl⟩ | before
    · simp [pagedir_create] at set
    · exact tables.present w pd u before set
  · intro w later
    have later : s.next_tid + 1 ≤ w := later
    have other : w ≠ s.next_tid := fun same => by rw [same] at later; exact Nat.not_succ_le_self _ later
    obtain ⟨dead,bare⟩ := tables.fresh w (Nat.le_of_succ_le later)
    exact ⟨by simpa [Vm.setPagedir,other] using dead,bare⟩

theorem tables_moves (tables : Tables s) (moves : Moves s e s') : Tables s' := by
  cases moves with
  | stays free => exact tables_free tables free
  | start => exact tables_start tables
  | refuse taken free => exact tables_free (tables_palloc tables taken) free
  | install taken directory unmapped table absent =>
    exact tables_install (tables_palloc tables taken) directory unmapped table
  | swapIn directory found swapped moved =>
    have locked : Tables { s with exception_lock := true } := tables_free tables ⟨rfl,rfl,rfl,rfl,rfl,rfl,rfl,rfl⟩
    exact tables_free (tables_swapIn locked directory found swapped moved) ⟨rfl,rfl,rfl,rfl,rfl,rfl,rfl,rfl⟩
  | exit live gone => exact tables_exited tables (exited_of_ok gone)
  | kill live kernel unlocked gone =>
    exact tables_exited (tables_free tables (free_status _ (-1))) (exited_of_ok gone)

theorem tables_boot (pages slots : Nat) : Tables (boot pages slots) where
  framed f member := by simp [boot] at member
  once := .nil
  mapped t pd u directory := by simp [boot] at directory
  resident t pd u p directory := by simp [boot] at directory
  tabled t pd u p directory := by simp [boot] at directory
  present t pd u directory := by simp [boot] at directory
  fresh t _ := ⟨rfl,rfl⟩

theorem reaches_tables {pages slots : Nat} {Guard : Vm → Event → Prop} (reached : Reaches (machine pages slots) Guard s) :
    Tables s := by
  refine reaches_invariant Tables ?_ ?_ reached
  · rintro s rfl
    exact tables_boot pages slots
  · intro s e s' tables _ ran
    exact tables_moves tables (moves_of_step (ok_of_toOption ran))

/-! ### The pointer checks of system calls -/

/-- `is_valid_addr`. -/
def is_valid_addr (s : Vm) (t : Tid) (addr : Nat) : Bool :=
  if addr < PHYS_BASE then (pagedir_get_page s t (addr / PGSIZE)).isSome else false

/-- `catch_addr_error`: it returns, or the process exits. -/
def catch_addr_error (s : Vm) (t : Tid) (addr : Nat) : Except Fault Outcome :=
  if is_valid_addr s t addr then .ok (.returned s)
  else match syscall_exit s t (-1) with
    | .error fault => .error fault
    | .ok s => .ok (.exited s)

def Passes (s : Vm) (t : Tid) (addr : Nat) : Prop := ∃ s', catch_addr_error s t addr = .ok (.returned s')

theorem passes_iff {addr : Nat} : Passes s t addr ↔ is_valid_addr s t addr = true := by
  unfold Passes catch_addr_error
  split
  · next valid => simp [valid]
  · next invalid =>
    split
    · simp [invalid]
    · simp [invalid]

/-- The page has a frame. -/
def Resident (s : Vm) (t : Tid) (u : Nat) : Prop := ∃ f ∈ s.frametable, f.owner_pid = t ∧ f.upage = u

instance (s : Vm) (t : Tid) (u : Nat) : Decidable (Resident s t u) :=
  inferInstanceAs (Decidable (∃ f ∈ s.frametable, f.owner_pid = t ∧ f.upage = u))

theorem get_page_iff (tables : Tables s) : (pagedir_get_page s t u).isSome ↔ Resident s t u := by
  unfold pagedir_get_page
  constructor
  · intro found
    split at found
    · cases found
    · next pd directory =>
      split at found
      · next present => exact tables.mapped t pd u directory present
      · cases found
  · rintro ⟨f,member,rfl,rfl⟩
    obtain ⟨pd,_,directory,present,_⟩ := tables.framed f member
    simp only [directory,if_pos present,Option.isSome_some]

/-- In every state of every run, the check is whether the page has a frame. -/
theorem is_valid_addr_iff (addr : Nat) (tables : Tables s) :
    is_valid_addr s t addr = true ↔ addr < PHYS_BASE ∧ Resident s t (addr / PGSIZE) := by
  unfold is_valid_addr
  split
  · next user =>
    rw [get_page_iff tables]
    exact ⟨fun resident => ⟨user,resident⟩,fun both => both.2⟩
  · next kernel => simp [kernel]

/-- The bytes of a page, in its frame or in the slot that a fault would read. -/
def contents (s : Vm) (t : Tid) (p : PageEntry) : Page :=
  if p.is_swapped then
    match swap_entry_lookup s p.kpage t with
    | none => fun _ => 0
    | some e => Blocks.readBlocks BLOCK_SECTOR_SIZE s.swap_disk (8 * e.disk_offset) (fun _ => 0) 8
  else s.mem p.kpage

/-- The states differ only in which pages of `t` are resident: `t` has the same
    pages with the same bytes, and all else that processes have is the same. -/
structure SameButResidence (t : Tid) (s s' : Vm) : Prop where
  entries : (s'.pagetable t).map (fun p => (p.upage,p.writable)) = (s.pagetable t).map (fun p => (p.upage,p.writable))
  contents : ∀ u p p', page_entry_lookup s u t = some p → page_entry_lookup s' u t = some p' →
    ∀ o < PGSIZE, contents s' t p' o = contents s t p o
  pagetable : ∀ w, w ≠ t → s'.pagetable w = s.pagetable w
  pagedir : ∀ w, w ≠ t → s'.pagedir w = s.pagedir w
  swap_table : ∀ w, w ≠ t → s'.swap_table w = s.swap_table w
  live : Live s' t ↔ Live s t
  next_tid : s'.next_tid = s.next_tid
  exit_status : s'.exit_status = s.exit_status
  locks : s'.swap_lock = s.swap_lock ∧ s'.exception_lock = s.exception_lock ∧ s'.filesys_lock = s.filesys_lock
  sizes : s'.user_pages = s.user_pages ∧ s'.swap_disk_size = s.swap_disk_size

/-- Two states that differ in residence only give a pointer the same verdict just
    when its page has a frame in both or in neither. -/
theorem same_verdict_iff_same_residence {pages slots : Nat} (reached : Reaches (machine pages slots) Anything s)
    (reached' : Reaches (machine pages slots) Anything s') (_same : SameButResidence t s s') (addr : Nat) :
    ((is_valid_addr s t addr = is_valid_addr s' t addr ∧ (Passes s t addr ↔ Passes s' t addr)) ↔
      (addr < PHYS_BASE → (Resident s t (addr / PGSIZE) ↔ Resident s' t (addr / PGSIZE)))) := by
  have before := is_valid_addr_iff (t := t) addr (reaches_tables reached)
  have after := is_valid_addr_iff (t := t) addr (reaches_tables reached')
  rw [passes_iff,passes_iff,Bool.eq_iff_iff,and_self,before,after]
  constructor
  · intro agree user
    simpa [user] using agree
  · intro agree
    by_cases user : addr < PHYS_BASE
    · simpa [user] using agree user
    · simp [user]

/-- A process with three pages and two frames, and the fault that brings the first
    page back in place of the second. -/
def threePages : List Event :=
  [.start,.install 0 8 true (fun _ => 8) true true,.install 0 9 true (fun _ => 9) true true,
    .install 0 10 true (fun _ => 10) true true]
def firstBack : List Event := threePages ++ [.page_fault 0 (8 * PGSIZE) true]

/-- What a slot holds, with another slot written later or not. -/
theorem slot_bytes {o base : Nat} {bytes old : Page} {device : Nat → Nat → UInt8} (inside : o < PGSIZE) :
    Blocks.readBlocks BLOCK_SECTOR_SIZE (Blocks.writeBlocks BLOCK_SECTOR_SIZE bytes base device 8) base old 8 o = bytes o :=
  Blocks.readBlocks_writeBlocks inside
theorem earlier_slot_bytes {o : Nat} {bytes later old : Page} {device : Nat → Nat → UInt8} (inside : o < PGSIZE) :
    Blocks.readBlocks BLOCK_SECTOR_SIZE (Blocks.writeBlocks BLOCK_SECTOR_SIZE later (8 * 1)
      (Blocks.writeBlocks BLOCK_SECTOR_SIZE bytes (8 * 0) device 8) 8) (8 * 0) old 8 o = bytes o := by
  have first : Blocks.readBlocks BLOCK_SECTOR_SIZE (Blocks.writeBlocks BLOCK_SECTOR_SIZE bytes (8 * 0) device 8)
      (8 * 0) old 8 o = bytes o := slot_bytes inside
  rw [← first]
  refine congrFun (Blocks.readBlocks_congr ?_) o
  intro i within
  exact Blocks.writeBlocks_outside (by omega)

theorem threePages_same : ∃ s s', run (fun s e => (step s e).toOption) (boot 2 2) threePages = some s ∧
    run (fun s e => (step s e).toOption) (boot 2 2) firstBack = some s' ∧ SameButResidence 0 s s' := by
  refine ⟨_,_,rfl,rfl,⟨rfl,?_,?_,?_,?_,?_,rfl,rfl,⟨rfl,rfl,rfl⟩,⟨rfl,rfl⟩⟩⟩
  · intro u p p' found found' o inside
    have first : (List.find? (fun p => p.upage = u) [{ upage := 8, kpage := 0, writable := true, is_swapped := true },
      { upage := 9, kpage := 1, writable := true, is_swapped := false },
      { upage := 10, kpage := 0, writable := true, is_swapped := false }] : Option PageEntry) = some p := found
    have second : (List.find? (fun p => p.upage = u) [{ upage := 8, kpage := 1, writable := true, is_swapped := false },
      { upage := 9, kpage := 1, writable := true, is_swapped := true },
      { upage := 10, kpage := 0, writable := true, is_swapped := false }] : Option PageEntry) = some p' := found'
    simp only [List.find?_cons,List.find?_nil] at first second
    by_cases eight : (8 : Nat) = u
    · subst eight
      simp only [decide_true,Option.some.injEq] at first second
      subst first second
      exact (earlier_slot_bytes inside).trans (slot_bytes inside).symm
    by_cases nine : (9 : Nat) = u
    · subst nine
      simp only [decide_true,decide_false,Option.some.injEq,Nat.reduceEqDiff] at first second
      subst first second
      exact slot_bytes inside
    by_cases ten : (10 : Nat) = u
    · subst ten
      simp only [decide_true,decide_false,Option.some.injEq,Nat.reduceEqDiff] at first second
      subst first second
      rfl
    · simp [eight,nine,ten] at first
  · intro w other
    obtain ⟨n,rfl⟩ := Nat.exists_eq_succ_of_ne_zero other
    rfl
  · intro w other
    obtain ⟨n,rfl⟩ := Nat.exists_eq_succ_of_ne_zero other
    rfl
  · intro w other
    obtain ⟨n,rfl⟩ := Nat.exists_eq_succ_of_ne_zero other
    rfl
  · exact ⟨fun _ => rfl,fun _ => rfl⟩

/-- A pointer into the third page passes before and after the fault. -/
theorem same_verdict_third_page : ∃ s s', run (fun s e => (step s e).toOption) (boot 2 2) threePages = some s ∧
    run (fun s e => (step s e).toOption) (boot 2 2) firstBack = some s' ∧
    is_valid_addr s 0 (10 * PGSIZE + 4) = is_valid_addr s' 0 (10 * PGSIZE + 4) := by
  obtain ⟨s,s',first,second,same⟩ := threePages_same
  have reached : Reaches (machine 2 2) Anything s := run_reachable _ _ threePages first
  have reached' : Reaches (machine 2 2) Anything s' := run_reachable _ _ firstBack second
  refine ⟨s,s',first,second,((same_verdict_iff_same_residence reached reached' same (10 * PGSIZE + 4)).mpr ?_).1⟩
  obtain rfl := Option.some.inj first
  obtain rfl := Option.some.inj second
  intro _
  exact iff_of_true (by decide) (by decide)

/-- A pointer into the first page passes only after the fault, one into the second
    only before it. -/
theorem verdict_depends_on_residence : ∃ s s', Reaches (machine 2 2) Anything s ∧ Reaches (machine 2 2) Anything s' ∧
    SameButResidence 0 s s' ∧ is_valid_addr s 0 (8 * PGSIZE) = false ∧ is_valid_addr s' 0 (8 * PGSIZE) = true ∧
    ¬ Passes s 0 (8 * PGSIZE) ∧ Passes s' 0 (8 * PGSIZE) := by
  obtain ⟨s,s',first,second,same⟩ := threePages_same
  refine ⟨s,s',run_reachable _ _ threePages first,run_reachable _ _ firstBack second,same,?_⟩
  obtain rfl := Option.some.inj first
  obtain rfl := Option.some.inj second
  rw [passes_iff,passes_iff]
  exact ⟨by decide,by decide,by decide,by decide⟩

end Pintos.Residency
