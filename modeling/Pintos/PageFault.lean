import Pintos.Swap

/-!
How `page_fault` ends, in every state. It never reads the error code, so a write
to a read-only page that is present returns to fault again; it reads a missing
page entry to print it; and with `filesys_lock` held it returns from any fault on
a kernel address.
-/
namespace Pintos.PageFault
open Pintos.Machines Pintos.Vm Pintos.Frames Pintos.Swap
set_option linter.unusedSimpArgs false
variable {s s' : Vm} {t : Tid} {u k fault_addr : Nat} {pd : Pagedir} {p : PageEntry} {write alloc : Bool}

/-- The access that faulted would succeed now. -/
def Permits (s : Vm) (t : Tid) (fault_addr : Nat) (write : Bool) : Prop :=
  fault_addr < PHYS_BASE ∧ ∃ pd, s.pagedir t = some pd ∧ pd.Present (fault_addr / PGSIZE) ∧
    (write = true → (pd.pte (fault_addr / PGSIZE)).writable = true)

/-- The process, and no other, has exited with status -1. -/
structure Killed (s s' : Vm) (t : Tid) : Prop where
  dead : s'.pagedir t = none
  status : s'.exit_status t = -1
  others : ∀ w, w ≠ t → s'.pagedir w = s.pagedir w ∧ s'.exit_status w = s.exit_status w

/-- The fault is resolved or the process is killed, and `exception_lock` is free. -/
def Lawful (s : Vm) (t : Tid) (fault_addr : Nat) (write alloc : Bool) : Prop :=
  match page_fault s t fault_addr alloc with
  | .ok (.returned s') => Permits s' t fault_addr write ∧ s'.exception_lock = false
  | .ok (.exited s') => Killed s s' t ∧ s'.exception_lock = false
  | .error _ => False

/-- The pool has a free frame, or the front of `frametable` can be evicted. -/
def FrameToSpare (s : Vm) : Prop :=
  (∃ k < s.user_pages, s.used_map k = false) ∨
  ∃ f ∈ s.frametable.head?, ∃ p ∈ page_entry_lookup s f.upage f.owner_pid, p.is_swapped = false ∧
    ∃ slot < s.swap_disk_size, s.empty_block_sector slot = true

/-- The kernel pages that a page directory maps user pages to. -/
def framesOf (pd : Pagedir) : List Nat := (pd.written.filter (fun u => pd.Present u)).map (fun u => (pd.pte u).kpage)

/-- The faults that are handled. At a user address: the page is present and the
    access is permitted; or it has an entry, is swapped out, the access is
    permitted, and there is a frame, a free swap lock and a page table for it. At
    a kernel address: the file system is not in use, and the frames of the process
    are in use once each. -/
def Handled (s : Vm) (t : Tid) (pd : Pagedir) (fault_addr : Nat) (write alloc : Bool) : Prop :=
  if fault_addr < PHYS_BASE then
    if pd.Present (fault_addr / PGSIZE) then write = true → (pd.pte (fault_addr / PGSIZE)).writable = true
    else ∃ p ∈ page_entry_lookup s (fault_addr / PGSIZE) t, p.is_swapped = true ∧
      (write = true → p.writable = true) ∧ s.swap_lock = false ∧
      (pd_no (fault_addr / PGSIZE) ∈ pd.tables ∨ alloc = true) ∧ FrameToSpare s
  else s.filesys_lock = false ∧ (framesOf pd).Nodup ∧ ∀ k ∈ framesOf pd, s.used_map k = true

instance (s : Vm) : Decidable (FrameToSpare s) := inferInstanceAs (Decidable ((∃ k < s.user_pages, s.used_map k = false) ∨
  ∃ f ∈ s.frametable.head?, ∃ p ∈ page_entry_lookup s f.upage f.owner_pid, p.is_swapped = false ∧
    ∃ slot < s.swap_disk_size, s.empty_block_sector slot = true))
instance (s : Vm) (t : Tid) (pd : Pagedir) (fault_addr : Nat) (write alloc : Bool) :
    Decidable (Handled s t pd fault_addr write alloc) :=
  inferInstanceAs (Decidable (if fault_addr < PHYS_BASE then
      if pd.Present (fault_addr / PGSIZE) then write = true → (pd.pte (fault_addr / PGSIZE)).writable = true
      else ∃ p ∈ page_entry_lookup s (fault_addr / PGSIZE) t, p.is_swapped = true ∧
        (write = true → p.writable = true) ∧ s.swap_lock = false ∧
        (pd_no (fault_addr / PGSIZE) ∈ pd.tables ∨ alloc = true) ∧ FrameToSpare s
    else s.filesys_lock = false ∧ (framesOf pd).Nodup ∧ ∀ k ∈ framesOf pd, s.used_map k = true))

/-! ### Exits -/

theorem freeAll_total_iff (kpages : List Nat) : ∀ s : Vm, (∃ s', freeAll s kpages = .ok s') ↔
    kpages.Nodup ∧ ∀ k ∈ kpages, s.used_map k = true := by
  induction kpages with
  | nil => intro s; simp [freeAll]
  | cons first others ih =>
    intro s
    by_cases used : s.used_map first = true
    · have rest : freeAll s (first :: others) =
          freeAll ((s.setUsed first false).setMem first (fun _ => 0xcc)) others := by
        simp [freeAll,palloc_free_page,used]
      rw [rest,ih,List.nodup_cons]
      simp only [Vm.setMem,Vm.setUsed,List.mem_cons,forall_eq_or_imp,used,true_and]
      constructor
      · rintro ⟨once,still⟩
        refine ⟨⟨?_,once⟩,?_⟩
        · intro member
          have marked := still first member
          simp at marked
        · intro k member
          have marked := still k member
          split at marked
          · cases marked
          · exact marked
      · rintro ⟨⟨outside,once⟩,still⟩
        refine ⟨once,?_⟩
        intro k member
        have other : k ≠ first := fun same => outside (same ▸ member)
        rw [if_neg other]
        exact still k member
    · constructor
      · rintro ⟨s',ran⟩
        simp [freeAll,palloc_free_page,used] at ran
      · rintro ⟨_,still⟩
        exact absurd (still first List.mem_cons_self) used

theorem killed_of_exit {s1 : Vm} (directory : s.pagedir t = some pd) (ran : syscall_exit s t (-1) = .ok s1) :
    Killed s s1 t ∧ s1.exception_lock = s.exception_lock := by
  unfold syscall_exit thread_exit at ran
  simp only [directory] at ran
  unfold pagedir_destroy at ran
  have freed := freeAll_ok _ _ ran
  refine ⟨⟨?_,?_,?_⟩,freed.exception_lock⟩
  · simp [freed.pagedir,Vm.setPagedir]
  · simp [freed.exit_status,Vm.setPagedir,frame_delete_by_pid]
  · intro w other
    simp [freed.pagedir,freed.exit_status,Vm.setPagedir,frame_delete_by_pid,other]

theorem exit_total_iff (directory : s.pagedir t = some pd) : (∃ s1, syscall_exit s t (-1) = .ok s1) ↔
    (framesOf pd).Nodup ∧ ∀ k ∈ framesOf pd, s.used_map k = true := by
  unfold syscall_exit thread_exit
  simp only [directory]
  exact freeAll_total_iff (framesOf pd) _

/-! ### Frames -/

theorem find_isSome_iff (n : Nat) (Q : Nat → Bool) :
    (∃ i, (List.range n).find? Q = some i) ↔ ∃ i < n, Q i = true := by
  rw [← Option.isSome_iff_exists,List.find?_isSome]
  simp

theorem palloc_total_iff (unlocked : s.swap_lock = false) :
    (∃ k s1, palloc_get_page s = .ok (k,s1)) ↔ FrameToSpare s := by
  unfold palloc_get_page FrameToSpare
  cases free : findFree s with
  | some k =>
    have inside := (find_isSome_iff s.user_pages (fun k => !s.used_map k)).mp ⟨k,free⟩
    simp only [Bool.not_eq_eq_eq_not,Bool.not_true] at inside
    exact ⟨fun _ => .inl inside,fun _ => ⟨k,_,rfl⟩⟩
  | none =>
    have full : ¬ ∃ k < s.user_pages, s.used_map k = false := by
      rintro ⟨k,below,unused⟩
      obtain ⟨i,found⟩ := (find_isSome_iff s.user_pages (fun k => !s.used_map k)).mpr ⟨k,below,by simp [unused]⟩
      rw [findFree,found] at free
      cases free
    simp only [full,false_or]
    constructor
    · rintro ⟨k,s1,ran⟩
      obtain ⟨f,rest,p,slot,queue,found,resident,_,_,sector,_⟩ := page_swap_to_disk_ok ran
      exact ⟨f,by simp [queue],p,found,resident,(find_isSome_iff _ _).mp ⟨slot,sector⟩⟩
    · rintro ⟨f,front,p,found,resident,space⟩
      obtain ⟨slot,sector⟩ := (find_isSome_iff _ _).mpr space
      cases queue : s.frametable with
      | nil => simp [queue] at front
      | cons first rest =>
        simp only [queue,List.head?_cons,Option.mem_def,Option.some.injEq] at front
        subst front
        have frame := unmapped_frame s first rest
        have sectorToo : swap_find_empty_sector (unmapped s first rest) = some slot := by
          simp only [swap_find_empty_sector,frame.empty_block_sector,frame.swap_disk_size]
          exact sector
        simp only [Option.mem_def] at found
        simp only [page_swap_to_disk,queue,found,resident,swap_frame_to_disk,frame.swap_lock,unlocked,sectorToo,
          Bool.false_eq_true,↓reduceIte]
        exact ⟨_,_,rfl⟩

theorem palloc_swap_lock (ran : palloc_get_page s = .ok (k,s')) : s'.swap_lock = s.swap_lock := by
  unfold palloc_get_page at ran
  split at ran
  · cases ran
    rfl
  · obtain ⟨_,_,_,_,_,moved⟩ := moved_of_ok ran
    exact moved.swap_lock

/-! ### Swapping in -/

theorem lookup_page_isSome_iff : (∃ pd', lookup_page pd u true alloc = some pd') ↔
    pd_no u ∈ pd.tables ∨ alloc = true := by
  unfold lookup_page
  by_cases inside : pd_no u ∈ pd.tables
  · simp [inside]
  · cases alloc <;> simp [inside]

/-- A page that is not present is not present in its page table either. -/
theorem lookup_page_absent {pd' : Pagedir} (absent : ¬ pd.Present u) (found : lookup_page pd u true alloc = some pd') :
    (pd'.pte u).present = false := by
  unfold lookup_page at found
  split at found
  · next inside =>
    cases found
    by_contra set
    exact absent ⟨inside,by simpa using set⟩
  · split at found
    · cases found
      simp [Pagedir.addTable]
    · cases found

theorem pagedir_set_page_total {writable : Bool} {pd' : Pagedir} (directory : s.pagedir t = some pd)
    (absent : ¬ pd.Present u) (found : lookup_page pd u true alloc = some pd') :
    pagedir_set_page s t u k writable alloc = .ok (withPage s t pd' u k writable,true) := by
  simp [pagedir_set_page,directory,found,lookup_page_absent absent found]

/-- What is mapped after a swap-in that found a page table. -/
theorem permits_withPage {s2 : Vm} {pd' : Pagedir} (tabled : pd_no u ∈ pd'.tables) (page : u = fault_addr / PGSIZE)
    (user : fault_addr < PHYS_BASE) :
    Permits { page_entry_update_kpage (withPage s2 t pd' u k p.writable) u t k with exception_lock := false }
      t fault_addr write ↔ (write = true → p.writable = true) := by
  have directory : ({ page_entry_update_kpage (withPage s2 t pd' u k p.writable) u t k with
      exception_lock := false } : Vm).pagedir t =
      some (pd'.setPte u { present := true, writable := p.writable, kpage := k }) := by
    simp [page_entry_update_kpage,Vm.updateEntry,withPage,frame_entry_insert,insert_pagedir,Vm.setPagedir]
  have present : (pd'.setPte u { present := true, writable := p.writable, kpage := k }).Present u :=
    (setPte_present rfl tabled).mpr (.inl rfl)
  have writable : ((pd'.setPte u { present := true, writable := p.writable, kpage := k }).pte u).writable =
      p.writable := by
    simp [Pagedir.setPte]
  subst page
  constructor
  · rintro ⟨_,pd1,same,_,allowed⟩
    rw [directory] at same
    cases same
    rwa [writable] at allowed
  · intro allowed
    exact ⟨user,_,directory,present,by rwa [writable]⟩

/-- A swap-in resolves the fault exactly when it has all it needs. -/
theorem swapIn_resolves_iff (write alloc : Bool) (directory : s.pagedir t = some pd) (absent : ¬ pd.Present (fault_addr / PGSIZE))
    (user : fault_addr < PHYS_BASE) (known : page_entry_lookup s (fault_addr / PGSIZE) t = some p) :
    (∃ s1, swapIn s t p alloc = .ok s1 ∧ Permits { s1 with exception_lock := false } t fault_addr write) ↔
      (write = true → p.writable = true) ∧ s.swap_lock = false ∧
      (pd_no (fault_addr / PGSIZE) ∈ pd.tables ∨ alloc = true) ∧ FrameToSpare s := by
  have page := lookup_upage known
  constructor
  · rintro ⟨s1,ran,permits⟩
    obtain ⟨k,s2,s3,s4,done,taken,moved,set,rfl⟩ := swapIn_ok ran
    have unlocked : s.swap_lock = false := by
      rw [← palloc_swap_lock taken]
      unfold swap_disk_to_frame at moved
      split at moved
      · cases moved
      · next open_ => simpa using open_
    have tables := swap_disk_to_frame_tables moved
    obtain ⟨pd1,directory1,same,kept⟩ := palloc_pagedir taken directory
    have here : (flap_swapped_flag s3 p.upage t).pagedir t = some pd1 := by
      simpa [flap_swapped_flag,Vm.updateEntry,tables.pagedir] using directory1
    obtain ⟨pd2,directory2,failed | ⟨pd3,_,found,_,rfl⟩⟩ := pagedir_set_page_ok set
    · -- Without a page table the page is still not mapped.
      obtain ⟨_,rfl,none⟩ := failed
      obtain ⟨_,pd4,directory4,present,_⟩ := permits
      have there : (flap_swapped_flag s3 p.upage t).pagedir t = some pd4 := directory4
      rw [directory2] at there
      cases there
      have table : ∃ pd', lookup_page pd2 p.upage true alloc = some pd' := by
        rw [lookup_page_isSome_iff,page]
        exact .inl present.1
      obtain ⟨pd5,found⟩ := table
      rw [none] at found
      cases found
    · rw [here] at directory2
      cases directory2
      have allowed := (permits_withPage (lookup_page_some found).table page user).mp permits
      refine ⟨allowed,unlocked,?_,(palloc_total_iff unlocked).mp ⟨k,s2,taken⟩⟩
      rw [← page,← same]
      exact lookup_page_isSome_iff.mp ⟨pd3,found⟩
  · rintro ⟨allowed,unlocked,table,spare⟩
    obtain ⟨k,s2,taken⟩ := (palloc_total_iff unlocked).mpr spare
    obtain ⟨pd1,directory1,same,kept⟩ := palloc_pagedir taken directory
    have unlockedToo : s2.swap_lock = false := by rw [palloc_swap_lock taken,unlocked]
    have absentToo : ¬ pd1.Present p.upage := by
      rintro ⟨inside,set⟩
      rw [page] at inside set
      rw [same] at inside
      have unset : (pd.pte (fault_addr / PGSIZE)).present = false := by
        by_contra still
        exact absent ⟨inside,by simpa using still⟩
      rw [kept _ unset] at set
      cases set
    obtain ⟨pd3,found⟩ : ∃ pd3, lookup_page pd1 p.upage true alloc = some pd3 := by
      rw [lookup_page_isSome_iff,page,same]
      exact table
    obtain ⟨s3,moved⟩ : ∃ s3, swap_disk_to_frame s2 k p.kpage t = .ok s3 := by
      unfold swap_disk_to_frame
      rw [unlockedToo]
      cases swap_entry_lookup s2 p.kpage t with
      | none => exact ⟨_,rfl⟩
      | some e => exact ⟨_,rfl⟩
    have tables := swap_disk_to_frame_tables moved
    have here : (flap_swapped_flag s3 p.upage t).pagedir t = some pd1 := by
      simpa [flap_swapped_flag,Vm.updateEntry,tables.pagedir] using directory1
    refine ⟨page_entry_update_kpage (withPage (flap_swapped_flag s3 p.upage t) t pd3 p.upage k p.writable) p.upage t k,
      ?_,(permits_withPage (lookup_page_some found).table page user).mpr allowed⟩
    simp only [swapIn,taken,moved,pagedir_set_page_total here absentToo found]

/-! ### The law -/

/-- At a page that is present the handler only returns. -/
theorem lawful_present (directory : s.pagedir t = some pd) (unlocked : s.exception_lock = false) (user : fault_addr < PHYS_BASE)
    (present : pd.Present (fault_addr / PGSIZE)) :
    Lawful s t fault_addr write alloc ↔ (write = true → (pd.pte (fault_addr / PGSIZE)).writable = true) := by
  have kernel : ¬ (s.filesys_lock = true ∧ PHYS_BASE ≤ fault_addr) := fun both => Nat.not_le.mpr user both.2
  have got : pagedir_get_page { s with exception_lock := true } t (fault_addr / PGSIZE) =
      some (pd.pte (fault_addr / PGSIZE)).kpage := by
    simp [pagedir_get_page,directory,present]
  simp only [Lawful,page_fault,kernel,user,unlocked,got,Bool.false_eq_true,↓reduceIte,and_true]
  constructor
  · rintro ⟨_,pd1,same,_,allowed⟩
    rw [directory] at same
    cases same
    exact allowed
  · intro allowed
    exact ⟨user,pd,directory,present,allowed⟩

/-- At an absent page of a process the handler brings in the page that was swapped out. -/
theorem lawful_absent (directory : s.pagedir t = some pd) (unlocked : s.exception_lock = false) (user : fault_addr < PHYS_BASE)
    (absent : ¬ pd.Present (fault_addr / PGSIZE)) :
    Lawful s t fault_addr write alloc ↔ ∃ p ∈ page_entry_lookup s (fault_addr / PGSIZE) t, p.is_swapped = true ∧
      (write = true → p.writable = true) ∧ s.swap_lock = false ∧
      (pd_no (fault_addr / PGSIZE) ∈ pd.tables ∨ alloc = true) ∧ FrameToSpare s := by
  have kernel : ¬ (s.filesys_lock = true ∧ PHYS_BASE ≤ fault_addr) := fun both => Nat.not_le.mpr user both.2
  have got : pagedir_get_page { s with exception_lock := true } t (fault_addr / PGSIZE) = none := by
    simp [pagedir_get_page,directory,absent]
  have looked : page_entry_lookup { s with exception_lock := true } (fault_addr / PGSIZE) t =
      page_entry_lookup s (fault_addr / PGSIZE) t := rfl
  cases known : page_entry_lookup s (fault_addr / PGSIZE) t with
  | none => simp [Lawful,page_fault,kernel,user,unlocked,got,looked,known]
  | some p =>
    by_cases swapped : p.is_swapped = true
    · have resolves := swapIn_resolves_iff (s := { s with exception_lock := true }) write alloc directory absent user known
      have same : FrameToSpare { s with exception_lock := true } ↔ FrameToSpare s := Iff.rfl
      simp only [Option.mem_def,Option.some.injEq,exists_eq_left',swapped,true_and]
      rw [← same]
      refine Iff.trans ?_ resolves
      unfold Lawful page_fault
      simp only [kernel,user,unlocked,got,looked,known,swapped,Bool.false_eq_true,↓reduceIte]
      cases moved : swapIn { s with exception_lock := true } t p alloc with
      | error fault => simp
      | ok s1 => simp
    · -- The page is neither present nor swapped out: the handler just returns.
      simp only [Lawful,page_fault,kernel,user,unlocked,got,looked,known,swapped,Bool.false_eq_true,↓reduceIte,
        Option.mem_def,Option.some.injEq,exists_eq_left',false_and,iff_false,not_and]
      rintro ⟨_,pd1,same,present,_⟩
      rw [directory] at same
      cases same
      exact absurd present absent

/-- At a kernel address the handler ends the process. -/
theorem lawful_kernel (directory : s.pagedir t = some pd) (unlocked : s.exception_lock = false)
    (above : PHYS_BASE ≤ fault_addr) :
    Lawful s t fault_addr write alloc ↔
      s.filesys_lock = false ∧ (framesOf pd).Nodup ∧ ∀ k ∈ framesOf pd, s.used_map k = true := by
  have user : ¬ fault_addr < PHYS_BASE := Nat.not_lt.mpr above
  cases filesys : s.filesys_lock with
  | true =>
    simp only [Lawful,page_fault,filesys,above,and_self,↓reduceIte,reduceCtorEq,false_and,iff_false]
    rintro ⟨⟨low,_⟩,_⟩
    exact user low
  | false =>
    simp only [true_and]
    rw [← exit_total_iff directory]
    unfold Lawful page_fault
    simp only [filesys,user,Bool.false_eq_true,false_and,↓reduceIte]
    cases gone : syscall_exit s t (-1) with
    | error fault => simp
    | ok s1 =>
      obtain ⟨killed,lock⟩ := killed_of_exit directory gone
      simp [killed,lock,unlocked]

/-- A process with its code at page 5, read-only, and its data at page 6, in a
    pool of one frame. -/
def codeAndData : List Event :=
  [.start,.install 0 5 false (fun _ => 1) true true,.install 0 6 true (fun _ => 2) true true]

end Pintos.PageFault
