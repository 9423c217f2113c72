import Pintos.Frames

/-!
The locks that the entry points of the virtual memory take: `swap_lock`, `page_lock`
and `exception_lock`, with each acquisition and release where the source has it. The
work between them is that of `Pintos.Vm`, whose operations these are, `unlocked` of
what the thread holds; there the locks are two flags.

A call that does not return to its caller, because it fails an assertion, takes a
lock that the thread holds already or ends the process, has no result here.
-/
namespace Pintos.LockBalance
open Pintos.Vm
open Pintos.Frames (unmapped_frame)
set_option linter.unusedSimpArgs false

inductive Lock
  | swap_lock | page_lock | exception_lock
deriving DecidableEq

/-- The virtual memory, and the locks that the current thread holds. -/
structure Locked where
  vm : Vm
  held : Lock → Bool

inductive Stop
  | fault (f : Fault)
  /-- The assertions of `lock_acquire` and `lock_release`. -/
  | held (l : Lock)
  | unheld (l : Lock)
  | exited

def lock_acquire (l : Lock) (s : Locked) : Except Stop Locked :=
  if s.held l then .error (.held l) else .ok { s with held := Function.update s.held l true }
def lock_release (l : Lock) (s : Locked) : Except Stop Locked :=
  if s.held l then .ok { s with held := Function.update s.held l false } else .error (.unheld l)

def swap_frame_to_disk (s : Locked) (kpage : Nat) (owner_pid : Tid) (victim : Nat) : Except Stop Locked := do
  let s ← lock_acquire .swap_lock s
  match swap_find_empty_sector s.vm with
  | none => .error (.fault .swap_full)
  | some slot => lock_release .swap_lock { s with vm := swappedOut s.vm kpage owner_pid victim slot }

def swap_disk_to_frame (s : Locked) (dst kpage : Nat) (owner_pid : Tid) : Except Stop Locked := do
  let s ← lock_acquire .swap_lock s
  match swap_entry_lookup s.vm kpage owner_pid with
  | none => .ok s
  | some e => lock_release .swap_lock { s with vm := swappedIn s.vm dst kpage owner_pid e }

def page_swap_to_disk (s : Locked) : Except Stop (Nat × Locked) := do
  let s ← lock_acquire .page_lock s
  match s.vm.frametable with
  | [] => .error (.fault .no_victim)
  | f :: rest =>
    match page_entry_lookup s.vm f.upage f.owner_pid with
    | none => .error (.fault .no_page_entry)
    | some p =>
      if p.is_swapped then .error (.fault .already_swapped)
      else do
        let s ← swap_frame_to_disk { s with vm := unmapped s.vm f rest } f.kpage f.owner_pid f.upage
        let s ← lock_release .page_lock { s with vm := s.vm.setMem p.kpage (fun _ => 0) }
        pure (p.kpage,s)

/-- `palloc_get_page (PAL_USER)`. -/
def palloc_get_page (s : Locked) : Except Stop (Nat × Locked) :=
  match findFree s.vm with
  | some kpage => .ok (kpage,{ s with vm := s.vm.setUsed kpage true })
  | none => page_swap_to_disk s

/-- `page_fault` on a swapped-out page `p`, with `exception_lock` held. -/
def swapIn (s : Locked) (t : Tid) (p : PageEntry) (alloc : Bool) : Except Stop Locked := do
  let (pages,s) ← palloc_get_page s
  let s ← swap_disk_to_frame s pages p.kpage t
  match pagedir_set_page (flap_swapped_flag s.vm p.upage t) t p.upage pages p.writable alloc with
  | .error f => .error (.fault f)
  | .ok (vm,_) => lock_release .exception_lock { s with vm := page_entry_update_kpage vm p.upage t pages }

def page_fault (s : Locked) (t : Tid) (fault_addr : Nat) (alloc : Bool) : Except Stop Locked :=
  if s.vm.filesys_lock ∧ PHYS_BASE ≤ fault_addr then .ok s
  else if fault_addr < PHYS_BASE then do
    let s ← lock_acquire .exception_lock s
    match pagedir_get_page s.vm t (fault_addr / PGSIZE) with
    | some _ => lock_release .exception_lock s
    | none =>
      match page_entry_lookup s.vm (fault_addr / PGSIZE) t with
      | none => .error (.fault .null_page_entry)
      | some p => if p.is_swapped then swapIn s t p alloc else lock_release .exception_lock s
  else .error .exited

variable {s s' s₁ : Locked} {t : Tid} {k dst kpage fault_addr victim : Nat} {l : Lock} {p : PageEntry} {alloc : Bool}

/-! ### What each call does with the locks -/

theorem bind_ok {α β : Type} {x : Except Stop α} {f : α → Except Stop β} {b : β} (ran : (x >>= f) = .ok b) :
    ∃ a, x = .ok a ∧ f a = .ok b := by
  cases x with
  | error stop => cases ran
  | ok a => exact ⟨a,rfl,ran⟩

theorem lock_acquire_ok (ran : lock_acquire l s = .ok s') :
    s.held l = false ∧ s' = { s with held := Function.update s.held l true } := by
  rw [lock_acquire] at ran
  split at ran
  · cases ran
  · next free =>
    cases ran
    exact ⟨by simpa using free,rfl⟩

/-- A lock that was free is free again. -/
theorem lock_release_ok (free : s.held l = false) (ran : lock_release l s₁ = .ok s')
    (taken : s₁.held = Function.update s.held l true) : s' = { s₁ with held := s.held } := by
  rw [lock_release] at ran
  split at ran
  · cases ran
    rw [taken,Function.update_idem,← free,Function.update_eq_self]
  · cases ran

theorem swap_frame_to_disk_ok (ran : swap_frame_to_disk s k t victim = .ok s') :
    ∃ slot, s' = { vm := swappedOut s.vm k t victim slot, held := s.held } := by
  obtain ⟨s₁,takes,rest⟩ := bind_ok ran
  obtain ⟨free,rfl⟩ := lock_acquire_ok takes
  dsimp only at rest
  split at rest
  · cases rest
  · next slot _ => exact ⟨slot,lock_release_ok free rest rfl⟩

theorem swap_disk_to_frame_ok (ran : swap_disk_to_frame s dst k t = .ok s') :
    (swap_entry_lookup s.vm k t = none ∧ s.held .swap_lock = false ∧ s'.held = Function.update s.held .swap_lock true) ∨
      (swap_entry_lookup s.vm k t ≠ none ∧ s'.held = s.held) := by
  obtain ⟨s₁,takes,rest⟩ := bind_ok ran
  obtain ⟨free,rfl⟩ := lock_acquire_ok takes
  dsimp only at rest
  split at rest
  · next missing =>
    cases rest
    exact .inl ⟨missing,free,rfl⟩
  · next e found =>
    refine .inr ⟨by rw [found]; simp,?_⟩
    rw [lock_release_ok free rest rfl]

/-- An eviction gives the victim's frame, with an entry for it in the swap table. -/
theorem page_swap_to_disk_ok (ran : page_swap_to_disk s = .ok (k,s')) :
    ∃ f ∈ s.vm.frametable.head?, s'.held = s.held ∧
      ∃ e : SwapEntry, e.kpage = f.kpage ∧ ∀ w, s'.vm.swap_table w = if w = f.owner_pid then s.vm.swap_table w ++ [e] else s.vm.swap_table w := by
  obtain ⟨s₁,takes,rest⟩ := bind_ok ran
  obtain ⟨free,rfl⟩ := lock_acquire_ok takes
  dsimp only at rest
  split at rest
  · cases rest
  · next f others queue =>
    split at rest
    · cases rest
    · next p found =>
      split at rest
      · cases rest
      · obtain ⟨s₂,swaps,rest⟩ := bind_ok rest
        obtain ⟨s₃,releases,rest⟩ := bind_ok rest
        cases rest
        obtain ⟨slot,rfl⟩ := swap_frame_to_disk_ok swaps
        rw [lock_release_ok free releases rfl]
        have table : (unmapped s.vm f others).swap_table = s.vm.swap_table := (unmapped_frame s.vm f others).swap_table
        refine ⟨f,by rw [queue]; rfl,rfl,{ kpage := f.kpage, disk_offset := slot, victim := f.upage },rfl,fun w => ?_⟩
        simp only [Vm.setMem,swappedOut,table]
        split
        · next owner => rw [owner]
        · rfl

/-- There is an entry for the key in the swap table, or the eviction that
    `palloc_get_page` now makes puts one there. -/
def Backed (s : Vm) (t : Tid) (kpage : Nat) : Prop :=
  swap_entry_lookup s kpage t ≠ none ∨
    findFree s = none ∧ ∃ f ∈ s.frametable.head?, f.owner_pid = t ∧ f.kpage = kpage

theorem palloc_get_page_ok (ran : palloc_get_page s = .ok (k,s')) :
    s'.held = s.held ∧ ∀ kpage t, swap_entry_lookup s'.vm kpage t ≠ none ↔ Backed s.vm t kpage := by
  rw [palloc_get_page] at ran
  split at ran
  · next page free =>
    cases ran
    refine ⟨rfl,fun kpage t => ?_⟩
    rw [Backed,free]
    simp [swap_entry_lookup,Vm.setUsed]
  · next full =>
    obtain ⟨f,front,held,e,key,table⟩ := page_swap_to_disk_ok ran
    refine ⟨held,fun kpage t => ?_⟩
    rw [Backed,full,swap_entry_lookup,swap_entry_lookup,table]
    rw [Option.mem_def] at front
    simp only [front,Option.mem_def,Option.some.injEq,exists_eq_left',true_and]
    by_cases owner : t = f.owner_pid
    · rw [if_pos owner,List.find?_append]
      by_cases same : f.kpage = kpage
      · simp [owner,same,key]
      · simp [same,key]
    · rw [if_neg owner]
      have other : ¬ (f.owner_pid = t ∧ f.kpage = kpage) := fun both => owner both.1.symm
      simp [other]

/-! ### The same calls in `Pintos.Vm` -/

/-- The state of `Pintos.Vm`, when only this thread is in the virtual memory. -/
def flags (s : Locked) : Vm := { s.vm with swap_lock := s.held .swap_lock, exception_lock := s.held .exception_lock }

def Stop.toFault : Stop → Fault
  | .fault f => f
  | .held .swap_lock => .swap_locked
  | .held .exception_lock => .exception_locked
  | .held .page_lock | .unheld _ | .exited => .impossible

/-- A result as `Pintos.Vm` has it. -/
def seen {α β : Type} (f : α → β) : Except Stop α → Except Fault β
  | .error stop => .error stop.toFault
  | .ok a => .ok (f a)

theorem swap_frame_to_disk_flags : Vm.swap_frame_to_disk (flags s) k t victim = seen flags (swap_frame_to_disk s k t victim) := by
  rw [Vm.swap_frame_to_disk,swap_frame_to_disk,lock_acquire]
  cases free : s.held .swap_lock with
  | true => simp [flags,free,bind,Except.bind,seen,Stop.toFault]
  | false =>
    have find : swap_find_empty_sector (flags s) = swap_find_empty_sector s.vm := rfl
    rw [find]
    cases slot : swap_find_empty_sector s.vm with
    | none => simp [flags,free,bind,Except.bind,seen,Stop.toFault,slot]
    | some slot' => simp [flags,free,bind,Except.bind,seen,slot,lock_release,swappedOut]

theorem swap_disk_to_frame_flags : Vm.swap_disk_to_frame (flags s) dst k t = seen flags (swap_disk_to_frame s dst k t) := by
  rw [Vm.swap_disk_to_frame,swap_disk_to_frame,lock_acquire]
  cases free : s.held .swap_lock with
  | true => simp [flags,free,bind,Except.bind,seen,Stop.toFault]
  | false =>
    have find : swap_entry_lookup (flags s) k t = swap_entry_lookup s.vm k t := rfl
    rw [find]
    cases entry : swap_entry_lookup s.vm k t with
    | none => simp [flags,free,bind,Except.bind,seen,entry]
    | some e => simp [flags,free,bind,Except.bind,seen,entry,lock_release,swappedIn]

theorem unmapped_flags (s : Locked) (f : FrameEntry) (rest : List FrameEntry) :
    unmapped (flags s) f rest = flags { s with vm := unmapped s.vm f rest } := by
  unfold unmapped
  rw [show (flags s).pagedir f.owner_pid = s.vm.pagedir f.owner_pid from rfl]
  cases s.vm.pagedir f.owner_pid <;> rfl

/-- `Pintos.Vm` has no flag for `page_lock`. -/
theorem page_lock_flags (vm : Vm) (held : Lock → Bool) (value : Bool) :
    flags { vm := vm, held := Function.update held .page_lock value } = flags { vm := vm, held := held } := by
  simp [flags]

/-- An eviction, by a thread that is not in one already. -/
theorem page_swap_to_disk_flags (outside : s.held .page_lock = false) :
    Vm.page_swap_to_disk (flags s) = seen (Prod.map id flags) (page_swap_to_disk s) := by
  have acquired : lock_acquire .page_lock s = .ok { s with held := Function.update s.held .page_lock true } := by
    rw [lock_acquire,outside]
    rfl
  rw [Vm.page_swap_to_disk,page_swap_to_disk,acquired,show (flags s).frametable = s.vm.frametable from rfl]
  cases queue : s.vm.frametable with
  | nil =>
    simp only [bind,Except.bind,queue]
    rfl
  | cons f rest =>
    simp only [bind,Except.bind,queue]
    rw [show page_entry_lookup (flags s) f.upage f.owner_pid = page_entry_lookup s.vm f.upage f.owner_pid from rfl]
    cases page_entry_lookup s.vm f.upage f.owner_pid with
    | none => rfl
    | some p =>
      dsimp only
      split
      · rfl
      · rw [unmapped_flags,← page_lock_flags _ _ true,swap_frame_to_disk_flags]
        cases swaps : swap_frame_to_disk { vm := unmapped s.vm f rest, held := Function.update s.held .page_lock true } f.kpage
            f.owner_pid f.upage with
        | error stop => rfl
        | ok s₁ =>
          obtain ⟨slot,rfl⟩ := swap_frame_to_disk_ok swaps
          simp [seen,lock_release,flags,pure,Except.pure,Vm.setMem]

theorem palloc_get_page_flags (outside : s.held .page_lock = false) :
    Vm.palloc_get_page (flags s) = seen (Prod.map id flags) (palloc_get_page s) := by
  rw [Vm.palloc_get_page,palloc_get_page,show findFree (flags s) = findFree s.vm from rfl]
  cases findFree s.vm with
  | some kpage => rfl
  | none => exact page_swap_to_disk_flags outside

/-- What `exception_lock` is when the handler returns. -/
theorem exception_lock_flags (s : Locked) (value : Bool) :
    { flags s with exception_lock := value } = flags { s with held := Function.update s.held .exception_lock value } := by
  simp [flags]

theorem pagedir_set_page_flags {u : Nat} {writable : Bool} : pagedir_set_page (flags s) t u k writable alloc =
    (pagedir_set_page s.vm t u k writable alloc).map fun r => (flags { s with vm := r.1 },r.2) := by
  rw [pagedir_set_page,pagedir_set_page,show (flags s).pagedir t = s.vm.pagedir t from rfl]
  cases s.vm.pagedir t with
  | none => rfl
  | some pd =>
    dsimp only
    cases lookup_page pd u true alloc with
    | none => rfl
    | some pd' =>
      dsimp only
      split
      · rfl
      · simp only [Except.map,withPage,page_entry_insert]
        rw [show page_entry_lookup ((flags s).setPagedir t (some (pd'.setPte u { present := true, writable := writable, kpage := k }))) u t =
          page_entry_lookup (s.vm.setPagedir t (some (pd'.setPte u { present := true, writable := writable, kpage := k }))) u t from rfl]
        split <;> rfl

theorem swapIn_flags (outside : s.held .page_lock = false) (taken : s.held .exception_lock = true) :
    (Vm.swapIn (flags s) t p alloc).map (fun vm => { vm with exception_lock := false }) = seen flags (swapIn s t p alloc) := by
  rw [Vm.swapIn,swapIn,palloc_get_page_flags outside]
  cases allocates : palloc_get_page s with
  | error stop => rfl
  | ok r =>
    obtain ⟨pages,s₁⟩ := r
    obtain ⟨held,-⟩ := palloc_get_page_ok allocates
    simp only [seen,Prod.map,id_eq,bind,Except.bind]
    rw [swap_disk_to_frame_flags]
    cases swaps : swap_disk_to_frame s₁ pages p.kpage t with
    | error stop => rfl
    | ok s₂ =>
      have kept : s₂.held .exception_lock = true := by
        rcases swap_disk_to_frame_ok swaps with ⟨-,-,same⟩ | ⟨-,same⟩
        · simp [same,held,taken]
        · rw [same,held,taken]
      simp only [seen]
      rw [show flap_swapped_flag (flags s₂) p.upage t = flags { s₂ with vm := flap_swapped_flag s₂.vm p.upage t } from rfl,
        pagedir_set_page_flags]
      cases pagedir_set_page (flap_swapped_flag s₂.vm p.upage t) t p.upage pages p.writable alloc with
      | error fault => rfl
      | ok r =>
        simp only [Except.map,lock_release,kept,↓reduceIte]
        simp [flags,page_entry_update_kpage,Vm.updateEntry,seen]

/-- Faults on user addresses. -/
theorem page_fault_flags (outside : s.held .page_lock = false) (user : fault_addr < PHYS_BASE) :
    Vm.page_fault (flags s) t fault_addr alloc = seen (fun s' => .returned (flags s')) (page_fault s t fault_addr alloc) := by
  have kernel : ¬ (s.vm.filesys_lock = true ∧ PHYS_BASE ≤ fault_addr) := fun both => Nat.not_lt.mpr both.2 user
  have same : ¬ ((flags s).filesys_lock = true ∧ PHYS_BASE ≤ fault_addr) := kernel
  rw [Vm.page_fault,if_neg same,if_pos user,page_fault,if_neg kernel,if_pos user,lock_acquire]
  rw [show (flags s).exception_lock = s.held .exception_lock from rfl]
  cases taken : s.held .exception_lock with
  | true => rfl
  | false =>
    obtain ⟨s₁,locked⟩ : ∃ s₁, s₁ = { s with held := Function.update s.held .exception_lock true } := ⟨_,rfl⟩
    have held : s₁.held .exception_lock = true := by simp [locked]
    have outside₁ : s₁.held .page_lock = false := by simpa [locked] using outside
    simp only [Bool.false_eq_true,↓reduceIte,bind,Except.bind,exception_lock_flags,← locked]
    rw [show pagedir_get_page (flags s₁) t (fault_addr / PGSIZE) = pagedir_get_page s₁.vm t (fault_addr / PGSIZE) from rfl]
    have released : seen (fun s' => Outcome.returned (flags s')) (lock_release .exception_lock s₁) =
        .ok (.returned (flags { s with held := Function.update s.held .exception_lock false })) := by
      rw [lock_release,held,locked]
      simp [seen]
    cases pagedir_get_page s₁.vm t (fault_addr / PGSIZE) with
    | some frame =>
      dsimp only
      exact released.symm
    | none =>
      rw [show page_entry_lookup (flags s₁) (fault_addr / PGSIZE) t = page_entry_lookup s₁.vm (fault_addr / PGSIZE) t from rfl]
      dsimp only
      cases page_entry_lookup s₁.vm (fault_addr / PGSIZE) t with
      | none => rfl
      | some p =>
        dsimp only
        split
        · have moved : _ = seen flags (swapIn s₁ t p alloc) := swapIn_flags outside₁ held
          cases moves : Vm.swapIn (flags s₁) t p alloc with
          | error fault =>
            rw [moves] at moved
            cases result : swapIn s₁ t p alloc with
            | error stop =>
              rw [result] at moved
              exact congrArg Except.error (Except.error.inj moved)
            | ok s' =>
              rw [result] at moved
              cases moved
          | ok vm =>
            rw [moves] at moved
            cases result : swapIn s₁ t p alloc with
            | error stop =>
              rw [result] at moved
              cases moved
            | ok s' =>
              rw [result] at moved
              exact congrArg (fun vm => Except.ok (Outcome.returned vm)) (Except.ok.inj moved)
        · exact released.symm

/-! ### Balance -/

/-- The page of the fault is swapped out with no swap entry that the handler will find. -/
def Lost (s : Vm) (t : Tid) (fault_addr : Nat) : Prop :=
  fault_addr < PHYS_BASE ∧ pagedir_get_page s t (fault_addr / PGSIZE) = none ∧
    ∃ p ∈ page_entry_lookup s (fault_addr / PGSIZE) t, p.is_swapped = true ∧ ¬ Backed s t p.kpage

/-- The handler's swap-in gives `exception_lock` back, and keeps `swap_lock` when it
    finds no entry. -/
theorem swapIn_held (ran : swapIn s₁ t p alloc = .ok s') (free : s.held .exception_lock = false)
    (taken : s₁.held = Function.update s.held .exception_lock true) : s'.held = s.held ↔ Backed s₁.vm t p.kpage := by
  obtain ⟨⟨pages,s₂⟩,allocates,rest⟩ := bind_ok ran
  obtain ⟨s₃,swaps,rest⟩ := bind_ok rest
  obtain ⟨held,backed⟩ := palloc_get_page_ok allocates
  rw [← backed]
  split at rest
  · cases rest
  · next vm _ _ =>
    rcases swap_disk_to_frame_ok swaps with ⟨missing,unheld,kept⟩ | ⟨found,kept⟩
    · have swap : s'.held .swap_lock = true := by
        rw [lock_release] at rest
        split at rest
        · cases rest
          simp [kept]
        · cases rest
      have before : s.held .swap_lock = false := by simpa [held,taken] using unheld
      refine iff_of_false (fun same => ?_) (fun found => found missing)
      rw [same,before] at swap
      cases swap
    · have same : s₃.held = Function.update s.held .exception_lock true := by rw [kept,held,taken]
      refine iff_of_true ?_ found
      rw [lock_release_ok free rest same]

theorem page_fault_held (ran : page_fault s t fault_addr alloc = .ok s') : s'.held = s.held ↔ ¬ Lost s.vm t fault_addr := by
  rw [page_fault] at ran
  split at ran
  · next kernel =>
    cases ran
    exact iff_of_true rfl fun lost => Nat.not_lt.mpr kernel.2 lost.1
  · split at ran
    · next user =>
      obtain ⟨s₁,takes,rest⟩ := bind_ok ran
      obtain ⟨free,rfl⟩ := lock_acquire_ok takes
      dsimp only at rest
      split at rest
      · next mapped =>
        refine iff_of_true (by rw [lock_release_ok free rest rfl]) fun lost => ?_
        have absent := lost.2.1
        rw [mapped] at absent
        cases absent
      · next unmapped =>
        split at rest
        · cases rest
        · next p entry =>
          split at rest
          · next swapped =>
            rw [swapIn_held rest free rfl]
            constructor
            · rintro backed ⟨-,-,q,entry',-,lost⟩
              rw [Option.mem_def,entry] at entry'
              cases entry'
              exact lost backed
            · intro kept
              by_contra lost
              exact kept ⟨user,unmapped,p,entry,swapped,lost⟩
          · next resident =>
            refine iff_of_true (by rw [lock_release_ok free rest rfl]) ?_
            rintro ⟨-,-,q,entry',swapped,-⟩
            rw [Option.mem_def,entry] at entry'
            cases entry'
            exact resident swapped
    · cases ran

/-- From any state, held locks included: evictions always leave the locks as they
    were; a swap-in does exactly when there is an entry for its key, and the handler
    of a page fault exactly when it does not look for one in vain. -/
theorem balanced_iff (s : Locked) :
    (∀ kpage t victim s', swap_frame_to_disk s kpage t victim = .ok s' → s'.held = s.held) ∧
    (∀ dst kpage t s', swap_disk_to_frame s dst kpage t = .ok s' →
      (s'.held = s.held ↔ swap_entry_lookup s.vm kpage t ≠ none)) ∧
    (∀ k s', page_swap_to_disk s = .ok (k,s') → s'.held = s.held) ∧
    ∀ t fault_addr alloc s', page_fault s t fault_addr alloc = .ok s' → (s'.held = s.held ↔ ¬ Lost s.vm t fault_addr) := by
  refine ⟨?_,?_,?_,fun t fault_addr alloc s' ran => page_fault_held ran⟩
  · intro kpage t victim s' ran
    obtain ⟨slot,rfl⟩ := swap_frame_to_disk_ok ran
    rfl
  · intro dst kpage t s' ran
    rcases swap_disk_to_frame_ok ran with ⟨missing,free,kept⟩ | ⟨found,kept⟩
    · refine iff_of_false (fun same => ?_) (fun found => found missing)
      have taken := congrFun (same.symm.trans kept) .swap_lock
      rw [free,Function.update_self] at taken
      cases taken
    · exact iff_of_true kept found
  · intro k s' ran
    obtain ⟨f,-,held,-⟩ := page_swap_to_disk_ok ran
    exact held

/-- Just after boot there is no entry for any key. -/
theorem swap_lock_kept : ∃ s s', s = { vm := boot 1 1, held := fun _ => false } ∧
    swap_disk_to_frame s 0 0 0 = .ok s' ∧ s.held .swap_lock = false ∧ s'.held .swap_lock = true :=
  ⟨_,_,rfl,rfl,rfl,rfl⟩

end Pintos.LockBalance
