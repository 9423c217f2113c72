import Pintos.Paths
import Mathlib.Data.List.Nodup

/-!
What a process holds when it dies. `thread_exit` releases a lock only if the process
was marked as its holder, and no system call marks it, so a path that is cut inside a
lock leaves the lock held for ever. `held` reads off the rest of a path which locks the
process holds; exits stand where that is none, but for the one of `page_fault` on a
kernel address, which can come in the middle of any path.
-/
namespace Pintos.HeldLocks
open Pintos.Machines Pintos.Paths
set_option linter.unusedSimpArgs false
variable {s s' : Sys} {t u : Tid} {l : Lock} {i : Instr} {code rest : List Instr} {choice : Choice} {e : Event}

/-- The locks that are held where a path has this rest. -/
def held : List Instr → List Lock
  | [] => []
  | .acquire l :: rest => (held rest).erase l
  | .release l :: rest => l :: held rest
  | .lookup _ :: rest => .exception_lock :: held rest
  | .swap_lookup _ :: rest => .swap_lock :: held rest
  | _ :: rest => held rest

/-- What is acquired is released. -/
def Balanced : List Instr → Prop
  | [] => True
  | .acquire l :: rest => l ∈ held rest ∧ Balanced rest
  | _ :: rest => Balanced rest

/-- The path checks addresses and exits only where no lock is held, or behind a byte of
    the first page, which no process reaches. -/
def Harmless : List Instr → Prop
  | [] => True
  | .check _ :: rest => held rest = [] ∧ Harmless rest
  | .exit _ :: rest => held rest = [] ∧ Harmless rest
  | .touch addr n _ :: rest => addr < PGSIZE ∧ 0 < n ∨ Harmless rest
  | .install upage _ :: rest => upage ≠ 0 ∧ Harmless rest
  | _ :: rest => Harmless rest

/-- A path with its lock, and nothing to check inside of it. -/
example : Balanced (locked [.evict]) ∧ Harmless (locked [.evict]) ∧ held (locked [.evict]) = [] := by
  simp [Balanced,Harmless,held,locked]

structure Inv (s : Sys) : Prop where
  balanced : ∀ t, Balanced (s.pc t)
  harmless : ∀ t, Harmless (s.pc t)
  once : ∀ t, (held (s.pc t)).Nodup
  holder : ∀ l t, s.holder l = some t ↔ l ∈ held (s.pc t)
  flags : ∀ t, s.sys_lock_hold t = false ∧ s.file_lock_hold t = false
  first : ∀ t, s.pagedir t 0 = none ∧ s.pagetable t 0 = none
  idle : ∀ t, s.live t = false → s.pc t = []
  gone : ∀ t, s.dead t = true → s.live t = false

def HoldsNone (s : Sys) (t : Tid) : Prop := ∀ l, s.holder l ≠ some t

/-- The conditions on a step: `page_fault` on a kernel address, with `filesys_lock` free,
    finds a process that holds no lock; and `swap_disk_to_frame` finds the entry. -/
def Outside (s : Sys) (t : Tid) : List Instr → Prop
  | .page_fault fault_addr :: _ => PHYS_BASE ≤ fault_addr → check_filesys_lock s = false → HoldsNone s t
  | .swap_lookup upage :: _ => ∀ p ∈ s.pagetable t upage, p.kpage ∈ s.swap_table t
  | _ => True
def FaultsOutside (s : Sys) : Event → Prop
  | .run t _ => Outside s t (s.pc t)
  | .start .. | .syscall .. | .fault .. | .kill _ => True

instance (s : Sys) (t : Tid) : Decidable (HoldsNone s t) :=
  decidable_of_iff (∀ l ∈ ([.syscall_lock,.filesys_lock,.exception_lock,.page_lock,.swap_lock] : List Lock), s.holder l ≠ some t)
    ⟨fun none l => none l (by cases l <;> decide),fun none l _ => none l⟩

instance (s : Sys) (t : Tid) : (code : List Instr) → Decidable (Outside s t code)
  | .page_fault fault_addr :: _ =>
    inferInstanceAs (Decidable (PHYS_BASE ≤ fault_addr → check_filesys_lock s = false → HoldsNone s t))
  | .swap_lookup upage :: _ => inferInstanceAs (Decidable (∀ p ∈ s.pagetable t upage, p.kpage ∈ s.swap_table t))
  | [] | .check _ :: _ | .touch .. :: _ | .acquire _ :: _ | .release _ :: _ | .exit _ :: _ | .lookup _ :: _
  | .get_page :: _ | .evict :: _ | .swap_insert :: _ | .map _ :: _ | .install .. :: _ => .isTrue trivial

instance (s : Sys) : (e : Event) → Decidable (FaultsOutside s e)
  | .run t _ => inferInstanceAs (Decidable (Outside s t (s.pc t)))
  | .start .. | .syscall .. | .fault .. | .kill _ => .isTrue trivial

/-! ### Steps inside a process -/

/-- Nothing but the code and the memory of processes changes. -/
structure Frame (s s' : Sys) : Prop where
  holder : s'.holder = s.holder
  sys_lock_hold : s'.sys_lock_hold = s.sys_lock_hold
  file_lock_hold : s'.file_lock_hold = s.file_lock_hold
  live : s'.live = s.live
  dead : s'.dead = s.dead

theorem inv_local (inv : Inv s) (alive : s.live t = true) (frame : Frame s s')
    (pc : ∀ u, s'.pc u = if u = t then code else s.pc u) (locks : held code = held (s.pc t)) (balanced : Balanced code)
    (harmless : Harmless code) (first : ∀ u, s'.pagedir u 0 = none ∧ s'.pagetable u 0 = none) : Inv s' := by
  have same : ∀ u, held (s'.pc u) = held (s.pc u) := by
    intro u
    rw [pc]
    split
    · next self => rw [self,locks]
    · rfl
  refine ⟨?_,?_,?_,?_,?_,first,?_,?_⟩
  · intro u
    rw [pc]
    split
    · exact balanced
    · exact inv.balanced u
  · intro u
    rw [pc]
    split
    · exact harmless
    · exact inv.harmless u
  · intro u
    rw [same]
    exact inv.once u
  · intro l u
    rw [same,frame.holder]
    exact inv.holder l u
  · rw [frame.sys_lock_hold,frame.file_lock_hold]
    exact inv.flags
  · intro u still
    rw [frame.live] at still
    rw [pc]
    split
    · next self =>
      rw [self,alive] at still
      cases still
    · exact inv.idle u still
  · rw [frame.dead,frame.live]
    exact inv.gone

/-- What `thread_exit` leaves when the process is marked as the holder of no lock. -/
def exited (s : Sys) (t : Tid) : Sys :=
  { s with
    pagedir := fun u v => if u = t then none else s.pagedir u v
    pc := fun u => if u = t then [] else s.pc u
    live := fun u => if u = t then false else s.live u
    dead := fun u => if u = t then true else s.dead u }

theorem thread_exit_eq (s : Sys) (t : Tid) (unmarked : s.sys_lock_hold t = false ∧ s.file_lock_hold t = false) :
    thread_exit s t = some (exited s t) := by
  simp [thread_exit,exited,Sys.setPc,unmarked.1,unmarked.2]

theorem thread_exit_spec (inv : Inv s) (ran : thread_exit (s.setPc t rest) t = some s') :
    s'.holder = s.holder ∧ s'.sys_lock_hold = s.sys_lock_hold ∧ s'.file_lock_hold = s.file_lock_hold ∧
    (∀ u, s'.pc u = if u = t then [] else s.pc u) ∧ (∀ u, s'.live u = if u = t then false else s.live u) ∧
    (∀ u, s'.dead u = if u = t then true else s.dead u) ∧
    ∀ u, s'.pagedir u 0 = none ∧ s'.pagetable u 0 = none := by
  rw [thread_exit_eq (s.setPc t rest) t (inv.flags t)] at ran
  obtain rfl := Option.some.inj ran
  refine ⟨rfl,rfl,rfl,?_,fun u => rfl,fun u => rfl,?_⟩
  · intro u
    by_cases self : u = t <;> simp [exited,Sys.setPc,self]
  · intro u
    refine ⟨?_,(inv.first u).2⟩
    by_cases self : u = t
    · simp [exited,self]
    · simp [exited,Sys.setPc,self,(inv.first u).1]

/-- A process that holds no lock dies. -/
theorem inv_exit (inv : Inv s) (free : held (s.pc t) = []) (ran : thread_exit (s.setPc t rest) t = some s') : Inv s' := by
  obtain ⟨holder,sys,file,pc,live,dead,first⟩ := thread_exit_spec inv ran
  have same : ∀ u, held (s'.pc u) = held (s.pc u) := by
    intro u
    rw [pc]
    split
    · next self => rw [self,free]; rfl
    · rfl
  refine ⟨?_,?_,?_,?_,?_,first,?_,?_⟩
  · intro u
    rw [pc]
    split
    · trivial
    · exact inv.balanced u
  · intro u
    rw [pc]
    split
    · trivial
    · exact inv.harmless u
  · intro u
    rw [same]
    exact inv.once u
  · intro l u
    rw [same,holder]
    exact inv.holder l u
  · rw [sys,file]
    exact inv.flags
  · intro u still
    rw [live] at still
    rw [pc]
    split
    · rfl
    · next other =>
      rw [if_neg other] at still
      exact inv.idle u still
  · intro u died
    rw [dead] at died
    rw [live]
    split
    · rfl
    · next other =>
      rw [if_neg other] at died
      exact inv.gone u died

/-- The process goes on to the rest of its path with another set of locks. -/
theorem inv_setHolder {v : Option Tid} (inv : Inv s) (alive : s.live t = true) (balanced : Balanced rest)
    (harmless : Harmless rest) (once : (held rest).Nodup)
    (holder : ∀ m u, ((s.setPc t rest).setHolder l v).holder m = some u ↔ m ∈ held ((s.setPc t rest).pc u)) :
    Inv ((s.setPc t rest).setHolder l v) := by
  refine ⟨?_,?_,?_,holder,inv.flags,inv.first,?_,inv.gone⟩
  · intro u
    by_cases self : u = t
    · simpa [Sys.setHolder,Sys.setPc,self] using balanced
    · simpa [Sys.setHolder,Sys.setPc,self] using inv.balanced u
  · intro u
    by_cases self : u = t
    · simpa [Sys.setHolder,Sys.setPc,self] using harmless
    · simpa [Sys.setHolder,Sys.setPc,self] using inv.harmless u
  · intro u
    by_cases self : u = t
    · simpa [Sys.setHolder,Sys.setPc,self] using once
    · simpa [Sys.setHolder,Sys.setPc,self] using inv.once u
  · intro u still
    by_cases self : u = t
    · subst self
      exact absurd still (by simp [Sys.setHolder,Sys.setPc,alive])
    · simpa [Sys.setHolder,Sys.setPc,self] using inv.idle u still

theorem inv_acquire (inv : Inv s) (alive : s.live t = true) (path : s.pc t = .acquire l :: rest)
    (ran : lock_acquire (s.setPc t rest) t l = some s') : Inv s' := by
  unfold lock_acquire at ran
  split at ran
  · next free =>
    obtain rfl := Option.some.inj ran
    obtain ⟨released,balanced⟩ : l ∈ held rest ∧ Balanced rest := by simpa [path,Balanced] using inv.balanced t
    have harmless : Harmless rest := by simpa [path,Harmless] using inv.harmless t
    have before : ∀ m, s.holder m = some t ↔ m ∈ (held rest).erase l := by
      intro m
      rw [inv.holder,path]
      rfl
    have out : l ∉ (held rest).erase l := by
      rw [← before,show s.holder l = none from free]
      simp
    have perm : (held rest).Perm (l :: (held rest).erase l) := List.perm_cons_erase released
    have once : (held rest).Nodup := by
      rw [perm.nodup_iff,List.nodup_cons]
      refine ⟨out,?_⟩
      have was := inv.once t
      rwa [path] at was
    refine inv_setHolder inv alive balanced harmless once ?_
    intro m u
    by_cases taken : m = l
    · subst taken
      by_cases self : u = t
      · simpa [Sys.setHolder,Sys.setPc,self] using released
      · have unheld : m ∉ held (s.pc u) := by
          rw [← inv.holder,show s.holder m = none from free]
          simp
        simp [Sys.setHolder,Sys.setPc,self,unheld,Ne.symm self]
    · by_cases self : u = t
      · subst self
        simpa [Sys.setHolder,Sys.setPc,taken,List.mem_erase_of_ne taken] using before m
      · simpa [Sys.setHolder,Sys.setPc,taken,self] using inv.holder m u
  · cases ran

theorem inv_release (inv : Inv s) (alive : s.live t = true) (path : s.pc t = .release l :: rest)
    (ran : lock_release (s.setPc t rest) t l = some s') : Inv s' := by
  unfold lock_release at ran
  split at ran
  · next mine =>
    obtain rfl := Option.some.inj ran
    have mine : s.holder l = some t := mine
    have balanced : Balanced rest := by simpa [path,Balanced] using inv.balanced t
    have harmless : Harmless rest := by simpa [path,Harmless] using inv.harmless t
    obtain ⟨out,once⟩ : l ∉ held rest ∧ (held rest).Nodup := by
      have was := inv.once t
      rwa [path,held,List.nodup_cons] at was
    refine inv_setHolder inv alive balanced harmless once ?_
    intro m u
    by_cases freed : m = l
    · subst freed
      by_cases self : u = t
      · simpa [Sys.setHolder,Sys.setPc,self] using out
      · have unheld : m ∉ held (s.pc u) := by
          rw [← inv.holder,mine]
          simpa using Ne.symm self
        simp [Sys.setHolder,Sys.setPc,self,unheld]
    · by_cases self : u = t
      · subst self
        have was := inv.holder m u
        rw [path,held,List.mem_cons] at was
        simpa [Sys.setHolder,Sys.setPc,freed] using was
      · simpa [Sys.setHolder,Sys.setPc,freed,self] using inv.holder m u
  · cases ran

theorem enter_pc (s : Sys) (t u : Tid) (code rest : List Instr) :
    ((s.setPc t rest).enter t code).pc u = if u = t then code ++ rest else s.pc u := by
  by_cases self : u = t <;> simp [Sys.enter,Sys.setPc,self]

/-- New instructions that leave the process with the locks it has. -/
theorem inv_enter (inv : Inv s) (alive : s.live t = true) (locks : held (code ++ rest) = held (s.pc t))
    (balanced : Balanced (code ++ rest)) (harmless : Harmless (code ++ rest)) :
    Inv ((s.setPc t rest).enter t code) :=
  inv_local inv alive ⟨rfl,rfl,rfl,rfl,rfl⟩ (fun u => enter_pc s t u code rest) locks balanced harmless inv.first

/-- The process goes on, with other memory. -/
theorem inv_memory (inv : Inv s) (alive : s.live t = true) (frame : Frame s s')
    (pc : s'.pc = (s.setPc t rest).pc) (locks : held rest = held (s.pc t))
    (balanced : Balanced rest) (harmless : Harmless rest)
    (first : ∀ u, s'.pagedir u 0 = none ∧ s'.pagetable u 0 = none) : Inv s' :=
  inv_local inv alive frame (fun u => by rw [pc]; rfl) locks balanced harmless first

theorem first_unreached (inv : Inv s) {addr : Nat} {write : Bool} (reached : Paths.reaches (s.setPc t rest) t addr write = true) :
    ¬ addr < PGSIZE := by
  intro below
  have zero : addr / PGSIZE = 0 := Nat.div_eq_of_lt below
  have user : addr < PHYS_BASE := Nat.lt_trans below (by decide)
  simp [Paths.reaches,user,zero,Sys.setPc,(inv.first t).1] at reached

theorem entry_above (inv : Inv s) {upage : Nat} {p : PageEntry} (found : s.pagetable t upage = some p) : upage ≠ 0 := by
  rintro rfl
  rw [(inv.first t).2] at found
  cases found

/-- `page_fault`, once it has its lock. -/
theorem inv_lookup (inv : Inv s) (alive : s.live t = true) {fault_addr : Nat} (path : s.pc t = .lookup fault_addr :: rest)
    (ran : exec (s.setPc t rest) t choice (.lookup fault_addr) = some s') : Inv s' := by
  have balanced : Balanced rest := by simpa [path,Balanced] using inv.balanced t
  have harmless : Harmless rest := by simpa [path,Harmless] using inv.harmless t
  simp only [exec] at ran
  split at ran
  · obtain rfl := Option.some.inj ran
    exact inv_enter inv alive (by rw [path]; rfl) balanced harmless
  · split at ran
    · obtain rfl := Option.some.inj ran
      exact inv_enter inv alive (by rw [path]; rfl) balanced (.inl (by decide))
    · split at ran
      · obtain rfl := Option.some.inj ran
        refine inv_enter inv alive ?_ ?_ harmless
        · rw [path]
          simp [swapIn,held]
        · exact ⟨by simp [held],balanced⟩
      · obtain rfl := Option.some.inj ran
        exact inv_enter inv alive (by rw [path]; rfl) balanced harmless

theorem inv_evict (inv : Inv s) (alive : s.live t = true) (path : s.pc t = .evict :: rest)
    (ran : exec (s.setPc t rest) t choice .evict = some s') : Inv s' := by
  have balanced : Balanced rest := by simpa [path,Balanced] using inv.balanced t
  have harmless : Harmless rest := by simpa [path,Harmless] using inv.harmless t
  simp only [exec] at ran
  split at ran
  · cases ran
  · next p found =>
    split at ran
    · cases ran
    · obtain rfl := Option.some.inj ran
      have above := entry_above inv (t := choice.victim.1) found
      refine inv_memory inv alive ⟨rfl,rfl,rfl,rfl,rfl⟩ rfl (by rw [path]; rfl) balanced harmless ?_
      intro u
      constructor
      · simp [Sys.setEntry,Sys.setPte,Sys.setPc,(inv.first u).1]
      · simpa [Sys.setEntry,Sys.setPte,Sys.setPc,Ne.symm above] using (inv.first u).2

theorem inv_map (inv : Inv s) (alive : s.live t = true) {upage : Nat} (path : s.pc t = .map upage :: rest)
    (ran : exec (s.setPc t rest) t choice (.map upage) = some s') : Inv s' := by
  have balanced : Balanced rest := by simpa [path,Balanced] using inv.balanced t
  have harmless : Harmless rest := by simpa [path,Harmless] using inv.harmless t
  simp only [exec] at ran
  split at ran
  · cases ran
  · next p found =>
    have above := entry_above inv (t := t) found
    split at ran
    · cases ran
    · split at ran
      all_goals
        obtain rfl := Option.some.inj ran
        refine inv_memory inv alive ⟨rfl,rfl,rfl,rfl,rfl⟩ rfl (by rw [path]; rfl) balanced harmless ?_
        intro u
        simpa [Sys.setEntry,Sys.setPte,Sys.setPc,Ne.symm above] using inv.first u

theorem inv_install (inv : Inv s) (alive : s.live t = true) {upage : Nat} {writable : Bool}
    (path : s.pc t = .install upage writable :: rest)
    (ran : exec (s.setPc t rest) t choice (.install upage writable) = some s') : Inv s' := by
  have balanced : Balanced rest := by simpa [path,Balanced] using inv.balanced t
  obtain ⟨above,harmless⟩ : upage ≠ 0 ∧ Harmless rest := by simpa [path,Harmless] using inv.harmless t
  simp only [exec] at ran
  split at ran
  · obtain rfl := Option.some.inj ran
    exact inv_memory inv alive ⟨rfl,rfl,rfl,rfl,rfl⟩ rfl (by rw [path]; rfl) balanced harmless inv.first
  · split at ran
    all_goals
      obtain rfl := Option.some.inj ran
      refine inv_memory inv alive ⟨rfl,rfl,rfl,rfl,rfl⟩ rfl (by rw [path]; rfl) balanced harmless ?_
      intro u
      simpa [Sys.setEntry,Sys.setPte,Sys.setPc,Ne.symm above] using inv.first u

theorem inv_exec (inv : Inv s) (alive : s.live t = true) (path : s.pc t = i :: rest) (meets : FaultsOutside s (.run t choice))
    (ran : exec (s.setPc t rest) t choice i = some s') : Inv s' := by
  have goes : held rest = held (s.pc t) → Balanced rest → Harmless rest → Inv (s.setPc t rest) := by
    intro locks balanced harmless
    exact inv_memory inv alive ⟨rfl,rfl,rfl,rfl,rfl⟩ rfl locks balanced harmless inv.first
  have balanced := inv.balanced t
  have harmless := inv.harmless t
  rw [path] at balanced harmless
  cases i with
  | check addr =>
    simp only [exec] at ran
    split at ran
    · obtain rfl := Option.some.inj ran
      exact goes (by rw [path]; rfl) balanced harmless.2
    · exact inv_exit inv (by rw [path]; exact harmless.1) ran
  | touch addr n write =>
    cases n with
    | zero =>
      obtain rfl := Option.some.inj ran
      exact goes (by rw [path]; rfl) balanced (harmless.resolve_left (fun first => Nat.lt_irrefl 0 first.2))
    | succ n =>
      simp only [exec] at ran
      split at ran
      · next reached =>
        obtain rfl := Option.some.inj ran
        have later := harmless.resolve_left (fun first => first_unreached inv reached first.1)
        exact inv_enter inv alive (by rw [path]; rfl) balanced (.inr later)
      · obtain rfl := Option.some.inj ran
        exact inv_enter inv alive (by rw [path]; rfl) balanced harmless
  | acquire l => exact inv_acquire inv alive path ran
  | release l => exact inv_release inv alive path ran
  | exit status => exact inv_exit inv (by rw [path]; exact harmless.1) ran
  | page_fault fault_addr =>
    simp only [exec] at ran
    split at ran
    · obtain rfl := Option.some.inj ran
      exact goes (by rw [path]; rfl) balanced harmless
    · next unlocked =>
      split at ran
      · obtain rfl := Option.some.inj ran
        refine inv_enter inv alive ?_ ⟨by simp [held],balanced⟩ harmless
        rw [path]
        simp [held]
      · next kernel =>
        refine inv_exit inv ?_ ran
        have above := Nat.not_lt.mp kernel
        have free : check_filesys_lock s = false := by
          simpa [check_filesys_lock,Sys.setPc,above] using unlocked
        simp only [FaultsOutside,path,Outside] at meets
        refine List.eq_nil_iff_forall_not_mem.mpr ?_
        intro l member
        exact meets above free l ((inv.holder l t).mpr member)
  | lookup fault_addr => exact inv_lookup inv alive path ran
  | get_page =>
    simp only [exec] at ran
    split at ran
    · obtain rfl := Option.some.inj ran
      exact inv_memory inv alive ⟨rfl,rfl,rfl,rfl,rfl⟩ rfl (by rw [path]; rfl) balanced harmless inv.first
    · obtain rfl := Option.some.inj ran
      refine inv_enter inv alive ?_ ?_ harmless
      · rw [path]
        simp [page_swap_to_disk,held]
      · exact ⟨by simp [held],by simp [held],balanced⟩
  | evict => exact inv_evict inv alive path ran
  | swap_insert =>
    obtain rfl := Option.some.inj ran
    exact inv_memory inv alive ⟨rfl,rfl,rfl,rfl,rfl⟩ rfl (by rw [path]; rfl) balanced harmless inv.first
  | swap_lookup upage =>
    simp only [exec] at ran
    simp only [FaultsOutside,path,Outside] at meets
    split at ran
    · cases ran
    · next p found =>
      rw [if_pos (by exact meets p found)] at ran
      obtain rfl := Option.some.inj ran
      refine inv_local inv alive ⟨rfl,rfl,rfl,rfl,rfl⟩ (fun u => enter_pc s t u _ rest) (by rw [path]; rfl) balanced harmless
        inv.first
  | map upage => exact inv_map inv alive path ran
  | install upage writable => exact inv_install inv alive path ran

/-! ### The code of system calls -/

/-- Code that leaves a process with the locks it had, and exits nowhere. -/
structure Neutral (code : List Instr) : Prop where
  held : ∀ rest, held (code ++ rest) = held rest
  balanced : ∀ rest, Balanced rest → Balanced (code ++ rest)
  harmless : ∀ rest, Harmless rest → Harmless (code ++ rest)
/-- A whole path. -/
structure Path (code : List Instr) : Prop where
  held : held code = []
  balanced : Balanced code
  harmless : Harmless code

theorem neutral_nil : Neutral [] := ⟨fun _ => rfl,fun _ balanced => balanced,fun _ harmless => harmless⟩

theorem neutral_append {more : List Instr} (first : Neutral code) (second : Neutral more) : Neutral (code ++ more) where
  held rest := by rw [List.append_assoc,first.held,second.held]
  balanced rest balanced := by
    rw [List.append_assoc]
    exact first.balanced _ (second.balanced rest balanced)
  harmless rest harmless := by
    rw [List.append_assoc]
    exact first.harmless _ (second.harmless rest harmless)

theorem neutral_touch (addr n : Nat) (write : Bool) : Neutral [.touch addr n write] :=
  ⟨fun _ => rfl,fun _ balanced => balanced,fun _ harmless => .inr harmless⟩

theorem neutral_bytes (touched : List Nat) : Neutral (bytes touched) := by
  induction touched with
  | nil => exact neutral_nil
  | cons addr later ih => exact neutral_append (neutral_touch addr 1 false) ih

theorem neutral_lock (l : Lock) (inside : Neutral code) : Neutral ([.acquire l] ++ code ++ [.release l]) where
  held rest := by
    rw [List.append_assoc,List.append_assoc]
    show (held (code ++ ([.release l] ++ rest))).erase l = held rest
    rw [inside.held]
    simp [held]
  balanced rest balanced := by
    rw [List.append_assoc,List.append_assoc]
    refine ⟨?_,inside.balanced _ balanced⟩
    show l ∈ held (code ++ ([.release l] ++ rest))
    rw [inside.held]
    exact List.mem_cons_self
  harmless rest harmless := by
    rw [List.append_assoc,List.append_assoc]
    exact inside.harmless _ harmless

theorem neutral_filesys (touched : List Nat) : Neutral (filesys touched) := neutral_lock _ (neutral_bytes touched)
theorem neutral_locked (inside : Neutral code) : Neutral (locked code) := neutral_lock _ inside

theorem path_nil : Path [] := ⟨rfl,trivial,trivial⟩
theorem path_exit (status : Int) : Path [.exit status] := ⟨rfl,trivial,rfl,trivial⟩
theorem path_check (addr : Nat) (later : Path rest) : Path (.check addr :: rest) :=
  ⟨later.held,later.balanced,later.held,later.harmless⟩
theorem path_append (first : Neutral code) (later : Path rest) : Path (code ++ rest) where
  held := (first.held rest).trans later.held
  balanced := first.balanced rest later.balanced
  harmless := first.harmless rest later.harmless
theorem path_neutral (neutral : Neutral code) : Path code := by
  have whole := path_append neutral path_nil
  rwa [List.append_nil] at whole

theorem path_arguments (esp top : Nat) (later : Path rest) : Path (arguments esp top ++ rest) :=
  path_check _ (path_append (neutral_touch _ _ _) later)

theorem path_exec (file n : Nat) : Path (syscall_exec file n) := by
  have inside := path_neutral (neutral_locked (neutral_touch file (n + 1) false))
  have reads : Path ([.touch file (n + 1) false] ++ (.check (lastByte file n) :: locked [.touch file (n + 1) false])) :=
    path_append (neutral_touch file (n + 1) false) (path_check _ inside)
  exact path_check _ reads

theorem path_create (file n : Nat) (touched : List Nat) : Path (syscall_create file n touched) := by
  unfold syscall_create
  split
  · exact path_exit _
  · refine path_check _ (path_append (neutral_touch file 1 false) ?_)
    split
    · exact path_exit _
    · exact path_neutral (neutral_locked (neutral_filesys touched))

theorem path_open (file n : Nat) (compared touched : List Nat) : Path (syscall_open file n compared touched) := by
  unfold syscall_open
  split
  · exact path_exit _
  · refine path_check _ (path_append (neutral_touch file 1 false) ?_)
    split
    · exact path_nil
    · exact path_neutral (neutral_locked (neutral_append (neutral_bytes compared) (neutral_filesys touched)))

theorem path_read (fd : Int) (buffer length : Nat) (found : Bool) (n : Nat) : Path (syscall_read fd buffer length found n) := by
  refine path_check _ (path_check _ ?_)
  split
  · exact path_neutral (neutral_touch buffer 1 true)
  · split
    · exact path_neutral (neutral_locked (neutral_touch buffer (min n length) true))
    · exact path_nil

theorem path_write (fd : Int) (buffer length : Nat) (found : Bool) (n : Nat) : Path (syscall_write fd buffer length found n) := by
  refine path_check _ (path_check _ (path_neutral (neutral_locked ?_)))
  split
  · exact neutral_touch buffer length false
  · split
    · exact neutral_touch buffer (min n length) false
    · exact neutral_nil

theorem path_handler (esp : Nat) (c : Call) : Path (syscall_handler esp c) := by
  refine path_check _ (path_append (neutral_touch esp 4 false) ?_)
  cases c with
  | exit status => exact path_arguments esp 4 (path_exit status)
  | exec file n => exact path_arguments esp 4 (path_exec file n)
  | wait => exact path_arguments esp 4 path_nil
  | create file n touched => exact path_arguments esp 8 (path_create file n touched)
  | remove touched => exact path_arguments esp 4 (path_neutral (neutral_locked (neutral_filesys touched)))
  | «open» file n compared touched => exact path_arguments esp 4 (path_open file n compared touched)
  | filesize => exact path_arguments esp 4 (path_neutral (neutral_locked neutral_nil))
  | read fd buffer length found n => exact path_arguments esp 12 (path_read fd buffer length found n)
  | write fd buffer length found n => exact path_arguments esp 12 (path_write fd buffer length found n)
  | seek => exact path_arguments esp 8 (path_neutral (neutral_locked neutral_nil))
  | tell => exact path_arguments esp 4 path_nil
  | close => exact path_arguments esp 4 path_nil

theorem neutral_segments {segments : List (Nat × Bool)} (above : ∀ p ∈ segments, p.1 ≠ 0) :
    Neutral (segments.flatMap (fun p => [.get_page,.install p.1 p.2])) := by
  induction segments with
  | nil => exact neutral_nil
  | cons p later ih =>
    have first : Neutral [.get_page,.install p.1 p.2] :=
      ⟨fun _ => rfl,fun _ balanced => balanced,fun _ harmless => ⟨above p List.mem_cons_self,harmless⟩⟩
    exact neutral_append first (ih (fun q member => above q (List.mem_cons_of_mem p member)))

theorem path_start {segments : List (Nat × Bool)} (above : ∀ p ∈ segments, p.1 ≠ 0) (esp n : Nat) (success : Bool) :
    Path (start_process segments esp n success) := by
  have loads := neutral_append (neutral_filesys []) (neutral_segments above)
  have starts := neutral_append (neutral_append loads (neutral_touch esp n true)) (neutral_filesys [])
  refine path_append starts ?_
  split
  · exact path_nil
  · exact path_exit _

/-! ### Whole runs -/

/-- A process enters the kernel. -/
theorem inv_path (inv : Inv s) (alive : s.live t = true) (user : s.pc t = []) (path : Path code) : Inv (s.setPc t code) := by
  refine inv_memory inv alive ⟨rfl,rfl,rfl,rfl,rfl⟩ rfl ?_ path.balanced path.harmless inv.first
  rw [path.held,user]
  rfl

theorem inv_start (inv : Inv s) (fresh : s.dead t = false) (idle : s.pc t = []) (path : Path code) :
    Inv ({ s with live := fun u => if u = t then true else s.live u }.setPc t code) := by
  have born : Inv { s with live := fun u => if u = t then true else s.live u } := by
    refine ⟨inv.balanced,inv.harmless,inv.once,inv.holder,inv.flags,inv.first,?_,?_⟩
    · intro u still
      by_cases self : u = t
      · rw [self]
        exact idle
      · exact inv.idle u (by simpa [self] using still)
    · intro u died
      have other : u ≠ t := by
        rintro rfl
        simp [fresh] at died
      simpa [other] using inv.gone u died
  exact inv_path born (by simp) idle path

theorem inv_step (inv : Inv s) (meets : FaultsOutside s e) (ran : step s e = some s') : Inv s' := by
  cases e with
  | start t segments esp n success =>
    simp only [step] at ran
    split at ran
    · next fresh =>
      obtain rfl := Option.some.inj ran
      exact inv_start inv fresh.2.1 (inv.idle t fresh.1) (path_start fresh.2.2 esp n success)
    · cases ran
  | syscall t esp c =>
    simp only [step] at ran
    split at ran
    · next user => exact Option.some.inj ran ▸ inv_path inv user.1 user.2 (path_handler esp c)
    · cases ran
  | fault t fault_addr =>
    simp only [step] at ran
    split at ran
    · next user => exact Option.some.inj ran ▸ inv_path inv user.1 user.2 ⟨rfl,trivial,trivial⟩
    · cases ran
  | kill t =>
    simp only [step] at ran
    split at ran
    · next user => exact Option.some.inj ran ▸ inv_path inv user.1 user.2 (path_exit (-1))
    · cases ran
  | run t choice =>
    simp only [step] at ran
    split at ran
    · cases ran
    · next i rest path =>
      have alive : s.live t = true := by
        by_contra still
        have idle := inv.idle t (by simpa using still)
        rw [path] at idle
        cases idle
      exact inv_exec inv alive path meets ran

theorem inv_boot (init_ram_pages : Nat) : Inv (boot init_ram_pages) where
  balanced _ := trivial
  harmless _ := trivial
  once _ := .nil
  holder l t := by simp [boot,held]
  flags _ := ⟨rfl,rfl⟩
  first _ := ⟨rfl,rfl⟩
  idle _ _ := rfl
  gone t died := rfl

/-- In every run whose faults on kernel addresses come outside the locks, and whose swap
    entries are found: a process that has died holds none of the locks. -/
theorem dead_hold_no_lock {init_ram_pages : Nat} (reached : Reaches (machine init_ram_pages) FaultsOutside s)
    (t : Tid) (died : s.dead t = true) (l : Lock) : s.holder l ≠ some t := by
  have inv : Inv s := by
    refine reaches_invariant Inv ?_ ?_ reached
    · intro s initial
      obtain rfl : s = boot init_ram_pages := initial
      exact inv_boot init_ram_pages
    · intro s e s' inv meets ran
      exact inv_step inv meets ran
  rw [ne_eq,inv.holder,inv.idle t (inv.gone t died)]
  exact List.not_mem_nil

def get (kpage : Nat) : Choice := { free := some kpage, victim := (0,0), alloc := true }
/-- A process with a page of code and a page of stack calls `write` on the console, and
    is about to touch the first byte. -/
def writes (buffer length : Nat) : List Event :=
  [.start 3 [(0x8048,false),(0xbffff,true)] 0xbfffffe0 0 true] ++ List.replicate 3 (.run 3 (get 6)) ++
    List.replicate 6 (.run 3 (get 7)) ++
    [.syscall 3 0xbfffffe0 (.write 1 buffer length false 0)] ++ List.replicate 23 (.run 3 (get 0))
/-- Meanwhile another process makes a call with a stack pointer that it has not mapped. -/
def otherDies : List Event :=
  writes 0x8048000 16 ++ [.start 4 [] 0xbfffffe0 0 true] ++ List.replicate 5 (.run 4 (get 0)) ++
    [.syscall 4 0x1000 .wait,.run 4 (get 0)]

theorem dead_hold_no_lock_bad_buffer : ∃ s, guardedRun step FaultsOutside (boot 1024) otherDies = some s ∧
    s.dead 4 = true ∧ s.holder .syscall_lock = some 3 ∧ ∀ l, s.holder l ≠ some 4 :=
  ⟨_,rfl,rfl,rfl,dead_hold_no_lock (guardedRun_reachable (boot 1024) step FaultsOutside otherDies rfl) 4 rfl⟩

/-- The bytes that the kernel reaches are touched one after the other. -/
theorem reaches_touch {k n : Nat} {write : Bool} {init_ram_pages : Nat} : ∀ {addr : Nat} {s : Sys},
    Reaches (machine init_ram_pages) Anything s → s.pc t = .touch addr (k + n) write :: rest →
    addr + k < 0x100000000 → (∀ j < k, Paths.reaches s t (addr + j) write = true) →
    Reaches (machine init_ram_pages) Anything (s.setPc t (.touch (addr + k) n write :: rest)) := by
  induction k with
  | zero =>
    intro addr s reached path _ _
    have same : s.setPc t (.touch (addr + 0) n write :: rest) = s := by
      simp only [Sys.setPc,Nat.add_zero]
      congr
      funext u
      split
      · next self => rw [self,path,Nat.zero_add]
      · rfl
    rw [same]
    exact reached
  | succ k ih =>
    intro addr s reached path small mapped
    have next : add addr 1 = addr + 1 := Nat.mod_eq_of_lt (by omega)
    have ran : step s (.run t (get 0)) = some (s.setPc t (.touch (addr + 1) (k + n) write :: rest)) := by
      have here : Paths.reaches (s.setPc t rest) t addr write = true := mapped 0 (Nat.succ_pos k)
      have count : k + 1 + n = k + n + 1 := by omega
      simp only [step,path,count,exec,here,↓reduceIte,next,Option.some.injEq]
      simp only [Sys.enter,Sys.setPc,↓reduceIte,List.cons_append,List.nil_append]
      congr
      funext u
      split <;> rfl
    have onward : (s.setPc t (.touch (addr + 1) (k + n) write :: rest)).pc t = .touch (addr + 1) (k + n) write :: rest := by
      simp [Sys.setPc]
    have ahead : ∀ j < k, Paths.reaches (s.setPc t (.touch (addr + 1) (k + n) write :: rest)) t (addr + 1 + j) write = true := by
      intro j below
      have there := mapped (j + 1) (by omega)
      rwa [show addr + (j + 1) = addr + 1 + j by omega] at there
    have later := ih (.next reached trivial ran) onward (by omega) ahead
    have same : (s.setPc t (.touch (addr + 1) (k + n) write :: rest)).setPc t (.touch (addr + 1 + k) n write :: rest) =
        s.setPc t (.touch (addr + (k + 1)) n write :: rest) := by
      rw [show addr + 1 + k = addr + (k + 1) by omega]
      simp only [Sys.setPc]
      congr
      funext u
      split <;> rfl
    rwa [same] at later

/-- A byte that the kernel does not reach and `page_fault` does not bring: the process
    dies with the locks it has. -/
theorem dies_inside {addr n : Nat} {write : Bool} {init_ram_pages : Nat}
    (reached : Reaches (machine init_ram_pages) Anything s) (path : s.pc t = .touch addr (n + 1) write :: rest)
    (unreached : Paths.reaches s t addr write = false) (kernel : PHYS_BASE ≤ addr) (free : s.holder .filesys_lock = none)
    (unmarked : s.sys_lock_hold t = false ∧ s.file_lock_hold t = false) :
    ∃ s', Reaches (machine init_ram_pages) Anything s' ∧ s'.dead t = true ∧ s'.holder = s.holder := by
  have faults : step s (.run t (get 0)) = some ((s.setPc t rest).enter t [.page_fault addr,.touch addr (n + 1) write]) := by
    have here : Paths.reaches (s.setPc t rest) t addr write = false := unreached
    simp [step,path,exec,here]
  have exits : step ((s.setPc t rest).enter t [.page_fault addr,.touch addr (n + 1) write]) (.run t (get 0)) =
      some (exited (((s.setPc t rest).enter t [.page_fault addr,.touch addr (n + 1) write]).setPc t
        (.touch addr (n + 1) write :: rest)) t) := by
    refine Eq.trans ?_ (thread_exit_eq _ t unmarked)
    simp [step,Sys.enter,Sys.setPc,exec,check_filesys_lock,free,Nat.not_lt.mpr kernel]
  exact ⟨_,.next (.next reached trivial faults) trivial exits,by simp [exited],rfl⟩

/-- The buffer starts at the last byte of the stack and is so long that its end wraps
    around to the page of code. -/
theorem console_written : ∃ s, run step (boot 1024) (writes 0xbfffffff 0x48048002) = some s ∧
    s.pc 3 = [.touch 0xbfffffff 0x48048002 false,.release .syscall_lock] ∧ s.holder .syscall_lock = some 3 ∧
    s.holder .filesys_lock = none ∧ (s.sys_lock_hold 3 = false ∧ s.file_lock_hold 3 = false) ∧
    (s.pagedir 3 0xbffff).isSome = true ∧ s.init_ram_pages = 1024 :=
  ⟨_,rfl,rfl,rfl,rfl,⟨rfl,rfl⟩,rfl,rfl⟩

/-- Behind the end of physical memory `page_fault` ends the process, inside the lock. -/
theorem dead_holds_syscall_lock : ∃ s, Reaches (machine 1024) Anything s ∧ s.dead 3 = true ∧
    s.holder .syscall_lock = some 3 := by
  obtain ⟨s,ran,path,mine,free,⟨unmarked,unmarkedToo⟩,stack,ram⟩ := console_written
  have reached := run_reachable (boot 1024) step _ ran
  have mapped : ∀ j < 0x400001, Paths.reaches s 3 (0xbfffffff + j) false = true := by
    intro j below
    unfold Paths.reaches
    split
    · next user =>
      obtain rfl : j = 0 := by
        simp only [PHYS_BASE] at user
        omega
      obtain ⟨p,found⟩ := Option.isSome_iff_exists.mp stack
      simp [PGSIZE,found]
    · simp only [PHYS_BASE,ram,PGSIZE,decide_eq_true_eq]
      omega
  have touched := reaches_touch (t := 3) (k := 0x400001) (n := 0x47c48001) reached path (by decide) mapped
  have behind : Paths.reaches s 3 (0xbfffffff + 0x400001) false = false := by
    simp [Paths.reaches,PHYS_BASE,PGSIZE,ram]
  have here : (s.setPc 3 [.touch (0xbfffffff + 0x400001) 0x47c48001 false,.release .syscall_lock]).pc 3 =
      [.touch (0xbfffffff + 0x400001) (0x47c48000 + 1) false,.release .syscall_lock] := by simp [Sys.setPc]
  obtain ⟨s',died,dead,holder⟩ := dies_inside touched here behind (by decide) free ⟨unmarked,unmarkedToo⟩
  exact ⟨s',died,dead,by rw [holder]; exact mine⟩

end Pintos.HeldLocks
