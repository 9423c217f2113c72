import Pintos.Scheduler
import Pintos.SynchSteps
import Mathlib.Data.List.Nodup

/-!
The order of `ready_list`. Every insertion sorts the list, and the running thread
is not in it, so that the only write that can put it out of order is that of a
donation to a holder that is itself ready. `RaisesInOrder` says of such a write
that the holder is in its place already.
-/
namespace Pintos.ReadyQueue
open Pintos.Lists Pintos.Machines Pintos.Scheduler
open Pintos.Synch hiding Event step boot machine sema_down sema_up
set_option linter.unusedSimpArgs false
variable {s s' : Sched} {k k' : Kernel} {t h : Tid} {ts : List Tid} {x : Sema} {i : Instr} {stray p : Int}

def Nonincreasing (k : Kernel) (ts : List Tid) : Prop := ts.Pairwise (fun a b => k.priority b ≤ k.priority a)

theorem first_highest {k : Kernel} {first t : Tid} {others : List Tid} (sorted : Nonincreasing k (first :: others))
    (member : t ∈ first :: others) : k.priority t ≤ k.priority first := by
  rcases List.mem_cons.mp member with rfl | later
  · exact Int.le_refl _
  · exact (List.pairwise_cons.mp sorted).1 t later

/-- The part of a list before the first `h`, and the part after it. -/
def ahead (h : Tid) : List Tid → List Tid
  | [] => []
  | t :: rest => if t = h then [] else t :: ahead h rest
def behind (h : Tid) : List Tid → List Tid
  | [] => []
  | t :: rest => if t = h then rest else behind h rest

/-- The holder whose priority the next instruction of a thread writes. -/
def raised : List Instr → Option Tid
  | .raise lh :: _ => some lh
  | _ => none

/-- A donation that writes the priority of a thread in `ready_list` finds no
    thread of lower priority than the donor's ahead of it, and none of higher
    priority behind it. -/
def RaisesInOrder (s : Sched) : Event → Prop
  | .exec _ => ∀ lh ∈ raised (s.pc s.current), lh ∈ s.ready_list →
      (∀ t ∈ ahead lh s.ready_list, s.k.priority s.current ≤ s.k.priority t) ∧
      ∀ t ∈ behind lh s.ready_list, s.k.priority t ≤ s.k.priority s.current
  | .call _ | .timer _ | .schedule => True

instance (s : Sched) : (e : Event) → Decidable (RaisesInOrder s e)
  | .exec _ => inferInstanceAs (Decidable (∀ lh ∈ raised (s.pc s.current), lh ∈ s.ready_list →
      (∀ t ∈ ahead lh s.ready_list, s.k.priority s.current ≤ s.k.priority t) ∧
      ∀ t ∈ behind lh s.ready_list, s.k.priority t ≤ s.k.priority s.current))
  | .call _ | .timer _ | .schedule => .isTrue trivial

/-- The invariant of the scheduler. -/
structure Ordered (s : Sched) : Prop where
  sorted : Nonincreasing s.k s.ready_list
  once : s.ready_list.Nodup
  ready : ∀ t ∈ s.ready_list, is_thread s t ∧ s.status t = .ready
  listed : ∀ t, s.status t = .ready → t ∈ s.ready_list ∨ s.idle_thread = some t
  running : s.scheduling = false → is_thread s s.current ∧ s.status s.current = .running

theorem ordered_current (ordered : Ordered s) (runs : s.scheduling = false) : s.current ∉ s.ready_list := by
  intro member
  have status := (ordered.ready s.current member).2
  rw [(ordered.running runs).2] at status
  cases status

/-- Steps that leave the queue alone, and every priority but that of the current
    thread and of threads yet to be made. -/
structure SameQueue (s s' : Sched) : Prop where
  count : s.k.count ≤ s'.k.count
  ready_list : s'.ready_list = s.ready_list
  status : s'.status = s.status
  idle_thread : s'.idle_thread = s.idle_thread
  current : s'.current = s.current
  scheduling : s'.scheduling = s.scheduling
  priority : ∀ t, is_thread s t → t ≠ s.current → s'.k.priority t = s.k.priority t

theorem ordered_same (ordered : Ordered s) (runs : s.scheduling = false) (same : SameQueue s s') : Ordered s' := by
  have priority : ∀ t ∈ s.ready_list, s'.k.priority t = s.k.priority t := by
    intro t member
    refine same.priority t (ordered.ready t member).1 ?_
    rintro rfl
    exact ordered_current ordered runs member
  refine ⟨?_,?_,?_,?_,?_⟩
  · rw [same.ready_list]
    refine ordered.sorted.imp_of_mem ?_
    intro a b first second above
    rw [priority a first,priority b second]
    exact above
  · rw [same.ready_list]
    exact ordered.once
  · intro t member
    rw [same.ready_list] at member
    obtain ⟨known,status⟩ := ordered.ready t member
    exact ⟨Nat.lt_of_lt_of_le known same.count,by rw [same.status,status]⟩
  · intro t status
    rw [same.status] at status
    rw [same.ready_list,same.idle_thread]
    exact ordered.listed t status
  · intro _
    obtain ⟨known,status⟩ := ordered.running runs
    rw [same.current]
    exact ⟨Nat.lt_of_lt_of_le known same.count,by rw [same.status,status]⟩

/-! ### Insertions -/

theorem priority_transitive (k : Kernel) (a b c : Tid) (first : sort_by_priority k b a = false)
    (second : sort_by_priority k c b = false) : sort_by_priority k c a = false := by
  simp only [sort_by_priority,decide_eq_false_iff_not] at first second ⊢
  omega

theorem priority_asymmetric (k : Kernel) (a b : Tid) (first : sort_by_priority k a b = true) :
    sort_by_priority k b a = false := by
  simp only [sort_by_priority,decide_eq_true_eq,decide_eq_false_iff_not] at first ⊢
  omega

theorem sort_sorted (k : Kernel) (ts : List Tid) : Nonincreasing k (list_sort (sort_by_priority k) ts) := by
  have sorted := list_sort_sorted (priority_transitive k) (priority_asymmetric k) ts
  refine List.Pairwise.imp ?_ sorted
  intro a b above
  simpa [sort_by_priority] using above

theorem mem_push : h ∈ (s.push t).ready_list ↔ h ∈ s.ready_list ∨ h = t := by
  simp [Sched.push,mem_list_sort]

theorem push_once (once : s.ready_list.Nodup) (out : t ∉ s.ready_list) : (s.push t).ready_list.Nodup := by
  refine (list_sort_perm (sort_by_priority s.k) (s.ready_list ++ [t])).nodup_iff.mpr ?_
  exact List.Nodup.append once (List.nodup_singleton t) (by simpa using out)

/-- A thread that is not ready enters the queue and becomes ready. -/
theorem ordered_push (ordered : Ordered s) (known : is_thread s t) (other : s.status t ≠ .ready)
    (live : s'.k = s.k ∧ s'.ready_list = (s.push t).ready_list ∧
      s'.status = ((s.push t).setStatus t .ready).status ∧ s'.idle_thread = s.idle_thread)
    (running : s'.scheduling = false → is_thread s' s'.current ∧ s'.status s'.current = .running) : Ordered s' := by
  obtain ⟨kernel,list,status,idle⟩ := live
  have out : t ∉ s.ready_list := fun member => other (ordered.ready t member).2
  refine ⟨?_,?_,?_,?_,running⟩
  · rw [kernel,list]
    exact sort_sorted s.k _
  · rw [list]
    exact push_once ordered.once out
  · intro u member
    rw [list] at member
    rw [status]
    simp only [is_thread,kernel,Sched.setStatus,Sched.push]
    rcases mem_push.mp member with before | rfl
    · have different : u ≠ t := fun same => out (same ▸ before)
      rw [if_neg different]
      exact ordered.ready u before
    · exact ⟨known,if_pos rfl⟩
  · intro u ready
    rw [status] at ready
    rw [list,idle,mem_push]
    by_cases same : u = t
    · exact .inl (.inr same)
    · simp only [Sched.setStatus,Sched.push,if_neg same] at ready
      rcases ordered.listed u ready with before | spare
      · exact .inl (.inl before)
      · exact .inr spare

theorem ordered_unblock (ordered : Ordered s) (runs : s.scheduling = false) (ran : thread_unblock s t = some s') :
    Ordered s' ∧ s'.scheduling = false ∧ s'.k = s.k ∧ s'.current = s.current := by
  unfold thread_unblock at ran
  split at ran
  · next blocked =>
    have same := Option.some.inj ran
    subst same
    have other : s.status t ≠ .ready := by rw [blocked.2]; decide
    refine ⟨ordered_push ordered blocked.1 other ⟨rfl,rfl,rfl,rfl⟩ ?_,runs,rfl,rfl⟩
    intro _
    obtain ⟨known,status⟩ := ordered.running runs
    have different : s.current ≠ t := by
      intro same
      rw [same,blocked.2] at status
      cases status
    exact ⟨known,by simpa [Sched.setStatus,Sched.push,different] using status⟩
  · cases ran

theorem ordered_yield (ordered : Ordered s) (runs : s.scheduling = false) : Ordered (thread_yield s) := by
  obtain ⟨known,status⟩ := ordered.running runs
  have other : s.status s.current ≠ .ready := by rw [status]; decide
  unfold thread_yield
  by_cases idle : s.idle_thread = some s.current
  · rw [if_pos idle]
    have out := ordered_current ordered runs
    refine ⟨ordered.sorted,ordered.once,?_,?_,by simp⟩
    · intro t member
      have different : t ≠ s.current := fun same => out (same ▸ member)
      simpa [Sched.setStatus,different,is_thread] using ordered.ready t member
    · intro t ready
      by_cases same : t = s.current
      · subst same
        exact .inr idle
      · exact ordered.listed t (by simpa [Sched.setStatus,same] using ready)
  · rw [if_neg idle]
    exact ordered_push ordered known other ⟨rfl,rfl,rfl,rfl⟩ (by simp)

/-- The current thread stops without being ready. -/
theorem ordered_stop (ordered : Ordered s) (runs : s.scheduling = false) {v : Status} (unready : v ≠ .ready) :
    Ordered { s.setStatus s.current v with scheduling := true } := by
  have out := ordered_current ordered runs
  refine ⟨ordered.sorted,ordered.once,?_,?_,by simp⟩
  · intro t member
    have different : t ≠ s.current := fun same => out (same ▸ member)
    simpa [Sched.setStatus,different,is_thread] using ordered.ready t member
  · intro t ready
    by_cases same : t = s.current
    · simp only [Sched.setStatus,same,↓reduceIte] at ready
      exact absurd ready unready
    · exact ordered.listed t (by simpa [Sched.setStatus,same] using ready)

theorem ordered_block (ordered : Ordered s) (runs : s.scheduling = false) : Ordered (thread_block s) :=
  ordered_stop ordered runs (by decide)

theorem ordered_schedule (ordered : Ordered s) (ran : schedule s = some s') : Ordered s' := by
  unfold schedule at ran
  obtain ⟨⟨next,rest⟩,popped,switched⟩ := Option.bind_eq_some_iff.mp ran
  dsimp only at switched
  split at switched
  · next fine =>
    have same := Option.some.inj switched
    subst same
    -- Whether the queue was empty or not, `next` is not left in it.
    have parts : s.ready_list = rest ∧ rest = [] ∧ s.idle_thread = some next ∨ s.ready_list = next :: rest := by
      unfold next_thread_to_run at popped
      cases queue : s.ready_list with
      | nil =>
        rw [queue] at popped
        obtain ⟨idle,isIdle,pair⟩ := Option.map_eq_some_iff.mp popped
        cases pair
        exact .inl ⟨rfl,rfl,isIdle⟩
      | cons first others =>
        rw [queue] at popped
        cases popped
        exact .inr rfl
    have sub : ∀ t ∈ rest, t ∈ s.ready_list ∧ t ≠ next := by
      intro t member
      rcases parts with ⟨_,empty,_⟩ | queue
      · simp [empty] at member
      · have once := ordered.once
        rw [queue] at once ⊢
        refine ⟨List.mem_cons_of_mem next member,?_⟩
        rintro rfl
        exact (List.nodup_cons.mp once).1 member
    refine ⟨?_,?_,?_,?_,?_⟩
    · rcases parts with ⟨_,empty,_⟩ | queue
      · simp [empty,Nonincreasing]
      · have sorted := ordered.sorted
        rw [queue] at sorted
        exact (List.pairwise_cons.mp sorted).2
    · rcases parts with ⟨_,empty,_⟩ | queue
      · simp [empty]
      · have once := ordered.once
        rw [queue] at once
        exact (List.nodup_cons.mp once).2
    · intro t member
      obtain ⟨before,other⟩ := sub t member
      simpa [Sched.setStatus,other,is_thread] using ordered.ready t before
    · intro t ready
      by_cases same : t = next
      · simp [Sched.setStatus,same] at ready
      · have before := ordered.listed t (by simpa [Sched.setStatus,same] using ready)
        rcases before with inside | idle
        · rcases parts with ⟨queue,_,_⟩ | queue
          · exact .inl (queue ▸ inside)
          · rw [queue] at inside
            exact .inl ((List.mem_cons.mp inside).resolve_left same)
        · exact .inr idle
    · intro _
      exact ⟨fine.2,by simp [Sched.setStatus]⟩
  · cases switched

/-! ### Steps beside the queue -/

theorem sameQueue_trans {s'' : Sched} (first : SameQueue s s') (second : SameQueue s' s'') : SameQueue s s'' where
  count := Nat.le_trans first.count second.count
  ready_list := second.ready_list.trans first.ready_list
  status := second.status.trans first.status
  idle_thread := second.idle_thread.trans first.idle_thread
  current := second.current.trans first.current
  scheduling := second.scheduling.trans first.scheduling
  priority t known other := by
    have later := second.priority t (Nat.lt_of_lt_of_le known first.count) (by rwa [first.current])
    exact later.trans (first.priority t known other)

theorem sameQueue_setPc (code : List Instr) : SameQueue s (s.setPc t code) :=
  ⟨Nat.le_refl _,rfl,rfl,rfl,rfl,rfl,fun _ _ _ => rfl⟩
theorem sameQueue_enter (code : List Instr) : SameQueue s (s.enter code) := sameQueue_setPc _

theorem sameQueue_kernel (count : k.count = s.k.count)
    (priority : ∀ t, t ≠ s.current → k.priority t = s.k.priority t) : SameQueue s { s with k := k } :=
  ⟨Nat.le_of_eq count.symm,rfl,rfl,rfl,rfl,rfl,fun t _ other => priority t other⟩

theorem sameQueue_setLock (l : LockId) (r : Lock) : SameQueue s { s with k := s.k.setLock l r } :=
  sameQueue_kernel rfl (fun _ _ => rfl)

theorem sameQueue_setSema (x : Sema) (v : Semaphore) : SameQueue s (s.setSema x v) := by
  cases x with
  | plain n => exact ⟨Nat.le_refl _,rfl,rfl,rfl,rfl,rfl,fun _ _ _ => rfl⟩
  | lock l => exact sameQueue_setLock l _

theorem sameQueue_setOwn (r : Thread) : SameQueue s (s.setOwn r) := by
  refine sameQueue_kernel rfl ?_
  intro t other
  simp [Kernel.priority,setThread_other _ other]

/-- No step of `lock_release` or of `thread_set_priority` writes a priority that is not the thread's own. -/
theorem sameQueue_restoration (l : LockId) (stray : Int) :
    SameQueue s { s with k := (priority_restoration s.k s.current l stray).1 } := by
  refine sameQueue_kernel (priority_restoration_frame s.k s.current l stray).1 ?_
  intro t other
  simp [Kernel.priority,(priority_restoration_frame s.k s.current l stray).2.2.2 t other]

theorem sameQueue_put (priority_restore : Int) : SameQueue s { s with k := putPriority s.k s.current priority_restore } := by
  refine sameQueue_kernel (putPriority_count _) ?_
  intro t other
  simp [Kernel.priority,putPriority_other _ other]

theorem sameQueue_set_priority (new_priority : Int) :
    SameQueue s { s with k := thread_set_priority s.k s.current new_priority } := by
  refine sameQueue_kernel rfl ?_
  intro t other
  simp [thread_set_priority,Kernel.priority,setThread_other _ other]

/-- A record with the old priority. -/
theorem setThread_priority {r : Thread} (same : r.priority = k.priority h) :
    (k.setThread h r).priority t = k.priority t := by
  by_cases own : t = h
  · subst own; simpa [Kernel.priority] using same
  · simp [Kernel.priority,setThread_other _ own]

theorem saveOrig_priority : (saveOrig k h).priority t = k.priority t := by
  unfold saveOrig
  split
  · exact setThread_priority rfl
  · rfl

theorem saveOrig_count : (saveOrig k h).count = k.count := by
  unfold saveOrig
  split <;> rfl
theorem countDonation_priority : (countDonation k h).priority t = k.priority t := by
  unfold countDonation
  exact setThread_priority rfl
theorem listLock_priority {l : LockId} : (listLock k h l).priority t = k.priority t := by
  unfold listLock
  exact setThread_priority rfl

/-- `record` writes no priority. -/
theorem record_same {l : LockId} (ran : record k l h = some k') :
    k'.count = k.count ∧ ∀ t, k'.priority t = k.priority t := by
  unfold record at ran
  split at ran
  · cases ran
  · split at ran
    · exact Option.some.inj ran ▸ ⟨saveOrig_count,fun _ => saveOrig_priority⟩
    · split at ran
      · cases ran
      · refine Option.some.inj ran ▸ ⟨saveOrig_count,?_⟩
        intro t
        rw [listLock_priority,countDonation_priority,saveOrig_priority]

theorem split_at (member : h ∈ ts) : ts = ahead h ts ++ h :: behind h ts := by
  induction ts with
  | nil => simp at member
  | cons t rest ih =>
    by_cases same : t = h
    · simp [ahead,behind,same]
    · have further : h ∈ rest := (List.mem_cons.mp member).resolve_left (fun first => same first.symm)
      simp only [ahead,behind,same,↓reduceIte,List.cons_append,List.cons.injEq,true_and]
      exact ih further

/-- A write of the priority of `h` that finds `h` in its place keeps the order. -/
theorem nonincreasing_raised (sorted : Nonincreasing k ts) (once : ts.Nodup)
    (place : h ∈ ts → (∀ t ∈ ahead h ts, p ≤ k.priority t) ∧ ∀ t ∈ behind h ts, k.priority t ≤ p) :
    Nonincreasing (k.setThread h { k.threads h with priority := p }) ts := by
  have own : (k.setThread h { k.threads h with priority := p }).priority h = p := by simp [Kernel.priority]
  have others : ∀ t, t ≠ h → (k.setThread h { k.threads h with priority := p }).priority t = k.priority t := by
    intro t other
    simp [Kernel.priority,setThread_other _ other]
  by_cases member : h ∈ ts
  · obtain ⟨above,below⟩ := place member
    have parts := split_at member
    generalize ahead h ts = front at parts above
    generalize behind h ts = back at parts below
    subst parts
    obtain ⟨_,onceBack,apart⟩ := List.nodup_append.mp once
    have notFront : ∀ t ∈ front, t ≠ h := fun t first => apart t first h List.mem_cons_self
    have notBack : ∀ t ∈ back, t ≠ h := by
      rintro t second rfl
      exact (List.nodup_cons.mp onceBack).1 second
    obtain ⟨sortedFront,sortedRest,across⟩ := List.pairwise_append.mp sorted
    refine List.pairwise_append.mpr ⟨?_,List.pairwise_cons.mpr ⟨?_,?_⟩,?_⟩
    · refine sortedFront.imp_of_mem ?_
      intro a b first second order
      rwa [others a (notFront a first),others b (notFront b second)]
    · intro t second
      rw [own,others t (notBack t second)]
      exact below t second
    · refine (List.pairwise_cons.mp sortedRest).2.imp_of_mem ?_
      intro a b first second order
      rwa [others a (notBack a first),others b (notBack b second)]
    · intro a first b second
      rw [others a (notFront a first)]
      rcases List.mem_cons.mp second with rfl | later
      · rw [own]
        exact above a first
      · rw [others b (notBack b later)]
        exact across a first b (List.mem_cons_of_mem h later)
  · refine sorted.imp_of_mem ?_
    intro a b first second order
    rwa [others a (fun same => member (same ▸ first)),others b (fun same => member (same ▸ second))]

theorem ordered_raised (ordered : Ordered s)
    (place : h ∈ s.ready_list → (∀ t ∈ ahead h s.ready_list, p ≤ s.k.priority t) ∧
      ∀ t ∈ behind h s.ready_list, s.k.priority t ≤ p) :
    Ordered { s with k := s.k.setThread h { s.k.threads h with priority := p } } :=
  ⟨nonincreasing_raised ordered.sorted ordered.once place,ordered.once,ordered.ready,ordered.listed,ordered.running⟩

theorem ordered_init (ordered : Ordered s) (runs : s.scheduling = false) (ran : thread_create s.k p = some k) :
    Ordered ({ s with k := k }.setStatus s.k.count .blocked) ∧ (s.k.count < k.count) := by
  unfold thread_create at ran
  split at ran
  · have same := Option.some.inj ran
    subst same
    have known : ∀ t, is_thread s t → t ≠ s.k.count := fun t below => Nat.ne_of_lt below
    have status : ∀ t, is_thread s t → ({ s with k := { s.k.setThread s.k.count (init_thread p) with
        count := s.k.count + 1, base := fun u => if u = s.k.count then p else s.k.base u } }.setStatus
          s.k.count .blocked).status t = s.status t := by
      intro t below
      simp [Sched.setStatus,known t below]
    refine ⟨⟨?_,ordered.once,?_,?_,?_⟩,Nat.lt_succ_self _⟩
    · refine ordered.sorted.imp_of_mem ?_
      intro a b first second order
      have older := known a (ordered.ready a first).1
      have olderToo := known b (ordered.ready b second).1
      simpa [Sched.setStatus,Kernel.priority,setThread_other _ older,setThread_other _ olderToo] using order
    · intro t member
      obtain ⟨below,ready⟩ := ordered.ready t member
      exact ⟨Nat.lt_succ_of_lt below,(status t below).trans ready⟩
    · intro t ready
      by_cases new : t = s.k.count
      · simp [Sched.setStatus,new] at ready
      · exact ordered.listed t (by simpa [Sched.setStatus,new] using ready)
    · intro _
      obtain ⟨below,running⟩ := ordered.running runs
      exact ⟨Nat.lt_succ_of_lt below,(status _ below).trans running⟩
  · cases ran

/-! ### Every step -/

/-- A yield on a condition. -/
theorem ordered_yieldIf (ordered : Ordered s) (runs : s.scheduling = false) (c : Prop) [Decidable c] :
    Ordered (if c then thread_yield s else s) := by
  split
  · exact ordered_yield ordered runs
  · exact ordered

theorem ordered_down (ordered : Ordered s) (runs : s.scheduling = false) : Ordered (sema_down s x) := by
  unfold sema_down
  split
  · have waits := sameQueue_trans (sameQueue_setSema (s := s) x { s.sema x with
      waiters := list_sort (sort_by_priority s.k) ((s.sema x).waiters ++ [s.current]) })
      (sameQueue_enter [.down_again x])
    exact ordered_block (ordered_same ordered runs waits) (waits.scheduling.trans runs)
  · exact ordered_same ordered runs (sameQueue_trans (sameQueue_setSema x _) (sameQueue_setOwn _))

theorem ordered_up (ordered : Ordered s) (runs : s.scheduling = false) (ran : sema_up s x stray = some s') :
    Ordered s' := by
  unfold sema_up at ran
  split at ran
  · have same := Option.some.inj ran
    subst same
    have up := sameQueue_setSema (s := s) x { s.sema x with value := (s.sema x).value + 1 }
    exact ordered_yieldIf (ordered_same ordered runs up) (up.scheduling.trans runs) _
  · next wt rest _ =>
    obtain ⟨woken,unblocked,yields⟩ := Option.bind_eq_some_iff.mp ran
    have same := Option.some.inj yields
    subst same
    have popped := sameQueue_setSema (s := s) x { s.sema x with waiters := rest }
    obtain ⟨after,still,_,_⟩ := ordered_unblock (ordered_same ordered runs popped) (popped.scheduling.trans runs) unblocked
    have up := sameQueue_setSema (s := woken) x { woken.sema x with value := (woken.sema x).value + 1 }
    exact ordered_yieldIf (ordered_same after still up) (up.scheduling.trans still) _

theorem ordered_exec (ordered : Ordered s) (runs : s.scheduling = false)
    (place : ∀ lh, i = .raise lh → lh ∈ s.ready_list →
      (∀ t ∈ ahead lh s.ready_list, s.k.priority s.current ≤ s.k.priority t) ∧
      ∀ t ∈ behind lh s.ready_list, s.k.priority t ≤ s.k.priority s.current)
    (ran : exec s stray i = some s') : Ordered s' := by
  have quiet : ∀ s1, SameQueue s s1 → some s1 = some s' → Ordered s' := by
    intro s1 same equal
    exact Option.some.inj equal ▸ ordered_same ordered runs same
  have unchanged : some s = some s' → Ordered s' := fun equal => Option.some.inj equal ▸ ordered
  cases i with
  | acquire l =>
    simp only [exec] at ran
    split at ran
    · cases ran
    · exact quiet _ (sameQueue_enter _) ran
  | release l =>
    simp only [exec] at ran
    split at ran
    · exact quiet _ (sameQueue_trans (sameQueue_restoration l stray) (sameQueue_enter _)) ran
    · cases ran
  | donate l =>
    simp only [exec] at ran
    split at ran
    · exact unchanged ran
    · split at ran
      · exact quiet _ (sameQueue_enter _) ran
      · exact unchanged ran
  | record l lh =>
    obtain ⟨k,recorded,same⟩ := Option.map_eq_some_iff.mp ran
    subst same
    obtain ⟨count,priority⟩ := record_same recorded
    exact ordered_same ordered runs (sameQueue_kernel count (fun t _ => priority t))
  | raise lh => exact Option.some.inj ran ▸ ordered_raised ordered (place lh rfl)
  | follow lh =>
    simp only [exec] at ran
    split at ran
    · exact unchanged ran
    · exact quiet _ (sameQueue_enter _) ran
  | wait_for l => exact quiet _ (sameQueue_setOwn _) ran
  | down x => exact Option.some.inj ran ▸ ordered_down ordered runs
  | down_again x => exact Option.some.inj ran ▸ ordered_down ordered runs
  | hold l => exact quiet _ (sameQueue_setLock l _) ran
  | unhold l => exact quiet _ (sameQueue_setLock l _) ran
  | put priority_restore =>
    exact quiet _ (sameQueue_put priority_restore) ran
  | up x => exact ordered_up ordered runs ran
  | init priority =>
    obtain ⟨k,created,same⟩ := Option.map_eq_some_iff.mp ran
    subst same
    exact ordered_same (ordered_init ordered runs created).1 runs (sameQueue_enter _)
  | unblock t => exact (ordered_unblock ordered runs ran).1
  | yield_below priority => exact Option.some.inj ran ▸ ordered_yieldIf ordered runs _
  | set_priority new_priority =>
    exact quiet _ (sameQueue_trans (sameQueue_set_priority new_priority) (sameQueue_enter _)) ran
  | yield_to_front new_priority => exact Option.some.inj ran ▸ ordered_yieldIf ordered runs _
  | yield => exact Option.some.inj ran ▸ ordered_yield ordered runs
  | sleep n => exact quiet _ (sameQueue_enter _) ran
  | sleep_until waiting_ticks =>
    have same := Option.some.inj ran
    subst same
    refine ordered_block (ordered_same ordered runs ?_) runs
    exact ⟨Nat.le_refl _,rfl,rfl,rfl,rfl,rfl,fun _ _ _ => rfl⟩
  | exit =>
    have same := Option.some.inj ran
    subst same
    exact ordered_stop ordered runs (by decide)
  | idle =>
    have same := Option.some.inj ran
    subst same
    exact ordered_block (ordered_same ordered runs (sameQueue_enter _)) runs

theorem ordered_wake {garbage : Bool} (sleepers : List Tid) : ∀ s : Sched, Ordered s → s.scheduling = false →
    wakeSleepers s garbage sleepers = some s' → Ordered s' ∧ s'.scheduling = false := by
  induction sleepers with
  | nil =>
    intro s ordered runs ran
    simp only [wakeSleepers] at ran
    split at ran
    · cases ran
    · have same := Option.some.inj ran
      subst same
      refine ⟨ordered_same ordered runs ?_,runs⟩
      exact ⟨Nat.le_refl _,rfl,rfl,rfl,rfl,rfl,fun _ _ _ => rfl⟩
  | cons t rest ih =>
    intro s ordered runs ran
    simp only [wakeSleepers] at ran
    split at ran
    · obtain ⟨woken,unblocked,further⟩ := Option.bind_eq_some_iff.mp ran
      obtain ⟨after,still,_,_⟩ := ordered_unblock ordered runs unblocked
      exact ih woken after still further
    · have same := Option.some.inj ran
      subst same
      refine ⟨ordered_same ordered runs ?_,runs⟩
      exact ⟨Nat.le_refl _,rfl,rfl,rfl,rfl,rfl,fun _ _ _ => rfl⟩

theorem ordered_timer {garbage : Bool} (ordered : Ordered s) (runs : s.scheduling = false)
    (ran : timer_interrupt s garbage = some s') : Ordered s' := by
  obtain ⟨woken,loop,yields⟩ := Option.bind_eq_some_iff.mp ran
  have same := Option.some.inj yields
  subst same
  have ticked : SameQueue s { s with ticks := s.ticks + 1 } :=
    ⟨Nat.le_refl _,rfl,rfl,rfl,rfl,rfl,fun _ _ _ => rfl⟩
  obtain ⟨after,still⟩ := ordered_wake s.waiting_list _ (ordered_same ordered runs ticked) runs loop
  have counted : SameQueue woken { woken with thread_ticks := woken.thread_ticks + 1 } :=
    ⟨Nat.le_refl _,rfl,rfl,rfl,rfl,rfl,fun _ _ _ => rfl⟩
  exact ordered_yieldIf (ordered_same after still counted) still _

theorem ordered_step {e : Event} (ordered : Ordered s) (meets : RaisesInOrder s e) (ran : step s e = some s') :
    Ordered s' := by
  cases e with
  | call c =>
    simp only [step] at ran
    split at ran
    · next runs => exact Option.some.inj ran ▸ ordered_same ordered runs.1 (sameQueue_setPc _)
    · cases ran
  | exec stray =>
    simp only [step] at ran
    split at ran
    · cases ran
    · next runs =>
      have still : s.scheduling = false := by simpa using runs
      split at ran
      · cases ran
      · next i rest code =>
        refine ordered_exec (ordered_same ordered still (sameQueue_setPc rest)) still ?_ ran
        rintro lh rfl member
        exact meets lh (by simp [code,raised]) member
  | timer garbage =>
    simp only [step] at ran
    split at ran
    · next interrupts =>
      have runs : s.scheduling = false := by
        simp only [interruptible,Bool.and_eq_true,Bool.not_eq_true'] at interrupts
        exact interrupts.1
      exact ordered_timer ordered runs ran
    · cases ran
  | schedule =>
    simp only [step] at ran
    split at ran
    · exact ordered_schedule ordered ran
    · cases ran

theorem ordered_boot : Ordered boot where
  sorted := .nil
  once := .nil
  ready t member := by simp [boot] at member
  listed t ready := by
    by_cases main : t = 0 <;> simp [boot,main] at ready
  running _ := ⟨by decide,rfl⟩

/-- In every run whose donations find a ready holder in its place, `ready_list`
    is in order, also when `schedule` takes the next thread from it, and the
    thread it switches to has the highest priority of all that are ready. -/
theorem next_thread_has_highest_priority (reached : Reaches machine RaisesInOrder s) :
    Nonincreasing s.k s.ready_list ∧ ∀ s', step s .schedule = some s' →
      ∀ t, s.status t = .ready → s.idle_thread ≠ some t → s.k.priority t ≤ s.k.priority s'.current := by
  have ordered : Ordered s := by
    refine reaches_invariant Ordered ?_ ?_ reached
    · rintro s rfl
      exact ordered_boot
    · intro s e s' ordered meets ran
      exact ordered_step ordered meets ran
  refine ⟨ordered.sorted,?_⟩
  intro s' ran t ready other
  have member := (ordered.listed t ready).resolve_right other
  have sorted := ordered.sorted
  simp only [step,schedule,next_thread_to_run] at ran
  cases queue : s.ready_list with
  | nil => simp [queue] at member
  | cons first others =>
    rw [queue] at member sorted ran
    have front : s'.current = first := by
      split at ran
      · simp only [Option.bind_eq_bind,Option.bind_some] at ran
        split at ran
        · exact Option.some.inj ran ▸ rfl
        · cases ran
      · cases ran
    rw [front]
    exact first_highest sorted member

def execs (n : Nat) : List Event := List.replicate n (.exec 0)

/-- The main thread holds a lock and creates a thread that blocks on it. -/
def soleReadyHolder : List Event :=
  [.call (.lock_acquire 0)] ++ execs 5 ++ [.call (.thread_create 40)] ++ execs 12 ++ [.schedule] ++
    [.call (.lock_acquire 0)] ++ execs 7

theorem next_thread_sole_ready_holder : ∃ s, guardedRun step RaisesInOrder boot soleReadyHolder = some s ∧
    s.scheduling = true ∧ s.ready_list = [0] ∧ s.k.priority 0 = 40 ∧ Nonincreasing s.k s.ready_list :=
  ⟨_,rfl,rfl,rfl,by decide,
    (next_thread_has_highest_priority (guardedRun_reachable boot step RaisesInOrder soleReadyHolder rfl)).1⟩

/-- As before, with a thread of priority 35 between the two, which is ready when
    the donation raises the main thread behind it. -/
def raisedInPlace : List Event :=
  [.call (.lock_acquire 0)] ++ execs 5 ++ [.call (.thread_create 35)] ++ execs 12 ++ [.schedule] ++
    [.call (.thread_create 40)] ++ execs 12 ++ [.schedule] ++ [.call (.lock_acquire 0)] ++ execs 7

theorem ready_list_out_of_order : ∃ s s', run step boot raisedInPlace = some s ∧ Reaches machine Anything s ∧
    s.scheduling = true ∧ ¬ Nonincreasing s.k s.ready_list ∧ step s .schedule = some s' ∧
    s.status 0 = .ready ∧ s.k.priority s'.current < s.k.priority 0 := by
  refine ⟨_,_,rfl,run_reachable boot step raisedInPlace rfl,rfl,?_,rfl,rfl,by decide⟩
  intro sorted
  have first := (List.pairwise_cons.mp sorted).1 0 (by decide)
  revert first
  decide

end Pintos.ReadyQueue
