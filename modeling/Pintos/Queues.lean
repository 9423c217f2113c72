import Pintos.ReadyQueue

/-!
Every thread of the scheduled kernel is in one place: it runs, or is once in
`ready_list`, or is blocked and once in one of the lists that threads wait in. The
lists share one list element for each thread, so none may be in two of them.

A thread that `thread_create` has made is in no list until it is unblocked, and the
idle thread is in none at all. `Placed` gives every thread one place and says that
each list holds the threads of its place; an operation moves one thread.
-/
namespace Pintos.Queues
open Pintos.Lists Pintos.Machines Pintos.Scheduler Pintos.ReadyQueue
open Pintos.Synch hiding Event step boot machine sema_down sema_up
set_option linter.unusedSimpArgs false

/-- Where a thread can be. One in hand was taken from its list and is not yet
    unblocked; one that is nowhere has not been created. -/
inductive Place
  | running | ready | asleep | idle | hand | dead | nowhere
  | waiting (x : Sema)
  | unborn (creator : Tid)

variable {s s' : Sched} {place place' : Tid → Place} {p : Place} {t u : Tid} {x y : Sema} {i : Instr} {stray : Int}
  {code rest : List Instr} {k : Kernel} {held : Option Tid}

/-! ### Places -/

/-- The thread that an instruction of `thread_create` is about to unblock. -/
def birth : Instr → Option Tid
  | .unblock t => some t
  | _ => none
def births (s : Sched) (u : Tid) : List Tid := (s.pc u).filterMap birth
/-- `thread_create` has not yet unblocked the thread. -/
def Newborn (s : Sched) (t : Tid) : Prop := ∃ u, t ∈ births s u

/-- The status of a thread in its place. -/
def Fits : Place → Status → Prop
  | .running, v => v = .running
  | .ready, v => v = .ready
  | .idle, v => v = .blocked ∨ v = .ready
  | .dead, v => v = .dying
  | .nowhere, _ => True
  | _, v => v = .blocked

/-- Each list holds the threads of its place, and each of them once. -/
structure Listed (place : Tid → Place) (s : Sched) : Prop where
  ready : ∀ t, t ∈ s.ready_list ↔ place t = .ready
  readyOnce : s.ready_list.Nodup
  waiting : ∀ x t, t ∈ (s.sema x).waiters ↔ place t = .waiting x
  waitingOnce : ∀ x, (s.sema x).waiters.Nodup
  asleep : ∀ t, t ∈ s.waiting_list ↔ place t = .asleep
  asleepOnce : s.waiting_list.Nodup
  unborn : ∀ u t, t ∈ births s u ↔ place t = .unborn u
  unbornOnce : ∀ u, (births s u).Nodup

/-- Every thread is in its place; `held` is the one in hand. -/
structure Placed (held : Option Tid) (place : Tid → Place) (s : Sched) : Prop extends Listed place s where
  inHand : ∀ t, place t = .hand ↔ held = some t
  status : ∀ t, Fits (place t) (s.status t)
  known : ∀ t, is_thread s t ↔ place t ≠ .nowhere
  running : ∀ t, place t = .running ↔ t = s.current ∧ s.scheduling = false
  current : is_thread s s.current
  stopped : s.scheduling = true → s.status s.current ≠ .running
  idle : ∀ t, s.idle_thread = some t → place t = .idle ∨ place t = .running
  idleOnly : ∀ t, place t = .idle → s.idle_thread = some t

/-- Only the idle thread runs the loop of the idle thread, and it runs nothing else. -/
structure IdleCode (s : Sched) : Prop where
  own : ∀ t, s.idle_thread = some t → s.pc t = [.idle]
  only : ∀ t, .idle ∈ s.pc t → s.idle_thread = some t

/-! ### What leaves the places alone -/

/-- Nothing about the lists or the threads to be unblocked changes. -/
structure SameLists (s s' : Sched) : Prop where
  ready_list : s'.ready_list = s.ready_list
  waiters : ∀ x, (s'.sema x).waiters = (s.sema x).waiters
  waiting_list : s'.waiting_list = s.waiting_list
  births : ∀ u, births s' u = births s u

theorem listed_same (listed : Listed place s) (same : SameLists s s') : Listed place s' where
  ready := by simpa only [same.ready_list] using listed.ready
  readyOnce := by simpa only [same.ready_list] using listed.readyOnce
  waiting := by simpa only [same.waiters] using listed.waiting
  waitingOnce := by simpa only [same.waiters] using listed.waitingOnce
  asleep := by simpa only [same.waiting_list] using listed.asleep
  asleepOnce := by simpa only [same.waiting_list] using listed.asleepOnce
  unborn := by simpa only [same.births] using listed.unborn
  unbornOnce := by simpa only [same.births] using listed.unbornOnce

/-- Nor does anything about the statuses, the current thread or the idle thread. -/
structure SamePlaces (s s' : Sched) : Prop extends SameLists s s' where
  count : s'.k.count = s.k.count
  status : s'.status = s.status
  idle_thread : s'.idle_thread = s.idle_thread
  current : s'.current = s.current
  scheduling : s'.scheduling = s.scheduling

theorem placed_same (placed : Placed held place s) (same : SamePlaces s s') : Placed held place s' where
  toListed := listed_same placed.toListed same.toSameLists
  inHand := placed.inHand
  status := by simpa only [same.status] using placed.status
  known := by simpa only [is_thread,same.count] using placed.known
  running := by simpa only [same.current,same.scheduling] using placed.running
  current := by simpa only [is_thread,same.count,same.current] using placed.current
  stopped := by simpa only [same.scheduling,same.status,same.current] using placed.stopped
  idle := by simpa only [same.idle_thread] using placed.idle
  idleOnly := by simpa only [same.idle_thread] using placed.idleOnly

theorem samePlaces_trans {s'' : Sched} (first : SamePlaces s s') (second : SamePlaces s' s'') : SamePlaces s s'' where
  count := second.count.trans first.count
  ready_list := second.ready_list.trans first.ready_list
  status := second.status.trans first.status
  waiters x := (second.waiters x).trans (first.waiters x)
  waiting_list := second.waiting_list.trans first.waiting_list
  births u := (second.births u).trans (first.births u)
  idle_thread := second.idle_thread.trans first.idle_thread
  current := second.current.trans first.current
  scheduling := second.scheduling.trans first.scheduling

theorem births_setPc (code : List Instr) (u : Tid) :
    births (s.setPc t code) u = if u = t then code.filterMap birth else births s u := by
  simp only [births,Sched.setPc]
  split <;> rfl

theorem sema_setPc (code : List Instr) : (s.setPc t code).sema x = s.sema x := by
  cases x <;> rfl

theorem samePlaces_setPc (same : code.filterMap birth = births s t) : SamePlaces s (s.setPc t code) := by
  refine ⟨⟨rfl,fun x => by rw [sema_setPc],rfl,?_⟩,rfl,rfl,rfl,rfl,rfl⟩
  intro u
  rw [births_setPc]
  split
  · next self => rw [same,self]
  · rfl

theorem samePlaces_enter (barren : code.filterMap birth = []) : SamePlaces s (s.enter code) := by
  refine samePlaces_setPc ?_
  rw [List.filterMap_append,barren]
  rfl

/-- Changes to the kernel that keep its threads and the queues of its locks. -/
theorem samePlaces_kernel (count : k.count = s.k.count) (waiters : ∀ l, k.waiters l = s.k.waiters l) :
    SamePlaces s { s with k := k } := by
  refine ⟨⟨rfl,?_,rfl,fun _ => rfl⟩,count,rfl,rfl,rfl,rfl⟩
  intro x
  cases x with
  | plain n => rfl
  | lock l => exact waiters l

theorem sema_setSema (v : Semaphore) : (s.setSema x v).sema x = v := by
  cases x <;> simp [Sched.setSema,Sched.sema,Kernel.setLock]

theorem sema_setSema_other (v : Semaphore) (other : y ≠ x) : (s.setSema x v).sema y = s.sema y := by
  cases x with
  | plain n =>
    cases y with
    | plain m => simp [Sched.setSema,Sched.sema,show m ≠ n from fun same => other (by rw [same])]
    | lock l => rfl
  | lock l =>
    cases y with
    | plain m => rfl
    | lock m => simp [Sched.setSema,Sched.sema,Kernel.setLock,show m ≠ l from fun same => other (by rw [same])]

/-- A semaphore's queue is all of it that the places see. -/
theorem setSema_frame (v : Semaphore) : (s.setSema x v).ready_list = s.ready_list ∧
    (s.setSema x v).waiting_list = s.waiting_list ∧ (s.setSema x v).k.count = s.k.count ∧
    (s.setSema x v).status = s.status ∧ (s.setSema x v).idle_thread = s.idle_thread ∧
    (s.setSema x v).current = s.current ∧ (s.setSema x v).scheduling = s.scheduling ∧ (s.setSema x v).pc = s.pc := by
  cases x <;> exact ⟨rfl,rfl,rfl,rfl,rfl,rfl,rfl,rfl⟩

theorem births_pc (same : s'.pc = s.pc) : births s' u = births s u := by
  rw [births,births,same]

theorem samePlaces_setSema {v : Semaphore} (same : v.waiters = (s.sema x).waiters) : SamePlaces s (s.setSema x v) := by
  obtain ⟨ready_list,waiting_list,count,status,idle_thread,current,scheduling,pc⟩ := setSema_frame (s := s) (x := x) v
  refine ⟨⟨ready_list,?_,waiting_list,fun u => births_pc pc⟩,count,status,idle_thread,current,scheduling⟩
  intro y
  by_cases self : y = x
  · subst self; rw [sema_setSema,same]
  · rw [sema_setSema_other v self]

theorem samePlaces_setOwn (r : Thread) : SamePlaces s (s.setOwn r) := samePlaces_kernel rfl (fun _ => rfl)

/-! ### Moves -/

/-- One thread is moved. -/
def move (place : Tid → Place) (t : Tid) (p : Place) (u : Tid) : Place := if u = t then p else place u

@[simp] theorem move_self : move place t p t = p := by simp [move]
theorem move_other (other : u ≠ t) : move place t p u = place u := by simp [move,other]

/-- The threads of place `q` after a move that does not touch `q`. -/
theorem move_keeps {q : Place} (before : place t ≠ q) (after : p ≠ q) (u : Tid) : move place t p u = q ↔ place u = q := by
  by_cases self : u = t
  · subst self; simp [before,after]
  · rw [move_other self]

/-- The threads of the place that the move fills, and of the one it empties. -/
theorem move_fills (u : Tid) : move place t p u = p ↔ place u = p ∨ u = t := by
  by_cases self : u = t
  · simp [move,self]
  · simp [move,self]

/-- The places that have a list. -/
@[simp] def InList : Place → Prop
  | .ready | .asleep | .waiting _ | .unborn _ => True
  | _ => False

theorem move_loose {q : Place} (before : ¬ InList (place t)) (inList : InList q) (after : p ≠ q) (u : Tid) :
    move place t p u = q ↔ place u = q := by
  refine move_keeps ?_ after u
  intro same
  rw [same] at before
  exact before inList

/-- A move between two places without a list. -/
theorem listed_loose (listed : Listed place s) (before : ¬ InList (place t)) (after : ¬ InList p) :
    Listed (move place t p) s := by
  refine ⟨?_,listed.readyOnce,?_,listed.waitingOnce,?_,listed.asleepOnce,?_,listed.unbornOnce⟩
  · intro u
    rw [move_loose before (by simp) (by rintro rfl; simp at after),listed.ready]
  · intro x u
    rw [move_loose before (by simp) (by rintro rfl; simp at after),listed.waiting]
  · intro u
    rw [move_loose before (by simp) (by rintro rfl; simp at after),listed.asleep]
  · intro v u
    rw [move_loose before (by simp) (by rintro rfl; simp at after),listed.unborn]

/-- A thread at the end of a list that is then sorted. -/
theorem sorted_once {less : Tid → Tid → Bool} {ts : List Tid} (once : ts.Nodup) (out : t ∉ ts) :
    (list_sort less (ts ++ [t])).Nodup := by
  refine (list_sort_perm less (ts ++ [t])).nodup_iff.mpr ?_
  exact List.Nodup.append once (List.nodup_singleton t) (by simpa using out)

theorem listed_push (listed : Listed place s) (before : ¬ InList (place t)) : Listed (move place t .ready) (s.push t) := by
  have out : t ∉ s.ready_list := fun member => before (by simp [(listed.ready t).mp member])
  refine ⟨?_,push_once listed.readyOnce out,?_,listed.waitingOnce,?_,listed.asleepOnce,?_,listed.unbornOnce⟩
  · intro u
    rw [move_fills,← listed.ready]
    exact mem_push
  · intro x u
    rw [move_loose before (by simp) (by simp)]
    exact listed.waiting x u
  · intro u
    rw [move_loose before (by simp) (by simp)]
    exact listed.asleep u
  · intro v u
    rw [move_loose before (by simp) (by simp)]
    exact listed.unborn v u

/-- A thread enters the queue of a semaphore. -/
theorem listed_wait {v : Semaphore} {less : Tid → Tid → Bool} (listed : Listed place s) (before : ¬ InList (place t))
    (queue : v.waiters = list_sort less ((s.sema x).waiters ++ [t])) :
    Listed (move place t (.waiting x)) (s.setSema x v) := by
  have out : t ∉ (s.sema x).waiters := fun member => before (by simp [(listed.waiting x t).mp member])
  obtain ⟨ready_list,waiting_list,-,-,-,-,-,pc⟩ := setSema_frame (s := s) (x := x) v
  refine ⟨?_,?_,?_,?_,?_,?_,?_,?_⟩
  · intro u
    rw [move_loose before (by simp) (by simp),ready_list,listed.ready]
  · rw [ready_list]
    exact listed.readyOnce
  · intro y u
    by_cases self : y = x
    · subst self
      rw [sema_setSema,move_fills,← listed.waiting,queue]
      simp [mem_list_sort]
    · rw [sema_setSema_other v self,move_loose before (by simp) (by simpa using Ne.symm self),listed.waiting]
  · intro y
    by_cases self : y = x
    · subst self
      rw [sema_setSema,queue]
      exact sorted_once (listed.waitingOnce y) out
    · rw [sema_setSema_other v self]
      exact listed.waitingOnce y
  · intro u
    rw [move_loose before (by simp) (by simp),waiting_list,listed.asleep]
  · rw [waiting_list]
    exact listed.asleepOnce
  · intro w u
    rw [move_loose before (by simp) (by simp),births_pc pc,listed.unborn]
  · intro w
    rw [births_pc pc]
    exact listed.unbornOnce w

theorem listed_sleep {wake : Tid → Int} {less : Tid → Tid → Bool} (listed : Listed place s) (before : ¬ InList (place t)) :
    Listed (move place t .asleep) { s with
      waiting_ticks := wake, waiting_list := list_sort less (s.waiting_list ++ [t]) } := by
  have out : t ∉ s.waiting_list := fun member => before (by simp [(listed.asleep t).mp member])
  refine ⟨?_,listed.readyOnce,?_,listed.waitingOnce,?_,sorted_once listed.asleepOnce out,?_,listed.unbornOnce⟩
  · intro u
    rw [move_loose before (by simp) (by simp)]
    exact listed.ready u
  · intro x u
    rw [move_loose before (by simp) (by simp)]
    exact listed.waiting x u
  · intro u
    rw [move_fills,← listed.asleep]
    simp [mem_list_sort]
  · intro v u
    rw [move_loose before (by simp) (by simp)]
    exact listed.unborn v u

/-- The rest of a list whose first thread leaves its place. -/
theorem pop_holds {q : Place} {ts : List Tid} (once : (t :: ts).Nodup) (holds : ∀ u, u ∈ t :: ts ↔ place u = q)
    (after : p ≠ q) (u : Tid) : u ∈ ts ↔ move place t p u = q := by
  by_cases self : u = t
  · subst self
    simp [(List.nodup_cons.mp once).1,after]
  · rw [move_other self,← holds u]
    simp [self]

/-- The first thread leaves the queue of a semaphore. -/
theorem listed_pop_waiter {v : Semaphore} (listed : Listed place s) (loose : ¬ InList p)
    (queue : (t :: v.waiters).Perm (s.sema x).waiters) : Listed (move place t p) (s.setSema x v) ∧ place t = .waiting x := by
  have was : place t = .waiting x := by
    rw [← listed.waiting,← queue.mem_iff]
    simp
  have once : (t :: v.waiters).Nodup := queue.nodup_iff.mpr (listed.waitingOnce x)
  have keeps : ∀ q, InList q → q ≠ .waiting x → ∀ u, move place t p u = q ↔ place u = q := by
    intro q inList other u
    refine move_keeps (by rw [was]; exact other.symm) ?_ u
    rintro rfl
    exact loose inList
  obtain ⟨ready_list,waiting_list,-,-,-,-,-,pc⟩ := setSema_frame (s := s) (x := x) v
  refine ⟨⟨?_,?_,?_,?_,?_,?_,?_,?_⟩,was⟩
  · intro u
    rw [keeps _ (by simp) (by simp),ready_list,listed.ready]
  · rw [ready_list]
    exact listed.readyOnce
  · intro y u
    by_cases self : y = x
    · subst self
      rw [sema_setSema]
      refine pop_holds once (fun u => ?_) ?_ u
      · rw [queue.mem_iff,listed.waiting]
      · rintro rfl
        simp at loose
    · rw [sema_setSema_other v self,keeps _ (by simp) (by simpa using self),listed.waiting]
  · intro y
    by_cases self : y = x
    · subst self
      rw [sema_setSema]
      exact (List.nodup_cons.mp once).2
    · rw [sema_setSema_other v self]
      exact listed.waitingOnce y
  · intro u
    rw [keeps _ (by simp) (by simp),waiting_list,listed.asleep]
  · rw [waiting_list]
    exact listed.asleepOnce
  · intro w u
    rw [keeps _ (by simp) (by simp),births_pc pc,listed.unborn]
  · intro w
    rw [births_pc pc]
    exact listed.unbornOnce w

theorem listed_pop_sleeper {ts : List Tid} (listed : Listed place s) (loose : ¬ InList p) (queue : s.waiting_list = t :: ts) :
    Listed (move place t p) { s with waiting_list := ts } ∧ place t = .asleep := by
  have was : place t = .asleep := by
    rw [← listed.asleep,queue]
    simp
  have keeps : ∀ q, InList q → q ≠ .asleep → ∀ u, move place t p u = q ↔ place u = q := by
    intro q inList other u
    refine move_keeps (by rw [was]; exact other.symm) ?_ u
    rintro rfl
    exact loose inList
  have once : (t :: ts).Nodup := queue ▸ listed.asleepOnce
  refine ⟨⟨?_,listed.readyOnce,?_,listed.waitingOnce,?_,(List.nodup_cons.mp once).2,?_,listed.unbornOnce⟩,was⟩
  · intro u
    rw [keeps _ (by simp) (by simp)]
    exact listed.ready u
  · intro x u
    rw [keeps _ (by simp) (by simp)]
    exact listed.waiting x u
  · refine pop_holds once (fun u => ?_) ?_
    · rw [← queue,listed.asleep]
    · rintro rfl
      simp at loose
  · intro v u
    rw [keeps _ (by simp) (by simp)]
    exact listed.unborn v u

theorem listed_pop_ready {ts : List Tid} (listed : Listed place s) (loose : ¬ InList p) (queue : s.ready_list = t :: ts) :
    Listed (move place t p) { s with ready_list := ts } ∧ place t = .ready := by
  have was : place t = .ready := by
    rw [← listed.ready,queue]
    simp
  have keeps : ∀ q, InList q → q ≠ .ready → ∀ u, move place t p u = q ↔ place u = q := by
    intro q inList other u
    refine move_keeps (by rw [was]; exact other.symm) ?_ u
    rintro rfl
    exact loose inList
  have once : (t :: ts).Nodup := queue ▸ listed.readyOnce
  refine ⟨⟨?_,(List.nodup_cons.mp once).2,?_,listed.waitingOnce,?_,listed.asleepOnce,?_,listed.unbornOnce⟩,was⟩
  · refine pop_holds once (fun u => ?_) ?_
    · rw [← queue,listed.ready]
    · rintro rfl
      simp at loose
  · intro x u
    rw [keeps _ (by simp) (by simp)]
    exact listed.waiting x u
  · intro u
    rw [keeps _ (by simp) (by simp)]
    exact listed.asleep u
  · intro v u
    rw [keeps _ (by simp) (by simp)]
    exact listed.unborn v u

theorem listed_birth (listed : Listed place s) (loose : ¬ InList p) (born : births s u = t :: code.filterMap birth) :
    Listed (move place t p) (s.setPc u code) ∧ place t = .unborn u := by
  have was : place t = .unborn u := by
    rw [← listed.unborn,born]
    simp
  have keeps : ∀ q, InList q → q ≠ .unborn u → ∀ v, move place t p v = q ↔ place v = q := by
    intro q inList other v
    refine move_keeps (by rw [was]; exact other.symm) ?_ v
    rintro rfl
    exact loose inList
  have once : (t :: code.filterMap birth).Nodup := born ▸ listed.unbornOnce u
  refine ⟨⟨?_,listed.readyOnce,?_,?_,?_,listed.asleepOnce,?_,?_⟩,was⟩
  · intro v
    rw [keeps _ (by simp) (by simp)]
    exact listed.ready v
  · intro x v
    rw [keeps _ (by simp) (by simp),sema_setPc]
    exact listed.waiting x v
  · intro x
    rw [sema_setPc]
    exact listed.waitingOnce x
  · intro v
    rw [keeps _ (by simp) (by simp)]
    exact listed.asleep v
  · intro w v
    rw [births_setPc]
    split
    · next self =>
      subst self
      refine pop_holds once (fun v => ?_) ?_ v
      · rw [← born,listed.unborn]
      · rintro rfl
        simp at loose
    · next other => rw [keeps _ (by simp) (by simpa using other),listed.unborn]
  · intro w
    rw [births_setPc]
    split
    · exact (List.nodup_cons.mp once).2
    · exact listed.unbornOnce w

/-! ### Operations -/

/-- The places of blocked threads in lists. -/
@[simp] def Blocked : Place → Prop
  | .asleep | .waiting _ | .unborn _ => True
  | _ => False

/-- A blocked thread is taken from its list. -/
theorem placed_hand (placed : Placed none place s) (blocked : Blocked (place t)) (listed : Listed (move place t .hand) s')
    (count : s'.k.count = s.k.count) (status : s'.status = s.status) (idle_thread : s'.idle_thread = s.idle_thread)
    (current : s'.current = s.current) (scheduling : s'.scheduling = s.scheduling) : Placed (some t) (move place t .hand) s' := by
  have fits := placed.status t
  have keeps : ∀ q, ¬ Blocked q → q ≠ .hand → ∀ u, move place t .hand u = q ↔ place u = q := by
    intro q other free u
    refine move_keeps ?_ free.symm u
    rintro rfl
    exact other blocked
  refine ⟨listed,?_,?_,?_,?_,?_,?_,?_,?_⟩
  · intro u
    rw [move_fills,placed.inHand]
    simp [eq_comm]
  · intro u
    rw [status]
    by_cases self : u = t
    · subst self
      rw [move_self]
      cases was : place u <;> simp_all [Fits]
    · rw [move_other self]
      exact placed.status u
  · intro u
    rw [ne_eq,keeps _ (by simp) (by simp),← ne_eq,← placed.known,is_thread,is_thread,count]
  · intro u
    rw [keeps _ (by simp) (by simp),placed.running,current,scheduling]
  · rw [is_thread,current,count]
    exact placed.current
  · rw [scheduling,status,current]
    exact placed.stopped
  · intro u isIdle
    rw [keeps _ (by simp) (by simp),keeps _ (by simp) (by simp)]
    exact placed.idle u (idle_thread ▸ isIdle)
  · intro u
    rw [keeps _ (by simp) (by simp),idle_thread]
    exact placed.idleOnly u

/-- What `thread_unblock` does to a thread in hand; its assertions hold. -/
theorem placed_unblock (placed : Placed (some t) place s) :
    thread_unblock s t = some ((s.push t).setStatus t .ready) ∧
      Placed none (move place t .ready) ((s.push t).setStatus t .ready) := by
  have held : place t = .hand := (placed.inHand t).mpr rfl
  have status : s.status t = .blocked := by simpa [held,Fits] using placed.status t
  have isThread : is_thread s t := (placed.known t).mpr (by simp [held])
  refine ⟨if_pos ⟨isThread,status⟩,?_⟩
  have keeps : ∀ q, q ≠ .hand → q ≠ .ready → ∀ u, move place t .ready u = q ↔ place u = q :=
    fun q before after u => move_keeps (by rw [held]; exact before.symm) after.symm u
  have listed : Listed (move place t .ready) (s.push t) := listed_push placed.toListed (by simp [held])
  refine ⟨listed_same listed ⟨rfl,fun x => by cases x <;> rfl,rfl,fun _ => rfl⟩,?_,?_,?_,?_,placed.current,?_,?_,?_⟩
  · intro u
    by_cases self : u = t
    · subst self; simp
    · rw [move_other self,placed.inHand]
      simpa using Ne.symm self
  · intro u
    by_cases self : u = t
    · subst self; simp [Fits,Sched.setStatus]
    · rw [move_other self]
      simpa [Sched.setStatus,Sched.push,self] using placed.status u
  · intro u
    rw [ne_eq,keeps _ (by simp) (by simp)]
    exact placed.known u
  · intro u
    rw [keeps _ (by simp) (by simp)]
    exact placed.running u
  · intro stops
    have := placed.stopped stops
    by_cases self : s.current = t
    · simp [Sched.setStatus,Sched.push,self]
    · simpa [Sched.setStatus,Sched.push,self] using this
  · intro u isIdle
    rw [keeps _ (by simp) (by simp),keeps _ (by simp) (by simp)]
    exact placed.idle u isIdle
  · intro u
    rw [keeps _ (by simp) (by simp)]
    exact placed.idleOnly u

theorem place_current (placed : Placed none place s) (runs : s.scheduling = false) : place s.current = .running :=
  (placed.running s.current).mpr ⟨rfl,runs⟩

/-- The current thread stops: it goes to place `p` with status `v`, after its list
    has taken it in. -/
theorem placed_stop {v : Status} (placed : Placed none place s) (runs : s.scheduling = false)
    (listed : Listed (move place s.current p) s') (count : s'.k.count = s.k.count) (status : s'.status = s.status)
    (current : s'.current = s.current) (idle_thread : s'.idle_thread = s.idle_thread) (fits : Fits p v)
    (halts : v ≠ .running) (known : p ≠ .nowhere) (free : p ≠ .hand) (idle : p = .idle ↔ s.idle_thread = some s.current) :
    Placed none (move place s.current p) { s'.setStatus s'.current v with scheduling := true } := by
  have ran : place s.current = .running := place_current placed runs
  have stops : p ≠ .running := by
    rintro rfl
    exact halts fits
  rw [current]
  refine ⟨listed_same listed ⟨rfl,fun x => by cases x <;> rfl,rfl,fun _ => rfl⟩,?_,?_,?_,?_,?_,?_,?_,?_⟩
  · intro t
    rw [move_keeps (by simp [ran]) free]
    exact placed.inHand t
  · intro t
    by_cases self : t = s.current
    · subst self; simpa [Sched.setStatus] using fits
    · rw [move_other self]
      simpa [Sched.setStatus,self,status] using placed.status t
  · intro t
    rw [ne_eq,move_keeps (by simp [ran]) known,← ne_eq,← placed.known]
    simp [is_thread,Sched.setStatus,count]
  · intro t
    constructor
    · intro still
      by_cases self : t = s.current
      · subst self; simp [stops] at still
      · rw [move_other self,placed.running] at still
        exact absurd still.1 self
    · simp
  · show s'.current < s'.k.count
    rw [current,count]
    exact placed.current
  · intro _
    simpa [Sched.setStatus,current] using halts
  · intro t isIdle
    have isIdle' : s.idle_thread = some t := idle_thread ▸ isIdle
    by_cases self : t = s.current
    · rw [self] at isIdle' ⊢
      simp [idle.mpr isIdle']
    · rw [move_other self]
      exact placed.idle t isIdle'
  · intro t moved
    show s'.idle_thread = some t
    rw [idle_thread]
    by_cases self : t = s.current
    · subst self
      exact idle.mp (by simpa using moved)
    · rw [move_other self] at moved
      exact placed.idleOnly t moved

theorem placed_exit (placed : Placed none place s) (runs : s.scheduling = false) (busy : s.idle_thread ≠ some s.current) :
    Placed none (move place s.current .dead) (thread_exit s) := by
  have loose : ¬ InList (place s.current) := by simp [place_current placed runs]
  exact placed_stop placed runs (listed_loose placed.toListed loose (by simp)) rfl rfl rfl rfl rfl (by simp) (by simp)
    (by simp) (by simp [busy])

/-- The idle thread blocks, or is preempted, without entering a list. -/
theorem placed_idle {v : Status} (placed : Placed none place s) (runs : s.scheduling = false)
    (isIdle : s.idle_thread = some s.current) (fits : v = .blocked ∨ v = .ready) :
    Placed none (move place s.current .idle) { s.setStatus s.current v with scheduling := true } := by
  have loose : ¬ InList (place s.current) := by simp [place_current placed runs]
  refine placed_stop placed runs (listed_loose placed.toListed loose (by simp)) rfl rfl rfl rfl fits ?_ (by simp)
    (by simp) (by simp [isIdle])
  rcases fits with rfl | rfl <;> simp

theorem placed_yield (placed : Placed none place s) (runs : s.scheduling = false) :
    ∃ place', Placed none place' (thread_yield s) := by
  have loose : ¬ InList (place s.current) := by simp [place_current placed runs]
  unfold thread_yield
  split
  · next isIdle => exact ⟨_,placed_idle placed runs isIdle (.inr rfl)⟩
  · next busy =>
    refine ⟨move place s.current .ready,?_⟩
    have pushed := listed_push placed.toListed loose
    exact placed_stop placed runs pushed rfl rfl rfl rfl rfl (by simp)
      (by simp) (by simp) (by simp [busy])

theorem yield_pc : (thread_yield s).pc = s.pc := by
  unfold thread_yield
  split <;> rfl
theorem yield_idle : (thread_yield s).idle_thread = s.idle_thread := by
  unfold thread_yield
  split <;> rfl

theorem placed_yieldIf (placed : Placed none place s) (runs : s.scheduling = false) (c : Prop) [Decidable c] :
    ∃ place', Placed none place' (if c then thread_yield s else s) := by
  split
  · exact placed_yield placed runs
  · exact ⟨place,placed⟩

theorem placed_sleep {wake : Tid → Int} {less : Tid → Tid → Bool} (placed : Placed none place s) (runs : s.scheduling = false)
    (busy : s.idle_thread ≠ some s.current) :
    Placed none (move place s.current .asleep) (thread_block { s with
      waiting_ticks := wake, waiting_list := list_sort less (s.waiting_list ++ [s.current]) }) := by
  have loose : ¬ InList (place s.current) := by simp [place_current placed runs]
  exact placed_stop placed runs (listed_sleep placed.toListed loose) rfl rfl rfl rfl rfl (by simp) (by simp) (by simp) (by simp [busy])

theorem placed_down (placed : Placed none place s) (runs : s.scheduling = false) (busy : s.idle_thread ≠ some s.current) :
    ∃ place', Placed none place' (sema_down s x) := by
  have loose : ¬ InList (place s.current) := by simp [place_current placed runs]
  unfold sema_down
  split
  · refine ⟨move place s.current (.waiting x),?_⟩
    have waits := listed_wait (x := x)
      (v := { s.sema x with waiters := list_sort (sort_by_priority s.k) ((s.sema x).waiters ++ [s.current]) })
      placed.toListed loose rfl
    obtain ⟨-,-,count,status,idle_thread,current,-,-⟩ := setSema_frame (s := s) (x := x)
      { s.sema x with waiters := list_sort (sort_by_priority s.k) ((s.sema x).waiters ++ [s.current]) }
    exact placed_stop placed runs (listed_same waits (samePlaces_enter rfl).toSameLists) count status current idle_thread rfl
      (by simp) (by simp) (by simp) (by simp [busy])
  · refine ⟨place,placed_same placed (samePlaces_trans (samePlaces_setSema ?_) (samePlaces_setOwn _))⟩
    rfl

theorem sort_front {less : Tid → Tid → Bool} {ts qs : List Tid} (front : list_sort less ts = t :: qs) : (t :: qs).Perm ts := by
  rw [← front]
  exact list_sort_perm less ts

/-- `sema_up` never fails the assertion of `thread_unblock`. -/
theorem placed_up (placed : Placed none place s) (runs : s.scheduling = false) (stray : Int) :
    ∃ s', sema_up s x stray = some s' ∧ ∃ place', Placed none place' s' := by
  unfold sema_up
  split
  · have up := placed_same placed (samePlaces_setSema (x := x) (v := { s.sema x with value := (s.sema x).value + 1 }) rfl)
    obtain ⟨-,-,-,-,-,-,scheduling,-⟩ := setSema_frame (s := s) (x := x) { s.sema x with value := (s.sema x).value + 1 }
    exact ⟨_,rfl,placed_yieldIf up (scheduling.trans runs) _⟩
  · next wt ts front =>
    obtain ⟨popped,was⟩ := listed_pop_waiter (p := .hand) (v := { s.sema x with waiters := ts }) placed.toListed (by simp)
      (sort_front front)
    obtain ⟨-,-,count,status,idle_thread,current,scheduling,-⟩ := setSema_frame (s := s) (x := x)
      { s.sema x with waiters := ts }
    have held := placed_hand placed (by simp [was]) popped count status idle_thread current scheduling
    obtain ⟨unblocked,woken⟩ := placed_unblock held
    rw [unblocked]
    let after := ((s.setSema x { s.sema x with waiters := ts }).push wt).setStatus wt .ready
    have up := placed_same woken (samePlaces_setSema (x := x) (v := { after.sema x with value := (after.sema x).value + 1 }) rfl)
    obtain ⟨-,-,-,-,-,-,same,-⟩ := setSema_frame (s := after) (x := x)
      { after.sema x with value := (after.sema x).value + 1 }
    exact ⟨_,rfl,placed_yieldIf up (same.trans (scheduling.trans runs)) _⟩

/-- The thread that `next_thread_to_run` gives is taken from its place. -/
theorem placed_schedule (placed : Placed none place s) (stops : s.scheduling = true) (ran : schedule s = some s') :
    ∃ place', Placed none place' s' := by
  unfold schedule at ran
  obtain ⟨⟨next,ts⟩,popped,switched⟩ := Option.bind_eq_some_iff.mp ran
  dsimp only at switched
  split at switched
  · next checks =>
    obtain rfl := Option.some.inj switched
    have idler : ∀ t, place t ≠ .running := by
      intro t running
      have := ((placed.running t).mp running).2
      simp [stops] at this
    have taken : Listed (move place next .running) { s with ready_list := ts } ∧ place next ≠ .nowhere ∧
        place next ≠ .hand := by
      unfold next_thread_to_run at popped
      split at popped
      · next empty =>
        obtain ⟨i,isIdle,same⟩ := Option.map_eq_some_iff.mp popped
        obtain ⟨rfl,rfl⟩ := Prod.mk.inj same
        have was : place i = .idle := (placed.idle i isIdle).resolve_right (idler i)
        refine ⟨listed_same (listed_loose placed.toListed (by simp [was]) (by simp)) ?_,by simp [was],by simp [was]⟩
        exact ⟨empty.symm,fun x => by cases x <;> rfl,rfl,fun _ => rfl⟩
      · next front queue =>
        obtain ⟨rfl,rfl⟩ := Prod.mk.inj (Option.some.inj popped)
        obtain ⟨listed,was⟩ := listed_pop_ready (p := .running) placed.toListed (by simp) queue
        exact ⟨listed,by simp [was],by simp [was]⟩
    obtain ⟨listed,exists_,held⟩ := taken
    refine ⟨move place next .running,?_⟩
    refine ⟨listed_same listed ⟨rfl,fun x => by cases x <;> rfl,rfl,fun _ => rfl⟩,?_,?_,?_,?_,checks.2,by simp,?_,?_⟩
    · intro u
      rw [move_keeps held (by simp)]
      exact placed.inHand u
    · intro u
      by_cases self : u = next
      · subst self; simp [Fits,Sched.setStatus]
      · rw [move_other self]
        simpa [Sched.setStatus,self] using placed.status u
    · intro u
      rw [ne_eq,move_keeps exists_ (by simp)]
      exact placed.known u
    · intro u
      rw [move_fills]
      simp [idler]
    · intro u isIdle
      by_cases self : u = next
      · subst self; simp
      · rw [move_other self]
        exact placed.idle u isIdle
    · intro u
      by_cases self : u = next
      · subst self; simp
      · rw [move_other self]
        exact placed.idleOnly u
  · cases switched

/-- `thread_create` gives a thread that exists nowhere to its creator. -/
theorem placed_init (placed : Placed none place s) {priority : Int} (ran : thread_create s.k priority = some k)
    (between : code.filterMap birth = [s.k.count]) :
    Placed none (move place s.k.count (.unborn s.current)) (({ s with k := k }.setStatus s.k.count .blocked).enter code) := by
  have fresh : place s.k.count = .nowhere := by
    have := (placed.known s.k.count).not.mp (Nat.lt_irrefl _)
    simpa using this
  have before : ¬ InList (place s.k.count) := by simp [fresh]
  have made : k.count = s.k.count + 1 ∧ k.locks = s.k.locks := by
    unfold thread_create at ran
    split at ran
    · obtain rfl := Option.some.inj ran
      exact ⟨rfl,rfl⟩
    · cases ran
  obtain ⟨count,locks⟩ := made
  have born : ∀ u, births (({ s with k := k }.setStatus s.k.count .blocked).enter code) u =
      if u = s.current then s.k.count :: births s u else births s u := by
    intro u
    rw [Sched.enter,births_setPc]
    show (if u = s.current then List.filterMap birth (code ++ s.pc s.current) else births s u) = _
    split
    · next self =>
      rw [List.filterMap_append,between,self]
      rfl
    · rfl
  have queue : ∀ x, ((({ s with k := k }.setStatus s.k.count .blocked).enter code).sema x).waiters = (s.sema x).waiters := by
    intro x
    rw [Sched.enter,sema_setPc]
    cases x with
    | plain n => rfl
    | lock l =>
      show (k.locks l).semaphore.waiters = _
      rw [locks]
      rfl
  refine ⟨⟨?_,placed.readyOnce,?_,?_,?_,placed.asleepOnce,?_,?_⟩,?_,?_,?_,?_,?_,?_,?_,?_⟩
  · intro u
    rw [move_loose before (by simp) (by simp)]
    exact placed.ready u
  · intro x u
    rw [move_loose before (by simp) (by simp),queue]
    exact placed.waiting x u
  · intro x
    rw [queue]
    exact placed.waitingOnce x
  · intro u
    rw [move_loose before (by simp) (by simp)]
    exact placed.asleep u
  · intro v u
    rw [born]
    split
    · next self =>
      rw [self,move_fills,List.mem_cons,placed.unborn,or_comm]
    · next other =>
      rw [move_loose before (by simp) (by simpa using Ne.symm other)]
      exact placed.unborn v u
  · intro v
    rw [born]
    split
    · refine List.nodup_cons.mpr ⟨?_,placed.unbornOnce v⟩
      rw [placed.unborn,fresh]
      simp
    · exact placed.unbornOnce v
  · intro u
    rw [move_keeps (by simp [fresh]) (by simp)]
    exact placed.inHand u
  · intro u
    by_cases self : u = s.k.count
    · subst self
      simp [Fits,Sched.setStatus,Sched.enter,Sched.setPc]
    · rw [move_other self]
      simpa [Sched.setStatus,Sched.enter,Sched.setPc,self] using placed.status u
  · intro u
    show u < k.count ↔ _
    rw [count]
    by_cases self : u = s.k.count
    · subst self
      simp
    · rw [move_other self,← placed.known]
      exact ⟨fun below => Nat.lt_of_le_of_ne (Nat.lt_succ_iff.mp below) self,Nat.lt_succ_of_lt⟩
  · intro u
    rw [move_keeps (by simp [fresh]) (by simp)]
    exact placed.running u
  · show s.current < k.count
    rw [count]
    exact Nat.lt_succ_of_lt placed.current
  · intro stops
    have := placed.stopped stops
    have other : s.current ≠ s.k.count := Nat.ne_of_lt placed.current
    simpa [Sched.setStatus,Sched.enter,Sched.setPc,other] using this
  · intro u isIdle
    rw [move_keeps (by simp [fresh]) (by simp),move_keeps (by simp [fresh]) (by simp)]
    exact placed.idle u isIdle
  · intro u
    rw [move_keeps (by simp [fresh]) (by simp)]
    exact placed.idleOnly u

/-- The loop of `timer_interrupt` moves sleeping threads to `ready_list`. -/
theorem placed_wake (sleepers : List Tid) : ∀ {place : Tid → Place} {s : Sched},
    Placed none place { s with waiting_list := sleepers } → ∃ s', wakeSleepers s false sleepers = some s' ∧
      s'.scheduling = s.scheduling ∧ s'.pc = s.pc ∧ s'.idle_thread = s.idle_thread ∧ ∃ place', Placed none place' s' := by
  induction sleepers with
  | nil => exact fun {place s} placed => ⟨_,rfl,rfl,rfl,rfl,place,placed⟩
  | cons t ts ih =>
    intro place s placed
    unfold wakeSleepers
    split
    · obtain ⟨popped,was⟩ := listed_pop_sleeper (p := .hand) placed.toListed (by simp) rfl
      have held := placed_hand placed (by simp [was]) popped rfl rfl rfl rfl rfl
      obtain ⟨unblocked,woken⟩ := placed_unblock held
      have unblocks : thread_unblock s t = some ((s.push t).setStatus t .ready) := by
        unfold thread_unblock at unblocked ⊢
        split at unblocked
        · next checks => exact if_pos checks
        · cases unblocked
      obtain ⟨s',loop,scheduling,pc,idle_thread,placed'⟩ := ih (s := (s.push t).setStatus t .ready) woken
      exact ⟨s',by rw [unblocks]; exact loop,scheduling,pc,idle_thread,placed'⟩
    · exact ⟨_,rfl,rfl,rfl,rfl,place,placed⟩

theorem placed_timer (placed : Placed none place s) (runs : s.scheduling = false) :
    ∃ s', timer_interrupt s false = some s' ∧ s'.pc = s.pc ∧ s'.idle_thread = s.idle_thread ∧
    ∃ place', Placed none place' s' := by
  have ticks : Placed none place { { s with ticks := s.ticks + 1 } with waiting_list := s.waiting_list } :=
    placed_same placed ⟨⟨rfl,fun x => by cases x <;> rfl,rfl,fun _ => rfl⟩,rfl,rfl,rfl,rfl,rfl⟩
  obtain ⟨woken,loop,scheduling,pc,idle_thread,place',after⟩ := placed_wake s.waiting_list ticks
  have ticked : Placed none place' { woken with thread_ticks := woken.thread_ticks + 1 } :=
    placed_same after ⟨⟨rfl,fun x => by cases x <;> rfl,rfl,fun _ => rfl⟩,rfl,rfl,rfl,rfl,rfl⟩
  refine ⟨_,by rw [timer_interrupt,loop]; rfl,?_,?_,placed_yieldIf ticked (scheduling.trans runs) _⟩
  · split
    · rw [yield_pc]
      exact pc
    · exact pc
  · split
    · rw [yield_idle]
      exact idle_thread
    · exact idle_thread

/-! ### The code of the idle thread -/

/-- What an instruction puts ahead: no idle loop and no new sleep, and a sleep that has
    begun ends when it says; it waits on no semaphore but that of a lock, or its own. -/
def Tame (s : Sched) (i : Instr) (code : List Instr) : Prop :=
  .idle ∉ code ∧ (∀ n, .sleep n ∉ code) ∧ (∀ w, .sleep_until w ∈ code → ∃ n, i = .sleep n ∧ w = s.ticks + n) ∧
    (∀ n, .down (.plain n) ∉ code) ∧ ∀ x, .down_again x ∈ code → i = .down x ∨ i = .down_again x

/-- What an instruction leaves a thread to do: its own code, ahead of the rest. -/
theorem exec_code (ran : exec s stray i = some s') (other : i ≠ .idle) :
    ∃ code, Tame s i code ∧ s'.pc = (s.enter code).pc ∧ s'.idle_thread = s.idle_thread := by
  have same : s.pc = (s.enter []).pc := by
    funext u
    simp only [Sched.enter,Sched.setPc,List.nil_append]
    split
    · next self => rw [self]
    · rfl
  have stays : ∀ s' : Sched, s'.pc = s.pc → s'.idle_thread = s.idle_thread →
      ∃ code, Tame s i code ∧ s'.pc = (s.enter code).pc ∧ s'.idle_thread = s.idle_thread :=
    fun s' pc idle_thread => ⟨[],by simp [Tame],pc.trans same,idle_thread⟩
  have yields : ∀ (s' : Sched) (c : Prop) [Decidable c], s'.pc = s.pc → s'.idle_thread = s.idle_thread →
      ∃ code, Tame s i code ∧ (if c then thread_yield s' else s').pc = (s.enter code).pc ∧
        (if c then thread_yield s' else s').idle_thread = s.idle_thread := by
    intro s' c _ pc idle_thread
    refine stays _ ?_ ?_
    · split
      · rw [yield_pc,pc]
      · exact pc
    · split
      · rw [yield_idle,idle_thread]
      · exact idle_thread
  cases i with
  | acquire l =>
    simp only [exec] at ran
    split at ran
    · cases ran
    · obtain rfl := Option.some.inj ran
      exact ⟨_,by simp [Tame],rfl,rfl⟩
  | release l =>
    simp only [exec] at ran
    split at ran
    · obtain rfl := Option.some.inj ran
      exact ⟨_,by simp [Tame],rfl,rfl⟩
    · cases ran
  | donate l =>
    simp only [exec] at ran
    split at ran
    · obtain rfl := Option.some.inj ran
      exact stays _ rfl rfl
    · split at ran
      · obtain rfl := Option.some.inj ran
        exact ⟨_,by simp [Tame],rfl,rfl⟩
      · obtain rfl := Option.some.inj ran
        exact stays _ rfl rfl
  | record l lh =>
    obtain ⟨k,-,rfl⟩ := Option.map_eq_some_iff.mp ran
    exact stays _ rfl rfl
  | follow lh =>
    simp only [exec] at ran
    split at ran
    · obtain rfl := Option.some.inj ran
      exact stays _ rfl rfl
    · obtain rfl := Option.some.inj ran
      exact ⟨_,by simp [Tame],rfl,rfl⟩
  | raise lh | wait_for l | hold l | unhold l | put priority | yield | sleep_until waiting_ticks | exit =>
    obtain rfl := Option.some.inj ran
    first
      | exact stays _ rfl rfl
      | exact stays _ yield_pc yield_idle
  | down x | down_again x =>
    obtain rfl := Option.some.inj ran
    unfold sema_down
    split
    · exact ⟨[.down_again x],by simp [Tame],by cases x <;> rfl,by cases x <;> rfl⟩
    · exact stays _ (by cases x <;> rfl) (by cases x <;> rfl)
  | up x =>
    simp only [exec,sema_up] at ran
    split at ran
    · obtain rfl := Option.some.inj ran
      exact yields _ _ (by cases x <;> rfl) (by cases x <;> rfl)
    · obtain ⟨woken,unblocked,same⟩ := Option.bind_eq_some_iff.mp ran
      obtain rfl := Option.some.inj same
      simp only [thread_unblock] at unblocked
      split at unblocked
      · obtain rfl := Option.some.inj unblocked
        exact yields _ _ (by cases x <;> rfl) (by cases x <;> rfl)
      · cases unblocked
  | init priority =>
    obtain ⟨k,-,rfl⟩ := Option.map_eq_some_iff.mp ran
    exact ⟨_,by simp [Tame],rfl,rfl⟩
  | unblock t =>
    simp only [exec,thread_unblock] at ran
    split at ran
    · obtain rfl := Option.some.inj ran
      exact stays _ rfl rfl
    · cases ran
  | yield_below priority =>
    obtain rfl := Option.some.inj ran
    exact yields s _ rfl rfl
  | set_priority new_priority | sleep n =>
    obtain rfl := Option.some.inj ran
    exact ⟨_,by simp [Tame],rfl,rfl⟩
  | yield_to_front new_priority =>
    obtain rfl := Option.some.inj ran
    exact yields s _ rfl rfl
  | idle => exact absurd rfl other

/-! ### Steps -/

theorem idleCode_same (idles : IdleCode s) (pc : s'.pc = s.pc) (idle_thread : s'.idle_thread = s.idle_thread) : IdleCode s' where
  own t isIdle := by rw [pc]; exact idles.own t (idle_thread ▸ isIdle)
  only t member := by rw [idle_thread]; exact idles.only t (pc ▸ member)

/-- A thread other than the idle one gets other code. -/
theorem idleCode_setPc (idles : IdleCode s) (busy : s.idle_thread ≠ some t) (free : .idle ∉ code) :
    IdleCode (s.setPc t code) where
  own u isIdle := by
    have other : u ≠ t := by
      rintro rfl
      exact busy isIdle
    simpa [Sched.setPc,other] using idles.own u isIdle
  only u member := by
    by_cases self : u = t
    · subst self
      simp [Sched.setPc,free] at member
    · simp only [Sched.setPc,if_neg self] at member
      exact idles.only u member

theorem record_locks {l : LockId} {lh : Tid} (ran : record s.k l lh = some k) :
    k.count = s.k.count ∧ ∀ m, k.waiters m = s.k.waiters m := by
  have saved : (saveOrig s.k lh).locks = s.k.locks := by
    unfold saveOrig
    split <;> rfl
  refine ⟨(record_same ran).1,?_⟩
  unfold record at ran
  split at ran
  · cases ran
  · split at ran
    · obtain rfl := Option.some.inj ran
      exact fun m => by rw [Kernel.waiters,Kernel.waiters,saved]
    · split at ran
      · cases ran
      · obtain rfl := Option.some.inj ran
        intro m
        show ((saveOrig s.k lh).locks m).semaphore.waiters = _
        rw [saved]
        rfl

theorem setLock_waiters {l : LockId} {r : Lock} (same : r.semaphore = (k.locks l).semaphore) (m : LockId) :
    (k.setLock l r).waiters m = k.waiters m := by
  by_cases self : m = l
  · subst self; simp [Kernel.waiters,Kernel.setLock,same]
  · simp [Kernel.waiters,Kernel.setLock,self]

/-- One instruction other than `thread_unblock`, which needs a thread in hand. -/
theorem placed_exec (placed : Placed none place s) (runs : s.scheduling = false)
    (busy : i = .idle ↔ s.idle_thread = some s.current)
    (unborn : ∀ t, i ≠ .unblock t) (ran : exec s stray i = some s') : ∃ place', Placed none place' s' := by
  have quiet : ∀ s1, SamePlaces s s1 → some s1 = some s' → ∃ place', Placed none place' s' := by
    intro s1 same equal
    exact ⟨place,Option.some.inj equal ▸ placed_same placed same⟩
  have unchanged : some s = some s' → ∃ place', Placed none place' s' := fun equal => ⟨place,Option.some.inj equal ▸ placed⟩
  cases i with
  | acquire l =>
    simp only [exec] at ran
    split at ran
    · cases ran
    · exact quiet _ (samePlaces_enter rfl) ran
  | release l =>
    simp only [exec] at ran
    split at ran
    · refine quiet _ (samePlaces_trans (samePlaces_kernel ?_ ?_) (samePlaces_enter rfl)) ran
      · exact (priority_restoration_frame s.k s.current l stray).1
      · intro m
        rw [Kernel.waiters,(priority_restoration_frame s.k s.current l stray).2.2.1]
        rfl
    · cases ran
  | donate l =>
    simp only [exec] at ran
    split at ran
    · exact unchanged ran
    · split at ran
      · exact quiet _ (samePlaces_enter rfl) ran
      · exact unchanged ran
  | record l lh =>
    obtain ⟨k,recorded,rfl⟩ := Option.map_eq_some_iff.mp ran
    obtain ⟨count,waiters⟩ := record_locks recorded
    exact ⟨place,placed_same placed (samePlaces_kernel count waiters)⟩
  | raise lh =>
    obtain rfl := Option.some.inj ran
    exact ⟨place,placed_same placed (samePlaces_kernel rfl (fun _ => rfl))⟩
  | follow lh =>
    simp only [exec] at ran
    split at ran
    · exact unchanged ran
    · exact quiet _ (samePlaces_enter rfl) ran
  | wait_for l => exact quiet _ (samePlaces_setOwn _) ran
  | down x | down_again x => exact Option.some.inj ran ▸ placed_down placed runs (by simpa using busy)
  | hold l | unhold l =>
    obtain rfl := Option.some.inj ran
    exact ⟨place,placed_same placed (samePlaces_kernel rfl (setLock_waiters rfl))⟩
  | put priority_restore =>
    refine quiet _ (samePlaces_kernel (putPriority_count _) ?_) ran
    intro l
    unfold putPriority
    split <;> rfl
  | up x =>
    obtain ⟨after,up,placed'⟩ := placed_up (x := x) placed runs stray
    exact Option.some.inj (up.symm.trans ran) ▸ placed'
  | init priority =>
    obtain ⟨k,created,rfl⟩ := Option.map_eq_some_iff.mp ran
    exact ⟨_,placed_init placed created rfl⟩
  | unblock t => exact absurd rfl (unborn t)
  | yield_below priority => exact Option.some.inj ran ▸ placed_yieldIf placed runs _
  | set_priority new_priority =>
    exact quiet _ (samePlaces_trans (samePlaces_kernel (k := thread_set_priority s.k s.current new_priority) rfl
      (fun _ => rfl)) (samePlaces_enter rfl)) ran
  | yield_to_front new_priority => exact Option.some.inj ran ▸ placed_yieldIf placed runs _
  | yield => exact Option.some.inj ran ▸ placed_yield placed runs
  | sleep n => exact quiet _ (samePlaces_enter rfl) ran
  | sleep_until waiting_ticks => exact ⟨_,Option.some.inj ran ▸ placed_sleep placed runs (by simpa using busy)⟩
  | exit => exact ⟨_,Option.some.inj ran ▸ placed_exit placed runs (by simpa using busy)⟩
  | idle =>
    obtain rfl := Option.some.inj ran
    exact ⟨_,placed_idle (placed_same placed (samePlaces_enter rfl)) runs (busy.mp rfl) (.inl rfl)⟩

/-- Every state reached has its places, and the idle thread its own code. -/
def Inv (s : Sched) : Prop := IdleCode s ∧ ∃ place, Placed none place s

/-- With an empty `waiting_list`, the loop of `timer_interrupt` ends. -/
def EmptyLoopEnds (_ : Sched) : Event → Prop
  | .timer stray => stray = false
  | _ => True

theorem inv_exec (idles : IdleCode s) (placed : Placed none place s) (runs : s.scheduling = false)
    (code : s.pc s.current = i :: rest) (ran : exec (s.setPc s.current rest) stray i = some s') : Inv s' := by
  by_cases idler : i = .idle
  · subst idler
    have isIdle : s.idle_thread = some s.current := idles.only s.current (by simp [code])
    obtain rfl : rest = [] := by simpa [code] using idles.own s.current isIdle
    have same : SamePlaces s (s.setPc s.current []) := samePlaces_setPc (by rw [births,code]; rfl)
    have after := placed_same placed same
    refine ⟨?_,placed_exec after runs ⟨fun _ => isIdle,fun _ => rfl⟩ (by simp) ran⟩
    obtain rfl := Option.some.inj ran
    refine idleCode_same idles ?_ rfl
    funext u
    by_cases self : u = s.current
    · subst self; simp [thread_block,Sched.setStatus,Sched.enter,Sched.setPc,code]
    · simp [thread_block,Sched.setStatus,Sched.enter,Sched.setPc,self]
  have busy : s.idle_thread ≠ some s.current := by
    intro isIdle
    have := idles.own s.current isIdle
    rw [code] at this
    exact idler (List.cons.inj this).1
  have free : .idle ∉ rest := fun member => busy (idles.only s.current (by simp [code,member]))
  constructor
  · obtain ⟨more,unidle,pc,idle_thread⟩ := exec_code ran idler
    have entered : IdleCode ((s.setPc s.current rest).enter more) := by
      refine idleCode_setPc (idleCode_setPc idles busy free) busy ?_
      simpa [Sched.setPc,unidle.1] using free
    exact idleCode_same entered pc idle_thread
  · by_cases born : ∃ t, i = .unblock t
    · obtain ⟨t,rfl⟩ := born
      obtain ⟨popped,was⟩ : Listed (move place t .hand) (s.setPc s.current rest) ∧ place t = .unborn s.current :=
        listed_birth placed.toListed (by simp) (by rw [births,code]; rfl)
      have held := placed_hand placed (by simp [was]) popped rfl rfl rfl rfl rfl
      obtain ⟨unblocked,woken⟩ := placed_unblock held
      exact ⟨_,Option.some.inj (unblocked.symm.trans ran) ▸ woken⟩
    · have unborn : ∀ t, i ≠ .unblock t := fun t same => born ⟨t,same⟩
      have barren : birth i = none := by
        cases i <;> first | rfl | exact absurd rfl (unborn _)
      have same : SamePlaces s (s.setPc s.current rest) :=
        samePlaces_setPc (by rw [births,code,List.filterMap_cons_none barren])
      have after := placed_same placed same
      refine placed_exec after runs ?_ unborn ran
      exact ⟨fun same => absurd same idler,fun isIdle => absurd isIdle busy⟩

theorem inv_step {e : Event} (inv : Inv s) (meets : EmptyLoopEnds s e) (ran : step s e = some s') : Inv s' := by
  obtain ⟨idles,place,placed⟩ := inv
  cases e with
  | call c =>
    simp only [step] at ran
    split at ran
    · next checks =>
      obtain rfl := Option.some.inj ran
      have empty : s.pc s.current = [] := List.isEmpty_iff.mp checks.2
      have busy : s.idle_thread ≠ some s.current := by
        intro isIdle
        simp [idles.own s.current isIdle] at empty
      refine ⟨idleCode_setPc idles busy ?_,place,placed_same placed (samePlaces_setPc ?_)⟩
      · cases c <;> simp [Scheduler.code]
      · rw [births,empty]
        cases c <;> rfl
    · cases ran
  | exec stray =>
    simp only [step] at ran
    split at ran
    · cases ran
    · next running =>
      have runs : s.scheduling = false := by simpa using running
      split at ran
      · cases ran
      · next i rest code =>
        exact inv_exec idles placed runs code ran
  | timer stray =>
    simp only [step] at ran
    split at ran
    · next enabled =>
      have runs : s.scheduling = false := by
        unfold interruptible at enabled
        simp only [Bool.and_eq_true,Bool.not_eq_true'] at enabled
        exact enabled.1
      obtain rfl : stray = false := meets
      obtain ⟨after,ticked,pc,idle_thread,place',placed'⟩ := placed_timer placed runs
      obtain rfl : after = s' := Option.some.inj (ticked.symm.trans ran)
      exact ⟨idleCode_same idles pc idle_thread,place',placed'⟩
    · cases ran
  | schedule =>
    simp only [step] at ran
    split at ran
    · next stops =>
      refine ⟨?_,placed_schedule placed stops ran⟩
      unfold schedule at ran
      obtain ⟨⟨next,ts⟩,-,switched⟩ := Option.bind_eq_some_iff.mp ran
      dsimp only at switched
      split at switched
      · obtain rfl := Option.some.inj switched
        exact idleCode_same idles rfl rfl
      · cases switched
    · cases ran

/-- At boot, the initial thread runs and no thread is in a list. -/
def bootPlace : Tid → Place
  | 0 => .running
  | 1 => .idle
  | _ + 2 => .nowhere

theorem placed_boot : Placed none bootPlace boot := by
  have loose : ∀ t q, InList q → bootPlace t ≠ q := by
    rintro t q inList rfl
    revert inList
    unfold bootPlace
    split <;> simp
  have semas : ∀ x, (boot.sema x).waiters = [] := fun x => by cases x <;> rfl
  have born : ∀ u, births boot u = [] := by
    intro u
    simp only [births,boot]
    split <;> rfl
  refine ⟨⟨?_,.nil,?_,?_,?_,.nil,?_,?_⟩,?_,?_,?_,?_,?_,by simp [boot],?_,?_⟩
  · intro t
    exact iff_of_false List.not_mem_nil (loose t _ (by simp))
  · intro x t
    rw [semas]
    exact iff_of_false List.not_mem_nil (loose t _ (by simp))
  · intro x
    rw [semas]
    exact .nil
  · intro t
    exact iff_of_false List.not_mem_nil (loose t _ (by simp))
  · intro u t
    rw [born]
    exact iff_of_false List.not_mem_nil (loose t _ (by simp))
  · intro u
    rw [born]
    exact .nil
  · intro t
    rcases t with _ | _ | n
    · simp [bootPlace]
    · simp [bootPlace]
    · simp [bootPlace]
  · intro t
    rcases t with _ | _ | n
    · rfl
    · exact .inl rfl
    · trivial
  · intro t
    rcases t with _ | _ | n
    · simp [is_thread,boot,bootPlace]
    · simp [is_thread,boot,bootPlace]
    · simp [is_thread,boot,bootPlace]
  · intro t
    rcases t with _ | _ | n
    · simp [boot,bootPlace]
    · simp [boot,bootPlace]
    · simp [boot,bootPlace]
  · show (0 : Nat) < 2
    decide
  · intro t isIdle
    obtain rfl : 1 = t := Option.some.inj isIdle
    exact .inl rfl
  · intro t place
    rcases t with _ | _ | n
    · simp [bootPlace] at place
    · rfl
    · simp [bootPlace] at place

theorem inv_boot : Inv boot := by
  refine ⟨⟨?_,?_⟩,bootPlace,placed_boot⟩
  · intro t isIdle
    obtain rfl : 1 = t := Option.some.inj isIdle
    rfl
  · intro t member
    by_cases self : t = 1
    · subst self; rfl
    · simp [boot,self] at member

theorem reaches_places (reached : Reaches machine EmptyLoopEnds s) : Inv s := by
  refine reaches_invariant Inv ?_ ?_ reached
  · intro s initial
    obtain rfl : s = boot := initial
    exact inv_boot
  · intro s e s' inv meets ran
    exact inv_step inv meets ran

/-! ### No thread is lost or queued twice -/

/-- In none of the lists that threads are linked into. -/
structure Unlinked (s : Sched) (t : Tid) : Prop where
  ready : t ∉ s.ready_list
  waiters : ∀ x, t ∉ (s.sema x).waiters
  sleepers : t ∉ s.waiting_list

/-- The one place of a live thread. -/
inductive InOnePlace (s : Sched) (t : Tid) : Prop
  | runs (status : s.status t = .running) (current : t = s.current) (unlinked : Unlinked s t)
  | ready (status : s.status t = .ready) (once : s.ready_list.count t = 1) (waiters : ∀ x, t ∉ (s.sema x).waiters)
      (sleepers : t ∉ s.waiting_list)
  | waits (x : Sema) (status : s.status t = .blocked) (once : (s.sema x).waiters.count t = 1)
      (waiters : ∀ y, y ≠ x → t ∉ (s.sema y).waiters) (ready : t ∉ s.ready_list) (sleepers : t ∉ s.waiting_list)
  | sleeps (status : s.status t = .blocked) (once : s.waiting_list.count t = 1)
      (waiters : ∀ x, t ∉ (s.sema x).waiters) (ready : t ∉ s.ready_list)

theorem unlinked_loose (placed : Placed none place s) (loose : place t ≠ .ready) (awake : place t ≠ .asleep)
    (free : ∀ x, place t ≠ .waiting x) : Unlinked s t where
  ready := by rw [placed.ready]; exact loose
  waiters x := by rw [placed.waiting]; exact free x
  sleepers := by rw [placed.asleep]; exact awake

theorem inOnePlace (placed : Placed none place s) (isThread : is_thread s t)
    (live : s.status t ≠ .dying) (busy : s.idle_thread ≠ some t) (born : ¬ Newborn s t) :
    InOnePlace s t := by
  have status := placed.status t
  cases was : place t with
  | running =>
    rw [was] at status
    exact .runs status ((placed.running t).mp was).1 (unlinked_loose placed (by simp [was]) (by simp [was]) (by simp [was]))
  | ready =>
    rw [was] at status
    refine .ready status ?_ (by simp [placed.waiting,was]) (by simp [placed.asleep,was])
    exact List.count_eq_one_of_mem placed.readyOnce ((placed.ready t).mpr was)
  | asleep =>
    rw [was] at status
    refine .sleeps status ?_ (by simp [placed.waiting,was]) (by simp [placed.ready,was])
    exact List.count_eq_one_of_mem placed.asleepOnce ((placed.asleep t).mpr was)
  | waiting x =>
    rw [was] at status
    refine .waits x status ?_ ?_ (by simp [placed.ready,was]) (by simp [placed.asleep,was])
    · exact List.count_eq_one_of_mem (placed.waitingOnce x) ((placed.waiting x t).mpr was)
    · intro y other
      rw [placed.waiting,was]
      simpa using Ne.symm other
  | idle => exact absurd (placed.idleOnly t was) busy
  | hand => exact absurd ((placed.inHand t).mp was) (by simp)
  | dead =>
    rw [was] at status
    exact absurd status live
  | nowhere => exact absurd was ((placed.known t).mp isThread)
  | unborn u => exact absurd ⟨u,(placed.unborn u t).mpr was⟩ born

theorem status_running (placed : Placed none place s) (runs : s.scheduling = false) (isThread : is_thread s t) :
    s.status t = .running ↔ t = s.current := by
  have status := placed.status t
  constructor
  · intro running
    rw [running] at status
    cases was : place t with
    | running => exact ((placed.running t).mp was).1
    | nowhere => exact absurd was ((placed.known t).mp isThread)
    | _ => simp [was,Fits] at status
  · rintro rfl
    simpa [place_current placed runs,Fits] using status

/-- The dead, the idle thread and the threads not yet unblocked. -/
theorem unlinked_out (placed : Placed none place s) (out : s.status t = .dying ∨ s.idle_thread = some t ∨ Newborn s t) :
    Unlinked s t := by
  have status := placed.status t
  rcases out with dying | isIdle | ⟨u,born⟩
  · rw [dying] at status
    refine unlinked_loose placed ?_ ?_ ?_
    · intro was
      simp [was,Fits] at status
    · intro was
      simp [was,Fits] at status
    · intro x was
      simp [was,Fits] at status
  · rcases placed.idle t isIdle with was | was
    · exact unlinked_loose placed (by simp [was]) (by simp [was]) (by simp [was])
    · exact unlinked_loose placed (by simp [was]) (by simp [was]) (by simp [was])
  · have was := (placed.unborn u t).mp born
    exact unlinked_loose placed (by simp [was]) (by simp [was]) (by simp [was])

theorem newborn_blocked (reached : Reaches machine EmptyLoopEnds s) (born : Newborn s t) : s.status t = .blocked := by
  obtain ⟨-,place,placed⟩ := reaches_places reached
  obtain ⟨u,member⟩ := born
  simpa [(placed.unborn u t).mp member,Fits] using placed.status t

/-- In every state of a run in which the loop of `timer_interrupt` ends at an empty
    `waiting_list`: one thread has status running, every live thread is in one place,
    the idle thread, the dead and those not yet unblocked are in no list, and no call
    of `thread_unblock` fails. -/
theorem every_thread_in_one_place (reached : Reaches machine EmptyLoopEnds s) (runs : s.scheduling = false) :
    (∀ t, is_thread s t → (s.status t = .running ↔ t = s.current)) ∧
    (∀ t, is_thread s t → s.status t ≠ .dying → s.idle_thread ≠ some t → ¬ Newborn s t → InOnePlace s t) ∧
    (∀ t, s.status t = .dying ∨ s.idle_thread = some t ∨ Newborn s t → t ∉ s.ready_list ∧
      (∀ x, t ∉ (s.sema x).waiters) ∧ t ∉ s.waiting_list) ∧
    (∀ x rest stray, s.pc s.current = .up x :: rest → (step s (.exec stray)).isSome) ∧
    (∀ t rest stray, s.pc s.current = .unblock t :: rest → (step s (.exec stray)).isSome) ∧
    (interruptible s → (step s (.timer false)).isSome) := by
  obtain ⟨-,place,placed⟩ := reaches_places reached
  refine ⟨?_,?_,?_,?_,?_,?_⟩
  · intro t isThread
    exact status_running placed runs isThread
  · intro t isThread live busy born
    exact inOnePlace placed isThread live busy born
  · intro t out
    obtain ⟨ready,waiters,sleepers⟩ := unlinked_out placed out
    exact ⟨ready,waiters,sleepers⟩
  · intro x rest stray code
    have barren : rest.filterMap birth = births s s.current := by
      rw [births,code]
      rfl
    obtain ⟨s',up,-⟩ := placed_up (x := x) (placed_same placed (samePlaces_setPc barren)) runs stray
    simp [step,runs,code,exec,up]
  · intro t rest stray code
    obtain ⟨popped,was⟩ : Listed (move place t .hand) (s.setPc s.current rest) ∧ place t = .unborn s.current :=
      listed_birth placed.toListed (by simp) (by rw [births,code]; rfl)
    obtain ⟨unblocked,-⟩ := placed_unblock (placed_hand placed (by simp [was]) popped rfl rfl rfl rfl rfl)
    simp [step,runs,code,exec,unblocked]
  · intro enabled
    obtain ⟨s',ticked,-⟩ := placed_timer placed runs
    simp [step,enabled,ticked]

/-- The main thread sleeps, the idle thread runs until the alarm, and the main thread
    waits for its turn in `ready_list`. -/
def sleepsOnce : List Event :=
  [.call (.timer_sleep 1),.exec 0,.exec 0,.schedule,.timer false]

instance (s : Sched) : (e : Event) → Decidable (EmptyLoopEnds s e)
  | .timer stray => inferInstanceAs (Decidable (stray = false))
  | .call _ | .exec _ | .schedule => .isTrue trivial

theorem every_thread_in_one_place_awoken : ∃ s, guardedRun step EmptyLoopEnds boot sleepsOnce = some s ∧
    s.scheduling = false ∧ s.current = 1 ∧ s.ready_list = [0] ∧ InOnePlace s 0 := by
  have reached := guardedRun_reachable boot step EmptyLoopEnds sleepsOnce rfl
  refine ⟨_,rfl,rfl,rfl,rfl,?_⟩
  refine (every_thread_in_one_place reached rfl).2.1 0 (by decide) (by decide) (by decide) ?_
  intro born
  have blocked := newborn_blocked reached born
  exact absurd blocked (by decide)

end Pintos.Queues
