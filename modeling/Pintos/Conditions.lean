import Pintos.Locks

/-!
Condition variables: `cond_wait`, `cond_signal` and `cond_broadcast` of
`threads/synch.c` over the locks of `Pintos.Locks`, for any number of threads, locks
and conditions, each condition with the one lock `lock_of` gives it. The test of the
loop of `cond_broadcast`, the removal of a waiter and the `sema_up` of its semaphore
are steps of their own, with any steps of other threads between them. `sema_up` may
yield at its end; when it woke nobody it decides that by an uninitialised pointer.

`waits`, `signals`, `stage` and `log` are not in the source and no step asks for
them but to write them. They name every call of `cond_wait` and `cond_signal` by its
thread and its number there, and keep what happened to it, latest first.
-/
namespace Pintos.Conditions
open Pintos.Machines Pintos.Locks
set_option linter.unusedSimpArgs false

/-- The position of a thread in `cond_signal` and `cond_broadcast`. -/
inductive Doing
  | out
  /-- At the assertions of `cond_signal`, from the loop of `cond_broadcast` or not. -/
  | signal (c : CondId) (broadcast : Bool)
  /-- Before the `sema_up` of the waiter of `wt`, which is no longer in the list. -/
  | popped (c : CondId) (wt : Tid) (broadcast : Bool)
  /-- At the test of the loop of `cond_broadcast`. -/
  | loop (c : CondId)
deriving DecidableEq

/-- A call of `cond_wait`, or of `cond_signal`: the thread and its how manieth. -/
abbrev Call := Tid × Nat

/-- How far a thread's `cond_wait` has come, and by which `cond_signal`. -/
inductive Stage
  | out
  | queued (c : CondId)
  | removed (c : CondId) (signal : Call)
  | raised (c : CondId) (signal : Call)
deriving DecidableEq

inductive Entry
  | enqueued (wait : Call) (c : CondId)
  | removed (signal wait : Call) (c : CondId)
  | raised (signal wait : Call)
  | returned (wait : Call)
deriving DecidableEq

structure Monitors where
  kernel : Kernel
  /-- `priority` of the waiter of each thread. -/
  priority : Tid → Int
  doing : Tid → Doing
  waits : Tid → Nat
  signals : Tid → Nat
  stage : Tid → Stage
  log : List Entry

inductive Event
  | lock_acquire (t : Tid) (l : LockId)
  | lock_try_acquire (t : Tid) (l : LockId)
  | lock_release (t : Tid) (l : LockId)
  /-- `priority` is the priority of `t` at the call. -/
  | cond_wait (t : Tid) (c : CondId) (priority : Int)
  | cond_signal (t : Tid) (c : CondId)
  | cond_broadcast (t : Tid) (c : CondId)
  /-- The next step of a thread; `wt` is the waiter that a `sema_up` of a lock wakes. -/
  | run (t : Tid) (wt : Tid)

/-- The thread that takes a step. -/
def Event.tid : Event → Tid
  | .lock_acquire t _ | .lock_try_acquire t _ | .lock_release t _ => t
  | .cond_wait t _ _ | .cond_signal t _ | .cond_broadcast t _ | .run t _ => t

def sort_cond_by_priority (priority : Tid → Int) (a b : Tid) : Bool := priority a > priority b

def list_insert_ordered (less : Tid → Tid → Bool) (t : Tid) : List Tid → List Tid
  | [] => [t]
  | e :: rest => if less t e then t :: e :: rest else e :: list_insert_ordered less t rest

def Monitors.setDoing (s : Monitors) (t : Tid) (d : Doing) : Monitors := { s with doing := Function.update s.doing t d }

/-- `cond_signal` is called. -/
def Monitors.startSignal (s : Monitors) (t : Tid) (c : CondId) (broadcast : Bool) : Monitors :=
  { s.setDoing t (.signal c broadcast) with signals := Function.update s.signals t (s.signals t + 1) }

/-- Where `cond_signal` returns to. -/
def caller (c : CondId) : Bool → Doing
  | true => .loop c
  | false => .out

/-- A step of the operations of locks. -/
def lockStep (s : Monitors) (t : Tid) (event : Locks.Event) : Option Monitors :=
  if s.doing t = .out then (Locks.step s.kernel event).map fun k => { s with kernel := k } else none

def cond_wait (lock_of : CondId → LockId) (s : Monitors) (t : Tid) (c : CondId) (priority : Int) : Option Monitors :=
  if s.doing t = .out ∧ s.kernel.pc t = .out ∧ lock_held_by_current_thread s.kernel t (lock_of c) then
    let priorities := Function.update s.priority t priority
    some { s with
      kernel := { s.kernel with
        conditions := Function.update s.kernel.conditions c
          (list_insert_ordered (sort_cond_by_priority priorities) t (s.kernel.conditions c))
        waiter_value := Function.update s.kernel.waiter_value t 0 }.setPc t (.releasing (lock_of c) true)
      priority := priorities
      waits := Function.update s.waits t (s.waits t + 1)
      stage := Function.update s.stage t (.queued c)
      log := .enqueued (t,s.waits t + 1) c :: s.log }
  else none

/-- `cond_signal` as far as `list_pop_front`. -/
def cond_signal (lock_of : CondId → LockId) (s : Monitors) (t : Tid) (c : CondId) (broadcast : Bool) : Option Monitors :=
  if lock_held_by_current_thread s.kernel t (lock_of c) then
    match s.kernel.conditions c with
    | [] => some (s.setDoing t (caller c broadcast))
    | wt :: rest => some { s.setDoing t (.popped c wt broadcast) with
        kernel := { s.kernel with conditions := Function.update s.kernel.conditions c rest }
        stage := Function.update s.stage wt (.removed c (t,s.signals t))
        log := .removed (t,s.signals t) (wt,s.waits wt) c :: s.log }
  else none

/-- `sema_up` of the semaphore of the waiter, and the return of `cond_signal`. -/
def raise (s : Monitors) (t : Tid) (c : CondId) (wt : Tid) (broadcast : Bool) : Monitors :=
  { s.setDoing t (caller c broadcast) with
    kernel := signal s.kernel wt
    stage := Function.update s.stage wt (.raised c (t,s.signals t))
    log := .raised (t,s.signals t) (wt,s.waits wt) :: s.log }

/-- The thread's own step of the operations of locks; at its end `cond_wait` returns. -/
def ran (s : Monitors) (t : Tid) (k : Kernel) : Monitors :=
  if k.pc t = .out ∧ s.stage t ≠ .out then
    { s with kernel := k, stage := Function.update s.stage t .out, log := .returned (t,s.waits t) :: s.log }
  else { s with kernel := k }

def step (lock_of : CondId → LockId) (s : Monitors) : Event → Option Monitors
  | .lock_acquire t l => lockStep s t (.lock_acquire t l)
  | .lock_try_acquire t l => lockStep s t (.lock_try_acquire t l)
  | .lock_release t l => lockStep s t (.lock_release t l)
  | .cond_wait t c priority => cond_wait lock_of s t c priority
  | .cond_signal t c =>
    if s.doing t = .out ∧ s.kernel.pc t = .out ∧ lock_held_by_current_thread s.kernel t (lock_of c) then
      some (s.startSignal t c false)
    else none
  | .cond_broadcast t c =>
    if s.doing t = .out ∧ s.kernel.pc t = .out ∧ lock_held_by_current_thread s.kernel t (lock_of c) then
      some (s.setDoing t (.loop c))
    else none
  | .run t wt =>
    match s.doing t with
    | .out => (runStep s.kernel t wt (s.kernel.pc t)).map (ran s t)
    | .loop c => some (if s.kernel.conditions c = [] then s.setDoing t .out else s.startSignal t c true)
    | .signal c broadcast => cond_signal lock_of s t c broadcast
    | .popped c waiter broadcast => some (raise s t c waiter broadcast)

def cond_init : Monitors where
  kernel := boot
  priority _ := 31
  doing _ := .out
  waits _ := 0
  signals _ := 0
  stage _ := .out
  log := []

def machine (lock_of : CondId → LockId) : Machine Monitors Event := ofStep cond_init (step lock_of)

/-- `u` is in a `cond_wait` on `c`. -/
def Waits (s : Monitors) (c : CondId) (u : Tid) : Prop :=
  match s.stage u with
  | .out => False
  | .queued d | .removed d _ | .raised d _ => d = c

/-- Before the `sema_down` of the thread's own semaphore has succeeded. -/
def Early (l : LockId) : Pc → Prop
  | .releasing m true | .unheld m true | .waiting m | .sleeping m => m = l
  | _ => False

/-- In the `lock_acquire` of `cond_wait`. -/
def Late (l : LockId) : Pc → Prop
  | .reacquiring m | .acquiring m | .queued m | .woken m | .downed m => m = l
  | _ => False

/-- Nothing but the lock keeps `u` from returning from its `cond_wait` on `c`. -/
def Eligible (lock_of : CondId → LockId) (s : Monitors) (c : CondId) (u : Tid) : Prop :=
  Waits s c u ∧ (Early (lock_of c) (s.kernel.pc u) ∧ s.kernel.waiter_value u ≠ 0 ∧ s.kernel.pc u ≠ .sleeping (lock_of c) ∨
    Late (lock_of c) (s.kernel.pc u))

/-! ### Where threads stand -/

/-- Outside `cond_wait`. -/
def Plain : Pc → Prop
  | .releasing _ true | .unheld _ true | .waiting _ | .sleeping _ | .reacquiring _ => False
  | _ => True

/-- What a thread's stage says of its place and of its own semaphore. -/
def Standing (lock_of : CondId → LockId) (k : Kernel) (u : Tid) : Stage → Prop
  | .out => Plain (k.pc u)
  | .queued c => u ∈ k.conditions c ∧ k.waiter_value u = 0 ∧ Early (lock_of c) (k.pc u)
  | .removed c _ => k.waiter_value u = 0 ∧ Early (lock_of c) (k.pc u)
  | .raised c _ => k.waiter_value u = 1 ∧ Early (lock_of c) (k.pc u) ∧ k.pc u ≠ .sleeping (lock_of c) ∨
      k.waiter_value u = 0 ∧ Late (lock_of c) (k.pc u)

/-- A thread in `cond_signal` or `cond_broadcast` holds the lock. -/
def Busy (lock_of : CondId → LockId) (s : Monitors) (t : Tid) : Doing → Prop
  | .out => True
  | .signal c _ | .loop c => s.kernel.pc t = .out ∧ lock_held_by_current_thread s.kernel t (lock_of c)
  | .popped c wt _ => (s.kernel.pc t = .out ∧ lock_held_by_current_thread s.kernel t (lock_of c)) ∧
      s.stage wt = .removed c (t,s.signals t)

structure Inv (lock_of : CondId → LockId) (s : Monitors) : Prop where
  owned : Owned s.kernel
  standing : ∀ u, Standing lock_of s.kernel u (s.stage u)
  busy : ∀ t, Busy lock_of s t (s.doing t)
  queued : ∀ c u, u ∈ s.kernel.conditions c → s.stage u = .queued c
  once : ∀ c, (s.kernel.conditions c).Nodup

section
variable {lock_of : CondId → LockId} {s s' : Monitors} {k k' : Kernel} {t u wt : Tid} {l : LockId} {c d : CondId} {event : Event}
  {pc : Pc} {stage : Stage}

theorem list_insert_ordered_perm (less : Tid → Tid → Bool) (t : Tid) (ts : List Tid) :
    (list_insert_ordered less t ts).Perm (t :: ts) := by
  induction ts with
  | nil => exact List.Perm.refl _
  | cons e rest ih =>
    rw [list_insert_ordered]
    split
    · exact List.Perm.refl _
    · exact (ih.cons e).trans (List.Perm.swap t e rest)

theorem not_early_out : ¬ Early l .out := fun early => early
theorem not_late_out : ¬ Late l .out := fun late => late

/-- A thread in `cond_wait` is somewhere in it. -/
theorem stage_out (standing : Standing lock_of k u stage) (out : k.pc u = .out) : stage = .out := by
  cases stage with
  | out => rfl
  | queued c =>
    rw [Standing,out] at standing
    exact absurd standing.2.2 not_early_out
  | removed c i =>
    rw [Standing,out] at standing
    exact absurd standing.2 not_early_out
  | raised c i =>
    rw [Standing,out] at standing
    rcases standing with ⟨-,early,-⟩ | ⟨-,late⟩
    · exact absurd early not_early_out
    · exact absurd late not_late_out

/-- Only one thread holds a lock. -/
theorem holder_unique (one : lock_held_by_current_thread k t l) (other : lock_held_by_current_thread k u l) : t = u :=
  Option.some.inj (one.symm.trans other)

/-! ### Steps of locks -/

/-- What a step of the operations of locks by `t` does to the place of a thread: it is
    moved by itself, or taken from the queue of a lock. -/
structure Stepped (k k' : Kernel) (t : Tid) : Prop where
  conditions : k'.conditions = k.conditions
  values : ∀ u, u ≠ t → k'.waiter_value u = k.waiter_value u
  others : ∀ u, u ≠ t → k'.pc u = k.pc u ∨ ∃ l, k.pc u = .queued l ∧ k'.pc u = .woken l
  holders : ∀ u l, u ≠ t → lock_held_by_current_thread k u l → lock_held_by_current_thread k' u l

theorem stepped_pc (pc : Pc) : Stepped k (k.setPc t pc) t where
  conditions := rfl
  values _ _ := rfl
  others u other := .inl (by simp [Kernel.setPc,other])
  holders _ _ _ holds := holds

theorem stepped_lock {v : Lock} (holder : ∀ u, u ≠ t → (k.locks l).holder = some u → v.holder = some u) :
    Stepped k ((k.setLock l v).setPc t pc) t where
  conditions := rfl
  values _ _ := rfl
  others u other := .inl (by simp [Kernel.setPc,Kernel.setLock,other])
  holders u m other holds := by
    by_cases same : m = l
    · subst same
      simpa [lock_held_by_current_thread,Kernel.setPc,Kernel.setLock] using holder u other holds
    · simpa [lock_held_by_current_thread,Kernel.setPc,Kernel.setLock,same] using holds

theorem stepped_sema_down : Stepped k (sema_down k t l) t := by
  rw [sema_down]
  split
  · exact stepped_lock fun _ _ holds => holds
  · exact stepped_lock fun _ _ holds => holds

theorem stepped_sema_up (ran : sema_up (k.setPc t pc) t l wt = some k') (moved : ∀ m, pc ≠ .queued m) :
    Stepped k k' t ∧ k'.pc t = pc ∧ k'.waiter_value t = k.waiter_value t := by
  simp only [sema_up] at ran
  split at ran
  · cases ran
    exact ⟨stepped_lock fun _ _ holds => holds,by simp [Kernel.setPc,Kernel.setLock],rfl⟩
  · split at ran
    · next member =>
      cases ran
      have other : wt ≠ t := by
        rintro rfl
        exact moved l (by simpa [Kernel.setPc] using member.2)
      have queued : k.pc wt = .queued l := by simpa [Kernel.setPc,other] using member.2
      refine ⟨⟨rfl,fun _ _ => rfl,?_,?_⟩,by simp [Kernel.setPc,Kernel.setLock,other.symm],rfl⟩
      · intro u notSelf
        by_cases woken : u = wt
        · subst woken
          exact .inr ⟨l,queued,by simp [Kernel.setPc,Kernel.setLock]⟩
        · exact .inl (by simp [Kernel.setPc,Kernel.setLock,woken,notSelf])
      · intro u m _ holds
        by_cases same : m = l
        · subst same
          simpa [lock_held_by_current_thread,Kernel.setPc,Kernel.setLock] using holds
        · simpa [lock_held_by_current_thread,Kernel.setPc,Kernel.setLock,same] using holds
    · cases ran

theorem run_stepped (owned : Owned k) (ran : runStep k t wt (k.pc t) = some k') : Stepped k k' t := by
  have place := fun l => owned.places l t
  cases here : k.pc t with
  | acquiring l =>
    rw [here] at ran
    cases ran
    exact stepped_sema_down
  | woken l =>
    rw [here] at ran
    cases ran
    exact stepped_sema_down
  | trying l =>
    rw [here] at ran
    cases ran
    rw [sema_try_down]
    split
    · exact stepped_lock fun _ _ holds => holds
    · exact stepped_pc .out
  | downed l =>
    rw [here] at ran
    cases ran
    refine stepped_lock fun u _ holds => ?_
    have idle := place l
    rw [here] at idle
    rw [(idle rfl).2] at holds
    cases holds
  | releasing l waits =>
    rw [here] at ran
    cases ran
    refine stepped_lock fun u other holds => ?_
    have owner := place l
    rw [here] at owner
    exact absurd (Option.some.inj (holds.symm.trans (owner rfl))) other
  | unheld l waits =>
    rw [here] at ran
    refine (stepped_sema_up ran ?_).1
    intro m
    cases waits <;> exact fun same => by cases same
  | waiting l =>
    rw [here] at ran
    simp only [runStep] at ran
    split at ran <;> cases ran
    · exact stepped_pc _
    · exact ⟨rfl,fun u other => by simp [Kernel.setPc,other],fun u other => .inl (by simp [Kernel.setPc,other]),
        fun _ _ _ holds => holds⟩
  | reacquiring l =>
    rw [here] at ran
    simp only [runStep] at ran
    split at ran <;> cases ran
    exact stepped_pc _
  | out =>
    rw [here] at ran
    cases ran
  | queued l =>
    rw [here] at ran
    cases ran
  | sleeping l =>
    rw [here] at ran
    cases ran

/-- A turn of the loop of `sema_down`, as its thread sees it. -/
theorem sema_down_self (k : Kernel) (t : Tid) (l : LockId) :
    ((sema_down k t l).pc t = .queued l ∨ (sema_down k t l).pc t = .downed l) ∧
      (sema_down k t l).waiter_value t = k.waiter_value t := by
  rw [sema_down]
  split
  · exact ⟨.inl (by simp [Kernel.setPc]),rfl⟩
  · exact ⟨.inr (by simp [Kernel.setPc]),rfl⟩

/-- A thread outside `cond_wait` stays outside. -/
theorem run_plain (plain : Plain (k.pc t)) (ran : runStep k t wt (k.pc t) = some k') : Plain (k'.pc t) := by
  cases here : k.pc t with
  | acquiring l =>
    rw [here] at ran
    cases ran
    rcases (sema_down_self k t l).1 with queued | downed
    · rw [queued]
      trivial
    · rw [downed]
      trivial
  | woken l =>
    rw [here] at ran
    cases ran
    rcases (sema_down_self k t l).1 with queued | downed
    · rw [queued]
      trivial
    · rw [downed]
      trivial
  | trying l =>
    rw [here] at ran
    cases ran
    rw [sema_try_down]
    split <;> simp [Kernel.setPc,Plain]
  | downed l =>
    rw [here] at ran
    cases ran
    simp [Kernel.setPc,Plain]
  | releasing l waits =>
    rw [here] at ran plain
    cases waits with
    | true => exact absurd plain (fun h => h)
    | false =>
      cases ran
      simp [Kernel.setPc,Plain]
  | unheld l waits =>
    rw [here] at ran plain
    cases waits with
    | true => exact absurd plain (fun h => h)
    | false =>
      rw [(stepped_sema_up ran (fun _ same => by cases same)).2.1]
      trivial
  | waiting l =>
    rw [here] at plain
    exact absurd plain (fun h => h)
  | reacquiring l =>
    rw [here] at plain
    exact absurd plain (fun h => h)
  | out =>
    rw [here] at ran
    cases ran
  | queued l =>
    rw [here] at ran
    cases ran
  | sleeping l =>
    rw [here] at ran
    cases ran

/-- From the call of `cond_wait` to the return of its `sema_down`: the semaphore lets
    its thread by only when it is up, and the thread sleeps only when it is not. -/
theorem run_early (early : Early l (k.pc t)) (ran : runStep k t wt (k.pc t) = some k') :
    Early l (k'.pc t) ∧ k'.waiter_value t = k.waiter_value t ∧ (k'.pc t = .sleeping l → k.waiter_value t = 0) ∨
      k.waiter_value t ≠ 0 ∧ k'.waiter_value t = k.waiter_value t - 1 ∧ Late l (k'.pc t) := by
  cases here : k.pc t with
  | releasing m waits =>
    rw [here] at ran early
    cases waits with
    | false => exact absurd early (fun h => h)
    | true =>
      cases ran
      obtain rfl : m = l := early
      exact .inl ⟨by simp [Kernel.setPc,Early],rfl,by simp [Kernel.setPc]⟩
  | unheld m waits =>
    rw [here] at ran early
    cases waits with
    | false => exact absurd early (fun h => h)
    | true =>
      obtain rfl : m = l := early
      obtain ⟨-,place,value⟩ := stepped_sema_up ran (fun _ same => by cases same)
      rw [place]
      exact .inl ⟨rfl,value,fun same => by cases same⟩
  | waiting m =>
    rw [here] at ran early
    obtain rfl : m = l := early
    simp only [runStep] at ran
    split at ran <;> cases ran
    · next zero => exact .inl ⟨by simp [Kernel.setPc,Early],rfl,fun _ => zero⟩
    · next up => exact .inr ⟨up,by simp [Kernel.setPc],by simp [Kernel.setPc,Late]⟩
  | sleeping m =>
    rw [here] at ran
    cases ran
  | _ =>
    rw [here] at early
    exact absurd early (fun h => h)

/-- From there to the return of `cond_wait`. -/
theorem run_late (late : Late l (k.pc t)) (ran : runStep k t wt (k.pc t) = some k') :
    k'.waiter_value t = k.waiter_value t ∧ (Late l (k'.pc t) ∨ k.pc t = .downed l ∧ k'.pc t = .out) := by
  cases here : k.pc t with
  | acquiring m =>
    rw [here] at ran late
    obtain rfl : m = l := late
    cases ran
    obtain ⟨queued | downed,value⟩ := sema_down_self k t m
    · exact ⟨value,.inl (by rw [queued]; rfl)⟩
    · exact ⟨value,.inl (by rw [downed]; rfl)⟩
  | woken m =>
    rw [here] at ran late
    obtain rfl : m = l := late
    cases ran
    obtain ⟨queued | downed,value⟩ := sema_down_self k t m
    · exact ⟨value,.inl (by rw [queued]; rfl)⟩
    · exact ⟨value,.inl (by rw [downed]; rfl)⟩
  | downed m =>
    rw [here] at ran late
    obtain rfl : m = l := late
    cases ran
    exact ⟨rfl,.inr ⟨rfl,by simp [Kernel.setPc]⟩⟩
  | reacquiring m =>
    rw [here] at ran late
    obtain rfl : m = l := late
    simp only [runStep] at ran
    split at ran <;> cases ran
    exact ⟨rfl,.inl (by simp [Kernel.setPc,Late])⟩
  | queued m =>
    rw [here] at ran
    cases ran
  | _ =>
    rw [here] at late
    exact absurd late (fun h => h)

/-! ### What a step can do -/

/-- The steps of a thread. -/
inductive Taken (lock_of : CondId → LockId) (s s' : Monitors) (t : Tid) : Prop
  | moved (idle : s.doing t = .out) (stepped : Stepped s.kernel s'.kernel t) (owned : Owned s'.kernel)
      (standing : Standing lock_of s'.kernel t (s.stage t)) (result : s' = { s with kernel := s'.kernel })
  | returned (c : CondId) (i : Call) (idle : s.doing t = .out) (stepped : Stepped s.kernel s'.kernel t)
      (owned : Owned s'.kernel) (raised : s.stage t = .raised c i) (here : s.kernel.pc t = .downed (lock_of c))
      (out : s'.kernel.pc t = .out)
      (result : s' = { s with
        kernel := s'.kernel, stage := Function.update s.stage t .out, log := .returned (t,s.waits t) :: s.log })
  | waited (c : CondId) (priority : Int) (idle : s.doing t = .out) (out : s.kernel.pc t = .out)
      (holds : lock_held_by_current_thread s.kernel t (lock_of c)) (result : cond_wait lock_of s t c priority = some s')
  | signalling (c : CondId) (broadcast : Bool) (out : s.kernel.pc t = .out)
      (holds : lock_held_by_current_thread s.kernel t (lock_of c))
      (called : if broadcast then s.doing t = .loop c ∧ s.kernel.conditions c ≠ [] else s.doing t = .out)
      (result : s' = s.startSignal t c broadcast)
  | broadcasting (c : CondId) (idle : s.doing t = .out) (out : s.kernel.pc t = .out)
      (holds : lock_held_by_current_thread s.kernel t (lock_of c)) (result : s' = s.setDoing t (.loop c))
  | finished (c : CondId) (here : s.doing t = .loop c) (empty : s.kernel.conditions c = []) (result : s' = s.setDoing t .out)
  | unheard (c : CondId) (broadcast : Bool) (here : s.doing t = .signal c broadcast) (empty : s.kernel.conditions c = [])
      (result : s' = s.setDoing t (caller c broadcast))
  | popped (c : CondId) (broadcast : Bool) (wt : Tid) (rest : List Tid) (here : s.doing t = .signal c broadcast)
      (queue : s.kernel.conditions c = wt :: rest)
      (result : s' = { s.setDoing t (.popped c wt broadcast) with
        kernel := { s.kernel with conditions := Function.update s.kernel.conditions c rest }
        stage := Function.update s.stage wt (.removed c (t,s.signals t))
        log := .removed (t,s.signals t) (wt,s.waits wt) c :: s.log })
  | raised (c : CondId) (broadcast : Bool) (wt : Tid) (here : s.doing t = .popped c wt broadcast)
      (result : s' = raise s t c wt broadcast)

theorem plain_out (inv : Inv lock_of s) (out : s.kernel.pc t = .out) : s.stage t = .out :=
  stage_out (inv.standing t) out

theorem taken_lock (pc : Pc) {e : Locks.Event} (inv : Inv lock_of s) (out : s.kernel.pc t = .out) (plain : Plain pc)
    (kernel : ∀ k, Locks.step s.kernel e = some k → k = s.kernel.setPc t pc) (ran : lockStep s t e = some s') :
    Taken lock_of s s' t := by
  simp only [lockStep,Option.ite_none_right_eq_some,Option.map_eq_some_iff] at ran
  obtain ⟨idle,k,locked,rfl⟩ := ran
  have moved := kernel k locked
  refine .moved idle ?_ (owned_step inv.owned locked) ?_ rfl
  · show Stepped s.kernel k t
    rw [moved]
    exact stepped_pc pc
  · show Standing lock_of k t (s.stage t)
    rw [plain_out inv out,moved]
    simpa [Standing,Kernel.setPc] using plain

theorem taken_run (inv : Inv lock_of s) (idle : s.doing t = .out) (ran' : runStep s.kernel t wt (s.kernel.pc t) = some k) :
    Taken lock_of s (ran s t k) t := by
  have stepped := run_stepped inv.owned ran'
  have owned : Owned k := owned_run inv.owned rfl ran'
  have standing := inv.standing t
  have keeps : ∀ stay : Standing lock_of k t (s.stage t), Taken lock_of s (ran s t k) t := by
    intro stay
    have inside : ¬ (k.pc t = .out ∧ s.stage t ≠ .out) := fun h => h.2 (stage_out stay h.1)
    simp only [ran,if_neg inside]
    exact .moved idle stepped owned stay rfl
  cases at_ : s.stage t with
  | out =>
    rw [at_] at standing
    refine keeps ?_
    rw [at_]
    exact run_plain standing ran'
  | queued c =>
    rw [at_] at standing
    obtain ⟨member,zero,early⟩ := standing
    refine keeps ?_
    rw [at_]
    rcases run_early early ran' with ⟨early',value,-⟩ | ⟨up,-,-⟩
    · exact ⟨stepped.conditions ▸ member,value.trans zero,early'⟩
    · exact absurd zero up
  | removed c i =>
    rw [at_] at standing
    obtain ⟨zero,early⟩ := standing
    refine keeps ?_
    rw [at_]
    rcases run_early early ran' with ⟨early',value,-⟩ | ⟨up,-,-⟩
    · exact ⟨value.trans zero,early'⟩
    · exact absurd zero up
  | raised c i =>
    rw [at_] at standing
    rcases standing with ⟨one,early,-⟩ | ⟨zero,late⟩
    · refine keeps ?_
      rw [at_]
      rcases run_early early ran' with ⟨early',value,sleeps⟩ | ⟨-,value,late⟩
      · exact .inl ⟨value.trans one,early',fun asleep => by simp [sleeps asleep] at one⟩
      · exact .inr ⟨by rw [value,one],late⟩
    · obtain ⟨value,late' | ⟨here,out⟩⟩ := run_late late ran'
      · refine keeps ?_
        rw [at_]
        exact .inr ⟨value.trans zero,late'⟩
      · have leaves : k.pc t = .out ∧ s.stage t ≠ .out := ⟨out,by rw [at_]; exact fun h => by cases h⟩
        simp only [ran,if_pos leaves]
        exact .returned c i idle stepped owned at_ here out rfl

theorem step_cases (inv : Inv lock_of s) (ran : step lock_of s event = some s') : Taken lock_of s s' event.tid := by
  cases event with
  | lock_acquire t l =>
    have locked := ran
    simp only [step,lockStep,Locks.step,Option.ite_none_right_eq_some,Option.map_eq_some_iff] at locked
    obtain ⟨-,-,⟨⟨out,-⟩,-⟩,-⟩ := locked
    refine taken_lock (.acquiring l) inv out trivial ?_ ran
    intro k stepped
    simp only [Locks.step,Option.ite_none_right_eq_some,Option.some.injEq] at stepped
    exact stepped.2.symm
  | lock_try_acquire t l =>
    have locked := ran
    simp only [step,lockStep,Locks.step,Option.ite_none_right_eq_some,Option.map_eq_some_iff] at locked
    obtain ⟨-,-,⟨⟨out,-⟩,-⟩,-⟩ := locked
    refine taken_lock (.trying l) inv out trivial ?_ ran
    intro k stepped
    simp only [Locks.step,Option.ite_none_right_eq_some,Option.some.injEq] at stepped
    exact stepped.2.symm
  | lock_release t l =>
    have locked := ran
    simp only [step,lockStep,Locks.step,Option.ite_none_right_eq_some,Option.map_eq_some_iff] at locked
    obtain ⟨-,-,⟨⟨out,-⟩,-⟩,-⟩ := locked
    refine taken_lock (.releasing l false) inv out trivial ?_ ran
    intro k stepped
    simp only [Locks.step,Option.ite_none_right_eq_some,Option.some.injEq] at stepped
    exact stepped.2.symm
  | cond_wait t c priority =>
    have called := ran
    simp only [step,cond_wait,Option.ite_none_right_eq_some] at called
    obtain ⟨⟨idle,out,holds⟩,-⟩ := called
    exact .waited c priority idle out holds ran
  | cond_signal t c =>
    simp only [step,Option.ite_none_right_eq_some,Option.some.injEq] at ran
    obtain ⟨⟨idle,out,holds⟩,rfl⟩ := ran
    exact .signalling c false out holds idle rfl
  | cond_broadcast t c =>
    simp only [step,Option.ite_none_right_eq_some,Option.some.injEq] at ran
    obtain ⟨⟨idle,out,holds⟩,rfl⟩ := ran
    exact .broadcasting c idle out holds rfl
  | run t wt =>
    have busy := inv.busy t
    simp only [step] at ran
    split at ran
    · next idle =>
      obtain ⟨k,stepped,rfl⟩ := Option.map_eq_some_iff.mp ran
      exact taken_run inv idle stepped
    · next c here =>
      rw [here] at busy
      cases ran
      by_cases empty : s.kernel.conditions c = []
      · rw [if_pos empty]
        exact .finished c here empty rfl
      · rw [if_neg empty]
        exact .signalling c true busy.1 busy.2 ⟨here,empty⟩ rfl
    · next c broadcast here =>
      simp only [cond_signal,Option.ite_none_right_eq_some] at ran
      obtain ⟨-,ran⟩ := ran
      split at ran <;> cases ran
      · next empty => exact .unheard c broadcast here empty rfl
      · next waiter rest queue => exact .popped c broadcast waiter rest here queue rfl
    · next c waiter broadcast here =>
      cases ran
      exact .raised c broadcast waiter here rfl

/-! ### The invariant -/

/-- Only its own thread, and a `sema_up`, moves a thread in `cond_wait`. -/
theorem standing_other (stepped : Stepped k k' t) (other : u ≠ t) (standing : Standing lock_of k u stage) :
    Standing lock_of k' u stage := by
  have value := stepped.values u other
  have conditions := stepped.conditions
  rcases stepped.others u other with same | ⟨l,queued,woken⟩
  · cases stage <;> simpa only [Standing,same,value,conditions] using standing
  · cases stage with
    | out =>
      rw [Standing,woken]
      trivial
    | queued c =>
      rw [Standing,queued] at standing
      exact absurd standing.2.2 fun h => h
    | removed c i =>
      rw [Standing,queued] at standing
      exact absurd standing.2 fun h => h
    | raised c i =>
      rw [Standing,queued] at standing
      rcases standing with ⟨-,early,-⟩ | ⟨zero,late⟩
      · exact absurd early fun h => h
      · rw [Standing,woken,value]
        exact .inr ⟨zero,late⟩

theorem held_other (stepped : Stepped k k' t) (other : u ≠ t)
    (held : k.pc u = .out ∧ lock_held_by_current_thread k u l) : k'.pc u = .out ∧ lock_held_by_current_thread k' u l := by
  refine ⟨?_,stepped.holders u l other held.2⟩
  rcases stepped.others u other with same | ⟨m,queued,-⟩
  · rw [same,held.1]
  · rw [queued] at held
    cases held.1

/-- A thread that steps in the operations of locks, and may return from `cond_wait`. -/
theorem inv_stepped (inv : Inv lock_of s) (idle : s.doing t = .out) (stepped : Stepped s.kernel s'.kernel t)
    (owned : Owned s'.kernel) (own : Standing lock_of s'.kernel t (s'.stage t)) (doing : s'.doing = s.doing)
    (signals : s'.signals = s.signals) (stages : ∀ u, s.stage u ≠ s'.stage u → u = t ∧ ∃ c i, s.stage t = .raised c i) :
    Inv lock_of s' := by
  have kept : ∀ u c, s.stage u = .queued c → s'.stage u = .queued c := by
    intro u c at_
    refine Decidable.byContradiction fun changed => ?_
    obtain ⟨rfl,d,i,raised⟩ := stages u fun same => changed (same ▸ at_)
    rw [at_] at raised
    cases raised
  have popped : ∀ u c i, s.stage u = .removed c i → s'.stage u = .removed c i := by
    intro u c i at_
    refine Decidable.byContradiction fun changed => ?_
    obtain ⟨rfl,d,j,raised⟩ := stages u fun same => changed (same ▸ at_)
    rw [at_] at raised
    cases raised
  refine ⟨owned,?_,?_,?_,?_⟩
  · intro u
    by_cases self : u = t
    · exact self ▸ own
    · have same : s'.stage u = s.stage u := Decidable.byContradiction fun changed => self (stages u (Ne.symm changed)).1
      rw [same]
      exact standing_other stepped self (inv.standing u)
  · intro u
    rw [doing]
    by_cases self : u = t
    · rw [self,idle]
      trivial
    · have busy := inv.busy u
      cases at_ : s.doing u with
      | out => trivial
      | signal c broadcast =>
        rw [at_] at busy
        exact held_other stepped self busy
      | loop c =>
        rw [at_] at busy
        exact held_other stepped self busy
      | popped c wt broadcast =>
        rw [at_] at busy
        refine ⟨held_other stepped self busy.1,?_⟩
        rw [signals]
        exact popped wt c _ busy.2
  · intro c u member
    rw [stepped.conditions] at member
    exact kept u c (inv.queued c u member)
  · intro c
    rw [stepped.conditions]
    exact inv.once c

/-- A thread that goes on in `cond_signal` or `cond_broadcast`, where it changes nothing. -/
theorem inv_turned (inv : Inv lock_of s) (kernel : s'.kernel = s.kernel) (stage : s'.stage = s.stage)
    (others : ∀ u, u ≠ t → s'.doing u = s.doing u ∧ s'.signals u = s.signals u) (own : Busy lock_of s' t (s'.doing t)) :
    Inv lock_of s' := by
  refine ⟨kernel ▸ inv.owned,?_,?_,?_,?_⟩
  · rw [kernel,stage]
    exact inv.standing
  · intro u
    by_cases self : u = t
    · exact self ▸ own
    · have busy := inv.busy u
      rw [(others u self).1]
      cases at_ : s.doing u with
      | out => trivial
      | _ =>
        rw [at_] at busy
        simp only [Busy,kernel,stage,(others u self).2] at busy ⊢
        exact busy
  · rw [kernel,stage]
    exact inv.queued
  · rw [kernel]
    exact inv.once

theorem setDoing_others (s : Monitors) (t : Tid) (doing : Doing) (u : Tid) (other : u ≠ t) :
    (s.setDoing t doing).doing u = s.doing u ∧ (s.setDoing t doing).signals u = s.signals u :=
  ⟨by simp [Monitors.setDoing,other],rfl⟩

theorem inv_waited {priority : Int} (inv : Inv lock_of s) (ran : cond_wait lock_of s t c priority = some s') :
    Inv lock_of s' := by
  simp only [cond_wait,Option.ite_none_right_eq_some,Option.some.injEq] at ran
  obtain ⟨⟨idle,out,holds⟩,rfl⟩ := ran
  have outside := plain_out inv out
  have fresh : ∀ d, t ∉ s.kernel.conditions d := by
    intro d member
    have queued := inv.queued d t member
    rw [outside] at queued
    cases queued
  have perm := list_insert_ordered_perm (sort_cond_by_priority (Function.update s.priority t priority)) t (s.kernel.conditions c)
  refine ⟨?_,?_,?_,?_,?_⟩
  · refine owned_setPc (k := { s.kernel with conditions := _, waiter_value := _ })
      ⟨inv.owned.units,inv.owned.holder,inv.owned.places⟩ fun m same => ?_
    subst same
    exact holds
  · intro u
    by_cases self : u = t
    · subst self
      simp only [Function.update_self,Standing,Kernel.setPc,Early,and_true]
      exact perm.mem_iff.mpr (List.mem_cons_self ..)
    · have standing := inv.standing u
      simp only [Function.update_of_ne self]
      cases at_ : s.stage u with
      | queued d =>
        rw [at_] at standing
        obtain ⟨member,rest⟩ := standing
        refine ⟨?_,by simpa [Kernel.setPc,self] using rest⟩
        by_cases same : d = c
        · subst same
          simpa [Kernel.setPc] using perm.mem_iff.mpr (List.mem_cons_of_mem _ member)
        · simpa [Kernel.setPc,same] using member
      | _ =>
        rw [at_] at standing
        simpa [Standing,Kernel.setPc,self] using standing
  · intro u
    by_cases self : u = t
    · subst self
      simp only [idle]
      trivial
    · have busy := inv.busy u
      simp only
      cases at_ : s.doing u with
      | out => trivial
      | popped d wt broadcast =>
        rw [at_] at busy
        have other : wt ≠ t := fun self => by cases outside.symm.trans (self ▸ busy.2)
        simpa [Busy,Kernel.setPc,self,other,lock_held_by_current_thread] using busy
      | _ =>
        rw [at_] at busy
        simpa [Busy,Kernel.setPc,self,lock_held_by_current_thread] using busy
  · intro d u member
    by_cases same : d = c
    · subst same
      simp only [Kernel.setPc,Function.update_self] at member
      rcases List.mem_cons.mp (perm.mem_iff.mp member) with rfl | before
      · simp
      · have other : u ≠ t := fun self => fresh d (self ▸ before)
        simpa [other] using inv.queued d u before
    · have before : u ∈ s.kernel.conditions d := by simpa [Kernel.setPc,same] using member
      have other : u ≠ t := fun self => fresh d (self ▸ before)
      simpa [other] using inv.queued d u before
  · intro d
    by_cases same : d = c
    · subst same
      simpa [Kernel.setPc] using perm.nodup_iff.mpr (List.nodup_cons.mpr ⟨fresh d,inv.once d⟩)
    · simpa [Kernel.setPc,same] using inv.once d

/-- `list_pop_front` of a condition. -/
theorem inv_popped {broadcast : Bool} {rest : List Tid} {log : List Entry} (inv : Inv lock_of s)
    (here : s.doing t = .signal c broadcast) (queue : s.kernel.conditions c = wt :: rest) :
    Inv lock_of { s.setDoing t (.popped c wt broadcast) with
      kernel := { s.kernel with conditions := Function.update s.kernel.conditions c rest }
      stage := Function.update s.stage wt (.removed c (t,s.signals t))
      log := log } := by
  have at_ := inv.queued c wt (by rw [queue]; exact List.mem_cons_self ..)
  have once := inv.once c
  rw [queue,List.nodup_cons] at once
  have held := inv.busy t
  rw [here] at held
  refine ⟨⟨inv.owned.units,inv.owned.holder,inv.owned.places⟩,?_,?_,?_,?_⟩
  · intro u
    have standing := inv.standing u
    by_cases self : u = wt
    · subst self
      rw [at_] at standing
      simpa [Standing] using standing.2
    · simp only [Function.update_of_ne self]
      cases place : s.stage u with
      | queued d =>
        rw [place] at standing
        obtain ⟨member,stays⟩ := standing
        refine ⟨?_,stays⟩
        by_cases same : d = c
        · subst same
          rw [queue] at member
          simpa using (List.mem_cons.mp member).resolve_left self
        · simpa [same] using member
      | _ =>
        rw [place] at standing
        simpa [Standing] using standing
  · intro u
    by_cases self : u = t
    · subst self
      simp only [Monitors.setDoing,Function.update_self]
      exact ⟨held,by simp⟩
    · have busy := inv.busy u
      simp only [Monitors.setDoing,Function.update_of_ne self]
      cases place : s.doing u with
      | popped d waiter b =>
        rw [place] at busy
        refine ⟨busy.1,?_⟩
        have other : waiter ≠ wt := fun same => by cases at_.symm.trans (same ▸ busy.2)
        simpa [other] using busy.2
      | out => trivial
      | _ =>
        rw [place] at busy
        exact busy
  · intro d u member
    by_cases same : d = c
    · subst same
      have behind : u ∈ rest := by simpa using member
      have other : u ≠ wt := fun self => once.1 (self ▸ behind)
      simpa [other] using inv.queued d u (by rw [queue]; exact List.mem_cons_of_mem _ behind)
    · have before : u ∈ s.kernel.conditions d := by simpa [same] using member
      have queued := inv.queued d u before
      have other : u ≠ wt := by
        rintro rfl
        rw [at_] at queued
        exact same (by cases queued; rfl)
      simpa [other] using queued
  · intro d
    by_cases same : d = c
    · subst same
      simpa using once.2
    · simpa [same] using inv.once d

/-- What `sema_up` does to the waiter's thread. -/
theorem signal_spec (k : Kernel) (wt : Tid) :
    (signal k wt).conditions = k.conditions ∧ (signal k wt).locks = k.locks ∧
      (signal k wt).waiter_value = Function.update k.waiter_value wt (k.waiter_value wt + 1) ∧
      (∀ u, u ≠ wt → (signal k wt).pc u = k.pc u) ∧
      (signal k wt).pc wt = (match k.pc wt with | .sleeping l => .waiting l | pc => pc) := by
  cases at_ : k.pc wt with
  | sleeping l =>
    simp only [signal,at_]
    exact ⟨rfl,rfl,rfl,fun u other => by simp [Kernel.setPc,other],by simp [Kernel.setPc]⟩
  | _ =>
    simp [signal,at_]

theorem inv_raised {broadcast : Bool} (inv : Inv lock_of s) (here : s.doing t = .popped c wt broadcast) :
    Inv lock_of (raise s t c wt broadcast) := by
  have own := inv.busy t
  rw [here] at own
  obtain ⟨held,at_⟩ := own
  obtain ⟨conditions,locks,values,others,self_⟩ := signal_spec s.kernel wt
  have waits := inv.standing wt
  rw [at_] at waits
  obtain ⟨zero,early⟩ := waits
  have outside : ∀ u, s.kernel.pc u = .out → u ≠ wt := by
    rintro u out rfl
    rw [out] at early
    exact early
  have stays : ∀ u d, s.kernel.pc u = .out ∧ lock_held_by_current_thread s.kernel u (lock_of d) →
      (raise s t c wt broadcast).kernel.pc u = .out ∧
        lock_held_by_current_thread (raise s t c wt broadcast).kernel u (lock_of d) := by
    intro u d holds
    refine ⟨(others u (outside u holds.1)).trans holds.1,?_⟩
    simp only [lock_held_by_current_thread,raise,locks]
    exact holds.2
  refine ⟨owned_signal inv.owned,?_,?_,?_,?_⟩
  · intro u
    have standing := inv.standing u
    by_cases self : u = wt
    · subst self
      simp only [raise,Function.update_self,Standing,values,zero,self_]
      refine .inl ⟨trivial,?_⟩
      cases place : s.kernel.pc u with
      | sleeping l =>
        rw [place] at early
        exact ⟨early,fun same => by cases same⟩
      | _ =>
        rw [place] at early
        exact ⟨early,fun same => by cases same⟩
    · simp only [raise,Function.update_of_ne self]
      cases place : s.stage u with
      | _ =>
        rw [place] at standing
        simpa [Standing,conditions,values,others u self,self] using standing
  · intro u
    by_cases self : u = t
    · subst self
      have turned : (raise s u c wt broadcast).doing u = caller c broadcast := by simp [raise,Monitors.setDoing]
      rw [turned]
      cases broadcast with
      | false => trivial
      | true => exact stays u c held
    · have busy := inv.busy u
      have same : (raise s t c wt broadcast).doing u = s.doing u := by simp [raise,Monitors.setDoing,self]
      rw [same]
      cases place : s.doing u with
      | out => trivial
      | popped d waiter b =>
        rw [place] at busy
        refine ⟨stays u d busy.1,?_⟩
        have other : waiter ≠ wt := by
          intro same
          have removed := (Stage.removed.inj (at_.symm.trans (same ▸ busy.2))).2
          exact self (congrArg Prod.fst removed).symm
        simpa [raise,Monitors.setDoing,other] using busy.2
      | signal d b =>
        rw [place] at busy
        exact stays u d busy
      | loop d =>
        rw [place] at busy
        exact stays u d busy
  · intro d u member
    have before : u ∈ s.kernel.conditions d := by
      simp only [raise,conditions] at member
      exact member
    have queued := inv.queued d u before
    have other : u ≠ wt := by
      rintro rfl
      rw [at_] at queued
      cases queued
    simpa [raise,other] using queued
  · intro d
    simp only [raise,conditions]
    exact inv.once d

theorem inv_step (inv : Inv lock_of s) (ran : step lock_of s event = some s') : Inv lock_of s' := by
  have busy := inv.busy event.tid
  rcases step_cases inv ran with ⟨idle,stepped,owned,standing,result⟩ | ⟨c,i,idle,stepped,owned,raised,here,out,result⟩ |
    ⟨c,priority,idle,out,holds,result⟩ | ⟨c,broadcast,out,holds,called,result⟩ | ⟨c,idle,out,holds,result⟩ |
    ⟨c,here,empty,result⟩ | ⟨c,broadcast,here,empty,result⟩ | ⟨c,broadcast,wt,rest,here,queue,result⟩ |
    ⟨c,broadcast,wt,here,result⟩
  · have stage : s'.stage = s.stage := by rw [result]
    exact inv_stepped inv idle stepped owned (by rw [stage]; exact standing) (by rw [result]) (by rw [result])
      fun u changed => absurd (by rw [stage]) changed
  · have stage : s'.stage = Function.update s.stage event.tid .out := by rw [result]
    refine inv_stepped inv idle stepped owned ?_ (by rw [result]) (by rw [result]) ?_
    · rw [stage,Function.update_self,Standing,out]
      trivial
    · intro u changed
      refine ⟨Decidable.byContradiction fun other => changed ?_,c,i,raised⟩
      rw [stage,Function.update_of_ne other]
  · exact inv_waited inv result
  · subst result
    refine inv_turned (t := event.tid) inv rfl rfl ?_ ?_
    · intro u other
      exact ⟨by simp [Monitors.startSignal,Monitors.setDoing,other],by simp [Monitors.startSignal,other]⟩
    · simp only [Monitors.startSignal,Monitors.setDoing,Function.update_self]
      exact ⟨out,holds⟩
  · subst result
    refine inv_turned (t := event.tid) inv rfl rfl (setDoing_others s _ _) ?_
    simp only [Monitors.setDoing,Function.update_self]
    exact ⟨out,holds⟩
  · subst result
    refine inv_turned (t := event.tid) inv rfl rfl (setDoing_others s _ _) ?_
    simp only [Monitors.setDoing,Function.update_self]
    trivial
  · subst result
    refine inv_turned (t := event.tid) inv rfl rfl (setDoing_others s _ _) ?_
    rw [here] at busy
    simp only [Monitors.setDoing,Function.update_self]
    cases broadcast with
    | false => trivial
    | true => exact busy
  · subst result
    exact inv_popped inv here queue
  · subst result
    exact inv_raised inv here

theorem inv_init : Inv lock_of cond_init := by
  refine ⟨⟨fun _ => rfl,fun _ _ holds => ?_,fun _ _ => trivial⟩,fun _ => trivial,fun _ => trivial,?_,fun _ => List.nodup_nil⟩
  · exact absurd holds (by simp [cond_init,boot])
  · intro c u member
    cases member

theorem reaches_inv (reach : Reaches (machine lock_of) Anything s) : Inv lock_of s := by
  refine reaches_invariant (Inv lock_of) ?_ ?_ reach
  · rintro s rfl
    exact inv_init
  · exact fun s event s' inv _ ran => inv_step inv ran

end

end Pintos.Conditions
