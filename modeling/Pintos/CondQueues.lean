import Pintos.Alarm
import Pintos.Preemption

/-!
Condition variables over the scheduled kernel, with its priorities and donations. A
waiter is recorded with the priority that its thread has when it starts to wait, and
keeps its place by that; the priority of the thread goes on changing. Each condition
has the one lock that `lock_of` gives it.

What `cond_wait` and `cond_signal` do themselves is a step at a time, kept in `doing`;
for the rest they leave the thread instructions of the kernel. The semaphore of a
waiter has an odd number; threads use those of even numbers. `id` numbers the waiters
in the order in which they are inserted, and `owner` is the thread of each: neither is
in the code.
-/
namespace Pintos.CondQueues
open Pintos.Lists Pintos.Machines Pintos.Scheduler Pintos.ReadyQueue
open Pintos.Queues hiding Inv
open Pintos.Synch hiding Event step boot machine sema_down sema_up
set_option linter.unusedSimpArgs false

abbrev CondId := Nat

/-- `struct semaphore_elem`, of the thread that waits. -/
structure Waiter where
  tid : Tid
  priority : Int
  id : Nat
deriving DecidableEq

inductive Doing
  | out
  /-- `cond_wait`: before it reads the priority, and before it inserts the waiter. -/
  | record (c : CondId)
  | insert (c : CondId) (priority : Int)
  /-- At the assertions of `cond_signal`, from the loop of `cond_broadcast` or not. -/
  | signal (c : CondId) (broadcast : Bool)
  | loop (c : CondId)
deriving DecidableEq

structure Monitors where
  sched : Sched
  conditions : CondId → List Waiter
  doing : Tid → Doing
  calls : Nat
  owner : Nat → Tid

inductive Event
  | sched (e : Scheduler.Event)
  | cond_wait (c : CondId)
  | cond_signal (c : CondId)
  | cond_broadcast (c : CondId)
  /-- The current thread's next step in these. -/
  | run

/-- The semaphore of a waiter. -/
def own (id : Nat) : Sema := .plain (2 * id + 1)

/-- Threads use the other semaphores. -/
def apart : Call → Bool
  | .sema_down n | .sema_up n => n % 2 == 0
  | _ => true

def sort_cond_by_priority (a b : Waiter) : Bool := a.priority > b.priority

def Monitors.setDoing (m : Monitors) (d : Doing) : Monitors := { m with doing := Function.update m.doing m.sched.current d }

def lock_held_by_current_thread (m : Monitors) (l : LockId) : Bool := m.sched.k.holder (l + 1) = some m.sched.current

/-- The waiter goes into the queue; `lock_release`, `sema_down` and `lock_acquire` follow. -/
def insert (lock_of : CondId → LockId) (m : Monitors) (c : CondId) (priority : Int) : Monitors :=
  let waiter := ⟨m.sched.current,priority,m.calls⟩
  { m.setDoing .out with
    sched := (m.sched.setSema (own m.calls) ⟨0,[]⟩).setPc m.sched.current
      [.release (lock_of c + 1),.down (own m.calls),.acquire (lock_of c + 1)]
    conditions := Function.update m.conditions c (list_insert_ordered sort_cond_by_priority waiter (m.conditions c))
    calls := m.calls + 1
    owner := Function.update m.owner m.calls m.sched.current }

/-- Where `cond_signal` returns to. -/
def caller (c : CondId) : Bool → Doing
  | true => .loop c
  | false => .out

/-- `cond_signal`; the `sema_up` of the waiter follows. -/
def signal (lock_of : CondId → LockId) (m : Monitors) (c : CondId) (broadcast : Bool) : Option Monitors :=
  if lock_held_by_current_thread m (lock_of c) then
    match m.conditions c with
    | [] => some (m.setDoing (caller c broadcast))
    | waiter :: rest =>
      some { m.setDoing (caller c broadcast) with
        sched := m.sched.setPc m.sched.current [.up (own waiter.id)]
        conditions := Function.update m.conditions c rest }
  else none

def run (lock_of : CondId → LockId) (m : Monitors) : Option Monitors :=
  if m.sched.scheduling = false ∧ (m.sched.pc m.sched.current).isEmpty then
    match m.doing m.sched.current with
    | .out => none
    | .record c => some (m.setDoing (.insert c (m.sched.k.priority m.sched.current)))
    | .insert c priority => some (insert lock_of m c priority)
    | .signal c broadcast => signal lock_of m c broadcast
    | .loop c => some (m.setDoing (if (m.conditions c).isEmpty then .out else .signal c true))
  else none

/-- A thread between calls enters one of these. -/
def enters (m : Monitors) (d : Doing) (asserts : Bool) : Option Monitors :=
  if (m.sched.scheduling = false ∧ (m.sched.pc m.sched.current).isEmpty) ∧ asserts then
    match m.doing m.sched.current with
    | .out => some (m.setDoing d)
    | _ => none
  else none

def step (lock_of : CondId → LockId) (m : Monitors) : Event → Option Monitors
  | .sched (.call c) =>
    match m.doing m.sched.current with
    | .out => if apart c then (Scheduler.step m.sched (.call c)).map fun s => { m with sched := s } else none
    | _ => none
  | .sched e => (Scheduler.step m.sched e).map fun s => { m with sched := s }
  | .cond_wait c => enters m (.record c) (lock_held_by_current_thread m (lock_of c))
  | .cond_signal c => enters m (.signal c false) (lock_held_by_current_thread m (lock_of c))
  | .cond_broadcast c => enters m (.loop c) true
  | .run => run lock_of m

def cond_init : Monitors where
  sched := boot
  conditions _ := []
  doing _ := .out
  calls := 0
  owner _ := 0

def machine (lock_of : CondId → LockId) : Machine Monitors Event := ofStep cond_init (step lock_of)

/-! ### Order -/

/-- By current priority, and by arrival where priorities are equal. -/
def InOrder (priority : Tid → Int) (ws : List Waiter) : Prop :=
  ws.Pairwise fun w v => priority v.tid < priority w.tid ∨ priority v.tid = priority w.tid ∧ w.id < v.id

/-- The thread whose priority an instruction writes, and what it writes there: a donation,
    a restoration, or `thread_set_priority`. -/
def writes (s : Sched) : Instr → Option (Tid × Int)
  | .raise lh => some (lh,s.k.priority s.current)
  | .put p => if p ≥ 0 then some (s.current,p) else none
  | .set_priority p => if (s.k.threads s.current).donation_nested_level = 0 then some (s.current,p) else none
  | _ => none

def written (s : Sched) : Option (Tid × Int) := (s.pc s.current).head?.bind (writes s)

def wrote (priority : Tid → Int) : Option (Tid × Int) → Tid → Int
  | some (t,p) => Function.update priority t p
  | none => priority

/-- A waiter that is inserted comes behind just those that have no lower priority now. -/
def InPlace (m : Monitors) : Doing → Prop
  | .insert c p => ∀ v ∈ m.conditions c, (p ≤ v.priority → m.sched.k.priority m.sched.current ≤ m.sched.k.priority v.tid) ∧
      (v.priority < p → m.sched.k.priority v.tid < m.sched.k.priority m.sched.current)
  | .out | .record _ | .signal _ _ | .loop _ => True

/-- A priority that is written leaves the threads that wait on each condition in order, and
    a waiter finds its place among them. -/
def KeepsOrder (m : Monitors) : Event → Prop
  | .sched (.exec _) => (written m.sched).isSome → ∀ c, InOrder (wrote m.sched.k.priority (written m.sched)) (m.conditions c)
  | .run => InPlace m (m.doing m.sched.current)
  | _ => True

variable {lock_of : CondId → LockId} {m m' : Monitors} {s s' : Sched} {t : Tid} {i : Instr} {stray : Int} {rest : List Instr}
  {priority priority' : Tid → Int} {ws : List Waiter} {x : Sema}

/-! ### The queue -/

theorem inOrder_same (ordered : InOrder priority ws) (same : ∀ w ∈ ws, priority' w.tid = priority w.tid) :
    InOrder priority' ws := by
  refine List.Pairwise.imp_of_mem ?_ ordered
  intro w v first second before
  rw [same w first,same v second]
  exact before

/-- The place that is found by recorded priorities is the one by current priorities. -/
theorem inOrder_insert {elem : Waiter} (ordered : InOrder priority ws) (last : ∀ v ∈ ws, v.id < elem.id)
    (place : ∀ v ∈ ws, (elem.priority ≤ v.priority → priority elem.tid ≤ priority v.tid) ∧
      (v.priority < elem.priority → priority v.tid < priority elem.tid)) :
    InOrder priority (list_insert_ordered sort_cond_by_priority elem ws) := by
  induction ws with
  | nil => exact List.pairwise_singleton _ _
  | cons e rest ih =>
    obtain ⟨first,later⟩ := List.pairwise_cons.mp ordered
    obtain ⟨behind,ahead⟩ := place e List.mem_cons_self
    simp only [list_insert_ordered,sort_cond_by_priority,decide_eq_true_eq]
    split
    · next above =>
      have lower := ahead above
      refine List.pairwise_cons.mpr ⟨fun v member => .inl ?_,ordered⟩
      rcases List.mem_cons.mp member with rfl | further
      · exact lower
      · rcases first v further with below | ⟨equal,-⟩
        · exact Int.lt_trans below lower
        · exact equal ▸ lower
    · next below =>
      have inserted := ih later (fun v member => last v (List.mem_cons_of_mem e member))
        (fun v member => place v (List.mem_cons_of_mem e member))
      refine List.pairwise_cons.mpr ⟨fun v member => ?_,inserted⟩
      rcases (mem_list_insert_ordered _).mp member with rfl | further
      · exact (Int.lt_or_eq_of_le (behind (Int.not_lt.mp below))).imp id (fun equal => ⟨equal,last e List.mem_cons_self⟩)
      · exact first v further

/-! ### Who writes priorities -/

theorem setThread_wrote (k : Kernel) (u : Tid) (r : Thread) :
    (k.setThread u r).priority t = wrote k.priority (some (u,r.priority)) t := by
  by_cases self : t = u
  · subst self; simp [wrote,Kernel.priority]
  · simp [wrote,Kernel.priority,setThread_other _ self,self]

/-- An instruction writes no other priority. -/
theorem exec_priority (ran : exec s stray i = some s') (known : t < s.k.count) :
    s'.k.priority t = wrote s.k.priority (writes s i) t := by
  have same : ∀ s1 p, some s1 = some s' → s1.k.priority t = p → s'.k.priority t = p := by
    intro s1 p equal same
    exact Option.some.inj equal ▸ same
  cases i with
  | raise lh => exact same _ _ ran (setThread_wrote s.k lh _)
  | put p =>
    refine same _ _ ran ?_
    simp only [writes,putPriority]
    split
    · exact setThread_wrote s.k s.current _
    · rfl
  | set_priority p =>
    refine same _ _ ran ((setThread_wrote s.k s.current _).trans ?_)
    simp only [writes]
    split
    · rfl
    · exact congrFun (Function.update_eq_self s.current s.k.priority) t
  | acquire l =>
    simp only [exec] at ran
    split at ran
    · cases ran
    · exact same _ _ ran rfl
  | donate l =>
    simp only [exec] at ran
    split at ran
    · exact same _ _ ran rfl
    · split at ran <;> exact same _ _ ran rfl
  | record l lh =>
    obtain ⟨k,recorded,rfl⟩ := Option.map_eq_some_iff.mp ran
    exact (record_same recorded).2 t
  | follow lh =>
    simp only [exec] at ran
    split at ran <;> exact same _ _ ran rfl
  | wait_for l => exact same _ _ ran (setThread_priority rfl)
  | hold l | unhold l | sleep n | sleep_until w | exit | idle => exact same _ _ ran rfl
  | down x | down_again x =>
    refine same _ _ ran ?_
    unfold sema_down
    split
    · exact (Preemption.quiet_setSema x _).priority t
    · cases x <;> exact setThread_priority rfl
  | release l =>
    simp only [exec] at ran
    split at ran
    · exact same _ _ ran (Preemption.restoration_priority s.k s.current l stray t)
    · cases ran
  | up x => exact (Preemption.quiet_up ran).priority t
  | init p =>
    obtain ⟨k,created,rfl⟩ := Option.map_eq_some_iff.mp ran
    exact Preemption.create_priority created known
  | unblock u => exact (Preemption.quiet_unblock ran).priority t
  | yield_below p | yield_to_front p => exact same _ _ ran ((Preemption.quiet_yieldIf _).priority t)
  | yield => exact same _ _ ran ((Preemption.quiet_yield s).priority t)

/-! ### Who waits on what -/

theorem semas_setSema {n : Nat} {v : Semaphore} (member : t ∈ ((s.setSema x v).semas n).waiters) :
    t ∈ (s.semas n).waiters ∨ x = .plain n ∧ t ∈ v.waiters := by
  cases x with
  | plain k =>
    by_cases same : n = k
    · subst same
      exact .inr ⟨rfl,by simpa [Sched.setSema] using member⟩
    · exact .inl (by simpa [Sched.setSema,same] using member)
  | lock l => exact .inl member

theorem semas_yield : (thread_yield s).semas = s.semas := by
  unfold thread_yield
  split <;> rfl

theorem semas_yieldIf (c : Prop) [Decidable c] : (if c then thread_yield s else s).semas = s.semas := by
  split
  · exact semas_yield
  · rfl

theorem semas_unblock (ran : thread_unblock s t = some s') : s'.semas = s.semas := by
  obtain ⟨-,rfl⟩ := Alarm.unblock_eq ran
  rfl

theorem wake_semas {stray : Bool} (sleepers : List Tid) (ran : wakeSleepers s stray sleepers = some s') : s'.semas = s.semas := by
  induction sleepers generalizing s with
  | nil =>
    simp only [wakeSleepers] at ran
    split at ran
    · cases ran
    · obtain rfl := Option.some.inj ran
      rfl
  | cons t sleepers ih =>
    simp only [wakeSleepers] at ran
    split at ran
    · obtain ⟨woken,unblocked,further⟩ := Option.bind_eq_some_iff.mp ran
      exact (ih further).trans (semas_unblock unblocked)
    · obtain rfl := Option.some.inj ran
      rfl

/-- Only `sema_down` adds a waiter, the current thread. -/
theorem exec_waiters {n : Nat} (ran : exec s stray i = some s') (member : t ∈ (s'.semas n).waiters) :
    t ∈ (s.semas n).waiters ∨ t = s.current ∧ (i = .down (.plain n) ∨ i = .down_again (.plain n)) := by
  have same : ∀ s1, some s1 = some s' → s1.semas = s.semas →
      t ∈ (s.semas n).waiters ∨ t = s.current ∧ (i = .down (.plain n) ∨ i = .down_again (.plain n)) := by
    intro s1 equal same
    obtain rfl := Option.some.inj equal
    exact .inl (same ▸ member)
  have down : ∀ x, t ∈ ((sema_down s x).semas n).waiters → t ∈ (s.semas n).waiters ∨ t = s.current ∧ x = .plain n := by
    intro x member
    unfold sema_down at member
    split at member
    · rcases semas_setSema member with before | ⟨rfl,added⟩
      · exact .inl before
      · rw [mem_list_sort,List.mem_append,List.mem_singleton] at added
        exact added.imp_right fun self => ⟨self,rfl⟩
    · rcases semas_setSema member with before | ⟨rfl,kept⟩
      · exact .inl before
      · exact .inl kept
  cases i with
  | acquire l | release l =>
    simp only [exec] at ran
    split at ran <;> first | cases ran; done | exact same _ ran rfl
  | donate l =>
    simp only [exec] at ran
    split at ran
    · exact same _ ran rfl
    · split at ran <;> exact same _ ran rfl
  | record l lh | init p =>
    obtain ⟨k,-,rfl⟩ := Option.map_eq_some_iff.mp ran
    exact .inl member
  | follow lh =>
    simp only [exec] at ran
    split at ran <;> exact same _ ran rfl
  | raise lh | put p | set_priority p | wait_for l | hold l | unhold l | sleep ticks | sleep_until w | exit | idle =>
    exact same _ ran rfl
  | down x =>
    obtain rfl := Option.some.inj ran
    exact (down x member).imp_right fun both => ⟨both.1,.inl (congrArg _ both.2)⟩
  | down_again x =>
    obtain rfl := Option.some.inj ran
    exact (down x member).imp_right fun both => ⟨both.1,.inr (congrArg _ both.2)⟩
  | up x =>
    left
    simp only [exec,sema_up] at ran
    split at ran
    · obtain rfl := Option.some.inj ran
      rw [semas_yieldIf] at member
      rcases semas_setSema member with before | ⟨rfl,kept⟩
      · exact before
      · exact kept
    · next wt others sorted =>
      obtain ⟨woken,unblocked,yields⟩ := Option.bind_eq_some_iff.mp ran
      obtain rfl := Option.some.inj yields
      rw [semas_yieldIf] at member
      have popped : t ∈ (woken.semas n).waiters := by
        rcases semas_setSema member with before | ⟨rfl,kept⟩
        · exact before
        · exact kept
      rw [semas_unblock unblocked] at popped
      rcases semas_setSema popped with before | ⟨rfl,kept⟩
      · exact before
      · exact (mem_list_sort _ _ _).mp (sorted ▸ List.mem_cons_of_mem wt kept)
  | unblock u => exact .inl (semas_unblock ran ▸ member)
  | yield_below p | yield_to_front p => exact same _ ran (semas_yieldIf _)
  | yield => exact same _ ran semas_yield

/-- A thread that waits on a semaphore, or is on its way to. -/
def Downs (s : Sched) (x : Sema) (t : Tid) : Prop := t ∈ (s.sema x).waiters ∨ .down x ∈ s.pc t ∨ .down_again x ∈ s.pc t

theorem exec_downs {n : Nat} (ran : exec (s.setPc s.current rest) stray i = some s') (code : s.pc s.current = i :: rest)
    (downs : Downs s' (.plain n) t) : Downs s (.plain n) t := by
  have own : ∀ j, (j = .down (.plain n) ∨ j = .down_again (.plain n)) → j ∈ s.pc s.current → Downs s (.plain n) s.current := by
    rintro j (rfl | rfl) member
    · exact .inr (.inl member)
    · exact .inr (.inr member)
  rcases downs with waits | ahead
  · rcases exec_waiters ran waits with before | ⟨rfl,instr⟩
    · exact .inl before
    · exact own i instr (code ▸ List.mem_cons_self)
  · have ahead : ∃ j, (j = .down (.plain n) ∨ j = .down_again (.plain n)) ∧ j ∈ s'.pc t :=
      ahead.elim (fun member => ⟨_,.inl rfl,member⟩) (fun member => ⟨_,.inr rfl,member⟩)
    obtain ⟨j,down,member⟩ := ahead
    by_cases self : t = s.current
    · subst self
      have kept : ∀ j' ∈ rest, j' ∈ s.pc s.current := fun j' further => code ▸ List.mem_cons_of_mem i further
      by_cases idler : i = .idle
      · subst idler
        obtain rfl := Option.some.inj ran
        simp only [thread_block,Sched.setStatus,Sched.enter,Sched.setPc,if_pos] at member
        rcases List.mem_cons.mp member with rfl | further
        · rcases down with same | same <;> cases same
        · exact own j down (kept j further)
      · obtain ⟨more,⟨-,-,-,plain,again⟩,pc,-⟩ := exec_code ran idler
        simp only [pc,Sched.enter,Sched.setPc,if_pos] at member
        rcases List.mem_append.mp member with new | further
        · rcases down with rfl | rfl
          · exact absurd new (plain n)
          · exact own i (again _ new) (code ▸ List.mem_cons_self)
        · exact own j down (kept j further)
    · have same : s'.pc t = s.pc t := by
        obtain ⟨more,effect⟩ := Preemption.exec_effect ran
        rw [effect.pc]
        simp [Sched.enter,Sched.setPc,self]
      rw [same] at member
      rcases down with rfl | rfl
      · exact .inr (.inl member)
      · exact .inr (.inr member)

/-! ### Steps of the kernel -/

theorem timer_frame {stray : Bool} (ran : timer_interrupt s stray = some s') :
    s'.k = s.k ∧ s'.pc = s.pc ∧ s'.current = s.current ∧ s'.semas = s.semas := by
  obtain ⟨kernel,pc,-⟩ := Preemption.timer_spec ran
  obtain ⟨woken,loop,yields⟩ := Option.bind_eq_some_iff.mp ran
  obtain rfl := Option.some.inj yields
  have current : woken.current = s.current := (Preemption.wake_spec _ _ loop).2.2.1
  have semas : woken.semas = s.semas := wake_semas (s := { s with ticks := s.ticks + 1 }) _ loop
  exact ⟨kernel,pc,(Preemption.quiet_yieldIf _).current.trans current,(semas_yieldIf _).trans semas⟩

theorem schedule_frame (ran : schedule s = some s') :
    s'.k = s.k ∧ s'.pc = s.pc ∧ s'.current < s'.k.count ∧ s'.semas = s.semas := by
  unfold schedule at ran
  obtain ⟨⟨next,ts⟩,-,switched⟩ := Option.bind_eq_some_iff.mp ran
  dsimp only at switched
  split at switched
  · next checks =>
    obtain rfl := Option.some.inj switched
    exact ⟨rfl,rfl,checks.2,rfl⟩
  · cases switched

/-- What a step of the kernel does to what conditions depend on. -/
structure Frame (s s' : Sched) : Prop where
  current : s'.current < s'.k.count
  count : s.k.count ≤ s'.k.count
  downs : ∀ id t, Downs s' (own id) t → Downs s (own id) t

theorem sched_frame {e : Scheduler.Event} (known : s.current < s.k.count) (ran : Scheduler.step s e = some s')
    (kept : ∀ c, e = .call c → apart c = true) : Frame s s' := by
  cases e with
  | call c =>
    simp only [Scheduler.step] at ran
    split at ran
    · obtain rfl := Option.some.inj ran
      refine ⟨known,Nat.le_refl _,?_⟩
      rintro id t (waits | ahead)
      · exact .inl waits
      · by_cases self : t = s.current
        · subst self
          have even := kept c rfl
          simp only [Sched.setPc,if_pos,List.mem_singleton] at ahead
          cases c <;> simp [code,own] at ahead
          next n =>
            subst ahead
            simp only [apart,beq_iff_eq] at even
            omega
        · simp only [Sched.setPc,if_neg self] at ahead
          exact .inr ahead
    · cases ran
  | exec stray =>
    simp only [Scheduler.step] at ran
    split at ran
    · cases ran
    · split at ran
      · cases ran
      · next i rest code =>
        obtain ⟨more,effect⟩ := Preemption.exec_effect ran
        refine ⟨?_,effect.count,fun id t downs => exec_downs ran code downs⟩
        rw [effect.current]
        exact Nat.lt_of_lt_of_le known effect.count
  | timer stray =>
    simp only [Scheduler.step] at ran
    split at ran
    · obtain ⟨kernel,pc,current,semas⟩ := timer_frame ran
      refine ⟨by rw [current,kernel]; exact known,Nat.le_of_eq (kernel ▸ rfl),fun id t downs => ?_⟩
      simpa only [Downs,own,Sched.sema,pc,semas] using downs
    · cases ran
  | schedule =>
    simp only [Scheduler.step] at ran
    split at ran
    · obtain ⟨kernel,pc,current,semas⟩ := schedule_frame ran
      refine ⟨current,Nat.le_of_eq (kernel ▸ rfl),fun id t downs => ?_⟩
      simpa only [Downs,own,Sched.sema,pc,semas] using downs
    · cases ran

/-- Priorities change only where an instruction writes one. -/
theorem sched_priority {e : Scheduler.Event} (ran : Scheduler.step s e = some s') :
    (∀ t < s.k.count, s'.k.priority t = s.k.priority t) ∨ ∃ stray, e = .exec stray ∧ (written s).isSome ∧
      ∀ t < s.k.count, s'.k.priority t = wrote s.k.priority (written s) t := by
  cases e with
  | call c =>
    simp only [Scheduler.step] at ran
    split at ran
    · obtain rfl := Option.some.inj ran
      exact .inl fun t _ => rfl
    · cases ran
  | exec stray =>
    simp only [Scheduler.step] at ran
    split at ran
    · cases ran
    · split at ran
      · cases ran
      · next i rest code =>
        have write : writes (s.setPc s.current rest) i = written s := by
          rw [written,code]
          cases i <;> rfl
        have after : ∀ t < s.k.count, s'.k.priority t = wrote s.k.priority (written s) t := by
          intro t known
          rw [exec_priority ran known,write]
          rfl
        cases which : written s with
        | none =>
          rw [which] at after
          exact .inl after
        | some pair =>
          rw [which] at after
          exact .inr ⟨stray,rfl,rfl,after⟩
  | timer stray =>
    simp only [Scheduler.step] at ran
    split at ran
    · rw [(timer_frame ran).1]
      exact .inl fun t _ => rfl
    · cases ran
  | schedule =>
    simp only [Scheduler.step] at ran
    split at ran
    · rw [(schedule_frame ran).1]
      exact .inl fun t _ => rfl
    · cases ran

/-! ### Whole runs -/

structure Kept (m : Monitors) : Prop where
  current : m.sched.current < m.sched.k.count
  order : ∀ c, InOrder m.sched.k.priority (m.conditions c)
  waiters : ∀ c, ∀ w ∈ m.conditions c, w.id < m.calls ∧ m.owner w.id = w.tid ∧ w.tid < m.sched.k.count
  owners : ∀ id t, Downs m.sched (own id) t → id < m.calls ∧ m.owner id = t

theorem kept_doing {d : Doing} (kept : Kept m) : Kept (m.setDoing d) := ⟨kept.current,kept.order,kept.waiters,kept.owners⟩

theorem kept_sched {e : Scheduler.Event} (kept : Kept m) (guard : KeepsOrder m (.sched e))
    (apartness : ∀ c, e = .call c → apart c = true) (ran : Scheduler.step m.sched e = some s') : Kept { m with sched := s' } := by
  obtain ⟨current,count,downs⟩ := sched_frame kept.current ran apartness
  refine ⟨current,fun c => ?_,fun c w member => ?_,fun id t later => kept.owners id t (downs id t later)⟩
  · have known : ∀ w ∈ m.conditions c, w.tid < m.sched.k.count := fun w member => (kept.waiters c w member).2.2
    rcases sched_priority ran with same | ⟨stray,rfl,writes,after⟩
    · exact inOrder_same (kept.order c) fun w member => same w.tid (known w member)
    · exact inOrder_same (guard writes c) fun w member => after w.tid (known w member)
  · obtain ⟨older,owner,made⟩ := kept.waiters c w member
    exact ⟨older,owner,Nat.lt_of_lt_of_le made count⟩

theorem kept_insert {c : CondId} {p : Int} (kept : Kept m)
    (place : InPlace m (.insert c p)) : Kept (insert lock_of m c p) := by
  have inside : ∀ c' w, w ∈ (insert lock_of m c p).conditions c' → w = ⟨m.sched.current,p,m.calls⟩ ∨ w ∈ m.conditions c' := by
    intro c' w member
    by_cases same : c' = c
    · subst same
      simp only [insert,Function.update_self] at member
      exact (mem_list_insert_ordered _).mp member
    · simp only [insert,Function.update_of_ne same] at member
      exact .inr member
  refine ⟨kept.current,fun c' => ?_,fun c' w member => ?_,?_⟩
  · by_cases same : c' = c
    · subst same
      simp only [insert,Function.update_self]
      exact inOrder_insert (kept.order c') (fun v member => (kept.waiters c' v member).1) place
    · simp only [insert,Function.update_of_ne same]
      exact kept.order c'
  · rcases inside c' w member with rfl | before
    · exact ⟨Nat.lt_succ_self _,Function.update_self _ _ _,kept.current⟩
    · obtain ⟨older,owner,made⟩ := kept.waiters c' w before
      exact ⟨Nat.lt_succ_of_lt older,(Function.update_of_ne (Nat.ne_of_lt older) _ _).trans owner,made⟩
  · intro id t downs
    have old : Downs m.sched (own id) t → id < (insert lock_of m c p).calls ∧ (insert lock_of m c p).owner id = t := by
      intro before
      obtain ⟨older,owner⟩ := kept.owners id t before
      exact ⟨Nat.lt_succ_of_lt older,(Function.update_of_ne (Nat.ne_of_lt older) _ _).trans owner⟩
    rcases downs with waits | ahead
    · refine old (.inl ?_)
      have waits : t ∈ ((m.sched.setSema (own m.calls) ⟨0,[]⟩).semas (2 * id + 1)).waiters := waits
      rcases semas_setSema waits with before | ⟨-,none⟩
      · exact before
      · cases none
    · by_cases self : t = m.sched.current
      · subst self
        simp [insert,Sched.setPc,own] at ahead
        obtain rfl : id = m.calls := by omega
        exact ⟨Nat.lt_succ_self _,Function.update_self _ _ _⟩
      · simp only [insert,Sched.setPc,if_neg self] at ahead
        exact old (.inr ahead)

/-- What `cond_signal` takes out of the queue. -/
theorem kept_pop {c : CondId} {w : Waiter} {rest : List Waiter} {d : Doing} (kept : Kept m)
    (queue : m.conditions c = w :: rest) :
    Kept { m.setDoing d with
      sched := m.sched.setPc m.sched.current [.up (own w.id)]
      conditions := Function.update m.conditions c rest } := by
  have inside : ∀ c' v, v ∈ Function.update m.conditions c rest c' → v ∈ m.conditions c' := by
    intro c' v member
    by_cases same : c' = c
    · subst same
      rw [Function.update_self] at member
      exact queue ▸ List.mem_cons_of_mem w member
    · rwa [Function.update_of_ne same] at member
  refine ⟨kept.current,fun c' => ?_,fun c' v member => kept.waiters c' v (inside c' v member),
    fun id t downs => kept.owners id t ?_⟩
  · by_cases same : c' = c
    · subst same
      show InOrder _ (Function.update m.conditions c' rest c')
      rw [Function.update_self]
      have order := kept.order c'
      rw [queue] at order
      exact (List.pairwise_cons.mp order).2
    · show InOrder _ (Function.update m.conditions c rest c')
      rw [Function.update_of_ne same]
      exact kept.order c'
  · rcases downs with waits | ahead
    · exact .inl waits
    · by_cases self : t = m.sched.current
      · subst self
        simp [Sched.setPc] at ahead
      · simp only [Sched.setPc,if_neg self] at ahead
        exact .inr ahead

theorem kept_run (kept : Kept m) (guard : KeepsOrder m .run) (ran : run lock_of m = some m') : Kept m' := by
  unfold run at ran
  split at ran
  · split at ran
    · cases ran
    · obtain rfl := Option.some.inj ran
      exact kept_doing kept
    · next c p at_insert =>
      obtain rfl := Option.some.inj ran
      simp only [KeepsOrder,at_insert] at guard
      exact kept_insert kept guard
    · unfold signal at ran
      split at ran
      · split at ran
        · obtain rfl := Option.some.inj ran
          exact kept_doing kept
        · next w others queue =>
          obtain rfl := Option.some.inj ran
          exact kept_pop kept queue
      · cases ran
    · obtain rfl := Option.some.inj ran
      exact kept_doing kept
  · cases ran

theorem kept_enters {d : Doing} {asserts : Bool} (kept : Kept m) (ran : enters m d asserts = some m') : Kept m' := by
  unfold enters at ran
  split at ran
  · split at ran
    · obtain rfl := Option.some.inj ran
      exact kept_doing kept
    · cases ran
  · cases ran

theorem kept_step {e : Event} (kept : Kept m) (guard : KeepsOrder m e) (ran : step lock_of m e = some m') : Kept m' := by
  cases e with
  | sched e =>
    cases e with
    | call c =>
      simp only [step] at ran
      split at ran
      · split at ran
        · next even =>
          obtain ⟨s',called,rfl⟩ := Option.map_eq_some_iff.mp ran
          exact kept_sched kept guard (fun c' same => Scheduler.Event.call.inj same ▸ even) called
        · cases ran
      · cases ran
    | exec stray | timer stray | schedule =>
      obtain ⟨s',moved,rfl⟩ := Option.map_eq_some_iff.mp ran
      exact kept_sched kept guard (fun c same => nomatch same) moved
  | cond_wait c | cond_signal c | cond_broadcast c => exact kept_enters kept ran
  | run => exact kept_run kept guard ran

theorem kept_init : Kept cond_init := by
  refine ⟨by decide,fun c => .nil,fun c w member => absurd member List.not_mem_nil,?_⟩
  rintro id t (waits | ahead)
  · cases waits
  · by_cases idle : t = 1 <;> simp [cond_init,boot,idle] at ahead

theorem reaches_kept (reached : Reaches (machine lock_of) KeepsOrder m) : Kept m := by
  refine reaches_invariant Kept ?_ ?_ reached
  · rintro m rfl
    exact kept_init
  · intro m e m' kept guard ran
    exact kept_step kept guard ran

/-! ### Signals -/

/-- `sema_up` makes one of those that wait ready. -/
theorem up_ready (ran : sema_up s x stray = some s') (waits : t ∈ (s.sema x).waiters) :
    ∃ wt ∈ (s.sema x).waiters, s'.status wt = .ready := by
  have among : ∀ u, u ∈ list_sort (sort_by_priority s.k) (s.sema x).waiters ↔ u ∈ (s.sema x).waiters := mem_list_sort _ _
  unfold sema_up at ran
  split at ran
  · next empty =>
    rw [← among,empty] at waits
    cases waits
  · next wt others sorted =>
    rw [sorted] at among
    refine ⟨wt,(among wt).mp List.mem_cons_self,?_⟩
    obtain ⟨woken,unblocked,yields⟩ := Option.bind_eq_some_iff.mp ran
    obtain rfl := Option.some.inj yields
    have woke : woken.status wt = .ready := by
      obtain ⟨-,rfl⟩ := Alarm.unblock_eq unblocked
      exact if_pos rfl
    have ready : ∀ v, (woken.setSema x v).status wt = .ready := fun v => by cases x <;> exact woke
    split
    · exact (Alarm.yield_ready wt).2.2 (ready _)
    · exact ready _

/-- The `sema_up` of a signal wakes the thread of the waiter, where that is blocked already. -/
theorem up_wakes {id : Nat} (kept : Kept m) (code : m.sched.pc m.sched.current = .up (own id) :: rest)
    (ran : step lock_of m (.sched (.exec stray)) = some m') (waits : t ∈ (m.sched.sema (own id)).waiters) :
    t = m.owner id ∧ m'.sched.status t = .ready := by
  have only : ∀ u ∈ (m.sched.sema (own id)).waiters, m.owner id = u := fun u member => (kept.owners id u (.inl member)).2
  obtain rfl := only t waits
  refine ⟨rfl,?_⟩
  obtain ⟨s',moved,rfl⟩ := Option.map_eq_some_iff.mp ran
  simp only [Scheduler.step,code,exec] at moved
  split at moved
  · cases moved
  · obtain ⟨wt,member,ready⟩ := up_ready moved waits
    have same : m.owner id = wt := only wt member
    rw [same]
    exact ready

theorem owner_kept {e : Event} {id : Nat} (ran : step lock_of m e = some m') (old : id < m.calls) : m'.owner id = m.owner id := by
  cases e with
  | sched e =>
    cases e with
    | call c =>
      simp only [step] at ran
      split at ran
      · split at ran
        · obtain ⟨s',-,rfl⟩ := Option.map_eq_some_iff.mp ran
          rfl
        · cases ran
      · cases ran
    | exec stray | timer stray | schedule =>
      obtain ⟨s',-,rfl⟩ := Option.map_eq_some_iff.mp ran
      rfl
  | cond_wait c | cond_signal c | cond_broadcast c =>
    simp only [step,enters] at ran
    split at ran
    · split at ran
      · obtain rfl := Option.some.inj ran
        rfl
      · cases ran
    · cases ran
  | run =>
    simp only [step,run] at ran
    split at ran
    · split at ran
      · cases ran
      · obtain rfl := Option.some.inj ran
        rfl
      · obtain rfl := Option.some.inj ran
        exact Function.update_of_ne (Nat.ne_of_lt old) _ _
      · unfold signal at ran
        split at ran
        · split at ran
          · obtain rfl := Option.some.inj ran
            rfl
          · obtain rfl := Option.some.inj ran
            rfl
        · cases ran
      · obtain rfl := Option.some.inj ran
        rfl
    · cases ran

/-- A signal takes, of the threads queued on the condition, one that has the highest priority
    now, of these the first to have begun to wait, and its `sema_up` wakes that thread. -/
theorem most_urgent_signalled (lock_of : CondId → LockId) (m : Monitors) (reached : Reaches (machine lock_of) KeepsOrder m) :
    (∀ c broadcast w rest, m.sched.scheduling = false → m.sched.pc m.sched.current = [] →
      m.doing m.sched.current = .signal c broadcast → lock_held_by_current_thread m (lock_of c) = true →
      m.conditions c = w :: rest →
      (∀ v ∈ rest, m.sched.k.priority v.tid < m.sched.k.priority w.tid ∨
        m.sched.k.priority v.tid = m.sched.k.priority w.tid ∧ w.id < v.id) ∧
      (w.id < m.calls ∧ m.owner w.id = w.tid) ∧
      ∃ m', step lock_of m .run = some m' ∧ m'.conditions c = rest ∧ m'.sched.pc m.sched.current = [.up (own w.id)]) ∧
    (∀ id rest stray m', m.sched.pc m.sched.current = .up (own id) :: rest → step lock_of m (.sched (.exec stray)) = some m' →
      ∀ t ∈ (m.sched.sema (own id)).waiters, t = m.owner id ∧ m'.sched.status t = .ready) ∧
    ∀ e m', step lock_of m e = some m' → ∀ id < m.calls, m'.owner id = m.owner id := by
  have kept := reaches_kept reached
  refine ⟨?_,fun id rest stray m' code ran t waits => up_wakes kept code ran waits,fun e m' ran id old => owner_kept ran old⟩
  intro c broadcast w rest runs idle at_signal held queue
  obtain ⟨older,owner,-⟩ := kept.waiters c w (queue ▸ List.mem_cons_self)
  have order := kept.order c
  rw [queue] at order
  refine ⟨(List.pairwise_cons.mp order).1,⟨older,owner⟩,?_⟩
  have free : m.sched.scheduling = false ∧ (m.sched.pc m.sched.current).isEmpty = true := ⟨runs,by rw [idle]; rfl⟩
  simp only [step,run,if_pos free,at_signal,signal,held,queue,if_true]
  exact ⟨_,rfl,Function.update_self _ _ _,if_pos rfl⟩

/-- As `KeepsOrder`, for runs that write no priority. -/
def WritesNone (m : Monitors) : Event → Prop
  | .sched (.exec _) => (written m.sched).isNone
  | .run => InPlace m (m.doing m.sched.current)
  | _ => True

instance (m : Monitors) : (d : Doing) → Decidable (InPlace m d)
  | .insert c p => inferInstanceAs (Decidable (∀ v ∈ m.conditions c,
      (p ≤ v.priority → m.sched.k.priority m.sched.current ≤ m.sched.k.priority v.tid) ∧
      (v.priority < p → m.sched.k.priority v.tid < m.sched.k.priority m.sched.current)))
  | .out | .record _ | .signal _ _ | .loop _ => .isTrue trivial

instance (m : Monitors) : (e : Event) → Decidable (WritesNone m e)
  | .sched (.exec _) => inferInstanceAs (Decidable ((written m.sched).isNone = true))
  | .run => inferInstanceAs (Decidable (InPlace m (m.doing m.sched.current)))
  | .sched (.call _) | .sched (.timer _) | .sched .schedule | .cond_wait _ | .cond_signal _ | .cond_broadcast _ => .isTrue trivial

theorem writesNone_keepsOrder {e : Event} (none : WritesNone m e) : KeepsOrder m e := by
  cases e with
  | sched e =>
    cases e with
    | exec stray =>
      intro writes
      simp only [WritesNone,Option.isNone_iff_eq_none] at none
      simp [none] at writes
    | _ => trivial
  | run => exact none
  | _ => trivial

def execs (n : Nat) : List Event := List.replicate n (.sched (.exec 0))
def creates (priority : Int) : List Event := .sched (.call (.thread_create priority)) :: execs 12
def acquires (l : LockId) : List Event := .sched (.call (.lock_acquire l)) :: execs 5
/-- `cond_wait`, up to the thread that runs next. -/
def waits (c : CondId) : List Event := [.cond_wait c,.run,.run] ++ execs 5 ++ [.sched .schedule]

/-- Threads of priorities 31 and 20 wait, and a third signals. -/
def waits_twice : List Event :=
  creates 20 ++ creates 10 ++ acquires 0 ++ waits 0 ++ acquires 0 ++ waits 0 ++ acquires 0 ++ [.cond_signal 0]

theorem most_urgent_signalled_second : ∃ m m', Reaches (machine fun _ => 0) KeepsOrder m ∧ m.conditions 0 = [⟨0,31,0⟩,⟨2,20,1⟩] ∧
    (m.sched.k.priority 2 < m.sched.k.priority 0 ∨ m.sched.k.priority 2 = m.sched.k.priority 0 ∧ 0 < 1) ∧ m.owner 0 = 0 ∧
    step (fun _ => 0) m .run = some m' ∧ m'.conditions 0 = [⟨2,20,1⟩] := by
  have ran : (guardedRun (step fun _ => 0) WritesNone cond_init waits_twice).any (fun m => decide
      ((m.sched.scheduling = false ∧ (m.sched.pc m.sched.current).isEmpty) ∧ m.doing m.sched.current = .signal 0 false ∧
        lock_held_by_current_thread m 0 = true ∧ m.conditions 0 = [⟨0,31,0⟩,⟨2,20,1⟩])) = true := by
    decide +kernel
  obtain ⟨m,run,facts⟩ := (Option.any_eq_true _ _).mp ran
  obtain ⟨⟨runs,idle⟩,at_signal,held,queue⟩ := of_decide_eq_true facts
  have reached := reaches_mono (fun m e => writesNone_keepsOrder) (guardedRun_reachable cond_init (step fun _ => 0) WritesNone waits_twice run)
  obtain ⟨urgent,⟨-,owner⟩,m',signalled,left,-⟩ :=
    (most_urgent_signalled (fun _ => 0) m reached).1 0 false _ _ runs (List.isEmpty_iff.mp idle) at_signal held queue
  exact ⟨m,m',reached,queue,urgent ⟨2,20,1⟩ (List.mem_singleton.mpr rfl),owner,signalled,left⟩

/-- The main thread, of priority 31, waits and holds lock 1; a thread of priority 35 waits;
    one of priority 40 acquires lock 1 and so donates to the main thread. -/
def passes_over : List Event :=
  creates 20 ++ acquires 1 ++ acquires 0 ++ waits 0 ++ creates 35 ++ [.sched .schedule] ++ acquires 0 ++ waits 0 ++
    creates 40 ++ [.sched .schedule,.sched (.call (.lock_acquire 1))] ++ execs 7 ++ [.sched .schedule] ++ acquires 0 ++ [.cond_signal 0]

/-- The signal wakes the thread of priority 35 and leaves the main thread, which has 40. -/
theorem raised_waiter_passed_over : ∃ m m' woken, Machines.run (step fun _ => 0) cond_init passes_over = some m ∧
    Reaches (machine fun _ => 0) Anything m ∧ m.doing m.sched.current = .signal 0 false ∧
    m.conditions 0 = [⟨3,35,1⟩,⟨0,31,0⟩] ∧ m.sched.k.priority 3 = 35 ∧ m.sched.k.priority 0 = 40 ∧
    step (fun _ => 0) m .run = some m' ∧ step (fun _ => 0) m' (.sched (.exec 0)) = some woken ∧
    woken.conditions 0 = [⟨0,31,0⟩] ∧ woken.sched.status 3 = .ready ∧ woken.sched.status 0 = .blocked := by
  have ran : (Machines.run (step fun _ => 0) cond_init passes_over).any (fun m => decide (m.doing m.sched.current = .signal 0 false ∧
      m.conditions 0 = [⟨3,35,1⟩,⟨0,31,0⟩] ∧ m.sched.k.priority 3 = 35 ∧ m.sched.k.priority 0 = 40) &&
      (step (fun _ => 0) m .run).any fun m' => (step (fun _ => 0) m' (.sched (.exec 0))).any fun woken => decide
        (woken.conditions 0 = [⟨0,31,0⟩] ∧ woken.sched.status 3 = .ready ∧ woken.sched.status 0 = .blocked)) = true := by
    decide +kernel
  obtain ⟨m,reaches,both⟩ := (Option.any_eq_true _ _).mp ran
  obtain ⟨before,signal⟩ := Bool.and_eq_true_iff.mp both
  obtain ⟨m',signalled,up⟩ := (Option.any_eq_true _ _).mp signal
  obtain ⟨woken,wakes,after⟩ := (Option.any_eq_true _ _).mp up
  obtain ⟨at_signal,queue,low,high⟩ := of_decide_eq_true before
  have reached := run_reachable cond_init (step fun _ => 0) passes_over reaches
  exact ⟨m,m',woken,reaches,reached,at_signal,queue,low,high,signalled,wakes,of_decide_eq_true after⟩

end Pintos.CondQueues
