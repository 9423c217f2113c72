import Pintos.Queues
import Mathlib.Data.List.Rotate

/-!
`ready_list` as a queue, while no priority changes: `thread_unblock` and `thread_yield`
append and sort, `schedule` takes the first. The sort is stable, so that threads of
one priority leave in the order in which they came.

`clock` and `since` are not in the code: `since` is the moment at which a thread last
entered `ready_list`.
-/
namespace Pintos.RunQueue
open Pintos.Lists Pintos.Machines Pintos.Scheduler Pintos.ReadyQueue
open Pintos.Synch hiding Event step boot machine sema_down sema_up
set_option linter.unusedSimpArgs false

structure Timed where
  sched : Sched
  clock : Nat
  since : Tid → Nat

def Timed.stamp (q : Timed) (t : Tid) (s : Sched) : Timed where
  sched := s
  clock := q.clock + 1
  since u := if u = t then q.clock else q.since u

/-- What else happens: it is no matter of `ready_list`, and no thread's priority
    changes. -/
structure Other (s s' : Sched) : Prop where
  count : s.k.count ≤ s'.k.count
  ready_list : s'.ready_list = s.ready_list
  idle_thread : s'.idle_thread = s.idle_thread
  ready : ∀ t, s'.status t = .ready ↔ s.status t = .ready
  priority : ∀ t, is_thread s t → s'.k.priority t = s.k.priority t

inductive Event
  | unblock (t : Tid)
  | yield
  | schedule
  | other

/-- The idle thread is never unblocked, and a thread that yields is running. -/
def Step (q : Timed) : Event → Timed → Prop
  | .unblock t, q' => q.sched.idle_thread ≠ some t ∧ ∃ s, thread_unblock q.sched t = some s ∧ q' = q.stamp t s
  | .yield, q' => is_thread q.sched q.sched.current ∧ q.sched.status q.sched.current = .running ∧
      q' = q.stamp q.sched.current (thread_yield q.sched)
  | .schedule, q' => ∃ s, schedule q.sched = some s ∧ q' = { q with sched := s }
  | .other, q' => ∃ s, Other q.sched s ∧ q' = { q with sched := s }

/-- In order of priority, and in order of arrival where priorities are equal. -/
def InOrder (k : Kernel) (since : Tid → Nat) (ts : List Tid) : Prop :=
  ts.Pairwise fun a b => k.priority b ≤ k.priority a ∧ (k.priority a = k.priority b → since a < since b)

structure Fair (q : Timed) : Prop where
  order : InOrder q.sched.k q.since q.sched.ready_list
  once : q.sched.ready_list.Nodup
  ready : ∀ t, t ∈ q.sched.ready_list ↔ q.sched.status t = .ready ∧ q.sched.idle_thread ≠ some t
  known : ∀ t ∈ q.sched.ready_list, is_thread q.sched t
  stamped : ∀ t ∈ q.sched.ready_list, q.since t < q.clock

/-- A run may start with any list that is in order, such as the empty one. -/
def machine : Machine Timed Event where
  Initial := Fair
  Step := Step

variable {q q' : Timed} {s s' : Sched} {t : Tid} {ts rest top low : List Tid} {k : Kernel}

/-! ### Steps -/

/-- Sorting by priority, of threads in the order `R`. -/
theorem sort_stable {R : Tid → Tid → Prop} (k : Kernel)
    (before : ts.Pairwise fun a b => k.priority a = k.priority b → R a b) :
    (list_sort (sort_by_priority k) ts).Pairwise fun a b =>
      k.priority b ≤ k.priority a ∧ (k.priority a = k.priority b → R a b) := by
  refine (list_sort_stable (priority_transitive k) (priority_asymmetric k) before).imp ?_
  intro a b ordered
  simp only [sort_by_priority,decide_eq_false_iff_not,Int.not_lt,gt_iff_lt] at ordered
  exact ⟨ordered.1,fun same => ordered.2 (Int.le_of_eq same) same⟩

/-- With the thread that came last at the end. -/
theorem arrivals (fair : Fair q) (out : t ∉ q.sched.ready_list) : (q.sched.ready_list ++ [t]).Pairwise fun a b =>
    q.sched.k.priority a = q.sched.k.priority b → (q.stamp t s).since a < (q.stamp t s).since b := by
  have older {u : Tid} (member : u ∈ q.sched.ready_list) : (q.stamp t s).since u = q.since u :=
    if_neg fun same : u = t => out (same ▸ member)
  refine List.pairwise_append.mpr ⟨?_,List.pairwise_singleton _ _,?_⟩
  · refine fair.order.imp_of_mem ?_
    intro a b first second ordered
    rw [older first,older second]
    exact ordered.2
  · intro a first b second _
    rw [List.mem_singleton.mp second,older first]
    exact Nat.lt_of_lt_of_eq (fair.stamped a first) (if_pos rfl).symm

/-- A thread that is not in `ready_list` enters it. -/
theorem fair_push (fair : Fair q) (known : is_thread q.sched t) (out : t ∉ q.sched.ready_list)
    (busy : q.sched.idle_thread ≠ some t) (kernel : s.k = q.sched.k) (list : s.ready_list = (q.sched.push t).ready_list)
    (idle : s.idle_thread = q.sched.idle_thread) (status : ∀ u, s.status u = if u = t then .ready else q.sched.status u) :
    Fair (q.stamp t s) where
  order := by
    show InOrder s.k _ s.ready_list
    rw [kernel,list]
    exact sort_stable q.sched.k (arrivals fair out)
  once := by
    show s.ready_list.Nodup
    rw [list]
    exact push_once fair.once out
  ready u := by
    show u ∈ s.ready_list ↔ s.status u = .ready ∧ s.idle_thread ≠ some u
    rw [list,mem_push,status,idle,fair.ready]
    by_cases same : u = t
    · subst same
      simp [busy]
    · simp [same]
  known u member := by
    have member : u ∈ s.ready_list := member
    show is_thread s u
    rw [list,mem_push] at member
    rw [is_thread,kernel]
    rcases member with before | rfl
    · exact fair.known u before
    · exact known
  stamped u member := by
    have member : u ∈ s.ready_list := member
    rw [list,mem_push] at member
    show (if u = t then q.clock else q.since u) < q.clock + 1
    split
    · exact Nat.lt_succ_self _
    · next other => exact Nat.lt_succ_of_lt (fair.stamped u (member.resolve_right other))

theorem fair_unblock (fair : Fair q) (busy : q.sched.idle_thread ≠ some t) (ran : thread_unblock q.sched t = some s) :
    Fair (q.stamp t s) := by
  unfold thread_unblock at ran
  split at ran
  · next blocked =>
    cases ran
    have out : t ∉ q.sched.ready_list := by
      rw [fair.ready,blocked.2]
      simp
    exact fair_push fair blocked.1 out busy rfl rfl rfl (fun _ => rfl)
  · cases ran

theorem fair_other (fair : Fair q) (other : Other q.sched s) : Fair { q with sched := s } where
  order := by
    show InOrder s.k q.since s.ready_list
    rw [other.ready_list]
    refine fair.order.imp_of_mem ?_
    intro a b first second ordered
    rw [other.priority a (fair.known a first),other.priority b (fair.known b second)]
    exact ordered
  once := by
    show s.ready_list.Nodup
    rw [other.ready_list]
    exact fair.once
  ready t := by
    show t ∈ s.ready_list ↔ s.status t = .ready ∧ s.idle_thread ≠ some t
    rw [other.ready_list,other.idle_thread,other.ready]
    exact fair.ready t
  known t member := by
    have member : t ∈ s.ready_list := member
    rw [other.ready_list] at member
    exact Nat.lt_of_lt_of_le (fair.known t member) other.count
  stamped t member := by
    have member : t ∈ s.ready_list := member
    rw [other.ready_list] at member
    exact fair.stamped t member

theorem fair_yield (fair : Fair q) (known : is_thread q.sched q.sched.current)
    (running : q.sched.status q.sched.current = .running) : Fair (q.stamp q.sched.current (thread_yield q.sched)) := by
  have out : q.sched.current ∉ q.sched.ready_list := by
    rw [fair.ready,running]
    simp
  unfold thread_yield
  by_cases idle : q.sched.idle_thread = some q.sched.current
  · rw [if_pos idle]
    have older {u : Tid} (member : u ∈ q.sched.ready_list) : u ≠ q.sched.current := fun same => out (same ▸ member)
    refine ⟨?_,fair.once,fun u => ?_,fair.known,fun u member => ?_⟩
    · refine fair.order.imp_of_mem ?_
      intro a b first second ordered
      simp only [Timed.stamp,if_neg (older first),if_neg (older second)]
      exact ordered
    · show u ∈ q.sched.ready_list ↔ (if u = q.sched.current then Status.ready else q.sched.status u) = .ready ∧
        q.sched.idle_thread ≠ some u
      by_cases same : u = q.sched.current
      · subst same
        simp [out,idle]
      · rw [if_neg same]
        exact fair.ready u
    · show (if u = q.sched.current then q.clock else q.since u) < q.clock + 1
      rw [if_neg (older member)]
      exact Nat.lt_succ_of_lt (fair.stamped u member)
  · rw [if_neg idle]
    exact fair_push fair known out idle rfl rfl rfl (fun _ => rfl)

theorem fair_schedule (fair : Fair q) (ran : schedule q.sched = some s) : Fair { q with sched := s } := by
  unfold schedule at ran
  obtain ⟨⟨first,rest⟩,popped,switched⟩ := Option.bind_eq_some_iff.mp ran
  dsimp only at switched
  split at switched
  · cases switched
    unfold next_thread_to_run at popped
    split at popped
    · next queue =>
      obtain ⟨idle,isIdle,pair⟩ := Option.map_eq_some_iff.mp popped
      obtain ⟨rfl,rfl⟩ := Prod.mk.inj pair
      refine ⟨.nil,.nil,fun u => ?_,by simp,by simp⟩
      have ready := fair.ready u
      rw [queue] at ready
      show u ∈ [] ↔ (if u = idle then Status.running else q.sched.status u) = .ready ∧ q.sched.idle_thread ≠ some u
      by_cases same : u = idle
      · simp [same]
      · rw [if_neg same]
        exact ready
    · next queue =>
      cases popped
      obtain ⟨order,once,ready,known,stamped⟩ := fair
      rw [queue] at order once known stamped
      obtain ⟨out,once⟩ := List.nodup_cons.mp once
      refine ⟨(List.pairwise_cons.mp order).2,once,fun u => ?_,fun u member => known u (List.mem_cons_of_mem _ member),
        fun u member => stamped u (List.mem_cons_of_mem _ member)⟩
      show u ∈ rest ↔ (if u = first then Status.running else q.sched.status u) = .ready ∧ q.sched.idle_thread ≠ some u
      have ready := ready u
      rw [queue,List.mem_cons] at ready
      by_cases same : u = first
      · subst same
        simp [out]
      · rw [if_neg same,← ready]
        simp [same]
  · cases switched

theorem reaches_fair (reached : Reaches machine Anything q) : Fair q := by
  refine reaches_invariant Fair (fun _ fair => fair) ?_ reached
  rintro q e q' fair - ran
  cases e with
  | unblock t =>
    obtain ⟨busy,s,unblocked,rfl⟩ := ran
    exact fair_unblock fair busy unblocked
  | yield =>
    obtain ⟨known,running,rfl⟩ := ran
    exact fair_yield fair known running
  | schedule =>
    obtain ⟨s,switched,rfl⟩ := ran
    exact fair_schedule fair switched
  | other =>
    obtain ⟨s,same,rfl⟩ := ran
    exact fair_other fair same

/-! ### Turns -/

/-- The current thread yields, and the next one runs. -/
def turn (s : Sched) : Option Sched := schedule (thread_yield s)
def turns : Nat → Sched → Option Sched
  | 0, s => some s
  | n + 1, s => (turn s).bind (turns n)

/-- The current thread is one that takes turns. -/
structure Running (s : Sched) : Prop where
  known : is_thread s s.current
  running : s.status s.current = .running
  busy : s.idle_thread ≠ some s.current

/-- A thread that yields goes behind those of its own priority. -/
theorem yield_list (fair : Fair q) (runs : Running q.sched) (split : q.sched.ready_list = top ++ low)
    (equal : ∀ t ∈ top, q.sched.k.priority t = q.sched.k.priority q.sched.current)
    (lower : ∀ t ∈ low, q.sched.k.priority t < q.sched.k.priority q.sched.current) :
    (thread_yield q.sched).ready_list = top ++ q.sched.current :: low := by
  have out : q.sched.current ∉ q.sched.ready_list := by
    rw [fair.ready,runs.running]
    simp
  have list : (thread_yield q.sched).ready_list = list_sort (sort_by_priority q.sched.k) (q.sched.ready_list ++ [q.sched.current]) := by
    rw [thread_yield,if_neg runs.busy]
    rfl
  have arrived := arrivals (s := q.sched) fair out
  rw [list]
  refine list_sort_eq (priority_transitive _) (priority_asymmetric _) arrived ?_ ?_ ?_
  · intro a b first second before after
    simp only [sort_by_priority,decide_eq_false_iff_not,gt_iff_lt,Int.not_lt] at first second
    have same := Int.le_antisymm second first
    exact absurd (before same.symm) (Nat.lt_asymm (after same))
  · rw [split,List.append_assoc]
    exact (List.perm_append_left_iff top).mpr (List.perm_append_singleton _ _).symm
  · have within := fair.order
    rw [split] at within out
    obtain ⟨front,back,-⟩ := List.pairwise_append.mp within
    have older {u : Tid} (member : u ∈ top ++ low) : (q.stamp q.sched.current q.sched).since u = q.since u :=
      if_neg fun same : u = q.sched.current => out (same ▸ member)
    have placed : (top ++ q.sched.current :: low).Pairwise fun a b => q.sched.k.priority b ≤ q.sched.k.priority a ∧
        (q.sched.k.priority a = q.sched.k.priority b →
          (q.stamp q.sched.current q.sched).since a < (q.stamp q.sched.current q.sched).since b) := by
      refine List.pairwise_append.mpr ⟨?_,List.pairwise_cons.mpr ⟨?_,?_⟩,?_⟩
      · refine front.imp_of_mem ?_
        intro a b first second ordered
        rw [older (List.mem_append_left _ first),older (List.mem_append_left _ second)]
        exact ordered
      · intro b second
        have below := lower b second
        exact ⟨Int.le_of_lt below,fun same => absurd same (Int.ne_of_gt below)⟩
      · refine back.imp_of_mem ?_
        intro a b first second ordered
        rw [older (List.mem_append_right _ first),older (List.mem_append_right _ second)]
        exact ordered
      · intro a first b second
        have above := equal a first
        rcases List.mem_cons.mp second with rfl | later
        · refine ⟨Int.le_of_eq above.symm,fun _ => ?_⟩
          rw [older (List.mem_append_left _ first)]
          exact Nat.lt_of_lt_of_eq (fair.stamped a (split ▸ List.mem_append_left _ first)) (if_pos rfl).symm
        · have below := lower b later
          exact ⟨by omega,fun same => absurd same (by omega)⟩
    refine placed.imp ?_
    intro a b ordered
    simp only [sort_by_priority,decide_eq_false_iff_not,gt_iff_lt,Int.not_lt]
    exact ⟨ordered.1,fun _ => ordered.2⟩

/-- One turn. -/
theorem turn_spec (fair : Fair q) (runs : Running q.sched) (split : q.sched.ready_list = top ++ low)
    (equal : ∀ t ∈ top, q.sched.k.priority t = q.sched.k.priority q.sched.current)
    (lower : ∀ t ∈ low, q.sched.k.priority t < q.sched.k.priority q.sched.current) :
    ∃ s, turn q.sched = some s ∧ s.current :: s.ready_list = top ++ q.sched.current :: low ∧ s.k = q.sched.k ∧ Running s ∧
      Fair { q.stamp q.sched.current (thread_yield q.sched) with sched := s } := by
  have list := yield_list fair runs split equal lower
  have yielded := fair_yield fair runs.known runs.running
  have kernel : (thread_yield q.sched).k = q.sched.k := by
    rw [thread_yield,if_neg runs.busy]
    rfl
  cases queue : top ++ q.sched.current :: low with
  | nil => simp at queue
  | cons first others =>
    rw [queue] at list
    have listed : first ∈ (thread_yield q.sched).ready_list := by
      rw [list]
      exact List.mem_cons_self
    have stopped : (thread_yield q.sched).status (thread_yield q.sched).current ≠ .running := by
      rw [thread_yield,if_neg runs.busy]
      simp [Sched.setStatus,Sched.push]
    have known := yielded.known first listed
    have switched : schedule (thread_yield q.sched) = some { (thread_yield q.sched).setStatus first .running with
        current := first, ready_list := others, thread_ticks := 0, scheduling := false } := by
      rw [schedule,next_thread_to_run,list]
      exact if_pos ⟨stopped,known⟩
    refine ⟨_,switched,rfl,kernel,⟨known,if_pos rfl,?_⟩,fair_schedule yielded switched⟩
    exact ((yielded.ready first).mp listed).2

/-- Threads of one priority that only yield run in turn, and no other thread does. -/
theorem turns_rotate (n : Nat) (fair : Fair q) (runs : Running q.sched) (split : q.sched.ready_list = top ++ low)
    (equal : ∀ t ∈ top, q.sched.k.priority t = q.sched.k.priority q.sched.current)
    (lower : ∀ t ∈ low, q.sched.k.priority t < q.sched.k.priority q.sched.current) :
    ∃ s, turns n q.sched = some s ∧ s.current :: s.ready_list = (q.sched.current :: top).rotate n ++ low := by
  induction n generalizing q top with
  | zero => exact ⟨q.sched,rfl,by rw [split,List.rotate_zero]; rfl⟩
  | succ n ih =>
    obtain ⟨s,ran,list,kernel,running,fair'⟩ := turn_spec fair runs split equal lower
    have level : ∀ t ∈ top ++ [q.sched.current], s.k.priority t = q.sched.k.priority q.sched.current := by
      intro t member
      rw [kernel]
      rcases List.mem_append.mp member with before | last
      · exact equal t before
      · rw [List.mem_singleton.mp last]
    cases queue : top ++ [q.sched.current] with
    | nil => simp at queue
    | cons first others =>
      have front : s.current :: s.ready_list = first :: (others ++ low) := by
        rw [list,← List.cons_append,← queue,List.append_assoc]
        rfl
      obtain ⟨current,ready⟩ := List.cons.inj front
      rw [queue] at level
      have same := level first List.mem_cons_self
      obtain ⟨s',later,turned⟩ := ih fair' running ready
        (fun t member => (level t (List.mem_cons_of_mem _ member)).trans (by rw [current,same]))
        (fun t member => by rw [current,same,kernel]; exact lower t member)
      refine ⟨s',?_,?_⟩
      · rw [turns,ran]
        exact later
      · rw [turned,current,← queue,List.rotate_cons_succ]

/-- While no priority changes, the ready threads are listed once each, `next_thread_to_run`
    takes the one of highest priority that came first, the idle thread only where there
    is none, and threads of one priority that only yield run in turn. -/
theorem run_queue_is_fair (q : Timed) (reached : Reaches machine Anything q) :
    (∀ t, t ∈ q.sched.ready_list ↔ q.sched.status t = .ready ∧ q.sched.idle_thread ≠ some t) ∧ q.sched.ready_list.Nodup ∧
    (q.sched.ready_list ≠ [] → ∃ t rest, next_thread_to_run q.sched = some (t,rest) ∧ q.sched.ready_list = t :: rest ∧
      ∀ u ∈ rest, q.sched.k.priority u < q.sched.k.priority t ∨
        q.sched.k.priority u = q.sched.k.priority t ∧ q.since t < q.since u) ∧
    (∀ t, q.sched.idle_thread = some t → ((∃ rest, next_thread_to_run q.sched = some (t,rest)) ↔ q.sched.ready_list = [])) ∧
    ∀ top low, Running q.sched → q.sched.ready_list = top ++ low →
      (∀ t ∈ top, q.sched.k.priority t = q.sched.k.priority q.sched.current) →
      (∀ t ∈ low, q.sched.k.priority t < q.sched.k.priority q.sched.current) →
      ∀ n, ∃ s, turns n q.sched = some s ∧ s.current :: s.ready_list = (q.sched.current :: top).rotate n ++ low := by
  have fair := reaches_fair reached
  refine ⟨fair.ready,fair.once,?_,?_,fun top low runs split equal lower n => turns_rotate n fair runs split equal lower⟩
  · intro busy
    obtain ⟨t,rest,queue⟩ := List.exists_cons_of_ne_nil busy
    refine ⟨t,rest,by rw [next_thread_to_run,queue],queue,fun u later => ?_⟩
    have order := fair.order
    rw [queue] at order
    obtain ⟨below,first⟩ := (List.pairwise_cons.mp order).1 u later
    rcases Int.lt_or_eq_of_le below with less | same
    · exact .inl less
    · exact .inr ⟨same,first same.symm⟩
  · intro t isIdle
    constructor
    · rintro ⟨rest,takes⟩
      cases queue : q.sched.ready_list with
      | nil => rfl
      | cons first others =>
        rw [next_thread_to_run,queue] at takes
        obtain ⟨rfl,rfl⟩ := Prod.mk.inj (Option.some.inj takes)
        exact absurd isIdle ((fair.ready first).mp (queue ▸ List.mem_cons_self)).2
    · intro empty
      refine ⟨[],?_⟩
      rw [next_thread_to_run,empty,isIdle]
      rfl

/-- Four threads, of which 4 has the lower priority; 2 and 3 became ready in this order. -/
def three_ready : Sched :=
  { boot with
    k := { boot.k with count := 5, threads := fun t => init_thread (if t = 4 then 20 else 31) }
    ready_list := [2,3,4]
    status := fun t => if t = 0 then .running else if t ∈ [2,3,4] then .ready else .blocked }

theorem three_fair : Fair ⟨three_ready,5,id⟩ where
  order := by
    unfold InOrder
    decide
  once := by decide
  ready t := by
    show t ∈ [2,3,4] ↔ (if t = 0 then Status.running else if t ∈ [2,3,4] then .ready else .blocked) = .ready ∧ some 1 ≠ some t
    by_cases main : t = 0
    · simp [main]
    · by_cases listed : t ∈ [2,3,4]
      · have other : t ≠ 1 := by
          rintro rfl
          exact absurd listed (by decide)
        simp [main,listed,Ne.symm other]
      · simp [main,listed]
  known := by decide
  stamped := by decide

theorem run_queue_takes_turns : ∃ s, turns 4 three_ready = some s ∧ s.current :: s.ready_list = [2,3,0,4] := by
  have turns := (run_queue_is_fair ⟨three_ready,5,id⟩ (.start three_fair)).2.2.2.2 [2,3] [4] ⟨by decide,rfl,by decide⟩ rfl
    (by decide) (by decide) 4
  exact turns

/-! ### The kernel's own runs -/

/-- A step of the kernel that changes no thread's priority, and in which the loop of
    `timer_interrupt` ends at an empty `waiting_list`. -/
def Steady (s : Sched) (e : Scheduler.Event) : Prop :=
  Queues.EmptyLoopEnds s e ∧ ∀ s', step s e = some s' → ∀ t, is_thread s t → s'.k.priority t = s.k.priority t

def Queued (s : Sched) : Prop := ∃ q, Reaches machine Anything q ∧ q.sched = s
/-- The current thread may yield. -/
def Live (s : Sched) : Prop := is_thread s s.current ∧ s.status s.current = .running

theorem queued_other (queued : Queued s) (other : Other s s') : Queued s' := by
  obtain ⟨q,reached,rfl⟩ := queued
  exact ⟨_,.next reached (e := .other) trivial ⟨s',other,rfl⟩,rfl⟩

theorem queued_unblock (queued : Queued s) (busy : s.idle_thread ≠ some t) (ran : thread_unblock s t = some s') : Queued s' := by
  obtain ⟨q,reached,rfl⟩ := queued
  exact ⟨_,.next reached (e := .unblock t) trivial ⟨busy,s',ran,rfl⟩,rfl⟩

theorem queued_yield (queued : Queued s) (live : Live s) : Queued (thread_yield s) := by
  obtain ⟨q,reached,rfl⟩ := queued
  exact ⟨_,.next reached (e := .yield) trivial ⟨live.1,live.2,rfl⟩,rfl⟩

theorem queued_yieldIf (queued : Queued s) (live : Live s) (c : Prop) [Decidable c] :
    Queued (if c then thread_yield s else s) := by
  split
  · exact queued_yield queued live
  · exact queued

theorem queued_schedule (queued : Queued s) (ran : schedule s = some s') : Queued s' := by
  obtain ⟨q,reached,rfl⟩ := queued
  exact ⟨_,.next reached (e := .schedule) trivial ⟨s',ran,rfl⟩,rfl⟩

/-- The current thread stops without being ready. -/
theorem other_stop {v : Status} (running : s.status s.current = .running) (unready : v ≠ .ready) :
    Other s { s.setStatus s.current v with scheduling := true } where
  count := Nat.le_refl _
  ready_list := rfl
  idle_thread := rfl
  ready t := by
    show (if t = s.current then v else s.status t) = .ready ↔ _
    by_cases same : t = s.current
    · simp [same,running,unready]
    · rw [if_neg same]
  priority _ _ := rfl

theorem other_setSema (x : Sema) (v : Semaphore) : Other s (s.setSema x v) := by
  cases x <;> exact ⟨Nat.le_refl _,rfl,rfl,fun _ => Iff.rfl,fun _ _ => rfl⟩

theorem other_pc (code : List Instr) : Other s (s.setPc t code) := ⟨Nat.le_refl _,rfl,rfl,fun _ => Iff.rfl,fun _ _ => rfl⟩

theorem other_sleepers (wake : Tid → Int) (ts : List Tid) : Other s { s with waiting_ticks := wake, waiting_list := ts } :=
  ⟨Nat.le_refl _,rfl,rfl,fun _ => Iff.rfl,fun _ _ => rfl⟩

theorem live_unblock (live : Live s) (ran : thread_unblock s t = some s') : Live s' ∧ s'.idle_thread = s.idle_thread := by
  unfold thread_unblock at ran
  split at ran
  · next blocked =>
    cases ran
    refine ⟨⟨live.1,?_⟩,rfl⟩
    show (if s.current = t then Status.ready else s.status s.current) = .running
    rw [if_neg fun same => ?_]
    · exact live.2
    · have running := live.2
      rw [same,blocked.2] at running
      cases running
  · cases ran

theorem queued_up {x : Sema} {stray : Int} (queued : Queued s) (live : Live s)
    (busy : ∀ t ∈ (s.sema x).waiters, s.idle_thread ≠ some t)
    (ran : sema_up s x stray = some s') : Queued s' := by
  have sets {s : Sched} (live : Live s) (v : Semaphore) : Live (s.setSema x v) := by
    cases x <;> exact live
  unfold sema_up at ran
  split at ran
  · cases ran
    exact queued_yieldIf (queued_other queued (other_setSema _ _)) (sets live _) _
  · next wt rest sorted =>
    obtain ⟨woken,unblocked,yields⟩ := Option.bind_eq_some_iff.mp ran
    cases yields
    have waited : wt ∈ (s.sema x).waiters := by
      rw [← mem_list_sort (sort_by_priority s.k),sorted]
      exact List.mem_cons_self
    have idle : (s.setSema x { s.sema x with waiters := rest }).idle_thread = s.idle_thread := by cases x <;> rfl
    have popped := queued_other queued (other_setSema (s := s) x { s.sema x with waiters := rest })
    have ready := queued_unblock popped (by rw [idle]; exact busy wt waited) unblocked
    have live' := (live_unblock (sets live _) unblocked).1
    exact queued_yieldIf (queued_other ready (other_setSema _ _)) (sets live' _) _

theorem queued_wake {stray : Bool} (sleepers : List Tid) (queued : Queued s) (live : Live s)
    (busy : ∀ t ∈ sleepers, s.idle_thread ≠ some t)
    (ran : wakeSleepers s stray sleepers = some s') : Queued s' ∧ Live s' := by
  induction sleepers generalizing s with
  | nil =>
    simp only [wakeSleepers] at ran
    split at ran
    · cases ran
    · cases ran
      exact ⟨queued_other queued (other_sleepers s.waiting_ticks _),live⟩
  | cons t rest ih =>
    simp only [wakeSleepers] at ran
    split at ran
    · obtain ⟨woken,unblocked,further⟩ := Option.bind_eq_some_iff.mp ran
      obtain ⟨live',idle⟩ := live_unblock live unblocked
      refine ih (queued_unblock queued (busy t List.mem_cons_self) unblocked) live' ?_ further
      rw [idle]
      exact fun u member => busy u (List.mem_cons_of_mem _ member)
    · cases ran
      exact ⟨queued_other queued (other_sleepers s.waiting_ticks _),live⟩

theorem queued_down {x : Sema} (queued : Queued s) (live : Live s) : Queued (sema_down s x) := by
  unfold sema_down
  split
  · have waits := queued_other queued (other_setSema x { s.sema x with
      waiters := list_sort (sort_by_priority s.k) ((s.sema x).waiters ++ [s.current]) })
    refine queued_other (queued_other waits (other_pc _)) (other_stop ?_ (by decide))
    cases x <;> exact live.2
  · refine queued_other (queued_other queued (other_setSema x _)) ⟨Nat.le_refl _,rfl,rfl,fun _ => Iff.rfl,fun t _ => ?_⟩
    exact setThread_priority rfl

theorem queued_exec {i : Instr} {stray : Int} (queued : Queued s) (live : Live s)
    (waiters : ∀ x, ∀ t ∈ (s.sema x).waiters, s.idle_thread ≠ some t) (newborn : ∀ t, i = .unblock t → s.idle_thread ≠ some t)
    (known : ∀ t, s.idle_thread = some t → is_thread s t)
    (fixed : ∀ t, is_thread s t → s'.k.priority t = s.k.priority t) (ran : exec s stray i = some s') : Queued s' := by
  have quiet : ∀ s1, SameQueue s s1 → some s1 = some s' → Queued s' := by
    intro s1 same equal
    cases equal
    exact queued_other queued ⟨same.count,same.ready_list,same.idle_thread,fun t => by rw [same.status],fixed⟩
  have unchanged : some s = some s' → Queued s' := fun equal => Option.some.inj equal ▸ queued
  cases i with
  | acquire l =>
    simp only [exec] at ran
    split at ran
    · cases ran
    · exact quiet _ (sameQueue_enter _) ran
  | release l =>
    simp only [exec] at ran
    split at ran
    · exact quiet _ (sameQueue_trans (sameQueue_restoration l stray) (sameQueue_enter _)) ran
    · cases ran
  | donate l =>
    simp only [exec] at ran
    split at ran
    · exact unchanged ran
    · split at ran
      · exact quiet _ (sameQueue_enter _) ran
      · exact unchanged ran
  | record l lh =>
    obtain ⟨k,recorded,rfl⟩ := Option.map_eq_some_iff.mp ran
    obtain ⟨count,priority⟩ := record_same recorded
    exact quiet _ (sameQueue_kernel count (fun t _ => priority t)) rfl
  | raise lh =>
    cases ran
    exact queued_other queued ⟨Nat.le_refl _,rfl,rfl,fun _ => Iff.rfl,fixed⟩
  | follow lh =>
    simp only [exec] at ran
    split at ran
    · exact unchanged ran
    · exact quiet _ (sameQueue_enter _) ran
  | wait_for l => exact quiet _ (sameQueue_setOwn _) ran
  | down x | down_again x => exact Option.some.inj ran ▸ queued_down queued live
  | hold l | unhold l => exact quiet _ (sameQueue_setLock l _) ran
  | put priority_restore =>
    exact quiet _ (sameQueue_put priority_restore) ran
  | up x => exact queued_up queued live (waiters x) ran
  | init priority =>
    obtain ⟨k,created,rfl⟩ := Option.map_eq_some_iff.mp ran
    have count : s.k.count ≤ k.count := by
      unfold thread_create at created
      split at created
      · cases created
        exact Nat.le_succ _
      · cases created
    refine queued_other (?_ : Queued ({ s with k := k }.setStatus s.k.count .blocked)) (other_pc _)
    refine queued_other queued ⟨count,rfl,rfl,fun t => ?_,fixed⟩
    show (if t = s.k.count then Status.blocked else s.status t) = .ready ↔ _
    by_cases new : t = s.k.count
    · subst new
      -- What is ready is listed or idle, and so a thread already.
      obtain ⟨q,reached,rfl⟩ := queued
      have fair := reaches_fair reached
      have unready : q.sched.status q.sched.k.count ≠ .ready := by
        intro ready
        by_cases isIdle : q.sched.idle_thread = some q.sched.k.count
        · exact Nat.lt_irrefl _ (known _ isIdle)
        · exact Nat.lt_irrefl _ (fair.known _ ((fair.ready _).mpr ⟨ready,isIdle⟩))
      simp [unready]
    · rw [if_neg new]
  | unblock t => exact queued_unblock queued (newborn t rfl) ran
  | yield_below priority => exact Option.some.inj ran ▸ queued_yieldIf queued live _
  | set_priority new_priority =>
    exact quiet _ (sameQueue_trans (sameQueue_set_priority new_priority) (sameQueue_enter _)) ran
  | yield_to_front new_priority => exact Option.some.inj ran ▸ queued_yieldIf queued live _
  | yield => exact Option.some.inj ran ▸ queued_yield queued live
  | sleep n => exact quiet _ (sameQueue_enter _) ran
  | sleep_until waiting_ticks =>
    cases ran
    exact queued_other (queued_other queued (other_sleepers _ _)) (other_stop (v := .blocked) live.2 (by decide))
  | exit =>
    cases ran
    exact queued_other queued (other_stop live.2 (by decide))
  | idle =>
    cases ran
    exact queued_other (queued_other queued (other_pc _)) (other_stop live.2 (by decide))

/-- While no priority changes, every run of the kernel is a run of the queue. -/
theorem kernel_queued (reached : Reaches Scheduler.machine Steady s) : Queued s := by
  have both : Queues.Inv s ∧ Queued s := by
    refine reaches_invariant (fun s => Queues.Inv s ∧ Queued s) ?_ ?_ reached
    · rintro s rfl
      refine ⟨Queues.inv_boot,⟨boot,0,fun _ => 0⟩,.start ⟨.nil,.nil,?_,by simp [boot],by simp [boot]⟩,rfl⟩
      intro t
      by_cases main : t = 0 <;> simp [boot,main]
    · rintro s e s' ⟨inv,queued⟩ ⟨ends,fixed⟩ ran
      refine ⟨Queues.inv_step inv ends ran,?_⟩
      obtain ⟨-,place,placed⟩ := inv
      have live (runs : s.scheduling = false) : Live s := by
        have fits := placed.status s.current
        rw [Queues.place_current placed runs] at fits
        exact ⟨placed.current,fits⟩
      have apart {t : Tid} {p : Queues.Place} (isIdle : s.idle_thread = some t) (here : place t = p) : p = .idle ∨ p = .running :=
        here ▸ placed.idle t isIdle
      have priorities := fixed s' ran
      have ran : step s e = some s' := ran
      cases e with
      | call c =>
        simp only [step] at ran
        split at ran
        · cases ran
          exact queued_other queued (other_pc _)
        · cases ran
      | exec stray =>
        simp only [step] at ran
        split at ran
        · cases ran
        · next runs =>
          split at ran
          · cases ran
          · next i rest code =>
            refine queued_exec (queued_other queued (other_pc rest)) (live (by simpa using runs)) ?_ ?_ ?_ priorities ran
            · intro x t member isIdle
              rw [Queues.sema_setPc] at member
              have := apart isIdle ((placed.waiting x t).mp member)
              simp at this
            · rintro t rfl isIdle
              have born : t ∈ Queues.births s s.current := by simp [Queues.births,code,Queues.birth]
              have := apart isIdle ((placed.unborn s.current t).mp born)
              simp at this
            · intro t isIdle
              refine (placed.known t).mpr fun nowhere => ?_
              have := apart isIdle nowhere
              simp at this
      | timer stray =>
        simp only [step] at ran
        split at ran
        · next enabled =>
          have runs : s.scheduling = false := by
            simp only [interruptible,Bool.and_eq_true,Bool.not_eq_true'] at enabled
            exact enabled.1
          obtain ⟨woken,wakes,yields⟩ := Option.bind_eq_some_iff.mp ran
          cases yields
          have ticked : Other s { s with ticks := s.ticks + 1 } := ⟨Nat.le_refl _,rfl,rfl,fun _ => Iff.rfl,fun _ _ => rfl⟩
          obtain ⟨awake,live'⟩ := queued_wake s.waiting_list (queued_other queued ticked) (live runs) (fun t member isIdle => by
            have := apart isIdle ((placed.asleep t).mp member)
            simp at this) wakes
          have counted : Other woken { woken with thread_ticks := woken.thread_ticks + 1 } :=
            ⟨Nat.le_refl _,rfl,rfl,fun _ => Iff.rfl,fun _ _ => rfl⟩
          exact queued_yieldIf (queued_other awake counted) live' _
        · cases ran
      | schedule =>
        simp only [step] at ran
        split at ran
        · exact queued_schedule queued ran
        · cases ran
  exact both.2

end Pintos.RunQueue
