import Pintos.Alarm
import Pintos.Preemption
import Mathlib.Data.BitVec

/-!
Reads of memory that is no thread. The first thread of an empty list is read at the end
of the list, and `sema_up` reads a pointer that it has not set: what is there decides.
`Stray` is this memory; that a function does not depend on it is a law about two runs
from one state, with any two of them.

`lock_release` and `thread_set_priority` are here as one call, without the interrupts
that may come between their instructions.
-/
namespace Pintos.StrayReads
open Pintos.Lists Pintos.Machines Pintos.Scheduler Pintos.ReadyQueue Pintos.Queues
open Pintos.Synch hiding Event step boot machine sema_down sema_up thread_set_priority lock_release
set_option linter.unusedSimpArgs false

/-- The members of a thread at the end of `waiting_list`, the priority of one at the end
    of `ready_list` and of each lock's waiters, and what the pointer `wt` of `sema_up`
    points to. -/
structure Stray where
  waiting_ticks : BitVec 64
  tid : BitVec 32
  status : BitVec 32
  ready_priority : BitVec 32
  waiters_priority : LockId → BitVec 32
  wt_priority : BitVec 32

def THREAD_READY : BitVec 32 := 1

/-- The condition of the loop of `timer_interrupt`, at an empty list. -/
def Stray.wakes (m : Stray) (ticks : Int) : Bool :=
  decide (m.waiting_ticks.toInt ≤ ticks) && m.tid != 0 && m.status != THREAD_READY

def timer_interrupt (m : Stray) (s : Sched) : Option Sched := Scheduler.timer_interrupt s (m.wakes (s.ticks + 1))

def thread_set_priority (m : Stray) (s : Sched) (new_priority : Int) : Option Sched :=
  exec { s with k := Synch.thread_set_priority s.k s.current new_priority } m.ready_priority.toInt (.yield_to_front new_priority)

def sema_up (m : Stray) (s : Sched) (x : Sema) : Option Sched := Scheduler.sema_up s x m.wt_priority.toInt

/-- `lock_release` up to its call of `sema_up`. -/
def restored (s : Sched) (l : LockId) (front : Int) : Sched :=
  let restoration := priority_restoration s.k s.current l front
  let k := restoration.1.setLock l { restoration.1.locks l with holder := none }
  { s with k := putPriority k s.current restoration.2 }
def lock_release (m : Stray) (s : Sched) (l : LockId) : Option Sched :=
  if s.k.holder l = some s.current then sema_up m (restored s l (m.waiters_priority l).toInt) (.lock l) else none

/-- The result is the same with any other memory. -/
def Independent (f : Stray → Option Sched) : Prop := ∀ m m', f m = f m'

def INT_MAX : Int := 2147483647
def INT_MIN : Int := -2147483648
/-- The values of `int`. -/
def IsInt (p : Int) : Prop := INT_MIN ≤ p ∧ p ≤ INT_MAX

instance (p : Int) : Decidable (IsInt p) := inferInstanceAs (Decidable (_ ∧ _))

variable {s s' : Sched} {m m' : Stray} {t : Tid} {x : Sema} {l : LockId} {p : Int} {b : Bool}

theorem isInt_toInt (isInt : IsInt p) : (BitVec.ofInt 32 p).toInt = p := by
  obtain ⟨low,high⟩ := isInt
  rw [BitVec.toInt_ofInt]
  simp only [INT_MIN,INT_MAX] at low high
  refine Int.bmod_eq_of_le ?_ ?_ <;> omega

theorem toInt_isInt (w : BitVec 32) : IsInt w.toInt := by
  have low := BitVec.le_toInt w
  have high := BitVec.toInt_lt (x := w)
  simp only [IsInt,INT_MIN,INT_MAX]
  omega

/-! ### The yields -/

/-- A yield is seen in the state. -/
theorem yield_differs (runs : s.scheduling = false) : thread_yield s ≠ s := by
  intro same
  have stops : (thread_yield s).scheduling = true := rfl
  rw [same,runs] at stops
  cases stops

/-- A comparison with a stray priority. -/
theorem compares_iff (runs : s.scheduling = false) (isInt : IsInt p) (read : Stray → BitVec 32) (writes : ∀ w, ∃ m, read m = w) :
    Independent (fun m => some (if p < (read m).toInt then thread_yield s else s)) ↔ p = INT_MAX := by
  constructor
  · intro same
    by_contra below
    obtain ⟨high,top⟩ := writes (.ofInt 32 INT_MAX)
    obtain ⟨low,bottom⟩ := writes (.ofInt 32 INT_MIN)
    have runs' := Option.some.inj (same high low)
    rw [top,bottom,isInt_toInt (by decide),isInt_toInt (by decide),if_pos (by have := isInt.2; omega),
      if_neg (Int.not_lt.mpr isInt.1)] at runs'
    exact yield_differs runs runs'
  · rintro rfl m m'
    dsimp only
    rw [if_neg (Int.not_lt.mpr (toInt_isInt _).2),if_neg (Int.not_lt.mpr (toInt_isInt _).2)]

theorem set_priority_iff (runs : s.scheduling = false) (isInt : IsInt p) :
    Independent (fun m => thread_set_priority m s p) ↔ s.ready_list ≠ [] ∨ p = INT_MAX := by
  cases queue : s.ready_list with
  | nil =>
    have reads (m : Stray) : thread_set_priority m s p =
        some (if p < m.ready_priority.toInt then thread_yield { s with k := Synch.thread_set_priority s.k s.current p }
          else { s with k := Synch.thread_set_priority s.k s.current p }) := by
      simp only [thread_set_priority,exec,readyFront,queue]
    simp only [reads,ne_eq,not_true_eq_false,false_or]
    exact compares_iff (s := { s with k := Synch.thread_set_priority s.k s.current p }) runs isInt Stray.ready_priority
      fun w => ⟨⟨0,0,0,w,fun _ => 0,0⟩,rfl⟩
  | cons t rest =>
    refine iff_of_true (fun m m' => ?_) (.inl (List.cons_ne_nil t rest))
    simp only [thread_set_priority,exec,readyFront,queue]

theorem up_none (empty : (s.sema x).waiters = []) (stray : Int) : Scheduler.sema_up s x stray =
    some (if s.k.priority s.current < stray then thread_yield (s.setSema x { s.sema x with value := (s.sema x).value + 1 })
      else s.setSema x { s.sema x with value := (s.sema x).value + 1 }) := by
  have sorted : list_sort (sort_by_priority s.k) (s.sema x).waiters = [] := by
    rw [empty]
    exact (list_sort_perm _ []).eq_nil
  have current : (s.setSema x { s.sema x with value := (s.sema x).value + 1 }).k.priority
      (s.setSema x { s.sema x with value := (s.sema x).value + 1 }).current = s.k.priority s.current := by
    cases x <;> rfl
  simp only [Scheduler.sema_up,sorted,current,gt_iff_lt]

theorem up_some (busy : (s.sema x).waiters ≠ []) (stray stray' : Int) :
    Scheduler.sema_up s x stray = Scheduler.sema_up s x stray' := by
  unfold Scheduler.sema_up
  split
  · next sorted =>
    have perm := list_sort_perm (sort_by_priority s.k) (s.sema x).waiters
    rw [sorted] at perm
    exact absurd perm.symm.eq_nil busy
  · rfl

theorem sema_up_iff (runs : s.scheduling = false) (isInt : IsInt (s.k.priority s.current)) :
    Independent (fun m => sema_up m s x) ↔ (s.sema x).waiters ≠ [] ∨ s.k.priority s.current = INT_MAX := by
  by_cases empty : (s.sema x).waiters = []
  · have still : (s.setSema x { s.sema x with value := (s.sema x).value + 1 }).scheduling = false := by
      cases x <;> exact runs
    refine Iff.trans ?_ (or_iff_right fun busy => busy empty).symm
    simp only [sema_up,up_none empty]
    exact compares_iff still isInt Stray.wt_priority fun w => ⟨⟨0,0,0,0,fun _ => 0,w⟩,rfl⟩
  · exact iff_of_true (fun m m' => up_some empty _ _) (.inl empty)

/-- The lists of locks that donated, which `priority_restoration` shortens. -/
def lists (s : Sched) : List LockId := (s.k.threads s.current).lock_list

theorem lists_up (empty : (s.sema x).waiters = []) (stray : Int) (ran : Scheduler.sema_up s x stray = some s') :
    lists s' = lists s := by
  have set (v : Semaphore) : lists (s.setSema x v) = lists s := by cases x <;> rfl
  have yield (s : Sched) : lists (thread_yield s) = lists s := by
    unfold thread_yield
    split <;> rfl
  rw [up_none empty] at ran
  rw [← Option.some.inj ran]
  split
  · rw [yield,set]
  · exact set _

theorem restored_waiters (front : Int) : ((restored s l front).sema (.lock l)).waiters = s.k.waiters l := by
  have locks := (priority_restoration_frame s.k s.current l front).2.2.1
  simp [restored,Sched.sema,Kernel.waiters,Kernel.setLock,locks]

/-- Where no donation through the lock is recorded, nothing is restored. -/
theorem restored_plain (none_ : (s.k.threads s.current).donation_nested_level = 0 ∨ l ∉ (s.k.threads s.current).lock_list)
    (front : Int) : priority_restoration s.k s.current l front = (s.k,-1) := by
  unfold priority_restoration
  rcases none_ with level | out
  · exact if_pos level
  · dsimp only
    split <;> rfl

/-- Else the front of the waiters decides whether the lock stays in the list. -/
theorem restored_lists (level : (s.k.threads s.current).donation_nested_level ≠ 0)
    (listed : l ∈ (s.k.threads s.current).lock_list)
    (empty : s.k.waiters l = []) (front : Int) :
    lists (restored s l front) = if front = s.k.priority s.current then (lists s).erase l else lists s := by
  have reads : frontPriority s.k l front = front := by rw [frontPriority,empty]
  have put (k : Kernel) (p : Int) : ((putPriority k s.current p).threads s.current).lock_list = (k.threads s.current).lock_list := by
    unfold putPriority
    split <;> simp [Kernel.setThread]
  have kept : lists (restored s l front) = ((priority_restoration s.k s.current l front).1.threads s.current).lock_list := put _ _
  rw [kept,priority_restoration,if_neg level,if_neg (not_not.mpr listed),reads]
  dsimp only
  by_cases same : front = (s.k.threads s.current).priority
  · simp [same,Kernel.setThread,Kernel.priority,lists]
  · simp [same,Kernel.setThread,Kernel.priority,lists]

theorem lock_release_iff (runs : s.scheduling = false) (isInt : IsInt (s.k.priority s.current)) :
    Independent (fun m => lock_release m s l) ↔ s.k.holder l ≠ some s.current ∨ s.k.waiters l ≠ [] ∨
      (s.k.priority s.current = INT_MAX ∧
        ((s.k.threads s.current).donation_nested_level = 0 ∨ l ∉ (s.k.threads s.current).lock_list)) := by
  by_cases held : s.k.holder l = some s.current
  · simp only [lock_release,if_pos held]
    refine Iff.trans ?_ (or_iff_right fun other => other held).symm
    by_cases empty : s.k.waiters l = []
    · refine Iff.trans ?_ (or_iff_right fun busy => busy empty).symm
      by_cases plain : (s.k.threads s.current).donation_nested_level = 0 ∨ l ∉ (s.k.threads s.current).lock_list
      · have same (front : Int) : restored s l front = restored s l 0 := by
          simp only [restored,restored_plain plain]
        have priority : (restored s l 0).k.priority (restored s l 0).current = s.k.priority s.current := by
          simp [restored,restored_plain plain,putPriority,Kernel.priority,Kernel.setLock]
        simp only [same]
        refine (sema_up_iff (s := restored s l 0) runs (priority.symm ▸ isInt)).trans ?_
        rw [restored_waiters,priority]
        simp [empty,plain]
      · refine iff_of_false (fun same => ?_) fun both => plain both.2
        obtain ⟨level,listed⟩ := not_or.mp plain
        have listed := not_not.mp listed
        have ups (m : Stray) : ∃ s', sema_up m (restored s l (m.waiters_priority l).toInt) (.lock l) = some s' ∧
            lists s' = lists (restored s l (m.waiters_priority l).toInt) := by
          have none_ := (restored_waiters (s := s) (l := l) (m.waiters_priority l).toInt).trans empty
          exact ⟨_,up_none none_ _,lists_up none_ _ (up_none none_ _)⟩
        have differs (w : BitVec 32) : ∃ m : Stray, m.waiters_priority l = w := ⟨⟨0,0,0,0,fun _ => w,0⟩,rfl⟩
        obtain ⟨m,equal⟩ := differs (.ofInt 32 (s.k.priority s.current))
        obtain ⟨m',other⟩ := differs (.ofInt 32 (if s.k.priority s.current = 0 then 1 else 0))
        obtain ⟨s₁,ran,first⟩ := ups m
        obtain ⟨s₂,ran',second⟩ := ups m'
        have states := (ran.symm.trans (same m m')).trans ran'
        have away : (BitVec.ofInt 32 (if s.k.priority s.current = 0 then 1 else 0)).toInt ≠ s.k.priority s.current := by
          split
          · next zero =>
            rw [zero]
            decide
          · next nonzero =>
            rw [isInt_toInt (by decide)]
            exact fun same => nonzero same.symm
        rw [equal,restored_lists level listed empty,isInt_toInt isInt,if_pos rfl] at first
        rw [other,restored_lists level listed empty,if_neg away] at second
        rw [← Option.some.inj states] at second
        have shorter : ((lists s).erase l).length < (lists s).length := by
          have member : l ∈ lists s := listed
          have positive := List.length_pos_of_mem member
          rw [List.length_erase_of_mem member]
          omega
        rw [← first,second] at shorter
        exact Nat.lt_irrefl _ shorter
    · have same (front : Int) : restored s l front = restored s l 0 := by
        have reads : frontPriority s.k l front = frontPriority s.k l 0 := by
          unfold frontPriority
          split
          · next none_ => exact absurd none_ empty
          · rfl
        simp only [restored,priority_restoration,reads]
      refine iff_of_true (fun m m' => ?_) (.inl empty)
      simp only [same]
      exact up_some (by rw [restored_waiters]; exact empty) _ _
  · refine iff_of_true (fun m m' => ?_) (.inl held)
    simp only [lock_release,if_neg held]

/-! ### The timer -/

/-- A sleeper with longer to sleep ends the loop. -/
theorem wake_stops (sleepers : List Tid) (longer : ∃ t ∈ sleepers, s.ticks < s.waiting_ticks t) (b : Bool) :
    wakeSleepers s b sleepers = wakeSleepers s false sleepers := by
  induction sleepers generalizing s with
  | nil =>
    obtain ⟨t,member,-⟩ := longer
    exact absurd member List.not_mem_nil
  | cons t rest ih =>
    simp only [wakeSleepers]
    split
    · next due =>
      cases unblocked : thread_unblock s t with
      | none => rfl
      | some woken =>
        obtain ⟨-,rfl⟩ := Alarm.unblock_eq unblocked
        obtain ⟨u,member,later⟩ := longer
        rcases List.mem_cons.mp member with rfl | member
        · exact absurd due.1 (Int.not_le.mpr later)
        · exact ih ⟨u,member,later⟩
    · rfl

/-- Where every sleep is over, the loop reads on at the end of the list. -/
theorem wake_fails (sleepers : List Tid) (over_ : ∀ t ∈ sleepers, s.waiting_ticks t ≤ s.ticks) (once : sleepers.Nodup)
    (asleep : ∀ t ∈ sleepers, s.status t ≠ .ready) : wakeSleepers s true sleepers = none := by
  induction sleepers generalizing s with
  | nil => rfl
  | cons t rest ih =>
    obtain ⟨out,once⟩ := List.nodup_cons.mp once
    simp only [wakeSleepers,if_pos (And.intro (over_ t List.mem_cons_self) (asleep t List.mem_cons_self))]
    cases unblocked : thread_unblock s t with
    | none => rfl
    | some woken =>
      obtain ⟨-,rfl⟩ := Alarm.unblock_eq unblocked
      refine ih (fun u member => over_ u (List.mem_cons_of_mem _ member)) once fun u member => ?_
      show (if u = t then Status.ready else s.status u) ≠ .ready
      rw [if_neg fun same : u = t => out (same ▸ member)]
      exact asleep u (List.mem_cons_of_mem _ member)

theorem timer_iff (inv : Inv s) (runs : s.scheduling = false) (ticks : 0 ≤ s.ticks) :
    Independent (fun m => timer_interrupt m s) ↔ ∃ t ∈ s.waiting_list, s.ticks + 1 < s.waiting_ticks t := by
  constructor
  · intro same
    by_contra none_
    have over_ : ∀ t ∈ s.waiting_list, s.waiting_ticks t ≤ s.ticks + 1 := fun t member =>
      Int.not_lt.mp fun later => none_ ⟨t,member,later⟩
    have fails : Scheduler.timer_interrupt s true = none := by
      rw [Scheduler.timer_interrupt,wake_fails (s := { s with ticks := s.ticks + 1 }) s.waiting_list over_ (Alarm.waiting_once inv)
        (fun t member => by
          show s.status t ≠ .ready
          rw [Alarm.sleeper_blocked inv member]
          decide)]
      rfl
    obtain ⟨-,place,placed⟩ := inv
    obtain ⟨s',runs',-⟩ := placed_timer placed runs
    let high : Stray := ⟨0,1,0,0,fun _ => 0,0⟩
    have wakes : high.wakes (s.ticks + 1) = true := by
      have soon : (0 : Int) ≤ s.ticks + 1 := by omega
      simp [Stray.wakes,high,soon,THREAD_READY]
    have sleeps : Stray.wakes ⟨0,0,0,0,fun _ => 0,0⟩ (s.ticks + 1) = false := by simp [Stray.wakes]
    have both := same high ⟨0,0,0,0,fun _ => 0,0⟩
    simp only [timer_interrupt,wakes,sleeps,fails,runs'] at both
    cases both
  · intro longer m m'
    have stops (b : Bool) : Scheduler.timer_interrupt s b = Scheduler.timer_interrupt s false := by
      rw [Scheduler.timer_interrupt,Scheduler.timer_interrupt,
        wake_stops (s := { s with ticks := s.ticks + 1 }) s.waiting_list longer b]
    simp only [timer_interrupt]
    rw [stops,stops (m'.wakes _)]

/-! ### All reachable states -/

theorem inv_anything {e : Event} (inv : Inv s) (ran : step s e = some s') : Inv s' := by
  cases e with
  | call c => exact inv_step inv (e := .call c) trivial ran
  | exec stray => exact inv_step inv (e := .exec stray) trivial ran
  | schedule => exact inv_step inv (e := .schedule) trivial ran
  | timer stray =>
    -- Where the loop reads on at the end of the list, there is no next state.
    refine inv_step inv (e := .timer false) rfl ?_
    simp only [step] at ran ⊢
    split at ran
    · next enabled =>
      obtain ⟨woken,wakes,yields⟩ := Option.bind_eq_some_iff.mp ran
      rw [if_pos enabled,Scheduler.timer_interrupt,(Preemption.wake_spec _ _ wakes).2.2.2.2.2.2]
      exact yields
    · cases ran

theorem wake_ticks (sleepers : List Tid) (ran : wakeSleepers s b sleepers = some s') : s'.ticks = s.ticks := by
  induction sleepers generalizing s with
  | nil =>
    simp only [wakeSleepers] at ran
    split at ran <;> cases ran
    rfl
  | cons t rest ih =>
    simp only [wakeSleepers] at ran
    split at ran
    · obtain ⟨woken,unblocked,further⟩ := Option.bind_eq_some_iff.mp ran
      obtain ⟨-,rfl⟩ := Alarm.unblock_eq unblocked
      have later := ih further
      exact later
    · cases ran
      rfl

theorem ticks_step {e : Event} (ran : step s e = some s') : s.ticks ≤ s'.ticks := by
  cases e with
  | call c =>
    simp only [step] at ran
    split at ran <;> cases ran
    exact Int.le_refl _
  | exec stray =>
    simp only [step] at ran
    split at ran
    · cases ran
    · split at ran
      · cases ran
      · next i rest code =>
        by_cases sleeps : ∃ w, i = .sleep_until w
        · obtain ⟨w,rfl⟩ := sleeps
          cases ran
          exact Int.le_refl _
        · exact Int.le_of_eq (Alarm.exec_sleepers ran fun w same => sleeps ⟨w,same⟩).2.2.symm
  | timer stray =>
    simp only [step] at ran
    split at ran
    · obtain ⟨woken,wakes,yields⟩ := Option.bind_eq_some_iff.mp ran
      have ticked : woken.ticks = s.ticks + 1 := wake_ticks s.waiting_list wakes
      have same : Alarm.SameSleepers woken { woken with thread_ticks := woken.thread_ticks + 1 } := ⟨rfl,rfl,rfl⟩
      have counted : Alarm.SameSleepers woken s' := by
        rw [← Option.some.inj yields]
        exact Alarm.sleepers_yieldIf same _
      rw [counted.2.2,ticked]
      omega
    · cases ran
  | schedule =>
    simp only [step] at ran
    split at ran
    · exact Int.le_of_eq (Alarm.schedule_same ran).1.2.2.symm
    · cases ran

theorem reaches_inv (reached : Reaches machine Anything s) : Inv s ∧ 0 ≤ s.ticks := by
  refine reaches_invariant (fun s => Inv s ∧ 0 ≤ s.ticks) ?_ ?_ reached
  · rintro s rfl
    exact ⟨inv_boot,Int.le_refl _⟩
  · rintro s e s' ⟨inv,ticks⟩ - ran
    exact ⟨inv_anything inv ran,Int.le_trans ticks (ticks_step ran)⟩

/-- With every memory the same comes out: of `timer_interrupt` just where some sleeper has
    longer to sleep, of `thread_set_priority` where a thread is ready, of `sema_up` where
    one waits, and of `lock_release` too; or where the priority that is compared is the
    greatest there is, and `lock_release` reads no front of the waiters. -/
theorem reads_threads_iff (s : Sched) (reached : Reaches machine Anything s) (runs : s.scheduling = false)
    (isInt : IsInt (s.k.priority s.current)) :
    (Independent (fun m => timer_interrupt m s) ↔ ∃ t ∈ s.waiting_list, s.ticks + 1 < s.waiting_ticks t) ∧
    (∀ p, IsInt p → (Independent (fun m => thread_set_priority m s p) ↔ s.ready_list ≠ [] ∨ p = INT_MAX)) ∧
    (∀ x, Independent (fun m => sema_up m s x) ↔ (s.sema x).waiters ≠ [] ∨ s.k.priority s.current = INT_MAX) ∧
    ∀ l, Independent (fun m => lock_release m s l) ↔ s.k.holder l ≠ some s.current ∨ s.k.waiters l ≠ [] ∨
      (s.k.priority s.current = INT_MAX ∧
        ((s.k.threads s.current).donation_nested_level = 0 ∨ l ∉ (s.k.threads s.current).lock_list)) := by
  obtain ⟨inv,ticks⟩ := reaches_inv reached
  exact ⟨timer_iff inv runs ticks,fun p isInt => set_priority_iff runs isInt,fun x => sema_up_iff runs isInt,
    fun l => lock_release_iff runs isInt⟩

/-- The main thread alone: its `sema_up` depends on the pointer that is not set. -/
theorem reads_threads_alone : ¬ Independent (fun m => sema_up m boot (.plain 0)) := by
  intro same
  rcases ((reads_threads_iff boot (.start rfl) rfl (by decide)).2.2.1 (.plain 0)).mp same with busy | high
  · exact busy rfl
  · exact absurd high (by decide)

def memory (priority : BitVec 32) (tid : BitVec 32) : Stray := ⟨0,tid,0,priority,fun _ => priority,priority⟩

/-- After boot, with nothing ready, asleep or waiting: two memories, and what each of the
    calls makes of them. -/
theorem stray_memory_decides : Reaches machine Anything boot ∧
    (timer_interrupt (memory 0 1) boot).isNone ∧ (timer_interrupt (memory 0 0) boot).isSome ∧
    ((thread_set_priority (memory 63 0) boot 31).any fun s => s.scheduling) ∧
    ((thread_set_priority (memory 0 0) boot 31).any fun s => !s.scheduling) ∧
    ((sema_up (memory 63 0) boot (.plain 0)).any fun s => s.scheduling) ∧
    ((sema_up (memory 0 0) boot (.plain 0)).any fun s => !s.scheduling) :=
  ⟨.start rfl,by decide⟩

end Pintos.StrayReads
