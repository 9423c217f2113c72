import Pintos.Queues

/-!
`timer_sleep` and the alarm of `timer_interrupt`. A sleeper reads the ticks, may be
preempted, and enters `waiting_list`, which is sorted by the ticks at which each sleep
is over; the interrupt takes sleepers from the front until one has longer to sleep.

Ticks are `int64_t` in the code. Here they are integers, so that a sum is what it is
where it can be represented. `start`, `asked`, `clock` and `slept` are not in the code:
the ticks that a sleeper read, the number it was called with, and the moment at which it
went to sleep.
-/
namespace Pintos.Alarm
open Pintos.Lists Pintos.Machines Pintos.Scheduler Pintos.ReadyQueue Pintos.Queues
open Pintos.Synch hiding Event step boot machine sema_down sema_up
set_option linter.unusedSimpArgs false

structure Clocked where
  sched : Sched
  start : Tid → Int
  asked : Tid → Int
  clock : Nat
  slept : Tid → Nat

/-- The instruction that an event runs. -/
def running_instr (s : Sched) : Event → Option Instr
  | .exec _ => (s.pc s.current).head?
  | _ => none

def Clocked.note (a : Clocked) (s : Sched) : Option Instr → Clocked
  | some (.sleep n) =>
    { a with
      sched := s
      start := Function.update a.start a.sched.current a.sched.ticks
      asked := Function.update a.asked a.sched.current n }
  | some (.sleep_until _) => { a with sched := s, clock := a.clock + 1, slept := Function.update a.slept a.sched.current a.clock }
  | _ => { a with sched := s }

def machine : Machine Clocked Event where
  Initial a := a.sched = boot
  Step a e a' := ∃ s, step a.sched e = some s ∧ a' = a.note s (running_instr a.sched e)

/-- The loop of `timer_interrupt` ends at an empty `waiting_list`. -/
def EmptyEnds (a : Clocked) (e : Event) : Prop := EmptyLoopEnds a.sched e

/-- By the end of the sleep, and by its beginning where the ends are the same. -/
def ByAlarm (s : Sched) (slept : Tid → Nat) (ts : List Tid) : Prop :=
  ts.Pairwise fun t u => s.waiting_ticks t ≤ s.waiting_ticks u ∧ (s.waiting_ticks t = s.waiting_ticks u → slept t < slept u)

/-- A thread that is in `timer_sleep` does nothing else, and sleeps for what it was
    called with. -/
structure Naps (a : Clocked) (t : Tid) : Prop where
  asks : ∀ n, .sleep n ∈ a.sched.pc t → a.sched.pc t = [.sleep n]
  ends : ∀ w, .sleep_until w ∈ a.sched.pc t → a.sched.pc t = [.sleep_until w] ∧ w = a.start t + a.asked t

structure Timed (a : Clocked) : Prop where
  inv : Inv a.sched
  order : ByAlarm a.sched a.slept a.sched.waiting_list
  stamped : ∀ t ∈ a.sched.waiting_list, a.slept t < a.clock
  ends : ∀ t ∈ a.sched.waiting_list, a.sched.waiting_ticks t = a.start t + a.asked t
  naps : ∀ t, Naps a t

variable {a a' : Clocked} {s s' : Sched} {t : Tid} {i : Instr} {stray : Int} {rest : List Instr}
  {slept : Tid → Nat}

/-! ### What leaves the sleepers alone -/

def SameSleepers (s s' : Sched) : Prop :=
  s'.waiting_list = s.waiting_list ∧ s'.waiting_ticks = s.waiting_ticks ∧ s'.ticks = s.ticks

theorem sleepers_yield : SameSleepers s (thread_yield s) := by
  unfold thread_yield
  split <;> exact ⟨rfl,rfl,rfl⟩

theorem sleepers_yieldIf (same : SameSleepers s s') (c : Prop) [Decidable c] :
    SameSleepers s (if c then thread_yield s' else s') := by
  split
  · obtain ⟨list,ends,ticks⟩ := sleepers_yield (s := s)
    have yields := sleepers_yield (s := s')
    exact ⟨yields.1.trans same.1,yields.2.1.trans same.2.1,yields.2.2.trans same.2.2⟩
  · exact same

theorem sleepers_setSema (x : Sema) (v : Semaphore) : SameSleepers s (s.setSema x v) := by
  cases x <;> exact ⟨rfl,rfl,rfl⟩

theorem unblock_eq (ran : thread_unblock s t = some s') : s.status t = .blocked ∧ s' = (s.push t).setStatus t .ready := by
  unfold thread_unblock at ran
  split at ran
  · next blocked => exact ⟨blocked.2,(Option.some.inj ran).symm⟩
  · cases ran

theorem exec_sleepers (ran : exec s stray i = some s') (awake : ∀ w, i ≠ .sleep_until w) : SameSleepers s s' := by
  have same : ∀ s1, some s1 = some s' → SameSleepers s s1 → SameSleepers s s' := fun s1 equal same => Option.some.inj equal ▸ same
  cases i with
  | acquire l | release l =>
    simp only [exec] at ran
    split at ran <;> cases ran
    exact ⟨rfl,rfl,rfl⟩
  | donate l =>
    simp only [exec] at ran
    split at ran
    · exact same _ ran ⟨rfl,rfl,rfl⟩
    · split at ran <;> exact same _ ran ⟨rfl,rfl,rfl⟩
  | follow lh =>
    simp only [exec] at ran
    split at ran <;> exact same _ ran ⟨rfl,rfl,rfl⟩
  | record l lh | init priority =>
    obtain ⟨k,-,rfl⟩ := Option.map_eq_some_iff.mp ran
    exact ⟨rfl,rfl,rfl⟩
  | raise lh | wait_for l | hold l | unhold l | put priority | set_priority new_priority | sleep n | exit | idle =>
    exact same _ ran ⟨rfl,rfl,rfl⟩
  | down x | down_again x =>
    refine same _ ran ?_
    unfold sema_down
    split <;> cases x <;> exact ⟨rfl,rfl,rfl⟩
  | up x =>
    simp only [exec,sema_up] at ran
    split at ran
    · exact same _ ran (sleepers_yieldIf (sleepers_setSema x _) _)
    · obtain ⟨woken,unblocked,yields⟩ := Option.bind_eq_some_iff.mp ran
      refine same _ yields (sleepers_yieldIf ?_ _)
      obtain ⟨-,rfl⟩ := unblock_eq unblocked
      cases x <;> exact ⟨rfl,rfl,rfl⟩
  | unblock t =>
    obtain ⟨-,rfl⟩ := unblock_eq ran
    exact ⟨rfl,rfl,rfl⟩
  | yield_below priority | yield_to_front priority => exact same _ ran (sleepers_yieldIf ⟨rfl,rfl,rfl⟩ _)
  | yield => exact same _ ran sleepers_yield
  | sleep_until w => exact absurd rfl (awake w)

/-! ### The interrupt -/

theorem current_awake (inv : Inv s) (runs : s.scheduling = false) : s.current ∉ s.waiting_list := by
  obtain ⟨-,place,placed⟩ := inv
  rw [placed.asleep,place_current placed runs]
  simp

theorem sleeper_blocked (inv : Inv s) (member : t ∈ s.waiting_list) : s.status t = .blocked := by
  obtain ⟨-,place,placed⟩ := inv
  simpa [(placed.asleep t).mp member,Fits] using placed.status t

theorem waiting_once (inv : Inv s) : s.waiting_list.Nodup := by
  obtain ⟨-,place,placed⟩ := inv
  exact placed.asleepOnce

theorem unblocks_spec (due : List Tid) (ran : due.foldlM thread_unblock s = some s') :
    s'.k = s.k ∧ s'.pc = s.pc ∧ s'.current = s.current ∧ s'.waiting_list = s.waiting_list ∧ s'.waiting_ticks = s.waiting_ticks ∧
      s'.ticks = s.ticks ∧ (∀ t, s'.status t = if t ∈ due then .ready else s.status t) ∧
      ∀ t, t ∈ s'.ready_list ↔ t ∈ s.ready_list ∨ t ∈ due := by
  induction due generalizing s with
  | nil =>
    cases ran
    simp
  | cons u due ih =>
    obtain ⟨woken,unblocked,later⟩ := Option.bind_eq_some_iff.mp ran
    obtain ⟨kernel,pc,current,list,ends,ticks,status,ready⟩ := ih later
    obtain ⟨-,rfl⟩ := unblock_eq unblocked
    refine ⟨kernel,pc,current,list,ends,ticks,fun t => ?_,fun t => ?_⟩
    · rw [status]
      show (if t ∈ due then Status.ready else if t = u then .ready else s.status t) = _
      by_cases later : t ∈ due
      · simp [later]
      · by_cases first : t = u <;> simp [first,later]
    · rw [ready]
      show t ∈ (s.push u).ready_list ∨ t ∈ due ↔ _
      rw [mem_push,List.mem_cons,or_assoc]

/-- The loop takes the sleepers whose sleep is over from the front, each once, and leaves
    those with longer to sleep. -/
theorem wake_splits (sleepers : List Tid) (sorted : sleepers.Pairwise fun t u => s.waiting_ticks t ≤ s.waiting_ticks u)
    (once : sleepers.Nodup) (asleep : ∀ t ∈ sleepers, s.status t ≠ .ready) (ran : wakeSleepers s false sleepers = some s') :
    ∃ due woken, sleepers = due ++ s'.waiting_list ∧ (∀ t ∈ due, s.waiting_ticks t ≤ s.ticks) ∧
      (∀ t ∈ s'.waiting_list, s.ticks < s.waiting_ticks t) ∧ due.foldlM thread_unblock s = some woken ∧
      s' = { woken with waiting_list := s'.waiting_list } := by
  induction sleepers generalizing s with
  | nil =>
    cases ran
    exact ⟨[],s,rfl,by simp,by simp,rfl,rfl⟩
  | cons t sleepers ih =>
    obtain ⟨first,sorted⟩ := List.pairwise_cons.mp sorted
    obtain ⟨out,once⟩ := List.nodup_cons.mp once
    simp only [wakeSleepers] at ran
    split at ran
    · next over_ =>
      obtain ⟨woken,unblocked,further⟩ := Option.bind_eq_some_iff.mp ran
      obtain ⟨-,same⟩ := unblock_eq unblocked
      have still : ∀ u ∈ sleepers, woken.status u ≠ .ready := by
        intro u member
        have other : u ≠ t := fun same => out (same ▸ member)
        rw [same]
        show (if u = t then Status.ready else s.status u) ≠ .ready
        rw [if_neg other]
        exact asleep u (List.mem_cons_of_mem _ member)
      have ends : woken.waiting_ticks = s.waiting_ticks := by rw [same]; rfl
      have ticks : woken.ticks = s.ticks := by rw [same]; rfl
      obtain ⟨due,last,split,soon,later,unblocks,rest⟩ := ih (by rw [ends]; exact sorted) once still further
      rw [ends,ticks] at soon later
      refine ⟨t :: due,last,by rw [split]; rfl,?_,later,?_,rest⟩
      · intro u member
        rcases List.mem_cons.mp member with rfl | member
        · exact over_.1
        · exact soon u member
      · rw [List.foldlM_cons,unblocked]
        exact unblocks
    · next early =>
      have longer : s.ticks < s.waiting_ticks t := by
        by_contra soon
        exact early ⟨Int.not_lt.mp soon,asleep t List.mem_cons_self⟩
      cases ran
      refine ⟨[],s,rfl,by simp,?_,rfl,rfl⟩
      intro u member
      rcases List.mem_cons.mp member with rfl | later
      · exact longer
      · exact Int.lt_of_lt_of_le longer (first u later)

theorem yield_ready (t : Tid) : (t ∈ s.ready_list → t ∈ (thread_yield s).ready_list) ∧
    (t ∈ (thread_yield s).ready_list → t ∈ s.ready_list ∨ t = s.current) ∧
    (s.status t = .ready → (thread_yield s).status t = .ready) := by
  have status : ∀ v : Sched, v.status = s.status → s.status t = .ready →
      (if t = s.current then Status.ready else v.status t) = .ready := by
    intro v same ready
    rw [same,ready,ite_self]
  unfold thread_yield
  split
  · exact ⟨id,.inl,status s rfl⟩
  · exact ⟨fun member => mem_push.mpr (.inl member),mem_push.mp,status _ rfl⟩

/-- What `timer_interrupt` makes of the sleepers. -/
theorem timer_spec (timed : Timed a) (ran : timer_interrupt a.sched false = some s') :
    s'.ticks = a.sched.ticks + 1 ∧ s'.waiting_ticks = a.sched.waiting_ticks ∧ s'.pc = a.sched.pc ∧ ∃ due woken,
      a.sched.waiting_list = due ++ s'.waiting_list ∧ (∀ t ∈ due, a.sched.waiting_ticks t ≤ s'.ticks) ∧
      (∀ t ∈ s'.waiting_list, s'.ticks < a.sched.waiting_ticks t) ∧
      due.foldlM thread_unblock { a.sched with ticks := s'.ticks } = some woken ∧
      (∀ t ∈ due, s'.status t = .ready ∧ t ∈ s'.ready_list) ∧
      ∀ t ∈ s'.ready_list, t ∈ a.sched.ready_list ∨ t ∈ due ∨ t = a.sched.current := by
  have asleep : ∀ t ∈ a.sched.waiting_list, a.sched.status t ≠ .ready := by
    intro t member
    rw [sleeper_blocked timed.inv member]
    decide
  obtain ⟨woken,wakes,yields⟩ := Option.bind_eq_some_iff.mp ran
  obtain ⟨due,last,split,soon,later,unblocks,rest⟩ := wake_splits (s := { a.sched with ticks := a.sched.ticks + 1 })
    a.sched.waiting_list (timed.order.imp And.left) (waiting_once timed.inv) asleep wakes
  obtain ⟨-,pc,current,-,ends,ticks,status,ready⟩ := unblocks_spec due unblocks
  have facts : woken.ticks = a.sched.ticks + 1 ∧ woken.waiting_ticks = a.sched.waiting_ticks ∧ woken.pc = a.sched.pc ∧
      woken.current = a.sched.current ∧ (∀ t ∈ due, woken.status t = .ready ∧ t ∈ woken.ready_list) ∧
      ∀ t ∈ woken.ready_list, t ∈ a.sched.ready_list ∨ t ∈ due := by
    rw [rest]
    refine ⟨ticks,ends,pc,current,fun t member => ⟨?_,(ready t).mpr (.inr member)⟩,fun t member => (ready t).mp member⟩
    show last.status t = .ready
    rw [status,if_pos member]
  obtain ⟨ticks,ends,pc,current,awake,listed⟩ := facts
  have after : ∃ counted : Sched, (s' = thread_yield counted ∨ s' = counted) ∧
      counted = { woken with thread_ticks := woken.thread_ticks + 1 } := by
    refine ⟨_,?_,rfl⟩
    rw [← Option.some.inj yields]
    split
    · exact .inl rfl
    · exact .inr rfl
  obtain ⟨counted,yielded,counts⟩ := after
  have same : SameSleepers counted s' ∧ s'.pc = counted.pc ∧ ∀ t, (t ∈ counted.ready_list → t ∈ s'.ready_list) ∧
      (t ∈ s'.ready_list → t ∈ counted.ready_list ∨ t = counted.current) ∧
          (counted.status t = .ready → s'.status t = .ready) := by
    rcases yielded with rfl | rfl
    · exact ⟨sleepers_yield,yield_pc,yield_ready⟩
    · exact ⟨⟨rfl,rfl,rfl⟩,rfl,fun t => ⟨id,.inl,id⟩⟩
  obtain ⟨⟨list',ends',ticks'⟩,pc',each⟩ := same
  rw [counts] at list' ends' ticks' pc' each
  have now : s'.ticks = a.sched.ticks + 1 := ticks'.trans ticks
  refine ⟨now,ends'.trans ends,pc'.trans pc,due,last,?_,?_,?_,?_,fun t member => ?_,fun t member => ?_⟩
  · rw [list']
    exact split
  · rw [now]
    exact soon
  · rw [list',now]
    exact later
  · rw [now]
    exact unblocks
  · exact ⟨(each t).2.2 (awake t member).1,(each t).1 (awake t member).2⟩
  · rcases (each t).2.1 member with before | rfl
    · exact (listed t before).imp_right .inl
    · exact .inr (.inr current)

/-! ### Runs -/

theorem note_sched (j : Option Instr) : (a.note s j).sched = s := by
  unfold Clocked.note
  split <;> rfl

theorem note_asked {j : Option Instr} (other : ∀ n, j ≠ some (.sleep n)) :
    (a.note s j).start = a.start ∧ (a.note s j).asked = a.asked := by
  unfold Clocked.note
  split
  · exact absurd rfl (other _)
  · exact ⟨rfl,rfl⟩
  · exact ⟨rfl,rfl⟩

theorem note_slept {j : Option Instr} (other : ∀ w, j ≠ some (.sleep_until w)) :
    (a.note s j).slept = a.slept ∧ (a.note s j).clock = a.clock := by
  unfold Clocked.note
  split
  · exact ⟨rfl,rfl⟩
  · exact absurd rfl (other _)
  · exact ⟨rfl,rfl⟩

/-- Nothing about a thread's nap changes. -/
theorem naps_same {j : Option Instr} (naps : Naps a t) (pc : s.pc t = a.sched.pc t)
    (same : (a.note s j).start t = a.start t ∧ (a.note s j).asked t = a.asked t) : Naps (a.note s j) t where
  asks n member := by
    rw [note_sched,pc] at member ⊢
    exact naps.asks n member
  ends w member := by
    rw [note_sched,pc] at member ⊢
    rw [same.1,same.2]
    exact naps.ends w member

/-- A thread with neither instruction. -/
theorem naps_none {j : Option Instr} (none : ∀ n, .sleep n ∉ s.pc t ∧ .sleep_until n ∉ s.pc t) : Naps (a.note s j) t where
  asks n member := by
    rw [note_sched] at member
    exact absurd member (none n).1
  ends w member := by
    rw [note_sched] at member
    exact absurd member (none w).2

theorem exec_naps (naps : ∀ t, Naps a t) (idles : IdleCode a.sched) (code : a.sched.pc a.sched.current = i :: rest)
    (ran : exec (a.sched.setPc a.sched.current rest) stray i = some s') (t : Tid) : Naps (a.note s' (some i)) t := by
  -- What is left of the code of a thread in `timer_sleep` is nothing.
  have awake : ∀ n, .sleep n ∉ rest ∧ .sleep_until n ∉ rest := by
    intro n
    constructor
    · intro member
      have whole := (naps a.sched.current).asks n (code ▸ List.mem_cons_of_mem _ member)
      rw [code] at whole
      rw [(List.cons.inj whole).2] at member
      exact absurd member List.not_mem_nil
    · intro member
      have whole := ((naps a.sched.current).ends n (code ▸ List.mem_cons_of_mem _ member)).1
      rw [code] at whole
      rw [(List.cons.inj whole).2] at member
      exact absurd member List.not_mem_nil
  by_cases asks : ∃ n, i = .sleep n
  · obtain ⟨n,rfl⟩ := asks
    have whole := (naps a.sched.current).asks n (code ▸ List.mem_cons_self)
    rw [code] at whole
    obtain rfl : rest = [] := (List.cons.inj whole).2
    have entered : s' = (a.sched.setPc a.sched.current []).enter [.sleep_until (a.sched.ticks + n)] := (Option.some.inj ran).symm
    by_cases self : t = a.sched.current
    · subst self
      have own : s'.pc a.sched.current = [.sleep_until (a.sched.ticks + n)] := by
        simp [entered,Sched.enter,Sched.setPc]
      refine ⟨fun m member => ?_,fun w member => ?_⟩
      · rw [note_sched,own] at member
        simp at member
      · rw [note_sched,own] at member ⊢
        simp only [List.mem_singleton,Instr.sleep_until.injEq] at member
        subst member
        simp [Clocked.note]
    · refine naps_same (naps t) ?_ ⟨Function.update_of_ne self _ _,Function.update_of_ne self _ _⟩
      simp [entered,Sched.enter,Sched.setPc,self]
  · have quiet := note_asked (a := a) (s := s') (j := some i) fun n same => asks ⟨n,Option.some.inj same⟩
    by_cases idler : i = .idle
    · subst idler
      have isIdle := idles.only a.sched.current (code ▸ List.mem_cons_self)
      have whole := idles.own _ isIdle
      rw [code] at whole
      obtain rfl : rest = [] := (List.cons.inj whole).2
      have entered : s' = thread_block ((a.sched.setPc a.sched.current []).enter [.idle]) := (Option.some.inj ran).symm
      by_cases self : t = a.sched.current
      · refine naps_none fun n => ?_
        have own : s'.pc t = [.idle] := by simp [entered,thread_block,Sched.setStatus,Sched.enter,Sched.setPc,self]
        simp [own]
      · refine naps_same (naps t) ?_ ⟨by rw [quiet.1],by rw [quiet.2]⟩
        simp [entered,thread_block,Sched.setStatus,Sched.enter,Sched.setPc,self]
    · obtain ⟨more,tame,pc,-⟩ := exec_code ran idler
      by_cases self : t = a.sched.current
      · refine naps_none fun n => ?_
        have own : s'.pc t = more ++ rest := by
          rw [pc]
          simp [Sched.enter,Sched.setPc,self]
        rw [own,List.mem_append,List.mem_append]
        refine ⟨fun member => member.elim (tame.2.1 n) (awake n).1,fun member => member.elim (fun early => ?_) (awake n).2⟩
        obtain ⟨m,same,-⟩ := tame.2.2.1 n early
        exact asks ⟨m,same⟩
      · refine naps_same (naps t) ?_ ⟨by rw [quiet.1],by rw [quiet.2]⟩
        rw [pc]
        simp [Sched.enter,Sched.setPc,self]

/-- The ticks that a sleeper read and the number it was called with stay as they are. -/
theorem asked_kept {j : Option Instr} (other : t ≠ a.sched.current) :
    (a.note s j).start t = a.start t ∧ (a.note s j).asked t = a.asked t := by
  unfold Clocked.note
  split
  · exact ⟨Function.update_of_ne other _ _,Function.update_of_ne other _ _⟩
  · exact ⟨rfl,rfl⟩
  · exact ⟨rfl,rfl⟩

/-- Some of the sleepers are left, in their order, and no other is new. -/
theorem timed_same {j : Option Instr} (timed : Timed a) (inv : Inv s) (naps : ∀ t, Naps (a.note s j) t)
    (left : s.waiting_list.Sublist a.sched.waiting_list) (ends : s.waiting_ticks = a.sched.waiting_ticks)
    (other : ∀ w, j ≠ some (.sleep_until w))
    (asked : ∀ t ∈ a.sched.waiting_list, (a.note s j).start t = a.start t ∧ (a.note s j).asked t = a.asked t) :
    Timed (a.note s j) := by
  obtain ⟨slept,clock⟩ := note_slept (a := a) (s := s) other
  refine ⟨by rw [note_sched]; exact inv,?_,?_,?_,naps⟩
  · rw [note_sched,ByAlarm,slept,ends]
    exact timed.order.sublist left
  · rw [note_sched,slept,clock]
    exact fun t member => timed.stamped t (left.subset member)
  · rw [note_sched,ends]
    intro t member
    have before := left.subset member
    rw [(asked t before).1,(asked t before).2]
    exact timed.ends t before

theorem later_transitive (ends : Tid → Int) (t u v : Tid) (first : decide (ends u < ends t) = false)
    (second : decide (ends v < ends u) = false) : decide (ends v < ends t) = false := by
  simp only [decide_eq_false_iff_not] at first second ⊢
  omega

theorem later_asymmetric (ends : Tid → Int) (t u : Tid) (first : decide (ends t < ends u) = true) :
    decide (ends u < ends t) = false := by
  simp only [decide_eq_true_eq,decide_eq_false_iff_not] at first ⊢
  omega

/-- A thread goes to sleep, behind those whose sleep is over at the same time. -/
theorem timed_sleep {w : Int} (timed : Timed a) (inv : Inv s) (naps : ∀ t, Naps (a.note s (some (.sleep_until w))) t)
    (own : w = a.start a.sched.current + a.asked a.sched.current) (out : a.sched.current ∉ a.sched.waiting_list)
    (ends : s.waiting_ticks = Function.update a.sched.waiting_ticks a.sched.current w)
    (list : s.waiting_list = list_sort (fun t u => s.waiting_ticks t < s.waiting_ticks u) (a.sched.waiting_list ++ [a.sched.current])) :
    Timed (a.note s (some (.sleep_until w))) := by
  have others {t : Tid} (member : t ∈ a.sched.waiting_list) : t ≠ a.sched.current := fun same => out (same ▸ member)
  have endsOf {t : Tid} (member : t ∈ a.sched.waiting_list) : s.waiting_ticks t = a.sched.waiting_ticks t := by
    rw [ends,Function.update_of_ne (others member)]
  have members {t : Tid} : t ∈ s.waiting_list ↔ t ∈ a.sched.waiting_list ∨ t = a.sched.current := by
    rw [list,mem_list_sort,List.mem_append,List.mem_singleton]
  let slept := Function.update a.slept a.sched.current a.clock
  have sleptOf {t : Tid} (member : t ∈ a.sched.waiting_list) : slept t = a.slept t := Function.update_of_ne (others member) _ _
  have sleptOwn : slept a.sched.current = a.clock := Function.update_self _ _ _
  have arrived : (a.sched.waiting_list ++ [a.sched.current]).Pairwise fun t u => s.waiting_ticks t = s.waiting_ticks u →
      slept t < slept u := by
    refine List.pairwise_append.mpr ⟨?_,List.pairwise_singleton _ _,?_⟩
    · refine timed.order.imp_of_mem ?_
      intro t u first second ordered
      rw [endsOf first,endsOf second,sleptOf first,sleptOf second]
      exact ordered.2
    · intro t first u second _
      rw [List.mem_singleton.mp second,sleptOf first]
      exact Nat.lt_of_lt_of_eq (timed.stamped t first) sleptOwn.symm
  have sorted := list_sort_stable (later_transitive s.waiting_ticks) (later_asymmetric s.waiting_ticks) arrived
  refine ⟨by rw [note_sched]; exact inv,?_,?_,?_,naps⟩
  · rw [note_sched]
    unfold ByAlarm
    rw [list]
    refine sorted.imp ?_
    intro t u ordered
    simp only [decide_eq_false_iff_not,Int.not_lt] at ordered
    exact ⟨ordered.1,fun same => ordered.2 (Int.le_of_eq same.symm) same⟩
  · rw [note_sched]
    intro t member
    show slept t < a.clock + 1
    rcases members.mp member with before | rfl
    · rw [sleptOf before]
      exact Nat.lt_succ_of_lt (timed.stamped t before)
    · rw [sleptOwn]
      exact Nat.lt_succ_self _
  · rw [note_sched]
    intro t member
    show s.waiting_ticks t = a.start t + a.asked t
    rcases members.mp member with before | rfl
    · rw [endsOf before]
      exact timed.ends t before
    · rw [ends,Function.update_self,own]

theorem interrupts_running (enabled : interruptible s = true) : s.scheduling = false := by
  simp only [interruptible,Bool.and_eq_true,Bool.not_eq_true'] at enabled
  exact enabled.1

theorem schedule_same (ran : schedule s = some s') : SameSleepers s s' ∧ s'.pc = s.pc := by
  obtain ⟨⟨next,rest⟩,-,switched⟩ := Option.bind_eq_some_iff.mp ran
  dsimp only at switched
  split at switched
  · cases switched
    exact ⟨⟨rfl,rfl,rfl⟩,rfl⟩
  · cases switched

theorem timed_step {e : Event} (timed : Timed a) (ends : EmptyEnds a e) (ran : step a.sched e = some s') :
    Timed (a.note s' (running_instr a.sched e)) := by
  have inv := inv_step timed.inv ends ran
  have plain (pc : s'.pc = a.sched.pc) (t : Tid) : Naps (a.note s' none) t := naps_same (timed.naps t) (by rw [pc]) ⟨rfl,rfl⟩
  cases e with
  | call c =>
    simp only [step] at ran
    split at ran
    · next free =>
      cases ran
      refine timed_same timed inv (fun t => ?_) (List.Sublist.refl _) rfl (by simp [running_instr]) (fun _ _ => ⟨rfl,rfl⟩)
      by_cases self : t = a.sched.current
      · subst self
        have own : (a.sched.setPc a.sched.current [code c]).pc a.sched.current = [code c] := by simp [Sched.setPc]
        refine ⟨fun n member => ?_,fun w member => ?_⟩
        · rw [note_sched,own,List.mem_singleton] at member
          rw [note_sched,own,member]
        · rw [note_sched,own,List.mem_singleton] at member
          cases c <;> cases member
      · exact naps_same (timed.naps t) (by simp [Sched.setPc,self]) ⟨rfl,rfl⟩
    · cases ran
  | exec stray =>
    simp only [step] at ran
    split at ran
    · cases ran
    · next runs =>
      have runs : a.sched.scheduling = false := by simpa using runs
      split at ran
      · cases ran
      · next i rest code =>
        have naps := exec_naps timed.naps timed.inv.1 code ran
        have instr : running_instr a.sched (.exec stray) = some i := by rw [running_instr,code]; rfl
        have out := current_awake timed.inv runs
        rw [instr]
        by_cases sleeps : ∃ w, i = .sleep_until w
        · obtain ⟨w,rfl⟩ := sleeps
          have own := ((timed.naps a.sched.current).ends w (code ▸ List.mem_cons_self)).2
          cases ran
          refine timed_sleep timed inv naps own out ?_ rfl
          funext t
          by_cases self : t = a.sched.current <;> simp [thread_block,Sched.setStatus,Sched.setPc,self]
        · obtain ⟨list,ticks,-⟩ := exec_sleepers ran fun w same => sleeps ⟨w,same⟩
          refine timed_same timed inv naps (list ▸ List.Sublist.refl _) ticks (fun w same => sleeps ⟨w,Option.some.inj same⟩) ?_
          exact fun t member => asked_kept fun same => out (same ▸ member)
  | timer stray =>
    simp only [step] at ran
    split at ran
    · next enabled =>
      obtain rfl : stray = false := ends
      obtain ⟨-,ticks,pc,due,-,split,-⟩ := timer_spec timed ran
      exact timed_same timed inv (plain pc) (split ▸ List.sublist_append_right _ _) ticks (by simp [running_instr])
        (fun _ _ => ⟨rfl,rfl⟩)
    · cases ran
  | schedule =>
    simp only [step] at ran
    split at ran
    · obtain ⟨⟨list,ticks,-⟩,pc⟩ := schedule_same ran
      exact timed_same timed inv (plain pc) (list ▸ List.Sublist.refl _) ticks (by simp [running_instr]) (fun _ _ => ⟨rfl,rfl⟩)
    · cases ran

theorem reaches_timed (reached : Reaches machine EmptyEnds a) : Timed a := by
  refine reaches_invariant Timed ?_ ?_ reached
  · rintro ⟨s,start,asked,clock,slept⟩ rfl
    have none : boot.waiting_list = [] := rfl
    refine ⟨inv_boot,?_,?_,?_,fun t => ⟨fun n member => ?_,fun w member => ?_⟩⟩
    · exact List.Pairwise.nil
    · exact fun t member => absurd member List.not_mem_nil
    · exact fun t member => absurd member List.not_mem_nil
    · by_cases idle : t = 1 <;> simp [boot,idle] at member
    · by_cases idle : t = 1 <;> simp [boot,idle] at member
  · rintro a e - timed ends ⟨s',ran,rfl⟩
    exact timed_step timed ends ran

/-- The interrupt makes exactly the sleepers ready whose sleep is over, from the front. -/
def Wakes (a a' : Clocked) : Prop :=
  a'.sched.ticks = a.sched.ticks + 1 ∧ ∃ due woken, a.sched.waiting_list = due ++ a'.sched.waiting_list ∧
    (∀ t ∈ due, a.sched.waiting_ticks t ≤ a'.sched.ticks ∧ a'.sched.status t = .ready ∧ t ∈ a'.sched.ready_list) ∧
    (∀ t ∈ a'.sched.waiting_list, a'.sched.ticks < a.sched.waiting_ticks t) ∧
    due.foldlM thread_unblock { a.sched with ticks := a'.sched.ticks } = some woken ∧
    ∀ t ∈ a'.sched.ready_list, t ∈ a.sched.ready_list ∨ t ∈ due ∨ t = a.sched.current

theorem timer_wakes (timed : Timed a) (ran : machine.Step a (.timer false) a') : Wakes a a' := by
  obtain ⟨s',ran,rfl⟩ := ran
  simp only [step] at ran
  split at ran
  · obtain ⟨ticks,-,-,due,woken,split,soon,later,unblocks,awake,listed⟩ := timer_spec timed ran
    unfold Wakes
    rw [note_sched]
    exact ⟨ticks,due,woken,split,fun t member => ⟨soon t member,awake t member⟩,later,unblocks,listed⟩
  · cases ran

/-- A thread leaves `waiting_list` only when an interrupt finds its sleep over. -/
theorem sleeper_kept {e : Event} (timed : Timed a) (ends : EmptyEnds a e) (ran : machine.Step a e a')
    (member : t ∈ a.sched.waiting_list) :
    (a'.start t = a.start t ∧ a'.asked t = a.asked t) ∧ (t ∈ a'.sched.waiting_list ∨
      e = .timer false ∧ a.start t + a.asked t ≤ a'.sched.ticks ∧ a'.sched.status t = .ready) := by
  cases e with
  | call c =>
    obtain ⟨s',ran,rfl⟩ := ran
    simp only [step] at ran
    split at ran
    · cases ran
      exact ⟨⟨rfl,rfl⟩,.inl member⟩
    · cases ran
  | exec stray =>
    obtain ⟨s',ran,rfl⟩ := ran
    simp only [step] at ran
    split at ran
    · cases ran
    · next runs =>
      have out := current_awake timed.inv (by simpa using runs)
      refine ⟨asked_kept fun same => out (same ▸ member),.inl ?_⟩
      rw [note_sched]
      split at ran
      · cases ran
      · next i rest code =>
        by_cases sleeps : ∃ w, i = .sleep_until w
        · obtain ⟨w,rfl⟩ := sleeps
          cases ran
          show t ∈ list_sort _ (a.sched.waiting_list ++ [a.sched.current])
          rw [mem_list_sort]
          exact List.mem_append_left _ member
        · rw [(exec_sleepers ran fun w same => sleeps ⟨w,same⟩).1]
          exact member
  | timer stray =>
    obtain rfl : stray = false := ends
    obtain ⟨-,due,-,split,awake,-⟩ := timer_wakes timed ran
    obtain ⟨s',ran,rfl⟩ := ran
    refine ⟨⟨rfl,rfl⟩,?_⟩
    rw [split] at member
    rcases List.mem_append.mp member with first | later
    · obtain ⟨soon,ready,-⟩ := awake t first
      rw [timed.ends t (split ▸ List.mem_append_left _ first)] at soon
      exact .inr ⟨rfl,soon,ready⟩
    · exact .inl later
  | schedule =>
    obtain ⟨s',ran,rfl⟩ := ran
    simp only [step] at ran
    split at ran
    · refine ⟨⟨rfl,rfl⟩,.inl ?_⟩
      rw [note_sched,(schedule_same ran).1.1]
      exact member
    · cases ran

theorem reaches_step (reached : Reaches machine EmptyEnds a) (e : Event) (ends : EmptyEnds a e) (ran : step a.sched e = some s') :
    Reaches machine EmptyEnds (a.note s' (running_instr a.sched e)) := .next reached ends ⟨s',ran,rfl⟩

end Pintos.Alarm
