import Pintos.Conditions
import Mathlib.Data.List.Nodup

/-!
What signals do. The log of a run is ordered: a waiter is removed from the list of
its condition once and by a `cond_signal` that removes no other, its semaphore is
raised after that, and `cond_wait` returns after that. While a thread is in
`cond_signal` or `cond_broadcast` it holds the lock, so that the list and the
threads that are eligible to return change through its own steps alone.
-/
namespace Pintos.Signals
open Pintos.Machines Pintos.Conditions
open Pintos.Locks (Tid CondId LockId lock_held_by_current_thread signal)
set_option linter.unusedSimpArgs false

/-! ### The history -/

/-- The `cond_wait` of an entry. -/
def wait_of : Entry → Call
  | .enqueued w _ | .removed _ w _ | .raised _ w | .returned w => w

/-- What may be entered after `log`. -/
def Allowed (log : List Entry) : Entry → Prop
  | .enqueued w _ => ∀ e ∈ log, wait_of e ≠ w
  | .removed i w c => .enqueued w c ∈ log ∧ (∀ j d, .removed j w d ∉ log) ∧ ∀ v d, .removed i v d ∉ log
  | .raised i w => ∃ c, .removed i w c ∈ log
  | .returned w => (∃ i, .raised i w ∈ log) ∧ .returned w ∉ log

def Ordered : List Entry → Prop
  | [] => True
  | e :: log => Allowed log e ∧ Ordered log

/-- What a stage says of the log. -/
def Recorded (log : List Entry) (w : Call) : Stage → Prop
  | .out => True
  | .queued c => .enqueued w c ∈ log ∧ ∀ i d, .removed i w d ∉ log
  | .removed c i => .removed i w c ∈ log ∧ ∀ j, .raised j w ∉ log
  | .raised _ i => .raised i w ∈ log ∧ .returned w ∉ log

structure History (s : Monitors) : Prop where
  ordered : Ordered s.log
  waits : ∀ e ∈ s.log, (wait_of e).2 ≤ s.waits (wait_of e).1
  signals : ∀ i w c, Entry.removed i w c ∈ s.log → i.2 ≤ s.signals i.1
  fresh : ∀ t c broadcast, s.doing t = .signal c broadcast → ∀ w d, Entry.removed (t,s.signals t) w d ∉ s.log
  stages : ∀ u, Recorded s.log (u,s.waits u) (s.stage u)

section
variable {lock_of : CondId → LockId} {s s' : Monitors} {t u wt : Tid} {c d : CondId} {event : Event} {stage : Stage}
  {log later earlier : List Entry} {e : Entry} {i j w v : Call}

theorem ordered_split (ordered : Ordered (later ++ e :: earlier)) : Allowed earlier e ∧ Ordered earlier := by
  induction later with
  | nil => exact ordered
  | cons f rest ih => exact ih ordered.2

theorem raised_removed (ordered : Ordered log) (member : .raised j w ∈ log) : ∃ c, .removed j w c ∈ log := by
  obtain ⟨later,earlier,rfl⟩ := List.append_of_mem member
  obtain ⟨c,before⟩ := (ordered_split ordered).1
  exact ⟨c,by simp [before]⟩

theorem returned_raised (ordered : Ordered log) (member : .returned w ∈ log) : ∃ i, .raised i w ∈ log := by
  obtain ⟨later,earlier,rfl⟩ := List.append_of_mem member
  obtain ⟨⟨i,before⟩,-⟩ := (ordered_split ordered).1
  exact ⟨i,by simp [before]⟩

theorem recorded_cons (other : wait_of e ≠ w) (recorded : Recorded log w stage) : Recorded (e :: log) w stage := by
  cases stage with
  | out => trivial
  | queued c =>
    refine ⟨List.mem_cons_of_mem _ recorded.1,fun i d member => ?_⟩
    rcases List.mem_cons.mp member with rfl | before
    · exact other rfl
    · exact recorded.2 i d before
  | removed c i =>
    refine ⟨List.mem_cons_of_mem _ recorded.1,fun j member => ?_⟩
    rcases List.mem_cons.mp member with rfl | before
    · exact other rfl
    · exact recorded.2 j before
  | raised c i =>
    refine ⟨List.mem_cons_of_mem _ recorded.1,fun member => ?_⟩
    rcases List.mem_cons.mp member with rfl | before
    · exact other rfl
    · exact recorded.2 before

/-- What the log says stays true of a thread that nothing is entered about. -/
theorem history_same (history : History s) (log : s'.log = s.log) (waits : s'.waits = s.waits)
    (signals : ∀ u, s.signals u ≤ s'.signals u) (stage : ∀ u, s'.stage u = s.stage u)
    (fresh : ∀ t c broadcast, s'.doing t = .signal c broadcast → ∀ w d, Entry.removed (t,s'.signals t) w d ∉ s.log) :
    History s' := by
  refine ⟨by rw [log]; exact history.ordered,?_,?_,?_,?_⟩
  · rw [log,waits]
    exact history.waits
  · rw [log]
    exact fun i w c member => Nat.le_trans (history.signals i w c member) (signals i.1)
  · rw [log]
    exact fresh
  · intro u
    rw [log,waits,stage]
    exact history.stages u

/-- A thread that is not about to take a waiter has no entry to be first. -/
theorem history_past (history : History s) {doing : Doing} (past : ∀ c broadcast, doing ≠ .signal c broadcast) (t : Tid) :
    History (s.setDoing t doing) := by
  refine history_same history rfl rfl (fun _ => Nat.le_refl _) (fun _ => rfl) ?_
  intro u d b at_
  by_cases self : u = t
  · rw [self,Monitors.setDoing] at at_
    exact absurd ((Function.update_self ..).symm.trans at_) (past d b)
  · exact history.fresh u d b (by simpa [Monitors.setDoing,self] using at_)

/-- An entry about the `cond_wait` of `u`. -/
theorem history_entered (history : History s) (log : s'.log = e :: s.log) (allowed : Allowed s.log e)
    (waits : ∀ v, s.waits v ≤ s'.waits v) (others : ∀ v, v ≠ u → s'.waits v = s.waits v ∧ s'.stage v = s.stage v)
    (about : wait_of e = (u,s'.waits u)) (signals : s'.signals = s.signals)
    (bound : ∀ i w c, e = .removed i w c → i.2 ≤ s.signals i.1)
    (fresh : ∀ t c broadcast, s'.doing t = .signal c broadcast →
      s.doing t = .signal c broadcast ∧ ∀ w d, e ≠ .removed (t,s.signals t) w d)
    (stage : Recorded (e :: s.log) (u,s'.waits u) (s'.stage u)) : History s' := by
  refine ⟨by rw [log]; exact ⟨allowed,history.ordered⟩,?_,?_,?_,?_⟩
  · intro f member
    rw [log] at member
    rcases List.mem_cons.mp member with rfl | before
    · exact Nat.le_of_eq (by rw [about])
    · exact Nat.le_trans (history.waits f before) (waits _)
  · intro i w c member
    rw [log] at member
    rw [signals]
    rcases List.mem_cons.mp member with same | before
    · exact bound i w c same.symm
    · exact history.signals i w c before
  · intro t c broadcast here w d member
    obtain ⟨before,other⟩ := fresh t c broadcast here
    rw [log,signals] at member
    rcases List.mem_cons.mp member with same | old
    · exact other w d same.symm
    · exact history.fresh t c broadcast before w d old
  · intro v
    rw [log]
    by_cases self : v = u
    · exact self ▸ stage
    · obtain ⟨same,still⟩ := others v self
      rw [same,still]
      refine recorded_cons ?_ (history.stages v)
      rw [about]
      exact fun equal => self (congrArg Prod.fst equal).symm

theorem history_step (inv : Inv lock_of s) (history : History s) (ran : step lock_of s event = some s') : History s' := by
  have busy := inv.busy event.tid
  rcases step_cases inv ran with ⟨idle,-,-,-,result⟩ | ⟨c,i,idle,-,-,raised,-,-,result⟩ | ⟨c,priority,idle,out,holds,result⟩ |
    ⟨c,broadcast,out,holds,called,result⟩ | ⟨c,idle,-,-,result⟩ | ⟨c,here,empty,result⟩ | ⟨c,broadcast,here,empty,result⟩ |
    ⟨c,broadcast,wt,rest,here,queue,result⟩ | ⟨c,broadcast,wt,here,result⟩
  · rw [result]
    exact history_same history rfl rfl (fun _ => Nat.le_refl _) (fun _ => rfl) history.fresh
  · have recorded := history.stages event.tid
    rw [raised] at recorded
    rw [result]
    refine history_entered (e := .returned (event.tid,s.waits event.tid)) (u := event.tid) history rfl ⟨⟨i,recorded.1⟩,recorded.2⟩
      (fun _ => Nat.le_refl _) ?_ rfl rfl ?_ ?_ ?_
    · exact fun v other => ⟨rfl,by simp [other]⟩
    · exact fun _ _ _ same => by cases same
    · exact fun _ _ _ here => ⟨here,fun _ _ same => by cases same⟩
    · simp [Recorded]
  · simp only [cond_wait,idle,out,holds,and_self,if_true,Option.some.injEq] at result
    rw [← result]
    refine history_entered (e := .enqueued (event.tid,s.waits event.tid + 1) c) (u := event.tid) history rfl ?_ ?_ ?_ ?_ rfl ?_ ?_ ?_
    · intro e member same
      have bound := history.waits e member
      rw [same] at bound
      exact absurd bound (Nat.not_succ_le_self _)
    · intro v
      by_cases self : v = event.tid
      · rw [self]
        simp
      · simp [self]
    · exact fun v other => ⟨by simp [other],by simp [other]⟩
    · simp [wait_of]
    · exact fun _ _ _ same => by cases same
    · exact fun _ _ _ here => ⟨here,fun _ _ same => by cases same⟩
    · simp only [Function.update_self]
      refine ⟨List.mem_cons_self ..,fun i d member => ?_⟩
      rcases List.mem_cons.mp member with same | before
      · cases same
      · exact absurd (history.waits _ before) (Nat.not_succ_le_self _)
  · rw [result]
    refine history_same history rfl rfl ?_ (fun _ => rfl) ?_
    · intro u
      by_cases self : u = event.tid
      · rw [self]
        simp [Monitors.startSignal]
      · simp [Monitors.startSignal,self]
    · intro u d b here w f member
      by_cases self : u = event.tid
      · have bound := history.signals _ w f member
        rw [self] at bound
        simp only [Monitors.startSignal,Function.update_self] at bound
        exact absurd bound (Nat.not_succ_le_self _)
      · simp only [Monitors.startSignal,Monitors.setDoing,Function.update_of_ne self] at here member
        exact history.fresh u d b here w f member
  · rw [result]
    exact history_past history (fun _ _ same => by cases same) event.tid
  · rw [result]
    exact history_past history (fun _ _ same => by cases same) event.tid
  · rw [result]
    exact history_past history (fun _ _ same => by cases broadcast <;> cases same) event.tid
  · have recorded := history.stages wt
    rw [inv.queued c wt (by rw [queue]; exact List.mem_cons_self ..)] at recorded
    rw [result]
    refine history_entered (e := .removed (event.tid,s.signals event.tid) (wt,s.waits wt) c) (u := wt) history rfl
      ⟨recorded.1,recorded.2,history.fresh _ c broadcast here⟩ (fun _ => Nat.le_refl _) ?_ rfl rfl ?_ ?_ ?_
    · exact fun v other => ⟨rfl,by simp [other]⟩
    · intro i w d same
      cases same
      exact Nat.le_refl _
    · intro u d b at_
      have other : u ≠ event.tid := by
        rintro rfl
        simp [Monitors.setDoing] at at_
      refine ⟨by simpa [Monitors.setDoing,other] using at_,fun w f same => ?_⟩
      exact other (congrArg Prod.fst (Entry.removed.inj same).1).symm
    · simp only [Function.update_self]
      refine ⟨List.mem_cons_self ..,fun j member => ?_⟩
      rcases List.mem_cons.mp member with same | before
      · cases same
      · obtain ⟨d,removed⟩ := raised_removed history.ordered before
        exact recorded.2 j d removed
  · rw [here] at busy
    have recorded := history.stages wt
    rw [busy.2] at recorded
    rw [result]
    refine history_entered (e := .raised (event.tid,s.signals event.tid) (wt,s.waits wt)) (u := wt) history rfl
      ⟨c,recorded.1⟩ (fun _ => Nat.le_refl _) ?_ rfl rfl ?_ ?_ ?_
    · exact fun v other => ⟨rfl,by simp [raise,other]⟩
    · exact fun _ _ _ same => by cases same
    · intro u d b at_
      have other : u ≠ event.tid := by
        rintro rfl
        cases broadcast <;> simp [raise,Monitors.setDoing,caller] at at_
      exact ⟨by simpa [raise,Monitors.setDoing,other] using at_,fun _ _ same => by cases same⟩
    · simp only [raise,Function.update_self]
      refine ⟨List.mem_cons_self ..,fun member => ?_⟩
      rcases List.mem_cons.mp member with same | before
      · cases same
      · obtain ⟨j,already⟩ := returned_raised history.ordered before
        exact recorded.2 j already

theorem history_init : History cond_init where
  ordered := trivial
  waits _ member := by cases member
  signals _ _ _ member := by cases member
  fresh _ _ _ here := by cases here
  stages _ := trivial

theorem reaches_history (reach : Reaches (machine lock_of) Anything s) : History s := by
  have both : Inv lock_of s ∧ History s := by
    refine reaches_invariant (fun s => Inv lock_of s ∧ History s) ?_ ?_ reach
    · rintro s rfl
      exact ⟨inv_init,history_init⟩
    · exact fun s event s' before _ ran => ⟨inv_step before.1 ran,history_step before.1 before.2 ran⟩
  exact both.2

/-! ### Returns and signals -/

/-- No `cond_wait` is removed twice, and no `cond_signal` removes two. -/
theorem removed_once (ordered : Ordered log) :
    (∀ i j w c d, .removed i w c ∈ log → .removed j w d ∈ log → j = i) ∧
      ∀ i v w c d, .removed i v c ∈ log → .removed i w d ∈ log → w = v := by
  induction log with
  | nil =>
    constructor
    · intro i j w c d member
      cases member
    · intro i v w c d member
      cases member
  | cons e rest ih =>
    obtain ⟨allowed,ordered⟩ := ordered
    obtain ⟨waits,signals⟩ := ih ordered
    constructor
    · intro i j w c d one two
      rcases List.mem_cons.mp one with rfl | older
      · rcases List.mem_cons.mp two with same | later
        · cases same
          rfl
        · exact absurd later (allowed.2.1 j d)
      · rcases List.mem_cons.mp two with rfl | later
        · exact absurd older (allowed.2.1 i c)
        · exact waits i j w c d older later
    · intro i v w c d one two
      rcases List.mem_cons.mp one with rfl | older
      · rcases List.mem_cons.mp two with same | later
        · cases same
          rfl
        · exact absurd later (allowed.2.2 w d)
      · rcases List.mem_cons.mp two with rfl | later
        · exact absurd older (allowed.2.2 v c)
        · exact signals i v w c d older later

/-- The entry `returned w` has one `cond_signal` to itself, which took the waiter of `w`
    out of the list after `w` had put it in, and raised its semaphore before `w` returned. -/
structure Matched (log later earlier : List Entry) (w : Call) : Prop where
  once : .returned w ∉ later ∧ .returned w ∉ earlier
  signal : ∃ i c between first, earlier = between ++ .removed i w c :: first ∧ .raised i w ∈ between ∧ .enqueued w c ∈ first ∧
    (∀ j d, .removed j w d ∈ log → j = i) ∧ ∀ v d, .removed i v d ∈ log → v = w

theorem returned_once (ordered : Ordered (later ++ .returned w :: earlier)) : .returned w ∉ later ∧ .returned w ∉ earlier := by
  refine ⟨fun member => ?_,(ordered_split ordered).1.2⟩
  obtain ⟨latest,between,rfl⟩ := List.append_of_mem member
  rw [List.append_assoc,List.cons_append] at ordered
  exact (ordered_split ordered).1.2 (by simp)

theorem matched (ordered : Ordered log) (entered : log = later ++ .returned w :: earlier) : Matched log later earlier w := by
  subst entered
  obtain ⟨⟨⟨i,raised⟩,-⟩,before⟩ := ordered_split ordered
  refine ⟨returned_once ordered,?_⟩
  obtain ⟨recent,old,rfl⟩ := List.append_of_mem raised
  obtain ⟨⟨c,removed⟩,older⟩ := ordered_split before
  obtain ⟨between,first,rfl⟩ := List.append_of_mem removed
  obtain ⟨⟨enqueued,-⟩,-⟩ := ordered_split older
  have listed : .removed i w c ∈ later ++ .returned w :: (recent ++ .raised i w :: (between ++ .removed i w c :: first)) :=
    by simp
  refine ⟨i,c,recent ++ .raised i w :: between,first,by simp,by simp,enqueued,?_,?_⟩
  · exact fun j d other => (removed_once ordered).1 i j w c d listed other
  · exact fun v d other => (removed_once ordered).2 i w v c d listed other

/-! ### During a signal -/

/-- A waiter is eligible from the `sema_up` that `cond_signal` owes it. -/
theorem eligible_iff (inv : Inv lock_of s) (c : CondId) (u : Tid) : Eligible lock_of s c u ↔ ∃ i, s.stage u = .raised c i := by
  have standing := inv.standing u
  have apart : ∀ l m pc, Early l pc → Late m pc → False := by
    intro l m pc early late
    cases pc <;> first | exact early | exact late
  constructor
  · rintro ⟨waits,eligible⟩
    cases at_ : s.stage u with
    | out =>
      rw [Waits,at_] at waits
      exact absurd waits fun h => h
    | queued d =>
      rw [at_] at standing
      rcases eligible with ⟨-,up,-⟩ | late
      · exact absurd standing.2.1 up
      · exact absurd late (apart _ _ _ standing.2.2)
    | removed d i =>
      rw [at_] at standing
      rcases eligible with ⟨-,up,-⟩ | late
      · exact absurd standing.1 up
      · exact absurd late (apart _ _ _ standing.2)
    | raised d i =>
      rw [Waits,at_] at waits
      exact ⟨i,by rw [show d = c from waits]⟩
  · rintro ⟨i,at_⟩
    rw [at_] at standing
    refine ⟨by rw [Waits,at_],?_⟩
    rcases standing with ⟨one,early,awake⟩ | ⟨-,late⟩
    · exact .inl ⟨early,by rw [one]; exact Nat.one_ne_zero,awake⟩
    · exact .inr late

/-- While its lock is held nobody but the holder enters, signals or leaves a condition. -/
theorem other_step (inv : Inv lock_of s) (holds : lock_held_by_current_thread s.kernel t (lock_of c)) (other : event.tid ≠ t)
    (ran : step lock_of s event = some s') : s'.kernel.conditions c = s.kernel.conditions c ∧ s'.doing t = s.doing t ∧
      ∀ u, Eligible lock_of s' c u ↔ Eligible lock_of s c u := by
  have busy := inv.busy event.tid
  have after := inv_step inv ran
  have same : ∀ stage : Tid → Stage, (∀ u i, stage u = .raised c i ↔ s.stage u = .raised c i) → stage = s'.stage →
      ∀ u, Eligible lock_of s' c u ↔ Eligible lock_of s c u := by
    rintro stage kept rfl u
    rw [eligible_iff after,eligible_iff inv]
    exact exists_congr (kept u)
  have elsewhere : ∀ d, lock_held_by_current_thread s.kernel event.tid (lock_of d) → c ≠ d := by
    rintro d held rfl
    exact other (holder_unique held holds)
  have notHeld : ∀ d pc, s.kernel.pc event.tid = pc → pc = .downed (lock_of d) → c ≠ d := by
    rintro d pc here downed rfl
    have idle := inv.owned.places (lock_of c) event.tid
    rw [here,downed] at idle
    rw [lock_held_by_current_thread,(idle rfl).2] at holds
    cases holds
  rcases step_cases inv ran with ⟨-,stepped,-,-,result⟩ | ⟨d,i,-,stepped,-,raised,here,-,result⟩ | ⟨d,priority,idle,out,held,
    result⟩ |
    ⟨d,broadcast,-,-,-,result⟩ | ⟨d,-,-,-,result⟩ | ⟨d,-,-,result⟩ | ⟨d,broadcast,-,-,result⟩ |
    ⟨d,broadcast,wt,rest,here,queue,result⟩ | ⟨d,broadcast,wt,here,result⟩
  · refine ⟨by rw [stepped.conditions],by rw [result],same _ (fun _ _ => Iff.rfl) (by rw [result])⟩
  · refine ⟨by rw [stepped.conditions],by rw [result],same (Function.update s.stage event.tid .out) ?_ (by rw [result])⟩
    intro u j
    by_cases self : u = event.tid
    · subst self
      have apart := notHeld d _ here rfl
      simp [raised,apart.symm]
    · simp [self]
  · have apart := elsewhere d held
    have out' := plain_out inv out
    simp only [cond_wait,idle,out,held,and_self,if_true,Option.some.injEq] at result
    refine ⟨by rw [← result]; simp [Locks.Kernel.setPc,apart],by rw [← result],
      same (Function.update s.stage event.tid (.queued d)) ?_ (by rw [← result])⟩
    intro u j
    by_cases self : u = event.tid
    · subst self
      simp [out']
    · simp [self]
  · refine ⟨by rw [result]; rfl,?_,same _ (fun _ _ => Iff.rfl) (by rw [result]; rfl)⟩
    rw [result]
    simp [Monitors.startSignal,Monitors.setDoing,other.symm]
  · refine ⟨by rw [result]; rfl,(by rw [result]; simp [Monitors.setDoing,other.symm]),same _ (fun _ _ => Iff.rfl) (by rw [result]; rfl)⟩
  · refine ⟨by rw [result]; rfl,(by rw [result]; simp [Monitors.setDoing,other.symm]),same _ (fun _ _ => Iff.rfl) (by rw [result]; rfl)⟩
  · refine ⟨by rw [result]; rfl,(by rw [result]; simp [Monitors.setDoing,other.symm]),same _ (fun _ _ => Iff.rfl) (by rw [result]; rfl)⟩
  · rw [here] at busy
    have apart := elsewhere d busy.2
    have queued := inv.queued d wt (by rw [queue]; exact List.mem_cons_self ..)
    refine ⟨by rw [result]; simp [apart],by rw [result]; simp [Monitors.setDoing,other.symm],
      same (Function.update s.stage wt (.removed d (event.tid,s.signals event.tid))) ?_ (by rw [result])⟩
    intro u j
    by_cases self : u = wt
    · subst self
      simp [queued]
    · simp [self]
  · rw [here] at busy
    have apart := elsewhere d busy.1.2
    obtain ⟨conditions,-⟩ := signal_spec s.kernel wt
    refine ⟨by rw [result]; simp [raise,conditions],by rw [result]; simp [raise,Monitors.setDoing,other.symm],
      same (Function.update s.stage wt (.raised d (event.tid,s.signals event.tid))) ?_ (by rw [result]; rfl)⟩
    intro u j
    by_cases self : u = wt
    · subst self
      simp [busy.2,apart.symm]
    · simp [self]

/-- These events run from `s` to the last state, and `t` is inside before each of them. -/
inductive During (lock_of : CondId → LockId) (t : Tid) (Inside : Doing → Prop) : Monitors → List Event → Monitors → Prop
  | here (s : Monitors) : During lock_of t Inside s [] s
  | next {s middle s' : Monitors} {event : Event} {events : List Event} (inside : Inside (s.doing t))
      (ran : step lock_of s event = some middle) (later : During lock_of t Inside middle events s') :
      During lock_of t Inside s (event :: events) s'

/-- In `cond_signal`, called by `cond_broadcast` or not. -/
def InSignal : Doing → Prop
  | .signal _ _ | .popped _ _ _ => True
  | .out | .loop _ => False

def InBroadcast (doing : Doing) : Prop := doing ≠ .out

/-- The steps that `t` takes itself. -/
def steps (t : Tid) (events : List Event) : Nat := events.countP fun event => event.tid = t

/-- The threads that are eligible in `s'` and were not in `s`. -/
def Wakes (lock_of : CondId → LockId) (s s' : Monitors) (c : CondId) (woken : List Tid) : Prop :=
  ∀ u, Eligible lock_of s' c u ↔ Eligible lock_of s c u ∨ u ∈ woken

theorem during_invariant {Inside : Doing → Prop} {P : Monitors → Nat → Prop} {events : List Event} {n : Nat}
    (own : ∀ s event s' n, P s n → Inside (s.doing t) → event.tid = t → step lock_of s event = some s' → P s' (n + 1))
    (others : ∀ s event s' n, P s n → Inside (s.doing t) → event.tid ≠ t → step lock_of s event = some s' → P s' n)
    (run : During lock_of t Inside s events s') (holds : P s n) : P s' (n + steps t events) := by
  induction run generalizing n with
  | here s => exact holds
  | next inside ran later ih =>
    rename_i s middle s' event events
    by_cases self : event.tid = t
    · have after := ih (own s event middle n holds inside self ran)
      rw [steps,List.countP_cons_of_pos (by simpa using self)]
      rw [steps] at after
      rw [Nat.add_comm _ 1,← Nat.add_assoc]
      exact after
    · have after := ih (others s event middle n holds inside self ran)
      rw [steps,List.countP_cons_of_neg (by simpa using self)]
      exact after

/-- What a thread does next in `cond_signal` and `cond_broadcast`. -/
theorem own_step (inv : Inv lock_of s) (inside : s.doing t ≠ .out) (self : event.tid = t) (ran : step lock_of s event = some s') :
    (∃ c, s.doing t = .loop c ∧ s.kernel.conditions c = [] ∧ s' = s.setDoing t .out) ∨
      (∃ c, s.doing t = .loop c ∧ s.kernel.conditions c ≠ [] ∧ s' = s.startSignal t c true) ∨
      (∃ c b, s.doing t = .signal c b ∧ s.kernel.conditions c = [] ∧ s' = s.setDoing t (caller c b)) ∨
      (∃ c b wt rest, s.doing t = .signal c b ∧ s.kernel.conditions c = wt :: rest ∧ s'.doing t = .popped c wt b ∧
        s'.kernel.conditions c = rest ∧ s'.stage = Function.update s.stage wt (.removed c (t,s.signals t))) ∨
      ∃ c b wt, s.doing t = .popped c wt b ∧ s' = raise s t c wt b := by
  subst self
  rcases step_cases inv ran with ⟨idle,-,-,-,-⟩ | ⟨c,i,idle,-,-,-,-,-,-⟩ | ⟨c,priority,idle,-,-,-⟩ |
    ⟨c,broadcast,-,-,called,result⟩ | ⟨c,idle,-,-,-⟩ | ⟨c,here,empty,result⟩ | ⟨c,broadcast,here,empty,result⟩ |
    ⟨c,broadcast,wt,rest,here,queue,result⟩ | ⟨c,broadcast,wt,here,result⟩
  · exact absurd idle inside
  · exact absurd idle inside
  · exact absurd idle inside
  · cases broadcast with
    | false => exact absurd called inside
    | true => exact .inr (.inl ⟨c,called.1,called.2,result⟩)
  · exact absurd idle inside
  · exact .inl ⟨c,here,empty,result⟩
  · exact .inr (.inr (.inl ⟨c,broadcast,here,empty,result⟩))
  · refine .inr (.inr (.inr (.inl ⟨c,broadcast,wt,rest,here,queue,?_,?_,?_⟩)))
    · rw [result]
      simp [Monitors.setDoing]
    · rw [result]
      simp
    · rw [result]
  · exact .inr (.inr (.inr (.inr ⟨c,broadcast,wt,here,result⟩)))

/-- A thread in `cond_signal` or `cond_broadcast` can always go on. -/
theorem goes_on (inv : Inv lock_of s) (inside : s.doing t ≠ .out) : (step lock_of s (.run t wt)).isSome := by
  have busy := inv.busy t
  cases at_ : s.doing t with
  | out => exact absurd at_ inside
  | loop c => simp [step,at_]
  | popped c waiter b => simp [step,at_]
  | signal c b =>
    rw [at_] at busy
    simp only [step,at_,cond_signal,if_pos busy.2]
    cases s.kernel.conditions c <;> rfl

theorem eligible_same (inv : Inv lock_of s) (inv' : Inv lock_of s') (same : s'.stage = s.stage) (u : Tid) :
    Eligible lock_of s' c u ↔ Eligible lock_of s c u := by
  rw [eligible_iff inv,eligible_iff inv',same]

theorem eligible_popped {i : Call} (inv : Inv lock_of s) (inv' : Inv lock_of s') (queue : wt ∈ s.kernel.conditions c)
    (stage : s'.stage = Function.update s.stage wt (.removed c i)) (u : Tid) :
    Eligible lock_of s' c u ↔ Eligible lock_of s c u := by
  rw [eligible_iff inv,eligible_iff inv',stage]
  by_cases self : u = wt
  · subst self
    simp [inv.queued c u queue]
  · simp [self]

theorem eligible_raised {b : Bool} (inv : Inv lock_of s) (here : s.doing t = .popped c wt b) (u : Tid) :
    Eligible lock_of (raise s t c wt b) c u ↔ Eligible lock_of s c u ∨ u = wt := by
  rw [eligible_iff inv,eligible_iff (inv_raised inv here)]
  by_cases self : u = wt
  · subst self
    simp [raise]
  · simp [raise,self]

/-- Where a `cond_signal` that was entered in `s₀` stands. -/
def Signalling (lock_of : CondId → LockId) (s₀ : Monitors) (t : Tid) (c : CondId) (s : Monitors) (_ : Nat) : Prop :=
  Inv lock_of s ∧ match s.doing t with
    | .signal d _ => d = c ∧ s.kernel.conditions c = s₀.kernel.conditions c ∧ Wakes lock_of s₀ s c []
    | .popped d wt _ => d = c ∧ s₀.kernel.conditions c = wt :: s.kernel.conditions c ∧ Wakes lock_of s₀ s c []
    | .out | .loop _ => s₀.kernel.conditions c = [] ∧ Wakes lock_of s₀ s c [] ∨
        ∃ wt, s₀.kernel.conditions c = wt :: s.kernel.conditions c ∧ Wakes lock_of s₀ s c [wt]

/-- Where a `cond_broadcast` that was called in `s₀` stands after `n` of its steps. -/
def Broadcasting (lock_of : CondId → LockId) (s₀ : Monitors) (t : Tid) (c : CondId) (s : Monitors) (n : Nat) : Prop :=
  Inv lock_of s ∧ ∃ woken, Wakes lock_of s₀ s c woken ∧ match s.doing t with
    | .loop d => d = c ∧ s₀.kernel.conditions c = woken ++ s.kernel.conditions c ∧ n = 3 * woken.length
    | .signal d b => d = c ∧ b = true ∧ s₀.kernel.conditions c = woken ++ s.kernel.conditions c ∧
        s.kernel.conditions c ≠ [] ∧ n = 3 * woken.length + 1
    | .popped d wt b => d = c ∧ b = true ∧ s₀.kernel.conditions c = woken ++ wt :: s.kernel.conditions c ∧
        n = 3 * woken.length + 2
    | .out => s₀.kernel.conditions c = woken ∧ s.kernel.conditions c = [] ∧ n = 3 * woken.length + 1

theorem wakes_trans {s₀ : Monitors} (woken : List Tid) {more : List Tid} (first : Wakes lock_of s₀ s c woken)
    (then_ : ∀ u, Eligible lock_of s' c u ↔ Eligible lock_of s c u ∨ u ∈ more) : Wakes lock_of s₀ s' c (woken ++ more) := by
  intro u
  rw [then_ u,first u,List.mem_append,or_assoc]

theorem wakes_same {s₀ : Monitors} {woken : List Tid} (first : Wakes lock_of s₀ s c woken)
    (same : ∀ u, Eligible lock_of s' c u ↔ Eligible lock_of s c u) : Wakes lock_of s₀ s' c woken :=
  fun u => (same u).trans (first u)

theorem held_inside (inv : Inv lock_of s) (at_ : s.doing t = .loop c ∨ (∃ b, s.doing t = .signal c b) ∨
      ∃ wt b, s.doing t = .popped c wt b) :
    lock_held_by_current_thread s.kernel t (lock_of c) := by
  have busy := inv.busy t
  rcases at_ with here | ⟨b,here⟩ | ⟨wt,b,here⟩
  · rw [here] at busy
    exact busy.2
  · rw [here] at busy
    exact busy.2
  · rw [here] at busy
    exact busy.1.2

theorem signalling_others {s₀ : Monitors} {n : Nat} (at_ : Signalling lock_of s₀ t c s n) (inside : InSignal (s.doing t))
    (other : event.tid ≠ t) (ran : step lock_of s event = some s') : Signalling lock_of s₀ t c s' n := by
  obtain ⟨inv,at_⟩ := at_
  refine ⟨inv_step inv ran,?_⟩
  cases here : s.doing t with
  | out =>
    rw [here] at inside
    exact absurd inside fun h => h
  | loop d =>
    rw [here] at inside
    exact absurd inside fun h => h
  | signal d b =>
    rw [here] at at_
    obtain ⟨rfl,queue,wakes⟩ := at_
    obtain ⟨same,doing,eligible⟩ := other_step inv (held_inside inv (.inr (.inl ⟨b,here⟩))) other ran
    rw [doing,here,same]
    exact ⟨rfl,queue,wakes_same wakes eligible⟩
  | popped d wt b =>
    rw [here] at at_
    obtain ⟨rfl,queue,wakes⟩ := at_
    obtain ⟨same,doing,eligible⟩ := other_step inv (held_inside inv (.inr (.inr ⟨wt,b,here⟩))) other ran
    rw [doing,here,same]
    exact ⟨rfl,queue,wakes_same wakes eligible⟩

theorem signalling_own {s₀ : Monitors} {n m : Nat} (at_ : Signalling lock_of s₀ t c s n) (inside : InSignal (s.doing t))
    (self : event.tid = t) (ran : step lock_of s event = some s') : Signalling lock_of s₀ t c s' m := by
  obtain ⟨inv,at_⟩ := at_
  have after := inv_step inv ran
  have busy : s.doing t ≠ .out := by
    intro out
    rw [out] at inside
    exact inside
  refine ⟨after,?_⟩
  rcases own_step inv busy self ran with ⟨d,here,-,-⟩ | ⟨d,here,-,-⟩ | ⟨d,b,here,empty,rfl⟩ |
    ⟨d,b,wt,rest,here,queue,popped,left,stage⟩ | ⟨d,b,wt,here,rfl⟩
  · rw [here] at inside
    exact absurd inside fun h => h
  · rw [here] at inside
    exact absurd inside fun h => h
  · rw [here] at at_
    obtain ⟨rfl,same,wakes⟩ := at_
    simp only [Monitors.setDoing,Function.update_self]
    cases b <;> exact .inl ⟨same ▸ empty,wakes_same wakes (eligible_same inv after rfl)⟩
  · rw [here] at at_
    obtain ⟨rfl,same,wakes⟩ := at_
    rw [popped]
    refine ⟨rfl,by rw [left,← queue,same],wakes_same wakes (eligible_popped inv after ?_ stage)⟩
    rw [queue]
    exact List.mem_cons_self ..
  · rw [here] at at_
    obtain ⟨rfl,queue,wakes⟩ := at_
    have turned : (raise s t d wt b).doing t = caller d b := by simp [raise,Monitors.setDoing]
    have conditions : (raise s t d wt b).kernel.conditions = s.kernel.conditions := (signal_spec s.kernel wt).1
    have woken : Wakes lock_of s₀ (raise s t d wt b) d [wt] := by
      refine wakes_trans [] wakes fun u => ?_
      rw [eligible_raised inv here,List.mem_singleton]
    rw [turned]
    cases b <;> exact .inr ⟨wt,by rw [conditions]; exact queue,woken⟩

theorem broadcasting_others {s₀ : Monitors} {n : Nat} (at_ : Broadcasting lock_of s₀ t c s n) (inside : s.doing t ≠ .out)
    (other : event.tid ≠ t) (ran : step lock_of s event = some s') : Broadcasting lock_of s₀ t c s' n := by
  obtain ⟨inv,woken,wakes,at_⟩ := at_
  refine ⟨inv_step inv ran,woken,?_⟩
  cases here : s.doing t with
  | out => exact absurd here inside
  | loop d =>
    rw [here] at at_
    obtain ⟨rfl,at_⟩ := at_
    obtain ⟨same,doing,eligible⟩ := other_step inv (held_inside inv (.inl here)) other ran
    rw [doing,here,same]
    exact ⟨wakes_same wakes eligible,rfl,at_⟩
  | signal d b =>
    rw [here] at at_
    obtain ⟨rfl,at_⟩ := at_
    obtain ⟨same,doing,eligible⟩ := other_step inv (held_inside inv (.inr (.inl ⟨b,here⟩))) other ran
    rw [doing,here,same]
    exact ⟨wakes_same wakes eligible,rfl,at_⟩
  | popped d wt b =>
    rw [here] at at_
    obtain ⟨rfl,at_⟩ := at_
    obtain ⟨same,doing,eligible⟩ := other_step inv (held_inside inv (.inr (.inr ⟨wt,b,here⟩))) other ran
    rw [doing,here,same]
    exact ⟨wakes_same wakes eligible,rfl,at_⟩

theorem broadcasting_own {s₀ : Monitors} {n : Nat} (at_ : Broadcasting lock_of s₀ t c s n) (inside : s.doing t ≠ .out)
    (self : event.tid = t) (ran : step lock_of s event = some s') : Broadcasting lock_of s₀ t c s' (n + 1) := by
  obtain ⟨inv,woken,wakes,at_⟩ := at_
  have after := inv_step inv ran
  rcases own_step inv inside self ran with ⟨d,here,empty,rfl⟩ | ⟨d,here,waiting,rfl⟩ | ⟨d,b,here,empty,rfl⟩ |
    ⟨d,b,wt,rest,here,queue,popped,left,stage⟩ | ⟨d,b,wt,here,rfl⟩
  · rw [here] at at_
    obtain ⟨rfl,queue,count⟩ := at_
    refine ⟨after,woken,wakes_same wakes (eligible_same inv after rfl),?_⟩
    simp only [Monitors.setDoing,Function.update_self]
    rw [empty,List.append_nil] at queue
    exact ⟨queue,empty,by omega⟩
  · rw [here] at at_
    obtain ⟨rfl,queue,count⟩ := at_
    refine ⟨after,woken,wakes_same wakes (eligible_same inv after rfl),?_⟩
    simp only [Monitors.startSignal,Monitors.setDoing,Function.update_self]
    exact ⟨trivial,trivial,queue,waiting,by omega⟩
  · rw [here] at at_
    obtain ⟨rfl,-,-,waiting,-⟩ := at_
    exact absurd empty waiting
  · rw [here] at at_
    obtain ⟨rfl,rfl,all,-,count⟩ := at_
    refine ⟨after,woken,wakes_same wakes (eligible_popped inv after ?_ stage),?_⟩
    · rw [queue]
      exact List.mem_cons_self ..
    · rw [popped]
      exact ⟨rfl,rfl,by rw [left,← queue]; exact all,by omega⟩
  · rw [here] at at_
    obtain ⟨rfl,rfl,queue,count⟩ := at_
    have turned : (raise s t d wt true).doing t = .loop d := by simp [raise,Monitors.setDoing,caller]
    have conditions : (raise s t d wt true).kernel.conditions = s.kernel.conditions := (signal_spec s.kernel wt).1
    refine ⟨after,woken ++ [wt],wakes_trans woken wakes fun u => ?_,?_⟩
    · rw [eligible_raised inv here,List.mem_singleton]
    · rw [turned]
      refine ⟨rfl,?_,?_⟩
      · rw [conditions,queue,List.append_assoc,List.singleton_append]
      · rw [List.length_append,List.length_singleton]
        omega

/-- Who is in the list is not eligible. -/
theorem queued_not_eligible (inv : Inv lock_of s) (queued : u ∈ s.kernel.conditions c) : ¬ Eligible lock_of s c u := by
  rw [eligible_iff inv,inv.queued c u queued]
  rintro ⟨i,same⟩
  cases same

theorem signal_during {b : Bool} {events : List Event} (inv : Inv lock_of s) (here : s.doing t = .signal c b)
    (run : During lock_of t InSignal s events s') : Signalling lock_of s t c s' (0 + steps t events) := by
  refine during_invariant (P := Signalling lock_of s t c) ?_ ?_ run ⟨inv,?_⟩
  · exact fun _ _ _ _ at_ inside self ran => signalling_own at_ inside self ran
  · exact fun _ _ _ _ at_ inside other ran => signalling_others at_ inside other ran
  · rw [here]
    exact ⟨rfl,rfl,fun u => by simp⟩

/-- From the call of `cond_broadcast` on. -/
theorem broadcast_during {s₀ : Monitors} {events : List Event} (inv : Inv lock_of s)
    (called : step lock_of s (.cond_broadcast t c) = some s₀) (run : During lock_of t InBroadcast s₀ events s') :
    Broadcasting lock_of s t c s' (0 + steps t events) := by
  have after := inv_step inv called
  simp only [step,Option.ite_none_right_eq_some,Option.some.injEq] at called
  obtain ⟨-,rfl⟩ := called
  refine during_invariant (P := Broadcasting lock_of s t c) ?_ ?_ run ⟨after,[],fun u => ?_,?_⟩
  · exact fun _ _ _ _ at_ inside self ran => broadcasting_own at_ inside self ran
  · exact fun _ _ _ _ at_ inside other ran => broadcasting_others at_ inside other ran
  · rw [eligible_same inv after rfl]
    simp
  · simp [Monitors.setDoing]

/-- What a `cond_signal` entered in `s` has done when it returns: nothing when nobody was
    waiting, and else it has made one waiter eligible. -/
def SignalsOne (lock_of : CondId → LockId) (s : Monitors) (t : Tid) (c : CondId) : Prop :=
  ∀ broadcast events s', s.doing t = .signal c broadcast → During lock_of t InSignal s events s' → ¬ InSignal (s'.doing t) →
    match s.kernel.conditions c with
    | [] => Wakes lock_of s s' c []
    | wt :: rest => s'.kernel.conditions c = rest ∧ ¬ Eligible lock_of s c wt ∧ Wakes lock_of s s' c [wt]

/-- What a `cond_broadcast` does: no thread enters the list before it returns, it can
    always go on and takes boundedly many steps, and when it returns the threads that were
    waiting at its call have become eligible. -/
def SignalsAll (lock_of : CondId → LockId) (s : Monitors) (t : Tid) (c : CondId) : Prop :=
  (∀ u ∈ s.kernel.conditions c, ¬ Eligible lock_of s c u) ∧
    ∀ s₀ events s', step lock_of s (.cond_broadcast t c) = some s₀ → During lock_of t InBroadcast s₀ events s' →
      (∃ removed, s.kernel.conditions c = removed ++ s'.kernel.conditions c ∧ ∀ u ∈ removed, u ∉ s'.kernel.conditions c) ∧
      steps t events ≤ 3 * (s.kernel.conditions c).length + 1 ∧
      (s'.doing t ≠ .out → ∀ wt, (step lock_of s' (.run t wt)).isSome) ∧
      (s'.doing t = .out → s'.kernel.conditions c = [] ∧ Wakes lock_of s s' c (s.kernel.conditions c))

theorem signals_one (inv : Inv lock_of s) (t : Tid) (c : CondId) : SignalsOne lock_of s t c := by
  intro b events s' here run returned
  obtain ⟨-,at_⟩ := signal_during inv here run
  have left : s.kernel.conditions c = [] ∧ Wakes lock_of s s' c [] ∨
      ∃ wt, s.kernel.conditions c = wt :: s'.kernel.conditions c ∧ Wakes lock_of s s' c [wt] := by
    cases place : s'.doing t with
    | out =>
      rw [place] at at_
      exact at_
    | loop d =>
      rw [place] at at_
      exact at_
    | signal d b' =>
      rw [place] at returned
      exact absurd trivial returned
    | popped d wt b' =>
      rw [place] at returned
      exact absurd trivial returned
  rcases left with ⟨empty,wakes⟩ | ⟨wt,queue,wakes⟩
  · rw [empty]
    exact wakes
  · rw [queue]
    exact ⟨rfl,queued_not_eligible inv (by rw [queue]; exact List.mem_cons_self ..),wakes⟩

theorem signals_all (inv : Inv lock_of s) (t : Tid) (c : CondId) : SignalsAll lock_of s t c := by
  refine ⟨fun u queued => queued_not_eligible inv queued,?_⟩
  intro s₀ events s' called run
  obtain ⟨after,woken,wakes,at_⟩ := broadcast_during inv called run
  have once := inv.once c
  have apart : ∀ removed, s.kernel.conditions c = removed ++ s'.kernel.conditions c →
      ∀ u ∈ removed, u ∉ s'.kernel.conditions c := by
    intro removed queue u one two
    rw [queue] at once
    exact (List.disjoint_of_nodup_append once) one two
  refine ⟨?_,?_,fun inside wt => goes_on after inside,?_⟩
  · cases here : s'.doing t with
    | out =>
      rw [here] at at_
      have queue : s.kernel.conditions c = woken ++ s'.kernel.conditions c := by rw [at_.2.1,List.append_nil,at_.1]
      exact ⟨woken,queue,apart _ queue⟩
    | loop d =>
      rw [here] at at_
      exact ⟨woken,at_.2.1,apart _ at_.2.1⟩
    | signal d b =>
      rw [here] at at_
      exact ⟨woken,at_.2.2.1,apart _ at_.2.2.1⟩
    | popped d wt b =>
      rw [here] at at_
      have queue : s.kernel.conditions c = (woken ++ [wt]) ++ s'.kernel.conditions c := by
        rw [at_.2.2.1,List.append_assoc,List.singleton_append]
      exact ⟨_,queue,apart _ queue⟩
  · rw [Nat.zero_add] at at_
    cases here : s'.doing t with
    | out =>
      rw [here] at at_
      rw [at_.1]
      omega
    | loop d =>
      rw [here] at at_
      rw [at_.2.1,List.length_append]
      omega
    | signal d b =>
      rw [here] at at_
      rw [at_.2.2.1,List.length_append]
      omega
    | popped d wt b =>
      rw [here] at at_
      rw [at_.2.2.1,List.length_append,List.length_cons]
      omega
  · intro out
    rw [out] at at_
    exact ⟨at_.2.1,at_.1 ▸ wakes⟩

/-- Signals are neither lost nor invented: every return of a `cond_wait` is matched by a
    `cond_signal` of its own, a `cond_signal`, called by itself or in a broadcast, makes one
    waiter eligible, and a `cond_broadcast` exactly those that were waiting. -/
theorem signals_matched (lock_of : CondId → LockId) (s : Monitors) (reach : Reaches (machine lock_of) Anything s) :
    (∀ later w earlier, s.log = later ++ .returned w :: earlier → Matched s.log later earlier w) ∧
      (∀ t c, SignalsOne lock_of s t c) ∧ ∀ t c, SignalsAll lock_of s t c :=
  ⟨fun _ _ _ entered => matched (reaches_history reach).ordered entered,signals_one (reaches_inv reach),
    signals_all (reaches_inv reach)⟩

/-- Threads 1 and 2 wait, thread 3 broadcasts, and thread 1 returns. -/
def broadcast : List Event :=
  [.lock_acquire 1 0,.run 1 0,.run 1 0,.cond_wait 1 0 31,.run 1 0,.run 1 0,.lock_acquire 2 0,.run 2 0,.run 2 0,.cond_wait 2 0 40,
    .run 2 0,.run 2 0,.run 2 0,.lock_acquire 3 0,.run 3 0,.run 3 0,.cond_broadcast 3 0,.run 3 0,.run 3 0,.run 3 0,.run 1 0,
    .run 3 0,.run 3 0,.run 3 0,.run 3 0,.lock_release 3 0,.run 3 0,.run 3 0,.run 1 0,.run 1 0,.run 1 0,.run 1 0]

theorem signals_matched_broadcast : ∃ s, run (step fun _ => 0) cond_init broadcast = some s ∧
    s.log = [.returned (1,1),.raised (3,2) (1,1),.removed (3,2) (1,1) 0,.raised (3,1) (2,1),.removed (3,1) (2,1) 0,
      .enqueued (2,1) 0,.enqueued (1,1) 0] ∧ Matched s.log [] s.log.tail (1,1) := by
  have ran : ∃ s, run (step fun _ => 0) cond_init broadcast = some s ∧
      s.log = [.returned (1,1),.raised (3,2) (1,1),.removed (3,2) (1,1) 0,.raised (3,1) (2,1),.removed (3,1) (2,1) 0,
        .enqueued (2,1) 0,.enqueued (1,1) 0] := ⟨_,rfl,rfl⟩
  obtain ⟨s,ran,log⟩ := ran
  have reach := run_reachable cond_init (step fun _ => 0) broadcast ran
  exact ⟨s,ran,log,(signals_matched (fun _ => 0) s reach).1 [] (1,1) s.log.tail (by rw [log]; rfl)⟩
end

end Pintos.Signals
