import Pintos.Queues

/-!
Preemption: no thread in `ready_list` has a higher priority than the running one
when control is back in the running thread.

Three stretches of code make a higher thread ready and only then decide to yield:
`thread_create`, `thread_set_priority` and `lock_release`. `Owes` says what the next
instruction still has to make up for there. The two that decide on something else than
`ready_list` are conditions on runs: `sema_up`, which looks only at the thread it wakes,
and `timer_interrupt`, which yields at the end of a time slice only. `cond_signal` is
`sema_up` on the semaphore of a waiter.
-/
namespace Pintos.Preemption
open Pintos.Lists Pintos.Machines Pintos.Scheduler Pintos.ReadyQueue
open Pintos.Queues hiding Inv
open Pintos.Synch hiding Event step boot machine sema_down sema_up
set_option linter.unusedSimpArgs false
variable {s s' s'' : Sched} {k k' : Kernel} {t u : Tid} {x : Sema} {i : Instr} {stray p : Int} {e : Event}
  {code more rest : List Instr}

def NoneAbove (s : Sched) : Prop := ∀ t ∈ s.ready_list, s.k.priority t ≤ s.k.priority s.current

/-- Control is back in the running thread: its call has returned, or it goes on after
    an interrupt or a switch. -/
def ControlBack (s' : Sched) : Event → Prop
  | .call _ => False
  | .exec _ => s'.scheduling = false ∧ s'.pc s'.current = []
  | .timer _ | .schedule => s'.scheduling = false

/-- The lock that the next instruction of a thread signals. -/
def released : List Instr → Option LockId
  | .up (.lock l) :: _ => some l
  | _ => none

/-- The conditions on a step: a donation finds a ready holder in its place; a release
    that leaves a ready thread above the current one wakes a thread above it; a timer
    interrupt that does not end the time slice finds no thread above the current one
    that is ready or whose sleep is over. -/
def YieldsInTime (s : Sched) : Event → Prop
  | .exec stray => RaisesInOrder s (.exec stray) ∧ ∀ l ∈ released (s.pc s.current),
      NoneAbove s ∨ ∃ w ∈ (s.sema (.lock l)).waiters, s.k.priority s.current < s.k.priority w
  | .timer _ => TIME_SLICE ≤ s.thread_ticks + 1 ∨ NoneAbove s ∧ ∀ t ∈ s.waiting_list,
      s.waiting_ticks t ≤ s.ticks + 1 → s.k.priority t ≤ s.k.priority s.current
  | .call _ | .schedule => True

instance (s : Sched) : Decidable (NoneAbove s) :=
  inferInstanceAs (Decidable (∀ t ∈ s.ready_list, s.k.priority t ≤ s.k.priority s.current))

instance (s : Sched) : (e : Event) → Decidable (YieldsInTime s e)
  | .exec stray => inferInstanceAs (Decidable (RaisesInOrder s (.exec stray) ∧ ∀ l ∈ released (s.pc s.current),
      NoneAbove s ∨ ∃ w ∈ (s.sema (.lock l)).waiters, s.k.priority s.current < s.k.priority w))
  | .timer _ => inferInstanceAs (Decidable (TIME_SLICE ≤ s.thread_ticks + 1 ∨ NoneAbove s ∧ ∀ t ∈ s.waiting_list,
      s.waiting_ticks t ≤ s.ticks + 1 → s.k.priority t ≤ s.k.priority s.current))
  | .call _ | .schedule => .isTrue trivial

/-! ### Threads that are not yet unblocked -/

/-- The holder that an instruction of a donation is about. -/
def donee : Instr → Option Tid
  | .record _ lh | .raise lh | .follow lh => some lh
  | _ => none

/-- What comes right after an instruction that can make a higher thread ready. -/
def Follows (k : Kernel) : Instr → List Instr → Prop
  | .put _, rest => ∃ l more, rest = .up (.lock l) :: more
  | .unblock t, rest => ∃ p more, rest = .yield_below p :: more ∧ k.priority t ≤ p
  | _, _ => True

def Shaped (k : Kernel) : List Instr → Prop
  | [] => True
  | i :: rest => Follows k i rest ∧ Shaped k rest

theorem shaped_same (shaped : Shaped k code) (same : ∀ t, .unblock t ∈ code → k'.priority t = k.priority t) :
    Shaped k' code := by
  induction code with
  | nil => trivial
  | cons i rest ih =>
    obtain ⟨follows,later⟩ := shaped
    refine ⟨?_,ih later (fun t member => same t (List.mem_cons_of_mem i member))⟩
    cases i with
    | unblock t =>
      obtain ⟨p,more,next,below⟩ := follows
      exact ⟨p,more,next,by rw [same t List.mem_cons_self]; exact below⟩
    | _ => exact follows

/-- A thread that is not yet made or not yet unblocked. -/
def Unborn (s : Sched) (t : Tid) : Prop := s.k.count ≤ t ∨ ∃ u, .unblock t ∈ s.pc u

/-- Such a thread holds no lock and no donation is on its way to it. -/
structure Strangers (s : Sched) : Prop where
  holder : ∀ t, Unborn s t → ∀ l, s.k.holder l ≠ some t
  donee : ∀ t, Unborn s t → ∀ u, ∀ j ∈ s.pc u, donee j ≠ some t
  shaped : ∀ u, Shaped s.k (s.pc u)

/-- Nothing happens to code, holders and priorities. -/
structure Quiet (s s' : Sched) : Prop where
  pc : s'.pc = s.pc
  current : s'.current = s.current
  count : s'.k.count = s.k.count
  holder : ∀ l, s'.k.holder l = s.k.holder l
  priority : ∀ t, s'.k.priority t = s.k.priority t

theorem quiet_refl (s : Sched) : Quiet s s := ⟨rfl,rfl,rfl,fun _ => rfl,fun _ => rfl⟩

theorem quiet_trans (first : Quiet s s') (second : Quiet s' s'') : Quiet s s'' where
  pc := second.pc.trans first.pc
  current := second.current.trans first.current
  count := second.count.trans first.count
  holder l := (second.holder l).trans (first.holder l)
  priority t := (second.priority t).trans (first.priority t)

theorem quiet_setSema (x : Sema) (v : Semaphore) : Quiet s (s.setSema x v) := by
  cases x with
  | plain n => exact ⟨rfl,rfl,rfl,fun _ => rfl,fun _ => rfl⟩
  | lock l =>
    refine ⟨rfl,rfl,rfl,?_,fun _ => rfl⟩
    intro m
    by_cases same : m = l
    · subst same; simp [Sched.setSema,Kernel.holder]
    · simp [Sched.setSema,Kernel.holder,setLock_other _ same]

theorem quiet_setOwn {r : Thread} (same : r.priority = s.k.priority s.current) : Quiet s (s.setOwn r) :=
  ⟨rfl,rfl,rfl,fun _ => rfl,fun _ => setThread_priority same⟩

theorem quiet_enter (code : List Instr) (quiet : Quiet s s') : Quiet (s.enter code) (s'.enter code) where
  pc := by simp only [Sched.enter,Sched.setPc,quiet.pc,quiet.current]
  current := quiet.current
  count := quiet.count
  holder := quiet.holder
  priority := quiet.priority

theorem quiet_block (s : Sched) : Quiet s (thread_block s) := ⟨rfl,rfl,rfl,fun _ => rfl,fun _ => rfl⟩

theorem quiet_yield (s : Sched) : Quiet s (thread_yield s) := by
  unfold thread_yield
  split <;> exact ⟨rfl,rfl,rfl,fun _ => rfl,fun _ => rfl⟩

theorem yield_kernel : (thread_yield s).k = s.k := by
  unfold thread_yield
  split <;> rfl

theorem quiet_yieldIf (c : Prop) [Decidable c] : Quiet s (if c then thread_yield s else s) := by
  split
  · exact quiet_yield s
  · exact quiet_refl s

theorem unblock_ready (ran : thread_unblock s w = some s') (member : t ∈ s'.ready_list) : t ∈ s.ready_list ∨ t = w := by
  unfold thread_unblock at ran
  split at ran
  · obtain rfl := Option.some.inj ran
    exact mem_push.mp member
  · cases ran

theorem quiet_unblock (ran : thread_unblock s t = some s') : Quiet s s' := by
  unfold thread_unblock at ran
  split at ran
  · exact Option.some.inj ran ▸ ⟨rfl,rfl,rfl,fun _ => rfl,fun _ => rfl⟩
  · cases ran

theorem quiet_up (ran : sema_up s x stray = some s') : Quiet s s' := by
  unfold sema_up at ran
  split at ran
  · obtain rfl := Option.some.inj ran
    exact quiet_trans (quiet_setSema x _) (quiet_yieldIf _)
  · obtain ⟨woken,unblocked,yields⟩ := Option.bind_eq_some_iff.mp ran
    obtain rfl := Option.some.inj yields
    have popped := quiet_trans (quiet_setSema x _) (quiet_unblock unblocked)
    exact quiet_trans popped (quiet_trans (quiet_setSema x _) (quiet_yieldIf _))

/-! ### What an instruction does to code, holders and priorities -/

structure Effect (s : Sched) (i : Instr) (more : List Instr) (s' : Sched) : Prop where
  pc : s'.pc = (s.enter more).pc
  current : s'.current = s.current
  count : s.k.count ≤ s'.k.count
  holder : ∀ l t, s'.k.holder l = some t → s.k.holder l = some t ∨ t = s.current
  priority : ∀ t, t ≠ s.current → t < s.k.count → i ≠ .raise t → s'.k.priority t = s.k.priority t
  donee : ∀ j ∈ more, ∀ t, donee j = some t → ∃ l, s.k.holder l = some t
  births : ∀ t, .unblock t ∈ more → t = s.k.count
  shaped : ∀ rest, Shaped s'.k rest → Shaped s'.k (more ++ rest)

theorem enter_nil (s : Sched) : (s.enter []).pc = s.pc := by
  funext u
  simp only [Sched.enter,Sched.setPc,List.nil_append]
  split
  · next self => rw [self]
  · rfl

theorem effect_quiet (quiet : Quiet s s') : Effect s i [] s' where
  pc := quiet.pc.trans (enter_nil s).symm
  current := quiet.current
  count := Nat.le_of_eq quiet.count.symm
  holder l t held := .inl (by rwa [quiet.holder] at held)
  priority t _ _ _ := quiet.priority t
  donee := by simp
  births := by simp
  shaped rest shaped := shaped

/-- Code that has nothing to do with donations or births. -/
def plainCode (more : List Instr) : Prop :=
  (∀ j ∈ more, donee j = none ∧ birth j = none) ∧ ∀ k rest, Shaped k rest → Shaped k (more ++ rest)

theorem effect_enter (plain : plainCode more) (quiet : Quiet (s.enter more) s') : Effect s i more s' where
  pc := quiet.pc
  current := quiet.current
  count := Nat.le_of_eq quiet.count.symm
  holder l t held := .inl (by rwa [quiet.holder] at held)
  priority t _ _ _ := quiet.priority t
  donee j member t about := by simp [(plain.1 j member).1] at about
  births t member := by simpa [birth] using (plain.1 _ member).2
  shaped rest shaped := plain.2 _ rest shaped

/-- A write to the record of the current thread alone. -/
theorem effect_own (count : k.count = s.k.count) (locks : k.locks = s.k.locks)
    (others : ∀ t, t ≠ s.current → k.threads t = s.k.threads t) (plain : plainCode more) :
    Effect s i more ({ s with k := k }.enter more) where
  pc := rfl
  current := rfl
  count := Nat.le_of_eq count.symm
  holder l t held := .inl (by simpa [Kernel.holder,Sched.enter,Sched.setPc,locks] using held)
  priority t other _ _ := by simp [Kernel.priority,Sched.enter,Sched.setPc,others t other]
  donee j member t about := by simp [(plain.1 j member).1] at about
  births t member := by simpa [birth] using (plain.1 _ member).2
  shaped rest shaped := plain.2 _ rest shaped

theorem record_holder {l m : LockId} {lh : Tid} (ran : record k l lh = some k') : k'.holder m = k.holder m := by
  have saved : (saveOrig k lh).holder m = k.holder m := by
    unfold saveOrig
    split <;> rfl
  unfold record at ran
  split at ran
  · cases ran
  · split at ran
    · exact Option.some.inj ran ▸ saved
    · split at ran
      · cases ran
      · exact Option.some.inj ran ▸ saved

theorem effect_init (ran : thread_create s.k p = some k) :
    Effect s (.init p) [.acquire tid_lock,.release tid_lock,.unblock s.k.count,.yield_below p]
      (({ s with k := k }.setStatus s.k.count .blocked).enter
        [.acquire tid_lock,.release tid_lock,.unblock s.k.count,.yield_below p]) := by
  unfold thread_create at ran
  split at ran
  · obtain rfl := Option.some.inj ran
    refine ⟨rfl,rfl,Nat.le_succ _,fun l t held => .inl held,?_,by simp [donee],by simp,?_⟩
    · intro t _ known _
      have older : t ≠ s.k.count := Nat.ne_of_lt known
      simp [Kernel.priority,Sched.enter,Sched.setPc,Sched.setStatus,setThread_other _ older]
    · intro rest shaped
      refine ⟨trivial,trivial,⟨p,rest,rfl,?_⟩,trivial,shaped⟩
      simp [Kernel.priority,Sched.enter,Sched.setPc,Sched.setStatus,init_thread]
  · cases ran

theorem effect_donate {l : LockId} {lh : Tid} (held : s.k.holder l = some lh) :
    Effect s i [.record l lh,.raise lh,.follow lh] (s.enter [.record l lh,.raise lh,.follow lh]) where
  pc := rfl
  current := rfl
  count := Nat.le_refl _
  holder l t held := .inl held
  priority t _ _ _ := rfl
  donee j member t about := by
    have same : t = lh := by
      simp only [List.mem_cons,List.not_mem_nil,or_false] at member
      rcases member with rfl | rfl | rfl <;> simpa [donee] using about.symm
    exact ⟨l,same ▸ held⟩
  births t member := by simp at member
  shaped rest shaped := ⟨trivial,trivial,trivial,shaped⟩

theorem effect_down : ∃ more, Effect s i more (sema_down s x) := by
  unfold sema_down
  split
  · have plain : plainCode [.down_again x] := ⟨by simp [donee,birth],fun k rest shaped => ⟨trivial,shaped⟩⟩
    exact ⟨_,effect_enter plain (quiet_trans (quiet_enter _ (quiet_setSema x _)) (quiet_block _))⟩
  · exact ⟨_,effect_quiet (quiet_trans (quiet_setSema x _) (quiet_setOwn rfl))⟩

theorem exec_effect (ran : exec s stray i = some s') : ∃ more, Effect s i more s' := by
  have quiet : ∀ s1, Quiet s s1 → some s1 = some s' → ∃ more, Effect s i more s' := by
    intro s1 same equal
    exact ⟨[],Option.some.inj equal ▸ effect_quiet same⟩
  have plain : ∀ more, plainCode more → some (s.enter more) = some s' → ∃ more, Effect s i more s' := by
    intro more plain equal
    exact ⟨more,Option.some.inj equal ▸ effect_enter plain (quiet_refl _)⟩
  cases i with
  | acquire l =>
    simp only [exec] at ran
    split at ran
    · cases ran
    · refine plain [.donate l,.wait_for l,.down (.lock l),.hold l] ⟨by simp [donee,birth],?_⟩ ran
      exact fun k rest shaped => ⟨trivial,trivial,trivial,trivial,shaped⟩
  | release l =>
    simp only [exec] at ran
    split at ran
    · obtain ⟨count,_,locks,others⟩ := priority_restoration_frame s.k s.current l stray
      obtain rfl := Option.some.inj ran
      refine ⟨_,effect_own count locks others ⟨by simp [donee,birth],?_⟩⟩
      intro k rest shaped
      exact ⟨trivial,⟨l,rest,rfl⟩,trivial,shaped⟩
    · cases ran
  | donate l =>
    simp only [exec] at ran
    split at ran
    · exact quiet _ (quiet_refl s) ran
    · next lh held =>
      split at ran
      · exact ⟨_,Option.some.inj ran ▸ effect_donate held⟩
      · exact quiet _ (quiet_refl s) ran
  | record l lh =>
    obtain ⟨k,recorded,same⟩ := Option.map_eq_some_iff.mp ran
    obtain ⟨count,priority⟩ := record_same recorded
    subst same
    exact quiet { s with k := k } ⟨rfl,rfl,count,fun m => record_holder recorded,priority⟩ rfl
  | raise lh =>
    obtain rfl := Option.some.inj ran
    refine ⟨[],(enter_nil s).symm,rfl,Nat.le_refl _,fun l t held => .inl held,?_,by simp,by simp,fun _ shaped => shaped⟩
    intro t _ _ other
    have different : t ≠ lh := fun same => other (by rw [same])
    simp [Kernel.priority,setThread_other _ different]
  | follow lh =>
    simp only [exec] at ran
    split at ran
    · exact quiet _ (quiet_refl s) ran
    · next next _ => exact plain [.donate next] ⟨by simp [donee,birth],fun k rest shaped => ⟨trivial,shaped⟩⟩ ran
  | wait_for l => exact quiet _ (quiet_setOwn (r := { s.k.threads s.current with lock_waiting_for := some l }) rfl) ran
  | down x => exact Option.some.inj ran ▸ effect_down
  | down_again x => exact Option.some.inj ran ▸ effect_down
  | hold l =>
    obtain rfl := Option.some.inj ran
    refine ⟨[],(enter_nil s).symm,rfl,Nat.le_refl _,?_,fun _ _ _ _ => rfl,by simp,by simp,fun _ shaped => shaped⟩
    intro m t held
    by_cases same : m = l
    · subst same
      exact .inr (by simpa [Kernel.holder] using held.symm)
    · exact .inl (by simpa [Kernel.holder,setLock_other _ same] using held)
  | unhold l =>
    obtain rfl := Option.some.inj ran
    refine ⟨[],(enter_nil s).symm,rfl,Nat.le_refl _,?_,fun _ _ _ _ => rfl,by simp,by simp,fun _ shaped => shaped⟩
    intro m t held
    by_cases same : m = l
    · subst same
      simp [Kernel.holder] at held
    · exact .inl (by simpa [Kernel.holder,setLock_other _ same] using held)
  | put priority_restore =>
    obtain rfl := Option.some.inj ran
    refine ⟨[],(enter_nil s).symm,rfl,?_,?_,?_,by simp,by simp,fun _ shaped => shaped⟩
    · exact Nat.le_of_eq (putPriority_count _).symm
    · intro l t held
      exact .inl (by simpa [Kernel.holder] using held)
    · intro t other _ _
      simp [Kernel.priority,putPriority_other _ other]
  | up x => exact quiet _ (quiet_up ran) rfl
  | init priority =>
    obtain ⟨k,created,same⟩ := Option.map_eq_some_iff.mp ran
    exact ⟨_,same ▸ effect_init created⟩
  | unblock t => exact quiet _ (quiet_unblock ran) rfl
  | yield_below priority => exact quiet _ (quiet_yieldIf _) ran
  | set_priority new_priority =>
    obtain rfl := Option.some.inj ran
    refine ⟨[.yield_to_front new_priority],effect_own rfl rfl ?_ ⟨by simp [donee,birth],fun k rest shaped => ⟨trivial,shaped⟩⟩⟩
    intro t other
    simp [thread_set_priority,setThread_other _ other]
  | yield_to_front new_priority => exact quiet _ (quiet_yieldIf _) ran
  | yield => exact quiet _ (quiet_yield s) ran
  | sleep n => exact plain [.sleep_until (s.ticks + n)] ⟨by simp [donee,birth],fun k rest shaped => ⟨trivial,shaped⟩⟩ ran
  | sleep_until waiting_ticks =>
    obtain rfl := Option.some.inj ran
    exact ⟨[],effect_quiet ⟨rfl,rfl,rfl,fun _ => rfl,fun _ => rfl⟩⟩
  | exit =>
    obtain rfl := Option.some.inj ran
    exact ⟨[],effect_quiet ⟨rfl,rfl,rfl,fun _ => rfl,fun _ => rfl⟩⟩
  | idle =>
    obtain rfl := Option.some.inj ran
    have plain : plainCode [.idle] := ⟨by simp [donee,birth],fun k rest shaped => ⟨trivial,shaped⟩⟩
    exact ⟨_,effect_enter plain (quiet_block _)⟩

theorem unborn_other {place : Tid → Place} (placed : Placed none place s) (runs : s.scheduling = false)
    (unborn : Unborn s t) : t ≠ s.current := by
  rintro rfl
  rcases unborn with beyond | ⟨u,member⟩
  · exact absurd placed.current (Nat.not_lt.mpr beyond)
  · have born : s.current ∈ births s u := List.mem_filterMap.mpr ⟨_,member,rfl⟩
    have was := (placed.unborn u s.current).mp born
    simp [place_current placed runs] at was

theorem birth_known {place : Tid → Place} (placed : Placed none place s) (member : .unblock t ∈ s.pc u) :
    t < s.k.count := by
  have born : t ∈ births s u := List.mem_filterMap.mpr ⟨_,member,rfl⟩
  exact (placed.known t).mpr (by simp [(placed.unborn u t).mp born])

theorem strangers_exec {place : Tid → Place} (strangers : Strangers s) (placed : Placed none place s)
    (runs : s.scheduling = false) (code : s.pc s.current = i :: rest)
    (effect : Effect (s.setPc s.current rest) i more s') : Strangers s' := by
  have pc : ∀ u, s'.pc u = if u = s.current then more ++ rest else s.pc u := by
    intro u
    rw [effect.pc]
    simp only [Sched.enter,Sched.setPc]
    split <;> simp
  have old : ∀ u, ∀ j ∈ s'.pc u, j ∈ more ∨ j ∈ s.pc u := by
    intro u j member
    rw [pc] at member
    split at member
    · next self =>
      rcases List.mem_append.mp member with new | kept
      · exact .inl new
      · exact .inr (by rw [self,code]; exact List.mem_cons_of_mem i kept)
    · exact .inr member
  have unborn : ∀ t, Unborn s' t → Unborn s t := by
    rintro t (beyond | ⟨u,member⟩)
    · exact .inl (Nat.le_trans effect.count beyond)
    · rcases old u _ member with new | kept
      · exact .inl (Nat.le_of_eq (effect.births t new).symm)
      · exact .inr ⟨u,kept⟩
  have kept : ∀ u, ∀ t, .unblock t ∈ s.pc u → s'.k.priority t = s.k.priority t := by
    intro u t member
    have other : t ≠ s.current := unborn_other placed runs (.inr ⟨u,member⟩)
    have known : t < s.k.count := birth_known placed member
    refine effect.priority t other known ?_
    rintro rfl
    exact strangers.donee t (.inr ⟨u,member⟩) s.current (.raise t) (by simp [code]) rfl
  refine ⟨?_,?_,?_⟩
  · intro t new l held
    rcases effect.holder l t held with before | self
    · exact strangers.holder t (unborn t new) l before
    · exact unborn_other placed runs (unborn t new) self
  · intro t new u j member about
    rcases old u j member with entered | before
    · obtain ⟨l,held⟩ := effect.donee j entered t about
      exact strangers.holder t (unborn t new) l held
    · exact strangers.donee t (unborn t new) u j before about
  · intro u
    have before := strangers.shaped u
    rw [pc]
    split
    · next self =>
      subst self
      rw [code] at before
      refine effect.shaped rest (shaped_same before.2 ?_)
      intro t member
      exact kept s.current t (by rw [code]; exact List.mem_cons_of_mem i member)
    · exact shaped_same before (kept u)

theorem strangers_same (strangers : Strangers s) (pc : s'.pc = s.pc) (kernel : s'.k = s.k) : Strangers s' where
  holder := by simpa only [Unborn,pc,kernel] using strangers.holder
  donee := by simpa only [Unborn,pc,kernel] using strangers.donee
  shaped := by simpa only [pc,kernel] using strangers.shaped

theorem strangers_call {c : Call} (strangers : Strangers s) : Strangers (s.setPc s.current [Scheduler.code c]) := by
  have old : ∀ u, ∀ j ∈ (s.setPc s.current [Scheduler.code c]).pc u, j = Scheduler.code c ∨ j ∈ s.pc u := by
    intro u j member
    simp only [Sched.setPc] at member
    split at member
    · exact .inl (List.mem_singleton.mp member)
    · exact .inr member
  have unborn : ∀ t, Unborn (s.setPc s.current [Scheduler.code c]) t → Unborn s t := by
    rintro t (beyond | ⟨u,member⟩)
    · exact .inl beyond
    · rcases old u _ member with new | kept
      · cases c <;> cases new
      · exact .inr ⟨u,kept⟩
  refine ⟨fun t new => strangers.holder t (unborn t new),?_,?_⟩
  · intro t new u j member about
    rcases old u j member with rfl | before
    · cases c <;> cases about
    · exact strangers.donee t (unborn t new) u j before about
  · intro u
    simp only [Sched.setPc]
    split
    · cases c <;> exact ⟨trivial,trivial⟩
    · exact strangers.shaped u

/-- The loop of `timer_interrupt` wakes threads whose sleep is over, and does nothing else
    to the order of priorities. -/
theorem wake_spec {garbage : Bool} (sleepers : List Tid) : ∀ s : Sched, wakeSleepers s garbage sleepers = some s' →
    s'.k = s.k ∧ s'.pc = s.pc ∧ s'.current = s.current ∧ s'.scheduling = s.scheduling ∧
    s'.thread_ticks = s.thread_ticks ∧
    (∀ t ∈ s'.ready_list, t ∈ s.ready_list ∨ t ∈ sleepers ∧ s.waiting_ticks t ≤ s.ticks) ∧
    wakeSleepers s false sleepers = some s' := by
  induction sleepers with
  | nil =>
    intro s ran
    simp only [wakeSleepers] at ran
    split at ran
    · cases ran
    · obtain rfl := Option.some.inj ran
      exact ⟨rfl,rfl,rfl,rfl,rfl,fun t member => .inl member,by simp [wakeSleepers]⟩
  | cons t rest ih =>
    intro s ran
    simp only [wakeSleepers] at ran ⊢
    split at ran
    · next due =>
      obtain ⟨woken,unblocked,further⟩ := Option.bind_eq_some_iff.mp ran
      obtain ⟨kernel,pc,current,scheduling,slice,listed,quiet⟩ := ih woken further
      have known := unblocked
      unfold thread_unblock at known
      split at known
      · obtain rfl := Option.some.inj known
        refine ⟨kernel,pc,current,scheduling,slice,?_,?_⟩
        · intro u member
          rcases listed u member with before | ⟨later,elapsed⟩
          · rcases mem_push.mp before with old | rfl
            · exact .inl old
            · exact .inr ⟨List.mem_cons_self,due.1⟩
          · exact .inr ⟨List.mem_cons_of_mem t later,elapsed⟩
        · rw [if_pos due]
          exact Option.bind_eq_some_iff.mpr ⟨_,unblocked,quiet⟩
      · cases known
    · next early =>
      obtain rfl := Option.some.inj ran
      refine ⟨rfl,rfl,rfl,rfl,rfl,fun t member => .inl member,?_⟩
      rw [if_neg early]

/-! ### The running thread and the ready ones -/

/-- What the next instruction of the running thread makes up for: `thread_create` compares
    with the priority it was given, `thread_set_priority` compares the front of
    `ready_list` with the priority it has set, and a release goes on to `sema_up`. -/
def Owes (s : Sched) : List Instr → Prop
  | .yield_below p :: _ => ∀ t ∈ s.ready_list, s.k.priority t ≤ s.k.priority s.current ∨ s.k.priority t ≤ p
  | .yield_to_front p :: _ => p ≤ s.k.priority s.current
  | .up (.lock _) :: _ => True
  | _ => False

theorem noneAbove_frame (none : NoneAbove s) (ready_list : s'.ready_list = s.ready_list) (current : s'.current = s.current)
    (priority : ∀ t, t = s.current ∨ t ∈ s.ready_list → s'.k.priority t = s.k.priority t) : NoneAbove s' := by
  intro t member
  rw [ready_list] at member
  rw [current,priority t (.inr member),priority _ (.inl rfl)]
  exact none t member

theorem noneAbove_quiet (none : NoneAbove s) (quiet : Quiet s s') (ready_list : s'.ready_list = s.ready_list) : NoneAbove s' :=
  noneAbove_frame none ready_list quiet.current (fun t _ => quiet.priority t)

theorem restoration_priority (k : Kernel) (t : Tid) (l : LockId) (stray : Int) (u : Tid) :
    (priority_restoration k t l stray).1.priority u = k.priority u := by
  unfold priority_restoration
  dsimp only
  split
  · rfl
  · split
    · rfl
    · split <;> exact setThread_priority rfl

theorem yieldIf_stays {c : Prop} [Decidable c] (runs : (if c then thread_yield s else s).scheduling = false) :
    ¬ c ∧ (if c then thread_yield s else s) = s := by
  split at runs
  · cases runs
  · next stays => exact ⟨stays,if_neg stays⟩

theorem noneAbove_up (ran : sema_up s x stray = some s') (runs : s'.scheduling = false)
    (owed : NoneAbove s ∨ ∃ w ∈ (s.sema x).waiters, s.k.priority s.current < s.k.priority w) : NoneAbove s' := by
  unfold sema_up at ran
  split at ran
  · next empty =>
    obtain rfl := Option.some.inj ran
    rw [(yieldIf_stays runs).2]
    have none : NoneAbove s := by
      rcases owed with none | ⟨w,member,_⟩
      · exact none
      · rw [← mem_list_sort (sort_by_priority s.k),empty] at member
        cases member
    exact noneAbove_quiet none (quiet_setSema x _) (sameQueue_setSema x _).ready_list
  · next wt rest sorted =>
    obtain ⟨woken,unblocked,yields⟩ := Option.bind_eq_some_iff.mp ran
    obtain rfl := Option.some.inj yields
    obtain ⟨low,stays⟩ := yieldIf_stays runs
    rw [stays]
    have popped := quiet_setSema (s := s) x { s.sema x with waiters := rest }
    have queue := (sameQueue_setSema (s := s) x { s.sema x with waiters := rest }).ready_list
    have quiet := quiet_trans popped (quiet_trans (quiet_unblock unblocked)
      (quiet_setSema x { woken.sema x with value := (woken.sema x).value + 1 }))
    simp only [quiet.current,quiet.priority,gt_iff_lt,Int.not_lt] at low
    -- The waiter that is woken has the highest priority of all.
    have none : NoneAbove s := by
      rcases owed with none | ⟨w,member,above⟩
      · exact none
      · have order := sort_sorted s.k (s.sema x).waiters
        rw [← mem_list_sort (sort_by_priority s.k),sorted] at member
        rw [sorted] at order
        rcases List.mem_cons.mp member with rfl | later
        · exact absurd above (Int.not_lt.mpr low)
        · have below := (List.pairwise_cons.mp order).1 w later
          exact absurd above (Int.not_lt.mpr (Int.le_trans below low))
    intro t member
    rw [quiet.priority,quiet.current,quiet.priority]
    rw [(sameQueue_setSema x _).ready_list] at member
    rcases unblock_ready unblocked member with before | rfl
    · rw [queue] at before
      exact none t before
    · exact low

/-- A lock holder that comes up to the current thread does not come above it. -/
theorem noneAbove_raise (none : NoneAbove s) (lh : Tid) :
    NoneAbove { s with k := s.k.setThread lh { s.k.threads lh with priority := s.k.priority s.current } } := by
  have own : (s.k.setThread lh { s.k.threads lh with priority := s.k.priority s.current }).priority s.current =
      s.k.priority s.current := by
    by_cases self : s.current = lh
    · rw [← self]; simp [Kernel.priority]
    · simp [Kernel.priority,setThread_other _ self]
  intro t member
  show (s.k.setThread lh _).priority t ≤ (s.k.setThread lh _).priority s.current
  rw [own]
  by_cases same : t = lh
  · subst same; simp [Kernel.priority]
  · simpa [Kernel.priority,setThread_other _ same] using none t member

theorem noneAbove_down (none : NoneAbove s) (ran : sema_down s x = s') (runs : s'.scheduling = false) : NoneAbove s' := by
  subst ran
  unfold sema_down at runs ⊢
  split
  · next empty =>
    rw [if_pos empty] at runs
    cases runs
  · exact noneAbove_quiet none (quiet_trans (quiet_setSema x _) (quiet_setOwn rfl)) (sameQueue_setSema x _).ready_list

theorem create_priority (ran : thread_create k p = some k') (known : t < k.count) : k'.priority t = k.priority t := by
  unfold thread_create at ran
  split at ran
  · obtain rfl := Option.some.inj ran
    have older : t ≠ k.count := Nat.ne_of_lt known
    simp [Kernel.priority,setThread_other _ older]
  · cases ran

theorem calm_exec (ordered : Ordered s) (runs : s.scheduling = false) (rests : s.pc s.current = rest)
    (follows : Follows s.k i rest) (calm : NoneAbove s ∨ Owes s (i :: rest))
    (meets : ∀ l, i = .up (.lock l) → NoneAbove s ∨ ∃ w ∈ (s.sema (.lock l)).waiters, s.k.priority s.current < s.k.priority w)
    (ran : exec s stray i = some s') (running : s'.scheduling = false) :
    NoneAbove s' ∨ Owes s' (s'.pc s'.current) := by
  have quiet : ∀ s1, NoneAbove s → Quiet s s1 → s1.ready_list = s.ready_list → some s1 = some s' →
      NoneAbove s' ∨ Owes s' (s'.pc s'.current) := by
    intro s1 none same list equal
    exact .inl (Option.some.inj equal ▸ noneAbove_quiet none same list)
  have entered : ∀ more, NoneAbove s → some (s.enter more) = some s' → NoneAbove s' ∨ Owes s' (s'.pc s'.current) := by
    intro more none equal
    exact .inl (Option.some.inj equal ▸ none)
  cases i with
  | acquire l =>
    have none : NoneAbove s := calm.resolve_right id
    simp only [exec] at ran
    split at ran
    · cases ran
    · exact entered _ none ran
  | release l =>
    have none : NoneAbove s := calm.resolve_right id
    simp only [exec] at ran
    split at ran
    · obtain rfl := Option.some.inj ran
      exact .inl (noneAbove_frame none rfl rfl (fun t _ => restoration_priority s.k s.current l stray t))
    · cases ran
  | donate l =>
    have none : NoneAbove s := calm.resolve_right id
    simp only [exec] at ran
    split at ran
    · exact quiet _ none (quiet_refl s) rfl ran
    · split at ran
      · exact entered _ none ran
      · exact quiet _ none (quiet_refl s) rfl ran
  | record l lh =>
    have none : NoneAbove s := calm.resolve_right id
    obtain ⟨k,recorded,same⟩ := Option.map_eq_some_iff.mp ran
    subst same
    exact .inl (noneAbove_frame none rfl rfl (fun t _ => (record_same recorded).2 t))
  | raise lh =>
    have none : NoneAbove s := calm.resolve_right id
    obtain rfl := Option.some.inj ran
    exact .inl (noneAbove_raise none lh)
  | follow lh =>
    have none : NoneAbove s := calm.resolve_right id
    simp only [exec] at ran
    split at ran
    · exact quiet _ none (quiet_refl s) rfl ran
    · exact entered _ none ran
  | wait_for l =>
    have none : NoneAbove s := calm.resolve_right id
    exact quiet _ none (quiet_setOwn (r := { s.k.threads s.current with lock_waiting_for := some l }) rfl) rfl ran
  | down x =>
    have none : NoneAbove s := calm.resolve_right id
    exact .inl (noneAbove_down none (Option.some.inj ran) running)
  | down_again x =>
    have none : NoneAbove s := calm.resolve_right id
    exact .inl (noneAbove_down none (Option.some.inj ran) running)
  | hold l =>
    have none : NoneAbove s := calm.resolve_right id
    obtain rfl := Option.some.inj ran
    exact .inl (noneAbove_frame none rfl rfl (fun t _ => rfl))
  | unhold l =>
    have none : NoneAbove s := calm.resolve_right id
    obtain rfl := Option.some.inj ran
    exact .inl (noneAbove_frame none rfl rfl (fun t _ => rfl))
  | put priority_restore =>
    obtain ⟨l,more,next⟩ := follows
    obtain rfl := Option.some.inj ran
    refine .inr ?_
    show Owes _ (s.pc s.current)
    rw [rests,next]
    trivial
  | up x =>
    refine .inl (noneAbove_up ran running ?_)
    cases x with
    | plain n => exact .inl (calm.resolve_right id)
    | lock l => exact meets l rfl
  | init priority =>
    have none : NoneAbove s := calm.resolve_right id
    obtain ⟨k,created,same⟩ := Option.map_eq_some_iff.mp ran
    subst same
    refine .inl (noneAbove_frame none rfl rfl ?_)
    rintro t (rfl | member)
    · exact create_priority created (ordered.running runs).1
    · exact create_priority created (ordered.ready t member).1
  | unblock t =>
    have none : NoneAbove s := calm.resolve_right id
    obtain ⟨p,more,next,below⟩ := follows
    have same := quiet_unblock ran
    refine .inr ?_
    rw [same.pc,same.current,rests,next]
    intro u member
    rw [same.priority,same.current,same.priority]
    rcases unblock_ready ran member with before | rfl
    · exact .inl (none u before)
    · exact .inr below
  | yield_below priority =>
    obtain rfl := Option.some.inj ran
    obtain ⟨high,stays⟩ := yieldIf_stays running
    rw [stays]
    rcases calm with none | owed
    · exact .inl none
    · refine .inl ?_
      intro t member
      rcases owed t member with below | below
      · exact below
      · exact Int.le_trans below (Int.not_lt.mp high)
  | set_priority new_priority =>
    have none : NoneAbove s := calm.resolve_right id
    obtain rfl := Option.some.inj ran
    -- With a donation in force the priority stays; else it is the new one.
    by_cases donated : (s.k.threads s.current).donation_nested_level = 0
    · refine .inr ?_
      show Owes _ (if s.current = s.current then [.yield_to_front new_priority] ++ s.pc s.current else _)
      rw [if_pos rfl]
      show new_priority ≤ (thread_set_priority s.k s.current new_priority).priority s.current
      simp [thread_set_priority,Kernel.priority,donated]
    · refine .inl (noneAbove_frame none rfl rfl ?_)
      intro t _
      refine setThread_priority ?_
      simp [donated,Kernel.priority]
  | yield_to_front new_priority =>
    obtain rfl := Option.some.inj ran
    obtain ⟨high,stays⟩ := yieldIf_stays running
    rw [stays]
    rcases calm with none | owed
    · exact .inl none
    · refine .inl ?_
      intro t member
      have sorted := ordered.sorted
      cases queue : s.ready_list with
      | nil => simp [queue] at member
      | cons first others =>
        rw [queue] at member sorted
        simp only [readyFront,queue,Int.not_lt] at high
        exact Int.le_trans (first_highest sorted member) (Int.le_trans high owed)
  | yield =>
    obtain rfl := Option.some.inj ran
    cases running
  | sleep n => exact entered _ (calm.resolve_right id) ran
  | sleep_until waiting_ticks =>
    obtain rfl := Option.some.inj ran
    cases running
  | exit =>
    obtain rfl := Option.some.inj ran
    cases running
  | idle =>
    obtain rfl := Option.some.inj ran
    cases running

/-! ### Whole runs -/

structure Inv (s : Sched) : Prop where
  ordered : Ordered s
  places : Queues.Inv s
  strangers : Strangers s
  calm : s.scheduling = false → NoneAbove s ∨ Owes s (s.pc s.current)

theorem timer_spec {garbage : Bool} (ran : timer_interrupt s garbage = some s') :
    s'.k = s.k ∧ s'.pc = s.pc ∧ timer_interrupt s false = some s' ∧ (s'.scheduling = false →
      s'.current = s.current ∧ s.thread_ticks + 1 < TIME_SLICE ∧
      ∀ t ∈ s'.ready_list, t ∈ s.ready_list ∨ t ∈ s.waiting_list ∧ s.waiting_ticks t ≤ s.ticks + 1) := by
  obtain ⟨woken,loop,yields⟩ := Option.bind_eq_some_iff.mp ran
  obtain rfl := Option.some.inj yields
  obtain ⟨kernel,pc,current,scheduling,slice,listed,quiet⟩ := wake_spec s.waiting_list _ loop
  refine ⟨?_,?_,?_,?_⟩
  · split
    · rw [yield_kernel]
      exact kernel
    · exact kernel
  · split
    · rw [yield_pc]
      exact pc
    · exact pc
  · exact Option.bind_eq_some_iff.mpr ⟨woken,quiet,rfl⟩
  · intro runs
    obtain ⟨early,stays⟩ := yieldIf_stays runs
    rw [stays]
    refine ⟨current,?_,listed⟩
    simp only [slice,ge_iff_le,Nat.not_le] at early
    exact early

theorem places_step (places : Queues.Inv s) (ran : step s e = some s') : Queues.Inv s' := by
  cases e with
  | timer garbage =>
    refine Queues.inv_step (e := .timer false) places rfl ?_
    simp only [step] at ran ⊢
    split at ran
    · next enabled =>
      rw [if_pos enabled]
      exact (timer_spec ran).2.2.1
    · cases ran
  | call c => exact Queues.inv_step (e := .call c) places trivial ran
  | exec stray => exact Queues.inv_step (e := .exec stray) places trivial ran
  | schedule => exact Queues.inv_step (e := .schedule) places trivial ran

/-- The thread that is switched to has the highest priority of all that are ready. -/
theorem noneAbove_schedule (ordered : Ordered s) (ran : schedule s = some s') :
    NoneAbove s' ∧ s'.k = s.k ∧ s'.pc = s.pc := by
  unfold schedule at ran
  obtain ⟨⟨next,rest⟩,popped,switched⟩ := Option.bind_eq_some_iff.mp ran
  dsimp only at switched
  split at switched
  · obtain rfl := Option.some.inj switched
    refine ⟨?_,rfl,rfl⟩
    unfold next_thread_to_run at popped
    have sorted := ordered.sorted
    split at popped
    · obtain ⟨idle,-,pair⟩ := Option.map_eq_some_iff.mp popped
      cases pair
      intro t member
      cases member
    · next first others queue =>
      cases popped
      rw [queue] at sorted
      intro t member
      exact first_highest sorted (List.mem_cons_of_mem _ member)
  · cases switched

/-- One step keeps the invariant, and where control is back nothing is owed. -/
theorem inv_step (inv : Inv s) (meets : YieldsInTime s e) (ran : step s e = some s') :
    Inv s' ∧ (ControlBack s' e → NoneAbove s') := by
  have places := places_step inv.places ran
  obtain ⟨-,place,placed⟩ := inv.places
  have ordered : Ordered s' := by
    refine ordered_step (e := e) inv.ordered ?_ ran
    cases e with
    | exec stray => exact meets.1
    | _ => trivial
  cases e with
  | call c =>
    simp only [step] at ran
    split at ran
    · next checks =>
      obtain rfl := Option.some.inj ran
      have none : NoneAbove s := by
        have calm := inv.calm checks.1
        rwa [List.isEmpty_iff.mp checks.2,show Owes s [] = False from rfl,or_false] at calm
      exact ⟨⟨ordered,places,strangers_call inv.strangers,fun _ => .inl none⟩,False.elim⟩
    · cases ran
  | exec stray =>
    simp only [step] at ran
    split at ran
    · cases ran
    · next running =>
      have runs : s.scheduling = false := by simpa using running
      split at ran
      · cases ran
      · next i rest code =>
        have calm := inv.calm runs
        have shaped := inv.strangers.shaped s.current
        rw [code] at calm shaped
        have popped : Ordered (s.setPc s.current rest) := ordered_same inv.ordered runs (sameQueue_setPc rest)
        have after : s'.scheduling = false → NoneAbove s' ∨ Owes s' (s'.pc s'.current) := by
          refine calm_exec popped runs (by simp [Sched.setPc]) shaped.1 calm ?_ ran
          rintro l rfl
          exact meets.2 l (by simp [code,released])
        obtain ⟨more,effect⟩ := exec_effect ran
        refine ⟨⟨ordered,places,strangers_exec inv.strangers placed runs code effect,after⟩,?_⟩
        rintro ⟨back,done⟩
        have calm := after back
        rwa [done,show Owes s' [] = False from rfl,or_false] at calm
  | timer garbage =>
    simp only [step] at ran
    split at ran
    · obtain ⟨kernel,pc,-,stays⟩ := timer_spec ran
      have none : s'.scheduling = false → NoneAbove s' := by
        intro back
        obtain ⟨current,early,listed⟩ := stays back
        obtain ⟨none,asleep⟩ := meets.resolve_left (Nat.not_le.mpr early)
        intro t member
        rw [kernel,current]
        rcases listed t member with before | ⟨sleeper,elapsed⟩
        · exact none t before
        · exact asleep t sleeper elapsed
      exact ⟨⟨ordered,places,strangers_same inv.strangers pc kernel,fun back => .inl (none back)⟩,none⟩
    · cases ran
  | schedule =>
    simp only [step] at ran
    split at ran
    · obtain ⟨none,kernel,pc⟩ := noneAbove_schedule inv.ordered ran
      exact ⟨⟨ordered,places,strangers_same inv.strangers pc kernel,fun _ => .inl none⟩,fun _ => none⟩
    · cases ran

theorem inv_boot : Inv boot := by
  refine ⟨ordered_boot,Queues.inv_boot,⟨?_,?_,?_⟩,fun _ => .inl (by decide)⟩
  · intro t _ l
    simp [boot,Synch.boot,Kernel.holder]
  · intro t _ u j member
    by_cases self : u = 1
    · simp only [boot,self,↓reduceIte,List.mem_singleton] at member
      simp [member,donee]
    · simp [boot,self] at member
  · intro u
    by_cases self : u = 1
    · simp [boot,self,Shaped,Follows]
    · simp [boot,self,Shaped]

/-- In every run whose releases and timer interrupts meet `YieldsInTime`: whenever
    control is back in the running thread, no ready thread has a higher priority. -/
theorem none_ready_above_running (reached : Reaches machine YieldsInTime s) (meets : YieldsInTime s e)
    (ran : step s e = some s') (back : ControlBack s' e) :
    ∀ t ∈ s'.ready_list, s'.k.priority t ≤ s'.k.priority s'.current := by
  have inv : Inv s := by
    refine reaches_invariant Inv ?_ ?_ reached
    · intro s initial
      obtain rfl : s = boot := initial
      exact inv_boot
    · intro s e s' inv meets ran
      exact (inv_step inv meets ran).1
  exact (inv_step inv meets ran).2 back

/-- The main thread creates a thread of higher priority, which sleeps for `n` ticks. -/
def sleepsAbove (n : Int) : List Event :=
  [.call (.thread_create 40)] ++ execs 12 ++ [.schedule,.call (.timer_sleep n),.exec 0,.exec 0,.schedule]

/-- The sleep ends with the time slice of the main thread. -/
theorem none_ready_above_sleeper : ∃ s s',
    guardedRun step YieldsInTime boot (sleepsAbove 4 ++ List.replicate 4 (.timer false)) = some s ∧
    step s .schedule = some s' ∧ s'.current = 2 ∧ s'.ready_list = [0] ∧ s'.k.priority 2 = 40 ∧
    ∀ t ∈ s'.ready_list, s'.k.priority t ≤ s'.k.priority s'.current :=
  ⟨_,_,rfl,rfl,rfl,rfl,by decide,none_ready_above_running (e := .schedule)
    (guardedRun_reachable boot step YieldsInTime (sleepsAbove 4 ++ List.replicate 4 (.timer false)) rfl)
    trivial rfl rfl⟩

/-- The sleep ends before the time slice of the main thread does. -/
theorem sleeper_left_waiting : ∃ s s', run step boot (sleepsAbove 1) = some s ∧ Reaches machine Anything s ∧
    step s (.timer false) = some s' ∧ ControlBack s' (.timer false) ∧ s'.current = 0 ∧ s'.pc 0 = [] ∧
    2 ∈ s'.ready_list ∧ s'.k.priority s'.current < s'.k.priority 2 :=
  ⟨_,_,rfl,run_reachable boot step (sleepsAbove 1) rfl,rfl,rfl,rfl,rfl,by decide,by decide⟩

end Pintos.Preemption
