import Pintos.Synch

/-!
The scheduled kernel of project 1: one current thread, `ready_list`, and threads
that are preempted between any two instructions that run with interrupts
enabled. What a thread still has to do in the call it is in is a list of
instructions, `pc`; each instruction is a stretch of the source that runs with
interrupts off, or that reads or writes shared data once. Locks, donation and
restoration are those of `Synch`, here cut into their reads and writes.

The state in which `schedule` is about to call `next_thread_to_run` is marked by
`scheduling`. A step that fails an assertion or follows a null pointer has no
successor. Memory of dead threads is not given to new ones.
-/
namespace Pintos.Scheduler
open Pintos.Lists Pintos.Machines Pintos.Synch

/-- `enum thread_status`. -/
inductive Status
  | running | ready | blocked | dying
deriving DecidableEq

/-- A semaphore: one of its own, or that of a lock. -/
inductive Sema
  | plain (n : Nat)
  | lock (l : LockId)

inductive Instr
  /-- `lock_acquire` and `lock_release`, up to their assertions. -/
  | acquire (l : LockId)
  | release (l : LockId)
  /-- `priority_donation (l)`: its comparisons, then what it does to the holder
      `lh`, one write after the other. -/
  | donate (l : LockId)
  | record (l : LockId) (lh : Tid)
  | raise (lh : Tid)
  | follow (lh : Tid)
  | wait_for (l : LockId)
  | down (s : Sema)
  /-- `sema_down` after `thread_block` has returned: interrupts are still off. -/
  | down_again (s : Sema)
  | hold (l : LockId)
  | unhold (l : LockId)
  | put (priority_restore : Int)
  | up (s : Sema)
  /-- `thread_create`, up to its call of `allocate_tid`. -/
  | init (priority : Int)
  | unblock (t : Tid)
  | yield_below (priority : Int)
  | set_priority (new_priority : Int)
  | yield_to_front (new_priority : Int)
  | yield
  /-- `timer_sleep`: it reads the ticks, and goes to sleep with interrupts off. -/
  | sleep (ticks : Int)
  | sleep_until (waiting_ticks : Int)
  | exit
  /-- The loop of the idle thread. -/
  | idle

structure Sched where
  k : Kernel
  semas : Nat → Semaphore
  current : Tid
  ready_list : List Tid
  status : Tid → Status
  idle_thread : Option Tid
  pc : Tid → List Instr
  waiting_list : List Tid
  waiting_ticks : Tid → Int
  ticks : Int
  thread_ticks : Nat
  scheduling : Bool

def TIME_SLICE : Nat := 4
/-- The lock of `allocate_tid`. -/
def tid_lock : LockId := 0

def Sched.sema (s : Sched) : Sema → Semaphore
  | .plain n => s.semas n
  | .lock l => (s.k.locks l).semaphore
def Sched.setSema (s : Sched) (x : Sema) (v : Semaphore) : Sched :=
  match x with
  | .plain n => { s with semas := fun m => if m = n then v else s.semas m }
  | .lock l => { s with k := s.k.setLock l { s.k.locks l with semaphore := v } }
def Sched.setStatus (s : Sched) (t : Tid) (v : Status) : Sched :=
  { s with status := fun u => if u = t then v else s.status u }
def Sched.setPc (s : Sched) (t : Tid) (code : List Instr) : Sched :=
  { s with pc := fun u => if u = t then code else s.pc u }
/-- Instructions ahead of what the current thread still has to do. -/
def Sched.enter (s : Sched) (code : List Instr) : Sched := s.setPc s.current (code ++ s.pc s.current)
/-- The current thread's own record. -/
def Sched.setOwn (s : Sched) (r : Thread) : Sched := { s with k := s.k.setThread s.current r }

/-- A thread at the end of `ready_list`, which is then sorted. -/
def Sched.push (s : Sched) (t : Tid) : Sched :=
  { s with ready_list := list_sort (sort_by_priority s.k) (s.ready_list ++ [t]) }

/-- A pointer to a thread whose `magic` is in place. -/
def is_thread (s : Sched) (t : Tid) : Prop := t < s.k.count

instance (s : Sched) (t : Tid) : Decidable (is_thread s t) := inferInstanceAs (Decidable (t < s.k.count))

def thread_unblock (s : Sched) (t : Tid) : Option Sched :=
  if is_thread s t ∧ s.status t = .blocked then some ((s.push t).setStatus t .ready) else none

/-- `thread_block`, `thread_yield` and `thread_exit` up to `next_thread_to_run`. -/
def thread_block (s : Sched) : Sched := { s.setStatus s.current .blocked with scheduling := true }
def thread_yield (s : Sched) : Sched :=
  { (if s.idle_thread = some s.current then s else s.push s.current).setStatus s.current .ready with scheduling := true }
def thread_exit (s : Sched) : Sched := { s.setStatus s.current .dying with scheduling := true }

/-- `next_thread_to_run` and the rest of `schedule`. -/
def next_thread_to_run (s : Sched) : Option (Tid × List Tid) :=
  match s.ready_list with
  | [] => s.idle_thread.map (fun t => (t,[]))
  | t :: rest => some (t,rest)
def schedule (s : Sched) : Option Sched := do
  let (next,rest) ← next_thread_to_run s
  if s.status s.current ≠ .running ∧ is_thread s next then
    some { s.setStatus next .running with current := next, ready_list := rest, thread_ticks := 0, scheduling := false }
  else none

/-- The writes of `priority_donation` before that of the priority. -/
def saveOrig (k : Kernel) (lh : Tid) : Kernel :=
  if (k.threads lh).donation_nested_level = 0 then
    k.setThread lh { k.threads lh with orig_priority := k.priority lh }
  else k
def countDonation (k : Kernel) (lh : Tid) : Kernel :=
  k.setThread lh { k.threads lh with donation_nested_level := (k.threads lh).donation_nested_level + 1 }
def listLock (k : Kernel) (owner : Tid) (l : LockId) : Kernel :=
  k.setThread owner { k.threads owner with lock_list := (k.threads owner).lock_list ++ [l] }
/-- The list is reached through `lock->holder`, read again. -/
def record (k : Kernel) (l : LockId) (lh : Tid) : Option Kernel :=
  match k.holder l with
  | none => none
  | some owner =>
    if l ∈ ((saveOrig k lh).threads owner).lock_list then some (saveOrig k lh)
    else if linkedElsewhere (saveOrig k lh) owner l then none
    else some (listLock (countDonation (saveOrig k lh) lh) owner l)

/-- One turn of the loop of `sema_down`. -/
def sema_down (s : Sched) (x : Sema) : Sched :=
  if (s.sema x).value = 0 then
    let waiting := s.setSema x { s.sema x with
      waiters := list_sort (sort_by_priority s.k) ((s.sema x).waiters ++ [s.current]) }
    thread_block (waiting.enter [.down_again x])
  else
    let taken := s.setSema x { s.sema x with value := (s.sema x).value - 1 }
    taken.setOwn { taken.k.threads taken.current with lock_waiting_for := none }

/-- `sema_up`. With no waiters, `wt` is not initialised and `stray` is the
    priority read through it. -/
def sema_up (s : Sched) (x : Sema) (stray : Int) : Option Sched :=
  match list_sort (sort_by_priority s.k) (s.sema x).waiters with
  | [] =>
    let up := s.setSema x { s.sema x with value := (s.sema x).value + 1 }
    some (if stray > up.k.priority up.current then thread_yield up else up)
  | wt :: rest => do
    let woken ← thread_unblock (s.setSema x { s.sema x with waiters := rest }) wt
    let up := woken.setSema x { woken.sema x with value := (woken.sema x).value + 1 }
    pure (if up.k.priority wt > up.k.priority up.current then thread_yield up else up)

/-- The priority of the thread at the front of `ready_list`. -/
def readyFront (s : Sched) (stray : Int) : Int :=
  match s.ready_list with
  | [] => stray
  | t :: _ => s.k.priority t

/-- The current thread runs one instruction, already taken from its `pc`. -/
def exec (s : Sched) (stray : Int) : Instr → Option Sched
  | .acquire l =>
    if s.k.holder l = some s.current then none
    else some (s.enter [.donate l,.wait_for l,.down (.lock l),.hold l])
  | .donate l =>
    match s.k.holder l with
    | none => some s
    | some lh =>
      if s.k.priority lh < s.k.priority s.current ∧ (s.k.threads lh).donation_nested_level < MAX_NESTED_LEVEL then
        some (s.enter [.record l lh,.raise lh,.follow lh])
      else some s
  | .record l lh => (record s.k l lh).map (fun k => { s with k := k })
  | .raise lh => some { s with k := s.k.setThread lh { s.k.threads lh with priority := s.k.priority s.current } }
  | .follow lh =>
    match (s.k.threads lh).lock_waiting_for with
    | none => some s
    | some next => some (s.enter [.donate next])
  | .wait_for l => some (s.setOwn { s.k.threads s.current with lock_waiting_for := some l })
  | .down x => some (sema_down s x)
  | .down_again x => some (sema_down s x)
  | .hold l => some { s with k := s.k.setLock l { s.k.locks l with holder := some s.current } }
  | .release l =>
    if s.k.holder l = some s.current then
      let restoration := priority_restoration s.k s.current l stray
      some ({ s with k := restoration.1 }.enter [.unhold l,.put restoration.2,.up (.lock l)])
    else none
  | .unhold l => some { s with k := s.k.setLock l { s.k.locks l with holder := none } }
  | .put priority_restore => some { s with k := putPriority s.k s.current priority_restore }
  | .up x => sema_up s x stray
  | .init priority =>
    (thread_create s.k priority).map (fun k =>
      ({ s with k := k }.setStatus s.k.count .blocked).enter
        [.acquire tid_lock,.release tid_lock,.unblock s.k.count,.yield_below priority])
  | .unblock t => thread_unblock s t
  | .yield_below priority => some (if s.k.priority s.current < priority then thread_yield s else s)
  | .set_priority new_priority =>
    some ({ s with k := thread_set_priority s.k s.current new_priority }.enter [.yield_to_front new_priority])
  | .yield_to_front new_priority => some (if new_priority < readyFront s stray then thread_yield s else s)
  | .yield => some (thread_yield s)
  | .sleep n => some (s.enter [.sleep_until (s.ticks + n)])
  | .sleep_until waiting_ticks =>
    let wake := fun u => if u = s.current then waiting_ticks else s.waiting_ticks u
    some (thread_block { s with
      waiting_ticks := wake
      waiting_list := list_sort (fun a b => wake a < wake b) (s.waiting_list ++ [s.current]) })
  | .exit => some (thread_exit s)
  | .idle => some (thread_block (s.enter [.idle]))

/-- The loop of `timer_interrupt` over the threads in `waiting_list`. -/
def wakeSleepers (s : Sched) (stray : Bool) : List Tid → Option Sched
  | [] => if stray then none else some { s with waiting_list := [] }
  | t :: rest =>
    if s.waiting_ticks t ≤ s.ticks ∧ s.status t ≠ .ready then do
      let woken ← thread_unblock s t
      wakeSleepers woken stray rest
    else some { s with waiting_list := t :: rest }

/-- `timer_interrupt` and the yield on return that `thread_tick` asks for. With
    an empty `waiting_list` the loop reads its condition, `stray`, from memory
    that holds no thread, and would pop from the empty list. -/
def timer_interrupt (s : Sched) (stray : Bool) : Option Sched := do
  let woken ← wakeSleepers { s with ticks := s.ticks + 1 } stray s.waiting_list
  let ticked := { woken with thread_ticks := woken.thread_ticks + 1 }
  pure (if ticked.thread_ticks ≥ TIME_SLICE then thread_yield ticked else ticked)

/-- What threads call. -/
inductive Call
  | thread_create (priority : Int)
  | thread_yield
  | thread_set_priority (new_priority : Int)
  | lock_acquire (l : LockId)
  | lock_release (l : LockId)
  | sema_down (n : Nat)
  | sema_up (n : Nat)
  | timer_sleep (ticks : Int)
  | thread_exit

/-- The code of a call. Only `allocate_tid` uses `tid_lock`. -/
def code : Call → Instr
  | .thread_create priority => .init priority
  | .thread_yield => .yield
  | .thread_set_priority new_priority => .set_priority new_priority
  | .lock_acquire l => .acquire (l + 1)
  | .lock_release l => .release (l + 1)
  | .sema_down n => .down (.plain n)
  | .sema_up n => .up (.plain n)
  | .timer_sleep ticks => .sleep ticks
  | .thread_exit => .exit

inductive Event
  | call (c : Call)
  /-- The current thread's next instruction. -/
  | exec (stray : Int)
  | timer (stray : Bool)
  | schedule

/-- Whether the current thread runs with interrupts enabled. -/
def interruptible (s : Sched) : Bool :=
  !s.scheduling && (match s.pc s.current with
    | .down_again _ :: _ => false
    | _ => true)

def step (s : Sched) : Event → Option Sched
  | .call c => if s.scheduling = false ∧ (s.pc s.current).isEmpty then some (s.setPc s.current [code c]) else none
  | .exec stray =>
    if s.scheduling then none
    else match s.pc s.current with
      | [] => none
      | i :: rest => exec (s.setPc s.current rest) stray i
  | .timer stray => if interruptible s then timer_interrupt s stray else none
  | .schedule => if s.scheduling then schedule s else none

/-- After `thread_start`: the initial thread runs, the idle thread is blocked. -/
def boot : Sched where
  k := { Synch.boot with count := 2, threads := fun t => if t = 1 then init_thread PRI_MIN else init_thread PRI_DEFAULT }
  semas _ := { value := 0, waiters := [] }
  current := 0
  ready_list := []
  status t := if t = 0 then .running else .blocked
  idle_thread := some 1
  pc t := if t = 1 then [.idle] else []
  waiting_list := []
  waiting_ticks _ := 0
  ticks := 0
  thread_ticks := 0
  scheduling := false

def machine : Machine Sched Event := ofStep boot step

end Pintos.Scheduler
