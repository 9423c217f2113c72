import Pintos.Machines

/-!
Processes that create, wait for and outlive each other: `process_execute`,
`start_process` and `process_wait` of `userprog/process.c`, `thread_exit` of
`threads/thread.c`, and the `child_thread` records that they share. Interrupts are
enabled throughout, so a step is at most one statement, or one turn of a walk
along a list; `thread_create`, the semaphores and the last lines of `thread_exit`
are atomic. Any thread may take the next step.

A thread is named by its tid and stands on a page. Other threads reach it through
the page's address: when it is gone they find what is on the page by then. A
`child_thread` is named by the tid it was made for, one for each thread that
`process_execute` creates, so a pointer to a freed one is never valid again.

`creator`, `load`, `exited`, `children`, `executes` and `waits` are not in the
source. They record who created a thread, whether its program was loaded, the
status it called `thread_exit` with, the children that a process was given and has
not waited for, and what `process_execute` and `process_wait` returned. The
initial thread does not exit, and neither it nor the idle thread has a creator.
-/
namespace Pintos.Processes
open Pintos.Machines

abbrev Tid := Int
abbrev Page := Nat

inductive ThreadStatus
  | THREAD_RUNNING
  | THREAD_READY
  | THREAD_BLOCKED
  | THREAD_DYING
deriving DecidableEq

/-- The values of `parent_thread`; `init_thread` sets it to -1. -/
inductive Pointer
  | null
  | garbage
  | page (p : Page)
deriving DecidableEq

/-- Where a walk along a list is: before `list_begin`, at an element, or at
    `list_end`. -/
inductive Cursor
  | begin
  | elem (e : Tid)
  | stop
deriving DecidableEq

/-- The two places that mark a record as dying: `start_process` when the program
    does not load, and `thread_exit`. -/
inductive Marking
  | failed
  | exiting
deriving DecidableEq

/-- The two functions that read a record's status and free it. -/
inductive Call
  | execute
  | wait
deriving DecidableEq

/-- A process in its own code, in `process_execute` or in `process_wait`. The local
    variables `tid` and `ct` are the argument `c`. -/
inductive Activity
  | user
  | execute_lookup (c : Tid) (e : Cursor)
  | execute_record (c : Tid) (new : Page)
  | execute_adopt (c : Tid) (new : Page)
  | execute_push (c : Tid)
  | execute_sema (c : Tid) (e : Cursor)
  | execute_down (c : Tid) (child : Page) (blocked : Bool)
  | execute_check (c : Tid)
  | wait_find (c : Tid) (e : Cursor)
  | wait_check (c : Tid)
  | wait_lookup (c : Tid) (e : Cursor)
  | wait_parent (c : Tid) (child : Page)
  | wait_record (c : Tid) (child : Page) (e : Cursor)
  /-- `found` is false when the record pointer came from `NULL`. -/
  | wait_down (c : Tid) (child : Page) (found blocked : Bool)
  | collect_status (f : Call) (c : Tid)
  | collect_remove (f : Call) (c : Tid) (ret : Int)
  | collect_free (f : Call) (c : Tid) (ret : Int)
deriving DecidableEq

inductive Pc
  | idle
  | load
  | loaded
  | failed_up
  | mark (m : Marking)
  | mark_find (m : Marking) (parent : Page) (e : Cursor)
  | mark_status (m : Marking)
  | mark_exit_status (m : Marking)
  | run (a : Activity)
  | exit_check
  | exit_children
  | exit_status (e : Tid)
  | exit_orphan (e : Tid)
  | exit_remove (e : Tid)
  | exit_free (e : Tid)
  | exit_schedule
  | gone
deriving DecidableEq

structure Semaphore where
  value : Nat
  waiters : List Tid
deriving DecidableEq

/-- `struct thread`. -/
structure Thread where
  page : Page
  parent_thread : Pointer
  exit_status : Int
  child_thread_list : List Tid
  waiting_sema : Semaphore
  waiting_child : Tid
  pc : Pc
  creator : Tid
  load : Option Bool
  exited : Option Int
  children : List Tid

/-- `struct child_thread`. An element that was unlinked keeps its `next`. -/
structure ChildThread where
  t : Page
  status : ThreadStatus
  exit_status : Int
  next : Cursor
  freed : Bool

inductive Fault
  | null_record
  | freed_record
  | null_thread
  /-- The pointer is -1, or the page holds no thread. -/
  | no_thread
deriving DecidableEq

/-- A call of `process_execute` that has returned: `recorded` says whether the
    caller's list has a record of the child. -/
structure Executed where
  caller : Tid
  child : Tid
  load : Option Bool
  ret : Int
  recorded : Bool
deriving DecidableEq
/-- A call of `process_wait` that has returned: `direct` says whether the child was
    the caller's and not yet waited for. -/

structure Waited where
  caller : Tid
  child : Tid
  direct : Bool
  exited : Option Int
  ret : Int
deriving DecidableEq

structure Kernel where
  threads : Tid → Thread
  all_list : List Tid
  child_threads : Tid → ChildThread
  /-- What stands in place of the semaphore's value on a page without a thread. -/
  stale : Page → Nat
  next_tid : Tid
  /-- The thread that stopped the kernel. -/
  fault : Option (Tid × Fault)
  executes : List Executed
  waits : List Waited

inductive Event
  /-- As far as `thread_create`, which puts the new thread on the page. -/
  | process_execute (t : Tid) (page : Page)
  /-- No page for the command line or the thread: `TID_ERROR` at once. -/
  | process_execute_fails (t : Tid)
  | load (t : Tid) (success : Bool)
  | process_wait (t : Tid) (c : Tid)
  | syscall_exit (t : Tid) (status : Int)
  | run (t : Tid)
  /-- The kernel puts something else on a page without a thread. -/
  | reuse (page : Page) (value : Nat)
deriving DecidableEq

/-! ### State -/

def setThread (k : Kernel) (t : Tid) (v : Thread) : Kernel :=
  { k with threads := fun u => if u = t then v else k.threads u }
def setPc (k : Kernel) (t : Tid) (pc : Pc) : Kernel := setThread k t { k.threads t with pc := pc }
def setRecord (k : Kernel) (c : Tid) (v : ChildThread) : Kernel :=
  { k with child_threads := fun d => if d = c then v else k.child_threads d }
def crash (k : Kernel) (t : Tid) (f : Fault) : Kernel := { k with fault := some (t,f) }

/-- The thread on a page. -/
def occupant (k : Kernel) (p : Page) : Option Tid := k.all_list.find? fun t => (k.threads t).page = p

/-! ### Lists -/

def cursorOf : Option Tid → Cursor
  | none => .stop
  | some e => .elem e

/-- The element after `e`. -/
def after (e : Tid) : List Tid → Option Tid
  | [] => none
  | x :: rest => if x = e then rest.head? else after e rest

/-- `list_next` of a record, which is linked in its creator's list or left over. -/
def list_next (k : Kernel) (e : Tid) : Cursor :=
  if e ∈ (k.threads (k.threads e).creator).child_thread_list then
    cursorOf (after e (k.threads (k.threads e).creator).child_thread_list)
  else (k.child_threads e).next

inductive Walk
  | go (e : Cursor)
  | found
  | missing
  /-- The element's memory was freed. -/
  | lost

def get_thread_by_tid (k : Kernel) (c : Tid) : Cursor → Walk
  | .begin => .go (cursorOf k.all_list.head?)
  | .elem e => if e ∉ k.all_list then .lost else if e = c then .found else .go (cursorOf (after e k.all_list))
  | .stop => .missing

def find_child_by_tid (k : Kernel) (list : List Tid) (c : Tid) : Cursor → Walk
  | .begin => .go (cursorOf list.head?)
  | .elem e => if (k.child_threads e).freed then .lost else if e = c then .found else .go (list_next k e)
  | .stop => .missing

/-- `list_remove` of the record of `c` from the list of `t`. -/
def list_remove (k : Kernel) (t c : Tid) : Kernel :=
  setThread (setRecord k c { k.child_threads c with next := list_next k c }) t
    { k.threads t with child_thread_list := (k.threads t).child_thread_list.erase c }

def free (k : Kernel) (c : Tid) : Kernel := setRecord k c { k.child_threads c with freed := true }

/-! ### Semaphores -/

def wake : Pc → Pc
  | .run (.execute_down c p _) => .run (.execute_down c p false)
  | .run (.wait_down c p found _) => .run (.wait_down c p found false)
  | pc => pc

def blocked : Pc → Bool
  | .run (.execute_down _ _ b) => b
  | .run (.wait_down _ _ _ b) => b
  | _ => false

/-- `sema_up` of the thread's own semaphore. -/
def sema_up (k : Kernel) (t : Tid) : Kernel :=
  let sema := (k.threads t).waiting_sema
  let up := setThread k t
    { k.threads t with waiting_sema := { value := sema.value + 1, waiters := sema.waiters.tail } }
  match sema.waiters with
  | [] => up
  | w :: _ => setPc up w (wake (up.threads w).pc)

/-- The value that `sema_down` finds on a page. -/
def semaValue (k : Kernel) (p : Page) : Nat :=
  match occupant k p with
  | some d => (k.threads d).waiting_sema.value
  | none => k.stale p

/-- The decrement that ends `sema_down`. -/
def semaTake (k : Kernel) (p : Page) : Kernel :=
  match occupant k p with
  | some d =>
    let sema := (k.threads d).waiting_sema
    setThread k d { k.threads d with waiting_sema := { sema with value := sema.value - 1 } }
  | none => { k with stale := fun q => if q = p then k.stale p - 1 else k.stale q }

/-- The waiting in `sema_down`. -/
def semaQueue (k : Kernel) (t : Tid) (p : Page) : Kernel :=
  match occupant k p with
  | some d =>
    let sema := (k.threads d).waiting_sema
    setThread k d { k.threads d with waiting_sema := { sema with waiters := sema.waiters ++ [t] } }
  | none => crash k t .no_thread

/-! ### Steps -/

def thread_status (k : Kernel) (t : Tid) : ThreadStatus :=
  if blocked (k.threads t).pc then .THREAD_BLOCKED else .THREAD_READY

/-- The record of a new child, before it is listed. -/
def newRecord (new : Page) (status : ThreadStatus) : ChildThread where
  t := new
  status := status
  exit_status := 0
  next := .stop
  freed := false

def executed (k : Kernel) (t c : Tid) (ret : Int) : Executed where
  caller := t
  child := c
  load := (k.threads c).load
  ret := ret
  recorded := decide (c ∈ (k.threads t).child_thread_list)

def waited (k : Kernel) (t c : Tid) (ret : Int) : Waited where
  caller := t
  child := c
  direct := decide (c ∈ (k.threads t).children)
  exited := (k.threads c).exited
  ret := ret

def execute_returns (k : Kernel) (t c : Tid) (ret : Int) : Kernel :=
  { setPc k t (.run .user) with executes := k.executes ++ [executed k t c ret] }

def wait_returns (k : Kernel) (t c : Tid) (ret : Int) : Kernel :=
  { setThread k t { k.threads t with pc := .run .user, children := (k.threads t).children.erase c } with
    waits := k.waits ++ [waited k t c ret] }

def returns (k : Kernel) (t c : Tid) (ret : Int) : Call → Kernel
  | .execute => execute_returns k t c ret
  | .wait => wait_returns k t c ret

/-- The rest of `process_execute` and `process_wait`. -/
def activityStep (k : Kernel) (t : Tid) : Activity → Option Kernel
  | .user => none
  | .execute_lookup c e =>
    match get_thread_by_tid k c e with
    | .go e => some (setPc k t (.run (.execute_lookup c e)))
    | .found => some (setPc k t (.run (.execute_record c (k.threads c).page)))
    | .missing => some (crash k t .null_thread)
    | .lost => some (crash k t .no_thread)
  | .execute_record c new =>
    match occupant k new with
    | some d => some (setPc (setRecord k c (newRecord new (thread_status k d))) t (.run (.execute_adopt c new)))
    | none => some (crash k t .no_thread)
  | .execute_adopt c new =>
    match occupant k new with
    | some d => some (setPc (setThread k d { k.threads d with parent_thread := .page (k.threads t).page }) t
        (.run (.execute_push c)))
    | none => some (crash k t .no_thread)
  | .execute_push c =>
    some (setThread k t { k.threads t with
      child_thread_list := (k.threads t).child_thread_list ++ [c], pc := .run (.execute_sema c .begin) })
  | .execute_sema c e =>
    match get_thread_by_tid k c e with
    | .go e => some (setPc k t (.run (.execute_sema c e)))
    | .found => some (setPc k t (.run (.execute_down c (k.threads c).page false)))
    | .missing => some (crash k t .null_thread)
    | .lost => some (crash k t .no_thread)
  | .execute_down c child false =>
    if semaValue k child = 0 then some (setPc (semaQueue k t child) t (.run (.execute_down c child true)))
    else some (setPc (semaTake k child) t (.run (.execute_check c)))
  | .execute_down _ _ true => none
  | .execute_check c =>
    if (k.child_threads c).freed then some (crash k t .freed_record)
    else if (k.child_threads c).status = .THREAD_DYING then some (setPc k t (.run (.collect_status .execute c)))
    else
      let k := setThread k t { k.threads t with children := (k.threads t).children ++ [c] }
      some (execute_returns k t c c)
  | .wait_find c e =>
    match find_child_by_tid k (k.threads t).child_thread_list c e with
    | .go e => some (setPc k t (.run (.wait_find c e)))
    | .found => some (setPc k t (.run (.wait_check c)))
    | .missing => some (setPc k t (.run (.wait_lookup c .begin)))
    | .lost => some (crash k t .freed_record)
  | .wait_check c =>
    if (k.child_threads c).freed then some (crash k t .freed_record)
    else if (k.child_threads c).status = .THREAD_DYING then some (setPc k t (.run (.collect_status .wait c)))
    else some (setPc k t (.run (.wait_lookup c .begin)))
  | .wait_lookup c e =>
    match get_thread_by_tid k c e with
    | .go e => some (setPc k t (.run (.wait_lookup c e)))
    | .found => some (setPc k t (.run (.wait_parent c (k.threads c).page)))
    | .missing => some (wait_returns k t c (-1))
    | .lost => some (crash k t .no_thread)
  | .wait_parent c child =>
    match occupant k child with
    | some d =>
      if (k.threads d).parent_thread = .page (k.threads t).page then
        some (setPc k t (.run (.wait_record c child .begin)))
      else some (wait_returns k t c (-1))
    | none => some (wait_returns k t c (-1))
  | .wait_record c child e =>
    let k' := setThread k t { k.threads t with waiting_child := c }
    match find_child_by_tid k (k.threads t).child_thread_list c e with
    | .go e => some (setPc k t (.run (.wait_record c child e)))
    | .found => some (setPc k' t (.run (.wait_down c child true false)))
    | .missing => some (setPc k' t (.run (.wait_down c child false false)))
    | .lost => some (crash k t .freed_record)
  | .wait_down c child found false =>
    if semaValue k child = 0 then some (setPc (semaQueue k t child) t (.run (.wait_down c child found true)))
    else
      let k := semaTake k child
      let k := setThread k t { k.threads t with waiting_child := 0 }
      if found then some (setPc k t (.run (.collect_status .wait c))) else some (crash k t .null_record)
  | .wait_down _ _ _ true => none
  | .collect_status f c =>
    if (k.child_threads c).freed then some (crash k t .freed_record)
    else some (setPc k t (.run (.collect_remove f c (k.child_threads c).exit_status)))
  | .collect_remove f c ret =>
    if (k.child_threads c).freed then some (crash k t .freed_record)
    else some (setPc (list_remove k t c) t (.run (.collect_free f c ret)))
  | .collect_free f c ret =>
    if (k.child_threads c).freed then some (crash k t .freed_record)
    else some (returns (free k c) t c ret f)

/-- The word that `palloc_free_page` leaves in place of the semaphore's value. -/
def POISON : Nat := 0xcccccccc

def pcStep (k : Kernel) (t : Tid) : Pc → Option Kernel
  | .run a => activityStep k t a
  | .loaded => some (setPc (sema_up k t) t (.run .user))
  | .mark m =>
    match (k.threads t).parent_thread with
    | .page p => some (setPc k t (.mark_find m p .begin))
    | .null => some (crash k t .null_thread)
    | .garbage => some (crash k t .no_thread)
  | .mark_find m p e =>
    match occupant k p with
    | some q =>
      match find_child_by_tid k (k.threads q).child_thread_list t e with
      | .go e => some (setPc k t (.mark_find m p e))
      | .found => some (setPc k t (.mark_status m))
      | .missing => some (crash k t .null_record)
      | .lost => some (crash k t .freed_record)
    | none => some (crash k t .no_thread)
  | .mark_status m =>
    if (k.child_threads t).freed then some (crash k t .freed_record)
    else some (setPc (setRecord k t { k.child_threads t with status := .THREAD_DYING }) t (.mark_exit_status m))
  | .mark_exit_status .failed =>
    if (k.child_threads t).freed then some (crash k t .freed_record)
    else some (setPc (setRecord k t { k.child_threads t with exit_status := -1 }) t .failed_up)
  | .mark_exit_status .exiting =>
    if (k.child_threads t).freed then some (crash k t .freed_record)
    else some (setPc (setRecord k t { k.child_threads t with exit_status := (k.threads t).exit_status }) t .exit_children)
  | .failed_up =>
    let k := sema_up k t
    some (setThread k t { k.threads t with exit_status := -1, exited := some (-1), pc := .exit_check })
  | .exit_check =>
    if (k.threads t).parent_thread = .null then some (setPc k t .exit_children)
    else some (setPc k t (.mark .exiting))
  | .exit_children =>
    match (k.threads t).child_thread_list with
    | [] => some (setPc k t .exit_schedule)
    | e :: _ => some (setPc k t (.exit_status e))
  | .exit_status e =>
    if (k.child_threads e).freed then some (crash k t .freed_record)
    else if (k.child_threads e).status = .THREAD_DYING then some (setPc k t (.exit_remove e))
    else some (setPc k t (.exit_orphan e))
  | .exit_orphan e =>
    match occupant k (k.child_threads e).t with
    | some d => some (setPc (setThread k d { k.threads d with parent_thread := .null }) t (.exit_remove e))
    | none => some (setPc k t (.exit_remove e))
  | .exit_remove e =>
    if (k.child_threads e).freed then some (crash k t .freed_record)
    else some (setPc (list_remove k t e) t (.exit_free e))
  | .exit_free e =>
    if (k.child_threads e).freed then some (crash k t .freed_record) else some (setPc (free k e) t .exit_children)
  | .exit_schedule =>
    let k' := setPc (sema_up k t) t .gone
    some { k' with
      all_list := k.all_list.erase t
      stale := fun p => if p = (k.threads t).page then POISON else k.stale p }
  | .idle | .load | .gone => none

/-- `thread_create` of `start_process`, on a page. -/
def newThread (creator : Tid) (page : Page) : Thread where
  page := page
  parent_thread := .garbage
  exit_status := 0
  child_thread_list := []
  waiting_sema := { value := 0, waiters := [] }
  waiting_child := 0
  pc := .load
  creator := creator
  load := none
  exited := none
  children := []

def process_execute (k : Kernel) (t : Tid) (page : Page) : Kernel :=
  let k' := setThread k k.next_tid (newThread t page)
  setPc { k' with all_list := k.all_list ++ [k.next_tid], next_tid := k.next_tid + 1 } t
    (.run (.execute_lookup k.next_tid .begin))

def process_wait (k : Kernel) (t c : Tid) : Kernel :=
  if (k.threads t).waiting_child = c then wait_returns k t c (-1) else setPc k t (.run (.wait_find c .begin))

def syscall_exit (k : Kernel) (t : Tid) (status : Int) : Kernel :=
  setThread k t { k.threads t with exit_status := status, exited := some status, pc := .exit_check }

def step (k : Kernel) (e : Event) : Option Kernel :=
  if k.fault ≠ none then none
  else
    match e with
    | .process_execute t page =>
      if (k.threads t).pc = .run .user ∧ occupant k page = none then some (process_execute k t page) else none
    | .process_execute_fails t => if (k.threads t).pc = .run .user then some k else none
    | .load t success =>
      if (k.threads t).pc = .load then
        some (setThread k t { k.threads t with
          load := some success, pc := if success then .loaded else .mark .failed })
      else none
    | .process_wait t c => if (k.threads t).pc = .run .user then some (process_wait k t c) else none
    | .syscall_exit t status =>
      if (k.threads t).pc = .run .user ∧ (k.threads t).creator ≠ 0 then some (syscall_exit k t status) else none
    | .run t => pcStep k t (k.threads t).pc
    | .reuse page value =>
      if occupant k page = none then some { k with stale := fun p => if p = page then value else k.stale p } else none

/-- What an event does where it may happen. -/
inductive Taken (k : Kernel) : Event → Kernel → Prop
  | process_execute {t : Tid} {page : Page} (here : (k.threads t).pc = .run .user) (vacant : occupant k page = none) :
      Taken k (.process_execute t page) (process_execute k t page)
  | process_execute_fails {t : Tid} (here : (k.threads t).pc = .run .user) : Taken k (.process_execute_fails t) k
  | load {t : Tid} {success : Bool} (here : (k.threads t).pc = .load) :
      Taken k (.load t success) (setThread k t { k.threads t with
        load := some success, pc := if success then .loaded else .mark .failed })
  | process_wait {t c : Tid} (here : (k.threads t).pc = .run .user) : Taken k (.process_wait t c) (process_wait k t c)
  | syscall_exit {t : Tid} {status : Int} (here : (k.threads t).pc = .run .user) (created : (k.threads t).creator ≠ 0) :
      Taken k (.syscall_exit t status) (syscall_exit k t status)
  | run {t : Tid} {k' : Kernel} (step : pcStep k t (k.threads t).pc = some k') : Taken k (.run t) k'
  | reuse {page : Page} {value : Nat} (vacant : occupant k page = none) :
      Taken k (.reuse page value) { k with stale := fun p => if p = page then value else k.stale p }

theorem taken_of_step {k k' : Kernel} {event : Event} (taken : step k event = some k') :
    k.fault = none ∧ Taken k event k' := by
  unfold step at taken
  split at taken
  · cases taken
  · next runs =>
    refine ⟨Decidable.not_not.mp runs,?_⟩
    cases event with
    | process_execute t page =>
      simp only [Option.ite_none_right_eq_some,Option.some.injEq] at taken
      obtain ⟨⟨here,vacant⟩,rfl⟩ := taken
      exact .process_execute here vacant
    | process_execute_fails t =>
      simp only [Option.ite_none_right_eq_some,Option.some.injEq] at taken
      obtain ⟨here,rfl⟩ := taken
      exact .process_execute_fails here
    | load t success =>
      simp only [Option.ite_none_right_eq_some,Option.some.injEq] at taken
      obtain ⟨here,rfl⟩ := taken
      exact .load here
    | process_wait t c =>
      simp only [Option.ite_none_right_eq_some,Option.some.injEq] at taken
      obtain ⟨here,rfl⟩ := taken
      exact .process_wait here
    | syscall_exit t status =>
      simp only [Option.ite_none_right_eq_some,Option.some.injEq] at taken
      obtain ⟨⟨here,created⟩,rfl⟩ := taken
      exact .syscall_exit here created
    | run t => exact .run taken
    | reuse page value =>
      simp only [Option.ite_none_right_eq_some,Option.some.injEq] at taken
      obtain ⟨vacant,rfl⟩ := taken
      exact .reuse vacant

/-- The initial thread, 1, and the idle thread, 2. -/
def boot : Kernel where
  threads t := { newThread 0 t.toNat with pc := if t = 1 then .run .user else if t = 2 then .idle else .gone }
  all_list := [1,2]
  child_threads _ := { t := 0, status := .THREAD_RUNNING, exit_status := 0, next := .stop, freed := true }
  stale _ := 0
  next_tid := 3
  fault := none
  executes := []
  waits := []

def machine : Machine Kernel Event := ofStep boot step

end Pintos.Processes
