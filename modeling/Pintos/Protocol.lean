import Mathlib.Data.List.Nodup
import Pintos.Processes

/-!
What creator and child know of each other while the steps of `process_execute`,
`start_process`, `process_wait` and `thread_exit` interleave. All that the two
share about one child is its `View`; what the creator is doing about it is its
`Role`. `Joint` says which views go with which role, and is kept by every step
that is `Orderly`: the windows in which one side would follow a pointer that the
other is about to invalidate are left alone.
-/
namespace Pintos.Protocol
open Pintos.Machines Pintos.Processes

/-! ### Where a thread is -/

/-- In `start_process`, before it signals its creator. -/
def starting : Pc → Bool
  | .load => true
  | .loaded => true
  | .failed_up => true
  | .mark .failed => true
  | .mark_find .failed _ _ => true
  | .mark_status .failed => true
  | .mark_exit_status .failed => true
  | _ => false

/-- In `thread_exit`, with the record still to be marked. -/
def marking : Pc → Bool
  | .mark .exiting => true
  | .mark_find .exiting _ _ => true
  | .mark_status .exiting => true
  | .mark_exit_status .exiting => true
  | _ => false

/-- In `thread_exit` past the record, or gone. -/
def closed : Pc → Bool
  | .exit_children => true
  | .exit_status _ => true
  | .exit_orphan _ => true
  | .exit_remove _ => true
  | .exit_free _ => true
  | .exit_schedule => true
  | .gone => true
  | _ => false

/-- Between the two writes of the record. -/
def finishing : Pc → Bool
  | .mark_exit_status _ => true
  | _ => false

/-- The lookup of the record has not begun. -/
def unmarked : Pc → Bool
  | .load => true
  | .loaded => true
  | .mark _ => true
  | .run _ => true
  | .exit_check => true
  | _ => false

/-- What a creator is doing about a child. -/
inductive Role
  | unrecorded
  | unadopted
  | unlisted
  | sought
  | awaiting (blocked : Bool)
  | checking
  | refusing
  | found
  | waiting (blocked : Bool)
  | collecting
  | unlinked
  | orphaning
  | removing
  | other
deriving DecidableEq

/-- The child that a thread's step is about. -/
def subject : Pc → Option (Tid × Role)
  | .run (.execute_lookup c _) => some (c,.unrecorded)
  | .run (.execute_record c _) => some (c,.unrecorded)
  | .run (.execute_adopt c _) => some (c,.unadopted)
  | .run (.execute_push c) => some (c,.unlisted)
  | .run (.execute_sema c _) => some (c,.sought)
  | .run (.execute_down c _ b) => some (c,.awaiting b)
  | .run (.execute_check c) => some (c,.checking)
  | .run (.wait_check c) => some (c,.found)
  | .run (.wait_record c _ _) => some (c,.waiting false)
  | .run (.wait_down c _ _ b) => some (c,.waiting b)
  | .run (.collect_status .execute c) => some (c,.refusing)
  | .run (.collect_remove .execute c _) => some (c,.refusing)
  | .run (.collect_status .wait c) => some (c,.collecting)
  | .run (.collect_remove .wait c _) => some (c,.collecting)
  | .run (.collect_free _ c _) => some (c,.unlinked)
  | .exit_status e => some (e,.found)
  | .exit_orphan e => some (e,.orphaning)
  | .exit_remove e => some (e,.removing)
  | .exit_free e => some (e,.unlinked)
  | _ => none

def role (pc : Pc) (c : Tid) : Role :=
  match subject pc with
  | some (d,r) => if d = c then r else .other
  | none => .other

/-- `process_execute` has not put the child on its creator's list. -/
def Role.recording : Role → Bool
  | .unrecorded => true
  | .unadopted => true
  | .unlisted => true
  | _ => false

/-- `process_execute` has not passed `sema_down`. -/
def Role.pending : Role → Bool
  | .unrecorded => true
  | .unadopted => true
  | .unlisted => true
  | .sought => true
  | .awaiting _ => true
  | _ => false

/-- At a `sema_down`. -/
def Role.down : Role → Bool
  | .awaiting _ => true
  | .waiting _ => true
  | _ => false
/-- Queued at the child's semaphore. -/
def Role.blocked : Role → Bool
  | .awaiting b => b
  | .waiting b => b
  | _ => false
/-- `process_execute` has not looked at the child's status. -/
def Role.executing (r : Role) : Bool := r.pending || decide (r = .checking)

/-! ### Orderly steps -/

/-- The pointer to a thread that a step of `process_execute` or `process_wait` holds. -/
def held : Pc → Option Page
  | .run (.execute_record _ new) => some new
  | .run (.execute_adopt _ new) => some new
  | .run (.execute_down _ child _) => some child
  | .run (.wait_parent _ child) => some child
  | .run (.wait_record _ child _) => some child
  | .run (.wait_down _ child _ _) => some child
  | _ => none

/-- The thread at which a walk along `all_list` stands. -/
def surveying : Pc → Option Tid
  | .run (.execute_lookup _ (.elem e)) => some e
  | .run (.execute_sema _ (.elem e)) => some e
  | .run (.wait_lookup _ (.elem e)) => some e
  | _ => none

/-- The record at which a child's walk along its parent's list stands. -/
def standing : Pc → Option Tid
  | .mark_find _ _ (.elem e) => some e
  | _ => none
def marks : Pc → Bool
  | .mark _ => true
  | _ => false
def dooms : Pc → Bool
  | .mark_status .exiting => true
  | _ => false
def checks : Pc → Option Tid
  | .run (.execute_check c) => some c
  | _ => none
def reads : Pc → Option Tid
  | .run (.wait_check c) => some c
  | _ => none
def examines : Pc → Option Tid
  | .exit_status e => some e
  | _ => none
def unlinks : Pc → Option Tid
  | .run (.collect_remove _ c _) => some c
  | .exit_remove e => some e
  | _ => none
def enquires : Pc → Option Tid
  | .run (.wait_lookup c .begin) => some c
  | _ => none

section
variable (k : Kernel) (t : Tid)

abbrev creatorRole : Role := role (k.threads (k.threads t).creator).pc t

/-- A child looks up its record only once its creator has listed it. -/
def ListedFirst : Prop := marks (k.threads t).pc = true → (creatorRole k t).recording = false
/-- A loaded child marks its record only once its creator has looked at it. -/
def ReturnedFirst : Prop :=
  dooms (k.threads t).pc = true → (k.threads t).load = some true → (creatorRole k t).executing = false
/-- A creator looks at the record of a child that was not loaded only once the
    child is done with it. -/
def ClosedFirst : Prop :=
  ∀ c ∈ checks (k.threads t).pc, (k.threads c).load = some false → closed (k.threads c).pc = true
/-- `process_wait` and `thread_exit` do not read a record while it is marked. -/
def ReadsWhole : Prop :=
  (∀ c ∈ reads (k.threads t).pc, finishing (k.threads c).pc = false) ∧
    ∀ c ∈ examines (k.threads t).pc, marking (k.threads c).pc = false
/-- A child does not begin to mark its record while its parent makes it an orphan. -/
def NotOrphaned : Prop := (k.threads t).pc = .exit_check → creatorRole k t ≠ .orphaning
/-- No record is unlinked with a child's walk standing at it. -/
def UnlinksClear : Prop := ∀ c ∈ unlinks (k.threads t).pc, ∀ u ∈ k.all_list, standing (k.threads u).pc ≠ some c
/-- No thread leaves with a walk standing at it, or before its creator has found
    its semaphore. -/
def LeavesClear : Prop :=
  (k.threads t).pc = .exit_schedule →
    (∀ u ∈ k.all_list, surveying (k.threads u).pc ≠ some t) ∧ creatorRole k t ≠ .sought
/-- `process_wait` does not go looking for a child that it has collected already
    and that has not left yet. -/

def CollectedGone : Prop :=
  ∀ c ∈ enquires (k.threads t).pc, c ∈ k.all_list → (k.threads c).parent_thread = .page (k.threads t).page →
    c ∈ (k.threads t).child_thread_list

def OrderlyRun : Prop :=
  ListedFirst k t ∧ ReturnedFirst k t ∧ ClosedFirst k t ∧ ReadsWhole k t ∧ NotOrphaned k t ∧ UnlinksClear k t ∧
    LeavesClear k t ∧ CollectedGone k t
end

/-- A page is not used again while a pointer to the thread that was on it is held. -/
def Unheld (k : Kernel) (p : Page) : Prop := ∀ u ∈ k.all_list, held (k.threads u).pc ≠ some p

def Orderly (k : Kernel) : Event → Prop
  | .run t => OrderlyRun k t
  | .process_execute _ p => Unheld k p
  | .reuse p _ => Unheld k p
  | _ => True

instance (k : Kernel) (t : Tid) : Decidable (ListedFirst k t) :=
  inferInstanceAs (Decidable (marks (k.threads t).pc = true → (creatorRole k t).recording = false))
instance (k : Kernel) (t : Tid) : Decidable (ReturnedFirst k t) :=
  inferInstanceAs (Decidable
    (dooms (k.threads t).pc = true → (k.threads t).load = some true → (creatorRole k t).executing = false))
instance (k : Kernel) (t : Tid) : Decidable (ClosedFirst k t) :=
  inferInstanceAs (Decidable
    (∀ c ∈ checks (k.threads t).pc, (k.threads c).load = some false → closed (k.threads c).pc = true))
instance (k : Kernel) (t : Tid) : Decidable (ReadsWhole k t) :=
  inferInstanceAs (Decidable ((∀ c ∈ reads (k.threads t).pc, finishing (k.threads c).pc = false) ∧
    ∀ c ∈ examines (k.threads t).pc, marking (k.threads c).pc = false))
instance (k : Kernel) (t : Tid) : Decidable (NotOrphaned k t) :=
  inferInstanceAs (Decidable ((k.threads t).pc = .exit_check → creatorRole k t ≠ .orphaning))
instance (k : Kernel) (t : Tid) : Decidable (UnlinksClear k t) :=
  inferInstanceAs (Decidable
    (∀ c ∈ unlinks (k.threads t).pc, ∀ u ∈ k.all_list, standing (k.threads u).pc ≠ some c))
instance (k : Kernel) (t : Tid) : Decidable (LeavesClear k t) :=
  inferInstanceAs (Decidable ((k.threads t).pc = .exit_schedule →
    (∀ u ∈ k.all_list, surveying (k.threads u).pc ≠ some t) ∧ creatorRole k t ≠ .sought))
instance (k : Kernel) (t : Tid) : Decidable (CollectedGone k t) :=
  inferInstanceAs (Decidable (∀ c ∈ enquires (k.threads t).pc, c ∈ k.all_list →
    (k.threads c).parent_thread = .page (k.threads t).page → c ∈ (k.threads t).child_thread_list))
instance (k : Kernel) (p : Page) : Decidable (Unheld k p) :=
  inferInstanceAs (Decidable (∀ u ∈ k.all_list, held (k.threads u).pc ≠ some p))
instance (k : Kernel) : ∀ event, Decidable (Orderly k event)
  | .run t => inferInstanceAs (Decidable (ListedFirst k t ∧ ReturnedFirst k t ∧ ClosedFirst k t ∧ ReadsWhole k t ∧
      NotOrphaned k t ∧ UnlinksClear k t ∧ LeavesClear k t ∧ CollectedGone k t))
  | .process_execute _ p => inferInstanceAs (Decidable (Unheld k p))
  | .reuse p _ => inferInstanceAs (Decidable (Unheld k p))
  | .process_execute_fails _ => inferInstanceAs (Decidable True)
  | .load _ _ => inferInstanceAs (Decidable True)
  | .process_wait _ _ => inferInstanceAs (Decidable True)
  | .syscall_exit _ _ => inferInstanceAs (Decidable True)

/-! ### The view of a child -/

structure View where
  live : Prop
  page : Page
  pc : Pc
  load : Option Bool
  parent : Pointer
  exit_status : Int
  exited : Option Int
  sema : Semaphore
  stale : Nat
  record : ChildThread
  creator : Tid
  home : Page
  listed : Prop

def view (k : Kernel) (c : Tid) : View where
  live := c ∈ k.all_list
  page := (k.threads c).page
  pc := (k.threads c).pc
  load := (k.threads c).load
  parent := (k.threads c).parent_thread
  exit_status := (k.threads c).exit_status
  exited := (k.threads c).exited
  sema := (k.threads c).waiting_sema
  stale := k.stale (k.threads c).page
  record := k.child_threads c
  creator := (k.threads c).creator
  home := (k.threads (k.threads c).creator).page
  listed := c ∈ (k.threads (k.threads c).creator).child_thread_list

/-- What a thread's own place says about it. -/
structure Fate (v : View) : Prop where
  loading : v.load = none ↔ v.pc = .load
  loaded : (∃ a, v.pc = .run a) ∨ v.pc = .loaded → v.load = some true
  failed : starting v.pc = true → v.pc ≠ .load → v.pc ≠ .loaded → v.load = some false
  status : v.load = some false → starting v.pc = false → v.exit_status = -1
  exited : v.pc = .exit_check ∨ marking v.pc = true ∨ closed v.pc = true → v.exited = some v.exit_status
  alive : starting v.pc = true ∨ (∃ a, v.pc = .run a) → v.exited = none
  leaves : ¬ v.live → v.pc = .gone

/-- A child that is not listed yet has not looked for its record. -/
structure Early (v : View) : Prop where
  live : v.live
  unlisted : ¬ v.listed
  unmarked : unmarked v.pc = true
  failed : v.load = some false → v.pc = .mark .failed

structure Recorded (v : View) : Prop where
  freed : v.record.freed = false
  page : v.record.t = v.page
/-- A listed record: the child knows its parent, and the record its child's end. -/
structure Kept (v : View) : Prop extends Recorded v where
  listed : v.listed
  parent : v.live → v.parent = .page v.home
  closed : closed v.pc = true → v.record.status = .THREAD_DYING ∧ v.record.exit_status = v.exit_status
  finishing : finishing v.pc = true → v.record.status = .THREAD_DYING
  dying : v.record.status = .THREAD_DYING → Protocol.closed v.pc = true ∨ Protocol.finishing v.pc = true ∨ v.load = some false

/-- A child that will not look for its record any more. -/
def Apart (v : View) : Prop :=
  closed v.pc = true ∨ v.parent = .null ∧ marking v.pc = false ∧ starting v.pc = false
/-- A child that `process_execute` has returned. -/
structure Given (v : View) : Prop extends Kept v where
  load : v.load = some true
  started : starting v.pc = false

def Joint (v : View) : Role → Prop
  | .unrecorded => Early v ∧ v.parent = .garbage
  | .unadopted => Early v ∧ v.parent = .garbage ∧ Recorded v ∧ v.record.status ≠ .THREAD_DYING
  | .unlisted => Early v ∧ v.parent = .page v.home ∧ Recorded v ∧ v.record.status ≠ .THREAD_DYING
  | .sought => Kept v ∧ v.live ∧ (v.record.status = .THREAD_DYING → v.load = some false)
  | .awaiting b =>
    Kept v ∧ (v.record.status = .THREAD_DYING → v.load = some false) ∧ (b = true → starting v.pc = true)
  | .checking => Kept v ∧ (v.record.status = .THREAD_DYING → v.load = some false) ∧ starting v.pc = false
  | .refusing => Kept v ∧ closed v.pc = true ∧ v.load = some false
  | .found => Given v
  | .waiting _ => Given v
  | .collecting => Given v ∧ closed v.pc = true
  | .unlinked => ¬ v.listed ∧ Apart v ∧ v.record.freed = false
  | .orphaning => Given v ∧ closed v.pc = false ∧ marking v.pc = false
  | .removing => v.listed ∧ Recorded v ∧ Apart v
  | .other => Given v ∨ ¬ v.listed ∧ Apart v

/-- The child's semaphore counts the signal that its creator has not taken, and
    queues nobody but its creator. -/
structure Signals (v : View) (r : Role) : Prop where
  starts : starting v.pc = true → r.pending = true
  value : v.live → v.sema.value = if starting v.pc = false ∧ r.pending = true then 1 else 0
  waiters : v.live → v.sema.waiters = if r.blocked = true then [v.creator] else []
  stale : ¬ v.live → r.down = true → 0 < v.stale
  awake : r.blocked = true → v.live

structure Pair (v : View) (r : Role) : Prop where
  fate : Fate v
  joint : Joint v r
  signals : Signals v r

/-! ### The invariant -/

/-- The walk at `e` has not passed `c`. -/
def Ahead (list : List Tid) (c : Tid) : Cursor → Prop
  | .begin => True
  | .elem e => ∃ pre post, list = pre ++ e :: post ∧ c ∉ pre
  | .stop => c ∉ list

/-- Nobody but `c` is on its page. -/
def Sole (k : Kernel) (c : Tid) : Prop := ∀ d ∈ k.all_list, (k.threads d).page = (k.threads c).page → d = c

/-- The caller is on no list of a thread that names it as its parent but its own. -/
def Acknowledged (k : Kernel) (t c : Tid) : Prop :=
  c ∈ k.all_list → (k.threads c).parent_thread = .page (k.threads t).page → c ∈ (k.threads t).child_thread_list

/-- The local variables of a thread. -/
def Local (k : Kernel) (t : Tid) : Pc → Prop
  | .run (.execute_lookup c e) => Ahead k.all_list c e
  | .run (.execute_record c new) => new = (k.threads c).page ∧ Sole k c
  | .run (.execute_adopt c new) => new = (k.threads c).page ∧ Sole k c
  | .run (.execute_sema c e) => Ahead k.all_list c e
  | .run (.execute_down c child _) => child = (k.threads c).page ∧ Sole k c
  | .run (.wait_find c e) => Ahead (k.threads t).child_thread_list c e
  | .run (.wait_lookup c e) => (∀ f, e = .elem f → f ∈ k.all_list) ∧ (e ≠ .begin → Acknowledged k t c)
  | .run (.wait_parent c child) => child = (k.threads c).page ∧ Sole k c ∧ Acknowledged k t c ∧ c < k.next_tid
  | .run (.wait_record c child e) =>
    child = (k.threads c).page ∧ Sole k c ∧ Ahead (k.threads t).child_thread_list c e
  | .run (.wait_down c child found _) => child = (k.threads c).page ∧ Sole k c ∧ found = true
  | .run (.collect_remove .execute _ ret) => ret = -1
  | .run (.collect_remove .wait c ret) => (k.threads c).exited = some ret
  | .run (.collect_free .execute c ret) => (k.threads c).load = some false ∧ ret = -1
  | .run (.collect_free .wait c ret) => (k.threads c).exited = some ret
  | .mark_find _ p e =>
    p = (k.threads (k.threads t).creator).page ∧ Ahead (k.threads (k.threads t).creator).child_thread_list t e
  | .exit_schedule => (k.threads t).child_thread_list = []
  | _ => True

structure Sound (k : Kernel) : Prop where
  ids : ∀ t ∈ k.all_list, 0 < t ∧ t < k.next_tid
  once : k.all_list.Nodup
  pages : ∀ t ∈ k.all_list, Sole k t
  gone : ∀ t, t ∉ k.all_list → (k.threads t).pc = .gone ∧ (k.threads t).child_thread_list = []
  creators : ∀ t, (k.threads t).creator ≠ 0 → 0 < (k.threads t).creator ∧ (k.threads t).creator < t ∧ t < k.next_tid
  listed : ∀ t, ∀ c ∈ (k.threads t).child_thread_list, (k.threads c).creator = t ∧ t ≠ 0
  distinct : ∀ t, (k.threads t).child_thread_list.Nodup
  owns : ∀ t c r, subject (k.threads t).pc = some (c,r) → (k.threads c).creator = t ∧ t ≠ 0
  roots : ∀ t, (k.threads t).creator = 0 → (∃ a, (k.threads t).pc = .run a) ∨ (k.threads t).pc = .idle ∨ (k.threads t).pc = .gone

/-- No two creators wait at one page. -/
def Exclusive (k : Kernel) : Prop :=
  ∀ c d, (creatorRole k c).down = true → (creatorRole k d).down = true →
    (k.threads c).page = (k.threads d).page → c = d

structure Inv (k : Kernel) : Prop where
  sound : Sound k
  pairs : ∀ c, (k.threads c).creator ≠ 0 → Pair (view k c) (creatorRole k c)
  locals : ∀ t, Local k t (k.threads t).pc
  exclusive : Exclusive k
  runs : k.fault = none

/-! ### Basic facts -/

section
variable {k : Kernel} {t c : Tid}

@[simp] theorem setThread_self (k : Kernel) (t : Tid) (v : Thread) : (setThread k t v).threads t = v := by simp [setThread]
theorem setThread_other (v : Thread) (other : c ≠ t) : (setThread k t v).threads c = k.threads c := by
  simp [setThread,other]
theorem setThread_threads (v : Thread) : (setThread k t v).threads c = if c = t then v else k.threads c := rfl
@[simp] theorem setThread_all_list (v : Thread) : (setThread k t v).all_list = k.all_list := rfl
@[simp] theorem setThread_child_threads (v : Thread) : (setThread k t v).child_threads = k.child_threads := rfl
@[simp] theorem setThread_stale (v : Thread) : (setThread k t v).stale = k.stale := rfl
@[simp] theorem setThread_next_tid (v : Thread) : (setThread k t v).next_tid = k.next_tid := rfl
@[simp] theorem setThread_fault (v : Thread) : (setThread k t v).fault = k.fault := rfl
@[simp] theorem setRecord_threads (v : ChildThread) : (setRecord k c v).threads = k.threads := rfl
@[simp] theorem setRecord_all_list (v : ChildThread) : (setRecord k c v).all_list = k.all_list := rfl
@[simp] theorem setRecord_stale (v : ChildThread) : (setRecord k c v).stale = k.stale := rfl
@[simp] theorem setRecord_next_tid (v : ChildThread) : (setRecord k c v).next_tid = k.next_tid := rfl
@[simp] theorem setRecord_fault (v : ChildThread) : (setRecord k c v).fault = k.fault := rfl

theorem occupant_some {p : Page} (found : occupant k p = some c) : c ∈ k.all_list ∧ (k.threads c).page = p := by
  have member := List.mem_of_find?_eq_some found
  have page := List.find?_some found
  exact ⟨member,by simpa using page⟩

theorem occupant_none {p : Page} : occupant k p = none ↔ ∀ d ∈ k.all_list, (k.threads d).page ≠ p := by
  simp [occupant]

theorem occupant_sole (sole : Sole k c) (live : c ∈ k.all_list) : occupant k (k.threads c).page = some c := by
  cases found : occupant k (k.threads c).page with
  | none => exact absurd rfl (occupant_none.mp found c live)
  | some d =>
    obtain ⟨member,page⟩ := occupant_some found
    rw [sole d member page]

theorem occupant_left (sole : Sole k c) (left : c ∉ k.all_list) : occupant k (k.threads c).page = none := by
  rw [occupant_none]
  intro d member page
  exact left (sole d member page ▸ member)

theorem role_subject {pc : Pc} {r : Role} (about : subject pc = some (c,r)) : role pc c = r := by
  simp [role,about]

theorem role_other {pc : Pc} (about : ∀ r, subject pc ≠ some (c,r)) : role pc c = .other := by
  cases named : subject pc with
  | none => simp [role,named]
  | some d =>
    obtain ⟨d,r⟩ := d
    have differ : d ≠ c := by
      rintro rfl
      exact about r named
    simp [role,named,differ]

/-- A creator busy with a child is at the step that its role tells. -/
theorem subject_of_role {pc : Pc} (busy : role pc c ≠ .other) : subject pc = some (c,role pc c) := by
  cases named : subject pc with
  | none => simp [role,named] at busy
  | some d =>
    obtain ⟨d,r⟩ := d
    by_cases same : d = c
    · subst same
      simp [role,named]
    · simp [role,named,same] at busy
end

/-! ### Walks -/

section
variable {list pre post : List Tid} {c d e : Tid}

theorem after_split (fresh : e ∉ pre) : after e (pre ++ e :: post) = post.head? := by
  induction pre with
  | nil => simp [after]
  | cons x rest ih =>
    have differ : x ≠ e := by
      rintro rfl
      exact fresh (by simp)
    simp [after,differ,ih (fun member => fresh (List.mem_cons_of_mem x member))]

theorem ahead_head (list : List Tid) (c : Tid) : Ahead list c (cursorOf list.head?) := by
  cases list with
  | nil => simp [Ahead,cursorOf]
  | cons x rest => exact ⟨[],rest,rfl,by simp⟩

/-- One turn of a walk that is not at `c` yet. -/
theorem ahead_after (once : list.Nodup) (ahead : Ahead list c (.elem e)) (differ : e ≠ c) :
    Ahead list c (cursorOf (after e list)) := by
  obtain ⟨pre,post,rfl,fresh⟩ := ahead
  have apart : e ∉ pre := by
    intro member
    exact (List.nodup_append.mp once).2.2 e member e (by simp) rfl
  rw [after_split apart]
  cases post with
  | nil =>
    show c ∉ pre ++ [e]
    simp [fresh,differ.symm]
  | cons x rest =>
    refine ⟨pre ++ [e],rest,by simp,?_⟩
    simp [fresh,differ.symm]

theorem ahead_mem (ahead : Ahead list c (.elem e)) : e ∈ list := by
  obtain ⟨pre,post,rfl,_⟩ := ahead
  simp

theorem ahead_append {cursor : Cursor} (ahead : Ahead list c cursor) (differ : d ≠ c) :
    Ahead (list ++ [d]) c cursor := by
  cases cursor with
  | begin => exact trivial
  | elem e =>
    obtain ⟨pre,post,rfl,fresh⟩ := ahead
    exact ⟨pre,post ++ [d],by simp,fresh⟩
  | stop =>
    show c ∉ list ++ [d]
    simp only [List.mem_append,List.mem_singleton,not_or]
    exact ⟨ahead,differ.symm⟩

theorem ahead_erase {cursor : Cursor} (ahead : Ahead list c cursor) (clear : cursor ≠ .elem d) :
    Ahead (list.erase d) c cursor := by
  cases cursor with
  | begin => exact trivial
  | elem e =>
    obtain ⟨pre,post,rfl,fresh⟩ := ahead
    have differ : e ≠ d := by
      rintro rfl
      exact clear rfl
    by_cases member : d ∈ pre
    · refine ⟨pre.erase d,post,?_,fun inside => fresh (List.mem_of_mem_erase inside)⟩
      rw [List.erase_append_left _ member]
    · refine ⟨pre,post.erase d,?_,fresh⟩
      rw [List.erase_append_right _ member,List.erase_cons_tail (by simpa using differ)]
  | stop => exact fun member => ahead (List.mem_of_mem_erase member)
end

/-! ### Views that change in their place only -/

/-- All that `Joint` asks of a place, once the child is listed. -/
def place (pc : Pc) : Bool × Bool × Bool × Bool := (starting pc,marking pc,closed pc,finishing pc)

section
variable {v : View} {r : Role} {pc : Pc} {status : Int} {exited : Option Int} {sema : Semaphore} {stale : Nat}

theorem joint_place (joint : Joint v r) (same : place pc = place v.pc)
    (early : Early v → unmarked pc = true ∧ (v.load = some false → pc = .mark .failed))
    (ends : closed v.pc = true → status = v.exit_status) :
    Joint { v with pc := pc, exit_status := status, exited := exited, sema := sema, stale := stale } r := by
  let w := { v with pc := pc, exit_status := status, exited := exited, sema := sema, stale := stale }
  simp only [place,Prod.mk.injEq] at same
  obtain ⟨started,marked,shut,half⟩ := same
  have earlyToo : Early v → Early w := fun h =>
    ⟨h.live,h.unlisted,(early h).1,(early h).2⟩
  have recorded : Recorded v → Recorded w := fun h => ⟨h.freed,h.page⟩
  have kept : Kept v → Kept w := fun h =>
    ⟨recorded h.toRecorded,h.listed,h.parent,
      fun g => ⟨(h.closed (shut.symm.trans g)).1,(h.closed (shut.symm.trans g)).2.trans (ends (shut.symm.trans g)).symm⟩,
      fun g => h.finishing (half.symm.trans g),fun g => (h.dying g).imp (shut.trans ·) (Or.imp_left (half.trans ·))⟩
  have apart : Apart v → Apart w := fun h =>
    h.imp (shut.trans ·) fun ⟨orphan,notMarking,notStarting⟩ => ⟨orphan,marked.trans notMarking,started.trans notStarting⟩
  have given : Given v → Given w := fun h => ⟨kept h.toKept,h.load,started.trans h.started⟩
  cases r with
  | unrecorded => exact ⟨earlyToo joint.1,joint.2⟩
  | unadopted => exact ⟨earlyToo joint.1,joint.2.1,recorded joint.2.2.1,joint.2.2.2⟩
  | unlisted => exact ⟨earlyToo joint.1,joint.2.1,recorded joint.2.2.1,joint.2.2.2⟩
  | sought => exact ⟨kept joint.1,joint.2⟩
  | awaiting b => exact ⟨kept joint.1,joint.2.1,fun h => started.trans (joint.2.2 h)⟩
  | checking => exact ⟨kept joint.1,joint.2.1,started.trans joint.2.2⟩
  | refusing => exact ⟨kept joint.1,shut.trans joint.2.1,joint.2.2⟩
  | found => exact given joint
  | waiting b => exact given joint
  | collecting => exact ⟨given joint.1,shut.trans joint.2⟩
  | unlinked => exact ⟨joint.1,apart joint.2.1,joint.2.2⟩
  | orphaning => exact ⟨given joint.1,shut.trans joint.2.1,marked.trans joint.2.2⟩
  | removing => exact ⟨joint.1,recorded joint.2.1,apart joint.2.2⟩
  | other => exact joint.imp given fun ⟨unlisted,left⟩ => ⟨unlisted,apart left⟩

/-- The semaphore knows of a place only whether it is before the signal. -/
theorem signals_place {load : Option Bool} {parent : Pointer} {status : Int} {record : ChildThread} {listed : Prop}
    (signals : Signals v r) (same : starting pc = starting v.pc) :
    Signals { v with
      pc := pc, load := load, parent := parent, exit_status := status, exited := exited, record := record, listed := listed } r :=
  ⟨fun h => signals.starts (same.symm.trans h),fun live => by rw [signals.value live,same],signals.waiters,signals.stale,
    signals.awake⟩

/-- The creator turns to something else about the child. -/
theorem signals_role {r' : Role} (signals : Signals v r) (pending : r'.pending = r.pending)
    (calm : r'.blocked = r.blocked) (down : r'.down = true → r.down = true ∨ v.live) : Signals v r' where
  starts h := pending.trans (signals.starts h)
  value live := by rw [signals.value live,pending]
  waiters live := by rw [signals.waiters live,calm]
  stale left h := (down h).elim (signals.stale left) fun live => absurd live left
  awake h := signals.awake (calm.symm.trans h)

theorem pair_role {r' : Role} (pair : Pair v r) (joint : Joint v r') (pending : r'.pending = r.pending)
    (calm : r'.blocked = r.blocked) (down : r'.down = true → r.down = true ∨ v.live) : Pair v r' :=
  ⟨pair.fate,joint,signals_role pair.signals pending calm down⟩

/-- Steps inside `process_execute` and `process_wait` change nothing for the
    process's own parent. -/
theorem pair_run {a b : Activity} (pair : Pair v r) (here : v.pc = .run a) : Pair { v with pc := .run b } r where
  fate := by
    have load := pair.fate.loaded (.inl ⟨a,here⟩)
    refine ⟨?_,fun _ => load,?_,?_,?_,?_,?_⟩
    · simp [load]
    · simp [starting]
    · intro lost
      rw [load] at lost
      cases lost
    · simp [marking,closed]
    · exact fun _ => pair.fate.alive (.inr ⟨a,here⟩)
    · intro left
      have gone := pair.fate.leaves left
      rw [here] at gone
      cases gone
  joint := by
    refine joint_place pair.joint (by rw [here]; rfl) (fun _ => ⟨rfl,?_⟩) fun _ => rfl
    intro lost
    rw [pair.fate.loaded (.inl ⟨a,here⟩)] at lost
    cases lost
  signals := signals_place pair.signals (by rw [here]; rfl)

/-- Nor do the steps of `thread_exit` past the record. -/
theorem pair_closed (pair : Pair v r) (here : closed v.pc = true) (stays : closed pc = true)
    (leaves : ¬ v.live → pc = .gone) : Pair { v with pc := pc } r where
  fate := by
    have begun : starting pc = false := by cases pc <;> simp_all [starting,closed]
    refine ⟨?_,?_,?_,?_,?_,?_,leaves⟩
    · constructor
      · intro none
        have loading := pair.fate.loading.mp none
        rw [loading] at here
        cases here
      · intro loading
        change pc = .load at loading
        rw [loading] at stays
        cases stays
    · rintro (⟨a,same⟩ | same) <;> (change pc = _ at same; rw [same] at stays; cases stays)
    · intro h
      change starting pc = true at h
      rw [begun] at h
      cases h
    · intro lost _
      exact pair.fate.status lost (by cases at_ : v.pc <;> simp_all [starting,closed])
    · exact fun _ => pair.fate.exited (.inr (.inr here))
    · rintro (starts | ⟨a,ran⟩)
      · change starting pc = true at starts
        rw [begun] at starts
        cases starts
      · change pc = .run a at ran
        rw [ran] at stays
        cases stays
  joint := by
    refine joint_place pair.joint ?_ ?_ fun _ => rfl
    · have past : ∀ q, closed q = true → place q = (false,false,true,false) := by
        intro q h
        cases q <;> simp_all [place,starting,marking,closed,finishing]
      rw [past pc stays,past v.pc here]
    · intro early
      have unmarked := early.unmarked
      cases at_ : v.pc <;> simp_all [Protocol.unmarked,closed]
  signals := signals_place pair.signals (by
    cases v_pc : v.pc <;> cases pc <;> simp_all [starting,closed])
end

/-! ### Silent steps -/

section
variable {k k' : Kernel} {t c u : Tid} {pc : Pc}

@[simp] theorem setPc_self (k : Kernel) (t : Tid) (pc : Pc) : (setPc k t pc).threads t = { k.threads t with pc := pc } := by
  simp [setPc]
theorem setPc_other (other : c ≠ t) : (setPc k t pc).threads c = k.threads c := by
  simp [setPc,setThread_other _ other]
@[simp] theorem setPc_page : ((setPc k t pc).threads c).page = (k.threads c).page := by
  by_cases same : c = t
  · subst same; simp
  · rw [setPc_other same]
@[simp] theorem setPc_creator : ((setPc k t pc).threads c).creator = (k.threads c).creator := by
  by_cases same : c = t
  · subst same; simp
  · rw [setPc_other same]
@[simp] theorem setPc_list : ((setPc k t pc).threads c).child_thread_list = (k.threads c).child_thread_list := by
  by_cases same : c = t
  · subst same; simp
  · rw [setPc_other same]
@[simp] theorem setPc_parent : ((setPc k t pc).threads c).parent_thread = (k.threads c).parent_thread := by
  by_cases same : c = t
  · subst same; simp
  · rw [setPc_other same]
@[simp] theorem setPc_load : ((setPc k t pc).threads c).load = (k.threads c).load := by
  by_cases same : c = t
  · subst same; simp
  · rw [setPc_other same]
@[simp] theorem setPc_exited : ((setPc k t pc).threads c).exited = (k.threads c).exited := by
  by_cases same : c = t
  · subst same; simp
  · rw [setPc_other same]
@[simp] theorem setPc_all_list : (setPc k t pc).all_list = k.all_list := rfl
@[simp] theorem setPc_next_tid : (setPc k t pc).next_tid = k.next_tid := rfl
@[simp] theorem setPc_fault : (setPc k t pc).fault = k.fault := rfl

@[simp] theorem setPc_exit_status : ((setPc k t pc).threads c).exit_status = (k.threads c).exit_status := by
  by_cases same : c = t
  · subst same; simp
  · rw [setPc_other same]
@[simp] theorem setPc_sema : ((setPc k t pc).threads c).waiting_sema = (k.threads c).waiting_sema := by
  by_cases same : c = t
  · subst same; simp
  · rw [setPc_other same]
@[simp] theorem setPc_stale : (setPc k t pc).stale = k.stale := rfl
@[simp] theorem setPc_child_threads : (setPc k t pc).child_threads = k.child_threads := rfl

theorem view_setPc_self : view (setPc k t pc) t = { view k t with pc := pc } := by
  simp [view]
theorem view_setPc_other (other : c ≠ t) : view (setPc k t pc) c = view k c := by
  simp [view,setPc_other other]

/-- Two kernels that a thread's local variables cannot tell apart. -/
structure Alike (k k' : Kernel) (u : Tid) (pc : Pc) : Prop where
  all_list : k'.all_list = k.all_list
  next_tid : k'.next_tid = k.next_tid
  page : ∀ c, (k'.threads c).page = (k.threads c).page
  creator : ∀ c, (k'.threads c).creator = (k.threads c).creator
  own : (k'.threads u).child_thread_list = (k.threads u).child_thread_list
  walk : ∀ m p e, pc = .mark_find m p e → Ahead (k.threads (k.threads u).creator).child_thread_list u e →
    Ahead (k'.threads (k.threads u).creator).child_thread_list u e
  adopted : ∀ c, (k'.threads c).parent_thread = .page (k.threads u).page →
    (k.threads c).parent_thread = .page (k.threads u).page
  load : ∀ c b, (k.threads c).load = some b → (k'.threads c).load = some b
  exited : ∀ c ret, (k.threads c).exited = some ret → (k'.threads c).exited = some ret

theorem sole_alike (alike : Alike k k' u pc) (sole : Sole k c) : Sole k' c := by
  intro d member page
  rw [alike.all_list] at member
  rw [alike.page,alike.page] at page
  exact sole d member page

theorem acknowledged_alike (alike : Alike k k' u pc) (known : Acknowledged k u c) : Acknowledged k' u c := by
  intro live parent
  rw [alike.all_list] at live
  rw [alike.page] at parent
  rw [alike.own]
  exact known live (alike.adopted c parent)

theorem local_alike (alike : Alike k k' u pc) (locally : Local k u pc) : Local k' u pc := by
  cases pc with
  | run a =>
    cases a with
    | execute_lookup c e => simpa only [Local,alike.all_list] using locally
    | execute_record c new => exact ⟨by rw [alike.page,locally.1],sole_alike alike locally.2⟩
    | execute_adopt c new => exact ⟨by rw [alike.page,locally.1],sole_alike alike locally.2⟩
    | execute_sema c e => simpa only [Local,alike.all_list] using locally
    | execute_down c child b => exact ⟨by rw [alike.page,locally.1],sole_alike alike locally.2⟩
    | wait_find c e => simpa only [Local,alike.own] using locally
    | wait_lookup c e => exact ⟨by rw [alike.all_list]; exact locally.1,fun h => acknowledged_alike alike (locally.2 h)⟩
    | wait_parent c child =>
      exact ⟨by rw [alike.page,locally.1],sole_alike alike locally.2.1,acknowledged_alike alike locally.2.2.1,
        alike.next_tid ▸ locally.2.2.2⟩
    | wait_record c child e =>
      exact ⟨by rw [alike.page,locally.1],sole_alike alike locally.2.1,by rw [alike.own]; exact locally.2.2⟩
    | wait_down c child found b => exact ⟨by rw [alike.page,locally.1],sole_alike alike locally.2.1,locally.2.2⟩
    | collect_remove f c ret =>
      cases f with
      | execute => exact locally
      | wait => exact alike.exited c ret locally
    | collect_free f c ret =>
      cases f with
      | execute => exact ⟨alike.load c false locally.1,locally.2⟩
      | wait => exact alike.exited c ret locally
    | _ => exact trivial
  | mark_find m p e =>
    simp only [Local,alike.page,alike.creator]
    exact ⟨locally.1,alike.walk m p e rfl locally.2⟩
  | exit_schedule => simpa only [Local,alike.own] using locally
  | _ => exact trivial

theorem alike_setPc (u : Tid) (at_ : Pc) : Alike k (setPc k t pc) u at_ := by
  constructor <;> simp

theorem creator_ne (sound : Sound k) (created : (k.threads c).creator ≠ 0) : (k.threads c).creator ≠ c := by
  exact Int.ne_of_lt (sound.creators c created).2.1

theorem sound_setPc (sound : Sound k) (live : t ∈ k.all_list)
    (owns : ∀ c r, subject pc = some (c,r) → (k.threads c).creator = t)
    (roots : (k.threads t).creator = 0 → ∃ a, pc = .run a) : Sound (setPc k t pc) := by
  have positive := (sound.ids t live).1
  refine ⟨sound.ids,sound.once,?_,?_,?_,?_,?_,?_,?_⟩
  · intro u member
    exact sole_alike (alike_setPc u pc) (sound.pages u member)
  · intro u left
    have other : u ≠ t := by
      rintro rfl
      exact left live
    rw [setPc_other other]
    exact sound.gone u left
  · simpa using sound.creators
  · simpa using sound.listed
  · simpa using sound.distinct
  · intro u c r about
    rw [setPc_creator]
    by_cases same : u = t
    · subst same
      rw [setPc_self] at about
      exact ⟨owns c r about,Int.ne_of_gt positive⟩
    · rw [setPc_other same] at about
      exact sound.owns u c r about
  · intro u root
    rw [setPc_creator] at root
    by_cases same : u = t
    · subst same
      rw [setPc_self]
      exact .inl (roots root)
    · rw [setPc_other same]
      exact sound.roots u root

/-- Whoever waits at a page waits for the thread that was there last. -/
theorem sole_of_local (locally : Local k t pc) (down : (role pc c).down = true) : Sole k c := by
  have busy : role pc c ≠ .other := by
    intro other
    rw [other] at down
    cases down
  have about := subject_of_role busy
  generalize role pc c = r at about down
  cases pc with
  | run a =>
    cases a with
    | execute_down d child b => cases about; exact locally.2
    | wait_record d child e => cases about; exact locally.2.1
    | wait_down d child found b => cases about; exact locally.2.1
    | collect_status f d => cases f <;> cases about <;> cases down
    | collect_remove f d ret => cases f <;> cases about <;> cases down
    | _ => cases about <;> cases down
  | _ => cases about <;> cases down

/-- The invariant after a step of `t` to `pc`, from the state without that change. -/
theorem inv_move (sound : Sound k) (live : t ∈ k.all_list) (runs : k.fault = none)
    (others : ∀ c, (k.threads c).creator ≠ 0 → c ≠ t → (k.threads c).creator ≠ t → Pair (view k c) (creatorRole k c))
    (self : (k.threads t).creator ≠ 0 → Pair { view k t with pc := pc } (creatorRole k t))
    (kids : ∀ c, (k.threads c).creator = t → Pair (view k c) (role pc c))
    (locals : ∀ u, u ≠ t → Local k u (k.threads u).pc) (locally : Local k t pc)
    (exclusive : Exclusive k)
    (downs : ∀ c, (k.threads c).creator = t → (role pc c).down = true →
      (creatorRole k c).down = true ∨ c ∈ k.all_list)
    (owns : ∀ c r, subject pc = some (c,r) → (k.threads c).creator = t)
    (roots : (k.threads t).creator = 0 → ∃ a, pc = .run a) : Inv (setPc k t pc) := by
  have local_ : ∀ u, Local k u ((setPc k t pc).threads u).pc := by
    intro u
    by_cases same : u = t
    · subst same
      rw [setPc_self]
      exact locally
    · rw [setPc_other same]
      exact locals u same
  refine ⟨sound_setPc sound live owns roots,?_,fun u => local_alike (alike_setPc u _) (local_ u),?_,runs⟩
  · intro c created
    rw [setPc_creator] at created
    by_cases same : c = t
    · subst same
      have creator : (k.threads c).creator ≠ c := creator_ne sound created
      rw [view_setPc_self,creatorRole,setPc_creator,setPc_other creator]
      exact self created
    · rw [view_setPc_other same,creatorRole,setPc_creator]
      by_cases mine : (k.threads c).creator = t
      · rw [mine,setPc_self]
        exact kids c mine
      · rw [setPc_other mine]
        exact others c created same mine
  · -- A creator that begins to wait does so at the page of a live thread.
    have old : ∀ c, (creatorRole (setPc k t pc) c).down = true → (creatorRole k c).down = true ∨ c ∈ k.all_list := by
      intro c down
      rw [creatorRole,setPc_creator] at down
      by_cases mine : (k.threads c).creator = t
      · rw [mine,setPc_self] at down
        exact downs c mine down
      · rw [setPc_other mine] at down
        exact .inl down
    have sole : ∀ c, (creatorRole (setPc k t pc) c).down = true → Sole k c := by
      intro c down
      rw [creatorRole,setPc_creator] at down
      exact sole_of_local (local_ _) down
    intro c d downC downD page
    rw [setPc_page,setPc_page] at page
    rcases old c downC with oldC | liveC
    · rcases old d downD with oldD | liveD
      · exact exclusive c d oldC oldD page
      · exact (sole c downC d liveD page.symm).symm
    · exact sole d downD c liveC page

/-- A step that changes nothing but its thread's place. -/
theorem inv_setPc (inv : Inv k) (live : t ∈ k.all_list)
    (self : (k.threads t).creator ≠ 0 → Pair { view k t with pc := pc } (creatorRole k t))
    (kids : ∀ c, (k.threads c).creator = t → Pair (view k c) (role pc c))
    (downs : ∀ c, (k.threads c).creator = t → (role pc c).down = true →
      (creatorRole k c).down = true ∨ c ∈ k.all_list)
    (owns : ∀ c r, subject pc = some (c,r) → (k.threads c).creator = t)
    (roots : (k.threads t).creator = 0 → ∃ a, pc = .run a) (locally : Local k t pc) : Inv (setPc k t pc) :=
  inv_move inv.sound live inv.runs (fun c created _ _ => inv.pairs c created) self kids (fun u _ => inv.locals u) locally
    inv.exclusive downs owns roots
end

section
variable {k k' : Kernel} {t c d u : Tid} {pc pc' : Pc}

theorem live_of_pc (sound : Sound k) (here : (k.threads t).pc = pc) (runs : pc ≠ .gone) : t ∈ k.all_list := by
  by_contra left
  exact runs (here.symm.trans (sound.gone t left).1)

/-- The children of a thread that goes from one step about `d` to another. -/
theorem kids_of (inv : Inv k) (here : (k.threads t).pc = pc) (runs : pc ≠ .gone)
    (old : ∀ c r, subject pc = some (c,r) → c = d) (new : ∀ c r, subject pc' = some (c,r) → c = d)
    (change : (k.threads d).creator = t → Pair (view k d) (role pc d) → Pair (view k d) (role pc' d)) :
    ∀ c, (k.threads c).creator = t → Pair (view k c) (role pc' c) := by
  intro c mine
  have positive := (inv.sound.ids t (live_of_pc inv.sound here runs)).1
  have pair := inv.pairs c (mine ▸ Int.ne_of_gt positive)
  rw [creatorRole,mine,here] at pair
  by_cases same : c = d
  · exact same ▸ change (same ▸ mine) (same ▸ pair)
  · rw [role_other fun r about => same (old c r about)] at pair
    rw [role_other fun r about => same (new c r about)]
    exact pair

theorem downs_of (here : (k.threads t).pc = pc) (new : ∀ c r, subject pc' = some (c,r) → c = d)
    (down : (role pc' d).down = true → (role pc d).down = true ∨ d ∈ k.all_list) :
    ∀ c, (k.threads c).creator = t → (role pc' c).down = true → (creatorRole k c).down = true ∨ c ∈ k.all_list := by
  intro c mine waits
  rw [creatorRole,mine,here]
  by_cases same : c = d
  · exact same ▸ down (same ▸ waits)
  · rw [role_other fun r about => same (new c r about)] at waits
    cases waits

/-- A silent step inside `process_execute` or `process_wait`. -/
theorem inv_activity {a b : Activity} (d : Tid) (inv : Inv k) (here : (k.threads t).pc = .run a)
    (old : ∀ c r, subject (.run a) = some (c,r) → c = d) (new : ∀ c r, subject (.run b) = some (c,r) → c = d)
    (change : (k.threads d).creator = t → Pair (view k d) (role (.run a) d) → Pair (view k d) (role (.run b) d))
    (down : (role (.run b) d).down = true → (role (.run a) d).down = true ∨ d ∈ k.all_list)
    (owns : ∀ r, subject (.run b) = some (d,r) → (k.threads d).creator = t)
    (locally : Local k t (.run b)) : Inv (setPc k t (.run b)) := by
  have live := live_of_pc inv.sound here (by simp)
  refine inv_setPc inv live ?_ (kids_of inv here (by simp) old new change) (downs_of here new down) ?_ (fun _ => ⟨b,rfl⟩)
    locally
  · exact fun created => pair_run (inv.pairs t created) here
  · intro c r about
    exact new c r about ▸ owns r (new c r about ▸ about)

theorem self_closed (inv : Inv k) (here : (k.threads t).pc = pc) (runs : pc ≠ .gone) (shut : closed pc = true)
    (stays : closed pc' = true) : (k.threads t).creator ≠ 0 → Pair { view k t with pc := pc' } (creatorRole k t) := by
  intro created
  refine pair_closed (inv.pairs t created) ?_ stays ?_
  · show closed (k.threads t).pc = true
    rw [here,shut]
  · exact fun left => absurd (live_of_pc inv.sound here runs) left

theorem no_root (inv : Inv k) (here : (k.threads t).pc = pc) (runs : pc ≠ .gone) (shut : closed pc = true) :
    (k.threads t).creator ≠ 0 := by
  intro root
  rcases inv.sound.roots t root with ⟨a,same⟩ | same | same
  all_goals
    rw [here] at same
    rw [same] at shut
  · cases shut
  · cases shut
  · exact absurd same runs

/-- A silent step of `thread_exit` past the record. -/
theorem inv_closed (d : Tid) (inv : Inv k) (here : (k.threads t).pc = pc) (runs : pc ≠ .gone) (shut : closed pc = true)
    (stays : closed pc' = true)
    (old : ∀ c r, subject pc = some (c,r) → c = d) (new : ∀ c r, subject pc' = some (c,r) → c = d)
    (change : (k.threads d).creator = t → Pair (view k d) (role pc d) → Pair (view k d) (role pc' d))
    (down : (role pc' d).down = true → (role pc d).down = true ∨ d ∈ k.all_list)
    (owns : ∀ r, subject pc' = some (d,r) → (k.threads d).creator = t)
    (locally : Local k t pc') : Inv (setPc k t pc') := by
  have live := live_of_pc inv.sound here runs
  refine inv_setPc inv live (self_closed inv here runs shut stays) (kids_of inv here runs old new change)
    (downs_of here new down) ?_ (fun root => absurd root (no_root inv here runs shut)) locally
  intro c r about
  exact new c r about ▸ owns r (new c r about ▸ about)

/-- Nothing depends on the members that only results are read from. -/
theorem inv_same (inv : Inv k)
    (threads : ∀ t, k'.threads t =
      { k.threads t with waiting_child := (k'.threads t).waiting_child, children := (k'.threads t).children })
    (all_list : k'.all_list = k.all_list) (records : k'.child_threads = k.child_threads) (stale : k'.stale = k.stale)
    (next_tid : k'.next_tid = k.next_tid) (fault : k'.fault = k.fault) : Inv k' := by
  have page : ∀ t, (k'.threads t).page = (k.threads t).page := fun t => by rw [threads]
  have creator : ∀ t, (k'.threads t).creator = (k.threads t).creator := fun t => by rw [threads]
  have list : ∀ t, (k'.threads t).child_thread_list = (k.threads t).child_thread_list := fun t => by rw [threads]
  have here : ∀ t, (k'.threads t).pc = (k.threads t).pc := fun t => by rw [threads]
  have parent : ∀ t, (k'.threads t).parent_thread = (k.threads t).parent_thread := fun t => by rw [threads]
  have load : ∀ t, (k'.threads t).load = (k.threads t).load := fun t => by rw [threads]
  have exited : ∀ t, (k'.threads t).exited = (k.threads t).exited := fun t => by rw [threads]
  have alike : ∀ u pc, Alike k k' u pc := by
    intro u pc
    exact ⟨all_list,next_tid,page,creator,list u,fun _ _ _ _ h => list _ ▸ h,fun c h => parent c ▸ h,fun c b h => load c ▸ h,
      fun c r h => exited c ▸ h⟩
  have same : ∀ c, view k' c = view k c := by
    intro c
    have status : (k'.threads c).exit_status = (k.threads c).exit_status := by rw [threads]
    have sema : (k'.threads c).waiting_sema = (k.threads c).waiting_sema := by rw [threads]
    simp only [view,page,creator,list,here,parent,load,exited,all_list,records,stale,status,sema]
  refine ⟨⟨?_,?_,?_,?_,?_,?_,?_,?_,?_⟩,?_,?_,?_,fault.trans inv.runs⟩
  · rw [all_list,next_tid]
    exact inv.sound.ids
  · rw [all_list]
    exact inv.sound.once
  · intro t member
    exact sole_alike (alike t .idle) (inv.sound.pages t (all_list ▸ member))
  · intro t left
    rw [here,list]
    exact inv.sound.gone t (all_list ▸ left)
  · simpa only [creator,next_tid] using inv.sound.creators
  · simpa only [creator,list] using inv.sound.listed
  · simpa only [list] using inv.sound.distinct
  · simpa only [creator,here] using inv.sound.owns
  · simpa only [creator,here] using inv.sound.roots
  · intro c created
    rw [creator] at created
    rw [same,creatorRole,creator,here]
    exact inv.pairs c created
  · intro t
    rw [here]
    exact local_alike (alike t _) (inv.locals t)
  · simpa only [Exclusive,creatorRole,creator,here,page] using inv.exclusive
end

/-! ### Steps that change a child from outside -/

/-- `k'` differs from `k` in the record, the parent pointer and the semaphore of `c` at most. -/
structure Touches (k k' : Kernel) (c : Tid) : Prop where
  threads : ∀ u, u ≠ c → k'.threads u = k.threads u
  thread : k'.threads c =
    { k.threads c with parent_thread := (k'.threads c).parent_thread, waiting_sema := (k'.threads c).waiting_sema }
  records : ∀ d, d ≠ c → k'.child_threads d = k.child_threads d
  all_list : k'.all_list = k.all_list
  stale : k'.stale = k.stale
  next_tid : k'.next_tid = k.next_tid
  fault : k'.fault = k.fault

section
variable {k k' : Kernel} {t c d u : Tid} {pc pc' : Pc}

theorem Touches.page (touch : Touches k k' c) (u : Tid) : (k'.threads u).page = (k.threads u).page := by
  by_cases same : u = c
  · rw [same,touch.thread]
  · rw [touch.threads u same]
theorem Touches.creator (touch : Touches k k' c) (u : Tid) : (k'.threads u).creator = (k.threads u).creator := by
  by_cases same : u = c
  · rw [same,touch.thread]
  · rw [touch.threads u same]
theorem Touches.list (touch : Touches k k' c) (u : Tid) :
    (k'.threads u).child_thread_list = (k.threads u).child_thread_list := by
  by_cases same : u = c
  · rw [same,touch.thread]
  · rw [touch.threads u same]

theorem Touches.here (touch : Touches k k' c) (u : Tid) : (k'.threads u).pc = (k.threads u).pc := by
  by_cases same : u = c
  · rw [same,touch.thread]
  · rw [touch.threads u same]
theorem Touches.load (touch : Touches k k' c) (u : Tid) : (k'.threads u).load = (k.threads u).load := by
  by_cases same : u = c
  · rw [same,touch.thread]
  · rw [touch.threads u same]
theorem Touches.exited (touch : Touches k k' c) (u : Tid) : (k'.threads u).exited = (k.threads u).exited := by
  by_cases same : u = c
  · rw [same,touch.thread]
  · rw [touch.threads u same]
theorem Touches.exit_status (touch : Touches k k' c) (u : Tid) : (k'.threads u).exit_status = (k.threads u).exit_status := by
  by_cases same : u = c
  · rw [same,touch.thread]
  · rw [touch.threads u same]

theorem Touches.view_self (touch : Touches k k' c) : view k' c =
    { view k c with
      parent := (k'.threads c).parent_thread, sema := (k'.threads c).waiting_sema, record := k'.child_threads c } := by
  simp only [view,touch.page,touch.creator,touch.list,touch.here,touch.load,touch.exited,touch.exit_status,touch.all_list,
    touch.stale]

theorem Touches.view_other (touch : Touches k k' c) (other : d ≠ c) : view k' d = view k d := by
  simp only [view,touch.page,touch.list,touch.all_list,touch.stale,touch.threads d other,touch.records d other]

theorem Touches.sound (touch : Touches k k' c) (sound : Sound k) : Sound k' := by
  refine ⟨?_,?_,?_,?_,?_,?_,?_,?_,?_⟩
  · rw [touch.all_list,touch.next_tid]
    exact sound.ids
  · rw [touch.all_list]
    exact sound.once
  · intro u member d liveToo page
    rw [touch.all_list] at member liveToo
    rw [touch.page,touch.page] at page
    exact sound.pages u member d liveToo page
  · intro u left
    rw [touch.here,touch.list]
    exact sound.gone u (touch.all_list ▸ left)
  · simpa only [touch.creator,touch.next_tid] using sound.creators
  · simpa only [touch.creator,touch.list] using sound.listed
  · simpa only [touch.list] using sound.distinct
  · simpa only [touch.creator,touch.here] using sound.owns
  · simpa only [touch.creator,touch.here] using sound.roots

theorem Touches.alike (touch : Touches k k' c)
    (adopted : (k'.threads c).parent_thread = .page (k.threads u).page → (k.threads c).parent_thread = .page (k.threads u).page) :
    Alike k k' u pc where
  all_list := touch.all_list
  next_tid := touch.next_tid
  page := touch.page
  creator := touch.creator
  own := touch.list u
  walk _ _ _ _ ahead := touch.list _ ▸ ahead
  adopted d parent := by
    by_cases isChild : d = c
    · subst isChild
      exact adopted parent
    · rw [touch.threads d isChild] at parent
      exact parent
  load d b h := touch.load d ▸ h
  exited d ret h := touch.exited d ▸ h

/-- A step of `t` that changes its child `c`. -/
theorem inv_touch (inv : Inv k) (touch : Touches k k' c) (here : (k.threads t).pc = pc) (runs : pc ≠ .gone)
    (mine : (k.threads c).creator = t)
    (adopted : ∀ u ∈ k.all_list, u ≠ t → (k'.threads c).parent_thread = .page (k.threads u).page →
      (k.threads c).parent_thread = .page (k.threads u).page)
    (old : ∀ d r, subject pc = some (d,r) → d = c) (new : ∀ d r, subject pc' = some (d,r) → d = c)
    (pair : Pair (view k' c) (role pc' c))
    (self : (k.threads t).creator ≠ 0 → Pair { view k t with pc := pc' } (creatorRole k t))
    (down : (role pc' c).down = true → (role pc c).down = true ∨ c ∈ k.all_list)
    (roots : (k.threads t).creator = 0 → ∃ a, pc' = .run a) (locally : Local k' t pc') : Inv (setPc k' t pc') := by
  have live := live_of_pc inv.sound here runs
  have nonzero : t ≠ 0 := Int.ne_of_gt (inv.sound.ids t live).1
  have distinct : t ≠ c := fun same => creator_ne inv.sound (c := c) (mine ▸ nonzero) (mine.trans same)
  have creatorRole_same : ∀ d, creatorRole k' d = creatorRole k d := fun d => by
    rw [creatorRole,touch.creator,touch.here]
  refine inv_move (touch.sound inv.sound) (touch.all_list ▸ live) (touch.fault.trans inv.runs) ?_ ?_ ?_ ?_ locally ?_ ?_ ?_ ?_
  · intro d created _ notMine
    rw [touch.creator] at created notMine
    have other : d ≠ c := by
      rintro rfl
      exact notMine mine
    rw [touch.view_other other,creatorRole_same]
    exact inv.pairs d created
  · intro created
    rw [touch.creator] at created
    rw [touch.view_other distinct,creatorRole_same]
    exact self created
  · intro d isMine
    rw [touch.creator] at isMine
    by_cases same : d = c
    · exact same ▸ pair
    · rw [touch.view_other same,role_other fun r about => same (new d r about)]
      have before := inv.pairs d (isMine ▸ nonzero)
      rw [creatorRole,isMine,here,role_other fun r about => same (old d r about)] at before
      exact before
  · intro u _
    rw [touch.here]
    by_cases alive : u ∈ k.all_list
    · by_cases same : u = t
      · contradiction
      exact local_alike (touch.alike (adopted u alive same)) (inv.locals u)
    · rw [(inv.sound.gone u alive).1]
      exact trivial
  · intro d e downD downE page
    rw [creatorRole_same] at downD downE
    rw [touch.page,touch.page] at page
    exact inv.exclusive d e downD downE page
  · intro d isMine waits
    rw [touch.creator] at isMine
    rw [creatorRole_same,touch.all_list]
    exact downs_of here new down d isMine waits
  · intro d r about
    rw [touch.creator]
    exact new d r about ▸ mine
  · intro root
    rw [touch.creator] at root
    exact roots root

/-- What stands on a page without a thread matters to those who wait there. -/
theorem inv_stale (inv : Inv k) (p : Page) (n : Nat)
    (unused : ∀ c, (creatorRole k c).down = true → (k.threads c).page = p → c ∉ k.all_list → 0 < n) :
    Inv { k with stale := fun q => if q = p then n else k.stale q } := by
  refine ⟨⟨inv.sound.ids,inv.sound.once,inv.sound.pages,inv.sound.gone,inv.sound.creators,inv.sound.listed,
    inv.sound.distinct,inv.sound.owns,inv.sound.roots⟩,?_,?_,inv.exclusive,inv.runs⟩
  · intro c created
    have pair := inv.pairs c created
    refine ⟨⟨pair.fate.loading,pair.fate.loaded,pair.fate.failed,pair.fate.status,pair.fate.exited,pair.fate.alive,
      pair.fate.leaves⟩,?_,
      ⟨pair.signals.starts,pair.signals.value,pair.signals.waiters,?_,pair.signals.awake⟩⟩
    · exact joint_place pair.joint rfl (fun early => ⟨early.unmarked,early.failed⟩) fun _ => rfl
    · intro left down
      show 0 < if (k.threads c).page = p then n else k.stale (k.threads c).page
      split
      · next same => exact unused c down same left
      · exact pair.signals.stale left down
  · intro u
    exact local_alike ⟨rfl,rfl,fun _ => rfl,fun _ => rfl,rfl,
      fun _ _ _ _ h => h,fun _ h => h,fun _ _ h => h,fun _ _ h => h⟩ (inv.locals u)
end

/-! ### Steps that change the thread's own list -/

/-- `k'` differs from `k` in the list of `t`, by the record of `c`, and in that record at most. -/
structure Relists (k k' : Kernel) (t c : Tid) : Prop where
  threads : ∀ u, u ≠ t → k'.threads u = k.threads u
  thread : k'.threads t = { k.threads t with child_thread_list := (k'.threads t).child_thread_list }
  records : ∀ d, d ≠ c → k'.child_threads d = k.child_threads d
  members : ∀ d, d ≠ c → (d ∈ (k'.threads t).child_thread_list ↔ d ∈ (k.threads t).child_thread_list)
  distinct : (k'.threads t).child_thread_list.Nodup
  all_list : k'.all_list = k.all_list
  stale : k'.stale = k.stale
  next_tid : k'.next_tid = k.next_tid
  fault : k'.fault = k.fault

section
variable {k k' : Kernel} {t c d u : Tid} {pc pc' : Pc}

theorem Relists.page (relist : Relists k k' t c) (u : Tid) : (k'.threads u).page = (k.threads u).page := by
  by_cases same : u = t
  · rw [same,relist.thread]
  · rw [relist.threads u same]
theorem Relists.creator (relist : Relists k k' t c) (u : Tid) : (k'.threads u).creator = (k.threads u).creator := by
  by_cases same : u = t
  · rw [same,relist.thread]
  · rw [relist.threads u same]
theorem Relists.here (relist : Relists k k' t c) (u : Tid) : (k'.threads u).pc = (k.threads u).pc := by
  by_cases same : u = t
  · rw [same,relist.thread]
  · rw [relist.threads u same]
theorem Relists.parent (relist : Relists k k' t c) (u : Tid) :
    (k'.threads u).parent_thread = (k.threads u).parent_thread := by
  by_cases same : u = t
  · rw [same,relist.thread]
  · rw [relist.threads u same]

theorem Relists.load (relist : Relists k k' t c) (u : Tid) : (k'.threads u).load = (k.threads u).load := by
  by_cases same : u = t
  · rw [same,relist.thread]
  · rw [relist.threads u same]
theorem Relists.exited (relist : Relists k k' t c) (u : Tid) : (k'.threads u).exited = (k.threads u).exited := by
  by_cases same : u = t
  · rw [same,relist.thread]
  · rw [relist.threads u same]
theorem Relists.exit_status (relist : Relists k k' t c) (u : Tid) :
    (k'.threads u).exit_status = (k.threads u).exit_status := by
  by_cases same : u = t
  · rw [same,relist.thread]
  · rw [relist.threads u same]

theorem Relists.sema (relist : Relists k k' t c) (u : Tid) :
    (k'.threads u).waiting_sema = (k.threads u).waiting_sema := by
  by_cases same : u = t
  · rw [same,relist.thread]
  · rw [relist.threads u same]

theorem Relists.view_self (relist : Relists k k' t c) (mine : (k.threads c).creator = t) : view k' c =
    { view k c with record := k'.child_threads c, listed := c ∈ (k'.threads t).child_thread_list } := by
  simp only [view,relist.page,relist.creator,relist.here,relist.parent,relist.load,relist.exited,relist.exit_status,
    relist.sema,relist.all_list,relist.stale,mine]
theorem Relists.view_other (relist : Relists k k' t c) (other : d ≠ c) : view k' d = view k d := by
  have listed : (d ∈ (k'.threads (k.threads d).creator).child_thread_list) =
      (d ∈ (k.threads (k.threads d).creator).child_thread_list) := by
    by_cases mine : (k.threads d).creator = t
    · rw [mine]
      exact propext (relist.members d other)
    · rw [relist.threads _ mine]
  simp only [view,relist.page,relist.creator,relist.here,relist.parent,relist.load,relist.exited,relist.exit_status,
    relist.sema,relist.all_list,relist.stale,relist.records d other,listed]

theorem Relists.sound (relist : Relists k k' t c) (sound : Sound k) (live : t ∈ k.all_list)
    (mine : (k.threads c).creator = t) : Sound k' := by
  have nonzero : t ≠ 0 := Int.ne_of_gt (sound.ids t live).1
  refine ⟨?_,?_,?_,?_,?_,?_,?_,?_,?_⟩
  · rw [relist.all_list,relist.next_tid]
    exact sound.ids
  · rw [relist.all_list]
    exact sound.once
  · intro u member d liveToo page
    rw [relist.all_list] at member liveToo
    rw [relist.page,relist.page] at page
    exact sound.pages u member d liveToo page
  · intro u left
    have other : u ≠ t := by
      rintro rfl
      exact left (relist.all_list ▸ live)
    rw [relist.threads u other]
    exact sound.gone u (relist.all_list ▸ left)
  · simpa only [relist.creator,relist.next_tid] using sound.creators
  · intro u d listed
    rw [relist.creator]
    by_cases same : u = t
    · subst same
      by_cases isChild : d = c
      · exact ⟨isChild ▸ mine,nonzero⟩
      · exact sound.listed u d ((relist.members d isChild).mp listed)
    · rw [relist.threads u same] at listed
      exact sound.listed u d listed
  · intro u
    by_cases same : u = t
    · exact same ▸ relist.distinct
    · rw [relist.threads u same]
      exact sound.distinct u
  · simpa only [relist.creator,relist.here] using sound.owns
  · simpa only [relist.creator,relist.here] using sound.roots

/-- A step of `t` that links or unlinks the record of its child `c`. -/
theorem inv_relist (inv : Inv k) (relist : Relists k k' t c) (here : (k.threads t).pc = pc) (runs : pc ≠ .gone)
    (mine : (k.threads c).creator = t)
    (old : ∀ d r, subject pc = some (d,r) → d = c) (new : ∀ d r, subject pc' = some (d,r) → d = c)
    (pair : Pair { view k c with record := k'.child_threads c, listed := c ∈ (k'.threads t).child_thread_list } (role pc' c))
    (self : (k.threads t).creator ≠ 0 → Pair { view k t with pc := pc' } (creatorRole k t))
    (down : (role pc' c).down = true → (role pc c).down = true ∨ c ∈ k.all_list)
    (walks : ∀ u ∈ k.all_list, ∀ m p e, (k.threads u).pc = .mark_find m p e →
      Ahead (k.threads t).child_thread_list u e → Ahead (k'.threads t).child_thread_list u e)
    (roots : (k.threads t).creator = 0 → ∃ a, pc' = .run a) (locally : Local k' t pc') : Inv (setPc k' t pc') := by
  have live := live_of_pc inv.sound here runs
  have nonzero : t ≠ 0 := Int.ne_of_gt (inv.sound.ids t live).1
  have distinct : t ≠ c := fun same => creator_ne inv.sound (c := c) (mine ▸ nonzero) (mine.trans same)
  have creatorRole_same : ∀ d, creatorRole k' d = creatorRole k d := fun d => by
    rw [creatorRole,relist.creator,relist.here]
  refine inv_move (relist.sound inv.sound live mine) (relist.all_list ▸ live) (relist.fault.trans inv.runs) ?_ ?_ ?_ ?_ locally
    ?_ ?_ ?_ ?_
  · intro d created _ notMine
    rw [relist.creator] at created notMine
    have other : d ≠ c := by
      rintro rfl
      exact notMine mine
    rw [relist.view_other other,creatorRole_same]
    exact inv.pairs d created
  · intro created
    rw [relist.creator] at created
    rw [relist.view_other distinct,creatorRole_same]
    exact self created
  · intro d isMine
    rw [relist.creator] at isMine
    by_cases same : d = c
    · subst same
      rw [relist.view_self mine]
      exact pair
    · rw [relist.view_other same,role_other fun r about => same (new d r about)]
      have before := inv.pairs d (isMine ▸ nonzero)
      rw [creatorRole,isMine,here,role_other fun r about => same (old d r about)] at before
      exact before
  · intro u other
    rw [relist.here]
    by_cases alive : u ∈ k.all_list
    · refine local_alike ⟨relist.all_list,relist.next_tid,relist.page,relist.creator,by rw [relist.threads u other],?_,
        fun d h => relist.parent d ▸ h,fun d b h => relist.load d ▸ h,fun d ret h => relist.exited d ▸ h⟩ (inv.locals u)
      intro m p e at_ ahead
      by_cases parent : (k.threads u).creator = t
      · rw [parent] at ahead ⊢
        exact walks u alive m p e at_ ahead
      · rw [relist.threads _ parent]
        exact ahead
    · rw [(inv.sound.gone u alive).1]
      exact trivial
  · intro d e downD downE page
    rw [creatorRole_same] at downD downE
    rw [relist.page,relist.page] at page
    exact inv.exclusive d e downD downE page
  · intro d isMine waits
    rw [relist.creator] at isMine
    rw [creatorRole_same,relist.all_list]
    exact downs_of here new down d isMine waits
  · intro d r about
    rw [relist.creator]
    exact new d r about ▸ mine
  · intro root
    rw [relist.creator] at root
    exact roots root
end

end Pintos.Protocol
