import Pintos.Lists
import Pintos.Machines

/-!
Locks with priority donation, as in `threads/synch.c` and `threads/thread.c` of
the project-1 kernel. Each call is atomic up to the point where it blocks: a
thread that finds a lock taken is left in the lock's `waiters`, and continues
the loop of `sema_down` once it has been taken out of them. Any thread that is
not blocked may take the next step, whatever the scheduler would choose.

The source reads two priorities through pointers to no thread: the front of an
empty `waiters` in `priority_restoration`, and the uninitialised `wt` of
`sema_up`. The second only decides about a yield; the first is the argument
`stray` of a release.
-/
namespace Pintos.Synch
open Pintos.Lists Pintos.Machines

abbrev Tid := Nat
abbrev LockId := Nat

/-- `struct semaphore`. -/
structure Semaphore where
  value : Nat
  waiters : List Tid
/-- `struct lock`; the member `elem` is the lock's place in a `lock_list`. -/
structure Lock where
  holder : Option Tid
  semaphore : Semaphore
/-- The members of `struct thread` that locks and priorities use. -/
structure Thread where
  priority : Int
  orig_priority : Int
  lock_waiting_for : Option LockId
  lock_list : List LockId
  donation_nested_level : Int

/-- The threads numbered below `count` and all locks. The field `base` is not in
    the source: it keeps the value last given to a thread by `thread_create` or
    `thread_set_priority`. -/

structure Kernel where
  count : Nat
  threads : Tid → Thread
  locks : LockId → Lock
  base : Tid → Int

def PRI_MIN : Int := 0
def PRI_DEFAULT : Int := 31
def PRI_MAX : Int := 63
def MAX_NESTED_LEVEL : Int := 8

def Kernel.setThread (k : Kernel) (t : Tid) (r : Thread) : Kernel :=
  { k with threads := fun u => if u = t then r else k.threads u }
def Kernel.setLock (k : Kernel) (l : LockId) (r : Lock) : Kernel :=
  { k with locks := fun m => if m = l then r else k.locks m }
def Kernel.waiters (k : Kernel) (l : LockId) : List Tid := (k.locks l).semaphore.waiters
def Kernel.value (k : Kernel) (l : LockId) : Nat := (k.locks l).semaphore.value
def Kernel.holder (k : Kernel) (l : LockId) : Option Tid := (k.locks l).holder
def Kernel.priority (k : Kernel) (t : Tid) : Int := (k.threads t).priority

/-- `sort_by_priority`: higher priorities come first. -/
def sort_by_priority (k : Kernel) (a b : Tid) : Bool := k.priority a > k.priority b

/-- Whether the element of a lock is linked into the `lock_list` of a thread
    other than `t`. Linking it again would corrupt both lists. -/
def linkedElsewhere (k : Kernel) (t : Tid) (l : LockId) : Bool :=
  (List.range k.count).any (fun u => u != t && (k.threads u).lock_list.contains l)

/-- The record of a holder that takes a donation of priority `p` through `l`. -/
def donated (h : Thread) (l : LockId) (p : Int) : Thread :=
  let saved := if h.donation_nested_level = 0 then { h with orig_priority := h.priority } else h
  let listed := if l ∈ saved.lock_list then saved
    else { saved with donation_nested_level := saved.donation_nested_level + 1, lock_list := saved.lock_list ++ [l] }
  { listed with priority := p }

/-- One activation of `priority_donation` for the current thread `ct`, with the
    lock of its recursive call. -/
def donateOnce (k : Kernel) (ct : Tid) (l : LockId) : Option (Kernel × Option LockId) :=
  match k.holder l with
  | none => some (k,none)
  | some lh =>
    let h := k.threads lh
    if h.priority < k.priority ct then
      if h.donation_nested_level < MAX_NESTED_LEVEL then
        if l ∉ h.lock_list ∧ linkedElsewhere k lh l then none
        else some (k.setThread lh (donated h l (k.priority ct)),h.lock_waiting_for)
      else some (k,none)
    else some (k,none)

/-- `priority_donation`, with fuel for its recursion. -/
def donate (ct : Tid) : Nat → Kernel → LockId → Option Kernel
  | 0, _, _ => none
  | n + 1, k, l =>
    match donateOnce k ct l with
    | none => none
    | some (k',none) => some k'
    | some (k',some next) => donate ct n k' next

def priority_donation (k : Kernel) (ct : Tid) (l : LockId) : Option Kernel := donate ct (k.count + 1) k l

/-- One turn of the loop of `sema_down` on the semaphore of `l`, with the end of
    `lock_acquire` when the loop ends. -/
def sema_down (k : Kernel) (t : Tid) (l : LockId) : Kernel :=
  if k.value l = 0 then
    k.setLock l { k.locks l with
      semaphore := { value := 0, waiters := list_sort (sort_by_priority k) (k.waiters l ++ [t]) } }
  else
    (k.setThread t { k.threads t with lock_waiting_for := none }).setLock l
      { holder := some t, semaphore := { value := k.value l - 1, waiters := k.waiters l } }

/-- `sema_up` on the semaphore of `l`. -/
def sema_up (k : Kernel) (l : LockId) : Kernel :=
  k.setLock l { k.locks l with
    semaphore := { value := k.value l + 1, waiters := (list_sort (sort_by_priority k) (k.waiters l)).tail } }

def lock_init (k : Kernel) (l : LockId) : Kernel :=
  k.setLock l { holder := none, semaphore := { value := 1, waiters := [] } }

def lock_acquire (k : Kernel) (t : Tid) (l : LockId) : Option Kernel :=
  if k.holder l = some t then none
  else (priority_donation k t l).map (fun k =>
    sema_down (k.setThread t { k.threads t with lock_waiting_for := some l }) t l)

/-- The priority that `priority_restoration` reads at the front of the waiters. -/
def frontPriority (k : Kernel) (l : LockId) (stray : Int) : Int :=
  match k.waiters l with
  | [] => stray
  | w :: _ => k.priority w

/-- The loop of `priority_restoration` over the locks that are left. -/
def highestFront (k : Kernel) : List LockId → Int → Int
  | [], restored => restored
  | cl :: rest, restored =>
    match k.waiters cl with
    | [] => highestFront k rest restored
    | w :: _ => highestFront k rest (if k.priority w > restored then k.priority w else restored)

def priority_restoration (k : Kernel) (ct : Tid) (l : LockId) (stray : Int) : Kernel × Int :=
  let c := k.threads ct
  if c.donation_nested_level = 0 then (k,-1)
  else if l ∉ c.lock_list then (k,-1)
  else
    let level := c.donation_nested_level - 1
    if frontPriority k l stray = c.priority then
      let left := c.lock_list.erase l
      (k.setThread ct { c with donation_nested_level := level, lock_list := left },
        if level = 0 then c.orig_priority else highestFront k left 0)
    else (k.setThread ct { c with donation_nested_level := level },c.priority)

/-- The current thread takes the priority to restore, unless that is negative. -/
def putPriority (k : Kernel) (t : Tid) (priority_restore : Int) : Kernel :=
  if priority_restore ≥ 0 then k.setThread t { k.threads t with priority := priority_restore } else k

def lock_release (k : Kernel) (t : Tid) (l : LockId) (stray : Int) : Option Kernel :=
  if k.holder l ≠ some t then none
  else
    let restoration := priority_restoration k t l stray
    some (sema_up (putPriority (restoration.1.setLock l { restoration.1.locks l with holder := none })
      t restoration.2) l)

/-- What `init_thread` leaves in a new thread. -/
def init_thread (priority : Int) : Thread where
  priority := priority
  orig_priority := priority
  lock_waiting_for := none
  lock_list := []
  donation_nested_level := 0

def thread_create (k : Kernel) (priority : Int) : Option Kernel :=
  if PRI_MIN ≤ priority ∧ priority ≤ PRI_MAX then
    some { k.setThread k.count (init_thread priority) with
      count := k.count + 1, base := fun u => if u = k.count then priority else k.base u }
  else none

def thread_set_priority (k : Kernel) (ct : Tid) (new_priority : Int) : Kernel :=
  let c := k.threads ct
  { k.setThread ct { c with
      priority := if c.donation_nested_level = 0 then new_priority else c.priority
      orig_priority := new_priority } with
    base := fun u => if u = ct then new_priority else k.base u }

inductive Event
  | thread_create (priority : Int)
  | lock_init (l : LockId)
  | lock_acquire (t : Tid) (l : LockId)
  /-- A thread taken out of the waiters goes on in `sema_down`. -/
  | resume (t : Tid) (l : LockId)
  | lock_release (t : Tid) (l : LockId) (stray : Int)
  | thread_set_priority (t : Tid) (new_priority : Int)

/-- A thread that runs its own code, outside `lock_acquire`. -/
def Free (k : Kernel) (t : Tid) : Prop := t < k.count ∧ (k.threads t).lock_waiting_for = none
/-- A thread in `lock_acquire` that has been taken out of the waiters. -/
def Woken (k : Kernel) (t : Tid) (l : LockId) : Prop :=
  t < k.count ∧ (k.threads t).lock_waiting_for = some l ∧ t ∉ k.waiters l
/-- A lock that no thread holds or waits for; only such a lock is initialised. -/
def Unused (k : Kernel) (l : LockId) : Prop :=
  k.holder l = none ∧ k.waiters l = [] ∧ ∀ t < k.count, (k.threads t).lock_waiting_for ≠ some l

instance (k : Kernel) (t : Tid) : Decidable (Free k t) := inferInstanceAs (Decidable (_ ∧ _))
instance (k : Kernel) (t : Tid) (l : LockId) : Decidable (Woken k t l) := inferInstanceAs (Decidable (_ ∧ _ ∧ _))
instance (k : Kernel) (l : LockId) : Decidable (Unused k l) := inferInstanceAs (Decidable (_ ∧ _ ∧ _))

def step (k : Kernel) : Event → Option Kernel
  | .thread_create priority => thread_create k priority
  | .lock_init l => if Unused k l then some (lock_init k l) else none
  | .lock_acquire t l => if Free k t then lock_acquire k t l else none
  | .resume t l => if Woken k t l then some (sema_down k t l) else none
  | .lock_release t l stray => if Free k t then lock_release k t l stray else none
  | .thread_set_priority t new_priority => if Free k t then some (thread_set_priority k t new_priority) else none

/-- After `thread_init`: the initial thread and locks nobody has used. -/
def boot : Kernel where
  count := 1
  threads _ := init_thread PRI_DEFAULT
  locks _ := { holder := none, semaphore := { value := 1, waiters := [] } }
  base _ := PRI_DEFAULT

def machine : Machine Kernel Event := ofStep boot step

end Pintos.Synch
