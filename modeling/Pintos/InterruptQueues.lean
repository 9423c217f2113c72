import Pintos.Machines
import Pintos.Bitmaps
import Mathlib.Logic.Function.Basic

/-!
The queue of `devices/intq.c` between threads that call `intq_getc` and an interrupt
handler that calls `intq_putc`. Interrupts are off in both, so a step is what a thread
does up to the point where it blocks or returns: from its call on, from the return of
`thread_block` in `sema_down` on, or from its return in `wait` on. Between the steps
any ready thread may run and any interrupt may come.

The handler gives a byte only when the queue has room, as `keyboard_interrupt` and
`receive_interrupt` do; no thread puts bytes. A thread blocks with interrupts off and
`schedule` returns with them off, so that the tests of the interrupt level do not fail;
those of the context do not either, as the handler reaches no loop body and no `wait`.
-/
namespace Pintos.InterruptQueues
open Pintos.Machines
open Pintos.Bitmaps (Byte)
set_option linter.unusedSimpArgs false

abbrev Tid := Nat

def INTQ_BUFSIZE : Nat := 64

structure Lock where
  holder : Option Tid
  /-- The semaphore. -/
  value : Nat
  waiters : List Tid

/-- `struct intq`. -/
structure Intq where
  lock : Lock
  not_full : Option Tid
  not_empty : Option Tid
  buf : Nat → Byte
  head : Nat
  tail : Nat

/-- Where a thread is. -/
inductive Place
  | outside
  /-- In `sema_down` of the lock. -/
  | acquiring
  /-- In `wait`. -/
  | waiting
deriving DecidableEq
structure System where
  q : Intq
  place : Tid → Place
  /-- `THREAD_BLOCKED`. -/
  blocked : Tid → Bool
  /-- What the last `intq_getc` of a thread returned. -/
  byte : Tid → Option Byte

inductive Assertion
  | wait_condition | signal_condition | lock_acquire_held | lock_release_held | thread_unblock_status
deriving DecidableEq
inductive Fault
  | assertion (a : Assertion)
  /-- Not a step of the system. -/
  | impossible
deriving DecidableEq

def next (pos : Nat) : Nat := (pos + 1) % INTQ_BUFSIZE
def intq_empty (q : Intq) : Bool := q.head == q.tail
def intq_full (q : Intq) : Bool := next q.head == q.tail

def intq_init (q : Intq) : Intq :=
  { q with lock := { holder := none, value := 1, waiters := [] }, not_full := none, not_empty := none, head := 0, tail := 0 }

def thread_unblock (s : System) (t : Tid) : Except Fault System :=
  if s.blocked t then .ok { s with blocked := Function.update s.blocked t false } else .error (.assertion .thread_unblock_status)

/-! ### The lock -/

/-- `sema_up` of the lock. -/
def sema_up (s : System) : Except Fault System :=
  match s.q.lock.waiters with
  | [] => .ok { s with q := { s.q with lock := { s.q.lock with value := s.q.lock.value + 1 } } }
  | t :: rest => thread_unblock { s with q := { s.q with lock := { s.q.lock with waiters := rest, value := s.q.lock.value + 1 } } } t

def lock_release (s : System) (t : Tid) : Except Fault System :=
  if s.q.lock.holder = some t then sema_up { s with q := { s.q with lock := { s.q.lock with holder := none } } }
  else .error (.assertion .lock_release_held)

/-! ### Waiting -/

/-- `wait (q, &q->not_empty)`, up to the switch to another thread. -/
def wait_not_empty (s : System) (t : Tid) : Except Fault System :=
  if intq_empty s.q then
    .ok { s with
      q := { s.q with not_empty := some t }
      place := Function.update s.place t .waiting
      blocked := Function.update s.blocked t true }
  else .error (.assertion .wait_condition)

def signal_not_empty (s : System) : Except Fault System :=
  if intq_empty s.q then .error (.assertion .signal_condition)
  else match s.q.not_empty with
    | none => .ok s
    | some t => (thread_unblock s t).map fun s => { s with q := { s.q with not_empty := none } }

def signal_not_full (s : System) : Except Fault System :=
  if intq_full s.q then .error (.assertion .signal_condition)
  else match s.q.not_full with
    | none => .ok s
    | some t => (thread_unblock s t).map fun s => { s with q := { s.q with not_full := none } }

/-- The loop of `sema_down` and what follows it: the thread blocks again, or has the lock
    and goes on to `wait`. -/
def sema_down (s : System) (t : Tid) : Except Fault System :=
  if s.q.lock.value = 0 then
    .ok { s with
      q := { s.q with lock := { s.q.lock with waiters := s.q.lock.waiters ++ [t] } }
      place := Function.update s.place t .acquiring
      blocked := Function.update s.blocked t true }
  else
    wait_not_empty { s with q := { s.q with lock := { s.q.lock with value := s.q.lock.value - 1, holder := some t } } } t

def lock_acquire (s : System) (t : Tid) : Except Fault System :=
  if s.q.lock.holder = some t then .error (.assertion .lock_acquire_held) else sema_down s t

/-- `intq_getc` from a test of its loop on. -/
def intq_getc (s : System) (t : Tid) : Except Fault System :=
  if intq_empty s.q then lock_acquire s t
  else
    signal_not_full { s with
      q := { s.q with tail := next s.q.tail }
      place := Function.update s.place t .outside
      byte := Function.update s.byte t (some (s.q.buf s.q.tail)) }

/-- `intq_putc` of the handler, whose queue is not full. -/
def intq_putc (s : System) (byte : Byte) : Except Fault System :=
  signal_not_empty { s with q := { s.q with buf := Function.update s.q.buf s.q.head byte, head := next s.q.head } }

/-! ### Runs -/

inductive Event
  | getc (t : Tid)
  /-- The scheduler gives a thread the processor again. -/
  | resume (t : Tid)
  | interrupt (byte : Byte)

def step (s : System) : Event → Except Fault System
  | .getc t => if s.place t = .outside then intq_getc s t else .error .impossible
  | .resume t =>
    if s.blocked t then .error .impossible
    else match s.place t with
      | .outside => .error .impossible
      | .acquiring => sema_down s t
      | .waiting => do
        let s ← lock_release s t
        intq_getc s t
  | .interrupt byte => if intq_full s.q then .error .impossible else intq_putc s byte

def machine : Machine System Event where
  Initial s := ∃ q, s = { q := intq_init q, place := fun _ => .outside, blocked := fun _ => false, byte := fun _ => none }
  Step s e s' := step s e = .ok s'

/-- A thread that slept for the lock does not get it while there are bytes in the queue. -/
def Guard (s : System) : Event → Prop
  | .resume t => s.blocked t = false → s.place t = .acquiring → s.q.lock.value ≠ 0 → intq_empty s.q = true
  | _ => True

/-! ### What is kept -/

/-- What is true of the queue itself at any time. -/
structure Well (q : Intq) : Prop where
  head : q.head < INTQ_BUFSIZE
  tail : q.tail < INTQ_BUFSIZE
  not_full : q.not_full = none
  lock : (q.lock.value = 0 ∧ ∃ t, q.lock.holder = some t) ∨ (q.lock.value = 1 ∧ q.lock.holder = none)
  once : q.lock.waiters.Nodup

/-- The queue and the threads on it, but for those of which `Not` is true. -/
structure Threads (s : System) (Other : Tid → Prop) : Prop where
  holder : ∀ t, s.q.lock.holder = some t ↔ Other t ∧ s.place t = .waiting
  not_empty : ∀ t, s.q.not_empty = some t → Other t ∧ s.place t = .waiting ∧ s.blocked t = true
  waiters : ∀ t ∈ s.q.lock.waiters, Other t ∧ s.place t = .acquiring ∧ s.blocked t = true
  blocked : ∀ t, s.blocked t = true → Other t ∧ s.place t ≠ .outside

/-- Between the steps. -/
structure Inv (s : System) : Prop where
  well : Well s.q
  threads : Threads s fun _ => True

/-- While a thread that does not hold the lock runs. -/
structure Active (s : System) (t : Tid) : Prop where
  well : Well s.q
  threads : Threads s (· ≠ t)

/-- The step does not fail an assertion, and what it leads to is as before. -/
def Sound (r : Except Fault System) : Prop := ∃ s, r = .ok s ∧ Inv s

variable {s s' : System} {t u : Tid}

theorem next_lt (pos : Nat) : next pos < INTQ_BUFSIZE := Nat.mod_lt _ (by decide)

theorem next_injective {i j : Nat} (i_lt : i < INTQ_BUFSIZE) (j_lt : j < INTQ_BUFSIZE) (same : next i = next j) : i = j := by
  rw [next,next,INTQ_BUFSIZE] at same
  rw [INTQ_BUFSIZE] at i_lt j_lt
  omega

/-- With a byte taken there is room. -/
theorem not_full_of_some {q : Intq} (well : Well q) (some : intq_empty q = false) :
    intq_full { q with tail := next q.tail } = false := by
  rw [intq_empty,beq_eq_false_iff_ne] at some
  rw [intq_full,beq_eq_false_iff_ne]
  intro full
  exact some (next_injective well.head well.tail full)

/-- With a byte put there is one to take. -/
theorem some_of_not_full {q : Intq} (buf : Nat → Byte) (room : intq_full q = false) :
    intq_empty { q with buf := buf, head := next q.head } = false := by
  rw [intq_full,beq_eq_false_iff_ne] at room
  rw [intq_empty,beq_eq_false_iff_ne]
  exact room

/-- The running thread leaves the queue. -/
theorem leaves_inv (active : Active s t) (q : Intq) (same : q = { s.q with tail := next s.q.tail }) (b : Tid → Option Byte) :
    Inv { s with q := q, place := Function.update s.place t .outside, byte := b } := by
  subst same
  obtain ⟨⟨head,_,not_full,lock,once⟩,holder,not_empty,waiters,blocked⟩ := active
  have other {u : Tid} (ne : u ≠ t) : Function.update s.place t .outside u = s.place u := Function.update_of_ne ne _ _
  refine ⟨⟨head,next_lt _,not_full,lock,once⟩,?_,?_,?_,?_⟩
  · intro u
    refine (holder u).trans ⟨fun ⟨ne,at_⟩ => ⟨trivial,(other ne).trans at_⟩,fun ⟨_,at_⟩ => ?_⟩
    have ne : u ≠ t := by
      rintro rfl
      simp at at_
    exact ⟨ne,(other ne).symm.trans at_⟩
  · intro u found
    obtain ⟨ne,at_,asleep⟩ := not_empty u found
    exact ⟨trivial,(other ne).trans at_,asleep⟩
  · intro u member
    obtain ⟨ne,at_,asleep⟩ := waiters u member
    exact ⟨trivial,(other ne).trans at_,asleep⟩
  · intro u asleep
    obtain ⟨ne,inside⟩ := blocked u asleep
    exact ⟨trivial,fun outside => inside ((other ne).symm.trans outside)⟩

/-- The running thread goes to sleep for the lock. -/
theorem acquires_inv (active : Active s t) :
    Inv { s with
      q := { s.q with lock := { s.q.lock with waiters := s.q.lock.waiters ++ [t] } }
      place := Function.update s.place t .acquiring
      blocked := Function.update s.blocked t true } := by
  obtain ⟨⟨head,tail,not_full,lock,once⟩,holder,not_empty,waiters,blocked⟩ := active
  have other {u : Tid} (ne : u ≠ t) : Function.update s.place t .acquiring u = s.place u := Function.update_of_ne ne _ _
  have others {u : Tid} (ne : u ≠ t) : Function.update s.blocked t true u = s.blocked u := Function.update_of_ne ne _ _
  refine ⟨⟨head,tail,not_full,lock,?_⟩,?_,?_,?_,?_⟩
  · refine List.nodup_append.mpr ⟨once,by simp,fun u member v last same => ?_⟩
    rw [List.mem_singleton] at last
    exact (waiters u member).1 (same.trans last)
  · intro u
    refine (holder u).trans ⟨fun ⟨ne,at_⟩ => ⟨trivial,(other ne).trans at_⟩,fun ⟨_,at_⟩ => ?_⟩
    have ne : u ≠ t := by
      rintro rfl
      simp at at_
    exact ⟨ne,(other ne).symm.trans at_⟩
  · intro u found
    obtain ⟨ne,at_,asleep⟩ := not_empty u found
    exact ⟨trivial,(other ne).trans at_,(others ne).trans asleep⟩
  · intro u member
    rcases List.mem_append.mp member with old | new
    · obtain ⟨ne,at_,asleep⟩ := waiters u old
      exact ⟨trivial,(other ne).trans at_,(others ne).trans asleep⟩
    · rw [List.mem_singleton] at new
      subst new
      exact ⟨trivial,Function.update_self _ _ _,Function.update_self _ _ _⟩
  · intro u asleep
    by_cases same : u = t
    · subst same
      exact ⟨trivial,by simp⟩
    · have inside := (blocked u ((others same).symm.trans asleep)).2
      exact ⟨trivial,fun outside => inside ((other same).symm.trans outside)⟩

/-- The running thread has the lock and waits. -/
theorem waits_inv (active : Active s t) (free : s.q.lock.value = 1 ∧ s.q.lock.holder = none) :
    Inv { s with
      q := { s.q with lock := { s.q.lock with value := s.q.lock.value - 1, holder := some t }, not_empty := some t }
      place := Function.update s.place t .waiting
      blocked := Function.update s.blocked t true } := by
  obtain ⟨⟨head,tail,not_full,lock,once⟩,holder,not_empty,waiters,blocked⟩ := active
  have other {u : Tid} (ne : u ≠ t) : Function.update s.place t .waiting u = s.place u := Function.update_of_ne ne _ _
  have others {u : Tid} (ne : u ≠ t) : Function.update s.blocked t true u = s.blocked u := Function.update_of_ne ne _ _
  -- No thread held the lock, so that no other one is in `wait`.
  have alone (u : Tid) (ne : u ≠ t) : s.place u ≠ .waiting := by
    intro at_
    have holds := (holder u).mpr ⟨ne,at_⟩
    rw [free.2] at holds
    cases holds
  refine ⟨⟨head,tail,not_full,.inl ⟨?_,t,rfl⟩,once⟩,?_,?_,?_,?_⟩
  · show s.q.lock.value - 1 = 0
    omega
  · intro u
    constructor
    · intro holds
      obtain rfl := Option.some.inj holds
      exact ⟨trivial,Function.update_self _ _ _⟩
    · rintro ⟨_,at_⟩
      by_cases same : u = t
      · exact congrArg some same.symm
      · exact absurd ((other same).symm.trans at_) (alone u same)
  · intro u found
    obtain rfl := Option.some.inj found
    exact ⟨trivial,Function.update_self _ _ _,Function.update_self _ _ _⟩
  · intro u member
    obtain ⟨ne,at_,asleep⟩ := waiters u member
    exact ⟨trivial,(other ne).trans at_,(others ne).trans asleep⟩
  · intro u asleep
    by_cases same : u = t
    · subst same
      exact ⟨trivial,by simp⟩
    · have inside := (blocked u ((others same).symm.trans asleep)).2
      exact ⟨trivial,fun outside => inside ((other same).symm.trans outside)⟩

theorem sema_down_sound (active : Active s t) (empty : s.q.lock.value ≠ 0 → intq_empty s.q = true) : Sound (sema_down s t) := by
  rw [sema_down]
  split
  · exact ⟨_,rfl,acquires_inv active⟩
  · rename_i free
    refine ⟨_,if_pos (empty free),waits_inv active ?_⟩
    rcases active.well.lock with ⟨held,_⟩ | free'
    · exact absurd held free
    · exact free'

theorem intq_getc_sound (active : Active s t) : Sound (intq_getc s t) := by
  rw [intq_getc]
  split
  · rename_i empty
    have free : s.q.lock.holder ≠ some t := fun holds => ((active.threads.holder t).mp holds).1 rfl
    rw [lock_acquire,if_neg free]
    exact sema_down_sound active fun _ => empty
  · rename_i some
    rw [Bool.not_eq_true] at some
    have room := not_full_of_some active.well some
    refine ⟨_,?_,leaves_inv active _ rfl (Function.update s.byte t (.some (s.q.buf s.q.tail)))⟩
    rw [signal_not_full,if_neg (by simp [room])]
    simp only [active.well.not_full]

/-- A thread that is neither asleep nor in `wait` runs. -/
theorem active_of_inv (inv : Inv s) (awake : s.blocked t = false) (free : s.place t ≠ .waiting) : Active s t := by
  obtain ⟨well,holder,not_empty,waiters,blocked⟩ := inv
  have other {u : Tid} (asleep : s.blocked u = true) : u ≠ t := by
    rintro rfl
    rw [awake] at asleep
    cases asleep
  refine ⟨well,?_,?_,?_,?_⟩
  · intro u
    refine (holder u).trans ⟨fun ⟨_,at_⟩ => ⟨?_,at_⟩,fun ⟨_,at_⟩ => ⟨trivial,at_⟩⟩
    rintro rfl
    exact free at_
  · intro u found
    obtain ⟨_,at_,asleep⟩ := not_empty u found
    exact ⟨other asleep,at_,asleep⟩
  · intro u member
    obtain ⟨_,at_,asleep⟩ := waiters u member
    exact ⟨other asleep,at_,asleep⟩
  · intro u asleep
    exact ⟨other asleep,(blocked u asleep).2⟩

/-- A thread back from `wait` gives the lock up, to the first that sleeps for it. -/
theorem lock_release_spec (inv : Inv s) (awake : s.blocked t = false) (back : s.place t = .waiting) :
    ∃ s', lock_release s t = .ok s' ∧ Active s' t := by
  obtain ⟨⟨head,tail,not_full,lock,once⟩,holder,not_empty,waiters,blocked⟩ := inv
  have holds : s.q.lock.holder = some t := (holder t).mpr ⟨trivial,back⟩
  have held : s.q.lock.value = 0 := by
    rcases lock with ⟨held,_⟩ | ⟨_,none⟩
    · exact held
    · rw [holds] at none
      cases none
  have other {u : Tid} (asleep : s.blocked u = true) : u ≠ t := by
    rintro rfl
    rw [awake] at asleep
    cases asleep
  have alone (u : Tid) : (none : Option Tid) = some u ↔ u ≠ t ∧ s.place u = .waiting := by
    refine ⟨fun impossible => (by cases impossible),fun ⟨ne,at_⟩ => ?_⟩
    have both := (holder u).mpr ⟨trivial,at_⟩
    rw [holds] at both
    exact absurd (Option.some.inj both).symm ne
  have sleeper (u : Tid) (found : s.q.not_empty = some u) : u ≠ t ∧ s.place u = .waiting ∧ s.blocked u = true := by
    obtain ⟨_,at_,asleep⟩ := not_empty u found
    exact ⟨other asleep,at_,asleep⟩
  -- The one in `wait` is `t`, which is awake.
  have unwaited : s.q.not_empty = none := by
    refine Option.eq_none_iff_forall_ne_some.mpr fun u found => ?_
    obtain ⟨ne,at_,_⟩ := sleeper u found
    cases (alone u).mpr ⟨ne,at_⟩
  rw [lock_release,if_pos holds,sema_up]
  cases queue : s.q.lock.waiters with
  | nil =>
    simp only [queue]
    refine ⟨_,rfl,⟨head,tail,not_full,.inr ⟨?_,rfl⟩,List.nodup_nil⟩,alone,sleeper,?_,?_⟩
    · show s.q.lock.value + 1 = 1
      omega
    · intro u member
      cases member
    · intro u asleep
      exact ⟨other asleep,(blocked u asleep).2⟩
  | cons v rest =>
    rw [queue] at once waiters
    obtain ⟨fresh,once⟩ := List.nodup_cons.mp once
    obtain ⟨_,v_at,v_asleep⟩ := waiters v List.mem_cons_self
    simp only [queue,thread_unblock,v_asleep,if_true]
    have asleep_before {u : Tid} (asleep : Function.update s.blocked v false u = true) : s.blocked u = true := by
      by_cases same : u = v
      · subst same
        exact v_asleep
      · rwa [Function.update_of_ne same] at asleep
    refine ⟨_,rfl,⟨head,tail,not_full,.inr ⟨?_,rfl⟩,once⟩,alone,?_,?_,?_⟩
    · show s.q.lock.value + 1 = 1
      omega
    · intro u found
      rw [show s.q.not_empty = some u from found] at unwaited
      cases unwaited
    · intro u member
      obtain ⟨_,at_,asleep⟩ := waiters u (List.mem_cons_of_mem _ member)
      refine ⟨other asleep,at_,?_⟩
      rw [← asleep]
      refine Function.update_of_ne ?_ _ _
      rintro rfl
      exact fresh member
    · intro u asleep
      have before := asleep_before asleep
      exact ⟨other before,(blocked u before).2⟩

/-- The handler's byte, and the thread it wakes. -/
theorem intq_putc_sound (inv : Inv s) (room : intq_full s.q = false) (byte : Byte) : Sound (intq_putc s byte) := by
  obtain ⟨⟨head,tail,not_full,lock,once⟩,holder,not_empty,waiters,blocked⟩ := inv
  have byte_there := some_of_not_full (Function.update s.q.buf s.q.head byte) room
  rw [intq_putc,signal_not_empty,if_neg (by simp [byte_there])]
  cases found : s.q.not_empty with
  | none =>
    rw [found] at not_empty
    refine ⟨_,rfl,⟨next_lt _,tail,not_full,lock,once⟩,holder,?_,waiters,blocked⟩
    intro u impossible
    rw [show s.q.not_empty = some u from impossible] at found
    cases found
  | some v =>
    obtain ⟨_,v_at,v_asleep⟩ := not_empty v found
    simp only [thread_unblock,v_asleep,if_true,Except.map]
    have asleep_before {u : Tid} (asleep : Function.update s.blocked v false u = true) : s.blocked u = true := by
      by_cases same : u = v
      · subst same
        exact v_asleep
      · rwa [Function.update_of_ne same] at asleep
    refine ⟨_,rfl,⟨next_lt _,tail,not_full,lock,once⟩,holder,?_,?_,?_⟩
    · intro u impossible
      cases impossible
    · intro u member
      obtain ⟨_,at_,asleep⟩ := waiters u member
      refine ⟨trivial,at_,?_⟩
      rw [← asleep]
      refine Function.update_of_ne ?_ _ _
      rintro rfl
      rw [v_at] at at_
      cases at_
    · intro u asleep
      exact blocked u (asleep_before asleep)

theorem init_inv (initial : machine.Initial s) : Inv s := by
  obtain ⟨q,rfl⟩ := initial
  refine ⟨⟨Nat.zero_lt_succ _,Nat.zero_lt_succ _,rfl,.inr ⟨rfl,rfl⟩,List.nodup_nil⟩,?_,?_,?_,?_⟩
  · intro t
    exact ⟨fun impossible => (by cases impossible),fun ⟨_,impossible⟩ => (by cases impossible)⟩
  · intro t impossible
    cases impossible
  · intro t impossible
    cases impossible
  · intro t impossible
    cases impossible

/-- A step of a guarded run is sound, or the event does not happen. -/
theorem step_sound (inv : Inv s) (e : Event) (guarded : Guard s e) : Sound (step s e) ∨ step s e = .error .impossible := by
  cases e with
  | getc t =>
    rw [step]
    split
    · rename_i outside
      refine .inl (intq_getc_sound (active_of_inv inv ?_ ?_))
      · rw [← Bool.not_eq_true]
        intro asleep
        exact (inv.threads.blocked t asleep).2 outside
      · rw [outside]
        decide
    · exact .inr rfl
  | resume t =>
    rw [step]
    split
    · exact .inr rfl
    · rename_i awake
      rw [Bool.not_eq_true] at awake
      cases place : s.place t with
      | outside => exact .inr rfl
      | acquiring =>
        have active := active_of_inv inv awake (by rw [place]; decide)
        exact .inl (sema_down_sound active (guarded awake place))
      | waiting =>
        obtain ⟨s',released,active⟩ := lock_release_spec inv awake place
        refine .inl ?_
        show Sound (lock_release s t >>= fun s' => intq_getc s' t)
        rw [released]
        exact intq_getc_sound active
  | interrupt byte =>
    rw [step]
    split
    · exact .inr rfl
    · rename_i room
      exact .inl (intq_putc_sound inv (by simpa using room) byte)

/-- A thread that gets the lock with bytes in the queue fails the test of `wait`. -/
theorem unguarded_fails (e : Event) (unguarded : ¬ Guard s e) : step s e = .error (.assertion .wait_condition) := by
  cases e with
  | getc t => exact absurd trivial unguarded
  | interrupt byte => exact absurd trivial unguarded
  | resume t =>
    simp only [Guard,Classical.not_imp,Bool.not_eq_true] at unguarded
    obtain ⟨awake,place,free,some⟩ := unguarded
    simp only [step,awake,place,sema_down,if_neg free,wait_not_empty,Bool.false_eq_true,if_false]
    rw [if_neg]
    show ¬ intq_empty s.q = true
    simp [some]

theorem guarded_inv (reached : Reaches machine Guard s) : Inv s := by
  refine reaches_invariant Inv (fun _ => init_inv) (fun s e s' inv guarded moved => ?_) reached
  rcases step_sound inv e guarded with ⟨after,same,kept⟩ | impossible
  · obtain rfl := Except.ok.inj (same.symm.trans moved)
    exact kept
  · rw [show step s e = .ok s' from moved] at impossible
    cases impossible

/-- The queue after `intq_init`, before any call. -/
def start : System where
  q := { lock := { holder := none, value := 1, waiters := [] }, not_full := none, not_empty := none, buf := fun _ => 0, head := 0, tail := 0 }
  place _ := .outside
  blocked _ := false
  byte _ := none

theorem start_initial : machine.Initial start := ⟨start.q,rfl⟩

end Pintos.InterruptQueues
