import Pintos.InterruptQueues
import Pintos.Rings

/-!
What goes through a queue of `devices/intq.c`. Interrupts are off from the last test of
the loop of `intq_putc` or `intq_getc` to its return, so that one step is what a call
does after its loop; anything else that happens to the queue is the business of its
lock and of the threads that wait.
-/
namespace Pintos.InterruptFifos
open Pintos.Machines
open Pintos.Rings
open Pintos.Bitmaps (Byte)
open Pintos.InterruptQueues (Intq INTQ_BUFSIZE next intq_empty intq_full intq_init)
set_option linter.unusedSimpArgs false

/-- `intq_putc` after its loop, before `signal`. -/
def intq_putc (q : Intq) (byte : Byte) : Intq := { q with buf := Function.update q.buf q.head byte, head := next q.head }

/-- `intq_getc` after its loop, before `signal`. -/
def intq_getc (q : Intq) : Byte × Intq := (q.buf q.tail,{ q with tail := next q.tail })

/-- `wait`, `signal` and the functions of the lock do not touch the bytes of a queue. -/
structure Beside (q q' : Intq) : Prop where
  buf : q'.buf = q.buf
  head : q'.head = q.head
  tail : q'.tail = q.tail

/-- A queue with the bytes that were given to `intq_putc` and that `intq_getc` returned. -/
structure Traffic where
  q : Intq
  given : List Byte
  returned : List Byte

inductive Event
  | putc (byte : Byte)
  | getc
  | other

/-- A call completes with the queue not full, or not empty. -/
inductive Step (t : Traffic) : Event → Traffic → Prop
  | putc {byte : Byte} {q : Intq} (room : intq_full t.q = false) (done : Beside (intq_putc t.q byte) q) :
      Step t (.putc byte) { t with q := q, given := t.given ++ [byte] }
  | getc {q : Intq} (some : intq_empty t.q = false) (done : Beside (intq_getc t.q).2 q) :
      Step t .getc { t with q := q, returned := t.returned ++ [(intq_getc t.q).1] }
  | other {q : Intq} (done : Beside t.q q) : Step t .other { t with q := q }

def traffic : Machine Traffic Event where
  Initial t := ∃ q, t = { q := intq_init q, given := [], returned := [] }
  Step := Step

/-- The bytes that are given and not returned are in the buffer. -/
def Inv (t : Traffic) : Prop :=
  ∃ content, t.given = t.returned ++ content ∧ Holds INTQ_BUFSIZE t.q.buf t.q.head t.q.tail content

variable {t t' : Traffic} {e : Event} {q q' : Intq} {content : List Byte}

theorem beside_holds (beside : Beside q q') (holds : Holds INTQ_BUFSIZE q.buf q.head q.tail content) :
    Holds INTQ_BUFSIZE q'.buf q'.head q'.tail content := by
  rwa [beside.buf,beside.head,beside.tail]

theorem inv_init (initial : traffic.Initial t) : Inv t := by
  obtain ⟨q,rfl⟩ := initial
  exact ⟨[],rfl,holds_empty (Nat.zero_lt_succ 63)⟩

theorem inv_step (inv : Inv t) (step : Step t e t') : Inv t' := by
  obtain ⟨content,split,holds⟩ := inv
  cases step with
  | putc room done =>
    rw [intq_full,beq_eq_false_iff_ne] at room
    refine ⟨content ++ [_],?_,beside_holds done (holds_put holds room _)⟩
    show t.given ++ [_] = t.returned ++ (content ++ [_])
    rw [split,List.append_assoc]
  | getc some done =>
    rw [intq_empty,beq_eq_false_iff_ne] at some
    obtain ⟨rest,first,later⟩ := holds_get holds some
    refine ⟨rest,?_,beside_holds done later⟩
    show t.given = (t.returned ++ [t.q.buf t.q.tail]) ++ rest
    rw [split,first,List.append_assoc]
    rfl
  | other done => exact ⟨content,split,beside_holds done holds⟩

theorem reaches_inv (reached : Reaches traffic Anything t) : Inv t :=
  reaches_invariant Inv (fun _ => inv_init) (fun _ _ _ inv _ => inv_step inv) reached

/-- The queue between calls, with the bytes inside of it: what was given is what was
    returned and these, in order. -/
structure Fifo (t : Traffic) (inside : List Byte) : Prop where
  given : t.given = t.returned ++ inside
  bounded : inside.length ≤ INTQ_BUFSIZE - 1
  empty : intq_empty t.q = true ↔ inside.length = 0
  full : intq_full t.q = true ↔ inside.length = INTQ_BUFSIZE - 1
  head : t.q.head < INTQ_BUFSIZE
  tail : t.q.tail < INTQ_BUFSIZE

theorem fifo_of_holds (split : t.given = t.returned ++ content) (holds : Holds INTQ_BUFSIZE t.q.buf t.q.head t.q.tail content) :
    Fifo t content := by
  have room := holds.room
  refine ⟨split,?_,?_,?_,head_lt holds,holds.tail_lt⟩
  · omega
  · rw [intq_empty,beq_iff_eq,List.length_eq_zero_iff]
    exact empty_iff holds
  · have last := full_iff holds
    rw [intq_full,beq_iff_eq]
    refine last.trans ⟨fun one_left => ?_,fun one_left => ?_⟩ <;> omega

/-- In every run the bytes returned are the first ones given, no more than
    `INTQ_BUFSIZE - 1` are in between, and the tests of the queue tell the extremes. -/
theorem queue_is_fifo (reached : Reaches traffic Anything t) : t.returned <+: t.given ∧ ∃ inside, Fifo t inside := by
  obtain ⟨inside,split,holds⟩ := reaches_inv reached
  exact ⟨⟨inside,split.symm⟩,inside,fifo_of_holds split holds⟩

/-- Two bytes given and one returned. -/
theorem queue_is_fifo_one_returned : ∃ t, t.given = [97,98] ∧ t.returned = [97] ∧ (t.returned <+: t.given ∧ ∃ inside, Fifo t inside) := by
  have first : Reaches traffic Anything _ := .next (e := .putc 97) (.start ⟨InterruptQueues.start.q,rfl⟩) trivial
    (Step.putc (by decide) ⟨rfl,rfl,rfl⟩)
  have second : Reaches traffic Anything _ := .next (e := .putc 98) first trivial (Step.putc (by decide) ⟨rfl,rfl,rfl⟩)
  exact ⟨_,rfl,rfl,queue_is_fifo (.next (e := .getc) second trivial (Step.getc (by decide) ⟨rfl,rfl,rfl⟩))⟩

/-! ### The queue among its threads -/

open Pintos.InterruptQueues (System Tid)

variable {s s' : System} {t : Tid}

/-- What a call of a thread returned, once the thread is outside of the queue. -/
def answer (s : System) (t : Tid) : List Byte := if s.place t = .outside then (s.byte t).toList else []

/-- The runs of a queue and its threads, with the bytes of the handler and those that
    `intq_getc` returned. -/
inductive Heard : System → List Byte → List Byte → Prop
  | start {s : System} (initial : InterruptQueues.machine.Initial s) : Heard s [] []
  | interrupt {s s' : System} {given returned : List Byte} {byte : Byte} (before : Heard s given returned)
      (moved : InterruptQueues.step s (.interrupt byte) = .ok s') : Heard s' (given ++ [byte]) returned
  | getc {s s' : System} {given returned : List Byte} {t : Tid} (before : Heard s given returned)
      (moved : InterruptQueues.step s (.getc t) = .ok s') : Heard s' given (returned ++ answer s' t)
  | resume {s s' : System} {given returned : List Byte} {t : Tid} (before : Heard s given returned)
      (moved : InterruptQueues.step s (.resume t) = .ok s') : Heard s' given (returned ++ answer s' t)

/-- The calls do not touch the bytes of the queue, nor what the threads have. -/
structure Aside (s s' : System) : Prop where
  q : Beside s.q s'.q
  place : s'.place = s.place
  byte : s'.byte = s.byte

theorem beside_refl (q : Intq) : Beside q q := ⟨rfl,rfl,rfl⟩

theorem beside_trans {q₁ q₂ q₃ : Intq} (first : Beside q₁ q₂) (second : Beside q₂ q₃) : Beside q₁ q₃ :=
  ⟨second.buf.trans first.buf,second.head.trans first.head,second.tail.trans first.tail⟩

theorem thread_unblock_aside (ran : InterruptQueues.thread_unblock s t = .ok s') : Aside s s' := by
  rw [InterruptQueues.thread_unblock] at ran
  split at ran
  · cases ran
    exact ⟨beside_refl _,rfl,rfl⟩
  · cases ran

theorem unblocked_aside (clear : Intq → Intq) (clear_beside : ∀ q, Beside q (clear q))
    (ran : (InterruptQueues.thread_unblock s t).map (fun s => { s with q := clear s.q }) = .ok s') : Aside s s' := by
  cases woken : InterruptQueues.thread_unblock s t with
  | error fault =>
    rw [woken] at ran
    cases ran
  | ok s₁ =>
    rw [woken] at ran
    cases ran
    have aside := thread_unblock_aside woken
    exact ⟨beside_trans aside.q (clear_beside s₁.q),aside.place,aside.byte⟩

theorem signal_not_empty_aside (ran : InterruptQueues.signal_not_empty s = .ok s') : Aside s s' := by
  rw [InterruptQueues.signal_not_empty] at ran
  split at ran
  · cases ran
  · split at ran
    · cases ran
      exact ⟨beside_refl _,rfl,rfl⟩
    · exact unblocked_aside (fun q => { q with not_empty := none }) (fun q => ⟨rfl,rfl,rfl⟩) ran

theorem signal_not_full_aside (ran : InterruptQueues.signal_not_full s = .ok s') : Aside s s' := by
  rw [InterruptQueues.signal_not_full] at ran
  split at ran
  · cases ran
  · split at ran
    · cases ran
      exact ⟨beside_refl _,rfl,rfl⟩
    · exact unblocked_aside (fun q => { q with not_full := none }) (fun q => ⟨rfl,rfl,rfl⟩) ran

theorem lock_release_beside (ran : InterruptQueues.lock_release s t = .ok s') : Beside s.q s'.q := by
  rw [InterruptQueues.lock_release] at ran
  split at ran
  · rw [InterruptQueues.sema_up] at ran
    split at ran
    · cases ran
      exact ⟨rfl,rfl,rfl⟩
    · have aside := (thread_unblock_aside ran).q
      exact ⟨aside.buf,aside.head,aside.tail⟩
  · cases ran

/-- A thread that sleeps has no answer yet. -/
theorem sema_down_beside (ran : InterruptQueues.sema_down s t = .ok s') : Beside s.q s'.q ∧ answer s' t = [] := by
  rw [InterruptQueues.sema_down] at ran
  split at ran
  · cases ran
    exact ⟨⟨rfl,rfl,rfl⟩,by simp [answer]⟩
  · rw [InterruptQueues.wait_not_empty] at ran
    split at ran
    · cases ran
      exact ⟨⟨rfl,rfl,rfl⟩,by simp [answer]⟩
    · cases ran

theorem inv_other {given returned : List Byte} (inv : Inv ⟨q,given,returned⟩) (beside : Beside q q') : Inv ⟨q',given,returned⟩ :=
  inv_step inv (.other beside)

theorem intq_getc_inv {given returned : List Byte} (inv : Inv ⟨s.q,given,returned⟩)
    (ran : InterruptQueues.intq_getc s t = .ok s') : Inv ⟨s'.q,given,returned ++ answer s' t⟩ := by
  rw [InterruptQueues.intq_getc] at ran
  split at ran
  · rw [InterruptQueues.lock_acquire] at ran
    split at ran
    · cases ran
    · obtain ⟨beside,unanswered⟩ := sema_down_beside ran
      rw [unanswered,List.append_nil]
      exact inv_other inv beside
  · rename_i some
    obtain ⟨beside,place,byte⟩ := signal_not_full_aside ran
    have answered : answer s' t = [(intq_getc s.q).1] := by simp [answer,place,byte,intq_getc]
    rw [answered]
    exact inv_step inv (.getc (by simpa using some) beside)

theorem heard_inv {given returned : List Byte} (heard : Heard s given returned) : Inv ⟨s.q,given,returned⟩ := by
  induction heard with
  | start initial =>
    obtain ⟨q,rfl⟩ := initial
    exact inv_init ⟨q,rfl⟩
  | interrupt _ moved ih =>
    rw [InterruptQueues.step] at moved
    split at moved
    · cases moved
    · rename_i room
      exact inv_step ih (.putc (by simpa using room) (signal_not_empty_aside moved).q)
  | getc _ moved ih =>
    rw [InterruptQueues.step] at moved
    split at moved
    · exact intq_getc_inv ih moved
    · cases moved
  | @resume s _ _ _ t _ moved ih =>
    rw [InterruptQueues.step] at moved
    split at moved
    · cases moved
    · split at moved
      · cases moved
      · obtain ⟨beside,unanswered⟩ := sema_down_beside moved
        rw [unanswered,List.append_nil]
        exact inv_other ih beside
      · cases released : InterruptQueues.lock_release s t with
        | error fault =>
          rw [released] at moved
          cases moved
        | ok s₁ =>
          rw [released] at moved
          exact intq_getc_inv (inv_other ih (lock_release_beside released)) moved

/-- Whatever the threads and the handler do, the threads get the bytes of the handler in order. -/
theorem heard_is_fifo {given returned : List Byte} (heard : Heard s given returned) : ∃ inside, Fifo ⟨s.q,given,returned⟩ inside := by
  obtain ⟨content,split,holds⟩ := heard_inv heard
  exact ⟨content,fifo_of_holds split holds⟩

end Pintos.InterruptFifos
