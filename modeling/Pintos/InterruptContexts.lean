import Pintos.Machines
import Mathlib.Data.BitVec
import Mathlib.Logic.Function.Basic

/-!
`intr_handler` of `threads/interrupt.c`, with its flags, over all threads. Each thread has
the activations of `intr_handler` that are on its stack, the innermost one first; what the
handlers and the threads do is any sequence of calls that change the interrupt level, ask
for a yield or switch threads. A call whose assertion fails ends the run.
-/
namespace Pintos.InterruptContexts
open Pintos.Machines

abbrev Tid := Nat
abbrev Vec := BitVec 8

inductive Level
  | OFF | ON
  deriving DecidableEq

/-- The local variable of `intr_handler`. -/
def external (vec_no : Vec) : Bool := decide (0x20 ≤ vec_no) && decide (vec_no < 0x30)

/-- A call of `intr_handler`: the vector, the level of the code that was interrupted, and
    whether the call of the handler is still to return. -/
structure Activation where
  vec_no : Vec
  interrupted : Level
  handling : Bool

/-- The gates and the handlers. `intr_register_ext` and `intr_init` make an interrupt gate for
    each external interrupt. -/
structure Idt where
  gate : Vec → Level
  registered : Vec → Bool
  external_off : ∀ v, external v = true → gate v = .OFF

structure State where
  running : Tid
  activations : Tid → List Activation
  in_external_intr : Bool
  yield_on_return : Bool
  level : Level
  /-- The external interrupts that came, and those that `pic_end_of_interrupt` acknowledged. -/
  delivered : List Vec
  ended : List Vec

inductive Event
  | interrupt (vec_no : Vec)
  | handler_returns
  /-- The `thread_yield` of `intr_handler` returns. -/
  | yielded
  | intr_enable
  | intr_disable
  | intr_yield_on_return
  /-- `schedule`, as `thread_block`, `thread_yield` and `thread_exit` call it. -/
  | switch (next : Tid)

inductive Fault
  | level
  | context
  | unexpected
  deriving DecidableEq

/-! ### The code -/

def State.stack (s : State) : List Activation := s.activations s.running
def State.set_stack (s : State) (l : List Activation) : State := { s with activations := Function.update s.activations s.running l }

/-- `intr_handler` up to its handler, from an interrupt through the gate. -/
def enter (idt : Idt) (v : Vec) (s : State) : Except Fault State :=
  let level := if idt.gate v = .OFF then .OFF else s.level
  let called : Except Fault State → Except Fault State := fun s =>
    if idt.registered v || v == 0x27 || v == 0x2f then s else .error .unexpected
  let entered := { s.set_stack (⟨v,s.level,true⟩ :: s.stack) with level := level }
  if external v then
    if level ≠ .OFF then .error .level
    else if s.in_external_intr then .error .context
    else called (.ok { entered with in_external_intr := true, yield_on_return := false, delivered := s.delivered ++ [v] })
  else called (.ok entered)

/-- The rest of `intr_handler`, when its handler has returned. -/
def complete (a : Activation) (rest : List Activation) (s : State) : Except Fault State :=
  if external a.vec_no then
    if s.level ≠ .OFF then .error .level
    else if !s.in_external_intr then .error .context
    else if s.yield_on_return then
      .ok { s.set_stack ({ a with handling := false } :: rest) with in_external_intr := false, ended := s.ended ++ [a.vec_no] }
    else .ok { s.set_stack rest with in_external_intr := false, ended := s.ended ++ [a.vec_no], level := a.interrupted }
  else .ok { s.set_stack rest with level := a.interrupted }

def step (idt : Idt) (s : State) : Event → Except Fault State
  | .interrupt v => enter idt v s
  | .handler_returns => match s.stack with
    | [] => .ok s
    | a :: rest => complete a rest s
  | .yielded => match s.stack with
    | [] => .ok s
    | a :: rest => .ok { s.set_stack rest with level := a.interrupted }
  | .intr_enable => if s.in_external_intr then .error .context else .ok { s with level := .ON }
  | .intr_disable => .ok { s with level := .OFF }
  | .intr_yield_on_return => if s.in_external_intr then .ok { s with yield_on_return := true } else .error .context
  | .switch next => if s.in_external_intr then .error .context else .ok { s with running := next }

/-- When an event can come: an external interrupt only with interrupts on, a return only
    from the innermost activation, and a switch only with interrupts off. -/
def Comes (s : State) : Event → Prop
  | .interrupt v => external v = true → s.level = .ON
  | .handler_returns => ∃ a rest, s.stack = a :: rest ∧ a.handling = true
  | .yielded => ∃ a rest, s.stack = a :: rest ∧ a.handling = false
  | .switch _ => s.level = .OFF
  | _ => True

/-- The kernel starts with interrupts off and outside of any handler. -/
def machine (idt : Idt) : Machine State Event where
  Initial s := (∀ t, s.activations t = []) ∧ s.in_external_intr = false ∧ s.level = .OFF ∧ s.delivered = [] ∧ s.ended = []
  Step s e s' := step idt s e = .ok s'

/-! ### At most one external interrupt -/

/-- An activation for an external interrupt whose handler has not returned. -/
def Activation.Pending (a : Activation) : Prop := external a.vec_no = true ∧ a.handling = true

def Free (l : List Activation) : Prop := ∀ a ∈ l, ¬ a.Pending

/-- The stack of the thread that is in the handler of an external interrupt: above its
    activation there are exceptions only, and they interrupted code with interrupts off. -/
structure Handles (l : List Activation) (v : Vec) (inner : List Activation) (a : Activation) (outer : List Activation) : Prop where
  split : l = inner ++ a :: outer
  vec_no : a.vec_no = v
  pending : a.Pending
  inside : ∀ b ∈ inner, external b.vec_no = false ∧ b.interrupted = .OFF ∧ b.handling = true
  free : Free outer

structure Quiet (s : State) : Prop where
  flag : s.in_external_intr = false
  free : ∀ t, Free (s.activations t)
  ended : s.delivered = s.ended

structure Busy (s : State) (v : Vec) : Prop where
  flag : s.in_external_intr = true
  off : s.level = .OFF
  handles : ∃ inner a outer, Handles s.stack v inner a outer
  others : ∀ t ≠ s.running, Free (s.activations t)
  ended : s.delivered = s.ended ++ [v]

def Inv (s : State) : Prop := Quiet s ∨ ∃ v, Busy s v

variable {idt : Idt} {s s' : State} {e : Event} {v : Vec} {a : Activation} {rest l : List Activation} {t : Tid}

theorem stack_set (s : State) (l : List Activation) : (s.set_stack l).activations s.running = l := Function.update_self ..
theorem stack_others (other : t ≠ s.running) : (s.set_stack l).activations t = s.activations t := Function.update_of_ne other ..

theorem free_tail (free : Free (a :: rest)) : Free rest := fun b member => free b (List.mem_cons_of_mem _ member)
theorem free_cons (calm : ¬ a.Pending) (free : Free rest) : Free (a :: rest) := List.forall_mem_cons.mpr ⟨calm,free⟩

theorem others_set (others : ∀ t ≠ s.running, Free (s.activations t)) :
    ∀ t ≠ s.running, Free ((s.set_stack l).activations t) := by
  intro t other
  rw [stack_others other]
  exact others t other

/-- A stack without pending activations for the running thread leaves none at all. -/
theorem quiet_set (others : ∀ t ≠ s.running, Free (s.activations t)) (free : Free l) :
    ∀ t, Free ((s.set_stack l).activations t) := by
  intro t
  by_cases here : t = s.running
  · rw [here,stack_set]
    exact free
  · rw [stack_others here]
    exact others t here

theorem inv_init (initial : (machine idt).Initial s) : Inv s := by
  obtain ⟨none,flag,-,delivered,ended⟩ := initial
  refine .inl ⟨flag,fun t a member => ?_,delivered.trans ended.symm⟩
  rw [none t] at member
  exact absurd member List.not_mem_nil

/-- What `intr_handler` does on entry, where none of its assertions fails. -/
theorem enter_cases (ran : enter idt v s = .ok s') :
    (external v = true ∧ s.in_external_intr = false ∧
      s' = { s.set_stack (⟨v,s.level,true⟩ :: s.stack) with
        level := .OFF, in_external_intr := true, yield_on_return := false, delivered := s.delivered ++ [v] }) ∨
    (external v = false ∧ s' = { s.set_stack (⟨v,s.level,true⟩ :: s.stack) with
      level := if idt.gate v = .OFF then .OFF else s.level }) := by
  unfold enter at ran
  cases known : (idt.registered v || v == 0x27 || v == 0x2f) with
  | false =>
    simp only [known,Bool.false_eq_true,if_false] at ran
    split_ifs at ran
  | true =>
    simp only [known,if_true] at ran
    cases outside : external v with
    | false =>
      rw [outside,if_neg Bool.false_ne_true] at ran
      cases ran
      exact .inr ⟨rfl,rfl⟩
    | true =>
      have off := idt.external_off v outside
      rw [outside,if_pos rfl,if_pos off,if_neg (fun wrong => wrong rfl)] at ran
      cases flag : s.in_external_intr with
      | true =>
        rw [flag,if_pos rfl] at ran
        cases ran
      | false =>
        rw [flag,if_neg Bool.false_ne_true] at ran
        cases ran
        exact .inl ⟨rfl,rfl,rfl⟩

theorem inv_enter (inv : Inv s) (ran : enter idt v s = .ok s') : Inv s' := by
  rcases enter_cases ran with ⟨outside,flag,rfl⟩ | ⟨inside,rfl⟩
  · rcases inv with quiet | ⟨w,busy⟩
    · refine .inr ⟨v,rfl,rfl,⟨[],⟨v,s.level,true⟩,s.stack,?_,rfl,⟨outside,rfl⟩,?_,quiet.free s.running⟩,?_,?_⟩
      · exact stack_set s _
      · exact fun b member => absurd member List.not_mem_nil
      · exact others_set fun t _ => quiet.free t
      · exact congrArg (· ++ [v]) quiet.ended
    · exact absurd (flag.symm.trans busy.flag) Bool.false_ne_true
  · have calm : ¬ Activation.Pending ⟨v,s.level,true⟩ := fun pending => Bool.false_ne_true (inside.symm.trans pending.1)
    rcases inv with quiet | ⟨w,busy⟩
    · exact .inl ⟨quiet.flag,quiet_set (fun t _ => quiet.free t) (free_cons calm (quiet.free s.running)),quiet.ended⟩
    · obtain ⟨inner,a,outer,handles⟩ := busy.handles
      refine .inr ⟨w,busy.flag,?_,⟨⟨v,s.level,true⟩ :: inner,a,outer,?_,handles.vec_no,handles.pending,?_,handles.free⟩,?_,busy.ended⟩
      · change (if idt.gate v = .OFF then Level.OFF else s.level) = .OFF
        rw [busy.off,ite_self]
      · exact (stack_set s _).trans (congrArg (⟨v,s.level,true⟩ :: ·) handles.split)
      · exact List.forall_mem_cons.mpr ⟨⟨inside,busy.off,rfl⟩,handles.inside⟩
      · exact others_set busy.others

/-- When the innermost handler returns, neither assertion of `intr_handler` fails. -/
theorem complete_spec (inv : Inv s) (top : s.stack = a :: rest) (handling : a.handling = true) :
    ∃ s', complete a rest s = .ok s' ∧ Inv s' := by
  unfold complete
  cases outside : external a.vec_no with
  | false =>
    refine ⟨_,rfl,?_⟩
    rcases inv with quiet | ⟨w,busy⟩
    · have free : Free s.stack := quiet.free s.running
      rw [top] at free
      exact .inl ⟨quiet.flag,quiet_set (fun t _ => quiet.free t) (free_tail free),quiet.ended⟩
    · obtain ⟨inner,b,outer,handles⟩ := busy.handles
      have split := handles.split
      rw [top] at split
      cases inner with
      | nil =>
        obtain ⟨rfl,rfl⟩ := List.cons.inj split
        exact absurd (outside.symm.trans handles.pending.1) Bool.false_ne_true
      | cons c inner =>
        obtain ⟨rfl,rfl⟩ := List.cons.inj split
        obtain ⟨first,later⟩ := List.forall_mem_cons.mp handles.inside
        refine .inr ⟨w,busy.flag,first.2.1,⟨inner,b,outer,stack_set s _,handles.vec_no,handles.pending,later,handles.free⟩,
          others_set busy.others,busy.ended⟩
  | true =>
    have pending : a.Pending := ⟨outside,handling⟩
    rcases inv with quiet | ⟨w,busy⟩
    · exact absurd pending (quiet.free s.running a (by rw [← State.stack,top]; exact List.mem_cons_self))
    · obtain ⟨inner,b,outer,handles⟩ := busy.handles
      have split := handles.split
      rw [top] at split
      cases inner with
      | cons c inner =>
        obtain ⟨rfl,rfl⟩ := List.cons.inj split
        exact absurd ((handles.inside a List.mem_cons_self).1.symm.trans outside) Bool.false_ne_true
      | nil =>
        obtain ⟨rfl,rfl⟩ := List.cons.inj split
        have ended : s.delivered = s.ended ++ [a.vec_no] := by rw [busy.ended,handles.vec_no]
        have done : ¬ Activation.Pending { a with handling := false } := fun pending => Bool.false_ne_true pending.2
        rw [if_pos rfl,if_neg (fun wrong => wrong busy.off),busy.flag,if_neg (by decide)]
        cases s.yield_on_return with
        | true => exact ⟨_,rfl,.inl ⟨rfl,quiet_set busy.others (free_cons done handles.free),ended⟩⟩
        | false => exact ⟨_,rfl,.inl ⟨rfl,quiet_set busy.others handles.free,ended⟩⟩

theorem inv_step (inv : Inv s) (comes : Comes s e) (ran : step idt s e = .ok s') : Inv s' := by
  cases e with
  | interrupt v => exact inv_enter inv ran
  | handler_returns =>
    obtain ⟨a,rest,top,handling⟩ := comes
    obtain ⟨s₁,done,kept⟩ := complete_spec inv top handling
    rw [step,top] at ran
    cases done.symm.trans ran
    exact kept
  | yielded =>
    obtain ⟨a,rest,top,handling⟩ := comes
    rw [step,top] at ran
    cases ran
    rcases inv with quiet | ⟨w,busy⟩
    · have free : Free s.stack := quiet.free s.running
      rw [top] at free
      exact .inl ⟨quiet.flag,quiet_set (fun t _ => quiet.free t) (free_tail free),quiet.ended⟩
    · -- every activation above the external one, and that one, is still in its handler
      obtain ⟨inner,b,outer,handles⟩ := busy.handles
      have split := handles.split
      rw [top] at split
      cases inner with
      | nil =>
        obtain ⟨rfl,rfl⟩ := List.cons.inj split
        exact absurd (handling.symm.trans handles.pending.2) Bool.false_ne_true
      | cons c inner =>
        obtain ⟨rfl,rfl⟩ := List.cons.inj split
        exact absurd (handling.symm.trans (handles.inside a List.mem_cons_self).2.2) Bool.false_ne_true
  | intr_enable =>
    rw [step] at ran
    cases flag : s.in_external_intr with
    | true =>
      rw [flag,if_pos rfl] at ran
      cases ran
    | false =>
      rw [flag,if_neg Bool.false_ne_true] at ran
      cases ran
      rcases inv with quiet | ⟨w,busy⟩
      · exact .inl ⟨rfl,quiet.free,quiet.ended⟩
      · exact absurd (flag.symm.trans busy.flag) Bool.false_ne_true
  | intr_disable =>
    cases ran
    rcases inv with quiet | ⟨w,busy⟩
    · exact .inl ⟨quiet.flag,quiet.free,quiet.ended⟩
    · exact .inr ⟨w,busy.flag,rfl,busy.handles,busy.others,busy.ended⟩
  | intr_yield_on_return =>
    rw [step] at ran
    split at ran
    · cases ran
      rcases inv with quiet | ⟨w,busy⟩
      · exact .inl ⟨quiet.flag,quiet.free,quiet.ended⟩
      · exact .inr ⟨w,busy.flag,busy.off,busy.handles,busy.others,busy.ended⟩
    · cases ran
  | switch next =>
    rw [step] at ran
    cases flag : s.in_external_intr with
    | true =>
      rw [flag,if_pos rfl] at ran
      cases ran
    | false =>
      rw [flag,if_neg Bool.false_ne_true] at ran
      cases ran
      rcases inv with quiet | ⟨w,busy⟩
      · exact .inl ⟨rfl,quiet.free,quiet.ended⟩
      · exact absurd (flag.symm.trans busy.flag) Bool.false_ne_true

theorem reaches_inv (reached : Reaches (machine idt) Comes s) : Inv s :=
  reaches_invariant Inv (fun _ => inv_init) (fun _ _ _ inv comes ran => inv_step inv comes ran) reached

/-- An external interrupt comes with interrupts on, so no other one is in its handler. -/
theorem enter_runs (inv : Inv s) (came : external v = true → s.level = .ON)
    (known : (idt.registered v || v == 0x27 || v == 0x2f) = true) :
    ∃ s', enter idt v s = .ok s' := by
  unfold enter
  simp only [known,if_true]
  cases outside : external v with
  | false => exact ⟨_,rfl⟩
  | true =>
    have flag : s.in_external_intr = false := by
      rcases inv with quiet | ⟨w,busy⟩
      · exact quiet.flag
      · exact absurd (busy.off.symm.trans (came outside)) (by decide)
    rw [if_pos (idt.external_off v outside),flag]
    exact ⟨_,rfl⟩

/-- Interrupt gates only, and a handler for each vector. -/
def all_off : Idt := ⟨fun _ => .OFF,fun _ => true,fun _ _ => rfl⟩

def starting : State := ⟨0,fun _ => [],false,false,.OFF,[],[]⟩

/-- The timer interrupts the first thread. -/
def ticking : State := { starting.set_stack [⟨0x20,.ON,true⟩] with in_external_intr := true, delivered := [0x20] }

end Pintos.InterruptContexts
