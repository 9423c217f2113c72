import Pintos.SynchSteps
import Pintos.ListFamilies
import Mathlib.Algebra.Order.BigOperators.Group.Finset

/-!
Nested donation on the pointers of the lock lists. The member `elem` of a lock may still be linked
into the list of another thread than its holder, as a release leaves it; to link it again then
cuts that other list, and a later search of it fails an assertion. The recursion ends nevertheless:
an activation that goes on has raised one more thread, and no edit makes a cycle of successors.
-/
namespace Pintos.Nesting
open Pintos.Synch Pintos.LinkedLists Pintos.ListFamilies
set_option linter.unusedSimpArgs false

/-- The nodes of lock lists: the sentinels in `struct thread` and the member of `struct lock`. -/
inductive Place
  | head (t : Tid)
  | tail (t : Tid)
  | elem (l : LockId)
deriving DecidableEq

/-- `struct thread` but for the sentinels of its `lock_list`. -/
structure Record where
  priority : Int
  orig_priority : Int
  donation_nested_level : Int
  lock_waiting_for : Option LockId

structure State where
  threads : Tid → Record
  holder : LockId → Option Tid
  memory : Memory Place

def State.priority (s : State) (t : Tid) : Int := (s.threads t).priority
def State.setThread (s : State) (t : Tid) (r : Record) : State :=
  { s with threads := fun u => if u = t then r else s.threads u }

/-- The loop of `list_exist`. The inner `none` is a failed assertion of `list_next`. -/
def existLoop : Nat → Memory Place → (tail e k : Place) → Option (Option Bool)
  | 0, _, _, _, _ => none
  | n + 1, m, tail, e, k =>
    if k = tail then some (some false)
    else if k = e then some (some true)
    else match (m k).next with
      | none => some none
      | some k => existLoop n m tail e k

/-- `list_exist` on the lock list of `t`. -/
def list_exist (fuel : Nat) (m : Memory Place) (t : Tid) (l : LockId) : Option (Option Bool) :=
  match (m (.head t)).next with
  | none => some none
  | some k => existLoop fuel m (.tail t) (.elem l) k

/-- What an activation comes to: its end, a failed assertion, or the activation for another lock. -/
inductive Next
  | ended
  | failed
  | again (l : LockId)

def followed (r : Record) : Next :=
  match r.lock_waiting_for with
  | none => .ended
  | some l => .again l

/-- The lock of the next activation, if there is one. -/
def Next.lock : Next → Option LockId
  | .again l => some l
  | _ => none

def saved (r : Record) : Record := if r.donation_nested_level = 0 then { r with orig_priority := r.priority } else r

/-- The holder `lh` takes the donation of `ct` through `l`, once it is known whether its list has the lock. -/
def take_donation (s : State) (ct lh : Tid) (l : LockId) : Option Bool → State × Next
  | none => (s.setThread lh (saved (s.threads lh)),.failed)
  | some true => (s.setThread lh { saved (s.threads lh) with priority := s.priority ct },followed (s.threads lh))
  | some false =>
    let r := saved (s.threads lh)
    let counted := { r with donation_nested_level := r.donation_nested_level + 1 }
    match list_push_back s.memory (.tail lh) (.elem l) with
    | none => (s.setThread lh counted,.failed)
    | some memory => ({ s.setThread lh { counted with priority := s.priority ct } with memory := memory },followed (s.threads lh))

/-- One activation of `priority_donation`. -/
def activation (fuel : Nat) (s : State) (ct : Tid) (l : LockId) : Option (State × Next) :=
  match s.holder l with
  | none => some (s,.ended)
  | some lh =>
    if s.priority lh < s.priority ct then
      if (s.threads lh).donation_nested_level < MAX_NESTED_LEVEL then
        (list_exist fuel s.memory lh l).map (take_donation s ct lh l)
      else some (s,.ended)
    else some (s,.ended)

/-- The recursion, with fuel for its depth and for the loops on lists. It returns, or an assertion fails in it. -/
def priority_donation (fuel : Nat) : Nat → State → Tid → LockId → Option (State × Bool)
  | 0, _, _, _ => none
  | n + 1, s, ct, l =>
    match activation fuel s ct l with
    | none => none
    | some (s',.ended) => some (s',true)
    | some (s',.failed) => some (s',false)
    | some (s',.again next) => priority_donation fuel n s' ct next

/-! ### Successors -/

/-- The nodes that a search can come to, with the number of steps that it has left there. -/
structure Forward (m : Memory Place) (count : Nat) (live : Place → Prop) (rank : Place → Nat) : Prop where
  heads : ∀ t, live (.head t) ↔ t < count
  tails : ∀ t, live (.tail t) ↔ t < count
  ends : ∀ t < count, (m (.tail t)).next = none
  step : ∀ a b, live a → (m a).next = some b → live b ∧ rank b < rank a
  inner : ∀ a t, live a → (m a).next ≠ some (.head t)
  back : ∀ a t, live a → (m a).next = some (.tail t) → (m (.tail t)).prev = some a

variable {m m' : Memory Place} {count n fuel : Nat} {live : Place → Prop} {rank : Place → Nat} {t lh ct : Tid} {l : LockId}
  {s s' : State} {a k q : Place}

/-- A search ends; one that finds nothing has come to the tail, from a node that is not the element. -/
theorem existLoop_spec (forward : Forward m count live rank) (alive : live a) (next : (m a).next = some k)
    (other : a ≠ .elem l) (own : ∀ u, a = .head u → u = lh) (enough : rank k < n) :
    ∃ answer, existLoop n m (.tail lh) (.elem l) k = some answer ∧
      (answer = some false →
        ∃ q, live q ∧ q ≠ .elem l ∧ (∀ u, q = .head u → u = lh) ∧ (m q).next = some (.tail lh)) := by
  induction n generalizing a k with
  | zero => omega
  | succ n ih =>
    rw [existLoop]
    by_cases ended : k = .tail lh
    · subst ended
      exact ⟨_,if_pos rfl,fun _ => ⟨a,alive,other,own,next⟩⟩
    · by_cases found : k = .elem l
      · exact ⟨_,by rw [if_neg ended,if_pos found],fun absent => by cases absent⟩
      · rw [if_neg ended,if_neg found]
        cases later : (m k).next with
        | none => exact ⟨_,rfl,fun absent => by cases absent⟩
        | some b =>
          have alive' := (forward.step a k alive next).1
          refine ih alive' later found ?_ ?_
          · rintro u rfl
            exact absurd next (forward.inner a u alive)
          · have := (forward.step k b alive' later).2
            omega

/-- What a search that finds nothing knows of the end of the list. -/
theorem list_exist_spec (forward : Forward m count live rank) (known : lh < count) (enough : rank (.head lh) ≤ fuel) :
    ∃ answer, list_exist fuel m lh l = some answer ∧
      (answer = some false → ∃ q, live q ∧ q ≠ .elem l ∧ (∀ u, q = .head u → u = lh) ∧ (m q).next = some (.tail lh)) := by
  have alive := (forward.heads lh).mpr known
  rw [list_exist]
  cases next : (m (.head lh)).next with
  | none => exact ⟨none,rfl,fun absent => by cases absent⟩
  | some k =>
    have fewer := (forward.step _ k alive next).2
    refine existLoop_spec forward alive next (by simp) ?_ (by omega)
    intro u same
    cases same
    rfl

/-- To link an element at the end of a list makes no cycle, whatever list the element was in. -/
theorem forward_push (forward : Forward m count live rank) (known : lh < count) (alive : live q) (other : q ≠ .elem l)
    (own : ∀ u, q = .head u → u = lh) (last : (m q).next = some (.tail lh)) :
    ∃ m', list_push_back m (.tail lh) (.elem l) = some m' ∧
      Forward m' count (fun a => live a ∨ a = .elem l)
        (fun a => if a = .elem l then 1 else if a = .tail lh then 0 else rank a + 2) ∧
      ∀ u, u ≠ lh → m' (.head u) = m (.head u) ∧ m' (.tail u) = m (.tail u) := by
  have prev := forward.back q lh alive last
  obtain ⟨m',pushed,nexts,prevs⟩ := @list_insert_links _ _ _ _ _ (.elem l) prev (by simp)
  have q_tail : ∀ u, q ≠ .tail u := by
    rintro u rfl
    rw [forward.ends u ((forward.tails u).mp alive)] at last
    cases last
  refine ⟨m',pushed,⟨?_,?_,?_,?_,?_,?_⟩,?_⟩
  · intro u
    simpa using forward.heads u
  · intro u
    simpa using forward.tails u
  · intro u inside
    rw [nexts,if_neg (q_tail u).symm,if_neg (by simp)]
    exact forward.ends u inside
  · intro a b member next
    rw [nexts] at next
    by_cases first : a = q
    · subst first
      rw [if_pos rfl] at next
      cases next
      refine ⟨.inr rfl,?_⟩
      rw [if_pos rfl,if_neg other,if_neg (q_tail lh)]
      omega
    · rw [if_neg first] at next
      by_cases second : a = .elem l
      · subst second
        rw [if_pos rfl] at next
        cases next
        exact ⟨.inl ((forward.tails lh).mpr known),by simp⟩
      · rw [if_neg second] at next
        have alive := member.resolve_right second
        obtain ⟨alive_next,fewer⟩ := forward.step a b alive next
        refine ⟨.inl alive_next,?_⟩
        have not_tail : a ≠ .tail lh := by
          rintro rfl
          rw [forward.ends lh known] at next
          cases next
        rw [if_neg second,if_neg not_tail]
        split
        · omega
        · split <;> omega
  · intro a u member next
    rw [nexts] at next
    split at next
    · cases next
    · split at next
      · cases next
      · next second => exact forward.inner a u (member.resolve_right second) next
  · intro a u member next
    rw [nexts] at next
    rw [prevs]
    by_cases first : a = q
    · rw [if_pos first] at next
      cases next
    · rw [if_neg first] at next
      by_cases second : a = .elem l
      · rw [if_pos second] at next
        cases next
        rw [if_pos rfl,second]
      · rw [if_neg second] at next
        have before := forward.back a u (member.resolve_right second) next
        have different : (Place.tail u) ≠ .tail lh := by
          intro same
          rw [same,prev] at before
          exact first (Option.some.inj before).symm
        rw [if_neg different,if_neg (by simp)]
        exact before
  · intro u different
    have not_head : (Place.head u) ≠ q := fun same => different (own u same.symm)
    constructor
    · ext1
      · rw [prevs,if_neg (by simp),if_neg (by simp)]
      · rw [nexts,if_neg not_head,if_neg (by simp)]
    · ext1
      · rw [prevs,if_neg (by simpa using different),if_neg (by simp)]
      · rw [nexts,if_neg (q_tail u).symm,if_neg (by simp)]

/-! ### One activation -/

theorem setThread_same {r : Record} : (s.setThread t r).threads t = r := by simp [State.setThread]
theorem setThread_other {r : Record} {u : Tid} (other : u ≠ t) : (s.setThread t r).threads u = s.threads u := by
  simp [State.setThread,other]
theorem followed_lock (r : Record) : followed r ≠ .failed ∧ (followed r).lock = r.lock_waiting_for := by
  unfold followed
  split
  · next waits => exact ⟨by simp,waits.symm⟩
  · next m waits => exact ⟨by simp,waits.symm⟩

theorem saved_waiting (r : Record) : (saved r).lock_waiting_for = r.lock_waiting_for := by
  unfold saved
  split <;> rfl
theorem saved_priority (r : Record) : (saved r).priority = r.priority := by
  unfold saved
  split <;> rfl

/-- What an activation does to a holder `lh` of a lower priority, and to it alone. -/
structure Raised (s s' : State) (ct lh : Tid) (next : Next) : Prop where
  lower : s.priority lh < s.priority ct
  waiting : (s'.threads lh).lock_waiting_for = (s.threads lh).lock_waiting_for
  priority : next = .failed ∧ s'.priority lh = s.priority lh ∨ next = followed (s.threads lh) ∧ s'.priority lh = s.priority ct
  others : ∀ u, u ≠ lh → s'.threads u = s.threads u ∧ s'.memory (.head u) = s.memory (.head u) ∧
    s'.memory (.tail u) = s.memory (.tail u)

/-- An edit of the record of `lh` with its priority raised, and of the end of its list. -/
theorem raised_of {r : Record} {m : Memory Place} (lower : s.priority lh < s.priority ct)
    (waiting : r.lock_waiting_for = (s.threads lh).lock_waiting_for) (priority : r.priority = s.priority ct)
    (frame : ∀ u, u ≠ lh → m (.head u) = s.memory (.head u) ∧ m (.tail u) = s.memory (.tail u)) :
    Raised s { s.setThread lh r with memory := m } ct lh (followed (s.threads lh)) where
  lower := lower
  waiting := by
    show ((s.setThread lh r).threads lh).lock_waiting_for = _
    rw [setThread_same,waiting]
  priority := by
    refine .inr ⟨rfl,?_⟩
    show ((s.setThread lh r).threads lh).priority = _
    rw [setThread_same,priority]
  others u other := ⟨setThread_other other,frame u other⟩

theorem activation_spec {bound : Nat} (forward : Forward s.memory count live rank) (bounded : ∀ a, live a → rank a ≤ bound)
    (held : ∀ l t, s.holder l = some t → t < count) (room : bound ≤ fuel) :
    ∃ s' next, activation fuel s ct l = some (s',next) ∧ s'.holder = s.holder ∧
      (∃ live rank, Forward s'.memory count live rank ∧ ∀ a, live a → rank a ≤ bound + 2) ∧
      (s' = s ∧ next = .ended ∨ ∃ lh, s.holder l = some lh ∧ Raised s s' ct lh next) := by
  have same : ∃ live rank, Forward s.memory count live rank ∧ ∀ a, live a → rank a ≤ bound + 2 :=
    ⟨live,rank,forward,fun a alive => (bounded a alive).trans (Nat.le_add_right _ _)⟩
  cases holds : s.holder l with
  | none => exact ⟨s,.ended,by simp only [activation,holds],rfl,same,.inl ⟨rfl,rfl⟩⟩
  | some lh =>
    have known := held l lh holds
    by_cases lower : s.priority lh < s.priority ct
    · by_cases level : (s.threads lh).donation_nested_level < MAX_NESTED_LEVEL
      · obtain ⟨answer,searched,absent⟩ := list_exist_spec (l := l) forward known
          ((bounded _ ((forward.heads lh).mpr known)).trans room)
        have searched : list_exist fuel s.memory lh l = some answer := searched
        have ran : activation fuel s ct l = some (take_donation s ct lh l answer) := by
          simp only [activation,holds,lower,if_true,level,searched,Option.map_some]
        refine ⟨(take_donation s ct lh l answer).1,(take_donation s ct lh l answer).2,ran,?_⟩
        have priority := saved_priority (s.threads lh)
        have waiting := saved_waiting (s.threads lh)
        cases answer with
        | none =>
          refine ⟨rfl,same,.inr ⟨lh,rfl,lower,?_,.inl ⟨rfl,?_⟩,fun u other => ⟨setThread_other other,rfl,rfl⟩⟩⟩
          · show ((s.setThread lh _).threads lh).lock_waiting_for = _
            rw [setThread_same,waiting]
          · show ((s.setThread lh _).threads lh).priority = _
            rw [setThread_same,priority]
            rfl
        | some exist =>
          cases exist with
          | true => exact ⟨rfl,same,.inr ⟨lh,rfl,raised_of lower waiting rfl fun u other => ⟨rfl,rfl⟩⟩⟩
          | false =>
            obtain ⟨q,alive,other,own,last⟩ := absent rfl
            obtain ⟨m',pushed,forward',frame⟩ := forward_push forward known alive other own last
            simp only [take_donation,pushed]
            refine ⟨rfl,⟨_,_,forward',?_⟩,.inr ⟨lh,rfl,raised_of lower waiting rfl frame⟩⟩
            intro a alive
            split
            · omega
            · next different =>
              split
              · omega
              · have := bounded a (alive.resolve_right different)
                omega
      · exact ⟨s,.ended,by simp only [activation,holds,lower,if_true,level,if_false],rfl,same,.inl ⟨rfl,rfl⟩⟩
    · exact ⟨s,.ended,by simp only [activation,holds,lower,if_false],rfl,same,.inl ⟨rfl,rfl⟩⟩

/-! ### The recursion -/

/-- The threads that the links from `l` lead to. -/
inductive Reached (s : State) : LockId → Tid → Prop
  | holder {l : LockId} {t : Tid} : s.holder l = some t → Reached s l t
  | waiting {l m : LockId} {t u : Tid} : s.holder l = some t → (s.threads t).lock_waiting_for = some m → Reached s m u →
      Reached s l u

/-- What a donation of the thread `ct` for the lock `l` does. -/
structure Donated (s s' : State) (ct : Tid) (l : LockId) : Prop where
  holder : s'.holder = s.holder
  waiting : ∀ t, (s'.threads t).lock_waiting_for = (s.threads t).lock_waiting_for
  raised : ∀ t, s'.priority t = s.priority t ∨ s.priority t < s.priority ct ∧ s'.priority t = s.priority ct
  others : ∀ t, ¬ Reached s l t → s'.threads t = s.threads t ∧ s'.memory (.head t) = s.memory (.head t) ∧
    s'.memory (.tail t) = s.memory (.tail t)

theorem reached_congr (holder : s'.holder = s.holder)
    (waiting : ∀ t, (s'.threads t).lock_waiting_for = (s.threads t).lock_waiting_for) (reached : Reached s' l t) :
    Reached s l t := by
  induction reached with
  | holder holds => exact .holder (holder ▸ holds)
  | waiting holds waits _ ih => exact .waiting (holder ▸ holds) (by rw [← waiting]; exact waits) ih

/-- The threads that can still be raised to the priority `p`. -/
def below (s : State) (count : Nat) (p : Int) : Finset Tid := (Finset.range count).filter fun t => s.priority t < p

/-- An activation that goes on has raised one more thread. -/
theorem below_raised {next : LockId} (raised : Raised s s' ct lh (.again next)) (known : lh < count) :
    s'.priority ct = s.priority ct ∧ (below s' count (s.priority ct)).card < (below s count (s.priority ct)).card := by
  have other : ct ≠ lh := by
    rintro rfl
    exact Int.lt_irrefl _ raised.lower
  have high : s'.priority lh = s.priority ct := by
    rcases raised.priority with ⟨failed,_⟩ | ⟨_,high⟩
    · cases failed
    · exact high
  have same : ∀ u, u ≠ lh → s'.priority u = s.priority u := fun u different => by
    rw [State.priority,(raised.others u different).1]
    rfl
  refine ⟨same ct other,Finset.card_lt_card ((Finset.ssubset_iff_of_subset ?_).mpr ⟨lh,?_,?_⟩)⟩
  · intro u member
    simp only [below,Finset.mem_filter,Finset.mem_range] at member ⊢
    refine ⟨member.1,?_⟩
    by_cases here : u = lh
    · exact here ▸ raised.lower
    · exact same u here ▸ member.2
  · simp [below,known,raised.lower]
  · simp [below,high]

theorem raised_waiting {next : Next} (raised : Raised s s' ct lh next) (t : Tid) :
    (s'.threads t).lock_waiting_for = (s.threads t).lock_waiting_for := by
  by_cases here : t = lh
  · exact here ▸ raised.waiting
  · rw [(raised.others t here).1]

theorem donated_once {next : Next} (holder : s'.holder = s.holder) (holds : s.holder l = some lh)
    (raised : Raised s s' ct lh next) : Donated s s' ct l where
  holder := holder
  waiting := raised_waiting raised
  raised t := by
    by_cases here : t = lh
    · subst here
      rcases raised.priority with ⟨_,same⟩ | ⟨_,high⟩
      · exact .inl same
      · exact .inr ⟨raised.lower,high⟩
    · exact .inl (by rw [State.priority,(raised.others t here).1]; rfl)
  others t unreached := raised.others t fun here => unreached (here ▸ .holder holds)

theorem donated_further {next : LockId} {last : State} (holds : s.holder l = some lh) (raised : Raised s s' ct lh (.again next))
    (own : s'.priority ct = s.priority ct) (first : Donated s s' ct l) (later : Donated s' last ct next) :
    Donated s last ct l where
  holder := later.holder.trans first.holder
  waiting t := (later.waiting t).trans (first.waiting t)
  raised t := by
    rcases later.raised t with same | ⟨lower,high⟩
    · rw [same]
      exact first.raised t
    · rw [own] at lower high
      refine .inr ⟨?_,high⟩
      rcases first.raised t with same | ⟨before,_⟩
      · rwa [same] at lower
      · exact before
  others t unreached := by
    have waits : (s.threads lh).lock_waiting_for = some next := by
      rcases raised.priority with ⟨failed,_⟩ | ⟨follows,_⟩
      · cases failed
      · rw [followed] at follows
        split at follows
        · cases follows
        · next m waits =>
          rw [waits]
          cases follows
          rfl
    have further : ¬ Reached s' next t := fun reached =>
      unreached (.waiting holds waits (reached_congr first.holder first.waiting reached))
    obtain ⟨threads₁,head₁,tail₁⟩ := first.others t unreached
    obtain ⟨threads₂,head₂,tail₂⟩ := later.others t further
    exact ⟨threads₂.trans threads₁,head₂.trans head₁,tail₂.trans tail₁⟩

/-- The recursion ends within the number of threads that it can still raise, on any graph of waiting threads. -/
theorem priority_donation_spec {bound : Nat} (forward : Forward s.memory count live rank)
    (bounded : ∀ a, live a → rank a ≤ bound) (held : ∀ l t, s.holder l = some t → t < count)
    (depth : (below s count (s.priority ct)).card < n) (room : bound + 2 * (below s count (s.priority ct)).card ≤ fuel) :
    ∃ s' returned, priority_donation fuel n s ct l = some (s',returned) ∧ Donated s s' ct l := by
  induction n generalizing s l live rank bound with
  | zero => omega
  | succ n ih =>
    obtain ⟨s',next,ran,holder,⟨live',rank',forward',bounded'⟩,outcome⟩ :=
      activation_spec (l := l) forward bounded held (Nat.le_trans (Nat.le_add_right _ _) room)
    rw [priority_donation,ran]
    rcases outcome with ⟨rfl,rfl⟩ | ⟨lh,holds,raised⟩
    · exact ⟨s',true,rfl,rfl,fun _ => rfl,fun _ => .inl rfl,fun _ _ => ⟨rfl,rfl,rfl⟩⟩
    · have first := donated_once holder holds raised
      cases next with
      | ended => exact ⟨s',true,rfl,first⟩
      | failed => exact ⟨s',false,rfl,first⟩
      | again next =>
        obtain ⟨own,fewer⟩ := below_raised raised (held l lh holds)
        obtain ⟨last,returned,further,later⟩ := ih (l := next) forward' bounded' (fun m t holds => held m t (holder ▸ holds))
          (by rw [own]; omega) (by rw [own]; omega)
        exact ⟨last,returned,further,donated_further holds raised own first later⟩

/-! ### Lists that hold sequences -/

section Sequences
variable {xs : Tid → List Place}

/-- The number of nodes after a node in its list. -/
def distance (count : Nat) (xs : Tid → List Place) (a : Place) : Nat :=
  ∑ t ∈ Finset.range count, ((nodes (.head t) (.tail t) (xs t)).length - (nodes (.head t) (.tail t) (xs t)).idxOf a)

/-- Two nodes of a list that follow each other. -/
theorem successor {head tail b : Place} {xs : List Place} (list : Represents m head tail xs) (member : a ∈ nodes head tail xs)
    (next : (m a).next = some b) :
    (m b).prev = some a ∧ b ∈ xs ++ [tail] ∧ ∃ before after, nodes head tail xs = before ++ a :: b :: after := by
  obtain ⟨before,after,split⟩ := List.append_of_mem member
  have linked := list.linked
  rw [show head :: (xs ++ [tail]) = before ++ a :: after from split] at linked
  cases after with
  | nil =>
    have same : head :: xs ++ [tail] = before ++ [a] := split
    rw [← (List.append_inj' same rfl).2 |> List.cons.inj |>.1,list.last] at next
    cases next
  | cons c after =>
    have back := ((linked_append before (c :: after) a).mp linked).2
    obtain rfl : c = b := Option.some.inj (back.1.symm.trans next)
    refine ⟨back.2.1,?_,before,after,split⟩
    cases before with
    | nil =>
      have rest : xs ++ [tail] = c :: after := (List.cons.inj split).2
      rw [rest]
      exact List.mem_cons_self
    | cons d before =>
      have rest : xs ++ [tail] = before ++ a :: c :: after := (List.cons.inj split).2
      rw [rest]
      simp

theorem idxOf_successor {before after : List Place} {b : Place} (once : (before ++ a :: b :: after).Nodup) :
    (before ++ a :: b :: after).idxOf a = before.length ∧ (before ++ a :: b :: after).idxOf b = before.length + 1 := by
  obtain ⟨_,rest,apart⟩ := List.nodup_append.mp once
  have different : a ≠ b := fun same => (List.nodup_cons.mp rest).1 (same ▸ List.mem_cons_self)
  have a_out : a ∉ before := fun member => apart a member a (by simp) rfl
  have b_out : b ∉ before := fun member => apart b member b (by simp) rfl
  constructor
  · rw [List.idxOf_append_of_notMem a_out,List.idxOf_cons_self,Nat.add_zero]
  · rw [List.idxOf_append_of_notMem b_out,List.idxOf_cons_ne _ different,List.idxOf_cons_self]

theorem forward_of_family (family : Family m (· < count) Place.head Place.tail xs)
    (elements : ∀ t < count, ∀ a ∈ xs t, ∃ l, a = .elem l) :
    Forward m count (fun a => ∃ t < count, a ∈ nodes (.head t) (.tail t) (xs t)) (distance count xs) where
  heads t := by
    refine ⟨?_,fun known => ⟨t,known,mem_nodes.mpr (.inl rfl)⟩⟩
    rintro ⟨u,known,member⟩
    rcases mem_nodes.mp member with same | listed | same
    · cases same
      exact known
    · obtain ⟨l,same⟩ := elements u known _ listed
      cases same
    · cases same
  tails t := by
    refine ⟨?_,fun known => ⟨t,known,mem_nodes.mpr (.inr (.inr rfl))⟩⟩
    rintro ⟨u,known,member⟩
    rcases mem_nodes.mp member with same | listed | same
    · cases same
    · obtain ⟨l,same⟩ := elements u known _ listed
      cases same
    · cases same
      exact known
  ends t known := (family.each t known).last
  step a b := by
    rintro ⟨t,known,member⟩ next
    obtain ⟨_,listed,before,after,split⟩ := successor (family.each t known) member next
    have inside : b ∈ nodes (.head t) (.tail t) (xs t) := List.mem_cons_of_mem _ listed
    refine ⟨⟨t,known,inside⟩,Finset.sum_lt_sum ?_ ⟨t,Finset.mem_range.mpr known,?_⟩⟩
    · intro u member_u
      by_cases here : u = t
      · subst here
        have once : (nodes (Place.head u) (.tail u) (xs u)).Nodup := (family.each u known).once
        rw [split] at once
        have places := idxOf_successor once
        rw [split,places.1,places.2]
        omega
      · have out : b ∉ nodes (.head u) (.tail u) (xs u) :=
          family.apart t u known (Finset.mem_range.mp member_u) (Ne.symm here) b inside
        rw [List.idxOf_eq_length out,Nat.sub_self]
        exact Nat.zero_le _
    · have once : (nodes (Place.head t) (.tail t) (xs t)).Nodup := (family.each t known).once
      rw [split] at once
      have places := idxOf_successor once
      rw [split,places.1,places.2]
      simp only [List.length_append,List.length_cons]
      omega
  inner a t := by
    rintro ⟨u,known,member⟩ next
    obtain ⟨_,listed,_⟩ := successor (family.each u known) member next
    rcases List.mem_append.mp listed with element | last
    · obtain ⟨l,same⟩ := elements u known _ element
      cases same
    · cases List.mem_singleton.mp last
  back a t := by
    rintro ⟨u,known,member⟩ next
    exact (successor (family.each u known) member next).1

theorem distance_le (count : Nat) (xs : Tid → List Place) (a : Place) :
    distance count xs a ≤ ∑ t ∈ Finset.range count, ((xs t).length + 2) := by
  refine Finset.sum_le_sum fun t _ => ?_
  refine (Nat.sub_le _ _).trans ?_
  simp [nodes]

/-- In a list that is whole the search tells whether the element is there. -/
theorem existLoop_listed {head tail e : Place} {pre ys : List Place} {answer : Option Bool}
    (list : Represents m head tail (pre ++ ys)) (searched : existLoop n m tail e (following tail ys) = some answer) :
    answer = some (decide (e ∈ ys)) := by
  induction n generalizing pre ys with
  | zero => cases searched
  | succ n ih =>
    rw [existLoop] at searched
    cases ys with
    | nil =>
      have ends : following tail [] = tail := rfl
      rw [ends,if_pos rfl] at searched
      simpa using searched.symm
    | cons y rest =>
      have y_tail : y ≠ tail := by
        have once := (List.nodup_cons.mp list.once).2
        exact (List.nodup_append.mp once).2.2 y (by simp) tail (by simp)
      have next := (represents_links list).2
      have begins : following tail (y :: rest) = y := rfl
      rw [begins,if_neg y_tail] at searched
      by_cases found : y = e
      · rw [if_pos found] at searched
        simpa [found] using searched.symm
      · rw [if_neg found,next] at searched
        have later := @ih (pre ++ [y]) rest (by simpa using list) searched
        rw [later]
        congr 1
        simp [Ne.symm found]

/-- Each lock list is whole and has only locks that its thread holds. -/
def Coherent (s : State) (count : Nat) : Prop :=
  ∃ xs, Family s.memory (· < count) Place.head Place.tail xs ∧ ∀ t < count, ∀ a ∈ xs t, ∃ l, a = .elem l ∧ s.holder l = some t

theorem activation_coherent {next : Next} (coherent : Coherent s count) (held : ∀ l t, s.holder l = some t → t < count)
    (ran : activation fuel s ct l = some (s',next)) : Coherent s' count ∧ next ≠ .failed := by
  obtain ⟨xs,family,elements⟩ := coherent
  rw [activation] at ran
  split at ran
  · cases ran
    exact ⟨⟨xs,family,elements⟩,by simp⟩
  · next lh holds =>
    have known := held l lh holds
    split at ran
    · split at ran
      · obtain ⟨answer,searched,taken⟩ := Option.map_eq_some_iff.mp ran
        have found : answer = some (decide (Place.elem l ∈ xs lh)) := by
          have list := family.each lh known
          rw [list_exist,(represents_front list).1] at searched
          exact @existLoop_listed _ _ _ _ _ [] _ _ list searched
        by_cases listed : Place.elem l ∈ xs lh
        · rw [found,decide_eq_true listed] at taken
          cases taken
          exact ⟨⟨xs,family,elements⟩,(followed_lock _).1⟩
        · rw [found,decide_eq_false listed] at taken
          -- no other list has the element, as `lh` holds the lock
          have fresh : ∀ u, u < count → Place.elem l ∉ nodes (Place.head u) (.tail u) (xs u) := by
            intro u inside member
            rcases mem_nodes.mp member with same | element | same
            · cases same
            · obtain ⟨m,same,holds'⟩ := elements u inside _ element
              cases same
              rw [holds] at holds'
              cases holds'
              exact listed element
            · cases same
          obtain ⟨m',pushed,family',_⟩ := family_insert (.elem l) (xs lh) [] family known (List.append_nil _).symm fresh
          have pushed : list_push_back s.memory (.tail lh) (.elem l) = some m' := pushed
          simp only [take_donation,pushed] at taken
          cases taken
          refine ⟨⟨_,family',?_⟩,(followed_lock _).1⟩
          intro t inside a member
          by_cases here : t = lh
          · subst here
            rw [Function.update_self] at member
            rcases List.mem_append.mp member with old | new
            · exact elements t inside a old
            · exact ⟨l,List.mem_singleton.mp new,holds⟩
          · rw [Function.update_of_ne here] at member
            exact elements t inside a member
      · cases ran
        exact ⟨⟨xs,family,elements⟩,by simp⟩
    · cases ran
      exact ⟨⟨xs,family,elements⟩,by simp⟩

end Sequences

theorem activation_holder {next : Next} (ran : activation fuel s ct l = some (s',next)) : s'.holder = s.holder := by
  rw [activation] at ran
  split at ran
  · cases ran
    rfl
  · split at ran
    · split at ran
      · obtain ⟨answer,_,taken⟩ := Option.map_eq_some_iff.mp ran
        unfold take_donation at taken
        split at taken
        · cases taken
          rfl
        · cases taken
          rfl
        · dsimp only at taken
          split at taken <;> cases taken <;> rfl
      · cases ran
        rfl
    · cases ran
      rfl

theorem donation_returns {returned : Bool} (coherent : Coherent s count) (held : ∀ l t, s.holder l = some t → t < count)
    (ran : priority_donation fuel n s ct l = some (s',returned)) : returned = true := by
  induction n generalizing s l with
  | zero => cases ran
  | succ n ih =>
    rw [priority_donation] at ran
    cases once : activation fuel s ct l with
    | none => simp [once] at ran
    | some result =>
      obtain ⟨middle,next⟩ := result
      obtain ⟨coherent',alive⟩ := activation_coherent coherent held once
      rw [once] at ran
      cases next with
      | ended =>
        cases ran
        rfl
      | failed => exact absurd rfl alive
      | again next => exact ih coherent' (fun m t holds => held m t (activation_holder once ▸ holds)) ran

/-! ### The sequences of lock lists -/

/-- The lock lists hold the sequences of `k`, and the rest of the threads is as in `k`. -/
structure Shows (s : State) (k : Kernel) : Prop where
  holder : s.holder = k.holder
  priority : ∀ t, (s.threads t).priority = (k.threads t).priority
  orig_priority : ∀ t, (s.threads t).orig_priority = (k.threads t).orig_priority
  level : ∀ t, (s.threads t).donation_nested_level = (k.threads t).donation_nested_level
  waiting : ∀ t, (s.threads t).lock_waiting_for = (k.threads t).lock_waiting_for
  lists : Family s.memory (· < k.count) Place.head Place.tail fun t => (k.threads t).lock_list.map .elem

/-- A record that takes a donation, beside the one of the same thread with its sequence. -/
theorem shows_thread {k : Kernel} {r : Record} {h : Thread} {m : Memory Place} (shown : Shows s k)
    (priority : r.priority = h.priority) (orig_priority : r.orig_priority = h.orig_priority)
    (level : r.donation_nested_level = h.donation_nested_level) (waiting : r.lock_waiting_for = h.lock_waiting_for)
    (lists : Family m (· < k.count) Place.head Place.tail
      (Function.update (fun t => (k.threads t).lock_list.map Place.elem) lh (h.lock_list.map .elem))) :
    Shows { s.setThread lh r with memory := m } (k.setThread lh h) where
  holder := shown.holder
  priority t := by
    by_cases here : t = lh <;> simp [State.setThread,Kernel.setThread,here,priority,shown.priority]
  orig_priority t := by
    by_cases here : t = lh <;> simp [State.setThread,Kernel.setThread,here,orig_priority,shown.orig_priority]
  level t := by
    by_cases here : t = lh <;> simp [State.setThread,Kernel.setThread,here,level,shown.level]
  waiting t := by
    by_cases here : t = lh <;> simp [State.setThread,Kernel.setThread,here,waiting,shown.waiting]
  lists := by
    refine family_congr lists fun t _ => ?_
    by_cases here : t = lh
    · subst here
      simp [Kernel.setThread]
    · rw [Function.update_of_ne here]
      simp [Kernel.setThread,here]

/-- An activation on the pointers is the one on the sequences, where that is defined. -/
theorem activation_shows {k k' : Kernel} {next : Next} {further : Option LockId} (shown : Shows s k)
    (held : ∀ l t, k.holder l = some t → t < k.count) (once : donateOnce k ct l = some (k',further))
    (ran : activation fuel s ct l = some (s',next)) : Shows s' k' ∧ next ≠ .failed ∧ next.lock = further := by
  rw [activation,shown.holder] at ran
  rcases donateOnce_cases once with ⟨rfl,rfl,stops⟩ | ⟨lh,holds,lower,level,separate,rfl,rfl⟩
  · have ended : s' = s ∧ next = .ended := by
      split at ran
      · cases ran
        exact ⟨rfl,rfl⟩
      · next lh holds =>
        rcases stops lh holds with high | full
        · rw [if_neg] at ran
          · cases ran
            exact ⟨rfl,rfl⟩
          · rw [State.priority,State.priority,shown.priority,shown.priority]
            exact Int.not_lt.mpr high
        · rw [if_neg (c := _ < MAX_NESTED_LEVEL) (by rw [shown.level]; exact Int.not_lt.mpr full),ite_self] at ran
          cases ran
          exact ⟨rfl,rfl⟩
    obtain ⟨rfl,rfl⟩ := ended
    exact ⟨shown,by simp,rfl⟩
  · have known := held l lh holds
    have donor : s.priority ct = k.priority ct := shown.priority ct
    have lower' : s.priority lh < s.priority ct := by
      rw [donor,State.priority,shown.priority]
      exact lower
    rw [holds] at ran
    simp only [lower',shown.level,level,if_true] at ran
    obtain ⟨answer,searched,taken⟩ := Option.map_eq_some_iff.mp ran
    have found : answer = some (decide (l ∈ (k.threads lh).lock_list)) := by
      have list := shown.lists.each lh known
      rw [list_exist,(represents_front list).1] at searched
      have found := @existLoop_listed _ _ _ _ _ [] _ _ list searched
      simpa using found
    obtain ⟨alive,lock⟩ := followed_lock (s.threads lh)
    have orig_priority : (saved (s.threads lh)).orig_priority = (donated (k.threads lh) l (k.priority ct)).orig_priority := by
      rw [donated_orig,saved,shown.level]
      split
      · exact shown.priority lh
      · exact shown.orig_priority lh
    have waiting : (saved (s.threads lh)).lock_waiting_for = (donated (k.threads lh) l (k.priority ct)).lock_waiting_for := by
      rw [saved_waiting,donated_waiting,shown.waiting]
    have level_same : (saved (s.threads lh)).donation_nested_level = (k.threads lh).donation_nested_level := by
      rw [← shown.level,saved]
      split <;> rfl
    by_cases listed : l ∈ (k.threads lh).lock_list
    · rw [found,decide_eq_true listed] at taken
      cases taken
      obtain ⟨list_same,level_kept⟩ := donated_listed (k.threads lh) (k.priority ct) listed
      refine ⟨shows_thread shown donor orig_priority (level_same.trans level_kept.symm) waiting ?_,alive,
        by rw [lock,shown.waiting]⟩
      rw [list_same,Function.update_eq_self (f := fun t => (k.threads t).lock_list.map Place.elem)]
      exact shown.lists
    · rw [found,decide_eq_false listed] at taken
      obtain ⟨list_more,level_more⟩ := donated_unlisted (k.threads lh) (k.priority ct) listed
      have fresh : ∀ u, u < k.count →
          Place.elem l ∉ nodes (Place.head u) (.tail u) ((k.threads u).lock_list.map Place.elem) := by
        intro u inside member
        have apart : l ∉ (k.threads u).lock_list := by
          by_cases here : u = lh
          · exact here ▸ listed
          · have nowhere := separate listed
            simp only [linkedElsewhere,List.any_eq_false,List.mem_range] at nowhere
            simpa [here] using nowhere u inside
        simp [mem_nodes,apart] at member
      obtain ⟨m',pushed,family',_⟩ := family_insert (.elem l) ((k.threads lh).lock_list.map Place.elem) [] shown.lists known
        (List.append_nil _).symm fresh
      have pushed : list_push_back s.memory (.tail lh) (.elem l) = some m' := pushed
      simp only [take_donation,pushed] at taken
      cases taken
      refine ⟨shows_thread shown donor orig_priority ?_ waiting ?_,alive,by rw [lock,shown.waiting]⟩
      · rw [level_more,← level_same]
      · rw [list_more,List.map_append]
        exact family'

/-- What the sequences say of a donation is what the pointers do. -/
theorem priority_donation_shows {k d : Kernel} {returned : Bool} {depth : Nat} (shown : Shows s k)
    (held : ∀ l t, k.holder l = some t → t < k.count) (sequences : donate ct depth k l = some d)
    (ran : priority_donation fuel n s ct l = some (s',returned)) : Shows s' d ∧ returned = true := by
  induction n generalizing s k l depth with
  | zero => cases ran
  | succ n ih =>
    cases depth with
    | zero => cases sequences
    | succ depth =>
      rw [donate] at sequences
      rw [priority_donation] at ran
      cases once : donateOnce k ct l with
      | none => simp [once] at sequences
      | some result =>
        obtain ⟨k₁,further⟩ := result
        cases acted : activation fuel s ct l with
        | none => simp [acted] at ran
        | some result =>
          obtain ⟨s₁,next⟩ := result
          obtain ⟨shown₁,alive,lock⟩ := activation_shows shown held once acted
          have frame := donateOnce_same once
          rw [once] at sequences
          rw [acted] at ran
          cases next with
          | ended =>
            cases lock
            cases sequences
            cases ran
            exact ⟨shown₁,rfl⟩
          | failed => exact absurd rfl alive
          | again next =>
            cases lock
            refine ih shown₁ (fun m t holds => ?_) sequences ran
            rw [frame.count]
            exact held m t (by simpa [Kernel.holder,frame.locks] using holds)

/-- A donation ends on every graph of threads that wait for each other. The lock lists are whole at first, with any locks in
    them, and where each has only locks that its thread holds no assertion fails. -/
theorem nested_donation_ends {xs : Tid → List Place} (family : Family s.memory (· < count) Place.head Place.tail xs)
    (elements : ∀ t < count, ∀ a ∈ xs t, ∃ l, a = .elem l) (held : ∀ l t, s.holder l = some t → t < count)
    (depth : count < n) (room : ∑ t ∈ Finset.range count, ((xs t).length + 2) + 2 * count ≤ fuel) (ct : Tid) (l : LockId) :
    ∃ s' returned, priority_donation fuel n s ct l = some (s',returned) ∧ Donated s s' ct l ∧
      ((∀ t < count, ∀ m, .elem m ∈ xs t → s.holder m = some t) → returned = true) := by
  have few : (below s count (s.priority ct)).card ≤ count := by
    simpa [below] using Finset.card_filter_le (Finset.range count) fun t => s.priority t < s.priority ct
  obtain ⟨s',returned,ran,donated⟩ := @priority_donation_spec _ n fuel _ _ ct l _ _
    (forward_of_family family elements) (fun a _ => distance_le count xs a) held (by omega) (by omega)
  refine ⟨s',returned,ran,donated,fun own => donation_returns ⟨xs,family,fun t known a member => ?_⟩ held ran⟩
  obtain ⟨m,rfl⟩ := elements t known a member
  exact ⟨m,rfl,own t known m member⟩

/-- The threads `0` and `1` wait for a lock of each other, and the thread `2` donates to the first. -/
def deadlock : State where
  threads t := ⟨if t = 2 then 40 else 31,31,0,if t = 0 then some 1 else if t = 1 then some 0 else none⟩
  holder l := if l = 0 then some 0 else if l = 1 then some 1 else none
  memory
    | .head t => ⟨none,some (.tail t)⟩
    | .tail t => ⟨some (.head t),none⟩
    | .elem _ => ⟨none,none⟩

theorem nested_donation_ends_deadlock : ∃ s' returned, priority_donation 12 4 deadlock 2 0 = some (s',returned) ∧
    Donated deadlock s' 2 0 ∧ ((∀ t < 3, ∀ m, Place.elem m ∈ [] → deadlock.holder m = some t) → returned = true) := by
  refine @nested_donation_ends _ _ _ _ (fun _ => []) ⟨fun t _ => ⟨⟨rfl,rfl,trivial⟩,rfl,rfl,by simp⟩,?_⟩ (by simp) ?_
    (by decide) (by decide) 2 0
  · intro i j _ _ other a member
    simp only [nodes,List.nil_append,List.mem_cons,List.not_mem_nil,or_false] at member ⊢
    rcases member with rfl | rfl <;> simpa using other
  · intro l t holds
    simp only [deadlock] at holds
    split at holds
    · cases holds
      decide
    · split at holds <;> cases holds
      decide

end Pintos.Nesting
