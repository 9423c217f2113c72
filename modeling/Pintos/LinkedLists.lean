import Mathlib.Data.List.Nodup

/-!
Doubly linked lists in a memory of nodes, with a sentinel at each end. Unlinking
a node leaves its own pointers in place. `Represents` says which sequence a list
holds; the edits are local, so each is proved on the two links that it changes
and framed everywhere else.
-/
namespace Pintos.LinkedLists
universe u
variable {α : Type u}

/-- `struct list_elem`. -/
@[ext] structure Node (α : Type u) where
  prev : Option α
  next : Option α

abbrev Memory (α : Type u) := α → Node α

section
variable [DecidableEq α]

def setPrev (m : Memory α) (a : α) (v : Option α) : Memory α := fun b => if b = a then { m a with prev := v } else m b
def setNext (m : Memory α) (a : α) (v : Option α) : Memory α := fun b => if b = a then { m a with next := v } else m b

def list_init (m : Memory α) (head tail : α) : Memory α := fun b =>
  if b = head then { prev := none, next := some tail }
  else if b = tail then { prev := some head, next := none }
  else m b

/-- The assertion on `before` says that it has a predecessor. -/
def list_insert (m : Memory α) (before elem : α) : Option (Memory α) := do
  let prev ← (m before).prev
  let linked := setNext (setPrev m elem (some prev)) elem (some before)
  let prev ← (linked before).prev
  pure (setPrev (setNext linked prev (some elem)) before (some elem))

def list_push_back (m : Memory α) (tail elem : α) : Option (Memory α) := list_insert m tail elem

def list_push_front (m : Memory α) (head elem : α) : Option (Memory α) := do
  let begin ← (m head).next
  list_insert m begin elem

/-- Fails unless `elem` is interior. -/
def list_remove (m : Memory α) (elem : α) : Option (Memory α) := do
  let prev ← (m elem).prev
  let next ← (m elem).next
  let skipped := setNext m prev (some next)
  let next ← (skipped elem).next
  pure (setPrev skipped next (skipped elem).prev)

/-- The front element, unless the list is empty, and the memory without it. -/
def list_pop_front (m : Memory α) (head tail : α) : Option (α × Memory α) := do
  let front ← (m head).next
  if front = tail then none
  else
    let removed ← list_remove m front
    pure (front,removed)

@[simp] theorem setPrev_prev {m : Memory α} {a b : α} {v : Option α} :
    (setPrev m a v b).prev = if b = a then v else (m b).prev := by
  by_cases same : b = a <;> simp [setPrev,same]
@[simp] theorem setPrev_next {m : Memory α} {a b : α} {v : Option α} : (setPrev m a v b).next = (m b).next := by
  by_cases same : b = a <;> simp [setPrev,same]
@[simp] theorem setNext_next {m : Memory α} {a b : α} {v : Option α} :
    (setNext m a v b).next = if b = a then v else (m b).next := by
  by_cases same : b = a <;> simp [setNext,same]
@[simp] theorem setNext_prev {m : Memory α} {a b : α} {v : Option α} : (setNext m a v b).prev = (m b).prev := by
  by_cases same : b = a <;> simp [setNext,same]
end

/-! ### Chains of links -/

/-- Neighbours point at each other. -/
def Linked (m : Memory α) : List α → Prop
  | a :: b :: rest => (m a).next = some b ∧ (m b).prev = some a ∧ Linked m (b :: rest)
  | _ => True

variable {m m' : Memory α} {a b head tail : α} {xs ys : List α}

theorem linked_append (xs ys : List α) (a : α) :
    Linked m (xs ++ a :: ys) ↔ Linked m (xs ++ [a]) ∧ Linked m (a :: ys) := by
  induction xs with
  | nil => simp [Linked]
  | cons x rest ih =>
    cases rest with
    | nil => simp [Linked,and_assoc]
    | cons y rest =>
      simp only [List.cons_append,Linked] at ih ⊢
      rw [ih]
      simp [and_assoc]

/-- A chain reads the successors of all but its last node, and the predecessors
    of all but its first. -/
theorem linked_frame (chain : List α) (nexts : ∀ a ∈ chain.dropLast, (m' a).next = (m a).next)
    (prevs : ∀ a ∈ chain.tail, (m' a).prev = (m a).prev) (linked : Linked m chain) : Linked m' chain := by
  induction chain with
  | nil => exact trivial
  | cons a rest ih =>
    cases rest with
    | nil => exact trivial
    | cons b rest =>
      obtain ⟨next,prev,linked⟩ := linked
      refine ⟨?_,?_,ih ?_ ?_ linked⟩
      · rw [nexts a (by simp),next]
      · rw [prevs b (by simp),prev]
      · intro c member
        exact nexts c (List.mem_cons_of_mem a member)
      · intro c member
        exact prevs c (List.mem_cons_of_mem b member)

/-! ### Lists -/

/-- The list between the sentinels `head` and `tail` holds `xs`. -/
structure Represents (m : Memory α) (head tail : α) (xs : List α) : Prop where
  linked : Linked m (head :: (xs ++ [tail]))
  first : (m head).prev = none
  last : (m tail).next = none
  once : (head :: (xs ++ [tail])).Nodup

/-- The node after a prefix of the list: an element or the tail. -/
def following (tail : α) : List α → α
  | [] => tail
  | x :: _ => x
/-- The node before a suffix of the list: an element or the head. -/
def preceding (head : α) (xs : List α) : α := xs.getLastD head

theorem preceding_split (head : α) (xs : List α) : ∃ before, head :: xs = before ++ [preceding head xs] := by
  refine ⟨(head :: xs).dropLast,?_⟩
  have last : (head :: xs).getLast (List.cons_ne_nil _ _) = preceding head xs := by
    rw [preceding,List.getLast_eq_getLastD]
  rw [← last]
  exact (List.dropLast_append_getLast _).symm

theorem following_split (tail : α) (ys : List α) : ∃ after, ys ++ [tail] = following tail ys :: after := by
  cases ys with
  | nil => exact ⟨[],rfl⟩
  | cons y rest => exact ⟨rest ++ [tail],rfl⟩

/-- A list cut in two: each half is a chain, and the cut is a link. -/
theorem represents_cut (list : Represents m head tail (xs ++ ys)) :
    Linked m (head :: xs) ∧ Linked m (ys ++ [tail]) ∧
      (m (preceding head xs)).next = some (following tail ys) ∧
      (m (following tail ys)).prev = some (preceding head xs) := by
  obtain ⟨before,split⟩ := preceding_split head xs
  obtain ⟨after,splitToo⟩ := following_split tail ys
  have linked := list.linked
  rw [List.append_assoc,← List.cons_append,split,splitToo,List.append_assoc,List.singleton_append,linked_append] at linked
  obtain ⟨front,next,prev,back⟩ := linked
  rw [split,splitToo]
  exact ⟨front,back,next,prev⟩

theorem represents_front (list : Represents m head tail xs) :
    (m head).next = some (following tail xs) ∧ (m (following tail xs)).prev = some head := by
  rw [← List.nil_append xs] at list
  exact (represents_cut list).2.2

/-- A linked node points at its neighbours. -/
theorem represents_links {elem : α} (list : Represents m head tail (xs ++ elem :: ys)) :
    (m elem).prev = some (preceding head xs) ∧ (m elem).next = some (following tail ys) := by
  have before := (represents_cut list).2.2.2
  have after : Represents m head tail ((xs ++ [elem]) ++ ys) := by
    rw [List.append_assoc]
    exact list
  have cut := (represents_cut after).2.2.1
  have last : preceding head (xs ++ [elem]) = elem := by simp [preceding]
  rw [last] at cut
  exact ⟨before,cut⟩

/-- Chains joined by a link. -/
theorem linked_join (front : Linked m (head :: xs)) (back : Linked m (ys ++ [tail]))
    (next : (m (preceding head xs)).next = some (following tail ys))
    (prev : (m (following tail ys)).prev = some (preceding head xs)) : Linked m (head :: (xs ++ ys ++ [tail])) := by
  obtain ⟨before,split⟩ := preceding_split head xs
  obtain ⟨after,splitToo⟩ := following_split tail ys
  rw [List.append_assoc,← List.cons_append,split,splitToo,List.append_assoc,List.singleton_append,linked_append]
  rw [split] at front
  rw [splitToo] at back
  exact ⟨front,next,prev,back⟩

/-- The list depends only on its own nodes. -/
theorem represents_frame (list : Represents m head tail xs) (same : ∀ a ∈ head :: (xs ++ [tail]), m' a = m a) :
    Represents m' head tail xs where
  linked := by
    refine linked_frame _ ?_ ?_ list.linked
    · intro a member
      rw [same a ((List.dropLast_sublist _).subset member)]
    · intro a member
      rw [same a (List.mem_of_mem_tail member)]
  first := by rw [same head (by simp),list.first]
  last := by rw [same tail (by simp),list.last]
  once := list.once

/-- A memory holds one sequence between two sentinels. -/
theorem represents_unique (one : Represents m head tail xs) (two : Represents m head tail ys) : xs = ys := by
  have step : ∀ (xs ys : List α) (a : α), Linked m (a :: (xs ++ [tail])) → Linked m (a :: (ys ++ [tail])) → tail ∉ xs →
    tail ∉ ys →
      xs = ys := by
    intro xs
    induction xs with
    | nil =>
      intro ys a one two _ notIn
      cases ys with
      | nil => rfl
      | cons y rest =>
        have same : tail = y := Option.some.inj (one.1.symm.trans two.1)
        exact absurd (same ▸ List.mem_cons_self ..) notIn
    | cons x rest ih =>
      intro ys a one two notInX notInY
      cases ys with
      | nil =>
        have same : x = tail := Option.some.inj (one.1.symm.trans two.1)
        exact absurd (same ▸ List.mem_cons_self ..) notInX
      | cons y more =>
        obtain rfl : x = y := Option.some.inj (one.1.symm.trans two.1)
        rw [ih more x one.2.2 two.2.2 (fun member => notInX (List.mem_cons_of_mem _ member))
          (fun member => notInY (List.mem_cons_of_mem _ member))]
  have notIn : ∀ {xs}, Represents m head tail xs → tail ∉ xs := by
    intro xs list member
    exact (List.nodup_append.mp (List.nodup_cons.mp list.once).2).2.2 tail member tail (List.mem_singleton_self _) rfl
  exact step xs ys head one.linked two.linked (notIn one) (notIn two)

/-! ### Edits at a cut -/

theorem preceding_mem (head : α) (xs : List α) : preceding head xs ∈ head :: xs := by
  obtain ⟨before,split⟩ := preceding_split head xs
  rw [split]
  simp
theorem following_mem (tail : α) (ys : List α) : following tail ys ∈ ys ++ [tail] := by
  obtain ⟨after,split⟩ := following_split tail ys
  rw [split]
  simp

theorem once_cut (once : (head :: (xs ++ ys ++ [tail])).Nodup) :
    (head :: xs).Nodup ∧ (ys ++ [tail]).Nodup ∧ ∀ a ∈ head :: xs, ∀ b ∈ ys ++ [tail], a ≠ b := by
  rw [List.append_assoc,← List.cons_append] at once
  exact List.nodup_append.mp once

theorem preceding_last (once : (head :: xs).Nodup) : preceding head xs ∉ (head :: xs).dropLast := by
  obtain ⟨before,split⟩ := preceding_split head xs
  rw [split] at once ⊢
  rw [List.dropLast_concat]
  intro member
  exact (List.nodup_append.mp once).2.2 _ member _ (List.mem_singleton_self _) rfl

theorem following_first (once : (ys ++ [tail]).Nodup) : following tail ys ∉ (ys ++ [tail]).tail := by
  obtain ⟨after,split⟩ := following_split tail ys
  rw [split] at once ⊢
  exact (List.nodup_cons.mp once).1

/-- The two halves of a list survive any change that keeps to the link between them. -/
theorem linked_halves (once : (head :: (xs ++ ys ++ [tail])).Nodup)
    (nexts : ∀ a ∈ head :: (xs ++ ys ++ [tail]), a ≠ preceding head xs → (m' a).next = (m a).next)
    (prevs : ∀ a ∈ head :: (xs ++ ys ++ [tail]), a ≠ following tail ys → (m' a).prev = (m a).prev)
    (front : Linked m (head :: xs)) (back : Linked m (ys ++ [tail])) :
    Linked m' (head :: xs) ∧ Linked m' (ys ++ [tail]) := by
  obtain ⟨frontOnce,backOnce,apart⟩ := once_cut once
  have inFront : ∀ a ∈ head :: xs, a ∈ head :: (xs ++ ys ++ [tail]) := by
    intro a member
    rw [List.append_assoc,← List.cons_append]
    exact List.mem_append_left _ member
  have inBack : ∀ a ∈ ys ++ [tail], a ∈ head :: (xs ++ ys ++ [tail]) := by
    intro a member
    rw [List.append_assoc,← List.cons_append]
    exact List.mem_append_right _ member
  constructor
  · refine linked_frame _ ?_ ?_ front
    · intro a member
      have listed := (List.dropLast_sublist _).subset member
      exact nexts a (inFront a listed) fun same => preceding_last frontOnce (same ▸ member)
    · intro a member
      have listed := List.mem_of_mem_tail member
      exact prevs a (inFront a listed) (apart a listed _ (following_mem tail ys))
  · refine linked_frame _ ?_ ?_ back
    · intro a member
      have listed := (List.dropLast_sublist _).subset member
      exact nexts a (inBack a listed) (apart _ (preceding_mem head xs) a listed).symm
    · intro a member
      have listed := List.mem_of_mem_tail member
      exact prevs a (inBack a listed) fun same => following_first backOnce (same ▸ member)

theorem head_ne_following (once : (head :: (xs ++ ys ++ [tail])).Nodup) : head ≠ following tail ys :=
  (once_cut once).2.2 head (by simp) _ (following_mem tail ys)
theorem tail_ne_preceding (once : (head :: (xs ++ ys ++ [tail])).Nodup) : tail ≠ preceding head xs :=
  ((once_cut once).2.2 _ (preceding_mem head xs) tail (by simp)).symm

theorem preceding_listed (head tail : α) (xs ys : List α) : preceding head xs ∈ head :: (xs ++ ys ++ [tail]) := by
  rw [List.append_assoc,← List.cons_append]
  exact List.mem_append_left _ (preceding_mem head xs)
theorem following_listed (head tail : α) (xs ys : List α) : following tail ys ∈ head :: (xs ++ ys ++ [tail]) := by
  rw [List.append_assoc,← List.cons_append]
  exact List.mem_append_right _ (following_mem tail ys)

theorem rearranged (head tail elem : α) (xs ys : List α) :
    (head :: (xs ++ elem :: ys ++ [tail])).Perm (elem :: head :: (xs ++ ys ++ [tail])) := by
  rw [List.append_assoc,List.append_assoc,← List.cons_append,← List.cons_append]
  exact List.perm_middle

variable [DecidableEq α] {before prev next elem : α}

theorem list_insert_links (before_prev : (m before).prev = some prev) (other : elem ≠ before) :
    ∃ m', list_insert m before elem = some m' ∧
      (∀ a, (m' a).next = if a = prev then some elem else if a = elem then some before else (m a).next) ∧
      ∀ a, (m' a).prev = if a = before then some elem else if a = elem then some prev else (m a).prev := by
  refine ⟨setPrev (setNext (setNext (setPrev m elem (some prev)) elem (some before)) prev (some elem)) before (some elem),?_,
    ?_,?_⟩
  · simp [list_insert,before_prev,other.symm]
  · simp
  · simp

theorem list_remove_links (elem_prev : (m elem).prev = some prev) (elem_next : (m elem).next = some next) :
    ∃ m', list_remove m elem = some m' ∧
      (∀ a, (m' a).next = if a = prev then some next else (m a).next) ∧
      ∀ a, (m' a).prev = if a = next then some prev else (m a).prev := by
  refine ⟨setPrev (setNext m prev (some next)) next (some prev),?_,?_,?_⟩
  · simp [list_remove,elem_prev,elem_next]
  · simp
  · simp

/-- `elem` goes in between the two halves. -/
theorem represents_insert (list : Represents m head tail (xs ++ ys)) (fresh : elem ∉ head :: (xs ++ ys ++ [tail])) :
    ∃ m', list_insert m (following tail ys) elem = some m' ∧ Represents m' head tail (xs ++ elem :: ys) ∧
      ∀ a, a ∉ head :: (xs ++ ys ++ [tail]) → a ≠ elem → m' a = m a := by
  obtain ⟨front,back,next,prev⟩ := represents_cut list
  have once := list.once
  have distinct : ∀ a ∈ head :: (xs ++ ys ++ [tail]), a ≠ elem := fun a member same => fresh (same ▸ member)
  have notPreceding : elem ≠ preceding head xs := (distinct _ (preceding_listed head tail xs ys)).symm
  have notFollowing : elem ≠ following tail ys := (distinct _ (following_listed head tail xs ys)).symm
  obtain ⟨m',inserted,nexts,prevs⟩ := list_insert_links prev notFollowing
  refine ⟨m',inserted,?_,?_⟩
  · obtain ⟨front,back⟩ := linked_halves once (fun a member other => by rw [nexts,if_neg other,if_neg (distinct a member)])
      (fun a member other => by rw [prevs,if_neg other,if_neg (distinct a member)]) front back
    have extended : Linked m' (elem :: ys ++ [tail]) := by
      obtain ⟨after,split⟩ := following_split tail ys
      rw [List.cons_append,split]
      rw [split] at back
      exact ⟨by simp [nexts,notPreceding],by simp [prevs],back⟩
    refine ⟨linked_join front extended ?_ ?_,?_,?_,?_⟩
    · rw [nexts,if_pos rfl]
      rfl
    · show (m' elem).prev = _
      rw [prevs,if_neg notFollowing,if_pos rfl]
    · rw [prevs,if_neg (head_ne_following once),if_neg (distinct head (by simp)),list.first]
    · rw [nexts,if_neg (tail_ne_preceding once),if_neg (distinct tail (by simp)),list.last]
    · exact (rearranged head tail elem xs ys).nodup_iff.mpr (List.nodup_cons.mpr ⟨fresh,once⟩)
  · intro a outside other
    have notPreceding : a ≠ preceding head xs := fun same => outside (same ▸ preceding_listed head tail xs ys)
    have notFollowing : a ≠ following tail ys := fun same => outside (same ▸ following_listed head tail xs ys)
    ext1
    · rw [prevs,if_neg notFollowing,if_neg other]
    · rw [nexts,if_neg notPreceding,if_neg other]

/-- The neighbours of `elem` close up over it; its own node keeps pointing at them. -/
theorem represents_remove (list : Represents m head tail (xs ++ elem :: ys)) :
    ∃ m', list_remove m elem = some m' ∧ Represents m' head tail (xs ++ ys) ∧
      ∀ a, a ∉ head :: (xs ++ ys ++ [tail]) → m' a = m a := by
  obtain ⟨prev,next⟩ := represents_links list
  obtain ⟨front,back,-,-⟩ := represents_cut list
  obtain ⟨-,once⟩ := List.nodup_cons.mp ((rearranged head tail elem xs ys).nodup_iff.mp list.once)
  obtain ⟨m',removed,nexts,prevs⟩ := list_remove_links prev next
  have shortened : Linked m (ys ++ [tail]) := by
    obtain ⟨after,split⟩ := following_split tail ys
    rw [List.cons_append,split] at back
    rw [split]
    exact back.2.2
  refine ⟨m',removed,?_,?_⟩
  · obtain ⟨front,back⟩ := linked_halves once (fun a _ other => by rw [nexts,if_neg other])
      (fun a _ other => by rw [prevs,if_neg other]) front shortened
    refine ⟨linked_join front back ?_ ?_,?_,?_,once⟩
    · rw [nexts,if_pos rfl]
    · rw [prevs,if_pos rfl]
    · rw [prevs,if_neg (head_ne_following once),list.first]
    · rw [nexts,if_neg (tail_ne_preceding once),list.last]
  · intro a outside
    have notPreceding : a ≠ preceding head xs := fun same => outside (same ▸ preceding_listed head tail xs ys)
    have notFollowing : a ≠ following tail ys := fun same => outside (same ▸ following_listed head tail xs ys)
    ext1
    · rw [prevs,if_neg notFollowing]
    · rw [nexts,if_neg notPreceding]

theorem represents_init (m : Memory α) (apart : head ≠ tail) : Represents (list_init m head tail) head tail [] where
  linked := ⟨by simp [list_init],by simp [list_init,apart.symm],trivial⟩
  first := by simp [list_init]
  last := by simp [list_init,apart.symm]
  once := by simpa using apart

theorem list_init_other (m : Memory α) (notHead : a ≠ head) (notTail : a ≠ tail) : list_init m head tail a = m a := by
  simp [list_init,notHead,notTail]

end Pintos.LinkedLists
