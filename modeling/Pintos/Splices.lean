import Pintos.ListFamilies

/-!
The rest of `lib/kernel/list.c`: a range of a list goes to another place, and a list is reversed.
`list_splice` closes one list over the range and opens the other for it, and each half is a local
edit of its own, so the range may go next to where it was.
-/
namespace Pintos.Splices
open Pintos.LinkedLists Pintos.ListFamilies
set_option linter.unusedSimpArgs false
universe u v
variable {α : Type u} {ι : Type v}

/-- Asserts that `elem` is a head or interior. -/
def list_next (m : Memory α) (elem : α) : Option α := (m elem).next
/-- Asserts that `elem` is interior or a tail. -/
def list_prev (m : Memory α) (elem : α) : Option α := (m elem).prev
def is_interior (m : Memory α) (elem : α) : Bool := (m elem).prev.isSome && (m elem).next.isSome

section
variable [DecidableEq α]

/-- The range from `first` to `last` leaves its list. -/
def unlink_range (m : Memory α) (first last : α) : Option (Memory α) := do
  let prev ← (m first).prev
  let next ← (m last).next
  let skipped := setNext m prev (some next)
  let next ← (skipped last).next
  let prev ← (skipped first).prev
  pure (setPrev skipped next (some prev))

/-- The range from `first` to `last` comes before `before`. -/
def link_range (m : Memory α) (before first last : α) : Option (Memory α) := do
  let prev ← (m before).prev
  let linked := setNext (setPrev m first (some prev)) last (some before)
  let prev ← (linked before).prev
  pure (setPrev (setNext linked prev (some first)) before (some last))

def list_splice (m : Memory α) (before first last : α) : Option (Memory α) :=
  if (m before).prev.isNone then none
  else if first = last then some m
  else do
    let last ← list_prev m last
    if is_interior m first && is_interior m last then
      let removed ← unlink_range m first last
      link_range removed before first last
    else none

/-- The back element, unless the list is empty, and the memory without it. -/
def list_pop_back (m : Memory α) (head tail : α) : Option (α × Memory α) := do
  let front ← (m head).next
  if front = tail then none
  else
    let back ← (m tail).prev
    let removed ← list_remove m back
    pure (back,removed)

/-- `swap (&e->prev, &e->next)`. -/
def swap_links (m : Memory α) (e : α) : Memory α := setNext (setPrev m e (m e).next) e (m e).prev

/-- Each element is turned around; the one after it is then before it. -/
def reverseLoop : Nat → Memory α → (tail e : α) → Option (Memory α)
  | 0, _, _, _ => none
  | n + 1, m, tail, e =>
    if e = tail then some m
    else do
      let turned := swap_links m e
      let next ← (turned e).prev
      reverseLoop n turned tail next

/-- The sentinels exchange their neighbours, and then these exchange the sentinels. -/
def cross_ends (m : Memory α) (head tail : α) : Option (Memory α) := do
  let crossed := setPrev (setNext m head (m tail).prev) tail (m head).next
  let first ← (crossed head).next
  let last ← (crossed tail).prev
  pure (setNext (setPrev crossed first (crossed last).next) last (crossed first).prev)

def list_reverse (fuel : Nat) (m : Memory α) (head tail : α) : Option (Memory α) := do
  let front ← (m head).next
  if front = tail then some m
  else
    let turned ← reverseLoop fuel m tail front
    cross_ends turned head tail

/-- The elements from `e` to the tail. -/
def read_forward : Nat → Memory α → (tail e : α) → Option (List α)
  | 0, _, _, _ => none
  | n + 1, m, tail, e =>
    if e = tail then some []
    else do
      let next ← list_next m e
      let rest ← read_forward n m tail next
      pure (e :: rest)

/-- The elements from `e` to the head. -/
def read_backward : Nat → Memory α → (head e : α) → Option (List α)
  | 0, _, _, _ => none
  | n + 1, m, head, e =>
    if e = head then some []
    else do
      let prev ← list_prev m e
      let rest ← read_backward n m head prev
      pure (e :: rest)

/-- From `list_begin` by `list_next`. -/
def list_forward (n : Nat) (m : Memory α) (head tail : α) : Option (List α) := (m head).next >>= read_forward n m tail
/-- From `list_rbegin` by `list_prev`. -/
def list_backward (n : Nat) (m : Memory α) (head tail : α) : Option (List α) := (m tail).prev >>= read_backward n m head
end

/-! ### Ranges -/

section Ranges
variable {m m' : Memory α} {a b head tail : α} {xs ys range : List α}

theorem linked_right (linked : Linked m (xs ++ ys)) : Linked m ys := by
  induction xs with
  | nil => exact linked
  | cons x rest ih =>
    apply ih
    cases both : rest ++ ys with
    | nil => exact trivial
    | cons y more =>
      rw [List.cons_append,both] at linked
      exact linked.2.2

theorem linked_left (linked : Linked m (xs ++ ys)) : Linked m xs := by
  cases ys with
  | nil => simpa using linked
  | cons y rest =>
    have joined := ((linked_append xs rest y).mp linked).1
    clear linked
    induction xs with
    | nil => exact trivial
    | cons x more ih =>
      cases more with
      | nil => exact trivial
      | cons z more => exact ⟨joined.1,joined.2.1,ih joined.2.2⟩

/-- Two chains are one when the last node of the first and the first of the second point at each other. -/
theorem linked_glue (front : Linked m (xs ++ [a])) (back : Linked m (b :: ys)) (next : (m a).next = some b)
    (prev : (m b).prev = some a) : Linked m (xs ++ a :: b :: ys) :=
  (linked_append xs (b :: ys) a).mpr ⟨front,next,prev,back⟩

theorem preceding_getLast (nonempty : range ≠ []) (y : α) : preceding y range = range.getLast nonempty := by
  cases range with
  | nil => exact absurd rfl nonempty
  | cons r rest => rw [preceding,List.getLast_eq_getLastD,List.getLastD_cons]

/-- A range that is not empty has a first and a last element. -/
theorem range_split (nonempty : range ≠ []) (x y : α) :
    (∃ after, range = following x range :: after) ∧ ∃ before, range = before ++ [preceding y range] := by
  constructor
  · cases range with
    | nil => exact absurd rfl nonempty
    | cons r rest => exact ⟨rest,rfl⟩
  · refine ⟨range.dropLast,?_⟩
    rw [preceding_getLast nonempty]
    exact (List.dropLast_append_getLast nonempty).symm

theorem range_ends (nonempty : range ≠ []) (x y : α) : following x range ∈ range ∧ preceding y range ∈ range := by
  constructor
  · obtain ⟨⟨after,starts⟩,_⟩ := range_split nonempty x y
    exact starts ▸ List.mem_cons_self
  · rw [preceding_getLast nonempty]
    exact List.getLast_mem nonempty

theorem following_append (nonempty : range ≠ []) (x y : α) : following x (range ++ ys) = following y range := by
  cases range with
  | nil => exact absurd rfl nonempty
  | cons r rest => rfl

theorem preceding_append (nonempty : range ≠ []) (x y : α) : preceding x (xs ++ range) = preceding y range := by
  rw [preceding_getLast nonempty,preceding_getLast (List.append_ne_nil_of_right_ne_nil xs nonempty),List.getLast_append_of_ne_nil]

theorem range_moved : (head :: (xs ++ range ++ ys ++ [tail])).Perm (range ++ head :: (xs ++ ys ++ [tail])) := by
  calc (head :: (xs ++ range ++ ys ++ [tail])).Perm (head :: (range ++ xs ++ ys ++ [tail])) :=
        ((List.perm_append_comm.append_right ys).append_right [tail]).cons head
    _ = head :: (range ++ (xs ++ ys ++ [tail])) := by simp only [List.append_assoc]
    _ |>.Perm (range ++ head :: (xs ++ ys ++ [tail])) := List.perm_middle.symm

/-- A list around a range. -/
theorem once_around (list : Represents m head tail (xs ++ range ++ ys)) :
    (head :: (xs ++ ys ++ [tail])).Nodup ∧ range.Nodup ∧ ∀ a ∈ range, a ∉ head :: (xs ++ ys ++ [tail]) := by
  have once := range_moved.nodup_iff.mp list.once
  obtain ⟨range_once,rest,apart⟩ := List.nodup_append.mp once
  exact ⟨rest,range_once,fun a member listed => apart a member a listed rfl⟩

theorem interior (list : Represents m head tail xs) (member : a ∈ xs) : is_interior m a = true := by
  obtain ⟨front,back,rfl⟩ := List.append_of_mem member
  obtain ⟨prev,next⟩ := represents_links list
  simp [is_interior,prev,next]

/-- A node of a list other than its head has a predecessor. -/
theorem has_prev (list : Represents m head tail xs) (member : a ∈ xs ++ [tail]) : (m a).prev.isSome := by
  rcases List.mem_append.mp member with element | last
  · exact (Bool.and_eq_true_iff.mp (interior list element)).1
  · rw [List.mem_singleton.mp last]
    rw [← List.append_nil xs] at list
    have prev := (represents_cut list).2.2.2
    exact Option.isSome_iff_exists.mpr ⟨_,prev⟩

variable [DecidableEq α] {before first last prev next : α}

theorem unlink_range_links (first_prev : (m first).prev = some prev) (last_next : (m last).next = some next) :
    ∃ m', unlink_range m first last = some m' ∧
      (∀ a, (m' a).next = if a = prev then some next else (m a).next) ∧
      ∀ a, (m' a).prev = if a = next then some prev else (m a).prev := by
  refine ⟨setPrev (setNext m prev (some next)) next (some prev),?_,?_,?_⟩
  · simp [unlink_range,first_prev,last_next]
  · simp
  · simp

theorem link_range_links (before_prev : (m before).prev = some prev) (other : first ≠ before) :
    ∃ m', link_range m before first last = some m' ∧
      (∀ a, (m' a).next = if a = prev then some first else if a = last then some before else (m a).next) ∧
      ∀ a, (m' a).prev = if a = before then some last else if a = first then some prev else (m a).prev := by
  refine ⟨setPrev (setNext (setNext (setPrev m first (some prev)) last (some before)) prev (some first)) before (some last),
    ?_,?_,?_⟩
  · simp [link_range,before_prev,other.symm]
  · simp
  · simp

/-- The list closes over the range, whose elements stay linked. -/
theorem represents_unlink (list : Represents m head tail (xs ++ range ++ ys)) (nonempty : range ≠ []) :
    ∃ m', unlink_range m (following tail range) (preceding head range) = some m' ∧ Represents m' head tail (xs ++ ys) ∧
      Linked m' range ∧ ∀ a, a ∉ head :: (xs ++ ys ++ [tail]) → m' a = m a := by
  obtain ⟨once,_,outside⟩ := once_around list
  have list' := list
  rw [List.append_assoc] at list'
  obtain ⟨front,rest,_,prev⟩ := represents_cut list'
  obtain ⟨whole,back,next,_⟩ := represents_cut list
  rw [following_append nonempty tail tail] at prev
  rw [preceding_append nonempty head head] at next
  obtain ⟨m',removed,nexts,prevs⟩ := unlink_range_links prev next
  have same : ∀ a, a ∉ head :: (xs ++ ys ++ [tail]) → m' a = m a := by
    intro a other
    have notPreceding : a ≠ preceding head xs := fun same => other (same ▸ preceding_listed head tail xs ys)
    have notFollowing : a ≠ following tail ys := fun same => other (same ▸ following_listed head tail xs ys)
    ext1
    · rw [prevs,if_neg notFollowing]
    · rw [nexts,if_neg notPreceding]
  refine ⟨m',removed,?_,?_,same⟩
  · obtain ⟨front,back⟩ := linked_halves once (fun a _ other => by rw [nexts,if_neg other])
      (fun a _ other => by rw [prevs,if_neg other]) front back
    refine ⟨linked_join front back ?_ ?_,?_,?_,once⟩
    · rw [nexts,if_pos rfl]
    · rw [prevs,if_pos rfl]
    · rw [prevs,if_neg (head_ne_following once),list.first]
    · rw [nexts,if_neg (tail_ne_preceding once),list.last]
  · rw [List.append_assoc] at rest
    refine linked_frame _ ?_ ?_ (linked_left rest)
    · intro a member
      rw [same a (outside a ((List.dropLast_sublist _).subset member))]
    · intro a member
      rw [same a (outside a (List.mem_of_mem_tail member))]

/-- The list opens for a chain of nodes that are not in it. -/
theorem represents_link (list : Represents m head tail (xs ++ ys)) (chain : Linked m range) (nonempty : range ≠ [])
    (once : range.Nodup) (fresh : ∀ a ∈ range, a ∉ head :: (xs ++ ys ++ [tail])) :
    ∃ m', link_range m (following tail ys) (following tail range) (preceding head range) = some m' ∧
      Represents m' head tail (xs ++ range ++ ys) ∧
      ∀ a, a ∉ head :: (xs ++ ys ++ [tail]) → a ∉ range → m' a = m a := by
  obtain ⟨front,back,next,prev⟩ := represents_cut list
  obtain ⟨⟨after,starts⟩,before,ends⟩ := range_split nonempty tail head
  generalize follows : following tail range = first at starts
  generalize precedes : preceding head range = last at ends
  have first_in : first ∈ range := starts ▸ List.mem_cons_self
  have last_in : last ∈ range := ends ▸ List.mem_append_right _ (List.mem_singleton_self _)
  have distinct : ∀ a ∈ head :: (xs ++ ys ++ [tail]), ∀ b ∈ range, a ≠ b := fun a listed b member same =>
    fresh b member (same ▸ listed)
  have preceding_in := preceding_listed head tail xs ys
  have following_in := following_listed head tail xs ys
  obtain ⟨m',linked,nexts,prevs⟩ := link_range_links prev
    (distinct _ following_in first first_in).symm
  have list_once := list.once
  have once_all : (head :: (xs ++ range ++ ys ++ [tail])).Nodup := by
    exact range_moved.nodup_iff.mpr (List.nodup_append.mpr ⟨once,list_once,fun a member b listed => (distinct b listed a member).symm⟩)
  refine ⟨m',linked,?_,?_⟩
  · obtain ⟨front,back⟩ := linked_halves list_once
      (fun a member other => by rw [nexts,if_neg other,if_neg (distinct a member last last_in)])
      (fun a member other => by rw [prevs,if_neg other,if_neg (distinct a member first first_in)]) front back
    have inner : Linked m' range := by
      refine linked_frame _ ?_ ?_ chain
      · intro a member
        have listed := (List.dropLast_sublist _).subset member
        rw [nexts,if_neg (distinct _ preceding_in a listed).symm,if_neg]
        rintro rfl
        rw [ends,List.dropLast_concat] at member
        rw [ends] at once
        exact (List.nodup_append.mp once).2.2 a member a (List.mem_singleton_self _) rfl
      · intro a member
        have listed := List.mem_of_mem_tail member
        rw [prevs,if_neg (distinct _ following_in a listed).symm,if_neg]
        rintro rfl
        rw [starts] at once member
        exact (List.nodup_cons.mp once).1 member
    have last_next : (m' last).next = some (following tail ys) := by
      rw [nexts,if_neg (distinct _ preceding_in last last_in).symm,if_pos rfl]
    have tail_prev : (m' (following tail ys)).prev = some last := by rw [prevs,if_pos rfl]
    have extended : Linked m' (range ++ ys ++ [tail]) := by
      obtain ⟨others,split⟩ := following_split tail ys
      rw [List.append_assoc,split,ends,List.append_assoc]
      rw [split] at back
      exact linked_glue (ends ▸ inner) back last_next tail_prev
    have opened : following tail (range ++ ys) = first := by rw [following_append nonempty tail tail,follows]
    have joined := linked_join front extended
      (by rw [opened,nexts,if_pos rfl])
      (by rw [opened,prevs,if_neg (distinct _ following_in first first_in).symm,if_pos rfl])
    refine ⟨by rw [List.append_assoc xs]; exact joined,?_,?_,once_all⟩
    · rw [prevs,if_neg (head_ne_following list_once),if_neg (distinct head (by simp) first first_in),list.first]
    · rw [nexts,if_neg (tail_ne_preceding list_once),if_neg (distinct tail (by simp) last last_in),list.last]
  · intro a outside other
    have notPreceding : a ≠ preceding head xs := fun same => outside (same ▸ preceding_in)
    have notFollowing : a ≠ following tail ys := fun same => outside (same ▸ following_in)
    ext1
    · rw [prevs,if_neg notFollowing,if_neg (fun same => other (by rw [same]; exact first_in))]
    · rw [nexts,if_neg notPreceding,if_neg (fun same => other (by rw [same]; exact last_in))]

end Ranges

/-! ### Reversal -/

section Reversal
variable {m m' : Memory α} {a head tail : α} {xs ys : List α}

/-- A chain is read from the other end where the pointers of its nodes are exchanged. -/
theorem linked_reverse (chain : List α) (nexts : ∀ a ∈ chain.tail, (m' a).next = (m a).prev)
    (prevs : ∀ a ∈ chain.dropLast, (m' a).prev = (m a).next) (linked : Linked m chain) : Linked m' chain.reverse := by
  induction chain with
  | nil => exact trivial
  | cons a rest ih =>
    cases rest with
    | nil => exact trivial
    | cons b rest =>
      obtain ⟨next,prev,linked⟩ := linked
      have later := ih (fun c member => nexts c (List.mem_of_mem_tail member)) (fun c member => prevs c (by simp [member])) linked
      rw [List.reverse_cons,List.reverse_cons,List.append_assoc]
      rw [List.reverse_cons] at later
      refine linked_glue later trivial ?_ ?_
      · rw [nexts b (by simp),prev]
      · rw [prevs a (by simp),next]

theorem following_reverse (head tail : α) (xs : List α) (nonempty : xs ≠ []) :
    following tail xs.reverse = preceding head xs ∧ preceding head xs.reverse = following tail xs := by
  obtain ⟨⟨after,starts⟩,before,ends⟩ := range_split nonempty tail head
  constructor
  · conv_lhs => rw [ends,List.reverse_append]
    rfl
  · conv_lhs => rw [starts,List.reverse_cons]
    simp [preceding]

variable [DecidableEq α]

theorem swap_links_eq (m : Memory α) (e a : α) : swap_links m e a = if a = e then ⟨(m e).next,(m e).prev⟩ else m a := by
  by_cases same : a = e
  · subst same
    ext1 <;> simp [swap_links]
  · ext1 <;> simp [swap_links,same]

/-- The loop turns every element around and follows the list nevertheless. -/
theorem reverseLoop_spec {n : Nat} (linked : Linked m (ys ++ [tail])) (once : (ys ++ [tail]).Nodup) (enough : ys.length < n) :
    ∃ m', reverseLoop n m tail (following tail ys) = some m' ∧
      ∀ a, m' a = if a ∈ ys then ⟨(m a).next,(m a).prev⟩ else m a := by
  induction n generalizing m ys with
  | zero => omega
  | succ n ih =>
    cases ys with
    | nil => exact ⟨m,by simp [reverseLoop,following],by simp⟩
    | cons e rest =>
      obtain ⟨fresh,once⟩ := List.nodup_cons.mp once
      have next : (m e).next = some (following tail rest) := by
        obtain ⟨after,split⟩ := following_split tail rest
        rw [List.cons_append,split] at linked
        exact linked.1
      have other : e ≠ tail := fun same => fresh (same ▸ by simp)
      have rest_linked : Linked m (rest ++ [tail]) := @linked_right _ _ [e] _ linked
      have same : ∀ a ∈ rest ++ [tail], swap_links m e a = m a := by
        intro a member
        rw [swap_links_eq,if_neg]
        rintro rfl
        exact fresh member
      have kept : Linked (swap_links m e) (rest ++ [tail]) := by
        refine linked_frame _ ?_ ?_ rest_linked
        · intro a member
          rw [same a ((List.dropLast_sublist _).subset member)]
        · intro a member
          rw [same a (List.mem_of_mem_tail member)]
      obtain ⟨m',turned,values⟩ := ih kept once (by simp only [List.length_cons] at enough; omega)
      refine ⟨m',?_,?_⟩
      · have step : (swap_links m e e).prev = some (following tail rest) := by rw [swap_links_eq,if_pos rfl,next]
        simp only [following] at other ⊢
        simp only [reverseLoop,other,if_false,step,bind,Option.bind]
        exact turned
      · intro a
        rw [values]
        by_cases here : a = e
        · subst here
          have out : a ∉ rest := fun member => fresh (List.mem_append_left _ member)
          simp [out,swap_links_eq]
        · simp [here,swap_links_eq]

theorem cross_ends_links {first last : α} (head_next : (m head).next = some first) (tail_prev : (m tail).prev = some last)
    (first_next : (m first).next = some head) (last_prev : (m last).prev = some tail) (not_head : first ≠ head)
    (not_tail : last ≠ tail) :
    ∃ m', cross_ends m head tail = some m' ∧
      (∀ a, (m' a).next = if a = first then some tail else if a = head then some last else (m a).next) ∧
      ∀ a, (m' a).prev = if a = last then some head else if a = tail then some first else (m a).prev := by
  let crossed := setPrev (setNext m head (some last)) tail (some first)
  refine ⟨setNext (setPrev crossed last (some head)) first (some tail),?_,?_,?_⟩
  · simp [cross_ends,crossed,head_next,tail_prev,first_next,last_prev,not_head,not_tail]
  · simp [crossed]
  · simp [crossed]

theorem list_reverse_spec {n : Nat} (list : Represents m head tail xs) (enough : xs.length < n) :
    ∃ m', list_reverse n m head tail = some m' ∧ Represents m' head tail xs.reverse ∧
      ∀ a, a ∉ nodes head tail xs → m' a = m a := by
  obtain ⟨front,first_prev⟩ := represents_front list
  by_cases nonempty : xs = []
  · subst nonempty
    exact ⟨m,by simp [list_reverse,front,following],list,fun _ _ => rfl⟩
  obtain ⟨fresh,once⟩ := List.nodup_cons.mp list.once
  obtain ⟨before,after,apart⟩ := List.nodup_append.mp once
  have cut := list
  rw [← List.append_nil xs] at cut
  obtain ⟨chain,_,last_next,tail_prev⟩ := represents_cut cut
  have whole : Linked m (xs ++ [tail]) := @linked_right _ _ [head] _ list.linked
  obtain ⟨turned,looped,values⟩ := reverseLoop_spec whole once enough
  obtain ⟨first_in,last_in⟩ := range_ends nonempty tail head
  generalize follows : following tail xs = first at *
  generalize precedes : preceding head xs = last at *
  have first_tail : first ≠ tail := apart first first_in tail (by simp)
  have last_tail : last ≠ tail := apart last last_in tail (by simp)
  have head_first : first ≠ head := fun same => fresh (same ▸ List.mem_append_left _ first_in)
  have head_last : last ≠ head := fun same => fresh (same ▸ List.mem_append_left _ last_in)
  have head_out : head ∉ xs := fun member => fresh (List.mem_append_left _ member)
  have tail_out : tail ∉ xs := fun member => apart tail member tail (by simp) rfl
  have head_tail : head ≠ tail := fun same => fresh (same ▸ List.mem_append_right _ (List.mem_singleton_self _))
  have turned_head : turned head = m head := by rw [values,if_neg head_out]
  have turned_tail : turned tail = m tail := by rw [values,if_neg tail_out]
  have turned_first : (turned first).next = some head := by rw [values,if_pos first_in,first_prev]
  have turned_last : (turned last).prev = some tail := by rw [values,if_pos last_in,last_next]; rfl
  have tail_prev : (m tail).prev = some last := tail_prev
  obtain ⟨m',crossed,nexts,prevs⟩ := cross_ends_links (m := turned) (turned_head ▸ front) (turned_tail ▸ tail_prev) turned_first
    turned_last head_first last_tail
  refine ⟨m',?_,⟨?_,?_,?_,?_⟩,?_⟩
  · simp only [list_reverse,front,bind,Option.bind,first_tail,if_false,looped,crossed]
  · -- the elements among themselves, and the links to the sentinels
    have inner : Linked m xs := linked_left whole
    have reversed : Linked m' xs.reverse := by
      obtain ⟨⟨after,starts⟩,before,ends⟩ := range_split nonempty tail head
      rw [follows] at starts
      rw [precedes] at ends
      have once_xs : xs.Nodup := by assumption
      refine linked_reverse xs ?_ ?_ inner
      · intro a member
        have listed := List.mem_of_mem_tail member
        rw [nexts,if_neg,if_neg,values,if_pos listed]
        · rintro rfl
          exact head_out listed
        · rintro rfl
          rw [starts] at once_xs member
          exact (List.nodup_cons.mp once_xs).1 member
      · intro a member
        have listed := (List.dropLast_sublist _).subset member
        rw [prevs,if_neg,if_neg,values,if_pos listed]
        · rintro rfl
          exact tail_out listed
        · rintro rfl
          rw [ends,List.dropLast_concat] at member
          rw [ends] at once_xs
          exact (List.nodup_append.mp once_xs).2.2 a member a (List.mem_singleton_self _) rfl
    have nonempty' : xs.reverse ≠ [] := by simpa using nonempty
    obtain ⟨starts,ends⟩ := following_reverse head tail xs nonempty
    rw [precedes] at starts
    rw [follows] at ends
    have back : Linked m' (xs.reverse ++ [tail]) := by
      obtain ⟨_,before,split⟩ := range_split nonempty' tail head
      rw [ends] at split
      rw [split] at reversed ⊢
      rw [List.append_assoc]
      refine linked_glue reversed trivial ?_ ?_
      · rw [nexts,if_pos rfl]
      · rw [prevs,if_neg last_tail.symm,if_pos rfl]
    refine @linked_join _ _ _ _ [] xs.reverse trivial back ?_ ?_
    · rw [starts,nexts]
      simp [preceding,head_first.symm]
    · rw [starts,prevs,if_pos rfl]
      rfl
  · rw [prevs,if_neg head_last.symm,if_neg head_tail,turned_head,list.first]
  · rw [nexts,if_neg first_tail.symm,if_neg head_tail.symm,turned_tail,list.last]
  · refine List.Perm.nodup_iff ?_ |>.mpr list.once
    exact ((List.reverse_perm xs).append_right [tail]).cons head
  · intro a outside
    have out : a ∉ xs := fun member => outside (mem_nodes.mpr (.inr (.inl member)))
    have not_head : a ≠ head := fun same => outside (mem_nodes.mpr (.inl same))
    have not_tail : a ≠ tail := fun same => outside (mem_nodes.mpr (.inr (.inr same)))
    ext1
    · rw [prevs,if_neg (fun same => out (by rw [same]; exact last_in)),if_neg not_tail,values,if_neg out]
    · rw [nexts,if_neg (fun same => out (by rw [same]; exact first_in)),if_neg not_head,values,if_neg out]

end Reversal

/-! ### Ranges among many lists -/

section Fronts
variable {m : Memory α} {I : ι → Prop} {head tail : ι → α} {xs : ι → List α} {i : ι}

theorem front_begins (family : Family m I head tail xs) (inside : I i) :
    (m (head i)).next = some (following (tail i) (xs i)) := (represents_front (family.each i inside)).1

/-- A list that is not empty does not begin with its tail. -/
theorem front_not_tail (family : Family m I head tail xs) (inside : I i) (nonempty : xs i ≠ []) :
    following (tail i) (xs i) ≠ tail i := by
  obtain ⟨first_in,_⟩ := range_ends nonempty (tail i) (head i)
  have once := (List.nodup_cons.mp (family.each i inside).once).2
  exact (List.nodup_append.mp once).2.2 _ first_in _ (List.mem_singleton_self _)

end Fronts

section Families
variable [DecidableEq α] [DecidableEq ι] {m m' : Memory α} {I : ι → Prop} {head tail : ι → α} {xs : ι → List α} {i j : ι}
  {before after left right range : List α}

/-- The elements of a range are in no list once it is taken out. -/
theorem family_unlink (family : Family m I head tail xs) (inside : I i) (cut : xs i = before ++ range ++ after)
    (nonempty : range ≠ []) :
    ∃ m', unlink_range m (following (tail i) range) (preceding (head i) range) = some m' ∧
      Family m' I head tail (Function.update xs i (before ++ after)) ∧ Linked m' range ∧ range.Nodup ∧
      (∀ a ∈ range, ∀ k, I k → a ∉ nodes (head k) (tail k) (Function.update xs i (before ++ after) k)) ∧
      ∀ a, a ∉ nodes (head i) (tail i) (xs i) → m' a = m a := by
  have list := family.each i inside
  rw [cut] at list
  obtain ⟨_,once,outside⟩ := once_around list
  obtain ⟨m',removed,represents,chain,frame⟩ := represents_unlink list nonempty
  have listed : ∀ a ∈ before ++ after, a ∈ xs i := by
    intro a member
    rw [cut]
    simp only [List.mem_append] at member ⊢
    tauto
  have out : ∀ a, a ∉ nodes (head i) (tail i) (xs i) → m' a = m a := by
    intro a outside
    refine frame a fun member => outside (mem_nodes.mpr ?_)
    rcases mem_nodes.mp member with rfl | element | rfl
    · exact .inl rfl
    · exact .inr (.inl (listed a element))
    · exact .inr (.inr rfl)
  refine ⟨m',removed,family_edit family inside represents ?_ ?_,chain,once,?_,out⟩
  · intro k other different a member
    exact out a (family.apart k i other inside different a member)
  · intro k other different a member
    exact family.apart i k inside other different.symm a (mem_nodes.mpr (.inr (.inl (listed a member))))
  · intro a member k other
    by_cases same : k = i
    · subst same
      rw [Function.update_self]
      exact outside a member
    · rw [Function.update_of_ne same]
      have here : a ∈ xs i := by
        rw [cut]
        exact List.mem_append_left _ (List.mem_append_right _ member)
      exact family.apart i k inside other (Ne.symm same) a (mem_nodes.mpr (.inr (.inl here)))

theorem family_link (family : Family m I head tail xs) (inside : I j) (cut : xs j = left ++ right) (chain : Linked m range)
    (nonempty : range ≠ []) (once : range.Nodup) (fresh : ∀ a ∈ range, ∀ k, I k → a ∉ nodes (head k) (tail k) (xs k)) :
    ∃ m', link_range m (following (tail j) right) (following (tail j) range) (preceding (head j) range) = some m' ∧
      Family m' I head tail (Function.update xs j (left ++ range ++ right)) ∧
      ∀ a, a ∉ nodes (head j) (tail j) (xs j) → a ∉ range → m' a = m a := by
  have list := family.each j inside
  have new := fun a member => fresh a member j inside
  rw [cut] at list
  rw [cut] at new
  obtain ⟨m',linked,represents,frame⟩ := represents_link list chain nonempty once new
  have out : ∀ a, a ∉ nodes (head j) (tail j) (xs j) → a ∉ range → m' a = m a := by
    intro a outside other
    rw [cut] at outside
    exact frame a outside other
  refine ⟨m',linked,family_edit family inside represents ?_ ?_,out⟩
  · intro k other different a member
    exact out a (family.apart k j other inside different a member) fun ranged => fresh a ranged k other member
  · intro k other different a member
    have listed : a ∈ xs j ∨ a ∈ range := by
      rw [cut]
      simp only [List.mem_append] at member ⊢
      tauto
    rcases listed with here | ranged
    · exact family.apart j k inside other different.symm a (mem_nodes.mpr (.inr (.inl here)))
    · exact fresh a ranged k other

/-- The range `range` of list `i` comes before an element of what is left of it, or of another list. -/
theorem family_splice (family : Family m I head tail xs) (one : I i) (two : I j) (cut : xs i = before ++ range ++ after)
    (place : Function.update xs i (before ++ after) j = left ++ right) :
    ∃ m', list_splice m (following (tail j) right) (following (tail i) (range ++ after)) (following (tail i) after) = some m' ∧
      Family m' I head tail (Function.update (Function.update xs i (before ++ after)) j (left ++ range ++ right)) ∧
      ∀ a, a ∉ nodes (head i) (tail i) (xs i) → a ∉ nodes (head j) (tail j) (xs j) → m' a = m a := by
  -- `before` has a predecessor already, before the range leaves
  have kept : ∀ a ∈ left ++ right, a ∈ xs j := by
    intro a member
    rw [← place] at member
    by_cases same : j = i
    · subst same
      rw [Function.update_self] at member
      rw [cut]
      simp only [List.mem_append] at member ⊢
      tauto
    · rwa [Function.update_of_ne same] at member
  obtain ⟨prev,before_prev⟩ : ∃ prev, (m (following (tail j) right)).prev = some prev := by
    refine Option.isSome_iff_exists.mp (has_prev (family.each j two) ?_)
    rcases List.mem_append.mp (following_mem (tail j) right) with element | last
    · exact List.mem_append_left _ (kept _ (List.mem_append_right _ element))
    · exact List.mem_append_right _ last
  by_cases nonempty : range = []
  · subst nonempty
    rw [List.append_nil] at cut
    have whole : Function.update xs i (before ++ after) = xs := by rw [← cut,Function.update_eq_self]
    rw [whole] at place
    refine ⟨m,by simp [list_splice,before_prev],?_,fun _ _ _ => rfl⟩
    rw [whole,List.append_nil,← place,Function.update_eq_self]
    exact family
  · have list := family.each i one
    rw [cut] at list
    have last_prev : (m (following (tail i) after)).prev = some (preceding (head i) range) := by
      rw [(represents_cut list).2.2.2,preceding_append nonempty (head i) (head i)]
    obtain ⟨first_in,last_in⟩ := range_ends nonempty (tail i) (head i)
    have listed : ∀ a ∈ range, a ∈ before ++ range ++ after := fun a member =>
      List.mem_append_left _ (List.mem_append_right _ member)
    have different : following (tail i) range ≠ following (tail i) after := by
      intro same
      refine (once_around list).2.2 _ first_in ?_
      rw [same]
      exact following_listed (head i) (tail i) before after
    obtain ⟨removed,unlinked,family₁,chain,once,fresh,frame₁⟩ := family_unlink family one cut nonempty
    obtain ⟨m',linked,family₂,frame₂⟩ := family_link family₁ two place chain nonempty once fresh
    have first_same : following (tail j) range = following (tail i) range := by
      rw [← following_append nonempty (tail j) (tail i),List.append_nil]
    have last_same : preceding (head j) range = preceding (head i) range := by
      rw [preceding_getLast nonempty,preceding_getLast nonempty]
    rw [first_same,last_same] at linked
    refine ⟨m',?_,family₂,?_⟩
    · rw [following_append nonempty (tail i) (tail i)]
      have first_interior := interior list (listed _ first_in)
      have last_interior := interior list (listed _ last_in)
      simp only [list_splice,list_prev,before_prev,different,last_prev,first_interior,last_interior,unlinked,linked,
        Option.isNone_some,Bool.false_eq_true,if_false,Bool.and_self,if_true,bind,Option.bind]
    · intro a first second
      have rest : a ∉ nodes (head j) (tail j) (Function.update xs i (before ++ after) j) := by
        intro member
        rcases mem_nodes.mp member with rfl | element | rfl
        · exact second (mem_nodes.mpr (.inl rfl))
        · rw [place] at element
          exact second (mem_nodes.mpr (.inr (.inl (kept a element))))
        · exact second (mem_nodes.mpr (.inr (.inr rfl)))
      rw [frame₂ a rest fun ranged => first (mem_nodes.mpr (.inr (.inl (cut ▸ listed a ranged)))),frame₁ a first]

end Families

/-! ### Every list is read in both directions -/

section Reading
variable [DecidableEq α] {m : Memory α} {head tail : α} {xs : List α} {n : Nat}

theorem read_forward_spec (linked : Linked m (xs ++ [tail])) (notIn : tail ∉ xs) (enough : xs.length < n) :
    read_forward n m tail (following tail xs) = some xs := by
  induction n generalizing xs with
  | zero => omega
  | succ n ih =>
    cases xs with
    | nil => simp [read_forward,following]
    | cons e rest =>
      have other : tail ≠ e := fun same => notIn (same ▸ List.mem_cons_self)
      have notIn : tail ∉ rest := fun member => notIn (List.mem_cons_of_mem _ member)
      have next : (m e).next = some (following tail rest) := by
        obtain ⟨after,split⟩ := following_split tail rest
        rw [List.cons_append,split] at linked
        exact linked.1
      have later := ih (@linked_right _ _ [e] _ linked) notIn (by simp only [List.length_cons] at enough; omega)
      show read_forward (n + 1) m tail e = _
      simp only [read_forward,list_next,Ne.symm other,if_false,next,bind,Option.bind,later,pure]

/-- Backwards is forwards where the pointers are exchanged. -/
theorem read_backward_eq (n : Nat) (m : Memory α) (head e : α) :
    read_backward n m head e = read_forward n (fun a => ⟨(m a).next,(m a).prev⟩) head e := by
  induction n generalizing e with
  | zero => rfl
  | succ n ih => simp only [read_backward,read_forward,list_next,list_prev,ih]

theorem list_forward_spec (list : Represents m head tail xs) (enough : xs.length < n) :
    list_forward n m head tail = some xs := by
  have notIn : tail ∉ xs := fun member =>
    (List.nodup_append.mp (List.nodup_cons.mp list.once).2).2.2 tail member tail (List.mem_singleton_self _) rfl
  rw [list_forward,(represents_front list).1]
  exact read_forward_spec (@linked_right _ _ [head] _ list.linked) notIn enough

theorem list_backward_spec (list : Represents m head tail xs) (enough : xs.length < n) :
    list_backward n m head tail = some xs.reverse := by
  have cut := list
  rw [← List.append_nil xs] at cut
  obtain ⟨chain,_,_,prev⟩ := represents_cut cut
  have prev : (m tail).prev = some (preceding head xs) := prev
  have turned := @linked_reverse _ m (fun a => ⟨(m a).next,(m a).prev⟩) (head :: xs) (fun _ _ => rfl) (fun _ _ => rfl) chain
  rw [List.reverse_cons] at turned
  have notIn : head ∉ xs.reverse := by
    rw [List.mem_reverse]
    exact fun member => (List.nodup_cons.mp list.once).1 (List.mem_append_left _ member)
  have last : preceding head xs = following head xs.reverse := by
    by_cases nonempty : xs = []
    · subst nonempty
      rfl
    · exact (following_reverse head head xs nonempty).1.symm
  rw [list_backward,prev]
  show read_backward n m head (preceding head xs) = _
  rw [read_backward_eq,last]
  exact read_forward_spec turned notIn (by simpa using enough)

end Reading

/-! ### Sequences -/

section Sequences
variable [DecidableEq α] {m m' : Memory α} {I : ι → Prop} {head tail : ι → α} {xs ys : ι → List α}

/-- The lists hold the sequences `ys` after `xs`: each is well formed and reads so in both directions, and the nodes of
    those that are not `affected` are as they were. -/
structure Changed (m m' : Memory α) (I : ι → Prop) (head tail : ι → α) (xs ys : ι → List α) (affected : ι → Prop) : Prop where
  family : Family m' I head tail ys
  forward : ∀ i, I i → ∀ n, (ys i).length < n → list_forward n m' (head i) (tail i) = some (ys i)
  backward : ∀ i, I i → ∀ n, (ys i).length < n → list_backward n m' (head i) (tail i) = some (ys i).reverse
  others : ∀ i, I i → ¬ affected i → ys i = xs i ∧ ∀ a ∈ nodes (head i) (tail i) (xs i), m' a = m a

theorem changed_of {affected : ι → Prop} (family : Family m' I head tail ys)
    (others : ∀ i, I i → ¬ affected i → ys i = xs i ∧ ∀ a ∈ nodes (head i) (tail i) (xs i), m' a = m a) :
    Changed m m' I head tail xs ys affected where
  family := family
  forward i inside _ enough := list_forward_spec (family.each i inside) enough
  backward i inside _ enough := list_backward_spec (family.each i inside) enough
  others := others

variable [DecidableEq ι] {i j : ι} {elem : α} {before after left right range : List α}

/-- An edit of one list. -/
theorem changed_one {ys : List α} (family : Family m I head tail xs) (inside : I i)
    (edited : Family m' I head tail (Function.update xs i ys))
    (frame : ∀ a, a ∉ nodes (head i) (tail i) (xs i) → (∃ k, I k ∧ a ∈ nodes (head k) (tail k) (xs k)) → m' a = m a) :
    Changed m m' I head tail xs (Function.update xs i ys) (· = i) := by
  refine changed_of edited fun k other different => ⟨Function.update_of_ne different _ _,fun a member => ?_⟩
  exact frame a (family.apart k i other inside different a member) ⟨k,other,member⟩

theorem insert_changes (family : Family m I head tail xs) (inside : I i) (cut : xs i = left ++ right)
    (fresh : ∀ k, I k → elem ∉ nodes (head k) (tail k) (xs k)) :
    ∃ m', list_insert m (following (tail i) right) elem = some m' ∧
      Changed m m' I head tail xs (Function.update xs i (left ++ elem :: right)) (· = i) := by
  have list := family.each i inside
  have new := fresh i inside
  rw [cut] at list
  rw [nodes,cut] at new
  obtain ⟨m',inserted,edited,_⟩ := family_insert elem left right family inside cut fresh
  obtain ⟨m'',again,_,frame⟩ := represents_insert list new
  obtain rfl : m' = m'' := Option.some.inj (inserted.symm.trans again)
  refine ⟨m',inserted,changed_one family inside edited ?_⟩
  rintro a outside ⟨k,other,member⟩
  rw [nodes,cut] at outside
  exact frame a outside fun same => fresh k other (same ▸ member)

theorem remove_changes (family : Family m I head tail xs) (inside : I i) (cut : xs i = before ++ elem :: after) :
    ∃ m', list_remove m elem = some m' ∧ (m' elem).next = some (following (tail i) after) ∧
      Changed m m' I head tail xs (Function.update xs i (before ++ after)) (· = i) := by
  have list := family.each i inside
  rw [cut] at list
  obtain ⟨m',removed,edited,_⟩ := family_remove elem before after family inside cut
  obtain ⟨m'',again,_,frame⟩ := represents_remove list
  obtain rfl : m' = m'' := Option.some.inj (removed.symm.trans again)
  have out : elem ∉ head i :: (before ++ after ++ [tail i]) :=
    (List.nodup_cons.mp ((rearranged (head i) (tail i) elem before after).nodup_iff.mp list.once)).1
  refine ⟨m',removed,?_,changed_one family inside edited ?_⟩
  · rw [frame elem out,(represents_links list).2]
  · rintro a outside -
    refine frame a fun member => outside (mem_nodes.mpr ?_)
    rw [cut]
    rcases mem_nodes.mp member with rfl | element | rfl
    · exact .inl rfl
    · refine .inr (.inl ?_)
      simp only [List.mem_append,List.mem_cons] at element ⊢
      tauto
    · exact .inr (.inr rfl)

theorem splice_changes (family : Family m I head tail xs) (one : I i) (two : I j) (cut : xs i = before ++ range ++ after)
    (place : Function.update xs i (before ++ after) j = left ++ right) :
    ∃ m', list_splice m (following (tail j) right) (following (tail i) (range ++ after)) (following (tail i) after) = some m' ∧
      Changed m m' I head tail xs (Function.update (Function.update xs i (before ++ after)) j (left ++ range ++ right))
        (fun k => k = i ∨ k = j) := by
  obtain ⟨m',spliced,edited,frame⟩ := family_splice family one two cut place
  refine ⟨m',spliced,changed_of edited fun k other different => ⟨?_,fun a member => ?_⟩⟩
  · rw [Function.update_of_ne fun same => different (.inr same),Function.update_of_ne fun same => different (.inl same)]
  · exact frame a (family.apart k i other one (fun same => different (.inl same)) a member)
      (family.apart k j other two (fun same => different (.inr same)) a member)

theorem reverse_changes {n : Nat} (family : Family m I head tail xs) (inside : I i) (enough : (xs i).length < n) :
    ∃ m', list_reverse n m (head i) (tail i) = some m' ∧
      Changed m m' I head tail xs (Function.update xs i (xs i).reverse) (· = i) := by
  obtain ⟨m',reversed,list,frame⟩ := list_reverse_spec (family.each i inside) enough
  refine ⟨m',reversed,changed_one family inside (family_edit family inside list ?_ ?_) fun a outside _ => frame a outside⟩
  · intro k other different a member
    exact frame a (family.apart k i other inside different a member)
  · intro k other different a member
    exact family.apart i k inside other different.symm a (mem_nodes.mpr (.inr (.inl (List.mem_reverse.mp member))))

theorem push_changes (family : Family m I head tail xs) (inside : I i)
    (fresh : ∀ k, I k → elem ∉ nodes (head k) (tail k) (xs k)) :
    (∃ m', list_push_front m (head i) elem = some m' ∧
      Changed m m' I head tail xs (Function.update xs i (elem :: xs i)) (· = i)) ∧
    ∃ m', list_push_back m (tail i) elem = some m' ∧
      Changed m m' I head tail xs (Function.update xs i (xs i ++ [elem])) (· = i) := by
  obtain ⟨front,inFront,changedFront⟩ := insert_changes family inside (List.nil_append _).symm fresh
  obtain ⟨back,inBack,changedBack⟩ := insert_changes family inside (List.append_nil _).symm fresh
  refine ⟨⟨front,?_,changedFront⟩,back,inBack,changedBack⟩
  rw [list_push_front,front_begins family inside]
  exact inFront

theorem pop_changes (family : Family m I head tail xs) (inside : I i) :
    (∀ rest, xs i = elem :: rest → ∃ m', list_pop_front m (head i) (tail i) = some (elem,m') ∧
      Changed m m' I head tail xs (Function.update xs i rest) (· = i)) ∧
    ∀ rest, xs i = rest ++ [elem] → ∃ m', list_pop_back m (head i) (tail i) = some (elem,m') ∧
      Changed m m' I head tail xs (Function.update xs i rest) (· = i) := by
  have front := front_begins family inside
  constructor
  · intro rest cut
    have other := front_not_tail family inside (by simp [cut])
    obtain ⟨m',removed,_,changed⟩ := @remove_changes _ _ _ _ _ _ _ _ _ _ _ [] _ family inside cut
    refine ⟨m',?_,changed⟩
    rw [cut] at front other
    simp only [following] at front other
    simp only [list_pop_front,front,bind,Option.bind,other,if_false,removed,pure]
  · intro rest cut
    have other := front_not_tail family inside (by simp [cut])
    obtain ⟨m',removed,_,changed⟩ := remove_changes family inside cut
    have back : (m (tail i)).prev = some elem := by
      have list := family.each i inside
      rw [← List.append_nil (xs i)] at list
      have prev := (represents_cut list).2.2.2
      rw [cut] at prev
      simpa [following,preceding] using prev
    refine ⟨m',?_,by simpa using changed⟩
    simp only [list_pop_back,front,bind,Option.bind,other,if_false,back,removed,pure]

/-- The operations on lists in a memory are the operations on the sequences that they hold. A new element is in no list.
    The range of a splice, which may be empty, comes before an element outside it: one of what is left of its list, or of
    another list, or the tail of one. -/
theorem lists_are_sequences (family : Family m I head tail xs) :
    (∀ i elem left right, I i → xs i = left ++ right → (∀ k, I k → elem ∉ nodes (head k) (tail k) (xs k)) →
      ∃ m', list_insert m (following (tail i) right) elem = some m' ∧
        Changed m m' I head tail xs (Function.update xs i (left ++ elem :: right)) (· = i)) ∧
    (∀ i elem, I i → (∀ k, I k → elem ∉ nodes (head k) (tail k) (xs k)) →
      (∃ m', list_push_front m (head i) elem = some m' ∧
        Changed m m' I head tail xs (Function.update xs i (elem :: xs i)) (· = i)) ∧
      ∃ m', list_push_back m (tail i) elem = some m' ∧
        Changed m m' I head tail xs (Function.update xs i (xs i ++ [elem])) (· = i)) ∧
    (∀ i elem before after, I i → xs i = before ++ elem :: after →
      ∃ m', list_remove m elem = some m' ∧ (m' elem).next = some (following (tail i) after) ∧
        Changed m m' I head tail xs (Function.update xs i (before ++ after)) (· = i)) ∧
    (∀ i elem, I i →
      (∀ rest, xs i = elem :: rest → ∃ m', list_pop_front m (head i) (tail i) = some (elem,m') ∧
        Changed m m' I head tail xs (Function.update xs i rest) (· = i)) ∧
      ∀ rest, xs i = rest ++ [elem] → ∃ m', list_pop_back m (head i) (tail i) = some (elem,m') ∧
        Changed m m' I head tail xs (Function.update xs i rest) (· = i)) ∧
    (∀ i j before range after left right, I i → I j → xs i = before ++ range ++ after →
      Function.update xs i (before ++ after) j = left ++ right →
      ∃ m', list_splice m (following (tail j) right) (following (tail i) (range ++ after)) (following (tail i) after) = some m' ∧
        Changed m m' I head tail xs (Function.update (Function.update xs i (before ++ after)) j (left ++ range ++ right))
          (fun k => k = i ∨ k = j)) ∧
    ∀ i n, I i → (xs i).length < n → ∃ m', list_reverse n m (head i) (tail i) = some m' ∧
      Changed m m' I head tail xs (Function.update xs i (xs i).reverse) (· = i) := by
  refine ⟨?_,?_,?_,?_,?_,?_⟩
  · intro i elem left right inside cut fresh
    exact insert_changes family inside cut fresh
  · intro i elem inside fresh
    exact push_changes family inside fresh
  · intro i elem before after inside cut
    exact remove_changes family inside cut
  · intro i elem inside
    exact pop_changes family inside
  · intro i j before range after left right one two cut place
    exact splice_changes family one two cut place
  · intro i n inside enough
    exact reverse_changes family inside enough

end Sequences

/-- Two elements between the sentinels `0` and `1`. -/
def two_elements : Memory Nat := fun a =>
  if a = 0 then ⟨none,some 2⟩ else if a = 2 then ⟨some 0,some 3⟩ else if a = 3 then ⟨some 2,some 1⟩ else ⟨some 3,none⟩

theorem lists_are_sequences_two : ∃ m', list_splice two_elements 2 3 1 = some m' ∧
    Changed two_elements m' (fun _ : Unit => True) (fun _ => 0) (fun _ => 1) (fun _ => [2,3])
      (Function.update (Function.update (fun _ => [2,3]) () [2]) () [3,2]) (fun k => k = () ∨ k = ()) :=
  (@lists_are_sequences _ _ _ two_elements (fun _ : Unit => True) _ _ (fun _ => [2,3]) _
    ⟨fun _ _ => ⟨⟨rfl,rfl,rfl,rfl,rfl,rfl,trivial⟩,rfl,rfl,by decide⟩,fun i j _ _ other => absurd rfl other⟩).2.2.2.2.1
    () () [2] [3] [] [] [2] trivial trivial rfl rfl

end Pintos.Splices
