import Pintos.Lists
import Pintos.Splices
import Mathlib.Order.Defs.Unbundled

/-!
The sorting routine of `lib/kernel/list.c` on the pointers of a list. Its cursors are elements of
the list, so each is known by the elements that follow it, and every loop reads what the loop of the
same name in `Lists` reads from the sequence. A failed assertion and a loop out of fuel have no result.
-/
namespace Pintos.ListSort
open Pintos.LinkedLists Pintos.ListFamilies Pintos.Splices
set_option linter.unusedSimpArgs false
variable {α : Type}

/-! ### Cursors -/

section
variable {m : Memory α} {a head tail : α} {pre ys post : List α}

theorem following_cons : following tail (a :: ys) = a := rfl

/-- The element after `a`, and the way back. -/
theorem next_prev (list : Represents m head tail (pre ++ a :: ys)) :
    list_next m a = some (following tail ys) ∧ list_prev m (following tail ys) = some a := by
  have next := (represents_links list).2
  rw [← List.singleton_append,← List.append_assoc] at list
  have prev := (represents_cut list).2.2.2
  rw [preceding_append (List.cons_ne_nil a []) head head] at prev
  exact ⟨next,prev⟩

/-- An element is none of those after it. -/
theorem ahead (list : Represents m head tail (pre ++ a :: (ys ++ post))) : a ≠ following tail post := by
  have once := (List.nodup_cons.mp list.once).2
  rw [List.append_assoc,List.cons_append,List.append_assoc] at once
  have later := (List.nodup_cons.mp (List.nodup_append.mp once).2.1).1
  rintro rfl
  exact later (List.mem_append_right _ (following_mem tail post))

end

/-! ### Orders -/

section
variable {less : α → α → Bool} [order : IsStrictWeakOrder α fun a b => less a b = true]
include order

theorem less_asymmetric (a b : α) (before : less a b = true) : less b a = false :=
  Bool.eq_false_iff.mpr fun after => order.irrefl a (order.trans a b a before after)

/-- What is not before something is not before what that is not before either. -/
theorem less_transitive (a b c : α) (first : less b a = false) (second : less c b = false) : less c a = false := by
  refine Bool.eq_false_iff.mpr fun before => ?_
  by_cases above : less a b = true
  · exact Bool.eq_false_iff.mp second (order.trans c a b before above)
  · by_cases below : less b c = true
    · exact Bool.eq_false_iff.mp first (order.trans b c a below before)
    · have joined := order.incomp_trans a b c ⟨above,Bool.eq_false_iff.mp first⟩ ⟨below,Bool.eq_false_iff.mp second⟩
      exact joined.2 before

end

/-! ### The code -/
variable [DecidableEq α] (less : α → α → Bool)

/-- The loop of `is_sorted`. -/
def sortedLoop : Nat → Memory α → (a b : α) → Option Bool
  | 0, _, _, _ => none
  | n + 1, m, a, b => do
    let a ← list_next m a
    if a = b then pure true
    else
      let prev ← list_prev m a
      if less a prev then pure false else sortedLoop n m a b

def is_sorted (fuel : Nat) (m : Memory α) (a b : α) : Option Bool := if a ≠ b then sortedLoop less fuel m a b else some true

/-- The loop of `find_end_of_run`. -/
def runLoop : Nat → Memory α → (a b : α) → Option α
  | 0, _, _, _ => none
  | n + 1, m, a, b => do
    let a ← list_next m a
    if a = b then pure a
    else
      let prev ← list_prev m a
      if less a prev then pure a else runLoop n m a b

/-- Asserts that the range is not empty. -/
def find_end_of_run (fuel : Nat) (m : Memory α) (a b : α) : Option α := if a = b then none else runLoop less fuel m a b

/-- The loop of `inplace_merge`. -/
def mergeLoop : Nat → Memory α → (a0 a1b0 b1 : α) → Option (Memory α)
  | 0, _, _, _, _ => none
  | n + 1, m, a0, a1b0, b1 =>
    if a0 = a1b0 ∨ a1b0 = b1 then some m
    else if !less a1b0 a0 then do
      let a0 ← list_next m a0
      mergeLoop n m a0 a1b0 b1
    else do
      let a1b0 ← list_next m a1b0
      let prev ← list_prev m a1b0
      let spliced ← list_splice m a0 prev a1b0
      mergeLoop n spliced a0 a1b0 b1

/-- Asserts that both runs are sorted. -/
def inplace_merge (fuel : Nat) (m : Memory α) (a0 a1b0 b1 : α) : Option (Memory α) := do
  let first ← is_sorted less fuel m a0 a1b0
  let second ← is_sorted less fuel m a1b0 b1
  if first && second then mergeLoop less fuel m a0 a1b0 b1 else none

/-- The `for` loop of `list_sort`. -/
def sortPass (fuel : Nat) : Nat → Memory α → (tail a0 : α) → (output_run_cnt : Nat) → Option (Nat × Memory α)
  | 0, _, _, _, _ => none
  | n + 1, m, tail, a0, output_run_cnt =>
    if a0 = tail then some (output_run_cnt,m)
    else do
      let a1b0 ← find_end_of_run less fuel m a0 tail
      if a1b0 = tail then pure (output_run_cnt + 1,m)
      else
        let b1 ← find_end_of_run less fuel m a1b0 tail
        let merged ← inplace_merge less fuel m a0 a1b0 b1
        sortPass fuel n merged tail b1 (output_run_cnt + 1)

/-- The `do` loop of `list_sort`. -/
def sortLoop (fuel : Nat) : Nat → Memory α → (head tail : α) → Option (Memory α)
  | 0, _, _, _ => none
  | n + 1, m, head, tail => do
    let a0 ← (m head).next
    let pass ← sortPass less fuel fuel m tail a0 0
    if pass.1 > 1 then sortLoop fuel n pass.2 head tail else pure pass.2

/-- Asserts that the result is sorted. -/
def list_sort (fuel : Nat) (m : Memory α) (head tail : α) : Option (Memory α) := do
  let m ← sortLoop less fuel fuel m head tail
  let begin ← (m head).next
  let sorted ← is_sorted less fuel m begin tail
  if sorted then pure m else none

/-! ### Runs -/

variable {less} {m : Memory α} {a b head tail : α} {pre as bs post xs ys : List α} {n k fuel : Nat}

theorem sortedLoop_spec (list : Represents m head tail (pre ++ a :: (ys ++ post))) (sorted : Lists.Sorted less (a :: ys))
    (enough : ys.length < n) : sortedLoop less n m a (following tail post) = some true := by
  induction n generalizing pre a ys with
  | zero => omega
  | succ n ih =>
    obtain ⟨next,prev⟩ := next_prev list
    cases ys with
    | nil =>
      simp only [List.nil_append] at next
      simp only [sortedLoop,next,bind,Option.bind,if_true,pure]
    | cons b rest =>
      have list' : Represents m head tail ((pre ++ [a]) ++ b :: (rest ++ post)) := by simpa using list
      have other : b ≠ following tail post := ahead list'
      obtain ⟨above,later⟩ := List.pairwise_cons.mp sorted
      have ordered : less b a = false := above b List.mem_cons_self
      have again := ih list' later (by simp only [List.length_cons] at enough; omega)
      simp only [List.cons_append,following] at next prev
      simp only [sortedLoop,next,prev,bind,Option.bind,other,if_false,ordered,Bool.false_eq_true,again]

theorem is_sorted_spec (list : Represents m head tail (pre ++ as ++ post)) (sorted : Lists.Sorted less as)
    (enough : as.length ≤ n) : is_sorted less n m (following tail (as ++ post)) (following tail post) = some true := by
  cases as with
  | nil => simp [is_sorted]
  | cons a rest =>
    have list' : Represents m head tail (pre ++ a :: (rest ++ post)) := by simpa using list
    have other : a ≠ following tail post := ahead list'
    have looped := sortedLoop_spec (n := n) list' sorted (by simp only [List.length_cons] at enough; omega)
    simp only [List.cons_append,following] at other ⊢
    rw [is_sorted,if_pos other]
    exact looped

theorem runLoop_spec (list : Represents m head tail (pre ++ a :: ys)) (enough : ys.length < n) :
    runLoop less n m a tail = some (following tail (Lists.find_end_of_run less (a :: ys)).2) := by
  induction n generalizing pre a ys with
  | zero => omega
  | succ n ih =>
    obtain ⟨next,prev⟩ := next_prev list
    cases ys with
    | nil =>
      simp only [following] at next
      simp only [runLoop,next,bind,Option.bind,if_true,Lists.find_end_of_run,following,pure]
    | cons b rest =>
      have list' : Represents m head tail ((pre ++ [a]) ++ b :: rest) := by simpa using list
      have other : b ≠ tail := by
        have apart := ahead (by rw [List.append_nil]; exact list')
        exact apart
      have again := ih list' (by simp only [List.length_cons] at enough; omega)
      simp only [following] at next prev
      simp only [runLoop,next,prev,bind,Option.bind,other,if_false]
      by_cases descends : less b a = true
      · simp only [descends,if_true,Lists.find_end_of_run,following,pure]
      · simp only [descends,if_false,Lists.find_end_of_run,again,Bool.false_eq_true]

theorem find_end_of_run_spec (list : Represents m head tail (pre ++ a :: ys)) (enough : ys.length < n) :
    find_end_of_run less n m a tail = some (following tail (Lists.find_end_of_run less (a :: ys)).2) := by
  have other : a ≠ tail := ahead (by rw [List.append_nil]; exact list)
  rw [find_end_of_run,if_neg other]
  exact runLoop_spec list enough

/-! ### Merging -/

/-- A splice within one list. -/
theorem represents_splice {before range after left right : List α} (list : Represents m head tail (before ++ range ++ after))
    (place : before ++ after = left ++ right) :
    ∃ m', list_splice m (following tail right) (following tail (range ++ after)) (following tail after) = some m' ∧
      Represents m' head tail (left ++ range ++ right) ∧ ∀ a, a ∉ nodes head tail (before ++ range ++ after) → m' a = m a := by
  have family : Family m (fun _ : Unit => True) (fun _ => head) (fun _ => tail) (fun _ => before ++ range ++ after) :=
    ⟨fun _ _ => list,fun i j _ _ other => absurd rfl other⟩
  obtain ⟨m',spliced,edited,frame⟩ := @family_splice _ _ _ _ _ _ _ _ _ () () _ _ _ right _
     family trivial trivial rfl (by rw [Function.update_self]; exact place)
  refine ⟨m',spliced,?_,fun a outside => frame a outside outside⟩
  have each := edited.each () trivial
  rwa [Function.update_self] at each

/-- What is left of the runs stands after what is merged; the node of the second run that goes first moves there. -/
theorem mergeLoop_spec (list : Represents m head tail (pre ++ as ++ bs ++ post)) (enough : as.length + bs.length < n)
    (same : as.length + bs.length ≤ k) :
    ∃ m', mergeLoop less n m (following tail (as ++ bs ++ post)) (following tail (bs ++ post)) (following tail post) = some m' ∧
      Represents m' head tail (pre ++ Lists.mergeLoop less k as bs ++ post) ∧
      ∀ a, a ∉ nodes head tail (pre ++ as ++ bs ++ post) → m' a = m a := by
  induction n generalizing m pre as bs k with
  | zero => omega
  | succ n ih =>
    cases as with
    | nil =>
      refine ⟨m,by simp [mergeLoop],?_,fun _ _ => rfl⟩
      have whole : Lists.mergeLoop less k [] bs = bs := by cases k <;> simp [Lists.mergeLoop]
      simpa [whole] using list
    | cons a as =>
      cases bs with
      | nil =>
        refine ⟨m,by simp [mergeLoop],?_,fun _ _ => rfl⟩
        have whole : Lists.mergeLoop less k (a :: as) [] = a :: as := by cases k <;> simp [Lists.mergeLoop]
        simpa [whole] using list
      | cons b bs =>
        obtain ⟨k,rfl⟩ : ∃ j, k = j + 1 := ⟨k - 1,by simp only [List.length_cons] at same; omega⟩
        simp only [List.length_cons] at enough same
        have first : Represents m head tail (pre ++ a :: (as ++ (b :: bs ++ post))) := by simpa using list
        have second : Represents m head tail ((pre ++ a :: as) ++ b :: (bs ++ post)) := by simpa using list
        have apart : a ≠ b := ahead first
        have inside : b ≠ following tail post := ahead second
        have next_a := (next_prev first).1
        obtain ⟨next_b,prev_b⟩ := next_prev second
        have whole : ∀ c, c ∈ nodes head tail (pre ++ a :: as ++ b :: bs ++ post) ↔
            c ∈ nodes head tail (pre ++ [b] ++ (a :: as) ++ bs ++ post) := by
          intro c
          simp only [mem_nodes,List.mem_append,List.mem_cons,List.not_mem_nil,or_false,or_assoc,or_left_comm]
        by_cases taken : less b a = true
        · obtain ⟨spliced,moved,list',frame⟩ := @represents_splice _ _ _ _ _ (pre ++ a :: as) [b] _ pre (a :: as ++ bs ++ post) (by simpa using list) (by simp)
          have list' : Represents spliced head tail (pre ++ [b] ++ (a :: as) ++ bs ++ post) := by simpa using list'
          obtain ⟨m',looped,result,frame'⟩ := ih (k := k) list' (by simp only [List.length_cons]; omega)
            (by simp only [List.length_cons]; omega)
          refine ⟨m',?_,?_,?_⟩
          · simp only [List.cons_append,List.nil_append,following_cons] at moved looped next_b prev_b ⊢
            simp only [mergeLoop,apart,inside,or_self,if_false,taken,Bool.not_true,Bool.false_eq_true,next_b,prev_b,bind,
              Option.bind,moved]
            exact looped
          · simpa [Lists.mergeLoop,taken] using result
          · intro c outside
            rw [frame' c fun member => outside ((whole c).mpr member),frame c]
            simpa using outside
        · have list' : Represents m head tail (pre ++ [a] ++ as ++ (b :: bs) ++ post) := by simpa using list
          obtain ⟨m',looped,result,frame⟩ := ih (k := k) list' (by simp only [List.length_cons]; omega)
            (by simp only [List.length_cons]; omega)
          refine ⟨m',?_,?_,?_⟩
          · have next_a : list_next m a = some (following tail (as ++ b :: bs ++ post)) := by simpa using next_a
            simp only [List.cons_append,following_cons] at looped ⊢
            simp only [mergeLoop,apart,inside,or_self,if_false,taken,Bool.not_false,if_true,next_a,bind,Option.bind]
            simpa using looped
          · simpa [Lists.mergeLoop,taken] using result
          · intro c outside
            exact frame c (by simpa using outside)

theorem inplace_merge_spec (list : Represents m head tail (pre ++ as ++ bs ++ post)) (first : Lists.Sorted less as)
    (second : Lists.Sorted less bs) (enough : as.length + bs.length < n) :
    ∃ m', inplace_merge less n m (following tail (as ++ bs ++ post)) (following tail (bs ++ post)) (following tail post) = some m' ∧
      Represents m' head tail (pre ++ Lists.inplace_merge less as bs ++ post) ∧
      ∀ a, a ∉ nodes head tail (pre ++ as ++ bs ++ post) → m' a = m a := by
  obtain ⟨m',merged,result,frame⟩ := mergeLoop_spec list enough (Nat.le_refl _)
  refine ⟨m',?_,result,frame⟩
  have one := is_sorted_spec (n := n) (by simpa using list) first (by omega)
  have two := @is_sorted_spec _ _ _ _ _ _ (pre ++ as) _ _ n (by simpa using list) second (by omega)
  rw [← List.append_assoc] at one
  simp only [inplace_merge,one,two,bind,Option.bind,Bool.and_self,if_true,merged]

/-! ### Passes -/

section
variable (transitive : ∀ a b c, less b a = false → less c b = false → less c a = false)
include transitive

/-- A pass reads the runs of the rest of the list and leaves it merged. -/
theorem sortPass_spec {output_run_cnt : Nat} (list : Represents m head tail (pre ++ ys)) (enough : ys.length < n)
    (room : ys.length < fuel) (same : ys.length < k) :
    ∃ m', sortPass less fuel n m tail (following tail ys) output_run_cnt =
        some (output_run_cnt + (Lists.sortPass less k ys).1,m') ∧
      Represents m' head tail (pre ++ (Lists.sortPass less k ys).2) ∧ ∀ a, a ∉ nodes head tail (pre ++ ys) → m' a = m a := by
  induction n generalizing m pre ys k output_run_cnt with
  | zero => omega
  | succ n ih =>
    obtain ⟨k,rfl⟩ : ∃ j, k = j + 1 := ⟨k - 1,by omega⟩
    cases ys with
    | nil => exact ⟨m,by simp [sortPass,following,Lists.sortPass],by simpa [Lists.sortPass] using list,fun _ _ => rfl⟩
    | cons a rest =>
      have other : a ≠ tail := ahead (by rw [List.append_nil]; exact list)
      have whole := Lists.find_end_of_run_append less (a :: rest)
      have shorter := Lists.find_end_of_run_shorter less a rest
      have sorted := Lists.find_end_of_run_sorted transitive (a :: rest)
      have found := @find_end_of_run_spec _ _ less _ _ _ _ _ _ fuel list (by simp only [List.length_cons] at room; omega)
      simp only [List.length_cons] at enough room same
      generalize first : Lists.find_end_of_run less (a :: rest) = runs at *
      obtain ⟨as,left⟩ := runs
      cases left with
      | nil =>
        simp only [List.append_nil] at whole
        refine ⟨m,?_,?_,fun _ _ => rfl⟩
        · simp only [sortPass,following_cons,other,if_false,found,bind,Option.bind,following,if_true,Lists.sortPass,first,pure]
        · simpa [Lists.sortPass,first,whole] using list
      | cons b more =>
        simp only at whole
        have list₂ : Represents m head tail ((pre ++ as) ++ b :: more) := by
          rw [← whole] at list
          simpa using list
        have later : b ≠ tail := ahead (by rw [List.append_nil]; exact list₂)
        have whole₂ := Lists.find_end_of_run_append less (b :: more)
        have shorter₂ := Lists.find_end_of_run_shorter less b more
        have sorted₂ := Lists.find_end_of_run_sorted transitive (b :: more)
        simp only [List.length_cons] at shorter
        have found₂ := @find_end_of_run_spec _ _ less _ _ _ _ _ _ fuel list₂ (by omega)
        generalize second : Lists.find_end_of_run less (b :: more) = runs₂ at *
        obtain ⟨bs,post⟩ := runs₂
        simp only at whole₂ shorter₂ sorted₂ sorted found₂
        have list₃ : Represents m head tail (pre ++ as ++ bs ++ post) := by
          rw [← whole₂] at list₂
          simpa using list₂
        have lengths : as.length + bs.length + post.length = rest.length + 1 := by
          rw [← whole₂] at whole
          have := congrArg List.length whole
          simp only [List.length_append,List.length_cons] at this
          omega
        obtain ⟨merged,merges,list₄,frame⟩ := inplace_merge_spec (n := fuel) list₃ sorted sorted₂ (by omega)
        obtain ⟨m',passed,result,frame'⟩ := @ih _ _ _ k (output_run_cnt + 1) list₄ (by omega) (by omega) (by omega)
        have start : following tail (as ++ bs ++ post) = a := by
          rw [List.append_assoc,whole₂,whole,following_cons]
        have middle : following tail (bs ++ post) = b := by rw [whole₂,following_cons]
        rw [start,middle] at merges
        refine ⟨m',?_,?_,?_⟩
        · simp only [sortPass,following_cons,other,if_false,found,bind,Option.bind,later,found₂,merges,passed,Lists.sortPass,
            first,
            second]
          rw [Nat.add_assoc,Nat.add_comm 1]
        · simpa [Lists.sortPass,first,second] using result
        · intro c outside
          have mem : ∀ xs : List α, (∀ d, d ∈ xs ↔ d ∈ pre ++ a :: rest) → c ∉ nodes head tail xs := by
            intro xs same member
            rw [mem_nodes,same,← mem_nodes] at member
            exact outside member
          rw [frame' c (mem _ ?_),frame c (mem _ ?_)]
          · intro d
            rw [List.append_assoc,List.append_assoc,whole₂,← List.append_assoc,List.append_assoc,whole]
          · intro d
            have merges : d ∈ Lists.inplace_merge less as bs ↔ d ∈ as ++ bs := by
              rw [Lists.inplace_merge_eq,List.mem_merge,List.mem_append]
            rw [List.mem_append,List.mem_append,merges,or_assoc,← List.mem_append,List.append_assoc as,whole₂,whole,
              List.mem_append]

variable (asymmetric : ∀ a b, less a b = true → less b a = false)
include asymmetric

/-- Each pass halves the number of runs, so the fuel is enough for the passes. -/
theorem sortLoop_spec (list : Represents m head tail xs) (room : xs.length < fuel) (few : Lists.runs less xs < n)
    (same : Lists.runs less xs < k) :
    ∃ m', sortLoop less fuel n m head tail = some m' ∧ Represents m' head tail (Lists.sortLoop less k xs) ∧
      ∀ a, a ∉ nodes head tail xs → m' a = m a := by
  induction n generalizing m xs k with
  | zero => omega
  | succ n ih =>
    obtain ⟨k,rfl⟩ : ∃ j, k = j + 1 := ⟨k - 1,by omega⟩
    obtain ⟨front,_⟩ := represents_front list
    obtain ⟨m₁,passed,list₁,frame₁⟩ := @sortPass_spec _ _ _ _ _ _ [] _ _ (xs.length + 1) _ transitive _
      list room room (Nat.lt_succ_self _)
    rw [Nat.zero_add] at passed
    have halved := Lists.sortPass_halves less (xs.length + 1) xs
    have output := Lists.sortPass_runs transitive asymmetric (xs.length + 1) xs (Nat.lt_succ_self _)
    have perm := Lists.sortPass_perm less (xs.length + 1) xs
    simp only [List.nil_append] at list₁ frame₁
    by_cases several : (Lists.sortPass less (xs.length + 1) xs).1 > 1
    · obtain ⟨m₂,looped,list₂,frame₂⟩ := ih (k := k) list₁ (by rw [perm.length_eq]; exact room) (by omega) (by omega)
      refine ⟨m₂,?_,?_,?_⟩
      · simp only [sortLoop,front,bind,Option.bind,passed,several,if_true,looped]
      · simpa only [Lists.sortLoop,several,if_true] using list₂
      · intro a outside
        have kept : a ∉ nodes head tail (Lists.sortPass less (xs.length + 1) xs).2 := by
          rwa [mem_nodes,perm.mem_iff,← mem_nodes]
        rw [frame₂ a kept,frame₁ a outside]
    · refine ⟨m₁,?_,?_,frame₁⟩
      · simp only [sortLoop,front,bind,Option.bind,passed,several,if_false,pure]
      · simpa only [Lists.sortLoop,several,if_false] using list₁

/-- The pointers are sorted as the sequence is, and every assertion holds on the way. -/
theorem list_sort_spec (list : Represents m head tail xs) (room : xs.length < fuel) :
    ∃ m', list_sort less fuel m head tail = some m' ∧ Represents m' head tail (Lists.list_sort less xs) ∧
      ∀ a, a ∉ nodes head tail xs → m' a = m a := by
  have few := Lists.runs_le_length less xs
  obtain ⟨m',looped,result,frame⟩ := sortLoop_spec (n := fuel) (k := xs.length + 1) transitive asymmetric list room (by omega)
    (by omega)
  have result : Represents m' head tail (Lists.list_sort less xs) := result
  have length := (Lists.list_sort_perm less xs).length_eq
  have checked := @is_sorted_spec _ _ _ _ _ _ [] _ [] fuel (by simpa using result)
    (Lists.list_sort_sorted transitive asymmetric xs) (by omega)
  rw [List.append_nil] at checked
  refine ⟨m',?_,result,frame⟩
  have ends : following tail [] = tail := rfl
  rw [ends] at checked
  simp only [list_sort,looped,bind,Option.bind,(represents_front result).1,checked,if_true,pure]

end

/-- Neither is less than the other. -/
def equivalent (less : α → α → Bool) (a b : α) : Bool := !less a b && !less b a

/-- `list_sort` ends, with no assertion failed, whatever the list is and for every strict weak order: its elements are in
    order, those that are equivalent as they were among themselves, and no other node is touched. The fuel is for the number
    of passes, and for the steps of each loop in one. -/
theorem list_sort_correct [IsStrictWeakOrder α fun a b => less a b = true] (list : Represents m head tail xs)
    (room : xs.length < fuel) :
    ∃ m' ys, list_sort less fuel m head tail = some m' ∧ Represents m' head tail ys ∧ ys.Perm xs ∧
      ys.Pairwise (fun a b => less b a = false) ∧ (∀ a, ys.filter (equivalent less a) = xs.filter (equivalent less a)) ∧
      ∀ a, a ∉ nodes head tail xs → m' a = m a := by
  obtain ⟨m',sorted,result,frame⟩ := @list_sort_spec _ _ less _ _ _ _ _ less_transitive less_asymmetric list room
  refine ⟨m',_,sorted,result,Lists.list_sort_perm less xs,Lists.list_sort_sorted less_transitive less_asymmetric xs,?_,frame⟩
  intro a
  refine Lists.list_sort_filter less_transitive ?_ xs
  intro b c first second
  simp only [equivalent,Bool.and_eq_true,Bool.not_eq_true'] at first second
  exact less_transitive b a c first.1 second.2

theorem list_sort_correct_two : ∃ m' ys, list_sort (fun a b => decide (b < a)) 3 two_elements 0 1 = some m' ∧
    Represents m' 0 1 ys ∧ ys.Perm [2,3] ∧ ys.Pairwise (fun a b => decide (a < b) = false) ∧
    (∀ a, ys.filter (equivalent (fun a b => decide (b < a)) a) = [2,3].filter (equivalent (fun a b => decide (b < a)) a)) ∧
    ∀ a, a ∉ nodes 0 1 [2,3] → m' a = two_elements a := by
  have weak : IsStrictWeakOrder Nat fun a b => decide (b < a) = true := by
    refine { irrefl := fun a => ?_, trans := fun a b c => ?_, incomp_trans := fun a b c => ?_ }
    all_goals simp only [decide_eq_true_eq]
    all_goals omega
  exact list_sort_correct (m := two_elements)
    ⟨⟨rfl,rfl,rfl,rfl,rfl,rfl,trivial⟩,rfl,rfl,by decide⟩ (by decide)

end Pintos.ListSort
