import Mathlib.Logic.Equiv.Basic

/-!
Heaps in arrays with positions from 1 on, where the children of `i` are `2 * i` and `2 * i + 1`.
A comparison is greater than zero where its first operand is the greater one.
-/
namespace Pintos.Heaps
set_option linter.unusedSimpArgs false

structure TotalPreorder {α : Type} (compare : α → α → Int) : Prop where
  flip : ∀ a b, compare a b > 0 ↔ compare b a < 0
  trans : ∀ a b c, compare a b ≤ 0 → compare b c ≤ 0 → compare a c ≤ 0

def Child (i j : Nat) : Prop := j = 2 * i ∨ j = 2 * i + 1

/-- From `lo` on no child is greater than its parent. -/
def HeapFrom {α : Type} (compare : α → α → Int) (a : Nat → α) (lo n : Nat) : Prop :=
  ∀ i j, lo ≤ i → Child i j → j ≤ n → compare (a j) (a i) ≤ 0

/-- A heap but for the element at `h`, which may be too small for its place. -/
structure Hole {α : Type} (compare : α → α → Int) (a : Nat → α) (lo n h : Nat) : Prop where
  elsewhere : ∀ i j, lo ≤ i → i ≠ h → Child i j → j ≤ n → compare (a j) (a i) ≤ 0
  across : ∀ p j, lo ≤ p → Child p h → Child h j → j ≤ n → compare (a j) (a p) ≤ 0

/-- The same elements in other places, and in the same places outside of `lo` to `n`. -/
def Rearranged {α : Type} (a a' : Nat → α) (lo n : Nat) : Prop :=
  ∃ places : Equiv.Perm Nat, (∀ k, k < lo ∨ n < k → places k = k) ∧ a' = a ∘ places

section
variable {α : Type} (compare : α → α → Int)

/-- `j` if it is a position with a greater element than that at `i`. -/
def larger (a : Nat → α) (n i j : Nat) : Nat := if j ≤ n ∧ compare (a j) (a i) > 0 then j else i

/-- The position of the greatest element among that at `i` and its children. -/
def largest (a : Nat → α) (n i : Nat) : Nat := larger compare a n (larger compare a n i (2 * i)) (2 * i + 1)

/-- The element at `i` goes down as long as it is smaller than a child. -/
def sift : Nat → (Nat → α) → Nat → Nat → Option (Nat → α)
  | 0, _, _, _ => none
  | fuel + 1, a, n, i =>
    if largest compare a n i = i then some a
    else sift fuel (a ∘ Equiv.swap i (largest compare a n i)) n (largest compare a n i)

/-- The elements from the given position back to the first go down. -/
def build (fuel : Nat) (n : Nat) : Nat → (Nat → α) → Option (Nat → α)
  | 0, a => some a
  | i + 1, a => (sift compare fuel a n (i + 1)).bind (build fuel n i)

/-- The greatest element goes to the end, and the rest becomes a heap again. -/
def extract (fuel : Nat) : Nat → (Nat → α) → Option (Nat → α)
  | 0, a => some a
  | i + 1, a =>
    if i = 0 then some a
    else (sift compare fuel (a ∘ Equiv.swap 1 (i + 1)) i 1).bind (extract fuel i)
end

variable {α : Type} {compare : α → α → Int} {a a' a'' b : Nat → α} {fuel lo n h i j k : Nat}

theorem TotalPreorder.refl (order : TotalPreorder compare) (x : α) : compare x x ≤ 0 := by
  have := order.flip x x
  omega

theorem TotalPreorder.le_of_greater (order : TotalPreorder compare) {x y : α} (greater : compare x y > 0) :
    compare y x ≤ 0 := Int.le_of_lt ((order.flip x y).mp greater)

theorem Child.above (child : Child i j) (positive : 0 < i) : i < j := by
  rcases child with rfl | rfl <;> omega

theorem Child.parent {p : Nat} (child : Child i j) (other : Child p j) : p = i := by
  rcases child with rfl | rfl <;> rcases other with same | same <;> omega

theorem Rearranged.refl (a : Nat → α) (lo n : Nat) : Rearranged a a lo n := ⟨Equiv.refl _,fun _ _ => rfl,rfl⟩

theorem Rearranged.trans (first : Rearranged a a' lo n) (second : Rearranged a' a'' lo n) : Rearranged a a'' lo n := by
  obtain ⟨places,fixed,rfl⟩ := first
  obtain ⟨places',fixed',rfl⟩ := second
  refine ⟨places'.trans places,fun k outside => ?_,rfl⟩
  rw [Equiv.trans_apply,fixed' k outside,fixed k outside]

theorem Rearranged.swapped (a : Nat → α) (first : lo ≤ i ∧ i ≤ n) (second : lo ≤ j ∧ j ≤ n) :
    Rearranged a (a ∘ Equiv.swap i j) lo n :=
  ⟨Equiv.swap i j,fun k outside => Equiv.swap_apply_of_ne_of_ne (by omega) (by omega),rfl⟩

theorem Rearranged.widen {lo' n' : Nat} (change : Rearranged a a' lo n) (below : lo' ≤ lo) (above : n ≤ n') :
    Rearranged a a' lo' n' := by
  obtain ⟨places,fixed,same⟩ := change
  exact ⟨places,fun k outside => fixed k (by omega),same⟩

/-- Outside nothing changes, and inside every element was inside before. -/
theorem Rearranged.outside (change : Rearranged a a' lo n) (out : k < lo ∨ n < k) : a' k = a k := by
  obtain ⟨places,fixed,rfl⟩ := change
  rw [Function.comp_apply,fixed k out]

theorem Rearranged.inside (change : Rearranged a a' lo n) (low : lo ≤ k) (high : k ≤ n) :
    ∃ j, lo ≤ j ∧ j ≤ n ∧ a' k = a j := by
  obtain ⟨places,fixed,rfl⟩ := change
  refine ⟨places k,?_,?_,rfl⟩
  · refine Nat.le_of_not_lt fun out => ?_
    have := places.injective (fixed (places k) (.inl out))
    omega
  · refine Nat.le_of_not_lt fun out => ?_
    have := places.injective (fixed (places k) (.inr out))
    omega

theorem larger_cases (order : TotalPreorder compare) (a : Nat → α) (n i j : Nat) :
    (larger compare a n i j = i ∨ (larger compare a n i j = j ∧ j ≤ n)) ∧
    compare (a i) (a (larger compare a n i j)) ≤ 0 ∧
    (j ≤ n → compare (a j) (a (larger compare a n i j)) ≤ 0) := by
  rw [larger]
  by_cases greater : j ≤ n ∧ compare (a j) (a i) > 0
  · rw [if_pos greater]
    exact ⟨.inr ⟨rfl,greater.1⟩,order.le_of_greater greater.2,fun _ => order.refl _⟩
  · rw [if_neg greater]
    exact ⟨.inl rfl,order.refl _,fun inside => Int.not_lt.mp fun more => greater ⟨inside,more⟩⟩

/-- The position chosen is `i` or a child of it, and neither `i` nor a child has a greater element. -/
theorem largest_spec (order : TotalPreorder compare) (a : Nat → α) (n i : Nat) :
    (largest compare a n i = i ∨ (Child i (largest compare a n i) ∧ largest compare a n i ≤ n)) ∧
    compare (a i) (a (largest compare a n i)) ≤ 0 ∧
    ∀ j, Child i j → j ≤ n → compare (a j) (a (largest compare a n i)) ≤ 0 := by
  obtain ⟨left_place,left_own,left_child⟩ := larger_cases order a n i (2 * i)
  obtain ⟨right_place,right_left,right_child⟩ := larger_cases order a n (larger compare a n i (2 * i)) (2 * i + 1)
  rw [largest]
  refine ⟨?_,order.trans _ _ _ left_own right_left,?_⟩
  · rcases right_place with same | ⟨right,inside⟩
    · rw [same]
      rcases left_place with same' | ⟨left,inside⟩
      · exact .inl same'
      · rw [left]
        exact .inr ⟨.inl rfl,inside⟩
    · rw [right]
      exact .inr ⟨.inr rfl,inside⟩
  · rintro j (rfl | rfl) inside
    · exact order.trans _ _ _ (left_child inside) right_left
    · exact right_child inside

/-- One step down moves the hole to the child that takes the place. -/
theorem Hole.down (order : TotalPreorder compare) (hole : Hole compare a lo n h) (positive : 0 < lo) (low : lo ≤ h)
    (moves : largest compare a n h ≠ h) :
    Hole compare (a ∘ Equiv.swap h (largest compare a n h)) lo n (largest compare a n h) := by
  obtain ⟨place,own,children⟩ := largest_spec order a n h
  obtain ⟨child,inside⟩ := place.resolve_left moves
  generalize largest compare a n h = top at moves own children child inside ⊢
  have above := child.above (by omega)
  have kept : ∀ k, k ≠ h → k ≠ top → (a ∘ Equiv.swap h top) k = a k := fun k not_h not_top => by
    rw [Function.comp_apply,Equiv.swap_apply_of_ne_of_ne not_h not_top]
  have at_h : (a ∘ Equiv.swap h top) h = a top := by rw [Function.comp_apply,Equiv.swap_apply_left]
  have at_top : (a ∘ Equiv.swap h top) top = a h := by rw [Function.comp_apply,Equiv.swap_apply_right]
  constructor
  · intro i j from_ not_top child_j inside_j
    by_cases here : i = h
    · subst here
      rw [at_h]
      by_cases chosen : j = top
      · rw [chosen,at_top]
        exact own
      · rw [kept j (by have := child_j.above (by omega); omega) chosen]
        exact children j child_j inside_j
    · rw [kept i here not_top]
      by_cases to_h : j = h
      · rw [to_h,at_h]
        exact hole.across i top from_ (to_h ▸ child_j) child inside
      · rw [kept j to_h (fun chosen => here (child.parent (chosen ▸ child_j)))]
        exact hole.elsewhere i j from_ here child_j inside_j
  · intro p j from_ parent child_j inside_j
    have above_j := child_j.above (by omega)
    rw [child.parent parent,at_h,kept j (by omega) (by omega)]
    exact hole.elsewhere top j (by omega) moves child_j inside_j

/-- An element that has gone down leaves a heap of the same elements. -/
theorem sift_spec (order : TotalPreorder compare) (hole : Hole compare a lo n h) (positive : 0 < lo) (low : lo ≤ h)
    (enough : n - h < fuel) :
    ∃ a', sift compare fuel a n h = some a' ∧ HeapFrom compare a' lo n ∧ Rearranged a a' lo n := by
  induction fuel generalizing a h with
  | zero => omega
  | succ fuel ih =>
    rw [sift]
    by_cases stays : largest compare a n h = h
    · rw [if_pos stays]
      refine ⟨a,rfl,fun i j from_ child inside => ?_,.refl a lo n⟩
      by_cases here : i = h
      · have children := (largest_spec order a n h).2.2
        rw [stays] at children
        rw [here]
        exact children j (here ▸ child) inside
      · exact hole.elsewhere i j from_ here child inside
    · rw [if_neg stays]
      obtain ⟨child,inside⟩ := (largest_spec order a n h).1.resolve_left stays
      have above := child.above (by omega)
      obtain ⟨a',ran,heap,change⟩ := ih (hole.down order positive low stays) (by omega) (by omega)
      exact ⟨a',ran,heap,.trans (.swapped a (by omega) (by omega)) change⟩

theorem HeapFrom.hole (heap : HeapFrom compare a (i + 1) n) (positive : 0 < i) : Hole compare a i n i :=
  ⟨fun p j from_ other => heap p j (by omega),fun p j from_ parent => absurd (parent.above (by omega)) (by omega)⟩

theorem build_spec (order : TotalPreorder compare) (heap : HeapFrom compare a (i + 1) n) (enough : n < fuel) :
    ∃ a', build compare fuel n i a = some a' ∧ HeapFrom compare a' 1 n ∧ Rearranged a a' 1 n := by
  induction i generalizing a with
  | zero => exact ⟨a,rfl,heap,.refl a 1 n⟩
  | succ i ih =>
    obtain ⟨b,sifted,heap_b,change⟩ := sift_spec order (heap.hole (by omega)) (by omega) (Nat.le_refl _)
      (show n - (i + 1) < fuel by omega)
    obtain ⟨a',ran,heap',change'⟩ := ih heap_b
    refine ⟨a',?_,heap',.trans (change.widen (by omega) (Nat.le_refl _)) change'⟩
    rw [build,sifted]
    exact ran

/-- No element of a heap is greater than the first. -/
theorem HeapFrom.root (order : TotalPreorder compare) (heap : HeapFrom compare a 1 n) (positive : 0 < k) (inside : k ≤ n) :
    compare (a k) (a 1) ≤ 0 := by
  induction k using Nat.strongRecOn with
  | ind k ih =>
    by_cases first : k = 1
    · rw [first]
      exact order.refl _
    · exact order.trans _ _ _ (heap (k / 2) k (by omega) (by unfold Child; omega) inside)
        (ih (k / 2) (by omega) (by omega) (by omega))

/-- A heap up to `i`, and behind it elements in order that are not less than any before them. -/
structure Partly (compare : α → α → Int) (a : Nat → α) (i n : Nat) : Prop where
  heap : HeapFrom compare a 1 i
  ordered : ∀ j k, 0 < j → j ≤ k → i < k → k ≤ n → compare (a j) (a k) ≤ 0

/-- After the exchange of the first and the last element of the heap the first may be too small. -/
theorem Partly.hole (part : Partly compare a (i + 1) n) :
    Hole compare (a ∘ Equiv.swap 1 (i + 1)) 1 i 1 := by
  have kept : ∀ k, 1 < k → k ≤ i → (a ∘ Equiv.swap 1 (i + 1)) k = a k := fun k above inside => by
    rw [Function.comp_apply,Equiv.swap_apply_of_ne_of_ne (by omega) (by omega)]
  constructor
  · intro p j from_ not_first child inside
    have above := child.above (by omega)
    rw [kept p (by omega) (by omega),kept j (by omega) inside]
    exact part.heap p j from_ child (by omega)
  · intro p j from_ parent
    exact absurd (parent.above (by omega)) (by omega)

theorem Partly.step (order : TotalPreorder compare) (part : Partly compare a (i + 1) n)
    (heap : HeapFrom compare a' 1 i) (change : Rearranged (a ∘ Equiv.swap 1 (i + 1)) a' 1 i) :
    Partly compare a' i n := by
  have at_end : a' (i + 1) = a 1 := by rw [change.outside (by omega),Function.comp_apply,Equiv.swap_apply_right]
  have behind : ∀ k, i + 1 < k → a' k = a k := fun k above => by
    rw [change.outside (by omega),Function.comp_apply,Equiv.swap_apply_of_ne_of_ne (by omega) (by omega)]
  have before : ∀ j, 0 < j → j ≤ i → ∃ l, 0 < l ∧ l ≤ i + 1 ∧ a' j = a l := fun j positive inside => by
    obtain ⟨l,low,high,same⟩ := change.inside positive inside
    by_cases first : l = 1
    · exact ⟨i + 1,by omega,(Nat.le_refl _),by rw [same,first,Function.comp_apply,Equiv.swap_apply_left]⟩
    · exact ⟨l,low,by omega,by rw [same,Function.comp_apply,Equiv.swap_apply_of_ne_of_ne first (by omega)]⟩
  refine ⟨heap,fun j k positive order_jk above inside => ?_⟩
  by_cases last : k = i + 1
  · subst last
    by_cases same : j = i + 1
    · rw [same]
      exact order.refl _
    · obtain ⟨l,low,high,from_l⟩ := before j positive (by omega)
      rw [from_l,at_end]
      exact part.heap.root order low high
  · rw [behind k (by omega)]
    by_cases sorted_j : i + 1 < j
    · rw [behind j sorted_j]
      exact part.ordered j k positive order_jk (by omega) inside
    · by_cases same : j = i + 1
      · rw [same,at_end]
        exact part.ordered 1 k (by omega) (by omega) (by omega) inside
      · obtain ⟨l,low,high,from_l⟩ := before j positive (by omega)
        rw [from_l]
        exact part.ordered l k low (by omega) (by omega) inside

theorem extract_spec (order : TotalPreorder compare) (part : Partly compare a i n) (room : i ≤ n) (enough : n < fuel) :
    ∃ a', extract compare fuel i a = some a' ∧
      (∀ j k, 0 < j → j ≤ k → k ≤ n → compare (a' j) (a' k) ≤ 0) ∧ Rearranged a a' 1 n := by
  induction i generalizing a with
  | zero => exact ⟨a,rfl,fun j k positive order_jk => part.ordered j k positive order_jk (by omega),.refl a 1 n⟩
  | succ i ih =>
    rw [extract]
    by_cases one : i = 0
    · rw [if_pos one]
      refine ⟨a,rfl,fun j k positive order_jk inside => ?_,.refl a 1 n⟩
      by_cases first : k = 1
      · rw [show j = k by omega]
        exact order.refl _
      · exact part.ordered j k positive order_jk (by omega) inside
    · rw [if_neg one]
      obtain ⟨b,sifted,heap,change⟩ := sift_spec order (part.hole) (by omega) (Nat.le_refl _) (show i - 1 < fuel by omega)
      obtain ⟨a',ran,sorted,change'⟩ := ih (part.step order heap change) (by omega)
      rw [sifted]
      exact ⟨a',ran,sorted,.trans (.swapped a (by omega) (by omega)) (.trans (change.widen (Nat.le_refl _) (by omega)) change')⟩

/-- Building a heap and taking it apart leaves the elements in order. -/
theorem heapsort_spec (order : TotalPreorder compare) (a : Nat → α) (enough : n < fuel) :
    ∃ b a', build compare fuel n (n / 2) a = some b ∧ extract compare fuel n b = some a' ∧
      (∀ j k, 0 < j → j ≤ k → k ≤ n → compare (a' j) (a' k) ≤ 0) ∧ Rearranged a a' 1 n := by
  have leaves : HeapFrom compare a (n / 2 + 1) n := fun i j from_ child inside => by
    rcases child with rfl | rfl <;> omega
  obtain ⟨b,built,heap,change⟩ := build_spec order leaves enough
  obtain ⟨a',ran,sorted,change'⟩ := extract_spec order ⟨heap,fun j k _ _ above inside => by omega⟩ (Nat.le_refl _) enough
  exact ⟨b,a',built,ran,sorted,change.trans change'⟩

end Pintos.Heaps
