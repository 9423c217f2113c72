import Mathlib.Data.List.Basic

/-!
Ranges of an array, as a list: filled with one value, and searched for one value from some index on. The search is for
the least index, and finds one where there is any.
-/
namespace Pintos.FirstFit
universe u
variable {α : Type u}

/-- The elements from `start` on that come before `start + cnt`. -/
def slice (xs : List α) (start cnt : Nat) : List α := (xs.drop start).take cnt

def fill (xs : List α) (start cnt : Nat) (value : α) : List α :=
  xs.mapIdx fun j x => if start ≤ j ∧ j < start + cnt then value else x

/-- All of `cnt` elements from `i` on are `value`, and `i` is not before `start`. -/
structure Fits (xs : List α) (start cnt : Nat) (value : α) (i : Nat) : Prop where
  low : start ≤ i
  high : i + cnt ≤ xs.length
  same : ∀ j, i ≤ j → j < i + cnt → xs[j]? = some value

variable {xs : List α} {start cnt i j : Nat} {value : α}

@[simp] theorem length_fill : (fill xs start cnt value).length = xs.length := List.length_mapIdx

theorem getElem?_fill (below : j < xs.length) :
    (fill xs start cnt value)[j]? = if start ≤ j ∧ j < start + cnt then some value else xs[j]? := by
  rw [fill,List.getElem?_mapIdx,List.getElem?_eq_getElem below]
  split <;> simp_all

theorem getElem?_slice (low : i ≤ j) (high : j < i + cnt) : (slice xs i cnt)[j - i]? = xs[j]? := by
  rw [slice,List.getElem?_take,if_pos (by omega),List.getElem?_drop,Nat.add_sub_cancel' low]

theorem mem_slice {x : α} : x ∈ slice xs i cnt ↔ ∃ j, i ≤ j ∧ j < i + cnt ∧ xs[j]? = some x := by
  rw [List.mem_iff_getElem?]
  constructor
  · rintro ⟨k,there⟩
    have below : k < cnt := by
      have inside := (List.getElem?_eq_some_iff.mp there).1
      rw [slice,List.length_take] at inside
      omega
    refine ⟨i + k,Nat.le_add_right i k,by omega,?_⟩
    have moved : (slice xs i cnt)[i + k - i]? = xs[i + k]? := getElem?_slice (Nat.le_add_right i k) (by omega)
    rw [← moved,Nat.add_sub_cancel_left]
    exact there
  · rintro ⟨j,low,high,there⟩
    exact ⟨j - i,(getElem?_slice low high).trans there⟩

section
variable [DecidableEq α]

def fits (xs : List α) (start cnt : Nat) (value : α) (i : Nat) : Bool :=
  decide (start ≤ i) && decide (i + cnt ≤ xs.length) && (slice xs i cnt).all fun x => decide (x = value)

/-- The least index that fits. -/
def firstFit (xs : List α) (start cnt : Nat) (value : α) : Option Nat :=
  (List.range (xs.length + 1)).find? (fits xs start cnt value)

theorem fits_iff : fits xs start cnt value i = true ↔ Fits xs start cnt value i := by
  simp only [fits,Bool.and_eq_true,decide_eq_true_eq,List.all_eq_true]
  constructor
  · rintro ⟨⟨low,high⟩,all⟩
    refine ⟨low,high,fun j after before => ?_⟩
    have there := List.getElem?_eq_getElem (show j < xs.length by omega)
    rw [there,all _ (mem_slice.mpr ⟨j,after,before,there⟩)]
  · intro all
    refine ⟨⟨all.low,all.high⟩,fun x member => ?_⟩
    obtain ⟨j,after,before,there⟩ := mem_slice.mp member
    exact Option.some.inj (there.symm.trans (all.same j after before))

theorem firstFit_some : firstFit xs start cnt value = some i ↔
    Fits xs start cnt value i ∧ ∀ j < i, ¬ Fits xs start cnt value j := by
  rw [firstFit,List.find?_range_eq_some]
  simp only [fits_iff,List.mem_range,Bool.not_eq_true',Bool.eq_false_iff,ne_eq]
  exact ⟨fun found => ⟨found.1,found.2.2⟩,fun found => ⟨found.1,by have := found.1.high; omega,found.2⟩⟩

theorem firstFit_none : firstFit xs start cnt value = none ↔ ∀ i, ¬ Fits xs start cnt value i := by
  rw [firstFit,List.find?_range_eq_none]
  simp only [Bool.not_eq_true',Bool.eq_false_iff,ne_eq,fits_iff]
  exact ⟨fun none i found => none i (by have := found.high; omega) found,fun none i _ => none i⟩

end

end Pintos.FirstFit
