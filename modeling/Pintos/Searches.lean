import Pintos.Bisections
import Mathlib.Data.BitVec
import Mathlib.Tactic.IntervalCases

/-!
`binary_search` of `lib/stdlib.c`, on pointers of 32 bits. A run lists the pointers that it passes
to `compare`; a run of too few rounds has no result.
-/
namespace Pintos.Searches
open Pintos.Bisections
set_option linter.unusedSimpArgs false

abbrev Addr := BitVec 32

/-- The loop from `first` to `last`. -/
def searchLoop (compare : Addr → Addr → Int) (key size : Addr) : Nat → Addr → Addr → Option (List Addr × Addr)
  | 0, _, _ => none
  | fuel + 1, first, last =>
    if first < last then
      let range := (last - first) / size
      let middle := first + (range / 2) * size
      let cmp := compare key middle
      if cmp < 0 then (searchLoop compare key size fuel first middle).map (visit middle)
      else if cmp > 0 then (searchLoop compare key size fuel (middle + size) last).map (visit middle)
      else some ([middle],middle)
    else some ([],0)

def binary_search (fuel : Nat) (key array cnt size : Addr) (compare : Addr → Addr → Int) : Option (List Addr × Addr) :=
  searchLoop compare key size fuel array (array + size * cnt)

/-- The element with 0-based index `k`. -/
def element (array size : Addr) (k : Nat) : Addr := array + BitVec.ofNat 32 k * size

/-- `cnt` elements in memory. As for every object in C there is a pointer just past the last. -/
structure IsArray (array cnt size : Addr) : Prop where
  positive : 0 < size.toNat
  room : array.toNat + size.toNat * cnt.toNat < 2 ^ 32
  nonnull : cnt ≠ 0 → array ≠ 0

def Sorted (compare : Addr → Addr → Int) (array cnt size : Addr) : Prop :=
  ∀ i j, i ≤ j → j < cnt.toNat → compare (element array size i) (element array size j) ≤ 0

/-- A key less than an element is less than all that follow it, and one greater than an element is greater
than all before it. -/
def Consistent (compare : Addr → Addr → Int) (key array cnt size : Addr) : Prop :=
  ∀ i j, i < cnt.toNat → j < cnt.toNat → compare (element array size i) (element array size j) ≤ 0 →
    (compare key (element array size i) < 0 → compare key (element array size j) < 0) ∧
    (compare key (element array size j) > 0 → compare key (element array size i) > 0)

variable {compare : Addr → Addr → Int} {key array cnt size : Addr} {fuel low high k : Nat}

theorem word_number (small : k < 2 ^ 32) : (BitVec.ofNat 32 k).toNat = k := by
  rw [BitVec.toNat_ofNat,Nat.mod_eq_of_lt small]

theorem element_number (object : IsArray array cnt size) (inside : k ≤ cnt.toNat) :
    (element array size k).toNat = array.toNat + k * size.toNat := by
  have room := object.room
  have product : k * size.toNat ≤ size.toNat * cnt.toNat := by
    rw [Nat.mul_comm]
    exact Nat.mul_le_mul_left _ inside
  rw [element,BitVec.toNat_add,BitVec.toNat_mul,word_number (by omega),
    Nat.mod_eq_of_lt (a := k * size.toNat) (by omega),Nat.mod_eq_of_lt (by omega)]

theorem element_succ : element array size k + size = element array size (k + 1) := by
  rw [element,element,BitVec.ofNat_add,BitVec.add_mul,BitVec.add_assoc]
  congr 2
  exact (BitVec.one_mul size).symm

/-- Half of the elements between two pointers are skipped. -/
theorem middle_element (object : IsArray array cnt size) (order : low ≤ high) (inside : high ≤ cnt.toNat) :
    element array size low + (element array size high - element array size low) / size / 2 * size =
      element array size (low + (high - low) / 2) := by
  have range : (element array size high - element array size low) / size = BitVec.ofNat 32 (high - low) := by
    have numbers := element_number object inside
    have product : low * size.toNat ≤ high * size.toNat := Nat.mul_le_mul_right _ order
    apply BitVec.eq_of_toNat_eq
    rw [BitVec.toNat_udiv,BitVec.toNat_sub_of_le (BitVec.le_def.mpr (by
        rw [element_number object (by omega),numbers]; omega)),
      numbers,element_number object (by omega),Nat.add_sub_add_left,← Nat.mul_sub_right_distrib,
      Nat.mul_div_cancel _ object.positive,word_number (by omega)]
  have half : BitVec.ofNat 32 (high - low) / 2 = BitVec.ofNat 32 ((high - low) / 2) := by
    apply BitVec.eq_of_toNat_eq
    rw [BitVec.toNat_udiv,word_number (by omega),word_number (by omega)]
    rfl
  rw [range,half,element,element,BitVec.ofNat_add,BitVec.add_mul,BitVec.add_assoc]

/-- On pointers the loop does what halving an interval of indexes does. -/
theorem searchLoop_bisects (object : IsArray array cnt size) (order : low ≤ high) (inside : high ≤ cnt.toNat) :
    searchLoop compare key size fuel (element array size low) (element array size high) =
      (bisect (fun k => compare key (element array size k)) fuel low high).map fun result =>
        (result.1.map (element array size),(result.2.map (element array size)).getD 0) := by
  induction fuel generalizing low high with
  | zero => rfl
  | succ fuel ih =>
    have pointers : element array size low < element array size high ↔ low < high := by
      rw [BitVec.lt_def,element_number object (by omega),element_number object inside,Nat.add_lt_add_iff_left]
      exact Nat.mul_lt_mul_right object.positive
    rw [searchLoop,bisect]
    by_cases active : low < high
    · have middle_in : low ≤ low + (high - low) / 2 ∧ low + (high - low) / 2 < high := by omega
      rw [if_pos (pointers.mpr active),if_pos active]
      simp only
      rw [middle_element object order inside]
      generalize low + (high - low) / 2 = middle at middle_in ⊢
      by_cases before : compare key (element array size middle) < 0
      · rw [if_pos before,if_pos before,@ih low middle (by omega) (by omega),Option.map_map,Option.map_map]
        rfl
      · rw [if_neg before,if_neg before]
        by_cases behind : compare key (element array size middle) > 0
        · rw [if_pos behind,if_pos behind,element_succ,@ih (middle + 1) high (by omega) inside,Option.map_map,
            Option.map_map]
          rfl
        · rw [if_neg behind,if_neg behind]
          rfl
    · rw [if_neg (fun less => active (pointers.mp less)),if_neg active]
      rfl

theorem element_nonnull (object : IsArray array cnt size) (inside : k < cnt.toNat) : element array size k ≠ 0 := by
  intro null
  have number := element_number object (Nat.le_of_lt inside)
  rw [null] at number
  have counted : cnt ≠ 0 := fun none_ => by rw [none_] at inside; exact absurd inside (Nat.not_lt_zero k)
  refine object.nonnull counted (BitVec.eq_of_toNat_eq ?_)
  have zero : (0 : Addr).toNat = 0 := rfl
  omega

/-- On a sorted array the comparisons with a key are in the order that halving needs. -/
theorem key_ordered (sorted : Sorted compare array cnt size) (consistent : Consistent compare key array cnt size) :
    Ordered (fun k => compare key (element array size k)) cnt.toNat := fun i j order inside =>
  consistent i j (by omega) inside (sorted i j order inside)

/-- An element that compares equal is found if there is one, and only elements are compared. -/
theorem binary_search_finds (key array cnt size : Addr) (compare : Addr → Addr → Int) (object : IsArray array cnt size)
    (sorted : Sorted compare array cnt size) (consistent : Consistent compare key array cnt size) :
    ∀ fuel > cnt.toNat, ∃ visited result, binary_search fuel key array cnt size compare = some (visited,result) ∧
      (∀ p ∈ visited, ∃ k < cnt.toNat, p = element array size k) ∧
      ((∃ k < cnt.toNat, compare key (element array size k) = 0) →
        result ≠ 0 ∧ ∃ k < cnt.toNat, result = element array size k ∧ compare key result = 0) ∧
      ((¬ ∃ k < cnt.toNat, compare key (element array size k) = 0) → result = 0) := by
  intro fuel enough
  obtain ⟨visited,found,ran,answers⟩ :=
    @bisect_spec _ fuel 0 cnt.toNat _ (key_ordered sorted consistent) le_rfl (by omega)
  have first : array = element array size 0 := by
    rw [element,show BitVec.ofNat 32 0 = 0#32 from rfl,BitVec.zero_mul,BitVec.add_zero]
  have last : array + size * cnt = element array size cnt.toNat := by
    rw [element,BitVec.ofNat_toNat,BitVec.setWidth_eq,BitVec.mul_comm]
  have bisects := @searchLoop_bisects compare key array cnt size fuel 0 cnt.toNat object (Nat.zero_le _) le_rfl
  rw [← first,← last,ran] at bisects
  refine ⟨_,_,bisects,?_,?_,?_⟩
  · intro p visited_p
    obtain ⟨k,member,rfl⟩ := List.mem_map.mp visited_p
    exact ⟨k,(answers.inside k member).2,rfl⟩
  · rintro ⟨k,inside,equal⟩
    cases found with
    | none => exact absurd equal (answers.complete rfl k (Nat.zero_le _) inside)
    | some place =>
      obtain ⟨-,below,matching⟩ := answers.sound place rfl
      exact ⟨element_nonnull object below,place,below,rfl,matching⟩
  · intro absent
    cases found with
    | none => rfl
    | some place =>
      obtain ⟨-,below,matching⟩ := answers.sound place rfl
      exact absurd ⟨place,below,matching⟩ absent

/-- Of three elements of four bytes the last two are equal to the key. -/
theorem binary_search_three :
    ∃ visited result, binary_search 4 0x2000 0x1000 3 4
        (fun a b => (if a < 0x1004 then 3 else 5) - (if b < 0x1004 then 3 else 5)) = some (visited,result) ∧
      result ≠ 0 := by
  obtain ⟨visited,result,ran,-,found,-⟩ := binary_search_finds 0x2000 0x1000 3 4
    (fun a b => (if a < 0x1004 then 3 else 5) - (if b < 0x1004 then 3 else 5)) ⟨by decide,by decide,by decide⟩
    (by
      intro i j order inside
      have : j < 3 := inside
      interval_cases j <;> interval_cases i <;> decide)
    (by
      intro i j below inside
      have : j < 3 := inside
      have : i < 3 := below
      interval_cases j <;> interval_cases i <;> decide) 4 (by decide)
  exact ⟨visited,result,ran,(found ⟨1,by decide,by decide⟩).1⟩

end Pintos.Searches
