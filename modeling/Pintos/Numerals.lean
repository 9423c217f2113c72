import Mathlib.Data.Nat.Digits.Lemmas

/-!
Digits in groups. The digits of a number come from the least significant on, with a separator
between two groups.
-/
namespace Pintos.Numerals
set_option linter.unusedSimpArgs false

/-- A separator stands before every digit whose number, counted from `cnt`, is a positive multiple of `group`. -/
def separate {α : Type} (sep : α) (group : Nat) : Nat → List α → List α
  | _, [] => []
  | cnt, d :: ds => (if 0 < cnt ∧ cnt % group = 0 then [sep,d] else [d]) ++ separate sep group (cnt + 1) ds

variable {α : Type} {sep : α} {group cnt : Nat} {ds : List α}

theorem separate_ungrouped : separate sep 0 cnt ds = ds := by
  induction ds generalizing cnt with
  | nil => rfl
  | cons d ds ih =>
    rw [separate,if_neg (by rw [Nat.mod_zero]; omega),ih]
    rfl

theorem separate_length : (separate sep group cnt ds).length ≤ 2 * ds.length := by
  induction ds generalizing cnt with
  | nil => exact Nat.le_refl _
  | cons d ds ih =>
    have rest := @ih (cnt + 1)
    rw [separate,List.length_append,List.length_cons]
    split
    · simp only [List.length_cons,List.length_nil]
      omega
    · simp only [List.length_cons,List.length_nil]
      omega

/-- The last place is that of the last digit. -/
theorem separate_last : (separate sep group cnt ds).getLast? = ds.getLast? := by
  induction ds generalizing cnt with
  | nil => rfl
  | cons d ds ih =>
    rw [separate,List.getLast?_append,ih,List.getLast?_cons]
    cases ds.getLast? with
    | none => split <;> rfl
    | some last => rfl

/-- Without the separators the digits are left. -/
theorem separate_filter [DecidableEq α] (other : sep ∉ ds) : (separate sep group cnt ds).filter (· ≠ sep) = ds := by
  induction ds generalizing cnt with
  | nil => rfl
  | cons d ds ih =>
    have first : d ≠ sep := fun same => other (by rw [same]; exact List.mem_cons_self)
    rw [separate,List.filter_append,ih (fun later => other (List.mem_cons_of_mem d later))]
    split
    · simp [first]
    · simp [first]

/-- The place of digit `cnt` when the separators before it are counted. -/
def placeOf (group cnt : Nat) : Nat := cnt + (cnt - 1) / group

theorem placeOf_multiple (positive : 0 < group) (after : 0 < cnt) (multiple : cnt % group = 0) :
    placeOf group cnt % (group + 1) = group ∧ placeOf group (cnt + 1) = placeOf group cnt + 2 := by
  obtain ⟨q,rfl⟩ := Nat.dvd_of_mod_eq_zero multiple
  obtain ⟨q,rfl⟩ := Nat.exists_eq_succ_of_ne_zero (fun zero => by rw [zero,Nat.mul_zero] at after; omega : q ≠ 0)
  have before : (group * (q + 1) - 1) / group = q := by
    rw [Nat.mul_succ,Nat.add_sub_assoc positive,Nat.mul_add_div positive,Nat.div_eq_of_lt (by omega),Nat.add_zero]
  have here : group * (q + 1) / group = q + 1 := Nat.mul_div_cancel_left _ positive
  constructor
  · rw [placeOf,Nat.succ_eq_add_one,before,show group * (q + 1) + q = group + (group + 1) * q by
      rw [Nat.mul_succ,Nat.succ_mul]; omega,Nat.add_mul_mod_self_left]
    exact Nat.mod_eq_of_lt (Nat.lt_succ_self _)
  · rw [placeOf,placeOf,Nat.succ_eq_add_one,Nat.add_sub_cancel,here,before]
    omega

theorem placeOf_other (positive : 0 < group) (other : ¬ (0 < cnt ∧ cnt % group = 0)) :
    placeOf group cnt % (group + 1) ≠ group ∧ placeOf group (cnt + 1) = placeOf group cnt + 1 := by
  have whole := Nat.div_add_mod cnt group
  have below := Nat.mod_lt cnt positive
  generalize cnt / group = q at whole
  generalize cnt % group = r at whole below other
  have here : cnt / group = q := by
    rw [← whole,Nat.mul_add_div positive,Nat.div_eq_of_lt below,Nat.add_zero]
  have before : (cnt - 1) / group = q := by
    by_cases zero : cnt = 0
    · rw [zero] at here ⊢
      exact here
    · rw [← whole,Nat.add_sub_assoc (by omega),Nat.mul_add_div positive,Nat.div_eq_of_lt (by omega),Nat.add_zero]
  constructor
  · rw [placeOf,before,← whole,show group * q + r + q = r + (group + 1) * q by rw [Nat.succ_mul]; omega,
      Nat.add_mul_mod_self_left,Nat.mod_eq_of_lt (by omega)]
    omega
  · rw [placeOf,placeOf,Nat.add_sub_cancel,here,before]
    omega

theorem separate_places (positive : 0 < group) (other : sep ∉ ds) (i : Nat) (inside : i < (separate sep group cnt ds).length) :
    (separate sep group cnt ds)[i] = sep ↔ (placeOf group cnt + i) % (group + 1) = group := by
  induction ds generalizing cnt i with
  | nil => exact absurd inside (Nat.not_lt_zero i)
  | cons d ds ih =>
    have first : d ≠ sep := fun same => other (by rw [same]; exact List.mem_cons_self)
    have rest := fun j => @ih (cnt + 1) (fun later => other (List.mem_cons_of_mem d later)) j
    by_cases multiple : 0 < cnt ∧ cnt % group = 0
    · obtain ⟨here,next⟩ := placeOf_multiple positive multiple.1 multiple.2
      have shape : separate sep group cnt (d :: ds) = sep :: d :: separate sep group (cnt + 1) ds := by
        rw [separate,if_pos multiple]
        rfl
      simp only [shape] at inside ⊢
      rcases i with _ | _ | i
      · exact ⟨fun _ => here,fun _ => rfl⟩
      · refine ⟨fun same => absurd same first,fun same => ?_⟩
        rw [Nat.add_mod,here,Nat.mod_eq_of_lt (show 0 + 1 < group + 1 by omega),Nat.mod_self] at same
        omega
      · have later := rest i (by simp only [List.length_cons] at inside; omega)
        rw [next,Nat.add_assoc,Nat.add_comm 2 i] at later
        exact later
    · obtain ⟨here,next⟩ := placeOf_other positive multiple
      have shape : separate sep group cnt (d :: ds) = d :: separate sep group (cnt + 1) ds := by
        rw [separate,if_neg multiple]
        rfl
      simp only [shape] at inside ⊢
      rcases i with _ | i
      · exact ⟨fun same => absurd same first,fun same => absurd same here⟩
      · have later := rest i (by simp only [List.length_cons] at inside; omega)
        rw [next,Nat.add_assoc,Nat.add_comm 1 i] at later
        exact later

/-- From the least significant digit on the last place of each group of `group + 1` places is a separator. -/
theorem separate_from_first (positive : 0 < group) (other : sep ∉ ds) (i : Nat)
    (inside : i < (separate sep group 0 ds).length) :
    (separate sep group 0 ds)[i] = sep ↔ i % (group + 1) = group := by
  have places := separate_places positive other i inside
  rwa [placeOf,Nat.zero_sub,Nat.zero_div,Nat.zero_add] at places

end Pintos.Numerals
