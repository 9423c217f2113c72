import Mathlib.Order.Basic

/-!
Search by halving an interval of positions. A comparison says for each position whether what is
looked for is before it, behind it or there.
-/
namespace Pintos.Bisections
set_option linter.unusedSimpArgs false

variable {side : Nat → Int} {fuel low high n : Nat} {visited : List Nat} {found : Option Nat}

/-- One more position was compared. -/
def visit {Position Found : Type} (here : Position) : List Position × Found → List Position × Found :=
  fun result => (here :: result.1,result.2)

/-- The positions that are compared, and the one that is found. -/
def bisect (side : Nat → Int) : Nat → Nat → Nat → Option (List Nat × Option Nat)
  | 0, _, _ => none
  | fuel + 1, low, high =>
    if low < high then
      let middle := low + (high - low) / 2
      if side middle < 0 then (bisect side fuel low middle).map (visit middle)
      else if side middle > 0 then (bisect side fuel (middle + 1) high).map (visit middle)
      else some ([middle],some middle)
    else some ([],none)

/-- What is looked for is behind all positions before one that it is behind, and so in the other direction. -/
def Ordered (side : Nat → Int) (n : Nat) : Prop :=
  ∀ i j, i ≤ j → j < n → (side i < 0 → side j < 0) ∧ (side j > 0 → side i > 0)

/-- Only positions of the interval are compared, and one is found if there is one. -/
structure Answers (side : Nat → Int) (low high : Nat) (visited : List Nat) (found : Option Nat) : Prop where
  inside : ∀ k ∈ visited, low ≤ k ∧ k < high
  sound : ∀ k, found = some k → low ≤ k ∧ k < high ∧ side k = 0
  complete : found = none → ∀ k, low ≤ k → k < high → side k ≠ 0

/-- The answer for a part of the interval is one for all of it if nothing is to be found in the rest. -/
theorem Answers.widen {low' high' middle : Nat} (part : Answers side low' high' visited found) (below : low ≤ low')
    (above : high' ≤ high) (here : low ≤ middle ∧ middle < high)
    (rest : ∀ k, low ≤ k → k < high → side k = 0 → low' ≤ k ∧ k < high') :
    Answers side low high (middle :: visited) found := by
  constructor
  · intro k member
    rcases List.mem_cons.mp member with rfl | later
    · exact here
    · have bounds := part.inside k later
      omega
  · intro k is_found
    have ⟨lower,upper,equal⟩ := part.sound k is_found
    exact ⟨by omega,by omega,equal⟩
  · intro absent k lower upper equal
    have ⟨lower',upper'⟩ := rest k lower upper equal
    exact part.complete absent k lower' upper' equal

/-- The interval gets smaller with each comparison, and no position outside of it is the one. -/
theorem bisect_spec (ordered : Ordered side n) (inside : high ≤ n) (enough : high - low < fuel) :
    ∃ visited found, bisect side fuel low high = some (visited,found) ∧ Answers side low high visited found := by
  induction fuel generalizing low high with
  | zero => omega
  | succ fuel ih =>
    rw [bisect]
    by_cases active : low < high
    · rw [if_pos active]
      have middle_in : low ≤ low + (high - low) / 2 ∧ low + (high - low) / 2 < high := by omega
      generalize low + (high - low) / 2 = middle at middle_in ⊢
      by_cases before : side middle < 0
      · obtain ⟨visited,found,ran,answers⟩ := @ih low middle (by omega) (by omega)
        refine ⟨middle :: visited,found,by simp [before,ran,visit],answers.widen (by omega) (by omega) middle_in ?_⟩
        intro k lower upper equal
        refine ⟨lower,Nat.lt_of_not_le fun behind => ?_⟩
        have := (ordered middle k behind (by omega)).1 before
        omega
      · by_cases behind : side middle > 0
        · obtain ⟨visited,found,ran,answers⟩ := @ih (middle + 1) high (by omega) (by omega)
          refine ⟨middle :: visited,found,by simp [before,behind,ran,visit],
            answers.widen (by omega) (by omega) middle_in ?_⟩
          intro k lower upper equal
          refine ⟨Nat.lt_of_not_le fun not_after => ?_,upper⟩
          have := (ordered k middle (by omega) (by omega)).2 behind
          omega
        · refine ⟨[middle],some middle,by simp [before,behind],?_,?_,?_⟩
          · rintro k member
            rw [List.mem_singleton.mp member]
            exact middle_in
          · rintro k same
            cases same
            exact ⟨middle_in.1,middle_in.2,by omega⟩
          · intro absent
            cases absent
    · rw [if_neg active]
      refine ⟨[],none,rfl,?_,?_,?_⟩
      · simp
      · simp
      · intro _ k lower upper
        omega

end Pintos.Bisections
