import Mathlib.Logic.Function.Basic
import Mathlib.Data.Nat.ModEq

/-!
Circular buffers of `n` cells, in which one index says where the next element goes and
another one where the oldest is. At most `n - 1` cells hold elements, so that the two
are equal only when there are none.
-/
namespace Pintos.Rings
universe u

def after (n pos : Nat) : Nat := (pos + 1) % n

/-- The cells from `tail` up to `head`, going round, hold `content`, the oldest first. -/
structure Holds {α : Type u} (n : Nat) (buf : Nat → α) (head tail : Nat) (content : List α) : Prop where
  tail_lt : tail < n
  room : content.length < n
  head_eq : head = (tail + content.length) % n
  cells : ∀ i (below : i < content.length), buf ((tail + i) % n) = content[i]

variable {α : Type u} {n head tail i j : Nat} {buf : Nat → α} {content : List α}

theorem slot_injective (i_lt : i < n) (j_lt : j < n) (same : (tail + i) % n = (tail + j) % n) : i = j := by
  have congruent : i ≡ j [MOD n] := Nat.ModEq.add_left_cancel' tail same
  rwa [Nat.ModEq,Nat.mod_eq_of_lt i_lt,Nat.mod_eq_of_lt j_lt] at congruent

theorem after_slot : after n ((tail + i) % n) = (tail + (i + 1)) % n := by
  rw [after,Nat.mod_add_mod,Nat.add_assoc]

theorem slot_after : (after n tail + i) % n = (tail + (i + 1)) % n := by
  rw [after,Nat.mod_add_mod,Nat.add_assoc,Nat.add_comm 1]

theorem holds_empty (tail_lt : tail < n) : Holds n buf tail tail [] where
  tail_lt := tail_lt
  room := Nat.lt_of_le_of_lt (Nat.zero_le tail) tail_lt
  head_eq := (Nat.mod_eq_of_lt tail_lt).symm
  cells := fun i below => absurd below (Nat.not_lt_zero i)

theorem head_lt (holds : Holds n buf head tail content) : head < n := by
  rw [holds.head_eq]
  exact Nat.mod_lt _ (Nat.lt_of_le_of_lt (Nat.zero_le tail) holds.tail_lt)

/-- The indices meet exactly when there is no element. -/
theorem empty_iff (holds : Holds n buf head tail content) : head = tail ↔ content = [] := by
  have start : (tail + 0) % n = tail := Nat.mod_eq_of_lt holds.tail_lt
  rw [← List.length_eq_zero_iff]
  constructor
  · intro met
    have same : (tail + content.length) % n = (tail + 0) % n := by rw [← holds.head_eq,met,start]
    exact slot_injective holds.room (Nat.lt_of_le_of_lt (Nat.zero_le tail) holds.tail_lt) same
  · intro none
    rw [holds.head_eq,none,start]

/-- One more step would make them meet exactly when one cell is left. -/
theorem full_iff (holds : Holds n buf head tail content) : after n head = tail ↔ content.length + 1 = n := by
  have start : (tail + 0) % n = tail := Nat.mod_eq_of_lt holds.tail_lt
  have room := holds.room
  rw [holds.head_eq,after_slot]
  constructor
  · intro met
    refine Decidable.byContradiction fun more => ?_
    have none := slot_injective (show content.length + 1 < n by omega) (by omega) (met.trans start.symm)
    omega
  · intro last
    rw [last,Nat.add_mod_right]
    exact start

theorem holds_put (holds : Holds n buf head tail content) (room : after n head ≠ tail) (c : α) :
    Holds n (Function.update buf head c) (after n head) tail (content ++ [c]) := by
  have more : content.length + 1 < n := by
    have below := holds.room
    have last := mt (full_iff holds).mpr room
    omega
  refine ⟨holds.tail_lt,by simpa using more,?_,fun i below => ?_⟩
  · rw [holds.head_eq,after_slot,List.length_append,List.length_singleton]
  · rw [List.length_append,List.length_singleton] at below
    rcases Nat.lt_or_ge i content.length with old | new
    · -- The cell written is not one of those that hold elements.
      have other : (tail + i) % n ≠ head := by
        rw [holds.head_eq]
        intro same
        have last := slot_injective (by omega) holds.room same
        omega
      rw [Function.update_of_ne other,List.getElem_append_left old]
      exact holds.cells i old
    · obtain rfl : i = content.length := by omega
      rw [← holds.head_eq,Function.update_self]
      simp

theorem holds_get (holds : Holds n buf head tail content) (some : head ≠ tail) :
    ∃ rest, content = buf tail :: rest ∧ Holds n buf head (after n tail) rest := by
  cases content with
  | nil => exact absurd ((empty_iff holds).mpr rfl) some
  | cons c rest =>
    have first : buf tail = c := by
      have cell := holds.cells 0 (Nat.zero_lt_succ _)
      rwa [Nat.add_zero,Nat.mod_eq_of_lt holds.tail_lt] at cell
    refine ⟨rest,by rw [first],?_,?_,?_,fun i below => ?_⟩
    · exact Nat.mod_lt _ (Nat.lt_of_le_of_lt (Nat.zero_le tail) holds.tail_lt)
    · exact Nat.lt_of_succ_lt holds.room
    · rw [slot_after]
      exact holds.head_eq
    · rw [slot_after]
      exact holds.cells (i + 1) (Nat.succ_lt_succ below)

end Pintos.Rings
