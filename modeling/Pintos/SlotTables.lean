import Mathlib.Logic.Function.Basic
import Mathlib.Data.List.Nodup

/-!
Tables of slots. A slot is in use or not, and has a key and a value if it is. While no
two slots in use have the same key, a table is a finite map, and to take or to clear a
slot is to change the map at its key.
-/
namespace Pintos.SlotTables
set_option linter.unusedSimpArgs false
universe u v w

/-- How a slot is read. -/
structure Layout (Slot : Type u) (Key : Type v) (Value : Type w) where
  used : Slot → Bool
  key : Slot → Key
  value : Slot → Value

section
variable {Slot : Type u} {Key : Type v} {Value : Type w} (t : Layout Slot Key Value) {es before after : List Slot}
  {e old new : Slot} {k : Key}

/-- The keys in use, in the order of the slots. -/
def Layout.keys (es : List Slot) : List Key := (es.filter t.used).map t.key

/-- The number of slots that are not in use. -/
def Layout.free (es : List Slot) : Nat := es.countP fun e => !t.used e

/-- The map that the table is: the first slot counts. -/
def Layout.bound [DecidableEq Key] (es : List Slot) (k : Key) : Option Value :=
  (es.find? fun e => t.used e && decide (t.key e = k)).map t.value

theorem keys_append (before after : List Slot) : t.keys (before ++ after) = t.keys before ++ t.keys after := by
  simp [Layout.keys]

theorem keys_used (after : List Slot) (used : t.used e = true) : t.keys (e :: after) = t.key e :: t.keys after := by
  simp [Layout.keys,used]

theorem keys_unused (after : List Slot) (unused : t.used e = false) : t.keys (e :: after) = t.keys after := by
  simp [Layout.keys,unused]

theorem mem_keys : k ∈ t.keys es ↔ ∃ e ∈ es, t.used e = true ∧ t.key e = k := by
  simp [Layout.keys,and_assoc]

theorem free_pos : 0 < t.free es ↔ ∃ e ∈ es, t.used e = false := by
  simp [Layout.free,List.countP_pos_iff]

theorem free_used (used : t.used e = true) : t.free (before ++ e :: after) = t.free (before ++ after) := by
  simp [Layout.free,used]

theorem free_unused (unused : t.used e = false) : t.free (before ++ e :: after) = t.free (before ++ after) + 1 := by
  simp [Layout.free,unused]
  omega

theorem keys_middle_unused (unused : t.used e = false) : t.keys (before ++ e :: after) = t.keys (before ++ after) := by
  rw [keys_append,keys_append,keys_unused t after unused]

/-! ### Unique keys -/

theorem unique_middle (used : t.used e = true) (unique : (t.keys (before ++ e :: after)).Nodup) :
    t.key e ∉ t.keys (before ++ after) ∧ (t.keys (before ++ after)).Nodup := by
  rw [keys_append,keys_used t after used,List.nodup_middle,← keys_append,List.nodup_cons] at unique
  exact unique

/-- A slot that was not in use is taken. -/
theorem unique_take (free : t.used old = false) (used : t.used new = true) (fresh : t.key new ∉ t.keys (before ++ old :: after))
    (unique : (t.keys (before ++ old :: after)).Nodup) : (t.keys (before ++ new :: after)).Nodup := by
  rw [keys_middle_unused t free,keys_append] at fresh unique
  rw [keys_append,keys_used t after used,List.nodup_middle]
  exact List.nodup_cons.mpr ⟨fresh,unique⟩

/-- A slot in use is cleared. -/
theorem unique_clear (used : t.used old = true) (free : t.used new = false) (unique : (t.keys (before ++ old :: after)).Nodup) :
    (t.keys (before ++ new :: after)).Nodup := by
  rw [keys_middle_unused t free]
  exact (unique_middle t used unique).2

theorem mem_keys_take (free : t.used old = false) (used : t.used new = true) :
    k ∈ t.keys (before ++ new :: after) ↔ k = t.key new ∨ k ∈ t.keys (before ++ old :: after) := by
  rw [keys_middle_unused t free,keys_append,keys_used t after used,keys_append]
  simp [or_left_comm]

theorem mem_keys_clear (used : t.used old = true) (free : t.used new = false) (unique : (t.keys (before ++ old :: after)).Nodup) :
    k ∈ t.keys (before ++ new :: after) ↔ k ∈ t.keys (before ++ old :: after) ∧ k ≠ t.key old := by
  obtain ⟨gone,-⟩ := unique_middle t used unique
  have taken := @mem_keys_take _ _ _ t before after new old k free used
  rw [taken]
  constructor
  · intro member
    refine ⟨.inr member,?_⟩
    rintro rfl
    rw [keys_middle_unused t free] at member
    exact gone member
  · rintro ⟨same | member,other⟩
    · exact absurd same other
    · exact member

/-! ### The map -/

variable [DecidableEq Key]

theorem bound_none : t.bound es k = none ↔ k ∉ t.keys es := by
  rw [Layout.bound,Option.map_eq_none_iff,List.find?_eq_none,mem_keys]
  simp

theorem mem_of_bound {x : Value} (bound : t.bound es k = some x) : ∃ e ∈ es, t.used e = true ∧ t.key e = k ∧ t.value e = x := by
  obtain ⟨e,found,same⟩ := Option.map_eq_some_iff.mp bound
  have hit := List.find?_some found
  simp only [Bool.and_eq_true,decide_eq_true_eq] at hit
  exact ⟨e,List.mem_of_find?_eq_some found,hit.1,hit.2,same⟩

theorem bound_append (before after : List Slot) (k : Key) :
    t.bound (before ++ after) k = (t.bound before k).or (t.bound after k) := by
  rw [Layout.bound,List.find?_append,Layout.bound,Layout.bound]
  cases before.find? fun e => t.used e && decide (t.key e = k) with
  | none => rfl
  | some e => rfl

theorem bound_unused (after : List Slot) (k : Key) (unused : t.used e = false) : t.bound (e :: after) k = t.bound after k := by
  simp [Layout.bound,List.find?_cons,unused]

theorem bound_used (after : List Slot) (k : Key) (used : t.used e = true) :
    t.bound (e :: after) k = if t.key e = k then some (t.value e) else t.bound after k := by
  by_cases same : t.key e = k
  · simp [Layout.bound,List.find?_cons,used,same]
  · simp [Layout.bound,List.find?_cons,used,same]

theorem bound_middle_unused (unused : t.used e = false) : t.bound (before ++ e :: after) = t.bound (before ++ after) := by
  funext k
  rw [bound_append,bound_append,bound_unused t after k unused]

/-- What is found first is what the key is bound to. -/
theorem bound_found (used : t.used e = true) (first : t.key e ∉ t.keys before) :
    t.bound (before ++ e :: after) (t.key e) = some (t.value e) := by
  rw [bound_append,(bound_none t).mpr first,Option.none_or,bound_used t after _ used,if_pos rfl]

/-- A slot with a new key. -/
theorem bound_middle_used (used : t.used e = true) (fresh : t.key e ∉ t.keys (before ++ after)) :
    t.bound (before ++ e :: after) = Function.update (t.bound (before ++ after)) (t.key e) (some (t.value e)) := by
  funext k
  rw [keys_append,List.mem_append,not_or] at fresh
  by_cases same : k = t.key e
  · rw [same,Function.update_self]
    exact bound_found t used fresh.1
  · rw [Function.update_of_ne same,bound_append,bound_append,bound_used t after k used,if_neg (Ne.symm same)]

/-- A slot that was not in use is taken. -/
theorem bound_take (free : t.used old = false) (used : t.used new = true) (fresh : t.key new ∉ t.keys (before ++ old :: after)) :
    t.bound (before ++ new :: after) = Function.update (t.bound (before ++ old :: after)) (t.key new) (some (t.value new)) := by
  rw [keys_middle_unused t free] at fresh
  rw [bound_middle_unused t free,bound_middle_used t used fresh]

/-- A slot in use is cleared. -/
theorem bound_clear (used : t.used old = true) (free : t.used new = false) (unique : (t.keys (before ++ old :: after)).Nodup) :
    t.bound (before ++ new :: after) = Function.update (t.bound (before ++ old :: after)) (t.key old) none := by
  obtain ⟨gone,-⟩ := unique_middle t used unique
  rw [bound_middle_unused t free,bound_middle_used t used gone,Function.update_idem]
  exact (Function.update_eq_self_iff.mpr ((bound_none t).mpr gone).symm).symm

end

end Pintos.SlotTables
