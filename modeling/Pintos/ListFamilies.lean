import Pintos.LinkedLists
import Mathlib.Logic.Function.Basic

/-!
Many lists in one memory, with an index for each. `Family` says what each of them
holds and that no node is in two of them, so that an edit of one leaves the others
alone.
-/
namespace Pintos.ListFamilies
open Pintos.LinkedLists
universe u v
variable {α : Type u} {ι : Type v}

/-- The sentinels and the elements of a list. -/
def nodes (head tail : α) (xs : List α) : List α := head :: (xs ++ [tail])

structure Family (m : Memory α) (I : ι → Prop) (head tail : ι → α) (xs : ι → List α) : Prop where
  each : ∀ i, I i → Represents m (head i) (tail i) (xs i)
  apart : ∀ i j, I i → I j → i ≠ j → ∀ a ∈ nodes (head i) (tail i) (xs i), a ∉ nodes (head j) (tail j) (xs j)

variable {m m' : Memory α} {I J : ι → Prop} {head tail : ι → α} {xs : ι → List α} {i j : ι} {elem a : α} {before after : List α}

theorem mem_nodes {head tail : α} {xs : List α} : a ∈ nodes head tail xs ↔ a = head ∨ a ∈ xs ∨ a = tail := by
  simp [nodes]

theorem family_mono (family : Family m I head tail xs) (fewer : ∀ i, J i → I i) : Family m J head tail xs where
  each i inside := family.each i (fewer i inside)
  apart i j one two := family.apart i j (fewer i one) (fewer j two)

theorem family_frame (family : Family m I head tail xs)
    (same : ∀ i, I i → ∀ a ∈ nodes (head i) (tail i) (xs i), m' a = m a) : Family m' I head tail xs where
  each i inside := represents_frame (family.each i inside) (same i inside)
  apart := family.apart

theorem family_congr {ys : ι → List α} (family : Family m I head tail xs) (same : ∀ i, I i → xs i = ys i) :
    Family m I head tail ys where
  each i inside := same i inside ▸ family.each i inside
  apart i j one two other a member := by
    rw [← same i one] at member
    rw [← same j two]
    exact family.apart i j one two other a member

/-- Lists are told apart by their elements. -/
theorem family_elem (family : Family m I head tail xs) (one : I i) (two : I j) (inOne : a ∈ xs i) (inTwo : a ∈ xs j) : i = j := by
  refine Classical.byContradiction fun other => ?_
  exact family.apart i j one two other a (mem_nodes.mpr (.inr (.inl inOne))) (mem_nodes.mpr (.inr (.inl inTwo)))

variable [DecidableEq ι]

/-- One list is edited, where the others have no node. -/
theorem family_edit {ys : List α} (family : Family m I head tail xs) (inside : I i)
    (edited : Represents m' (head i) (tail i) ys) (frame : ∀ j, I j → j ≠ i → ∀ a ∈ nodes (head j) (tail j) (xs j), m' a = m a)
    (fresh : ∀ j, I j → j ≠ i → ∀ a ∈ ys, a ∉ nodes (head j) (tail j) (xs j)) :
    Family m' I head tail (Function.update xs i ys) := by
  have others : ∀ j, I j → j ≠ i → ∀ a ∈ nodes (head i) (tail i) ys, a ∉ nodes (head j) (tail j) (xs j) := by
    intro j listed other a member
    rcases mem_nodes.mp member with rfl | new | rfl
    · exact family.apart i j inside listed other.symm _ (mem_nodes.mpr (.inl rfl))
    · exact fresh j listed other a new
    · exact family.apart i j inside listed other.symm _ (mem_nodes.mpr (.inr (.inr rfl)))
  constructor
  · intro j listed
    by_cases same : j = i
    · subst same
      rw [Function.update_self]
      exact edited
    · rw [Function.update_of_ne same]
      exact represents_frame (family.each j listed) (frame j listed same)
  · intro j k one two other a member
    by_cases first : j = i
    · subst first
      rw [Function.update_self] at member
      rw [Function.update_of_ne other.symm]
      exact others k two other.symm a member
    · rw [Function.update_of_ne first] at member
      by_cases second : k = i
      · subst second
        rw [Function.update_self]
        exact fun edited => others j one other a edited member
      · rw [Function.update_of_ne second]
        exact family.apart j k one two other a member

variable [DecidableEq α]

theorem family_insert (elem : α) (before after : List α) (family : Family m I head tail xs) (inside : I i)
    (cut : xs i = before ++ after)
    (fresh : ∀ j, I j → elem ∉ nodes (head j) (tail j) (xs j)) :
    ∃ m', list_insert m (following (tail i) after) elem = some m' ∧
      Family m' I head tail (Function.update xs i (before ++ elem :: after)) ∧
      ∀ a, (∀ j, I j → a ∉ nodes (head j) (tail j) (xs j)) → a ≠ elem → m' a = m a := by
  have list := family.each i inside
  have new := fresh i inside
  rw [cut] at list
  rw [nodes,cut] at new
  obtain ⟨m',inserted,represents,frame⟩ := represents_insert list new
  have out : ∀ a, a ∉ nodes (head i) (tail i) (xs i) → a ∉ head i :: (before ++ after ++ [tail i]) := by
    intro a outside member
    rw [nodes,cut] at outside
    exact outside member
  refine ⟨m',inserted,family_edit family inside represents ?_ ?_,fun a outside other => frame a (out a (outside i inside)) other⟩
  · intro j listed other a member
    refine frame a (out a (family.apart j i listed inside other a member)) ?_
    rintro rfl
    exact fresh j listed member
  · intro j listed other a member
    rcases List.mem_append.mp member with early | late
    · exact family.apart i j inside listed other.symm a (mem_nodes.mpr (.inr (.inl (by rw [cut]; exact List.mem_append_left _ early))))
    · rcases List.mem_cons.mp late with rfl | late
      · exact fresh j listed
      · exact family.apart i j inside listed other.symm a (mem_nodes.mpr (.inr (.inl (by rw [cut]; exact List.mem_append_right _ late))))

theorem family_push_front (elem : α) (family : Family m I head tail xs) (inside : I i)
    (fresh : ∀ j, I j → elem ∉ nodes (head j) (tail j) (xs j)) :
    ∃ m', list_push_front m (head i) elem = some m' ∧ Family m' I head tail (Function.update xs i (elem :: xs i)) ∧
      ∀ a, (∀ j, I j → a ∉ nodes (head j) (tail j) (xs j)) → a ≠ elem → m' a = m a := by
  obtain ⟨m',inserted,after,frame⟩ := family_insert elem [] (xs i) family inside rfl fresh
  refine ⟨m',?_,after,frame⟩
  rw [list_push_front,(represents_front (family.each i inside)).1]
  exact inserted

theorem family_remove (elem : α) (before after : List α) (family : Family m I head tail xs) (inside : I i)
    (cut : xs i = before ++ elem :: after) :
    ∃ m', list_remove m elem = some m' ∧ Family m' I head tail (Function.update xs i (before ++ after)) ∧
      ∀ a, (∀ j, I j → a ∉ nodes (head j) (tail j) (Function.update xs i (before ++ after) j)) → m' a = m a := by
  have list := family.each i inside
  rw [cut] at list
  obtain ⟨m',removed,represents,frame⟩ := represents_remove list
  have listed : ∀ a ∈ before ++ after, a ∈ xs i := by
    intro a member
    rw [cut]
    rcases List.mem_append.mp member with early | late
    · exact List.mem_append_left _ early
    · exact List.mem_append_right _ (List.mem_cons_of_mem _ late)
  have out : ∀ a, a ∉ nodes (head i) (tail i) (xs i) → a ∉ head i :: (before ++ after ++ [tail i]) := by
    intro a outside member
    rcases mem_nodes.mp member with rfl | element | rfl
    · exact outside (mem_nodes.mpr (.inl rfl))
    · exact outside (mem_nodes.mpr (.inr (.inl (listed a element))))
    · exact outside (mem_nodes.mpr (.inr (.inr rfl)))
  refine ⟨m',removed,family_edit family inside represents ?_ ?_,?_⟩
  · intro j other different a member
    exact frame a (out a (family.apart j i other inside different a member))
  · intro j other different a member
    exact family.apart i j inside other different.symm a (mem_nodes.mpr (.inr (.inl (listed a member))))
  · intro a outside
    have here := outside i inside
    rw [Function.update_self] at here
    exact frame a here

/-- A new list. -/
theorem family_init (family : Family m I head tail xs) (new : ¬ I i) (sentinels : head i ≠ tail i)
    (freshHead : ∀ j, I j → head i ∉ nodes (head j) (tail j) (xs j))
    (freshTail : ∀ j, I j → tail i ∉ nodes (head j) (tail j) (xs j)) :
    Family (list_init m (head i) (tail i)) (fun j => I j ∨ j = i) head tail (Function.update xs i []) := by
  have others : ∀ j, I j → j ≠ i := fun j inside same => new (same ▸ inside)
  constructor
  · rintro j (inside | rfl)
    · rw [Function.update_of_ne (others j inside)]
      refine represents_frame (family.each j inside) fun a member => list_init_other m ?_ ?_
      · rintro rfl
        exact freshHead j inside member
      · rintro rfl
        exact freshTail j inside member
    · rw [Function.update_self]
      exact represents_init m sentinels
  · have apart : ∀ j, I j → ∀ a ∈ nodes (head i) (tail i) [], a ∉ nodes (head j) (tail j) (xs j) := by
      intro j inside a member
      rcases mem_nodes.mp member with rfl | none | rfl
      · exact freshHead j inside
      · cases none
      · exact freshTail j inside
    rintro j k (one | rfl) (two | rfl) other a member
    · rw [Function.update_of_ne (others j one)] at member
      rw [Function.update_of_ne (others k two)]
      exact family.apart j k one two other a member
    · rw [Function.update_of_ne other] at member
      rw [Function.update_self]
      exact fun sentinel => apart j one a sentinel member
    · rw [Function.update_self] at member
      rw [Function.update_of_ne other.symm]
      exact apart k two a member
    · exact absurd rfl other

end Pintos.ListFamilies
