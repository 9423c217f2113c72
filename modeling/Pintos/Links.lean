import Mathlib.Data.Fintype.Card
import Mathlib.Data.Finite.Prod
import Mathlib.Logic.Relation

/-!
What can be reached by links from one element of a finite type, and recursion along links that
never lead back.
-/
namespace Pintos.Links
open Relation

variable {α : Type} {link link' : α → α → Prop} {root a b : α} {P : α → Prop}

/-- No element that is reached leads back to itself. -/
def AcyclicFrom (link : α → α → Prop) (root : α) : Prop := ∀ a, ReflTransGen link root a → ¬ TransGen link a a

/-- What holds of an element if it holds of all that it links to holds of the root. -/
theorem acyclic_induction [Finite α] (acyclic : AcyclicFrom link root)
    (step : ∀ a, ReflTransGen link root a → (∀ b, link a b → P b) → P a) : P root := by
  let below := fun x y : { a // ReflTransGen link root a } => TransGen link y.1 x.1
  have transitive : IsTrans _ below := ⟨fun x y z first second => second.trans first⟩
  have irreflexive : Std.Irrefl below := ⟨fun x => acyclic x.1 x.2⟩
  have founded : WellFounded below := Finite.wellFounded_of_trans_of_irrefl below
  have every : ∀ x : { a // ReflTransGen link root a }, P x.1 := fun x =>
    founded.induction x fun x ih => step x.1 x.2 fun b linked => ih ⟨b,x.2.tail linked⟩ (TransGen.single linked)
  exact every ⟨root,ReflTransGen.refl⟩

/-- Links that are the same for all that is reached reach the same. -/
theorem reach_same (same : ∀ a, ReflTransGen link root a → ∀ b, link a b ↔ link' a b) (a : α) :
    ReflTransGen link root a ↔ ReflTransGen link' root a := by
  constructor
  · intro reached
    induction reached with
    | refl => exact ReflTransGen.refl
    | tail before linked ih => exact ih.tail ((same _ before _).mp linked)
  · intro reached
    induction reached with
    | refl => exact ReflTransGen.refl
    | tail before linked ih => exact ih.tail ((same _ ih _).mpr linked)

theorem acyclic_same (same : ∀ a, ReflTransGen link root a → ∀ b, link a b ↔ link' a b)
    (acyclic : AcyclicFrom link root) : AcyclicFrom link' root := by
  intro a reached circle
  have reached_a := (reach_same same a).mpr reached
  have transferred : ∀ b, TransGen link' a b → TransGen link a b := by
    intro b path
    induction path with
    | single linked => exact TransGen.single ((same a reached_a _).mpr linked)
    | tail before linked ih => exact ih.tail ((same _ (reached_a.trans ih.to_reflTransGen) _).mpr linked)
  exact acyclic a reached_a (transferred a circle)

end Pintos.Links
