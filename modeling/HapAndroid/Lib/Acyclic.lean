import Mathlib.Data.Fintype.EquivFin
import Mathlib.Data.Set.Finite.Basic
import Mathlib.Logic.Relation

/-!
# Relations without cycles

A relation whose arrows start in finitely many places, and that has no cycle among what is reached
from one of them, can be followed to its ends: `reach_induction` proves a property of everything
that is reached, each place after those its arrows lead to.
-/

namespace Acyclic

open Relation

variable {α : Type} {r : α → α → Prop} {a : α} {sources : List α}

/-- What is reached and has arrows. -/
abbrev Inner (r : α → α → Prop) (a : α) (sources : List α) : Type :=
  {x : {x // x ∈ sources} // ReflTransGen r a x.1}

theorem wellFounded_inner (hcycle : ∀ x, ReflTransGen r a x → ¬ TransGen r x x) :
    WellFounded fun x y : Inner r a sources => TransGen r y.1.1 x.1.1 := by
  have : Finite {x // x ∈ sources} := sources.finite_toSet
  have : IsTrans (Inner r a sources) fun x y => TransGen r y.1.1 x.1.1 :=
    ⟨fun _ _ _ h h' => h'.trans h⟩
  have : Std.Irrefl fun x y : Inner r a sources => TransGen r y.1.1 x.1.1 :=
    ⟨fun x => hcycle _ x.2⟩
  exact Finite.wellFounded_of_trans_of_irrefl _

/-- Induction from the ends of the arrows back to their starts. -/
theorem reach_induction (hsource : ∀ x y, r x y → x ∈ sources)
    (hcycle : ∀ x, ReflTransGen r a x → ¬ TransGen r x x) {P : α → Prop}
    (step : ∀ x, ReflTransGen r a x → (∀ y, r x y → P y) → P x) :
    ∀ x, ReflTransGen r a x → P x := by
  have hinner : ∀ x : Inner r a sources, P x.1.1 := by
    intro x
    induction x using (wellFounded_inner hcycle).induction with
    | _ x ih =>
        refine step _ x.2 fun y hy => ?_
        have hreach := x.2.tail hy
        by_cases hmem : y ∈ sources
        · exact ih ⟨⟨y, hmem⟩, hreach⟩ (.single hy)
        · exact step y hreach fun z hz => absurd (hsource y z hz) hmem
  intro x hx
  by_cases hmem : x ∈ sources
  · exact hinner ⟨⟨x, hmem⟩, hx⟩
  · exact step x hx fun y hy => absurd (hsource x y hy) hmem

end Acyclic
