import Mathlib.Data.Set.Basic
import Mathlib.Logic.Relation

/-!
Objects of a database that depend on each other, and what is dropped with them.
-/

namespace PgFort.Dependencies

open Relation

/-- An object goes with another that it is a part of, and is then dropped with it. On others it
depends, and keeps them from being dropped alone. -/
structure Graph (α : Type) where
  goesWith : α → α → Prop
  dependsOn : α → α → Prop

variable {α : Type} {g : Graph α} {S T : Set α} {x y : α}

namespace Graph

/-- The objects and what goes with them. -/
def swept (g : Graph α) (S : Set α) : Set α :=
  {x | ∃ y ∈ S, ReflTransGen g.goesWith x y}

/-- `RESTRICT` drops the objects if nothing else depends on what goes with them. -/
def Droppable (g : Graph α) (S : Set α) : Prop :=
  ∀ x, ∀ y ∈ g.swept S, g.dependsOn x y → x ∈ g.swept S

/-- What `CASCADE` drops. -/
def cascade (g : Graph α) (S : Set α) : Set α :=
  {x | ∃ y ∈ S, ReflTransGen (fun a b => g.goesWith a b ∨ g.dependsOn a b) x y}

theorem subset_swept (g : Graph α) (S : Set α) : S ⊆ g.swept S :=
  fun x hx => ⟨x, hx, .refl⟩

theorem subset_cascade (g : Graph α) (S : Set α) : S ⊆ g.cascade S :=
  fun x hx => ⟨x, hx, .refl⟩

theorem mem_swept_of_goesWith (hxy : g.goesWith x y) (hy : y ∈ g.swept S) : x ∈ g.swept S := by
  obtain ⟨z, hz, hyz⟩ := hy
  exact ⟨z, hz, .head hxy hyz⟩

theorem swept_subset_of_subset (h : S ⊆ g.swept T) : g.swept S ⊆ g.swept T := by
  rintro x ⟨y, hy, hxy⟩
  induction hxy using ReflTransGen.head_induction_on with
  | refl => exact h hy
  | head hstep _ ih => exact mem_swept_of_goesWith hstep ih

theorem mem_swept_cases (h : x ∈ g.swept S) : x ∈ S ∨ ∃ y ∈ g.swept S, g.goesWith x y := by
  obtain ⟨z, hz, hxz⟩ := h
  rcases hxz.cases_head with rfl | ⟨y, hxy, hyz⟩
  · exact .inl hz
  · exact .inr ⟨y, ⟨z, hz, hyz⟩, hxy⟩

theorem mem_swept_of_alone (hx : ∀ y, ¬ g.goesWith x y) : x ∈ g.swept S ↔ x ∈ S := by
  constructor
  · intro h
    rcases mem_swept_cases h with h | ⟨y, -, hxy⟩
    · exact h
    · exact absurd hxy (hx y)
  · exact fun h => g.subset_swept S h

theorem mem_cascade_cases (h : x ∈ g.cascade S) :
    x ∈ S ∨ ∃ y ∈ g.cascade S, g.goesWith x y ∨ g.dependsOn x y := by
  obtain ⟨z, hz, hxz⟩ := h
  rcases hxz.cases_head with rfl | ⟨y, hxy, hyz⟩
  · exact .inl hz
  · exact .inr ⟨y, ⟨z, hz, hyz⟩, hxy⟩

theorem mem_cascade_of_dependsOn (hxy : g.dependsOn x y) (hy : y ∈ g.cascade S) :
    x ∈ g.cascade S := by
  obtain ⟨z, hz, hyz⟩ := hy
  exact ⟨z, hz, .head (.inr hxy) hyz⟩

/-- When nothing keeps the objects from being dropped, `CASCADE` drops no more with some of them
than `RESTRICT` drops with all. -/
theorem cascade_subset_swept (h : g.Droppable S) (hT : T ⊆ g.swept S) :
    g.cascade T ⊆ g.swept S := by
  rintro x ⟨y, hy, hxy⟩
  induction hxy using ReflTransGen.head_induction_on with
  | refl => exact hT hy
  | head hstep _ ih =>
      rcases hstep with hgoes | hdepends
      · exact mem_swept_of_goesWith hgoes ih
      · exact h _ _ ih hdepends

end Graph

end PgFort.Dependencies
