import Mathlib.Data.Finset.Card
import Mathlib.Logic.Function.Iterate

namespace PgFort.Loops

section Loops

variable {α : Type} (next : α → α) (stops : α → Prop)

/-- A loop comes to a place where it stops. -/
def Stops (a : α) : Prop :=
  ∃ n, stops (next^[n] a)

/-- A loop comes to a place again, and has not stopped before. -/
def Returns (a : α) : Prop :=
  ∃ m n, m < n ∧ next^[m] a = next^[n] a ∧ ∀ k < n, ¬stops (next^[k] a)

variable {next stops} {a : α}

theorem iterate_eq_of_returns {m n k : ℕ} (h : next^[m] a = next^[n] a) (hk : n ≤ k) :
    next^[k - n + m] a = next^[k] a := by
  rw [Function.iterate_add_apply, h, ← Function.iterate_add_apply, Nat.sub_add_cancel hk]

theorem not_stops_of_returns (h : Returns next stops a) : ¬Stops next stops a := by
  obtain ⟨m, n, hmn, heq, hgoes⟩ := h
  rintro ⟨k, hk⟩
  induction k using Nat.strong_induction_on with
  | _ k ih =>
      by_cases hlt : k < n
      · exact hgoes k hlt hk
      · rw [← iterate_eq_of_returns heq (not_lt.mp hlt)] at hk
        exact ih _ (by omega) hk

/-- Among finitely many places a loop stops, or comes to a place again, in as many rounds. -/
theorem exists_lt_card_of_not_returns [DecidableEq α] {places : Finset α}
    (hplaces : ∀ n, next^[n] a ∈ places) (h : ¬Returns next stops a) :
    ∃ n < places.card, stops (next^[n] a) := by
  by_contra hnone
  have hgoes : ∀ k < places.card, ¬stops (next^[k] a) := fun k hk hstops => hnone ⟨k, hk, hstops⟩
  have hmany : places.card < (Finset.range (places.card + 1)).card := by
    rw [Finset.card_range]
    exact Nat.lt_succ_self _
  obtain ⟨m, hm, n, hn, hne, heq⟩ := Finset.exists_ne_map_eq_of_card_lt_of_maps_to hmany
    (f := fun n => next^[n] a) fun n _ => hplaces n
  rw [Finset.mem_range] at hm hn
  apply h
  rcases hne.lt_or_gt with hlt | hgt
  · exact ⟨m, n, hlt, heq, fun k hk => hgoes k (by omega)⟩
  · exact ⟨n, m, hgt, heq.symm, fun k hk => hgoes k (by omega)⟩

theorem stops_iff_not_returns [DecidableEq α] {places : Finset α}
    (hplaces : ∀ n, next^[n] a ∈ places) : Stops next stops a ↔ ¬Returns next stops a := by
  constructor
  · exact fun h hreturns => not_stops_of_returns hreturns h
  · intro h
    obtain ⟨n, -, hstops⟩ := exists_lt_card_of_not_returns hplaces h
    exact ⟨n, hstops⟩

end Loops

section Positions

variable {next : ℕ → ℕ} {stops : ℕ → Prop} {a bound : ℕ}

theorem iterate_mem_range (ha : a < bound) (hnext : ∀ b, next b < bound) (n : ℕ) :
    next^[n] a ∈ Finset.range bound := by
  rw [Finset.mem_range]
  cases n with
  | zero => exact ha
  | succ n =>
      rw [Function.iterate_succ_apply']
      exact hnext _

/-- A loop that goes forward until it stops comes to no place twice. -/
theorem not_returns_of_lt (hforward : ∀ n, ¬stops (next^[n] a) → next^[n] a < next^[n + 1] a) :
    ¬Returns next stops a := by
  rintro ⟨m, n, hmn, heq, hgoes⟩
  have hlt : ∀ k, m < k → k ≤ n → next^[m] a < next^[k] a := by
    intro k hmk
    induction k, hmk using Nat.le_induction with
    | base => exact fun hle => hforward m (hgoes m hle)
    | succ k hmk ih => exact fun hle => (ih (by omega)).trans (hforward k (hgoes k (by omega)))
  exact absurd (hlt n hmn le_rfl) (heq ▸ lt_irrefl _)

end Positions

end PgFort.Loops
