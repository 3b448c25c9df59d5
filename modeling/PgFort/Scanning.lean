import Mathlib.Data.List.Basic

/-!
Automata that read a text from the left for as long as they have a transition, and that see one
symbol ahead.
-/

namespace PgFort.Scanning

variable {σ α : Type} {step : σ → α → Option α → Option σ} {q q' : σ} {s t rest rest' : List α}

/-- What is read, the state in which the automaton stops, and the rest of the text. -/
def scan (step : σ → α → Option α → Option σ) : σ → List α → List α × σ × List α
  | q, [] => ([], q, [])
  | q, x :: s =>
      match step q x s.head? with
      | none => ([], q, x :: s)
      | some q' =>
          let r := scan step q' s
          (x :: r.1, r.2.1, r.2.2)

/-- The automaton has no transition. -/
def stops (step : σ → α → Option α → Option σ) (q : σ) : List α → Bool
  | [] => true
  | x :: s => (step q x s.head?).isNone

theorem scan_of_stops (h : stops step q s = true) : scan step q s = ([], q, s) := by
  cases s with
  | nil => rfl
  | cons x s => rw [scan, Option.isNone_iff_eq_none.mp h]

theorem scan_cons_of_step {x : α} (h : step q x s.head? = some q') :
    scan step q (x :: s) =
      (x :: (scan step q' s).1, (scan step q' s).2.1, (scan step q' s).2.2) := by
  rw [scan, h]

theorem scan_append_eq : (scan step q s).1 ++ (scan step q s).2.2 = s := by
  induction s generalizing q with
  | nil => rfl
  | cons x s ih =>
      cases h : step q x s.head? with
      | none => rw [scan, h]; rfl
      | some q' =>
          rw [scan_cons_of_step h, List.cons_append]
          exact congrArg (x :: ·) ih

theorem eq_of_scan_eq_nil (h : scan step q s = ([], q', rest)) : q = q' := by
  cases s with
  | nil => exact congrArg (fun r => r.2.1) h
  | cons x s =>
      cases hstep : step q x s.head? with
      | none =>
          rw [scan, hstep] at h
          exact congrArg (fun r => r.2.1) h
      | some p =>
          rw [scan_cons_of_step hstep] at h
          exact absurd (congrArg Prod.fst h) (List.cons_ne_nil _ _)

/-- What follows matters only where the automaton looks ahead to it. -/
theorem scan_append_of_stops (hread : scan step q (t ++ rest) = (t, q', rest))
    (hlast : ∀ p x, [x] <:+ t → step p x rest.head? = some q' → step p x rest'.head? = some q')
    (hstops : stops step q' rest' = true) : scan step q (t ++ rest') = (t, q', rest') := by
  induction t generalizing q with
  | nil =>
      rw [List.nil_append, eq_of_scan_eq_nil hread]
      exact scan_of_stops hstops
  | cons x t ih =>
      rw [List.cons_append] at hread
      cases h : step q x (t ++ rest).head? with
      | none =>
          rw [scan, h] at hread
          exact absurd (congrArg Prod.fst hread) (List.cons_ne_nil _ _).symm
      | some p =>
          rw [scan_cons_of_step h] at hread
          obtain ⟨hfst, hsnd⟩ := Prod.mk.inj hread
          obtain ⟨hstate, hrest⟩ := Prod.mk.inj hsnd
          have htail : scan step p (t ++ rest) = (t, q', rest) :=
            Prod.ext (List.cons.inj hfst).2 (Prod.ext hstate hrest)
          have hnext := ih htail fun p y hy => hlast p y (hy.trans (List.suffix_cons x t))
          have hstep : step q x (t ++ rest').head? = some p := by
            cases t with
            | cons y t => exact h
            | nil =>
                obtain rfl := eq_of_scan_eq_nil htail
                exact hlast q x (List.suffix_refl _) h
          rw [List.cons_append, scan_cons_of_step hstep, hnext]

end PgFort.Scanning
