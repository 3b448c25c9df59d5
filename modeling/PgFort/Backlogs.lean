import Mathlib.Data.List.Induction
import Mathlib.Data.List.Infix
import Mathlib.Tactic.Common

namespace PgFort.Backlogs

inductive Event where
  | arrival
  | service
  deriving DecidableEq, Repr

/-- How many wait after an arrival or a service; a service finds nothing to take at 0. -/
def Event.apply (n : Nat) : Event → Nat
  | arrival => n + 1
  | service => n - 1

/-- What is left after the events where nothing has been before. -/
def backlog (es : List Event) : Nat :=
  es.foldl Event.apply 0

/-- From any time on there are as many services as arrivals, or more. -/
def Drained (es : List Event) : Prop :=
  ∀ later, later <:+ es → later.count .arrival ≤ later.count .service

variable {es : List Event}

theorem backlog_concat (es : List Event) (e : Event) : backlog (es ++ [e]) = e.apply (backlog es) :=
  List.foldl_concat ..

theorem forall_suffix_concat {P : List Event → Prop} {e : Event} :
    (∀ later, later <:+ es ++ [e] → P later) ↔ P [] ∧ ∀ later, later <:+ es → P (later ++ [e]) := by
  constructor
  · intro h
    refine ⟨h [] List.nil_suffix, fun later hlater => h (later ++ [e]) ?_⟩
    obtain ⟨earlier, rfl⟩ := hlater
    exact ⟨earlier, (List.append_assoc ..).symm⟩
  · rintro ⟨hnil, hconcat⟩ later hlater
    rcases List.suffix_concat_iff.mp hlater with rfl | ⟨later, rfl, hsuffix⟩
    · exact hnil
    · exact hconcat later hsuffix

theorem count_concat (es : List Event) (e e' : Event) :
    (es ++ [e]).count e' = es.count e' + if e = e' then 1 else 0 := by
  simp [List.count_append, List.count_singleton]

theorem backlog_le_iff {n : Nat} :
    backlog es ≤ n ↔ ∀ later, later <:+ es → later.count .arrival ≤ later.count .service + n := by
  induction es using List.reverseRecOn generalizing n with
  | nil => simp [backlog]
  | append_singleton es e ih =>
      rw [backlog_concat, forall_suffix_concat]
      have hnil : ([] : List Event).count .arrival ≤ ([] : List Event).count .service + n :=
        Nat.zero_le _
      simp only [count_concat, hnil, true_and]
      cases e with
      | arrival =>
          simp only [Event.apply, if_true, reduceCtorEq, if_false, Nat.add_zero]
          cases n with
          | zero =>
              refine iff_of_false (Nat.not_succ_le_zero _) fun h => ?_
              exact Nat.not_succ_le_zero 0 (h [] List.nil_suffix)
          | succ n =>
              simp only [← Nat.add_assoc, Nat.add_le_add_iff_right, ih]
      | service =>
          simp only [Event.apply, if_true, reduceCtorEq, if_false, Nat.add_zero,
            Nat.sub_le_iff_le_add, ih, Nat.add_assoc, Nat.add_comm n 1]

/-- Nothing is left exactly if every arrival has had a service since. -/
theorem backlog_eq_zero_iff : backlog es = 0 ↔ Drained es :=
  Nat.le_zero.symm.trans backlog_le_iff

end PgFort.Backlogs
