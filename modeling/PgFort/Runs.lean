import Mathlib.Data.List.Induction

namespace PgFort.Runs

variable {σ α : Type} {step : σ → α → σ} {s₀ : σ}

theorem invariant_foldl {P : σ → Prop} (hstep : ∀ s a, P s → P (step s a)) {s : σ} (hs : P s)
    (as : List α) : P (as.foldl step s) :=
  List.foldlRecOn as step hs fun s hs a _ => hstep s a hs

/-- In every state of the run. -/
def Always (step : σ → α → σ) (s₀ : σ) (P : σ → Prop) (as : List α) : Prop :=
  ∀ pre post, as = pre ++ post → P (pre.foldl step s₀)

/-- At every step of the run. -/
def AtEachStep (step : σ → α → σ) (s₀ : σ) (Q : σ → α → Prop) (as : List α) : Prop :=
  ∀ pre a post, as = pre ++ a :: post → Q (pre.foldl step s₀) a

theorem always_nil {P : σ → Prop} : Always step s₀ P [] ↔ P s₀ := by
  constructor
  · intro h
    exact h [] [] rfl
  · intro h pre post hsplit
    obtain ⟨rfl, -⟩ := List.append_eq_nil_iff.mp hsplit.symm
    exact h

theorem always_concat {P : σ → Prop} {as : List α} {a : α} :
    Always step s₀ P (as ++ [a]) ↔ Always step s₀ P as ∧ P ((as ++ [a]).foldl step s₀) := by
  constructor
  · intro h
    refine ⟨fun pre post hsplit => h pre (post ++ [a]) ?_, h _ [] (List.append_nil _).symm⟩
    rw [hsplit, List.append_assoc]
  · rintro ⟨hpre, hall⟩ pre post hsplit
    rcases List.eq_nil_or_concat post with rfl | ⟨post, b, rfl⟩
    · rw [List.append_nil] at hsplit
      exact hsplit ▸ hall
    · rw [List.concat_eq_append, ← List.append_assoc] at hsplit
      exact hpre pre post (List.append_inj' hsplit rfl).1

theorem atEachStep_nil {Q : σ → α → Prop} : AtEachStep step s₀ Q [] := by
  intro pre a post hsplit
  simp at hsplit

theorem atEachStep_concat {Q : σ → α → Prop} {as : List α} {a : α} :
    AtEachStep step s₀ Q (as ++ [a]) ↔ AtEachStep step s₀ Q as ∧ Q (as.foldl step s₀) a := by
  constructor
  · intro h
    refine ⟨fun pre b post hsplit => h pre b (post ++ [a]) ?_, h as a [] rfl⟩
    rw [hsplit, List.append_assoc, List.cons_append]
  · rintro ⟨hpre, hall⟩ pre b post hsplit
    rcases List.eq_nil_or_concat post with rfl | ⟨post, c, rfl⟩
    · obtain ⟨rfl, hab⟩ := List.append_inj' hsplit rfl
      exact (List.cons.inj hab).1 ▸ hall
    · rw [List.concat_eq_append, ← List.cons_append, ← List.append_assoc] at hsplit
      exact hpre pre b post (List.append_inj' hsplit rfl).1

/-- A property that a step keeps exactly under a condition holds all along a run exactly if
every step meets the condition. -/
theorem always_iff_atEachStep {I P : σ → Prop} {Q : σ → α → Prop} (hinv : I s₀)
    (hkept : ∀ s a, I s → I (step s a)) (hinit : P s₀)
    (hstep : ∀ s a, I s → P s → (P (step s a) ↔ Q s a)) (as : List α) :
    Always step s₀ P as ↔ AtEachStep step s₀ Q as := by
  induction as using List.reverseRecOn with
  | nil => exact iff_of_true (always_nil.mpr hinit) atEachStep_nil
  | append_singleton as a ih =>
      rw [always_concat, atEachStep_concat, ← ih]
      refine and_congr_right fun hall => ?_
      rw [List.foldl_append]
      exact hstep _ a (invariant_foldl hkept hinv as) (hall as [] (List.append_nil _).symm)

theorem AtEachStep.invariant {I : σ → Prop} {Q : σ → α → Prop} (hinit : I s₀)
    (hkept : ∀ s a, I s → Q s a → I (step s a)) {as : List α} (h : AtEachStep step s₀ Q as) :
    I (as.foldl step s₀) := by
  induction as using List.reverseRecOn with
  | nil => exact hinit
  | append_singleton as a ih =>
      obtain ⟨hpre, hlast⟩ := atEachStep_concat.mp h
      rw [List.foldl_append]
      exact hkept _ a (ih hpre) hlast

theorem AtEachStep.of_invariant {I : σ → Prop} {Q R : σ → α → Prop} (hinit : I s₀)
    (hkept : ∀ s a, I s → Q s a → I (step s a)) (hstep : ∀ s a, I s → Q s a → R s a)
    {as : List α} (h : AtEachStep step s₀ Q as) : AtEachStep step s₀ R as := by
  intro pre a post hsplit
  have hpre : AtEachStep step s₀ Q pre := by
    intro pre' a' post' hsplit'
    exact h pre' a' (post' ++ a :: post) (by rw [hsplit, hsplit']; simp)
  exact hstep _ a (hpre.invariant hinit hkept) (h pre a post hsplit)

section Partial

variable {ε : Type} {step : σ → α → Except ε σ}

theorem foldlM_concat {s : σ} {as : List α} {a : α} :
    (as ++ [a]).foldlM step s = as.foldlM step s >>= fun s' => step s' a := by
  rw [List.foldlM_append]
  simp

theorem invariant_foldlM {P : σ → Prop} (hstep : ∀ s a s', P s → step s a = .ok s' → P s')
    {s s' : σ} (hs : P s) {as : List α} (hrun : as.foldlM step s = .ok s') : P s' := by
  induction as generalizing s with
  | nil => exact Except.ok.inj hrun ▸ hs
  | cons a as ih =>
      rw [List.foldlM_cons] at hrun
      cases ht : step s a with
      | error e => simp [ht, bind, Except.bind] at hrun
      | ok t =>
          rw [ht] at hrun
          exact ih (hstep s a t hs ht) hrun

/-- At every step that a run comes to. -/
def AtEachTurn (step : σ → α → Except ε σ) (s₀ : σ) (Q : σ → α → Prop) (as : List α) : Prop :=
  ∀ pre a post s, as = pre ++ a :: post → pre.foldlM step s₀ = .ok s → Q s a

theorem atEachTurn_cons {Q : σ → α → Prop} {s₀ : σ} {a : α} {as : List α} :
    AtEachTurn step s₀ Q (a :: as) ↔
      Q s₀ a ∧ ∀ s, step s₀ a = .ok s → AtEachTurn step s Q as := by
  constructor
  · intro h
    refine ⟨h [] a as s₀ rfl rfl, fun s hs pre b post t hsplit hrun => ?_⟩
    refine h (a :: pre) b post t (by rw [hsplit, List.cons_append]) ?_
    rw [List.foldlM_cons, hs]
    exact hrun
  · rintro ⟨hfirst, hrest⟩ pre b post t hsplit hrun
    cases pre with
    | nil =>
        obtain ⟨rfl, -⟩ := List.cons.inj hsplit
        exact Except.ok.inj hrun ▸ hfirst
    | cons c pre =>
        obtain ⟨rfl, hsplit'⟩ := List.cons.inj hsplit
        rw [List.foldlM_cons] at hrun
        cases hs : step s₀ a with
        | error e => simp [hs, bind, Except.bind] at hrun
        | ok s =>
            rw [hs] at hrun
            exact hrest s hs pre b post t hsplit' hrun

instance decidableAtEachTurn {Q : σ → α → Prop} [∀ s a, Decidable (Q s a)] :
    ∀ (as : List α) (s₀ : σ), Decidable (AtEachTurn step s₀ Q as)
  | [], _ => isTrue fun _ _ _ _ hsplit => by simp at hsplit
  | a :: as, s₀ =>
      match hs : step s₀ a with
      | .error _ => decidable_of_iff (Q s₀ a) (by simp [atEachTurn_cons, hs])
      | .ok s =>
          have := decidableAtEachTurn (Q := Q) as s
          decidable_of_iff (Q s₀ a ∧ AtEachTurn step s Q as) (by simp [atEachTurn_cons, hs])

theorem invariant_of_atEachTurn {I : σ → Prop} {R : σ → α → Prop} {s₀ : σ} (hinit : I s₀)
    (hstep : ∀ s a s', I s → R s a → step s a = .ok s' → I s') {as pre post : List α}
    (h : AtEachTurn step s₀ R as) (hsplit : as = pre ++ post) {s : σ}
    (hrun : pre.foldlM step s₀ = .ok s) : I s := by
  induction pre using List.reverseRecOn generalizing post s with
  | nil => exact Except.ok.inj hrun ▸ hinit
  | append_singleton pre a ih =>
      rw [List.append_assoc, List.singleton_append] at hsplit
      rw [foldlM_concat] at hrun
      cases ht : pre.foldlM step s₀ with
      | error e => simp [ht, bind, Except.bind] at hrun
      | ok t =>
          rw [ht] at hrun
          exact hstep t a s (ih hsplit ht) (h pre a post t hsplit ht) hrun

theorem atEachTurn_congr_of {I : σ → Prop} {R Q Q' : σ → α → Prop} {s₀ : σ} (hinit : I s₀)
    (hstep : ∀ s a s', I s → R s a → Q s a → step s a = .ok s' → I s')
    (h : ∀ s a, I s → R s a → (Q s a ↔ Q' s a)) {as : List α} (hR : AtEachTurn step s₀ R as) :
    AtEachTurn step s₀ Q as ↔ AtEachTurn step s₀ Q' as := by
  constructor
  · intro hall pre a post s hsplit hrun
    have hboth : AtEachTurn step s₀ (fun s a => R s a ∧ Q s a) as := fun pre a post s hsplit hrun =>
      ⟨hR pre a post s hsplit hrun, hall pre a post s hsplit hrun⟩
    have hinv := invariant_of_atEachTurn hinit
      (fun s a s' hs hRQ => hstep s a s' hs hRQ.1 hRQ.2) hboth hsplit hrun
    exact (h s a hinv (hR pre a post s hsplit hrun)).mp (hall pre a post s hsplit hrun)
  · intro hall pre a post s hsplit hrun
    have hboth : AtEachTurn step s₀ (fun s a => R s a ∧ Q' s a) as := fun pre a post s hsplit hrun =>
      ⟨hR pre a post s hsplit hrun, hall pre a post s hsplit hrun⟩
    have hinv := invariant_of_atEachTurn hinit
      (fun s a s' hs hRQ => hstep s a s' hs hRQ.1 ((h s a hs hRQ.1).mpr hRQ.2)) hboth hsplit hrun
    exact (h s a hinv (hR pre a post s hsplit hrun)).mpr (hall pre a post s hsplit hrun)

theorem atEachTurn_congr {I : σ → Prop} {Q Q' : σ → α → Prop} {s₀ : σ}
    (hstep : ∀ s a s', I s → step s a = .ok s' → I s') (hinit : I s₀)
    (h : ∀ s a, I s → (Q s a ↔ Q' s a)) (as : List α) :
    AtEachTurn step s₀ Q as ↔ AtEachTurn step s₀ Q' as := by
  constructor
  · intro hall pre a post s hsplit hrun
    exact (h s a (invariant_foldlM hstep hinit hrun)).mp (hall pre a post s hsplit hrun)
  · intro hall pre a post s hsplit hrun
    exact (h s a (invariant_foldlM hstep hinit hrun)).mpr (hall pre a post s hsplit hrun)

end Partial

end PgFort.Runs
