import Mathlib.Data.List.Dedup

/-!
Texts of a shape, and a check that no text of some patterns occurs in any of them. The check keeps
what may be left of the patterns to read, however the text has gone so far.
-/

namespace PgFort.Shapes

variable {α κ : Type}

/-- Kinds of symbols. Two kinds meet if they have a symbol in common. -/
structure Kinds (α κ : Type) where
  is : κ → α → Bool
  meets : κ → κ → Bool
  meets_of_is : ∀ k k' x, is k x = true → is k' x = true → meets k k' = true

/-- One symbol of a kind, or some. -/
inductive Item (κ : Type) where
  | one (k : κ)
  | many (k : κ)
  deriving BEq, ReflBEq, LawfulBEq, Repr

abbrev Pattern (κ : Type) : Type := List (Item κ)

inductive Shape (κ : Type) where
  | nothing
  | one (k : κ)
  | several (k : κ)
  | seq (s t : Shape κ)
  | star (s : Shape κ)
  deriving Repr

namespace Kinds

variable (K : Kinds α κ)

/-- The text is one of the pattern. -/
def Fits : Pattern κ → List α → Prop
  | [], a => a = []
  | .one k :: p, a => ∃ x b, K.is k x = true ∧ a = x :: b ∧ Fits p b
  | .many k :: p, a => ∃ x b c, K.is k x = true ∧ (∀ y ∈ b, K.is k y = true) ∧
      a = x :: (b ++ c) ∧ Fits p c

/-- The text has the shape. -/
def Fills : Shape κ → List α → Prop
  | .nothing, a => a = []
  | .one k, a => ∃ x, K.is k x = true ∧ a = [x]
  | .several k, a => ∀ x ∈ a, K.is k x = true
  | .seq s t, a => ∃ b c, Fills s b ∧ Fills t c ∧ a = b ++ c
  | .star s, a => ∃ bs : List (List α), (∀ b ∈ bs, Fills s b) ∧ a = bs.flatten

/-- What is left of a pattern behind a symbol. Nothing is left of one that has occurred. -/
def rest (fits : κ → Bool) : Pattern κ → List (Pattern κ)
  | [] => [[]]
  | .one k :: p => bif fits k then [p] else []
  | .many k :: p => bif fits k then [.many k :: p, p] else []

variable (starts : List (Pattern κ))

/-- What may be left of the occurrences that begin anywhere in the text. -/
def run (ps : List (Pattern κ)) : List α → List (Pattern κ)
  | [] => ps
  | x :: a => run (starts ++ ps.flatMap (rest fun k => K.is k x)) a

/-- What may be left behind one symbol of a kind. -/
def next (k : κ) (ps : List (Pattern κ)) : List (Pattern κ) :=
  starts ++ ps.flatMap (rest fun j => K.meets j k)

section Check

variable [BEq κ]

def union (ps qs : List (Pattern κ)) : List (Pattern κ) :=
  qs.foldl (fun ps q => bif ps.contains q then ps else ps ++ [q]) ps

/-- What there is after any number of steps, if that is found in `n` rounds. -/
def closure (f : List (Pattern κ) → Option (List (Pattern κ))) :
    Nat → List (Pattern κ) → Option (List (Pattern κ))
  | 0, _ => none
  | n + 1, ps => do
      let qs ← f ps
      if qs.all ps.contains then some ps else closure f n (union ps qs)

/-- What may be left behind a text of the shape. -/
def after : Shape κ → List (Pattern κ) → Option (List (Pattern κ))
  | .nothing, ps => some ps
  | .one k, ps => some (next K starts k ps)
  | .several k, ps => closure (fun ps => some (next K starts k ps)) 12 ps
  | .seq s t, ps => after s ps >>= after t
  | .star s, ps => closure (after s) 12 ps

/-- None of the patterns occurs in texts of the shape. -/
def absent (s : Shape κ) : Bool :=
  match K.after starts s starts with
  | none => false
  | some ps => !ps.contains []

end Check

end Kinds

section Runs

variable {K : Kinds α κ} {starts ps qs : List (Pattern κ)} {a b : List α}

theorem run_append : K.run starts ps (a ++ b) = K.run starts (K.run starts ps a) b := by
  induction a generalizing ps with
  | nil => rfl
  | cons x a ih => exact ih

theorem read_subset {fits : κ → Bool} (h : ps ⊆ qs) :
    starts ++ ps.flatMap (Kinds.rest fits) ⊆ starts ++ qs.flatMap (Kinds.rest fits) := by
  intro q hq
  rcases List.mem_append.mp hq with hq | hq
  · exact List.mem_append_left _ hq
  · obtain ⟨p, hp, hq⟩ := List.mem_flatMap.mp hq
    exact List.mem_append_right _ (List.mem_flatMap.mpr ⟨p, h hp, hq⟩)

theorem run_subset (h : ps ⊆ qs) : K.run starts ps a ⊆ K.run starts qs a := by
  induction a generalizing ps qs with
  | nil => exact h
  | cons x a ih => exact ih (read_subset h)

theorem starts_subset_run (h : starts ⊆ ps) : starts ⊆ K.run starts ps a := by
  induction a generalizing ps with
  | nil => exact h
  | cons x a ih => exact ih (List.subset_append_left _ _)

theorem nil_mem_run (h : [] ∈ ps) : [] ∈ K.run starts ps a := by
  induction a generalizing ps with
  | nil => exact h
  | cons x a ih =>
      exact ih (List.mem_append_right _ (List.mem_flatMap.mpr ⟨[], h, List.mem_singleton_self []⟩))

theorem mem_run_cons {x : α} {p q : Pattern κ} (hp : p ∈ ps)
    (hq : q ∈ Kinds.rest (fun k => K.is k x) p) :
    q ∈ starts ++ ps.flatMap (Kinds.rest fun k => K.is k x) :=
  List.mem_append_right _ (List.mem_flatMap.mpr ⟨p, hp, hq⟩)

theorem many_mem_run {k : κ} {p : Pattern κ} (ha : ∀ y ∈ a, K.is k y = true)
    (hmany : .many k :: p ∈ ps) (hp : p ∈ ps) : p ∈ K.run starts ps a := by
  induction a generalizing ps with
  | nil => exact hp
  | cons x a ih =>
      obtain ⟨hx, ha⟩ := List.forall_mem_cons.mp ha
      refine ih ha (mem_run_cons hmany ?_) (mem_run_cons hmany ?_) <;> simp [Kinds.rest, hx]

theorem nil_mem_run_of_fits {p : Pattern κ} (hp : p ∈ ps) (h : K.Fits p a) :
    [] ∈ K.run starts ps a := by
  induction p generalizing ps a with
  | nil => exact nil_mem_run hp
  | cons i p ih =>
      cases i with
      | one k =>
          obtain ⟨x, b, hx, rfl, hb⟩ := h
          have hread : p ∈ starts ++ ps.flatMap (Kinds.rest fun k => K.is k x) :=
            mem_run_cons hp (by simp [Kinds.rest, hx])
          change [] ∈ K.run starts (starts ++ ps.flatMap (Kinds.rest fun k => K.is k x)) b
          exact ih hread hb
      | many k =>
          obtain ⟨x, b, c, hx, hsome, rfl, hc⟩ := h
          have hmore : .many k :: p ∈ starts ++ ps.flatMap (Kinds.rest fun k => K.is k x) :=
            mem_run_cons hp (by simp [Kinds.rest, hx])
          have hread : p ∈ starts ++ ps.flatMap (Kinds.rest fun k => K.is k x) :=
            mem_run_cons hp (by simp [Kinds.rest, hx])
          change [] ∈ K.run starts (starts ++ ps.flatMap (Kinds.rest fun k => K.is k x)) (b ++ c)
          rw [run_append]
          exact ih (many_mem_run hsome hmore hread) hc

theorem nil_mem_run_of_occurs {p : Pattern κ} (hp : p ∈ starts) {b c : List α} (h : K.Fits p b) :
    [] ∈ K.run starts starts (a ++ (b ++ c)) := by
  rw [run_append, run_append]
  exact nil_mem_run (nil_mem_run_of_fits (starts_subset_run (List.Subset.refl _) hp) h)

theorem rest_subset {k : κ} {x : α} (hx : K.is k x = true) (p : Pattern κ) :
    Kinds.rest (fun j => K.is j x) p ⊆ Kinds.rest (fun j => K.meets j k) p := by
  have hmeets (j : κ) (hj : K.is j x = true) : K.meets j k = true := K.meets_of_is j k x hj hx
  cases p with
  | nil => exact List.Subset.refl _
  | cons i p =>
      cases i with
      | one j =>
          simp only [Kinds.rest]
          cases hj : K.is j x with
          | false => exact List.nil_subset _
          | true =>
              rw [hmeets j hj]
              exact List.Subset.refl _
      | many j =>
          simp only [Kinds.rest]
          cases hj : K.is j x with
          | false => exact List.nil_subset _
          | true =>
              rw [hmeets j hj]
              exact List.Subset.refl _

theorem run_singleton_subset {k : κ} {x : α} (hx : K.is k x = true) :
    K.run starts ps [x] ⊆ Kinds.next K starts k ps := by
  intro q hq
  rcases List.mem_append.mp hq with hq | hq
  · exact List.mem_append_left _ hq
  · obtain ⟨p, hp, hq⟩ := List.mem_flatMap.mp hq
    exact List.mem_append_right _ (List.mem_flatMap.mpr ⟨p, hp, rest_subset hx p hq⟩)

theorem run_several_subset {k : κ} (hclosed : Kinds.next K starts k qs ⊆ qs)
    (ha : ∀ x ∈ a, K.is k x = true) (hps : ps ⊆ qs) : K.run starts ps a ⊆ qs := by
  induction a generalizing ps with
  | nil => exact hps
  | cons x a ih =>
      obtain ⟨hx, ha⟩ := List.forall_mem_cons.mp ha
      have hstep : K.run starts ps [x] ⊆ qs :=
        fun q hq => hclosed (run_singleton_subset hx (run_subset hps hq))
      exact ih ha hstep

variable [BEq κ]

theorem subset_union : ps ⊆ Kinds.union ps qs := by
  induction qs generalizing ps with
  | nil => exact List.Subset.refl _
  | cons q qs ih =>
      have hstep : ps ⊆ bif ps.contains q then ps else ps ++ [q] := by
        cases ps.contains q with
        | false => exact List.subset_append_left _ _
        | true => exact List.Subset.refl _
      exact List.Subset.trans hstep ih

variable [LawfulBEq κ]

theorem closure_spec {f : List (Pattern κ) → Option (List (Pattern κ))} {n : Nat}
    (h : Kinds.closure f n ps = some qs) : ps ⊆ qs ∧ ∃ rs, f qs = some rs ∧ rs ⊆ qs := by
  induction n generalizing ps with
  | zero => simp [Kinds.closure] at h
  | succ n ih =>
      rw [Kinds.closure] at h
      obtain ⟨rs, hrs, h⟩ := Option.bind_eq_some_iff.mp h
      split at h
      · rename_i hall
        obtain rfl := Option.some.inj h
        refine ⟨List.Subset.refl _, rs, hrs, fun q hq => ?_⟩
        simpa using List.all_eq_true.mp hall q hq
      · obtain ⟨hsubset, hclosed⟩ := ih h
        exact ⟨fun q hq => hsubset (subset_union hq), hclosed⟩

theorem run_subset_after {s : Shape κ} (hs : K.Fills s a) (h : K.after starts s ps = some qs) :
    K.run starts ps a ⊆ qs := by
  induction s generalizing ps qs a with
  | nothing =>
      obtain rfl : a = [] := hs
      obtain rfl := Option.some.inj h
      exact List.Subset.refl _
  | one k =>
      obtain ⟨x, hx, rfl⟩ := hs
      obtain rfl := Option.some.inj h
      exact run_singleton_subset hx
  | several k =>
      obtain ⟨hsubset, rs, hrs, hclosed⟩ := closure_spec h
      obtain rfl := Option.some.inj hrs
      exact run_several_subset hclosed hs hsubset
  | seq s t ihs iht =>
      obtain ⟨b, c, hb, hc, rfl⟩ := hs
      obtain ⟨rs, hrs, h⟩ := Option.bind_eq_some_iff.mp h
      rw [run_append]
      exact fun q hq => iht hc h (run_subset (ihs hb hrs) hq)
  | star s ih =>
      obtain ⟨bs, hbs, rfl⟩ := hs
      obtain ⟨hsubset, rs, hrs, hclosed⟩ := closure_spec h
      have hall : ∀ ps, ps ⊆ qs → K.run starts ps bs.flatten ⊆ qs := by
        clear h hsubset
        induction bs with
        | nil => exact fun ps hps => hps
        | cons b bs ihbs =>
            obtain ⟨hb, hbs⟩ := List.forall_mem_cons.mp hbs
            intro ps hps
            rw [List.flatten_cons, run_append]
            exact ihbs hbs _ fun q hq => hclosed (ih hb hrs (run_subset hps hq))
      exact hall ps hsubset

/-- None of the patterns occurs in a text of the shape. -/
theorem not_fits_of_absent {s : Shape κ} (h : K.absent starts s = true) (hs : K.Fills s a)
    {p : Pattern κ} (hp : p ∈ starts) {b c d : List α} (ha : a = b ++ (c ++ d)) : ¬K.Fits p c := by
  intro hfits
  rw [Kinds.absent] at h
  split at h
  · simp at h
  · rename_i ps hps
    have hnil := run_subset_after hs hps (ha ▸ nil_mem_run_of_occurs hp hfits)
    simp [hnil] at h

end Runs

end PgFort.Shapes
