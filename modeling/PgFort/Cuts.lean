import Mathlib.Data.List.Infix
import Mathlib.Data.List.Basic

/-!
A stream of items that is taken in pieces, wherever it is cut. Items of a special kind are each
replaced as a whole, and everything else is passed on as it comes.
-/

namespace PgFort.Cuts

variable {ι β : Type}

section Definitions

variable (encode : ι → List β) (special : ι → Prop) (replaced : ι → List β → Prop)

def encoded (xs : List ι) : List β := xs.flatMap encode

/-- What is passed on for a stream. -/
inductive Passed : List ι → List β → Prop where
  | nil : Passed [] []
  | plain {xs : List ι} {out : List β} (x : ι) (hx : ¬special x) (h : Passed xs out) :
      Passed (xs ++ [x]) (out ++ encode x)
  | special {xs : List ι} {out : List β} (x : ι) (out' : List β) (hx : special x)
      (hout : replaced x out') (h : Passed xs out) : Passed (xs ++ [x]) (out ++ out')

/-- The beginning of the stream has been taken, and passed on; it may end within an item that is
not special. -/
def At (xs : List ι) (taken out : List β) : Prop :=
  ∃ done ahead part outs, xs = done ++ ahead ∧ taken = encoded encode done ++ part ∧
    out = outs ++ part ∧ Passed encode special replaced done outs ∧
    (part = [] ∨ ∃ x rest, ahead = x :: rest ∧ ¬special x ∧ part <+: encode x ∧
      part.length < (encode x).length)

/-- No special item begins in the piece that is taken next. -/
def NoneBegins (xs : List ι) (taken piece : List β) : Prop :=
  ∀ done x ahead, xs = done ++ x :: ahead → special x →
    taken.length ≤ (encoded encode done).length →
      (taken ++ piece).length ≤ (encoded encode done).length

end Definitions

section Steps

variable {encode : ι → List β} {special : ι → Prop} {replaced : ι → List β → Prop}
  {xs done ahead : List ι} {x : ι} {taken out piece part outs out' : List β}

theorem encoded_append (xs ys : List ι) :
    encoded encode (xs ++ ys) = encoded encode xs ++ encoded encode ys :=
  List.flatMap_append

theorem encoded_cons : encoded encode (x :: xs) = encode x ++ encoded encode xs :=
  List.flatMap_cons

theorem encoded_singleton : encoded encode [x] = encode x := by
  rw [encoded_cons]
  exact List.append_nil _

theorem at_nil (xs : List ι) : At encode special replaced xs [] [] :=
  ⟨[], xs, [], [], rfl, rfl, rfl, .nil, .inl rfl⟩

theorem at_of_noneBegins (hdone : Passed encode special replaced done outs)
    (hpart : part = [] ∨ ∃ x rest, ahead = x :: rest ∧ ¬special x ∧ part <+: encode x ∧
      part.length < (encode x).length)
    (hbegins : part ++ piece <+: encoded encode ahead)
    (hnone : NoneBegins encode special ahead part piece) :
    At encode special replaced (done ++ ahead) (encoded encode done ++ (part ++ piece))
      (outs ++ (part ++ piece)) := by
  induction ahead generalizing done outs part piece with
  | nil =>
      obtain ⟨rfl, rfl⟩ := List.append_eq_nil_iff.mp (List.prefix_nil.mp hbegins)
      exact ⟨done, [], [], outs, rfl, rfl, rfl, hdone, .inl rfl⟩
  | cons x rest ih =>
      rcases eq_or_ne piece [] with rfl | hpiece
      · exact ⟨done, x :: rest, part, outs, rfl, by rw [List.append_nil], by rw [List.append_nil],
          hdone, hpart⟩
      have hx : ¬special x := by
        rcases hpart with rfl | ⟨y, rest', hy, hplain, -, -⟩
        · intro hspecial
          have hshort := hnone [] x rest rfl hspecial (Nat.zero_le _)
          exact hpiece (List.length_eq_zero_iff.mp (Nat.le_zero.mp hshort))
        · exact (List.cons.inj hy).1 ▸ hplain
      have hlength : part.length ≤ (encode x).length := by
        rcases hpart with rfl | ⟨y, rest', hy, -, -, hless⟩
        · exact Nat.zero_le _
        · rw [(List.cons.inj hy).1]
          exact hless.le
      rw [encoded_cons] at hbegins
      rcases Nat.lt_or_ge (part ++ piece).length (encode x).length with hshort | hlong
      · have hinside : part ++ piece <+: encode x :=
          List.prefix_of_prefix_length_le hbegins (List.prefix_append _ _) hshort.le
        exact ⟨done, x :: rest, part ++ piece, outs, rfl, rfl, rfl, hdone,
          .inr ⟨x, rest, rfl, hx, hinside, hshort⟩⟩
      · obtain ⟨after, hafter⟩ : encode x <+: part ++ piece :=
          List.prefix_of_prefix_length_le (List.prefix_append _ _) hbegins hlong
        rw [← hafter] at hbegins ⊢
        have hnext := ih (hdone.plain x hx) (.inl rfl)
          ((List.prefix_append_right_inj (encode x)).mp hbegins) ?_
        · rw [List.append_assoc, List.singleton_append, encoded_append, encoded_singleton,
            List.append_assoc, List.append_assoc] at hnext
          exact hnext
        · intro done' y ahead' hsplit hy _
          have hbegins := hnone (x :: done') y ahead' (by rw [hsplit]; rfl) hy
          rw [encoded_cons, List.length_append, ← hafter, List.length_append] at hbegins
          have hlate := hbegins (by omega)
          rw [List.nil_append]
          omega

theorem At.take_plain (h : At encode special replaced xs taken out)
    (hbegins : taken ++ piece <+: encoded encode xs)
    (hnone : NoneBegins encode special xs taken piece) :
    At encode special replaced xs (taken ++ piece) (out ++ piece) := by
  obtain ⟨done, ahead, part, outs, rfl, rfl, rfl, hdone, hpart⟩ := h
  rw [encoded_append, List.append_assoc, List.prefix_append_right_inj] at hbegins
  rw [List.append_assoc, List.append_assoc]
  refine at_of_noneBegins hdone hpart hbegins fun done' x ahead' hsplit hx hlate => ?_
  have hbegins := hnone (done ++ done') x ahead' (by rw [hsplit, List.append_assoc]) hx
  rw [encoded_append, List.length_append, List.length_append, List.length_append,
    List.length_append] at hbegins
  have hlate' := hbegins (by omega)
  rw [List.length_append]
  omega

theorem at_boundary (hne : ∀ x, encode x ≠ []) (hxs : xs = done ++ ahead)
    (h : At encode special replaced xs (encoded encode done) out) :
    Passed encode special replaced done out := by
  obtain ⟨done', ahead', part, outs, hxs', htaken, rfl, hdone, hpart⟩ := h
  have hempty : ∀ ys : List ι, encoded encode ys = [] → ys = [] := by
    intro ys hys
    cases ys with
    | nil => rfl
    | cons y ys =>
        rw [encoded_cons] at hys
        exact absurd (List.append_eq_nil_iff.mp hys).1 (hne y)
  rcases List.append_eq_append_iff.mp (hxs.symm.trans hxs') with ⟨e, rfl, -⟩ | ⟨e, rfl, hahead⟩
  · rw [encoded_append, List.append_assoc] at htaken
    have hnil := List.append_right_eq_self.mp htaken.symm
    obtain ⟨he, rfl⟩ := List.append_eq_nil_iff.mp hnil
    rw [hempty e he, List.append_nil] at hdone
    rw [List.append_nil]
    exact hdone
  · rw [encoded_append] at htaken
    have hpart' := List.append_cancel_left htaken
    cases e with
    | nil =>
        rw [← hpart', List.append_nil]
        change Passed encode special replaced done' (outs ++ [])
        rw [List.append_nil]
        exact hdone
    | cons y e =>
        rw [encoded_cons] at hpart'
        rcases hpart with rfl | ⟨x, rest, hx, -, -, hless⟩
        · exact absurd (List.append_eq_nil_iff.mp hpart').1 (hne y)
        · rw [hahead, List.cons_append] at hx
          rw [← (List.cons.inj hx).1, ← hpart', List.length_append] at hless
          omega

theorem At.take_special (hne : ∀ x, encode x ≠ []) (hxs : xs = done ++ x :: ahead)
    (h : At encode special replaced xs (encoded encode done) out) (hx : special x)
    (hout : replaced x out') :
    At encode special replaced xs (encoded encode done ++ encode x) (out ++ out') := by
  have hdone := at_boundary hne hxs h
  refine ⟨done ++ [x], ahead, [], out ++ out', ?_, ?_, (List.append_nil _).symm,
    hdone.special x out' hx hout, .inl rfl⟩
  · rw [hxs, List.append_assoc, List.singleton_append]
  · rw [encoded_append, encoded_singleton, List.append_nil]

theorem Passed.eq_encoded (h : Passed encode special replaced xs out)
    (hout : ∀ x ∈ xs, ∀ out, replaced x out → out = encode x) : out = encoded encode xs := by
  induction h with
  | nil => rfl
  | plain x hx h ih =>
      rw [encoded_append, encoded_singleton, ih fun y hy => hout y (List.mem_append_left _ hy)]
  | special x out' hx hout' h ih =>
      rw [encoded_append, encoded_singleton, ih fun y hy => hout y (List.mem_append_left _ hy),
        hout x (List.mem_append_right _ (List.mem_singleton.mpr rfl)) out' hout']

theorem At.passed (hne : ∀ x, encode x ≠ [])
    (h : At encode special replaced xs (encoded encode xs) out) :
    Passed encode special replaced xs out :=
  at_boundary hne (List.append_nil xs).symm h

end Steps

end PgFort.Cuts
