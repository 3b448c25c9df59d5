import PgFort.CommentRemoval
import PgFort.KeyedTraversal

namespace PgFort.StatementLists

open PgFort.Framing
open PgFort.Conn
open PgFort.Regexes
open PgFort.KeyedTraversal
open PgFort.ProxyCommand
open PgFort.CommentRemoval

/-- A pass that treats what is before and what is behind a semicolon separately. -/
def Separates (pass : Bytes → Except Conn.Error Bytes) : Prop :=
  ∀ a b t, pass (a ++ 59 :: b) = .ok t ↔
    ∃ a' b', pass a = .ok a' ∧ pass b = .ok b' ∧ t = a' ++ 59 :: b'

/-- Two bytes that a comment may begin with. -/
def HasIntroducer (s : Bytes) : Prop := [45, 45] <:+: s ∨ [47, 42] <:+: s

instance : DecidablePred HasIntroducer := fun _ => inferInstanceAs (Decidable (_ ∨ _))

theorem separates_replace {r : Regex UInt8} {f : Groups UInt8 → Except Conn.Error Bytes}
    (hr : r.avoids 59 = true) (hempty : r.nullable = false) : Separates (replace r f) := by
  intro a b t
  rw [replace_append hr hempty]
  constructor
  · intro h
    obtain ⟨a', ha, h⟩ := bind_eq_ok.mp h
    obtain ⟨b', hb, h⟩ := bind_eq_ok.mp h
    exact ⟨a', b', ha, hb, (Except.ok.inj h).symm⟩
  · rintro ⟨a', b', ha, hb, rfl⟩
    rw [ha, hb]
    rfl

theorem separates_foldlM {passes : List (Bytes → Except Conn.Error Bytes)}
    (h : ∀ pass ∈ passes, Separates pass) :
    Separates fun s => passes.foldlM (fun s pass => pass s) s := by
  induction passes with
  | nil =>
      intro a b t
      constructor
      · intro ht
        exact ⟨a, b, rfl, rfl, (Except.ok.inj ht).symm⟩
      · rintro ⟨a', b', ha, hb, rfl⟩
        obtain rfl := Except.ok.inj ha
        obtain rfl := Except.ok.inj hb
        rfl
  | cons pass passes ih =>
      have hpass := h pass List.mem_cons_self
      have hpasses := ih fun p hp => h p (List.mem_cons_of_mem _ hp)
      intro a b t
      simp only [List.foldlM_cons]
      constructor
      · intro ht
        obtain ⟨u, hu, ht⟩ := bind_eq_ok.mp ht
        obtain ⟨a', b', ha, hb, rfl⟩ := (hpass a b u).mp hu
        obtain ⟨a'', b'', ha', hb', rfl⟩ := (hpasses a' b' t).mp ht
        exact ⟨a'', b'', bind_eq_ok.mpr ⟨a', ha, ha'⟩, bind_eq_ok.mpr ⟨b', hb, hb'⟩, rfl⟩
      · rintro ⟨a'', b'', ha, hb, rfl⟩
        obtain ⟨a', ha, ha'⟩ := bind_eq_ok.mp ha
        obtain ⟨b', hb, hb'⟩ := bind_eq_ok.mp hb
        exact bind_eq_ok.mpr ⟨a' ++ 59 :: b', (hpass a b _).mpr ⟨a', b', ha, hb, rfl⟩,
          (hpasses a' b' _).mpr ⟨a'', b'', ha', hb', rfl⟩⟩

section Passes

variable {file s : Bytes} {pass : Bytes → Except Conn.Error Bytes}

theorem exists_quoteWords (s : Bytes) : ∃ p, quoteWords s = .ok p :=
  exists_replace (by decide +kernel) (fun _ => ⟨_, rfl⟩) s

theorem exists_permissionCondition (gs : Groups UInt8) :
    ∃ condition, permissionCondition gs = .ok condition := by
  obtain ⟨p, hp⟩ := exists_quoteWords (lower (text gs 4))
  obtain ⟨p', hp'⟩ := exists_quoteWords (lower (text gs 7))
  rw [permissionCondition, hp, hp']
  split_ifs <;> exact ⟨_, rfl⟩

theorem exists_replace_of_pass (h : pass ∈ passes file) :
    ∃ r f, pass = replace r f ∧ r.avoids 59 = true ∧ r.nullable = false ∧
      ∀ gs e, f gs = .error e → e.isError = true := by
  simp only [passes, List.mem_cons, List.not_mem_nil, or_false] at h
  rcases h with rfl | rfl | rfl | rfl | rfl | rfl | rfl | rfl | rfl | rfl
  · exact ⟨enableAccessControl, _, rfl, by decide +kernel, by decide +kernel, fun _ _ h => nomatch h⟩
  · exact ⟨createAccessPermission, _, rfl, by decide +kernel, by decide +kernel,
      fun _ _ h => nomatch h⟩
  · refine ⟨createAccessRole, _, rfl, by decide +kernel, by decide +kernel, fun gs e h => ?_⟩
    obtain ⟨p, hp⟩ := exists_quoteWords (lower (text gs 2))
    simp [hp] at h
  · refine ⟨createAccessInheritance, _, rfl, by decide +kernel, by decide +kernel, fun gs e h => ?_⟩
    dsimp only at h
    split at h
    · obtain rfl := Except.error.inj h
      rfl
    · exact nomatch h
  · exact ⟨listAccessPermission, _, rfl, by decide +kernel, by decide +kernel,
      fun _ _ h => nomatch h⟩
  · exact ⟨listAccessRoleBinding, _, rfl, by decide +kernel, by decide +kernel,
      fun _ _ h => nomatch h⟩
  · refine ⟨listAccessRole, _, rfl, by decide +kernel, by decide +kernel, fun gs e h => ?_⟩
    obtain ⟨condition, hcondition⟩ := exists_permissionCondition gs
    simp [hcondition] at h
  · refine ⟨listAccessInheritance, _, rfl, by decide +kernel, by decide +kernel, fun gs e h => ?_⟩
    dsimp only at h
    split_ifs at h
    obtain rfl := Except.error.inj h
    rfl
  · exact ⟨bindAccessRole, _, rfl, by decide +kernel, by decide +kernel, fun _ _ h => nomatch h⟩
  · exact ⟨unbindAccessRole, _, rfl, by decide +kernel, by decide +kernel, fun _ _ h => nomatch h⟩

end Passes

theorem afterComment_eq_none {c : UInt8} {s : Bytes} (h : ¬HasIntroducer (c :: s)) :
    afterComment (c :: s) = none := by
  rw [afterComment, if_neg fun hdashes => h (.inl hdashes.isInfix),
    if_neg fun hopen => h (.inr hopen.isInfix)]

theorem removeComments_eq_self {s : Bytes} (h : ¬HasIntroducer s) : removeComments s = .ok s := by
  induction s with
  | nil => exact removeComments_nil
  | cons c s ih =>
      have hs : ¬HasIntroducer s := by
        rintro (hdashes | hopen)
        · exact h (.inl (hdashes.trans (List.suffix_cons c s).isInfix))
        · exact h (.inr (hopen.trans (List.suffix_cons c s).isInfix))
      rw [removeComments_cons (afterComment_eq_none h), ih hs]
      rfl

theorem infix_append_separator {x y sep : UInt8} {a b : Bytes} (hx : x ≠ sep) (hy : y ≠ sep)
    (h : [x, y] <:+: a ++ sep :: b) : [x, y] <:+: a ∨ [x, y] <:+: b := by
  induction a with
  | nil =>
      rcases List.infix_cons_iff.mp h with h | h
      · exact absurd (List.cons_prefix_cons.mp h).1 hx
      · exact .inr h
  | cons c a ih =>
      rcases List.infix_cons_iff.mp h with h | h
      · obtain ⟨hxc, h⟩ := List.cons_prefix_cons.mp h
        cases a with
        | nil => exact absurd (List.cons_prefix_cons.mp h).1 hy
        | cons d a =>
            obtain ⟨hyd, -⟩ := List.cons_prefix_cons.mp h
            rw [hxc, hyd]
            exact .inl (List.prefix_append [c, d] a).isInfix
      · rcases ih h with h | h
        · exact .inl (h.trans (List.suffix_cons c a).isInfix)
        · exact .inr h

theorem not_hasIntroducer_append {a b : Bytes} (ha : ¬HasIntroducer a) (hb : ¬HasIntroducer b) :
    ¬HasIntroducer (a ++ 59 :: b) := by
  rintro (h | h)
  · rcases infix_append_separator (by decide) (by decide) h with h | h
    · exact ha (.inl h)
    · exact hb (.inl h)
  · rcases infix_append_separator (by decide) (by decide) h with h | h
    · exact ha (.inr h)
    · exact hb (.inr h)

section Translate

variable (file : Bytes)

/-- The translation of the text is an error. -/
def Fails (s : Bytes) : Prop := (translate file s).2.isError = true

/-- The passes over a text, one after the other. -/
def runPasses (s : Bytes) : Except Conn.Error Bytes :=
  (passes file).foldlM (fun s pass => pass s) s

variable {file} {a b s t : Bytes}

theorem isError_of_runPasses {e : Conn.Error} (h : runPasses file s = .error e) :
    e.isError = true := by
  have herror : ∀ ps : List (Bytes → Except Conn.Error Bytes), (∀ pass ∈ ps, pass ∈ passes file) →
      ∀ s, ps.foldlM (fun s pass => pass s) s = .error e → e.isError = true := by
    intro ps
    induction ps with
    | nil =>
        intro _ s h
        exact nomatch h
    | cons pass ps ih =>
        intro hps s h
        obtain ⟨r, f, hpass, -, hempty, hf⟩ := exists_replace_of_pass (hps pass List.mem_cons_self)
        rw [List.foldlM_cons] at h
        cases hs : pass s with
        | ok u =>
            rw [hs] at h
            exact ih (fun p hp => hps p (List.mem_cons_of_mem _ hp)) u h
        | error e' =>
            rw [hs] at h
            obtain rfl : e' = e := Except.error.inj h
            rw [hpass] at hs
            obtain ⟨gs, hgs⟩ := exists_error_of_replace hempty hs
            exact hf gs e' hgs
  exact herror (passes file) (fun _ h => h) s h

theorem translate_of_runPasses (hs : ¬HasIntroducer s) (h : runPasses file s = .ok t) :
    translate file s = (t, .noError) := by
  have hpasses : (Except.ok s >>= fun s => (passes file).foldlM (fun s pass => pass s) s) =
      .ok t := h
  rw [ProxyCommand.translate, removeComments_eq_self hs, hpasses]

theorem not_fails_iff (hs : ¬HasIntroducer s) : ¬Fails file s ↔ ∃ t, runPasses file s = .ok t := by
  constructor
  · intro hfails
    cases h : runPasses file s with
    | ok t => exact ⟨t, rfl⟩
    | error e =>
        refine absurd ?_ hfails
        have hpasses : (Except.ok s >>= fun s => (passes file).foldlM (fun s pass => pass s) s) =
            .error e := h
        rw [Fails, ProxyCommand.translate, removeComments_eq_self hs, hpasses]
        exact isError_of_runPasses h
  · rintro ⟨t, ht⟩
    rw [Fails, translate_of_runPasses hs ht]
    exact Bool.false_ne_true

theorem separates_runPasses (file : Bytes) : Separates (runPasses file) := by
  refine separates_foldlM fun pass hpass => ?_
  obtain ⟨r, f, rfl, hr, hempty, -⟩ := exists_replace_of_pass hpass
  exact separates_replace hr hempty

theorem translate_append_semicolon (file a b : Bytes) (ha : ¬HasIntroducer a)
    (hb : ¬HasIntroducer b) :
    (Fails file (a ++ 59 :: b) ↔ Fails file a ∨ Fails file b) ∧
      (¬Fails file (a ++ 59 :: b) →
        translate file (a ++ 59 :: b) =
          ((translate file a).1 ++ 59 :: (translate file b).1, .noError)) := by
  have hab := not_hasIntroducer_append ha hb
  have hsplit := separates_runPasses file a b
  constructor
  · rw [← not_iff_not, not_or, not_fails_iff hab, not_fails_iff ha, not_fails_iff hb]
    constructor
    · rintro ⟨t, ht⟩
      obtain ⟨a', b', ha', hb', -⟩ := (hsplit t).mp ht
      exact ⟨⟨a', ha'⟩, b', hb'⟩
    · rintro ⟨⟨a', ha'⟩, b', hb'⟩
      exact ⟨_, (hsplit _).mpr ⟨a', b', ha', hb', rfl⟩⟩
  · intro hfails
    obtain ⟨t, ht⟩ := (not_fails_iff hab).mp hfails
    obtain ⟨a', b', ha', hb', rfl⟩ := (hsplit t).mp ht
    rw [translate_of_runPasses hab ht, translate_of_runPasses ha ha', translate_of_runPasses hb hb']

/-- A command that fails and one that does not. -/
theorem translate_append_semicolon_mismatch :
    let a := utf8 "CREATE ACCESS INHERITANCE FROM a (x) TO b (y, z)"
    let b := utf8 "LIST ACCESS ROLE"
    (Fails [] (a ++ 59 :: b) ↔ Fails [] a ∨ Fails [] b) ∧
      (¬Fails [] (a ++ 59 :: b) →
        translate [] (a ++ 59 :: b) = ((translate [] a).1 ++ 59 :: (translate [] b).1, .noError)) :=
  translate_append_semicolon [] _ _ (by decide +kernel) (by decide +kernel)

end Translate

end PgFort.StatementLists
