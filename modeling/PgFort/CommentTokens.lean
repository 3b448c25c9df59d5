import PgFort.SqlLexer

namespace PgFort.CommentTokens

open PgFort.Framing
open PgFort.Conn
open PgFort.ProxyCommand
open PgFort.CommentRemoval
open PgFort.Scanning
open PgFort.SqlLexer

/-- The removal of comments leaves the tokens of the text as they are. -/
def SameTokens (s : Bytes) : Prop :=
  (removeComments s).map tokens = .ok (tokens s)

section Conditions

/-- The pass removes nothing that begins in the text, with the given rest behind it. -/
def Untouched : Bytes → Bytes → Prop
  | [], _ => True
  | c :: t, rest => afterComment (c :: (t ++ rest)) = none ∧ Untouched t rest

instance decidableUntouched : ∀ t rest, Decidable (Untouched t rest)
  | [], _ => isTrue trivial
  | _ :: t, rest =>
      have := decidableUntouched t rest
      inferInstanceAs (Decidable (_ ∧ _))

def textOf (ps : List Piece) : Bytes := ps.flatMap Piece.text

def nextText (ps : List Piece) : Bytes := ((ps.find? fun p => !p.isComment).map Piece.text).getD []

/-- Without the comments, a string constant would be continued here. -/
def resumes : Bool → List Piece → Bool
  | _, [] => false
  | newline, .blank c :: ps => resumes (newline || isNewline c) ps
  | newline, .lineComment _ :: ps => resumes newline ps
  | newline, .blockComment _ :: ps => resumes newline ps
  | newline, .lexeme _ t _ :: _ => newline && t.head? == some 39
  | newline, .broken t :: _ => newline && t.head? == some 39

/-- What the pass removes is a comment, and no lexeme is read on beyond one. -/
def Harmless (m : Mode) (ps : List Piece) : Piece → Prop
  | .blank _ => True
  | .lineComment _ => True
  | .blockComment t =>
      afterEnd (t.drop 2) = some [] ∧ (∀ l ∈ m, resumes l.2 ps = false)
  | .lexeme _ t q => Untouched t (textOf ps) ∧ stops step q (nextText ps) = true
  | .broken t => Untouched t []

instance (m : Mode) (ps : List Piece) : ∀ p, Decidable (Harmless m ps p)
  | .blank _ => isTrue trivial
  | .lineComment _ => isTrue trivial
  | .blockComment _ => inferInstanceAs (Decidable (_ ∧ _))
  | .lexeme _ _ _ => inferInstanceAs (Decidable (_ ∧ _))
  | .broken t => decidableUntouched t []

/-- No piece does harm where it stands. -/
def Clean : Mode → List Piece → Prop
  | _, [] => True
  | m, p :: ps => Harmless m ps p ∧ Clean (after m p) ps

instance decidableClean : ∀ m ps, Decidable (Clean m ps)
  | _, [] => isTrue trivial
  | m, p :: ps =>
      have := decidableClean (after m p) ps
      inferInstanceAs (Decidable (_ ∧ _))

end Conditions

section Removal

variable {s t rest u : Bytes}

theorem removeComments_append (h : Untouched t rest) :
    removeComments (t ++ rest) = do
      let u ← removeComments rest
      return t ++ u := by
  induction t with
  | nil =>
      simp only [List.nil_append, bind_pure]
  | cons c t ih =>
      rw [List.cons_append, removeComments_cons h.1, ih h.2, bind_assoc]
      simp only [pure_bind, List.cons_append]

theorem removeComments_append_ok (h : Untouched t rest) (hs : removeComments (t ++ rest) = .ok s) :
    ∃ u, removeComments rest = .ok u ∧ s = t ++ u := by
  obtain ⟨u, hu⟩ := exists_removeComments rest
  rw [removeComments_append h, hu] at hs
  exact ⟨u, hu, (Except.ok.inj hs).symm⟩

theorem afterEnd_append (h : afterEnd s = some u) : afterEnd (s ++ rest) = some (u ++ rest) := by
  induction s with
  | nil => exact nomatch h
  | cons c s ih =>
      rw [afterEnd] at h
      rw [List.cons_append, afterEnd]
      cases s with
      | nil => simp [afterEnd] at h
      | cons d s =>
          simp only [List.cons_append, List.cons_prefix_cons, List.nil_prefix, and_true,
            List.drop_succ_cons, List.drop_zero] at h ih ⊢
          split at h
          · rw [if_pos ‹_›]
            rw [← Option.some.inj h]
          · rw [if_neg ‹_›]
            exact ih h

end Removal

section Lexemes

variable {p q : State} {k : Option Literal} {c x y : UInt8} {s t rest rest' : Bytes}

theorem next_ne_none (hp : endsAtComment p = true) (hx : x = 45 ∨ x = 47)
    (hq : next p x = some q) (hy : y = 45 ∨ y = 42) : next q y ≠ none := by
  have hoperator : isOperator 45 = true ∧ isOperator 47 = true ∧ isOperator 42 = true := by
    decide +kernel
  have hstart : start 45 = .operator ∧ start 47 = .operator := by decide +kernel
  obtain ⟨hminus, hslash, hstar⟩ := hoperator
  cases p with
  | initial k =>
      cases k with
      | none =>
          obtain rfl := Option.some.inj hq
          rcases hx with rfl | rfl <;> rcases hy with rfl | rfl <;>
            simp [hstart, next, hminus, hstar]
      | some k =>
          obtain rfl := Option.some.inj hq
          rcases hy with rfl | rfl <;> simp [next]
  | operator =>
      obtain rfl : State.operator = q := by
        rcases hx with rfl | rfl <;> simpa [next, hminus, hslash] using hq
      rcases hy with rfl | rfl <;> simp [next, hminus, hstar]
  | letterUAmp =>
      obtain rfl : State.letterUOperator = q := by
        rcases hx with rfl | rfl <;> simpa [next, hminus, hslash] using hq
      rcases hy with rfl | rfl <;> simp [next, hminus, hstar]
  | letterUOperator =>
      obtain rfl : State.letterUOperator = q := by
        rcases hx with rfl | rfl <;> simpa [next, hminus, hslash] using hq
      rcases hy with rfl | rfl <;> simp [next, hminus, hstar]
  | _ => exact absurd hp Bool.false_ne_true

theorem scan_append_of_nextText (hscan : scan step (.initial k) (t ++ rest) = (t, q, rest))
    (hstops : stops step q rest' = true) (hdashes : ¬[45, 45] <+: rest') :
    scan step (.initial k) (t ++ rest') = (t, q, rest') := by
  refine scan_append_of_stops hscan (fun p x _ hstep => ?_) hstops
  have hnext : next p x = some q := by
    rw [step] at hstep
    split at hstep
    · simp at hstep
    · exact hstep
  rw [step, if_neg, hnext]
  intro hends
  rw [Bool.and_eq_true, introduces_eq_true_iff] at hends
  obtain ⟨hp, hintroduces⟩ := hends
  obtain ⟨y, s, rfl⟩ : ∃ y s, rest' = y :: s := by
    cases rest' with
    | nil => simp at hintroduces
    | cons y s => exact ⟨y, s, rfl⟩
  simp only [List.head?_cons, Option.some.injEq] at hintroduces
  have hx : x = 45 ∨ x = 47 := hintroduces.imp And.left And.left
  have hy : y = 45 ∨ y = 42 := hintroduces.imp And.right And.right
  have hsome := next_ne_none hp hx hnext hy
  rw [stops, step] at hstops
  split at hstops
  · rename_i hintroduces'
    rw [Bool.and_eq_true, introduces_eq_true_iff] at hintroduces'
    rcases hintroduces'.2 with ⟨rfl, hahead⟩ | ⟨rfl, -⟩
    · obtain ⟨s, rfl⟩ := List.head?_eq_some_iff.mp hahead
      exact hdashes (List.prefix_append [45, 45] s)
    · exact absurd hy (by decide)
  · exact hsome (Option.isNone_iff_eq_none.mp hstops)

theorem stops_append (ht : t ≠ []) (h : stops step q t = true) : stops step q (t ++ rest) = true := by
  obtain ⟨x, t, rfl⟩ := List.exists_cons_of_ne_nil ht
  rw [stops, Option.isNone_iff_eq_none] at h
  rw [List.cons_append, stops, Option.isNone_iff_eq_none]
  cases t with
  | cons y t => exact h
  | nil =>
      have hnext : next q x = none := by
        rw [step, if_neg] at h
        · exact h
        · simp [introduces]
      rw [step, hnext, ite_self]

end Lexemes

section Modes

variable {m m' : Mode} {c : UInt8} {t : Bytes} {p : Piece} {ps : List Piece} {q : State} {b : Bool}

/-- The modes in which the pieces are read with the comments and without them. -/
def Agree (m m' : Mode) (ps : List Piece) : Prop :=
  m' = m ∨ m = none ∧ ∀ l ∈ m', resumes l.2 ps = false

theorem agree_blank (h : Agree m m' (.blank c :: ps)) :
    Agree (after m (.blank c)) (after m' (.blank c)) ps := by
  rcases h with rfl | ⟨rfl, h⟩
  · exact .inl rfl
  · refine .inr ⟨rfl, fun l hl => ?_⟩
    obtain ⟨l', hl', rfl⟩ := Option.map_eq_some_iff.mp hl
    exact h l' hl'

theorem agree_lineComment (h : Agree m m' (.lineComment t :: ps)) : Agree m m' ps := by
  rcases h with rfl | h
  · exact .inl rfl
  · exact .inr h

theorem agree_blockComment (h : Agree m m' (.blockComment t :: ps))
    (hm : ∀ l ∈ m, resumes l.2 ps = false) : Agree none m' ps := by
  rcases h with rfl | h
  · exact .inr ⟨rfl, hm⟩
  · exact .inr ⟨rfl, h.2⟩

theorem continuedBy_eq (h : Agree m m' (p :: ps))
    (hp : ∀ newline, resumes newline (p :: ps) = (newline && p.text.head? == some 39))
    (ht : p.text.head? = some c) : continuedBy m' c = continuedBy m c := by
  rcases h with rfl | ⟨rfl, h⟩
  · rfl
  · rw [continuedBy, continuedBy]
    split
    · rename_i hc
      cases m' with
      | none => rfl
      | some l =>
          have hl := h l rfl
          rw [hp, ht, hc, beq_self_eq_true, Bool.and_true] at hl
          simp [hl]
    · rfl

end Modes

section Pieces

variable {m m' : Mode} {n k : Nat} {s t u rest : Bytes} {p : Piece} {ps : List Piece}

theorem piecesUpTo_of_reads (h : Reads m s p rest) :
    piecesUpTo (n + 1) m s = p :: piecesUpTo n (after m p) rest := by
  rw [piecesUpTo, first_of_reads h]

theorem textOf_piecesUpTo (hn : s.length ≤ n) : textOf (piecesUpTo n m s) = s := by
  induction n generalizing m s with
  | zero =>
      obtain rfl := List.length_eq_zero_iff.mp (Nat.le_zero.mp hn)
      rfl
  | succ n ih =>
      rw [piecesUpTo]
      cases hfirst : first m s with
      | none =>
          rw [first_eq_none_iff.mp hfirst]
          rfl
      | some r =>
          have hless := length_lt_of_first hfirst
          have htext := text_append_of_reads (reads_of_first hfirst)
          rw [textOf, List.flatMap_cons]
          exact (congrArg _ (ih (by omega))).trans htext.symm

theorem nextText_filter : nextText (ps.filter fun p => !p.isComment) = nextText ps := by
  rw [nextText, nextText, ← List.head?_filter, ← List.head?_filter, List.filter_filter]
  simp

theorem stops_of_nextText {q : State} (hk : u.length ≤ k)
    (hpieces : ∀ p ∈ piecesUpTo k m u, p.isComment = false)
    (hstops : stops step q (nextText (piecesUpTo k m u)) = true) :
    stops step q u = true ∧ ¬[45, 45] <+: u := by
  cases k with
  | zero =>
      obtain rfl := List.length_eq_zero_iff.mp (Nat.le_zero.mp hk)
      exact ⟨rfl, by simp⟩
  | succ k =>
      rw [piecesUpTo] at hpieces hstops
      cases hfirst : first m u with
      | none =>
          rw [first_eq_none_iff.mp hfirst]
          exact ⟨rfl, by simp⟩
      | some r =>
          rw [hfirst] at hpieces hstops
          have hreads := reads_of_first hfirst
          have hp := hpieces r.1 List.mem_cons_self
          rw [nextText, List.find?_cons_of_pos (by simp [hp])] at hstops
          constructor
          · rw [text_append_of_reads hreads]
            exact stops_append (text_ne_nil_of_reads hreads) hstops
          · rintro ⟨s, rfl⟩
            have hline := first_of_reads (Reads.lineComment (m := m) s)
            obtain rfl := Option.some.inj (hfirst.symm.trans hline)
            exact nomatch hp

theorem removeComments_lineComment (s : Bytes) :
    removeComments (45 :: 45 :: s) = removeComments (s.dropWhile inLine) :=
  removeComments_of_comment (by simp [afterComment])

theorem removeComments_blockComment (hs : 47 :: 42 :: s = t ++ rest)
    (ht : afterEnd (t.drop 2) = some []) : removeComments (47 :: 42 :: s) = removeComments rest := by
  refine removeComments_of_comment ?_
  have hdrop : s = t.drop 2 ++ rest := by
    rcases t with _ | ⟨x, _ | ⟨y, t⟩⟩
    · exact nomatch ht
    · exact nomatch ht
    · exact (List.cons.inj (List.cons.inj hs).2).2
  rw [afterComment, if_neg (by simp), if_pos (by simp), List.drop_succ_cons, List.drop_succ_cons,
    List.drop_zero, hdrop, afterEnd_append ht, List.nil_append]

theorem piecesUpTo_nil : piecesUpTo n m [] = [] := by
  cases n with
  | zero => rfl
  | succ n => rfl

theorem afterComment_blank {c : UInt8} (hc : isBlank c = true) : afterComment (c :: s) = none := by
  have hminus : 45 ≠ c := by
    rintro rfl
    exact absurd hc (by decide)
  have hslash : 47 ≠ c := by
    rintro rfl
    exact absurd hc (by decide)
  simp [afterComment, List.cons_prefix_cons, hminus, hslash]

theorem introduces_of_scan {c : UInt8} {q : State} {l : Option Literal}
    (h : scan step (.initial l) (c :: s) = (c :: t, q, rest)) : introduces c s.head? = false := by
  by_contra hintroduces
  have hstep : step (.initial l) c s.head? = none := by
    rw [step, if_pos]
    rw [endsAtComment, Bool.true_and]
    exact Bool.not_eq_false _ ▸ hintroduces
  rw [scan, hstep] at h
  exact absurd (congrArg Prod.fst h) (List.cons_ne_nil _ _).symm

theorem reads_lexeme_append {c : UInt8} {q : State} (hc : isBlank c = false)
    (hscan : scan step (.initial (continuedBy m c)) (c :: s) = (t, q, rest))
    (hs : introduces c s.head? = false) (hq : accepts q = true)
    (hsame : continuedBy m' c = continuedBy m c) (hstops : stops step q u = true)
    (hdashes : ¬[45, 45] <+: u) :
    Reads m' (t ++ u) (.lexeme (continuedBy m c).isSome t q) u := by
  have hreads := Reads.lexeme c s t rest q hc hs hscan hq
  have htext : c :: s = t ++ rest := text_append_of_reads hreads
  obtain ⟨x, t, rfl⟩ := List.exists_cons_of_ne_nil (text_ne_nil_of_reads hreads)
  obtain rfl : c = x := (List.cons.inj htext).1
  rw [htext] at hscan
  have hscan' := scan_append_of_nextText hscan hstops hdashes
  rw [← hsame] at hscan' ⊢
  exact .lexeme c (t ++ u) (c :: t) u q hc (introduces_of_scan hscan') hscan' hq

theorem reads_lexeme_of_pieces {c : UInt8} {q : State} (hc : isBlank c = false)
    (hscan : scan step (.initial (continuedBy m c)) (c :: s) = (t, q, rest))
    (hs : introduces c s.head? = false) (hq : accepts q = true)
    (hm : Agree m m' (.lexeme (continuedBy m c).isSome t q :: ps)) (hk : u.length ≤ k)
    (hpieces : piecesUpTo k (after m (.lexeme (continuedBy m c).isSome t q)) u =
      ps.filter fun p => !p.isComment)
    (hstops : stops step q (nextText ps) = true) :
    Reads m' (t ++ u) (.lexeme (continuedBy m c).isSome t q) u := by
  have hreads := Reads.lexeme c s t rest q hc hs hscan hq
  have hkept : ∀ p ∈ piecesUpTo k (after m (.lexeme (continuedBy m c).isSome t q)) u,
      p.isComment = false := by
    intro p hp
    rw [hpieces] at hp
    simpa using (List.mem_filter.mp hp).2
  rw [← nextText_filter, ← hpieces] at hstops
  obtain ⟨hstops, hdashes⟩ := stops_of_nextText hk hkept hstops
  have hsame : continuedBy m' c = continuedBy m c := by
    refine continuedBy_eq hm (fun _ => rfl) ?_
    have htext : c :: s = t ++ rest := text_append_of_reads hreads
    rw [Piece.text, ← List.head?_append_of_ne_nil t (text_ne_nil_of_reads hreads), ← htext]
    rfl
  exact reads_lexeme_append hc hscan hs hq hsame hstops hdashes

theorem after_lexeme {b : Bool} {q : State} :
    after m' (.lexeme b t q) = after m (.lexeme b t q) := by
  cases q <;> rfl

theorem pieces_of_broken (hk : t.length ≤ k) (h : Reads m s (.broken s) [])
    (huntouched : Untouched s []) (ht : removeComments s = .ok t) : piecesUpTo k m t = [.broken s] := by
  rw [← List.append_nil s] at ht
  obtain ⟨u, hu, hs⟩ := removeComments_append_ok huntouched ht
  obtain rfl := Except.ok.inj (removeComments_nil.symm.trans hu)
  rw [List.append_nil] at hs
  subst hs
  cases k with
  | zero =>
      have hs := text_ne_nil_of_reads h
      exact absurd (List.length_eq_zero_iff.mp (Nat.le_zero.mp hk)) hs
  | succ k => rw [piecesUpTo_of_reads h, piecesUpTo_nil]

/-- Without its comments, a text has the same pieces but the comments. -/
theorem pieces_of_clean (hn : s.length ≤ n) (hclean : Clean m (piecesUpTo n m s))
    (hm : Agree m m' (piecesUpTo n m s)) (ht : removeComments s = .ok t) (hk : t.length ≤ k) :
    piecesUpTo k m' t = (piecesUpTo n m s).filter fun p => !p.isComment := by
  induction n generalizing m m' s t k with
  | zero =>
      obtain rfl := List.length_eq_zero_iff.mp (Nat.le_zero.mp hn)
      obtain rfl := Except.ok.inj ht
      cases k with
      | zero => rfl
      | succ k => rfl
  | succ n ih =>
      cases hfirst : first m s with
      | none =>
          obtain rfl := first_eq_none_iff.mp hfirst
          obtain rfl := Except.ok.inj ht
          cases k with
          | zero => rfl
          | succ k => rfl
      | some r =>
          obtain ⟨p, rest⟩ := r
          have hreads := reads_of_first hfirst
          have hless := length_lt_of_first hfirst
          have hrest : rest.length ≤ n := by omega
          rw [piecesUpTo_of_reads hreads] at hclean hm ⊢
          obtain ⟨hharmless, hclean⟩ := hclean
          cases hreads with
          | blank c s hc =>
              obtain ⟨u, hu, rfl⟩ := removeComments_append_ok (t := [c])
                ⟨afterComment_blank hc, trivial⟩ ht
              rw [List.length_append] at hk
              cases k with
              | zero => simp at hk
              | succ k =>
                  have hu' : u.length ≤ k := by simpa [Nat.add_comm] using hk
                  rw [List.singleton_append, piecesUpTo_of_reads (.blank c u hc),
                    ih hrest hclean (agree_blank hm) hu hu']
                  rfl
          | lineComment s =>
              rw [removeComments_lineComment] at ht
              exact ih hrest hclean (agree_lineComment hm) ht hk
          | blockComment s t' rest hend hs =>
              rw [removeComments_blockComment hs hharmless.1] at ht
              exact ih hrest hclean (agree_blockComment hm hharmless.2) ht hk
          | unclosed s hend =>
              rw [piecesUpTo_nil]
              exact pieces_of_broken hk (.unclosed s hend) hharmless ht
          | lexeme c s t' rest q hc hs hscan hq =>
              have hreads := Reads.lexeme c s t' rest q hc hs hscan hq
              obtain ⟨huntouched, hstops⟩ := hharmless
              rw [textOf_piecesUpTo hrest] at huntouched
              rw [text_append_of_reads hreads] at ht
              obtain ⟨u, hu, rfl⟩ := removeComments_append_ok huntouched ht
              have hpos := List.length_pos_iff.mpr (text_ne_nil_of_reads hreads)
              rw [Piece.text] at hpos
              rw [List.length_append] at hk
              cases k with
              | zero => omega
              | succ k =>
                  have hpieces := ih hrest hclean (.inl rfl) hu (by omega : u.length ≤ k)
                  have hreads' := reads_lexeme_of_pieces hc hscan hs hq hm (by omega) hpieces hstops
                  change piecesUpTo (k + 1) m' (t' ++ u) = _
                  rw [piecesUpTo_of_reads hreads', after_lexeme, hpieces]
                  rfl
          | broken c s hc hs hq =>
              have hsame := continuedBy_eq (c := c) hm (fun _ => rfl) rfl
              rw [piecesUpTo_nil]
              exact pieces_of_broken hk (.broken c s hc hs (hsame ▸ hq)) hharmless ht

end Pieces

section Tokens

variable {ps : List Piece} {ts : List Token}

theorem add_comment {p : Piece} (h : p.isComment = true) : add ts p = some ts := by
  cases p with
  | lineComment t => cases ts <;> rfl
  | blockComment t => cases ts <;> rfl
  | _ => exact nomatch h

theorem foldlM_add_filter :
    (ps.filter fun p => !p.isComment).foldlM add ts = ps.foldlM add ts := by
  induction ps generalizing ts with
  | nil => rfl
  | cons p ps ih =>
      cases hp : p.isComment with
      | true =>
          rw [List.filter_cons_of_neg (by simp [hp]), List.foldlM_cons, add_comment hp, ih]
          rfl
      | false =>
          rw [List.filter_cons_of_pos (by simp [hp]), List.foldlM_cons, List.foldlM_cons]
          exact bind_congr fun ts => ih

end Tokens

theorem sameTokens_of_clean (s : Bytes) (h : Clean none (pieces s)) : SameTokens s := by
  obtain ⟨t, ht⟩ := exists_removeComments s
  have hpieces : pieces t = (pieces s).filter fun p => !p.isComment :=
    pieces_of_clean le_rfl h (.inl rfl) ht le_rfl
  have htokens : tokens t = tokens s := by rw [tokens, tokens, hpieces, foldlM_add_filter]
  rw [SameTokens, ht]
  exact congrArg Except.ok htokens

/-- Comments of both kinds, and a literal without any. -/
theorem sameTokens_of_clean_comments :
    SameTokens (utf8 "SELECT 'a' /* x */ -- y\nFROM t") :=
  sameTokens_of_clean _ (by decide +kernel)

/-- The end of the literal is lost. -/
theorem not_sameTokens_literal : ¬SameTokens (utf8 "SELECT 'a--b'") := by
  have hremoved : removeComments (utf8 "SELECT 'a--b'") = .ok (utf8 "SELECT 'a") := by rfl
  have htokens : tokens (utf8 "SELECT 'a") ≠ tokens (utf8 "SELECT 'a--b'") := by decide +kernel
  intro h
  rw [SameTokens, hremoved] at h
  exact htokens (Except.ok.inj h)

end PgFort.CommentTokens
