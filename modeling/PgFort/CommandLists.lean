import PgFort.CommandTexts

namespace PgFort.CommandLists

open PgFort.Framing
open PgFort.Conn
open PgFort.Regexes
open PgFort.FirstWays
open PgFort.ProxyCommand
open PgFort.CommandLayouts
open PgFort.CommandShapes
open PgFort.CommandTexts

/-- No white space stands in front of a comma. -/
def Attached (ws : List Listed) : Prop := ∀ w ∈ ws, w.before.bytes = []

def columnsOf (first : Word) (ws : List Listed) : Columns :=
  ⟨first, ws.map fun w => (w.behind, w.word)⟩

def lowerColumns (cols : Columns) : Columns :=
  ⟨lowerWord cols.first, cols.others.map fun i => (i.1, lowerWord i.2)⟩

def quotedParts (cols : Columns) : List Part :=
  [.text [39], .word cols.first, .text [39], .quotedOthers cols.others]

section Columns

variable {first : Word} {ws : List Listed}

theorem flatMap_item (h : Attached ws) :
    (ws.map fun w => (w.behind, w.word)).flatMap Columns.item = ws.flatMap Listed.bytes := by
  induction ws with
  | nil => rfl
  | cons w ws ih =>
      obtain ⟨hw, hws⟩ := List.forall_mem_cons.mp h
      rw [List.map_cons, List.flatMap_cons, List.flatMap_cons, ih hws, Columns.item, Listed.bytes,
        hw, List.nil_append]

theorem text_columnsOf (h : Attached ws) :
    (columnsOf first ws).text = first.bytes ++ ws.flatMap Listed.bytes := by
  rw [Columns.text, columnsOf, flatMap_item h]

theorem lower_append (s t : Bytes) : lower (s ++ t) = lower s ++ lower t := List.map_append

theorem lower_eq_self {s : Bytes} (h : ∀ c ∈ s, isSpace c = true) : lower s = s := by
  have hall : (allBytes.all fun c => !isSpace c || toLower c == c) = true := by decide +kernel
  refine (List.map_congr_left fun c hc => ?_).trans (List.map_id s)
  have hc' := List.all_eq_true.mp hall c (mem_allBytes c)
  simpa [h c hc] using hc'

theorem lower_text (cols : Columns) : lower cols.text = (lowerColumns cols).text := by
  have hitem (i : Gap × Word) : lower (Columns.item i) = Columns.item (i.1, lowerWord i.2) := by
    change 44 :: lower (i.1.bytes ++ i.2.bytes) = _
    rw [lower_append, lower_eq_self i.1.space]
    rfl
  have hitems : ∀ others : List (Gap × Word), lower (others.flatMap Columns.item) =
      (others.map fun i => (i.1, lowerWord i.2)).flatMap Columns.item := by
    intro others
    induction others with
    | nil => rfl
    | cons i others ih =>
        rw [List.flatMap_cons, lower_append, hitem, ih, List.map_cons, List.flatMap_cons]
  rw [Columns.text, lower_append, hitems]
  rfl

end Columns

section Quotes

def putQuotes (gs : Groups UInt8) : Except Conn.Error Bytes := .ok (format gs (utf8 "'$1'"))

theorem quoteWords_eq (s : Bytes) : quoteWords s = replace (word 1) putQuotes s := rfl

theorem not_nullable_word : (word 1).nullable = false := rfl

theorem replace_word (w : Word) {rest rest' : Bytes} (hrest : NoStart isWord rest)
    (h : replace (word 1) putQuotes rest = .ok rest') :
    replace (word 1) putQuotes (w.bytes ++ rest) = .ok (39 :: (w.bytes ++ 39 :: rest')) := by
  have hmatch := matchHere_of_first (first_of_spelled (.word 1 w)) hrest
  have hquotes : format [(1, w.bytes)] (utf8 "'$1'") = 39 :: (w.bytes ++ [39]) := by
    have htpl : utf8 "'$1'" = [39, 36, 49, 39] := by decide +kernel
    rw [htpl]
    rfl
  change matchHere (word 1) _ = _ at hmatch
  rw [replace_of_matchHere not_nullable_word hmatch, h]
  change Except.ok (format [(1, w.bytes)] (utf8 "'$1'") ++ rest') = _
  rw [hquotes, List.cons_append, List.append_assoc, List.singleton_append]

theorem replace_separator {sep rest rest' : Bytes} (hsep : ∀ c ∈ sep, isWord c = false)
    (h : replace (word 1) putQuotes rest = .ok rest') :
    replace (word 1) putQuotes (sep ++ rest) = .ok (sep ++ rest') := by
  have hunmatched : Unmatched (word 1) sep rest := by
    intro a u hsplit hu
    obtain ⟨c, u, rfl⟩ := List.exists_cons_of_ne_nil hu
    refine matchHere_eq_none fun t v ht heq => ?_
    obtain ⟨hne, hword⟩ := takes_plus.mp ht
    obtain ⟨x, t, rfl⟩ := List.exists_cons_of_ne_nil hne
    obtain ⟨rfl, -⟩ := List.cons.inj heq
    have hnot := hsep c (hsplit ▸ by simp)
    exact absurd (hword c List.mem_cons_self) (by simp [hnot])
  rw [replace_of_unmatched not_nullable_word hunmatched, h]
  rfl

theorem replace_items (others : List (Gap × Word)) :
    replace (word 1) putQuotes (others.flatMap Columns.item) =
      .ok (others.flatMap Part.quotedBytes) := by
  induction others with
  | nil => rfl
  | cons i others ih =>
      have hsep : ∀ c ∈ 44 :: i.1.bytes, isWord c = false :=
        List.forall_mem_cons.mpr ⟨by decide, fun c hc => not_isWord_of_isSpace (i.1.space c hc)⟩
      have hitem := replace_separator hsep (replace_word i.2 (noStart_items others) ih)
      have htext : (i :: others).flatMap Columns.item =
          (44 :: i.1.bytes) ++ (i.2.bytes ++ others.flatMap Columns.item) := by
        rw [List.flatMap_cons, Columns.item, List.cons_append, List.append_assoc, List.cons_append]
      rw [htext, hitem, List.flatMap_cons, Part.quotedBytes]
      simp only [List.cons_append, List.append_assoc, List.nil_append]

theorem quoteWords_text (cols : Columns) :
    quoteWords cols.text = .ok (textOf (quotedParts cols)) := by
  rw [quoteWords_eq, Columns.text, replace_word cols.first (noStart_items _) (replace_items _)]
  simp only [quotedParts, textOf, Part.bytes, List.cons_append, List.nil_append, List.append_nil]

theorem quoteWords_lower (cols : Columns) :
    quoteWords (lower cols.text) = .ok (textOf (quotedParts (lowerColumns cols))) := by
  rw [lower_text, quoteWords_text]

end Quotes

section Strip

theorem strip_append (s t : Bytes) : strip (s ++ t) = strip s ++ strip t := List.filter_append ..

theorem strip_space {s : Bytes} (h : ∀ c ∈ s, isSpace c = true) : strip s = [] := by
  rw [strip, List.filter_eq_nil_iff]
  intro c hc
  simp [h c hc]

theorem strip_word (w : Word) : strip w.bytes = w.bytes := by
  rw [strip, List.filter_eq_self]
  intro c hc
  simp [isSpace_of_isWord (w.word c hc)]

theorem strip_cons {c : UInt8} (hc : isSpace c = false) (s : Bytes) :
    strip (c :: s) = c :: strip s := by
  rw [strip, List.filter_cons_of_pos (by simp [hc])]
  rfl

theorem strip_quoted (w : Word) (s : Bytes) :
    strip (39 :: ((lowerWord w).bytes ++ 39 :: s)) = quote w ++ strip s := by
  rw [strip_cons (by decide), strip_append, strip_word, strip_cons (by decide), quote,
    List.cons_append, List.append_assoc]
  rfl

theorem strip_quotedParts {q : Option Query} (l : Layout q) (n : ℕ) (ns : Names) :
    strip (textOf (quotedParts (lowerColumns (columnsOf ns.first (l.listed n ns.others))))) =
      ns.quoted := by
  have hothers : ∀ (ws : List Word) (g : ℕ → Gap × Gap),
      strip ((((ws.mapIdx fun i w => Listed.mk (g i).1 (g i).2 w).map fun w =>
        (w.behind, w.word)).map fun i => (i.1, lowerWord i.2)).flatMap Part.quotedBytes) =
          ws.flatMap fun w => 44 :: quote w := by
    intro ws
    induction ws with
    | nil => exact fun g => rfl
    | cons w ws ih =>
        intro g
        rw [List.mapIdx_cons, List.map_cons, List.map_cons, List.flatMap_cons, Part.quotedBytes,
          List.cons_append, strip_cons (by decide), List.append_assoc, strip_append,
          strip_space (g 0).2.space, List.nil_append, List.cons_append, List.append_assoc,
          List.singleton_append, strip_quoted, ih fun i => g (i + 1), List.flatMap_cons]
        rfl
  have htext : textOf (quotedParts (lowerColumns (columnsOf ns.first (l.listed n ns.others)))) =
      39 :: ((lowerWord ns.first).bytes ++ 39 ::
        (lowerColumns (columnsOf ns.first (l.listed n ns.others))).others.flatMap
          Part.quotedBytes) := by
    simp only [quotedParts, textOf, Part.bytes, List.cons_append, List.nil_append, List.append_nil]
    rfl
  rw [htext, strip_quoted, Names.quoted]
  exact congrArg (quote ns.first ++ ·) (hothers ns.others (l.commas n))

end Strip

end PgFort.CommandLists
