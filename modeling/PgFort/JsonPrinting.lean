import Mathlib.Tactic.IntervalCases
import PgFort.JsonText

namespace PgFort.JsonPrinting

open PgFort.JsonTree
open PgFort.JsonTree.Json
open PgFort.JsonText

def hexChar (n : Nat) : Char :=
  if n < 10 then Char.ofNat (n + '0'.toNat) else Char.ofNat (n - 10 + 'a'.toNat)

/-- A character in a string. -/
def escape (c : Char) : List Char :=
  if c = '"' then ['\\', '"']
  else if c = '\\' then ['\\', '\\']
  else if c = '\x08' then ['\\', 'b']
  else if c = '\x0c' then ['\\', 'f']
  else if c = '\n' then ['\\', 'n']
  else if c = '\r' then ['\\', 'r']
  else if c = '\t' then ['\\', 't']
  else if c.toNat < 0x20 then ['\\', 'u', '0', '0', hexChar (c.toNat / 16), hexChar (c.toNat % 16)]
  else [c]

def quoted (s : String) : List Char :=
  '"' :: (s.toList.flatMap escape ++ ['"'])

section Printing

variable (fill : List Char)

mutual

/-- The text of a value. -/
def print : Json → List Char
  | .null => "null".toList
  | .bool true => "true".toList
  | .bool false => "false".toList
  | .num w => w.toList
  | .str s => quoted s
  | .arr [] => ['[', ']']
  | .arr (x :: xs) => '[' :: (print x ++ printElems xs)
  | .obj [] => ['\x7b', '\x7d']
  | .obj ((k, v) :: ms) => '\x7b' :: (quoted k ++ ':' :: (fill ++ (print v ++ printMembers ms)))

/-- The elements after the first, up to the closing bracket. -/
def printElems : List Json → List Char
  | [] => [']']
  | x :: xs => ',' :: (fill ++ (print x ++ printElems xs))

def printMembers : List (String × Json) → List Char
  | [] => ['\x7d']
  | (k, v) :: ms =>
      ',' :: (fill ++ (quoted k ++ ':' :: (fill ++ (print v ++ printMembers ms))))

end

end Printing

mutual

/-- The names of members and the strings, at any depth. -/
def strings : Json → List String
  | .str s => [s]
  | .arr xs => stringsOfElems xs
  | .obj ms => stringsOfMembers ms
  | _ => []

def stringsOfElems : List Json → List String
  | [] => []
  | x :: xs => strings x ++ stringsOfElems xs

def stringsOfMembers : List (String × Json) → List String
  | [] => []
  | (k, v) :: ms => k :: (strings v ++ stringsOfMembers ms)

end

section Words

variable {c : Char} {cs : List Char}

/-- What a word is made of, for the lexer. -/
def Wordy (c : Char) : Prop :=
  c ≠ '"' ∧ isSpace c = false ∧ punctuation c = none

instance : DecidablePred Wordy := fun c =>
  inferInstanceAs (Decidable (c ≠ '"' ∧ isSpace c = false ∧ punctuation c = none))

/-- Where a word ends. -/
def Delimits (c : Char) : Prop :=
  isSpace c = true ∨ (punctuation c).isSome = true

def isNumeric (c : Char) : Bool :=
  c.isDigit || c == '-' || c == '+' || c == '.' || c == 'e' || c == 'E'

theorem wordy_of_isNumeric (h : isNumeric c = true) : Wordy c ∧ c ≠ '\'' := by
  have hne : ∀ d, isNumeric d = false → c ≠ d := by
    rintro d hd rfl
    exact absurd (h.symm.trans hd) (by simp)
  have hspace : isSpace c = false := by
    simp only [isSpace, Bool.or_eq_false_iff, beq_eq_false_iff_ne]
    exact ⟨⟨⟨hne _ (by decide), hne _ (by decide)⟩, hne _ (by decide)⟩, hne _ (by decide)⟩
  refine ⟨⟨hne _ (by decide), hspace, ?_⟩, hne _ (by decide)⟩
  rw [punctuation, if_neg (hne _ (by decide)), if_neg (hne _ (by decide)),
    if_neg (hne _ (by decide)), if_neg (hne _ (by decide)), if_neg (hne _ (by decide)),
    if_neg (hne _ (by decide))]

theorem isNumeric_of_isDigit (h : c.isDigit = true) : isNumeric c = true := by
  simp [isNumeric, h]

theorem isNumeric_of_isDigits (h : isDigits cs = true) : ∀ c ∈ cs, isNumeric c = true := by
  cases cs with
  | nil => exact absurd h (by decide)
  | cons d cs => exact fun c hc => isNumeric_of_isDigit (List.all_eq_true.mp h c hc)

theorem isNumeric_of_isExponent (h : isExponent cs = true) : ∀ c ∈ cs, isNumeric c = true := by
  cases cs with
  | nil => simp
  | cons e cs =>
      rw [isExponent.eq_def, Bool.and_eq_true] at h
      obtain ⟨he, hcs⟩ := h
      have hrest : ∀ c ∈ cs, isNumeric c = true := by
        split at hcs
        · exact List.forall_mem_cons.mpr ⟨by decide, isNumeric_of_isDigits hcs⟩
        · exact List.forall_mem_cons.mpr ⟨by decide, isNumeric_of_isDigits hcs⟩
        · exact isNumeric_of_isDigits hcs
      refine List.forall_mem_cons.mpr ⟨?_, hrest⟩
      rw [Bool.or_eq_true, beq_iff_eq, beq_iff_eq] at he
      obtain rfl | rfl := he
      · decide
      · decide

theorem isNumeric_of_dropWhile (h : ∀ c ∈ cs.dropWhile Char.isDigit, isNumeric c = true) :
    ∀ c ∈ cs, isNumeric c = true := by
  intro c hc
  rw [← List.takeWhile_append_dropWhile (p := Char.isDigit) (l := cs), List.mem_append] at hc
  rcases hc with hc | hc
  · exact isNumeric_of_isDigit (List.all_eq_true.mp List.all_takeWhile c hc)
  · exact h c hc

theorem isNumeric_of_isFraction (h : isFraction cs = true) : ∀ c ∈ cs, isNumeric c = true := by
  rw [isFraction.eq_def] at h
  split at h
  · rw [Bool.and_eq_true] at h
    exact List.forall_mem_cons.mpr
      ⟨by decide, isNumeric_of_dropWhile (isNumeric_of_isExponent h.2)⟩
  · exact isNumeric_of_isExponent h

theorem isNumeric_of_isNumber {w : String} (h : isNumber w = true) :
    ∀ c ∈ w.toList, isNumeric c = true := by
  have hdigits : ∀ c ∈ (if w.toList.head? = some '-' then w.toList.tail else w.toList),
      isNumeric c = true := by
    rw [isNumber] at h
    split at h
    · rename_i rest hrest
      rw [hrest]
      exact List.forall_mem_cons.mpr ⟨by decide, isNumeric_of_isFraction h⟩
    · rw [Bool.and_eq_true] at h
      exact isNumeric_of_dropWhile (isNumeric_of_isFraction h.2)
  cases hw : w.toList with
  | nil => simp
  | cons d cs =>
      rw [hw] at hdigits
      by_cases hd : d = '-'
      · subst hd
        exact List.forall_mem_cons.mpr ⟨by decide, hdigits⟩
      · rw [List.head?_cons, if_neg (fun heq => hd (Option.some.inj heq))] at hdigits
        exact hdigits

theorem ne_nil_of_isNumber {w : String} (h : isNumber w = true) : w.toList ≠ [] := by
  intro hw
  rw [isNumber, hw] at h
  exact absurd h (by decide)

theorem lexOutside_of_wordy (h : Wordy c) (pending : Option (List Char)) :
    lexOutside pending c = ([], .word (c :: pending.getD [])) := by
  rw [lexOutside, h.2.1, if_neg Bool.false_ne_true, if_neg h.1, h.2.2]

theorem ne_quote_of_delimits (h : Delimits c) : c ≠ '"' := by
  rintro rfl
  rcases h with h | h
  · exact absurd h (by decide)
  · exact absurd h (by decide)

theorem lexOutside_of_delimits (h : Delimits c) (acc : List Char) :
    lexOutside (some acc) c =
      (.word (String.ofList acc.reverse) :: (lexOutside none c).1, (lexOutside none c).2) := by
  rw [lexOutside, lexOutside]
  by_cases hspace : isSpace c = true
  · rw [if_pos hspace, if_pos hspace]
    rfl
  · obtain ⟨t, ht⟩ := Option.isSome_iff_exists.mp (h.resolve_left hspace)
    rw [if_neg hspace, if_neg hspace, if_neg (ne_quote_of_delimits h),
      if_neg (ne_quote_of_delimits h), ht]
    rfl

theorem scan_word (h : ∀ d ∈ cs, Wordy d) (hc : Delimits c) (acc rest : List Char) :
    scan (.word acc) (cs ++ c :: rest) =
      (.word (String.ofList (acc.reverse ++ cs)) :: (scan .idle (c :: rest)).1,
        (scan .idle (c :: rest)).2) := by
  induction cs generalizing acc with
  | nil =>
      rw [List.nil_append, List.append_nil, scan, scan]
      simp only [lexStep, lexOutside_of_delimits hc, List.cons_append]
  | cons d cs ih =>
      rw [List.forall_mem_cons] at h
      rw [List.cons_append, scan]
      simp only [lexStep, lexOutside_of_wordy h.1, Option.getD_some, List.nil_append]
      rw [ih h.2, List.reverse_cons, List.append_assoc]
      rfl

theorem scan_idle_word {w : String} (hne : w.toList ≠ []) (h : ∀ d ∈ w.toList, Wordy d)
    (hc : Delimits c) (rest : List Char) :
    scan .idle (w.toList ++ c :: rest) =
      (.word w :: (scan .idle (c :: rest)).1, (scan .idle (c :: rest)).2) := by
  obtain ⟨d, cs, hw⟩ := List.exists_cons_of_ne_nil hne
  rw [hw, List.forall_mem_cons] at h
  have hscan := scan_word h.2 hc [d] rest
  rw [List.reverse_singleton, List.singleton_append, ← hw, String.ofList_toList] at hscan
  rw [hw, List.cons_append, scan]
  simp only [lexStep, lexOutside_of_wordy h.1, Option.getD_none, List.nil_append]
  exact hscan

end Words

section Strings

theorem scan_escape_of_special {c : Char} (h : isSpecial c = true) (acc rest : List Char) :
    scan (.str acc) (escape c ++ rest) = scan (.str (c :: acc)) rest := by
  have hcontrol : ∀ n < 32, ∀ d, d = Char.ofNat n →
      scan (.str acc) (escape d ++ rest) = scan (.str (d :: acc)) rest := by
    rintro n hn d rfl
    interval_cases n <;> rfl
  rw [isSpecial, Bool.or_eq_true, Bool.or_eq_true, beq_iff_eq, beq_iff_eq, decide_eq_true_iff] at h
  obtain (rfl | rfl) | hc := h
  · rfl
  · rfl
  · exact hcontrol c.toNat hc c (Char.ofNat_toNat c).symm

theorem escape_of_not_special {c : Char} (h : isSpecial c = false) : escape c = [c] := by
  have hne : ∀ d, isSpecial d = true → c ≠ d := by
    rintro d hd rfl
    exact absurd (hd.symm.trans h) (by simp)
  have hcontrol : ¬ c.toNat < 0x20 := by
    simp only [isSpecial, Bool.or_eq_false_iff, decide_eq_false_iff_not] at h
    exact h.2
  rw [escape, if_neg (hne _ (by decide)), if_neg (hne _ (by decide)), if_neg (hne _ (by decide)),
    if_neg (hne _ (by decide)), if_neg (hne _ (by decide)), if_neg (hne _ (by decide)),
    if_neg (hne _ (by decide)), if_neg hcontrol]

theorem scan_escape (c : Char) (acc rest : List Char) :
    scan (.str acc) (escape c ++ rest) = scan (.str (c :: acc)) rest := by
  cases h : isSpecial c with
  | true => exact scan_escape_of_special h acc rest
  | false =>
      rw [escape_of_not_special h, List.singleton_append, scan, lexStep_str_of_not_special acc h]
      rfl

theorem scan_escapes (cs acc rest : List Char) :
    scan (.str acc) (cs.flatMap escape ++ rest) = scan (.str (cs.reverse ++ acc)) rest := by
  induction cs generalizing acc with
  | nil => rfl
  | cons c cs ih =>
      rw [List.flatMap_cons, List.append_assoc, scan_escape, ih, List.reverse_cons,
        List.append_assoc]
      rfl

theorem scan_quoted (s : String) (rest : List Char) :
    scan .idle (quoted s ++ rest) = (.str s :: (scan .idle rest).1, (scan .idle rest).2) := by
  rw [quoted, List.cons_append, List.append_assoc, scan]
  simp only [show lexStep .idle '"' = ([], .str []) from rfl, List.nil_append]
  rw [scan_escapes, List.singleton_append, scan]
  simp [lexStep]

theorem mem_escape_apostrophe {c : Char} : '\'' ∈ escape c ↔ c = '\'' := by
  cases h : isSpecial c with
  | true =>
      have hcontrol : ∀ n < 32, '\'' ∉ escape (Char.ofNat n) := by decide +kernel
      rw [isSpecial, Bool.or_eq_true, Bool.or_eq_true, beq_iff_eq, beq_iff_eq,
        decide_eq_true_iff] at h
      obtain (rfl | rfl) | hc := h
      · decide
      · decide
      · refine iff_of_false ?_ ?_
        · rw [← Char.ofNat_toNat c]
          exact hcontrol _ hc
        · rintro rfl
          exact absurd hc (by decide)
  | false => rw [escape_of_not_special h, List.mem_singleton, eq_comm]

theorem mem_quoted_apostrophe {s : String} : '\'' ∈ quoted s ↔ '\'' ∈ s.toList := by
  have hquote : '\'' ≠ '"' := by decide
  simp only [quoted, List.mem_cons, List.mem_append, List.mem_flatMap, mem_escape_apostrophe, hquote,
    List.not_mem_nil, or_false, false_or, exists_eq_right]

end Strings

section Lexing

/-- The text is lexed as these tokens, whatever follows. -/
def Scans (text : List Char) (ts : List Token) : Prop :=
  ∀ rest, scan .idle (text ++ rest) = (ts ++ (scan .idle rest).1, (scan .idle rest).2)

/-- So is a text that ends with a word, in front of a delimiter. -/
def Lexes (text : List Char) (ts : List Token) : Prop :=
  ∀ c rest, Delimits c →
    scan .idle (text ++ c :: rest) = (ts ++ (scan .idle (c :: rest)).1, (scan .idle (c :: rest)).2)

variable {fill s t : List Char} {ts us : List Token}

theorem Scans.lexes (h : Scans s ts) : Lexes s ts :=
  fun c rest _ => h (c :: rest)

theorem Scans.append (hs : Scans s ts) (ht : Scans t us) : Scans (s ++ t) (ts ++ us) := by
  intro rest
  rw [List.append_assoc, hs, ht, List.append_assoc]

theorem Lexes.append {c : Char} (hs : Lexes s ts) (ht : Scans (c :: t) us) (hc : Delimits c) :
    Scans (s ++ c :: t) (ts ++ us) := by
  intro rest
  have hrest := ht rest
  rw [List.cons_append] at hrest
  rw [List.append_assoc, List.cons_append, hs c _ hc, hrest, List.append_assoc]

theorem scans_nil : Scans [] [] := fun _ => rfl

theorem scans_quoted (s : String) : Scans (quoted s) [.str s] :=
  fun rest => scan_quoted s rest

theorem scans_punctuation {c : Char} {t : Token} (hc : punctuation c = some t)
    (hspace : isSpace c = false) (hquote : c ≠ '"') : Scans [c] [t] := by
  intro rest
  rw [List.singleton_append, scan]
  simp only [lexStep, lexOutside, hspace, hquote, hc, Bool.false_eq_true, if_false]
  rfl

theorem scans_fill (hfill : ∀ c ∈ fill, isSpace c = true) : Scans fill [] := by
  induction fill with
  | nil => exact scans_nil
  | cons c fill ih =>
      rw [List.forall_mem_cons] at hfill
      intro rest
      rw [List.cons_append, scan]
      simp only [lexStep, lexOutside, hfill.1, if_true]
      exact ih hfill.2 rest

theorem lexes_word {w : String} (hne : w.toList ≠ []) (h : ∀ d ∈ w.toList, Wordy d) :
    Lexes w.toList [.word w] :=
  fun _ rest hc => scan_idle_word hne h hc rest

theorem lexes_literal {w : String} (hne : w.toList ≠ [])
    (h : w.toList.all (fun d => decide (Wordy d)) = true) : Lexes w.toList [.word w] :=
  lexes_word hne fun d hd => of_decide_eq_true (List.all_eq_true.mp h d hd)

theorem delimits_comma : Delimits ',' := .inr rfl

theorem delimits_bracket : Delimits ']' := .inr rfl

theorem delimits_brace : Delimits '\x7d' := .inr rfl

theorem scans_comma : Scans [','] [.comma] :=
  scans_punctuation rfl rfl (by decide)

theorem scans_colon : Scans [':'] [.colon] :=
  scans_punctuation rfl rfl (by decide)

theorem scans_before_elems (hs : Lexes s ts) {xs : List Json}
    (h : Scans (printElems fill xs) (elemTokens xs)) :
    Scans (s ++ printElems fill xs) (ts ++ elemTokens xs) := by
  cases xs with
  | nil => exact hs.append h delimits_bracket
  | cons x xs => exact hs.append h delimits_comma

theorem scans_before_members (hs : Lexes s ts) {ms : List (String × Json)}
    (h : Scans (printMembers fill ms) (memberTokens ms)) :
    Scans (s ++ printMembers fill ms) (ts ++ memberTokens ms) := by
  cases ms with
  | nil => exact hs.append h delimits_brace
  | cons m ms => exact hs.append h delimits_comma

theorem scans_printElems (hfill : ∀ c ∈ fill, isSpace c = true) {xs : List Json}
    (h : ∀ x ∈ xs, Lexes (print fill x) (tokens x)) :
    Scans (printElems fill xs) (elemTokens xs) := by
  induction xs with
  | nil => exact scans_punctuation rfl rfl (by decide)
  | cons x xs ih =>
      rw [List.forall_mem_cons] at h
      exact scans_comma.append ((scans_fill hfill).append (scans_before_elems h.1 (ih h.2)))

theorem scans_member (hfill : ∀ c ∈ fill, isSpace c = true) (k : String) {v : Json}
    (hv : Lexes (print fill v) (tokens v)) {ms : List (String × Json)}
    (h : Scans (printMembers fill ms) (memberTokens ms)) :
    Scans (quoted k ++ ':' :: (fill ++ (print fill v ++ printMembers fill ms)))
      (.str k :: .colon :: (tokens v ++ memberTokens ms)) :=
  (scans_quoted k).append
    (scans_colon.append ((scans_fill hfill).append (scans_before_members hv h)))

theorem scans_printMembers (hfill : ∀ c ∈ fill, isSpace c = true) {ms : List (String × Json)}
    (h : ∀ m ∈ ms, Lexes (print fill m.2) (tokens m.2)) :
    Scans (printMembers fill ms) (memberTokens ms) := by
  induction ms with
  | nil => exact scans_punctuation rfl rfl (by decide)
  | cons m ms ih =>
      obtain ⟨k, v⟩ := m
      rw [List.forall_mem_cons] at h
      exact scans_comma.append ((scans_fill hfill).append (scans_member hfill k h.1 (ih h.2)))

theorem lexes_print (hfill : ∀ c ∈ fill, isSpace c = true) {j : Json} (hj : numbered j = true) :
    Lexes (print fill j) (tokens j) := by
  induction j with
  | null => exact lexes_literal (by decide +kernel) (by decide +kernel)
  | bool b =>
      cases b with
      | true => exact lexes_literal (by decide +kernel) (by decide +kernel)
      | false => exact lexes_literal (by decide +kernel) (by decide +kernel)
  | num w =>
      exact lexes_word (ne_nil_of_isNumber hj)
        fun d hd => (wordy_of_isNumeric (isNumeric_of_isNumber hj d hd)).1
  | str s => exact (scans_quoted s).lexes
  | arr xs ih =>
      rw [numbered, numberedElems_iff] at hj
      have hbracket : Scans ['['] [.lbracket] := scans_punctuation rfl rfl (by decide)
      cases xs with
      | nil => exact (hbracket.append (scans_punctuation rfl rfl (by decide))).lexes
      | cons x xs =>
          rw [List.forall_mem_cons] at hj ih
          exact (hbracket.append (scans_before_elems (ih.1 hj.1)
            (scans_printElems hfill fun y hy => ih.2 y hy (hj.2 y hy)))).lexes
  | obj ms ih =>
      rw [numbered, numberedMembers_iff] at hj
      have hbrace : Scans ['\x7b'] [.lbrace] := scans_punctuation rfl rfl (by decide)
      cases ms with
      | nil => exact (hbrace.append (scans_punctuation rfl rfl (by decide))).lexes
      | cons m ms =>
          obtain ⟨k, v⟩ := m
          rw [List.forall_mem_cons] at hj ih
          exact (hbrace.append (scans_member hfill k (ih.1 hj.1)
            (scans_printMembers hfill fun y hy => ih.2 y hy (hj.2 y hy)))).lexes

theorem scan_print (hfill : ∀ c ∈ fill, isSpace c = true) {j : Json} (hj : numbered j = true) :
    scan .idle (print fill j ++ ['\n']) = (tokens j, .idle) := by
  rw [lexes_print hfill hj '\n' [] (.inl rfl)]
  exact congrArg (·, Mode.idle) (List.append_nil _)

end Lexing

theorem parse_print {fill : List Char} (hfill : ∀ c ∈ fill, isSpace c = true) {j : Json}
    (hj : numbered j = true) : parse (print fill j) = .ok (normal j) :=
  parse_of_scan_numbered hj (scan_print hfill hj)

section Order

/-- In the order of the keys. -/
def KeyLt (a b : String × Json) : Prop := keyLt a.1 b.1 = true

variable {k l : String} {v : Json} {ms ns : List (String × Json)}

theorem keyLt_trans {a b c : String × Json} (h : KeyLt a b) (h' : KeyLt b c) : KeyLt a c :=
  decide_eq_true (List.lt_trans (of_decide_eq_true h) (of_decide_eq_true h'))

theorem keyLt_asymm {a b : String × Json} (h : KeyLt a b) : ¬ KeyLt b a :=
  fun h' => List.lt_asymm (of_decide_eq_true h) (of_decide_eq_true h')

theorem keyLt_of_not (h : ¬ keyLt k l = true) (hne : k ≠ l) : keyLt l k = true := by
  rw [keyLt, decide_eq_true_iff] at h ⊢
  rcases lt_trichotomy k.toList l.toList with hlt | heq | hgt
  · exact absurd hlt h
  · exact absurd (String.toList_inj.mp heq) hne
  · exact hgt

theorem insertMember_perm (hk : k ∉ ms.map Prod.fst) :
    (JsonText.insertMember k v ms).Perm ((k, v) :: ms) := by
  induction ms with
  | nil => exact .refl _
  | cons m ms ih =>
      obtain ⟨l, w⟩ := m
      rw [List.map_cons, List.mem_cons, not_or] at hk
      rw [JsonText.insertMember, if_neg hk.1]
      split
      · exact .refl _
      · exact ((ih hk.2).cons _).trans (List.Perm.swap _ _ _)

theorem insertMember_sorted (hk : k ∉ ms.map Prod.fst) (h : ms.Pairwise KeyLt) :
    (JsonText.insertMember k v ms).Pairwise KeyLt := by
  induction ms with
  | nil => exact List.pairwise_singleton _ _
  | cons m ms ih =>
      obtain ⟨l, w⟩ := m
      rw [List.map_cons, List.mem_cons, not_or] at hk
      rw [List.pairwise_cons] at h
      rw [JsonText.insertMember, if_neg hk.1]
      split
      · rename_i hlt
        refine List.pairwise_cons.mpr ⟨fun b hb => ?_, List.pairwise_cons.mpr h⟩
        rcases List.mem_cons.mp hb with rfl | hb
        · exact hlt
        · exact keyLt_trans (b := (l, w)) hlt (h.1 b hb)
      · rename_i hlt
        refine List.pairwise_cons.mpr ⟨fun b hb => ?_, ih hk.2 h.2⟩
        rcases List.mem_cons.mp ((insertMember_perm hk.2).subset hb) with rfl | hb
        · exact keyLt_of_not hlt hk.1
        · exact h.1 b hb

theorem foldl_insertMember {done : List (String × Json)} (hdone : done.Pairwise KeyLt)
    (hkeys : ((done ++ ms).map Prod.fst).Nodup) :
    (ms.foldl (fun d m => JsonText.insertMember m.1 m.2 d) done).Pairwise KeyLt ∧
      (ms.foldl (fun d m => JsonText.insertMember m.1 m.2 d) done).Perm (done ++ ms) := by
  induction ms generalizing done with
  | nil => exact ⟨hdone, by rw [List.append_nil]; exact .refl _⟩
  | cons m ms ih =>
      obtain ⟨k, v⟩ := m
      have hk : k ∉ done.map Prod.fst := by
        rw [List.map_append, List.nodup_append] at hkeys
        intro hmem
        exact hkeys.2.2 k hmem k (by simp) rfl
      have hperm : (JsonText.insertMember k v done ++ ms).Perm (done ++ (k, v) :: ms) :=
        ((insertMember_perm hk).append_right ms).trans List.perm_middle.symm
      obtain ⟨hsorted, hrest⟩ :=
        ih (insertMember_sorted hk hdone) ((hperm.map Prod.fst).nodup_iff.mpr hkeys)
      exact ⟨hsorted, hrest.trans hperm⟩

theorem normalMembers_eq_foldl (done : List (String × Json)) :
    normalMembers done ms = (ms.map fun m => (m.1, normal m.2)).foldl
      (fun d m => JsonText.insertMember m.1 m.2 d) done := by
  induction ms generalizing done with
  | nil => rfl
  | cons m ms ih =>
      obtain ⟨k, v⟩ := m
      rw [normalMembers, List.map_cons, List.foldl_cons, ih]

theorem normalMembers_of_perm (hns : ns.Pairwise KeyLt)
    (hperm : (ms.map fun m => (m.1, normal m.2)).Perm ns) : normalMembers [] ms = ns := by
  have hkeys : (ns.map Prod.fst).Nodup := by
    rw [List.Nodup, List.pairwise_map]
    refine hns.imp fun {a b} hab heq => ?_
    rw [KeyLt, heq] at hab
    exact List.lt_irrefl _ (of_decide_eq_true hab)
  have hkeys' : ((([] : List (String × Json)) ++
      ms.map fun m => (m.1, normal m.2)).map Prod.fst).Nodup :=
    (hperm.map Prod.fst).nodup_iff.mpr hkeys
  obtain ⟨hsorted, hmembers⟩ := foldl_insertMember .nil hkeys'
  rw [normalMembers_eq_foldl]
  exact List.Perm.eq_of_pairwise (fun a b _ _ hab hba => absurd hba (keyLt_asymm hab)) hsorted hns
    (hmembers.trans hperm)

end Order

section Apostrophes

variable {fill : List Char}

def Apostrophized (ss : List String) : Prop := ∃ s ∈ ss, '\'' ∈ s.toList

theorem apostrophized_append {ss ts : List String} :
    Apostrophized (ss ++ ts) ↔ Apostrophized ss ∨ Apostrophized ts := by
  simp only [Apostrophized, List.mem_append, or_and_right, exists_or]

theorem apostrophized_cons {s : String} {ss : List String} :
    Apostrophized (s :: ss) ↔ '\'' ∈ s.toList ∨ Apostrophized ss := by
  simp [Apostrophized]

theorem mem_printElems (hfill : '\'' ∉ fill) {xs : List Json}
    (h : ∀ x ∈ xs, '\'' ∈ print fill x ↔ Apostrophized (strings x)) :
    '\'' ∈ printElems fill xs ↔ Apostrophized (stringsOfElems xs) := by
  induction xs with
  | nil => exact iff_of_false (by simp [printElems]) (by simp [Apostrophized, stringsOfElems])
  | cons x xs ih =>
      rw [List.forall_mem_cons] at h
      rw [printElems, stringsOfElems, apostrophized_append, ← ih h.2, ← h.1]
      simp [hfill]

theorem mem_printMembers (hfill : '\'' ∉ fill) {ms : List (String × Json)}
    (h : ∀ m ∈ ms, '\'' ∈ print fill m.2 ↔ Apostrophized (strings m.2)) :
    '\'' ∈ printMembers fill ms ↔ Apostrophized (stringsOfMembers ms) := by
  induction ms with
  | nil => exact iff_of_false (by simp [printMembers]) (by simp [Apostrophized, stringsOfMembers])
  | cons m ms ih =>
      obtain ⟨k, v⟩ := m
      rw [List.forall_mem_cons] at h
      rw [printMembers, stringsOfMembers, apostrophized_cons, apostrophized_append, ← ih h.2, ← h.1]
      simp [hfill, mem_quoted_apostrophe]

theorem mem_print (hfill : '\'' ∉ fill) {j : Json} (hj : numbered j = true) :
    '\'' ∈ print fill j ↔ Apostrophized (strings j) := by
  have hnone : ¬ Apostrophized [] := by simp [Apostrophized]
  induction j with
  | null => exact iff_of_false (by simp [print]) hnone
  | bool b => cases b <;> exact iff_of_false (by simp [print]) hnone
  | num w =>
      exact iff_of_false
        (fun h => (wordy_of_isNumeric (isNumeric_of_isNumber hj _ h)).2 rfl) hnone
  | str s => simp [print, strings, Apostrophized, mem_quoted_apostrophe]
  | arr xs ih =>
      rw [numbered, numberedElems_iff] at hj
      cases xs with
      | nil => exact iff_of_false (by simp [print]) hnone
      | cons x xs =>
          rw [List.forall_mem_cons] at hj ih
          have hfirst : '\'' ∈ print fill x ↔ Apostrophized (strings x) := ih.1 hj.1
          have hrest := mem_printElems hfill fun y hy => ih.2 y hy (hj.2 y hy)
          rw [print, strings, stringsOfElems, apostrophized_append, ← hrest, ← hfirst]
          simp
  | obj ms ih =>
      rw [numbered, numberedMembers_iff] at hj
      cases ms with
      | nil => exact iff_of_false (by simp [print]) hnone
      | cons m ms =>
          obtain ⟨k, v⟩ := m
          rw [List.forall_mem_cons] at hj ih
          have hfirst : '\'' ∈ print fill v ↔ Apostrophized (strings v) := ih.1 hj.1
          have hrest := mem_printMembers hfill fun y hy => ih.2 y hy (hj.2 y hy)
          rw [print, strings, stringsOfMembers, apostrophized_cons, apostrophized_append, ← hrest,
            ← hfirst]
          simp [hfill, mem_quoted_apostrophe]

end Apostrophes

end PgFort.JsonPrinting
