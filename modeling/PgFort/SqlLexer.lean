import PgFort.CommentRemoval
import PgFort.Scanning

/-!
The lexical rules of PostgreSQL 15 with `standard_conforming_strings`. A text is cut into white
space, comments and lexemes, and the lexemes make the tokens.
-/

namespace PgFort.SqlLexer

open PgFort.Framing
open PgFort.Conn
open PgFort.ProxyCommand
open PgFort.CommentRemoval
open PgFort.Scanning

inductive Literal where
  | plain
  | escape
  | bit
  | hex
  | national
  | unicode
  deriving DecidableEq, Repr

/-- What has been read of a lexeme. -/
inductive State where
  /-- A string constant may be continued after a newline. -/
  | initial (continued : Option Literal)
  | symbol
  | dot
  | colon
  | operator
  | word
  /-- A letter that is the prefix of a constant if a quote follows. -/
  | letter (k : Literal)
  | letterU
  | letterUAmp
  | letterUOperator
  | integer
  | integerDot
  | integerDots
  | fraction
  | exponent
  | exponentSign
  | exponentDigits
  | junk
  | dollar
  | parameter
  | tag (tag : Bytes)
  | dollarBody (delimiter body : Bytes)
  | dollarQuoted
  | opened (k : Literal)
  | escaped (k : Literal)
  | closed (k : Literal)
  | name (unicode : Bool)
  | nameClosed (unicode : Bool)
  deriving DecidableEq, Repr

section Classes

variable (c : UInt8)

/-- White space. -/
def isBlank : Bool := c == 32 || c == 9 || c == 10 || c == 13 || c == 12

def isNewline : Bool := c == 10 || c == 13

/-- What an identifier may begin with. -/
def isIdentifierStart : Bool := isUpper c || isLower c || c == 95 || decide (128 ≤ c)

/-- `$` is not allowed in the tag of a dollar quote. -/
def isTag : Bool := isIdentifierStart c || isDigit c

/-- What an identifier may go on with. -/
def isIdentifier : Bool := isTag c || c == 36

/-- What operators are made of. -/
def isOperator : Bool := utf8 "~!@#^&|`?+-*/%<>=" |>.contains c

end Classes

/-- The first two bytes of a comment. -/
def introduces (c : UInt8) (ahead : Option UInt8) : Bool :=
  (c == 45 && ahead == some 45) || (c == 47 && ahead == some 42)

section Lexemes

/-- Where the lexer is after the first byte of a lexeme. -/
def start (c : UInt8) : State :=
  if isDigit c then .integer
  else if c = 98 ∨ c = 66 then .letter .bit
  else if c = 120 ∨ c = 88 then .letter .hex
  else if c = 110 ∨ c = 78 then .letter .national
  else if c = 101 ∨ c = 69 then .letter .escape
  else if c = 117 ∨ c = 85 then .letterU
  else if isIdentifierStart c then .word
  else if c = 39 then .opened .plain
  else if c = 34 then .name false
  else if c = 36 then .dollar
  else if c = 46 then .dot
  else if c = 58 then .colon
  else if isOperator c then .operator
  else .symbol

/-- Behind a digit: another, an exponent, or a name that may not stand there. -/
def number (c : UInt8) (digits : State) : Option State :=
  if isDigit c then some digits
  else if c = 101 ∨ c = 69 then some .exponent
  else if isIdentifierStart c then some .junk
  else none

/-- A quote may be doubled in a constant, except in one of bits. -/
def doubles : Literal → Bool
  | .bit => false
  | .hex => false
  | _ => true

/-- Where the lexer is after a further byte; none if the lexeme has ended before it. -/
def next : State → UInt8 → Option State
  | .initial (some k), _ => some (.opened k)
  | .initial none, c => some (start c)
  | .symbol, _ => none
  | .dot, c => if c = 46 then some .symbol else if isDigit c then some .fraction else none
  | .colon, c => if c = 58 ∨ c = 61 then some .symbol else none
  | .operator, c => if isOperator c then some .operator else none
  | .word, c => if isIdentifier c then some .word else none
  | .letter k, c => if c = 39 then some (.opened k) else if isIdentifier c then some .word else none
  | .letterU, c => if c = 38 then some .letterUAmp else if isIdentifier c then some .word else none
  | .letterUAmp, c =>
      if c = 39 then some (.opened .unicode)
      else if c = 34 then some (.name true)
      else if isOperator c then some .letterUOperator
      else none
  | .letterUOperator, c => if isOperator c then some .letterUOperator else none
  | .integer, c => if c = 46 then some .integerDot else number c .integer
  | .integerDot, c => if c = 46 then some .integerDots else number c .fraction
  | .integerDots, _ => none
  | .fraction, c => number c .fraction
  | .exponent, c =>
      if isDigit c then some .exponentDigits
      else if c = 43 ∨ c = 45 then some .exponentSign
      else none
  | .exponentSign, c => if isDigit c then some .exponentDigits else none
  | .exponentDigits, c =>
      if isDigit c then some .exponentDigits
      else if isIdentifierStart c then some .junk
      else none
  | .junk, _ => none
  | .dollar, c =>
      if c = 36 then some (.dollarBody [36, 36] [])
      else if isDigit c then some .parameter
      else if isIdentifierStart c then some (.tag [c])
      else none
  | .parameter, c =>
      if isDigit c then some .parameter
      else if isIdentifierStart c then some .junk
      else none
  | .tag t, c =>
      if c = 36 then some (.dollarBody (36 :: (t ++ [36])) [])
      else if isTag c then some (.tag (t ++ [c]))
      else none
  | .dollarBody d body, c =>
      if d <:+ body ++ [c] then some .dollarQuoted else some (.dollarBody d (body ++ [c]))
  | .dollarQuoted, _ => none
  | .opened k, c =>
      if c = 39 then some (.closed k)
      else if c = 92 ∧ k = .escape then some (.escaped k)
      else some (.opened k)
  | .escaped k, _ => some (.opened k)
  | .closed k, c => if c = 39 ∧ doubles k then some (.opened k) else none
  | .name u, c => some (if c = 34 then .nameClosed u else .name u)
  | .nameClosed u, c => if c = 34 then some (.name u) else none

/-- Where a lexeme or an operator in it ends before a comment. -/
def endsAtComment : State → Bool
  | .initial _ => true
  | .operator => true
  | .letterUAmp => true
  | .letterUOperator => true
  | _ => false

/-- As `next`, but an operator ends where a comment begins. -/
def step (q : State) (c : UInt8) (ahead : Option UInt8) : Option State :=
  if endsAtComment q && introduces c ahead then none else next q c

/-- A lexeme may end here. -/
def accepts : State → Bool
  | .initial _ => false
  | .exponent => false
  | .exponentSign => false
  | .junk => false
  | .dollarBody _ _ => false
  | .opened _ => false
  | .escaped _ => false
  | .name _ => false
  | _ => true

end Lexemes

section Pieces

inductive Piece where
  | blank (c : UInt8)
  | lineComment (text : Bytes)
  | blockComment (text : Bytes)
  | lexeme (continued : Bool) (text : Bytes) (state : State)
  /-- The rest of a text that has no token at its beginning. -/
  | broken (text : Bytes)
  deriving DecidableEq, Repr

/-- The bytes of a piece. -/
def Piece.text : Piece → Bytes
  | .blank c => [c]
  | .lineComment t => t
  | .blockComment t => t
  | .lexeme _ t _ => t
  | .broken t => t

def Piece.isComment : Piece → Bool
  | .lineComment _ => true
  | .blockComment _ => true
  | _ => false

/-- The string constant that may be continued, and whether a newline has followed it. -/
abbrev Mode := Option (Literal × Bool)

/-- Block comments do not stand between the parts of a string constant. -/
def after (m : Mode) : Piece → Mode
  | .blank c => m.map fun l => (l.1, l.2 || isNewline c)
  | .lineComment _ => m
  | .blockComment _ => none
  | .lexeme _ _ (.closed k) => some (k, false)
  | .lexeme _ _ _ => none
  | .broken _ => none

/-- The string constant that a quote continues. -/
def continuedBy (m : Mode) (c : UInt8) : Option Literal :=
  if c = 39 then m.bind fun l => if l.2 then some l.1 else none else none

/-- What follows a block comment, with the number of comments nested in it here. -/
def blockEnd : Nat → Bytes → Option Bytes
  | _, [] => none
  | _, [_] => none
  | 0, 42 :: 47 :: s => some s
  | n + 1, 42 :: 47 :: s => blockEnd n s
  | n, 47 :: 42 :: s => blockEnd (n + 1) s
  | n, _ :: c :: s => blockEnd n (c :: s)

/-- The lexeme at the beginning of a text. -/
def lexeme (m : Mode) (s : Bytes) : Piece × Bytes :=
  let k := continuedBy m (s.headD 0)
  let r := scan step (.initial k) s
  if accepts r.2.1 then (.lexeme k.isSome r.1 r.2.1, r.2.2) else (.broken s, [])

/-- The piece at the beginning of a text. -/
def first (m : Mode) : Bytes → Option (Piece × Bytes)
  | [] => none
  | c :: s =>
      if isBlank c then some (.blank c, s)
      else if c = 45 ∧ s.head? = some 45 then
        some (.lineComment (c :: 45 :: (s.drop 1).takeWhile inLine), (s.drop 1).dropWhile inLine)
      else if c = 47 ∧ s.head? = some 42 then
        match blockEnd 0 (s.drop 1) with
        | some rest => some (.blockComment (Regexes.upTo (c :: s) rest), rest)
        | none => some (.broken (c :: s), [])
      else some (lexeme m (c :: s))

def piecesUpTo : Nat → Mode → Bytes → List Piece
  | 0, _, _ => []
  | n + 1, m, s =>
      match first m s with
      | none => []
      | some (p, rest) => p :: piecesUpTo n (after m p) rest

/-- The pieces of a text. -/
def pieces (s : Bytes) : List Piece := piecesUpTo s.length none s

end Pieces

section Reads

variable {m : Mode} {c : UInt8} {s t rest : Bytes} {p : Piece}

theorem upTo_append_of_suffix (h : rest <:+ s) : Regexes.upTo s rest ++ rest = s := by
  obtain ⟨t, rfl⟩ := h
  simp [Regexes.upTo]

theorem suffix_of_blockEnd {n : Nat} (h : blockEnd n s = some rest) : rest <:+ s := by
  fun_induction blockEnd n s with
  | case1 n => exact nomatch h
  | case2 n c => exact nomatch h
  | case3 s =>
      obtain rfl := Option.some.inj h
      exact (List.suffix_cons _ _).trans (List.suffix_cons _ _)
  | case4 n s ih => exact (ih h).trans ((List.suffix_cons _ _).trans (List.suffix_cons _ _))
  | case5 n s ih => exact (ih h).trans ((List.suffix_cons _ _).trans (List.suffix_cons _ _))
  | case6 n c d s _ _ _ ih => exact (ih h).trans (List.suffix_cons _ _)

/-- How a piece is read. -/
inductive Reads (m : Mode) : Bytes → Piece → Bytes → Prop where
  | blank (c : UInt8) (s : Bytes) (hc : isBlank c = true) : Reads m (c :: s) (.blank c) s
  | lineComment (s : Bytes) :
      Reads m (45 :: 45 :: s) (.lineComment (45 :: 45 :: s.takeWhile inLine)) (s.dropWhile inLine)
  | blockComment (s t rest : Bytes) (hend : blockEnd 0 s = some rest)
      (ht : 47 :: 42 :: s = t ++ rest) : Reads m (47 :: 42 :: s) (.blockComment t) rest
  | unclosed (s : Bytes) (hend : blockEnd 0 s = none) :
      Reads m (47 :: 42 :: s) (.broken (47 :: 42 :: s)) []
  | lexeme (c : UInt8) (s t rest : Bytes) (q : State) (hc : isBlank c = false)
      (hs : introduces c s.head? = false)
      (hscan : scan step (.initial (continuedBy m c)) (c :: s) = (t, q, rest))
      (hq : accepts q = true) : Reads m (c :: s) (.lexeme (continuedBy m c).isSome t q) rest
  | broken (c : UInt8) (s : Bytes) (hc : isBlank c = false) (hs : introduces c s.head? = false)
      (hq : accepts (scan step (.initial (continuedBy m c)) (c :: s)).2.1 = false) :
      Reads m (c :: s) (.broken (c :: s)) []

theorem introduces_eq_true_iff {ahead : Option UInt8} :
    introduces c ahead = true ↔ c = 45 ∧ ahead = some 45 ∨ c = 47 ∧ ahead = some 42 := by
  simp [introduces]

theorem reads_of_first (h : first m s = some (p, rest)) : Reads m s p rest := by
  cases s with
  | nil => exact nomatch h
  | cons c s =>
      rw [first] at h
      split at h
      · rename_i hc
        obtain ⟨rfl, rfl⟩ := Prod.mk.inj (Option.some.inj h)
        exact .blank c s hc
      rename_i hc
      split at h
      · rename_i hdashes
        obtain ⟨rfl, hs⟩ := hdashes
        obtain ⟨s, rfl⟩ := List.head?_eq_some_iff.mp hs
        obtain ⟨rfl, rfl⟩ := Prod.mk.inj (Option.some.inj h)
        exact .lineComment s
      rename_i hdashes
      split at h
      · rename_i hopen
        obtain ⟨rfl, hs⟩ := hopen
        obtain ⟨s, rfl⟩ := List.head?_eq_some_iff.mp hs
        split at h
        · rename_i hend
          obtain ⟨rfl, rfl⟩ := Prod.mk.inj (Option.some.inj h)
          have hsuffix := (suffix_of_blockEnd hend).trans ((List.suffix_cons 42 _).trans (List.suffix_cons 47 _))
          exact .blockComment s _ _ hend (upTo_append_of_suffix hsuffix).symm
        · rename_i hend
          obtain ⟨rfl, rfl⟩ := Prod.mk.inj (Option.some.inj h)
          exact .unclosed s hend
      · rename_i hopen
        have hs : introduces c s.head? = false := by
          rw [Bool.eq_false_iff, Ne, introduces_eq_true_iff, not_or]
          exact ⟨hdashes, hopen⟩
        rw [lexeme, List.headD_cons] at h
        split at h
        · rename_i hq
          obtain ⟨rfl, rfl⟩ := Prod.mk.inj (Option.some.inj h)
          exact .lexeme c s _ _ _ (Bool.eq_false_iff.mpr hc) hs rfl hq
        · rename_i hq
          obtain ⟨rfl, rfl⟩ := Prod.mk.inj (Option.some.inj h)
          exact .broken c s (Bool.eq_false_iff.mpr hc) hs (Bool.eq_false_iff.mpr hq)

theorem first_of_reads (h : Reads m s p rest) : first m s = some (p, rest) := by
  cases h with
  | blank c s hc => rw [first, if_pos hc]
  | lineComment s => rfl
  | blockComment s t rest hend ht =>
      have hupTo : Regexes.upTo (47 :: 42 :: s) rest = t := by
        rw [ht, Regexes.upTo]
        simp
      rw [first, if_neg (by decide), if_neg (by simp), if_pos ⟨rfl, rfl⟩]
      simp only [List.drop_succ_cons, List.drop_zero, hend, hupTo]
  | unclosed s hend =>
      rw [first, if_neg (by decide), if_neg (by simp), if_pos ⟨rfl, rfl⟩]
      simp only [List.drop_succ_cons, List.drop_zero, hend]
  | lexeme c s t rest q hc hs hscan hq =>
      rw [Bool.eq_false_iff, Ne, introduces_eq_true_iff, not_or] at hs
      rw [first, if_neg (by simp [hc]), if_neg hs.1, if_neg hs.2, lexeme, List.headD_cons]
      simp only [hscan, hq, if_true]
  | broken c s hc hs hq =>
      rw [Bool.eq_false_iff, Ne, introduces_eq_true_iff, not_or] at hs
      rw [first, if_neg (by simp [hc]), if_neg hs.1, if_neg hs.2, lexeme, List.headD_cons]
      simp [hq]

theorem text_append_of_reads (h : Reads m s p rest) : s = p.text ++ rest := by
  cases h with
  | blank c s hc => rfl
  | lineComment s =>
      rw [Piece.text, List.cons_append, List.cons_append, List.takeWhile_append_dropWhile]
  | blockComment s t rest hend ht => exact ht
  | unclosed s hend => exact (List.append_nil _).symm
  | lexeme c s t rest q hc hs hscan hq =>
      have hall : (scan step (.initial (continuedBy m c)) (c :: s)).1 ++
          (scan step (.initial (continuedBy m c)) (c :: s)).2.2 = c :: s := scan_append_eq
      rw [hscan] at hall
      exact hall.symm
  | broken c s hc hs hq => exact (List.append_nil _).symm

theorem text_ne_nil_of_reads (h : Reads m s p rest) : p.text ≠ [] := by
  cases h with
  | blank c s hc => exact List.cons_ne_nil _ _
  | lineComment s => exact List.cons_ne_nil _ _
  | blockComment s t rest hend ht =>
      rintro rfl
      have hlength := (suffix_of_blockEnd hend).length_le
      rw [← List.nil_append rest, ← ht] at hlength
      exact absurd hlength (Nat.not_succ_le_self _ ∘ Nat.le_of_succ_le)
  | unclosed s hend => exact List.cons_ne_nil _ _
  | lexeme c s t rest q hc hs hscan hq =>
      have hstep : ∃ q', step (.initial (continuedBy m c)) c s.head? = some q' := by
        rw [step, hs, Bool.and_false, if_neg Bool.false_ne_true]
        cases continuedBy m c with
        | none => exact ⟨_, rfl⟩
        | some k => exact ⟨_, rfl⟩
      obtain ⟨q', hq'⟩ := hstep
      rw [scan_cons_of_step hq'] at hscan
      rintro rfl
      exact absurd (congrArg Prod.fst hscan) (List.cons_ne_nil _ _)
  | broken c s hc hs hq => exact List.cons_ne_nil _ _

theorem length_lt_of_first (h : first m s = some (p, rest)) : rest.length < s.length := by
  have hreads := reads_of_first h
  rw [text_append_of_reads hreads, List.length_append]
  have hpos := List.length_pos_iff.mpr (text_ne_nil_of_reads hreads)
  omega

theorem first_eq_none_iff : first m s = none ↔ s = [] := by
  constructor
  · intro h
    cases s with
    | nil => rfl
    | cons c s =>
        rw [first] at h
        split_ifs at h
        split at h <;> exact nomatch h
  · rintro rfl
    rfl

end Reads

section Tokens

inductive Kind where
  | word
  | number
  | parameter
  | operator
  | symbol
  | literal (k : Literal)
  | dollarQuoted
  | name (unicode : Bool)
  deriving DecidableEq, Repr

structure Token where
  kind : Kind
  text : Bytes
  deriving DecidableEq, Repr

def isSign (c : UInt8) : Bool := c == 43 || c == 45

/-- The operators in a run of operator characters: a sign at its end stands by itself unless one of
some characters is in front of it. -/
def operators (run : Bytes) : List Token :=
  let signs := (run.reverse.takeWhile isSign).reverse
  let length := max 1 (run.length - signs.length)
  if run.dropLast.any (utf8 "~!@#^&|`?%").contains then [⟨.operator, run⟩]
  else ⟨.operator, run.take length⟩ :: (run.drop length).map fun c => ⟨.operator, [c]⟩

/-- What is between quotation marks. -/
def between (t : Bytes) : Bytes := (t.dropWhile fun c => c != 39 && c != 34).tail.dropLast

/-- The tokens of a lexeme, which has been read up to the state. -/
def emit (t : Bytes) : State → List Token
  | .word => [⟨.word, t⟩]
  | .letter _ => [⟨.word, t⟩]
  | .letterU => [⟨.word, t⟩]
  | .letterUAmp => ⟨.word, t.take 1⟩ :: operators (t.drop 1)
  | .letterUOperator => ⟨.word, t.take 1⟩ :: operators (t.drop 1)
  | .operator => operators t
  | .integer => [⟨.number, t⟩]
  | .integerDot => [⟨.number, t⟩]
  | .integerDots => [⟨.number, t.dropLast.dropLast⟩, ⟨.symbol, utf8 ".."⟩]
  | .fraction => [⟨.number, t⟩]
  | .exponentDigits => [⟨.number, t⟩]
  | .parameter => [⟨.parameter, t⟩]
  | .tag _ => [⟨.symbol, utf8 "$"⟩, ⟨.word, t.drop 1⟩]
  | .dollarQuoted => [⟨.dollarQuoted, t⟩]
  | .closed k => [⟨.literal k, between t⟩]
  | .nameClosed u => [⟨.name u, between t⟩]
  | _ => [⟨.symbol, t⟩]

/-- Add the tokens of a piece, the last one first. -/
def add : List Token → Piece → Option (List Token)
  | ts, .lexeme false t q => some ((emit t q).reverse ++ ts)
  | ⟨k, body⟩ :: ts, .lexeme true t _ => some (⟨k, body ++ between t⟩ :: ts)
  | [], .lexeme true _ _ => none
  | _, .broken _ => none
  | ts, _ => some ts

/-- The tokens of a text, if it is lexically correct. -/
def tokens (s : Bytes) : Option (List Token) :=
  ((pieces s).foldlM add []).map List.reverse

end Tokens

end PgFort.SqlLexer
