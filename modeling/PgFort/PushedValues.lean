import PgFort.Jsonb
import PgFort.RoleQueries

namespace PgFort.PushedValues

open PgFort.Framing
open PgFort.Conn
open PgFort.JsonTree
open PgFort.JsonText (canonical isNumber)
open PgFort.Jsonb
open PgFort.Scanning
open PgFort.SqlLexer
open PgFort.CommentTokens
open PgFort.Runs
open PgFort.HeldDeque hiding push
open PgFort.PersistentDeque hiding step next
open PgFort.DequeRefinement
open PgFort.RoleQueries (unquoted weights tokens_quoted continued_of_foldlM_add
  not_mem_of_continued)

/-- The name of a deque, which makes an identifier of its table. -/
structure Name where
  bytes : Bytes
  identifier : ∀ c ∈ bytes, isIdentifier c = true

/-- `table_`. -/
def Name.table (n : Name) : Bytes :=
  utf8 "__deque_" ++ n.bytes ++ utf8 "__"

/-- What the code takes from the JSON library, from libpqxx and from PostgreSQL, for a deque of JSON
values. -/
structure Service where
  file : Bytes
  name : Name
  /-- The numerals that `dump` writes a value with. It throws for a string that is not UTF-8. -/
  written : Value → Option Json
  canonical_written : ∀ v j, written v = some j → canonical j = true
  value_written : ∀ v j, written v = some j → value j = v
  jsonb : JsonbType
  other : Bytes → List (Row Value) → Option (List (Row Value))
  invalidUtf8 : Bytes
  usageError : Bytes
  unexpectedRows : Bytes
  refused : Bytes → Bytes
  aborted : Bytes

/-- What the deque is of the library and of its service. -/
def Service.library (S : Service) : Library Value where
  file := S.file
  table := S.name.table
  dump v := (S.written v).map text
  jsonb := S.jsonb.column
  jsonb_dump := by
    intro v literal v' hdump hcolumn
    obtain ⟨j, hj, rfl⟩ := Option.map_eq_some_iff.mp hdump
    rw [eq_of_column_text (S.canonical_written v j hj) hcolumn, S.value_written v j hj]
  other := S.other
  invalidUtf8 := S.invalidUtf8
  usageError := S.usageError
  unexpectedRows := S.unexpectedRows
  refused := S.refused
  aborted := S.aborted

/-- A JSON value that the type `JSONB` can hold. -/
structure Held (S : Service) where
  value : Value
  json : Json
  written : S.written value = some json
  holds : S.jsonb.Holds json

/-- A table whose positions are the numbers that its sequence has given, or their negatives. -/
structure Table extends World Value where
  numbered : ∀ r ∈ rows, r.pos.natAbs ≤ seq

section Tokens

variable (n : Name) (side : Side)

/-- The sign and the number of a direction. -/
def direction : Side → List Token
  | .back => [⟨.number, utf8 "1"⟩]
  | .front => [⟨.operator, utf8 "-"⟩, ⟨.number, utf8 "1"⟩]

/-- The tokens of an `INSERT` in front of its constant. -/
def insertTokens : List Token :=
  [⟨.word, utf8 "INSERT"⟩, ⟨.word, utf8 "INTO"⟩, ⟨.word, n.table⟩, ⟨.symbol, utf8 "("⟩,
    ⟨.word, utf8 "_dir"⟩, ⟨.symbol, utf8 ","⟩, ⟨.word, utf8 "_data"⟩, ⟨.symbol, utf8 ")"⟩,
    ⟨.word, utf8 "VALUES"⟩, ⟨.symbol, utf8 "("⟩] ++ direction side ++ [⟨.symbol, utf8 ","⟩]

/-- What stands behind the string in the `INSERT`. -/
def castTokens : List Token :=
  [⟨.symbol, utf8 "::"⟩, ⟨.word, utf8 "jsonb"⟩, ⟨.symbol, utf8 ")"⟩, ⟨.symbol, utf8 ";"⟩]

/-- A text is one `INSERT`, and this is the value of its string constant. -/
def OneInsert (query constant : Bytes) : Prop :=
  ∃ body, tokens query = some (insertTokens n side ++ ⟨.literal .plain, body⟩ :: castTokens) ∧
    unquoted body = constant

end Tokens

/-- Nothing fails, and the sequence has passed over so many numbers. -/
def working (skipped : Nat) : Io := ⟨none, none, skipped⟩

/-- An instance pushes the value, and then an instance pops at the same side, and has it. -/
def Returned (S : Service) (w : World Value) (i k : Nat) (side : Side) (v : Value) : Prop :=
  ∀ skipped,
    let pushed := push S.library w i side v (working skipped)
    let taken := take S.library pushed.1 k side true (working 0)
    pushed.2 = .done ∧ taken.2 = .selected pushed.1.created v ∧
      (finish S.library taken.1 pushed.1.created (working 0)).2 = .element pushed.1.created v

/-- The value comes back, and the push executes an `INSERT` with its text as the constant. -/
structure Kept (S : Service) (w : World Value) (i k : Nat) (side : Side) (v : Value) : Prop where
  returned : Returned S w i k side v
  inserted : ∀ constant, S.library.dump v = some constant →
    OneInsert S.name side (insertQuery S.library side constant) constant

section Query

variable {n : Name} {side : Side} {s : Bytes}

/-- What follows the name of the table. -/
def columnsText : Side → Bytes
  | .back => utf8 " (_dir, _data) VALUES (1, "
  | .front => utf8 " (_dir, _data) VALUES (-1, "

/-- The text in front of the constant. -/
def headText (n : Name) (side : Side) : Bytes :=
  utf8 "INSERT INTO " ++ (n.table ++ columnsText side)

def wordsPieces : List Piece := pieces (utf8 "INSERT INTO ")

def columnsPieces (side : Side) : List Piece := pieces (columnsText side)

def headPieces (n : Name) (side : Side) : List Piece :=
  wordsPieces ++ .lexeme false n.table .word :: columnsPieces side

theorem piecesUpTo_words (m : Nat) (s : Bytes) :
    piecesUpTo (m + 4) none (utf8 "INSERT INTO " ++ s) = wordsPieces ++ piecesUpTo m none s := by
  have hwords : utf8 "INSERT INTO " = [73, 78, 83, 69, 82, 84, 32, 73, 78, 84, 79, 32] := by
    decide +kernel
  rw [wordsPieces, hwords]
  rfl

theorem scan_identifier {cs : Bytes} (h : ∀ c ∈ cs, isIdentifier c = true) (s : Bytes) :
    scan step .word (cs ++ 32 :: s) = (cs, .word, 32 :: s) := by
  induction cs with
  | nil => rfl
  | cons c cs ih =>
      rw [List.forall_mem_cons] at h
      have hstep : step .word c (cs ++ 32 :: s).head? = some .word := by
        rw [step]
        simp [endsAtComment, next, h.1]
      rw [List.cons_append, scan_cons_of_step hstep, ih h.2]

theorem first_table (n : Name) (s : Bytes) :
    first none (n.table ++ 32 :: s) = some (.lexeme false n.table .word, 32 :: s) := by
  have hprefix : utf8 "__deque_" = 95 :: [95, 100, 101, 113, 117, 101, 95] := by decide +kernel
  obtain ⟨cs, htable, hcs⟩ : ∃ cs, n.table = 95 :: cs ∧ ∀ c ∈ cs, isIdentifier c = true := by
    refine ⟨[95, 100, 101, 113, 117, 101, 95] ++ (n.bytes ++ utf8 "__"), ?_, ?_⟩
    · rw [Name.table, hprefix, List.append_assoc]
      rfl
    · intro c hc
      rw [List.mem_append, List.mem_append] at hc
      rcases hc with hc | hc | hc
      · exact (by decide +kernel : ∀ c ∈ [95, 100, 101, 113, 117, 101, 95], isIdentifier c = true) c hc
      · exact n.identifier c hc
      · exact (by decide +kernel : ∀ c ∈ utf8 "__", isIdentifier c = true) c hc
  have hstep : ∀ ahead, step (.initial none) 95 ahead = some .word := fun _ => rfl
  rw [htable, List.cons_append, first, if_neg (by decide), if_neg (by simp), if_neg (by simp), lexeme,
    List.headD_cons, show continuedBy none 95 = none from rfl, scan_cons_of_step (hstep _),
    scan_identifier hcs]
  rfl

set_option maxRecDepth 4000 in
theorem piecesUpTo_columns (side : Side) (m : Nat) (s : Bytes) :
    piecesUpTo (m + (columnsPieces side).length) none (columnsText side ++ 39 :: s) =
      columnsPieces side ++ piecesUpTo m none (39 :: s) := by
  have hback : columnsText .back =
      [32, 40, 95, 100, 105, 114, 44, 32, 95, 100, 97, 116, 97, 41, 32, 86, 65, 76, 85, 69, 83, 32,
        40, 49, 44, 32] := by
    decide +kernel
  have hfront : columnsText .front =
      [32, 40, 95, 100, 105, 114, 44, 32, 95, 100, 97, 116, 97, 41, 32, 86, 65, 76, 85, 69, 83, 32,
        40, 45, 49, 44, 32] := by
    decide +kernel
  cases side with
  | back =>
      rw [columnsPieces, hback]
      rfl
  | front =>
      rw [columnsPieces, hfront]
      rfl

theorem add_append {us vs : List Token} {p : Piece} (h : add us p = some vs) (ts : List Token) :
    add (us ++ ts) p = some (vs ++ ts) := by
  cases p with
  | lexeme continued t q =>
      cases continued with
      | false =>
          obtain rfl := Option.some.inj h
          exact congrArg some (List.append_assoc _ _ _).symm
      | true =>
          cases us with
          | nil => exact absurd h (by simp [add])
          | cons u us =>
              obtain rfl := Option.some.inj h
              rfl
  | broken t => exact absurd h (by simp [add])
  | blank c =>
      obtain rfl := Option.some.inj h
      rfl
  | lineComment t =>
      obtain rfl := Option.some.inj h
      rfl
  | blockComment t =>
      obtain rfl := Option.some.inj h
      rfl

theorem foldlM_add_append {ps : List Piece} {us vs : List Token} (h : ps.foldlM add us = some vs)
    (ts : List Token) : ps.foldlM add (us ++ ts) = some (vs ++ ts) := by
  induction ps generalizing us with
  | nil =>
      obtain rfl := Option.some.inj h
      rfl
  | cons p ps ih =>
      rw [List.foldlM_cons] at h ⊢
      obtain ⟨us', hus', hrest⟩ := Option.bind_eq_some_iff.mp h
      rw [add_append hus' ts]
      exact ih hrest

theorem foldlM_headPieces (n : Name) (side : Side) :
    (headPieces n side).foldlM add [] = some (insertTokens n side).reverse := by
  have hwords : wordsPieces.foldlM add [] =
      some [⟨.word, utf8 "INTO"⟩, ⟨.word, utf8 "INSERT"⟩] := by
    decide +kernel
  have hcolumns : (columnsPieces side).foldlM add [] =
      some ((insertTokens n side).drop 3).reverse := by
    cases side with
    | back =>
        rw [show (insertTokens n .back).drop 3 = (insertTokens ⟨[], by simp⟩ .back).drop 3 from rfl]
        decide +kernel
    | front =>
        rw [show (insertTokens n .front).drop 3 = (insertTokens ⟨[], by simp⟩ .front).drop 3 from rfl]
        decide +kernel
  have hrest := foldlM_add_append hcolumns
    [⟨.word, n.table⟩, ⟨.word, utf8 "INTO"⟩, ⟨.word, utf8 "INSERT"⟩]
  rw [headPieces, List.foldlM_append, hwords]
  refine Eq.trans hrest ?_
  rw [← List.take_append_drop 3 (insertTokens n side), List.reverse_append]
  rfl

theorem piecesUpTo_headText (n : Name) (side : Side) (m : Nat) (s : Bytes) :
    piecesUpTo (m + (headPieces n side).length) none (headText n side ++ 39 :: s) =
      headPieces n side ++ piecesUpTo m none (39 :: s) := by
  have hlength : m + (headPieces n side).length =
      m + (columnsPieces side).length + 1 + 4 := by
    have hwords : wordsPieces.length = 4 := by decide +kernel
    rw [headPieces, List.length_append, List.length_cons, hwords]
    omega
  have hblank : ∃ cs, columnsText side ++ 39 :: s = 32 :: cs := by
    have hhead : (columnsText side).head? = some 32 := by
      cases side <;> decide +kernel
    obtain ⟨cs, hcs⟩ := List.head?_eq_some_iff.mp hhead
    exact ⟨cs ++ 39 :: s, by rw [hcs]; rfl⟩
  obtain ⟨cs, hcs⟩ := hblank
  have htable : piecesUpTo (m + (columnsPieces side).length + 1) none
      (n.table ++ (columnsText side ++ 39 :: s)) =
        .lexeme false n.table .word :: (columnsPieces side ++ piecesUpTo m none (39 :: s)) := by
    rw [hcs, piecesUpTo, first_table, ← hcs]
    exact congrArg _ (piecesUpTo_columns side m s)
  rw [hlength, headText, List.append_assoc, List.append_assoc, piecesUpTo_words, htable, headPieces,
    List.append_assoc]
  rfl

theorem piecesUpTo_cast {m : Nat} (hm : 9 ≤ m) :
    (piecesUpTo m (some (.plain, false)) (utf8 "::jsonb);")).foldlM add [] =
      some castTokens.reverse := by
  obtain ⟨m, rfl⟩ := Nat.exists_eq_add_of_le' hm
  have hcast : utf8 "::jsonb);" = [58, 58, 106, 115, 111, 110, 98, 41, 59] := by decide +kernel
  have hpieces : piecesUpTo (m + 9) (some (.plain, false)) (utf8 "::jsonb);") =
      pieces (utf8 "::jsonb);") := by
    rw [hcast]
    rfl
  rw [hpieces]
  decide +kernel

/-- The text of a value is read as it was put between the quotes exactly if it has none. -/
theorem oneInsert_iff {S : Service} {side : Side} {constant : Bytes} :
    OneInsert S.name side (insertQuery S.library side constant) constant ↔ 39 ∉ constant := by
  have hquery : insertQuery S.library side constant =
      headText S.name side ++ 39 :: (constant ++ 39 :: utf8 "::jsonb);") := by
    have hhead : insertHead S.library side = headText S.name side ++ [39] := by
      have hback : utf8 " (_dir, _data)" ++ utf8 " VALUES (1, '" = columnsText .back ++ [39] := by
        decide +kernel
      have hfront : utf8 " (_dir, _data)" ++ utf8 " VALUES (-1, '" = columnsText .front ++ [39] := by
        decide +kernel
      cases side with
      | back =>
          rw [insertHead.eq_def, headText, List.append_assoc, hback]
          simp [Service.library]
      | front =>
          rw [insertHead.eq_def, headText, List.append_assoc, hfront]
          simp [Service.library]
    have hend : utf8 "'::jsonb);" = 39 :: utf8 "::jsonb);" := by decide +kernel
    rw [insertQuery, hhead, hend]
    simp
  have hlong : (headPieces S.name side).length ≤ (headText S.name side).length := by
    have hwords : wordsPieces.length + 1 ≤ (utf8 "INSERT INTO ").length := by decide +kernel
    have hcolumns : (columnsPieces side).length ≤ (columnsText side).length := by
      cases side <;> decide +kernel
    rw [headPieces, headText, List.length_append, List.length_cons, List.length_append,
      List.length_append]
    omega
  have hweights : weights castTokens.reverse = (utf8 "::jsonb);").length := by decide +kernel
  have hnoquote : (utf8 "::jsonb);").head? ≠ some 39 := by decide +kernel
  rw [OneInsert, hquery]
  rcases tokens_quoted (piecesUpTo_headText S.name side) hlong (foldlM_headPieces S.name side)
    (constant ++ 39 :: utf8 "::jsonb);") with ⟨body, rest, m, hs, hread, hm, htokens⟩ | ⟨hread, hnone⟩
  · constructor
    · rintro ⟨body', htokens', hvalue⟩
      rw [htokens] at htokens'
      obtain ⟨ts, hfold, hreverse⟩ := Option.map_eq_some_iff.mp htokens'
      obtain rfl : ts = castTokens.reverse ++
          ⟨.literal .plain, body'⟩ :: (insertTokens S.name side).reverse := by
        rw [← List.reverse_reverse ts, hreverse, List.reverse_append, List.reverse_cons,
          List.append_assoc]
        rfl
      obtain ⟨-, x, rfl, hshort⟩ := continued_of_foldlM_add hfold
      rw [textOf_piecesUpTo hm, hweights] at hshort
      exact not_mem_of_continued hread hvalue hshort
    · intro hquote
      have hwhole := readConstant_quote hquote hnoquote
      rw [hread] at hwhole
      obtain ⟨hvalue, rfl⟩ := Prod.mk.inj (Option.some.inj hwhole)
      have hcast := foldlM_add_append (piecesUpTo_cast hm)
        (⟨.literal .plain, body⟩ :: (insertTokens S.name side).reverse)
      refine ⟨body, ?_, hvalue⟩
      rw [List.nil_append] at hcast
      rw [htokens, hcast, Option.map_some, List.reverse_append, List.reverse_cons,
        List.reverse_reverse, List.reverse_reverse, List.append_assoc]
      rfl
  · rw [hnone]
    constructor
    · rintro ⟨body, h, -⟩
      exact absurd h (by simp)
    · intro hquote
      have hwhole := readConstant_quote hquote hnoquote
      rw [hread] at hwhole
      exact absurd hwhole (by simp)

end Query

section Deque

variable {S : Service} {w : World Value} {i k : Nat} {side : Side} {v : Value} {j : Json}

theorem select_pushed {rows : List (Row Value)} {n m : Nat} (hrows : ∀ r ∈ rows, r.pos.natAbs ≤ n)
    (hm : n < m) (data : Value) :
    select side k (rows ++ [⟨position side m, data, none⟩]) = some ⟨position side m, data, none⟩ := by
  have hmem : ∀ r ∈ orderBy side (rows ++ [⟨position side m, data, none⟩]),
      r ∈ rows ∨ r = ⟨position side m, data, none⟩ := by
    intro r hr
    have hperm : (orderBy side (rows ++ [⟨position side m, data, none⟩])).Perm
        (rows ++ [⟨position side m, data, none⟩]) := by
      cases side with
      | back => exact List.perm_insertionSort _ _
      | front => exact List.perm_insertionSort _ _
    simpa using hperm.subset hr
  have hnew : (⟨position side m, data, none⟩ : Row Value) ∈
      orderBy side (rows ++ [⟨position side m, data, none⟩]) := by
    cases side with
    | back => exact (List.mem_insertionSort _).mpr (by simp)
    | front => exact (List.mem_insertionSort _).mpr (by simp)
  obtain ⟨pre, post, hsplit, hpre⟩ := List.eq_append_cons_of_mem hnew
  have hfirst : pre = [] := by
    cases pre with
    | nil => rfl
    | cons r pre =>
        have hr : r ∈ rows := by
          rcases hmem r (by simp [hsplit]) with hr | rfl
          · exact hr
          · exact absurd List.mem_cons_self hpre
        have hle := hrows r hr
        exfalso
        cases side with
        | back =>
            have hsorted := @descending_pairwise _ _ _ Row.pos (rows ++ [⟨position .back m, data, none⟩])
            rw [orderBy] at hsplit
            rw [hsplit, List.cons_append, List.pairwise_cons] at hsorted
            have hbehind := hsorted.1 ⟨position .back m, data, none⟩ (by simp)
            simp only [position] at hbehind
            omega
        | front =>
            have hsorted := @ascending_pairwise _ _ _ Row.pos (rows ++ [⟨position .front m, data, none⟩])
            rw [orderBy] at hsplit
            rw [hsplit, List.cons_append, List.pairwise_cons] at hsorted
            have hbehind := hsorted.1 ⟨position .front m, data, none⟩ (by simp)
            simp only [position] at hbehind
            omega
  rw [select, hsplit, hfirst]
  rfl

/-- A row with the next number of the sequence. -/
def appended (w : World Value) (side : Side) (n : Nat) (v : Value) : World Value :=
  { w with
    rows := w.rows ++ [⟨position side n, v, none⟩]
    seq := n
    pushed := w.pushed ++ [(position side n, v)] }

theorem push_of_plain (hj : S.written v = some j) (hholds : S.jsonb.Holds j) (hplain : 39 ∉ text j)
    (hidle : w.transactions i = .idle) (skipped : Nat) :
    push S.library w i side v (working skipped) =
      (appended w side (w.seq + skipped + 1) v, .done) := by
  have hbusy : w.busy i = false := by rw [World.busy, hidle]
  have hdump : S.library.dump v = some (text j) := congrArg (Option.map text) hj
  have hcolumn : S.library.jsonb (text j) = some v := by
    rw [← S.value_written v j hj]
    exact column_text (S.canonical_written v j hj) hholds
  have hexec : execInsert S.library side (w.nextPos side (working skipped))
      (insertQuery S.library side (text j)) w.rows =
        some (w.rows ++ [⟨position side (w.seq + skipped + 1), v, none⟩]) := by
    rw [execInsert, (readInsert_insertQuery_iff S.library side).mpr hplain]
    simp only [hcolumn, Option.map_some]
    rfl
  simp only [working] at hexec
  rw [push, if_neg (by simp [hbusy])]
  simp only [hdump, hidle, ne_eq, not_true_eq_false, if_false, working]
  rw [hexec]
  rfl

theorem take_of_idle (lib : Library Value) {r : Row Value} (hidle : w.transactions k = .idle)
    (hr : select side k w.rows = some r) :
    take lib w k side true (working 0) = (w.acquire k r (some side), .selected w.created r.data) := by
  have hbusy : w.busy k = false := by rw [World.busy, hidle]
  rw [take, if_neg (by simp [hbusy])]
  simp only [hidle, ne_eq, not_true_eq_false, if_false, working, hr, if_true]

theorem finish_acquired (lib : Library Value) (w : World Value) (k : Nat) (r : Row Value) (side : Side) :
    (finish lib (w.acquire k r (some side)) w.created (working 0)).2 =
      .element w.created r.data := by
  have helement : (w.acquire k r (some side)).elements w.created =
      some ⟨k, .opened, r.pos, r.data, some side⟩ := by
    rw [World.acquire_elements, Function.update_self]
  have hlive : (w.acquire k r (some side)).transactions k = .live w.created := by
    rw [World.acquire_transactions, Function.update_self]
  simp only [finish, helement, popElement, hlive, working]

theorem returned_of_plain (hj : S.written v = some j) (hholds : S.jsonb.Holds j)
    (hplain : 39 ∉ text j) (hw : ∀ r ∈ w.rows, r.pos.natAbs ≤ w.seq)
    (hi : w.transactions i = .idle) (hk : w.transactions k = .idle) : Returned S w i k side v := by
  intro skipped
  have hlt : w.seq < w.seq + skipped + 1 := by omega
  have hselect : select side k (appended w side (w.seq + skipped + 1) v).rows = some _ :=
    select_pushed hw hlt v
  have hidle : (appended w side (w.seq + skipped + 1) v).transactions k = .idle := hk
  rw [push_of_plain hj hholds hplain hi]
  dsimp only
  rw [take_of_idle S.library hidle hselect]
  exact ⟨rfl, rfl, finish_acquired S.library _ k _ side⟩

theorem idle_of_push {lib : Library Value} {io : Io} (h : (push lib w i side v io).2 = .done) :
    w.transactions i = .idle ∧ (push lib w i side v io).1.transactions = w.transactions := by
  unfold push at h ⊢
  split at h
  case isTrue => exact absurd h (by simp)
  case isFalse hbusy =>
    rw [if_neg hbusy]
    split at h
    case h_1 => exact absurd h (by simp)
    case h_2 literal hdump =>
      split at h
      case isTrue => exact absurd h (by simp)
      case isFalse hidle =>
        rw [ne_eq, not_not] at hidle
        refine ⟨hidle, ?_⟩
        simp only [hidle, ne_eq, not_true_eq_false, if_false]
        split
        · rfl
        · split
          · rfl
          · split
            · rfl
            · rfl

theorem idle_of_take {lib : Library Value} {id : Nat} {io : Io}
    (h : (take lib w k side true io).2 = .selected id v) : w.transactions k = .idle := by
  unfold take at h
  split at h
  case isTrue => exact absurd h (by simp)
  case isFalse =>
    split at h
    case isTrue => exact absurd h (by simp)
    case isFalse hidle => exact not_not.mp hidle

theorem idle_of_returned (h : Returned S w i k side v) :
    w.transactions i = .idle ∧ w.transactions k = .idle := by
  obtain ⟨hdone, hselected, -⟩ := h 0
  obtain ⟨hi, htransactions⟩ := idle_of_push hdone
  refine ⟨hi, ?_⟩
  rw [← htransactions]
  exact idle_of_take hselected

theorem numbered_run (lib : Library Value) {ops : List (Op Value)}
    (h : AtEachStep (PersistentDeque.next lib) World.new (Quoted lib) ops) :
    ∀ r ∈ (ops.foldl (PersistentDeque.next lib) World.new).rows,
      r.pos.natAbs ≤ (ops.foldl (PersistentDeque.next lib) World.new).seq := by
  have hsound : Sound none (ops.foldl (PersistentDeque.next lib) World.new) :=
    h.invariant sound_new fun _ _ hw hquoted => (follows_step hw hquoted).sound
  exact fun r hr => hsound.natAbs_pos_le hr

def Table.ofRun (lib : Library Value) (ops : List (Op Value))
    (h : AtEachStep (PersistentDeque.next lib) World.new (Quoted lib) ops) : Table where
  toWorld := ops.foldl (PersistentDeque.next lib) World.new
  numbered := numbered_run lib h

end Deque

/-- A value is kept exactly if no string in it has an apostrophe, and the instances hold no element
when they push and pop. -/
theorem kept_iff_plain (S : Service) (t : Table) (i k : Nat) (side : Side) (v : Held S) :
    Kept S t.toWorld i k side v.value ↔
      t.transactions i = .idle ∧ t.transactions k = .idle ∧
        ∀ s ∈ v.value.strings, '\'' ∉ s.toList := by
  have hcanonical := S.canonical_written v.value v.json v.written
  have hvalue := S.value_written v.value v.json v.written
  have hdump : S.library.dump v.value = some (text v.json) := congrArg (Option.map text) v.written
  have hplain : (∀ s ∈ v.value.strings, '\'' ∉ s.toList) ↔ 39 ∉ text v.json := by
    rw [mem_text (JsonText.numbered_of_canonical hcanonical), hvalue]
    simp
  rw [hplain]
  constructor
  · rintro ⟨hreturned, hinserted⟩
    obtain ⟨hi, hk⟩ := idle_of_returned hreturned
    exact ⟨hi, hk, oneInsert_iff.mp (hinserted _ hdump)⟩
  · rintro ⟨hi, hk, hquote⟩
    refine ⟨returned_of_plain v.written v.holds hquote t.numbered hi hk, fun constant hconstant => ?_⟩
    obtain rfl := Option.some.inj (hdump.symm.trans hconstant)
    exact oneInsert_iff.mpr hquote

section Samples

/-- Strings only are written. -/
def sampleWritten : Value → Option Json
  | .str s => some (.str s)
  | _ => none

def sampleJsonb : JsonbType where
  numeric w := if isNumber w then some w else none
  isNumber_numeric := by
    intro w u h
    split at h
    · rename_i hw
      exact Option.some.inj h ▸ hw
    · exact absurd h (by simp)
  value_numeric := by
    intro w u h
    split at h
    · rw [Option.some.inj h]
    · exact absurd h (by simp)
  arrange ms := ms
  arrange_perm := List.Perm.refl
  fits _ := true

def sampleService : Service where
  file := utf8 "persistent-deque.cpp"
  name := ⟨utf8 "jobs", by decide +kernel⟩
  written := sampleWritten
  canonical_written := by
    intro v j h
    cases v with
    | str s =>
        obtain rfl := Option.some.inj h
        rfl
    | _ => exact absurd h (by simp [sampleWritten])
  value_written := by
    intro v j h
    cases v with
    | str s =>
        obtain rfl := Option.some.inj h
        rfl
    | _ => exact absurd h (by simp [sampleWritten])
  jsonb := sampleJsonb
  other _ _ := none
  invalidUtf8 := utf8 "invalid UTF-8 byte"
  usageError := utf8 "Started new transaction while transaction was still active."
  unexpectedRows := utf8 "Expected 1 row(s) of data, got 0."
  refused _ := utf8 "ERROR:  syntax error"
  aborted := utf8 "ERROR:  current transaction is aborted"

def heldString (s : String) (h : '\x00' ∉ s.toList) : Held sampleService where
  value := .str s
  json := .str s
  written := rfl
  holds := ⟨rfl, by simp [JsonbType.stored, JsonbType.storedString, h]⟩

/-- The apostrophe of `it's` ends the constant. -/
theorem not_kept_apostrophe :
    ¬ Kept sampleService World.new 0 0 .back (heldString "it's" (by decide)).value := by
  intro h
  have hplain := oneInsert_iff.mp (h.inserted _ rfl)
  exact absurd hplain (by decide +kernel)

end Samples

end PgFort.PushedValues
