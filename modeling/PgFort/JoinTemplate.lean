import PgFort.JsonText
import PgFort.ParseTree

namespace PgFort.JoinTemplate

open PgFort.JsonTree
open PgFort.JsonText
open PgFort.ParseTree

inductive Marker where
  | tableName
  | tableAlias
  | tableRef
  | operation
  deriving DecidableEq, Repr

/-- The template dictionary. The section `ALIAS` is shown when `tableAlias` is
set. -/
structure TemplateDictionary where
  tableName : String
  operation : String
  tableAlias : Option String
  tableRef : String

/-- ctemplate replaces a plain marker verbatim; an unset one by nothing. -/
def TemplateDictionary.value (d : TemplateDictionary) : Marker → String
  | .tableName => d.tableName
  | .tableAlias => d.tableAlias.getD ""
  | .tableRef => d.tableRef
  | .operation => d.operation

/-- One symbol of a template line: a JSON token as it is written, or a quoted
marker followed by fixed text. -/
inductive Symbol where
  | tok (t : Token)
  | quoted (m : Marker) (suffix : String)
  deriving DecidableEq

structure Line where
  indent : List Char
  symbols : List Symbol

/-- A line, or the lines of the section `ALIAS` with the indentation that stands
before its opening marker. -/
inductive Block where
  | line (l : Line)
  | aliasSection (indent : List Char) (first : List Symbol) (rest : List Line)

section Template

private def str (s : String) : Symbol := .tok (.str s)
private def word (w : String) : Symbol := .tok (.word w)
private def lbrace : Symbol := .tok .lbrace
private def rbrace : Symbol := .tok .rbrace
private def lbracket : Symbol := .tok .lbracket
private def rbracket : Symbol := .tok .rbracket
private def colon : Symbol := .tok .colon
private def comma : Symbol := .tok .comma

private def tabs (n : Nat) (symbols : List Symbol) : Line :=
  ⟨List.replicate n '\t', symbols⟩

private def spaces (n : Nat) (symbols : List Symbol) : Line :=
  ⟨List.replicate n ' ', symbols⟩

/-- A `RangeVar` of the template: `larg` with no suffix, `rarg` with one. -/
private def rangeVarLines (suffix : String) : List Block :=
  [.line (tabs 3 [str "RangeVar", colon, lbrace]),
   .aliasSection (List.replicate 4 '\t')
     [str "alias", colon, lbrace]
     [tabs 5 [str "aliasname", colon, .quoted .tableAlias suffix],
      tabs 4 [rbrace, comma]],
   .line (tabs 4 [str "inh", colon, word "true", comma]),
   .line (tabs 4 [str "relname", colon, .quoted .tableName suffix, comma]),
   .line (tabs 4 [str "relpersistence", colon, str "p"]),
   .line (tabs 3 [rbrace])]

/-- The lines from `"ColumnRef"` to its closing brace. -/
private def columnRefLines (refSuffix column : String) : List Block :=
  [.line (tabs 8 [str "ColumnRef", colon, lbrace]),
   .line (tabs 9 [str "fields", colon, lbracket]),
   .line (tabs 10 [lbrace]),
   .line (tabs 11 [str "String", colon, lbrace]),
   .line (tabs 12 [str "str", colon, .quoted .tableRef refSuffix]),
   .line (tabs 11 [rbrace]),
   .line (tabs 10 [rbrace, comma]),
   .line (tabs 10 [lbrace]),
   .line (tabs 11 [str "String", colon, lbrace]),
   .line (tabs 12 [str "str", colon, str column]),
   .line (tabs 11 [rbrace]),
   .line (tabs 10 [rbrace]),
   .line (tabs 9 [rbracket]),
   .line (tabs 8 [rbrace])]

/-- One comparison of the join condition, up to its right side. -/
private def equalsLines (refSuffix column : String) : List (List Block) :=
  [[.line (tabs 5 [lbrace]),
    .line (tabs 6 [str "A_Expr", colon, lbrace]),
    .line (tabs 7 [str "kind", colon, str "AEXPR_OP", comma]),
    .line (tabs 7 [str "lexpr", colon, lbrace])],
   columnRefLines refSuffix column,
   [.line (tabs 7 [rbrace, comma]),
    .line (tabs 7 [str "name", colon, lbracket]),
    .line (tabs 8 [lbrace]),
    .line (tabs 9 [str "String", colon, lbrace]),
    .line (tabs 10 [str "str", colon, str "="]),
    .line (tabs 9 [rbrace]),
    .line (tabs 8 [rbrace]),
    .line (tabs 7 [rbracket, comma]),
    .line (tabs 7 [str "rexpr", colon, lbrace])]]

private def headLines : List Block :=
  [.line (tabs 0 [lbrace]),
   .line (tabs 1 [str "JoinExpr", colon, lbrace]),
   .line (tabs 2 [str "jointype", colon, str "JOIN_INNER", comma]),
   .line (tabs 2 [str "larg", colon, lbrace])]

private def qualsLines : List Block :=
  [.line (tabs 2 [rbrace, comma]),
   .line (tabs 2 [str "quals", colon, lbrace]),
   .line (tabs 3 [str "BoolExpr", colon, lbrace]),
   .line (tabs 4 [str "args", colon, lbracket])]

private def endEqualsLines : List Block :=
  [.line (tabs 7 [rbrace]),
   .line (tabs 6 [rbrace]),
   .line (tabs 5 [rbrace, comma])]

private def currentUserLines : List Block :=
  [.line (spaces 32 [str "SQLValueFunction", colon, lbrace]),
   .line (spaces 36 [str "op", colon, str "SVFOP_CURRENT_USER", comma]),
   .line (spaces 36 [str "typmod", colon, word "-1"]),
   .line (spaces 32 [rbrace])]

private def operationLines : List Block :=
  [.line (tabs 8 [str "A_Const", colon, lbrace]),
   .line (tabs 9 [str "val", colon, lbrace]),
   .line (tabs 10 [str "String", colon, lbrace]),
   .line (tabs 11 [str "str", colon, .quoted .operation ""]),
   .line (tabs 10 [rbrace]),
   .line (tabs 9 [rbrace]),
   .line (tabs 8 [rbrace]),
   .line (tabs 7 [rbrace]),
   .line (tabs 6 [rbrace]),
   .line (tabs 5 [rbrace])]

private def rargLines : List Block :=
  [.line (tabs 4 [rbracket, comma]),
   .line (tabs 4 [str "boolop", colon, str "AND_EXPR"]),
   .line (tabs 3 [rbrace]),
   .line (tabs 2 [rbrace, comma]),
   .line (tabs 2 [str "rarg", colon, lbrace])]

private def endLines : List Block :=
  [.line (tabs 2 [rbrace]),
   .line (tabs 1 [rbrace]),
   .line (tabs 0 [rbrace])]

/-- `join_expr.tpl`, line by line. -/
def joinExprTpl : List Block :=
  List.flatten
    [headLines, rangeVarLines "", qualsLines,
     (equalsLines "" "id").flatten, columnRefLines "__acls__" "_id", endEqualsLines,
     (equalsLines "__acls__" "_principal").flatten, currentUserLines, endEqualsLines,
     (equalsLines "__acls__" "_operation").flatten, operationLines,
     rargLines, rangeVarLines "__acls__", endLines]

end Template

/-- The text of a symbol once its marker is replaced. -/
def Symbol.spell (d : TemplateDictionary) : Symbol → List Char
  | .tok .lbrace => ['\x7b']
  | .tok .rbrace => ['\x7d']
  | .tok .lbracket => ['[']
  | .tok .rbracket => [']']
  | .tok .colon => [':', ' ']
  | .tok .comma => [',']
  | .tok (.word w) => w.toList
  | .tok (.str s) => '"' :: (s.toList ++ ['"'])
  | .quoted m suffix => '"' :: ((d.value m).toList ++ suffix.toList ++ ['"'])

def Line.expand (d : TemplateDictionary) (l : Line) : List Char :=
  l.indent ++ l.symbols.flatMap (Symbol.spell d)

/-- The lines a block leaves in the output. A hidden section leaves the white
space around it. -/
def Block.lines (d : TemplateDictionary) : Block → List Line
  | .line l => [l]
  | .aliasSection indent first rest =>
      match d.tableAlias with
      | some _ => ⟨indent, first⟩ :: rest
      | none => [⟨indent, []⟩]

/-- The template file ends its lines with CR LF, all but the last. -/
def joinLines : List (List Char) → List Char
  | [] => []
  | [l] => l
  | l :: ls => l ++ '\r' :: '\n' :: joinLines ls

/-- `ctemplate::ExpandTemplate` on the template file. -/
def expandTemplate (d : TemplateDictionary) : List Char :=
  joinLines ((joinExprTpl.flatMap (Block.lines d)).map (Line.expand d))

section Node

open Json

def columnRefNode (ref column : String) : Json :=
  node "ColumnRef" [("fields", .arr [stringNode ref, stringNode column])]

def equalsNode (lexpr rexpr : Json) : Json :=
  node "A_Expr" [("kind", .str "AEXPR_OP"), ("lexpr", lexpr),
    ("name", .arr [stringNode "="]), ("rexpr", rexpr)]

def rangeVarNode (relname : String) (aliasname : Option String) : Json :=
  node "RangeVar"
    ((aliasname.toList.map fun a => ("alias", Json.obj [("aliasname", .str a)])) ++
      [("inh", .bool true), ("relname", .str relname), ("relpersistence", .str "p")])

def currentUserNode : Json :=
  node "SQLValueFunction" [("op", .str "SVFOP_CURRENT_USER"), ("typmod", .num "-1")]

def stringConstNode (s : String) : Json :=
  node "A_Const" [("val", stringNode s)]

/-- The join condition on the access view that `ref` is joined with. -/
def qualsNode (ref operation : String) : Json :=
  node "BoolExpr"
    [("args", .arr
      [equalsNode (columnRefNode ref "id") (columnRefNode (ref ++ "__acls__") "_id"),
       equalsNode (columnRefNode (ref ++ "__acls__") "_principal") currentUserNode,
       equalsNode (columnRefNode (ref ++ "__acls__") "_operation")
         (stringConstNode operation)]),
     ("boolop", .str "AND_EXPR")]

/-- What the template spells when its markers stand for themselves. -/
def joinExprNode (d : TemplateDictionary) : Json :=
  node "JoinExpr"
    [("jointype", .str "JOIN_INNER"),
     ("larg", rangeVarNode d.tableName d.tableAlias),
     ("quals", qualsNode d.tableRef d.operation),
     ("rarg", rangeVarNode (d.tableName ++ "__acls__")
       (d.tableAlias.map (· ++ "__acls__")))]

end Node

section Lexing

/-- The token a symbol stands for once its marker is replaced. -/
def Symbol.token (d : TemplateDictionary) : Symbol → Token
  | .tok t => t
  | .quoted m suffix => .str (d.value m ++ suffix)

/-- Characters that a lexer takes into a word. -/
def isWordChar (c : Char) : Bool :=
  !isSpace c && c != '"' && (punctuation c).isNone

/-- A word may only be followed by a comma or the end of its line. -/
def spelled : List Symbol → Bool
  | [] => true
  | .tok (.word w) :: rest =>
      !w.toList.isEmpty && w.toList.all isWordChar &&
        (rest.isEmpty || rest.head? == some (.tok .comma)) && spelled rest
  | .tok (.str s) :: rest => decide (Plain s.toList) && spelled rest
  | .quoted _ suffix :: rest => decide (Plain suffix.toList) && spelled rest
  | _ :: rest => spelled rest

/-- The markers among some symbols are replaced by plain text. -/
def PlainMarkers (d : TemplateDictionary) (ss : List Symbol) : Prop :=
  ∀ m suffix, .quoted m suffix ∈ ss → Plain (d.value m).toList

/-- What the markers among some symbols are replaced by is read as the values in another
dictionary. -/
def MarkersReadAs (d d' : TemplateDictionary) (ss : List Symbol) : Prop :=
  ∀ m suffix, .quoted m suffix ∈ ss → ReadAs (d.value m).toList (d'.value m).toList

theorem PlainMarkers.readAs {d : TemplateDictionary} {ss : List Symbol}
    (h : PlainMarkers d ss) : MarkersReadAs d d ss :=
  fun m suffix hmem => readAs_of_plain (h m suffix hmem)

theorem lexStep_word_of_not_wordChar {c : Char} (acc : List Char)
    (hc : isWordChar c = false) :
    lexStep (.word acc) c =
      (.word (String.ofList acc.reverse) :: (lexStep .idle c).1, (lexStep .idle c).2) := by
  simp only [isWordChar, Bool.and_eq_false_iff, Bool.not_eq_false', bne_eq_false_iff_eq,
    Option.isNone_eq_false_iff, or_assoc] at hc
  simp only [lexStep, lexOutside]
  rcases hc with hspace | rfl | hpunct
  · simp [hspace]
  · simp [isSpace]
  · obtain ⟨t, ht⟩ := Option.isSome_iff_exists.mp hpunct
    split
    · rfl
    · split
      · rfl
      · simp [ht]

theorem lexStep_idle_wordChar {c : Char} (hc : isWordChar c = true) :
    lexStep .idle c = ([], .word [c]) := by
  simp only [isWordChar, Bool.and_eq_true, Bool.not_eq_true', bne_iff_ne,
    Option.isNone_iff_eq_none] at hc
  simp [lexStep, lexOutside, hc.1.1, hc.1.2, hc.2]

theorem lexStep_word_wordChar {c : Char} (acc : List Char) (hc : isWordChar c = true) :
    lexStep (.word acc) c = ([], .word (c :: acc)) := by
  simp only [isWordChar, Bool.and_eq_true, Bool.not_eq_true', bne_iff_ne,
    Option.isNone_iff_eq_none] at hc
  simp [lexStep, lexOutside, hc.1.1, hc.1.2, hc.2]

theorem scan_word_wordChars (acc cs : List Char) (h : ∀ c ∈ cs, isWordChar c = true) :
    scan (.word acc) cs = ([], .word (cs.reverse ++ acc)) := by
  induction cs generalizing acc with
  | nil => rfl
  | cons c cs ih =>
      rw [scan, lexStep_word_wordChar acc (h c (by simp)),
        ih (c :: acc) fun d hd => h d (by simp [hd])]
      simp

theorem scan_word {w : String} (hne : w.toList ≠ [])
    (hw : ∀ c ∈ w.toList, isWordChar c = true) {c : Char} (hc : isWordChar c = false)
    (rest : List Char) :
    scan .idle (w.toList ++ c :: rest) =
      (.word w :: (scan .idle (c :: rest)).1, (scan .idle (c :: rest)).2) := by
  obtain ⟨e, es, hes⟩ := List.exists_cons_of_ne_nil hne
  have hword : scan .idle w.toList = ([], .word w.toList.reverse) := by
    rw [hes] at hw ⊢
    rw [scan, lexStep_idle_wordChar (hw e (by simp)),
      scan_word_wordChars [e] es fun d hd => hw d (by simp [hd])]
    simp
  rw [scan_append, hword]
  simp only [List.nil_append, scan, lexStep_word_of_not_wordChar _ hc, List.reverse_reverse,
    String.ofList_toList, List.cons_append]

theorem scan_str {s read : List Char} (hs : ReadAs s read) (rest : List Char) :
    scan .idle ('"' :: (s ++ ['"']) ++ rest) =
      (.str (String.ofList read) :: (scan .idle rest).1, (scan .idle rest).2) := by
  have hopen : scan .idle ('"' :: (s ++ ['"'])) = ([.str (String.ofList read)], .idle) := by
    rw [scan, show lexStep .idle '"' = ([], .str []) from rfl]
    simp [scan_readAs_quote hs]
  rw [scan_append, hopen]
  rfl

theorem scan_symbols {d d' : TemplateDictionary} {ss : List Symbol} (hd : MarkersReadAs d d' ss)
    (hss : spelled ss = true) {c : Char} (hc : isWordChar c = false) (rest : List Char) :
    scan .idle (ss.flatMap (Symbol.spell d) ++ c :: rest) =
      (ss.map (Symbol.token d') ++ (scan .idle (c :: rest)).1, (scan .idle (c :: rest)).2) := by
  induction ss with
  | nil => rfl
  | cons s ss ih =>
      have hd' : MarkersReadAs d d' ss := fun m suffix h => hd m suffix (by simp [h])
      rw [List.flatMap_cons, List.append_assoc]
      cases s with
      | quoted m suffix =>
          rw [spelled, Bool.and_eq_true, decide_eq_true_eq] at hss
          have hvalue : ReadAs (d.value m).toList (d'.value m).toList := hd m suffix (by simp)
          rw [Symbol.spell, scan_str (hvalue.append_plain hss.1), ih hd' hss.2]
          simp [Symbol.token, String.ofList_append]
      | tok t =>
          cases t with
          | str s =>
              rw [spelled, Bool.and_eq_true, decide_eq_true_eq] at hss
              rw [Symbol.spell, scan_str (readAs_of_plain hss.1), ih hd' hss.2]
              simp [Symbol.token]
          | word w =>
              rw [spelled, Bool.and_eq_true, Bool.and_eq_true, Bool.and_eq_true,
                List.all_eq_true] at hss
              obtain ⟨⟨⟨hne, hw⟩, hnext⟩, hss⟩ := hss
              have hne' : w.toList ≠ [] := by simpa using hne
              have htail : ∃ e es, ss.flatMap (Symbol.spell d) ++ c :: rest = e :: es ∧
                  isWordChar e = false := by
                cases ss with
                | nil => exact ⟨c, rest, rfl, hc⟩
                | cons s' ss =>
                    have hs' : s' = .tok .comma := by simpa using hnext
                    subst s'
                    exact ⟨',', _, rfl, by decide⟩
              obtain ⟨e, es, htail, he⟩ := htail
              have hrest := ih hd' hss
              rw [htail] at hrest ⊢
              rw [Symbol.spell, scan_word hne' hw he, hrest]
              rfl
          | _ =>
              rw [spelled] at hss
              · simp [Symbol.spell, Symbol.token, scan, lexStep, lexOutside, isSpace, punctuation,
                  ih hd' hss]
              all_goals simp

theorem scan_indent {cs : List Char} (h : cs.all isSpace = true) (rest : List Char) :
    scan .idle (cs ++ rest) = scan .idle rest := by
  induction cs with
  | nil => rfl
  | cons c cs ih =>
      rw [List.all_cons, Bool.and_eq_true] at h
      simp [scan, lexStep, lexOutside, h.1, ih h.2]

theorem scan_space {c : Char} (hc : isSpace c = true) (rest : List Char) :
    scan .idle (c :: rest) = scan .idle rest := by
  have h : [c].all isSpace = true := by simp [hc]
  exact scan_indent h rest

end Lexing

section WellSpelled

/-- At most one marker, by itself or in the name of an access view, and nothing but a comma
behind. -/
def oneMarker : List Symbol → Bool
  | [] => true
  | .tok _ :: rest => oneMarker rest
  | .quoted _ suffix :: rest =>
      (suffix == "" || suffix == "__acls__") && (rest == [] || rest == [.tok .comma])

/-- What all lines of the template are like. -/
def Line.wellSpelled (l : Line) : Bool :=
  l.indent.all isSpace && (spelled l.symbols && oneMarker l.symbols)

def Block.wellSpelled : Block → Bool
  | .line l => l.wellSpelled
  | .aliasSection indent first rest =>
      indent.all isSpace && (Line.wellSpelled ⟨indent, first⟩ && rest.all Line.wellSpelled)

theorem joinExprTpl_wellSpelled : joinExprTpl.all Block.wellSpelled = true := by
  decide +kernel

theorem wellSpelled_of_mem_lines {d : TemplateDictionary} {l : Line}
    (hl : l ∈ joinExprTpl.flatMap (Block.lines d)) : l.wellSpelled = true := by
  obtain ⟨b, hb, hlb⟩ := List.mem_flatMap.mp hl
  have hok := List.all_eq_true.mp joinExprTpl_wellSpelled b hb
  cases b with
  | line l' =>
      obtain rfl : l = l' := by simpa [Block.lines] using hlb
      exact hok
  | aliasSection indent first rest =>
      rw [Block.wellSpelled, Bool.and_eq_true, Bool.and_eq_true, List.all_eq_true] at hok
      rw [Block.lines] at hlb
      cases ha : d.tableAlias with
      | none =>
          obtain rfl : l = ⟨indent, []⟩ := by simpa [ha] using hlb
          simpa [Line.wellSpelled, spelled, oneMarker] using hok.1
      | some a =>
          have hlb' : l = ⟨indent, first⟩ ∨ l ∈ rest := by simpa [ha] using hlb
          rcases hlb' with rfl | hrest
          · exact hok.2.1
          · exact List.all_eq_true.mp hok.2.2 l hrest

theorem scan_line {d d' : TemplateDictionary} {l : Line} (hd : MarkersReadAs d d' l.symbols)
    (hl : l.wellSpelled = true) {c : Char} (hc : isSpace c = true) :
    scan .idle (l.expand d ++ [c]) = (l.symbols.map (Symbol.token d'), .idle) := by
  simp only [Line.wellSpelled, Bool.and_eq_true] at hl
  rw [Line.expand, List.append_assoc, scan_indent hl.1,
    scan_symbols hd hl.2.1 (by simp [isWordChar, hc]), scan_space hc]
  simp [scan]

theorem joinLines_cons (l l' : List Char) (ls : List (List Char)) :
    joinLines (l :: l' :: ls) ++ ['\n'] =
      (l ++ ['\r']) ++ '\n' :: (joinLines (l' :: ls) ++ ['\n']) := by
  simp [joinLines]

theorem scan_joinLines {d d' : TemplateDictionary} {ls : List Line}
    (hd : ∀ l ∈ ls, MarkersReadAs d d' l.symbols) (hls : ∀ l ∈ ls, l.wellSpelled = true) :
    scan .idle (joinLines (ls.map (Line.expand d)) ++ ['\n']) =
      (ls.flatMap fun l => l.symbols.map (Symbol.token d'), .idle) := by
  induction ls with
  | nil => rfl
  | cons l ls ih =>
      have hl : ∀ c, isSpace c = true →
          scan .idle (l.expand d ++ [c]) = (l.symbols.map (Symbol.token d'), .idle) :=
        fun c hc => scan_line (hd l (by simp)) (hls l (by simp)) hc
      cases ls with
      | nil => simpa [joinLines] using hl '\n' rfl
      | cons l' ls =>
          have hrest := ih (fun k hk => hd k (by simp [hk])) fun k hk => hls k (by simp [hk])
          rw [List.map_cons, List.map_cons, joinLines_cons, scan_append, hl '\r' rfl,
            scan_space rfl, ← List.map_cons, hrest]
          rfl

end WellSpelled

section Expansion

theorem canonical_joinExprNode (d : TemplateDictionary) :
    canonical (joinExprNode d) = true := by
  have hnum : isNumber "-1" = true := by decide
  have hjoin : keysSorted ["jointype", "larg", "quals", "rarg"] = true := by decide +kernel
  have hvar : keysSorted ["inh", "relname", "relpersistence"] = true := by decide +kernel
  have halias : keysSorted ["alias", "inh", "relname", "relpersistence"] = true := by
    decide +kernel
  have hbool : keysSorted ["args", "boolop"] = true := by decide +kernel
  have hexpr : keysSorted ["kind", "lexpr", "name", "rexpr"] = true := by decide +kernel
  have huser : keysSorted ["op", "typmod"] = true := by decide +kernel
  have hone : ∀ k, keysSorted [k] = true := fun k => rfl
  cases d with
  | mk tableName operation tableAlias tableRef =>
      cases tableAlias <;>
        simp [joinExprNode, node, rangeVarNode, qualsNode, equalsNode, columnRefNode,
          stringNode, stringConstNode, currentUserNode, canonical, canonicalElems,
          canonicalMembers, hnum, hjoin, hvar, halias, hbool, hexpr, huser, hone]

set_option maxRecDepth 4000 in
theorem tokens_joinExprTpl (d : TemplateDictionary) :
    ((joinExprTpl.flatMap (Block.lines d)).flatMap fun l => l.symbols.map (Symbol.token d)) =
      tokens (joinExprNode d) := by
  cases d with
  | mk tableName operation tableAlias tableRef =>
      cases tableAlias <;>
        simp [joinExprTpl, headLines, rangeVarLines, qualsLines, equalsLines, columnRefLines,
          endEqualsLines, currentUserLines, operationLines, rargLines, endLines, tabs, spaces,
          str, word, lbrace, rbrace, lbracket, rbracket, colon, comma, Block.lines,
          Symbol.token, TemplateDictionary.value, joinExprNode, node, rangeVarNode, qualsNode,
          equalsNode, columnRefNode, stringNode, stringConstNode, currentUserNode, tokens,
          elemTokens, memberTokens]

/-- The dictionary that the acler fills for a table, its alias and `SELECT`. -/
def aclDictionary (relname : String) (aliasname : Option String) : TemplateDictionary where
  tableName := relname
  operation := "SELECT"
  tableAlias := aliasname
  tableRef := aliasname.getD relname

/-- Neither name has a character that a JSON string cannot hold verbatim. -/
def PlainNames (relname : String) (aliasname : Option String) : Prop :=
  Plain relname.toList ∧ ∀ a, aliasname = some a → Plain a.toList

theorem PlainNames.value {relname : String} {aliasname : Option String}
    (h : PlainNames relname aliasname) (m : Marker) :
    Plain ((aclDictionary relname aliasname).value m).toList := by
  have hselect : Plain "SELECT".toList := by decide +kernel
  cases m with
  | tableName => exact h.1
  | operation => exact hselect
  | tableAlias =>
      cases aliasname with
      | none => simp [TemplateDictionary.value, aclDictionary, Plain]
      | some a => exact h.2 a rfl
  | tableRef =>
      cases aliasname with
      | none => exact h.1
      | some a => exact h.2 a rfl

theorem Block.lines_congr {d d' : TemplateDictionary}
    (h : d.tableAlias.isSome = d'.tableAlias.isSome) (b : Block) : b.lines d = b.lines d' := by
  cases b with
  | line l => rfl
  | aliasSection indent first rest =>
      rw [Block.lines, Block.lines]
      cases hd : d.tableAlias <;> cases hd' : d'.tableAlias <;> simp_all

theorem lines_joinExprTpl_congr {d : TemplateDictionary} (d' : TemplateDictionary)
    (h : d.tableAlias.isSome = d'.tableAlias.isSome) :
    joinExprTpl.flatMap (Block.lines d) = joinExprTpl.flatMap (Block.lines d') :=
  List.flatMap_congr fun b _ => b.lines_congr h

/-- The expanded text parses to the join node of the values that it is read with. -/
theorem parse_expandTemplate_of_readAs {d d' : TemplateDictionary}
    (hvalue : ∀ m, ReadAs (d.value m).toList (d'.value m).toList)
    (halias : d.tableAlias.isSome = d'.tableAlias.isSome) :
    parse (expandTemplate d) = .ok (joinExprNode d') := by
  refine parse_of_scan (canonical_joinExprNode _) ?_
  rw [expandTemplate, scan_joinLines (fun _ _ m _ _ => hvalue m)
    (fun _ hl => wellSpelled_of_mem_lines hl), lines_joinExprTpl_congr d' halias,
    tokens_joinExprTpl]

/-- With plain names the expanded text parses to the join node. -/
theorem parse_expandTemplate {relname : String} {aliasname : Option String}
    (h : PlainNames relname aliasname) :
    parse (expandTemplate (aclDictionary relname aliasname)) =
      .ok (joinExprNode (aclDictionary relname aliasname)) :=
  parse_expandTemplate_of_readAs (fun m => readAs_of_plain (h.value m)) rfl

end Expansion

section Outer

theorem scan_joinLines_cons {d : TemplateDictionary} {l l' : Line} {ls : List Line}
    (hd : PlainMarkers d l.symbols) (hl : l.wellSpelled = true) :
    (scan .idle (joinLines ((l :: l' :: ls).map (Line.expand d)) ++ ['\n'])).1 =
      l.symbols.map (Symbol.token d) ++
        (scan .idle (joinLines ((l' :: ls).map (Line.expand d)) ++ ['\n'])).1 := by
  rw [List.map_cons, List.map_cons, joinLines_cons, scan_append, scan_line hd.readAs hl rfl,
    scan_space rfl, ← List.map_cons]

theorem scan_expandTemplate (d : TemplateDictionary) :
    ∃ ts, (scan .idle (expandTemplate d ++ ['\n'])).1 = .lbrace :: .str "JoinExpr" :: ts := by
  have hplain : ∀ ts : List Token, PlainMarkers d (ts.map Symbol.tok) := by
    intro ts m suffix hmem
    simp at hmem
  rw [expandTemplate]
  show ∃ ts, (scan .idle (joinLines ((tabs 0 [lbrace] ::
    tabs 1 [str "JoinExpr", colon, lbrace] :: _ :: _).map (Line.expand d)) ++ ['\n'])).1 = _
  rw [scan_joinLines_cons (hplain [.lbrace]) (by decide +kernel),
    scan_joinLines_cons (hplain [.str "JoinExpr", .colon, .lbrace]) (by decide +kernel)]
  exact ⟨_, rfl⟩

theorem key_mem_of_parse_expandTemplate {d : TemplateDictionary} {j : Json}
    (h : parse (expandTemplate d) = .ok j) :
    ∃ ms, j = .obj ms ∧ "JoinExpr" ∈ ms.map Prod.fst := by
  obtain ⟨ts, hscan⟩ := scan_expandTemplate d
  exact key_mem_of_parse h hscan

end Outer

section Injection

/-- What stands behind a marker cannot rescue a string that is still open at
the end of its line. -/
theorem scan_lineEnd {m : Mode} {ss : List Symbol} {d : TemplateDictionary} {c : Char}
    (hss : ss = [] ∨ ss = [.tok .comma]) (hc : c = '\r' ∨ c = '\n')
    (h : (scan m (ss.flatMap (Symbol.spell d) ++ [c])).2 ≠ .fail) :
    (scan m (ss.flatMap (Symbol.spell d) ++ [c])).2 = .idle ∧
      ∀ s, Token.str s ∉ (scan m (ss.flatMap (Symbol.spell d) ++ [c])).1 := by
  rcases hss with rfl | rfl <;> rcases hc with rfl | rfl <;> cases m with
  | low acc high backslash => cases backslash <;> simp [scan, lexStep, Symbol.spell] at h
  | _ =>
      simp_all [scan, lexStep, lexOutside, Symbol.spell, isSpace, isSpecial, shortEscape, hexDigit,
        punctuation]

theorem exists_first_special {cs : List Char} (h : ¬ Plain cs) :
    ∃ xs c ys, cs = xs ++ c :: ys ∧ Plain xs ∧ isSpecial c = true := by
  induction cs with
  | nil => exact absurd (by simp [Plain]) h
  | cons c cs ih =>
      cases hc : isSpecial c with
      | true => exact ⟨[], c, cs, rfl, by simp [Plain], hc⟩
      | false =>
          have hcs : ¬ Plain cs := by
            intro hcs
            apply h
            intro d hd
            rcases List.mem_cons.mp hd with rfl | hd
            · exact hc
            · exact hcs d hd
          obtain ⟨xs, e, ys, rfl, hxs, he⟩ := ih hcs
          refine ⟨c :: xs, e, ys, rfl, ?_, he⟩
          intro d hd
          rcases List.mem_cons.mp hd with rfl | hd
          · exact hc
          · exact hxs d hd

theorem length_of_scan_not_plain {cs suffix rest : List Char} (hcs : ¬ Plain cs)
    (hrest : ∀ m, (scan m rest).2 ≠ .fail → ∀ s, Token.str s ∉ (scan m rest).1)
    (h : (scan (.str []) (cs ++ suffix ++ '"' :: rest)).2 ≠ .fail) {s : String}
    (hs : Token.str s ∈ (scan (.str []) (cs ++ suffix ++ '"' :: rest)).1) :
    s.toList.length < cs.length + suffix.length := by
  obtain ⟨xs, c, ys, rfl, hxs, hc⟩ := exists_first_special hcs
  have hsplit : xs ++ c :: ys ++ suffix ++ '"' :: rest =
      xs ++ ([c] ++ ((ys ++ suffix ++ ['"']) ++ rest)) := by simp
  -- the mode after the special character and the string it may have completed
  have hafter : ∀ n ts, lexStep (.str xs.reverse) c = (ts, n) →
      (∀ s, Token.str s ∈ ts → s.toList.length ≤ xs.length) → n.read ≤ xs.length + 1 →
      s.toList.length < (xs ++ c :: ys).length + suffix.length := by
    intro n ts hstep hts hread
    have hscan : scan (.str []) (xs ++ c :: ys ++ suffix ++ '"' :: rest) =
        (ts ++ ((scan n (ys ++ suffix ++ ['"'])).1 ++
          (scan (scan n (ys ++ suffix ++ ['"'])).2 rest).1),
          (scan (scan n (ys ++ suffix ++ ['"'])).2 rest).2) := by
      rw [hsplit, scan_append, scan_plain [] xs hxs, List.append_nil, List.singleton_append, scan,
        hstep, scan_append n]
      rfl
    rw [hscan] at h hs
    rcases List.mem_append.mp hs with hs | hs
    · have := hts s hs
      simp only [List.length_append, List.length_cons]
      omega
    · rcases List.mem_append.mp hs with hs | hs
      · have := length_of_mem_scan hs
        simp only [List.length_append, List.length_cons, List.length_nil] at this ⊢
        omega
      · exact absurd hs (hrest _ h s)
  simp only [isSpecial, Bool.or_eq_true, beq_iff_eq, decide_eq_true_eq] at hc
  rcases hc with (rfl | rfl) | hlt
  · exact hafter .idle [.str (String.ofList xs)] (by simp [lexStep]) (by simp) (by simp [Mode.read])
  · exact hafter (.esc xs.reverse) [] (by simp [lexStep]) (by simp) (by simp [Mode.read])
  · have hfail : lexStep (.str xs.reverse) c = ([], .fail) := by
      have hq : c ≠ '"' := by
        rintro rfl
        exact absurd hlt (by decide)
      have hb : c ≠ '\\' := by
        rintro rfl
        exact absurd hlt (by decide)
      simp [lexStep, hq, hb, isSpecial, hlt]
    exact hafter .fail [] hfail (by simp) (by simp [Mode.read])

theorem plain_of_mem_tokens {d : TemplateDictionary} {ss : List Symbol}
    (hd : PlainMarkers d ss) (hss : spelled ss = true) {s : String}
    (hs : Token.str s ∈ ss.map (Symbol.token d)) : Plain s.toList := by
  induction ss with
  | nil => simp at hs
  | cons t ss ih =>
      have hd' : PlainMarkers d ss := fun m suffix h => hd m suffix (by simp [h])
      rw [List.map_cons, List.mem_cons] at hs
      cases t with
      | quoted m suffix =>
          rw [spelled, Bool.and_eq_true, decide_eq_true_eq] at hss
          rcases hs with hs | hs
          · obtain rfl : s = d.value m ++ suffix := by simpa [Symbol.token] using hs
            rw [String.toList_append]
            exact (hd m suffix (by simp)).append hss.1
          · exact ih hd' hss.2 hs
      | tok t =>
          cases t with
          | str r =>
              rw [spelled, Bool.and_eq_true, decide_eq_true_eq] at hss
              rcases hs with hs | hs
              · obtain rfl : s = r := by simpa [Symbol.token] using hs
                exact hss.1
              · exact ih hd' hss.2 hs
          | word w =>
              rw [spelled, Bool.and_eq_true] at hss
              exact ih hd' hss.2 (by simpa [Symbol.token] using hs)
          | _ =>
              rw [spelled] at hss
              · exact ih hd' hss (by simpa [Symbol.token] using hs)
              all_goals simp

/-- In a line with at most one marker, the one that does not meet a condition. -/
theorem exists_first_marker {P : Marker → Prop} {ss : List Symbol} (hss : spelled ss = true)
    (hone : oneMarker ss = true) (hd : ¬∀ m suffix, .quoted m suffix ∈ ss → P m) :
    ∃ pre m suffix rest, ss = pre ++ .quoted m suffix :: rest ∧
      (∀ m suffix, .quoted m suffix ∉ pre) ∧ spelled pre = true ∧ ¬P m ∧
      (suffix = "" ∨ suffix = "__acls__") ∧ (rest = [] ∨ rest = [.tok .comma]) := by
  induction ss with
  | nil => exact absurd (by simp) hd
  | cons s ss ih =>
      cases s with
      | quoted m suffix =>
          rw [oneMarker, Bool.and_eq_true, Bool.or_eq_true, Bool.or_eq_true] at hone
          simp only [beq_iff_eq] at hone
          refine ⟨[], m, suffix, ss, rfl, by simp, rfl, ?_, hone.1, hone.2⟩
          intro hm
          apply hd
          intro m' suffix' hmem
          rcases List.mem_cons.mp hmem with heq | hmem
          · cases heq
            exact hm
          · rcases hone.2 with rfl | rfl <;> simp at hmem
      | tok t =>
          have hd' : ¬∀ m suffix, .quoted m suffix ∈ ss → P m := by
            intro hd'
            apply hd
            intro m suffix hmem
            exact hd' m suffix (by simpa using hmem)
          have hss' : spelled ss = true := by
            cases t <;> simp_all [spelled]
          obtain ⟨pre, m, suffix, rest, rfl, hpre, hspelled, hrest⟩ :=
            ih hss' (by simpa [oneMarker] using hone) hd'
          refine ⟨.tok t :: pre, m, suffix, rest, rfl, ?_, ?_, hrest⟩
          · intro m' suffix' hmem
            exact hpre m' suffix' (by simpa using hmem)
          · cases t with
            | word w => cases pre <;> simp_all [spelled]
            | _ => simp_all [spelled]

/-- A line up to its marker, and what the lexer makes of the rest. -/
theorem scan_line_of_marker {d : TemplateDictionary} {l : Line} {pre rest : List Symbol}
    {m : Marker} {suffix : String} (hl : l.indent.all isSpace = true)
    (hsplit : l.symbols = pre ++ .quoted m suffix :: rest)
    (hpre : ∀ m suffix, .quoted m suffix ∉ pre) (hspelled : spelled pre = true) (c : Char) :
    scan .idle (l.expand d ++ [c]) =
      (pre.map (Symbol.token d) ++ (scan (.str []) ((d.value m).toList ++ suffix.toList ++
          '"' :: (rest.flatMap (Symbol.spell d) ++ [c]))).1,
        (scan (.str []) ((d.value m).toList ++ suffix.toList ++
          '"' :: (rest.flatMap (Symbol.spell d) ++ [c]))).2) := by
  have htext : l.expand d ++ [c] = l.indent ++ (pre.flatMap (Symbol.spell d) ++
      '"' :: ((d.value m).toList ++ suffix.toList ++
        '"' :: (rest.flatMap (Symbol.spell d) ++ [c]))) := by
    simp [Line.expand, hsplit, Symbol.spell]
  have hnone : MarkersReadAs d d pre := fun m suffix hmem => absurd hmem (hpre m suffix)
  rw [htext, scan_indent hl, scan_symbols hnone hspelled (by decide), scan]
  rfl

/-- The string `s` is shorter than the text of a marker that is not plain. -/
def ShorterThanMarker (d : TemplateDictionary) (s : String) : Prop :=
  ∃ m, ¬ Plain (d.value m).toList ∧ s.toList.length < (d.value m).toList.length + 8

theorem strings_of_scan_line {d : TemplateDictionary} {l : Line} (hl : l.wellSpelled = true)
    {c : Char} (hc : c = '\r' ∨ c = '\n')
    (h : (scan .idle (l.expand d ++ [c])).2 ≠ .fail) :
    (scan .idle (l.expand d ++ [c])).2 = .idle ∧
      ∀ s, Token.str s ∈ (scan .idle (l.expand d ++ [c])).1 →
        Plain s.toList ∨ ShorterThanMarker d s := by
  have hspace : isSpace c = true := by rcases hc with rfl | rfl <;> rfl
  have hok := hl
  simp only [Line.wellSpelled, Bool.and_eq_true] at hok
  by_cases hd : PlainMarkers d l.symbols
  · rw [scan_line hd.readAs hl hspace]
    exact ⟨rfl, fun s hs => .inl (plain_of_mem_tokens hd hok.2.1 hs)⟩
  · obtain ⟨pre, m, suffix, rest, hsplit, hpre, hspelled, hm, hsuffix, hrest⟩ :=
      exists_first_marker hok.2.1 hok.2.2 hd
    have hlen : suffix.toList.length ≤ 8 := by
      rcases hsuffix with rfl | rfl <;> decide
    have hscan := @scan_line_of_marker d l pre rest m suffix hok.1 hsplit hpre hspelled c
    -- behind the closing quote of the template no string can be completed
    have hend : ∀ n, (scan n (rest.flatMap (Symbol.spell d) ++ [c])).2 ≠ .fail →
        ∀ s, Token.str s ∉ (scan n (rest.flatMap (Symbol.spell d) ++ [c])).1 :=
      fun n hn => (scan_lineEnd hrest hc hn).2
    rw [hscan] at h ⊢
    refine ⟨?_, fun s hs => ?_⟩
    · simp only at h ⊢
      rw [show ∀ xs ys : List Char, xs ++ '"' :: ys = (xs ++ ['"']) ++ ys by simp,
        scan_append] at h ⊢
      exact (scan_lineEnd hrest hc h).1
    · rcases List.mem_append.mp hs with hs | hs
      · have hnone : PlainMarkers d pre := fun m suffix hmem => absurd hmem (hpre m suffix)
        exact .inl (plain_of_mem_tokens hnone hspelled hs)
      · have hlt := length_of_scan_not_plain hm hend h hs
        exact .inr ⟨m, hm, by omega⟩

theorem strings_of_scan_joinLines {d : TemplateDictionary} {ls : List Line}
    (hls : ∀ l ∈ ls, l.wellSpelled = true)
    (h : (scan .idle (joinLines (ls.map (Line.expand d)) ++ ['\n'])).2 ≠ .fail) {s : String}
    (hs : Token.str s ∈ (scan .idle (joinLines (ls.map (Line.expand d)) ++ ['\n'])).1) :
    Plain s.toList ∨ ShorterThanMarker d s := by
  induction ls with
  | nil => simp [joinLines, scan, lexStep, lexOutside, isSpace] at hs
  | cons l ls ih =>
      cases ls with
      | nil =>
          simp only [List.map_cons, List.map_nil, joinLines] at h hs
          exact (strings_of_scan_line (hls l (by simp)) (.inr rfl) h).2 s hs
      | cons l' ls =>
          rw [List.map_cons, List.map_cons, joinLines_cons, scan_append] at h hs
          have hline : (scan .idle (l.expand d ++ ['\r'])).2 ≠ .fail := by
            intro hfail
            rw [hfail, scan_fail] at h
            exact h rfl
          obtain ⟨hidle, hstrings⟩ :=
            strings_of_scan_line (hls l (by simp)) (.inl rfl) hline
          rw [hidle, scan_space rfl] at h hs
          rcases List.mem_append.mp hs with hs | hs
          · exact hstrings s hs
          · exact ih (fun k hk => hls k (by simp [hk])) h hs

theorem hasString_node {kind : String} {fields : List (String × Json)} {k s : String}
    {v : Json} (hmem : (k, v) ∈ fields) (hv : HasString v s) : HasString (node kind fields) s :=
  hasString_obj.mpr ⟨(kind, .obj fields), by simp, hasString_obj.mpr ⟨(k, v), hmem, hv⟩⟩

theorem hasString_joinExprNode {relname : String} {aliasname : Option String} {u : String}
    (hu : u = relname ∨ aliasname = some u) :
    HasString (joinExprNode (aclDictionary relname aliasname)) (u ++ "__acls__") := by
  refine hasString_node (k := "rarg") (v := rangeVarNode _ _) (by simp; rfl) ?_
  rcases hu with rfl | rfl
  · exact hasString_node (k := "relname") (v := .str _) (by simp [aclDictionary])
      (hasString_str.mpr rfl)
  · refine hasString_node (k := "alias")
      (v := .obj [("aliasname", .str (u ++ "__acls__"))]) (by simp [aclDictionary]) ?_
    exact hasString_obj.mpr ⟨_, List.mem_cons_self, hasString_str.mpr rfl⟩

/-- The expanded text parses to the join node exactly when both names are
plain: a quote, a backslash or a control character in one of them makes the text
spell another value, or none. -/
theorem parse_expandTemplate_iff {relname : String} {aliasname : Option String} :
    parse (expandTemplate (aclDictionary relname aliasname)) =
        .ok (joinExprNode (aclDictionary relname aliasname)) ↔
      PlainNames relname aliasname := by
  refine ⟨fun h => ?_, parse_expandTemplate⟩
  obtain ⟨ts, hscan, hstrings⟩ := scan_of_parse h
  -- for each name that is not plain there is a longer one
  have hlonger : ∀ u, (u = relname ∨ aliasname = some u) → ¬ Plain u.toList →
      ∃ w, (w = relname ∨ aliasname = some w) ∧ ¬ Plain w.toList ∧
        u.toList.length < w.toList.length := by
    intro u hu hplain
    have hmem := hstrings _ (hasString_joinExprNode hu)
    have hwell : ∀ l ∈ joinExprTpl.flatMap (Block.lines (aclDictionary relname aliasname)),
        l.wellSpelled = true := fun l hl => wellSpelled_of_mem_lines hl
    have hcases := strings_of_scan_joinLines hwell (s := u ++ "__acls__")
      (by rw [← expandTemplate, hscan]; simp) (by rw [← expandTemplate, hscan]; exact hmem)
    rcases hcases with hp | ⟨m, hm, hlt⟩
    · refine absurd (fun c hc => hp c ?_) hplain
      rw [String.toList_append]
      exact List.mem_append_left _ hc
    · refine ⟨(aclDictionary relname aliasname).value m, ?_, hm, ?_⟩
      · cases m with
        | tableName => exact .inl rfl
        | operation =>
            have hselect : Plain "SELECT".toList := by decide +kernel
            exact absurd hselect hm
        | tableAlias =>
            cases aliasname with
            | none => simp [TemplateDictionary.value, aclDictionary, Plain] at hm
            | some a => exact .inr rfl
        | tableRef =>
            cases aliasname with
            | none => exact .inl rfl
            | some a => exact .inr rfl
      · rw [String.toList_append, List.length_append] at hlt
        have : "__acls__".toList.length = 8 := by decide
        omega
  -- but there are only two names
  have hrelname : Plain relname.toList := by
    by_contra hplain
    obtain ⟨w, hw, hwplain, hlt⟩ := hlonger relname (.inl rfl) hplain
    rcases hw with rfl | hw
    · omega
    · obtain ⟨x, hx, -, hlt'⟩ := hlonger w (.inr hw) hwplain
      rcases hx with rfl | hx
      · omega
      · rw [Option.some.inj (hw.symm.trans hx)] at hlt'
        omega
  have haliasname : ∀ a, aliasname = some a → Plain a.toList := by
    intro a ha
    by_contra hplain
    obtain ⟨w, hw, hwplain, hlt⟩ := hlonger a (.inr ha) hplain
    rcases hw with rfl | hw
    · exact hwplain hrelname
    · rw [Option.some.inj (ha.symm.trans hw)] at hlt
      omega
  exact ⟨hrelname, haliasname⟩

end Injection

end PgFort.JoinTemplate
