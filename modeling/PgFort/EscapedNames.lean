import PgFort.JoinTemplate

namespace PgFort.EscapedNames

open PgFort.JsonTree
open PgFort.JsonText
open PgFort.JoinTemplate

/-- A string in which the name is written has some text in its place: each backslash in the name
begins an escape of JSON, and there are neither other quotes nor control characters. -/
def Legible (name : String) : Prop :=
  ∃ read, ReadAs name.toList read

section Lexing

/-- The lexer has not come to the end of a string. -/
def inString : Mode → Bool
  | .idle => false
  | .word _ => false
  | _ => true

variable {m : Mode} {c : Char} {cs : List Char}

theorem inString_finishHex (acc : List Char) (high : Option Nat) (v : Nat) :
    inString (finishHex acc high v) = true := by
  cases high with
  | none =>
      rw [finishHex]
      split
      · rfl
      · split <;> rfl
  | some h =>
      rw [finishHex]
      split <;> rfl

theorem inString_lexStep (hm : inString m = true) (hc : c ≠ '"') :
    (lexStep m c).1 = [] ∧ inString (lexStep m c).2 = true := by
  cases m with
  | idle => exact absurd hm (by decide)
  | word acc => exact absurd hm (by simp [inString])
  | str acc =>
      rw [lexStep, if_neg hc]
      split
      · exact ⟨rfl, rfl⟩
      · split <;> exact ⟨rfl, rfl⟩
  | esc acc =>
      rw [lexStep]
      split
      · exact ⟨rfl, rfl⟩
      · split <;> exact ⟨rfl, rfl⟩
  | hex acc high digits value =>
      rw [lexStep]
      split
      · exact ⟨rfl, rfl⟩
      · split
        · exact ⟨rfl, inString_finishHex acc high _⟩
        · exact ⟨rfl, rfl⟩
  | low acc high backslash => cases backslash <;> rw [lexStep] <;> split <;> exact ⟨rfl, rfl⟩
  | fail => exact ⟨rfl, rfl⟩

/-- Only a quote ends a string. -/
theorem inString_scan (hcs : '"' ∉ cs) (hm : inString m = true) :
    (scan m cs).1 = [] ∧ inString (scan m cs).2 = true := by
  induction cs generalizing m with
  | nil => exact ⟨rfl, hm⟩
  | cons c cs ih =>
      rw [List.mem_cons, not_or] at hcs
      obtain ⟨hnone, hin⟩ := inString_lexStep hm (Ne.symm hcs.1)
      obtain ⟨hnone', hin'⟩ := ih hcs.2 hin
      exact ⟨by rw [scan, hnone, hnone']; rfl, hin'⟩

variable {d : TemplateDictionary} {suffix : String} {rest : List Symbol}

/-- What the template has behind a name does not go on with an escape of the name. -/
theorem exists_of_scan_rest (hm : inString m = true) (hsuffix : suffix = "" ∨ suffix = "__acls__")
    (hrest : rest = [] ∨ rest = [.tok .comma]) (hc : c = '\r' ∨ c = '\n')
    (h : (scan m (suffix.toList ++ '"' :: (rest.flatMap (Symbol.spell d) ++ [c]))).2 ≠ .fail) :
    ∃ acc, m = .str acc := by
  cases m with
  | str acc => exact ⟨acc, rfl⟩
  | idle => exact absurd hm (by decide)
  | word acc => exact absurd hm (by simp [inString])
  | low acc high backslash =>
      rcases hsuffix with rfl | rfl <;> cases backslash <;>
        simp [scan, lexStep, scan_fail] at h
  | _ =>
      rcases hsuffix with rfl | rfl <;> rcases hrest with rfl | rfl <;> rcases hc with rfl | rfl <;>
        simp_all [scan, lexStep, Symbol.spell, isSpecial, shortEscape, hexDigit]

theorem exists_readAs_of_scan (hcs : '"' ∉ cs) (hsuffix : suffix = "" ∨ suffix = "__acls__")
    (hrest : rest = [] ∨ rest = [.tok .comma]) (hc : c = '\r' ∨ c = '\n')
    (h : (scan (.str []) (cs ++ suffix.toList ++
      '"' :: (rest.flatMap (Symbol.spell d) ++ [c]))).2 ≠ .fail) :
    ∃ read, ReadAs cs read := by
  obtain ⟨hnone, hin⟩ := inString_scan hcs (rfl : inString (.str []) = true)
  rw [List.append_assoc, scan_append] at h
  obtain ⟨acc, hacc⟩ := exists_of_scan_rest hin hsuffix hrest hc h
  exact ⟨acc.reverse, by rw [ReadAs, List.reverse_reverse, ← hnone, ← hacc]⟩

end Lexing

section Lines

variable {d : TemplateDictionary}

/-- A line with a name that cannot be read does not lex. -/
theorem exists_readAs_of_scan_line (hquote : ∀ m, '"' ∉ (d.value m).toList) {l : Line}
    (hl : l.wellSpelled = true) {c : Char} (hc : c = '\r' ∨ c = '\n')
    (h : (scan .idle (l.expand d ++ [c])).2 ≠ .fail) :
    ∀ m suffix, .quoted m suffix ∈ l.symbols → Legible (d.value m) := by
  simp only [Line.wellSpelled, Bool.and_eq_true] at hl
  by_contra hd
  obtain ⟨pre, m, suffix, rest, hsplit, hpre, hspelled, hm, hsuffix, hrest⟩ :=
    exists_first_marker hl.2.1 hl.2.2 hd
  rw [scan_line_of_marker hl.1 hsplit hpre hspelled] at h
  exact hm (exists_readAs_of_scan (hquote m) hsuffix hrest hc h)

theorem exists_readAs_of_scan_joinLines (hquote : ∀ m, '"' ∉ (d.value m).toList) {ls : List Line}
    (hls : ∀ l ∈ ls, l.wellSpelled = true)
    (h : (scan .idle (joinLines (ls.map (Line.expand d)) ++ ['\n'])).2 ≠ .fail) :
    ∀ l ∈ ls, ∀ m suffix, .quoted m suffix ∈ l.symbols → Legible (d.value m) := by
  induction ls with
  | nil => simp
  | cons l ls ih =>
      rw [List.forall_mem_cons] at hls ⊢
      cases ls with
      | nil => exact ⟨exists_readAs_of_scan_line hquote hls.1 (.inr rfl) h, by simp⟩
      | cons l' ls =>
          rw [List.map_cons, List.map_cons, joinLines_cons, scan_append] at h
          have hline : (scan .idle (l.expand d ++ ['\r'])).2 ≠ .fail := by
            intro hfail
            rw [hfail, scan_fail] at h
            exact h rfl
          rw [(strings_of_scan_line hls.1 (.inl rfl) hline).1, scan_space rfl] at h
          exact ⟨exists_readAs_of_scan_line hquote hls.1 (.inl rfl) hline, ih hls.2 h⟩

end Lines

section Names

variable {relname : String} {aliasname : Option String}

theorem exists_line_tableName (d : TemplateDictionary) :
    ∃ l ∈ joinExprTpl.flatMap (Block.lines d), .quoted .tableName "" ∈ l.symbols := by
  cases halias : d.tableAlias with
  | none =>
      rw [lines_joinExprTpl_congr (aclDictionary "" none) (by rw [halias]; rfl)]
      decide +kernel
  | some a =>
      rw [lines_joinExprTpl_congr (aclDictionary "" (some "")) (by rw [halias]; rfl)]
      decide +kernel

theorem exists_line_tableAlias {d : TemplateDictionary} {a : String} (ha : d.tableAlias = some a) :
    ∃ l ∈ joinExprTpl.flatMap (Block.lines d), .quoted .tableAlias "" ∈ l.symbols := by
  rw [lines_joinExprTpl_congr (aclDictionary "" (some "")) (by rw [ha]; rfl)]
  decide +kernel

/-- Names that can be read make the join node of what they are read as. -/
theorem exists_parse_of_legible (hrelname : Legible relname)
    (haliasname : ∀ a, aliasname = some a → Legible a) :
    ∃ relname' aliasname', parse (expandTemplate (aclDictionary relname aliasname)) =
      .ok (joinExprNode (aclDictionary relname' aliasname')) := by
  obtain ⟨read, hread⟩ := hrelname
  have hselect : ReadAs "SELECT".toList "SELECT".toList := readAs_of_plain (by decide +kernel)
  have hnil : ReadAs "".toList "".toList := readAs_of_plain (by decide)
  rw [← String.toList_ofList (l := read)] at hread
  cases aliasname with
  | none =>
      refine ⟨String.ofList read, none, parse_expandTemplate_of_readAs (fun m => ?_) rfl⟩
      cases m with
      | tableName => exact hread
      | tableAlias => exact hnil
      | tableRef => exact hread
      | operation => exact hselect
  | some a =>
      obtain ⟨read', hread'⟩ := haliasname a rfl
      rw [← String.toList_ofList (l := read')] at hread'
      refine ⟨String.ofList read, some (String.ofList read'),
        parse_expandTemplate_of_readAs (fun m => ?_) rfl⟩
      cases m with
      | tableName => exact hread
      | tableAlias => exact hread'
      | tableRef => exact hread'
      | operation => exact hselect

theorem legible_of_parse {j : Json} (hrelname : '"' ∉ relname.toList)
    (haliasname : ∀ a, aliasname = some a → '"' ∉ a.toList)
    (h : parse (expandTemplate (aclDictionary relname aliasname)) = .ok j) :
    Legible relname ∧ ∀ a, aliasname = some a → Legible a := by
  obtain ⟨ts, hscan, -⟩ := scan_of_parse h
  have hquote : ∀ m, '"' ∉ ((aclDictionary relname aliasname).value m).toList := by
    intro m
    cases aliasname with
    | none => cases m <;> simp [aclDictionary, TemplateDictionary.value, hrelname]
    | some a =>
        have ha := haliasname a rfl
        cases m <;> simp [aclDictionary, TemplateDictionary.value, hrelname, ha]
  have hlines := exists_readAs_of_scan_joinLines hquote
    (fun _ hl => wellSpelled_of_mem_lines hl) (by rw [← expandTemplate, hscan]; simp)
  constructor
  · obtain ⟨l, hl, hsymbol⟩ := exists_line_tableName (aclDictionary relname aliasname)
    exact hlines l hl .tableName "" hsymbol
  · rintro a rfl
    obtain ⟨l, hl, hsymbol⟩ :=
      exists_line_tableAlias (rfl : (aclDictionary relname (some a)).tableAlias = some a)
    exact hlines l hl .tableAlias "" hsymbol

end Names

end PgFort.EscapedNames
