import Mathlib.Data.Fin.VecNotation
import PgFort.CommandLayouts

namespace PgFort.Inheritances

open PgFort.Framing
open PgFort.Conn
open PgFort.Regexes
open PgFort.FirstWays
open PgFort.ProxyCommand
open PgFort.CommandLayouts

/-- `CREATE ACCESS INHERITANCE FROM f (fs) TO t (ts)`, in a layout that the pattern has room for. -/
structure Inheritance where
  create : Keyword "CREATE"
  access : Keyword "ACCESS"
  inheritance : Keyword "INHERITANCE"
  source : Keyword "FROM"
  target : Keyword "TO"
  breaks : Fin 6 → Break
  gaps : Fin 2 → Gap
  f : Word
  fs : Columns
  t : Word
  ts : Columns

namespace Inheritance

variable (c : Inheritance)

/-- The text of a command. -/
def text : Bytes :=
  c.create.bytes ++ ((c.breaks 0).bytes ++ (c.access.bytes ++ ((c.breaks 1).bytes ++
    (c.inheritance.bytes ++ ((c.breaks 2).bytes ++ (c.source.bytes ++ ((c.breaks 3).bytes ++
    (c.f.bytes ++ ((c.gaps 0).bytes ++ (utf8 "(" ++ (c.fs.text ++ (utf8 ")" ++
    ((c.breaks 4).bytes ++ (c.target.bytes ++ ((c.breaks 5).bytes ++ (c.t.bytes ++
    ((c.gaps 1).bytes ++ (utf8 "(" ++ (c.ts.text ++ utf8 ")")))))))))))))))))))

/-- The text in front of the columns of the source. -/
def sourceText : Bytes :=
  c.create.bytes ++ ((c.breaks 0).bytes ++ (c.access.bytes ++ ((c.breaks 1).bytes ++
    (c.inheritance.bytes ++ ((c.breaks 2).bytes ++ (c.source.bytes ++ ((c.breaks 3).bytes ++
      (c.f.bytes ++ []))))))))

/-- Each column of the one side is equal to the column of the other side in its place. -/
def conditions : List Bytes :=
  (c.fs.names.zip c.ts.names).map fun p => p.1 ++ utf8 " = $1." ++ p.2

/-- The query for the rows that a row inherits from. -/
def sourceQuery : Bytes :=
  utf8 "SELECT id FROM " ++ c.f.bytes ++ utf8 " WHERE " ++
    (utf8 " AND ").intercalate c.conditions

/-- What the command becomes. -/
def sql : Bytes :=
  utf8 "INSERT INTO __access_inheritances__ (_src, _dst, _src_query) VALUES ('" ++ c.f.bytes ++
    utf8 "', '" ++ c.t.bytes ++ utf8 "', '" ++ c.sourceQuery ++ utf8 "')"

/-- Both sides have as many columns. -/
def Matched : Prop := c.fs.names.length = c.ts.names.length

instance : Decidable c.Matched := inferInstanceAs (Decidable (_ = _))

end Inheritance

/-- No command begins in the text. -/
def Free (before following : Bytes) : Prop :=
  ∀ a u, before = a ++ u → u ≠ [] → ∀ c : Inheritance, ¬ c.text <+: u ++ following

/-- Commands, and the text in front of and behind each. -/
def textOf : List (Bytes × Inheritance) → Bytes → Bytes
  | [], rest => rest
  | (before, c) :: cs, rest => before ++ (c.text ++ textOf cs rest)

/-- No match begins in the text between the commands. -/
def Apart : List (Bytes × Inheritance) → Bytes → Prop
  | [], rest => Free rest []
  | (before, c) :: cs, rest => Free before (c.text ++ textOf cs rest) ∧ Apart cs rest

/-- A text by its commands, each with the text between it and the one before. -/
structure Script where
  commands : List (Bytes × Inheritance)
  rest : Bytes
  apart : Apart commands rest

namespace Script

variable (script : Script)

def text : Bytes := textOf script.commands script.rest

/-- The text with the SQL in place of each command. -/
def translated : Bytes :=
  (script.commands.flatMap fun p => p.1 ++ p.2.sql) ++ script.rest

end Script

section Atoms

/-- The pattern of CREATE ACCESS INHERITANCE. -/
def atoms : List Atom :=
  [.keyword "CREATE", .spaces, .keyword "ACCESS", .spaces, .keyword "INHERITANCE", .spaces,
    .keyword "FROM", .spaces, .word 1, .mayBeSpaces, .keyword "(", .list 2, .keyword ")", .spaces,
    .keyword "TO", .spaces, .word 4, .mayBeSpaces, .keyword "(", .list 5, .keyword ")"]

theorem createAccessInheritance_eq : createAccessInheritance = seqs (atoms.map Atom.regex) := rfl

theorem separated_atoms : Separated (fun _ => true) atoms = true := by decide +kernel

def parenthesis (s : String) : Keyword s := ⟨utf8 s, rfl⟩

theorem exists_laid (c : Inheritance) :
    ∃ new, Laid atoms c.text new ∧ text new 1 = c.f.bytes ∧ text new 2 = c.fs.text ∧
      text new 4 = c.t.bytes ∧ text new 5 = c.ts.text := by
  have hlaid := Laid.cons (.keyword c.create) <| .cons (.spaces (c.breaks 0)) <|
    .cons (.keyword c.access) <| .cons (.spaces (c.breaks 1)) <|
    .cons (.keyword c.inheritance) <| .cons (.spaces (c.breaks 2)) <|
    .cons (.keyword c.source) <| .cons (.spaces (c.breaks 3)) <|
    .cons (.word 1 c.f) <| .cons (.mayBeSpaces (c.gaps 0)) <|
    .cons (.keyword (parenthesis "(")) <| .cons (.list 2 c.fs) <|
    .cons (.keyword (parenthesis ")")) <| .cons (.spaces (c.breaks 4)) <|
    .cons (.keyword c.target) <| .cons (.spaces (c.breaks 5)) <|
    .cons (.word 4 c.t) <| .cons (.mayBeSpaces (c.gaps 1)) <|
    .cons (.keyword (parenthesis "(")) <| .cons (.list 5 c.ts) <|
    .cons (.keyword (parenthesis ")")) .nil
  rw [List.append_nil] at hlaid
  refine ⟨_, hlaid, ?_, ?_, ?_, ?_⟩
  all_goals
    simp [text, List.lookup_append, lookup_groups_self, lookup_groups_of_ne, List.lookup_cons]

theorem exists_eq_of_laid {s : Bytes} {new : Groups UInt8} (h : Laid atoms s new) :
    ∃ c : Inheritance, s = c.text := by
  obtain ⟨create, _, _, rfl, h1⟩ := h.exists_keyword
  obtain ⟨b0, _, _, rfl, h2⟩ := h1.exists_spaces
  obtain ⟨access, _, _, rfl, h3⟩ := h2.exists_keyword
  obtain ⟨b1, _, _, rfl, h4⟩ := h3.exists_spaces
  obtain ⟨inheritance, _, _, rfl, h5⟩ := h4.exists_keyword
  obtain ⟨b2, _, _, rfl, h6⟩ := h5.exists_spaces
  obtain ⟨source, _, _, rfl, h7⟩ := h6.exists_keyword
  obtain ⟨b3, _, _, rfl, h8⟩ := h7.exists_spaces
  obtain ⟨f, _, _, rfl, h9⟩ := h8.exists_word
  obtain ⟨g0, _, _, rfl, h10⟩ := h9.exists_mayBeSpaces
  obtain ⟨open₁, _, _, rfl, h11⟩ := h10.exists_keyword
  obtain ⟨fs, _, _, rfl, h12⟩ := h11.exists_list
  obtain ⟨close₁, _, _, rfl, h13⟩ := h12.exists_keyword
  obtain ⟨b4, _, _, rfl, h14⟩ := h13.exists_spaces
  obtain ⟨target, _, _, rfl, h15⟩ := h14.exists_keyword
  obtain ⟨b5, _, _, rfl, h16⟩ := h15.exists_spaces
  obtain ⟨t, _, _, rfl, h17⟩ := h16.exists_word
  obtain ⟨g1, _, _, rfl, h18⟩ := h17.exists_mayBeSpaces
  obtain ⟨open₂, _, _, rfl, h19⟩ := h18.exists_keyword
  obtain ⟨ts, _, _, rfl, h20⟩ := h19.exists_list
  obtain ⟨close₂, _, _, rfl, h21⟩ := h20.exists_keyword
  obtain rfl := h21.eq_nil
  refine ⟨⟨create, access, inheritance, source, target, ![b0, b1, b2, b3, b4, b5], ![g0, g1], f, fs,
    t, ts⟩, ?_⟩
  rw [open₁.bytes_open, open₂.bytes_open, close₁.bytes_close, close₂.bytes_close, List.append_nil]
  rfl

theorem exists_command_of_matchHere {s : Bytes} {m : Match UInt8}
    (h : matchHere createAccessInheritance s = some m) : ∃ c : Inheritance, c.text ++ m.after = s := by
  obtain ⟨a, ha, rfl⟩ := exists_takes_of_matchHere h
  obtain ⟨new, hlaid⟩ :=
    exists_laid_of_takes (show Takes (seqs (atoms.map Atom.regex)) a from ha)
  obtain ⟨c, rfl⟩ := exists_eq_of_laid hlaid
  exact ⟨c, rfl⟩

theorem matchHere_command (c : Inheritance) (rest : Bytes) :
    ∃ new, matchHere createAccessInheritance (c.text ++ rest) = some ⟨[], new, rest⟩ ∧
      text new 1 = c.f.bytes ∧ text new 2 = c.fs.text ∧ text new 4 = c.t.bytes ∧
      text new 5 = c.ts.text := by
  obtain ⟨new, hlaid, htexts⟩ := exists_laid c
  have hfirst : First (seqs (atoms.map Atom.regex ++ [])) _ _ fun _ => True :=
    first_of_laid hlaid separated_atoms first_nothing fun _ _ _ _ => rfl
  rw [List.append_nil, List.append_nil, List.nil_append] at hfirst
  exact ⟨new, matchHere_of_first hfirst trivial, htexts⟩

end Atoms

section Pass

variable {file : Bytes} {f : Groups UInt8 → Except Conn.Error Bytes}

theorem not_nullable : createAccessInheritance.nullable = false := by
  decide +kernel

theorem unmatched_of_free {before following : Bytes} (h : Free before following) :
    Unmatched createAccessInheritance before following := by
  intro a u hsplit hu
  cases hm : matchHere createAccessInheritance (u ++ following) with
  | none => rfl
  | some m =>
      obtain ⟨c, hc⟩ := exists_command_of_matchHere hm
      exact absurd ⟨m.after, hc⟩ (h a u hsplit hu c)

theorem free_of_unmatched {before following : Bytes}
    (h : Unmatched createAccessInheritance before following) : Free before following := by
  rintro a u hsplit hu c ⟨rest, hrest⟩
  obtain ⟨new, hmatch, -⟩ := matchHere_command c rest
  rw [hrest, h a u hsplit hu] at hmatch
  simp at hmatch

theorem columnEquations_false (fs ts : List Bytes) :
    columnEquations false fs ts =
      (fs.zip ts).flatMap fun p => utf8 " AND " ++ (p.1 ++ utf8 " = $1." ++ p.2) := by
  induction fs generalizing ts with
  | nil => rfl
  | cons f fs ih =>
      cases ts with
      | nil => rfl
      | cons t ts =>
          rw [columnEquations, ih, List.zip_cons_cons, List.flatMap_cons]
          simp only [Bool.false_eq_true, if_false, List.append_assoc]

theorem intercalate_cons (sep x : Bytes) (xs : List Bytes) :
    sep.intercalate (x :: xs) = x ++ xs.flatMap fun y => sep ++ y := by
  induction xs generalizing x with
  | nil => simp [List.intercalate]
  | cons y xs ih =>
      rw [List.flatMap_cons, List.append_assoc, ← ih y]
      simp [List.intercalate]

theorem columnEquations_names (c : Inheritance) :
    columnEquations true c.fs.names c.ts.names =
      utf8 " WHERE " ++ (utf8 " AND ").intercalate c.conditions := by
  rw [Inheritance.conditions, Columns.names, Columns.names, List.zip_cons_cons, List.map_cons,
    intercalate_cons, columnEquations, columnEquations_false, List.flatMap_map]
  simp only [if_true, List.append_assoc]

/-- What the pass puts in place of a match. -/
def put (file : Bytes) (m : Groups UInt8) : Except Conn.Error Bytes :=
  let fs := searchWords (text m 2).length (text m 2)
  let ts := searchWords (text m 5).length (text m 5)
  if fs.length ≠ ts.length then
    .error (dimensionMismatch file)
  else
    .ok (utf8 "INSERT INTO __access_inheritances__ (_src, _dst, _src_query)" ++ utf8 " VALUES ('" ++
      text m 1 ++ utf8 "', '" ++ text m 4 ++ utf8 "', 'SELECT id FROM " ++ text m 1 ++
      columnEquations true fs ts ++ utf8 "')")

theorem translateCreateAccessInheritance_eq (file s : Bytes) :
    translateCreateAccessInheritance file s = replace createAccessInheritance (put file) s := rfl

theorem put_eq {c : Inheritance} {m : Groups UInt8} (hf : text m 1 = c.f.bytes)
    (hfs : text m 2 = c.fs.text) (ht : text m 4 = c.t.bytes) (hts : text m 5 = c.ts.text) :
    put file m = if c.Matched then .ok c.sql else .error (dimensionMismatch file) := by
  have hsql : utf8 "INSERT INTO __access_inheritances__ (_src, _dst, _src_query)" ++
      utf8 " VALUES ('" ++ c.f.bytes ++ utf8 "', '" ++ c.t.bytes ++
      utf8 "', 'SELECT id FROM " ++ c.f.bytes ++ columnEquations true c.fs.names c.ts.names ++
      utf8 "')" = c.sql := by
    have hvalues : utf8 "INSERT INTO __access_inheritances__ (_src, _dst, _src_query)" ++
        utf8 " VALUES ('" =
          utf8 "INSERT INTO __access_inheritances__ (_src, _dst, _src_query) VALUES ('" := by
      decide +kernel
    have hselect : utf8 "', 'SELECT id FROM " = utf8 "', '" ++ utf8 "SELECT id FROM " := by
      decide +kernel
    rw [columnEquations_names, hvalues, hselect, Inheritance.sql, Inheritance.sourceQuery]
    simp only [List.append_assoc]
  simp only [put, hf, hfs, ht, hts, searchWords_text, hsql]
  exact ite_not ..

theorem replace_command (c : Inheritance) (rest : Bytes) :
    translateCreateAccessInheritance file (c.text ++ rest) =
      if c.Matched then do
        let u ← translateCreateAccessInheritance file rest
        return c.sql ++ u
      else .error (dimensionMismatch file) := by
  obtain ⟨new, hmatch, hf, hfs, ht, hts⟩ := matchHere_command c rest
  rw [translateCreateAccessInheritance_eq, replace_of_matchHere not_nullable hmatch]
  simp only [put_eq hf hfs ht hts]
  by_cases hmatched : c.Matched
  · rw [if_pos hmatched, if_pos hmatched]
    rfl
  · rw [if_neg hmatched, if_neg hmatched]
    rfl

theorem translate_commands (cs : List (Bytes × Inheritance)) (rest : Bytes) (h : Apart cs rest) :
    translateCreateAccessInheritance file (textOf cs rest) =
      if ∀ p ∈ cs, p.2.Matched then
        .ok ((cs.flatMap fun p => p.1 ++ p.2.sql) ++ rest)
      else .error (dimensionMismatch file) := by
  induction cs with
  | nil =>
      have hfree := replace_of_unmatched (f := put file) not_nullable (unmatched_of_free h)
      rw [List.append_nil] at hfree
      rw [if_pos fun _ h => absurd h List.not_mem_nil, translateCreateAccessInheritance_eq, textOf,
        hfree]
      change Except.ok (rest ++ []) = _
      rw [List.append_nil, List.flatMap_nil, List.nil_append]
  | cons p cs ih =>
      obtain ⟨before, c⟩ := p
      obtain ⟨hfree, hapart⟩ := h
      rw [textOf, translateCreateAccessInheritance_eq, replace_of_unmatched not_nullable (unmatched_of_free hfree),
        ← translateCreateAccessInheritance_eq, replace_command, ih hapart]
      simp only [List.forall_mem_cons]
      by_cases hmatched : c.Matched
      · rw [if_pos hmatched]
        by_cases hall : ∀ p ∈ cs, p.2.Matched
        · rw [if_pos hall, if_pos ⟨hmatched, hall⟩]
          change Except.ok (before ++ (c.sql ++ ((cs.flatMap fun p => p.1 ++ p.2.sql) ++ rest))) = _
          rw [List.flatMap_cons]
          simp only [List.append_assoc]
        · rw [if_neg hall, if_neg fun h => hall h.2]
          rfl
      · rw [if_neg hmatched, if_neg fun h => hmatched h.1]
        rfl

end Pass

theorem exists_apart (s : Bytes) :
    ∃ cs : List (Bytes × Inheritance), ∃ rest, Apart cs rest ∧ textOf cs rest = s := by
  induction hlength : s.length using Nat.strong_induction_on generalizing s with
  | h n ih =>
      cases hsearch : search createAccessInheritance s with
      | none =>
          exact ⟨[], s, free_of_unmatched (unmatched_of_search_eq_none hsearch), rfl⟩
      | some m =>
          obtain ⟨t, hs, hmatch, hfree⟩ := exists_of_search hsearch
          obtain ⟨c, hc⟩ := exists_command_of_matchHere hmatch
          have hless := length_after_lt not_nullable hsearch
          obtain ⟨cs, rest, hapart, htext⟩ := ih m.after.length (hlength ▸ hless) m.after rfl
          have hcommand : c.text ++ textOf cs rest = t := by rw [htext, ← hc]
          refine ⟨(m.before, c) :: cs, rest, ⟨?_, hapart⟩, ?_⟩
          · rw [hcommand]
            exact free_of_unmatched hfree
          · rw [textOf, hcommand, hs]

/-- Every text is one with commands. The pass fails exactly if a command has not as many columns on
both sides, and else copies all but the commands, each of which has its source query. -/
theorem translate_script (file : Bytes) :
    (∀ s, ∃ script : Script, script.text = s) ∧
      ∀ script : Script, translateCreateAccessInheritance file script.text =
        if ∀ p ∈ script.commands, p.2.Matched then .ok script.translated
        else .error (dimensionMismatch file) := by
  constructor
  · intro s
    obtain ⟨cs, rest, hapart, htext⟩ := exists_apart s
    exact ⟨⟨cs, rest, hapart⟩, htext⟩
  · intro script
    exact translate_commands script.commands script.rest script.apart

end PgFort.Inheritances
