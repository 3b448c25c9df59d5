import PgFort.CommandReadings

namespace PgFort.QueryCopies

open PgFort.Framing
open PgFort.Conn
open PgFort.Regexes
open PgFort.FirstWays
open PgFort.ProxyCommand
open PgFort.CommandLayouts
open PgFort.RoleNames
open PgFort.IdQueries
open PgFort.CommandShapes
open PgFort.CommandPasses
open PgFort.CommandTexts
open PgFort.CommandLists
open PgFort.CommandSkeletons
open PgFort.CommandReadings

variable (file : Bytes) {query : Query} (l : Layout (some query))

theorem copied_ne_nil : l.copied ≠ [] := by
  intro h
  have hstripped : strip l.copied = query.bytes := (l.copy query rfl).stripped
  rw [h] at hstripped
  exact query.ne_nil hstripped.symm

theorem semicolon_copied : 59 ∉ l.copied := (l.copy query rfl).semicolon

theorem ended_nil : ([] : Bytes) = [] ∨ ∃ s, ([] : Bytes) = s ++ [59] := .inl rfl

/-- A query alone in its command. -/
def alone {r : Regex UInt8} (head : Bytes) : Surroundings r head where
  earlier := []
  before := []
  e := l.copied
  w := []
  rest := []
  ended := ended_nil
  free := unmatched_nil
  semicolon_e := semicolon_copied l
  semicolon_w := List.not_mem_nil
  ends := .inl rfl

theorem pass_of_delimited {r : Regex UInt8} {head : Bytes} {pass : Bytes → Except Conn.Error Bytes}
    {sql : Bytes → Bytes} (h : (alone l head : Surroundings r head).Delimited pass sql)
    (hnil : pass [] = .ok []) : pass (head ++ (l.copied ++ [41])) = .ok (sql l.copied) := by
  obtain ⟨earlier', rest', hearlier, hrest, htext⟩ := h
  obtain rfl : earlier' = [] := Except.ok.inj (hearlier.symm.trans hnil)
  obtain rfl : rest' = [] := Except.ok.inj (hrest.symm.trans hnil)
  have hsql : [] ++ ([] ++ (sql l.copied ++ ([] ++ []))) = sql l.copied := by simp
  exact htext.trans (congrArg Except.ok hsql)

/-- A BIND ACCESS ROLE with this layout. -/
def bindingOf (r : Word) (p : Principal) (t : Word) : Binding where
  bind := l.keyword 0 "BIND"
  access := l.keyword 1 "ACCESS"
  roleKeyword := l.keyword 2 "ROLE"
  target := l.keyword 3 "TO"
  on := l.keyword 4 "ON"
  breaks := ![l.breaks 0, l.breaks 1, l.breaks 8, l.breaks 2, l.breaks 3, l.breaks 4, l.breaks 5]
  gap := l.gaps 0
  role := r
  principal := p
  table := t

theorem pass_bindAccessRole (r : Word) (p : Principal) (t : Word) :
    pass file .bindAccessRole (textOf (Command.parts l (.bindAccessRole r p t query)) ++
        40 :: (l.copied ++ [41])) =
      .ok ((Command.bindAccessRole r p t query).sql l.copied) := by
  have hdelimited := (delimited_binding_iff (bindingOf l r p t) (alone l _)).mpr
    ⟨copied_ne_nil l, List.not_mem_nil⟩
  have hpass := pass_of_delimited l hdelimited rfl
  have htext : textOf (Command.parts l (.bindAccessRole r p t query)) ++ 40 :: (l.copied ++ [41]) =
      (bindingOf l r p t).head ++ (l.copied ++ [41]) := by
    simp only [Command.parts, textOf_append]
    simp only [Command.verb, Command.clause, textOf, Part.bytes, List.append_assoc, List.append_nil,
      Binding.head, bindingOf]
    rfl
  have hsql : (bindingOf l r p t).sql l.copied =
      (Command.bindAccessRole r p t query).sql l.copied := by
    have hopen : utf8 "', (" = utf8 "', " ++ [40] := by decide +kernel
    have hclose : utf8 "))       RETURNING *)INSERT INTO " =
        41 :: utf8 ")       RETURNING *)INSERT INTO " := by
      decide +kernel
    simp only [Binding.sql, insertBinding, Command.sql, Command.front, Command.behind,
      Command.query, enclose, textOf, Part.bytes, hopen, hclose, List.append_assoc,
      List.cons_append, List.nil_append, List.append_nil]
    rfl
  rw [htext, ← hsql]
  exact hpass

/-- An UNBIND ACCESS ROLE with this layout. -/
def unbindingOf (r : Operand false) (p : Operand true) (t : Operand false) : Unbinding where
  unbind := l.keyword 0 "UNBIND"
  access := l.keyword 1 "ACCESS"
  roleKeyword := l.keyword 2 "ROLE"
  source := l.keyword 3 "FROM"
  on := l.keyword 4 "ON"
  breaks := ![l.breaks 0, l.breaks 1, l.breaks 8, l.breaks 2, l.breaks 3, l.breaks 4, l.breaks 5]
  gap := l.gaps 0
  role := r
  principal := p
  table := t

theorem pass_unbindAccessRole (r : Operand false) (p : Operand true) (t : Operand false) :
    pass file .unbindAccessRole (textOf (Command.parts l (.unbindAccessRole r p t query)) ++
        40 :: (l.copied ++ [41])) =
      .ok ((Command.unbindAccessRole r p t query).sql l.copied) := by
  have hdelimited := (delimited_unbinding_iff (unbindingOf l r p t) (alone l _)).mpr
    ⟨copied_ne_nil l, List.not_mem_nil⟩
  have hpass := pass_of_delimited l hdelimited rfl
  have htext : textOf (Command.parts l (.unbindAccessRole r p t query)) ++
      40 :: (l.copied ++ [41]) = (unbindingOf l r p t).head ++ (l.copied ++ [41]) := by
    simp only [Command.parts, textOf_append]
    simp only [Command.verb, Command.clause, textOf, Part.bytes, List.append_assoc, List.append_nil,
      Unbinding.head, unbindingOf]
    rfl
  have hsql : (unbindingOf l r p t).sql l.copied =
      (Command.unbindAccessRole r p t query).sql l.copied := by
    have hopen : utf8 "__access_bindings__ b WHERE b._id = (" =
        utf8 "__access_bindings__ b WHERE b._id = " ++ [40] := by
      decide +kernel
    have hclose : utf8 ") AND b._role = " = 41 :: utf8 " AND b._role = " := by decide +kernel
    simp only [Unbinding.sql, Command.sql, Command.front, Command.behind, Command.query, enclose,
      textOf, Part.bytes, hopen, hclose, List.append_assoc, List.cons_append, List.nil_append,
      List.append_nil]
    rfl
  rw [htext, ← hsql]
  exact hpass

/-- What stands in front of the query in LIST ACCESS ROLE BINDING. -/
def bindingQuery : QueryPattern where
  words := [.keyword "LIST", .spaces, .keyword "ACCESS", .spaces, .keyword "ROLE", .spaces,
    .keyword "BINDING", .spaces, .keyword "ON", .spaces, .word 1, .mayBeSpaces]
  number := 2
  separated := separated_atoms .listAccessRoleBinding
  words_avoid := by decide +kernel
  avoids := by decide +kernel
  not_nullable := by decide +kernel

theorem pass_listAccessRoleBinding (t : Word) :
    pass file .listAccessRoleBinding
        (textOf (Command.parts l (.listAccessRoleBinding t query)) ++ 40 :: (l.copied ++ [41])) =
      .ok ((Command.listAccessRoleBinding t query).sql l.copied) := by
  have hgap := Laid.cons (.mayBeSpaces (l.gaps 0)) <| .cons (.keyword parenthesis) .nil
  have hlaid := laid_append (laid_parts (laid_parts
    (laid_verb l "LIST" "ROLE")
    (laid_pair (l.breaks 8) (p := .keyword "BINDING" (l.keyword 5 "BINDING")) (.keyword _)))
    (laid_clause l 1 "ON" (p := .word t) (.word 1 t))) hgap
  let put (gs : Groups UInt8) : Except Conn.Error Bytes :=
    .ok (format gs (utf8 ("SELECT *" ++ "   FROM $1__access_bindings__" ++ "   WHERE _id = ($2)")))
  have hput (body : Bytes) : put [(2, body), (1, t.bytes)] = .ok
      ((utf8 "SELECT *   FROM " ++ (t.bytes ++ utf8 "__access_bindings__   WHERE _id = (")) ++
        (body ++ utf8 ")")) := by
    have hparts : utf8 ("SELECT *" ++ "   FROM $1__access_bindings__" ++ "   WHERE _id = ($2)") =
        utf8 "SELECT *   FROM " ++ (36 :: 49 ::
          (utf8 "__access_bindings__   WHERE _id = (" ++ (36 :: 50 :: (utf8 ")" ++ [])))) := by
      decide +kernel
    simp only [put]
    rw [hparts, format_append (by decide +kernel), format_group (by decide),
      format_append (by decide +kernel), format_group (by decide), format_append (by decide +kernel),
      format, List.append_nil]
    simp only [List.append_assoc]
    rfl
  have hnil : replace bindingQuery.regex put [] = .ok [] := rfl
  have hreplace := replace_query (q := bindingQuery) (f := put) (w := []) hlaid hput
    (copied_ne_nil l) (semicolon_copied l) List.not_mem_nil (.inl rfl) hnil
  have htext : textOf (Command.parts l (.listAccessRoleBinding t query)) ++
      40 :: (l.copied ++ [41]) = (textOf (Command.verb l "LIST" "ROLE" ++
        [.space (l.breaks 8), .keyword "BINDING" (l.keyword 5 "BINDING")] ++
          Command.clause l 1 "ON" (.word t)) ++ ((l.gaps 0).bytes ++ (parenthesis.bytes ++ []))) ++
        (l.copied ++ [41]) := by
    rw [Command.parts, textOf_append, List.append_assoc, List.append_assoc, List.append_nil]
    simp only [textOf, Part.bytes, List.append_nil, List.append_assoc]
    rfl
  have hsql : (Command.listAccessRoleBinding t query).sql l.copied =
      ((utf8 "SELECT *   FROM " ++ (t.bytes ++ utf8 "__access_bindings__   WHERE _id = (")) ++
        (l.copied ++ utf8 ")")) ++ ([] ++ []) := by
    have hopen : utf8 "__access_bindings__   WHERE _id = (" =
        utf8 "__access_bindings__   WHERE _id = " ++ [40] := by
      decide +kernel
    simp only [Command.sql, Command.front, Command.behind, Command.query, enclose, textOf,
      Part.bytes, hopen, List.append_assoc, List.cons_append, List.nil_append, List.append_nil]
    rfl
  rw [htext, hsql]
  exact hreplace

end PgFort.QueryCopies
