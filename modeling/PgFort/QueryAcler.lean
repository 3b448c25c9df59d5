import PgFort.JoinTemplate
import PgFort.Schema

/-!
`QueryAcler`: the three recursive functions that put a join with the access view in
place of the controlled tables of a query.
-/

namespace PgFort.QueryAcler

open PgFort.JsonTree
open PgFort.JsonTree.Json
open PgFort.KeyedTraversal
open PgFort.JsonText
open PgFort.JoinTemplate
open PgFort.ParseTree
open PgFort.Schema

/-- Which of the three functions is running. -/
inductive Mode where
  | acl
  | aclSelectStmt
  | aclSelectStmtFromClause
  deriving DecidableEq, Repr

/-- The branches on the key in the loops of the three functions. A primitive
value is not entered by the code; entering it changes nothing. -/
def move : Traversal Mode
  | .acl, k =>
      if k = "SelectStmt" then .enter .aclSelectStmt
      else .enter .acl
  | .aclSelectStmt, k =>
      if k = "fromClause" then .enter .aclSelectStmtFromClause
      else if k = "intoClause" then .skip
      else if k = "whereClause" then .skip
      else if k = "targetList" then .skip
      else .enter .aclSelectStmt
  | .aclSelectStmtFromClause, k =>
      if k = "RangeVar" then .visit
      else if k = "SelectStmt" then .enter .aclSelectStmt
      else .enter .aclSelectStmtFromClause

/-- `st_ != nullptr && st_->Exist(relname)`. -/
def isTable (st : Option SchemaTracker) (relname : String) : Bool :=
  match st with
  | none => false
  | some st => st.exist relname

/-- What `AclSelectStmtFromClause` does with the value under the key `RangeVar`: the
answer takes the place of the object with that key. -/
def aclRangeVar (st : Option SchemaTracker) (v : Json) : Except Error (Option Json) := do
  let relname ← (← v.subscript "relname").getString
  if isTable st relname then
    if v.contains "alias" then
      let aliasname ← (← (← v.subscript "alias").subscript "aliasname").getString
      let j ← parse (expandTemplate (aclDictionary relname (some aliasname)))
      return some j
    else
      let j ← parse (expandTemplate (aclDictionary relname none))
      return some j
  else
    return none

/-- `AclSelectStmtFromClause`. -/
def aclSelectStmtFromClause (st : Option SchemaTracker) (j : Json) : Except Error Json :=
  walk move (aclRangeVar st) .aclSelectStmtFromClause j

/-- `AclSelectStmt`. -/
def aclSelectStmt (st : Option SchemaTracker) (j : Json) : Except Error Json :=
  walk move (aclRangeVar st) .aclSelectStmt j

/-- `Acl`. -/
def acl (st : Option SchemaTracker) (j : Json) : Except Error Json :=
  walk move (aclRangeVar st) .acl j

theorem key_of_move_visit {m : Mode} {k : String} (h : move m k = .visit) : k = "RangeVar" := by
  cases m with
  | acl =>
      rw [move] at h
      split at h <;> simp at h
  | aclSelectStmt =>
      rw [move] at h
      repeat' split at h
      all_goals simp at h
  | aclSelectStmtFromClause =>
      rw [move] at h
      split at h
      · assumption
      · split at h <;> simp at h

theorem aclRangeVar_toJson (st : Option SchemaTracker) (rv : RangeVar) :
    aclRangeVar st rv.toJson =
      if isTable st rv.relname then
        (parse (expandTemplate (aclDictionary rv.relname rv.aliasname))).map some
      else .ok none := by
  rw [aclRangeVar, rv.subscript_relname]
  simp only [bind, Except.bind, getString, rv.contains_alias]
  split
  · cases halias : rv.alias_ with
    | none =>
        simp only [RangeVar.aliasname, halias, Option.map_none, Option.isSome_none,
          Bool.false_eq_true, if_false]
        cases parse (expandTemplate (aclDictionary rv.relname none)) <;> rfl
    | some a =>
        simp only [RangeVar.aliasname, halias, Option.map_some, Option.isSome_some, if_true,
          RangeVar.subscript_alias halias, Alias.subscript_aliasname]
        cases parse (expandTemplate (aclDictionary rv.relname (some a.aliasname))) <;> rfl
  · rfl

/-- The node that takes the place of a table reference. -/
def injectedNode (rv : RangeVar) : Json :=
  joinExprNode (aclDictionary rv.relname rv.aliasname)

/-- A quote, a backslash or a control character in a name breaks the text it is put in. -/
def PlainRangeVar (rv : RangeVar) : Prop :=
  PlainNames rv.relname rv.aliasname

/-- The recursion comes to the table reference at a position of the query. -/
def Reaches (q : Tree) (p : Path) (rv : RangeVar) : Prop :=
  VisitsAt move .acl q.json p rv.toJson

/-- The table reference at a position is one that the code replaces. -/
def Injects (st : Option SchemaTracker) (q : Tree) (p : Path) (rv : RangeVar) : Prop :=
  Reaches q p rv ∧ isTable st rv.relname = true

section Acl

variable {st : Option SchemaTracker} {q : Tree} {p : Path} {rv : RangeVar} {j : Json}

theorem visitsAt_iff_reaches {v : Json} :
    VisitsAt move .acl q.json p v ↔ ∃ rv : RangeVar, v = rv.toJson ∧ Reaches q p rv := by
  constructor
  · intro h
    obtain ⟨n, ms, k, hmode, hget, hmem, hvisit⟩ := h
    obtain rfl := key_of_move_visit hvisit
    obtain ⟨-, rv, rfl⟩ := q.rangeVar_of_mem hget hmem
    exact ⟨rv, rfl, n, ms, _, hmode, hget, hmem, hvisit⟩
  · rintro ⟨rv, rfl, h⟩
    exact h

theorem get?_of_injects (h : Injects st q p rv) :
    q.json.get? p = some (node "RangeVar" rv.fields) := by
  obtain ⟨n, ms, k, -, hget, hmem, hvisit⟩ := h.1
  obtain rfl := key_of_move_visit hvisit
  rw [hget, (q.rangeVar_of_mem hget hmem).1]
  rfl

theorem injects_of_answer {v r : Json} (hv : VisitsAt move .acl q.json p v)
    (hr : aclRangeVar st v = .ok (some r)) :
    ∃ rv : RangeVar, v = rv.toJson ∧ Injects st q p rv := by
  obtain ⟨rv, rfl, hreach⟩ := visitsAt_iff_reaches.mp hv
  refine ⟨rv, rfl, hreach, ?_⟩
  by_contra htable
  rw [aclRangeVar_toJson, if_neg htable] at hr
  exact absurd (Except.ok.inj hr) (by simp)

theorem answer_of_injects (h : Injects st q p rv) (hacl : acl st q.json = .ok j) :
    ∃ r, aclRangeVar st rv.toJson = .ok (some r) := by
  obtain ⟨hreach, htable⟩ := h
  obtain ⟨o, ho⟩ := visit_ok_of_walk (fun _ _ => key_of_move_visit) q.loneKey hreach hacl
  have hvisit := ho
  rw [aclRangeVar_toJson, if_pos htable, map_eq_ok] at ho
  obtain ⟨r, -, rfl⟩ := ho
  exact ⟨r, hvisit⟩

theorem get?_acl_of_injects (h : Injects st q p rv) (hacl : acl st q.json = .ok j) :
    ∃ r, parse (expandTemplate (aclDictionary rv.relname rv.aliasname)) = .ok r ∧
      j.get? p = some r := by
  obtain ⟨r, hr⟩ := answer_of_injects h hacl
  refine ⟨r, ?_, get?_walk_of_visitsAt (fun _ _ => key_of_move_visit) q.loneKey h.1 hr hacl⟩
  rw [aclRangeVar_toJson, if_pos h.2, map_eq_ok] at hr
  obtain ⟨r', hr', heq⟩ := hr
  rw [hr', Option.some.inj heq]

theorem injectedNode_of_answer {v r : Json} (hacl : acl st q.json = .ok j)
    (hnode : ∀ p rv, Injects st q p rv → j.get? p = some (injectedNode rv))
    (hv : VisitsAt move .acl q.json p v) (hr : aclRangeVar st v = .ok (some r)) :
    ∃ rv : RangeVar, v = rv.toJson ∧ Injects st q p rv ∧ r = injectedNode rv := by
  obtain ⟨rv, rfl, hinj⟩ := injects_of_answer hv hr
  have hget := get?_walk_of_visitsAt (fun _ _ => key_of_move_visit) q.loneKey hv hr hacl
  exact ⟨rv, rfl, hinj, Option.some.inj (hget.symm.trans (hnode p rv hinj))⟩

/-- The result holds the join with the access view exactly when the names are plain. -/
theorem get?_acl_eq_injectedNode_iff (h : Injects st q p rv) (hacl : acl st q.json = .ok j) :
    j.get? p = some (injectedNode rv) ↔ PlainRangeVar rv := by
  obtain ⟨r, hr, hget⟩ := get?_acl_of_injects h hacl
  rw [hget, PlainRangeVar, ← parse_expandTemplate_iff, hr, injectedNode]
  simp

theorem exists_acl_of_parse
    (h : ∀ p rv, Injects st q p rv →
      ∃ r, parse (expandTemplate (aclDictionary rv.relname rv.aliasname)) = .ok r) :
    ∃ j, acl st q.json = .ok j := by
  refine exists_walk_ok fun p v hv => ?_
  obtain ⟨rv, rfl, hreach⟩ := visitsAt_iff_reaches.mp hv
  rw [aclRangeVar_toJson]
  split
  · rename_i htable
    obtain ⟨r, hr⟩ := h p rv ⟨hreach, htable⟩
    rw [hr]
    exact ⟨_, rfl⟩
  · exact ⟨none, rfl⟩

theorem exists_acl_ok (h : ∀ p rv, Injects st q p rv → PlainRangeVar rv) :
    ∃ j, acl st q.json = .ok j :=
  exists_acl_of_parse fun p rv hinj => ⟨_, parse_expandTemplate (h p rv hinj)⟩

theorem get?_acl_of_skips {v : Json} (h : Skips move .acl p) (hget : q.json.get? p = some v)
    (hacl : acl st q.json = .ok j) : j.get? p = some v :=
  get?_walk_of_skips (fun _ _ => key_of_move_visit) q.loneKey h hget hacl

end Acl

end PgFort.QueryAcler
