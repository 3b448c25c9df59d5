import PgFort.EscapedNames
import PgFort.KeyGrammar
import PgFort.QueryAcler

namespace PgFort.NodeGrammar

open PgFort.JsonTree
open PgFort.JsonTree.Json
open PgFort.KeyedTraversal
open PgFort.KeyGrammar
open PgFort.JsonText (parse)
open PgFort.JoinTemplate
open PgFort.EscapedNames
open PgFort.ParseTree
open PgFort.Schema
open PgFort.QueryAcler

inductive NodeSort where
  /-- Statements and their clauses. -/
  | statement
  | selectStmt
  | fromClause
  | fromItem
  | joinExpr
  | rangeTableSample
  /-- A table reference that no other FROM item can stand for. -/
  | table
  | rangeVar
  /-- The other parts of FROM items. A SELECT in them is a statement again. -/
  | expression
  deriving DecidableEq, Repr

/-- The nodes that may stand in a FROM clause. -/
def fromItemKinds : List String :=
  ["RangeVar", "JoinExpr", "RangeTableSample", "RangeSubselect", "RangeFunction", "RangeTableFunc"]

/-- What may stand where an expression does. -/
def expressionMember (k : String) : Option NodeSort :=
  if k = "SelectStmt" then some .selectStmt
  else if k ∈ fromItemKinds then none
  else some .expression

/-- What may stand under a key. -/
def member : NodeSort → String → Option NodeSort
  | .statement, k =>
      if k = "SelectStmt" then some .selectStmt
      -- of UPDATE and DELETE
      else if k = "fromClause" ∨ k = "usingClause" then some .fromClause
      -- in the lists of LOCK, TRUNCATE, GRANT and others
      else if k = "RangeVar" then some .rangeVar
      else if k ∈ fromItemKinds then none
      else some .statement
  | .selectStmt, k =>
      if k = "fromClause" then some .fromClause
      else if k = "larg" ∨ k = "rarg" then some .selectStmt
      else if k ∈ fromItemKinds then none
      else some .statement
  | .fromClause, _ => none
  | .fromItem, k =>
      if k = "RangeVar" then some .rangeVar
      else if k = "JoinExpr" then some .joinExpr
      else if k = "RangeTableSample" then some .rangeTableSample
      else if k ∈ fromItemKinds then some .expression
      else none
  | .joinExpr, k => if k = "larg" ∨ k = "rarg" then some .fromItem else expressionMember k
  | .rangeTableSample, k => if k = "relation" then some .table else expressionMember k
  | .table, k => if k = "RangeVar" then some .rangeVar else none
  | .rangeVar, k =>
      if k ∈ ["alias", "catalogname", "inh", "location", "relname", "relpersistence", "schemaname"] then
        some .expression
      else none
  | .expression, k => expressionMember k

/-- The grammar of the nodes. -/
def grammar : Grammar NodeSort where
  member
  elem
    | .statement => some .statement
    | .fromClause => some .fromItem
    | .expression => some .expression
    | _ => none
  isNode
    | .fromClause | .fromItem | .table => true
    | _ => false

/-- The tree is one that the server's parser could have made, as far as FROM items are concerned. -/
def WellFormed (j : Json) : Prop := conforms grammar .statement j = true

structure WellFormedTree extends Tree where
  wellFormed : WellFormed json

/-- The rewriting makes a well-formed tree of the query. -/
def Preserved (st : SchemaTracker) (q : WellFormedTree) : Prop :=
  ∃ j, acl (some st) q.json = .ok j ∧ WellFormed j

/-- The position is that of the table of a TABLESAMPLE item. -/
def Sampled (p : Path) : Prop :=
  ∃ pre a b, p = pre ++ [.member a "RangeTableSample", .member b "relation"]

/-- What the template makes of the names is a FROM item. -/
def Joins (relname : String) (aliasname : Option String) : Prop :=
  ∃ r, parse (expandTemplate (aclDictionary relname aliasname)) = .ok r ∧
    conforms grammar .fromItem r = true

section Sorts

variable {s s' : NodeSort} {k : String} {p : Path}

theorem member_eq_table (h : member s k = some .table) : s = .rangeTableSample ∧ k = "relation" := by
  cases s <;> grind [member, expressionMember]

theorem member_rangeTableSample (s : NodeSort) :
    member s "RangeTableSample" = none ∨ member s "RangeTableSample" = some .rangeTableSample := by
  cases s <;> decide +kernel

theorem member_eq_rangeTableSample (h : member s k = some .rangeTableSample) :
    k = "RangeTableSample" := by
  cases s <;> grind [member, expressionMember]

theorem elem_ne (h : grammar.elem s = some s') : s' ≠ .table ∧ s' ≠ .rangeTableSample := by
  cases s <;> grind [grammar]

theorem exists_of_sortAt_append {step : Step} (h : sortAt grammar s (p ++ [step]) = some s') :
    ∃ t, sortAt grammar s p = some t ∧ sortAt grammar t [step] = some s' := by
  rw [sortAt_append, Option.bind_eq_some_iff] at h
  exact h

theorem sortAt_member {i : Nat} : sortAt grammar s [.member i k] = member s k := by
  rw [sortAt]
  show (member s k).bind some = member s k
  cases member s k <;> rfl

theorem sortAt_elem {i : Nat} : sortAt grammar s [.elem i] = grammar.elem s := by
  rw [sortAt]
  show (grammar.elem s).bind some = grammar.elem s
  cases grammar.elem s <;> rfl

theorem eq_append_of_rangeTableSample (h : sortAt grammar .statement p = some .rangeTableSample) :
    ∃ pre a, p = pre ++ [.member a "RangeTableSample"] := by
  obtain rfl | ⟨pre, step, rfl⟩ := List.eq_nil_or_concat' p
  · exact absurd (Option.some.inj h) (by decide)
  · obtain ⟨t, -, hstep⟩ := exists_of_sortAt_append h
    cases step with
    | elem i =>
        rw [sortAt_elem] at hstep
        exact absurd rfl (elem_ne hstep).2
    | member a k =>
        rw [sortAt_member] at hstep
        obtain rfl := member_eq_rangeTableSample hstep
        exact ⟨pre, a, rfl⟩

theorem sampled_of_table (h : sortAt grammar .statement p = some .table) : Sampled p := by
  obtain rfl | ⟨q, step, rfl⟩ := List.eq_nil_or_concat' p
  · exact absurd (Option.some.inj h) (by decide)
  · obtain ⟨t, ht, hstep⟩ := exists_of_sortAt_append h
    cases step with
    | elem i =>
        rw [sortAt_elem] at hstep
        exact absurd rfl (elem_ne hstep).1
    | member b k =>
        rw [sortAt_member] at hstep
        obtain ⟨rfl, rfl⟩ := member_eq_table hstep
        obtain ⟨pre, a, rfl⟩ := eq_append_of_rangeTableSample ht
        exact ⟨pre, a, b, by rw [List.append_assoc]; rfl⟩

theorem table_of_sampled (hp : Sampled p) (h : sortAt grammar .statement p = some s) : s = .table := by
  obtain ⟨pre, a, b, rfl⟩ := hp
  rw [show ∀ x y : Step, pre ++ [x, y] = (pre ++ [x]) ++ [y] by simp] at h
  obtain ⟨t, ht, hstep⟩ := exists_of_sortAt_append h
  obtain ⟨u, -, hu⟩ := exists_of_sortAt_append ht
  rw [sortAt_member] at hstep hu
  obtain hnone | hsome := member_rangeTableSample u
  · rw [hnone] at hu
    exact absurd hu (by simp)
  · obtain rfl := Option.some.inj (hsome.symm.trans hu)
    exact (Option.some.inj hstep).symm

end Sorts

section Run

/-- `AclSelectStmtFromClause` never runs on a statement or on its clauses. -/
def Follows (m : Mode) (s : NodeSort) : Prop :=
  m = .aclSelectStmtFromClause → s ≠ .statement ∧ s ≠ .selectStmt

variable {m m' : Mode} {s s' : NodeSort} {k : String} {p : Path}

theorem follows_elem (h : Follows m s) (hs : grammar.elem s = some s') : Follows m s' := by
  intro hm
  obtain ⟨hstatement, hselect⟩ := h hm
  cases s <;> grind [grammar]

theorem follows_member (h : Follows m s) (hm : move m k = .enter m') (hs : member s k = some s') :
    Follows m' s' := by
  rintro rfl
  cases m with
  | acl => grind [move]
  | aclSelectStmt =>
      have hk : k = "fromClause" := by grind [move]
      subst hk
      cases s <;> grind [member, expressionMember]
  | aclSelectStmtFromClause =>
      obtain ⟨hstatement, hselect⟩ := h rfl
      have hk : k ≠ "SelectStmt" := by grind [move]
      cases s <;> grind [member, expressionMember]

theorem follows_path (h : Follows m s) (hm : modeAt move m p = some m')
    (hs : sortAt grammar s p = some s') : Follows m' s' := by
  induction p generalizing m s with
  | nil =>
      obtain rfl := Option.some.inj hm
      obtain rfl := Option.some.inj hs
      exact h
  | cons step p ih =>
      cases step with
      | elem i =>
          rw [sortAt, Option.bind_eq_some_iff] at hs
          obtain ⟨t, ht, hs⟩ := hs
          exact ih (follows_elem h ht) hm hs
      | member i k =>
          rw [sortAt, Option.bind_eq_some_iff] at hs
          obtain ⟨t, ht, hs⟩ := hs
          rw [modeAt] at hm
          cases hmove : move m k with
          | enter n =>
              rw [hmove] at hm
              exact ih (follows_member h hmove ht) hm hs
          | skip => simp [hmove] at hm
          | visit => simp [hmove] at hm

theorem mode_of_move_visit (h : move m k = .visit) : m = .aclSelectStmtFromClause := by
  cases m <;> grind [move]

variable {st : SchemaTracker} {q : WellFormedTree} {rv : RangeVar}

/-- A table reference that the recursion comes to is a FROM item, or the table of a TABLESAMPLE. -/
theorem sortAt_of_injects (h : Injects (some st) q.toTree p rv) :
    sortAt grammar .statement p = some .fromItem ∨ sortAt grammar .statement p = some .table := by
  obtain ⟨s, hs, hconforms⟩ := conforms_get? q.wellFormed (get?_of_injects h)
  obtain ⟨n, ms, k, hmode, -, -, hvisit⟩ := h.1
  obtain rfl := mode_of_move_visit hvisit
  have hstart : Follows .acl .statement := fun hm => absurd hm (by decide)
  obtain ⟨hstatement, hselect⟩ := follows_path hstart hmode hs rfl
  obtain ⟨-, hmember⟩ := conforms_obj_iff.mp hconforms
  obtain ⟨t, ht, -⟩ := hmember _ (List.mem_singleton_self _)
  rw [hs]
  have hcases : s = .fromItem ∨ s = .table := by
    have hvar : ∀ s : NodeSort, s ≠ .statement → s ≠ .selectStmt → (member s "RangeVar").isSome = true →
        s = .fromItem ∨ s = .table := by
      intro s
      cases s <;> decide +kernel
    exact hvar s hstatement hselect (by rw [show member s "RangeVar" = some t from ht]; rfl)
  exact hcases.imp (congrArg some) (congrArg some)

theorem conforms_joinExprNode (d : TemplateDictionary) :
    conforms grammar .fromItem (joinExprNode d) = true := by
  obtain ⟨tableName, operation, tableAlias, tableRef⟩ := d
  cases tableAlias <;> rfl

/-- Names without a double quote make a join exactly if each backslash in them begins an escape of
JSON, and they have no control character. -/
theorem joins_iff_legible {relname : String} {aliasname : Option String}
    (hrelname : '"' ∉ relname.toList) (haliasname : ∀ a, aliasname = some a → '"' ∉ a.toList) :
    Joins relname aliasname ↔ Legible relname ∧ ∀ a, aliasname = some a → Legible a := by
  constructor
  · rintro ⟨r, hr, -⟩
    exact legible_of_parse hrelname haliasname hr
  · rintro ⟨hlegible, halias⟩
    obtain ⟨relname', aliasname', hparse⟩ := exists_parse_of_legible hlegible halias
    exact ⟨_, hparse, conforms_joinExprNode _⟩

end Run

section Preserved

variable {st : SchemaTracker} {q : WellFormedTree} {p : Path} {rv : RangeVar} {j : Json}

theorem not_conforms_table {d : TemplateDictionary} {r : Json} (h : parse (expandTemplate d) = .ok r) :
    ¬ conforms grammar .table r = true := by
  obtain ⟨ms, rfl, hkey⟩ := key_mem_of_parse_expandTemplate h
  obtain ⟨a, ha, hjoin⟩ := List.mem_map.mp hkey
  intro hconforms
  obtain ⟨t, ht, -⟩ := (conforms_obj_iff.mp hconforms).2 a ha
  rw [hjoin, show grammar.member .table "JoinExpr" = none by decide +kernel] at ht
  exact absurd ht (by simp)

theorem fits_of_preserved (hacl : acl (some st) q.json = .ok j) (hj : WellFormed j)
    (hinj : Injects (some st) q.toTree p rv) : ¬ Sampled p ∧ Joins rv.relname rv.aliasname := by
  obtain ⟨r, hr, hget⟩ := get?_acl_of_injects hinj hacl
  obtain ⟨s, hs, hconforms⟩ := conforms_get? hj hget
  obtain hitem | htable := sortAt_of_injects hinj
  · obtain rfl := Option.some.inj (hs.symm.trans hitem)
    exact ⟨fun hp => absurd (table_of_sampled hp hs) (by decide), r, hr, hconforms⟩
  · obtain rfl := Option.some.inj (hs.symm.trans htable)
    exact absurd hconforms (not_conforms_table hr)

theorem preserved_iff (st : SchemaTracker) (q : WellFormedTree) :
    Preserved st q ↔ ∀ p rv, Injects (some st) q.toTree p rv →
      ¬ Sampled p ∧ Joins rv.relname rv.aliasname := by
  constructor
  · rintro ⟨j, hacl, hj⟩ p rv hinj
    exact fits_of_preserved hacl hj hinj
  · intro h
    obtain ⟨j, hacl⟩ := exists_acl_of_parse fun p rv hinj => (h p rv hinj).2.imp fun _ hr => hr.1
    refine ⟨j, hacl, conforms_walk q.wellFormed (fun p v r hv hf s hs => ?_) hacl⟩
    obtain ⟨rv, rfl, hinj⟩ := injects_of_answer hv hf
    obtain ⟨hsampled, r', hr', hconforms⟩ := h p rv hinj
    obtain hitem | htable := sortAt_of_injects hinj
    · obtain rfl := Option.some.inj (hs.symm.trans hitem)
      rw [aclRangeVar_toJson, if_pos hinj.2, hr'] at hf
      rw [← Option.some.inj (Except.ok.inj hf)]
      exact hconforms
    · exact absurd (sampled_of_table htable) hsampled

/-- The parse of `SELECT v FROM x TABLESAMPLE SYSTEM (10)`. -/
def sampledSelect : WellFormedTree where
  json :=
    .obj [("stmts", .arr [.obj [("stmt", node "SelectStmt"
      [("fromClause", .arr [node "RangeTableSample"
         [("args", .arr [node "A_Const" [("location", .num "35"),
            ("val", node "Integer" [("ival", .num "10")])]]),
          ("location", .num "16"),
          ("method", .arr [stringNode "system"]),
          ("relation", node "RangeVar" [("inh", .bool true), ("location", .num "14"),
            ("relname", .str "x"), ("relpersistence", .str "p")])]]),
       ("limitOption", .str "LIMIT_OPTION_DEFAULT"), ("op", .str "SETOP_NONE"),
       ("targetList", .arr [node "ResTarget" [("location", .num "7"),
         ("val", node "ColumnRef" [("fields", .arr [stringNode "v"]),
           ("location", .num "7")])]])])]]),
      ("version", .num "130003")]
  rangeVars := by decide +kernel
  wellFormed := by
    unfold WellFormed
    decide +kernel

/-- The rewritten query samples a join. -/
theorem not_preserved_sampledSelect : ¬ Preserved ⟨["x"]⟩ sampledSelect := by
  rintro ⟨j, hacl, hj⟩
  have hreach : Reaches sampledSelect.toTree
      [.member 0 "stmts", .elem 0, .member 0 "stmt", .member 0 "SelectStmt",
        .member 0 "fromClause", .elem 0, .member 0 "RangeTableSample", .member 3 "relation"]
      { alias_ := none, catalogname := none, inh := true, location := some "14",
        relname := "x", relpersistence := "p", schemaname := none } :=
    ⟨.aclSelectStmtFromClause, _, "RangeVar", by decide +kernel, rfl,
      List.mem_singleton.mpr rfl, by decide +kernel⟩
  exact (fits_of_preserved hacl hj ⟨hreach, by decide +kernel⟩).1
    ⟨[.member 0 "stmts", .elem 0, .member 0 "stmt", .member 0 "SelectStmt", .member 0 "fromClause",
      .elem 0], 0, 3, rfl⟩

end Preserved

end PgFort.NodeGrammar
