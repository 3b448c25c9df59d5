import PgFort.QueryAcler
import PgFort.Replacement

namespace PgFort.AclFrame

open PgFort.JsonTree
open PgFort.JsonTree.Json
open PgFort.KeyedTraversal
open PgFort.Replacement
open PgFort.JoinTemplate
open PgFort.ParseTree
open PgFort.Schema
open PgFort.QueryAcler

/-- What an injected join has taken the place of. -/
def leftArgument : Json → Json
  | .obj [("JoinExpr", .obj fields)] => (fields.lookup "larg").getD .null
  | j => j

/-- The rewritten query with every injected join replaced by its left argument. -/
noncomputable def unwrapped (st : SchemaTracker) (q : Tree) (j : Json) : Json :=
  replaceAt leftArgument {p | ∃ rv, Injects (some st) q p rv} j

/-- The rewriting puts in joins only, and without them the query is what it was, source
locations aside. -/
def Restored (st : SchemaTracker) (q : Tree) : Prop :=
  ∃ j, acl (some st) q.json = .ok j ∧
    (∀ p rv, Injects (some st) q p rv → j.get? p = some (injectedNode rv)) ∧
    dropNumbers "location" (unwrapped st q j) = dropNumbers "location" q.json

/-- The table reference that the template writes as the left argument. -/
def rebuilt (rv : RangeVar) : RangeVar where
  alias_ := rv.alias_.map fun a => ⟨a.aliasname, []⟩
  catalogname := none
  inh := true
  location := none
  relname := rv.relname
  relpersistence := "p"
  schemaname := none

/-- A table reference without the parts that the template does not write. -/
def Bare (rv : RangeVar) : Prop :=
  rv.catalogname = none ∧ rv.schemaname = none ∧ rv.inh = true ∧ rv.relpersistence = "p" ∧
    ∀ a, rv.alias_ = some a → a.colnames = []

theorem leftArgument_injectedNode (rv : RangeVar) :
    leftArgument (injectedNode rv) = .obj [("RangeVar", (rebuilt rv).toJson)] := by
  obtain ⟨alias_, catalogname, inh, location, relname, relpersistence, schemaname⟩ := rv
  cases alias_ <;> rfl

theorem dropNumbers_stringNode (key s : String) :
    dropNumbers key (stringNode s) = stringNode s := by
  simp [stringNode, node, dropNumbers, dropNumbersMembers]

theorem dropNumbers_alias (key : String) (a : Alias) :
    dropNumbers key a.toJson = a.toJson := by
  have hnames : ∀ ss : List String,
      dropNumbersElems key (ss.map stringNode) = ss.map stringNode := by
    intro ss
    induction ss with
    | nil => rfl
    | cons s ss ih => rw [List.map_cons, dropNumbersElems, dropNumbers_stringNode, ih]
  rw [Alias.toJson]
  split <;> simp [dropNumbers, dropNumbersMembers, hnames]

theorem dropNumbers_rangeVar (rv : RangeVar) :
    dropNumbers "location" rv.toJson = { rv with location := none }.toJson := by
  obtain ⟨alias_, catalogname, inh, location, relname, relpersistence, schemaname⟩ := rv
  have halias : ∀ a : Alias, isNumberUnder "location" ("alias", a.toJson) = false := fun _ => rfl
  cases alias_ <;> cases catalogname <;> cases inh <;> cases location <;> cases schemaname <;>
    simp [RangeVar.toJson, RangeVar.fields, dropNumbers, dropNumbersMembers, halias,
      dropNumbers_alias]

theorem dropNumbers_leftArgument_iff (rv : RangeVar) :
    dropNumbers "location" (leftArgument (injectedNode rv)) =
        dropNumbers "location" (.obj [("RangeVar", rv.toJson)]) ↔ Bare rv := by
  have hobj : ∀ rv : RangeVar, dropNumbers "location" (.obj [("RangeVar", rv.toJson)]) =
      .obj [("RangeVar", { rv with location := none }.toJson)] := by
    intro rv
    simp only [dropNumbers, dropNumbersMembers, dropNumbers_rangeVar]
    rfl
  rw [leftArgument_injectedNode, hobj, hobj]
  constructor
  · intro h
    have hrv : { rebuilt rv with location := none } = { rv with location := none } :=
      RangeVar.toJson_injective (by simpa using h)
    obtain ⟨alias_, catalogname, inh, location, relname, relpersistence, schemaname⟩ := rv
    simp only [rebuilt, RangeVar.mk.injEq, true_and] at hrv
    obtain ⟨halias, rfl, rfl, rfl, rfl⟩ := hrv
    refine ⟨rfl, rfl, rfl, rfl, ?_⟩
    rintro a rfl
    rw [Option.map_some, Option.some.injEq] at halias
    exact (congrArg Alias.colnames halias).symm
  · rintro ⟨hcatalog, hschema, hinh, hpersistence, halias⟩
    obtain ⟨alias_, catalogname, inh, location, relname, relpersistence, schemaname⟩ := rv
    simp only at hcatalog hschema hinh hpersistence halias
    subst hcatalog hschema hinh hpersistence
    cases alias_ with
    | none => rfl
    | some a =>
        obtain ⟨aliasname, colnames⟩ := a
        obtain rfl : colnames = [] := halias _ rfl
        rfl

section Restored

variable {st : SchemaTracker} {q : Tree} {j : Json}

theorem injects_eq_replaced (hacl : acl (some st) q.json = .ok j) :
    {p | ∃ rv, Injects (some st) q p rv} =
      replaced move (aclRangeVar (some st)) .acl q.json := by
  ext p
  constructor
  · rintro ⟨rv, hinj⟩
    obtain ⟨r, hr⟩ := answer_of_injects hinj hacl
    exact ⟨_, r, hinj.1, hr⟩
  · rintro ⟨v, r, hv, hr⟩
    obtain ⟨rv, -, hinj⟩ := injects_of_answer hv hr
    exact ⟨rv, hinj⟩

/-- Restoring the query comes down to the injected joins one by one. -/
theorem unwrapped_eq_iff (hacl : acl (some st) q.json = .ok j)
    (hnode : ∀ p rv, Injects (some st) q p rv → j.get? p = some (injectedNode rv)) :
    dropNumbers "location" (unwrapped st q j) = dropNumbers "location" q.json ↔
      ∀ p rv, Injects (some st) q p rv → Bare rv := by
  rw [unwrapped, injects_eq_replaced hacl,
    dropNumbers_replaceAt_walk (fun _ _ => key_of_move_visit) q.loneKey ?_ hacl]
  · constructor
    · intro h p rv hinj
      obtain ⟨r, hr⟩ := answer_of_injects hinj hacl
      have hrestored := h p _ r hinj.1 hr
      obtain ⟨rv', heq, -, rfl⟩ := injectedNode_of_answer hacl hnode hinj.1 hr
      obtain rfl := RangeVar.toJson_injective heq
      exact (dropNumbers_leftArgument_iff rv).mp hrestored
    · intro h p v r hv hr
      obtain ⟨rv, rfl, hinj, rfl⟩ := injectedNode_of_answer hacl hnode hv hr
      exact (dropNumbers_leftArgument_iff rv).mpr (h p rv hinj)
  · intro p v r hv hr s
    obtain ⟨rv, -, -, rfl⟩ := injectedNode_of_answer hacl hnode hv hr
    rw [leftArgument_injectedNode]
    simp

theorem bare_of_restored (h : Restored st q) {p : Path} {rv : RangeVar}
    (hinj : Injects (some st) q p rv) : Bare rv := by
  obtain ⟨j, hacl, hnode, hsame⟩ := h
  exact (unwrapped_eq_iff hacl hnode).mp hsame p rv hinj

end Restored

theorem restored_iff (st : SchemaTracker) (q : Tree) :
    Restored st q ↔ ∀ p rv, Injects (some st) q p rv → Bare rv ∧ PlainRangeVar rv := by
  constructor
  · intro h p rv hinj
    refine ⟨bare_of_restored h hinj, ?_⟩
    obtain ⟨j, hacl, hnode, -⟩ := h
    exact (get?_acl_eq_injectedNode_iff hinj hacl).mp (hnode p rv hinj)
  · intro h
    obtain ⟨j, hacl⟩ := exists_acl_ok fun p rv hinj => (h p rv hinj).2
    have hnode : ∀ p rv, Injects (some st) q p rv → j.get? p = some (injectedNode rv) :=
      fun p rv hinj => (get?_acl_eq_injectedNode_iff hinj hacl).mpr (h p rv hinj).2
    exact ⟨j, hacl, hnode, (unwrapped_eq_iff hacl hnode).mpr fun p rv hinj => (h p rv hinj).1⟩

/-- The parse of `SELECT v FROM s.x`. -/
def qualifiedSelect : Tree where
  json :=
    .obj [("stmts", .arr [.obj [("stmt", node "SelectStmt"
      [("fromClause", .arr [node "RangeVar" [("inh", .bool true), ("location", .num "14"),
         ("relname", .str "x"), ("relpersistence", .str "p"), ("schemaname", .str "s")]]),
       ("limitOption", .str "LIMIT_OPTION_DEFAULT"), ("op", .str "SETOP_NONE"),
       ("targetList", .arr [node "ResTarget" [("location", .num "7"),
         ("val", node "ColumnRef" [("fields", .arr [stringNode "v"]),
           ("location", .num "7")])]])])]]),
      ("version", .num "130003")]
  rangeVars := by decide +kernel

/-- The rewritten query reads the `x` of the search path. -/
theorem not_restored_qualifiedSelect : ¬ Restored ⟨["x"]⟩ qualifiedSelect := by
  intro h
  have hreach : Reaches qualifiedSelect
      [.member 0 "stmts", .elem 0, .member 0 "stmt", .member 0 "SelectStmt",
        .member 0 "fromClause", .elem 0]
      { alias_ := none, catalogname := none, inh := true, location := some "14",
        relname := "x", relpersistence := "p", schemaname := some "s" } :=
    ⟨.aclSelectStmtFromClause, _, "RangeVar", by decide +kernel, rfl,
      List.mem_singleton.mpr rfl, by decide +kernel⟩
  exact absurd (bare_of_restored h ⟨hreach, by decide +kernel⟩).2.1 (by simp)

end PgFort.AclFrame
