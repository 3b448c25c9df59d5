import PgFort.AclFrame
import PgFort.WithScope

namespace PgFort.TableNames

open PgFort.JsonTree
open PgFort.JsonTree.Json
open PgFort.KeyedTraversal
open PgFort.Replacement
open PgFort.JsonText
open PgFort.JoinTemplate
open PgFort.ParseTree
open PgFort.Schema
open PgFort.QueryAcler
open PgFort.AclFrame
open PgFort.WithScope

/-- A table reference of the query, wherever it stands, by a name without a schema. -/
def Names (q : Tree) (p : Path) (rv : RangeVar) : Prop :=
  q.json.get? p = some (node "RangeVar" rv.fields) ∧ rv.schemaname = none

/-- The rewriting takes the names for what the server takes them for. -/
structure AsResolved (st : SchemaTracker) (q : Tree) (j : Json) : Prop where
  /-- The name of a WITH item is left as it is. -/
  items : ∀ p rv, Names q p rv → InWithScope q.json p rv.relname → j.get? p = q.json.get? p
  /-- Of the names that the recursion comes to, those of controlled tables are replaced, and no
  other. -/
  tables : ∀ p rv, Names q p rv → Reaches q p rv →
    (j.get? p ≠ q.json.get? p ↔ st.exist rv.relname = true ∧ ¬ InWithScope q.json p rv.relname)

section Kept

variable {st : SchemaTracker} {q : Tree} {p : Path} {rv : RangeVar} {j : Json}

theorem everywhere_toJson (rv : RangeVar) :
    Everywhere (fun ms => ∀ v, ("RangeVar", v) ∉ ms) rv.toJson := by
  have halias : ∀ a : Alias, Everywhere (fun ms => ∀ v, ("RangeVar", v) ∉ ms) a.toJson := by
    intro a
    rw [Alias.toJson]
    split <;> simp [everywhere_obj_iff, everywhere_arr_iff, stringNode, node]
  obtain ⟨alias_, catalogname, inh, location, relname, relpersistence, schemaname⟩ := rv
  cases alias_ <;> cases catalogname <;> cases inh <;> cases location <;> cases schemaname <;>
    simp [RangeVar.toJson, RangeVar.fields, everywhere_obj_iff, halias]

theorem eq_nil_of_rangeVars {rest : Path} {rv' : RangeVar}
    (hget : q.json.get? p = some (node "RangeVar" rv.fields))
    (hget' : q.json.get? (p ++ rest) = some (node "RangeVar" rv'.fields)) : rest = [] := by
  rw [get?_append, hget, Option.bind_some] at hget'
  cases rest with
  | nil => rfl
  | cons s rest =>
      rw [get?_cons, Option.bind_eq_some_iff] at hget'
      obtain ⟨v, hv, hget'⟩ := hget'
      have hchild : v = rv.toJson := by
        cases s with
        | elem i => simp [child?, node] at hv
        | member i k =>
            obtain ⟨ms, hms, hget⟩ := child?_member_eq_some.mp hv
            rw [← Json.obj.inj hms] at hget
            exact congrArg Prod.snd (List.mem_singleton.mp (List.mem_of_getElem? hget))
      rw [hchild] at hget'
      exact absurd (everywhere_toJson rv rest _ hget') (by simp)

theorem get?_acl_of_not_injects (hget : q.json.get? p = some (node "RangeVar" rv.fields))
    (hnot : ¬ Injects (some st) q p rv) (hacl : acl (some st) q.json = .ok j) :
    j.get? p = q.json.get? p := by
  rw [hget]
  refine get?_walk_of_apart hget (fun p' hp' => ?_) hacl
  rw [← injects_eq_replaced hacl] at hp'
  obtain ⟨rv', hinj⟩ := hp'
  have hne : p ≠ p' := by
    rintro rfl
    have hsame := (get?_of_injects hinj).symm.trans hget
    have hrv : rv' = rv := RangeVar.toJson_injective (by simpa [node, RangeVar.toJson] using hsame)
    exact hnot (hrv ▸ hinj)
  constructor
  · rintro ⟨rest, rfl⟩
    exact hne (by rw [eq_nil_of_rangeVars (get?_of_injects hinj) hget, List.append_nil])
  · rintro ⟨rest, rfl⟩
    exact hne (by rw [eq_nil_of_rangeVars hget (get?_of_injects hinj), List.append_nil])

theorem get?_acl_ne_of_injects (h : Injects (some st) q p rv) (hacl : acl (some st) q.json = .ok j) :
    j.get? p ≠ q.json.get? p := by
  obtain ⟨r, hr, hget⟩ := get?_acl_of_injects h hacl
  obtain ⟨ms, rfl, hkey⟩ := key_mem_of_parse_expandTemplate hr
  rw [hget, get?_of_injects h]
  intro heq
  rw [Json.obj.inj (Option.some.inj heq)] at hkey
  simp at hkey

theorem get?_acl_ne_iff (hget : q.json.get? p = some (node "RangeVar" rv.fields))
    (hacl : acl (some st) q.json = .ok j) :
    j.get? p ≠ q.json.get? p ↔ Injects (some st) q p rv := by
  constructor
  · intro hne
    by_contra hnot
    exact hne (get?_acl_of_not_injects hget hnot hacl)
  · intro hinj
    exact get?_acl_ne_of_injects hinj hacl

end Kept

theorem asResolved_iff {st : SchemaTracker} {q : Tree} {j : Json}
    (hacl : acl (some st) q.json = .ok j) :
    AsResolved st q j ↔ ∀ p rv, Names q p rv → Reaches q p rv →
      InWithScope q.json p rv.relname → st.exist rv.relname = false := by
  constructor
  · intro h p rv hname hreach hscope
    by_contra htable
    rw [Bool.not_eq_false] at htable
    exact get?_acl_ne_of_injects ⟨hreach, htable⟩ hacl (h.items p rv hname hscope)
  · intro h
    have hnot : ∀ p rv, Names q p rv → InWithScope q.json p rv.relname → ¬ Injects (some st) q p rv := by
      rintro p rv hname hscope ⟨hreach, htable⟩
      exact absurd htable (by rw [isTable, h p rv hname hreach hscope]; decide)
    constructor
    · intro p rv hname hscope
      exact get?_acl_of_not_injects hname.1 (hnot p rv hname hscope) hacl
    · intro p rv hname hreach
      rw [get?_acl_ne_iff hname.1 hacl]
      constructor
      · intro hinj
        exact ⟨hinj.2, fun hscope => hnot p rv hname hscope hinj⟩
      · rintro ⟨htable, -⟩
        exact ⟨hreach, htable⟩

/-- The parse of `WITH t AS (SELECT 1) SELECT v FROM t`. -/
def itemSelect : Tree where
  json :=
    .obj [("stmts", .arr [.obj [("stmt", node "SelectStmt"
      [("fromClause", .arr [node "RangeVar" [("inh", .bool true), ("location", .num "36"),
         ("relname", .str "t"), ("relpersistence", .str "p")]]),
       ("limitOption", .str "LIMIT_OPTION_DEFAULT"), ("op", .str "SETOP_NONE"),
       ("targetList", .arr [node "ResTarget" [("location", .num "29"),
         ("val", node "ColumnRef" [("fields", .arr [stringNode "v"]),
           ("location", .num "29")])]]),
       ("withClause", .obj
         [("ctes", .arr [node "CommonTableExpr"
            [("ctematerialized", .str "CTEMaterializeDefault"),
             ("ctename", .str "t"),
             ("ctequery", node "SelectStmt"
               [("limitOption", .str "LIMIT_OPTION_DEFAULT"), ("op", .str "SETOP_NONE"),
                ("targetList", .arr [node "ResTarget" [("location", .num "19"),
                  ("val", node "A_Const" [("location", .num "19"),
                    ("val", node "Integer" [("ival", .num "1")])])]])]),
             ("location", .num "5")]])])])]]),
      ("version", .num "130003")]
  rangeVars := by decide +kernel

theorem relname_itemSelect {p : Path} {rv : RangeVar}
    (hget : itemSelect.json.get? p = some (node "RangeVar" rv.fields)) :
    rv.relname = "t" ∧ rv.aliasname = none := by
  have hnames : Everywhere (fun ms => ∀ v, ("RangeVar", v) ∈ ms →
      v.subscript "relname" = .ok (.str "t") ∧ v.contains "alias" = false) itemSelect.json := by
    simp [itemSelect, everywhere_obj_iff, everywhere_arr_iff, node, stringNode, subscript, contains,
      List.lookup_cons]
  obtain ⟨hrelname, halias⟩ := hnames p _ hget rv.toJson (List.mem_singleton.mpr rfl)
  rw [rv.subscript_relname] at hrelname
  rw [rv.contains_alias] at halias
  exact ⟨Json.str.inj (Except.ok.inj hrelname), by simpa using halias⟩

theorem asResolved_otherTable : AsResolved ⟨["documents"]⟩ itemSelect itemSelect.json := by
  refine (asResolved_iff rfl).mpr fun p rv hname _ _ => ?_
  rw [(relname_itemSelect hname.1).1]
  decide +kernel

/-- The WITH item is joined with the access view of the table that has its name. -/
theorem not_asResolved_itemSelect :
    ∃ j, acl (some ⟨["t"]⟩) itemSelect.json = .ok j ∧ ¬ AsResolved ⟨["t"]⟩ itemSelect j := by
  obtain ⟨j, hacl⟩ : ∃ j, acl (some ⟨["t"]⟩) itemSelect.json = .ok j := by
    refine exists_acl_ok fun p rv hinj => ?_
    obtain ⟨hrelname, halias⟩ := relname_itemSelect (get?_of_injects hinj)
    rw [PlainRangeVar, hrelname, halias]
    exact ⟨by decide +kernel, by simp⟩
  refine ⟨j, hacl, fun h => ?_⟩
  let p : Path := [.member 0 "stmts", .elem 0, .member 0 "stmt", .member 0 "SelectStmt",
    .member 0 "fromClause", .elem 0]
  let rv : RangeVar :=
    { alias_ := none, catalogname := none, inh := true, location := some "36", relname := "t",
      relpersistence := "p", schemaname := none }
  have hreach : Reaches itemSelect p rv :=
    ⟨.aclSelectStmtFromClause, _, "RangeVar", by decide +kernel, rfl,
      List.mem_singleton.mpr rfl, by decide +kernel⟩
  have hscope : InWithScope itemSelect.json p rv.relname := by
    refine ⟨[.member 0 "stmts", .elem 0, .member 0 "stmt", .member 0 "SelectStmt"], 0,
      "fromClause", [.elem 0], 0, rfl, ⟨4, 0, 0, 1, ?_⟩, fun hk => absurd hk (by decide +kernel)⟩
    decide +kernel
  exact get?_acl_ne_of_injects ⟨hreach, by decide +kernel⟩ hacl (h.items p rv ⟨rfl, rfl⟩ hscope)

end PgFort.TableNames
