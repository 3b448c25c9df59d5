import PgFort.QueryAcler

namespace PgFort.WithScope

open PgFort.JsonTree
open PgFort.JsonTree.Json
open PgFort.KeyedTraversal
open PgFort.JoinTemplate
open PgFort.ParseTree
open PgFort.Schema
open PgFort.QueryAcler

/-- From a statement to the name of an item of its WITH clause. The first numbers of the
steps are the places of the keys in their objects. -/
def ctenamePath (a b n c d : Nat) : Path :=
  [.member a "withClause", .member b "ctes", .elem n, .member c "CommonTableExpr",
    .member d "ctename"]

/-- The statement at `pre` has a WITH clause whose item number `n` has this name. -/
def WithItem (j : Json) (pre : Path) (n : Nat) (name : String) : Prop :=
  ∃ a b c d, j.get? (pre ++ ctenamePath a b n c d) = some (.str name)

/-- The WITH clause of a SELECT is recursive. -/
def WithRecursive (j : Json) (pre : Path) : Prop :=
  ∃ a b, j.get? (pre ++ [.member a "withClause", .member b "recursive"]) = some (.bool true)

/-- The names of WITH items that a relation name at a position resolves to before the
catalogue. The items of a statement are in scope in all its other clauses. An item itself
is in the scope of the items before it, and under RECURSIVE of all. -/
def InWithScope (j : Json) (p : Path) (name : String) : Prop :=
  ∃ pre i k rest n, p = pre ++ .member i k :: rest ∧ WithItem j pre n name ∧
    (k = "withClause" → WithRecursive j pre ∨
      ∃ b m rest', rest = .member b "ctes" :: .elem m :: rest' ∧ n < m)

/-- Every access view that the rewriting joins with is the one in the catalogue. -/
def Resolved (st : SchemaTracker) (q : Tree) : Prop :=
  ∃ j, acl (some st) q.json = .ok j ∧
    ∀ p rv, Injects (some st) q p rv →
      j.get? p = some (injectedNode rv) ∧ ¬ InWithScope j p (rv.relname ++ "__acls__")

section Frame

variable {st : SchemaTracker} {q : Tree} {j : Json}

theorem get?_acl_append_iff (hacl : acl (some st) q.json = .ok j)
    (hnode : ∀ p rv, Injects (some st) q p rv → j.get? p = some (injectedNode rv))
    {pre rest p : Path} {rv : RangeVar} (hinj : Injects (some st) q (pre ++ rest) rv)
    (hvar : Avoids "RangeVar" p) (hjoin : Avoids "JoinExpr" p) {v : Json}
    (hv : v.isPrimitive = true) :
    j.get? (pre ++ p) = some v ↔ q.json.get? (pre ++ p) = some v := by
  obtain ⟨n, x, y, hx, hy, hwalk, hvisit, hlone, hback⟩ :=
    walk_prefix (fun _ _ => key_of_move_visit) q.loneKey hinj.1 hacl
  have hmade : ∀ p w r, VisitsAt move n x p w → aclRangeVar (some st) w = .ok (some r) →
      ∃ z, r = .obj [("JoinExpr", z)] := by
    intro p w r hw hr
    obtain ⟨rv', -, -, rfl⟩ := injectedNode_of_answer hacl hnode (hback p w hw) hr
    exact ⟨_, rfl⟩
  rw [get?_append, get?_append, hx, hy, Option.bind_some, Option.bind_some]
  constructor
  · intro h
    exact get?_of_get?_walk_of_isPrimitive hmade hjoin hv h hwalk
  · intro h
    exact get?_walk_of_isPrimitive (fun _ _ => key_of_move_visit) hlone hvar hv h hwalk

theorem avoids_ctenamePath {key : String}
    (hkey : key ∉ ["withClause", "ctes", "CommonTableExpr", "ctename"]) (a b n c d : Nat) :
    Avoids key (ctenamePath a b n c d) := by
  intro i hi
  simp only [List.mem_cons, List.not_mem_nil, or_false, not_or] at hkey
  simp only [ctenamePath, List.mem_cons, List.not_mem_nil, or_false, Step.member.injEq,
    reduceCtorEq, false_or] at hi
  rcases hi with h | h | h | h
  · exact hkey.1 h.2
  · exact hkey.2.1 h.2
  · exact hkey.2.2.1 h.2
  · exact hkey.2.2.2 h.2

/-- The rewriting changes none of the scopes that its own joins lie in. -/
theorem inWithScope_acl_iff (hacl : acl (some st) q.json = .ok j)
    (hnode : ∀ p rv, Injects (some st) q p rv → j.get? p = some (injectedNode rv))
    {p : Path} {rv : RangeVar} (hinj : Injects (some st) q p rv) (name : String) :
    InWithScope j p name ↔ InWithScope q.json p name := by
  have hitem : ∀ {pre rest : Path} {n : Nat}, p = pre ++ rest →
      (WithItem j pre n name ↔ WithItem q.json pre n name) := by
    rintro pre rest n rfl
    refine exists_congr fun a => exists_congr fun b => exists_congr fun c =>
      exists_congr fun d => ?_
    exact get?_acl_append_iff hacl hnode hinj (avoids_ctenamePath (by decide +kernel) a b n c d)
      (avoids_ctenamePath (by decide +kernel) a b n c d) rfl
  have hrecursive : ∀ {pre rest : Path}, p = pre ++ rest →
      (WithRecursive j pre ↔ WithRecursive q.json pre) := by
    rintro pre rest rfl
    refine exists_congr fun a => exists_congr fun b => ?_
    exact get?_acl_append_iff hacl hnode hinj (by simp [Avoids]) (by simp [Avoids]) rfl
  constructor
  · rintro ⟨pre, i, k, rest, n, hp, hname, hscope⟩
    exact ⟨pre, i, k, rest, n, hp, (hitem hp).mp hname,
      fun hk => (hscope hk).imp_left (hrecursive hp).mp⟩
  · rintro ⟨pre, i, k, rest, n, hp, hname, hscope⟩
    exact ⟨pre, i, k, rest, n, hp, (hitem hp).mpr hname,
      fun hk => (hscope hk).imp_left (hrecursive hp).mpr⟩

/-- A client that names a WITH item after an access view supplies the access rows. -/
theorem not_inWithScope_of_resolved (h : Resolved st q) {p : Path} {rv : RangeVar}
    (hinj : Injects (some st) q p rv) : ¬ InWithScope q.json p (rv.relname ++ "__acls__") := by
  obtain ⟨j, hacl, hall⟩ := h
  rw [← inWithScope_acl_iff hacl (fun p rv hinj => (hall p rv hinj).1) hinj]
  exact (hall p rv hinj).2

end Frame

theorem resolved_iff (st : SchemaTracker) (q : Tree) :
    Resolved st q ↔ ∀ p rv, Injects (some st) q p rv →
      PlainRangeVar rv ∧ ¬ InWithScope q.json p (rv.relname ++ "__acls__") := by
  constructor
  · intro h p rv hinj
    refine ⟨?_, not_inWithScope_of_resolved h hinj⟩
    obtain ⟨j, hacl, hall⟩ := h
    exact (get?_acl_eq_injectedNode_iff hinj hacl).mp (hall p rv hinj).1
  · intro h
    obtain ⟨j, hacl⟩ := exists_acl_ok fun p rv hinj => (h p rv hinj).1
    have hnode : ∀ p rv, Injects (some st) q p rv → j.get? p = some (injectedNode rv) :=
      fun p rv hinj => (get?_acl_eq_injectedNode_iff hinj hacl).mpr (h p rv hinj).1
    refine ⟨j, hacl, fun p rv hinj => ⟨hnode p rv hinj, ?_⟩⟩
    rw [inWithScope_acl_iff hacl hnode hinj]
    exact (h p rv hinj).2

/-- The parse of `WITH x__acls__ AS (SELECT 1) SELECT v FROM x`. -/
def capturingWith : Tree where
  json :=
    .obj [("stmts", .arr [.obj [("stmt", node "SelectStmt"
      [("fromClause", .arr [node "RangeVar" [("inh", .bool true), ("location", .num "43"),
         ("relname", .str "x"), ("relpersistence", .str "p")]]),
       ("limitOption", .str "LIMIT_OPTION_DEFAULT"), ("op", .str "SETOP_NONE"),
       ("targetList", .arr [node "ResTarget" [("location", .num "36"),
         ("val", node "ColumnRef" [("fields", .arr [stringNode "v"]),
           ("location", .num "36")])]]),
       ("withClause", .obj
         [("ctes", .arr [node "CommonTableExpr"
            [("ctematerialized", .str "CTEMaterializeDefault"),
             ("ctename", .str "x__acls__"),
             ("ctequery", node "SelectStmt"
               [("limitOption", .str "LIMIT_OPTION_DEFAULT"), ("op", .str "SETOP_NONE"),
                ("targetList", .arr [node "ResTarget" [("location", .num "26"),
                  ("val", node "A_Const" [("location", .num "26"),
                    ("val", node "Integer" [("ival", .num "1")])])]])]),
             ("location", .num "5")]])])])]]),
      ("version", .num "130003")]
  rangeVars := by decide +kernel

/-- The access view of `x` is the client's own. -/
theorem not_resolved_capturingWith : ¬ Resolved ⟨["x"]⟩ capturingWith := by
  intro h
  have hreach : Reaches capturingWith
      [.member 0 "stmts", .elem 0, .member 0 "stmt", .member 0 "SelectStmt",
        .member 0 "fromClause", .elem 0]
      { alias_ := none, catalogname := none, inh := true, location := some "43",
        relname := "x", relpersistence := "p", schemaname := none } :=
    ⟨.aclSelectStmtFromClause, _, "RangeVar", by decide +kernel, rfl,
      List.mem_singleton.mpr rfl, by decide +kernel⟩
  refine not_inWithScope_of_resolved h ⟨hreach, by decide +kernel⟩ ?_
  refine ⟨[.member 0 "stmts", .elem 0, .member 0 "stmt", .member 0 "SelectStmt"], 0,
    "fromClause", [.elem 0], 0, rfl, ⟨4, 0, 0, 1, ?_⟩, fun hk => absurd hk (by decide +kernel)⟩
  decide +kernel

end PgFort.WithScope
