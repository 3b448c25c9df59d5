import PgFort.QueryAcler

namespace PgFort.AclCoverage

open PgFort.JsonTree
open PgFort.JsonTree.Json
open PgFort.KeyedTraversal
open PgFort.JoinTemplate
open PgFort.ParseTree
open PgFort.Schema
open PgFort.QueryAcler

/-- Where in a parse tree one is, as far as FROM clauses are concerned. -/
inductive Place where
  | other
  | selectStmt
  /-- At an item of a FROM clause, or at a list of items. -/
  | fromItem
  | joinExpr
  | rangeTableSample
  deriving DecidableEq, Repr

/-- How the grammar nests FROM items. The arguments of a set operation are
SELECT statements without a node of their own. -/
def fromItems : Traversal Place
  | .other, k =>
      if k = "SelectStmt" then .enter .selectStmt
      else if k = "RangeVar" then .skip
      else .enter .other
  | .selectStmt, k =>
      if k = "fromClause" then .enter .fromItem
      else if k = "larg" ∨ k = "rarg" then .enter .selectStmt
      else if k = "RangeVar" then .skip
      else .enter .other
  | .fromItem, k =>
      if k = "RangeVar" then .visit
      else if k = "JoinExpr" then .enter .joinExpr
      else if k = "RangeTableSample" then .enter .rangeTableSample
      else if k = "SelectStmt" then .enter .selectStmt
      else .enter .other
  | .joinExpr, k =>
      if k = "larg" ∨ k = "rarg" then .enter .fromItem
      else if k = "RangeVar" then .skip
      else .enter .other
  | .rangeTableSample, k =>
      if k = "relation" then .enter .fromItem
      else if k = "RangeVar" then .skip
      else .enter .other

/-- The table reference at a position stands in the FROM clause of a SELECT. -/
def InFromClause (q : Tree) (p : Path) (rv : RangeVar) : Prop :=
  VisitsAt fromItems .other q.json p rv.toJson

/-- After the rewriting, what stood in a FROM clause as a controlled table is the left
argument of one join with the access view of the table, and neither argument of an
injected join is a join again. -/
def Covered (st : SchemaTracker) (q : Tree) : Prop :=
  ∃ j, acl (some st) q.json = .ok j ∧
    (∀ p rv, InFromClause q p rv → st.exist rv.relname = true →
      j.get? p = some (injectedNode rv)) ∧
    ∀ p rv, Injects (some st) q p rv → j.get? p = some (injectedNode rv)

/-- The position lies in a clause that `AclSelectStmt` passes over. -/
def Hidden (p : Path) : Prop :=
  ∃ pre i k rest, p = pre ++ .member i k :: rest ∧
    modeAt move .acl pre = some .aclSelectStmt ∧
    k ∈ ["intoClause", "whereClause", "targetList"]

theorem move_eq_skip {m : Mode} {k : String} :
    move m k = .skip ↔
      m = .aclSelectStmt ∧ k ∈ ["intoClause", "whereClause", "targetList"] := by
  cases m with
  | acl =>
      rw [move]
      split <;> simp
  | aclSelectStmt =>
      rw [move]
      by_cases hfrom : k = "fromClause"
      · subst hfrom
        decide +kernel
      · simp only [hfrom, if_false, List.mem_cons, List.not_mem_nil, or_false, true_and]
        split
        · simp [*]
        · split
          · simp [*]
          · simp [*]
  | aclSelectStmtFromClause =>
      rw [move]
      repeat' split
      all_goals simp

theorem skips_iff_hidden {p : Path} : Skips move .acl p ↔ Hidden p := by
  rw [skips_iff]
  constructor
  · rintro ⟨pre, i, k, rest, n, rfl, hmode, hskip⟩
    obtain ⟨rfl, hk⟩ := move_eq_skip.mp hskip
    exact ⟨pre, i, k, rest, rfl, hmode, hk⟩
  · rintro ⟨pre, i, k, rest, rfl, hmode, hk⟩
    exact ⟨pre, i, k, rest, _, rfl, hmode, move_eq_skip.mpr ⟨rfl, hk⟩⟩

/-- The places at which the recursion of the rewriting puts a join in. -/
def inFrom : Place → Bool
  | .fromItem => true
  | .joinExpr => true
  | .rangeTableSample => true
  | _ => false

theorem fromItems_eq_enter {pl pl' : Place} {k : String} (h : fromItems pl k = .enter pl') :
    k ≠ "RangeVar" ∧
      (pl' = .other ∨
        (k = "SelectStmt" ∧ pl' = .selectStmt) ∨
        (pl = .selectStmt ∧ (k = "larg" ∨ k = "rarg") ∧ pl' = .selectStmt) ∨
        (pl = .selectStmt ∧ k = "fromClause" ∧ pl' = .fromItem) ∨
        (inFrom pl = true ∧ k ≠ "SelectStmt" ∧ inFrom pl' = true)) := by
  cases pl <;> rw [fromItems] at h <;> repeat' split at h
  all_goals grind [inFrom]

/-- The functions of the code that can be running at a place. -/
def Runs : Place → Mode → Prop
  | .other, _ => True
  | .selectStmt, m => m = .aclSelectStmt
  | _, m => m = .aclSelectStmtFromClause

theorem runs_of_inFrom {pl : Place} {m : Mode} (h : inFrom pl = true) :
    Runs pl m ↔ m = .aclSelectStmtFromClause := by
  cases pl <;> simp_all [inFrom, Runs]

theorem move_selectStmt (m : Mode) : move m "SelectStmt" = .enter .aclSelectStmt := by
  cases m <;> decide +kernel

theorem runs_step {pl pl' : Place} {m m' : Mode} {k : String} (hrun : Runs pl m)
    (hk : fromItems pl k = .enter pl') (hm : move m k = .enter m') : Runs pl' m' := by
  obtain ⟨hne, rfl | ⟨rfl, rfl⟩ | ⟨rfl, harg, rfl⟩ | ⟨rfl, rfl, rfl⟩ | ⟨hin, hselect, hin'⟩⟩ :=
    fromItems_eq_enter hk
  · trivial
  · exact (Move.enter.inj ((move_selectStmt m).symm.trans hm)).symm
  · obtain rfl := hrun
    have hmove : move .aclSelectStmt k = .enter .aclSelectStmt := by
      rcases harg with rfl | rfl <;> decide +kernel
    exact (Move.enter.inj (hmove.symm.trans hm)).symm
  · obtain rfl := hrun
    have hmove : move .aclSelectStmt "fromClause" = .enter .aclSelectStmtFromClause := by
      decide +kernel
    exact (Move.enter.inj (hmove.symm.trans hm)).symm
  · obtain rfl := (runs_of_inFrom hin).mp hrun
    rw [move, if_neg hne, if_neg hselect] at hm
    exact (runs_of_inFrom hin').mpr (Move.enter.inj hm).symm

/-- A path that the grammar allows to a FROM item is followed by the code to its end, or
leads into a clause that the code passes over. -/
theorem modeAt_or_skips {pl pl' : Place} {m : Mode} {p : Path} (hrun : Runs pl m)
    (hp : modeAt fromItems pl p = some pl') :
    Skips move m p ∨ ∃ m', modeAt move m p = some m' ∧ Runs pl' m' := by
  induction p generalizing pl m with
  | nil =>
      obtain rfl : pl = pl' := by simpa [modeAt] using hp
      exact .inr ⟨m, rfl, hrun⟩
  | cons s p ih =>
      cases s with
      | elem i => exact ih hrun hp
      | member i k =>
          rw [modeAt] at hp
          cases hk : fromItems pl k with
          | enter pl₁ =>
              rw [hk] at hp
              rw [Skips, modeAt]
              cases hmove : move m k with
              | skip => exact .inl trivial
              | enter m₁ => exact ih (runs_step hrun hk hmove) hp
              | visit => exact absurd (key_of_move_visit hmove) (fromItems_eq_enter hk).1
          | skip => simp [hk] at hp
          | visit => simp [hk] at hp

theorem place_of_fromItems_visit {pl : Place} {k : String} (h : fromItems pl k = .visit) :
    pl = .fromItem ∧ k = "RangeVar" := by
  cases pl <;> rw [fromItems] at h <;> repeat' split at h
  all_goals simp_all

/-- Every table in a FROM clause is reached, unless it lies in a clause that the code
passes over. -/
theorem reaches_of_inFromClause {q : Tree} {p : Path} {rv : RangeVar}
    (h : InFromClause q p rv) : Hidden p ∨ Reaches q p rv := by
  obtain ⟨pl, ms, k, hplace, hget, hmem, hvisit⟩ := h
  obtain ⟨rfl, rfl⟩ := place_of_fromItems_visit hvisit
  have hstart : Runs .other .acl := trivial
  rcases modeAt_or_skips hstart hplace with hskip | ⟨m, hmode, hrun⟩
  · exact .inl (skips_iff_hidden.mp hskip)
  · obtain rfl := hrun
    exact .inr ⟨_, ms, _, hmode, hget, hmem, by decide +kernel⟩

theorem get?_of_inFromClause {q : Tree} {p : Path} {rv : RangeVar}
    (h : InFromClause q p rv) : q.json.get? p = some (.obj [("RangeVar", rv.toJson)]) := by
  obtain ⟨pl, ms, k, -, hget, hmem, hvisit⟩ := h
  obtain ⟨-, rfl⟩ := place_of_fromItems_visit hvisit
  rw [hget, (q.rangeVar_of_mem hget hmem).1]

theorem not_covered_of_hidden {st : SchemaTracker} {q : Tree} {p : Path} {rv : RangeVar}
    (hfrom : InFromClause q p rv) (htable : st.exist rv.relname = true) (hp : Hidden p) :
    ¬ Covered st q := by
  rintro ⟨j, hacl, hall, -⟩
  have hsame := get?_acl_of_skips (skips_iff_hidden.mpr hp) (get?_of_inFromClause hfrom) hacl
  rw [hall p rv hfrom htable] at hsame
  exact absurd (Option.some.inj hsame) (by simp [injectedNode, joinExprNode, node])

theorem covered_iff (st : SchemaTracker) (q : Tree) :
    Covered st q ↔
      (∀ p rv, InFromClause q p rv → st.exist rv.relname = true → ¬ Hidden p) ∧
        ∀ p rv, Injects (some st) q p rv → PlainRangeVar rv := by
  constructor
  · intro h
    refine ⟨fun p rv hfrom htable hp => not_covered_of_hidden hfrom htable hp h, ?_⟩
    obtain ⟨j, hacl, -, hall⟩ := h
    intro p rv hinj
    exact (get?_acl_eq_injectedNode_iff hinj hacl).mp (hall p rv hinj)
  · rintro ⟨hfrom, hplain⟩
    obtain ⟨j, hacl⟩ := exists_acl_ok hplain
    have hall : ∀ p rv, Injects (some st) q p rv → j.get? p = some (injectedNode rv) :=
      fun p rv hinj => (get?_acl_eq_injectedNode_iff hinj hacl).mpr (hplain p rv hinj)
    refine ⟨j, hacl, fun p rv hp htable => hall p rv ⟨?_, htable⟩, hall⟩
    exact (reaches_of_inFromClause hp).resolve_left (hfrom p rv hp htable)

/-- The parse of `SELECT (SELECT v FROM x)`. -/
def scalarSubquery : Tree where
  json :=
    .obj [("stmts", .arr [.obj [("stmt", node "SelectStmt"
      [("limitOption", .str "LIMIT_OPTION_DEFAULT"), ("op", .str "SETOP_NONE"),
       ("targetList", .arr [node "ResTarget" [("location", .num "7"),
         ("val", node "SubLink" [("location", .num "7"), ("subLinkType", .str "EXPR_SUBLINK"),
           ("subselect", node "SelectStmt"
             [("fromClause", .arr [node "RangeVar" [("inh", .bool true), ("location", .num "22"),
                ("relname", .str "x"), ("relpersistence", .str "p")]]),
              ("limitOption", .str "LIMIT_OPTION_DEFAULT"), ("op", .str "SETOP_NONE"),
              ("targetList", .arr [node "ResTarget" [("location", .num "15"),
                ("val", node "ColumnRef" [("fields", .arr [stringNode "v"]),
                  ("location", .num "15")])]])])])]])])]]),
      ("version", .num "130003")]
  rangeVars := by decide +kernel

/-- The access to `x` in the target list is not checked. -/
theorem not_covered_scalarSubquery : ¬ Covered ⟨["x"]⟩ scalarSubquery := by
  have hfrom : InFromClause scalarSubquery
      [.member 0 "stmts", .elem 0, .member 0 "stmt", .member 0 "SelectStmt",
        .member 2 "targetList", .elem 0, .member 0 "ResTarget", .member 1 "val",
        .member 0 "SubLink", .member 2 "subselect", .member 0 "SelectStmt",
        .member 0 "fromClause", .elem 0]
      { alias_ := none, catalogname := none, inh := true, location := some "22",
        relname := "x", relpersistence := "p", schemaname := none } :=
    ⟨.fromItem, _, "RangeVar", by decide +kernel, rfl, List.mem_singleton.mpr rfl,
      by decide +kernel⟩
  exact not_covered_of_hidden hfrom (by decide +kernel)
    ⟨[.member 0 "stmts", .elem 0, .member 0 "stmt", .member 0 "SelectStmt"], 2, "targetList",
      _, rfl, by decide +kernel, by simp⟩

end PgFort.AclCoverage
