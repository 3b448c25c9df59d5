import Mathlib.Data.List.Count
import Mathlib.Data.List.Dedup
import PgFort.AccessTables

namespace PgFort.ReadableRows

open PgFort.JsonTree
open PgFort.JoinTemplate
open PgFort.Sql
open PgFort.Bindings
open PgFort.AccessTables

variable (db : Database) (t : db.Controlled) (aliasname : Option String) (user : String)

/-- What takes the place of a table in a query, with what it holds. -/
def replacement : Option Relation := do
  let item ← readJoinExpr (joinExprNode (aclDictionary t.name aliasname))
  item.eval db.catalogue user

/-- A binding of the row and the user names a role with a permission on the table for one
of the operations. -/
def Granted (operations : List String) (row : List Value) : Prop :=
  ∃ b ∈ db.bindingsOf t.name, t.table.value row "id" = .int b.id ∧ b.principal = user ∧
    ∃ r ∈ db.rolesDenorm, b.role = r.name ∧
      ∃ p ∈ db.permissions, r.permission = p.name ∧ p.relation = t.name ∧
        p.operation ∈ operations

/-- The ways in which the user is granted to SELECT the row: a binding, a permission of its
role and that permission. -/
def selectGrants (row : List Value) : List (Binding × RoleDenorm × Permission) :=
  (db.bindingsOf t.name).flatMap fun b =>
    db.rolesDenorm.flatMap fun r =>
      (db.permissions.filter fun p =>
        t.table.value row "id" = .int b.id ∧ b.principal = user ∧ b.role = r.name ∧
          r.permission = p.name ∧ p.relation = t.name ∧ p.operation = "SELECT").map
        fun p => (b, r, p)

/-- The same with a permission for all operations, too. -/
def readGrants (row : List Value) : List (Binding × RoleDenorm × Permission) :=
  (db.bindingsOf t.name).flatMap fun b =>
    db.rolesDenorm.flatMap fun r =>
      (db.permissions.filter fun p =>
        t.table.value row "id" = .int b.id ∧ b.principal = user ∧ b.role = r.name ∧
          r.permission = p.name ∧ p.relation = t.name ∧ p.operation ∈ ["SELECT", "ALL"]).map
        fun p => (b, r, p)

/-- The row of the access view that a grant is behind. -/
def grantRow (g : Binding × RoleDenorm × Permission) : List Value :=
  Acl.row ⟨g.1.id, g.1.role, g.1.principal, g.2.2.operation, g.2.2.columns⟩

section Join

variable {db t aliasname user}

theorem ne_append_acls (s : String) : s ≠ s ++ "__acls__" := by
  intro h
  have hlen := congrArg (fun s : String => s.toList.length) h
  simp only [String.toList_append, List.length_append] at hlen
  have : "__acls__".toList.length = 8 := by decide
  omega

theorem catalogue_name : db.catalogue t.name = some t.table := by
  rw [Database.catalogue, t.lookup]

theorem catalogue_acls :
    db.catalogue (t.name ++ "__acls__") = some (db.aclsTable t.name) := by
  obtain ⟨a, ha, hname⟩ := t.enabled
  have hfresh : db.tables.lookup (t.name ++ "__acls__") = none := by
    rw [← hname]
    exact db.freshView a ha
  rw [Database.catalogue, hfresh]
  cases hfind : db.bindings.find? fun a => a.1 ++ "__acls__" = t.name ++ "__acls__" with
  | none =>
      rw [List.find?_eq_none] at hfind
      exact absurd (by simp [hname]) (hfind a ha)
  | some b =>
      have hb := List.find?_some hfind
      simp only [decide_eq_true_eq] at hb
      have hb' : b.1 = t.name := by
        apply String.toList_injective
        have hlist := congrArg String.toList hb
        rw [String.toList_append, String.toList_append] at hlist
        exact List.append_cancel_right hlist
      rw [Option.map_some, hb']

theorem id_mem_columns : "id" ∈ t.table.columns := by
  obtain ⟨a, ha, hname⟩ := t.enabled
  obtain ⟨table, hlookup, hid⟩ := db.bindingsTable a ha
  rw [hname, t.lookup] at hlookup
  exact Option.some.inj hlookup ▸ hid

/-- The name that the table goes by in the query. -/
def refName (t : db.Controlled) (aliasname : Option String) : String :=
  aliasname.getD t.name

/-- The table itself, in the injected join. -/
def leftRelation (t : db.Controlled) (aliasname : Option String) : Relation :=
  t.table.named (refName t aliasname)

/-- The access view, in the injected join. -/
def rightRelation (t : db.Controlled) (aliasname : Option String) : Relation :=
  (db.aclsTable t.name).named (refName t aliasname ++ "__acls__")

theorem notMem_rightRelation (name : String) :
    (⟨refName t aliasname, name⟩ : Column) ∉ (rightRelation t aliasname).columns := by
  intro h
  exact ne_append_acls _ (mem_columns_named.mp h).1

theorem notMem_leftRelation (name : String) :
    (⟨refName t aliasname ++ "__acls__", name⟩ : Column) ∉
      (leftRelation t aliasname).columns := by
  intro h
  exact ne_append_acls _ (mem_columns_named.mp h).1.symm

theorem resolves_id :
    (Expr.column ⟨refName t aliasname, "id"⟩).resolves
      ((leftRelation t aliasname).columns ++ (rightRelation t aliasname).columns) = true := by
  rw [Expr.resolves, List.count_append, leftRelation, count_columns_named id_mem_columns,
    List.count_eq_zero_of_not_mem (notMem_rightRelation "id")]
  rfl

theorem resolves_acl {name : String} (hname : name ∈ Acl.columnNames) :
    (Expr.column ⟨refName t aliasname ++ "__acls__", name⟩).resolves
      ((leftRelation t aliasname).columns ++ (rightRelation t aliasname).columns) = true := by
  have hcount : (rightRelation t aliasname).columns.count
      ⟨refName t aliasname ++ "__acls__", name⟩ = 1 :=
    count_columns_named hname
  rw [Expr.resolves, List.count_append, hcount,
    List.count_eq_zero_of_not_mem (notMem_leftRelation name)]
  rfl

theorem resolves_joinCondition :
    (joinCondition (refName t aliasname) "SELECT").resolves
      ((leftRelation t aliasname).columns ++ (rightRelation t aliasname).columns) = true := by
  have hid : "_id" ∈ Acl.columnNames := by simp [Acl.columnNames]
  have hprincipal : "_principal" ∈ Acl.columnNames := by simp [Acl.columnNames]
  have hoperation : "_operation" ∈ Acl.columnNames := by simp [Acl.columnNames]
  simp only [joinCondition, Condition.resolves, Condition.resolvesAll, resolves_id,
    resolves_acl hid, resolves_acl hprincipal, resolves_acl hoperation]
  rfl

theorem replacement_eq :
    replacement db t aliasname user =
      some ((leftRelation t aliasname).join user (rightRelation t aliasname)
        (joinCondition (refName t aliasname) "SELECT")) := by
  have hleft : (FromItem.table t.name aliasname).eval db.catalogue user =
      some (leftRelation t aliasname) := by
    rw [FromItem.eval, catalogue_name]
    rfl
  have hright : (FromItem.table (t.name ++ "__acls__") (aliasname.map (· ++ "__acls__"))).eval
      db.catalogue user = some (rightRelation t aliasname) := by
    rw [FromItem.eval, catalogue_acls]
    cases aliasname <;> rfl
  have hitem : readJoinExpr (joinExprNode (aclDictionary t.name aliasname)) =
      some (.innerJoin (.table t.name aliasname)
        (.table (t.name ++ "__acls__") (aliasname.map (· ++ "__acls__")))
        (joinCondition (refName t aliasname) "SELECT")) :=
    readJoinExpr_joinExprNode _
  rw [replacement, hitem, Option.bind_eq_bind, Option.bind_some, FromItem.eval, hleft, hright]
  simp only [Option.bind_eq_bind, Option.bind_some, resolves_joinCondition, if_true]

theorem eval_id (row : List Value) (b : List Value)
    (hlen : row.length = (leftRelation t aliasname).columns.length) :
    (Expr.column ⟨refName t aliasname, "id"⟩).eval user
        ((leftRelation t aliasname).columns ++ (rightRelation t aliasname).columns) (row ++ b) =
      t.table.value row "id" := by
  rw [eval_column_left hlen (notMem_rightRelation "id")]
  exact eval_column_named user t.table _ row "id"

theorem eval_acl (row : List Value) (a : Acl) (name : String)
    (hlen : row.length = (leftRelation t aliasname).columns.length) :
    (Expr.column ⟨refName t aliasname ++ "__acls__", name⟩).eval user
        ((leftRelation t aliasname).columns ++ (rightRelation t aliasname).columns)
        (row ++ a.row) =
      (db.aclsTable t.name).value a.row name := by
  rw [eval_column_right hlen (notMem_leftRelation name)]
  exact eval_column_named user (db.aclsTable t.name) _ a.row name

theorem holds_joinCondition {row : List Value} (a : Acl)
    (hlen : row.length = (leftRelation t aliasname).columns.length) :
    (joinCondition (refName t aliasname) "SELECT").holds user
        ((leftRelation t aliasname).columns ++ (rightRelation t aliasname).columns)
        (row ++ a.row) = true ↔
      t.table.value row "id" = .int a.id ∧ a.principal = user ∧ a.operation = "SELECT" := by
  have hid : (db.aclsTable t.name).value a.row "_id" = .int a.id := rfl
  have hprincipal : (db.aclsTable t.name).value a.row "_principal" = .text a.principal := rfl
  have hoperation : (db.aclsTable t.name).value a.row "_operation" = .text a.operation := rfl
  have hconst : ∀ (v : Value) columns values,
      (Expr.const v).eval user columns values = v := fun _ _ _ => rfl
  have huser : ∀ columns values,
      Expr.currentUser.eval user columns values = .text user := fun _ _ => rfl
  rw [Condition.holds, beq_iff_eq, joinCondition, Condition.eval, evalAll_eq_true]
  simp only [List.forall_mem_cons, List.not_mem_nil, false_imp_iff, implies_true, and_true,
    Condition.eval, Value.equals_eq_true, eval_id row a.row hlen, eval_acl row a _ hlen, hid,
    hprincipal, hoperation, hconst, huser, Value.text.injEq, ne_eq, reduceCtorEq,
    not_false_eq_true, true_and]
  constructor
  · rintro ⟨⟨-, h⟩, h'⟩
    exact ⟨h, h'⟩
  · rintro ⟨h, h'⟩
    exact ⟨⟨by simp [h], h⟩, h'⟩

theorem filter_acls (row : List Value) :
    ((db.acls t.name).filter fun a =>
        t.table.value row "id" = .int a.id ∧ a.principal = user ∧ a.operation = "SELECT").map
        Acl.row =
      (selectGrants db t user row).map grantRow := by
  rw [Database.acls, selectGrants, List.filter_flatMap, List.map_flatMap, List.map_flatMap]
  refine List.flatMap_congr fun b _ => ?_
  rw [Database.accessRolesExpanded, List.filter_flatMap, List.map_flatMap, List.filter_flatMap,
    List.map_flatMap, List.map_flatMap]
  refine List.flatMap_congr fun r _ => ?_
  rw [List.filter_map, List.filter_filter, List.map_map, List.filter_map, List.filter_filter,
    List.map_map, List.map_map]
  refine congrArg (List.map _) (List.filter_congr fun p _ => ?_)
  rw [Bool.eq_iff_iff]
  simp only [Function.comp_apply, Bool.and_eq_true, decide_eq_true_eq]
  constructor
  · rintro ⟨⟨⟨hid, huser, hop⟩, hrel, hrole⟩, hperm⟩
    exact ⟨hid, huser, hrole, hperm, hrel, hop⟩
  · rintro ⟨hid, huser, hrole, hperm, hrel, hop⟩
    exact ⟨⟨⟨hid, huser, hop⟩, hrel, hrole⟩, hperm⟩

theorem rows_join :
    ((leftRelation t aliasname).join user (rightRelation t aliasname)
        (joinCondition (refName t aliasname) "SELECT")).rows =
      t.table.rows.flatMap fun row =>
        (selectGrants db t user row).map fun g => row ++ grantRow g := by
  refine List.flatMap_congr fun row hrow => ?_
  have hlen : row.length = (leftRelation t aliasname).columns.length :=
    (leftRelation t aliasname).width row hrow
  have hrows : (rightRelation t aliasname).rows = (db.acls t.name).map Acl.row := rfl
  have hmap : ((selectGrants db t user row).map fun g => row ++ grantRow g) =
      ((selectGrants db t user row).map grantRow).map (row ++ ·) := by
    rw [List.map_map]
    rfl
  rw [hmap, ← filter_acls, hrows, List.map_map, List.map_map, List.filter_map]
  refine congrArg (List.map _) (List.filter_congr fun a _ => ?_)
  rw [Bool.eq_iff_iff, decide_eq_true_eq]
  exact holds_joinCondition a hlen

theorem mem_selectGrants {row : List Value} {g : Binding × RoleDenorm × Permission} :
    g ∈ selectGrants db t user row ↔
      g.1 ∈ db.bindingsOf t.name ∧ g.2.1 ∈ db.rolesDenorm ∧ g.2.2 ∈ db.permissions ∧
        t.table.value row "id" = .int g.1.id ∧ g.1.principal = user ∧ g.1.role = g.2.1.name ∧
          g.2.1.permission = g.2.2.name ∧ g.2.2.relation = t.name ∧
            g.2.2.operation = "SELECT" := by
  obtain ⟨b, r, p⟩ := g
  simp only [selectGrants, List.mem_flatMap, List.mem_map, List.mem_filter, decide_eq_true_eq,
    Prod.mk.injEq]
  constructor
  · rintro ⟨b, hb, r, hr, p, ⟨hp, hcond⟩, rfl, rfl, rfl⟩
    exact ⟨hb, hr, hp, hcond⟩
  · rintro ⟨hb, hr, hp, hcond⟩
    exact ⟨b, hb, r, hr, p, ⟨hp, hcond⟩, rfl, rfl, rfl⟩

theorem granted_select_iff {row : List Value} :
    Granted db t user ["SELECT"] row ↔ selectGrants db t user row ≠ [] := by
  constructor
  · rintro ⟨b, hb, hid, huser, r, hr, hrole, p, hp, hperm, hrel, hop⟩
    apply List.ne_nil_of_mem (a := (b, r, p))
    exact mem_selectGrants.mpr
      ⟨hb, hr, hp, hid, huser, hrole, hperm, hrel, List.mem_singleton.mp hop⟩
  · intro h
    obtain ⟨g, hg⟩ := List.exists_mem_of_ne_nil _ h
    obtain ⟨hb, hr, hp, hid, huser, hrole, hperm, hrel, hop⟩ := mem_selectGrants.mp hg
    exact ⟨g.1, hb, hid, huser, g.2.1, hr, hrole, g.2.2, hp, hperm, hrel,
      List.mem_singleton.mpr hop⟩

theorem granted_either_iff {row : List Value} :
    Granted db t user ["SELECT", "ALL"] row ↔
      Granted db t user ["SELECT"] row ∨ Granted db t user ["ALL"] row := by
  constructor
  · rintro ⟨b, hb, hid, huser, r, hr, hrole, p, hp, hperm, hrel, hop⟩
    rcases List.mem_cons.mp hop with hop | hop
    · exact .inl ⟨b, hb, hid, huser, r, hr, hrole, p, hp, hperm, hrel, by simp [hop]⟩
    · exact .inr ⟨b, hb, hid, huser, r, hr, hrole, p, hp, hperm, hrel, hop⟩
  · rintro (⟨b, hb, hid, huser, r, hr, hrole, p, hp, hperm, hrel, hop⟩ |
      ⟨b, hb, hid, huser, r, hr, hrole, p, hp, hperm, hrel, hop⟩)
    · exact ⟨b, hb, hid, huser, r, hr, hrole, p, hp, hperm, hrel, List.mem_cons.mpr
        (.inl (List.mem_singleton.mp hop))⟩
    · exact ⟨b, hb, hid, huser, r, hr, hrole, p, hp, hperm, hrel, List.mem_cons_of_mem _ hop⟩

theorem readGrants_eq_selectGrants {row : List Value} (hall : ¬ Granted db t user ["ALL"] row) :
    readGrants db t user row = selectGrants db t user row := by
  refine List.flatMap_congr fun b hb => List.flatMap_congr fun r hr => ?_
  refine congrArg (List.map _) (List.filter_congr fun p hp => ?_)
  rw [decide_eq_decide]
  constructor
  · rintro ⟨hid, huser, hrole, hperm, hrel, hop⟩
    rcases List.mem_cons.mp hop with hop | hop
    · exact ⟨hid, huser, hrole, hperm, hrel, hop⟩
    · exact absurd ⟨b, hb, hid, huser, r, hr, hrole, p, hp, hperm, hrel, hop⟩ hall
  · rintro ⟨hid, huser, hrole, hperm, hrel, hop⟩
    exact ⟨hid, huser, hrole, hperm, hrel, by simp [hop]⟩

theorem exists_mem_rows_join_iff {row : List Value} (hrow : row ∈ t.table.rows) :
    (∃ acl, row ++ acl ∈ ((leftRelation t aliasname).join user (rightRelation t aliasname)
        (joinCondition (refName t aliasname) "SELECT")).rows) ↔
      Granted db t user ["SELECT"] row := by
  rw [rows_join, granted_select_iff]
  constructor
  · rintro ⟨acl, h⟩
    obtain ⟨row', hrow', h⟩ := List.mem_flatMap.mp h
    obtain ⟨g, hg, heq⟩ := List.mem_map.mp h
    have hlen : row'.length = row.length := by
      rw [t.table.width row hrow, t.table.width row' hrow']
    obtain ⟨rfl, -⟩ := List.append_inj heq hlen
    exact List.ne_nil_of_mem hg
  · intro h
    obtain ⟨g, hg⟩ := List.exists_mem_of_ne_nil _ h
    exact ⟨grantRow g, List.mem_flatMap.mpr ⟨row, hrow, List.mem_map.mpr ⟨g, hg, rfl⟩⟩⟩

end Join

/-- A row of the table is in the relation that replaces it when the user is granted to read
it by a permission for SELECT or for ALL, and only then. -/
def AccessExact : Prop :=
  ∃ rel, replacement db t aliasname user = some rel ∧
    ∀ row ∈ t.table.rows,
      (∃ acl, row ++ acl ∈ rel.rows) ↔ Granted db t user ["SELECT", "ALL"] row

theorem accessExact_iff :
    AccessExact db t aliasname user ↔
      ∀ row ∈ t.table.rows, Granted db t user ["ALL"] row → Granted db t user ["SELECT"] row := by
  rw [AccessExact, replacement_eq]
  simp only [Option.some.injEq, exists_eq_left']
  refine forall_congr' fun row => forall_congr' fun hrow => ?_
  rw [exists_mem_rows_join_iff hrow, granted_either_iff]
  constructor
  · intro h hall
    exact h.mpr (.inr hall)
  · intro h
    exact ⟨.inl, fun hor => hor.elim id h⟩

/-- The permission and the role of the demo that are for all operations. -/
def adminDatabase : Database where
  permissions := [⟨"doc_all", "documents", "ALL", none⟩]
  rolesDenorm := [⟨"admin", "doc_all"⟩]
  tables := [("documents", ⟨["id", "name"], [[.int 1, .text "plan"]], by decide, by decide⟩)]
  bindings := [("documents", ⟨[⟨1, "admin", "sam", 1, 0, 0⟩], by decide⟩)]
  permissionNames := by decide
  permissionOperations := by decide +kernel
  rolesDenormKey := by decide
  bindingsTable := by
    intro a ha
    obtain rfl := List.mem_singleton.mp ha
    exact ⟨_, rfl, by decide⟩
  freshView := by decide +kernel

def adminDocuments : adminDatabase.Controlled where
  name := "documents"
  table := ⟨["id", "name"], [[.int 1, .text "plan"]], by decide, by decide⟩
  lookup := by rfl
  enabled := ⟨_, List.mem_singleton.mpr rfl, rfl⟩

/-- The administrator sees nothing. -/
theorem not_accessExact_admin : ¬ AccessExact adminDatabase adminDocuments none "sam" := by
  rintro ⟨rel, hrel, hall⟩
  rw [replacement_eq] at hrel
  obtain rfl := Option.some.inj hrel
  have hrow : [.int 1, .text "plan"] ∈ adminDocuments.table.rows := List.mem_singleton.mpr rfl
  have hgranted : Granted adminDatabase adminDocuments "sam" ["SELECT", "ALL"]
      [.int 1, .text "plan"] :=
    ⟨⟨1, "admin", "sam", 1, 0, 0⟩, List.mem_singleton.mpr rfl, rfl, rfl,
      ⟨"admin", "doc_all"⟩, List.mem_singleton.mpr rfl, rfl,
      ⟨"doc_all", "documents", "ALL", none⟩, List.mem_singleton.mpr rfl, rfl, rfl, by simp⟩
  have hnone : selectGrants adminDatabase adminDocuments "sam" [.int 1, .text "plan"] = [] := by
    decide +kernel
  have hselect := (exists_mem_rows_join_iff hrow).mp ((hall _ hrow).mpr hgranted)
  exact granted_select_iff.mp hselect hnone

/-- The relation has the columns of the table and each row that the user may read once. -/
def RowFilter : Prop :=
  ∃ rel, replacement db t aliasname user = some rel ∧
    rel.columns = t.table.columns.map (fun name => ⟨refName t aliasname, name⟩) ∧
    (∀ row ∈ t.table.rows, Granted db t user ["SELECT", "ALL"] row → rel.rows.count row = 1) ∧
    ∀ row ∈ rel.rows, row ∈ t.table.rows ∧ Granted db t user ["SELECT", "ALL"] row

/-- The rows of the table in the rows of the join. -/
def tableParts (rel : Relation) : List (List Value) :=
  rel.rows.map (List.take t.table.columns.length)

/-- How often the joined relation has a row of the table with the values of a grant. -/
theorem count_rows_join {row : List Value} (hrow : row ∈ t.table.rows) (acl : List Value) :
    ((leftRelation t aliasname).join user (rightRelation t aliasname)
        (joinCondition (refName t aliasname) "SELECT")).rows.count (row ++ acl) =
      t.table.rows.count row * ((selectGrants db t user row).map grantRow).count acl := by
  have hwidth : ∀ r ∈ t.table.rows, r.length = row.length := fun r hr => by
    rw [t.table.width r hr, t.table.width row hrow]
  rw [rows_join]
  generalize t.table.rows = rows at hwidth ⊢
  induction rows with
  | nil => simp
  | cons r rs ih =>
      rw [List.flatMap_cons, List.count_append, ih fun r hr => hwidth r (List.mem_cons_of_mem _ hr),
        List.count_cons]
      by_cases hr : r = row
      · have hmap : ((selectGrants db t user r).map fun g => r ++ grantRow g) =
            ((selectGrants db t user r).map grantRow).map (r ++ ·) := by
          rw [List.map_map]
          rfl
        rw [hmap, hr, List.count_map_of_injective _ _ (List.append_right_injective row)]
        simp [Nat.add_mul, Nat.add_comm]
      · have hnone : ((selectGrants db t user r).map fun g => r ++ grantRow g).count
            (row ++ acl) = 0 := by
          rw [List.count_eq_zero]
          intro hmem
          obtain ⟨g, -, heq⟩ := List.mem_map.mp hmem
          exact hr (List.append_inj heq (hwidth r List.mem_cons_self)).1
        simp [hnone, hr]

theorem count_tableParts_join {row : List Value} :
    (tableParts db t ((leftRelation t aliasname).join user (rightRelation t aliasname)
        (joinCondition (refName t aliasname) "SELECT"))).count row =
      t.table.rows.count row * (selectGrants db t user row).length := by
  have hparts : tableParts db t ((leftRelation t aliasname).join user (rightRelation t aliasname)
      (joinCondition (refName t aliasname) "SELECT")) =
      t.table.rows.flatMap fun r => List.replicate (selectGrants db t user r).length r := by
    rw [tableParts, rows_join, List.map_flatMap]
    refine List.flatMap_congr fun r hr => ?_
    rw [List.map_map, ← t.table.width r hr]
    simp [Function.comp_def]
  rw [hparts]
  induction t.table.rows with
  | nil => simp
  | cons r rs ih =>
      rw [List.flatMap_cons, List.count_append, ih, List.count_cons, List.count_replicate]
      by_cases hr : r = row
      · simp [hr, Nat.add_mul, Nat.add_comm]
      · simp [hr]

theorem mem_tableParts_join {row : List Value} :
    row ∈ tableParts db t ((leftRelation t aliasname).join user (rightRelation t aliasname)
        (joinCondition (refName t aliasname) "SELECT")) ↔
      row ∈ t.table.rows ∧ Granted db t user ["SELECT"] row := by
  rw [← List.count_pos_iff, count_tableParts_join, granted_select_iff, ← List.length_pos_iff,
    ← List.count_pos_iff (l := t.table.rows)]
  constructor
  · intro h
    exact ⟨Nat.pos_of_mul_pos_right h, Nat.pos_of_mul_pos_left h⟩
  · rintro ⟨hcount, hgrants⟩
    exact Nat.mul_pos hcount hgrants

/-- Two roles with one permission, both bound to one principal. -/
def twoRolesDatabase : Database where
  permissions := [⟨"doc_view", "documents", "SELECT", none⟩]
  rolesDenorm := [⟨"viewer", "doc_view"⟩, ⟨"editor", "doc_view"⟩]
  tables := [("documents", ⟨["id", "name"], [[.int 1, .text "plan"]], by decide, by decide⟩)]
  bindings := [("documents",
    ⟨[⟨1, "viewer", "tom", 1, 0, 0⟩, ⟨1, "editor", "tom", 2, 0, 0⟩], by decide⟩)]
  permissionNames := by decide
  permissionOperations := by decide +kernel
  rolesDenormKey := by decide
  bindingsTable := by
    intro a ha
    obtain rfl := List.mem_singleton.mp ha
    exact ⟨_, rfl, by decide⟩
  freshView := by decide +kernel

def twoRolesDocuments : twoRolesDatabase.Controlled where
  name := "documents"
  table := ⟨["id", "name"], [[.int 1, .text "plan"]], by decide, by decide⟩
  lookup := by rfl
  enabled := ⟨_, List.mem_singleton.mpr rfl, rfl⟩

end PgFort.ReadableRows
