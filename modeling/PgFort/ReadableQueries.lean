import PgFort.ReadableRows
import PgFort.RepeatedRows
import PgFort.SelectTrees

namespace PgFort.ReadableQueries

open PgFort.JsonTree
open PgFort.Replacement (dropNumbers)
open PgFort.JsonText (Plain)
open PgFort.JoinTemplate
open PgFort.ParseTree (node stringNode)
open PgFort.Sql
open PgFort.Bindings
open PgFort.Schema
open PgFort.QueryAcler
open PgFort.AccessTables
open PgFort.ReadableRows
open PgFort.SelectQueries
open PgFort.RewrittenSelects
open PgFort.RepeatedRows
open PgFort.SelectTrees

/-- The table of this name, if it is under control. -/
def controlled? (db : Database) (name : String) : Option db.Controlled :=
  if h : (db.tables.lookup name).isSome = true ∧ ∃ a ∈ db.bindings, a.1 = name then
    some ⟨name, (db.tables.lookup name).get h.1, (Option.some_get h.1).symm, h.2⟩
  else none

theorem name_of_controlled? {db : Database} {name : String} {t : db.Controlled}
    (h : controlled? db name = some t) : t.name = name := by
  rw [controlled?] at h
  split at h
  · rw [← Option.some.inj h]
  · exact absurd h (by simp)

/-- The rows of the table that the user is granted to read, each as often as in some way. -/
def timesTable (db : Database) (user : String) (t : db.Controlled) : Table where
  columns := t.table.columns
  rows := t.table.rows.flatMap fun row =>
    List.replicate (selectGrants db t user row).length row
  nodup := t.table.nodup
  width := by
    intro row hrow
    obtain ⟨row', hrow', hrow⟩ := List.mem_flatMap.mp hrow
    rw [List.eq_of_mem_replicate hrow]
    exact t.table.width row' hrow'

/-- The rows of the table that the user is granted to read. -/
def onceTable (db : Database) (user : String) (t : db.Controlled) : Table where
  columns := t.table.columns
  rows := t.table.rows.filter fun row => selectGrants db t user row ≠ []
  nodup := t.table.nodup
  width row hrow := t.table.width row (List.mem_of_mem_filter hrow)

/-- The catalogue with other tables for the controlled ones. -/
def cutDown (st : Option SchemaTracker) (db : Database) (f : db.Controlled → Table)
    (relname : String) : Option Table :=
  if isTable st relname then (controlled? db relname).map f else db.catalogue relname

/-- The tables of a statement that the tracker knows are under control. -/
def Enabled (st : Option SchemaTracker) (db : Database) (q : SelectStmt) : Prop :=
  ∀ x ∈ q.rangeVars, isTable st x.1 = true → (controlled? db x.1).isSome = true

section Tables

variable {db : Database} {user : String} {st : Option SchemaTracker}

theorem grants_acls (t : db.Controlled) (row : List Value) (a : Acl) :
    grants user t.table (db.aclsTable t.name) row a.row = true ↔
      t.table.value row "id" = .int a.id ∧ a.principal = user ∧ a.operation = "SELECT" := by
  have hid : (db.aclsTable t.name).value a.row "_id" = .int a.id := rfl
  have hprincipal : (db.aclsTable t.name).value a.row "_principal" = .text a.principal := rfl
  have hoperation : (db.aclsTable t.name).value a.row "_operation" = .text a.operation := rfl
  rw [grants, hid, hprincipal, hoperation]
  simp only [Bool.and_eq_true, beq_iff_eq, Value.equals_eq_true, Value.text.injEq, ne_eq,
    reduceCtorEq, not_false_eq_true, true_and]
  constructor
  · rintro ⟨⟨-, hvalue⟩, huser, hselect⟩
    exact ⟨hvalue, huser, hselect⟩
  · rintro ⟨hvalue, huser, hselect⟩
    exact ⟨⟨by simp [hvalue], hvalue⟩, huser, hselect⟩

theorem length_filter_grants (t : db.Controlled) (row : List Value) :
    ((db.aclsTable t.name).rows.filter (grants user t.table (db.aclsTable t.name) row)).length =
      (selectGrants db t user row).length := by
  have hways := congrArg List.length (@filter_acls db t user row)
  rw [List.length_map, List.length_map] at hways
  rw [← hways]
  show (((db.acls t.name).map Acl.row).filter _).length = _
  rw [List.filter_map, List.length_map]
  congr 1
  refine List.filter_congr fun a _ => ?_
  rw [Bool.eq_iff_iff, decide_eq_true_eq]
  exact grants_acls t row a

/-- What the access view of a table allows is what the user is granted. -/
theorem readableTable_acls (t : db.Controlled) :
    readableTable user t.table (db.aclsTable t.name) = timesTable db user t := by
  have hrows : (readableTable user t.table (db.aclsTable t.name)).rows =
      (timesTable db user t).rows := by
    refine List.flatMap_congr fun row _ => ?_
    rw [List.map_const', length_filter_grants]
  rw [readableTable, timesTable, Table.mk.injEq]
  exact ⟨rfl, hrows⟩

theorem readable_eq_cutDown {relname : String}
    (h : isTable st relname = true → (controlled? db relname).isSome = true) :
    readable st db.catalogue user relname = cutDown st db (timesTable db user) relname := by
  rw [readable, cutDown]
  by_cases htable : isTable st relname = true
  · rw [if_pos htable, if_pos htable]
    obtain ⟨t, ht⟩ := Option.isSome_iff_exists.mp (h htable)
    obtain rfl := name_of_controlled? ht
    rw [ht, catalogue_name, catalogue_acls, Option.map_some, ← readableTable_acls]
    refine if_pos ⟨id_mem_columns, ?_⟩
    show "_id" ∈ Acl.columnNames ∧ "_principal" ∈ Acl.columnNames ∧ "_operation" ∈ Acl.columnNames
    simp [Acl.columnNames]
  · rw [if_neg htable, if_neg htable]

theorem sameTable_times_once (t : db.Controlled) :
    SameTable (timesTable db user t) (onceTable db user t) := by
  refine ⟨rfl, fun row => ?_⟩
  show row ∈ t.table.rows.flatMap _ ↔ row ∈ t.table.rows.filter _
  rw [List.mem_flatMap, List.mem_filter, decide_eq_true_eq]
  constructor
  · rintro ⟨row', hrow', hrow⟩
    obtain rfl := List.eq_of_mem_replicate hrow
    exact ⟨hrow', fun hnil => by rw [hnil] at hrow; exact absurd hrow List.not_mem_nil⟩
  · rintro ⟨hrow, hgrants⟩
    exact ⟨row, hrow, List.mem_replicate.mpr ⟨fun hlen => hgrants (List.length_eq_zero_iff.mp hlen), rfl⟩⟩

theorem rel_cutDown (relname : String) :
    Option.Rel SameTable (cutDown st db (timesTable db user) relname)
      (cutDown st db (onceTable db user) relname) := by
  rw [cutDown, cutDown]
  split
  · cases controlled? db relname with
    | none => exact .none
    | some t => exact .some (sameTable_times_once t)
  · cases db.catalogue relname with
    | none => exact .none
    | some t => exact .some ⟨rfl, fun _ => Iff.rfl⟩

theorem aclSelect_eval_cutDown {q : SelectStmt} (hapart : Apart (SelectStmt.names q))
    (henabled : Enabled st db q) :
    (aclSelect st q).eval db.catalogue user =
      q.eval (cutDown st db (timesTable db user)) user := by
  rw [aclSelect_eval q hapart]
  exact q.eval_congr fun x hx => readable_eq_cutDown (henabled x hx)

end Tables

/-- The rewriting makes of the tree of the statements the tree of rewritten ones, and each of
these is the statement on the rows that the user is granted to read: with every row as often as
it is granted, and for statements that do not count rows, once. -/
def ReadsGranted (st : Option SchemaTracker) (db : Database) (user version : String)
    (stmts : List RawStmt) (j : Json) : Prop :=
  ∃ j', acl st j = .ok j' ∧
    dropNumbers "location" j' = parseTree version (stmts.map (RawStmt.acl st)) ∧
    ∀ r ∈ stmts,
      (r.acl st).stmt.eval db.catalogue user =
        r.stmt.eval (cutDown st db (timesTable db user)) user ∧
      (SelectStmt.countsNothing r.stmt = true →
        Option.Rel SameAnswer ((r.acl st).stmt.eval db.catalogue user)
          (r.stmt.eval (cutDown st db (onceTable db user)) user))

theorem readsGranted_acl {st : Option SchemaTracker} {db : Database} {user version : String}
    {stmts : List RawStmt} {j : Json} (hj : dropNumbers "location" j = parseTree version stmts)
    (hplain : ∀ r ∈ stmts, ∀ x ∈ r.stmt.rangeVars, isTable st x.1 = true → PlainNames x.1 x.2)
    (hapart : ∀ r ∈ stmts, Apart (SelectStmt.names r.stmt))
    (henabled : ∀ r ∈ stmts, Enabled st db r.stmt) :
    ReadsGranted st db user version stmts j := by
  obtain ⟨j', hacl, htree⟩ := acl_parseTree hj hplain
  refine ⟨j', hacl, htree, fun r hr => ?_⟩
  have htimes : (aclSelect st r.stmt).eval db.catalogue user =
      r.stmt.eval (cutDown st db (timesTable db user)) user :=
    aclSelect_eval_cutDown (hapart r hr) (henabled r hr)
  refine ⟨htimes, fun hcounts => ?_⟩
  rw [RawStmt.acl, htimes]
  exact rel_select_eval r.stmt hcounts fun x _ => rel_cutDown x.1

/-- `SELECT documents.name FROM documents`. -/
def documentNames : RawStmt where
  stmt := .select [⟨none, .column ⟨"documents", "name"⟩⟩] [.rangeVar "documents" none] none
  stmtLen := none
  stmtLocation := none

/-- The parse of that text. -/
def documentNamesTree : Json :=
  .obj [("stmts", .arr [.obj [("stmt", node "SelectStmt"
    [("fromClause", .arr [node "RangeVar" [("inh", .bool true), ("location", .num "27"),
        ("relname", .str "documents"), ("relpersistence", .str "p")]]),
     ("limitOption", .str "LIMIT_OPTION_DEFAULT"), ("op", .str "SETOP_NONE"),
     ("targetList", .arr [node "ResTarget" [("location", .num "7"), ("val", node "ColumnRef"
       [("fields", .arr [stringNode "documents", stringNode "name"]),
        ("location", .num "7")])]])])]]),
    ("version", .num "130003")]

theorem plainNames_documentNames :
    ∀ x ∈ documentNames.stmt.rangeVars, PlainNames x.1 x.2 := by
  have hplain : Plain "documents".toList := by decide +kernel
  intro x hx
  obtain rfl := List.mem_singleton.mp hx
  exact ⟨hplain, fun a ha => absurd ha (by simp)⟩

theorem enabled_documentNames :
    Enabled (some ⟨["documents"]⟩) twoRolesDatabase documentNames.stmt := by
  intro x hx _
  obtain rfl := List.mem_singleton.mp hx
  rfl

/-- The user gets the name of the document twice, as it is granted by two roles. -/
theorem readsGranted_documentNames :
    ReadsGranted (some ⟨["documents"]⟩) twoRolesDatabase "tom" "130003" [documentNames]
      documentNamesTree :=
  readsGranted_acl rfl
    (List.forall_mem_singleton.mpr fun x hx _ => plainNames_documentNames x hx)
    (List.forall_mem_singleton.mpr (by decide +kernel))
    (List.forall_mem_singleton.mpr enabled_documentNames)

section Others

variable {db db' : Database} {user : String}

/-- A controlled table in two databases, in which the user has the same bindings and is granted
to read the same rows. -/
structure Alike (user : String) (t : db.Controlled) (t' : db'.Controlled) : Prop where
  name : t.name = t'.name
  columns : t.table.columns = t'.table.columns
  bindings : ((db.bindingsOf t.name).filter fun b => b.principal = user) =
    (db'.bindingsOf t'.name).filter fun b => b.principal = user
  rows : (onceTable db user t).rows = (onceTable db' user t').rows

theorem flatMap_filter_of {α β : Type} {p : α → Bool} {f : α → List β} {xs : List α}
    (h : ∀ x ∈ xs, p x = false → f x = []) : (xs.filter p).flatMap f = xs.flatMap f := by
  induction xs with
  | nil => rfl
  | cons x xs ih =>
      have hrest := ih fun y hy => h y (List.mem_cons_of_mem _ hy)
      cases hp : p x with
      | true => rw [List.filter_cons_of_pos hp, List.flatMap_cons, List.flatMap_cons, hrest]
      | false =>
          rw [List.filter_cons_of_neg (by simp [hp]), List.flatMap_cons,
            h x List.mem_cons_self hp, List.nil_append, hrest]

theorem selectGrants_own (t : db.Controlled) (row : List Value) :
    selectGrants db t user row =
      ((db.bindingsOf t.name).filter fun b => b.principal = user).flatMap fun b =>
        db.rolesDenorm.flatMap fun r =>
          (db.permissions.filter fun p =>
            t.table.value row "id" = .int b.id ∧ b.principal = user ∧ b.role = r.name ∧
              r.permission = p.name ∧ p.relation = t.name ∧ p.operation = "SELECT").map
            fun p => (b, r, p) := by
  rw [selectGrants, flatMap_filter_of]
  intro b _ hb
  have hother : b.principal ≠ user := of_decide_eq_false hb
  refine List.flatMap_eq_nil_iff.mpr fun r _ => ?_
  rw [List.map_eq_nil_iff, List.filter_eq_nil_iff]
  intro p _
  simp [hother]

theorem Alike.selectGrants {t : db.Controlled} {t' : db'.Controlled} (h : Alike user t t')
    (hroles : db.rolesDenorm = db'.rolesDenorm) (hpermissions : db.permissions = db'.permissions)
    (row : List Value) :
    ReadableRows.selectGrants db t user row = ReadableRows.selectGrants db' t' user row := by
  have hvalue : t.table.value row "id" = t'.table.value row "id" := by
    rw [Table.value, Table.value, h.columns]
  rw [selectGrants_own, selectGrants_own, h.bindings, hroles, hpermissions, hvalue, h.name]

theorem timesTable_eq_of_once (t : db.Controlled) :
    (timesTable db user t).rows = (onceTable db user t).rows.flatMap fun row =>
      List.replicate (selectGrants db t user row).length row := by
  refine (flatMap_filter_of fun row _ hnone => ?_).symm
  have hnil : selectGrants db t user row = [] := not_not.mp (of_decide_eq_false hnone)
  rw [hnil]
  rfl

theorem Alike.timesTable {t : db.Controlled} {t' : db'.Controlled} (h : Alike user t t')
    (hroles : db.rolesDenorm = db'.rolesDenorm) (hpermissions : db.permissions = db'.permissions) :
    ReadableQueries.timesTable db user t = ReadableQueries.timesTable db' user t' := by
  have hrows : (ReadableQueries.timesTable db user t).rows =
      (ReadableQueries.timesTable db' user t').rows := by
    rw [timesTable_eq_of_once, timesTable_eq_of_once, h.rows]
    exact List.flatMap_congr fun row _ => by rw [h.selectGrants hroles hpermissions]
  rw [ReadableQueries.timesTable, ReadableQueries.timesTable, Table.mk.injEq]
  exact ⟨h.columns, hrows⟩

/-- To the user the table is the same in both databases. -/
def LooksAlike (st : Option SchemaTracker) (db db' : Database) (user relname : String) : Prop :=
  if isTable st relname then
    Option.Rel (Alike user) (controlled? db relname) (controlled? db' relname)
  else db.catalogue relname = db'.catalogue relname

theorem cutDown_eq_of_looksAlike {st : Option SchemaTracker} {relname : String}
    (h : LooksAlike st db db' user relname) (hroles : db.rolesDenorm = db'.rolesDenorm)
    (hpermissions : db.permissions = db'.permissions) :
    cutDown st db (timesTable db user) relname = cutDown st db' (timesTable db' user) relname := by
  rw [LooksAlike] at h
  rw [cutDown, cutDown]
  split
  · rename_i htable
    rw [if_pos htable] at h
    generalize controlled? db relname = o, controlled? db' relname = o' at h
    cases h with
    | none => rfl
    | some h => exact congrArg some (h.timesTable hroles hpermissions)
  · rename_i htable
    rw [if_neg htable] at h
    exact h

end Others

/-- What a user gets from rewritten statements does not depend on rows that the user is not
granted to read, nor on what others are granted. -/
def Confidential (st : Option SchemaTracker) (user version : String) (stmts : List RawStmt)
    (j : Json) : Prop :=
  ∃ j', acl st j = .ok j' ∧
    dropNumbers "location" j' = parseTree version (stmts.map (RawStmt.acl st)) ∧
    ∀ r ∈ stmts, ∀ db db' : Database, Enabled st db r.stmt → Enabled st db' r.stmt →
      db.rolesDenorm = db'.rolesDenorm → db.permissions = db'.permissions →
      (∀ x ∈ r.stmt.rangeVars, LooksAlike st db db' user x.1) →
        (r.acl st).stmt.eval db.catalogue user = (r.acl st).stmt.eval db'.catalogue user

theorem confidential_acl {st : Option SchemaTracker} {user version : String}
    {stmts : List RawStmt} {j : Json} (hj : dropNumbers "location" j = parseTree version stmts)
    (hplain : ∀ r ∈ stmts, ∀ x ∈ r.stmt.rangeVars, isTable st x.1 = true → PlainNames x.1 x.2)
    (hapart : ∀ r ∈ stmts, Apart (SelectStmt.names r.stmt)) :
    Confidential st user version stmts j := by
  obtain ⟨j', hacl, htree⟩ := acl_parseTree hj hplain
  refine ⟨j', hacl, htree, ?_⟩
  intro r hr db db' henabled henabled' hroles hpermissions halike
  rw [RawStmt.acl, aclSelect_eval_cutDown (hapart r hr) henabled,
    aclSelect_eval_cutDown (hapart r hr) henabled']
  exact r.stmt.eval_congr fun x hx => cutDown_eq_of_looksAlike (halike x hx) hroles hpermissions

theorem confidential_documentNames :
    Confidential (some ⟨["documents"]⟩) "tom" "130003" [documentNames] documentNamesTree :=
  confidential_acl rfl
    (List.forall_mem_singleton.mpr fun x hx _ => plainNames_documentNames x hx)
    (List.forall_mem_singleton.mpr (by decide +kernel))

end PgFort.ReadableQueries
