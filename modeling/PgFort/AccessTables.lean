import PgFort.Sql
import PgFort.Bindings
import PgFort.JoinTemplate

namespace PgFort.AccessTables

open PgFort.JsonTree
open PgFort.JoinTemplate
open PgFort.ParseTree
open PgFort.Sql
open PgFort.KeyedRows
open PgFort.Bindings

/-- A row of `__access_permissions__`. Tables are known by their names. -/
structure Permission where
  name : String
  relation : String
  operation : String
  columns : Option (List String)
  deriving DecidableEq, Repr

/-- A row of `__access_roles_denorm__`. -/
structure RoleDenorm where
  name : String
  permission : String
  deriving DecidableEq, Repr

/-- The operations that `__access_permissions__` allows. -/
def operations : List String :=
  ["SELECT", "INSERT", "UPDATE", "DELETE", "ALL"]

/-- The content of a database, with the constraints of the schema that the results
need. The tables with access control are those that have a bindings table. -/
structure Database where
  permissions : List Permission
  rolesDenorm : List RoleDenorm
  tables : List (String × Table)
  bindings : List (String × BindingTable)
  permissionNames : (permissions.map Permission.name).Nodup
  permissionOperations : ∀ p ∈ permissions, p.operation ∈ operations
  rolesDenormKey : rolesDenorm.Nodup
  bindingsTable : ∀ a ∈ bindings, ∃ t, tables.lookup a.1 = some t ∧ "id" ∈ t.columns
  freshView : ∀ a ∈ bindings, tables.lookup (a.1 ++ "__acls__") = none

/-- A row of `__access_roles_expanded__`. -/
structure RoleExpanded where
  name : String
  relation : String
  operation : String
  columns : Option (List String)
  deriving DecidableEq, Repr

/-- A row of the view `__acls__` of a table. -/
structure Acl where
  id : Int
  role : String
  principal : String
  operation : String
  columns : Option (List String)
  deriving DecidableEq, Repr

/-- The columns that a `__acls__` view adds to a table in the injected join. -/
def Acl.columnNames : List String :=
  ["_id", "_role", "_principal", "_operation", "_columns"]

def Acl.row (a : Acl) : List Value :=
  [.int a.id, .text a.role, .text a.principal, .text a.operation,
   (a.columns.map Value.texts).getD .null]

namespace Database

variable (db : Database)

/-- `__access_roles_expanded__`: the roles joined with their permissions. -/
def accessRolesExpanded : List RoleExpanded :=
  db.rolesDenorm.flatMap fun r =>
    (db.permissions.filter fun p => r.permission = p.name).map fun p =>
      ⟨r.name, p.relation, p.operation, p.columns⟩

/-- The rows of the bindings table of a table. -/
def bindingsOf (t : String) : List Binding :=
  ((db.bindings.lookup t).map KeyedTable.rows).getD []

/-- The view that `ENABLE ACCESS CONTROL` creates for a table. -/
def acls (t : String) : List Acl :=
  (db.bindingsOf t).flatMap fun b =>
    (db.accessRolesExpanded.filter fun r => r.relation = t ∧ b.role = r.name).map fun r =>
      ⟨b.id, b.role, b.principal, r.operation, r.columns⟩

/-- The view `$1__acls__` of a table. -/
def aclsTable (t : String) : Table where
  columns := Acl.columnNames
  rows := (db.acls t).map Acl.row
  nodup := by decide +kernel
  width := by
    intro row hrow
    obtain ⟨a, -, rfl⟩ := List.mem_map.mp hrow
    rfl

/-- What a relation name stands for: a table, or the view of a controlled table. -/
def catalogue (name : String) : Option Table :=
  match db.tables.lookup name with
  | some t => some t
  | none =>
      (db.bindings.find? fun a => a.1 ++ "__acls__" = name).map fun a => db.aclsTable a.1

/-- A table with access control enabled. -/
structure Controlled where
  name : String
  table : Table
  lookup : db.tables.lookup name = some table
  enabled : ∃ a ∈ db.bindings, a.1 = name

end Database

/-- Read an expression of the kinds the template uses. -/
def readExpr : Json → Option Expr
  | .obj [("ColumnRef", .obj [("fields", .arr
      [.obj [("String", .obj [("str", .str relation)])],
       .obj [("String", .obj [("str", .str name)])]])])] => some (.column ⟨relation, name⟩)
  | .obj [("SQLValueFunction", .obj (("op", .str "SVFOP_CURRENT_USER") :: _))] =>
      some .currentUser
  | .obj [("A_Const", .obj [("val", .obj [("String", .obj [("str", .str s)])])])] =>
      some (.const (.text s))
  | _ => none

/-- An `=` as the template writes it. -/
def readEquals : Json → Option Condition
  | .obj [("A_Expr", .obj [("kind", .str "AEXPR_OP"), ("lexpr", lexpr),
      ("name", .arr [.obj [("String", .obj [("str", .str "=")])]]), ("rexpr", rexpr)])] => do
      return .equals (← readExpr lexpr) (← readExpr rexpr)
  | _ => none

/-- The condition of a join as the template writes it. -/
def readQuals : Json → Option Condition
  | .obj [("BoolExpr", .obj [("args", .arr args), ("boolop", .str "AND_EXPR")])] =>
      (args.mapM readEquals).map .and
  | _ => none

/-- A `RangeVar` as a FROM item. -/
def readRangeVar : Json → Option FromItem
  | .obj [("RangeVar", v)] =>
      (RangeVar.ofJson? v).map fun rv => .table rv.relname rv.aliasname
  | _ => none

/-- Read a join of two tables. -/
def readJoinExpr : Json → Option FromItem
  | .obj [("JoinExpr", .obj [("jointype", .str "JOIN_INNER"), ("larg", larg),
      ("quals", quals), ("rarg", rarg)])] => do
      return .innerJoin (← readRangeVar larg) (← readRangeVar rarg) (← readQuals quals)
  | _ => none

/-- The condition of `join_expr.tpl`. -/
def joinCondition (ref operation : String) : Condition :=
  .and [.equals (.column ⟨ref, "id"⟩) (.column ⟨ref ++ "__acls__", "_id"⟩),
    .equals (.column ⟨ref ++ "__acls__", "_principal"⟩) .currentUser,
    .equals (.column ⟨ref ++ "__acls__", "_operation"⟩) (.const (.text operation))]

theorem readRangeVar_rangeVarNode (relname : String) (aliasname : Option String) :
    readRangeVar (rangeVarNode relname aliasname) = some (.table relname aliasname) := by
  let rv : RangeVar := ⟨aliasname.map fun a => ⟨a, []⟩, none, true, none, relname, "p", none⟩
  have hnode : rangeVarNode relname aliasname = .obj [("RangeVar", rv.toJson)] := by
    cases aliasname <;> rfl
  rw [hnode, readRangeVar, RangeVar.ofJson?_toJson]
  cases aliasname <;> rfl

theorem readJoinExpr_joinExprNode (d : TemplateDictionary) :
    readJoinExpr (joinExprNode d) =
      some (.innerJoin (.table d.tableName d.tableAlias)
        (.table (d.tableName ++ "__acls__") (d.tableAlias.map (· ++ "__acls__")))
        (joinCondition d.tableRef d.operation)) := by
  have hquals : readQuals (qualsNode d.tableRef d.operation) =
      some (joinCondition d.tableRef d.operation) := rfl
  simp only [joinExprNode, node, readJoinExpr, readRangeVar_rangeVarNode, hquals]
  rfl

end PgFort.AccessTables
