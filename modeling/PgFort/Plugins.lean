import PgFort.Conn
import PgFort.JsonAccess
import PgFort.QueryAcler
import PgFort.Stateful

namespace PgFort.Plugins

open PgFort.Framing
open PgFort.JsonTree
open PgFort.JsonAccess
open PgFort.Conn
open PgFort.Schema
open PgFort.Stateful

/-- What leaves a function in place of its value. -/
inductive Fault where
  /-- A C++ exception. -/
  | thrown (what : Bytes)
  /-- A failed assertion or a null dereference, which end the proxy. -/
  | aborted
  /-- The code reads outside of a buffer, overflows an `int` or loops without end. -/
  | astray
  deriving DecidableEq, Repr

structure PgQueryError where
  message : Bytes
  funcname : Bytes
  filename : Bytes
  lineno : Int
  cursorpos : Int
  deriving DecidableEq, Repr

/-- What the proxy calls: libpg_query, the JSON and protobuf libraries, and the translation of
proxy commands. -/
structure Externals where
  /-- `ProxyCommand::Translate`. -/
  translate : Bytes → Except Fault (Bytes × Conn.Error)
  /-- `pg_query_parse`, with its tree as `json::parse` reads it. -/
  pgQueryParse : Bytes → Except Fault (Except PgQueryError Json)
  /-- The text that `Query::ToString` gets for a tree. -/
  deparse : Json → Except Fault Bytes
  /-- PostgreSQL's string buffers end at one gigabyte. -/
  length_deparse : ∀ j text, deparse j = .ok text → text.length < 1073741824
  /-- The texts of the exceptions of the JSON library. -/
  what : Json.Error → Bytes
  /-- `__FILE__` of the plug-ins. -/
  file : Bytes

structure Query where
  valid : Bool
  json : Json
  deriving DecidableEq

namespace Query

def new : Query := ⟨false, .null⟩

def decimal (n : Int) : Bytes := utf8 (toString n)

/-- `Query::Parse`. -/
def parse (lib : Externals) (rawQuery : Bytes) : Except Fault (Query × Conn.Error) := do
  match ← lib.pgQueryParse rawQuery with
  | .error e =>
      return (new,
        ⟨[("S", utf8 "ERROR"), ("M", e.message), ("R", e.funcname), ("F", e.filename),
          ("L", decimal e.lineno), ("P", decimal e.cursorpos)]⟩)
  | .ok json => return (⟨true, json⟩, .noError)

/-- `Query::ToString`. -/
def toText (lib : Externals) (json : Json) : Except Fault Bytes :=
  (lib.deparse json).map cString

end Query

inductive Peer where
  | client
  | server
  deriving DecidableEq, Repr

inductive SessionState where
  | initiate
  | prepareToReceiveRequest
  | receiveRequest
  | applyPreRequestPlugins
  | prepareToForwardRequest
  | forwardRequest
  | prepareToReceiveResponse
  | receiveResponse
  | applyPostResponsePlugins
  | prepareToForwardResponse
  | forwardResponse
  | resetContext
  deriving DecidableEq, Repr

inductive EpollEvents where
  | epollIn
  | epollOut
  deriving DecidableEq, Repr

structure Context where
  ev : Option (Peer × EpollEvents)
  initiated : Bool
  waiting : Bool
  request : Buffer
  response : Buffer
  query : Query
  errno : Int

/-- A context of which nothing has been used yet. -/
def Context.new (initiated : Bool) : Context where
  ev := none
  initiated
  waiting := false
  request := .new
  response := .new
  query := .new
  errno := 0

/-- A session. The tracker is the one that all sessions share; no current state stands for the
null pointer of a terminated session. -/
structure Session where
  parameters : Bytes → Option Bytes
  st : SchemaTracker
  context : Context
  current : Option SessionState

/-- `operator[]` of `parameters_` makes a missing parameter empty. -/
def Session.parameter (s : Session) (name : String) : Bytes :=
  (s.parameters (utf8 name)).getD []

def Session.setParameter (s : Session) (name value : Bytes) : Session :=
  { s with parameters := Function.update s.parameters name (some value) }

inductive ExecResult where
  | done
  | sqlError
  | fault (f : Fault)
  deriving DecidableEq, Repr

/-- What the world around answers to one action: the results of `recv` and `send`, and those of
the pool's connection. -/
structure Io where
  chunks : List Bytes
  stop : RecvEnd
  sent : Int
  errno : Int
  /-- The value in the one row of a query. -/
  exec1 : Bytes → Except Fault Bytes
  /-- The outcome of a text in a transaction that is then aborted. -/
  exec : Bytes → ExecResult

/-- What a plug-in or an action does to the session; it may leave by an exception. -/
abbrev Action := Stateful.Action Session Fault

open Stateful.Action

def setRequest (b : Buffer) : Action Unit :=
  modify fun s => { s with context.request := b }

def setResponse (b : Buffer) : Action Unit :=
  modify fun s => { s with context.response := b }

/-- Work on the parse tree of the session's query. -/
def onQuery {α : Type} (lib : Externals) (x : Access α) : Action α := fun s =>
  match x s.context.query.json with
  | .ok (a, json) => (.ok a, { s with context.query.json := json })
  | .error e => (.error (.thrown (lib.what e)), s)

/-- `context_.request_.SetQuery(context_.query_.ToString())`. -/
def requestQuery (lib : Externals) : Action Unit := do
  let s ← state
  let qstr ← ofExcept (Query.toText lib s.context.query.json)
  setRequest (setQuery qstr)

section Rules

variable {α : Type} {lib : Externals} {E : Fault → Session → Prop}

theorem wp_onQuery {x : Access α} {Q : α → Session → Prop} :
    wp (onQuery lib x) Q E = fun s =>
      (∀ a json, x s.context.query.json = .ok (a, json) →
        Q a { s with context.query.json := json }) ∧
      ∀ e, x s.context.query.json = .error e → E (.thrown (lib.what e)) s := by
  funext s
  rw [wp, onQuery]
  cases x s.context.query.json with
  | ok r =>
      obtain ⟨a, json⟩ := r
      simp
  | error e => simp

theorem wp_setRequest {b : Buffer} {Q : Unit → Session → Prop} :
    wp (setRequest b) Q E = fun s => Q () { s with context.request := b } := rfl

theorem wp_setResponse {b : Buffer} {Q : Unit → Session → Prop} :
    wp (setResponse b) Q E = fun s => Q () { s with context.response := b } := rfl

theorem wp_requestQuery {Q : Unit → Session → Prop} :
    wp (requestQuery lib) Q E = fun s =>
      (∀ text, Query.toText lib s.context.query.json = .ok text →
        Q () { s with context.request := setQuery text }) ∧
      ∀ f, Query.toText lib s.context.query.json = .error f → E f s := by
  rw [requestQuery]
  simp only [wp_bind, wp_state, wp_ofExcept, wp_setRequest]

end Rules

section PreRequest

variable (lib : Externals) (io : Io)

/-- `TranslateProxyCommandPlugIn`. -/
def translateProxyCommandPlugIn : Action Conn.Error := do
  let s ← state
  if s.context.request.byteAt 0 ≠ 81 then
    return .noError
  else
    let (translated, err) ← ofExcept (lib.translate (s.context.request.textAt 5))
    if err.isError then
      return err
    else
      setRequest (setQuery translated)
      return .noError

/-- A text that is refused leaves the session without a query. -/
def parseQueryPlugIn : Action Conn.Error := do
  let s ← state
  if s.context.request.byteAt 0 ≠ 81 then
    return .noError
  else
    let (query, _) ← ofExcept (Query.parse lib (s.context.request.textAt 5))
    modify fun s => { s with context.query := query }
    return .noError

/-- `QueryAcler::Acl`, whose exceptions are those of the JSON library. -/
def acl (st : SchemaTracker) (json : Json) : Except Fault Json :=
  match QueryAcler.acl (some st) json with
  | .ok json => .ok json
  | .error e => .error (.thrown (lib.what e))

/-- `AclQueryPlugIn`. -/
def aclQueryPlugIn : Action Conn.Error := do
  let s ← state
  if s.parameter "rolsuper" = utf8 "t" then
    return .noError
  else if !s.context.query.valid then
    return .noError
  else
    let json ← ofExcept (acl lib s.st s.context.query.json)
    modify fun s => { s with context.query.json := json }
    requestQuery lib
    return .noError

/-- Add the bindings table of a dropped table, if the tracker has that table. -/
def bindingsTableName (st : SchemaTracker) (tableNames : List String) : Access (List String) := do
  let tn ← atKey "List" (atKey "items" (atIndex 0 (atKey "String" (atKey "str" getString))))
  if st.exist tn then
    return tableNames ++ [tn ++ "__access_bindings__"]
  else
    return tableNames

/-- The object that is added to those of a DROP. -/
def dropObject (tn : String) : Json :=
  .obj [("List", .obj [("items", .arr [.obj [("String", .obj [("str", .str tn)])]])])]

/-- The query to be tested drops the bindings tables too. -/
def testQuery (tableNames : List String) (json : Json) : Except Fault Json :=
  match findNode "objects" json with
  | none => .error .aborted
  | some objs =>
      match atPath objs (tableNames.forM fun tn => pushBack (dropObject tn)) json with
      | .ok (_, json) => .ok json
      | .error e => .error (.thrown (lib.what e))

/-- `DropTablePlugIn`. -/
def dropTablePlugIn : Action Conn.Error := do
  let s ← state
  if !s.context.query.valid then
    return .noError
  else
    match findNode "DropStmt" s.context.query.json with
    | none => return .noError
    | some n =>
        let removeType ← onQuery lib (atPath n (atKey "removeType" value))
        if removeType ≠ .str "OBJECT_TABLE" then
          return .noError
        else
          let tableNames ← onQuery lib (atPath n (atKey "objects" (forItems (bindingsTableName s.st) [])))
          if tableNames.isEmpty then
            return .noError
          else
            let s ← state
            let testQ ← ofExcept (testQuery lib tableNames s.context.query.json)
            let testQstr ← ofExcept (Query.toText lib testQ)
            match io.exec testQstr with
            | .sqlError => return .noError
            | .fault f => ofExcept (.error f)
            | .done =>
                onQuery lib (atPath n (atKey "behavior" (assign (.str "DROP_CASCADE"))))
                requestQuery lib
                return .noError

/-- What the inspection of a new table has found out about its column `id`. -/
structure IdCheck where
  haveId : Bool
  notNull : Bool
  isUnique : Bool
  primary : Bool
  deriving DecidableEq, Repr

/-- A constraint of a column `id`. -/
def inspectConstraint (c : IdCheck) : Access IdCheck := do
  let contype ← atKey "Constraint" (atKey "contype" value)
  return { c with
    notNull := c.notNull || contype = .str "CONSTR_NOTNULL"
    isUnique := c.isUnique || contype = .str "CONSTR_UNIQUE"
    primary := c.primary || contype = .str "CONSTR_PRIMARY" }

/-- An element of a table that is a column. -/
def inspectColumnDef (c : IdCheck) : Access IdCheck := do
  if ← atKey "ColumnDef" (atKey "colname" (equals "id")) then
    atKey "ColumnDef" (atKey "constraints" (forItems inspectConstraint { c with haveId := true }))
  else
    return c

/-- An element of a table that is a constraint. -/
def inspectTableConstraint (c : IdCheck) : Access IdCheck := do
  if ← atKey "Constraint" (atKey "contype" (equals "CONSTR_PRIMARY")) then
    let keys ← atKey "Constraint" (atKey "keys" value)
    if size keys = 1 then
      -- the keys are a copy
      let (isId, _) ← liftM (atIndex 0 (atKey "String" (atKey "str" (equals "id"))) keys)
      return { c with primary := c.primary || isId }
    else
      return c
  else
    return c

/-- The body of the loop over the elements of a table, which looks for a column and for a
constraint. -/
def inspectElt (c : IdCheck) : Access IdCheck := do
  let c ← inspectColumnDef c
  inspectTableConstraint c

/-- An error of the plug-in that checks new tables; its line is where it is made. -/
def invalidTable (msg line : String) : Conn.Error :=
  ⟨[("S", utf8 "ERROR"), ("C", utf8 "42P16"), ("M", utf8 msg), ("F", lib.file), ("L", utf8 line),
    ("R", utf8 "EnsureNewTableHasIdPlugIn")]⟩

def createdName : Access String :=
  atKey "relation" (atKey "relname" getString)

/-- `EnsureNewTableHasIdPlugIn`. -/
def ensureNewTableHasIdPlugIn : Action Conn.Error := do
  let s ← state
  if !s.context.query.valid then
    return .noError
  else
    match findNode "CreateStmt" s.context.query.json with
    | none => return .noError
    | some n =>
        let tableName ← onQuery lib (atPath n createdName)
        if endsWith tableName "__access_bindings__" then
          return .noError
        else
          let c ← onQuery lib
            (atPath n (atKey "tableElts" (forItems inspectElt ⟨false, false, false, false⟩)))
          if !c.haveId then
            return invalidTable lib "column \"id\" missing" "272"
          else if !c.primary && !(c.notNull && c.isUnique) then
            return invalidTable lib "column \"id\" is neither PRIMARY nor NOT NULL UNIQUE" "286"
          else
            return .noError

/-- `RestrictInternalTableAccessPlugIn`, which lets everything pass. -/
def restrictInternalTableAccessPlugIn : Action Conn.Error :=
  return .noError

/-- The plug-ins of `ApplyPreRequestPlugins`, in their order. -/
def preRequestPlugins : List (Action Conn.Error) :=
  [translateProxyCommandPlugIn lib, parseQueryPlugIn lib, aclQueryPlugIn lib,
    dropTablePlugIn lib io, ensureNewTableHasIdPlugIn lib, restrictInternalTableAccessPlugIn]

end PreRequest

/-- The query for the rights of a role. -/
def rolsuperQuery (user : Bytes) : Bytes :=
  utf8 "SELECT rolsuper FROM pg_roles WHERE rolname = '" ++ user ++ utf8 "'"

section PostResponse

variable (lib : Externals) (io : Io)

/-- The role that a SET ROLE names. -/
def roleArgument : Access String :=
  atKey "args" (atIndex 0 (atKey "A_Const" (atKey "val" (atKey "String" (atKey "str" getString)))))

/-- `UpdateParametersPlugIn`. -/
def updateParametersPlugIn : Action Conn.Error := do
  let s ← state
  if !s.context.query.valid then
    return .noError
  else
    match findNode "VariableSetStmt" s.context.query.json with
    | none => return .noError
    | some n =>
        let name ← onQuery lib (atPath n (atKey "name" value))
        if name ≠ .str "role" then
          return .noError
        else if s.context.response.byteAt 0 ≠ 67 then
          return .noError
        else
          let user ← onQuery lib (atPath n roleArgument)
          modify fun s => s.setParameter (utf8 "user") (utf8 user)
          let rolsuper ← ofExcept (io.exec1 (rolsuperQuery (utf8 user)))
          modify fun s => s.setParameter (utf8 "rolsuper") (cString rolsuper)
          return .noError

/-- The flag `if_not_exists` is read, and not used. -/
def readIfNotExists : Access Unit := do
  if (← value).contains "if_not_exists" then
    let _ ← atKey "if_not_exists" getBool

/-- `UpdateSchemaPlugIn`. -/
def updateSchemaPlugIn : Action Conn.Error := do
  let s ← state
  if !s.context.query.valid then
    return .noError
  else if s.context.response.byteAt 0 ≠ 67 then
    return .noError
  else
    match findNode "CreateStmt" s.context.query.json with
    | none => return .noError
    | some n =>
        let tableName ← onQuery lib (atPath n createdName)
        onQuery lib (atPath n readIfNotExists)
        modify fun s => { s with st := s.st.addRelName tableName }
        return .noError

/-- The plug-ins of `ApplyPostResponsePlugins`, in their order. -/
def postResponsePlugins : List (Action Conn.Error) :=
  [updateParametersPlugIn lib io, updateSchemaPlugIn lib]

end PostResponse

end PgFort.Plugins
