import PgFort.ParseTree
import PgFort.Plugins
import PgFort.Transactions

namespace PgFort.DryRun

open PgFort.Framing
open PgFort.JsonTree
open PgFort.JsonTree.Json
open PgFort.JsonAccess
open PgFort.Conn
open PgFort.Schema
open PgFort.Stateful
open PgFort.Plugins
open PgFort.Transactions

def field (key : String) : Json → Option Json
  | .obj ms => ms.lookup key
  | _ => none

def elements : Json → List Json
  | .arr xs => xs
  | _ => []

def textField (key : String) (j : Json) : String :=
  match field key j with
  | some (.str s) => s
  | _ => ""

/-- A `TransactionStmt` as a step of transaction control. -/
def readControl (stmt : Json) : Control :=
  let chain := field "chain" stmt = some (.bool true)
  match textField "kind" stmt with
  | "TRANS_STMT_BEGIN" | "TRANS_STMT_START" => .begin
  | "TRANS_STMT_COMMIT" => .commit chain
  | "TRANS_STMT_ROLLBACK" => .rollback chain
  | "TRANS_STMT_SAVEPOINT" => .savepoint (textField "savepoint_name" stmt)
  | "TRANS_STMT_RELEASE" => .release (textField "savepoint_name" stmt)
  | "TRANS_STMT_ROLLBACK_TO" => .rollbackTo (textField "savepoint_name" stmt)
  | "TRANS_STMT_PREPARE" => .prepare (textField "gid" stmt)
  | _ => .finishPrepared

/-- The statement is about the transaction, or is plain work. -/
def readStatement (stmt : Json) : Statement Json :=
  match field "TransactionStmt" stmt with
  | some t => .control (readControl t)
  | none => .plain stmt

def statements (tree : Json) : List Json :=
  (((field "stmts" tree).map elements).getD []).filterMap (field "stmt")

/-- What the plug-in has executed on the pool's connection, and the position of the `DropStmt`
in the query's tree as it stands then. -/
structure Test where
  n : Path
  json : Json
  testQ : Json
  testQstr : Bytes
  deriving DecidableEq

/-- What `DropTablePlugIn` tests for the query of a session. -/
def tested (lib : Externals) (s : Session) : Option Test :=
  if !s.context.query.valid then none
  else
    match findNode "DropStmt" s.context.query.json with
    | none => none
    | some n =>
        match atPath n (atKey "removeType" value) s.context.query.json with
        | .error _ => none
        | .ok (removeType, json) =>
            if removeType ≠ .str "OBJECT_TABLE" then none
            else
              match atPath n (atKey "objects" (forItems (bindingsTableName s.st) [])) json with
              | .error _ => none
              | .ok (tableNames, json) =>
                  if tableNames.isEmpty then none
                  else
                    match testQuery lib tableNames json with
                    | .error _ => none
                    | .ok testQ =>
                        match Query.toText lib testQ with
                        | .error _ => none
                        | .ok testQstr => some ⟨n, json, testQ, testQstr⟩

/-- The rest of `DropTablePlugIn` when the server has answered the test. -/
def afterTest (lib : Externals) (n : Path) : ExecResult → Plugins.Action Conn.Error
  | .sqlError => return .noError
  | .fault f => Action.ofExcept (.error f)
  | .done => do
      onQuery lib (atPath n (atKey "behavior" (assign (.str "DROP_CASCADE"))))
      requestQuery lib
      return .noError

theorem onQuery_of_ok {α : Type} {lib : Externals} {x : Access α} {s : Session} {a : α}
    {json : Json} (h : x s.context.query.json = .ok (a, json)) :
    onQuery lib x s = (.ok a, { s with context.query.json := json }) := by
  rw [onQuery, h]

theorem onQuery_of_error {α : Type} {lib : Externals} {x : Access α} {s : Session} {e : Json.Error}
    (h : x s.context.query.json = .error e) :
    onQuery lib x s = (.error (.thrown (lib.what e)), s) := by
  rw [onQuery, h]

theorem dropTablePlugIn_cases (lib : Externals) (s : Session) :
    (∃ t, tested lib s = some t ∧ ∀ io, dropTablePlugIn lib io s =
        afterTest lib t.n (io.exec t.testQstr) { s with context.query.json := t.json }) ∨
      tested lib s = none ∧ ∃ r, ∀ io, dropTablePlugIn lib io s = r := by
  fun_cases tested lib s with
  | case1 hvalid =>
      refine .inr ⟨rfl, (.ok .noError, s), fun io => ?_⟩
      rw [dropTablePlugIn, Action.state_bind, if_pos hvalid]
      rfl
  | case2 hvalid hn =>
      refine .inr ⟨rfl, (.ok .noError, s), fun io => ?_⟩
      rw [dropTablePlugIn, Action.state_bind, if_neg hvalid]
      simp only [hn]
      rfl
  | case3 hvalid n hn e hremove =>
      refine .inr ⟨rfl, (.error (.thrown (lib.what e)), s), fun io => ?_⟩
      rw [dropTablePlugIn, Action.state_bind, if_neg hvalid]
      simp only [hn]
      rw [Action.bind_of_error (onQuery_of_error hremove)]
  | case4 hvalid n hn removeType json hremove htable =>
      refine .inr ⟨rfl, (.ok .noError, { s with context.query.json := json }), fun io => ?_⟩
      rw [dropTablePlugIn, Action.state_bind, if_neg hvalid]
      simp only [hn]
      rw [Action.bind_of_ok (onQuery_of_ok hremove), if_pos htable]
      rfl
  | case5 hvalid n hn removeType json hremove htable e hobjects =>
      refine .inr ⟨rfl, (.error (.thrown (lib.what e)), { s with context.query.json := json }),
        fun io => ?_⟩
      rw [dropTablePlugIn, Action.state_bind, if_neg hvalid]
      simp only [hn]
      rw [Action.bind_of_ok (onQuery_of_ok hremove), if_neg htable,
        Action.bind_of_error (onQuery_of_error hobjects)]
  | case6 hvalid n hn removeType json hremove htable tableNames json' hobjects hnames =>
      refine .inr ⟨rfl, (.ok .noError, { s with context.query.json := json' }), fun io => ?_⟩
      rw [dropTablePlugIn, Action.state_bind, if_neg hvalid]
      simp only [hn]
      rw [Action.bind_of_ok (onQuery_of_ok hremove), if_neg htable,
        Action.bind_of_ok (onQuery_of_ok hobjects), if_pos hnames]
      rfl
  | case7 hvalid n hn removeType json hremove htable tableNames json' hobjects hnames f htest =>
      refine .inr ⟨rfl, (.error f, { s with context.query.json := json' }), fun io => ?_⟩
      rw [dropTablePlugIn, Action.state_bind, if_neg hvalid]
      simp only [hn]
      rw [Action.bind_of_ok (onQuery_of_ok hremove), if_neg htable,
        Action.bind_of_ok (onQuery_of_ok hobjects), if_neg hnames, Action.state_bind,
        Action.ofExcept_bind_error htest]
  | case8 hvalid n hn removeType json hremove htable tableNames json' hobjects hnames testQ htest
      f htext =>
      refine .inr ⟨rfl, (.error f, { s with context.query.json := json' }), fun io => ?_⟩
      rw [dropTablePlugIn, Action.state_bind, if_neg hvalid]
      simp only [hn]
      rw [Action.bind_of_ok (onQuery_of_ok hremove), if_neg htable,
        Action.bind_of_ok (onQuery_of_ok hobjects), if_neg hnames, Action.state_bind,
        Action.ofExcept_bind_ok htest, Action.ofExcept_bind_error htext]
  | case9 hvalid n hn removeType json hremove htable tableNames json' hobjects hnames testQ htest
      testQstr htext =>
      refine .inl ⟨_, rfl, fun io => ?_⟩
      rw [dropTablePlugIn, Action.state_bind, if_neg hvalid]
      simp only [hn]
      rw [Action.bind_of_ok (onQuery_of_ok hremove), if_neg htable,
        Action.bind_of_ok (onQuery_of_ok hobjects), if_neg hnames, Action.state_bind,
        Action.ofExcept_bind_ok htest, Action.ofExcept_bind_ok htext]
      cases io.exec testQstr <;> rfl

/-- A database as the statements of a text change it: what each statement does to the data,
unless it fails, and whether transactions can be prepared. -/
structure World (D : Type) where
  effect : Json → D → Option D
  prepares : Bool

/-- The database after the plug-in: `w.exec` runs the text in the open transaction, and
`w.abort` undoes what is not committed. -/
def afterPlugIn {D : Type} (lib : Externals) (s : Session) (w : World D) (d : D)
    (prepared : List (String × D)) : D × List (String × D) :=
  match tested lib s with
  | none => (d, prepared)
  | some t => dryRun w.effect w.prepares d prepared ((statements t.testQ).map readStatement)

/-- The plug-in leaves every database as it was. -/
def NoLastingEffect (lib : Externals) (s : Session) : Prop :=
  ∀ (D : Type) (w : World D) (d : D) (prepared : List (String × D)),
    afterPlugIn lib s w d prepared = (d, prepared)

theorem noLastingEffect_iff (lib : Externals) (s : Session) :
    NoLastingEffect lib s ↔
      ∀ t, tested lib s = some t → CommitsNothing ((statements t.testQ).map readStatement) := by
  simp only [NoLastingEffect, afterPlugIn]
  cases tested lib s with
  | none => simp
  | some t =>
      simp only [Option.some.injEq, forall_eq']
      rw [← dryRun_eq_iff]
      constructor
      · intro h D effect prepares d prepared
        exact h D ⟨effect, prepares⟩ d prepared
      · intro h D w d prepared
        exact h D w.effect w.prepares d prepared

structure DropStatement where
  names : List (List String)
  missingOk : Bool
  restrict : Bool
  deriving DecidableEq, Repr

def nameNode (parts : List String) : Json :=
  ParseTree.node "List" [("items", .arr (parts.map ParseTree.stringNode))]

/-- `DROP TABLE` as libpg_query writes it: a `missing_ok` that is false is left out. -/
def dropStmt (d : DropStatement) : Json :=
  ParseTree.node "DropStmt"
    (("behavior", .str (if d.restrict then "DROP_RESTRICT" else "DROP_CASCADE")) ::
      ((if d.missingOk then [("missing_ok", .bool true)] else []) ++
        [("objects", .arr (d.names.map nameNode)), ("removeType", .str "OBJECT_TABLE")]))

def dropTable (d : DropStatement) : Json :=
  .obj [("stmt", dropStmt d)]

/-- The parts of a name, as the server reads them. -/
def readName (obj : Json) : List String :=
  (((field "List" obj).bind (field "items")).map elements).getD [] |>.map fun item =>
    ((field "String" item).map (textField "str")).getD ""

/-- A `DropStmt` as the server reads it. -/
def readDrop (j : Json) : DropStatement where
  names := (((field "objects" j).map elements).getD []).map readName
  missingOk := field "missing_ok" j = some (.bool true)
  restrict := textField "behavior" j = "DROP_RESTRICT"

/-- A DROP TABLE as the deparser writes it. -/
def dropText (d : DropStatement) : Bytes :=
  utf8 "DROP TABLE " ++ (if d.missingOk then utf8 "IF EXISTS " else []) ++
    (utf8 ", ").intercalate (d.names.map fun parts => (utf8 ".").intercalate (parts.map utf8)) ++
    if d.restrict then [] else utf8 " CASCADE"

def tree (stmts : List Json) : Json :=
  .obj [("stmts", .arr stmts), ("version", .num "130003")]

/-- The parse of `INSERT INTO log VALUES (1)`, at the start of a text. -/
def insertStmt : Json :=
  ParseTree.node "InsertStmt"
    [("override", .str "OVERRIDING_NOT_SET"),
      ("relation", .obj
        [("inh", .bool true), ("location", .num "12"), ("relname", .str "log"),
          ("relpersistence", .str "p")]),
      ("selectStmt", ParseTree.node "SelectStmt"
        [("limitOption", .str "LIMIT_OPTION_DEFAULT"), ("op", .str "SETOP_NONE"),
          ("valuesLists", .arr [ParseTree.node "List" [("items", .arr
            [ParseTree.node "A_Const" [("location", .num "24"),
              ("val", ParseTree.node "Integer" [("ival", .num "1")])]])]])])]

def commitStmt : Json :=
  ParseTree.node "TransactionStmt" [("kind", .str "TRANS_STMT_COMMIT")]

def statementText (stmt : Json) : Option Bytes :=
  match field "DropStmt" stmt with
  | some drop => some (dropText (readDrop drop))
  | none =>
      if stmt = insertStmt then some (utf8 "INSERT INTO log VALUES (1)")
      else if stmt = commitStmt then some (utf8 "COMMIT")
      else none

/-- The text of a tree, if all its statements have one and it is no longer than a text may be. -/
def treeText (json : Json) : Except Fault Bytes :=
  match (statements json).mapM statementText with
  | some texts =>
      if ((utf8 "; ").intercalate texts).length < 1073741824 then
        .ok ((utf8 "; ").intercalate texts)
      else .error .aborted
  | none => .error .aborted

theorem length_treeText (json : Json) (text : Bytes) (h : treeText json = .ok text) :
    text.length < 1073741824 := by
  rw [treeText] at h
  split at h
  · split at h
    · rename_i hlength
      rw [← Except.ok.inj h]
      exact hlength
    · simp at h
  · simp at h

def dropDocuments : DropStatement := ⟨[["documents"]], false, true⟩

/-- The parse of `INSERT INTO log VALUES (1); COMMIT; DROP TABLE documents`. -/
def insertCommitDrop : Json :=
  tree [.obj [("stmt", insertStmt), ("stmt_len", .num "26")],
    .obj [("stmt", commitStmt), ("stmt_len", .num "7"), ("stmt_location", .num "27")],
    .obj [("stmt", dropStmt dropDocuments), ("stmt_location", .num "35")]]

/-- Libraries that know two texts, and write what they know. -/
def textExternals : Externals where
  translate text := .ok (text, .noError)
  pgQueryParse text :=
    if text = dropText dropDocuments then .ok (.ok (tree [dropTable dropDocuments]))
    else if treeText insertCommitDrop = .ok text then .ok (.ok insertCommitDrop)
    else .ok (.error ⟨utf8 "syntax error", utf8 "scanner_yyerror", utf8 "scan.l", 1188, 1⟩)
  deparse := treeText
  length_deparse := length_treeText
  what _ := []
  file := []

/-- The client sends `INSERT INTO log VALUES (1); COMMIT; DROP TABLE documents`. -/
def committingSession : Session where
  parameters _ := none
  st := ⟨["documents"]⟩
  context := { Context.new true with query := ⟨true, insertCommitDrop⟩ }
  current := some .applyPreRequestPlugins

/-- The number of rows in `log`. The view of the access control keeps the bindings table, so that
`DROP TABLE` is refused. -/
def loggedWorld : World Nat where
  effect stmt rows := if stmt = insertStmt then some (rows + 1) else none
  prepares := false

/-- The client's row is in `log` before the client's query is forwarded. -/
theorem not_noLastingEffect_commit : ¬ NoLastingEffect textExternals committingSession := by
  intro h
  have hrow : (afterPlugIn textExternals committingSession loggedWorld 0 []).1 = 1 := by
    decide +kernel
  rw [h] at hrow
  simp at hrow

end PgFort.DryRun
