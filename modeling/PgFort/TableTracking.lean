import Mathlib.Data.List.Induction
import PgFort.Frames

namespace PgFort.TableTracking

open PgFort.Framing
open PgFort.JsonTree
open PgFort.JsonTree.Json
open PgFort.JsonAccess
open PgFort.KeyedTraversal
open PgFort.Conn
open PgFort.Schema
open PgFort.Stateful.Action
open PgFort.Plugins
open PgFort.StateMachine
open PgFort.Frames

/-- The first `CreateStmt` of the session's query names the table, and the response begins
with the end of a command. -/
def Names (s : Session) (name : String) : Prop :=
  s.context.query.valid = true ∧ s.context.response.byteAt 0 = 67 ∧
    ∃ n json json', findNode "CreateStmt" s.context.query.json = some n ∧
      atPath n createdName s.context.query.json = .ok (name, json) ∧
      atPath n readIfNotExists json = .ok ((), json')

/-- The session is about to apply the plug-ins to a response; the first of them throws no
exception, and leaves the name of a table to the second. -/
def Announces (lib : Externals) (io : Io) (s : Session) (name : String) : Prop :=
  s.current = some .applyPostResponsePlugins ∧
    ∃ err s', updateParametersPlugIn lib io s = (.ok err, s') ∧ Names s' name

/-- Names that the tracker has no use for. -/
def Reserved (name : String) : Prop :=
  name ∈ excluded ∨ isDerived name = true

section Step

variable {lib : Externals} {io : Io} {s s' : Session} {name : String}

theorem names_iff {n : Path} (hvalid : s.context.query.valid = true)
    (hbyte : s.context.response.byteAt 0 = 67)
    (hfind : findNode "CreateStmt" s.context.query.json = some n) :
    Names s name ↔ ∃ json json', atPath n createdName s.context.query.json = .ok (name, json) ∧
      atPath n readIfNotExists json = .ok ((), json') := by
  constructor
  · rintro ⟨-, -, n', json, json', hn', hname, hflag⟩
    obtain rfl := Option.some.inj (hfind.symm.trans hn')
    exact ⟨json, json', hname, hflag⟩
  · rintro ⟨json, json', hname, hflag⟩
    exact ⟨hvalid, hbyte, n, json, json', hfind, hname, hflag⟩

theorem exist_updateSchemaPlugIn :
    wp (updateSchemaPlugIn lib)
      (fun _ s' => ∀ name, s'.st.exist name = true ↔
        s.st.exist name = true ∨ Names s name ∧ ¬ Reserved name)
      (fun _ s' => ∀ name, s'.st.exist name = true ↔
        s.st.exist name = true ∨ Names s name ∧ ¬ Reserved name) s := by
  have hnone : (∀ name, ¬ Names s name) → ∀ name, s.st.exist name = true ↔
      s.st.exist name = true ∨ Names s name ∧ ¬ Reserved name := by
    intro hnames name
    simp [hnames name]
  simp only [updateSchemaPlugIn, wp_bind, wp_state, wp_ite, wp_pure]
  refine ⟨fun hvalid => hnone fun name h => ?_, fun hvalid => ⟨fun hbyte => hnone fun name h => ?_,
    fun hbyte => ?_⟩⟩
  · simp [h.1] at hvalid
  · exact hbyte h.2.1
  cases hfind : findNode "CreateStmt" s.context.query.json with
  | none =>
      refine hnone fun name h => ?_
      obtain ⟨-, -, n, -, -, hn, -⟩ := h
      rw [hfind] at hn
      exact absurd hn (by simp)
  | some n =>
      have hnames : ∀ {name}, Names s name ↔ ∃ json json',
          atPath n createdName s.context.query.json = .ok (name, json) ∧
            atPath n readIfNotExists json = .ok ((), json') :=
        names_iff (by simpa using hvalid) (not_not.mp hbyte) hfind
      simp only [wp_bind, wp_onQuery, wp_pure, wp_modify]
      refine ⟨fun tableName json hname => ⟨fun _ json' hflag => ?_, fun e hflag => ?_⟩, fun e hname => ?_⟩
      · intro name
        rw [SchemaTracker.exist_addRelName, Reserved, not_or, Bool.not_eq_true]
        refine or_congr_right ?_
        rw [hnames]
        constructor
        · rintro ⟨rfl, hreserved⟩
          exact ⟨⟨json, json', hname, hflag⟩, hreserved⟩
        · rintro ⟨⟨json₁, -, hname₁, -⟩, hreserved⟩
          rw [hname] at hname₁
          exact ⟨(Prod.mk.inj (Except.ok.inj hname₁)).1.symm, hreserved⟩
      · refine hnone fun name h => ?_
        obtain ⟨json₁, json', hname₁, hflag₁⟩ := hnames.mp h
        rw [hname] at hname₁
        obtain ⟨rfl, rfl⟩ := Prod.mk.inj (Except.ok.inj hname₁)
        rw [hflag] at hflag₁
        exact absurd hflag₁ (by simp)
      · refine hnone fun name h => ?_
        obtain ⟨json₁, json', hname₁, -⟩ := hnames.mp h
        rw [hname] at hname₁
        exact absurd hname₁ (by simp)

theorem exist_applyPostResponsePlugins (hcurrent : s.current = some .applyPostResponsePlugins) :
    wp (applyPostResponsePlugins lib io)
      (fun _ s' => ∀ name, s'.st.exist name = true ↔
        s.st.exist name = true ∨ Announces lib io s name ∧ ¬ Reserved name)
      (fun _ _ => True) s := by
  refine wp_mono (wp_applyPostResponsePlugins (wp_mono
    (wp_and (wp_result (updateParametersPlugIn lib io) s) st_updateParametersPlugIn) ?_ ?_))
    (fun _ _ h => h.2) fun _ _ h => h
  · rintro err s₁ ⟨hresult, hst⟩
    have hannounces : ∀ {name}, Announces lib io s name ↔ Names s₁ name := by
      intro name
      constructor
      · rintro ⟨-, err', s₂, hresult', hnames⟩
        rw [hresult] at hresult'
        obtain ⟨-, rfl⟩ := Prod.mk.inj hresult'
        exact hnames
      · intro hnames
        exact ⟨hcurrent, err, s₁, hresult, hnames⟩
    simp only [hannounces, ← hst]
    exact wp_mono exist_updateSchemaPlugIn (fun _ _ h => h) fun _ _ h _ _ _ => h
  · rintro f s₁ ⟨hresult, hst⟩ e response - name
    show s₁.st.exist name = true ↔ _
    rw [hst]
    have hannounces : ¬ Announces lib io s name := by
      rintro ⟨-, err', s₂, hresult', -⟩
      rw [hresult] at hresult'
      exact absurd (Prod.mk.inj hresult').1 (by simp)
    simp [hannounces]

theorem exist_takeAction (htake : takeAction lib io s = .ok s') :
    s'.st.exist name = true ↔
      s.st.exist name = true ∨ Announces lib io s name ∧ ¬ Reserved name := by
  cases hcurrent : s.current with
  | none =>
      rw [takeAction, hcurrent] at htake
      obtain rfl := Except.ok.inj htake
      simp [Announces, hcurrent]
  | some state =>
      by_cases hpost : state = .applyPostResponsePlugins
      · subst hpost
        obtain ⟨next, t, ht, rfl⟩ :=
          exists_of_takeAction hcurrent (exist_applyPostResponsePlugins hcurrent) htake
        exact ht name
      · obtain ⟨next, t, ht, rfl⟩ := exists_of_takeAction hcurrent (st_action hpost s) htake
        show t.st.exist name = true ↔ _
        rw [ht]
        simp [Announces, hcurrent, hpost]

theorem exist_step {p p' : Proxy} {i : Nat} (hstep : step lib p (i, io) = .ok p') :
    p'.st.exist name = true ↔
      p.st.exist name = true ∨ Announces lib io (p.session i) name ∧ ¬ Reserved name := by
  obtain ⟨s', htake, hp'⟩ := bind_eq_ok.mp hstep
  obtain rfl := Except.ok.inj hp'
  exact exist_takeAction htake

end Step

/-- What happens around the proxy: a session acts, or the server has carried out
`ENABLE ACCESS CONTROL` on a table. -/
inductive Event where
  | turn (session : Nat) (io : Io)
  | enabled (table : String)

def turns (events : List Event) : List (Nat × Io) :=
  events.filterMap fun
    | .turn i io => some (i, io)
    | .enabled _ => none

def enabledTables (events : List Event) : List String :=
  events.filterMap fun
    | .turn _ _ => none
    | .enabled t => some t

section Runs

variable {lib : Externals} {p q : Proxy} {name : String}

/-- In the course of the turns a session has come to a response that gives the name of a table
away. -/
def Announced (lib : Externals) (p : Proxy) (turns : List (Nat × Io)) (name : String) : Prop :=
  ∃ pre i io post r, turns = pre ++ (i, io) :: post ∧ run lib p pre = .ok r ∧
    Announces lib io (r.session i) name

theorem exist_run {turns : List (Nat × Io)} (hrun : run lib p turns = .ok q) :
    q.st.exist name = true ↔
      p.st.exist name = true ∨ Announced lib p turns name ∧ ¬ Reserved name := by
  induction turns using List.reverseRecOn generalizing q with
  | nil =>
      obtain rfl := Except.ok.inj hrun
      simp [Announced]
  | append_singleton turns turn ih =>
      obtain ⟨j, io⟩ := turn
      rw [run_concat] at hrun
      obtain ⟨r, hr, hstep⟩ := bind_eq_ok.mp hrun
      rw [exist_step hstep, ih hr, or_assoc, ← or_and_right]
      refine or_congr_right (and_congr_left fun _ => ?_)
      constructor
      · rintro (⟨pre, i, io', post, t, hsplit, ht, hannounces⟩ | hannounces)
        · refine ⟨pre, i, io', post ++ [(j, io)], t, ?_, ht, hannounces⟩
          rw [hsplit, List.append_assoc, List.cons_append]
        · exact ⟨turns, j, io, [], r, rfl, hr, hannounces⟩
      · rintro ⟨pre, i, io', post, t, hsplit, ht, hannounces⟩
        rcases List.eq_nil_or_concat post with rfl | ⟨post, last, rfl⟩
        · obtain ⟨hpre, hlast⟩ := List.append_inj' hsplit rfl
          obtain ⟨rfl, rfl⟩ := Prod.mk.inj (List.singleton_inj.mp hlast)
          subst hpre
          obtain rfl := Except.ok.inj (hr.symm.trans ht)
          exact .inr hannounces
        · rw [List.concat_eq_append, ← List.cons_append, ← List.append_assoc] at hsplit
          obtain ⟨hpre, -⟩ := List.append_inj' hsplit rfl
          exact .inl ⟨pre, i, io', post, t, hpre, ht, hannounces⟩

end Runs

/-- The proxy when its tracker has been refreshed. -/
def refreshed (rows : List ClassRow) (p : Proxy) : Proxy :=
  { p with st := SchemaTracker.empty.refresh rows }

/-- After the events a session is about to rewrite its query. -/
def Rewriting (lib : Externals) (p : Proxy) (events : List Event) (q : Proxy) : Prop :=
  run lib p (turns events) = .ok q ∧ ∃ i, (q.sessions i).current = some .applyPreRequestPlugins

/-- Whenever a query is rewritten, the tracker has all tables with access control. -/
def Complete (lib : Externals) (rows : List ClassRow) (p : Proxy) (events : List Event) : Prop :=
  ∀ pre post q, events = pre ++ post → Rewriting lib (refreshed rows p) pre q →
    ∀ t ∈ enabledTables pre, q.st.exist t = true

/-- Every table with access control was in the catalogue at first, or was announced before the
query is rewritten; and its name is not one of those that the tracker has no use for. -/
def Heard (lib : Externals) (rows : List ClassRow) (p : Proxy) (events : List Event) : Prop :=
  ∀ pre post q, events = pre ++ post → Rewriting lib (refreshed rows p) pre q →
    ∀ t ∈ enabledTables pre, ¬ Reserved t ∧
      ((∃ row ∈ rows, row.selected = true ∧ row.relname = t) ∨
        Announced lib (refreshed rows p) (turns pre) t)

theorem exist_refreshed {rows : List ClassRow} {p : Proxy} {name : String} :
    (refreshed rows p).st.exist name = true ↔
      (∃ row ∈ rows, row.selected = true ∧ row.relname = name) ∧ ¬ Reserved name := by
  show (SchemaTracker.empty.refresh rows).exist name = true ↔ _
  rw [SchemaTracker.exist_refresh, Reserved, not_or, Bool.not_eq_true]
  rw [or_iff_right]
  rw [SchemaTracker.exist_iff]
  exact fun h => absurd h.2.2 List.not_mem_nil

theorem complete_iff (lib : Externals) (rows : List ClassRow) (p : Proxy) (events : List Event) :
    Complete lib rows p events ↔ Heard lib rows p events := by
  refine forall_congr' fun pre => forall_congr' fun post => forall_congr' fun q =>
    forall_congr' fun _ => forall_congr' fun hrewriting => forall_congr' fun t =>
      forall_congr' fun _ => ?_
  rw [exist_run hrewriting.1, exist_refreshed, ← or_and_right, and_comm]

/-- A `CREATE TABLE` with a column `id INT PRIMARY KEY`, as a statement of a parse tree. -/
def createTable (relname : String) : Json :=
  .obj [("stmt", ParseTree.node "CreateStmt"
    [("oncommit", .str "ONCOMMIT_NOOP"),
      ("relation", .obj
        [("inh", .bool true), ("relname", .str relname), ("relpersistence", .str "p")]),
      ("tableElts", .arr [ParseTree.node "ColumnDef"
        [("colname", .str "id"),
          ("constraints", .arr [ParseTree.node "Constraint" [("contype", .str "CONSTR_PRIMARY")]]),
          ("is_local", .bool true),
          ("typeName", .obj
            [("names", .arr [ParseTree.stringNode "pg_catalog", ParseTree.stringNode "int4"]),
              ("typemod", .num "-1")])]])])]

/-- A parse tree with these statements. -/
def statements (stmts : List Json) : Json :=
  .obj [("stmts", .arr stmts), ("version", .num "130003")]

def script : Bytes := utf8 "CREATE TABLE s (id INT PRIMARY KEY); CREATE TABLE t (id INT PRIMARY KEY)"

def scriptTree : Json := statements [createTable "s", createTable "t"]

def enable : Bytes := utf8 "ENABLE ACCESS CONTROL t"

/-- What the command is translated to. -/
def enabling : Bytes :=
  utf8 ("CREATE TABLE t__access_bindings__ (" ++
    "   _id             BIGINT NOT NULL," ++
    "   _role           TEXT NOT NULL," ++
    "   _principal      TEXT NOT NULL," ++
    "   _ref            BIGINT NOT NULL," ++
    "   _inheritance    BIGINT NOT NULL DEFAULT 0," ++
    "   _ts             TIMESTAMP DEFAULT NOW()," ++
    "   PRIMARY KEY (_id, _inheritance, _ref)," ++
    "   FOREIGN KEY (_id) REFERENCES t (id) ON DELETE CASCADE," ++
    "   FOREIGN KEY (_role) REFERENCES __access_roles__ (_name) ON DELETE RESTRICT," ++
    "   FOREIGN KEY (_ref) REFERENCES __access_binding_refs__ (_id) ON DELETE CASCADE," ++
    "   FOREIGN KEY (_inheritance) REFERENCES __access_inheritances__ (_id) ON DELETE CASCADE" ++
    ");" ++
    "CREATE TRIGGER t__upsert__" ++
    "   AFTER INSERT OR UPDATE ON t" ++
    "   FOR EACH ROW" ++
    "   EXECUTE FUNCTION __set_access_bindings__();" ++
    "CREATE VIEW t__acls__ AS" ++
    "   SELECT b._id, b._role, b._principal, r._operation, r._columns" ++
    "   FROM t__access_bindings__ b, __access_roles_expanded__ r" ++
    "   WHERE r._relation = 't'::REGCLASS AND b._role = r._name;" ++
    "GRANT ALL PRIVILEGES ON t, t__acls__ TO PUBLIC")

/-- Its tree as far as the plug-ins look at it, that is the name in its first `CREATE TABLE`. -/
def enablingTree : Json := statements [createTable "t__access_bindings__"]

def scriptExternals : Externals where
  translate text := .ok (if text = enable then enabling else text, .noError)
  pgQueryParse text :=
    if text = script then .ok (.ok scriptTree)
    else if text = enabling then .ok (.ok enablingTree)
    else .ok (.error ⟨utf8 "syntax error", [], [], 0, 0⟩)
  deparse json := .ok (if json = scriptTree then script else [])
  length_deparse := by
    intro json text h
    rw [← Except.ok.inj h]
    split
    · decide +kernel
    · exact Nat.zero_lt_succ _
  what _ := []
  file := []

/-- Session 1 is that of a superuser. -/
def scriptProxy : Proxy where
  sessions i :=
    { parameters := fun name =>
        if name = utf8 "rolsuper" then some (utf8 (if i = 1 then "t" else "f")) else none
      st := .empty
      context := .new true
      current := some .prepareToReceiveRequest }
  st := .empty
  toServer _ := []

/-- The server's answer to CREATE TABLE. -/
def tableMade : Bytes :=
  Message.encode ⟨67, utf8 "CREATE TABLE" ++ [0]⟩ ++ Message.encode ⟨90, [73]⟩

/-- The turns of a session for a query and its response. -/
def exchange (session : Nat) (text : Bytes) : List Event :=
  List.replicate 6 (.turn session (receiving (Message.encode ⟨81, text ++ [0]⟩))) ++
    List.replicate 5 (.turn session (receiving tableMade))

/-- The second table of a script gets access control, and the script's session comes with
another query. -/
def scriptEvents : List Event :=
  exchange 0 script ++ exchange 1 enable ++ [.enabled "t"] ++
    List.replicate 2 (.turn 0 (receiving (Message.encode ⟨81, script ++ [0]⟩)))

/-- The tracker never hears of the second table. -/
theorem not_complete_secondTable : ¬ Complete scriptExternals [] scriptProxy scriptEvents := by
  intro h
  have hstate : (run scriptExternals (refreshed [] scriptProxy) (turns scriptEvents)).toOption.map
      (fun q => ((q.sessions 0).current, q.st.relnames)) =
      some (some .applyPreRequestPlugins, ["s"]) := by
    decide +kernel
  obtain ⟨q, hrun, hq⟩ := Option.map_eq_some_iff.mp hstate
  obtain ⟨hcurrent, hrelnames⟩ := Prod.mk.inj hq
  have hexist := h scriptEvents [] q (List.append_nil _).symm ⟨eq_ok_of_toOption hrun, 0, hcurrent⟩ "t"
    (by decide +kernel)
  rw [SchemaTracker.exist_iff, hrelnames] at hexist
  exact absurd hexist.2.2 (by decide)

end PgFort.TableTracking
