import PgFort.FieldReads
import PgFort.MandatoryFields
import PgFort.Refusals
import PgFort.RoleTracking

namespace PgFort.Containment

open PgFort.Framing
open PgFort.JsonTree
open PgFort.JsonTree.Json
open PgFort.JsonAccess
open PgFort.FieldReads
open PgFort.KeyedTraversal
open PgFort.Conn
open PgFort.Reads
open PgFort.Schema
open PgFort.Stateful.Action
open PgFort.Plugins
open PgFort.StateMachine
open PgFort.Frames
open PgFort.SqlForwarding
open PgFort.Runs
open PgFort.Lives
open PgFort.MandatoryFields
open PgFort.Refusals (refusal)
open PgFort.RoleTracking (named)

/-- The rows that the pool's connection has for a query. -/
abbrev Rows := Bytes → Except Fault (List Bytes)

/-- `exec1` throws unless there is exactly one row. -/
def exec1Of (what : Bytes) (rows : Rows) (query : Bytes) : Except Fault Bytes :=
  match rows query with
  | .ok [value] => .ok value
  | .ok _ => .error (.thrown what)
  | .error f => .error f

/-- A turn, and what the pool's connection has for it. -/
structure Visit where
  turn : Turn
  rows : Rows
  unexpectedRows : Bytes

def Visit.toTurn (v : Visit) : Turn :=
  { v.turn with io := { v.turn.io with exec1 := exec1Of v.unexpectedRows v.rows } }

def visit (lib : Externals) (s : Session) (v : Visit) : Except Fault Session :=
  act lib s v.toTurn

/-- The action returns a state or none. -/
def Contained (lib : Externals) (s : Session) (v : Visit) : Prop :=
  ∃ s', visit lib s v = .ok s'

/-- A call returns, or throws what a handler catches. -/
def Settled {α : Type} (r : Except Fault α) : Prop :=
  ∀ f, r = .error f → ∃ what, f = .thrown what

/-- The loop over a startup message ends, and the user that the message names is found exactly
once. -/
def FoundUser (rows : Rows) (s : Session) : Prop :=
  ∃ parameters, startupParameters s.context.request.buf = .ok parameters ∧ ∃ value,
    rows (rolsuperQuery ((parameters.foldl setStartupParameter s).parameter "user")) = .ok [value]

/-- What is read of a response to print it and to look for its end lies in its buffer, and the
printing returns. -/
structure Readable (initiated : Bool) (b : Buffer) : Prop where
  printed : Inside b.buf (printReads b.buf .backend b.size)
  ends : LoopEnds b.buf .backend
  index : IndexFits b.buf .backend
  ready : initiated = true → Inside b.buf (readyReads b.buf b.size)

/-- What a request that drops tables is tested with. -/
structure Drops (s : Session) (n : Path) (tableNames : List String) (json : Json) : Prop where
  query : s.context.query.valid = true
  stmt : findNode "DropStmt" s.context.query.json = some n
  tables : ∃ read, atPath n (atKey "removeType" value) s.context.query.json =
      .ok (.str "OBJECT_TABLE", read) ∧
    atPath n (atKey "objects" (forItems (bindingsTableName s.st) [])) read = .ok (tableNames, json)
  nonempty : tableNames ≠ []

/-- The tree that a test is made of has a text, the pool a connection for it, and the query that
passes it has a text again. -/
structure Tested (lib : Externals) (io : Io) (n : Path) (tableNames : List String) (json : Json) :
    Prop where
  test : ∀ testQ, testQuery lib tableNames json = .ok testQ → Settled (Query.toText lib testQ)
  executed : ∀ testQ text, testQuery lib tableNames json = .ok testQ →
    Query.toText lib testQ = .ok text → ∀ f, io.exec text = .fault f → ∃ what, f = .thrown what
  cascade : ∀ testQ text, testQuery lib tableNames json = .ok testQ →
    Query.toText lib testQ = .ok text → io.exec text = .done →
      ∀ json', atPath n (atKey "behavior" (assign (.str "DROP_CASCADE"))) json = .ok ((), json') →
        Settled (Query.toText lib json')

/-- A plug-in, and what it asks of the session that it finds. -/
structure Demand where
  plugin : Plugins.Action Conn.Error
  met : Session → Prop

section Demands

variable (lib : Externals) (io : Io)

def parseDemand : Demand where
  plugin := parseQueryPlugIn lib
  met s := s.context.request.byteAt 0 = 81 → Settled (lib.pgQueryParse (s.context.request.textAt 5))

def aclDemand : Demand where
  plugin := aclQueryPlugIn lib
  met s := s.parameter "rolsuper" ≠ utf8 "t" → s.context.query.valid = true →
    ∀ json, acl lib s.st s.context.query.json = .ok json → Settled (Query.toText lib json)

/-- `DropTablePlugIn` asks for what a test takes. -/
def dropTableDemand : Demand where
  plugin := dropTablePlugIn lib io
  met s := ∀ n tableNames json, Drops s n tableNames json → Tested lib io n tableNames json

def noDemand (plugin : Plugins.Action Conn.Error) : Demand where
  plugin
  met _ := True

/-- What the plug-ins ask for before a request is forwarded. -/
def preRequestDemands : List Demand :=
  [noDemand (translateProxyCommandPlugIn lib), parseDemand lib, aclDemand lib,
    dropTableDemand lib io, noDemand (ensureNewTableHasIdPlugIn lib),
    noDemand restrictInternalTableAccessPlugIn]

end Demands

/-- The plug-ins up to the first that returns an error, or throws, have what they ask for. -/
def Met : List Demand → Session → Prop
  | [], _ => True
  | d :: ds, s => d.met s ∧ ∀ err s', d.plugin s = (.ok err, s') → err.isError = false → Met ds s'

/-- The action makes a response of the error. -/
def Answers (lib : Externals) (s : Session) (v : Visit) (e : Conn.Error) : Prop :=
  s.current = some .applyPreRequestPlugins ∧
      refusal lib v.toTurn.io (v.toTurn.meet s) = some e ∨
    s.current = some .applyPostResponsePlugins ∧ ∃ what,
      (applyEach (postResponsePlugins lib v.toTurn.io) (v.toTurn.meet s)).1 =
        .error (.thrown what) ∧ e = internalError what

/-- The session has what its action asks for. -/
structure Spared (lib : Externals) (s : Session) (v : Visit) : Prop where
  startup : s.current = some .initiate → ¬s.context.request.size ≤ 8 →
    FoundUser v.rows (v.toTurn.meet s)
  commands : EvenQuery s v.toTurn
  plugins : s.current = some .applyPreRequestPlugins →
    Met (preRequestDemands lib v.toTurn.io) (v.toTurn.meet s)
  response : s.current = some .receiveResponse → ∀ b res,
    s.context.response.recvFrom v.turn.io.chunks v.turn.io.stop = (b, res) → ¬res ≤ 0 →
      Readable s.context.initiated b
  role : s.current = some .applyPostResponsePlugins → ∀ user, named s = some user →
    Settled (v.rows (rolsuperQuery (utf8 user)))
  printed : ∀ e response, Answers lib s v e → setError e = some response →
    printInfo .backend response = .ok ()

section Plugins

variable {lib : Externals} {io : Io} {s : Session} {d : Demand} {ds : List Demand}

theorem settled_ok {α : Type} (a : α) : Settled (.ok a : Except Fault α) :=
  fun _ hf => nomatch hf

theorem settled_thrown {α : Type} (what : Bytes) :
    Settled (.error (.thrown what) : Except Fault α) :=
  fun _ hf => ⟨what, (Except.error.inj hf).symm⟩

theorem settled_error_iff {α : Type} {f : Fault} :
    Settled (.error f : Except Fault α) ↔ ∃ what, f = .thrown what := by
  constructor
  · exact fun h => h f rfl
  · rintro ⟨what, rfl⟩
    exact settled_thrown what

theorem settled_acl (st : SchemaTracker) (json : Json) : Settled (acl lib st json) := by
  rw [acl]
  split
  · exact settled_ok _
  · exact settled_thrown _

theorem settled_testQuery {n : Path} {tableNames : List String} {json : Json}
    (h : Drops s n tableNames json) : Settled (testQuery lib tableNames json) := by
  obtain ⟨read, -, hobjects⟩ := h.tables
  obtain ⟨w, hw⟩ := exists_mem_valuesUnder hobjects
  rw [testQuery]
  cases hfind : findNode "objects" json with
  | none =>
      rw [valuesUnder_of_findNode_none hfind] at hw
      exact absurd hw List.not_mem_nil
  | some objs =>
      simp only
      split
      · exact settled_ok _
      · exact settled_thrown _

/-- A plug-in comes to its end, or throws. -/
def Settles (p : Plugins.Action Conn.Error) (s : Session) : Prop :=
  wp p (fun _ _ => True) (fun f _ => ∃ what, f = .thrown what) s

theorem settled_parse (text : Bytes) :
    Settled (Query.parse lib text) ↔ Settled (lib.pgQueryParse text) := by
  rw [Query.parse]
  cases lib.pgQueryParse text with
  | error f => exact settled_error_iff.trans settled_error_iff.symm
  | ok r => cases r <;> exact iff_of_true (settled_ok _) (settled_ok _)

theorem settles_parseQueryPlugIn : Settles (parseQueryPlugIn lib) s ↔ (parseDemand lib).met s := by
  simp only [Settles, parseDemand, parseQueryPlugIn, wp_bind, wp_state, wp_ite, wp_pure,
    wp_ofExcept, wp_modify, not_not, implies_true, true_and, ne_eq]
  exact forall_congr' fun _ => settled_parse _

theorem settles_aclQueryPlugIn : Settles (aclQueryPlugIn lib) s ↔ (aclDemand lib).met s := by
  simp only [Settles, aclDemand, aclQueryPlugIn, wp_bind, wp_state, wp_ite, wp_pure,
    wp_ofExcept, wp_modify, wp_requestQuery, implies_true, true_and, ne_eq, Bool.not_eq_true',
    Bool.not_eq_false]
  refine forall_congr' fun _ => forall_congr' fun _ => ?_
  exact and_iff_left (settled_acl s.st s.context.query.json)

theorem settles_dropTablePlugIn :
    Settles (dropTablePlugIn lib io) s ↔ (dropTableDemand lib io).met s := by
  simp only [Settles, dropTableDemand, dropTablePlugIn, wp_bind, wp_state, wp_ite, wp_pure,
    implies_true, true_and, Bool.not_eq_true', Bool.not_eq_false]
  cases hfind : findNode "DropStmt" s.context.query.json with
  | none =>
      refine iff_of_true (fun _ => trivial) fun n tableNames json h => ?_
      cases h.stmt.symm.trans hfind
  | some n =>
      simp only [wp_bind, wp_onQuery, wp_ite, wp_pure, wp_state, wp_ofExcept, implies_true, true_and,
        not_not, ne_eq, Fault.thrown.injEq, exists_eq', and_true, List.isEmpty_iff]
      constructor
      · intro h n' tableNames json hdrops
        obtain ⟨read, hremove, hobjects⟩ := hdrops.tables
        obtain rfl := Option.some.inj (hfind.symm.trans hdrops.stmt)
        have htest := (h hdrops.query _ read hremove rfl tableNames json hobjects
          hdrops.nonempty).1
        refine ⟨fun testQ htestQ => (htest testQ htestQ).2, fun testQ text htestQ htext f hf => ?_,
          fun testQ text htestQ htext hdone json' hcascade => ?_⟩
        · have hexec := (htest testQ htestQ).1 text htext
          rw [hf] at hexec
          exact hexec
        · have hexec := (htest testQ htestQ).1 text htext
          rw [hdone] at hexec
          simp only [wp_bind, wp_onQuery, wp_requestQuery, wp_pure] at hexec
          exact ((hexec.1 () json' hcascade).2)
      · intro h hvalid removeType read hremove htable tableNames json hobjects hnames
        have hdrops : Drops s n tableNames json :=
          ⟨hvalid, hfind, ⟨read, htable ▸ hremove, hobjects⟩, hnames⟩
        have htested := h n tableNames json hdrops
        refine ⟨fun testQ htestQ => ⟨fun text htext => ?_, htested.test testQ htestQ⟩,
          settled_testQuery hdrops⟩
        cases hexec : io.exec text with
        | sqlError => trivial
        | fault f => exact htested.executed testQ text htestQ htext f hexec
        | done =>
            simp only [wp_bind, wp_onQuery, wp_requestQuery, wp_pure]
            exact ⟨fun _ json' hcascade => ⟨fun _ _ => trivial,
              htested.cascade testQ text htestQ htext hexec json' hcascade⟩,
              fun e _ => ⟨_, rfl⟩⟩

theorem settles_ensureNewTableHasIdPlugIn : Settles (ensureNewTableHasIdPlugIn lib) s := by
  simp only [Settles, ensureNewTableHasIdPlugIn, wp_bind, wp_state, wp_ite, wp_pure, implies_true,
    true_and]
  intro _
  cases findNode "CreateStmt" s.context.query.json with
  | none => trivial
  | some n =>
      simp only [wp_bind, wp_onQuery, wp_ite, wp_pure, implies_true, and_self, Fault.thrown.injEq,
        exists_eq']

theorem settles_updateParametersPlugIn : Settles (updateParametersPlugIn lib io) s ↔
    ∀ user, named s = some user → Settled (io.exec1 (rolsuperQuery (utf8 user))) := by
  simp only [Settles, updateParametersPlugIn, wp_bind, wp_state, wp_ite, wp_pure, implies_true,
    true_and]
  constructor
  · intro h user hnamed
    rw [named] at hnamed
    split at hnamed
    · cases hnamed
    · rename_i hvalid
      have hchecked := h hvalid
      split at hnamed
      · cases hnamed
      · rename_i n hfind
        simp only [hfind, wp_bind, wp_onQuery, wp_ite, wp_pure, wp_modify, wp_ofExcept] at hchecked
        split at hnamed
        · cases hnamed
        · rename_i name json hname
          split at hnamed
          · cases hnamed
          · rename_i hrole
            split at hnamed
            · cases hnamed
            · rename_i hbyte
              obtain ⟨⟨user', json'⟩, huser, rfl⟩ := Option.map_eq_some_iff.mp hnamed
              exact ((((hchecked.1 name json hname).2 hrole).2 hbyte).1 _ _
                (eq_ok_of_toOption huser)).2
  · intro h hvalid
    rw [named, if_neg hvalid] at h
    cases hfind : findNode "VariableSetStmt" s.context.query.json with
    | none => trivial
    | some n =>
        simp only [hfind] at h
        simp only [wp_bind, wp_onQuery, wp_ite, wp_pure, wp_modify, wp_ofExcept, implies_true,
          true_and, Fault.thrown.injEq, exists_eq', and_true]
        intro name json hname hrole hbyte user json' huser
        simp only [hname, if_neg hrole, if_neg hbyte, huser] at h
        exact h user rfl

theorem settles_updateSchemaPlugIn : Settles (updateSchemaPlugIn lib) s := by
  simp only [Settles, updateSchemaPlugIn, wp_bind, wp_state, wp_ite, wp_pure, implies_true,
    true_and]
  intro _ _
  cases findNode "CreateStmt" s.context.query.json with
  | none => trivial
  | some n =>
      simp only [wp_bind, wp_onQuery, wp_pure, wp_modify, implies_true, and_self,
        Fault.thrown.injEq, exists_eq']

end Plugins

section Actions

variable {lib : Externals} {io : Io} {s : Session} {d : Demand} {ds : List Demand}

/-- A plug-in asks for exactly what it needs. -/
def Exact (d : Demand) : Prop :=
  ∀ s, Settles d.plugin s ↔ d.met s

theorem settles_applyAll_iff (hds : ∀ d ∈ ds, Exact d) :
    wp (applyAll (ds.map Demand.plugin)) (fun _ _ => True) (fun f _ => ∃ what, f = .thrown what) s ↔
      Met ds s := by
  induction ds generalizing s with
  | nil => exact iff_of_true trivial trivial
  | cons d ds ih =>
      have hfirst := hds d List.mem_cons_self s
      have hrest (t : Session) := @ih t fun e he => hds e (List.mem_cons_of_mem d he)
      rw [List.map_cons, wp_applyAll_cons, Met, ← hfirst, Settles, wp, wp]
      cases hresult : d.plugin s with
      | mk r t =>
          cases r with
          | error f =>
              refine ⟨fun h => ⟨h, ?_⟩, And.left⟩
              rintro err t' ⟨⟩
          | ok err =>
              simp only [hrest, implies_true, true_and]
              constructor
              · intro h err' t' heq hnot
                obtain ⟨herr, rfl⟩ := Prod.mk.inj heq
                obtain rfl := Except.ok.inj herr
                exact h hnot
              · exact fun h hnot => h err t rfl hnot

theorem exact_noDemand {p : Plugins.Action Conn.Error} (h : ∀ s, Settles p s) :
    Exact (noDemand p) :=
  fun s => iff_of_true (h s) trivial

theorem settles_translateProxyCommandPlugIn (file : Bytes) :
    Settles (translateProxyCommandPlugIn (translating file lib)) s := by
  simp only [Settles, translateProxyCommandPlugIn, wp_bind, wp_state, wp_ite, wp_pure, wp_ofExcept,
    wp_setRequest, implies_true, true_and]
  rintro _ _ ⟨⟩

theorem exact_preRequestDemands (file : Bytes) :
    ∀ d ∈ preRequestDemands (translating file lib) io, Exact d := by
  simp only [preRequestDemands, List.forall_mem_cons]
  exact ⟨exact_noDemand fun _ => settles_translateProxyCommandPlugIn file,
    fun _ => settles_parseQueryPlugIn, fun _ => settles_aclQueryPlugIn,
    fun _ => settles_dropTablePlugIn, exact_noDemand fun _ => settles_ensureNewTableHasIdPlugIn,
    exact_noDemand fun _ => trivial, by simp⟩

theorem plugin_preRequestDemands :
    (preRequestDemands lib io).map Demand.plugin = preRequestPlugins lib io := rfl

/-- An action returns. -/
def ActionReturns (x : Plugins.Action (Option SessionState)) (s : Session) : Prop :=
  wp x (fun _ _ => True) (fun _ _ => False) s

theorem exists_takeAction_iff {state : SessionState} (hcurrent : s.current = some state) :
    (∃ s', takeAction lib io s = .ok s') ↔ ActionReturns (action lib io state) s := by
  rw [takeAction, hcurrent, ActionReturns, wp]
  cases hact : action lib io state s with
  | mk r t =>
      cases r with
      | ok next =>
          simp only [hact]
          exact iff_of_true ⟨_, rfl⟩ trivial
      | error f =>
          simp only [hact]
          refine iff_of_false ?_ id
          rintro ⟨_, ⟨⟩⟩

theorem exists_answered_iff {e : Conn.Error} : (∃ response, answered e = .ok response) ↔
    Mandatory e ∧ ∀ response, setError e = some response →
      printInfo .backend response = .ok () := by
  simp only [answered_eq_ok, mandatory_iff, Option.isSome_iff_exists]
  constructor
  · rintro ⟨response, hresponse, hprint⟩
    refine ⟨⟨response, hresponse⟩, fun response' hresponse' => ?_⟩
    obtain rfl := Option.some.inj (hresponse.symm.trans hresponse')
    exact hprint
  · rintro ⟨⟨response, hresponse⟩, hprint⟩
    exact ⟨response, hresponse, hprint response hresponse⟩

theorem returns_respondError {e : Conn.Error} {E : Fault → Session → Prop}
    (hE : ¬E .aborted s ∧ ¬E .astray s) :
    wp (respondError e) (fun _ _ => True) E s ↔ ∃ response, answered e = .ok response := by
  rw [respondError, wp_bind, wp_ofExcept]
  constructor
  · rintro ⟨-, hfault⟩
    cases hanswered : answered e with
    | ok response => exact ⟨response, rfl⟩
    | error f =>
        have hf := hfault f hanswered
        rcases fault_of_answered hanswered with rfl | rfl
        · exact absurd hf hE.1
        · exact absurd hf hE.2
  · rintro ⟨response, hresponse⟩
    refine ⟨fun _ _ => trivial, fun f hf => ?_⟩
    cases hresponse.symm.trans hf

theorem returns_respondError_bind {e : Conn.Error} {E : Fault → Session → Prop}
    {next : SessionState} (hE : ¬E .aborted s ∧ ¬E .astray s) :
    wp (respondError e >>= fun _ => pure (some next)) (fun _ _ => True) E s ↔
      ∃ response, answered e = .ok response := by
  rw [wp_bind]
  exact returns_respondError hE

theorem returns_applyPreRequestPlugins : ActionReturns (applyPreRequestPlugins lib io) s ↔
    (∀ e, refusal lib io s = some e → ∃ response, answered e = .ok response) ∧
      wp (applyAll (preRequestPlugins lib io)) (fun _ _ => True)
        (fun f _ => ∃ what, f = .thrown what) s := by
  rw [ActionReturns, applyPreRequestPlugins, wp_catching, wp_bind, wp, wp, refusal]
  cases applyAll (preRequestPlugins lib io) s with
  | mk r t =>
      cases r with
      | error f =>
          cases f with
          | thrown what =>
              refine (returns_respondError_bind ⟨id, id⟩).trans ?_
              rw [and_iff_left ⟨what, rfl⟩]
              simp only [Option.some.injEq, forall_eq']
          | aborted | astray =>
              refine iff_of_false id ?_
              rintro ⟨_, _, ⟨⟩⟩
      | ok err =>
          cases err with
          | none =>
              refine iff_of_true trivial ⟨?_, trivial⟩
              rintro _ ⟨⟩
          | some e =>
              refine (returns_respondError_bind ⟨id, id⟩).trans ?_
              simp only [Option.some.injEq, forall_eq', and_true]

theorem settles_applyEach_iff :
    wp (applyEach (postResponsePlugins lib io)) (fun _ _ => True)
        (fun f _ => ∃ what, f = .thrown what) s ↔
      ∀ user, named s = some user → Settled (io.exec1 (rolsuperQuery (utf8 user))) := by
  rw [← @settles_updateParametersPlugIn lib, Settles]
  simp only [postResponsePlugins, applyEach, wp_bind]
  rw [wp, wp]
  cases updateParametersPlugIn lib io s with
  | mk r t =>
      cases r with
      | error f => exact Iff.rfl
      | ok err => exact iff_of_true (@settles_updateSchemaPlugIn lib t) trivial

theorem returns_applyPostResponsePlugins : ActionReturns (applyPostResponsePlugins lib io) s ↔
    (∀ what, (applyEach (postResponsePlugins lib io) s).1 = .error (.thrown what) →
        ∃ response, answered (internalError what) = .ok response) ∧
      ∀ user, named s = some user → Settled (io.exec1 (rolsuperQuery (utf8 user))) := by
  rw [← @settles_applyEach_iff lib, ActionReturns, applyPostResponsePlugins, wp_bind,
    wp_catching, wp, wp]
  cases applyEach (postResponsePlugins lib io) s with
  | mk r t =>
      cases r with
      | ok _ =>
          refine iff_of_true trivial ⟨?_, trivial⟩
          rintro _ ⟨⟩
      | error f =>
          cases f with
          | thrown what =>
              rw [and_iff_left ⟨what, rfl⟩]
              simp only [Except.error.injEq, Fault.thrown.injEq, forall_eq']
              exact returns_respondError ⟨id, id⟩
          | aborted | astray =>
              refine iff_of_false id ?_
              rintro ⟨_, _, ⟨⟩⟩

theorem exec1Of_ne_error_iff (what : Bytes) {rows : Rows} {query : Bytes} :
    (∀ f, exec1Of what rows query ≠ .error f) ↔ ∃ value, rows query = .ok [value] := by
  rw [exec1Of]
  split
  · rename_i value hvalue
    exact iff_of_true (fun _ hf => nomatch hf) ⟨value, hvalue⟩
  · rename_i values hmany hvalues
    refine iff_of_false (fun h => h _ rfl) fun ⟨value, hvalue⟩ => ?_
    exact hmany value (Except.ok.inj (hvalues.symm.trans hvalue))
  · rename_i f hf
    exact iff_of_false (fun h => h f rfl) fun ⟨value, hvalue⟩ => nomatch hf.symm.trans hvalue

theorem settled_exec1Of_iff (what : Bytes) {rows : Rows} {query : Bytes} :
    Settled (exec1Of what rows query) ↔ Settled (rows query) := by
  rw [exec1Of]
  split
  · rename_i value hvalue
    rw [hvalue]
    exact iff_of_true (settled_ok value) (settled_ok _)
  · rename_i values hmany hvalues
    rw [hvalues]
    exact iff_of_true (settled_thrown what) (settled_ok values)
  · rename_i f hf
    rw [hf, settled_error_iff, settled_error_iff]

theorem returns_initiate {what : Bytes} {rows : Rows} (hrows : io.exec1 = exec1Of what rows) :
    ActionReturns (initiate io) s ↔ (¬s.context.request.size ≤ 8 → FoundUser rows s) := by
  rw [ActionReturns, wp_initiate]
  simp only [implies_true, true_and, hrows, imp_false]
  refine forall_congr' fun _ => ?_
  cases hstartup : startupParameters s.context.request.buf with
  | error f =>
      refine iff_of_false (fun h => h.2 f rfl) fun ⟨parameters, hok, _⟩ => ?_
      exact nomatch hok.symm.trans hstartup
  | ok parameters =>
      rw [and_iff_left fun f hf => nomatch hf]
      constructor
      · intro h
        exact ⟨parameters, hstartup, (exec1Of_ne_error_iff what).mp (h parameters rfl)⟩
      · rintro ⟨parameters', hok, hvalue⟩ _ ⟨⟩
        obtain rfl := Except.ok.inj (hok.symm.trans hstartup)
        exact (exec1Of_ne_error_iff what).mpr hvalue

theorem inspect_ne_error_iff {initiated : Bool} {b : Buffer} :
    (∀ f, inspect initiated b ≠ .error f) ↔ Readable initiated b := by
  rw [inspect]
  by_cases hprinted : Inside b.buf (printReads b.buf .backend b.size) ∧ LoopEnds b.buf .backend ∧
      IndexFits b.buf .backend
  · rw [printInfo, if_pos hprinted]
    obtain ⟨hinside, hends, hindex⟩ := hprinted
    have hready : (∀ f, readyForQuery initiated b ≠ .error f) ↔
        (initiated = true → Inside b.buf (readyReads b.buf b.size)) := by
      rw [readyForQuery]
      cases initiated with
      | false =>
          refine iff_of_true ?_ ?_
          · rintro _ ⟨⟩
          · rintro ⟨⟩
      | true =>
          by_cases hinside : Inside b.buf (readyReads b.buf b.size)
          · rw [if_neg (by simp), if_pos hinside]
            refine iff_of_true ?_ fun _ => hinside
            rintro _ ⟨⟩
          · rw [if_neg (by simp), if_neg hinside]
            exact iff_of_false (fun h => h _ rfl) fun h => hinside (h rfl)
    exact hready.trans ⟨fun h => ⟨hinside, hends, hindex, h⟩, Readable.ready⟩
  · rw [printInfo, if_neg hprinted]
    exact iff_of_false (fun h => h _ rfl) fun h => hprinted ⟨h.printed, h.ends, h.index⟩

theorem returns_receiveResponse : ActionReturns (receiveResponse io) s ↔ ∀ b res,
    s.context.response.recvFrom io.chunks io.stop = (b, res) → ¬res ≤ 0 →
      Readable s.context.initiated b := by
  rw [ActionReturns, wp_receiveResponse]
  simp only [implies_true, true_and, imp_false, and_self]
  constructor
  · intro h b res hrecv hres
    rw [hrecv] at h
    exact inspect_ne_error_iff.mp (h hres)
  · intro h hres
    exact inspect_ne_error_iff.mpr (h _ _ rfl hres)

end Actions

section Visits

variable {file : Bytes} {lib : Externals} {s : Session} {v : Visit}

theorem spared_iff {lib : Externals} : Spared lib s v ↔
    (s.current = some .initiate → ¬s.context.request.size ≤ 8 →
      FoundUser v.rows (v.toTurn.meet s)) ∧
    (s.current = some .applyPreRequestPlugins → EvenQuery s v.toTurn ∧
      Met (preRequestDemands lib v.toTurn.io) (v.toTurn.meet s)) ∧
    (s.current = some .receiveResponse → ∀ b res,
      s.context.response.recvFrom v.turn.io.chunks v.turn.io.stop = (b, res) → ¬res ≤ 0 →
        Readable s.context.initiated b) ∧
    (s.current = some .applyPostResponsePlugins → ∀ user, named s = some user →
      Settled (v.rows (rolsuperQuery (utf8 user)))) ∧
    ∀ e response, Answers lib s v e → setError e = some response →
      printInfo .backend response = .ok () := by
  constructor
  · intro h
    exact ⟨h.startup, fun hcurrent => ⟨h.commands, h.plugins hcurrent⟩, h.response, h.role,
      h.printed⟩
  · rintro ⟨hstartup, hplugins, hresponse, hrole, hprinted⟩
    exact ⟨hstartup, fun hcurrent => (hplugins hcurrent).1 hcurrent,
      fun hcurrent => (hplugins hcurrent).2, hresponse, hrole, hprinted⟩

theorem answered_refusal_iff (hcurrent : s.current = some .applyPreRequestPlugins) :
    (∀ e, refusal (translating file lib) v.toTurn.io (v.toTurn.meet s) = some e →
        ∃ response, answered e = .ok response) ↔
      EvenQuery s v.toTurn ∧ ∀ e response,
        refusal (translating file lib) v.toTurn.io (v.toTurn.meet s) = some e →
          setError e = some response → printInfo .backend response = .ok () := by
  simp only [exists_answered_iff]
  constructor
  · intro h
    have hasserted : Asserted (translating file lib) s v.toTurn := by
      intro _ e t happly
      exact (h e (by rw [refusal, happly])).1
    exact ⟨even_of_asserted hasserted, fun e response he => (h e he).2 response⟩
  · rintro ⟨heven, hprinted⟩ e he
    refine ⟨?_, fun response => hprinted e response he⟩
    have hasserted : Asserted (translating file lib) s v.toTurn := asserted_of_even heven
    rw [refusal] at he
    cases happly : applyAll (preRequestPlugins (translating file lib) v.toTurn.io)
        (v.toTurn.meet s) with
    | mk r t =>
        rw [happly] at he
        cases r with
        | ok err =>
            obtain rfl : err = some e := he
            exact hasserted hcurrent e t happly
        | error f =>
            cases f with
            | thrown what =>
                rw [← Option.some.inj he]
                exact mandatory_internalError what
            | aborted | astray => cases he

theorem contained_iff_spared (file : Bytes) (lib : Externals) (s : Session) (v : Visit) :
    Contained (translating file lib) s v ↔ Spared (translating file lib) s v := by
  rw [spared_iff]
  cases hcurrent : s.current with
  | none =>
      refine iff_of_true ⟨_, act_of_terminated hcurrent⟩ ?_
      simp [hcurrent, Answers]
  | some state =>
      have hmeet : (v.toTurn.meet s).current = some state := hcurrent
      refine (exists_takeAction_iff hmeet).trans ?_
      cases state with
      | initiate =>
          have hexec1 : (v.toTurn.io).exec1 = exec1Of v.unexpectedRows v.rows := rfl
          refine (returns_initiate hexec1).trans ?_
          simp [hcurrent, Answers, Turn.meet]
      | applyPreRequestPlugins =>
          refine returns_applyPreRequestPlugins.trans ?_
          rw [← plugin_preRequestDemands,
            settles_applyAll_iff (exact_preRequestDemands file), answered_refusal_iff hcurrent]
          simp only [hcurrent, Answers, Option.some.injEq, reduceCtorEq, false_imp_iff,
            true_imp_iff, true_and, false_and, or_false]
          exact and_right_comm
      | receiveResponse =>
          refine returns_receiveResponse.trans ?_
          simp [hcurrent, Answers]
          rfl
      | applyPostResponsePlugins =>
          refine returns_applyPostResponsePlugins.trans ?_
          have hrole : (∀ user, named (v.toTurn.meet s) = some user →
                Settled (v.toTurn.io.exec1 (rolsuperQuery (utf8 user)))) ↔
              ∀ user, named s = some user → Settled (v.rows (rolsuperQuery (utf8 user))) :=
            forall₂_congr fun _ _ => settled_exec1Of_iff v.unexpectedRows
          simp only [hrole, hcurrent, Answers, exists_answered_iff, mandatory_internalError,
            Option.some.injEq, reduceCtorEq, false_imp_iff, true_imp_iff, true_and, false_and,
            false_or]
          rw [and_comm]
          refine and_congr_right fun _ => ⟨?_, fun h what hthrown response => ?_⟩
          · rintro h e response ⟨what, hthrown, rfl⟩
            exact h what hthrown response
          · exact h _ response ⟨what, hthrown, rfl⟩
      | receiveRequest => simp [hcurrent, Answers, ActionReturns, action, wp_receiveRequest]
      | forwardRequest => simp [hcurrent, Answers, ActionReturns, action, wp_forwardRequest]
      | forwardResponse => simp [hcurrent, Answers, ActionReturns, action, wp_forwardResponse]
      | _ => exact iff_of_true trivial (by simp [hcurrent, Answers])

end Visits

theorem contained_run_iff (file : Bytes) (lib : Externals) (st : SchemaTracker) (vs : List Visit) :
    AtEachTurn (visit (translating file lib)) (Session.new st) (Contained (translating file lib))
        vs ↔
      AtEachTurn (visit (translating file lib)) (Session.new st) (Spared (translating file lib))
        vs :=
  atEachTurn_congr (I := fun _ => True) (fun _ _ _ _ _ => trivial) trivial
    (fun s v _ => contained_iff_spared file lib s v) vs

/-- A startup by a user that no role is named after. -/
def strangerVisits : List Visit :=
  (cycle startup).map fun turn => ⟨turn, fun _ => .ok [], []⟩

theorem not_contained_stranger :
    ¬AtEachTurn (visit (translating [] sampleExternals)) (Session.new .empty)
      (Contained (translating [] sampleExternals)) strangerVisits := by
  intro h
  have hbefore : ((strangerVisits.take 2).foldlM (visit (translating [] sampleExternals))
      (Session.new .empty)).toOption.map (fun s => (s.current, s.context.request.dataSize)) =
        some (some .initiate, 18) := by
    decide +kernel
  obtain ⟨s, hs, hstate⟩ := Option.map_eq_some_iff.mp hbefore
  obtain ⟨hcurrent, hsize⟩ := Prod.mk.inj hstate
  have hcontained := h _ ⟨⟨.empty, receiving startup⟩, fun _ => .ok [], []⟩
    (strangerVisits.drop 3) s rfl (eq_ok_of_toOption hs)
  have hspared := (contained_iff_spared [] sampleExternals s _).mp hcontained
  obtain ⟨parameters, -, value, hvalue⟩ := hspared.startup hcurrent (by
    rw [Buffer.size, hsize, asInt_eq]
    decide)
  exact nomatch hvalue

end PgFort.Containment
