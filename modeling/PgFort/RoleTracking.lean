import PgFort.DryRun
import PgFort.Frames
import PgFort.Runs
import PgFort.Settings

namespace PgFort.RoleTracking

open PgFort.Framing
open PgFort.JsonTree
open PgFort.JsonTree.Json
open PgFort.JsonAccess
open PgFort.KeyedTraversal
open PgFort.Conn
open PgFort.Schema
open PgFort.Stateful.Action
open PgFort.Plugins
open PgFort.StateMachine
open PgFort.Frames
open PgFort.DryRun
open PgFort.Settings
open PgFort.Runs

/-- Who a server connection acts for. The first two are those of its startup. -/
structure Authorization where
  authenticatedUser : Bytes
  startupRole : Option Bytes
  sessionUser : Bytes
  role : Option Bytes
  deriving DecidableEq, Repr

namespace Authorization

/-- The role in effect is the session's user, unless a role is set. -/
def inEffect (a : Authorization) : Bytes := a.role.getD a.sessionUser

def setRole (role : Option Bytes) (a : Authorization) : Authorization := { a with role }

def resetRole (a : Authorization) : Authorization := { a with role := a.startupRole }

def setSessionUser (user : Bytes) (a : Authorization) : Authorization :=
  { a with sessionUser := user, role := none }

def resetSessionUser (a : Authorization) : Authorization :=
  a.setSessionUser a.authenticatedUser

end Authorization

/-- The server's side of a session's connection. -/
abbrev Server := Connection Authorization

/-- The role whose rights a statement runs with. -/
def Server.role (server : Server) : Bytes := server.current.inEffect

section Reading

def firstElement (j : Json) : Json := (elements j).headD .null

/-- What a SET assigns. -/
def assigned (stmt : Json) : String :=
  match (field "args" stmt).bind fun args => (field "A_Const" (firstElement args)).bind (field "val") with
  | some v => ((field "String" v).map (textField "str")).getD ""
  | none => ""

/-- A `VariableSetStmt`. The name `none` stands for no role. -/
def readAssignment (stmt : Json) : Command Authorization :=
  let isLocal := field "is_local" stmt = some (.bool true)
  match textField "name" stmt, textField "kind" stmt with
  | "role", "VAR_SET_VALUE" =>
      let role := assigned stmt
      .assign isLocal (.setRole (if role = "none" then none else some (utf8 role)))
  | "role", _ => .assign isLocal .resetRole
  | "session_authorization", "VAR_SET_VALUE" =>
      .assign isLocal (.setSessionUser (utf8 (assigned stmt)))
  | "session_authorization", _ => .assign isLocal .resetSessionUser
  | _, _ => .other

/-- What the server does for a statement that succeeds and calls no function that changes the
role. -/
def readCommand (stmt : Json) : Command Authorization :=
  match field "VariableSetStmt" stmt, field "TransactionStmt" stmt, field "DiscardStmt" stmt with
  | some v, _, _ => readAssignment v
  | _, some t, _ => .control (readControl t)
  | _, _, some d =>
      if textField "target" d = "DISCARD_ALL" then .assign false .resetSessionUser else .other
  | _, _, _ => .other

/-- What it does for a text all of whose statements succeed. -/
def commands (tree : Json) : List (Command Authorization) :=
  (statements tree).map readCommand

end Reading

/-- A session with its server, and which roles the server has as superusers. -/
structure World where
  session : Session
  server : Server
  superuser : Bytes → Bool

/-- The session takes the role in effect for a superuser exactly if it is one. -/
def Right (w : World) : Prop :=
  w.session.parameter "rolsuper" = utf8 "t" ↔ w.superuser w.server.role = true

/-- A request of the client, with all that the session and the server meet with until it is
completed. Meanwhile other sessions may change the tracker and the roles. -/
structure Exchange where
  st : SchemaTracker
  request : Io
  check : Io
  sent : Io
  /-- What the server does when it gets the request, whatever its text. -/
  script : List (Command Authorization)
  responses : List Io
  st' : SchemaTracker
  update : Io
  returned : Io
  superuser : Bytes → Bool

section Exchanges

variable (lib : Externals)

/-- Three turns of the session. -/
def act (io₁ io₂ io₃ : Io) (s : Session) : Option Session := do
  let s ← (takeAction lib io₁ s).toOption
  let s ← (takeAction lib io₂ s).toOption
  (takeAction lib io₃ s).toOption

/-- The request has been received, and the plug-ins have decided about it. -/
def checked (w : World) (e : Exchange) : Option Session :=
  act lib e.request e.request e.check { w.session with st := e.st }

/-- The response is received in pieces, up to its end. -/
def respond : List Io → Session → Option Session
  | [], s => if s.current = some .applyPostResponsePlugins then some s else none
  | io :: ios, s =>
      if s.current = some .receiveResponse then (takeAction lib io s).toOption.bind (respond ios)
      else none

/-- The session when it has received the response of an exchange. -/
def responded (w : World) (e : Exchange) : Option Session := do
  let s ← checked lib w e
  if s.current = some .prepareToForwardRequest then
    let s ← act lib e.sent e.sent e.sent s
    let s ← respond lib e.responses s
    return { s with st := e.st' }
  else none

/-- What the session returns to the client, and the server after that. -/
def answered (w : World) (e : Exchange) : Option (Session × Server) := do
  let s ← checked lib w e
  if s.current = some .prepareToForwardResponse then return (s, w.server)
  else
    let s ← responded lib w e
    let s ← (takeAction lib e.update s).toOption
    return (s, w.server.exec e.script)

/-- The session waits for a request again. -/
def exchange (w : World) (e : Exchange) : Option World := do
  let (s, server) ← answered lib w e
  let s ← act lib e.returned e.returned e.returned s
  if s.current = some .prepareToReceiveRequest then return ⟨s, server, e.superuser⟩ else none

end Exchanges

/-- The role that a request is taken to have set, once its response is there. -/
def named (s : Session) : Option String :=
  if !s.context.query.valid then none
  else
    match findNode "VariableSetStmt" s.context.query.json with
    | none => none
    | some n =>
        match atPath n (atKey "name" value) s.context.query.json with
        | .error _ => none
        | .ok (name, json) =>
            if name ≠ .str "role" then none
            else if s.context.response.byteAt 0 ≠ 67 then none
            else (atPath n roleArgument json).toOption.map Prod.fst

/-- What the pool's connection says about that role. -/
def lookedUp (io : Io) (s : Session) : Option Bytes :=
  (named s).bind fun user => (io.exec1 (rolsuperQuery (utf8 user))).toOption.map cString

/-- The request leaves a superuser in effect exactly if the pool's connection says so of the role
that it is taken to have set, or, if it is not taken to set one, if one was in effect before. -/
structure Followed (lib : Externals) (w : World) (e : Exchange) : Prop where
  refused : responded lib w e = none →
    (w.superuser w.server.role = true ↔ e.superuser w.server.role = true)
  unnoticed : ∀ s, responded lib w e = some s → lookedUp e.update s = none →
    (w.superuser w.server.role = true ↔
      e.superuser (Server.role (w.server.exec e.script)) = true)
  noticed : ∀ s flag, responded lib w e = some s → lookedUp e.update s = some flag →
    (flag = utf8 "t" ↔ e.superuser (Server.role (w.server.exec e.script)) = true)

section Followed

variable {lib : Externals} {w : World} {e : Exchange} {s : Session} {flag : Bytes}

theorem followed_iff_of_refused (h : responded lib w e = none) : Followed lib w e ↔
    (w.superuser w.server.role = true ↔ e.superuser w.server.role = true) := by
  constructor
  · intro hfollowed
    exact hfollowed.refused h
  · intro hrole
    exact ⟨fun _ => hrole, fun s hs => by simp [h] at hs, fun s _ hs => by simp [h] at hs⟩

theorem followed_iff_of_unnoticed (h : responded lib w e = some s)
    (hnone : lookedUp e.update s = none) : Followed lib w e ↔
      (w.superuser w.server.role = true ↔
        e.superuser (Server.role (w.server.exec e.script)) = true) := by
  constructor
  · intro hfollowed
    exact hfollowed.unnoticed s h hnone
  · intro hrole
    refine ⟨fun hs => by simp [h] at hs, fun _ _ _ => hrole, fun s' flag hs hsome => ?_⟩
    obtain rfl := Option.some.inj (h.symm.trans hs)
    simp [hnone] at hsome

theorem followed_iff_of_noticed (h : responded lib w e = some s)
    (hsome : lookedUp e.update s = some flag) : Followed lib w e ↔
      (flag = utf8 "t" ↔ e.superuser (Server.role (w.server.exec e.script)) = true) := by
  constructor
  · intro hfollowed
    exact hfollowed.noticed s flag h hsome
  · intro hrole
    refine ⟨fun hs => by simp [h] at hs, fun s' hs hnone => ?_, fun s' flag' hs hsome' => ?_⟩
    · obtain rfl := Option.some.inj (h.symm.trans hs)
      simp [hsome] at hnone
    · obtain rfl := Option.some.inj (h.symm.trans hs)
      obtain rfl := Option.some.inj (hsome.symm.trans hsome')
      exact hrole

end Followed

section Plugin

variable {lib : Externals} {io : Io} {s : Session}

theorem parameter_setParameter (name : String) (value : Bytes) :
    (s.setParameter (utf8 name) value).parameter name = value := by
  simp [Session.parameter, Session.setParameter]

theorem parameter_setParameter_of_ne {name other : String} (h : utf8 name ≠ utf8 other)
    (value : Bytes) : (s.setParameter (utf8 other) value).parameter name = s.parameter name := by
  simp [Session.parameter, Session.setParameter, Function.update_of_ne h]

theorem parameter_congr {s' : Session} (h : s'.parameters = s.parameters) (name : String) :
    s'.parameter name = s.parameter name := by
  rw [Session.parameter, h, Session.parameter]

theorem rolsuper_updateParametersPlugIn :
    wp (updateParametersPlugIn lib io)
      (fun _ s' => s'.parameter "rolsuper" = (lookedUp io s).getD (s.parameter "rolsuper"))
      (fun _ s' => s'.parameter "rolsuper" = (lookedUp io s).getD (s.parameter "rolsuper")) s := by
  simp only [updateParametersPlugIn, wp_bind, wp_state, wp_ite, wp_pure]
  refine ⟨fun hvalid => by rw [lookedUp, named, if_pos hvalid]; rfl, fun hvalid => ?_⟩
  rw [lookedUp, named, if_neg hvalid]
  cases findNode "VariableSetStmt" s.context.query.json with
  | none => rfl
  | some n =>
      simp only [wp_bind, wp_onQuery, wp_ite, wp_pure, wp_modify, wp_ofExcept]
      refine ⟨fun name json hname => ?_, fun e hname => by rw [hname]; rfl⟩
      simp only [hname]
      refine ⟨fun hrole => by rw [if_pos hrole]; rfl, fun hrole => ?_⟩
      rw [if_neg hrole]
      refine ⟨fun hbyte => by rw [if_pos hbyte]; rfl, fun hbyte => ?_⟩
      rw [if_neg hbyte]
      refine ⟨fun user json' huser => ?_, fun e huser => by rw [huser]; rfl⟩
      rw [huser]
      have hne : utf8 "rolsuper" ≠ utf8 "user" := by decide +kernel
      refine ⟨fun rolsuper hrow => ?_, fun f hrow => ?_⟩
      · rw [parameter_setParameter]
        simp [Except.toOption, hrow]
      · rw [parameter_setParameter_of_ne hne]
        simp [Except.toOption, hrow]
        rfl

theorem rolsuper_initiate (hinitiated : s.context.initiated = false) :
    wp (initiate io)
      (fun _ s' => s'.context.initiated = true → ∃ rolsuper,
        io.exec1 (rolsuperQuery (s'.parameter "user")) = .ok rolsuper ∧
          s'.parameter "rolsuper" = cString rolsuper)
      (fun _ _ => True) s := by
  have hne : utf8 "user" ≠ utf8 "rolsuper" := by decide +kernel
  simp only [wp_initiate]
  refine ⟨fun _ h => absurd (hinitiated.symm.trans h) (by simp), fun _ =>
    ⟨fun parameters _ => ⟨fun rolsuper hrow _ => ?_, fun _ _ => trivial⟩, fun _ _ => trivial⟩⟩
  generalize List.foldl _ s _ = started at hrow ⊢
  have hcongr (name : String) :
      ({ started.setParameter (utf8 "rolsuper") (cString rolsuper) with
        context.initiated := true } : Session).parameter name =
      (started.setParameter (utf8 "rolsuper") (cString rolsuper)).parameter name :=
    parameter_congr rfl name
  refine ⟨rolsuper, ?_, (hcongr _).trans (parameter_setParameter "rolsuper" _)⟩
  rw [hcongr, parameter_setParameter_of_ne hne, hrow]

theorem parameters_updateSchemaPlugIn :
    wp (updateSchemaPlugIn lib) (fun _ s' => s'.parameters = s.parameters)
      (fun _ s' => s'.parameters = s.parameters) s := by
  simp only [updateSchemaPlugIn, wp_bind, wp_state, wp_ite, wp_pure]
  refine ⟨fun _ => trivial, fun _ => ⟨fun _ => trivial, fun _ => ?_⟩⟩
  cases findNode "CreateStmt" s.context.query.json with
  | none => rfl
  | some n => simp only [wp_bind, wp_onQuery, wp_pure, wp_modify, implies_true, and_self]

theorem rolsuper_applyPostResponsePlugins :
    wp (applyPostResponsePlugins lib io)
      (fun _ s' => s'.parameter "rolsuper" = (lookedUp io s).getD (s.parameter "rolsuper"))
      (fun _ _ => True) s := by
  refine wp_mono (wp_applyPostResponsePlugins (Q := fun s' =>
    s'.parameter "rolsuper" = (lookedUp io s).getD (s.parameter "rolsuper")) ?_)
    (fun _ _ h => h.2) fun _ _ h => h
  refine wp_mono rolsuper_updateParametersPlugIn (fun _ s₁ h₁ => ?_) fun _ _ h _ _ _ => h
  exact wp_mono parameters_updateSchemaPlugIn (fun _ _ h => (parameter_congr h _).trans h₁)
    fun _ _ h _ _ _ => (parameter_congr h _).trans h₁

end Plugin

section Steps

variable {lib : Externals} {w w' : World} {e : Exchange} {s s' : Session} {io io₁ io₂ io₃ : Io}

/-- The session waits for a request after its startup. -/
structure Ready (s : Session) : Prop where
  current : s.current = some .prepareToReceiveRequest
  initiated : s.context.initiated = true

theorem exists_of_act (h : act lib io₁ io₂ io₃ s = some s') :
    ∃ s₁ s₂, takeAction lib io₁ s = .ok s₁ ∧ takeAction lib io₂ s₁ = .ok s₂ ∧
      takeAction lib io₃ s₂ = .ok s' := by
  obtain ⟨s₁, h₁, h⟩ := Option.bind_eq_some_iff.mp h
  obtain ⟨s₂, h₂, h₃⟩ := Option.bind_eq_some_iff.mp h
  exact ⟨s₁, s₂, eq_ok_of_toOption h₁, eq_ok_of_toOption h₂, eq_ok_of_toOption h₃⟩

theorem kept_step {state : SessionState} {P : Option SessionState → Prop}
    (hcurrent : s.current = none ∨ s.current = some state) (hinitiate : state ≠ .initiate)
    (hpost : state ≠ .applyPostResponsePlugins) (hnone : P none)
    (hnext : ∀ next ∈ successors s.context.initiated state, P next)
    (htake : takeAction lib io s = .ok s') : Kept s s' ∧ P s'.current := by
  rcases hcurrent with hcurrent | hcurrent
  · rw [takeAction, hcurrent] at htake
    obtain rfl := Except.ok.inj htake
    exact ⟨.refl s, hcurrent ▸ hnone⟩
  · exact ⟨kept_takeAction hcurrent hinitiate hpost htake,
      hnext _ (current_mem_successors hcurrent htake)⟩

theorem goes_on {state : SessionState} (next : SessionState)
    (hcurrent : s.current = none ∨ s.current = some state) (hinitiate : state ≠ .initiate)
    (hpost : state ≠ .applyPostResponsePlugins)
    (hnext : ∀ x ∈ successors s.context.initiated state, x = none ∨ x = some next)
    (htake : takeAction lib io s = .ok s') :
    Kept s s' ∧ (s'.current = none ∨ s'.current = some next) :=
  kept_step hcurrent hinitiate hpost (.inl rfl) hnext htake

theorem checked_spec (hready : Ready w.session) (h : checked lib w e = some s) :
    s.parameters = w.session.parameters ∧ s.context.initiated = true ∧
      (s.current = none ∨ s.current = some .prepareToForwardRequest ∨
        s.current = some .prepareToForwardResponse) := by
  obtain ⟨s₁, s₂, h₁, h₂, h₃⟩ := exists_of_act h
  have hinitiated : ({ w.session with st := e.st } : Session).context.initiated = true :=
    hready.initiated
  obtain ⟨hkept₁, hcurrent₁⟩ := goes_on .receiveRequest
    (s := { w.session with st := e.st }) (.inr hready.current) (by simp) (by simp)
    (by simp [successors]) h₁
  rw [← hkept₁.initiated] at hinitiated
  obtain ⟨hkept₂, hcurrent₂⟩ := goes_on .applyPreRequestPlugins hcurrent₁ (by simp) (by simp)
    (by simp [successors, hinitiated]) h₂
  obtain ⟨hkept₃, hcurrent₃⟩ := kept_step
    (P := fun next => next = none ∨ next = some .prepareToForwardRequest ∨
      next = some .prepareToForwardResponse)
    hcurrent₂ (by simp) (by simp) (by simp) (by simp [successors]) h₃
  have hkept := hkept₁.trans (hkept₂.trans hkept₃)
  exact ⟨hkept.parameters, hkept.initiated.trans hready.initiated, hcurrent₃⟩

theorem respond_spec {ios : List Io} (h : respond lib ios s = some s') :
    s'.parameters = s.parameters ∧ s'.context.initiated = s.context.initiated ∧
      s'.current = some .applyPostResponsePlugins := by
  induction ios generalizing s with
  | nil =>
      rw [respond] at h
      split at h
      · rename_i hcurrent
        obtain rfl := Option.some.inj h
        exact ⟨rfl, rfl, hcurrent⟩
      · simp at h
  | cons io ios ih =>
      rw [respond] at h
      split at h
      · rename_i hcurrent
        obtain ⟨s₁, h₁, h⟩ := Option.bind_eq_some_iff.mp h
        have hkept := kept_takeAction hcurrent (by simp) (by simp) (eq_ok_of_toOption h₁)
        obtain ⟨hparameters, hinitiated, hcurrent'⟩ := ih h
        exact ⟨hparameters.trans hkept.parameters, hinitiated.trans hkept.initiated, hcurrent'⟩
      · simp at h

theorem responded_spec (hready : Ready w.session) (h : responded lib w e = some s) :
    s.parameters = w.session.parameters ∧ s.context.initiated = true ∧
      s.current = some .applyPostResponsePlugins := by
  obtain ⟨s₀, h₀, h⟩ := Option.bind_eq_some_iff.mp h
  obtain ⟨hparameters, hinitiated, -⟩ := checked_spec hready h₀
  split at h
  · rename_i hcurrent
    obtain ⟨s₃, h₃, h⟩ := Option.bind_eq_some_iff.mp h
    obtain ⟨s₄, h₄, h⟩ := Option.bind_eq_some_iff.mp h
    obtain rfl := Option.some.inj h
    obtain ⟨s₁, s₂, h₁, h₂, h₃⟩ := exists_of_act h₃
    obtain ⟨hkept₁, hcurrent₁⟩ := goes_on .forwardRequest (.inr hcurrent) (by simp) (by simp)
      (by simp [successors]) h₁
    obtain ⟨hkept₂, hcurrent₂⟩ := goes_on .prepareToReceiveResponse hcurrent₁ (by simp) (by simp)
      (by simp [successors]) h₂
    obtain ⟨hkept₃, -⟩ := kept_step (P := fun _ => True)
      hcurrent₂ (by simp) (by simp) trivial (by simp) h₃
    have hkept := hkept₁.trans (hkept₂.trans hkept₃)
    obtain ⟨hparameters', hinitiated', hcurrent'⟩ := respond_spec h₄
    exact ⟨hparameters'.trans (hkept.parameters.trans hparameters),
      hinitiated'.trans (hkept.initiated.trans hinitiated), hcurrent'⟩
  · simp at h

theorem returned_spec (hcurrent : s.current = some .prepareToForwardResponse)
    (h : act lib io₁ io₂ io₃ s = some s') :
    s'.parameters = s.parameters ∧ s'.context.initiated = s.context.initiated := by
  obtain ⟨s₁, s₂, h₁, h₂, h₃⟩ := exists_of_act h
  obtain ⟨hkept₁, hcurrent₁⟩ := goes_on .forwardResponse (.inr hcurrent) (by simp) (by simp)
    (by simp [successors]) h₁
  obtain ⟨hkept₂, hcurrent₂⟩ := goes_on .resetContext hcurrent₁ (by simp) (by simp)
    (by simp [successors]) h₂
  obtain ⟨hkept₃, -⟩ := kept_step (P := fun _ => True)
    hcurrent₂ (by simp) (by simp) trivial (by simp) h₃
  have hkept := hkept₁.trans (hkept₂.trans hkept₃)
  exact ⟨hkept.parameters, hkept.initiated⟩

theorem updated_spec (hready : Ready w.session) (hresponded : responded lib w e = some s)
    (htake : takeAction lib io s = .ok s') :
    s'.context.initiated = true ∧ s'.current = some .prepareToForwardResponse ∧
      s'.parameter "rolsuper" = (lookedUp io s).getD (w.session.parameter "rolsuper") := by
  obtain ⟨hparameters, hinitiated, hcurrent⟩ := responded_spec hready hresponded
  have hnext := current_mem_successors hcurrent htake
  obtain ⟨next, t, ⟨hinitiated', hrolsuper⟩, rfl⟩ := exists_of_takeAction hcurrent
    (wp_and (initiated_action (by simp) s) rolsuper_applyPostResponsePlugins) htake
  refine ⟨hinitiated'.trans hinitiated, List.mem_singleton.mp hnext, ?_⟩
  rw [parameter_congr hparameters] at hrolsuper
  exact hrolsuper

theorem answered_spec {server : Server} (hready : Ready w.session)
    (h : answered lib w e = some (s, server)) :
    s.context.initiated = true ∧ s.current = some .prepareToForwardResponse ∧
      (responded lib w e = none ∧ s.parameter "rolsuper" = w.session.parameter "rolsuper" ∧
          server = w.server ∨
        ∃ s₁, responded lib w e = some s₁ ∧ server = w.server.exec e.script ∧
          s.parameter "rolsuper" =
            (lookedUp e.update s₁).getD (w.session.parameter "rolsuper")) := by
  obtain ⟨s₀, h₀, h⟩ := Option.bind_eq_some_iff.mp h
  obtain ⟨hparameters, hinitiated, -⟩ := checked_spec hready h₀
  split at h
  · rename_i hcurrent
    obtain ⟨rfl, rfl⟩ := Prod.mk.inj (Option.some.inj h)
    refine ⟨hinitiated, hcurrent, .inl ⟨?_, parameter_congr hparameters _, rfl⟩⟩
    rw [responded, h₀]
    exact if_neg (by rw [hcurrent]; simp)
  · obtain ⟨s₁, h₁, h⟩ := Option.bind_eq_some_iff.mp h
    obtain ⟨s₂, h₂, h⟩ := Option.bind_eq_some_iff.mp h
    obtain ⟨rfl, rfl⟩ := Prod.mk.inj (Option.some.inj h)
    obtain ⟨hinitiated', hcurrent, hrolsuper⟩ :=
      updated_spec hready h₁ (eq_ok_of_toOption h₂)
    exact ⟨hinitiated', hcurrent, .inr ⟨s₁, h₁, rfl, hrolsuper⟩⟩

theorem exchange_spec (hready : Ready w.session) (h : exchange lib w e = some w') :
    Ready w'.session ∧ w'.superuser = e.superuser ∧
      (responded lib w e = none ∧
          w'.session.parameter "rolsuper" = w.session.parameter "rolsuper" ∧
          w'.server = w.server ∨
        ∃ s, responded lib w e = some s ∧ w'.server = w.server.exec e.script ∧
          w'.session.parameter "rolsuper" =
            (lookedUp e.update s).getD (w.session.parameter "rolsuper")) := by
  obtain ⟨⟨s, server⟩, hanswered, h⟩ := Option.bind_eq_some_iff.mp h
  obtain ⟨s', hreturned, h⟩ := Option.bind_eq_some_iff.mp h
  obtain ⟨hinitiated, hcurrent, hcases⟩ := answered_spec hready hanswered
  obtain ⟨hparameters, hinitiated'⟩ := returned_spec hcurrent hreturned
  split at h
  · rename_i hidle
    obtain rfl := Option.some.inj h
    refine ⟨⟨hidle, hinitiated'.trans hinitiated⟩, rfl, ?_⟩
    rw [parameter_congr hparameters]
    exact hcases
  · simp at h

theorem right_exchange (hready : Ready w.session) (hright : Right w)
    (h : exchange lib w e = some w') : Right w' ↔ Followed lib w e := by
  obtain ⟨-, hsuperuser, hcases⟩ := exchange_spec hready h
  rw [Right] at hright ⊢
  rw [hsuperuser]
  rcases hcases with ⟨hnone, hkept, hserver⟩ | ⟨s, hsome, hserver, hupdated⟩
  · rw [followed_iff_of_refused hnone, hkept, hserver, hright]
  · rw [hupdated, hserver]
    cases hlookedUp : lookedUp e.update s with
    | some flag => rw [followed_iff_of_noticed hsome hlookedUp, Option.getD_some]
    | none => rw [followed_iff_of_unnoticed hsome hlookedUp, Option.getD_none, hright]

end Steps

section Runs

variable (lib : Externals)

def next (w : Option World) (e : Exchange) : Option World :=
  w.bind fun w => exchange lib w e

/-- After each completed request the session knows whether the role in effect is a superuser. -/
def RightThroughout (w : World) (es : List Exchange) : Prop :=
  Always (next lib) (some w) (fun w => ∀ w' ∈ w, Right w') es

/-- Every exchange of the run is one that the session can follow. -/
def FollowedThroughout (w : World) (es : List Exchange) : Prop :=
  AtEachStep (next lib) (some w)
    (fun w e => ∀ w' ∈ w, (exchange lib w' e).isSome → Followed lib w' e) es

theorem rightThroughout_iff_followed (w : World) (es : List Exchange) (hready : Ready w.session) :
    RightThroughout lib w es ↔ Right w ∧ FollowedThroughout lib w es := by
  have hfirst : RightThroughout lib w es → Right w := fun h => h [] es rfl w rfl
  suffices hruns : Right w → (RightThroughout lib w es ↔ FollowedThroughout lib w es) from
    ⟨fun h => ⟨hfirst h, (hruns (hfirst h)).mp h⟩, fun h => (hruns h.1).mpr h.2⟩
  intro hright
  refine always_iff_atEachStep (I := fun w => ∀ w' ∈ w, Ready w'.session) ?_ ?_ ?_ ?_ es
  · intro w' hw'
    exact Option.some.inj hw' ▸ hready
  · intro w e hall w'' hw''
    obtain ⟨w', hw', h⟩ := Option.bind_eq_some_iff.mp hw''
    exact (exchange_spec (hall w' hw') h).1
  · intro w' hw'
    exact Option.some.inj hw' ▸ hright
  · intro w e hready hright
    constructor
    · intro hall w' hw' hsome
      obtain ⟨w'', h⟩ := Option.isSome_iff_exists.mp hsome
      refine (right_exchange (hready w' hw') (hright w' hw') h).mp (hall w'' ?_)
      exact Option.bind_eq_some_iff.mpr ⟨w', hw', h⟩
    · intro hall w'' hw''
      obtain ⟨w', hw', h⟩ := Option.bind_eq_some_iff.mp hw''
      exact (right_exchange (hready w' hw') (hright w' hw') h).mpr
        (hall w' hw' (Option.isSome_iff_exists.mpr ⟨w'', h⟩))

end Runs

section Requests

variable {lib : Externals} {w : World} {e : Exchange} {s : Session} {a : Authorization}

def tree (stmt : Json) : Json :=
  .obj [("stmts", .arr [.obj [("stmt", stmt)]]), ("version", .num "130003")]

def setRoleStmt (role : String) : Json :=
  ParseTree.node "VariableSetStmt"
    [("args", .arr [ParseTree.node "A_Const" [("location", .num "9"), ("val", ParseTree.stringNode role)]]),
      ("kind", .str "VAR_SET_VALUE"), ("name", .str "role")]

def transactionStmt (kind : String) : Json :=
  ParseTree.node "TransactionStmt" [("kind", .str kind)]

theorem named_setRole {role : String} (hquery : s.context.query = ⟨true, tree (setRoleStmt role)⟩)
    (hbyte : s.context.response.byteAt 0 = 67) : named s = some role := by
  rw [named, hquery, hbyte]
  rfl

theorem commands_setRole {role : String} (hrole : role ≠ "none") :
    commands (tree (setRoleStmt role)) = [.assign false (.setRole (some (utf8 role)))] := by
  have hread : commands (tree (setRoleStmt role)) =
      [.assign false (.setRole (if role = "none" then none else some (utf8 role)))] := rfl
  rw [hread, if_neg hrole]

/-- A lone `SET ROLE` outside a transaction block is followed. -/
theorem followed_setRole {role : String} (rolsuper : Bytes) (hserver : w.server = .idle a)
    (hresponded : responded lib w e = some s)
    (hquery : s.context.query = ⟨true, tree (setRoleStmt role)⟩)
    (hbyte : s.context.response.byteAt 0 = 67)
    (hrole : role ≠ "none") (hscript : e.script = commands (tree (setRoleStmt role)))
    (hrow : e.update.exec1 (rolsuperQuery (utf8 role)) = .ok rolsuper)
    (hflag : cString rolsuper = utf8 "t" ↔ e.superuser (utf8 role) = true) : Followed lib w e := by
  have hrole' : Server.role (w.server.exec e.script) = utf8 role := by
    rw [hserver, hscript, commands_setRole hrole, Connection.exec_assign]
    rfl
  have hlookedUp : lookedUp e.update s = some (cString rolsuper) := by
    rw [lookedUp, named_setRole hquery hbyte, Option.bind_some, hrow]
    rfl
  rw [followed_iff_of_noticed hresponded hlookedUp, hrole']
  exact hflag

theorem followed_of_other (hserver : w.server = .idle a) (hscript : ∀ cmd ∈ e.script, cmd = .other)
    (hnamed : ∀ s, responded lib w e = some s → named s = none)
    (hsuperuser : e.superuser w.server.role = w.superuser w.server.role) : Followed lib w e := by
  cases hresponded : responded lib w e with
  | none => rw [followed_iff_of_refused hresponded, hsuperuser]
  | some s =>
      have hlookedUp : lookedUp e.update s = none := by
        rw [lookedUp, hnamed s hresponded, Option.bind_none]
      rw [hserver] at hsuperuser
      rw [followed_iff_of_unnoticed hresponded hlookedUp, hserver,
        Connection.exec_of_other hscript, hsuperuser]

end Requests

section Rollback

def sampleTree (text : Bytes) : Option Json :=
  if text = utf8 "BEGIN" then some (tree (transactionStmt "TRANS_STMT_BEGIN"))
  else if text = utf8 "SET ROLE admin" then some (tree (setRoleStmt "admin"))
  else if text = utf8 "ROLLBACK" then some (tree (transactionStmt "TRANS_STMT_ROLLBACK"))
  else none

def sampleText (json : Json) : Bytes :=
  if json = tree (transactionStmt "TRANS_STMT_BEGIN") then utf8 "BEGIN"
  else if json = tree (setRoleStmt "admin") then utf8 "SET ROLE admin"
  else if json = tree (transactionStmt "TRANS_STMT_ROLLBACK") then utf8 "ROLLBACK"
  else []

theorem length_sampleText (json : Json) : (sampleText json).length < 1073741824 := by
  have hlength : ∀ text ∈ ["BEGIN", "SET ROLE admin", "ROLLBACK"],
      (utf8 text).length < 1073741824 := by
    decide +kernel
  rw [sampleText]
  split_ifs
  · exact hlength _ (by simp)
  · exact hlength _ (by simp)
  · exact hlength _ (by simp)
  · exact Nat.zero_lt_succ _

def roleExternals : Externals where
  translate text := .ok (text, .noError)
  pgQueryParse text := .ok ((sampleTree text).elim (.error ⟨utf8 "syntax error", [], [], 0, 0⟩) .ok)
  deparse json := .ok (sampleText json)
  length_deparse json _ h := Except.ok.inj h ▸ length_sampleText json
  what _ := []
  file := []

/-- A session of the user `tom`, who is no superuser but may become `admin`, who is one. -/
def tomsWorld : World where
  session :=
    { parameters := fun name => if name = utf8 "rolsuper" then some (utf8 "f") else none
      st := .empty
      context := .new true
      current := some .prepareToReceiveRequest }
  server := .idle ⟨utf8 "tom", none, utf8 "tom", none⟩
  superuser user := user = utf8 "admin"

/-- A query of one statement that succeeds; the status is that of the transaction. -/
def succeeding (text tag : String) (status : UInt8) : Exchange where
  st := .empty
  request := receiving (Message.encode ⟨81, utf8 text ++ [0]⟩)
  check := receiving []
  sent := receiving []
  script := ((sampleTree (utf8 text)).map commands).getD []
  responses := [receiving (Message.encode ⟨67, utf8 tag ++ [0]⟩ ++ Message.encode ⟨90, [status]⟩)]
  st' := .empty
  update :=
    { receiving [] with
      exec1 := fun q => .ok (utf8 (if q = rolsuperQuery (utf8 "admin") then "t" else "f")) }
  returned := receiving []
  superuser user := user = utf8 "admin"

def rolledBack : List Exchange :=
  [succeeding "BEGIN" "BEGIN" 84, succeeding "SET ROLE admin" "SET" 84,
    succeeding "ROLLBACK" "ROLLBACK" 73]

theorem ready_tomsWorld : Ready tomsWorld.session := ⟨rfl, rfl⟩

theorem right_tomsWorld : Right tomsWorld := by
  rw [Right]
  decide +kernel

theorem followed_setRoleAdmin :
    Followed roleExternals tomsWorld (succeeding "SET ROLE admin" "SET" 73) := by
  have hresponse : (responded roleExternals tomsWorld (succeeding "SET ROLE admin" "SET" 73)).map
      (fun s => (s.context.query, s.context.response.byteAt 0)) =
        some (⟨true, tree (setRoleStmt "admin")⟩, 67) := by
    decide +kernel
  obtain ⟨s, hresponded, hpair⟩ := Option.map_eq_some_iff.mp hresponse
  obtain ⟨hquery, hbyte⟩ := Prod.mk.inj hpair
  have hscript : (succeeding "SET ROLE admin" "SET" 73).script =
      commands (tree (setRoleStmt "admin")) := by
    have htree : sampleTree (utf8 "SET ROLE admin") = some (tree (setRoleStmt "admin")) := by
      decide +kernel
    rw [succeeding, htree]
    rfl
  have hrow : (succeeding "SET ROLE admin" "SET" 73).update.exec1
      (rolsuperQuery (utf8 "admin")) = .ok (utf8 "t") := by
    decide +kernel
  have hflag : cString (utf8 "t") = utf8 "t" ↔
      (succeeding "SET ROLE admin" "SET" 73).superuser (utf8 "admin") = true := by
    decide +kernel
  have hserver : tomsWorld.server = .idle ⟨utf8 "tom", none, utf8 "tom", none⟩ := rfl
  exact followed_setRole (utf8 "t") hserver hresponded hquery hbyte (by decide) hscript hrow hflag

/-- Of a role that is set outside a transaction the session knows. -/
theorem rightThroughout_setRole :
    RightThroughout roleExternals tomsWorld [succeeding "SET ROLE admin" "SET" 73] := by
  refine (rightThroughout_iff_followed roleExternals tomsWorld _ ready_tomsWorld).mpr
    ⟨right_tomsWorld, ?_⟩
  refine atEachStep_concat.mpr ⟨atEachStep_nil, fun w hw _ => ?_⟩
  have htoms : tomsWorld = w := Option.some.inj hw
  rw [← htoms]
  exact followed_setRoleAdmin

/-- The session goes on to take itself for that of a superuser. -/
theorem not_rightThroughout_rolledBack : Ready tomsWorld.session ∧ Right tomsWorld ∧
    ¬RightThroughout roleExternals tomsWorld rolledBack := by
  refine ⟨ready_tomsWorld, right_tomsWorld, fun h => ?_⟩
  have hend : (rolledBack.foldl (next roleExternals) (some tomsWorld)).map
      (fun w => (w.session.parameter "rolsuper", w.superuser w.server.role)) =
        some (utf8 "t", false) := by
    decide +kernel
  obtain ⟨w, hw, hpair⟩ := Option.map_eq_some_iff.mp hend
  obtain ⟨hparameter, hsuperuser⟩ := Prod.mk.inj hpair
  have hright : Right w := h rolledBack [] (List.append_nil _).symm w hw
  rw [Right, hsuperuser] at hright
  exact Bool.false_ne_true (hright.mp hparameter)

end Rollback

end PgFort.RoleTracking
