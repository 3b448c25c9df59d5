import PgFort.Forwarding

namespace PgFort.Refusals

open PgFort.Framing
open PgFort.JsonTree
open PgFort.KeyedTraversal
open PgFort.Stateful.Action
open PgFort.Conn
open PgFort.Schema
open PgFort.Plugins
open PgFort.StateMachine
open PgFort.Frames
open PgFort.Lives
open PgFort.Forwarding (takeAction_of_send)

/-- The error with which the plug-ins refuse a request: one that a plug-in returns, or that the
session makes of an exception. -/
def refusal (lib : Externals) (io : Io) (s : Session) : Option Conn.Error :=
  match (applyAll (preRequestPlugins lib io) s).1 with
  | .ok err => err
  | .error (.thrown what) => some (internalError what)
  | .error .aborted => none
  | .error .astray => none

/-- How far a session is with its own response, after these turns. In the second it sends the
response, and ends if that fails. -/
def Stage (response : Buffer) (s : Session) : List Io → Prop
  | [] => s.current = some .prepareToForwardResponse ∧ s.context.response = response
  | [_] => s.current = some .forwardResponse ∧ s.context.response = response
  | [_, io] => if io.sent ≤ 0 then s.current = none else s.current = some .resetContext
  | [_, io, _] =>
      if io.sent ≤ 0 then s.current = none
      else s.current = some .prepareToReceiveRequest ∧ s.context = .new s.context.initiated
  | _ => False

/-- What a session keeps while it refuses. -/
structure SameClient (s s' : Session) : Prop where
  parameters : s'.parameters = s.parameters
  initiated : s'.context.initiated = s.context.initiated

theorem SameClient.trans {s s' s'' : Session} (h : SameClient s s') (h' : SameClient s' s'') :
    SameClient s s'' :=
  ⟨h'.parameters.trans h.parameters, h'.initiated.trans h.initiated⟩

theorem sameClient_of_kept {s s' : Session} (h : Kept s s') : SameClient s s' :=
  ⟨h.parameters, h.initiated⟩

section Turns

variable {lib : Externals} {io : Io} {s s' : Session} {err : Conn.Error} {response : Buffer}

theorem wp_refused (h : refusal lib io s = some err) :
    wp (action lib io .applyPreRequestPlugins)
      (fun next t => next = some .prepareToForwardResponse ∧
        answered err = .ok t.context.response ∧ Kept s t)
      (fun _ _ => ∃ f, answered err = .error f) s := by
  have hrewrites : wp (applyAll (preRequestPlugins lib io)) (fun _ => Rewritten s)
      (fun _ => Rewritten s) s := rewrites_applyAll rewrites_preRequestPlugins s
  rw [action, applyPreRequestPlugins, wp_catching, wp_bind, wp]
  rw [refusal] at h
  rw [wp] at hrewrites
  cases happly : applyAll (preRequestPlugins lib io) s with
  | mk r t =>
      rw [happly] at h hrewrites
      have hanswered : ∀ response, answered err = .ok response →
          Kept s { t with context.response := response } := fun response hresponse =>
        Answered.kept ⟨t, err, response, by cases r <;> exact hrewrites,
          (answered_eq_ok.mp hresponse).1, rfl⟩
      cases r with
      | ok err' =>
          obtain rfl : err' = some err := h
          show wp (respondError err >>= _) _ _ _
          rw [wp_bind]
          exact wp_respondError (fun response hresponse =>
            ⟨rfl, hresponse, hanswered response hresponse⟩) fun f hf => by
              rcases fault_of_answered hf with rfl | rfl <;> exact ⟨_, hf⟩
      | error f =>
          cases f with
          | aborted => exact absurd h (by simp)
          | astray => exact absurd h (by simp)
          | thrown what =>
              obtain rfl : internalError what = err := Option.some.inj h
              show wp (respondError _ >>= _) _ _ _
              rw [wp_bind]
              exact wp_respondError (fun response hresponse =>
                ⟨rfl, hresponse, hanswered response hresponse⟩) fun f hf => ⟨f, hf⟩

theorem takeAction_refused (hcurrent : s.current = some .applyPreRequestPlugins)
    (h : refusal lib io s = some err) (hresponse : answered err = .ok response) :
    ∃ s', takeAction lib io s = .ok s' ∧ Stage response s' [] ∧ SameClient s s' := by
  have hwp := wp_refused h
  rw [wp] at hwp
  cases hact : action lib io .applyPreRequestPlugins s with
  | mk r t =>
      rw [hact] at hwp
      cases r with
      | ok next =>
          obtain ⟨rfl, hresponse', hkept⟩ := hwp
          refine ⟨{ t with current := some .prepareToForwardResponse }, ?_, ⟨rfl, ?_⟩, ?_⟩
          · rw [takeAction, hcurrent]
            simp only [hact]
          · exact Except.ok.inj (hresponse'.symm.trans hresponse)
          · exact sameClient_of_kept (hkept.trans ⟨rfl, rfl, rfl⟩)
      | error f =>
          obtain ⟨f', hf'⟩ := hwp
          cases hresponse.symm.trans hf'

theorem answered_of_takeAction (hcurrent : s.current = some .applyPreRequestPlugins)
    (h : refusal lib io s = some err) (htake : takeAction lib io s = .ok s') :
    ∃ response, answered err = .ok response ∧ Stage response s' [] ∧ SameClient s s' := by
  obtain ⟨next, t, ⟨-, hresponse, -⟩, -⟩ := exists_of_takeAction hcurrent (wp_refused h) htake
  obtain ⟨s'', htake', hstage, hsame⟩ := takeAction_refused hcurrent h hresponse
  obtain rfl := Except.ok.inj (htake.symm.trans htake')
  exact ⟨_, hresponse, hstage, hsame⟩

theorem stage_prepared (h : Stage response s []) (htake : takeAction lib io s = .ok s') :
    Stage response s' [io] ∧ handed s = [] ∧ SameClient s s' := by
  obtain ⟨hcurrent, hresponse⟩ := h
  have hkept := kept_takeAction hcurrent (by simp) (by simp) htake
  rw [takeAction, hcurrent] at htake
  rw [← Except.ok.inj htake] at hkept ⊢
  exact ⟨⟨rfl, hresponse⟩, by rw [handed, hcurrent, if_neg (by simp)], sameClient_of_kept hkept⟩

theorem stage_forwarded {first : Io} (h : Stage response s [first])
    (htake : takeAction lib io s = .ok s') :
    Stage response s' [first, io] ∧ handed s = [] ∧ SameClient s s' := by
  have hkept := kept_takeAction h.1 (by simp) (by simp) htake
  refine ⟨?_, by rw [handed, h.1, if_neg (by simp)], sameClient_of_kept hkept⟩
  obtain ⟨t, htake', hnext⟩ := takeAction_of_send lib io h.1 rfl
  obtain rfl := Except.ok.inj (htake.symm.trans htake')
  rw [Stage]
  rcases hnext with ⟨hsent, hnone⟩ | ⟨hsent, hreset⟩
  · rw [if_pos hsent]
    exact hnone
  · rw [if_neg hsent]
    exact hreset

theorem stage_reset {first second : Io} (h : Stage response s [first, second])
    (htake : takeAction lib io s = .ok s') :
    Stage response s' [first, second, io] ∧ handed s = [] ∧ SameClient s s' := by
  have hstage : if second.sent ≤ 0 then s.current = none else s.current = some .resetContext := h
  by_cases hsent : second.sent ≤ 0
  · rw [if_pos hsent] at hstage
    rw [takeAction, hstage] at htake
    obtain rfl := Except.ok.inj htake
    exact ⟨(if_pos hsent).mpr hstage, by rw [handed, hstage, if_neg (by simp)], rfl, rfl⟩
  · rw [if_neg hsent] at hstage
    have hkept := kept_takeAction hstage (by simp) (by simp) htake
    rw [takeAction, hstage] at htake
    rw [← Except.ok.inj htake] at hkept ⊢
    exact ⟨(if_neg hsent).mpr ⟨rfl, rfl⟩, by rw [handed, hstage, if_neg (by simp)],
      sameClient_of_kept hkept⟩

theorem stage_takeAction {ios : List Io} (hios : ios.length < 3) (h : Stage response s ios)
    (htake : takeAction lib io s = .ok s') :
    Stage response s' (ios ++ [io]) ∧ handed s = [] ∧ SameClient s s' := by
  match ios, hios with
  | [], _ => exact stage_prepared h htake
  | [first], _ => exact stage_forwarded h htake
  | [first, second], _ => exact stage_reset h htake

end Turns

section Runs

variable {lib : Externals} {p q : Proxy} {i : Nat} {io : Io} {err : Conn.Error}
  {response : Buffer}

theorem stage_session {ios : List Io} (h : Stage response (p.sessions i) ios) :
    Stage response (p.session i) ios := by
  rcases ios with _ | ⟨_, _ | ⟨_, _ | ⟨_, _ | ⟨_, ios⟩⟩⟩⟩ <;> exact h

/-- What the world answers in the turns of a session. -/
def turnsOf (i : Nat) (turns : List (Nat × Io)) : List Io :=
  (turns.filter fun turn => turn.1 = i).map Prod.snd

/-- However the turns of the sessions are interleaved, the session passes its stages by its own
turns, and its server hears nothing of it. -/
theorem stage_run {turns : List (Nat × Io)} (hstage : Stage response (p.sessions i) [])
    (hrun : run lib p turns = .ok q) (hturns : (turnsOf i turns).length ≤ 3) :
    Stage response (q.sessions i) (turnsOf i turns) ∧ q.toServer i = p.toServer i ∧
      SameClient (p.sessions i) (q.sessions i) := by
  induction turns using List.reverseRecOn generalizing q with
  | nil =>
      obtain rfl := Except.ok.inj hrun
      exact ⟨hstage, rfl, rfl, rfl⟩
  | append_singleton turns turn ih =>
      obtain ⟨j, io⟩ := turn
      have hios : turnsOf i (turns ++ [(j, io)]) =
          turnsOf i turns ++ if j = i then [io] else [] := by
        rw [turnsOf, turnsOf, List.filter_append, List.map_append, List.filter_singleton]
        congr 1
        split <;> simp_all
      rw [hios] at hturns ⊢
      rw [List.length_append] at hturns
      rw [run_concat] at hrun
      obtain ⟨r, hr, hstep⟩ := bind_eq_ok.mp hrun
      obtain ⟨hpre, hserver, hsame⟩ := ih hr (by omega)
      by_cases hj : j = i
      · subst hj
        rw [if_pos rfl] at hturns ⊢
        rw [List.length_singleton] at hturns
        obtain ⟨htake, hserver'⟩ := takeAction_of_step hstep
        obtain ⟨hnext, hhanded, hsame'⟩ := stage_takeAction (by omega) (stage_session hpre) htake
        refine ⟨hnext, ?_, hsame.trans ⟨hsame'.parameters, hsame'.initiated⟩⟩
        rw [hserver', hhanded, List.append_nil, hserver]
      · rw [if_neg hj, List.append_nil]
        have hother : run lib r [(j, io)] = .ok q := bind_eq_ok.mpr ⟨q, hstep, rfl⟩
        obtain ⟨hsession, hserver'⟩ := run_of_others (List.forall_mem_singleton.mpr hj) hother
        rw [hsession, hserver']
        exact ⟨hpre, hserver, hsame⟩

/-- Whatever the other sessions do meanwhile: of the request nothing reaches the server, the client
is offered the error, and the session then is as after any request. -/
structure Refused (lib : Externals) (p : Proxy) (i : Nat) (io : Io) (err : Conn.Error) : Prop where
  contained : (∃ q, StateMachine.step lib p (i, io) = .ok q) ↔
    ∃ response, setError err = some response ∧ printInfo .backend response = .ok ()
  server : ∀ turns q, run lib p ((i, io) :: turns) = .ok q → (turnsOf i turns).length ≤ 3 →
    q.toServer i = p.toServer i
  client : ∀ turns q, run lib p ((i, io) :: turns) = .ok q → (turnsOf i turns).length = 1 →
    ∃ response, setError err = some response ∧
      offered (q.sessions i) = some (.client, response.data)
  /-- The second of the three turns sends the response. -/
  back : ∀ turns q first second third, run lib p ((i, io) :: turns) = .ok q →
    turnsOf i turns = [first, second, third] →
      (second.sent ≤ 0 → (q.sessions i).current = none) ∧
      (0 < second.sent → (q.sessions i).current = some .prepareToReceiveRequest ∧
        (q.sessions i).context = .new (p.sessions i).context.initiated ∧
          (q.sessions i).parameters = (p.sessions i).parameters)

theorem stages_of_refusal (hcurrent : (p.sessions i).current = some .applyPreRequestPlugins)
    (h : refusal lib io (p.session i) = some err) {turns : List (Nat × Io)}
    (hrun : run lib p ((i, io) :: turns) = .ok q) (hturns : (turnsOf i turns).length ≤ 3) :
    ∃ response, answered err = .ok response ∧
      Stage response (q.sessions i) (turnsOf i turns) ∧ q.toServer i = p.toServer i ∧
        SameClient (p.sessions i) (q.sessions i) := by
  obtain ⟨r, hstep, hrun⟩ := bind_eq_ok.mp hrun
  obtain ⟨htake, hserver⟩ := takeAction_of_step hstep
  have hcurrent' : (p.session i).current = some .applyPreRequestPlugins := hcurrent
  obtain ⟨response, hresponse, hstage, hsame⟩ := answered_of_takeAction hcurrent' h htake
  obtain ⟨hlater, hserver', hsame'⟩ := stage_run hstage hrun hturns
  refine ⟨response, hresponse, hlater, ?_, ?_⟩
  · rw [hserver', hserver, handed, hcurrent', if_neg (by simp), List.append_nil]
  · exact SameClient.trans ⟨hsame.parameters, hsame.initiated⟩ hsame'

theorem refused_of_refusal (hcurrent : (p.sessions i).current = some .applyPreRequestPlugins)
    (h : refusal lib io (p.session i) = some err) : Refused lib p i io err where
  contained := by
    constructor
    · rintro ⟨q, hstep⟩
      obtain ⟨response, hresponse, -⟩ :=
        answered_of_takeAction (s := p.session i) hcurrent h (takeAction_of_step hstep).1
      exact ⟨response, answered_eq_ok.mp hresponse⟩
    · rintro ⟨response, hresponse⟩
      obtain ⟨s', htake, -⟩ :=
        takeAction_refused (s := p.session i) hcurrent h (answered_eq_ok.mpr hresponse)
      exact exists_step_of_takeAction htake
  server turns q hrun hturns := by
    obtain ⟨-, -, -, hserver, -⟩ := stages_of_refusal hcurrent h hrun hturns
    exact hserver
  client turns q hrun hturns := by
    obtain ⟨response, hresponse, hstage, -⟩ := stages_of_refusal hcurrent h hrun (by omega)
    obtain ⟨first, hfirst⟩ := List.length_eq_one_iff.mp hturns
    rw [hfirst] at hstage
    obtain ⟨hstate, hbuffer⟩ := hstage
    refine ⟨response, (answered_eq_ok.mp hresponse).1, ?_⟩
    rw [offered, hstate]
    exact congrArg (fun b => some (Peer.client, b.data)) hbuffer
  back turns q first second third hrun hturns := by
    obtain ⟨response, -, hstage, -, hsame⟩ := stages_of_refusal hcurrent h hrun (by simp [hturns])
    rw [hturns, Stage] at hstage
    constructor
    · intro hfails
      rwa [if_pos hfails] at hstage
    · intro hsent
      rw [if_neg (not_le.mpr hsent)] at hstage
      exact ⟨hstage.1, hsame.initiated ▸ hstage.2, hsame.parameters⟩

end Runs

/-- `CREATE TABLE notes (body TEXT)`, without the type of the column. -/
def notesTree : Json :=
  .obj [("stmts", .arr [.obj [("stmt", .obj [("CreateStmt", .obj
    [("relation", .obj [("relname", .str "notes")]),
      ("tableElts", .arr [.obj [("ColumnDef", .obj
        [("colname", .str "body"), ("constraints", .arr [])])]])])])]])]

/-- No text is asked for in what follows. -/
def deparseNothing (_ : Json) : Except Fault Bytes :=
  .error .aborted

theorem length_deparseNothing (json : Json) (text : Bytes) (h : deparseNothing json = .ok text) :
    text.length < 1073741824 :=
  absurd h (by simp [deparseNothing])

/-- The libraries, as they treat that text. -/
def notesExternals : Externals where
  translate text := .ok (text, .noError)
  pgQueryParse _ := .ok (.ok notesTree)
  deparse := deparseNothing
  length_deparse := length_deparseNothing
  what _ := []
  file := []

/-- A superuser's session has received the statement. -/
def notesProxy : Proxy where
  sessions _ :=
    { parameters := fun name => if name = utf8 "rolsuper" then some (utf8 "t") else none
      st := .empty
      context :=
        { Context.new true with request := setQuery (utf8 "CREATE TABLE notes (body TEXT)") }
      current := some .applyPreRequestPlugins }
  st := .empty
  toServer _ := []

theorem refused_notes :
    Refused notesExternals notesProxy 0 (receiving [])
      (invalidTable notesExternals "column \"id\" missing" "272") :=
  refused_of_refusal rfl (by decide +kernel)

end PgFort.Refusals
