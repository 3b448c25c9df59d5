import PgFort.Plugins
import PgFort.Reads

namespace PgFort.StateMachine

open PgFort.Framing
open PgFort.Conn
open PgFort.Reads
open PgFort.Schema
open PgFort.Plugins
open PgFort.Stateful.Action

section Actions

variable (lib : Externals) (io : Io)

/-- What the Prepare actions do: the session is to wait for an event. -/
def awaitEvent (peer : Peer) (events : EpollEvents) (next : SessionState) :
    Action (Option SessionState) := do
  modify fun s => { s with context.ev := some (peer, events), context.waiting := true }
  return some next

/-- What follows a call that received or sent bytes; without any the session ends. -/
def proceed (res : Int) (next : Action (Option SessionState)) : Action (Option SessionState) :=
  if res ≤ 0 then do
    modify fun s => { s with context.errno := io.errno }
    return none
  else next

/-- `context_.waiting_ = false`, and on to a state. -/
def stopWaiting (next : SessionState) : Action (Option SessionState) := do
  modify fun s => { s with context.waiting := false }
  return some next

/-- The names and values of a startup message, up to a name that is empty. -/
def startupParameters (buf : Bytes) : Except Fault (List (Bytes × Bytes)) :=
  match parameterLoop buf rounds 8 with
  | some parameters => .ok parameters
  | none => .error .astray

theorem eq_astray_of_startupParameters {buf : Bytes} {f : Fault}
    (h : startupParameters buf = .error f) : f = .astray := by
  rw [startupParameters] at h
  split at h
  · exact nomatch h
  · exact (Except.error.inj h).symm

/-- The body of the loop in `Initiate`. -/
def setStartupParameter (s : Session) (p : Bytes × Bytes) : Session :=
  let s := s.setParameter p.1 p.2
  if p.1 = utf8 "user" ∧ s.parameters (utf8 "database") = none then
    s.setParameter (utf8 "database") p.2
  else s

/-- `Initiate`. -/
def initiate : Action (Option SessionState) := do
  let s ← state
  if s.context.request.size ≤ 8 then
    return some .prepareToForwardRequest
  else
    let parameters ← ofExcept (startupParameters s.context.request.buf)
    modify fun s => parameters.foldl setStartupParameter s
    let s ← state
    let rolsuper ← ofExcept (io.exec1 (rolsuperQuery (s.parameter "user")))
    modify fun s => s.setParameter (utf8 "rolsuper") (cString rolsuper)
    modify fun s => { s with context.initiated := true }
    return some .prepareToForwardRequest

/-- `PrepareToReceiveRequest`. -/
def prepareToReceiveRequest : Action (Option SessionState) :=
  awaitEvent .client .epollIn .receiveRequest

/-- `ReceiveRequest`. -/
def receiveRequest : Action (Option SessionState) := do
  let s ← state
  let (request, res) := s.context.request.recvFrom io.chunks io.stop
  setRequest request
  -- what is printed of a request lies in its buffer
  proceed io res (stopWaiting (if s.context.initiated then .applyPreRequestPlugins else .initiate))

/-- Apply the plug-ins up to the first that returns an error. -/
def applyAll : List (Action Conn.Error) → Action (Option Conn.Error)
  | [] => return none
  | p :: ps => do
      let err ← p
      if err.isError then return some err else applyAll ps

/-- Apply the plug-ins, whatever they return. -/
def applyEach : List (Action Conn.Error) → Action Unit
  | [] => return ()
  | p :: ps => do
      let _ ← p
      applyEach ps

/-- `PrintInfo`. -/
def printInfo (src : SentBy) (b : Buffer) : Except Fault Unit :=
  if Inside b.buf (printReads b.buf src b.size) ∧ LoopEnds b.buf src ∧ IndexFits b.buf src then
    .ok ()
  else .error .astray

/-- The response to an error, which is printed. -/
def answered (err : Conn.Error) : Except Fault Buffer :=
  match setError err with
  | some response => do
      printInfo .backend response
      return response
  | none => .error .aborted

/-- `context_.response_.SetError(err)`, and `PrintInfo` of the response. -/
def respondError (err : Conn.Error) : Action Unit := do
  setResponse (← ofExcept (answered err))

/-- The error that is made of an exception. -/
def internalError (what : Bytes) : Conn.Error :=
  ⟨[("S", utf8 "ERROR"), ("C", utf8 "XX000"), ("M", what)]⟩

/-- `catch (std::exception& e)`. -/
def onException {α : Type} (handler : Bytes → Action α) : Fault → Option (Action α)
  | .thrown what => some (handler what)
  | .aborted => none
  | .astray => none

/-- `ApplyPreRequestPlugins`. -/
def applyPreRequestPlugins : Action (Option SessionState) :=
  catching
    (do
      match ← applyAll (preRequestPlugins lib io) with
      | some err =>
          respondError err
          return some .prepareToForwardResponse
      | none => return some .prepareToForwardRequest)
    (onException fun what => do
      respondError (internalError what)
      return some .prepareToForwardResponse)

/-- `PrepareToForwardRequest`. -/
def prepareToForwardRequest : Action (Option SessionState) :=
  awaitEvent .server .epollOut .forwardRequest

/-- `ForwardRequest`. -/
def forwardRequest : Action (Option SessionState) :=
  proceed io io.sent (stopWaiting .prepareToReceiveResponse)

/-- `PrepareToReceiveResponse`. -/
def prepareToReceiveResponse : Action (Option SessionState) :=
  awaitEvent .server .epollIn .receiveResponse

/-- The byte so many places before the end of the data. -/
def byteFromEnd (b : Buffer) (n : Nat) : UInt8 :=
  b.byteAt (b.size - n).toNat

/-- `ready_for_query`, which lets all responses of a session pass that is not initiated. -/
def readyForQuery (initiated : Bool) (b : Buffer) : Except Fault Bool :=
  if !initiated then .ok true
  else if Inside b.buf (readyReads b.buf b.size) then
    .ok (b.byteAt 0 == 82 ||
      (byteFromEnd b 6 == 90 && byteFromEnd b 5 == 0 && byteFromEnd b 4 == 0 &&
        byteFromEnd b 3 == 0 && byteFromEnd b 2 == 5 &&
        (byteFromEnd b 1 == 73 || byteFromEnd b 1 == 84 || byteFromEnd b 1 == 69)))
  else .error .astray

/-- Print a response, and tell whether it is at its end. -/
def inspect (initiated : Bool) (b : Buffer) : Except Fault Bool := do
  printInfo .backend b
  readyForQuery initiated b

/-- `ReceiveResponse`. -/
def receiveResponse : Action (Option SessionState) := do
  let s ← state
  let (response, res) := s.context.response.recvFrom io.chunks io.stop
  setResponse response
  proceed io res do
    let ready ← ofExcept (inspect s.context.initiated response)
    if ready then stopWaiting .applyPostResponsePlugins else return some .receiveResponse

/-- `ApplyPostResponsePlugins`. -/
def applyPostResponsePlugins : Action (Option SessionState) := do
  catching (applyEach (postResponsePlugins lib io))
    (onException fun what => respondError (internalError what))
  return some .prepareToForwardResponse

/-- `PrepareToForwardResponse`. -/
def prepareToForwardResponse : Action (Option SessionState) :=
  awaitEvent .client .epollOut .forwardResponse

/-- `ForwardResponse`. -/
def forwardResponse : Action (Option SessionState) :=
  proceed io io.sent (stopWaiting .resetContext)

/-- `ResetContext`. -/
def resetContext : Action (Option SessionState) := do
  modify fun s => { s with context := .new s.context.initiated }
  return some .prepareToReceiveRequest

/-- The action of a state. -/
def action : SessionState → Action (Option SessionState)
  | .initiate => initiate io
  | .prepareToReceiveRequest => prepareToReceiveRequest
  | .receiveRequest => receiveRequest io
  | .applyPreRequestPlugins => applyPreRequestPlugins lib io
  | .prepareToForwardRequest => prepareToForwardRequest
  | .forwardRequest => forwardRequest io
  | .prepareToReceiveResponse => prepareToReceiveResponse
  | .receiveResponse => receiveResponse io
  | .applyPostResponsePlugins => applyPostResponsePlugins lib io
  | .prepareToForwardResponse => prepareToForwardResponse
  | .forwardResponse => forwardResponse io
  | .resetContext => resetContext

/-- `StateMachine::TakeAction`. A fault leaves it, and with it the proxy ends. -/
def takeAction (s : Session) : Except Fault Session :=
  match s.current with
  | none => .ok s
  | some state =>
      match action lib io state s with
      | (.ok next, s') => .ok { s' with current := next }
      | (.error f, _) => .error f

end Actions

section Rules

variable {lib : Externals} {io : Io} {s s' : Session}
  {Q : Option SessionState → Session → Prop} {E : Fault → Session → Prop}

theorem wp_stopWaiting {next : SessionState} :
    wp (stopWaiting next) Q E = fun s => Q (some next) { s with context.waiting := false } := rfl

theorem wp_proceed {res : Int} {next : Action (Option SessionState)} :
    wp (proceed io res next) Q E = fun s =>
      (res ≤ 0 → Q none { s with context.errno := io.errno }) ∧ (¬ res ≤ 0 → wp next Q E s) := by
  rw [proceed, wp_ite]
  rfl

theorem wp_initiate :
    wp (initiate io) Q E = fun s =>
      (s.context.request.size ≤ 8 → Q (some .prepareToForwardRequest) s) ∧
      (¬ s.context.request.size ≤ 8 →
        (∀ parameters, startupParameters s.context.request.buf = .ok parameters →
          let started := parameters.foldl setStartupParameter s
          let query := rolsuperQuery (started.parameter "user")
          (∀ rolsuper, io.exec1 query = .ok rolsuper →
            Q (some .prepareToForwardRequest) {
              started.setParameter (utf8 "rolsuper") (cString rolsuper) with
              context.initiated := true }) ∧
          ∀ f, io.exec1 query = .error f → E f started) ∧
        ∀ f, startupParameters s.context.request.buf = .error f → E f s) := by
  simp only [initiate, wp_bind, wp_state, wp_ite, wp_pure, wp_modify, wp_ofExcept]

theorem wp_receiveRequest :
    wp (receiveRequest io) Q E = fun s =>
      let received := s.context.request.recvFrom io.chunks io.stop
      (received.2 ≤ 0 →
        Q none { s with context.request := received.1, context.errno := io.errno }) ∧
      (¬ received.2 ≤ 0 →
        Q (some (if s.context.initiated then .applyPreRequestPlugins else .initiate))
          { s with context.request := received.1, context.waiting := false }) := by
  simp only [receiveRequest, wp_bind, wp_state, wp_setRequest, wp_proceed, wp_stopWaiting]

theorem wp_forwardRequest :
    wp (forwardRequest io) Q E = fun s =>
      (io.sent ≤ 0 → Q none { s with context.errno := io.errno }) ∧
      (¬ io.sent ≤ 0 → Q (some .prepareToReceiveResponse) { s with context.waiting := false }) := by
  rw [forwardRequest, wp_proceed, wp_stopWaiting]

theorem wp_receiveResponse :
    wp (receiveResponse io) Q E = fun s =>
      let received := s.context.response.recvFrom io.chunks io.stop
      (received.2 ≤ 0 →
        Q none { s with context.response := received.1, context.errno := io.errno }) ∧
      (¬ received.2 ≤ 0 →
        (∀ ready, inspect s.context.initiated received.1 = .ok ready →
          (ready = true → Q (some .applyPostResponsePlugins)
            { s with context.response := received.1, context.waiting := false }) ∧
          (¬ ready = true → Q (some .receiveResponse) { s with context.response := received.1 })) ∧
        ∀ f, inspect s.context.initiated received.1 = .error f →
          E f { s with context.response := received.1 }) := by
  simp only [receiveResponse, wp_bind, wp_state, wp_setResponse, wp_proceed, wp_ite,
    wp_stopWaiting, wp_pure, wp_ofExcept]

theorem wp_forwardResponse :
    wp (forwardResponse io) Q E = fun s =>
      (io.sent ≤ 0 → Q none { s with context.errno := io.errno }) ∧
      (¬ io.sent ≤ 0 → Q (some .resetContext) { s with context.waiting := false }) := by
  rw [forwardResponse, wp_proceed, wp_stopWaiting]

theorem exists_of_takeAction {state : SessionState} (hcurrent : s.current = some state)
    (h : wp (action lib io state) Q E s) (htake : takeAction lib io s = .ok s') :
    ∃ next t, Q next t ∧ s' = { t with current := next } := by
  rw [takeAction, hcurrent] at htake
  simp only at htake
  cases hact : action lib io state s with
  | mk r t =>
      rw [hact] at htake
      cases r with
      | ok next => exact ⟨next, t, of_wp_ok h hact, (Except.ok.inj htake).symm⟩
      | error f => simp at htake

theorem fault_of_takeAction {state : SessionState} (hcurrent : s.current = some state)
    (h : wp (action lib io state) Q E s) {f : Fault} (htake : takeAction lib io s = .error f) :
    ∃ t, E f t := by
  rw [takeAction, hcurrent] at htake
  simp only at htake
  cases hact : action lib io state s with
  | mk r t =>
      rw [hact] at htake
      cases r with
      | ok next => simp at htake
      | error f' => exact ⟨t, Except.error.inj htake ▸ of_wp_error h hact⟩

end Rules

/-- A session as it is made. -/
def Session.new (st : SchemaTracker) : Session where
  parameters _ := none
  st
  context := .new false
  current := some .prepareToReceiveRequest

/-- The sessions with the tracker that they share, and all that each has handed to
`ServerConn::ForwardRequest` so far. -/
structure Proxy where
  sessions : Nat → Session
  st : SchemaTracker
  toServer : Nat → Bytes

/-- What the session's next action hands to `ServerConn::ForwardRequest`. -/
def handed (s : Session) : Bytes :=
  if s.current = some .forwardRequest then s.context.request.data else []

/-- The session as it finds the tracker. -/
def Proxy.session (p : Proxy) (i : Nat) : Session :=
  { p.sessions i with st := p.st }

/-- The turn of a session among those of the proxy. -/
def step (lib : Externals) (p : Proxy) (turn : Nat × Io) : Except Fault Proxy := do
  let s ← takeAction lib turn.2 (p.session turn.1)
  return {
    sessions := Function.update p.sessions turn.1 s
    st := s.st
    toServer := Function.update p.toServer turn.1 (p.toServer turn.1 ++ handed (p.session turn.1)) }

/-- The turns of sessions, in any order. -/
def run (lib : Externals) (p : Proxy) (turns : List (Nat × Io)) : Except Fault Proxy :=
  turns.foldlM (step lib) p

/-- A turn in which these bytes are received, or something is sent. -/
def receiving (batch : Bytes) : Io where
  chunks := [batch]
  stop := .wouldBlock
  sent := 1
  errno := 0
  exec1 _ := .ok []
  exec _ := .sqlError

theorem run_concat (lib : Externals) (p : Proxy) (turns : List (Nat × Io)) (turn : Nat × Io) :
    run lib p (turns ++ [turn]) = run lib p turns >>= fun q => step lib q turn := by
  rw [run, run, List.foldlM_append]
  simp [List.foldlM]

end PgFort.StateMachine
