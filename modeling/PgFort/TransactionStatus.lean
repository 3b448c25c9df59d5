import PgFort.Receipts
import PgFort.ResponseEnds

namespace PgFort.TransactionStatus

open PgFort.Framing
open PgFort.JsonTree
open PgFort.KeyedTraversal
open PgFort.Conn
open PgFort.Schema
open PgFort.Plugins
open PgFort.StateMachine
open PgFort.Frames
open PgFort.Runs
open PgFort.Lives
open PgFort.Batches
open PgFort.Receipts
open PgFort.ResponseEnds

inductive Status where
  | idle
  | inTransaction
  | failed
  deriving DecidableEq, Repr

def Status.byte : Status → UInt8
  | idle => 73
  | inTransaction => 84
  | failed => 69

def readyMessage (status : Status) : Bytes :=
  (Message.mk 90 [status.byte]).encode

/-- What a server has sent: a `ReadyForQuery`, or anything else. -/
inductive Sent where
  | ready (status : Status)
  | other (bytes : Bytes)
  deriving DecidableEq, Repr

def Sent.encode : Sent → Bytes
  | ready status => readyMessage status
  | other bytes => bytes

/-- A session with its server, whose stream has come in up to some point. -/
structure World where
  session : Session
  status : Status
  sent : List Sent
  arrived : Bytes

inductive Event where
  | acts (turn : Turn)
  | executes (status : Status)
  | sends (bytes : Bytes)
  | reports

def arriving (s : Session) (turn : Turn) : Bytes :=
  if s.current = some .receiveResponse then turn.io.chunks.flatten else []

/-- What an event does to the session and to its server. -/
def react (lib : Externals) (w : World) : Event → Except Fault World
  | .acts turn => do
      let session ← act lib w.session turn
      return { w with session, arrived := w.arrived ++ arriving w.session turn }
  | .executes status => return { w with status }
  | .sends bytes => return { w with sent := w.sent ++ [.other bytes] }
  | .reports => return { w with sent := w.sent ++ [.ready w.status] }

/-- A session before its first turn, and a server outside of a transaction. -/
def World.new (st : SchemaTracker) : World :=
  ⟨Session.new st, .idle, [], []⟩

/-- `recv` returns what the server has sent, and no more than there is room for. -/
def Delivered (w : World) : Event → Prop
  | .acts turn => w.session.current = some .receiveResponse →
      Fits w.session.context.response.restore turn.io.chunks ∧
        w.arrived ++ turn.io.chunks.flatten <+: w.sent.flatMap Sent.encode
  | _ => True

/-- The response is handed to the client. -/
def Forwards (w : World) : Event → Prop
  | .acts turn => w.session.current = some .forwardResponse ∧ 0 < turn.io.sent
  | _ => False

/-- The session has written the response by hand. -/
def Written (w : World) : Prop :=
  w.session.context.response.bufSize = 0

/-- The server's stream has come in up to the end of a `ReadyForQuery`. -/
def ReadyArrived (w : World) (status : Status) : Prop :=
  ∃ done rest, w.sent = done ++ .ready status :: rest ∧
    w.arrived = (done ++ [.ready status]).flatMap Sent.encode

/-- The response ends with a `ReadyForQuery`, written by the session or sent by the server. -/
structure EndsInReady (w : World) : Prop where
  response : ∃ status, readyMessage status <:+ w.session.context.response.data
  received : ¬Written w → ∃ status, ReadyArrived w status

/-- The client is told the server's status. -/
def ToldStatus (w : World) (e : Event) : Prop :=
  Forwards w e → EndsInReady w →
    w.session.context.response.data.getLast? = some w.status.byte

/-- A response that the session has written is forwarded outside of transactions only, and one
of the server before its status changes again. -/
structure InStep (w : World) (e : Event) : Prop where
  written : Forwards w e → Written w → w.status = .idle
  received : Forwards w e → ¬Written w → EndsInReady w →
    ∀ status, ReadyArrived w status → w.status = status

section Steps

variable {lib : Externals} {w w' : World} {e : Event}

theorem byte_injective : Function.Injective Status.byte := by
  intro status status' h
  cases status <;> cases status' <;> first | rfl | exact absurd h (by decide)

theorem readyMessage_eq (status : Status) :
    readyMessage status = [90, 0, 0, 0, 5, status.byte] :=
  encode_ready status.byte

/-- What the session writes ends with a `ReadyForQuery` that says idle. -/
theorem setError_spec {err : Conn.Error} {response : Buffer} (h : setError err = some response) :
    response.bufSize = 0 ∧ readyMessage .idle <:+ response.data := by
  simp only [setError, Option.bind_eq_bind, Option.bind_eq_some_iff] at h
  obtain ⟨s, -, c, -, m, -, h⟩ := h
  obtain rfl := Option.some.inj h
  refine ⟨rfl, ?_⟩
  rw [Buffer.data, List.take_length, readyMessage_eq]
  exact List.suffix_append _ _

/-- Whence the response is: it has been received, or the session has written it. -/
def Sourced (w : World) : Prop :=
  ∀ state, w.session.current = some state →
    (∃ data, w.session.context.response = received data ∧ data <:+ w.arrived) ∨
    responding state = true ∧ ∃ err, setError err = some w.session.context.response

theorem sourced_new (st : SchemaTracker) : Sourced (.new st) :=
  fun _ _ => .inl ⟨[], received_nil.symm, List.nil_suffix⟩

theorem sourced_act {turn : Turn} (hdelivered : Delivered w (.acts turn)) (h : Sourced w)
    {s' : Session} (hact : act lib w.session turn = .ok s') :
    Sourced { w with session := s', arrived := w.arrived ++ arriving w.session turn } := by
  intro state' hstate'
  cases hcurrent : w.session.current with
  | none =>
      rw [act_of_terminated hcurrent] at hact
      rw [← Except.ok.inj hact] at hstate'
      exact absurd (hstate'.symm.trans hcurrent) (by simp)
  | some state =>
      have hmeet : (turn.meet w.session).current = some state := hcurrent
      by_cases hreceive : state = .receiveResponse
      · subst hreceive
        rcases h _ hcurrent with ⟨data, hresponse, hdata⟩ | ⟨hresponding, -⟩
        · obtain ⟨next, t, ⟨hreceived, -⟩, rfl⟩ := exists_of_takeAction hmeet
            (received_receiveResponse hresponse (hdelivered hcurrent).1) hact
          refine .inl ⟨data ++ turn.io.chunks.flatten, hreceived, ?_⟩
          obtain ⟨front, hfront⟩ := hdata
          rw [arriving, if_pos hcurrent, ← hfront]
          exact ⟨front, (List.append_assoc _ _ _).symm⟩
        · exact nomatch hresponding
      · have harrived : w.arrived ++ arriving w.session turn = w.arrived := by
          rw [arriving, if_neg (by simpa [hcurrent] using hreceive), List.append_nil]
        obtain ⟨next, t, hresponse, rfl⟩ :=
          exists_of_takeAction hmeet (response_action hreceive) hact
        rw [harrived]
        rcases hresponse with ⟨-, hnew⟩ | ⟨hmade, herror⟩ | ⟨hkeeps, hkept⟩
        · exact .inl ⟨[], hnew.trans received_nil.symm, List.nil_suffix⟩
        · exact .inr ⟨hmade state' hstate', herror⟩
        · rcases h state hcurrent with ⟨data, hdata, hsuffix⟩ | ⟨hresponding, err, herror⟩
          · exact .inl ⟨data, hkept.trans hdata, hsuffix⟩
          · exact .inr ⟨hkeeps hresponding state' hstate', err, herror.trans (congrArg _ hkept.symm)⟩

theorem sourced_react (hdelivered : Delivered w e) (h : Sourced w)
    (hstep : react lib w e = .ok w') : Sourced w' := by
  cases e with
  | acts turn =>
      obtain ⟨s', hact, hw'⟩ := bind_eq_ok.mp hstep
      obtain rfl := Except.ok.inj hw'
      exact sourced_act hdelivered h hact
  | executes status =>
      obtain rfl := Except.ok.inj hstep
      exact h
  | sends bytes =>
      obtain rfl := Except.ok.inj hstep
      exact h
  | reports =>
      obtain rfl := Except.ok.inj hstep
      exact h

theorem getLast?_of_ready {status : Status} {bytes : Bytes} (h : readyMessage status <:+ bytes) :
    bytes.getLast? = some status.byte := by
  obtain ⟨front, rfl⟩ := h
  rw [readyMessage_eq, List.getLast?_append]
  rfl

theorem getLast?_of_arrived {status : Status} {data : Bytes} (hne : data ≠ [])
    (hdata : data <:+ w.arrived) (hready : ReadyArrived w status) :
    data.getLast? = some status.byte := by
  obtain ⟨done, rest, -, harrived⟩ := hready
  have hends : readyMessage status <:+ w.arrived := by
    rw [harrived, List.flatMap_append, List.flatMap_singleton]
    exact List.suffix_append _ _
  obtain ⟨front, hfront⟩ := hdata
  have hlast := getLast?_of_ready hends
  rw [← hfront, List.getLast?_append] at hlast
  cases hdata : data.getLast? with
  | none => exact absurd (List.getLast?_eq_none_iff.mp hdata) hne
  | some byte =>
      rw [hdata] at hlast
      exact hlast

theorem EndsInReady.data_ne_nil (h : EndsInReady w) : w.session.context.response.data ≠ [] := by
  intro hnil
  obtain ⟨status, hsuffix⟩ := h.response
  rw [hnil, List.suffix_nil, readyMessage_eq] at hsuffix
  exact nomatch hsuffix

theorem source_of_forwards (h : Sourced w) (hforwards : Forwards w e) :
    Written w ∧ readyMessage .idle <:+ w.session.context.response.data ∨
      ¬Written w ∧ w.session.context.response.data <:+ w.arrived := by
  have hcurrent : w.session.current = some .forwardResponse := by
    cases e with
    | acts turn => exact hforwards.1
    | executes status => exact hforwards.elim
    | sends bytes => exact hforwards.elim
    | reports => exact hforwards.elim
  rcases h _ hcurrent with ⟨data, hdata, hsuffix⟩ | ⟨-, err, herror⟩
  · refine .inr ⟨?_, ?_⟩
    · have hroom := defaultSize_le_capacity data.length
      rw [defaultSize] at hroom
      rw [Written, hdata]
      show capacity data.length ≠ 0
      omega
    · rw [hdata, data_received]
      exact hsuffix
  · exact .inl (setError_spec herror)

theorem toldStatus_iff_inStep (h : Sourced w) : ToldStatus w e ↔ InStep w e := by
  constructor
  · intro htold
    refine ⟨fun hforwards hwritten => ?_, fun hforwards hnot hends status hready => ?_⟩
    · rcases source_of_forwards h hforwards with ⟨-, hidle⟩ | ⟨hnot, -⟩
      · have hlast := htold hforwards ⟨⟨.idle, hidle⟩, absurd hwritten⟩
        rw [getLast?_of_ready hidle] at hlast
        exact (byte_injective (Option.some.inj hlast)).symm
      · exact absurd hwritten hnot
    · rcases source_of_forwards h hforwards with ⟨hwritten, -⟩ | ⟨-, hdata⟩
      · exact absurd hwritten hnot
      · have hlast := htold hforwards hends
        rw [getLast?_of_arrived hends.data_ne_nil hdata hready] at hlast
        exact (byte_injective (Option.some.inj hlast)).symm
  · intro hstep hforwards hends
    rcases source_of_forwards h hforwards with ⟨hwritten, hidle⟩ | ⟨hnot, hdata⟩
    · rw [getLast?_of_ready hidle, hstep.written hforwards hwritten]
    · obtain ⟨status, hready⟩ := hends.received hnot
      rw [getLast?_of_arrived hends.data_ne_nil hdata hready,
        hstep.received hforwards hnot hends status hready]

end Steps

theorem toldStatus_iff (lib : Externals) (st : SchemaTracker) {events : List Event}
    (hdelivered : AtEachTurn (react lib) (.new st) Delivered events) :
    AtEachTurn (react lib) (.new st) ToldStatus events ↔
      AtEachTurn (react lib) (.new st) InStep events :=
  atEachTurn_congr_of (I := Sourced) (R := Delivered) (sourced_new st)
    (fun _ _ _ h hdelivered _ hstep => sourced_react hdelivered h hstep)
    (fun _ _ h _ => toldStatus_iff_inStep h) hdelivered

instance (w : World) : (e : Event) → Decidable (Delivered w e)
  | .acts turn => inferInstanceAs (Decidable (w.session.current = some .receiveResponse →
      Fits w.session.context.response.restore turn.io.chunks ∧
        w.arrived ++ turn.io.chunks.flatten <+: w.sent.flatMap Sent.encode))
  | .executes _ => isTrue trivial
  | .sends _ => isTrue trivial
  | .reports => isTrue trivial

def begin : Bytes := utf8 "BEGIN"

def withoutId : Bytes := utf8 "CREATE TABLE s (a INT)"

def withoutIdTree : Json :=
  .obj [("stmts", .arr [.obj [("stmt", ParseTree.node "CreateStmt"
    [("oncommit", .str "ONCOMMIT_NOOP"),
      ("relation", .obj
        [("inh", .bool true), ("relname", .str "s"), ("relpersistence", .str "p")]),
      ("tableElts", .arr [ParseTree.node "ColumnDef"
        [("colname", .str "a"), ("is_local", .bool true),
          ("typeName", .obj
            [("names", .arr [ParseTree.stringNode "pg_catalog", ParseTree.stringNode "int4"]),
              ("typemod", .num "-1")])]])])]]), ("version", .num "130003")]

def beginTree : Json :=
  .obj [("stmts", .arr [.obj [("stmt", ParseTree.node "TransactionStmt"
    [("kind", .str "TRANS_STMT_BEGIN")])]]), ("version", .num "130003")]

/-- Libraries that know the two texts. -/
def tableExternals : Externals where
  translate text := .ok (text, .noError)
  pgQueryParse text :=
    if text = begin then .ok (.ok beginTree)
    else if text = withoutId then .ok (.ok withoutIdTree)
    else .ok (.error ⟨utf8 "syntax error", utf8 "scanner_yyerror", utf8 "scan.l", 1188, 1⟩)
  deparse json :=
    if json = beginTree then .ok begin
    else if json = withoutIdTree then .ok withoutId
    else .error .aborted
  length_deparse := by
    intro json text h
    split at h
    · rw [← Except.ok.inj h]
      decide +kernel
    · split at h
      · rw [← Except.ok.inj h]
        decide +kernel
      · simp at h
  what _ := []
  file := []

/-- A session's turns for a request, and for what the server says to it. -/
def exchange (request : Bytes) (server : List Event) (answer : Bytes) : List Event :=
  List.replicate 6 (.acts ⟨.empty, receiving request⟩) ++ server ++
    List.replicate 5 (.acts ⟨.empty, receiving answer⟩)

def query (text : Bytes) : Bytes :=
  Message.encode ⟨81, text ++ [0]⟩

/-- A table without an `id` is refused in a transaction. -/
def refusedInTransaction : List Event :=
  exchange startup [.reports] (readyMessage .idle) ++
    exchange (query begin) [.executes .inTransaction, .reports] (readyMessage .inTransaction) ++
    List.replicate 5 (.acts ⟨.empty, receiving (query withoutId)⟩)

theorem delivered_refusedInTransaction :
    AtEachTurn (react tableExternals) (.new .empty) Delivered refusedInTransaction := by
  decide +kernel

theorem toldStatus_refusedInTransaction :
    AtEachTurn (react tableExternals) (.new .empty) ToldStatus refusedInTransaction ↔
      AtEachTurn (react tableExternals) (.new .empty) InStep refusedInTransaction :=
  toldStatus_iff tableExternals .empty delivered_refusedInTransaction

/-- The client is told that it is outside of a transaction. -/
theorem not_toldStatus_refusedInTransaction :
    AtEachTurn (react tableExternals) (.new .empty) Delivered refusedInTransaction ∧
      ¬AtEachTurn (react tableExternals) (.new .empty) ToldStatus refusedInTransaction := by
  refine ⟨delivered_refusedInTransaction, fun h => ?_⟩
  have hbefore : ((refusedInTransaction.take 29).foldlM (react tableExternals)
      (.new .empty)).toOption.map (fun w => (w.session.current, w.status,
        w.session.context.response.bufSize)) =
        some (some .forwardResponse, .inTransaction, 0) := by
    decide +kernel
  obtain ⟨w, hw, hstate⟩ := Option.map_eq_some_iff.mp hbefore
  obtain ⟨hcurrent, hstate⟩ := Prod.mk.inj hstate
  obtain ⟨hstatus, hwritten⟩ := Prod.mk.inj hstate
  have hsplit : refusedInTransaction = refusedInTransaction.take 29 ++
      [.acts ⟨.empty, receiving (query withoutId)⟩] := rfl
  have hsourced := invariant_of_atEachTurn (I := Sourced) (sourced_new .empty)
    (fun _ _ _ h hdelivered hstep => sourced_react hdelivered h hstep)
    delivered_refusedInTransaction hsplit (eq_ok_of_toOption hw)
  have htold := h _ _ [] w hsplit (eq_ok_of_toOption hw)
  have hidle := ((toldStatus_iff_inStep hsourced).mp htold).written
    ⟨hcurrent, (by decide : (0 : Int) < 1)⟩ hwritten
  exact absurd (hstatus.symm.trans hidle) (by decide)

end PgFort.TransactionStatus
