import Mathlib.Data.Nat.Log
import PgFort.Batches
import PgFort.Lives

namespace PgFort.Receipts

open PgFort.Framing
open PgFort.KeyedTraversal
open PgFort.Conn
open PgFort.Schema
open PgFort.Stateful.Action
open PgFort.Plugins
open PgFort.StateMachine
open PgFort.Frames
open PgFort.Runs
open PgFort.Lives
open PgFort.Batches

section Buffers

/-- The room that is offered to `recv` behind so many bytes. -/
def capacity (n : Nat) : Nat :=
  defaultSize * 2 ^ Nat.clog 2 ((n + (defaultSize - 1)) / defaultSize)

/-- A buffer that these bytes have been received into. -/
def received (bytes : Bytes) : Buffer where
  buf := bytes ++ List.replicate (2 * capacity bytes.length - bytes.length) 0
  bufSize := capacity bytes.length
  dataSize := bytes.length

/-- A call does not fail, and what it returns, the number of the bytes as an `int`, is positive. -/
def Paused (stop : RecvEnd) (bytes : Bytes) : Prop :=
  0 < asInt bytes.length ∧ ∀ errno, stop ≠ .failed errno

variable {n k l : Nat} {acc chunk : Bytes} {chunks : List Bytes}

theorem clog_le_iff :
    Nat.clog 2 ((n + (defaultSize - 1)) / defaultSize) ≤ k ↔ n ≤ defaultSize * 2 ^ k := by
  rw [Nat.clog_le_iff_le_pow Nat.one_lt_two, defaultSize]
  omega

theorem le_capacity (n : Nat) : n ≤ capacity n :=
  clog_le_iff.mp le_rfl

theorem defaultSize_le_capacity (n : Nat) : defaultSize ≤ capacity n :=
  Nat.le_mul_of_pos_right _ (Nat.two_pow_pos _)

theorem capacity_add (h : l ≤ capacity n) :
    capacity (n + l) = if n + l > capacity n then capacity n * 2 else capacity n := by
  have hn := le_capacity n
  have hgrows : Nat.clog 2 ((n + (defaultSize - 1)) / defaultSize) ≤
      Nat.clog 2 ((n + l + (defaultSize - 1)) / defaultSize) := by
    rw [clog_le_iff]
    exact (Nat.le_add_right n l).trans (le_capacity (n + l))
  have htwice : n + l ≤
      defaultSize * 2 ^ (Nat.clog 2 ((n + (defaultSize - 1)) / defaultSize) + 1) := by
    rw [pow_succ, ← mul_assoc]
    change n + l ≤ capacity n * 2
    omega
  have hatmost := clog_le_iff.mpr htwice
  split
  · rename_i hmore
    have hless := mt clog_le_iff.mp (not_le.mpr hmore)
    rw [capacity, show Nat.clog 2 ((n + l + (defaultSize - 1)) / defaultSize) =
      Nat.clog 2 ((n + (defaultSize - 1)) / defaultSize) + 1 by omega, pow_succ, ← mul_assoc]
    rfl
  · rename_i hfits
    have hle := clog_le_iff.mpr (not_lt.mp hfits)
    rw [capacity, Nat.le_antisymm hle hgrows]
    rfl

theorem received_nil : received [] = .new := by
  decide +kernel

theorem data_received (bytes : Bytes) : (received bytes).data = bytes :=
  List.take_left

theorem length_buf_received (bytes : Bytes) :
    (received bytes).buf.length = 2 * capacity bytes.length := by
  have hle := le_capacity bytes.length
  rw [received, List.length_append, List.length_replicate]
  omega

theorem restore_received (bytes : Bytes) : (received bytes).restore = received bytes := by
  have hroom := defaultSize_le_capacity bytes.length
  rw [Buffer.restore, if_neg]
  show capacity bytes.length ≠ 0
  rw [defaultSize] at hroom
  omega

theorem receive_received (hchunk : chunk.length ≤ capacity acc.length) :
    (received acc).receive chunk = received (acc ++ chunk) := by
  have hroom := capacity_add hchunk
  have hacc := le_capacity acc.length
  have hbuf : acc ++ chunk ++ (received acc).buf.drop (acc.length + chunk.length) =
      acc ++ chunk ++
        List.replicate (2 * capacity acc.length - (acc.length + chunk.length)) 0 := by
    rw [received, List.drop_append, List.drop_eq_nil_of_le (by omega), List.nil_append,
      List.drop_replicate]
    congr 2
    omega
  have hreceive : (received acc).receive chunk =
      if acc.length + chunk.length > capacity acc.length then
        { buf := resize (capacity acc.length * 2 * 2)
            (acc ++ chunk ++ (received acc).buf.drop (acc.length + chunk.length))
          bufSize := capacity acc.length * 2
          dataSize := acc.length + chunk.length }
      else
        { buf := acc ++ chunk ++ (received acc).buf.drop (acc.length + chunk.length)
          bufSize := capacity acc.length
          dataSize := acc.length + chunk.length } := by
    rw [Buffer.receive]
    change (if acc.length + chunk.length > capacity acc.length then _ else _) = _
    rw [show (received acc).buf.take (received acc).dataSize = acc from data_received acc]
    rfl
  rw [hreceive, hbuf, received, List.length_append, hroom]
  split
  · rw [resize, List.take_of_length_le (by simp only [List.length_append, List.length_replicate]; omega),
      List.append_assoc (acc ++ chunk), List.replicate_append_replicate]
    congr 3
    simp only [List.length_append, List.length_replicate]
    omega
  · rfl

theorem foldl_receive_received (h : Fits (received acc) chunks) :
    chunks.foldl Buffer.receive (received acc) = received (acc ++ chunks.flatten) := by
  induction chunks generalizing acc with
  | nil => rw [List.flatten_nil, List.append_nil, List.foldl_nil]
  | cons chunk chunks ih =>
      obtain ⟨hchunk, hrest⟩ := h
      have hnext := receive_received hchunk
      rw [hnext] at hrest
      rw [List.foldl_cons, hnext, ih hrest, List.flatten_cons, List.append_assoc]

theorem recvFrom_received (stop : RecvEnd) (h : Fits (received acc).restore chunks) :
    ((received acc).recvFrom chunks stop).1 = received (acc ++ chunks.flatten) ∧
      (((received acc).recvFrom chunks stop).2 ≤ 0 ↔ ¬Paused stop (acc ++ chunks.flatten)) := by
  rw [restore_received] at h
  have hfold := foldl_receive_received h
  have hcount : (received (acc ++ chunks.flatten)).size ≤ 0 ↔
      ¬0 < asInt (acc ++ chunks.flatten).length := not_lt.symm
  rw [Paused]
  cases stop with
  | wouldBlock => simp [Buffer.recvFrom, restore_received, hfold, hcount]
  | closed => simp [Buffer.recvFrom, restore_received, hfold, hcount]
  | failed errno => simp [Buffer.recvFrom, restore_received, hfold]

theorem Paused.ne_nil {stop : RecvEnd} {bytes : Bytes} (h : Paused stop bytes) : bytes ≠ [] := by
  rintro rfl
  have hcount := h.1.trans_le (asInt_le 0)
  exact absurd hcount (by decide)

end Buffers

/-- A session has a response, or makes one. -/
def responding : SessionState → Bool
  | .applyPostResponsePlugins => true
  | .prepareToForwardResponse => true
  | .forwardResponse => true
  | .resetContext => true
  | _ => false

section Actions

variable {lib : Externals} {io : Io} {s : Session} {acc : Bytes}

theorem received_receiveResponse (hresponse : s.context.response = received acc)
    (hfits : Fits s.context.response.restore io.chunks) :
    wp (receiveResponse io)
      (fun next s' => s'.context.response = received (acc ++ io.chunks.flatten) ∧
        (¬Paused io.stop (acc ++ io.chunks.flatten) → next = none) ∧
        (Paused io.stop (acc ++ io.chunks.flatten) → ∃ ready,
          inspect s.context.initiated (received (acc ++ io.chunks.flatten)) = .ok ready ∧
            next = some (if ready then .applyPostResponsePlugins else .receiveResponse)))
      (fun f _ => Paused io.stop (acc ++ io.chunks.flatten) ∧
        inspect s.context.initiated (received (acc ++ io.chunks.flatten)) = .error f) s := by
  rw [hresponse] at hfits
  obtain ⟨hreceived, hres⟩ := recvFrom_received io.stop hfits
  simp only [wp_receiveResponse, hresponse, hreceived, hres]
  refine ⟨fun hnot => ⟨trivial, fun _ => trivial, fun h => absurd h hnot⟩, fun h => ?_⟩
  have hpaused := not_not.mp h
  refine ⟨fun ready hinspect => ⟨fun hready => ?_, fun hready => ?_⟩,
    fun f hinspect => ⟨hpaused, hinspect⟩⟩
  · exact ⟨trivial, fun hnot => absurd hpaused hnot,
      fun _ => ⟨ready, hinspect, by rw [if_pos hready]⟩⟩
  · exact ⟨trivial, fun hnot => absurd hpaused hnot,
      fun _ => ⟨ready, hinspect, by rw [if_neg hready]⟩⟩

theorem response_action {state : SessionState} (hreceive : state ≠ .receiveResponse) :
    wp (action lib io state)
      (fun next s' =>
        state = .resetContext ∧ s'.context.response = .new ∨
        (∀ state', next = some state' → responding state' = true) ∧
          (∃ e, setError e = some s'.context.response) ∨
        (responding state = true → ∀ state', next = some state' → responding state' = true) ∧
          s'.context.response = s.context.response)
      (fun _ _ => True) s := by
  have hforward : ∀ state', some .prepareToForwardResponse = some state' →
      responding state' = true := by
    rintro state' heq
    rw [← Option.some.inj heq]
    rfl
  cases state with
  | initiate =>
      simp [action, wp_initiate, Session.setParameter, context_setStartupParameters, responding]
  | prepareToReceiveRequest => exact .inr (.inr ⟨(absurd · (by decide)), rfl⟩)
  | receiveRequest => simp [action, wp_receiveRequest, responding]
  | applyPreRequestPlugins =>
      refine wp_mono next_applyPreRequestPlugins (fun next s' h => ?_) fun _ _ _ => trivial
      rcases h with ⟨-, request, query, rfl⟩ | ⟨rfl, t, e, response, -, herror, rfl⟩
      · exact .inr (.inr ⟨(absurd · (by decide)), rfl⟩)
      · exact .inr (.inl ⟨hforward, e, herror⟩)
  | prepareToForwardRequest => exact .inr (.inr ⟨(absurd · (by decide)), rfl⟩)
  | forwardRequest => simp [action, wp_forwardRequest, responding]
  | prepareToReceiveResponse => exact .inr (.inr ⟨(absurd · (by decide)), rfl⟩)
  | receiveResponse => exact absurd rfl hreceive
  | applyPostResponsePlugins =>
      refine wp_mono updated_applyPostResponsePlugins (fun next s' h => ?_) fun _ _ h => h
      obtain ⟨rfl, t, response, ⟨ps, st, q, rfl⟩, hresponse, rfl⟩ := h
      rcases hresponse with rfl | herror
      · exact .inr (.inr ⟨fun _ => hforward, rfl⟩)
      · exact .inr (.inl ⟨hforward, herror⟩)
  | prepareToForwardResponse =>
      refine .inr (.inr ⟨fun _ state' heq => ?_, rfl⟩)
      rw [← Option.some.inj heq]
      rfl
  | forwardResponse => simp [action, wp_forwardResponse, responding]
  | resetContext => exact .inl ⟨rfl, rfl⟩

end Actions

/-- A session with what it has taken from its server since its startup: for the present response,
and before. -/
structure Receipt where
  session : Session
  earlier : Bytes
  taken : Bytes

/-- All that has come of the response when the next action ends. -/
def Receipt.arrived (r : Receipt) (turn : Turn) : Bytes :=
  r.taken ++ turn.io.chunks.flatten

/-- After a turn: what has come in belongs to the response that is being received, or to one of
those before. -/
def Receipt.after (r : Receipt) (turn : Turn) (session : Session) : Receipt :=
  if r.session.current = some .receiveResponse then
    if session.current = some .receiveResponse then { r with session, taken := r.arrived turn }
    else {
      session
      earlier := if r.session.context.initiated then r.earlier ++ r.arrived turn else r.earlier
      taken := [] }
  else { r with session }

/-- A turn of the session, with a record of what it receives. -/
def receive (lib : Externals) (r : Receipt) (turn : Turn) : Except Fault Receipt := do
  let session ← act lib r.session turn
  return r.after turn session

def Receipt.new (st : SchemaTracker) : Receipt :=
  ⟨Session.new st, [], []⟩

/-- Bytes of a response have come, and for now no more of them. -/
def Pauses (r : Receipt) (turn : Turn) : Prop :=
  r.session.current = some .receiveResponse ∧ Paused turn.io.stop (r.arrived turn)

/-- `recv` returns no more than it has been offered room for. -/
def Offered (r : Receipt) (turn : Turn) : Prop :=
  r.session.current = some .receiveResponse →
    Fits r.session.context.response.restore turn.io.chunks

/-- Until it has a response, what a session has received is all that is in the buffer. -/
structure Hears (r : Receipt) : Prop where
  response : ∀ state, r.session.current = some state → responding state = false →
    r.session.context.response = received r.taken
  taken : r.session.current ≠ some .receiveResponse → r.taken = []

instance : (b : Buffer) → (chunks : List Bytes) → Decidable (Fits b chunks)
  | _, [] => isTrue trivial
  | b, chunk :: chunks =>
      have := instDecidableFits (b.receive chunk) chunks
      inferInstanceAs (Decidable (chunk.length ≤ b.bufSize ∧ Fits (b.receive chunk) chunks))

instance (r : Receipt) (turn : Turn) : Decidable (Offered r turn) :=
  inferInstanceAs (Decidable (_ → _))

instance : (stop : RecvEnd) → (bytes : Bytes) → Decidable (Paused stop bytes)
  | .wouldBlock, bytes => decidable_of_iff (0 < asInt bytes.length) (by simp [Paused])
  | .closed, bytes => decidable_of_iff (0 < asInt bytes.length) (by simp [Paused])
  | .failed errno, _ => isFalse fun h => h.2 errno rfl

instance (r : Receipt) (turn : Turn) : Decidable (Pauses r turn) :=
  inferInstanceAs (Decidable (_ ∧ _))

section Receipts

variable {lib : Externals} {r r' : Receipt} {turn : Turn}

theorem session_after (r : Receipt) (turn : Turn) (s : Session) :
    (r.after turn s).session = s := by
  rw [Receipt.after]
  split
  · split <;> rfl
  · rfl

theorem receive_eq_ok : receive lib r turn = .ok r' ↔
    ∃ s', act lib r.session turn = .ok s' ∧ r.after turn s' = r' := by
  rw [receive, bind_eq_ok]
  constructor
  · rintro ⟨s', hact, hr'⟩
    exact ⟨s', hact, Except.ok.inj hr'⟩
  · rintro ⟨s', hact, rfl⟩
    exact ⟨s', hact, rfl⟩

theorem hears_new (st : SchemaTracker) : Hears (.new st) :=
  ⟨fun _ _ _ => received_nil.symm, fun _ => rfl⟩

theorem hears_receive (hoffered : Offered r turn) (h : Hears r)
    (hstep : receive lib r turn = .ok r') : Hears r' := by
  obtain ⟨s', hact, rfl⟩ := receive_eq_ok.mp hstep
  cases hcurrent : r.session.current with
  | none =>
      rw [act_of_terminated hcurrent] at hact
      obtain rfl := Except.ok.inj hact
      rw [Receipt.after, if_neg (by simp [hcurrent])]
      exact ⟨fun state hstate => absurd (hstate.symm.trans hcurrent) (by simp),
        fun _ => h.taken (by simp [hcurrent])⟩
  | some state =>
      have hmeet : (turn.meet r.session).current = some state := hcurrent
      by_cases hreceive : state = .receiveResponse
      · subst hreceive
        obtain ⟨next, t, ⟨hresponse, hnext⟩, rfl⟩ := exists_of_takeAction hmeet
          (received_receiveResponse (h.response _ hcurrent rfl) (hoffered hcurrent)) hact
        rw [Receipt.after, if_pos hcurrent]
        split
        · rename_i hagain
          exact ⟨fun _ _ _ => hresponse, fun hne => absurd hagain hne⟩
        · rename_i hleft
          refine ⟨fun state' hstate' hnot => ?_, fun _ => rfl⟩
          obtain rfl : next = some state' := hstate'
          by_cases hpaused : Paused turn.io.stop (r.taken ++ turn.io.chunks.flatten)
          · obtain ⟨ready, -, hgoes⟩ := hnext.2 hpaused
            have hstate := Option.some.inj hgoes
            split at hstate
            · rw [hstate] at hnot
              exact nomatch hnot
            · exact absurd (congrArg some hstate) hleft
          · exact nomatch hnext.1 hpaused
      · rw [Receipt.after, if_neg (by simpa [hcurrent] using hreceive)]
        obtain ⟨next, t, hresponse, rfl⟩ :=
          exists_of_takeAction hmeet (response_action hreceive) hact
        have htaken := h.taken (by simpa [hcurrent] using hreceive)
        refine ⟨fun state' hstate' hnot => ?_, fun _ => htaken⟩
        show t.context.response = received r.taken
        rcases hresponse with ⟨-, hnew⟩ | ⟨hmade, -⟩ | ⟨hkeeps, hkept⟩
        · rw [hnew, htaken, received_nil]
        · exact nomatch (hmade state' hstate').symm.trans hnot
        · rw [hkept]
          refine h.response state hcurrent (Bool.not_eq_true _ ▸ fun hresponding => ?_)
          exact nomatch (hkeeps hresponding state' hstate').symm.trans hnot

theorem pauses_of_receive (h : Hears r) (hoffered : Offered r turn)
    (hcurrent : r.session.current = some .receiveResponse) (hstep : receive lib r turn = .ok r')
    (hlives : r'.session.current ≠ none) : Pauses r turn := by
  refine ⟨hcurrent, ?_⟩
  obtain ⟨s', hact, rfl⟩ := receive_eq_ok.mp hstep
  have hmeet : (turn.meet r.session).current = some .receiveResponse := hcurrent
  obtain ⟨next, t, ⟨-, hnone, -⟩, rfl⟩ := exists_of_takeAction hmeet
    (received_receiveResponse (h.response _ hcurrent rfl) (hoffered hcurrent)) hact
  rw [session_after] at hlives
  by_contra hnot
  exact hlives (hnone hnot)

theorem receive_cases (lib : Externals) (h : Hears r) (hoffered : Offered r turn)
    (hcurrent : r.session.current = some .receiveResponse) :
    (¬Paused turn.io.stop (r.arrived turn) →
      ∃ r', receive lib r turn = .ok r' ∧ r'.session.current = none) ∧
    (Paused turn.io.stop (r.arrived turn) →
      (∀ ready, inspect r.session.context.initiated (received (r.arrived turn)) = .ok ready →
        ∃ r', receive lib r turn = .ok r' ∧ r'.session.current =
          some (if ready then .applyPostResponsePlugins else .receiveResponse)) ∧
      ∀ f, inspect r.session.context.initiated (received (r.arrived turn)) = .error f →
        receive lib r turn = .error f) := by
  have hmeet : (turn.meet r.session).current = some .receiveResponse := hcurrent
  have hreceives := received_receiveResponse (s := turn.meet r.session)
    (h.response _ hcurrent rfl) (hoffered hcurrent)
  cases hact : act lib r.session turn with
  | error f =>
      obtain ⟨t, hpaused, hinspect⟩ := fault_of_takeAction hmeet hreceives hact
      refine ⟨fun hnot => absurd hpaused hnot, fun _ => ⟨fun ready hready => ?_, fun f' hf' => ?_⟩⟩
      · exact nomatch hinspect.symm.trans hready
      · rw [receive, hact, Except.error.inj (hf'.symm.trans hinspect)]
        rfl
  | ok s' =>
      obtain ⟨next, t, ⟨-, hends, hgoes⟩, rfl⟩ := exists_of_takeAction hmeet hreceives hact
      have hreceive := receive_eq_ok.mpr ⟨_, hact, rfl⟩
      refine ⟨fun hnot => ⟨_, hreceive, ?_⟩, fun hpaused => ?_⟩
      · rw [session_after]
        exact hends hnot
      · obtain ⟨ready, hinspect, hnext⟩ := hgoes hpaused
        refine ⟨fun ready' hready' => ⟨_, hreceive, ?_⟩, fun f hf => ?_⟩
        · rw [session_after, Except.ok.inj (hready'.symm.trans hinspect)]
          exact hnext
        · exact nomatch hinspect.symm.trans hf

end Receipts

/-- A startup, and how its response begins. -/
def loginTurns (chunks : List Bytes) : List Turn :=
  List.replicate 5 ⟨.empty, receiving startup⟩ ++
    [⟨.empty, receiving []⟩, ⟨.empty, { receiving [] with chunks }⟩]

end PgFort.Receipts
