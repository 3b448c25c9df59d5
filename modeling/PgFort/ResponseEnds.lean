import Mathlib.Data.List.GetD
import PgFort.PrintInfo

namespace PgFort.ResponseEnds

open PgFort.Framing
open PgFort.KeyedTraversal
open PgFort.Conn
open PgFort.Reads
open PgFort.Schema
open PgFort.Plugins
open PgFort.StateMachine
open PgFort.Frames
open PgFort.SqlForwarding
open PgFort.Runs
open PgFort.Lives
open PgFort.Receipts
open PgFort.PrintInfo

/-- What the messages of a server have in common. -/
structure Valid (m : Message) : Prop where
  length : m.payload.length + 4 < 4294967296
  status : m.type = 90 → ∃ status ∈ [73, 84, 69], m.payload = [status]

/-- `ReadyForQuery`, `CopyInResponse`, or an authentication request that is not
`AuthenticationOk`. -/
def AwaitsClient (m : Message) : Prop :=
  m.type = 90 ∨ m.type = 71 ∨ m.type = 82 ∧ m.payload.take 4 ≠ [0, 0, 0, 0]

/-- Whole messages, after which the server waits for the client. -/
def Complete (bytes : Bytes) : Prop :=
  pending bytes = [] ∧ ∃ m, (messages bytes).getLast? = some m ∧ AwaitsClient m

/-- The last six bytes could be those of a `ReadyForQuery`. -/
def EndsLikeReady (bytes : Bytes) : Prop :=
  ∃ status ∈ [73, 84, 69], (Message.mk 90 [status]).encode <:+ bytes

/-- The bytes up to where their number, as an `int`, points. These are all if there are less than
2147483648. -/
def counted (bytes : Bytes) : Bytes :=
  bytes.take (asInt bytes.length).toNat

/-- The session gets to look at a response of this beginning, and can tell it from its first byte and
the six in front of its end. -/
structure Recognisable (bytes : Bytes) : Prop where
  count : 0 < asInt bytes.length
  printed : Printed bytes
  six : SixCame bytes
  authentication : bytes.head? = some 82 → Complete bytes
  ready : EndsLikeReady (counted bytes) → Complete bytes
  otherwise : ∀ m, bytes.head? ≠ some 82 → pending bytes = [] →
    (messages bytes).getLast? = some m → AwaitsClient m →
      m.type = 90 ∧ counted bytes = bytes ∨ EndsLikeReady (counted bytes)

/-- The messages of the server come in one by one, and as many bytes as there is room for. -/
structure Served (stream : List Message) (r : Receipt) (turn : Turn) : Prop where
  offered : Offered r turn
  stream : r.session.current = some .receiveResponse → r.session.context.initiated = true →
    r.earlier ++ r.arrived turn <+: stream.flatMap Message.encode

/-- Bytes of a response have come, and `recv` has no more of them. -/
def Halts (r : Receipt) (turn : Turn) : Prop :=
  r.session.current = some .receiveResponse ∧ r.arrived turn ≠ [] ∧
    ∀ errno, turn.io.stop ≠ .failed errno

instance (m : Message) : Decidable (AwaitsClient m) :=
  inferInstanceAs (Decidable (_ ∨ _))

instance (bytes : Bytes) : Decidable (Complete bytes) :=
  decidable_of_iff (pending bytes = [] ∧ ∃ m ∈ (messages bytes).getLast?, AwaitsClient m) (by
    simp only [Complete, Option.mem_def])

/-- A pause is taken for the end of the response exactly if it is one. -/
def LeavesRightly (lib : Externals) (r : Receipt) (turn : Turn) : Prop :=
  r.session.context.initiated = true → Halts r turn →
    ∃ r', receive lib r turn = .ok r' ∧ r'.session.current =
      some (if Complete (r.arrived turn) then .applyPostResponsePlugins else .receiveResponse)

/-- Where the session stops to look at a response, it can tell what that is. -/
def Recognised (r : Receipt) (turn : Turn) : Prop :=
  r.session.context.initiated = true → Halts r turn → Recognisable (r.arrived turn)

instance (stream : List Message) (r : Receipt) (turn : Turn) : Decidable (Served stream r turn) :=
  decidable_of_iff
    (Offered r turn ∧ (r.session.current = some .receiveResponse →
      r.session.context.initiated = true →
        r.earlier ++ r.arrived turn <+: stream.flatMap Message.encode))
    ⟨fun h => ⟨h.1, h.2⟩, fun h => ⟨h.offered, h.stream⟩⟩

instance : (stop : RecvEnd) → Decidable (∀ errno, stop ≠ .failed errno)
  | .wouldBlock => isTrue (by simp)
  | .closed => isTrue (by simp)
  | .failed errno => isFalse fun h => h errno rfl

instance (r : Receipt) (turn : Turn) : Decidable (Halts r turn) :=
  inferInstanceAs (Decidable (_ ∧ _))

instance (lib : Externals) (r : Receipt) (turn : Turn) : Decidable (LeavesRightly lib r turn) :=
  match h : receive lib r turn with
  | .error _ => decidable_of_iff (r.session.context.initiated = true → ¬Halts r turn)
      (by simp [LeavesRightly, h])
  | .ok r' => decidable_of_iff (r.session.context.initiated = true → Halts r turn →
      r'.session.current =
        some (if Complete (r.arrived turn) then .applyPostResponsePlugins else .receiveResponse))
      (by simp [LeavesRightly, h])

section Bytes

variable {bytes : Bytes}

theorem encode_ready (status : UInt8) :
    (Message.mk 90 [status]).encode = [90, 0, 0, 0, 5, status] := by
  rw [Message.encode, show bigEndian ([status].length + 4) = [0, 0, 0, 5] from by
    rw [List.length_singleton]
    decide]
  rfl

theorem exists_last_six (h : 6 ≤ bytes.length) :
    ∃ front a b c d e f, bytes = front ++ [a, b, c, d, e, f] := by
  have hlength : (bytes.drop (bytes.length - 6)).length = 6 := by
    rw [List.length_drop]
    omega
  obtain ⟨a, b, c, d, e, f, hdrop⟩ : ∃ a b c d e f, bytes.drop (bytes.length - 6) =
      [a, b, c, d, e, f] := by
    match hbytes : bytes.drop (bytes.length - 6), hlength with
    | [a, b, c, d, e, f], _ => exact ⟨a, b, c, d, e, f, rfl⟩
  exact ⟨bytes.take (bytes.length - 6), a, b, c, d, e, f, by
    rw [← hdrop, List.take_append_drop]⟩

theorem length_counted (h : 0 < asInt bytes.length) :
    ((counted bytes).length : Int) = asInt bytes.length := by
  have hle := asInt_le bytes.length
  rw [counted, List.length_take]
  omega

theorem byteFromEnd_received {n : Nat} (hcount : 0 < asInt bytes.length)
    (h : n ≤ (counted bytes).length) (hn : 0 < n) :
    byteFromEnd (received bytes) n = (counted bytes).getD ((counted bytes).length - n) 0 := by
  have hlength := length_counted hcount
  have hle := asInt_le bytes.length
  have hindex : ((received bytes).size - n).toNat = (counted bytes).length - n := by
    show (asInt bytes.length - n).toNat = _
    omega
  rw [byteFromEnd, hindex, Buffer.byteAt, received,
    List.getD_append _ _ _ _ (show (counted bytes).length - n < bytes.length by omega)]
  rw [counted, List.getD_eq_getElem?_getD, List.getD_eq_getElem?_getD, List.getElem?_take_of_lt]
  rw [← counted]
  omega

theorem endsLikeReady_iff (h : 6 ≤ bytes.length) :
    EndsLikeReady bytes ↔ bytes.getD (bytes.length - 6) 0 = 90 ∧
      bytes.getD (bytes.length - 5) 0 = 0 ∧ bytes.getD (bytes.length - 4) 0 = 0 ∧
      bytes.getD (bytes.length - 3) 0 = 0 ∧ bytes.getD (bytes.length - 2) 0 = 5 ∧
      bytes.getD (bytes.length - 1) 0 ∈ [(73 : UInt8), 84, 69] := by
  obtain ⟨front, a, b, c, d, e, f, rfl⟩ := exists_last_six h
  have hends : EndsLikeReady (front ++ [a, b, c, d, e, f]) ↔
      a = 90 ∧ b = 0 ∧ c = 0 ∧ d = 0 ∧ e = 5 ∧ f ∈ [(73 : UInt8), 84, 69] := by
    constructor
    · rintro ⟨status, hstatus, front', hfront⟩
      rw [encode_ready] at hfront
      obtain ⟨-, heq⟩ := List.append_inj' hfront rfl
      simp only [List.cons.injEq] at heq
      obtain ⟨rfl, rfl, rfl, rfl, rfl, rfl, -⟩ := heq
      exact ⟨rfl, rfl, rfl, rfl, rfl, hstatus⟩
    · rintro ⟨rfl, rfl, rfl, rfl, rfl, hstatus⟩
      exact ⟨f, hstatus, front, by rw [encode_ready]⟩
  rw [hends]
  simp

theorem readyForQuery_received (hcount : 0 < asInt bytes.length) {ready : Bool} :
    readyForQuery true (received bytes) = .ok ready ↔
      SixCame bytes ∧ (ready = true ↔
        bytes.head? = some 82 ∨ EndsLikeReady (counted bytes)) := by
  have hsize : (received bytes).size = asInt bytes.length := rfl
  have hhead : (received bytes).byteAt 0 = 82 ↔ bytes.head? = some 82 :=
    getD_zero_received (ne_nil_of_asInt_pos hcount) 82
  rw [readyForQuery, hsize, if_neg (by simp)]
  by_cases hsix : SixCame bytes
  · rw [if_pos ((readyReads_received hcount).mpr hsix), Except.ok.injEq, and_iff_right hsix]
    by_cases hfirst : bytes.head? = some 82
    · simp [hhead.mpr hfirst, hfirst]
    · have hlong : 6 ≤ (counted bytes).length := by
        have hlength := length_counted hcount
        have hmany := hsix.resolve_left hfirst
        omega
      rw [byteFromEnd_received hcount hlong (by omega),
        byteFromEnd_received hcount (by omega) (by omega),
        byteFromEnd_received hcount (by omega) (by omega),
        byteFromEnd_received hcount (by omega) (by omega),
        byteFromEnd_received hcount (by omega) (by omega),
        byteFromEnd_received hcount (by omega) (by omega), endsLikeReady_iff hlong,
        or_iff_right hfirst, beq_false_of_ne (mt hhead.mp hfirst)]
      rw [Bool.eq_iff_iff]
      simp only [Bool.false_or, Bool.and_eq_true, Bool.or_eq_true, beq_iff_eq, List.mem_cons,
        List.not_mem_nil, or_false, and_assoc, or_assoc]
      exact iff_comm
  · rw [if_neg (mt (readyReads_received hcount).mp hsix)]
    exact iff_of_false (by simp) fun h => hsix h.1

theorem inspect_eq_ok {initiated ready : Bool} {b : Buffer} :
    inspect initiated b = .ok ready ↔
      printInfo .backend b = .ok () ∧ readyForQuery initiated b = .ok ready := by
  rw [inspect, bind_eq_ok]
  exact ⟨fun ⟨_, hprint, hready⟩ => ⟨hprint, hready⟩, fun h => ⟨(), h.1, h.2⟩⟩

theorem inspect_received (hcount : 0 < asInt bytes.length) {initiated ready : Bool} :
    inspect initiated (received bytes) = .ok ready ↔
      Printed bytes ∧ (initiated = true → SixCame bytes) ∧
        (ready = true ↔ (initiated = true →
          bytes.head? = some 82 ∨ EndsLikeReady (counted bytes))) := by
  rw [inspect_eq_ok, printInfo_received hcount]
  cases initiated with
  | true => simp [readyForQuery_received hcount]
  | false => simp [readyForQuery, eq_comm]

theorem exists_inspect_received (hcount : 0 < asInt bytes.length) {initiated : Bool}
    (hprinted : Printed bytes) (hsix : initiated = true → SixCame bytes) :
    ∃ ready, inspect initiated (received bytes) = .ok ready := by
  by_cases hready : initiated = true → bytes.head? = some 82 ∨ EndsLikeReady (counted bytes)
  · exact ⟨true, (inspect_received hcount).mpr ⟨hprinted, hsix, iff_of_true rfl hready⟩⟩
  · exact ⟨false, (inspect_received hcount).mpr
      ⟨hprinted, hsix, iff_of_false Bool.false_ne_true hready⟩⟩

end Bytes

section Streams

variable {bytes : Bytes}

theorem endsLikeReady_of_last {m : Message} (hwhole : pending bytes = [])
    (hlast : (messages bytes).getLast? = some m) (hvalid : Valid m) (htype : m.type = 90) :
    EndsLikeReady bytes := by
  obtain ⟨status, hstatus, hpayload⟩ := hvalid.status htype
  obtain ⟨front, hfront⟩ := List.getLast?_eq_some_iff.mp hlast
  have hbytes := flatMap_messages_append_pending bytes
  rw [hwhole, List.append_nil, hfront, List.flatMap_append, List.flatMap_singleton] at hbytes
  have hm : m = ⟨90, [status]⟩ := by rw [← htype, ← hpayload]
  exact ⟨status, hstatus, _, hm ▸ hbytes⟩

theorem recognisable_iff (hcount : 0 < asInt bytes.length)
    (hvalid : ∀ m ∈ messages bytes, Valid m) :
    Recognisable bytes ↔ Printed bytes ∧ SixCame bytes ∧
      (bytes.head? = some 82 ∨ EndsLikeReady (counted bytes) ↔ Complete bytes) := by
  constructor
  · intro h
    refine ⟨h.printed, h.six, fun hor => hor.elim h.authentication h.ready, ?_⟩
    rintro ⟨hwhole, m, hlast, hawaits⟩
    by_cases hhead : bytes.head? = some 82
    · exact .inl hhead
    · rcases h.otherwise m hhead hwhole hlast hawaits with ⟨htype, hall⟩ | hends
      · exact .inr (hall.symm ▸ endsLikeReady_of_last hwhole hlast
          (hvalid m (List.mem_of_getLast? hlast)) htype)
      · exact .inr hends
  · rintro ⟨hprinted, hsix, h⟩
    refine ⟨hcount, hprinted, hsix, fun hhead => h.mp (.inl hhead), fun hends => h.mp (.inr hends),
      fun m hhead hwhole hlast hawaits => .inr ?_⟩
    exact (h.mpr ⟨hwhole, m, hlast, hawaits⟩).resolve_left hhead

end Streams

section Turns

variable {lib : Externals} {stream : List Message} {r r' : Receipt} {turn : Turn}

/-- The responses before were whole messages. -/
def Aligned (stream : List Message) (r : Receipt) : Prop :=
  r.session.current ≠ none → ∃ rest : List Message, stream.flatMap Message.encode =
    r.earlier ++ rest.flatMap Message.encode ∧ ∀ m ∈ rest, m ∈ stream

structure Follows (stream : List Message) (r : Receipt) : Prop where
  hears : Hears r
  aligned : Aligned stream r

theorem follows_new (stream : List Message) (st : SchemaTracker) : Follows stream (.new st) :=
  ⟨hears_new st, fun _ => ⟨stream, rfl, fun _ h => h⟩⟩

theorem valid_of_served (hstream : ∀ m ∈ stream, Valid m) (h : Follows stream r)
    (hserved : Served stream r turn) (hcurrent : r.session.current = some .receiveResponse)
    (hinitiated : r.session.context.initiated = true) :
    ∀ m ∈ messages (r.arrived turn), Valid m := by
  obtain ⟨rest, hrest, hmem⟩ := h.aligned (by simp [hcurrent])
  have hprefix := hserved.stream hcurrent hinitiated
  rw [hrest, List.prefix_append_right_inj] at hprefix
  have hms := messages_prefix_of_prefix (fun m hm => (hstream m (hmem m hm)).length) hprefix
  exact fun m hm => hstream m (hmem m (hms.subset hm))

theorem ready_iff_of_next {p q : Prop} [Decidable p] [Decidable q]
    (h : some (if p then SessionState.applyPostResponsePlugins else .receiveResponse) =
      some (if q then .applyPostResponsePlugins else .receiveResponse)) : p ↔ q := by
  split at h <;> split at h <;> simp_all

theorem leavesRightly_iff_recognised (hstream : ∀ m ∈ stream, Valid m) (h : Follows stream r)
    (hserved : Served stream r turn) : LeavesRightly lib r turn ↔ Recognised r turn := by
  refine forall_congr' fun hinitiated => forall_congr' fun ⟨hcurrent, hcame, hstop⟩ => ?_
  obtain ⟨hends, hlooks⟩ := receive_cases lib h.hears hserved.offered hcurrent
  by_cases hcount : 0 < asInt (r.arrived turn).length
  · obtain ⟨hgoes, hfaults⟩ := hlooks ⟨hcount, hstop⟩
    rw [recognisable_iff hcount (valid_of_served hstream h hserved hcurrent hinitiated)]
    cases hinspect : inspect r.session.context.initiated (received (r.arrived turn)) with
    | error f =>
        refine iff_of_false (fun ⟨r', hreceive, _⟩ => nomatch (hfaults f hinspect).symm.trans hreceive)
          fun ⟨hprinted, hsix, _⟩ => ?_
        obtain ⟨ready, hok⟩ := exists_inspect_received hcount hprinted fun _ => hsix
        exact nomatch hinspect.symm.trans hok
    | ok ready =>
        obtain ⟨hprinted, hsix, hready⟩ := (inspect_received hcount).mp hinspect
        obtain ⟨r', hreceive, hnext⟩ := hgoes ready hinspect
        have hready' := hready.trans (forall_prop_of_true hinitiated)
        rw [and_iff_right hprinted, and_iff_right (hsix hinitiated), ← hready']
        constructor
        · rintro ⟨r'', hreceive', hnext'⟩
          obtain rfl := Except.ok.inj (hreceive.symm.trans hreceive')
          exact ready_iff_of_next (hnext.symm.trans hnext')
        · intro hiff
          exact ⟨r', hreceive, hnext.trans (by simp only [hiff])⟩
  · refine iff_of_false (fun ⟨r', hreceive, hnext⟩ => ?_) fun hrecognisable => hcount hrecognisable.count
    obtain ⟨r'', hreceive', hnone⟩ := hends fun hpaused => hcount hpaused.1
    obtain rfl := Except.ok.inj (hreceive.symm.trans hreceive')
    exact nomatch hnone.symm.trans hnext

/-- A response that ends where it is whole leaves the stream at the beginning of a message. -/
theorem aligned_of_complete (hstream : ∀ m ∈ stream, Valid m) (h : Follows stream r)
    (hserved : Served stream r turn) (hcurrent : r.session.current = some .receiveResponse)
    (hinitiated : r.session.context.initiated = true) (hcomplete : Complete (r.arrived turn)) :
    ∃ rest : List Message, stream.flatMap Message.encode =
      r.earlier ++ r.arrived turn ++ rest.flatMap Message.encode ∧ ∀ m ∈ rest, m ∈ stream := by
  obtain ⟨rest, hrest, hmem⟩ := h.aligned (by simp [hcurrent])
  have hprefix := hserved.stream hcurrent hinitiated
  rw [hrest, List.prefix_append_right_inj] at hprefix
  obtain ⟨later, rfl⟩ :=
    messages_prefix_of_prefix (fun m hm => (hstream m (hmem m hm)).length) hprefix
  have hwhole := flatMap_messages_append_pending (r.arrived turn)
  rw [hcomplete.1, List.append_nil] at hwhole
  refine ⟨later, ?_, fun m hm => hmem m (List.mem_append_right _ hm)⟩
  rw [hrest, List.flatMap_append, hwhole, List.append_assoc]

theorem follows_receive (hstream : ∀ m ∈ stream, Valid m) (h : Follows stream r)
    (hserved : Served stream r turn) (hleaves : LeavesRightly lib r turn)
    (hstep : receive lib r turn = .ok r') : Follows stream r' := by
  refine ⟨hears_receive hserved.offered h.hears hstep, ?_⟩
  intro hlives
  obtain ⟨s', hact, hr'⟩ := receive_eq_ok.mp hstep
  have hsession : r'.session = s' := hr' ▸ session_after r turn s'
  have hbefore : r.session.current ≠ none := by
    intro hnone
    rw [act_of_terminated hnone] at hact
    rw [hsession, ← Except.ok.inj hact] at hlives
    exact hlives hnone
  by_cases hends : r.session.current = some .receiveResponse ∧
      s'.current ≠ some .receiveResponse ∧ r.session.context.initiated = true
  · obtain ⟨hcurrent, hleft, hinitiated⟩ := hends
    have hpauses := pauses_of_receive h.hears hserved.offered hcurrent hstep hlives
    obtain ⟨r'', hreceive, hnext⟩ := hleaves hinitiated
      ⟨hcurrent, hpauses.2.ne_nil, hpauses.2.2⟩
    obtain rfl := Except.ok.inj (hstep.symm.trans hreceive)
    have hcomplete : Complete (r.arrived turn) := by
      by_contra hnot
      rw [if_neg hnot, hsession] at hnext
      exact hleft hnext
    rw [← hr', Receipt.after, if_pos hcurrent, if_neg hleft]
    simp only [hinitiated, if_true]
    exact aligned_of_complete hstream h hserved hcurrent hinitiated hcomplete
  · have hearlier : r'.earlier = r.earlier := by
      rw [← hr', Receipt.after]
      split
      · rename_i hcurrent
        split
        · rfl
        · rename_i hleft
          exact if_neg fun hinitiated => hends ⟨hcurrent, hleft, hinitiated⟩
      · rfl
    rw [hearlier]
    exact h.aligned hbefore

end Turns

theorem leavesRightly_iff (lib : Externals) (st : SchemaTracker) {stream : List Message}
    (hstream : ∀ m ∈ stream, Valid m) {turns : List Turn}
    (hserved : AtEachTurn (receive lib) (.new st) (Served stream) turns) :
    AtEachTurn (receive lib) (.new st) (LeavesRightly lib) turns ↔
      AtEachTurn (receive lib) (.new st) Recognised turns :=
  atEachTurn_congr_of (I := Follows stream) (R := Served stream) (follows_new stream st)
    (fun _ _ _ h hserved hleaves hstep => follows_receive hstream h hserved hleaves hstep)
    (fun _ _ h hserved => leavesRightly_iff_recognised hstream h hserved) hserved

/-- The server accepts the startup, and is ready for a query. -/
def loginStream : List Message :=
  [⟨82, [0, 0, 0, 0]⟩, ⟨90, [73]⟩]

theorem valid_loginStream : ∀ m ∈ loginStream, Valid m := by
  simp only [loginStream, List.forall_mem_cons]
  exact ⟨⟨by decide, fun h => absurd h (by decide)⟩, ⟨by decide, fun _ => ⟨73, by simp, rfl⟩⟩,
    by simp⟩

/-- `AuthenticationOk` comes in alone. -/
def splitLogin : List Turn :=
  loginTurns [(Message.mk 82 [0, 0, 0, 0]).encode]

theorem served_splitLogin :
    AtEachTurn (receive sampleExternals) (.new .empty) (Served loginStream) splitLogin := by
  decide +kernel

theorem leavesRightly_splitLogin :
    AtEachTurn (receive sampleExternals) (.new .empty) (LeavesRightly sampleExternals) splitLogin ↔
      AtEachTurn (receive sampleExternals) (.new .empty) Recognised splitLogin :=
  leavesRightly_iff sampleExternals .empty valid_loginStream served_splitLogin

theorem not_leavesRightly_splitLogin : (∀ m ∈ loginStream, Valid m) ∧
    AtEachTurn (receive sampleExternals) (.new .empty) (Served loginStream) splitLogin ∧
    ¬AtEachTurn (receive sampleExternals) (.new .empty) (LeavesRightly sampleExternals)
      splitLogin :=
  ⟨valid_loginStream, served_splitLogin, by decide +kernel⟩

end PgFort.ResponseEnds
