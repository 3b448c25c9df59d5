import PgFort.ResponseEnds

namespace PgFort.ClosedServers

open PgFort.Framing
open PgFort.KeyedTraversal
open PgFort.Conn
open PgFort.Reads
open PgFort.Schema
open PgFort.Plugins
open PgFort.StateMachine
open PgFort.Frames
open PgFort.SqlForwarding
open PgFort.Runs
open PgFort.Lives
open PgFort.Batches
open PgFort.Receipts
open PgFort.PrintInfo
open PgFort.ResponseEnds

/-- A session goes on to receive a response only if the socket would block, and at the end of the
stream it goes on to forward what it has, or is terminated. -/
def Heeds (lib : Externals) (r : Receipt) (turn : Turn) : Prop :=
  r.session.current = some .receiveResponse →
    (∀ r', receive lib r turn = .ok r' →
      r'.session.current = some .receiveResponse → turn.io.stop = .wouldBlock) ∧
    (turn.io.stop = .closed → ∃ r', receive lib r turn = .ok r' ∧
      (r'.session.current = none ∨ r'.session.current = some .applyPostResponsePlugins))

/-- At the end of the stream there is nothing of a response, as an `int` counts it; or what there
is can be printed and, if the session has had its startup, begins like an authentication request or
ends like a `ReadyForQuery`. -/
def EndsInTime (r : Receipt) (turn : Turn) : Prop :=
  r.session.current = some .receiveResponse → turn.io.stop = .closed →
    asInt (r.arrived turn).length ≤ 0 ∨
      Printed (r.arrived turn) ∧ (r.session.context.initiated = true →
        (r.arrived turn).head? = some 82 ∨ EndsLikeReady (counted (r.arrived turn)))

section Turns

variable {lib : Externals} {r r' : Receipt} {turn : Turn} {bytes : Bytes}

theorem sixCame_of_endsLikeReady (hcount : 0 < asInt bytes.length)
    (h : EndsLikeReady (counted bytes)) : SixCame bytes := by
  obtain ⟨status, -, hsuffix⟩ := h
  have hlength := length_counted hcount
  have hsix := hsuffix.length_le
  rw [encode_ready] at hsix
  right
  rw [← hlength]
  exact Int.ofNat_le.mpr hsix

theorem inspect_true_iff (hcount : 0 < asInt bytes.length) {initiated : Bool} :
    inspect initiated (received bytes) = .ok true ↔ Printed bytes ∧
      (initiated = true → bytes.head? = some 82 ∨ EndsLikeReady (counted bytes)) := by
  rw [inspect_received hcount]
  constructor
  · rintro ⟨hprinted, -, hready⟩
    exact ⟨hprinted, hready.mp rfl⟩
  · rintro ⟨hprinted, hends⟩
    exact ⟨hprinted, fun hinitiated => (hends hinitiated).elim .inl (sixCame_of_endsLikeReady hcount),
      iff_of_true rfl hends⟩

theorem heeds_iff_endsInTime (h : Hears r) (hoffered : Offered r turn) :
    Heeds lib r turn ↔ EndsInTime r turn := by
  refine forall_congr' fun hcurrent => ?_
  obtain ⟨hends, hlooks⟩ := receive_cases lib h hoffered hcurrent
  by_cases hpaused : Paused turn.io.stop (r.arrived turn)
  · obtain ⟨hgoes, hfaults⟩ := hlooks hpaused
    constructor
    · rintro ⟨hstays, hleaves⟩ hclosed
      refine .inr ((inspect_true_iff hpaused.1).mp ?_)
      obtain ⟨r', hreceive, hnext⟩ := hleaves hclosed
      cases hinspect : inspect r.session.context.initiated (received (r.arrived turn)) with
      | error f => exact nomatch (hfaults f hinspect).symm.trans hreceive
      | ok ready =>
          cases ready with
          | true => rfl
          | false =>
              obtain ⟨r'', hreceive', hstays'⟩ := hgoes false hinspect
              exact nomatch (hstays r'' hreceive' hstays').symm.trans hclosed
    · intro hin
      cases hstop : turn.io.stop with
      | failed errno => exact absurd hstop (hpaused.2 errno)
      | wouldBlock => exact ⟨fun _ _ _ => rfl, fun hclosed => nomatch hclosed⟩
      | closed =>
          have hready := (inspect_true_iff hpaused.1).mpr
            ((hin hstop).resolve_left (not_le.mpr hpaused.1))
          obtain ⟨r', hreceive, hnext⟩ := hgoes true hready
          refine ⟨fun r'' hreceive' hstays => ?_, fun _ => ⟨r', hreceive, .inr hnext⟩⟩
          obtain rfl := Except.ok.inj (hreceive.symm.trans hreceive')
          exact nomatch hstays.symm.trans hnext
  · obtain ⟨r', hreceive, hnone⟩ := hends hpaused
    refine iff_of_true ⟨fun r'' hreceive' hstays => ?_, fun _ => ⟨r', hreceive, .inl hnone⟩⟩
      fun hclosed => .inl (not_lt.mp fun hcount => hpaused ⟨hcount, by simp [hclosed]⟩)
    obtain rfl := Except.ok.inj (hreceive.symm.trans hreceive')
    exact nomatch hstays.symm.trans hnone

/-- The session holds bytes that it can print, but does not take for a response. -/
structure Stuck (r : Receipt) : Prop where
  hears : Hears r
  current : r.session.current = some .receiveResponse
  held : 0 < asInt r.taken.length
  unready : inspect r.session.context.initiated (received r.taken) = .ok false

theorem stuck_receive (lib : Externals) (h : Stuck r) (hchunks : turn.io.chunks = [])
    (hstop : turn.io.stop = .closed) :
    ∃ r', receive lib r turn = .ok r' ∧ Stuck r' := by
  have harrived : r.arrived turn = r.taken := by
    rw [Receipt.arrived, hchunks, List.flatten_nil, List.append_nil]
  have hoffered : Offered r turn := by
    intro _
    rw [hchunks]
    trivial
  have hpaused : Paused turn.io.stop (r.arrived turn) := by
    rw [harrived]
    exact ⟨h.held, by simp [hstop]⟩
  obtain ⟨r', hreceive, hstays⟩ := ((receive_cases lib h.hears hoffered h.current).2 hpaused).1
    false (by rw [harrived]; exact h.unready)
  rw [if_neg Bool.false_ne_true] at hstays
  obtain ⟨s', hact, hr'⟩ := receive_eq_ok.mp hreceive
  have hkept : Kept (turn.meet r.session) s' :=
    kept_takeAction (s := turn.meet r.session) h.current (by simp) (by simp) hact
  have hsession : r'.session = s' := hr' ▸ session_after r turn s'
  have htaken : r'.taken = r.taken := by
    rw [← hr', Receipt.after, if_pos h.current, if_pos (hsession ▸ hstays)]
    exact harrived
  refine ⟨r', hreceive, hears_receive hoffered h.hears hreceive, hstays, ?_, ?_⟩
  · rw [htaken]
    exact h.held
  · rw [htaken, hsession, hkept.initiated]
    exact h.unready

/-- A session that is stuck when its server closes never gets any further. -/
theorem stuck_run (lib : Externals) (h : Stuck r) (turns : List Turn)
    (hturns : ∀ turn ∈ turns, turn.io.chunks = [] ∧ turn.io.stop = .closed) :
    ∃ r', turns.foldlM (receive lib) r = .ok r' ∧ Stuck r' := by
  induction turns generalizing r with
  | nil => exact ⟨r, rfl, h⟩
  | cons turn turns ih =>
      obtain ⟨hchunks, hstop⟩ := hturns turn List.mem_cons_self
      obtain ⟨r', hreceive, hstuck⟩ := stuck_receive lib h hchunks hstop
      obtain ⟨r'', hrun, hstuck'⟩ := ih hstuck fun t ht => hturns t (List.mem_cons_of_mem _ ht)
      refine ⟨r'', ?_, hstuck'⟩
      rw [List.foldlM_cons, hreceive]
      exact hrun

end Turns

/-- However the server and the client send, and wherever the server closes. -/
theorem heeds_run_iff (lib : Externals) (st : SchemaTracker) {turns : List Turn}
    (hoffered : AtEachTurn (receive lib) (.new st) Offered turns) :
    AtEachTurn (receive lib) (.new st) (Heeds lib) turns ↔
      AtEachTurn (receive lib) (.new st) EndsInTime turns :=
  atEachTurn_congr_of (I := Hears) (R := Offered) (hears_new st)
    (fun _ _ _ h hoffered _ hstep => hears_receive hoffered h hstep)
    (fun _ _ h hoffered => heeds_iff_endsInTime h hoffered) hoffered

/-- A server refuses a login, and closes. -/
def refusal : Bytes :=
  (Message.mk 69 (utf8 "SFATAL" ++ [0] ++ utf8 "C28P01" ++ [0, 0])).encode

def closing (chunks : List Bytes) : Io :=
  { receiving [] with chunks, stop := .closed }

def closedLogin : List Turn :=
  List.replicate 5 ⟨.empty, receiving startup⟩ ++
    [⟨.empty, receiving []⟩, ⟨.empty, closing [refusal]⟩]

instance (lib : Externals) (r : Receipt) (turn : Turn) : Decidable (Heeds lib r turn) :=
  match h : receive lib r turn with
  | .error _ => decidable_of_iff
      (r.session.current = some .receiveResponse → turn.io.stop ≠ .closed) (by simp [Heeds, h])
  | .ok r' => decidable_of_iff (r.session.current = some .receiveResponse →
      (r'.session.current = some .receiveResponse → turn.io.stop = .wouldBlock) ∧
        (turn.io.stop = .closed →
          r'.session.current = none ∨ r'.session.current = some .applyPostResponsePlugins))
      (by simp [Heeds, h])

theorem offered_closedLogin :
    AtEachTurn (receive sampleExternals) (.new .empty) Offered closedLogin := by
  decide +kernel

theorem heeds_run_closedLogin :
    AtEachTurn (receive sampleExternals) (.new .empty) (Heeds sampleExternals) closedLogin ↔
      AtEachTurn (receive sampleExternals) (.new .empty) EndsInTime closedLogin :=
  heeds_run_iff sampleExternals .empty offered_closedLogin

theorem not_heeds_closedLogin :
    AtEachTurn (receive sampleExternals) (.new .empty) Offered closedLogin ∧
      ¬AtEachTurn (receive sampleExternals) (.new .empty) (Heeds sampleExternals) closedLogin :=
  ⟨offered_closedLogin, by decide +kernel⟩

end PgFort.ClosedServers
