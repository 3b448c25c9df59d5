import PgFort.Lives
import PgFort.SqlForwarding

namespace PgFort.Forwarding

open PgFort.Framing
open PgFort.KeyedTraversal
open PgFort.Stateful.Action
open PgFort.Conn
open PgFort.Schema
open PgFort.Plugins
open PgFort.StateMachine
open PgFort.Frames
open PgFort.SqlForwarding
open PgFort.Runs
open PgFort.Lives

/-- A session, and what the peer's socket has accepted since the session came to its state. -/
structure Delivery where
  session : Session
  accepted : Bytes

/-- `send` accepts a beginning of the bytes that it is offered. -/
def sentBytes (s : Session) (io : Io) : Bytes :=
  match offered s with
  | some (_, bytes) => bytes.take io.sent.toNat
  | none => []

variable (lib : Externals)

/-- A turn, with what `send` has accepted of what the session offers. -/
def deliver (d : Delivery) (turn : Turn) : Except Fault Delivery := do
  let s ← act lib d.session turn
  return ⟨s, if (offered d.session).isSome then d.accepted ++ sentBytes d.session turn.io else []⟩

/-- What a session takes for forwarded when it goes on after a forwarding state. -/
def goneOn (s s' : Session) : Option Bytes :=
  match s.current, s'.current with
  | some .forwardRequest, some .prepareToReceiveResponse => some s.context.request.data
  | some .forwardResponse, some .resetContext => some s.context.response.data
  | _, _ => none

/-- The session goes on only when all of it has been accepted. -/
def Lossless (d : Delivery) (turn : Turn) : Prop :=
  ∀ d' bytes, deliver lib d turn = .ok d' → goneOn d.session d'.session = some bytes →
    d'.accepted = bytes

/-- `send` fails, or accepts all that it is offered. -/
def NotShort (d : Delivery) (turn : Turn) : Prop :=
  ∀ peer bytes, offered d.session = some (peer, bytes) →
    turn.io.sent ≤ 0 ∨ (bytes.length : Int) ≤ turn.io.sent

section Steps

variable {lib} {s s' : Session} {d d' : Delivery} {turn : Turn} {peer : Peer} {bytes : Bytes}

theorem takeAction_of_send (lib : Externals) (io : Io) {s : Session} {state next : SessionState}
    (hcurrent : s.current = some state)
    (haction : action lib io state = proceed io io.sent (stopWaiting next)) :
    ∃ s', takeAction lib io s = .ok s' ∧
      (io.sent ≤ 0 ∧ s'.current = none ∨ ¬io.sent ≤ 0 ∧ s'.current = some next) := by
  rw [takeAction, hcurrent]
  simp only [haction]
  by_cases hsent : io.sent ≤ 0
  · rw [proceed, if_pos hsent]
    exact ⟨_, rfl, .inl ⟨hsent, rfl⟩⟩
  · rw [proceed, if_neg hsent]
    exact ⟨_, rfl, .inr ⟨hsent, rfl⟩⟩

theorem act_of_offered (lib : Externals) (turn : Turn) (h : offered s = some (peer, bytes)) :
    ∃ s', act lib s turn = .ok s' ∧ offered s' = none ∧
      goneOn s s' = if turn.io.sent ≤ 0 then none else some bytes := by
  rw [offered] at h
  split at h
  · rename_i hcurrent
    obtain ⟨-, rfl⟩ := Prod.mk.inj (Option.some.inj h)
    obtain ⟨s', hact, ⟨hsent, hnext⟩ | ⟨hsent, hnext⟩⟩ :=
      takeAction_of_send lib turn.io (s := turn.meet s) hcurrent rfl
    · exact ⟨s', hact, by rw [offered, hnext], by rw [goneOn, hcurrent, hnext, if_pos hsent]⟩
    · exact ⟨s', hact, by rw [offered, hnext], by rw [goneOn, hcurrent, hnext, if_neg hsent]⟩
  · rename_i hcurrent
    obtain ⟨-, rfl⟩ := Prod.mk.inj (Option.some.inj h)
    obtain ⟨s', hact, ⟨hsent, hnext⟩ | ⟨hsent, hnext⟩⟩ :=
      takeAction_of_send lib turn.io (s := turn.meet s) hcurrent rfl
    · exact ⟨s', hact, by rw [offered, hnext], by rw [goneOn, hcurrent, hnext, if_pos hsent]⟩
    · exact ⟨s', hact, by rw [offered, hnext], by rw [goneOn, hcurrent, hnext, if_neg hsent]⟩
  · simp at h

theorem goneOn_of_not_offered (h : offered s = none) (s' : Session) : goneOn s s' = none := by
  rw [offered] at h
  rw [goneOn]
  split at h
  · simp at h
  · simp at h
  · rename_i hrequest hresponse
    split
    · rename_i hcurrent _
      exact absurd hcurrent hrequest
    · rename_i hcurrent _
      exact absurd hcurrent hresponse
    · rfl

/-- Nothing has been accepted yet when a session comes to a forwarding state. -/
def Begun (d : Delivery) : Prop :=
  (offered d.session).isSome = true → d.accepted = []

theorem begun_deliver (h : deliver lib d turn = .ok d') : Begun d' := by
  obtain ⟨s', hact, hd'⟩ := bind_eq_ok.mp h
  obtain rfl := Except.ok.inj hd'
  intro hoffered
  cases hbefore : offered d.session with
  | none => rfl
  | some offer =>
      obtain ⟨peer, bytes⟩ := offer
      obtain ⟨t, ht, hnone, -⟩ := act_of_offered lib turn hbefore
      obtain rfl := Except.ok.inj (ht.symm.trans hact)
      simp [hnone] at hoffered

theorem lossless_iff_notShort (hbegun : Begun d) : Lossless lib d turn ↔ NotShort d turn := by
  cases hoffered : offered d.session with
  | none =>
      refine iff_of_true ?_ ?_
      · intro d' bytes _ hgone
        simp [goneOn_of_not_offered hoffered] at hgone
      · intro peer bytes h
        simp [hoffered] at h
  | some offer =>
      obtain ⟨peer, bytes⟩ := offer
      obtain ⟨s', hact, -, hgone⟩ := act_of_offered lib turn hoffered
      have hdeliver : deliver lib d turn = .ok ⟨s', bytes.take turn.io.sent.toNat⟩ := by
        rw [deliver, hact, hoffered, sentBytes, hoffered, hbegun (by rw [hoffered]; rfl)]
        rfl
      constructor
      · intro h peer' bytes' heq
        obtain ⟨rfl, rfl⟩ := Prod.mk.inj (Option.some.inj (hoffered.symm.trans heq))
        by_cases hsent : turn.io.sent ≤ 0
        · exact .inl hsent
        · rw [if_neg hsent] at hgone
          have hall := congrArg List.length (h _ bytes hdeliver hgone)
          rw [List.length_take] at hall
          right
          omega
      · intro h d' bytes' hd' hgone'
        obtain rfl := Except.ok.inj (hdeliver.symm.trans hd')
        rw [hgone] at hgone'
        split at hgone'
        · simp at hgone'
        · rename_i hsent
          obtain rfl := Option.some.inj hgone'
          have hall := (h peer bytes hoffered).resolve_left hsent
          exact List.take_of_length_le (by omega)

end Steps

theorem lossless_iff (lib : Externals) (st : SchemaTracker) (turns : List Turn) :
    AtEachTurn (deliver lib) ⟨Session.new st, []⟩ (Lossless lib) turns ↔
      AtEachTurn (deliver lib) ⟨Session.new st, []⟩ NotShort turns :=
  atEachTurn_congr (fun _ _ _ _ => begun_deliver) (fun _ => rfl)
    (fun _ _ => lossless_iff_notShort) turns

/-- The server's socket takes one byte of the eight. -/
theorem not_lossless_sslRequest :
    ¬AtEachTurn (deliver sampleExternals) ⟨Session.new .empty, []⟩ (Lossless sampleExternals)
      (cycle sslRequest) := by
  intro h
  have hstart : (((cycle sslRequest).take 4).foldlM (deliver sampleExternals)
      ⟨Session.new .empty, []⟩).toOption.map (fun d => (offered d.session, d.accepted)) =
        some (some (.server, sslRequest), []) := by
    decide +kernel
  obtain ⟨d, hd, hbefore⟩ := Option.map_eq_some_iff.mp hstart
  obtain ⟨hoffered, hempty⟩ := Prod.mk.inj hbefore
  have hlossless := h _ ⟨.empty, receiving sslRequest⟩ ((cycle sslRequest).drop 5) d rfl
    (eq_ok_of_toOption hd)
  have hnotShort := (lossless_iff_notShort fun _ => hempty).mp hlossless .server sslRequest hoffered
  exact absurd hnotShort (by decide)

end PgFort.Forwarding
