import PgFort.Scheduling
import PgFort.SessionOperator

namespace PgFort.Terminations

open PgFort.KeyedTraversal
open PgFort.Conn
open PgFort.Stateful.Action
open PgFort.Plugins
open PgFort.StateMachine hiding step
open PgFort.Frames
open PgFort.Runs
open PgFort.Lives
open PgFort.SqlForwarding
open PgFort.SessionOperator
open PgFort.Scheduling

/-- `recv` does not fail, and the number of the bytes that are then there is positive as an `int`. -/
def Hears (b : Buffer) (io : Io) : Prop :=
  (∀ errno, io.stop ≠ .failed errno) ∧ 0 < asInt (b.dataSize + io.chunks.flatten.length)

/-- The action's call of `recv` or `send` succeeds, if it makes one. -/
def Succeeds (s : Session) (io : Io) : Prop :=
  match s.current with
  | some .receiveRequest => Hears s.context.request io
  | some .forwardRequest => 0 < io.sent
  | some .receiveResponse => Hears s.context.response io
  | some .forwardResponse => 0 < io.sent
  | _ => True

/-- The sessions that a worker acts for succeed. -/
def StepSucceeds (o : Operator) : Step → Prop
  | .acts worker turn => ∀ s session, o.workers worker = .popped s → o.sessions s = some session →
      Succeeds session turn.io
  | _ => True

/-- A session that is terminated does not wait, and is not watched. -/
structure Released (o : Operator) : Prop where
  waiting : ∀ s session, o.sessions s = some session → session.current = none →
    session.context.waiting = false
  watching : ∀ worker s peer session, o.workers worker = .watching s peer →
    o.sessions s = some session → session.current ≠ none
  epoll : ∀ s peer session, (s, peer) ∈ o.epoll → o.sessions s = some session →
    session.current ≠ none

section Buffers

variable {b : Buffer} {chunks : List Framing.Bytes} {stop : RecvEnd}

theorem dataSize_foldl_receive (b : Buffer) (chunks : List Framing.Bytes) :
    (chunks.foldl Buffer.receive b).dataSize = b.dataSize + chunks.flatten.length := by
  induction chunks generalizing b with
  | nil => rfl
  | cons chunk chunks ih =>
      have hreceive : (b.receive chunk).dataSize = b.dataSize + chunk.length := by
        rw [Buffer.receive]
        split <;> rfl
      rw [List.foldl_cons, ih, hreceive, List.flatten_cons, List.length_append, Nat.add_assoc]

theorem dataSize_restore (b : Buffer) : b.restore.dataSize = b.dataSize := by
  rw [Buffer.restore]
  split <;> rfl

theorem recvFrom_le_zero_iff (b : Buffer) (io : Io) :
    (b.recvFrom io.chunks io.stop).2 ≤ 0 ↔ ¬ Hears b io := by
  have hsize := dataSize_foldl_receive b.restore io.chunks
  rw [dataSize_restore] at hsize
  have hcount : (io.chunks.foldl Buffer.receive b.restore).size ≤ 0 ↔
      ¬0 < asInt (b.dataSize + io.chunks.flatten.length) := by
    rw [Buffer.size, hsize, not_lt]
  cases hstop : io.stop with
  | wouldBlock => simpa [Hears, Buffer.recvFrom, hstop] using hcount
  | closed => simpa [Hears, Buffer.recvFrom, hstop] using hcount
  | failed errno => simp [Hears, Buffer.recvFrom, hstop]

end Buffers

section Turns

variable {lib : Externals} {io : Io} {s s' : Session} {turn : Turn}

theorem ends_action {state : SessionState} (hcurrent : s.current = some state) :
    wp (action lib io state)
      (fun next s' => (Succeeds s io → next ≠ none) ∧
        (¬ Succeeds s io → next = none ∧ s'.context.waiting = s.context.waiting))
      (fun _ _ => Succeeds s io) s := by
  have hother (hsucceeds : Succeeds s io) (hnone : none ∉ successors s.context.initiated state) :
      wp (action lib io state)
        (fun next s' => (Succeeds s io → next ≠ none) ∧
          (¬ Succeeds s io → next = none ∧ s'.context.waiting = s.context.waiting))
        (fun _ _ => Succeeds s io) s := by
    refine wp_mono (next_mem_successors state s) (fun next s' hnext => ?_) fun _ _ _ => hsucceeds
    exact ⟨fun _ heq => hnone (heq ▸ hnext), fun hfails => absurd hsucceeds hfails⟩
  cases state with
  | receiveRequest =>
      have hcall : Succeeds s io ↔ Hears s.context.request io := by rw [Succeeds, hcurrent]
      simp only [action, wp_receiveRequest, recvFrom_le_zero_iff, hcall]
      exact ⟨fun hfails => ⟨fun h => absurd h hfails, fun _ => ⟨trivial, trivial⟩⟩,
        fun h => ⟨fun _ => by simp, fun hfails => absurd hfails h⟩⟩
  | forwardRequest =>
      have hcall : Succeeds s io ↔ 0 < io.sent := by rw [Succeeds, hcurrent]
      simp only [action, wp_forwardRequest, hcall, ← not_lt]
      exact ⟨fun hfails => ⟨fun h => absurd h hfails, fun _ => ⟨trivial, trivial⟩⟩,
        fun h => ⟨fun _ => by simp, fun hfails => absurd hfails h⟩⟩
  | receiveResponse =>
      have hcall : Succeeds s io ↔ Hears s.context.response io := by rw [Succeeds, hcurrent]
      simp only [action, wp_receiveResponse, recvFrom_le_zero_iff, hcall]
      exact ⟨fun hfails => ⟨fun h => absurd h hfails, fun _ => ⟨trivial, trivial⟩⟩,
        fun h => ⟨fun ready _ => ⟨fun _ => ⟨fun _ => by simp, fun hfails => absurd hfails h⟩,
          fun _ => ⟨fun _ => by simp, fun hfails => absurd hfails h⟩⟩, fun _ _ => not_not.mp h⟩⟩
  | forwardResponse =>
      have hcall : Succeeds s io ↔ 0 < io.sent := by rw [Succeeds, hcurrent]
      simp only [action, wp_forwardResponse, hcall, ← not_lt]
      exact ⟨fun hfails => ⟨fun h => absurd h hfails, fun _ => ⟨trivial, trivial⟩⟩,
        fun h => ⟨fun _ => by simp, fun hfails => absurd hfails h⟩⟩
  | _ => exact hother (by rw [Succeeds, hcurrent]; trivial) (by simp [successors])

theorem lives_of_act (h : Succeeds s turn.io) (hlives : s.current ≠ none)
    (hact : act lib s turn = .ok s') : s'.current ≠ none := by
  obtain ⟨state, hcurrent⟩ := Option.ne_none_iff_exists'.mp hlives
  have hmeet : (turn.meet s).current = some state := hcurrent
  obtain ⟨next, t, ⟨hnext, -⟩, rfl⟩ := exists_of_takeAction hmeet (ends_action hmeet) hact
  exact hnext h

theorem awaited_of_fails {state : SessionState} (hcurrent : s.current = some state)
    (h : ¬ Succeeds s io) : (awaited state).isSome = true := by
  rw [Succeeds, hcurrent] at h
  cases state <;> first | rfl | exact absurd trivial h

theorem exists_act_of_fails (hscheduled : Scheduled s) (hlives : s.current ≠ none)
    (h : ¬ Succeeds s turn.io) :
    ∃ s', act lib s turn = .ok s' ∧ s'.current = none ∧ s'.context.waiting = true := by
  obtain ⟨state, hcurrent⟩ := Option.ne_none_iff_exists'.mp hlives
  have hmeet : (turn.meet s).current = some state := hcurrent
  cases hact : act lib s turn with
  | error f =>
      obtain ⟨-, hsucceeds⟩ := fault_of_takeAction hmeet (ends_action hmeet) hact
      exact absurd hsucceeds h
  | ok s' =>
      obtain ⟨next, t, ⟨-, hends⟩, rfl⟩ := exists_of_takeAction hmeet (ends_action hmeet) hact
      obtain ⟨rfl, hwaiting⟩ := hends h
      have hregistered := (hscheduled state hcurrent).waiting
      rw [awaited_of_fails hcurrent h] at hregistered
      exact ⟨_, rfl, rfl, hwaiting.trans hregistered⟩

end Turns

section Steps

variable {lib : Externals} {o o' : Operator} {e : Step}

theorem deref_eq_ok {s : Nat} {session : Session} (h : o.deref s = .ok session) :
    o.sessions s = some session := by
  rw [Operator.deref] at h
  split at h
  · rename_i hfound
    rw [hfound, Except.ok.inj h]
  · exact absurd h (by simp)

theorem takeTurn_cases {worker : Nat} {turn : Turn} (h : takeTurn lib o worker turn = .ok o') :
    o' = o ∨ ∃ s session session', o.workers worker = .popped s ∧ o.sessions s = some session ∧
      session.current ≠ none ∧ act lib session turn = .ok session' ∧
      o' = { o.setWorker worker (.acted s) with
        sessions := Function.update o.sessions s (some session') } := by
  rw [takeTurn] at h
  split at h
  · rename_i s hworker
    obtain ⟨session, hderef, h⟩ := bind_eq_ok.mp h
    split at h
    · exact .inl (Except.ok.inj h).symm
    · rename_i hlives
      obtain ⟨session', hact, h⟩ := bind_eq_ok.mp h
      refine .inr ⟨s, session, session', hworker, deref_eq_ok hderef, hlives, ?_,
        (Except.ok.inj h).symm⟩
      cases hresult : act lib session turn with
      | error f => simp [hresult, Except.mapError] at hact
      | ok t =>
          rw [hresult] at hact
          exact congrArg Except.ok (Except.ok.inj hact)
  · exact .inl (Except.ok.inj h).symm

theorem sessions_of_other (hstep : step lib o e = .ok o') (hsubmits : ∀ st, e ≠ .submits st)
    (hacts : ∀ worker turn, e ≠ .acts worker turn) {s : Nat} {session : Session}
    (hsession : o'.sessions s = some session) : o.sessions s = some session := by
  have hsame {q : Operator} (h : Except.ok q = (.ok o' : Except Crash Operator))
      (hq : q.sessions = o.sessions) : o.sessions s = some session := by
    rw [← hq, Except.ok.inj h]
    exact hsession
  cases e with
  | submits st => exact absurd rfl (hsubmits st)
  | acts worker turn => exact absurd rfl (hacts worker turn)
  | deletes worker =>
      change delete o worker = .ok o' at hstep
      rw [delete] at hstep
      split at hstep
      · obtain ⟨deleted, -, hstep⟩ := bind_eq_ok.mp hstep
        split at hstep
        · obtain rfl := Except.ok.inj hstep
          change Function.update o.sessions _ none s = some session at hsession
          rw [Function.update_apply] at hsession
          split at hsession
          · exact absurd hsession (by simp)
          · exact hsession
        · exact hsame hstep rfl
      · exact hsame hstep rfl
  | asks worker =>
      change ask o worker = .ok o' at hstep
      rw [ask] at hstep
      split at hstep
      · obtain ⟨asked, -, hstep⟩ := bind_eq_ok.mp hstep
        split at hstep
        · split at hstep
          · exact hsame hstep rfl
          · exact absurd hstep (by simp)
        · exact hsame hstep rfl
      · exact hsame hstep rfl
  | addsToWatch worker =>
      change addToWatch o worker = .ok o' at hstep
      rw [addToWatch] at hstep
      split at hstep
      · split at hstep
        · exact absurd hstep (by simp)
        · exact hsame hstep rfl
      · exact hsame hstep rfl
  | resubmits worker =>
      change resubmit o worker = .ok o' at hstep
      rw [resubmit] at hstep
      split at hstep <;> exact hsame hstep rfl
  | removes =>
      change remove o = .ok o' at hstep
      rw [remove] at hstep
      split at hstep
      · obtain ⟨removed, -, hstep⟩ := bind_eq_ok.mp hstep
        split at hstep
        · split at hstep
          · exact hsame hstep rfl
          · exact absurd hstep (by simp)
        · exact absurd hstep (by simp)
      · exact hsame hstep rfl
  | pops worker =>
      rw [step] at hstep
      split at hstep <;> exact hsame hstep rfl
  | finishes worker =>
      rw [step] at hstep
      split at hstep <;> exact hsame hstep rfl
  | reports sessions =>
      rw [step] at hstep
      split at hstep <;> exact hsame hstep rfl
  | returns =>
      rw [step] at hstep
      split at hstep <;> exact hsame hstep rfl

theorem sessions_step {P : Session → Prop} (hnew : ∀ st, P (Session.new st))
    (hact : ∀ worker turn s session session', e = .acts worker turn → o.workers worker = .popped s →
      o.sessions s = some session → session.current ≠ none →
      act lib session turn = .ok session' → P session → P session')
    (h : ∀ s session, o.sessions s = some session → P session) (hstep : step lib o e = .ok o') :
    ∀ s session, o'.sessions s = some session → P session := by
  intro s session hsession
  cases e with
  | submits st =>
      obtain rfl := Except.ok.inj hstep
      change Function.update o.sessions o.submitted _ s = some session at hsession
      rw [Function.update_apply] at hsession
      split at hsession
      · exact Option.some.inj hsession ▸ hnew st
      · exact h s session hsession
  | acts worker turn =>
      obtain rfl | ⟨t, before, after, hworker, hbefore, hlives, hafter, rfl⟩ := takeTurn_cases hstep
      · exact h s session hsession
      · change Function.update o.sessions t _ s = some session at hsession
        rw [Function.update_apply] at hsession
        split at hsession
        · obtain rfl := Option.some.inj hsession
          exact hact worker turn t before after rfl hworker hbefore hlives hafter (h t before hbefore)
        · exact h s session hsession
  | _ => exact h s session (sessions_of_other hstep (by simp) (by simp) hsession)

theorem scheduled_step (h : ∀ s session, o.sessions s = some session → Scheduled session)
    (hstep : step lib o e = .ok o') : ∀ s session, o'.sessions s = some session → Scheduled session := by
  refine sessions_step (fun st => ?_) (fun _ _ _ _ _ _ _ _ _ hact hbefore => ?_) h hstep
  · rintro state ⟨⟩
    exact registered_of_not_waiting rfl rfl
  · exact scheduled_act hbefore hact

theorem lives_step (hsucceeds : StepSucceeds o e)
    (h : ∀ s session, o.sessions s = some session → session.current ≠ none)
    (hstep : step lib o e = .ok o') :
    ∀ s session, o'.sessions s = some session → session.current ≠ none := by
  refine sessions_step (P := fun session => session.current ≠ none) (fun st => ?_)
    (fun worker turn s session session' he hworker hsession hlives hact _ => ?_) h hstep
  · exact Option.some_ne_none _
  · subst he
    exact lives_of_act (hsucceeds s session hworker hsession) hlives hact

theorem exists_step_of_fails {worker s : Nat} {turn : Turn} {session : Session}
    (hworker : o.workers worker = .popped s) (hsession : o.sessions s = some session)
    (hscheduled : Scheduled session) (hfails : ¬ Succeeds session turn.io) :
    ∃ o' session', step lib o (.acts worker turn) = .ok o' ∧ o'.sessions s = some session' ∧
      session'.current = none ∧ session'.context.waiting = true := by
  have hlives : session.current ≠ none := by
    intro hterminated
    apply hfails
    rw [Succeeds, hterminated]
    trivial
  obtain ⟨session', hact, hterminated, hwaiting⟩ := exists_act_of_fails hscheduled hlives hfails
  refine ⟨{ o.setWorker worker (.acted s) with
    sessions := Function.update o.sessions s (some session') }, session', ?_,
    Function.update_self s (some session') o.sessions, hterminated, hwaiting⟩
  change takeTurn lib o worker turn = _
  rw [takeTurn, hworker]
  simp only [Operator.deref, hsession]
  change (if session.current = none then _ else _) = _
  rw [if_neg hlives, hact]
  rfl

end Steps

/-- Sessions are released when they end exactly if none ends. -/
theorem released_iff (lib : Externals) (steps : List Step) :
    (∀ pre post o, steps = pre ++ post → pre.foldlM (step lib) .new = .ok o → Released o) ↔
      AtEachTurn (step lib) .new StepSucceeds steps := by
  have hnone : ∀ s session, Operator.new.sessions s ≠ some session := fun _ _ => by
    simp [Operator.new]
  constructor
  · intro h pre e post o hsplit hrun
    have hscheduled := invariant_foldlM
      (P := fun o : Operator => ∀ s session, o.sessions s = some session → Scheduled session)
      (fun _ _ _ h hstep => scheduled_step h hstep) (fun s session hs => absurd hs (hnone s session))
      hrun
    cases e with
    | acts worker turn =>
        intro s session hworker hsession
        by_contra hfails
        obtain ⟨o', session', hstep, hsession', hterminated, hwaiting⟩ :=
          exists_step_of_fails hworker hsession (hscheduled s session hsession) hfails
        have hrun' : (pre ++ [Step.acts worker turn]).foldlM (step lib) .new = .ok o' := by
          rw [foldlM_concat, hrun]
          exact hstep
        have hreleased := h (pre ++ [Step.acts worker turn]) post o' (by simp [hsplit]) hrun'
        rw [hreleased.waiting s session' hsession' hterminated] at hwaiting
        exact absurd hwaiting (by simp)
    | _ => trivial
  · intro h pre post o hsplit hrun
    have hlives := invariant_of_atEachTurn
      (I := fun o : Operator => ∀ s session, o.sessions s = some session → session.current ≠ none)
      (fun s session hs => absurd hs (hnone s session))
      (fun _ _ _ h hsucceeds hstep => lives_step hsucceeds h hstep) h hsplit hrun
    exact ⟨fun s session hs hterminated => absurd hterminated (hlives s session hs),
      fun _ s _ session _ hs => hlives s session hs, fun s _ session _ hs => hlives s session hs⟩

/-- The client of a session has gone before the first request. -/
theorem not_released_silentClient : ¬ ∀ pre post o, silentClient = pre ++ post →
    pre.foldlM (step sampleExternals) .new = .ok o → Released o := by
  intro h
  have hend : ((silentClient.take 13).foldlM (step sampleExternals) .new).toOption.map (fun o =>
      (o.sessions 0).map fun s => (s.current.isNone, s.context.waiting)) =
        some (some (true, true)) := by
    decide +kernel
  obtain ⟨o, ho, hsession⟩ := Option.map_eq_some_iff.mp hend
  obtain ⟨s, hs, heq⟩ := Option.map_eq_some_iff.mp hsession
  obtain ⟨hterminated, hwaiting⟩ := Prod.mk.inj heq
  have hreleased := h _ _ o (List.take_append_drop 13 silentClient).symm (eq_ok_of_toOption ho)
  rw [hreleased.waiting 0 s hs (Option.isNone_iff_eq_none.mp hterminated)] at hwaiting
  exact absurd hwaiting (by simp)

end PgFort.Terminations
