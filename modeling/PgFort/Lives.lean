import PgFort.Frames
import PgFort.Runs

/-!
The life of one session: its own turns, each of which finds the tracker as the other sessions have
left it.
-/

namespace PgFort.Lives

open PgFort.Framing
open PgFort.KeyedTraversal
open PgFort.Conn
open PgFort.Schema
open PgFort.Plugins
open PgFort.StateMachine
open PgFort.Frames
open PgFort.Runs

structure Turn where
  st : SchemaTracker
  io : Io

/-- The session as the turn finds it, with the tracker of the moment. -/
def Turn.meet (turn : Turn) (s : Session) : Session :=
  { s with st := turn.st }

variable (lib : Externals)

/-- A turn of the session. -/
def act (s : Session) (turn : Turn) : Except Fault Session :=
  takeAction lib turn.io (turn.meet s)

def live (s : Session) (turns : List Turn) : Except Fault Session :=
  turns.foldlM (act lib) s

/-- What a session may have become since it was made. -/
def Reachable (s : Session) : Prop :=
  ∃ st turns, live lib (Session.new st) turns = .ok s

/-- The states that a session is in, one after the other. -/
def visited (s : Session) : List Turn → List SessionState
  | [] => s.current.toList
  | turn :: turns =>
      s.current.toList ++
        match act lib s turn with
        | .ok s' => visited s' turns
        | .error _ => []

/-- The bytes that the session's next action offers to `send`, and the socket for them. -/
def offered (s : Session) : Option (Peer × Bytes) :=
  match s.current with
  | some .forwardRequest => some (.server, s.context.request.data)
  | some .forwardResponse => some (.client, s.context.response.data)
  | _ => none

/-- What a session offers to its sockets. -/
def forwarded (s : Session) : List Turn → List (Peer × Bytes)
  | [] => []
  | turn :: turns =>
      (offered s).toList ++
        match act lib s turn with
        | .ok s' => forwarded s' turns
        | .error _ => []

variable {lib} {s s' : Session}

theorem live_cons {turn : Turn} {turns : List Turn} :
    live lib s (turn :: turns) = act lib s turn >>= fun s' => live lib s' turns :=
  List.foldlM_cons

theorem act_of_terminated {turn : Turn} (h : s.current = none) :
    act lib s turn = .ok (turn.meet s) := by
  rw [act, takeAction, Turn.meet, h]

theorem invariant_reachable {P : Session → Prop} (hinit : ∀ st, P (Session.new st))
    (hact : ∀ s turn s', P s → act lib s turn = .ok s' → P s') (h : Reachable lib s) : P s := by
  obtain ⟨st, turns, hlive⟩ := h
  exact invariant_foldlM hact (hinit st) hlive

theorem exists_live_of_run {p q : Proxy} {turns : List (Nat × Io)}
    (hrun : run lib p turns = .ok q) (i : Nat) :
    ∃ life, live lib (p.sessions i) life = .ok (q.sessions i) ∧
      life.map Turn.io = (turns.filter fun turn => turn.1 = i).map Prod.snd := by
  induction turns generalizing p with
  | nil =>
      obtain rfl := Except.ok.inj hrun
      exact ⟨[], rfl, rfl⟩
  | cons turn turns ih =>
      obtain ⟨j, io⟩ := turn
      rw [run, List.foldlM_cons] at hrun
      obtain ⟨r, hstep, hrest⟩ := bind_eq_ok.mp hrun
      obtain ⟨t, htake, hr⟩ := bind_eq_ok.mp hstep
      obtain rfl := Except.ok.inj hr
      obtain ⟨life, hlive, hios⟩ := ih hrest
      by_cases hj : j = i
      · subst hj
        refine ⟨⟨p.st, io⟩ :: life, ?_, ?_⟩
        · rw [live_cons]
          refine bind_eq_ok.mpr ⟨t, htake, ?_⟩
          simpa only [Function.update_self] using hlive
        · rw [List.map_cons, hios, List.filter_cons_of_pos (by simp), List.map_cons]
      · refine ⟨life, ?_, ?_⟩
        · simpa only [Function.update_of_ne (Ne.symm hj)] using hlive
        · rw [hios, List.filter_cons_of_neg (by simpa using hj)]

section Others

variable {p q : Proxy} {i : Nat} {io : Io}

theorem run_append (lib : Externals) (p : Proxy) (turns later : List (Nat × Io)) :
    run lib p (turns ++ later) = run lib p turns >>= fun q => run lib q later :=
  List.foldlM_append

theorem takeAction_of_step (h : StateMachine.step lib p (i, io) = .ok q) :
    takeAction lib io (p.session i) = .ok (q.sessions i) ∧
      q.toServer i = p.toServer i ++ handed (p.session i) := by
  obtain ⟨s, htake, hq⟩ := bind_eq_ok.mp h
  obtain rfl := Except.ok.inj hq
  refine ⟨htake.trans (congrArg Except.ok ?_), Function.update_self ..⟩
  show s = Function.update p.sessions i s i
  rw [Function.update_self]

theorem exists_step_of_takeAction (h : takeAction lib io (p.session i) = .ok s) :
    ∃ q, StateMachine.step lib p (i, io) = .ok q := by
  rw [StateMachine.step, h]
  exact ⟨_, rfl⟩

theorem run_of_others {turns : List (Nat × Io)} (hothers : ∀ t ∈ turns, t.1 ≠ i)
    (hrun : run lib p turns = .ok q) :
    q.sessions i = p.sessions i ∧ q.toServer i = p.toServer i := by
  induction turns using List.reverseRecOn generalizing q with
  | nil =>
      obtain rfl := Except.ok.inj hrun
      exact ⟨rfl, rfl⟩
  | append_singleton turns turn ih =>
      rw [run_concat] at hrun
      obtain ⟨r, hr, hstep⟩ := bind_eq_ok.mp hrun
      obtain ⟨hsession, hserver⟩ := ih (fun t ht => hothers t (List.mem_append_left _ ht)) hr
      have hne : i ≠ turn.1 :=
        Ne.symm (hothers turn (List.mem_append_right _ (List.mem_singleton.mpr rfl)))
      obtain ⟨s', -, hq⟩ := bind_eq_ok.mp hstep
      obtain rfl := Except.ok.inj hq
      exact ⟨(Function.update_of_ne hne ..).trans hsession,
        (Function.update_of_ne hne ..).trans hserver⟩

end Others

def sslRequest : Bytes :=
  bigEndian 8 ++ [4, 210, 22, 47]

/-- A startup message by the user `sam`. -/
def startup : Bytes :=
  bigEndian 18 ++ [0, 3, 0, 0] ++ (utf8 "user" ++ [0] ++ utf8 "sam" ++ [0, 0])

/-- The turns in which a session receives a batch and returns what the server answers to it. -/
def cycle (batch : Bytes) : List Turn :=
  List.replicate 5 ⟨.empty, receiving batch⟩ ++
    List.replicate 6 ⟨.empty, receiving [90, 0, 0, 0, 5, 73]⟩

end PgFort.Lives
