import Mathlib.Data.List.Chain
import PgFort.Lives
import PgFort.SqlForwarding

namespace PgFort.Scheduling

open PgFort.Framing
open PgFort.KeyedTraversal
open PgFort.Schema
open PgFort.Stateful.Action
open PgFort.Plugins
open PgFort.StateMachine
open PgFort.Frames
open PgFort.SqlForwarding
open PgFort.Lives

/-- The socket and the direction that the action of a state uses. -/
def awaited : SessionState → Option (Peer × EpollEvents)
  | .receiveRequest => some (.client, .epollIn)
  | .forwardRequest => some (.server, .epollOut)
  | .receiveResponse => some (.server, .epollIn)
  | .forwardResponse => some (.client, .epollOut)
  | _ => none

/-- The session is registered for what its next action uses, or not at all. -/
structure Registered (state : SessionState) (c : Context) : Prop where
  waiting : c.waiting = (awaited state).isSome
  ev : c.waiting = true → c.ev = awaited state

theorem registered_of_not_waiting {state : SessionState} {c : Context} (hwaiting : c.waiting = false)
    (hstate : awaited state = none) : Registered state c :=
  ⟨by rw [hwaiting, hstate]; rfl, fun h => by simp [hwaiting] at h⟩

/-- The session waits, or does not, as its state is. -/
def Scheduled (s : Session) : Prop :=
  ∀ state, s.current = some state → Registered state s.context

/-- The session comes to wait for a request, and on its way to the next it returns one response,
after it has handed on one request or none. -/
def OneEach (path : List SessionState) : Prop :=
  ∀ earlier between later,
    path = earlier ++ .receiveRequest :: (between ++ .receiveRequest :: later) →
    .receiveRequest ∉ between →
    ∃ before after, between = before ++ .forwardResponse :: after ∧
      .forwardResponse ∉ before ∧ .forwardResponse ∉ after ∧
      before.count .forwardRequest ≤ 1 ∧ .forwardRequest ∉ after

section Scheduled

variable {lib : Externals} {io : Io} {s s' : Session}

theorem registered_action {state : SessionState} (h : Registered state s.context) :
    wp (action lib io state)
      (fun next s' => ∀ state', next = some state' → Registered state' s'.context)
      (fun _ _ => True) s := by
  have hidle : awaited state = none → s.context.waiting = false := by
    intro hstate
    rw [h.waiting, hstate]
    rfl
  cases state with
  | initiate =>
      simp only [action, wp_initiate, Session.setParameter, context_setStartupParameters]
      have hnext (state' : SessionState) (hnext : some .prepareToForwardRequest = some state')
          (c : Context) (hc : c.waiting = s.context.waiting) : Registered state' c := by
        obtain rfl := Option.some.inj hnext
        exact registered_of_not_waiting (hc.trans (hidle rfl)) rfl
      exact ⟨fun _ state' h => hnext state' h _ rfl,
        fun _ => ⟨fun _ _ => ⟨fun _ _ state' h => hnext state' h _ rfl, fun _ _ => trivial⟩,
          fun _ _ => trivial⟩⟩
  | prepareToReceiveRequest =>
      rintro state' ⟨⟩
      exact ⟨rfl, fun _ => rfl⟩
  | receiveRequest =>
      simp only [action, wp_receiveRequest]
      refine ⟨fun _ _ hnext => by simp at hnext, fun _ state' hnext => ?_⟩
      obtain rfl := Option.some.inj hnext
      refine registered_of_not_waiting rfl ?_
      split <;> rfl
  | applyPreRequestPlugins =>
      refine wp_mono next_applyPreRequestPlugins ?_ fun _ _ _ => trivial
      rintro next s' (⟨rfl, b, q, rfl⟩ | ⟨rfl, t, e, response, ⟨b, q, rfl⟩, -, rfl⟩) state' ⟨⟩
      · exact registered_of_not_waiting (hidle rfl) rfl
      · exact registered_of_not_waiting (hidle rfl) rfl
  | prepareToForwardRequest =>
      rintro state' ⟨⟩
      exact ⟨rfl, fun _ => rfl⟩
  | forwardRequest =>
      simp only [action, wp_forwardRequest]
      refine ⟨fun _ _ hnext => by simp at hnext, ?_⟩
      rintro - state' ⟨⟩
      exact registered_of_not_waiting rfl rfl
  | prepareToReceiveResponse =>
      rintro state' ⟨⟩
      exact ⟨rfl, fun _ => rfl⟩
  | receiveResponse =>
      simp only [action, wp_receiveResponse]
      refine ⟨fun _ _ hnext => by simp at hnext,
        fun _ => ⟨fun ready _ => ⟨?_, ?_⟩, fun _ _ => trivial⟩⟩
      · rintro - state' ⟨⟩
        exact registered_of_not_waiting rfl rfl
      · rintro - state' ⟨⟩
        exact ⟨h.waiting, h.ev⟩
  | applyPostResponsePlugins =>
      refine wp_mono updated_applyPostResponsePlugins ?_ fun _ _ _ => trivial
      rintro next s' ⟨rfl, t, response, ⟨ps, st, q, rfl⟩, -, rfl⟩ state' ⟨⟩
      exact registered_of_not_waiting (hidle rfl) rfl
  | prepareToForwardResponse =>
      rintro state' ⟨⟩
      exact ⟨rfl, fun _ => rfl⟩
  | forwardResponse =>
      simp only [action, wp_forwardResponse]
      refine ⟨fun _ _ hnext => by simp at hnext, ?_⟩
      rintro - state' ⟨⟩
      exact registered_of_not_waiting rfl rfl
  | resetContext =>
      rintro state' ⟨⟩
      exact registered_of_not_waiting rfl rfl

theorem scheduled_act {turn : Turn} (h : Scheduled s) (hact : act lib s turn = .ok s') :
    Scheduled s' := by
  cases hcurrent : s.current with
  | none =>
      rw [act_of_terminated hcurrent] at hact
      obtain rfl := Except.ok.inj hact
      intro state hstate
      simp [Turn.meet, hcurrent] at hstate
  | some state =>
      have hmeet : Registered state (turn.meet s).context := h state hcurrent
      obtain ⟨next, t, ht, rfl⟩ := exists_of_takeAction (s := turn.meet s) hcurrent
        (registered_action hmeet) hact
      exact ht

theorem scheduled_of_reachable (h : Reachable lib s) : Scheduled s := by
  refine invariant_reachable (fun st => ?_) (fun _ _ _ => scheduled_act) h
  rintro state ⟨⟩
  exact registered_of_not_waiting rfl rfl

end Scheduled

section Paths

variable {lib : Externals} {s s' : Session}

/-- One state comes after another. -/
def Follows (state state' : SessionState) : Prop :=
  ∃ initiated, some state' ∈ successors initiated state

/-- Responses that are returned from a state on, before the next request is waited for. -/
def responsesLeft : SessionState → Nat
  | .resetContext | .prepareToReceiveRequest => 0
  | _ => 1

/-- Requests that may still be handed on until then. -/
def requestsLeft : SessionState → Nat
  | .receiveRequest | .initiate | .applyPreRequestPlugins | .prepareToForwardRequest
  | .forwardRequest => 1
  | _ => 0

theorem head_of_follows {state : SessionState} (h : Follows state .receiveRequest) :
    state = .prepareToReceiveRequest := by
  obtain ⟨initiated, h⟩ := h
  cases state <;> cases initiated <;> simp [successors] at h ⊢

theorem left_of_follows {state state' : SessionState} (h : Follows state state')
    (hne : state' ≠ .receiveRequest) :
    responsesLeft state' + [state].count .forwardResponse = responsesLeft state ∧
      requestsLeft state' + [state].count .forwardRequest ≤ requestsLeft state := by
  obtain ⟨initiated, h⟩ := h
  cases state <;> cases initiated <;> simp [successors] at h <;>
    first
      | (rcases h with rfl | rfl <;> decide)
      | (subst h; first | decide | exact absurd rfl hne)

theorem count_of_isChain {state : SessionState} {between : List SessionState}
    (hchain : (state :: (between ++ [.receiveRequest])).IsChain Follows)
    (hbetween : .receiveRequest ∉ between) :
    (state :: between).count .forwardResponse = responsesLeft state ∧
      (state :: between).count .forwardRequest ≤ requestsLeft state := by
  induction between generalizing state with
  | nil =>
      obtain rfl := head_of_follows (List.isChain_cons_cons.mp hchain).1
      decide
  | cons state' between ih =>
      rw [List.cons_append, List.isChain_cons_cons] at hchain
      rw [List.mem_cons, not_or] at hbetween
      obtain ⟨hresponses, hrequests⟩ := ih hchain.2 hbetween.2
      obtain ⟨hresponse, hrequest⟩ := left_of_follows hchain.1 (Ne.symm hbetween.1)
      rw [← List.singleton_append, List.count_append, List.count_append]
      omega

theorem oneEach_of_isChain {path : List SessionState} (hchain : path.IsChain Follows) :
    OneEach path := by
  intro earlier between later hpath hbetween
  have hcycle : (.receiveRequest :: (between ++ [.receiveRequest]) : List SessionState) <:+: path :=
    ⟨earlier, later, by simp [hpath]⟩
  have hsegment := hchain.infix hcycle
  obtain ⟨hresponses, hrequests⟩ := count_of_isChain hsegment hbetween
  rw [List.count_cons_of_ne (by simp)] at hresponses
  have hone : between.count .forwardResponse = 1 := hresponses
  obtain ⟨before, after, rfl⟩ := List.append_of_mem (List.count_pos_iff.mp (hone ▸ Nat.one_pos))
  have hrest : (.forwardResponse :: (after ++ [.receiveRequest]) : List SessionState) <:+:
      .receiveRequest :: (before ++ .forwardResponse :: after ++ [.receiveRequest]) :=
    ⟨.receiveRequest :: before, [], by simp⟩
  have hafter := hsegment.infix hrest
  obtain ⟨-, hno⟩ := count_of_isChain hafter fun h => hbetween (by simp [h])
  rw [List.count_append, List.count_cons_self] at hone
  simp only [List.count_cons, List.count_append] at hrequests hno
  refine ⟨before, after, rfl, ?_, ?_, ?_, ?_⟩
  · exact List.count_eq_zero.mp (by omega)
  · exact List.count_eq_zero.mp (by omega)
  · exact (Nat.le_add_right _ _).trans ((Nat.le_add_right _ _).trans hrequests)
  · exact List.count_eq_zero.mp (Nat.le_zero.mp ((Nat.le_add_right _ _).trans hno))

theorem visited_of_terminated (h : s.current = none) (turns : List Turn) :
    visited lib s turns = [] := by
  induction turns generalizing s with
  | nil => rw [visited, h]; rfl
  | cons turn turns ih =>
      rw [visited, act_of_terminated h, h]
      exact ih h

theorem head?_visited (turns : List Turn) : (visited lib s turns).head? = s.current := by
  cases hcurrent : s.current with
  | none => rw [visited_of_terminated hcurrent]; rfl
  | some state =>
      cases turns with
      | nil => rw [visited, hcurrent]; rfl
      | cons turn turns => rw [visited, hcurrent]; rfl

theorem isChain_visited (turns : List Turn) : (visited lib s turns).IsChain Follows := by
  induction turns generalizing s with
  | nil =>
      rw [visited]
      cases s.current with
      | none => exact .nil
      | some state => exact .singleton state
  | cons turn turns ih =>
      cases hcurrent : s.current with
      | none =>
          rw [visited_of_terminated hcurrent]
          exact .nil
      | some state =>
          rw [visited, hcurrent]
          cases hact : act lib s turn with
          | error f => exact .singleton state
          | ok s' =>
              refine List.isChain_cons.mpr ⟨fun state' hstate' => ?_, ih⟩
              have hhead : s'.current = some state' := (head?_visited turns).symm.trans hstate'
              have hnext : s'.current ∈ successors s.context.initiated state :=
                current_mem_successors (s := turn.meet s) hcurrent hact
              exact ⟨s.context.initiated, hhead ▸ hnext⟩

end Paths

theorem scheduled_of_live (lib : Externals) (st : SchemaTracker) (turns : List Turn) (s : Session)
    (h : live lib (Session.new st) turns = .ok s) :
    Scheduled s ∧ OneEach (visited lib (Session.new st) turns) :=
  ⟨scheduled_of_reachable ⟨st, turns, h⟩, oneEach_of_isChain (isChain_visited turns)⟩

theorem scheduled_sslRequest :
    ∃ s, live sampleExternals (Session.new .empty) (cycle sslRequest ++ (cycle sslRequest).take 1) = .ok s ∧
      s.current = some .receiveRequest ∧ Scheduled s ∧
      OneEach (visited sampleExternals (Session.new .empty) (cycle sslRequest ++ (cycle sslRequest).take 1)) := by
  have hend : (live sampleExternals (Session.new .empty) (cycle sslRequest ++ (cycle sslRequest).take 1)).toOption.map
      Session.current = some (some .receiveRequest) := by
    decide +kernel
  obtain ⟨s, hs, hcurrent⟩ := Option.map_eq_some_iff.mp hend
  have hlive := eq_ok_of_toOption hs
  exact ⟨s, hlive, hcurrent, scheduled_of_live sampleExternals .empty _ s hlive⟩

end PgFort.Scheduling
