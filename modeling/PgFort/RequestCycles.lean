import PgFort.Lives
import PgFort.SqlForwarding

namespace PgFort.RequestCycles

open PgFort.Framing
open PgFort.KeyedTraversal
open PgFort.Conn
open PgFort.Schema
open PgFort.Plugins
open PgFort.StateMachine
open PgFort.Frames
open PgFort.SqlForwarding
open PgFort.Lives

/-- The session is about to wait for a request. -/
abbrev AtEntry (s : Session) : Prop :=
  s.current = some .prepareToReceiveRequest

structure Agree (s s' : Session) : Prop where
  entry : AtEntry s
  entry' : AtEntry s'
  initiated : s.context.initiated = s'.context.initiated
  parameters : s.parameters = s'.parameters
  st : s.st = s'.st

/-- The same bytes in the same batches, from the same tracker and the same database; `send` may
accept more or less, as long as it does not fail in one of the two. -/
structure SameInput (turn turn' : Turn) : Prop where
  st : turn.st = turn'.st
  chunks : turn.io.chunks = turn'.io.chunks
  stop : turn.io.stop = turn'.io.stop
  sent : turn.io.sent ≤ 0 ↔ turn'.io.sent ≤ 0
  exec1 : turn.io.exec1 = turn'.io.exec1
  exec : turn.io.exec = turn'.io.exec

/-- Two lives have come to the same: both have failed alike, both have ended, or both go on with
the same session. -/
inductive Same : Except Fault Session → Except Fault Session → Prop where
  | fault (f : Fault) : Same (.error f) (.error f)
  | ended (s s' : Session) : s.current = none → s'.current = none → Same (.ok s) (.ok s')
  | session (s : Session) : Same (.ok s) (.ok s)

theorem Same.refl (r : Except Fault Session) : Same r r := by
  cases r with
  | error f => exact .fault f
  | ok s => exact .session s

section Fresh

variable {lib : Externals} {s s' : Session}

/-- At its entry to a cycle a session has nothing left of the cycle before. -/
def Fresh (s : Session) : Prop :=
  AtEntry s → s.context = .new s.context.initiated

theorem eq_resetContext {state : SessionState} {initiated : Bool}
    (h : some SessionState.prepareToReceiveRequest ∈ successors initiated state) :
    state = .resetContext := by
  cases state <;> cases initiated <;> simp [successors] at h ⊢

theorem fresh_of_act {turn : Turn} (hact : act lib s turn = .ok s') : Fresh s' := by
  intro hentry
  cases hcurrent : s.current with
  | none =>
      rw [act_of_terminated hcurrent] at hact
      obtain rfl := Except.ok.inj hact
      exact absurd (hcurrent.symm.trans hentry) (by simp)
  | some state =>
      have hnext := current_mem_successors (s := turn.meet s) hcurrent hact
      rw [hentry] at hnext
      obtain rfl := eq_resetContext hnext
      have hreset : act lib s turn = .ok { turn.meet s with
          context := .new s.context.initiated, current := some .prepareToReceiveRequest } := by
        rw [act, takeAction, Turn.meet, hcurrent]
        rfl
      obtain rfl := Except.ok.inj (hreset.symm.trans hact)
      rfl

theorem fresh_of_reachable (h : Reachable lib s) : Fresh s :=
  invariant_reachable (fun _ _ => rfl) (fun _ _ _ _ => fresh_of_act) h

theorem eq_of_agree (hs : Reachable lib s) (hs' : Reachable lib s') (h : Agree s s') : s = s' := by
  have hcontext : s.context = s'.context := by
    rw [fresh_of_reachable hs h.entry, fresh_of_reachable hs' h.entry', h.initiated]
  have hcurrent : s.current = s'.current := h.entry.trans h.entry'.symm
  cases s
  cases s'
  rw [Session.mk.injEq]
  exact ⟨h.parameters, h.st, hcontext, hcurrent⟩

end Fresh

section SameInput

variable {lib : Externals} {s : Session} {turn turn' : Turn} {turns turns' : List Turn}

theorem preRequestPlugins_congr {io io' : Io} (h : io.exec = io'.exec) :
    preRequestPlugins lib io = preRequestPlugins lib io' := by
  have hdrop : dropTablePlugIn lib io = dropTablePlugIn lib io' := by
    rw [dropTablePlugIn, dropTablePlugIn, h]
  rw [preRequestPlugins, preRequestPlugins, hdrop]

theorem postResponsePlugins_congr {io io' : Io} (h : io.exec1 = io'.exec1) :
    postResponsePlugins lib io = postResponsePlugins lib io' := by
  have hupdate : updateParametersPlugIn lib io = updateParametersPlugIn lib io' := by
    rw [updateParametersPlugIn, updateParametersPlugIn, h]
  rw [postResponsePlugins, postResponsePlugins, hupdate]

/-- Both actions have the same result, or both end the session. -/
def SameResult (r r' : Except Fault (Option SessionState) × Session) : Prop :=
  r = r' ∨ ∃ t t', r = (.ok none, t) ∧ r' = (.ok none, t')

theorem proceed_congr {io io' : Io} {res res' : Int} (h : res ≤ 0 ↔ res' ≤ 0)
    (next : Plugins.Action (Option SessionState)) (s : Session) :
    SameResult (proceed io res next s) (proceed io' res' next s) := by
  by_cases hres : res ≤ 0
  · rw [proceed, proceed, if_pos hres, if_pos (h.mp hres)]
    exact .inr ⟨_, _, rfl, rfl⟩
  · rw [proceed, proceed, if_neg hres, if_neg (hres ∘ h.mpr)]
    exact .inl rfl

theorem action_congr (lib : Externals) (h : SameInput turn turn') (state : SessionState) (s : Session) :
    SameResult (action lib turn.io state s) (action lib turn'.io state s) := by
  cases state with
  | initiate =>
      have heq : initiate turn.io = initiate turn'.io := by rw [initiate, initiate, h.exec1]
      exact .inl (congrFun heq s)
  | receiveRequest =>
      show SameResult (receiveRequest turn.io s) (receiveRequest turn'.io s)
      rw [receiveRequest, receiveRequest, h.chunks, h.stop]
      exact proceed_congr Iff.rfl _ _
  | applyPreRequestPlugins =>
      have heq : applyPreRequestPlugins lib turn.io = applyPreRequestPlugins lib turn'.io := by
        rw [applyPreRequestPlugins, applyPreRequestPlugins, preRequestPlugins_congr h.exec]
      exact .inl (congrFun heq s)
  | forwardRequest => exact proceed_congr h.sent _ _
  | receiveResponse =>
      show SameResult (receiveResponse turn.io s) (receiveResponse turn'.io s)
      rw [receiveResponse, receiveResponse, h.chunks, h.stop]
      exact proceed_congr Iff.rfl _ _
  | applyPostResponsePlugins =>
      have heq : applyPostResponsePlugins lib turn.io = applyPostResponsePlugins lib turn'.io := by
        rw [applyPostResponsePlugins, applyPostResponsePlugins, postResponsePlugins_congr h.exec1]
      exact .inl (congrFun heq s)
  | forwardResponse => exact proceed_congr h.sent _ _
  | _ => exact .inl rfl

theorem same_act (lib : Externals) (s : Session) (h : SameInput turn turn') :
    Same (act lib s turn) (act lib s turn') := by
  have hmeet : turn'.meet s = turn.meet s := by rw [Turn.meet, Turn.meet, h.st]
  rw [act, act, hmeet, takeAction, takeAction]
  cases (turn.meet s).current with
  | none => exact .refl _
  | some state =>
      rcases action_congr lib h state (turn.meet s) with heq | ⟨t, t', ht, ht'⟩
      · simp only [heq]
        exact .refl _
      · simp only [ht, ht']
        exact .ended _ _ rfl rfl

theorem live_of_terminated (lib : Externals) (hs : s.current = none) (turns : List Turn) :
    ∃ t, live lib s turns = .ok t ∧ t.current = none ∧ forwarded lib s turns = [] := by
  induction turns generalizing s with
  | nil => exact ⟨s, rfl, hs, rfl⟩
  | cons turn turns ih =>
      obtain ⟨t, hlive, ht, hforwarded⟩ := ih (s := turn.meet s) hs
      refine ⟨t, ?_, ht, ?_⟩
      · rw [live_cons, act_of_terminated hs]
        exact hlive
      · rw [forwarded, act_of_terminated hs, offered, hs]
        exact hforwarded

theorem same_live (h : List.Forall₂ SameInput turns turns') (s : Session) :
    forwarded lib s turns = forwarded lib s turns' ∧
      Same (live lib s turns) (live lib s turns') := by
  induction h generalizing s with
  | nil => exact ⟨rfl, .refl _⟩
  | @cons turn turn' turns turns' hturn hturns ih =>
      rw [live_cons, live_cons, forwarded, forwarded]
      generalize hact : act lib s turn = r, hact' : act lib s turn' = r'
      have hsame := same_act lib s hturn
      rw [hact, hact'] at hsame
      cases hsame with
      | fault f => exact ⟨rfl, .fault f⟩
      | ended t t' ht ht' =>
          obtain ⟨u, hlive, hu, hforwarded⟩ := live_of_terminated lib ht turns
          obtain ⟨u', hlive', hu', hforwarded'⟩ := live_of_terminated lib ht' turns'
          simp only [hforwarded, hforwarded', true_and]
          show Same (live lib t turns) (live lib t' turns')
          rw [hlive, hlive']
          exact .ended u u' hu hu'
      | session t =>
          obtain ⟨hforwarded, hlive⟩ := ih t
          exact ⟨congrArg ((offered s).toList ++ ·) hforwarded, hlive⟩

end SameInput

/-- Neither what a session forwards nor what becomes of it depends on the requests before. -/
theorem same_of_agree (lib : Externals) (s s' : Session) (hs : Reachable lib s)
    (hs' : Reachable lib s') (hagree : Agree s s') (turns turns' : List Turn)
    (hinput : List.Forall₂ SameInput turns turns') :
    forwarded lib s turns = forwarded lib s' turns' ∧
      Same (live lib s turns) (live lib s' turns') :=
  eq_of_agree hs hs' hagree ▸ same_live hinput s

/-- The turns of a client that asks for encryption, one after the other, when `send` accepts all. -/
def generous (turns : List Turn) : List Turn :=
  turns.map fun turn => { turn with io.sent := 4096 }

theorem sameInput_generous (batch : Bytes) :
    List.Forall₂ SameInput (cycle batch) (generous (cycle batch)) := by
  refine List.forall₂_map_right_iff.mpr (List.forall₂_same.mpr fun turn hturn => ?_)
  have hsent : turn.io.sent = 1 := by
    simp only [cycle, List.mem_append, List.mem_replicate] at hturn
    rcases hturn with ⟨-, rfl⟩ | ⟨-, rfl⟩ <;> rfl
  exact ⟨rfl, rfl, rfl, by simp [hsent], rfl, rfl⟩

set_option maxRecDepth 20000 in
theorem parameters_sslRequest :
    (live sampleExternals (Session.new .empty) (cycle sslRequest)).toOption.map
      (fun s => (s.parameters, s.st)) = some (fun _ => none, .empty) := by
  with_unfolding_all rfl

/-- A startup is handled alike with and without a request for encryption before. -/
theorem same_startup : ∃ s s', Reachable sampleExternals s ∧ Reachable sampleExternals s' ∧
    Agree s s' ∧ (forwarded sampleExternals s (cycle startup)).length = 2 ∧
    forwarded sampleExternals s (cycle startup) =
      forwarded sampleExternals s' (generous (cycle startup)) ∧
    Same (live sampleExternals s (cycle startup))
      (live sampleExternals s' (generous (cycle startup))) := by
  have hend : (live sampleExternals (Session.new .empty) (cycle sslRequest)).toOption.map
      (fun s => (s.current, s.context.initiated)) =
        some (some .prepareToReceiveRequest, false) := by
    decide +kernel
  have hkept := parameters_sslRequest
  obtain ⟨s', hs', hcurrent⟩ := Option.map_eq_some_iff.mp hend
  rw [hs', Option.map_some, Option.some.injEq, Prod.mk.injEq] at hkept
  obtain ⟨hentry, hinitiated⟩ := Prod.mk.inj hcurrent
  have hreachable : Reachable sampleExternals s' := ⟨_, _, eq_ok_of_toOption hs'⟩
  have hagree : Agree (Session.new .empty) s' :=
    ⟨rfl, hentry, hinitiated.symm, hkept.1.symm, hkept.2.symm⟩
  exact ⟨Session.new .empty, s', ⟨.empty, [], rfl⟩, hreachable, hagree, by decide +kernel,
    same_of_agree sampleExternals _ s' ⟨.empty, [], rfl⟩ hreachable hagree _ _
      (sameInput_generous startup)⟩

end PgFort.RequestCycles
