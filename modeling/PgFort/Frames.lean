import PgFort.StateMachine

namespace PgFort.Frames

open PgFort.Framing
open PgFort.JsonAccess
open PgFort.Conn
open PgFort.Stateful.Action
open PgFort.Plugins
open PgFort.StateMachine

/-- The parameters, the tracker and whether there was a startup are as before. -/
structure Kept (s s' : Session) : Prop where
  parameters : s'.parameters = s.parameters
  st : s'.st = s.st
  initiated : s'.context.initiated = s.context.initiated

theorem kept_iff {s s' : Session} :
    Kept s s' ↔ s'.parameters = s.parameters ∧ s'.st = s.st ∧
      s'.context.initiated = s.context.initiated :=
  ⟨fun h => ⟨h.parameters, h.st, h.initiated⟩, fun h => ⟨h.1, h.2.1, h.2.2⟩⟩

theorem Kept.refl (s : Session) : Kept s s := ⟨rfl, rfl, rfl⟩

theorem Kept.trans {s s' s'' : Session} (h : Kept s s') (h' : Kept s' s'') : Kept s s'' :=
  ⟨h'.parameters.trans h.parameters, h'.st.trans h.st, h'.initiated.trans h.initiated⟩

/-- Code that leaves these alone, however it ends. -/
def Keeps {α : Type} (x : Action α) : Prop :=
  ∀ s, wp x (fun _ => Kept s) (fun _ => Kept s) s

/-- Only the request and the query have changed. -/
def Rewritten (s s' : Session) : Prop :=
  ∃ request query, s' = { s with context := { s.context with request, query } }

namespace Rewritten

variable {s s' s'' : Session}

theorem refl (s : Session) : Rewritten s s := ⟨_, _, rfl⟩

theorem request (s : Session) (b : Buffer) : Rewritten s { s with context.request := b } :=
  ⟨_, _, rfl⟩

theorem query (s : Session) (q : Query) : Rewritten s { s with context.query := q } := ⟨_, _, rfl⟩

theorem both (s : Session) (b : Buffer) (q : Query) :
    Rewritten s { s with context := { s.context with request := b, query := q } } := ⟨_, _, rfl⟩

theorem trans (h : Rewritten s s') (h' : Rewritten s' s'') : Rewritten s s'' := by
  obtain ⟨b, q, rfl⟩ := h
  obtain ⟨b', q', rfl⟩ := h'
  exact ⟨b', q', rfl⟩

theorem kept (h : Rewritten s s') : Kept s s' := by
  obtain ⟨b, q, rfl⟩ := h
  exact ⟨rfl, rfl, rfl⟩

end Rewritten

/-- The session has written the response itself. -/
def Answered (s s' : Session) : Prop :=
  ∃ t e response, Rewritten s t ∧ setError e = some response ∧
    s' = { t with context.response := response }

theorem Answered.kept {s s' : Session} (h : Answered s s') : Kept s s' := by
  obtain ⟨t, e, response, ht, -, rfl⟩ := h
  exact ht.kept.trans ⟨rfl, rfl, rfl⟩

/-- Only the parameters, the tracker and the query have changed. -/
def Updated (s s' : Session) : Prop :=
  ∃ parameters st query, s' = { s with parameters, st, context := { s.context with query } }

namespace Updated

variable {s s' s'' : Session}

theorem refl (s : Session) : Updated s s := ⟨_, _, _, rfl⟩

theorem trans (h : Updated s s') (h' : Updated s' s'') : Updated s s'' := by
  obtain ⟨ps, st, q, rfl⟩ := h
  obtain ⟨ps', st', q', rfl⟩ := h'
  exact ⟨ps', st', q', rfl⟩

theorem initiated (h : Updated s s') : s'.context.initiated = s.context.initiated := by
  obtain ⟨ps, st, q, rfl⟩ := h
  rfl

end Updated

/-- Code that changes only the request and the query, however it ends. -/
def Rewrites {α : Type} (x : Action α) : Prop :=
  ∀ s, wp x (fun _ => Rewritten s) (fun _ => Rewritten s) s

section Plugins

variable {lib : Externals} {io : Io}

theorem rewrites_translateProxyCommandPlugIn : Rewrites (translateProxyCommandPlugIn lib) := by
  intro s
  simp [translateProxyCommandPlugIn, wp_bind, wp_ite, wp_pure, wp_state, wp_ofExcept,
    wp_setRequest, Rewritten.refl, Rewritten.request]

theorem rewrites_parseQueryPlugIn : Rewrites (parseQueryPlugIn lib) := by
  intro s
  simp [parseQueryPlugIn, wp_bind, wp_ite, wp_pure, wp_state, wp_ofExcept, wp_modify,
    Rewritten.refl, Rewritten.query]

theorem rewrites_aclQueryPlugIn : Rewrites (aclQueryPlugIn lib) := by
  intro s
  simp [aclQueryPlugIn, wp_bind, wp_ite, wp_pure, wp_state, wp_ofExcept, wp_modify,
    wp_requestQuery, Rewritten.refl, Rewritten.both]

theorem rewrites_dropTablePlugIn : Rewrites (dropTablePlugIn lib io) := by
  intro s
  simp only [dropTablePlugIn, wp_bind, wp_ite, wp_pure, wp_state]
  refine ⟨fun _ => .refl s, fun _ => ?_⟩
  cases findNode "DropStmt" s.context.query.json with
  | none => exact .refl s
  | some n =>
      simp only [wp_bind, wp_onQuery, wp_ite, wp_pure, wp_state, wp_ofExcept, Rewritten.refl,
        Rewritten.query, implies_true, true_and, and_true]
      intros
      split <;> simp [wp_bind, wp_onQuery, wp_pure, wp_requestQuery, wp_ofExcept,
        Rewritten.both]

theorem rewrites_ensureNewTableHasIdPlugIn : Rewrites (ensureNewTableHasIdPlugIn lib) := by
  intro s
  simp only [ensureNewTableHasIdPlugIn, wp_bind, wp_ite, wp_pure, wp_state]
  refine ⟨fun _ => .refl s, fun _ => ?_⟩
  cases findNode "CreateStmt" s.context.query.json with
  | none => exact .refl s
  | some n => simp [wp_bind, wp_onQuery, wp_ite, wp_pure, Rewritten.refl, Rewritten.query]

theorem rewrites_preRequestPlugins : ∀ p ∈ preRequestPlugins lib io, Rewrites p := by
  simp only [preRequestPlugins, List.forall_mem_cons]
  exact ⟨rewrites_translateProxyCommandPlugIn, rewrites_parseQueryPlugIn, rewrites_aclQueryPlugIn,
    rewrites_dropTablePlugIn, rewrites_ensureNewTableHasIdPlugIn, fun s => .refl s, by simp⟩

theorem wp_applyAll_cons {p : Action Conn.Error} {ps : List (Action Conn.Error)}
    {Q : Option Conn.Error → Session → Prop} {E : Fault → Session → Prop} {s : Session} :
    wp (applyAll (p :: ps)) Q E s ↔
      wp p (fun err s' => (err.isError = true → Q (some err) s') ∧
        (err.isError = false → wp (applyAll ps) Q E s')) E s := by
  simp only [applyAll, wp_bind, wp_ite, wp_pure, Bool.not_eq_true]

theorem rewrites_applyAll {ps : List (Action Conn.Error)} (hps : ∀ p ∈ ps, Rewrites p) :
    Rewrites (applyAll ps) := by
  induction ps with
  | nil => exact fun s => .refl s
  | cons p ps ih =>
      intro s
      rw [wp_applyAll_cons]
      refine wp_mono (hps p List.mem_cons_self s) (fun err s₁ h₁ => ⟨fun _ => h₁, fun _ => ?_⟩)
        fun _ _ h => h
      exact wp_mono (ih (fun q hq => hps q (List.mem_cons_of_mem _ hq)) s₁)
        (fun _ _ h => h₁.trans h) fun _ _ h => h₁.trans h

end Plugins

section Actions

variable {lib : Externals} {io : Io} {s : Session}

theorem answered_eq_ok {e : Conn.Error} {response : Buffer} :
    answered e = .ok response ↔
      setError e = some response ∧ printInfo .backend response = .ok () := by
  rw [answered]
  cases setError e with
  | none => simp
  | some response' =>
      rw [KeyedTraversal.bind_eq_ok, Option.some.injEq]
      constructor
      · rintro ⟨_, hprint, heq⟩
        obtain rfl := Except.ok.inj heq
        exact ⟨rfl, hprint⟩
      · rintro ⟨rfl, hprint⟩
        exact ⟨(), hprint, rfl⟩

theorem fault_of_answered {e : Conn.Error} {f : Fault} (h : answered e = .error f) :
    f = .aborted ∨ f = .astray := by
  rw [answered] at h
  split at h
  · rename_i response _
    rw [printInfo] at h
    split at h
    · exact nomatch h
    · exact .inr (Except.error.inj h).symm
  · exact .inl (Except.error.inj h).symm

theorem wp_respondError {e : Conn.Error} {Q : Unit → Session → Prop} {E : Fault → Session → Prop}
    (hQ : ∀ response, answered e = .ok response → Q () { s with context.response := response })
    (hE : ∀ f, answered e = .error f → E f s) : wp (respondError e) Q E s := by
  rw [respondError, wp_bind, wp_ofExcept]
  exact ⟨fun response hresponse => hQ response hresponse, hE⟩

theorem wp_applyPreRequestPlugins {Forwarded : Session → Prop}
    (h : wp (applyAll (preRequestPlugins lib io)) (fun err s' => err = none → Forwarded s')
      (fun _ _ => True) s) :
    wp (applyPreRequestPlugins lib io)
      (fun next s' => next = some .prepareToForwardRequest ∧ Rewritten s s' ∧ Forwarded s' ∨
        next = some .prepareToForwardResponse ∧ Answered s s')
      (fun _ => Rewritten s) s := by
  rw [applyPreRequestPlugins, wp_catching, wp_bind]
  refine wp_mono (wp_and (rewrites_applyAll rewrites_preRequestPlugins s) h) (fun err s' h' => ?_)
    fun f s' h' => ?_
  · cases err with
    | none => exact .inl ⟨rfl, h'.1, h'.2 rfl⟩
    | some err =>
        rw [wp_bind]
        exact wp_respondError (fun response hresponse =>
          .inr ⟨rfl, s', err, response, h'.1, (answered_eq_ok.mp hresponse).1, rfl⟩) fun f hf => by
            rcases fault_of_answered hf with rfl | rfl <;> exact h'.1
  · cases f with
    | aborted => exact h'.1
    | astray => exact h'.1
    | thrown what =>
        show wp (respondError _ >>= _) _ _ _
        rw [wp_bind]
        exact wp_respondError (fun response hresponse =>
          .inr ⟨rfl, s', _, response, h'.1, (answered_eq_ok.mp hresponse).1, rfl⟩) fun _ _ => h'.1

theorem next_applyPreRequestPlugins :
    wp (applyPreRequestPlugins lib io)
      (fun next s' => next = some .prepareToForwardRequest ∧ Rewritten s s' ∨
        next = some .prepareToForwardResponse ∧ Answered s s')
      (fun _ => Rewritten s) s := by
  have hall : wp (applyAll (preRequestPlugins lib io)) (fun err _ => err = none → True)
      (fun _ _ => True) s :=
    wp_mono (wp_true _ s) (fun _ _ _ _ => trivial) fun _ _ h => h
  refine wp_mono (wp_applyPreRequestPlugins hall) (fun next s' h => ?_) fun _ _ h => h
  exact h.imp_left fun h => ⟨h.1, h.2.1⟩

theorem keeps_action {state : SessionState} (hinitiate : state ≠ .initiate)
    (hpost : state ≠ .applyPostResponsePlugins) : Keeps (action lib io state) := by
  intro s
  cases state with
  | initiate => exact absurd rfl hinitiate
  | prepareToReceiveRequest => exact ⟨rfl, rfl, rfl⟩
  | receiveRequest => simp [action, wp_receiveRequest, kept_iff]
  | applyPreRequestPlugins =>
      refine wp_mono next_applyPreRequestPlugins (fun _ _ h => ?_) fun _ _ h => h.kept
      exact h.elim (fun h => h.2.kept) fun h => h.2.kept
  | prepareToForwardRequest => exact ⟨rfl, rfl, rfl⟩
  | forwardRequest => simp [action, wp_forwardRequest, kept_iff]
  | prepareToReceiveResponse => exact ⟨rfl, rfl, rfl⟩
  | receiveResponse => simp [action, wp_receiveResponse, kept_iff]
  | applyPostResponsePlugins => exact absurd rfl hpost
  | prepareToForwardResponse => exact ⟨rfl, rfl, rfl⟩
  | forwardResponse => simp [action, wp_forwardResponse, kept_iff]
  | resetContext => exact ⟨rfl, rfl, rfl⟩

theorem updated_updateParametersPlugIn :
    wp (updateParametersPlugIn lib io) (fun _ => Updated s) (fun _ => Updated s) s := by
  simp only [updateParametersPlugIn, wp_bind, wp_state, wp_ite, wp_pure]
  refine ⟨fun _ => .refl s, fun _ => ?_⟩
  cases findNode "VariableSetStmt" s.context.query.json with
  | none => exact .refl s
  | some n =>
      simp only [wp_bind, wp_onQuery, wp_ite, wp_pure, wp_modify, wp_ofExcept,
        Session.setParameter]
      refine ⟨fun _ _ _ => ⟨fun _ => ⟨_, _, _, rfl⟩, fun _ => ⟨fun _ => ⟨_, _, _, rfl⟩, fun _ => ?_⟩⟩,
        fun _ _ => .refl s⟩
      exact ⟨fun _ _ _ => ⟨fun _ _ => ⟨_, _, _, rfl⟩, fun _ _ => ⟨_, _, _, rfl⟩⟩,
        fun _ _ => ⟨_, _, _, rfl⟩⟩

theorem updated_updateSchemaPlugIn :
    wp (updateSchemaPlugIn lib) (fun _ => Updated s) (fun _ => Updated s) s := by
  simp only [updateSchemaPlugIn, wp_bind, wp_state, wp_ite, wp_pure]
  refine ⟨fun _ => .refl s, fun _ => ⟨fun _ => .refl s, fun _ => ?_⟩⟩
  cases findNode "CreateStmt" s.context.query.json with
  | none => exact .refl s
  | some n =>
      simp only [wp_bind, wp_onQuery, wp_pure, wp_modify]
      exact ⟨fun _ _ _ => ⟨fun _ _ _ => ⟨_, _, _, rfl⟩, fun _ _ => ⟨_, _, _, rfl⟩⟩,
        fun _ _ => .refl s⟩

theorem wp_applyPostResponsePlugins {Q : Session → Prop}
    (h : wp (updateParametersPlugIn lib io)
      (fun _ s₁ => wp (updateSchemaPlugIn lib) (fun _ => Q)
        (fun _ s₂ => ∀ e response, setError e = some response →
          Q { s₂ with context.response := response }) s₁)
      (fun _ s₁ => ∀ e response, setError e = some response →
        Q { s₁ with context.response := response }) s) :
    wp (applyPostResponsePlugins lib io)
      (fun next s' => next = some .prepareToForwardResponse ∧ Q s') (fun _ _ => True) s := by
  rw [applyPostResponsePlugins, wp_bind, wp_catching]
  have heach : wp (applyEach (postResponsePlugins lib io)) (fun _ => Q)
      (fun _ s' => ∀ e response, setError e = some response →
        Q { s' with context.response := response }) s := by
    simp only [postResponsePlugins, applyEach, wp_bind, wp_pure]
    exact h
  refine wp_mono heach (fun _ _ h => ⟨rfl, h⟩) fun f s' h => ?_
  cases f with
  | aborted => trivial
  | astray => trivial
  | thrown what =>
      exact wp_respondError (fun response hresponse =>
        ⟨rfl, h _ response (answered_eq_ok.mp hresponse).1⟩) fun _ _ => trivial

theorem updated_applyPostResponsePlugins :
    wp (applyPostResponsePlugins lib io)
      (fun next s' => next = some .prepareToForwardResponse ∧
        ∃ t response, Updated s t ∧
          (response = t.context.response ∨ ∃ e, setError e = some response) ∧
          s' = { t with context.response := response })
      (fun _ _ => True) s := by
  refine wp_applyPostResponsePlugins
    (wp_mono updated_updateParametersPlugIn (fun _ s₁ h₁ => ?_) fun _ s₁ h₁ e response he =>
      ⟨s₁, response, h₁, .inr ⟨e, he⟩, rfl⟩)
  refine wp_mono updated_updateSchemaPlugIn (fun _ s₂ h₂ => ?_) fun _ s₂ h₂ e response he =>
    ⟨s₂, response, h₁.trans h₂, .inr ⟨e, he⟩, rfl⟩
  exact ⟨s₂, _, h₁.trans h₂, .inl rfl, rfl⟩

theorem next_applyPostResponsePlugins :
    wp (applyPostResponsePlugins lib io) (fun next _ => next = some .prepareToForwardResponse)
      (fun _ _ => True) s :=
  wp_mono updated_applyPostResponsePlugins (fun _ _ h => h.1) fun _ _ h => h

theorem initiated_action {state : SessionState} (hinitiate : state ≠ .initiate) (s : Session) :
    wp (action lib io state) (fun _ s' => s'.context.initiated = s.context.initiated)
      (fun _ _ => True) s := by
  by_cases hpost : state = .applyPostResponsePlugins
  · subst hpost
    refine wp_mono updated_applyPostResponsePlugins ?_ fun _ _ h => h
    rintro next s' ⟨-, t, response, h, -, rfl⟩
    exact h.initiated
  · exact wp_mono (keeps_action hinitiate hpost s) (fun _ _ h => h.initiated) fun _ _ _ => trivial

theorem st_updateParametersPlugIn :
    wp (updateParametersPlugIn lib io) (fun _ s' => s'.st = s.st) (fun _ s' => s'.st = s.st) s := by
  simp only [updateParametersPlugIn, wp_bind, wp_state, wp_ite, wp_pure]
  refine ⟨fun _ => trivial, fun _ => ?_⟩
  cases findNode "VariableSetStmt" s.context.query.json with
  | none => rfl
  | some n =>
      simp only [wp_bind, wp_onQuery, wp_ite, wp_pure, wp_modify, wp_ofExcept,
        Session.setParameter, implies_true, and_self]

theorem st_setStartupParameter (s : Session) (p : Bytes × Bytes) :
    (setStartupParameter s p).st = s.st := by
  rw [setStartupParameter]
  split <;> rfl

theorem st_setStartupParameters (ps : List (Bytes × Bytes)) (s : Session) :
    (ps.foldl setStartupParameter s).st = s.st := by
  induction ps generalizing s with
  | nil => rfl
  | cons p ps ih => rw [List.foldl_cons, ih, st_setStartupParameter]

theorem context_setStartupParameters (ps : List (Bytes × Bytes)) (s : Session) :
    (ps.foldl setStartupParameter s).context = s.context := by
  induction ps generalizing s with
  | nil => rfl
  | cons p ps ih =>
      rw [List.foldl_cons, ih, setStartupParameter]
      split <;> rfl

theorem st_action {state : SessionState} (hpost : state ≠ .applyPostResponsePlugins) (s : Session) :
    wp (action lib io state) (fun _ s' => s'.st = s.st) (fun _ _ => True) s := by
  by_cases hinitiate : state = .initiate
  · subst hinitiate
    simp only [action, wp_initiate, Session.setParameter, st_setStartupParameters, implies_true,
      and_self]
  · exact wp_mono (keeps_action hinitiate hpost s) (fun _ _ h => h.st) fun _ _ _ => trivial

end Actions

section Transitions

variable {lib : Externals} {io : Io} {s s' : Session}

/-- The states that follow a state; no state stands for the end of the session. -/
def successors (initiated : Bool) : SessionState → List (Option SessionState)
  | .initiate => [some .prepareToForwardRequest]
  | .prepareToReceiveRequest => [some .receiveRequest]
  | .receiveRequest => [none, some (if initiated then .applyPreRequestPlugins else .initiate)]
  | .applyPreRequestPlugins => [some .prepareToForwardRequest, some .prepareToForwardResponse]
  | .prepareToForwardRequest => [some .forwardRequest]
  | .forwardRequest => [none, some .prepareToReceiveResponse]
  | .prepareToReceiveResponse => [some .receiveResponse]
  | .receiveResponse => [none, some .receiveResponse, some .applyPostResponsePlugins]
  | .applyPostResponsePlugins => [some .prepareToForwardResponse]
  | .prepareToForwardResponse => [some .forwardResponse]
  | .forwardResponse => [none, some .resetContext]
  | .resetContext => [some .prepareToReceiveRequest]

theorem next_mem_successors (state : SessionState) (s : Session) :
    wp (action lib io state) (fun next _ => next ∈ successors s.context.initiated state)
      (fun _ _ => True) s := by
  cases state with
  | initiate => simp [action, wp_initiate, successors]
  | receiveRequest => simp [action, wp_receiveRequest, successors]
  | applyPreRequestPlugins =>
      refine wp_mono next_applyPreRequestPlugins (fun next s' h => ?_) fun _ _ _ => trivial
      rcases h with ⟨rfl, -⟩ | ⟨rfl, -⟩ <;> simp [successors]
  | forwardRequest => simp [action, wp_forwardRequest, successors]
  | receiveResponse => simp [action, wp_receiveResponse, successors]
  | applyPostResponsePlugins =>
      refine wp_mono next_applyPostResponsePlugins (fun next s' h => ?_) fun _ _ h => h
      exact List.mem_singleton.mpr h
  | forwardResponse => simp [action, wp_forwardResponse, successors]
  | _ => exact List.mem_singleton.mpr rfl

theorem current_mem_successors {state : SessionState} (hcurrent : s.current = some state)
    (htake : takeAction lib io s = .ok s') :
    s'.current ∈ successors s.context.initiated state := by
  obtain ⟨next, t, hnext, rfl⟩ :=
    exists_of_takeAction hcurrent (next_mem_successors state s) htake
  exact hnext

theorem kept_takeAction {state : SessionState} (hcurrent : s.current = some state)
    (hinitiate : state ≠ .initiate) (hpost : state ≠ .applyPostResponsePlugins)
    (htake : takeAction lib io s = .ok s') : Kept s s' := by
  obtain ⟨next, t, hkept, rfl⟩ :=
    exists_of_takeAction hcurrent (keeps_action hinitiate hpost s) htake
  exact hkept.trans ⟨rfl, rfl, rfl⟩

end Transitions

end PgFort.Frames
