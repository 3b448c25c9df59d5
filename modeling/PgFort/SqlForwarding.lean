import Mathlib.Data.List.Induction
import PgFort.Frames

namespace PgFort.SqlForwarding

open PgFort.Framing
open PgFort.JsonTree
open PgFort.KeyedTraversal
open PgFort.JsonAccess
open PgFort.Conn
open PgFort.Schema
open PgFort.Stateful.Action
open PgFort.Plugins
open PgFort.StateMachine
open PgFort.Frames

/-- The SQL texts in a message of a client: that of a `Query`, and that of a `Parse` after the
name of the statement. -/
def sqlTexts (m : Message) : List Bytes :=
  if m.type = 81 then [cString m.payload]
  else if m.type = 80 then [cString ((m.payload.dropWhile (· != 0)).drop 1)]
  else []

/-- The SQL texts that a stream carries. -/
def carried (stream : Bytes) : List Bytes :=
  (messages stream).flatMap sqlTexts

/-- The first `DropStmt` of the tree is given the flag `cascade`. -/
def Cascades (json json' : Json) : Prop :=
  ∃ n, findNode "DropStmt" json = some n ∧
    atPath n (atKey "behavior" (assign (.str "DROP_CASCADE"))) json = .ok ((), json')

/-- The text is that of a rewritten tree, at most with the flag added. -/
def RewrittenText (lib : Externals) (st : SchemaTracker) (json : Json) (text : Bytes) : Prop :=
  ∃ json', QueryAcler.acl (some st) json = .ok json' ∧
    (Query.toText lib json' = .ok text ∨
      ∃ json'', Cascades json' json'' ∧ Query.toText lib json'' = .ok text)

/-- The session is about to apply the plug-ins to a query from which they make the text. -/
def Rewrites (lib : Externals) (s : Session) (text : Bytes) : Prop :=
  s.current = some .applyPreRequestPlugins ∧
    ∃ translated err json,
      lib.translate (s.context.request.textAt 5) = .ok (translated, err) ∧
      lib.pgQueryParse (cString translated) = .ok (.ok json) ∧ RewrittenText lib s.st json text

/-- The request that the plug-ins are to be applied to is a query of its own, that libpg_query
does not refuse, of a role without superuser rights; or no SQL text ends in it. -/
def Checked (lib : Externals) (stream : Bytes) (s : Session) : Prop :=
  (s.context.request.byteAt 0 ≠ 81 ∧ carried (pending stream ++ s.context.request.data) = []) ∨
  (s.context.request.byteAt 0 = 81 ∧ pending stream = [] ∧ s.parameter "rolsuper" ≠ utf8 "t" ∧
    ∀ translated err, lib.translate (s.context.request.textAt 5) = .ok (translated, err) →
      err.isError = false → ∀ e, lib.pgQueryParse (cString translated) ≠ .ok (.error e))

/-- What the plug-in for the access conditions makes of a session. -/
def Conditioned (lib : Externals) (s s' : Session) : Prop :=
  ((s.parameter "rolsuper" = utf8 "t" ∨ s.context.query.valid = false) ∧ s' = s) ∨
    (s.parameter "rolsuper" ≠ utf8 "t" ∧ s.context.query.valid = true ∧
      ∃ json text, QueryAcler.acl (some s.st) s.context.query.json = .ok json ∧
        Query.toText lib json = .ok text ∧
        s' = { s with context.query.json := json, context.request := setQuery text })

/-- The drop-table plug-in changes the request only to add the flag. -/
def Flagged (lib : Externals) (s s' : Session) : Prop :=
  s'.context.request = s.context.request ∨
    ∃ json text, Cascades s.context.query.json json ∧ Query.toText lib json = .ok text ∧
      s'.context.request = setQuery text

section Requests

variable {lib : Externals} {io : Io} {s : Session}

theorem byteAt_setQuery (q : Bytes) : (setQuery q).byteAt 0 = 81 := rfl

theorem textAt_setQuery (q : Bytes) : (setQuery q).textAt 5 = cString q := by
  show cString (cString q ++ [0]) = cString q
  exact cString_append_zero ne_zero_of_mem_cString []

theorem applyAll_of_no_query (hquery : s.context.query.valid = false) :
    wp (applyAll [aclQueryPlugIn lib, dropTablePlugIn lib io, ensureNewTableHasIdPlugIn lib,
        restrictInternalTableAccessPlugIn])
      (fun err s' => err = none ∧ s' = s) (fun _ _ => False) s := by
  simp [applyAll, aclQueryPlugIn, dropTablePlugIn, ensureNewTableHasIdPlugIn,
    restrictInternalTableAccessPlugIn, wp_bind, wp_pure, wp_state, hquery, Conn.Error.isError,
    Conn.Error.noError]

theorem applyAll_of_not_query (hbyte : s.context.request.byteAt 0 ≠ 81)
    (hquery : s.context.query.valid = false) :
    wp (applyAll (preRequestPlugins lib io)) (fun err s' => err = none ∧ s' = s)
      (fun _ _ => False) s := by
  have htranslate : wp (translateProxyCommandPlugIn lib) (fun err s' => err = .noError ∧ s' = s)
      (fun _ _ => False) s := by
    simp only [translateProxyCommandPlugIn, wp_bind, wp_state, if_pos hbyte, wp_pure, and_self]
  have hparse : wp (parseQueryPlugIn lib) (fun err s' => err = .noError ∧ s' = s)
      (fun _ _ => False) s := by
    simp only [parseQueryPlugIn, wp_bind, wp_state, if_pos hbyte, wp_pure, and_self]
  rw [preRequestPlugins, wp_applyAll_cons]
  refine wp_mono htranslate ?_ fun _ _ h => h
  rintro err s₁ ⟨rfl, rfl⟩
  refine ⟨fun h => absurd h (by decide), fun _ => ?_⟩
  rw [wp_applyAll_cons]
  refine wp_mono hparse ?_ fun _ _ h => h
  rintro err s₂ ⟨rfl, rfl⟩
  exact ⟨fun h => absurd h (by decide), fun _ => applyAll_of_no_query hquery⟩

theorem wp_translate (hbyte : s.context.request.byteAt 0 = 81) :
    wp (translateProxyCommandPlugIn lib)
      (fun err s' => err.isError = false → ∃ translated e,
        lib.translate (s.context.request.textAt 5) = .ok (translated, e) ∧ e.isError = false ∧
          s' = { s with context.request := setQuery translated })
      (fun _ _ => True) s := by
  simp only [translateProxyCommandPlugIn, wp_bind, wp_state, wp_ite, wp_ofExcept, wp_pure,
    wp_setRequest]
  refine ⟨fun h => absurd hbyte h, fun _ => ⟨?_, fun _ _ => trivial⟩⟩
  rintro ⟨translated, err⟩ htranslate
  refine ⟨fun herr h => absurd herr (by simp [h]), fun herr _ => ?_⟩
  exact ⟨translated, err, htranslate, by simpa using herr, rfl⟩

theorem wp_parse {text : Bytes} (hrequest : s.context.request = setQuery text) :
    wp (parseQueryPlugIn lib)
      (fun _ s' => ∃ q err, Query.parse lib (cString text) = .ok (q, err) ∧
        s' = { s with context.query := q })
      (fun _ _ => True) s := by
  simp only [parseQueryPlugIn, wp_bind, wp_state, wp_ite, wp_ofExcept, wp_pure, wp_modify, hrequest,
    byteAt_setQuery, textAt_setQuery]
  refine ⟨fun h => by simp at h, fun _ => ⟨?_, fun _ _ => trivial⟩⟩
  rintro ⟨q, err⟩ hparse
  exact ⟨q, err, hparse, rfl⟩

theorem wp_acl :
    wp (aclQueryPlugIn lib) (fun _ s' => Conditioned lib s s') (fun _ _ => True) s := by
  simp only [aclQueryPlugIn, wp_bind, wp_state, wp_ite, wp_ofExcept, wp_pure, wp_modify,
    wp_requestQuery]
  refine ⟨fun hrole => .inl ⟨.inl hrole, rfl⟩, fun hrole =>
    ⟨fun hvalid => .inl ⟨.inr (by simpa using hvalid), rfl⟩, fun hvalid =>
      ⟨fun json hacl => ⟨fun text htext => ?_, fun _ _ => trivial⟩, fun _ _ => trivial⟩⟩⟩
  refine .inr ⟨hrole, by simpa using hvalid, json, text, ?_, htext, rfl⟩
  rw [acl] at hacl
  split at hacl
  · rename_i json' hjson'
    rw [hjson', Except.ok.inj hacl]
  · exact absurd hacl (by simp)

theorem strict_bindingsTableName (st : SchemaTracker) (tableNames : List String) :
    Strict (fun _ => True) (bindingsTableName st tableNames) := by
  intro j a j' h _
  obtain ⟨⟨tn, k⟩, hk, hrest⟩ := bind_eq_ok.mp h
  have hstrict : Strict (fun _ : String => True)
      (atKey "List" (atKey "items" (atIndex 0 (atKey "String" (atKey "str" getString))))) :=
    ((((strict_getString.atKey _).atKey _).atIndex _).atKey _).atKey _
  obtain ⟨rfl, hnull⟩ := hstrict _ _ _ hk trivial
  have hnames : (if st.exist tn = true then
      (pure (tableNames ++ [tn ++ "__access_bindings__"]) : Access (List String))
      else pure tableNames) k = .ok (a, j') := hrest
  split at hnames
  · obtain ⟨-, rfl⟩ := Prod.mk.inj (Except.ok.inj hnames)
    exact ⟨rfl, hnull⟩
  · obtain ⟨-, rfl⟩ := Prod.mk.inj (Except.ok.inj hnames)
    exact ⟨rfl, hnull⟩

theorem wp_dropTable :
    wp (dropTablePlugIn lib io) (fun _ s' => Flagged lib s s') (fun _ _ => True) s := by
  simp only [dropTablePlugIn, wp_bind, wp_state, wp_ite, wp_pure]
  refine ⟨fun _ => .inl rfl, fun _ => ?_⟩
  cases hfind : findNode "DropStmt" s.context.query.json with
  | none => exact .inl rfl
  | some n =>
      simp only [wp_bind, wp_onQuery, wp_ite, wp_pure, wp_state, wp_ofExcept]
      refine ⟨fun removeType json htype => ⟨fun _ => .inl rfl, fun hremove => ?_⟩,
        fun _ _ => trivial⟩
      -- the type and the objects of the statement were there to be read
      have htypeRead : Strict (fun v => v = .str "OBJECT_TABLE") value := strict_value (by simp)
      obtain ⟨rfl, -⟩ := (htypeRead.atKey "removeType").atPath n _ _ _ htype (not_not.mp hremove)
      refine ⟨fun tableNames json hnames => ⟨fun _ => .inl rfl, fun hempty => ?_⟩,
        fun _ _ => trivial⟩
      obtain ⟨rfl, -⟩ := ((strict_forItems (strict_bindingsTableName s.st) []).atKey
        "objects").atPath n _ _ _ hnames (by simpa using hempty)
      refine ⟨fun testQ _ => ⟨fun testQstr _ => ?_, fun _ _ => trivial⟩, fun _ _ => trivial⟩
      cases io.exec testQstr with
      | sqlError => exact .inl rfl
      | fault f => exact trivial
      | done =>
          simp only [wp_bind, wp_onQuery, wp_pure, wp_requestQuery]
          refine ⟨fun _ json hassign => ⟨fun text htext => ?_, fun _ _ => trivial⟩, fun _ _ => trivial⟩
          exact .inr ⟨json, text, ⟨n, hfind, hassign⟩, htext, rfl⟩

theorem wp_ensureNewTableHasId :
    wp (ensureNewTableHasIdPlugIn lib) (fun _ s' => s'.context.request = s.context.request)
      (fun _ _ => True) s := by
  simp only [ensureNewTableHasIdPlugIn, wp_bind, wp_state, wp_ite, wp_pure]
  refine ⟨fun _ => trivial, fun _ => ?_⟩
  cases findNode "CreateStmt" s.context.query.json with
  | none => rfl
  | some n => simp [wp_bind, wp_onQuery, wp_ite, wp_pure]

theorem applyAll_of_query (hbyte : s.context.request.byteAt 0 = 81) :
    wp (applyAll (preRequestPlugins lib io))
      (fun err s' => err = none → ∃ translated e q err' t,
        lib.translate (s.context.request.textAt 5) = .ok (translated, e) ∧ e.isError = false ∧
        Query.parse lib (cString translated) = .ok (q, err') ∧
        Conditioned lib
          { s with context.request := setQuery translated, context.query := q } t ∧
        Flagged lib t s')
      (fun _ _ => True) s := by
  rw [preRequestPlugins, wp_applyAll_cons]
  refine wp_mono (wp_translate hbyte) (fun err s₁ h₁ => ⟨fun _ => by simp, fun herr => ?_⟩) fun _ _ h => h
  obtain ⟨translated, e, htranslate, he, rfl⟩ := h₁ herr
  rw [wp_applyAll_cons]
  refine wp_mono (wp_parse rfl) ?_ fun _ _ h => h
  rintro err s₂ ⟨q, err', hparse, rfl⟩
  refine ⟨fun _ => by simp, fun _ => ?_⟩
  rw [wp_applyAll_cons]
  refine wp_mono wp_acl (fun err s₃ hacl => ⟨fun _ => by simp, fun _ => ?_⟩) fun _ _ h => h
  rw [wp_applyAll_cons]
  refine wp_mono wp_dropTable (fun err s₄ hdrop => ⟨fun _ => by simp, fun _ => ?_⟩) fun _ _ h => h
  rw [wp_applyAll_cons]
  refine wp_mono wp_ensureNewTableHasId (fun err s₅ hrequest => ⟨fun _ => by simp, fun _ => ?_⟩)
    fun _ _ h => h
  rw [wp_applyAll_cons]
  refine ⟨fun _ => by simp, fun _ _ => ⟨translated, e, q, err', s₃, htranslate, he, hparse, hacl, ?_⟩⟩
  rw [Flagged, hrequest]
  exact hdrop

/-- A query that is accepted leaves the plug-ins, if at all, as the text of its rewritten
tree. -/
theorem applyAll_of_accepted (hbyte : s.context.request.byteAt 0 = 81)
    (hrole : s.parameter "rolsuper" ≠ utf8 "t")
    (haccept : ∀ translated err, lib.translate (s.context.request.textAt 5) = .ok (translated, err) →
      err.isError = false → ∀ e, lib.pgQueryParse (cString translated) ≠ .ok (.error e)) :
    wp (applyAll (preRequestPlugins lib io))
      (fun err s' => err = none → ∃ text translated e json, s'.context.request = setQuery text ∧
        lib.translate (s.context.request.textAt 5) = .ok (translated, e) ∧
        lib.pgQueryParse (cString translated) = .ok (.ok json) ∧ RewrittenText lib s.st json text)
      (fun _ _ => True) s := by
  refine wp_mono (applyAll_of_query hbyte) (fun err s' h herr => ?_) fun _ _ h => h
  obtain ⟨translated, e, q, err', t, htranslate, he, hparse, hacl, hdrop⟩ := h herr
  obtain ⟨r, hr, hquery⟩ := bind_eq_ok.mp hparse
  cases r with
  | error e' => exact absurd hr (haccept translated e htranslate he e')
  | ok json =>
      obtain ⟨rfl, -⟩ := Prod.mk.inj (Except.ok.inj hquery)
      rcases hacl with ⟨hrole' | hvalid, -⟩ | ⟨-, -, json', text, hacl, htext, rfl⟩
      · exact absurd hrole' hrole
      · exact absurd hvalid (by simp)
      · rcases hdrop with hrequest | ⟨json'', text', hcascade, htext', hrequest⟩
        · exact ⟨text, translated, e, json, hrequest, htranslate, hr, json', hacl, .inl htext⟩
        · exact ⟨text', translated, e, json, hrequest, htranslate, hr, json', hacl,
            .inr ⟨json'', hcascade, htext'⟩⟩

end Requests

section Streams

theorem carried_append (a b : Bytes) : carried (a ++ b) = carried a ++ carried (pending a ++ b) := by
  rw [carried, messages_append, List.flatMap_append]
  rfl

theorem data_setQuery {text : Bytes} (hzero : cString text = text) :
    (setQuery text).data = Message.encode ⟨81, text ++ [0]⟩ := by
  rw [setQuery, hzero, Buffer.data, List.take_length, Message.encode, List.length_append,
    List.append_assoc]
  rfl

theorem carried_setQuery {text : Bytes} (hzero : cString text = text)
    (hlength : text.length < 1073741824) :
    carried (setQuery text).data = [text] ∧ pending (setQuery text).data = [] := by
  have hbound : (text ++ [0]).length + 4 < 4294967296 := by
    rw [List.length_append, List.length_singleton]
    omega
  rw [data_setQuery hzero, carried, messages_encode (m := ⟨81, text ++ [0]⟩) hbound,
    pending_encode (m := ⟨81, text ++ [0]⟩) hbound]
  refine ⟨?_, rfl⟩
  rw [List.flatMap_singleton, sqlTexts, if_pos rfl, ← hzero]
  exact congrArg (fun t => [t]) (cString_append_zero ne_zero_of_mem_cString [])

theorem toText_spec {lib : Externals} {json : Json} {text : Bytes}
    (h : Query.toText lib json = .ok text) : cString text = text ∧ text.length < 1073741824 := by
  obtain ⟨raw, hraw, rfl⟩ := map_eq_ok.mp h
  constructor
  · exact cString_of_forall_ne_zero ne_zero_of_mem_cString
  · exact lt_of_le_of_lt (List.takeWhile_sublist _).length_le (lib.length_deparse json raw hraw)

end Streams

section Turns

variable {lib : Externals} {io : Io} {s s' : Session} {stream : Bytes} {Prov : Bytes → Prop}

/-- What is true of a session between its actions; `stream` is what the server has got of it. -/
def Phase (Prov : Bytes → Prop) (stream : Bytes) (current : Option SessionState) (c : Context) :
    Prop :=
  match current with
  | some .initiate => False
  | some .prepareToReceiveRequest => c.query.valid = false
  | some .receiveRequest => c.query.valid = false
  | some .applyPreRequestPlugins => c.query.valid = false
  | some .prepareToForwardRequest => ∀ text ∈ carried (pending stream ++ c.request.data), Prov text
  | some .forwardRequest => ∀ text ∈ carried (pending stream ++ c.request.data), Prov text
  | _ => True

theorem carried_pending (stream : Bytes) : carried (pending stream) = [] := by
  rw [carried, messages_of_none (firstMessage_pending stream)]
  rfl

theorem forwarded_of_checked (hquery : s.context.query.valid = false)
    (hchecked : Checked lib stream s) (hcurrent : s.current = some .applyPreRequestPlugins)
    (hprov : ∀ text, Rewrites lib s text → Prov text) :
    wp (applyAll (preRequestPlugins lib io))
      (fun err t => err = none →
        ∀ text ∈ carried (pending stream ++ t.context.request.data), Prov text)
      (fun _ _ => True) s := by
  rcases hchecked with ⟨hbyte, hnone⟩ | ⟨hbyte, hpending, hrole, haccept⟩
  · refine wp_mono (applyAll_of_not_query hbyte hquery) ?_ fun _ _ h => h.elim
    rintro err t ⟨-, rfl⟩ _ text htext
    rw [hnone] at htext
    exact absurd htext List.not_mem_nil
  · refine wp_mono (applyAll_of_accepted hbyte hrole haccept) (fun err t hforwarded herr text htext => ?_)
      fun _ _ h => h
    obtain ⟨made, translated, e, json, hrequest, htranslate, hparse, hrewritten⟩ := hforwarded herr
    have hspec : cString made = made ∧ made.length < 1073741824 := by
      obtain ⟨json', -, htext' | ⟨json'', -, htext'⟩⟩ := hrewritten
      · exact toText_spec htext'
      · exact toText_spec htext'
    rw [hpending, List.nil_append, hrequest, (carried_setQuery hspec.1 hspec.2).1,
      List.mem_singleton] at htext
    subst htext
    exact hprov text ⟨hcurrent, translated, e, json, htranslate, hparse, hrewritten⟩

theorem handed_of_ne (h : s.current ≠ some .forwardRequest) : handed s = [] := by
  rw [handed, if_neg h]

theorem prov_of_handed (hphase : Phase Prov stream s.current s.context) :
    ∀ text ∈ carried (pending stream ++ handed s), Prov text := by
  by_cases hcurrent : s.current = some .forwardRequest
  · rw [handed, if_pos hcurrent]
    rw [hcurrent] at hphase
    exact hphase
  · rw [handed_of_ne hcurrent, List.append_nil, carried_pending]
    exact fun _ h => absurd h List.not_mem_nil

theorem phase_action {state : SessionState} (hcurrent : s.current = some state)
    (hinitiated : s.context.initiated = true) (hphase : Phase Prov stream (some state) s.context)
    (hchecked : state = .applyPreRequestPlugins → Checked lib stream s)
    (hprov : ∀ text, Rewrites lib s text → Prov text) :
    wp (action lib io state) (fun next t => Phase Prov (stream ++ handed s) next t.context)
      (fun _ _ => True) s := by
  have hhanded : state ≠ .forwardRequest → stream ++ handed s = stream := by
    intro hne
    rw [handed_of_ne (by simpa [hcurrent] using hne), List.append_nil]
  cases state with
  | initiate => exact hphase.elim
  | prepareToReceiveRequest => exact hphase
  | receiveRequest =>
      simp only [action, wp_receiveRequest, hinitiated]
      exact ⟨fun _ => trivial, fun _ => hphase⟩
  | applyPreRequestPlugins =>
      rw [hhanded (by simp)]
      refine wp_mono (wp_applyPreRequestPlugins
        (forwarded_of_checked hphase (hchecked rfl) hcurrent hprov)) ?_ fun _ _ _ => trivial
      rintro next t (⟨rfl, -, hforwarded⟩ | ⟨rfl, -⟩)
      · exact hforwarded
      · trivial
  | prepareToForwardRequest =>
      rw [hhanded (by simp)]
      exact hphase
  | forwardRequest =>
      simp only [action, wp_forwardRequest]
      exact ⟨fun _ => trivial, fun _ => trivial⟩
  | prepareToReceiveResponse => trivial
  | receiveResponse =>
      simp only [action, wp_receiveResponse]
      exact ⟨fun _ => trivial,
        fun _ => ⟨fun _ _ => ⟨fun _ => trivial, fun _ => trivial⟩, fun _ _ => trivial⟩⟩
  | applyPostResponsePlugins =>
      refine wp_mono next_applyPostResponsePlugins ?_ fun _ _ h => h
      rintro next t rfl
      trivial
  | prepareToForwardResponse => trivial
  | forwardResponse =>
      simp only [action, wp_forwardResponse]
      exact ⟨fun _ => trivial, fun _ => trivial⟩
  | resetContext => rfl

theorem phase_takeAction (hinitiated : s.context.initiated = true)
    (hphase : Phase Prov stream s.current s.context)
    (hchecked : s.current = some .applyPreRequestPlugins → Checked lib stream s)
    (hprov : ∀ text, Rewrites lib s text → Prov text) (htake : takeAction lib io s = .ok s') :
    s'.context.initiated = true ∧ Phase Prov (stream ++ handed s) s'.current s'.context := by
  cases hcurrent : s.current with
  | none =>
      rw [takeAction, hcurrent] at htake
      obtain rfl := Except.ok.inj htake
      rw [hcurrent]
      exact ⟨hinitiated, trivial⟩
  | some state =>
      rw [hcurrent] at hphase hchecked
      have hne : state ≠ .initiate := fun h => by
        rw [h] at hphase
        exact hphase
      obtain ⟨next, t, ⟨ht, hkept⟩, rfl⟩ := exists_of_takeAction hcurrent
        (wp_and (phase_action hcurrent hinitiated hphase (fun h => hchecked (congrArg some h)) hprov)
          (initiated_action hne s)) htake
      exact ⟨hkept.trans hinitiated, ht⟩

end Turns

section Runs

variable {lib : Externals} {i : Nat}

/-- A session after the startup of a role that is not a superuser, before the next request. -/
structure Initiated (p : Proxy) (i : Nat) : Prop where
  role : (p.sessions i).parameter "rolsuper" ≠ utf8 "t"
  current : (p.sessions i).current = some .prepareToReceiveRequest
  context : (p.sessions i).context = .new true
  toServer : p.toServer i = []

/-- What holds of a session throughout a run. -/
structure Guarded (Prov : Bytes → Prop) (p : Proxy) (i : Nat) : Prop where
  initiated : (p.sessions i).context.initiated = true
  phase : Phase Prov (p.toServer i) (p.sessions i).current (p.sessions i).context
  texts : ∀ text ∈ carried (p.toServer i), Prov text

theorem Phase.mono {Prov Prov' : Bytes → Prop} {stream : Bytes} {current : Option SessionState}
    {c : Context} (h : Phase Prov stream current c) (hprov : ∀ text, Prov text → Prov' text) :
    Phase Prov' stream current c := by
  cases current with
  | none => trivial
  | some state =>
      cases state with
      | prepareToForwardRequest => exact fun text htext => hprov text (h text htext)
      | forwardRequest => exact fun text htext => hprov text (h text htext)
      | _ => exact h

theorem Guarded.mono {Prov Prov' : Bytes → Prop} {p : Proxy} (h : Guarded Prov p i)
    (hprov : ∀ text, Prov text → Prov' text) : Guarded Prov' p i :=
  ⟨h.initiated, h.phase.mono hprov, fun text htext => hprov text (h.texts text htext)⟩

theorem Guarded.step {Prov : Bytes → Prop} {p p' : Proxy} (h : Guarded Prov p i) (turn : Nat × Io)
    (hchecked : (p.session i).current = some .applyPreRequestPlugins →
      Checked lib (p.toServer i) (p.session i))
    (hprov : ∀ text, Rewrites lib (p.session i) text → Prov text)
    (hstep : StateMachine.step lib p turn = .ok p') : Guarded Prov p' i := by
  obtain ⟨j, io⟩ := turn
  obtain ⟨s', htake, hp'⟩ := bind_eq_ok.mp hstep
  obtain rfl := Except.ok.inj hp'
  by_cases hj : j = i
  · subst hj
    have hafter : s'.context.initiated = true ∧
        Phase Prov (p.toServer j ++ handed (p.session j)) s'.current s'.context :=
      phase_takeAction h.initiated h.phase hchecked hprov htake
    refine ⟨?_, ?_, ?_⟩
    · simp only [Function.update_self]
      exact hafter.1
    · simp only [Function.update_self]
      exact hafter.2
    · simp only [Function.update_self]
      rw [carried_append]
      intro text htext
      rcases List.mem_append.mp htext with htext | htext
      · exact h.texts text htext
      · exact prov_of_handed h.phase text htext
  · have hij : i ≠ j := fun heq => hj heq.symm
    refine ⟨?_, ?_, ?_⟩
    · simp only [Function.update_of_ne hij]
      exact h.initiated
    · simp only [Function.update_of_ne hij]
      exact h.phase
    · simp only [Function.update_of_ne hij]
      exact h.texts

/-- In the course of the run the session has rewritten a query to the text. -/
def RewrittenIn (lib : Externals) (p : Proxy) (i : Nat) (turns : List (Nat × Io)) (text : Bytes) :
    Prop :=
  ∃ pre post q, turns = pre ++ post ∧ run lib p pre = .ok q ∧ Rewrites lib (q.session i) text

/-- Every request of the session is checked when its plug-ins are applied. -/
def CheckedRun (lib : Externals) (p : Proxy) (i : Nat) (turns : List (Nat × Io)) : Prop :=
  ∀ pre post q, turns = pre ++ post → run lib p pre = .ok q →
    (q.session i).current = some .applyPreRequestPlugins → Checked lib (q.toServer i) (q.session i)

/-- Every SQL text that the session has handed over is one it has rewritten. -/
def OnlyRewritten (lib : Externals) (p : Proxy) (i : Nat) (turns : List (Nat × Io)) : Prop :=
  ∀ q, run lib p turns = .ok q → ∀ text ∈ carried (q.toServer i), RewrittenIn lib p i turns text

theorem guarded_run {p q : Proxy} {turns : List (Nat × Io)} (hinitiated : Initiated p i)
    (hchecked : CheckedRun lib p i turns) (hrun : run lib p turns = .ok q) :
    Guarded (RewrittenIn lib p i turns) q i := by
  induction turns using List.reverseRecOn generalizing q with
  | nil =>
      obtain rfl := Except.ok.inj hrun
      refine ⟨by rw [hinitiated.context]; rfl, ?_, ?_⟩
      · rw [hinitiated.current, hinitiated.context]
        rfl
      · rw [hinitiated.toServer]
        exact fun _ h => absurd h List.not_mem_nil
  | append_singleton turns turn ih =>
      rw [run_concat] at hrun
      obtain ⟨r, hr, hstep⟩ := bind_eq_ok.mp hrun
      have hbefore := ih (fun pre post t hsplit => hchecked pre (post ++ [turn]) t
        (by rw [hsplit, List.append_assoc])) hr
      refine Guarded.step (hbefore.mono ?_) turn (hchecked turns [turn] r rfl hr) ?_ hstep
      · rintro text ⟨pre, post, t, hsplit, ht, hrewrites⟩
        exact ⟨pre, post ++ [turn], t, by rw [hsplit, List.append_assoc], ht, hrewrites⟩
      · exact fun text hrewrites => ⟨turns, [turn], r, rfl, hr, hrewrites⟩

theorem onlyRewritten_of_checked (lib : Externals) (p : Proxy) (i : Nat) (turns : List (Nat × Io))
    (hinitiated : Initiated p i) (hchecked : CheckedRun lib p i turns) :
    OnlyRewritten lib p i turns :=
  fun _ hrun => (guarded_run hinitiated hchecked hrun).texts

end Runs

def selectOne : Json :=
  .obj [("stmts", .arr [.obj [("stmt", ParseTree.node "SelectStmt"
      [("limitOption", .str "LIMIT_OPTION_DEFAULT"), ("op", .str "SETOP_NONE"),
        ("targetList", .arr [ParseTree.node "ResTarget"
          [("location", .num "7"), ("val", ParseTree.node "A_Const"
            [("location", .num "7"), ("val", ParseTree.node "Integer" [("ival", .num "1")])])]])])]]),
    ("version", .num "130003")]

def noStatement : Json :=
  .obj [("stmts", .arr []), ("version", .num "130003")]

/-- The libraries, as they treat `SELECT 1` and the empty text. -/
def sampleExternals : Externals where
  translate text := .ok (text, .noError)
  pgQueryParse text :=
    if text = utf8 "SELECT 1" then .ok (.ok selectOne)
    else if text = [] then .ok (.ok noStatement)
    else .ok (.error ⟨utf8 "syntax error", [], [], 0, 0⟩)
  deparse json := .ok (if json = selectOne then utf8 "SELECT 1" else [])
  length_deparse := by
    intro json text h
    rw [← Except.ok.inj h]
    split
    · decide +kernel
    · decide +kernel
  what _ := []
  file := []

/-- Turns of session 0 that receive a batch and hand it on. -/
def requestTurns (batch : Bytes) : List (Nat × Io) :=
  List.replicate 5 (0, receiving batch)

/-- Every session is that of a role without superuser rights, and waits for a request. -/
def sampleProxy : Proxy where
  sessions _ :=
    { parameters := fun name => if name = utf8 "rolsuper" then some (utf8 "f") else none
      st := .empty
      context := .new true
      current := some .prepareToReceiveRequest }
  st := .empty
  toServer _ := []

theorem initiated_sampleProxy : Initiated sampleProxy 0 :=
  ⟨by decide +kernel, rfl, rfl, rfl⟩

theorem of_prefix {turns pre post : List (Nat × Io)} {q : Proxy} (check : Proxy → Prop)
    [DecidablePred check]
    (hall : ∀ n < turns.length + 1,
      (run sampleExternals sampleProxy (turns.take n)).toOption.all check = true)
    (hsplit : turns = pre ++ post) (hrun : run sampleExternals sampleProxy pre = .ok q) :
    check q := by
  have hpre := hall pre.length (by rw [hsplit, List.length_append]; omega)
  rw [hsplit, List.take_left, hrun] at hpre
  exact of_decide_eq_true hpre

/-- A query runs through as it was rewritten. -/
theorem onlyRewritten_query :
    OnlyRewritten sampleExternals sampleProxy 0
      (requestTurns (Message.encode ⟨81, utf8 "SELECT 1" ++ [0]⟩)) := by
  refine onlyRewritten_of_checked _ _ _ _ initiated_sampleProxy ?_
  intro pre post q hsplit hrun hcurrent
  have hcheck := of_prefix (fun q => (q.session 0).current = some .applyPreRequestPlugins →
      (q.session 0).context.request.byteAt 0 = 81 ∧ pending (q.toServer 0) = [] ∧
        (q.session 0).parameter "rolsuper" ≠ utf8 "t" ∧
        (q.session 0).context.request.textAt 5 = utf8 "SELECT 1")
    (by decide +kernel) hsplit hrun
  obtain ⟨hbyte, hpending, hrole, htext⟩ := hcheck hcurrent
  refine .inr ⟨hbyte, hpending, hrole, fun translated err htranslate _ e hparse => ?_⟩
  rw [htext] at htranslate
  obtain ⟨rfl, -⟩ := Prod.mk.inj (Except.ok.inj htranslate)
  have haccepted : sampleExternals.pgQueryParse (cString (utf8 "SELECT 1")) = .ok (.ok selectOne) := by
    rfl
  rw [haccepted] at hparse
  exact absurd (Except.ok.inj hparse) (by simp)

theorem acl_noStatement (st : SchemaTracker) :
    QueryAcler.acl (some st) noStatement = .ok noStatement := rfl

/-- The text of a `Parse` message is handed on as it came. -/
theorem not_onlyRewritten_parseMessage :
    Initiated sampleProxy 0 ∧ ¬ OnlyRewritten sampleExternals sampleProxy 0
      (requestTurns (Message.encode ⟨80, 0 :: (utf8 "SELECT 1" ++ [0, 0, 0])⟩)) := by
  refine ⟨initiated_sampleProxy, fun h => ?_⟩
  have hcarried : (run sampleExternals sampleProxy
      (requestTurns (Message.encode ⟨80, 0 :: (utf8 "SELECT 1" ++ [0, 0, 0])⟩))).toOption.map
      (fun q => carried (q.toServer 0)) = some [utf8 "SELECT 1"] := by
    decide +kernel
  obtain ⟨q, hrun, htexts⟩ := Option.map_eq_some_iff.mp hcarried
  obtain ⟨pre, post, r, hsplit, hr, hcurrent, translated, err, json, htranslate, hparse, json', hacl,
    htext⟩ := h q (eq_ok_of_toOption hrun) (utf8 "SELECT 1")
      (by rw [htexts]; exact List.mem_singleton.mpr rfl)
  have hcheck := of_prefix (fun q => (q.session 0).current = some .applyPreRequestPlugins →
      (q.session 0).context.request.textAt 5 = []) (by decide +kernel) hsplit hr
  rw [hcheck hcurrent] at htranslate
  obtain ⟨rfl, -⟩ := Prod.mk.inj (Except.ok.inj htranslate)
  have hempty : sampleExternals.pgQueryParse (cString []) = .ok (.ok noStatement) := by rfl
  rw [hempty] at hparse
  obtain rfl := Except.ok.inj (Except.ok.inj hparse)
  rw [acl_noStatement] at hacl
  obtain rfl := Except.ok.inj hacl
  rcases htext with htext | ⟨json'', ⟨n, hfind, -⟩, -⟩
  · exact absurd (Except.ok.inj htext) (by decide +kernel)
  · exact absurd hfind (by simp [noStatement, findNode, findMember, findElem])

end PgFort.SqlForwarding
