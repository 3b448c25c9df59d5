import PgFort.StartupScan

namespace PgFort.StartupMessages

open PgFort.Framing
open PgFort.KeyedTraversal
open PgFort.Conn
open PgFort.Reads
open PgFort.Schema
open PgFort.Stateful.Action
open PgFort.Plugins
open PgFort.StateMachine
open PgFort.Frames
open PgFort.SqlForwarding
open PgFort.Lives
open PgFort.Batches
open PgFort.Receipts
open PgFort.PrintInfo
open PgFort.StartupScan

def encodePair (p : Bytes × Bytes) : Bytes :=
  p.1 ++ 0 :: (p.2 ++ [0])

/-- The bytes of a startup message behind its version. -/
def encodePairs (pairs : List (Bytes × Bytes)) : Bytes :=
  pairs.flatMap encodePair ++ [0]

/-- A startup message, the length of which is that of an `Int32`. -/
structure StartupMessage where
  version : Bytes
  pairs : List (Bytes × Bytes)
  length_version : version.length = 4
  named : ∀ p ∈ pairs, p.1 ≠ []
  zeroFree : ∀ p ∈ pairs, (∀ byte ∈ p.1, byte ≠ 0) ∧ ∀ byte ∈ p.2, byte ≠ 0
  length : (encodePairs pairs).length + 8 < 2147483648

namespace StartupMessage

variable (m : StartupMessage)

def encode : Bytes :=
  bigEndian ((encodePairs m.pairs).length + 8) ++ m.version ++ encodePairs m.pairs

/-- The value that is given to a name first. -/
def firstValue (name : String) : Option Bytes :=
  m.pairs.lookup (utf8 name)

/-- The value that is given to a name last, which is the one that the server goes by. -/
def lastValue (name : Bytes) : Option Bytes :=
  m.pairs.reverse.lookup name

end StartupMessage

/-- The session right after the loop. -/
def started (m : StartupMessage) (s : Session) : Session :=
  m.pairs.foldl setStartupParameter s

/-- The loop of `Initiate` finds the pairs of the message, and each name gets its last value; the
database is the user where none is given, and the role that is looked up is the user. -/
structure Parsed (m : StartupMessage) (s : Session) : Prop where
  entered : ¬s.context.request.size ≤ 8
  visited : ∃ n, parameterLoop s.context.request.buf n 8 = some m.pairs
  parameters : ∀ name, name ≠ utf8 "database" → (started m s).parameters name = m.lastValue name
  database : (started m s).parameters (utf8 "database") =
    (m.lastValue (utf8 "database")).or (m.lastValue (utf8 "user"))
  user : ∀ io rolsuper,
    io.exec1 (rolsuperQuery ((m.lastValue (utf8 "user")).getD [])) = .ok rolsuper →
      initiate io s = (.ok (some .prepareToForwardRequest),
        { (started m s).setParameter (utf8 "rolsuper") (cString rolsuper) with
          context.initiated := true })

/-- Every session that comes to its startup with the message in its buffer, whatever it came in,
parses it. -/
def Understood (m : StartupMessage) : Prop :=
  ∀ lib s rs, Reachable lib s → s.current = some .initiate → Offered rs → content rs = m.encode →
    s.context.request = rs.foldl recvFrom .new → Parsed m s

section Pairs

variable {front name tail : Bytes} {pairs : List (Bytes × Bytes)}

theorem cString_drop_front (hname : ∀ byte ∈ name, byte ≠ 0) :
    cString ((front ++ (name ++ 0 :: tail)).drop front.length) = name := by
  rw [List.drop_left, cString_append_zero hname]

theorem behind_front (hname : ∀ byte ∈ name, byte ≠ 0)
    (hshort : front.length + name.length + 1 < 4294967296) :
    behind (front ++ (name ++ 0 :: tail)) front.length = (front ++ (name ++ [0])).length := by
  rw [behind, strlen, cString_drop_front hname, wrap, Nat.mod_eq_of_lt hshort]
  simp only [List.length_append, List.length_singleton, Nat.add_assoc]

theorem getD_front (hname : ∀ byte ∈ name, byte ≠ 0) (hnonempty : name ≠ []) :
    (front ++ (name ++ tail)).getD front.length 0 ≠ 0 := by
  obtain ⟨byte, rest, rfl⟩ := List.exists_cons_of_ne_nil hnonempty
  rw [List.getD_append_right _ _ _ _ le_rfl, Nat.sub_self]
  exact hname byte List.mem_cons_self

theorem parameterLoop_encodePairs (hnamed : ∀ p ∈ pairs, p.1 ≠ [])
    (hfree : ∀ p ∈ pairs, (∀ byte ∈ p.1, byte ≠ 0) ∧ ∀ byte ∈ p.2, byte ≠ 0) {n : Nat}
    (hn : pairs.length < n) (hshort : front.length + (encodePairs pairs).length < 4294967296) :
    parameterLoop (front ++ (encodePairs pairs ++ tail)) n front.length = some pairs := by
  induction pairs generalizing front n with
  | nil =>
      obtain ⟨n, rfl⟩ : ∃ n', n = n' + 1 := ⟨n - 1, by omega⟩
      rw [parameterLoop, if_pos]
      rw [List.getD_append_right _ _ _ _ le_rfl, Nat.sub_self]
      rfl
  | cons p pairs ih =>
      obtain ⟨pname, pval⟩ := p
      obtain ⟨n, rfl⟩ : ∃ n', n = n' + 1 := ⟨n - 1, by omega⟩
      obtain ⟨hname, hvalue⟩ := hfree _ List.mem_cons_self
      have hlength : (encodePairs ((pname, pval) :: pairs)).length =
          pname.length + (pval.length + 2) + (encodePairs pairs).length := by
        simp only [encodePairs, encodePair, List.flatMap_cons, List.length_append,
          List.length_cons, List.length_nil]
        omega
      have hname' : front ++ (encodePairs ((pname, pval) :: pairs) ++ tail) =
          front ++ (pname ++ 0 :: (pval ++ 0 :: (encodePairs pairs ++ tail))) := by
        simp only [encodePairs, encodePair, List.flatMap_cons, List.append_assoc,
          List.cons_append, List.nil_append]
      have hvalue' : front ++ (pname ++ 0 :: (pval ++ 0 :: (encodePairs pairs ++ tail))) =
          front ++ (pname ++ [0]) ++ (pval ++ 0 :: (encodePairs pairs ++ tail)) := by
        simp only [List.append_assoc, List.cons_append, List.nil_append]
      have hrest' : front ++ (pname ++ [0]) ++ (pval ++ 0 :: (encodePairs pairs ++ tail)) =
          front ++ (pname ++ [0]) ++ (pval ++ [0]) ++ (encodePairs pairs ++ tail) := by
        simp only [List.append_assoc, List.cons_append, List.nil_append]
      have hlong : (front ++ (pname ++ [0]) ++ (pval ++ [0])).length =
          front.length + (pname.length + (pval.length + 2)) := by
        simp only [List.length_append, List.length_singleton]
        omega
      have hfirst : front.length + pname.length + 1 < 4294967296 := by
        change front.length + _ < _ at hshort
        omega
      have hsecond : (front ++ (pname ++ [0])).length + pval.length + 1 < 4294967296 := by
        simp only [List.length_append, List.length_singleton]
        omega
      rw [hname', parameterLoop, if_neg (getD_front hname (hnamed _ List.mem_cons_self)),
        cString_drop_front hname, behind_front hname hfirst, hvalue',
        cString_drop_front hvalue, behind_front hvalue hsecond, hrest',
        ih (fun q hq => hnamed q (List.mem_cons_of_mem _ hq))
          (fun q hq => hfree q (List.mem_cons_of_mem _ hq)) (by rw [List.length_cons] at hn; omega)
          (by omega)]
      rfl

end Pairs

section Parameters

theorem lookup_cons_eq (p : Bytes × Bytes) (pairs : List (Bytes × Bytes)) (name : Bytes) :
    (p :: pairs).lookup name = if name = p.1 then some p.2 else pairs.lookup name := by
  obtain ⟨pname, pval⟩ := p
  rw [List.lookup_cons]
  by_cases h : name = pname
  · rw [if_pos h, beq_iff_eq.mpr h]
  · rw [if_neg h, beq_eq_false_iff_ne.mpr h]

theorem parameters_setParameter (s : Session) (pname value name : Bytes) :
    (s.setParameter pname value).parameters name =
      if name = pname then some value else s.parameters name :=
  Function.update_apply ..

theorem parameters_setStartupParameter (s : Session) (p : Bytes × Bytes) (name : Bytes) :
    (setStartupParameter s p).parameters name =
      if name = p.1 then some p.2
      else if name = utf8 "database" ∧ p.1 = utf8 "user" then (s.parameters name).or (some p.2)
      else s.parameters name := by
  have hnames : utf8 "database" ≠ utf8 "user" := by decide
  simp only [setStartupParameter, parameters_setParameter, apply_ite Session.parameters, ite_apply]
  by_cases hname : name = p.1
  · simp only [if_pos hname, ite_self]
  · by_cases hdatabase : name = utf8 "database" ∧ p.1 = utf8 "user"
    · obtain ⟨rfl, huser⟩ := hdatabase
      simp only [huser, true_and, if_neg hnames, if_true]
      cases s.parameters (utf8 "database") with
      | none => rfl
      | some val => rfl
    · simp only [if_neg hname, if_neg hdatabase]
      by_cases huser : p.1 = utf8 "user"
      · simp only [if_neg fun h => hdatabase ⟨h, huser⟩, ite_self]
      · simp only [huser, false_and, if_false]

theorem parameters_foldl {s : Session} (hs : s.parameters = fun _ => none)
    (pairs : List (Bytes × Bytes)) (name : Bytes) :
    (pairs.foldl setStartupParameter s).parameters name =
      if name = utf8 "database" then
        (pairs.reverse.lookup name).or (pairs.lookup (utf8 "user"))
      else pairs.reverse.lookup name := by
  induction pairs using List.reverseRecOn with
  | nil =>
      rw [List.foldl_nil, hs]
      split <;> rfl
  | append_singleton pairs p ih =>
      rw [List.foldl_append, List.foldl_cons, List.foldl_nil, parameters_setStartupParameter, ih,
        List.reverse_append, List.reverse_singleton, List.singleton_append, lookup_cons_eq,
        List.lookup_append, lookup_cons_eq, List.lookup_nil]
      by_cases hname : name = p.1
      · simp only [if_pos hname, Option.some_or, ite_self]
      · simp only [if_neg hname]
        by_cases hdatabase : name = utf8 "database"
        · subst hdatabase
          by_cases huser : utf8 "user" = p.1
          · simp only [if_pos huser, if_true, if_pos (And.intro trivial huser.symm), Option.or_assoc]
          · simp only [if_neg huser, if_true, true_and, if_neg (Ne.symm huser), Option.or_none]
        · simp only [hdatabase, false_and, if_false]

end Parameters

section Encoding

variable (m : StartupMessage)

theorem length_encode : m.encode.length = (encodePairs m.pairs).length + 8 := by
  rw [StartupMessage.encode, List.length_append, List.length_append, m.length_version]
  simp only [bigEndian, List.length_cons, List.length_nil]
  omega

theorem length_pairs_le (pairs : List (Bytes × Bytes)) :
    pairs.length < (encodePairs pairs).length := by
  induction pairs with
  | nil => decide
  | cons p pairs ih =>
      have hlength : (encodePairs (p :: pairs)).length =
          (encodePair p).length + (encodePairs pairs).length := by
        simp only [encodePairs, List.flatMap_cons, List.length_append, Nat.add_assoc]
      rw [hlength, List.length_cons, encodePair, List.length_append, List.length_cons]
      omega

theorem startupParameters_received :
    startupParameters (received m.encode).buf = .ok m.pairs := by
  have hheader : (bigEndian ((encodePairs m.pairs).length + 8) ++ m.version).length = 8 := by
    rw [List.length_append, m.length_version]
    rfl
  have hshort := m.length
  have hpairs := length_pairs_le m.pairs
  have hloop : parameterLoop (received m.encode).buf rounds 8 = some m.pairs := by
    rw [received, StartupMessage.encode, List.append_assoc (_ ++ m.version), ← hheader]
    exact parameterLoop_encodePairs m.named m.zeroFree (by rw [rounds]; omega)
      (by rw [hheader]; omega)
  rw [startupParameters, hloop]

theorem parameterLoop_received :
    ∃ n, parameterLoop (received m.encode).buf n 8 = some m.pairs := by
  refine ⟨rounds, ?_⟩
  have hfound := startupParameters_received m
  rw [startupParameters] at hfound
  split at hfound
  · rename_i hloop
    rw [hloop, Except.ok.inj hfound]
  · cases hfound

theorem size_received : (received m.encode).size = m.encode.length := by
  have hlength := length_encode m
  have hshort := m.length
  exact asInt_of_lt (show m.encode.length < 2147483648 by omega)

end Encoding

section Sessions

variable {lib : Externals} {io : Io} {s s' : Session}

/-- Until a session has had its startup it has neither a parameter nor a query. -/
structure Untouched (s : Session) : Prop where
  parameters : s.context.initiated = false → s.parameters = fun _ => none
  query : s.context.initiated = false → s.context.query.valid = false
  plugins : s.context.initiated = false → s.current ≠ some .applyPreRequestPlugins
  initiate : s.current = some .initiate → s.context.initiated = false

theorem untouched_of_initiated {current : Option SessionState}
    (h : s.context.initiated = true) (hcurrent : current ≠ some .initiate) :
    Untouched { s with current } := by
  refine ⟨fun hfalse => ?_, fun hfalse => ?_, fun hfalse => ?_, fun hinitiate => ?_⟩
  · exact absurd (h.symm.trans hfalse) (by simp)
  · exact absurd (h.symm.trans hfalse) (by simp)
  · exact absurd (h.symm.trans hfalse) (by simp)
  · exact absurd hinitiate hcurrent

theorem applyPostResponsePlugins_of_no_query (h : s.context.query.valid = false) :
    wp (applyPostResponsePlugins lib io)
      (fun next s' => next = some .prepareToForwardResponse ∧ s' = s) (fun _ _ => True) s := by
  refine wp_applyPostResponsePlugins ?_
  simp [updateParametersPlugIn, updateSchemaPlugIn, wp_bind, wp_state, wp_pure, h]

theorem kept_action {state : SessionState} (hinitiate : state ≠ .initiate)
    (hplugins : state ≠ .applyPreRequestPlugins) (hquery : s.context.query.valid = false) :
    wp (action lib io state) (fun _ s' => Kept s s' ∧ s'.context.query.valid = false)
      (fun _ _ => True) s := by
  cases state with
  | initiate => exact absurd rfl hinitiate
  | prepareToReceiveRequest => exact ⟨⟨rfl, rfl, rfl⟩, hquery⟩
  | receiveRequest => simp [action, wp_receiveRequest, kept_iff, hquery]
  | applyPreRequestPlugins => exact absurd rfl hplugins
  | prepareToForwardRequest => exact ⟨⟨rfl, rfl, rfl⟩, hquery⟩
  | forwardRequest => simp [action, wp_forwardRequest, kept_iff, hquery]
  | prepareToReceiveResponse => exact ⟨⟨rfl, rfl, rfl⟩, hquery⟩
  | receiveResponse => simp [action, wp_receiveResponse, kept_iff, hquery]
  | applyPostResponsePlugins =>
      refine wp_mono (applyPostResponsePlugins_of_no_query hquery) ?_ fun _ _ h => h
      rintro next s' ⟨-, rfl⟩
      exact ⟨.refl s', hquery⟩
  | prepareToForwardResponse => exact ⟨⟨rfl, rfl, rfl⟩, hquery⟩
  | forwardResponse => simp [action, wp_forwardResponse, kept_iff, hquery]
  | resetContext => exact ⟨⟨rfl, rfl, rfl⟩, rfl⟩

theorem initiate_spec :
    wp (action lib io .initiate) (fun _ s' => s' = s ∨ s'.context.initiated = true)
      (fun _ _ => True) s := by
  simp [action, wp_initiate]

theorem untouched_takeAction (h : Untouched s) (htake : takeAction lib io s = .ok s') :
    Untouched s' := by
  cases hcurrent : s.current with
  | none =>
      rw [takeAction, hcurrent] at htake
      exact Except.ok.inj htake ▸ h
  | some state =>
      have hnext := current_mem_successors hcurrent htake
      by_cases hinitiated : s.context.initiated = true
      · have hstate : state ≠ .initiate := by
          rintro rfl
          exact absurd (hinitiated.symm.trans (h.initiate hcurrent)) (by simp)
        obtain ⟨next, t, ht, rfl⟩ :=
          exists_of_takeAction hcurrent (initiated_action hstate s) htake
        refine untouched_of_initiated (ht.trans hinitiated) fun hfirst => ?_
        obtain rfl := hfirst
        rw [hinitiated] at hnext
        cases state <;> simp [successors] at hnext
      · have hfalse : s.context.initiated = false := by simpa using hinitiated
        have hplugins : state ≠ .applyPreRequestPlugins := by
          rintro rfl
          exact h.plugins hfalse hcurrent
        rw [hfalse] at hnext
        by_cases hstate : state = .initiate
        · subst hstate
          obtain ⟨next, t, ht, rfl⟩ := exists_of_takeAction hcurrent initiate_spec htake
          obtain rfl := List.mem_singleton.mp hnext
          rcases ht with rfl | ht
          · exact ⟨fun _ => h.parameters hfalse, fun _ => h.query hfalse, fun _ => by simp,
              fun hfirst => by simp at hfirst⟩
          · exact untouched_of_initiated ht (by simp)
        · obtain ⟨next, t, ⟨hkept, hquery⟩, rfl⟩ := exists_of_takeAction hcurrent
            (kept_action hstate hplugins (h.query hfalse)) htake
          refine ⟨fun _ => hkept.parameters.trans (h.parameters hfalse), fun _ => hquery,
            fun _ => ?_, fun _ => hkept.initiated.trans hfalse⟩
          rintro rfl
          cases state <;> simp [successors] at hnext hplugins

theorem untouched_of_reachable (h : Reachable lib s) : Untouched s := by
  refine invariant_reachable (fun st => ?_) (fun s turn s' h hact => ?_) h
  · exact ⟨fun _ => rfl, fun _ => rfl, fun _ => by simp [Session.new],
      fun hfirst => by simp [Session.new] at hfirst⟩
  · exact untouched_takeAction (s := turn.meet s)
      ⟨h.parameters, h.query, h.plugins, h.initiate⟩ hact

end Sessions

section Startups

variable {lib : Externals} {s : Session} (m : StartupMessage)

theorem started_user (hs : s.parameters = fun _ => none) :
    (started m s).parameters (utf8 "user") = m.lastValue (utf8 "user") :=
  (parameters_foldl hs m.pairs (utf8 "user")).trans (if_neg (by decide))

theorem started_database (hs : s.parameters = fun _ => none) :
    (started m s).parameters (utf8 "database") =
      (m.lastValue (utf8 "database")).or (m.firstValue "user") :=
  (parameters_foldl hs m.pairs (utf8 "database")).trans (if_pos rfl)

theorem initiate_of_received (hs : s.parameters = fun _ => none)
    (hrequest : s.context.request = received m.encode) (hlong : 8 < m.encode.length) {io : Io}
    {rolsuper : Bytes}
    (hanswer : io.exec1 (rolsuperQuery ((m.lastValue (utf8 "user")).getD [])) = .ok rolsuper) :
    initiate io s = (.ok (some .prepareToForwardRequest),
      { (started m s).setParameter (utf8 "rolsuper") (cString rolsuper) with
        context.initiated := true }) := by
  have hloop : startupParameters s.context.request.buf = .ok m.pairs := by
    rw [hrequest]
    exact startupParameters_received m
  have hsize : ¬s.context.request.size ≤ 8 := by
    rw [hrequest, size_received]
    exact not_le.mpr (Int.ofNat_lt.mpr hlong)
  have huser : (started m s).parameter "user" = (m.lastValue (utf8 "user")).getD [] :=
    congrArg (·.getD []) (started_user m hs)
  rw [initiate, state_bind, if_neg hsize]
  refine (ofExcept_bind_ok hloop).trans ?_
  refine (bind_of_ok (rfl : _ = (_, started m s))).trans ?_
  rw [state_bind]
  exact ofExcept_bind_ok (huser ▸ hanswer)

theorem parsed_iff (hs : s.parameters = fun _ => none)
    (hrequest : s.context.request = received m.encode) :
    Parsed m s ↔ m.lastValue (utf8 "database") ≠ none ∨
      m.firstValue "user" = m.lastValue (utf8 "user") := by
  have hlong : 8 < m.encode.length := by
    rw [length_encode]
    have hpairs := length_pairs_le m.pairs
    omega
  constructor
  · intro h
    have hdatabase := (started_database m hs).symm.trans h.database
    by_contra hnot
    obtain ⟨hgiven, huser⟩ := not_or.mp hnot
    rw [not_not.mp hgiven, Option.none_or, Option.none_or] at hdatabase
    exact huser hdatabase
  · intro h
    refine ⟨?_, ?_, fun name hname => ?_, ?_, fun io rolsuper hanswer => ?_⟩
    · rw [hrequest, size_received]
      omega
    · rw [hrequest]
      exact parameterLoop_received m
    · exact (parameters_foldl hs m.pairs name).trans (if_neg hname)
    · rw [started_database m hs]
      rcases h with hgiven | huser
      · obtain ⟨val, hval⟩ := Option.ne_none_iff_exists'.mp hgiven
        rw [hval, Option.some_or, Option.some_or]
      · rw [huser]
    · exact initiate_of_received m hs hrequest hlong hanswer

theorem receiveRequest_eq (io : Io) {b : Buffer} {res : Int}
    (h : s.context.request.recvFrom io.chunks io.stop = (b, res)) (hres : ¬ res ≤ 0) :
    receiveRequest io s =
      (.ok (some (if s.context.initiated then .applyPreRequestPlugins else .initiate)),
        { s with context.request := b, context.waiting := false }) := by
  rw [receiveRequest, state_bind, h]
  refine (bind_of_ok (rfl : _ = (_, { s with context.request := b }))).trans ?_
  rw [proceed, if_neg hres]
  rfl

theorem takeAction_of_ok {io : Io} (state : SessionState) {next : Option SessionState}
    {s' : Session} (hcurrent : s.current = some state)
    (h : action lib io state s = (.ok next, s')) :
    takeAction lib io s = .ok { s' with current := next } := by
  rw [takeAction, hcurrent]
  simp only [h]

theorem recvFrom_wouldBlock (b : Buffer) (chunks : List Bytes) :
    b.recvFrom chunks .wouldBlock =
      ((b.recvFrom chunks .wouldBlock).1, (b.recvFrom chunks .wouldBlock).1.size) := rfl

/-- The message comes in byte by byte. -/
def inBytes (st : SchemaTracker) (bytes : Bytes) : Turn :=
  ⟨st, { receiving [] with chunks := bytes.map fun byte => [byte] }⟩

/-- A session that waits for its first message. -/
def waitingFor (st : SchemaTracker) : Session :=
  { Session.new st with
    context.ev := some (.client, .epollIn)
    context.waiting := true
    current := some .receiveRequest }

/-- The session when it has received a message. -/
def heard (st : SchemaTracker) (b : Buffer) : Session :=
  { waitingFor st with
    context.request := b
    context.waiting := false
    current := some .initiate }

theorem act_new (lib : Externals) (st : SchemaTracker) (bytes : Bytes) :
    act lib (Session.new st) (inBytes st bytes) = .ok (waitingFor st) := rfl

theorem act_waitingFor (lib : Externals) (st : SchemaTracker) {bytes : Bytes} {b : Buffer} {res : Int}
    (h : Buffer.new.recvFrom (bytes.map fun byte => [byte]) .wouldBlock = (b, res)) (hres : ¬ res ≤ 0) :
    act lib (waitingFor st) (inBytes st bytes) = .ok (heard st b) := by
  have hreceives := receiveRequest_eq (inBytes st bytes).io
    (s := (inBytes st bytes).meet (waitingFor st)) h hres
  exact takeAction_of_ok .receiveRequest rfl hreceives

theorem exists_started (lib : Externals) (st : SchemaTracker) :
    ∃ s, Reachable lib s ∧ s.current = some .initiate ∧
      s.context.request = (oneByOne m.encode).foldl recvFrom .new := by
  have hfold := foldl_recvFrom (offered_oneByOne m.encode)
  rw [content_oneByOne] at hfold
  have hreceived : (Buffer.new.recvFrom (m.encode.map fun byte => [byte]) .wouldBlock).1 =
      received m.encode := hfold
  have hres : ¬(received m.encode).size ≤ 0 := by
    have hlength := length_encode m
    rw [size_received]
    omega
  have hrecv : Buffer.new.recvFrom (m.encode.map fun byte => [byte]) .wouldBlock =
      (received m.encode, (received m.encode).size) := by
    rw [← hreceived]
    exact recvFrom_wouldBlock _ _
  refine ⟨heard st (received m.encode), ⟨st, [inBytes st m.encode, inBytes st m.encode], ?_⟩, rfl,
    hfold.symm⟩
  rw [live_cons, bind_eq_ok]
  refine ⟨_, act_new lib st m.encode, ?_⟩
  rw [live_cons, bind_eq_ok]
  exact ⟨_, act_waitingFor lib st hrecv hres, rfl⟩

theorem given_of_understood (h : Understood m) :
    m.lastValue (utf8 "database") ≠ none ∨ m.firstValue "user" = m.lastValue (utf8 "user") := by
  obtain ⟨s, hreachable, hcurrent, hrequest⟩ := exists_started m sampleExternals .empty
  have hoffered := offered_oneByOne m.encode
  have hcontent := content_oneByOne m.encode
  have huntouched := untouched_of_reachable hreachable
  refine (parsed_iff m (huntouched.parameters (huntouched.initiate hcurrent)) ?_).mp
    (h sampleExternals s _ hreachable hcurrent hoffered hcontent hrequest)
  rw [hrequest, foldl_recvFrom hoffered, hcontent]

end Startups

/-- A message is understood unless it leaves the database to its user, and gives that anew. -/
theorem understood_iff (m : StartupMessage) :
    Understood m ↔ m.lastValue (utf8 "database") ≠ none ∨
      m.firstValue "user" = m.lastValue (utf8 "user") := by
  refine ⟨given_of_understood m, fun h lib s rs hreachable hcurrent hoffered hcontent hrequest => ?_⟩
  have huntouched := untouched_of_reachable hreachable
  refine (parsed_iff m (huntouched.parameters (huntouched.initiate hcurrent)) ?_).mpr h
  rw [hrequest, foldl_recvFrom hoffered, hcontent]

/-- The user is given twice, and the database is left to it. -/
def secondUser : StartupMessage where
  version := [0, 3, 0, 0]
  pairs := [(utf8 "user", utf8 "ann"), (utf8 "user", utf8 "bob")]
  length_version := rfl
  named := by decide +kernel
  zeroFree := by decide +kernel
  length := by decide +kernel

theorem not_understood_secondUser : ¬ Understood secondUser :=
  mt (given_of_understood secondUser) (by decide +kernel)

end PgFort.StartupMessages
