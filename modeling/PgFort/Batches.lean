import PgFort.Cuts
import PgFort.SqlForwarding

namespace PgFort.Batches

open PgFort.Framing
open PgFort.KeyedTraversal
open PgFort.Conn
open PgFort.Stateful.Action
open PgFort.Plugins
open PgFort.StateMachine
open PgFort.Frames
open PgFort.Cuts
open PgFort.SqlForwarding

/-- A message of a client; those of the startup have no type byte. -/
inductive FrontendMessage where
  | untyped (payload : Bytes)
  | typed (m : Message)
  deriving DecidableEq, Repr

namespace FrontendMessage

/-- The bytes of a message of the client: a startup message has no type. -/
def encode : FrontendMessage → Bytes
  | untyped payload => bigEndian (payload.length + 4) ++ payload
  | typed m => m.encode

/-- The messages that the plug-ins translate and rewrite. -/
def IsQuery : FrontendMessage → Prop
  | untyped _ => False
  | typed m => m.type = 81

instance : DecidablePred IsQuery
  | untyped _ => isFalse id
  | typed m => inferInstanceAs (Decidable (m.type = 81))

theorem encode_ne_nil (x : FrontendMessage) : x.encode ≠ [] := by
  cases x with
  | untyped payload => exact List.cons_ne_nil _ _
  | typed m => exact List.cons_ne_nil _ _

end FrontendMessage

/-- The session applies its plug-ins to a batch that is nothing but the message, and forwards what
they make of it, or nothing. -/
def Alone (lib : Externals) (x : FrontendMessage) (out : Bytes) : Prop :=
  ∃ io s next s', s.context.query.valid = false ∧ s.context.request.data = x.encode ∧
    applyPreRequestPlugins lib io s = (.ok next, s') ∧
    out = if next = some .prepareToForwardRequest then s'.context.request.data else []

/-- The messages are forwarded one by one, each query as it is rewritten on its own. -/
def OneByOne (lib : Externals) (ms : List FrontendMessage) (out : Bytes) : Prop :=
  Passed FrontendMessage.encode FrontendMessage.IsQuery (Alone lib) ms out

/-- What has left the session is what it is to leave of what it has taken. -/
abbrev Forwarded (lib : Externals) (ms : List FrontendMessage) (taken out : Bytes) : Prop :=
  At FrontendMessage.encode FrontendMessage.IsQuery (Alone lib) ms taken out

/-- A batch is one query, or no query begins in it and it is not taken for one. -/
def Apart (ms : List FrontendMessage) (taken batch : Bytes) (initiated : Bool) : Prop :=
  (initiated = true ∧ ∃ done x ahead, ms = done ++ x :: ahead ∧ x.IsQuery ∧
    taken = encoded FrontendMessage.encode done ∧ batch = x.encode) ∨
  ((initiated = true → batch.head? ≠ some 81) ∧
    NoneBegins FrontendMessage.encode FrontendMessage.IsQuery ms taken batch)

section Receiving

/-- `recv` returns at most as many bytes as there is room offered for. -/
def Fits : Buffer → List Bytes → Prop
  | _, [] => True
  | b, chunk :: chunks => chunk.length ≤ b.bufSize ∧ Fits (b.receive chunk) chunks

/-- The buffer has room for twice what it offers. -/
structure Roomy (b : Buffer) : Prop where
  dataSize : b.dataSize ≤ b.bufSize
  length : b.buf.length = 2 * b.bufSize

variable {b : Buffer} {chunk : Bytes} {chunks : List Bytes} {stop : RecvEnd}

theorem length_resize (n : Nat) (buf : Bytes) : (resize n buf).length = n := by
  rw [resize, List.length_append, List.length_take, List.length_replicate]
  omega

theorem take_resize {n k : Nat} {buf : Bytes} (hk : k ≤ n) (hbuf : k ≤ buf.length) :
    (resize n buf).take k = buf.take k := by
  rw [resize, List.take_append_of_le_length (by rw [List.length_take]; omega), List.take_take,
    Nat.min_eq_left hk]

theorem receive_spec (h : Roomy b) (hchunk : chunk.length ≤ b.bufSize) :
    Roomy (b.receive chunk) ∧ (b.receive chunk).data = b.data ++ chunk := by
  have hroom := h.length
  have hdata := h.dataSize
  have hlength : (b.buf.take b.dataSize ++ chunk ++ b.buf.drop (b.dataSize + chunk.length)).length =
      b.buf.length := by
    simp only [List.length_append, List.length_take, List.length_drop]
    omega
  have htake : (b.buf.take b.dataSize ++ chunk ++ b.buf.drop (b.dataSize + chunk.length)).take
      (b.dataSize + chunk.length) = b.data ++ chunk := by
    rw [Buffer.data]
    refine List.take_left' ?_
    rw [List.length_append, List.length_take]
    omega
  rw [Buffer.receive]
  split
  · refine ⟨⟨by dsimp only; omega, by rw [length_resize]; dsimp only; omega⟩, ?_⟩
    have hsmall : b.dataSize + chunk.length ≤ b.bufSize * 2 * 2 := by omega
    exact (take_resize hsmall (by omega)).trans htake
  · exact ⟨⟨by dsimp only; omega, by dsimp only; omega⟩, htake⟩

theorem data_foldl_receive (hb : Roomy b) (h : Fits b chunks) :
    (chunks.foldl Buffer.receive b).data = b.data ++ chunks.flatten := by
  induction chunks generalizing b with
  | nil => exact (List.append_nil _).symm
  | cons chunk chunks ih =>
      obtain ⟨hroomy, hdata⟩ := receive_spec hb h.1
      rw [List.foldl_cons, ih hroomy h.2, hdata, List.flatten_cons, List.append_assoc]

theorem data_recvFrom (h : Fits .new chunks) :
    (Buffer.new.recvFrom chunks stop).1.data = chunks.flatten := by
  have hroomy : Roomy .new := ⟨Nat.zero_le _, length_resize _ _⟩
  have hfold := data_foldl_receive hroomy h
  cases stop with
  | wouldBlock => exact hfold
  | closed => exact hfold
  | failed errno => exact hfold

theorem dataSize_recvFrom :
    (Buffer.new.recvFrom chunks stop).1.dataSize = chunks.flatten.length := by
  have hfold : ∀ b, (chunks.foldl Buffer.receive b).dataSize =
      b.dataSize + chunks.flatten.length := by
    induction chunks with
    | nil => exact fun b => rfl
    | cons chunk chunks ih =>
        intro b
        have hsize : (b.receive chunk).dataSize = b.dataSize + chunk.length := by
          rw [Buffer.receive]
          split <;> rfl
        rw [List.foldl_cons, ih, hsize, List.flatten_cons, List.length_append, Nat.add_assoc]
  have hnew := (hfold .new).trans (Nat.zero_add _)
  cases stop with
  | wouldBlock => exact hnew
  | closed => exact hnew
  | failed errno => exact hnew

theorem head?_data (h : b.data ≠ []) : b.data.head? = some (b.byteAt 0) := by
  rw [Buffer.data] at h ⊢
  rw [Buffer.byteAt]
  cases hbuf : b.buf with
  | nil => simp [hbuf] at h
  | cons x buf =>
      rw [hbuf] at h
      cases hsize : b.dataSize with
      | zero => simp [hsize] at h
      | succ n => rfl

end Receiving

section Requests

variable {lib : Externals} {io : Io} {s : Session}

theorem applyPreRequestPlugins_of_not_query (hbyte : s.context.request.byteAt 0 ≠ 81)
    (hquery : s.context.query.valid = false) :
    wp (applyPreRequestPlugins lib io)
      (fun next s' => next = some .prepareToForwardRequest ∧ s' = s) (fun _ _ => False) s := by
  rw [applyPreRequestPlugins, wp_catching, wp_bind]
  refine wp_mono (applyAll_of_not_query hbyte hquery) ?_ fun _ _ h => h.elim
  rintro err s' ⟨rfl, rfl⟩
  exact ⟨rfl, rfl⟩

theorem applyPreRequestPlugins_of_refused {translated : Bytes} {e : PgQueryError}
    (hbyte : s.context.request.byteAt 0 = 81)
    (htranslate : lib.translate (s.context.request.textAt 5) = .ok (translated, .noError))
    (hrefused : lib.pgQueryParse (cString translated) = .ok (.error e)) :
    wp (applyPreRequestPlugins lib io)
      (fun next t => next = some .prepareToForwardRequest ∧
        t.context.request = setQuery translated) (fun _ _ => False) s := by
  obtain ⟨err, hparse⟩ : ∃ err, Query.parse lib (cString translated) = .ok (.new, err) := by
    rw [Query.parse, hrefused]
    exact ⟨_, rfl⟩
  have htranslated : wp (translateProxyCommandPlugIn lib)
      (fun err t => err = .noError ∧ t = { s with context.request := setQuery translated })
      (fun _ _ => False) s := by
    simp [translateProxyCommandPlugIn, wp_bind, wp_state, wp_pure, wp_ite, wp_ofExcept,
      wp_setRequest, hbyte, htranslate, Conn.Error.isError, Conn.Error.noError]
  have hparsed (t : Session) (ht : t.context.request = setQuery translated) :
      wp (parseQueryPlugIn lib) (fun err t' => err = .noError ∧
        t' = { t with context.query := .new }) (fun _ _ => False) t := by
    simp [parseQueryPlugIn, wp_bind, wp_state, wp_pure, wp_ofExcept, wp_modify, ht, hparse,
      byteAt_setQuery, textAt_setQuery]
  have hall : wp (applyAll (preRequestPlugins lib io))
      (fun err t => err = none ∧ t.context.request = setQuery translated) (fun _ _ => False) s := by
    rw [preRequestPlugins, wp_applyAll_cons]
    refine wp_mono htranslated ?_ fun _ _ h => h
    rintro err t ⟨rfl, rfl⟩
    refine ⟨fun h => absurd h (by decide), fun _ => ?_⟩
    rw [wp_applyAll_cons]
    refine wp_mono (hparsed _ rfl) ?_ fun _ _ h => h
    rintro err t ⟨rfl, rfl⟩
    refine ⟨fun h => absurd h (by decide), fun _ => ?_⟩
    refine wp_mono (applyAll_of_no_query rfl) ?_ fun _ _ h => h
    rintro err t ⟨rfl, rfl⟩
    exact ⟨rfl, rfl⟩
  rw [applyPreRequestPlugins, wp_catching, wp_bind]
  refine wp_mono hall ?_ fun _ _ h => h.elim
  rintro err t ⟨rfl, ht⟩
  exact ⟨rfl, ht⟩

end Requests

/-- The bytes that a turn brings in of the client's stream. -/
def batch (s : Session) (io : Io) : Bytes :=
  if s.current = some .receiveRequest then io.chunks.flatten else []

section Turns

variable {lib : Externals} {io : Io} {s s' : Session} {ms : List FrontendMessage}
  {taken stream : Bytes}

/-- A batch has been received, and is to be forwarded. -/
def Received (lib : Externals) (ms : List FrontendMessage) (taken stream : Bytes)
    (initiated : Bool) (c : Context) : Prop :=
  ∃ before, taken = before ++ c.request.data ∧ c.request.data ≠ [] ∧
    taken <+: encoded FrontendMessage.encode ms ∧ Forwarded lib ms before stream ∧
    Apart ms before c.request.data initiated

/-- What is true of a session between its actions; `taken` is what it has received, `stream` what
it has handed over. -/
def Phase (lib : Externals) (ms : List FrontendMessage) (taken stream : Bytes)
    (current : Option SessionState) (c : Context) : Prop :=
  match current with
  | none => True
  | some .prepareToReceiveRequest =>
      c.request = .new ∧ c.query.valid = false ∧ Forwarded lib ms taken stream
  | some .receiveRequest =>
      c.request = .new ∧ c.query.valid = false ∧ Forwarded lib ms taken stream
  | some .initiate => Received lib ms taken stream false c
  | some .applyPreRequestPlugins => c.query.valid = false ∧ Received lib ms taken stream true c
  | some .prepareToForwardRequest => Forwarded lib ms taken (stream ++ c.request.data)
  | some .forwardRequest => Forwarded lib ms taken (stream ++ c.request.data)
  | _ => Forwarded lib ms taken stream

structure Sound (ms : List FrontendMessage) (taken : Bytes) (s : Session) (io : Io) : Prop where
  fits : Fits .new io.chunks
  stream : taken ++ io.chunks.flatten <+: encoded FrontendMessage.encode ms
  apart : Apart ms taken io.chunks.flatten s.context.initiated

theorem forwarded_of_plain {c : Context} {initiated : Bool}
    (h : Received lib ms taken stream initiated c)
    (hplain : ¬(initiated = true ∧ c.request.byteAt 0 = 81)) :
    Forwarded lib ms taken (stream ++ c.request.data) := by
  obtain ⟨before, rfl, hne, hbegins, hforwarded, hapart⟩ := h
  rcases hapart with ⟨hinitiated, done, x, ahead, -, hx, -, hbatch⟩ | ⟨-, hnone⟩
  · have hhead := head?_data hne
    rw [hbatch] at hhead
    cases x with
    | untyped payload => exact hx.elim
    | typed m => exact absurd ⟨hinitiated, (Option.some.inj hhead).symm.trans hx⟩ hplain
  · exact hforwarded.take_plain hbegins hnone

theorem forwarded_applyPreRequestPlugins (hquery : s.context.query.valid = false)
    (h : Received lib ms taken stream true s.context) :
    wp (applyPreRequestPlugins lib io)
      (fun next s' => Phase lib ms taken stream next s'.context) (fun _ _ => True) s := by
  by_cases hbyte : s.context.request.byteAt 0 = 81
  · obtain ⟨before, htaken, hne, hbegins, hforwarded, hapart⟩ := h
    rcases hapart with ⟨-, done, x, ahead, hms, hx, hbefore, hbatch⟩ | ⟨hnot, -⟩
    · refine wp_mono (wp_and (wp_result (applyPreRequestPlugins lib io) s)
        next_applyPreRequestPlugins) ?_ fun _ _ _ => trivial
      rintro next s' ⟨hresult, hnext⟩
      have halone : Alone lib x (if next = some .prepareToForwardRequest then
          s'.context.request.data else []) :=
        ⟨io, s, next, s', hquery, hbatch, hresult, rfl⟩
      rw [hbefore] at hforwarded
      have hafter := hforwarded.take_special FrontendMessage.encode_ne_nil hms hx halone
      rw [htaken, hbefore, hbatch]
      rcases hnext with ⟨rfl, -⟩ | ⟨rfl, -⟩
      · exact hafter
      · rw [if_neg (by simp), List.append_nil] at hafter
        exact hafter
    · exact absurd (hbyte ▸ head?_data hne) (hnot rfl)
  · refine wp_mono (applyPreRequestPlugins_of_not_query hbyte hquery) ?_ fun _ _ h => h.elim
    rintro next s' ⟨rfl, rfl⟩
    exact forwarded_of_plain h fun hplain => hbyte hplain.2

theorem received_of_sound {initiated : Bool} {c : Context} (hsound : Sound ms taken s io)
    (hforwarded : Forwarded lib ms taken stream)
    (hres : ¬(Buffer.new.recvFrom io.chunks io.stop).2 ≤ 0)
    (hinitiated : s.context.initiated = initiated)
    (hc : c.request = (Buffer.new.recvFrom io.chunks io.stop).1) :
    Received lib ms (taken ++ io.chunks.flatten) stream initiated c := by
  have hdata : (Buffer.new.recvFrom io.chunks io.stop).1.data = io.chunks.flatten :=
    data_recvFrom hsound.fits
  have hsize : (Buffer.new.recvFrom io.chunks io.stop).1.dataSize = io.chunks.flatten.length :=
    dataSize_recvFrom
  rw [Received, hc, hdata]
  refine ⟨taken, rfl, fun hempty => hres ?_, hsound.stream, hforwarded, hinitiated ▸ hsound.apart⟩
  rw [hempty, List.length_nil] at hsize
  have hcount : (Buffer.new.recvFrom io.chunks io.stop).2 ≤
      ((Buffer.new.recvFrom io.chunks io.stop).1.dataSize : Int) := by
    cases io.stop with
    | wouldBlock => exact asInt_le _
    | closed => exact asInt_le _
    | failed errno => exact (by decide : (-1 : Int) ≤ 0).trans (Int.natCast_nonneg _)
  rw [hsize] at hcount
  exact hcount

theorem phase_action {state : SessionState} (hcurrent : s.current = some state)
    (hphase : Phase lib ms taken stream (some state) s.context)
    (hsound : state = .receiveRequest → Sound ms taken s io) :
    wp (action lib io state)
      (fun next t => Phase lib ms (taken ++ batch s io) (stream ++ handed s) next t.context)
      (fun _ _ => True) s := by
  have hbatch : state ≠ .receiveRequest → taken ++ batch s io = taken := by
    intro hne
    rw [batch, if_neg (by simpa [hcurrent] using hne), List.append_nil]
  have hhanded : state ≠ .forwardRequest → stream ++ handed s = stream := by
    intro hne
    rw [handed_of_ne (by simpa [hcurrent] using hne), List.append_nil]
  cases state with
  | initiate =>
      rw [hbatch (by simp), hhanded (by simp)]
      have hforwarded := forwarded_of_plain hphase (by simp)
      simp only [action, wp_initiate, Session.setParameter, context_setStartupParameters]
      exact ⟨fun _ => hforwarded,
        fun _ => ⟨fun _ _ => ⟨fun _ _ => hforwarded, fun _ _ => trivial⟩, fun _ _ => trivial⟩⟩
  | prepareToReceiveRequest =>
      rw [hbatch (by simp), hhanded (by simp)]
      exact hphase
  | receiveRequest =>
      rw [hhanded (by simp), batch, if_pos hcurrent]
      obtain ⟨hrequest, hquery, hforwarded⟩ := hphase
      simp only [action, wp_receiveRequest, hrequest]
      refine ⟨fun _ => trivial, fun hres => ?_⟩
      have hreceived (initiated : Bool) (h : s.context.initiated = initiated) :
          Received lib ms (taken ++ io.chunks.flatten) stream initiated
            { s.context with
              request := (Buffer.new.recvFrom io.chunks io.stop).1
              waiting := false } :=
        received_of_sound (hsound rfl) hforwarded hres h rfl
      cases hinitiated : s.context.initiated with
      | true => exact ⟨hquery, hreceived true hinitiated⟩
      | false => exact hreceived false hinitiated
  | applyPreRequestPlugins =>
      rw [hbatch (by simp), hhanded (by simp)]
      exact forwarded_applyPreRequestPlugins hphase.1 hphase.2
  | prepareToForwardRequest =>
      rw [hbatch (by simp), hhanded (by simp)]
      exact hphase
  | forwardRequest =>
      rw [hbatch (by simp), handed, if_pos hcurrent]
      simp only [action, wp_forwardRequest]
      exact ⟨fun _ => trivial, fun _ => hphase⟩
  | prepareToReceiveResponse =>
      rw [hbatch (by simp), hhanded (by simp)]
      exact hphase
  | receiveResponse =>
      rw [hbatch (by simp), hhanded (by simp)]
      simp only [action, wp_receiveResponse]
      exact ⟨fun _ => trivial,
        fun _ => ⟨fun _ _ => ⟨fun _ => hphase, fun _ => hphase⟩, fun _ _ => trivial⟩⟩
  | applyPostResponsePlugins =>
      rw [hbatch (by simp), hhanded (by simp)]
      refine wp_mono next_applyPostResponsePlugins ?_ fun _ _ h => h
      rintro next t rfl
      exact hphase
  | prepareToForwardResponse =>
      rw [hbatch (by simp), hhanded (by simp)]
      exact hphase
  | forwardResponse =>
      rw [hbatch (by simp), hhanded (by simp)]
      simp only [action, wp_forwardResponse]
      exact ⟨fun _ => trivial, fun _ => hphase⟩
  | resetContext =>
      rw [hbatch (by simp), hhanded (by simp)]
      exact ⟨rfl, rfl, hphase⟩

end Turns

section Runs

variable (lib : Externals) (i : Nat)

/-- The proxy, and what `ReceiveRequest` has obtained for a session so far. -/
structure Watched where
  proxy : Proxy
  taken : Bytes

def watch (w : Watched) (turn : Nat × Io) : Except Fault Watched := do
  let p ← step lib w.proxy turn
  return ⟨p, w.taken ++ if turn.1 = i then batch (w.proxy.session i) turn.2 else []⟩

def watchAll (w : Watched) (turns : List (Nat × Io)) : Except Fault Watched :=
  turns.foldlM (watch lib i) w

/-- A session that waits for a request and has not handed over anything yet. -/
structure Waiting (p : Proxy) (i : Nat) : Prop where
  current : (p.sessions i).current = some .prepareToReceiveRequest
  context : ∃ initiated, (p.sessions i).context = .new initiated
  toServer : p.toServer i = []

/-- What holds whenever the session receives a batch, in the pieces that `recv` returns. -/
def AtReceipt (Q : Watched → List Bytes → Prop) (start : Proxy) (turns : List (Nat × Io)) : Prop :=
  ∀ pre turn post w, turns = pre ++ turn :: post → watchAll lib i ⟨start, []⟩ pre = .ok w →
    turn.1 = i → (w.proxy.session i).current = some .receiveRequest → Q w turn.2.chunks

/-- In the run `recv` keeps to the room that is offered. -/
def FitsRun (start : Proxy) (turns : List (Nat × Io)) : Prop :=
  AtReceipt lib i (fun _ chunks => Fits .new chunks) start turns

/-- In the run every batch is one query or has none in it. -/
def ApartRun (ms : List FrontendMessage) (start : Proxy) (turns : List (Nat × Io)) : Prop :=
  AtReceipt lib i
    (fun w chunks => Apart ms w.taken chunks.flatten (w.proxy.session i).context.initiated)
    start turns

variable {lib i}

/-- What a session has taken and what has left it fit the state that it is in. -/
def PhaseOf (lib : Externals) (i : Nat) (ms : List FrontendMessage) (w : Watched) : Prop :=
  Phase lib ms w.taken (w.proxy.toServer i) (w.proxy.session i).current (w.proxy.session i).context

theorem phase_watch {ms : List FrontendMessage} {w w' : Watched} {turn : Nat × Io}
    (hphase : PhaseOf lib i ms w)
    (hsound : turn.1 = i → (w.proxy.session i).current = some .receiveRequest →
      Sound ms w.taken (w.proxy.session i) turn.2)
    (hwatch : watch lib i w turn = .ok w') : PhaseOf lib i ms w' := by
  obtain ⟨j, io⟩ := turn
  obtain ⟨p', hstep, hw'⟩ := bind_eq_ok.mp hwatch
  obtain rfl := Except.ok.inj hw'
  obtain ⟨s', htake, hp'⟩ := bind_eq_ok.mp hstep
  obtain rfl := Except.ok.inj hp'
  rw [PhaseOf] at hphase ⊢
  by_cases hj : j = i
  · subst hj
    simp only [Proxy.session, Function.update_self, if_true]
    cases hcurrent : (w.proxy.session j).current with
    | none =>
        rw [takeAction, hcurrent] at htake
        obtain rfl := Except.ok.inj htake
        rw [hcurrent]
        trivial
    | some state =>
        rw [hcurrent] at hphase
        obtain ⟨next, t, ht, rfl⟩ := exists_of_takeAction hcurrent
          (phase_action hcurrent hphase fun h => hsound rfl (h ▸ hcurrent)) htake
        exact ht
  · have hij : i ≠ j := fun heq => hj heq.symm
    simp only [Proxy.session, Function.update_of_ne hij, if_neg hj, List.append_nil]
    exact hphase

theorem phase_run {p : Proxy} {ms : List FrontendMessage} {turns : List (Nat × Io)} {w : Watched}
    (hwaiting : Waiting p i) (hfits : FitsRun lib i p turns) (hapart : ApartRun lib i ms p turns)
    (hrun : watchAll lib i ⟨p, []⟩ turns = .ok w)
    (htaken : w.taken <+: encoded FrontendMessage.encode ms) : PhaseOf lib i ms w := by
  induction turns using List.reverseRecOn generalizing w with
  | nil =>
      obtain rfl := Except.ok.inj hrun
      obtain ⟨initiated, hcontext⟩ := hwaiting.context
      rw [PhaseOf, Proxy.session, hwaiting.current, hcontext, hwaiting.toServer]
      exact ⟨rfl, rfl, at_nil ms⟩
  | append_singleton turns turn ih =>
      rw [watchAll, List.foldlM_append] at hrun
      obtain ⟨w', hw', hturn⟩ := bind_eq_ok.mp hrun
      have hlast : watch lib i w' turn = .ok w := by simpa using hturn
      have hgrown : w.taken = w'.taken ++
          if turn.1 = i then batch (w'.proxy.session i) turn.2 else [] := by
        obtain ⟨p', -, hw⟩ := bind_eq_ok.mp hlast
        exact congrArg Watched.taken (Except.ok.inj hw).symm
      rw [hgrown] at htaken
      have hbefore := ih
        (fun pre turn' post w' hsplit => hfits pre turn' (post ++ [turn]) w'
          (by rw [hsplit, List.append_assoc]; rfl))
        (fun pre turn' post w' hsplit => hapart pre turn' (post ++ [turn]) w'
          (by rw [hsplit, List.append_assoc]; rfl)) hw' ((List.prefix_append _ _).trans htaken)
      refine phase_watch hbefore (fun hi hcurrent => ?_) hlast
      rw [if_pos hi, batch, if_pos hcurrent] at htaken
      exact ⟨hfits turns turn [] w' rfl hw' hi hcurrent, htaken,
        hapart turns turn [] w' rfl hw' hi hcurrent⟩

/-- Between its requests the session has forwarded what it has received, message by message. -/
theorem forwarded_run {p : Proxy} {ms : List FrontendMessage} {turns : List (Nat × Io)}
    {w : Watched} (hwaiting : Waiting p i) (hfits : FitsRun lib i p turns)
    (hapart : ApartRun lib i ms p turns) (hrun : watchAll lib i ⟨p, []⟩ turns = .ok w)
    (htaken : w.taken <+: encoded FrontendMessage.encode ms)
    (hidle : (w.proxy.session i).current = some .prepareToReceiveRequest) :
    Forwarded lib ms w.taken (w.proxy.toServer i) := by
  have hphase := phase_run hwaiting hfits hapart hrun htaken
  rw [PhaseOf, hidle] at hphase
  exact hphase.2.2

/-- A run of the proxy in which a session has received all of a stream of messages, and waits for
the next. -/
structure Served (lib : Externals) (ms : List FrontendMessage) where
  session : Nat
  start : Proxy
  turns : List (Nat × Io)
  finish : Watched
  waiting : Waiting start session
  fits : FitsRun lib session start turns
  run : watchAll lib session ⟨start, []⟩ turns = .ok finish
  taken : finish.taken = encoded FrontendMessage.encode ms
  idle : (finish.proxy.session session).current = some .prepareToReceiveRequest

namespace Served

variable {ms : List FrontendMessage} (r r' : Served lib ms)

/-- All that the server of the session has been given. -/
def out : Bytes := r.finish.proxy.toServer r.session

/-- Each batch is one query, or no query begins in it and it is not taken for one. -/
def CutApart : Prop := ApartRun lib r.session ms r.start r.turns

/-- Both have forwarded the same messages, up to the rewriting of each query on its own. -/
def SameForwarded : Prop := OneByOne lib ms r.out ∧ OneByOne lib ms r'.out

end Served

theorem oneByOne_of_cutApart {ms : List FrontendMessage} (r : Served lib ms) (h : r.CutApart) :
    OneByOne lib ms r.out := by
  have hforwarded := forwarded_run r.waiting r.fits h r.run (r.taken ▸ List.prefix_refl _) r.idle
  rw [r.taken] at hforwarded
  exact hforwarded.passed FrontendMessage.encode_ne_nil

theorem sameForwarded_of_cutApart (lib : Externals) (ms : List FrontendMessage)
    (r r' : Served lib ms) (h : r.CutApart) (h' : r'.CutApart) : r.SameForwarded r' :=
  ⟨oneByOne_of_cutApart r h, oneByOne_of_cutApart r' h'⟩

end Runs

section Queries

def refusedQuery : FrontendMessage := .typed ⟨81, utf8 "SELEC 1" ++ [0]⟩

/-- The turns in which session 0 receives a batch, hands it on, and returns the response. -/
def cycle (batch : Bytes) : List (Nat × Io) :=
  requestTurns batch ++ List.replicate 6 (0, receiving [90, 0, 0, 0, 5, 73])

theorem textAt_of_data {b : Buffer} {text : Bytes} (hdata : b.data = Message.encode ⟨81, text ++ [0]⟩)
    (htext : cString text = text) : b.byteAt 0 = 81 ∧ b.textAt 5 = text := by
  have hbuf : b.buf = Message.encode ⟨81, text ++ [0]⟩ ++ b.buf.drop b.dataSize := by
    rw [← hdata, Buffer.data, List.take_append_drop]
  rw [Buffer.byteAt, Buffer.textAt, hbuf]
  refine ⟨rfl, ?_⟩
  have hdrop : (Message.encode ⟨81, text ++ [0]⟩ ++ b.buf.drop b.dataSize).drop 5 =
      text ++ 0 :: b.buf.drop b.dataSize :=
    List.append_assoc text [0] _
  rw [hdrop, cString_append_zero (htext ▸ ne_zero_of_mem_cString)]

theorem alone_refusedQuery {out : Bytes} (h : Alone sampleExternals refusedQuery out) :
    out = refusedQuery.encode := by
  obtain ⟨io, s, next, s', hquery, hdata, happly, rfl⟩ := h
  have htext : cString (utf8 "SELEC 1") = utf8 "SELEC 1" := by decide +kernel
  obtain ⟨hbyte, htextAt⟩ := textAt_of_data hdata htext
  have htranslate : sampleExternals.translate (s.context.request.textAt 5) =
      .ok (utf8 "SELEC 1", Conn.Error.noError) := by
    rw [htextAt]
    rfl
  have hrefused : sampleExternals.pgQueryParse (cString (utf8 "SELEC 1")) =
      .ok (.error ⟨utf8 "syntax error", [], [], 0, 0⟩) := by
    have hother : utf8 "SELEC 1" ≠ utf8 "SELECT 1" ∧ utf8 "SELEC 1" ≠ [] := by decide +kernel
    rw [htext]
    simp [sampleExternals, hother.1, hother.2]
  obtain ⟨rfl, hrequest⟩ :=
    of_wp_ok (applyPreRequestPlugins_of_refused hbyte htranslate hrefused) happly
  rw [if_pos rfl, hrequest, data_setQuery htext]
  rfl

instance decidableFits : ∀ b chunks, Decidable (Fits b chunks)
  | _, [] => isTrue trivial
  | b, chunk :: chunks =>
      have := decidableFits (b.receive chunk) chunks
      inferInstanceAs (Decidable (_ ∧ _))

theorem exists_served (ms : List FrontendMessage) (turns : List (Nat × Io)) (out : Bytes)
    (hfits : ∀ turn ∈ turns, Fits .new turn.2.chunks)
    (hrun : (watchAll sampleExternals 0 ⟨sampleProxy, []⟩ turns).toOption.map
      (fun w => (w.taken, (w.proxy.session 0).current, w.proxy.toServer 0)) =
        some (encoded FrontendMessage.encode ms, some .prepareToReceiveRequest, out)) :
    ∃ r : Served sampleExternals ms,
      r.session = 0 ∧ r.start = sampleProxy ∧ r.turns = turns ∧ r.out = out := by
  obtain ⟨w, hw, hend⟩ := Option.map_eq_some_iff.mp hrun
  obtain ⟨htaken, hend⟩ := Prod.mk.inj hend
  obtain ⟨hidle, hout⟩ := Prod.mk.inj hend
  refine ⟨⟨0, sampleProxy, turns, w, ⟨rfl, ⟨true, rfl⟩, rfl⟩, ?_, eq_ok_of_toOption hw, htaken,
    hidle⟩, rfl, rfl, rfl, hout⟩
  intro pre turn post _ hsplit _ _ _
  exact hfits turn (hsplit ▸ List.mem_append_right pre List.mem_cons_self)

/-- The first batch is the query that begins the stream, and the others hold none. -/
def QueryFirst (x : FrontendMessage) (w : Watched) (chunks : List Bytes) : Prop :=
  (w.taken = [] ∧ chunks.flatten = x.encode ∧ (w.proxy.session 0).context.initiated = true) ∨
    (w.taken ≠ [] ∧ chunks.flatten.head? ≠ some 81)

instance (x : FrontendMessage) (w : Watched) (chunks : List Bytes) :
    Decidable (QueryFirst x w chunks) :=
  inferInstanceAs (Decidable (_ ∨ _))

theorem apart_of_queryFirst {x : FrontendMessage} {xs : List FrontendMessage} {w : Watched}
    {chunks : List Bytes} (hx : x.IsQuery) (hxs : ∀ y ∈ xs, ¬y.IsQuery)
    (h : QueryFirst x w chunks) :
    Apart (x :: xs) w.taken chunks.flatten (w.proxy.session 0).context.initiated := by
  rcases h with ⟨htaken, hchunks, hinitiated⟩ | ⟨htaken, hbyte⟩
  · exact .inl ⟨hinitiated, [], x, xs, rfl, hx, htaken, hchunks⟩
  · refine .inr ⟨fun _ => hbyte, fun done y ahead hsplit hy hlength => ?_⟩
    cases done with
    | nil =>
        have hempty : w.taken.length = 0 := Nat.le_zero.mp hlength
        exact absurd (List.length_eq_zero_iff.mp hempty) htaken
    | cons z done =>
        obtain ⟨-, rfl⟩ := List.cons.inj hsplit
        exact absurd hy (hxs y (List.mem_append_right done List.mem_cons_self))

def QueryFirstRun (x : FrontendMessage) (turns : List (Nat × Io)) : Prop :=
  ∀ n : Fin turns.length,
    (watchAll sampleExternals 0 ⟨sampleProxy, []⟩ (turns.take n)).toOption.all
      (fun w => (w.proxy.session 0).current = some .receiveRequest →
        QueryFirst x w turns[n].2.chunks) = true

instance (x : FrontendMessage) (turns : List (Nat × Io)) : Decidable (QueryFirstRun x turns) :=
  inferInstanceAs (Decidable (∀ _, _))

theorem cutApart_of_queryFirstRun {x : FrontendMessage} {xs : List FrontendMessage}
    {turns : List (Nat × Io)} {r : Served sampleExternals (x :: xs)} (hsession : r.session = 0)
    (hstart : r.start = sampleProxy) (hturns : r.turns = turns) (hx : x.IsQuery)
    (hxs : ∀ y ∈ xs, ¬y.IsQuery)
    (hall : QueryFirstRun x turns) : r.CutApart := by
  intro pre turn post w hsplit hwatch hturn hcurrent
  rw [hturns] at hsplit
  rw [hsession, hstart] at hwatch
  rw [hsession] at hcurrent ⊢
  subst hsplit
  have hn := hall ⟨pre.length, by simp⟩
  simp only [List.take_left, hwatch, Except.toOption, Option.all_some, decide_eq_true_eq,
    Fin.getElem_fin, List.getElem_append_right le_rfl, Nat.sub_self, List.getElem_cons_zero] at hn
  exact apart_of_queryFirst hx hxs (hn hcurrent)

def sync : FrontendMessage := .typed ⟨83, []⟩

/-- A query, and a message behind it that is received at once or in two batches. -/
theorem sameForwarded_of_cutApart_sync :
    ∃ r r' : Served sampleExternals [refusedQuery, sync], r.turns.length < r'.turns.length ∧
      r.SameForwarded r' := by
  have honce : QueryFirstRun refusedQuery (cycle refusedQuery.encode ++ cycle sync.encode) := by
    decide +kernel
  have htwice : QueryFirstRun refusedQuery (cycle refusedQuery.encode ++
      cycle (sync.encode.take 3) ++ cycle (sync.encode.drop 3)) := by
    decide +kernel
  obtain ⟨r, hsession, hstart, hturns, -⟩ :=
    exists_served [refusedQuery, sync] (cycle refusedQuery.encode ++ cycle sync.encode)
      (refusedQuery.encode ++ sync.encode) (by decide +kernel) (by decide +kernel)
  obtain ⟨r', hsession', hstart', hturns', -⟩ :=
    exists_served [refusedQuery, sync] (cycle refusedQuery.encode ++
      cycle (sync.encode.take 3) ++ cycle (sync.encode.drop 3))
      (refusedQuery.encode ++ sync.encode) (by decide +kernel) (by decide +kernel)
  refine ⟨r, r', by rw [hturns, hturns']; decide, sameForwarded_of_cutApart _ _ r r' ?_ ?_⟩
  · exact cutApart_of_queryFirstRun hsession hstart hturns rfl (by decide) honce
  · exact cutApart_of_queryFirstRun hsession' hstart' hturns' rfl (by decide) htwice

/-- Of two queries in one batch the second is lost. -/
theorem not_sameForwarded_oneBatch :
    ∃ r r' : Served sampleExternals [refusedQuery, refusedQuery], ¬r.SameForwarded r' := by
  obtain ⟨r, -⟩ := exists_served [refusedQuery, refusedQuery]
    (cycle refusedQuery.encode ++ cycle refusedQuery.encode)
    (refusedQuery.encode ++ refusedQuery.encode) (by decide +kernel) (by decide +kernel)
  obtain ⟨r', -, -, -, hout⟩ := exists_served [refusedQuery, refusedQuery]
    (cycle (refusedQuery.encode ++ refusedQuery.encode)) refusedQuery.encode
    (by decide +kernel) (by decide +kernel)
  refine ⟨r, r', fun h => ?_⟩
  have hboth := h.2.eq_encoded fun x hx out halone => by
    obtain rfl : x = refusedQuery := by simpa using hx
    exact alone_refusedQuery halone
  rw [hout] at hboth
  exact absurd hboth (by decide +kernel)

end Queries

end PgFort.Batches
