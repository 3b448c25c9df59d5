import PgFort.BufferCalls
import PgFort.PrintInfo

namespace PgFort.QueryFrames

open PgFort.Framing
open PgFort.JsonTree
open PgFort.Conn
open PgFort.Reads
open PgFort.Stateful.Action
open PgFort.Plugins
open PgFort.StateMachine
open PgFort.Frames
open PgFort.SqlForwarding
open PgFort.BufferCalls
open PgFort.PrintInfo

/-- The buffer is one `Query` with the text, and nothing is behind it. -/
structure QueryFrame (b : Buffer) (text : Bytes) : Prop where
  type : b.byteAt 0 = 81
  length : announcedLength b.buf + 1 = b.dataSize
  read : b.textAt 5 = text
  last : 5 + text.length + 1 = b.dataSize
  whole : b.dataSize = b.buf.length

/-- A text that `SetQuery` can announce the length of. -/
def Announceable (text : Bytes) : Prop :=
  (∀ byte ∈ text, byte ≠ 0) ∧ text.length < 4294967291

instance : DecidablePred Announceable := fun text =>
  inferInstanceAs (Decidable ((∀ byte ∈ text, byte ≠ 0) ∧ text.length < 4294967291))

/-- What the socket accepts in `SendTo`, when `send` returns such a number. -/
def sendTo (b : Buffer) (res : Int) : Bytes :=
  b.data.take res.toNat

section Chain

variable (lib : Externals) (s : Session)

/-- What the plug-in for the access conditions makes of a query and the text in the request. -/
def AclStep (q : Query) (text : Bytes) (q' : Query) (text' : Bytes) : Prop :=
  ((s.parameter "rolsuper" = utf8 "t" ∨ q.valid = false) ∧ q' = q ∧ text' = text) ∨
    (s.parameter "rolsuper" ≠ utf8 "t" ∧ q.valid = true ∧
      ∃ json, QueryAcler.acl (some s.st) q.json = .ok json ∧ q' = ⟨true, json⟩ ∧
        Query.toText lib json = .ok text')

/-- What the drop-table plug-in makes of the text. -/
def DropStep (q : Query) (text text' : Bytes) : Prop :=
  text' = text ∨ ∃ json, Cascades q.json json ∧ Query.toText lib json = .ok text'

/-- The text is what the plug-ins make of the request: the second parses what the first has
written, the third works on its tree, and the fourth on the tree of the text of the third. -/
def Chained (text : Bytes) : Prop :=
  ∃ translated err q err' q' text',
    lib.translate (s.context.request.textAt 5) = .ok (translated, err) ∧ err.isError = false ∧
    Query.parse lib (cString translated) = .ok (q, err') ∧
    AclStep lib s q (cString translated) q' text' ∧ DropStep lib q' text' text

end Chain

/-- Queries are written into a buffer and the last is sent: it is one frame, it is what the plug-ins
have read and written, and, unless `send` fails, it is what the socket gets. -/
structure Relayed (b : Buffer) (texts : List Bytes) (text : Bytes) (res : Int) : Prop where
  frame : ∃ b', ((texts ++ [text]).map Call.setQuery).foldlM call b = .ok b' ∧ QueryFrame b' text ∧
    (0 < res → sendTo b' res = b'.data)
  chain : ∀ lib io s s', s.context.request.byteAt 0 = 81 →
    applyAll (preRequestPlugins lib io) s = (.ok none, s') →
    ∃ text, Chained lib s text ∧ s'.context.request = setQuery text ∧
      (text.length < 4294967291 → QueryFrame s'.context.request text)

section Frame

variable {text : Bytes}

theorem queryFrame_setQuery (h : Announceable text) : QueryFrame (setQuery text) text := by
  have htext : cString text = text := cString_of_forall_ne_zero h.1
  have hlength : text.length + 5 < 4294967296 := by
    have := h.2
    omega
  have hsize : (setQuery text).dataSize = text.length + 6 := by
    rw [setQuery, htext]
    simp only [bigEndian, List.length_cons, List.length_append, List.length_nil]
    omega
  have hannounced : announcedLength (setQuery text).buf = text.length + 5 := by
    rw [setQuery, htext]
    exact readBigEndian_bigEndian hlength
  refine ⟨rfl, ?_, ?_, ?_, rfl⟩
  · rw [hannounced, hsize]
  · rw [textAt_setQuery, htext]
  · rw [hsize]
    omega

theorem call_setQuery (b : Buffer) (text : Bytes) : call b (.setQuery text) = .ok (setQuery text) :=
  rfl

theorem foldlM_setQuery (b : Buffer) (texts : List Bytes) (text : Bytes) :
    ((texts ++ [text]).map Call.setQuery).foldlM call b = .ok (setQuery text) := by
  induction texts generalizing b with
  | nil => rfl
  | cons t texts ih =>
      rw [List.cons_append, List.map_cons, List.foldlM_cons, call_setQuery]
      exact ih (setQuery t)

theorem sendTo_eq_iff (b : Buffer) (res : Int) (hwhole : b.dataSize = b.buf.length) :
    sendTo b res = b.data ↔ (b.dataSize : Int) ≤ res ∨ b.dataSize = 0 := by
  have hlength : b.data.length = b.dataSize := by
    rw [Buffer.data, List.length_take, ← hwhole, Nat.min_self]
  rw [sendTo, List.take_eq_self_iff, hlength]
  omega

end Frame

section Plugins

variable {lib : Externals} {io : Io} {s : Session} {text : Bytes}

theorem cString_toText {json : Json} (h : Query.toText lib json = .ok text) : cString text = text := by
  rw [Query.toText] at h
  cases hdeparse : lib.deparse json with
  | error e => simp [hdeparse, Except.map] at h
  | ok t =>
      rw [hdeparse] at h
      obtain rfl := Except.ok.inj h
      exact cString_of_forall_ne_zero ne_zero_of_mem_cString

theorem setQuery_cString (text : Bytes) : setQuery (cString text) = setQuery text := by
  rw [setQuery, setQuery, cString_of_forall_ne_zero ne_zero_of_mem_cString]

theorem cString_aclStep {q q' : Query} {text' : Bytes} (h : AclStep lib s q text q' text')
    (hzero : cString text = text) : cString text' = text' := by
  rcases h with ⟨-, -, rfl⟩ | ⟨-, -, json, -, -, htext⟩
  · exact hzero
  · exact cString_toText htext

theorem cString_dropStep {q : Query} {text' : Bytes} (h : DropStep lib q text text')
    (hzero : cString text = text) : cString text' = text' := by
  rcases h with rfl | ⟨json, -, htext⟩
  · exact hzero
  · exact cString_toText htext

theorem aclStep_of_conditioned {t : Session} (h : Conditioned lib s t)
    (hrequest : s.context.request = setQuery text) :
    ∃ text', AclStep lib s s.context.query text t.context.query text' ∧
      t.context.request = setQuery text' := by
  rcases h with ⟨hskip, rfl⟩ | ⟨hrole, hvalid, json, text', hacl, htext, rfl⟩
  · exact ⟨text, .inl ⟨hskip, rfl, rfl⟩, hrequest⟩
  · refine ⟨text', .inr ⟨hrole, hvalid, json, hacl, ?_, htext⟩, rfl⟩
    simp only [hvalid]

theorem dropStep_of_flagged {s' : Session} (h : Flagged lib s s')
    (hrequest : s.context.request = setQuery text) :
    ∃ text', DropStep lib s.context.query text text' ∧ s'.context.request = setQuery text' := by
  rcases h with hsame | ⟨json, text', hcascade, htext, hset⟩
  · exact ⟨text, .inl rfl, hsame.trans hrequest⟩
  · exact ⟨text', .inr ⟨json, hcascade, htext⟩, hset⟩

/-- The plug-ins leave the last text of their chain in the request. -/
theorem applyAll_chained (hbyte : s.context.request.byteAt 0 = 81) :
    wp (applyAll (preRequestPlugins lib io))
      (fun err s' => err = none → ∃ text, Chained lib s text ∧ cString text = text ∧
        s'.context.request = setQuery text)
      (fun _ _ => True) s := by
  refine wp_mono (applyAll_of_query hbyte) (fun err s' h herr => ?_) fun _ _ h => h
  obtain ⟨translated, e, q, err', t, htranslate, he, hparse, hacl, hdrop⟩ := h herr
  obtain ⟨text', hstep, hrequest⟩ :=
    aclStep_of_conditioned hacl (setQuery_cString translated).symm
  obtain ⟨text, hstep', hrequest'⟩ := dropStep_of_flagged hdrop hrequest
  have hzero : cString text' = text' :=
    cString_aclStep hstep (cString_of_forall_ne_zero ne_zero_of_mem_cString)
  exact ⟨text, ⟨translated, e, q, err', _, text', htranslate, he, hparse, hstep, hstep'⟩,
    cString_dropStep hstep' hzero, hrequest'⟩

end Plugins

variable {texts : List Bytes} {text : Bytes}

/-- The socket gets what was written if and only if `send` is not short. -/
theorem relayed_iff (b : Buffer) (res : Int) (h : ∀ t ∈ texts ++ [text], Announceable t) :
    Relayed b texts text res ↔ res ≤ 0 ∨ (text.length : Int) + 6 ≤ res := by
  have hframe := queryFrame_setQuery (h text (List.mem_append_right texts (List.mem_singleton_self text)))
  have hsent := sendTo_eq_iff (setQuery text) res hframe.whole
  have hsize := hframe.last
  have hchain : ∀ lib io s s', s.context.request.byteAt 0 = 81 →
      applyAll (preRequestPlugins lib io) s = (.ok none, s') →
      ∃ text, Chained lib s text ∧ s'.context.request = setQuery text ∧
        (text.length < 4294967291 → QueryFrame s'.context.request text) := by
    intro lib io s s' hbyte hrun
    have hplugins := @applyAll_chained lib io s hbyte
    rw [wp, hrun] at hplugins
    obtain ⟨text, hchained, hzero, hrequest⟩ := hplugins rfl
    refine ⟨text, hchained, hrequest, fun hlength => ?_⟩
    rw [hrequest]
    exact queryFrame_setQuery ⟨hzero ▸ ne_zero_of_mem_cString, hlength⟩
  constructor
  · rintro ⟨⟨b', hrun, -, hsends⟩, -⟩
    obtain rfl := Except.ok.inj ((foldlM_setQuery b texts text).symm.trans hrun)
    by_cases hres : 0 < res
    · have hall := hsent.mp (hsends hres)
      omega
    · omega
  · intro hres
    refine ⟨⟨_, foldlM_setQuery b texts text, hframe, fun hpos => hsent.mpr ?_⟩, hchain⟩
    omega

theorem relayed_sent :
    Relayed .new [utf8 "SELECT 1"] (utf8 "SELECT 2") 14 ↔
      (14 : Int) ≤ 0 ∨ ((utf8 "SELECT 2").length : Int) + 6 ≤ 14 :=
  relayed_iff .new 14 (by decide +kernel)

/-- The socket takes one byte of the fourteen. -/
theorem not_relayed_shortSend : ¬ Relayed .new [] (utf8 "SELECT 2") 1 := by
  rintro ⟨⟨b', hrun, -, hsends⟩, -⟩
  obtain rfl := Except.ok.inj ((foldlM_setQuery .new [] _).symm.trans hrun)
  exact absurd (hsends (by decide)) (by decide +kernel)

end PgFort.QueryFrames
