import PgFort.Receipts

namespace PgFort.PrintInfo

open PgFort.Framing
open PgFort.Conn
open PgFort.Reads
open PgFort.Schema
open PgFort.Plugins
open PgFort.StateMachine
open PgFort.Frames
open PgFort.SqlForwarding
open PgFort.Runs
open PgFort.Lives
open PgFort.Batches
open PgFort.Receipts

section Reads

variable (buf : Bytes)

/-- What `ReceiveResponse` reads by way of `Data()`. -/
def responseReads (size : Int) : List Int :=
  printReads buf .backend size ++ if LoopEnds buf .backend then readyReads buf size else []

/-- Where the fields of an `ErrorResponse` are looked for, in so many rounds. -/
def fieldPositions (len : Nat) : Nat → Nat → List Nat
  | 0, _ => []
  | n + 1, pos => if pos < len then pos :: fieldPositions len n (behind buf (pos + 1)) else []

/-- Where the names in a `RowDescription` are looked for. -/
def namePositions : Nat → Nat → List Nat
  | 0, _ => []
  | n + 1, pos => pos :: namePositions n (wrap (pos + strlen buf pos + 19))

end Reads

/-- All that is read of the response lies in its buffer. -/
def ReadsInside (r : Receipt) (turn : Turn) : Prop :=
  r.session.context.initiated = true → Pauses r turn →
    ∀ b, b = (r.session.context.response.recvFrom turn.io.chunks turn.io.stop).1 →
      Inside b.buf (responseReads b.buf b.size)

/-- The fields that are announced would have room in the buffer, and a loop over those of an
`ErrorResponse` ends at a position that is not negative as an `int`. -/
structure FieldsInside (bytes : Bytes) : Prop where
  error : bytes.head? = some 69 →
    ∀ pos ∈ fieldPositions (received bytes).buf (announcedLength (received bytes).buf) rounds 5,
      pos + 1 < 2 * capacity bytes.length
  tail : bytes.head? = some 69 →
    ∀ pos, (errorLoop (received bytes).buf (announcedLength (received bytes).buf) rounds 5).2 =
      some pos → 0 ≤ asInt pos
  row : bytes.head? = some 84 →
    ∀ pos ∈ namePositions (received bytes).buf (nfield (received bytes).buf).toNat 7,
      pos < 2 * capacity bytes.length

/-- At least six bytes have come, as an `int` counts them, unless the first is that of an
authentication. -/
def SixCame (bytes : Bytes) : Prop :=
  bytes.head? = some 82 ∨ 6 ≤ asInt bytes.length

structure Roomed (bytes : Bytes) : Prop where
  fields : FieldsInside bytes
  ready : LoopEnds (received bytes).buf .backend → SixCame bytes

/-- `PrintInfo` reads nothing outside of the buffer, and returns. -/
structure Printed (bytes : Bytes) : Prop where
  fields : FieldsInside bytes
  ends : LoopEnds (received bytes).buf .backend
  index : IndexFits (received bytes).buf .backend

/-- The fields that a response announces have room in the buffer where the session stops to look at
it. -/
def Announced (r : Receipt) (turn : Turn) : Prop :=
  r.session.context.initiated = true → Pauses r turn → Roomed (r.arrived turn)

section Bounds

variable {buf bytes : Bytes} {size : Int}

theorem add_strlen_le {i z : Nat} (hz : buf[z]? = some 0) (h : i ≤ z) :
    i + strlen buf i ≤ z := by
  by_contra hlonger
  have hlt : z - i < (cString (buf.drop i)).length := by
    rw [← strlen]
    omega
  have hprefix : cString (buf.drop i) <+: buf.drop i := List.takeWhile_prefix _
  have hget := hprefix.getElem hlt
  rw [List.getElem_drop] at hget
  have hindex : i + (z - i) = z := by omega
  have hbyte : (cString (buf.drop i))[z - i] = 0 := by
    rw [hget]
    simp only [hindex]
    exact (List.getElem?_eq_some_iff.mp hz).2
  have hne := List.mem_takeWhile_imp (List.getElem_mem hlt)
  rw [hbyte] at hne
  exact absurd hne (by decide)

theorem add_strlen_lt (hlast : buf.getLast? = some 0) {i : Nat} (h : i < buf.length) :
    i + strlen buf i < buf.length := by
  rw [List.getLast?_eq_getElem?] at hlast
  have hend := add_strlen_le hlast (i := i) (by omega)
  omega

theorem textReads_inside (hlast : buf.getLast? = some 0) (i : Nat) :
    (∀ j ∈ textReads buf i, j < buf.length) ↔ i < buf.length := by
  constructor
  · intro h
    exact h i (List.mem_range'_1.mpr ⟨le_rfl, by omega⟩)
  · intro h j hj
    have hend := add_strlen_lt hlast h
    have hmem := List.mem_range'_1.mp hj
    omega

theorem errorLoop_inside (hlast : buf.getLast? = some 0) (len n pos : Nat) :
    (∀ j ∈ (errorLoop buf len n pos).1, j < buf.length) ↔
      ∀ p ∈ fieldPositions buf len n pos, p + 1 < buf.length := by
  induction n generalizing pos with
  | zero => simp [errorLoop, fieldPositions]
  | succ n ih =>
      rw [errorLoop, fieldPositions]
      split
      · simp only [List.cons_append, List.forall_mem_cons, List.forall_mem_append,
          textReads_inside hlast, ih]
        constructor
        · rintro ⟨-, hvalue, hrest⟩
          exact ⟨hvalue, hrest⟩
        · rintro ⟨hvalue, hrest⟩
          exact ⟨by omega, hvalue, hrest⟩
      · simp

theorem errorLoop_of_zero {z : Nat} (hz : buf[z]? = some 0) (hsmall : z + 1 < 4294967296)
    (n : Nat) {pos : Nat} (hpos : pos ≤ z + 1) :
    (∀ j ∈ (errorLoop buf z n pos).1, j ≤ z) ∧
      (∀ p, (errorLoop buf z n pos).2 = some p → p ≤ z + 1) ∧
        (z + 1 - pos < n → (errorLoop buf z n pos).2 ≠ none) := by
  induction n generalizing pos with
  | zero => simp [errorLoop]
  | succ n ih =>
      rw [errorLoop]
      split
      · have hend : pos + 1 + strlen buf (pos + 1) ≤ z := add_strlen_le hz (by omega)
        have hbehind : behind buf (pos + 1) = pos + 1 + strlen buf (pos + 1) + 1 := by
          rw [behind, wrap, Nat.mod_eq_of_lt (by omega)]
        obtain ⟨hreads, hlast, hends⟩ := @ih (behind buf (pos + 1)) (by omega)
        refine ⟨?_, hlast, fun hrounds => hends (by omega)⟩
        simp only [List.cons_append, List.forall_mem_cons, List.forall_mem_append]
        refine ⟨by omega, fun j hj => ?_, hreads⟩
        have hmem := List.mem_range'_1.mp hj
        omega
      · exact ⟨by simp, fun p hp => Option.some.inj hp ▸ hpos, fun _ => by simp⟩

theorem rowReads_inside (hlast : buf.getLast? = some 0) (n pos : Nat) :
    (∀ j ∈ rowReads buf n pos, j < buf.length) ↔
      ∀ p ∈ namePositions buf n pos, p < buf.length := by
  induction n generalizing pos with
  | zero => simp [rowReads, namePositions]
  | succ n ih =>
      rw [rowReads, namePositions]
      simp only [List.forall_mem_append, List.forall_mem_cons, textReads_inside hlast, ih]

theorem mem_of_mem_comparisonReads {comparisons : List (Int × UInt8)} {i : Int}
    (h : i ∈ comparisonReads buf comparisons) : i ∈ comparisons.map Prod.fst := by
  induction comparisons with
  | nil => exact h
  | cons c comparisons ih =>
      obtain ⟨k, byte⟩ := c
      rw [comparisonReads] at h
      rw [List.map_cons]
      rcases List.mem_cons.mp h with rfl | h
      · exact List.mem_cons_self
      · split at h
        · exact List.mem_cons_of_mem _ (ih h)
        · exact absurd h List.not_mem_nil

theorem inside_append {reads reads' : List Int} :
    Inside buf (reads ++ reads') ↔ Inside buf reads ∧ Inside buf reads' :=
  List.forall_mem_append

theorem inside_map {reads : List Nat} :
    Inside buf (reads.map Int.ofNat) ↔ ∀ j ∈ reads, j < buf.length := by
  rw [Inside, List.forall_mem_map]
  refine forall₂_congr fun j _ => ?_
  exact ⟨fun h => Int.ofNat_lt.mp h.2, fun h => ⟨Int.natCast_nonneg j, Int.ofNat_lt.mpr h⟩⟩

theorem inside_indices {i : Int} (hpos : 0 < size) (hsize : size ≤ buf.length) :
    Inside buf (indices i size) ↔ 0 ≤ i := by
  rw [Inside, indices, List.forall_mem_map]
  constructor
  · intro h
    by_contra hneg
    have hfirst := h 0 (List.mem_range'_1.mpr ⟨le_rfl, by omega⟩)
    omega
  · intro h j hj
    have hmem := List.mem_range'_1.mp hj
    omega

theorem readyReads_inside (hpos : 0 < size) (hsize : size ≤ buf.length) :
    Inside buf (readyReads buf size) ↔ buf.getD 0 0 = 82 ∨ 6 ≤ size := by
  rw [Inside, readyReads, List.forall_mem_cons]
  constructor
  · rintro ⟨-, h⟩
    by_cases hfirst : buf.getD 0 0 = 82
    · exact .inl hfirst
    · rw [if_neg hfirst, comparisonReads, List.forall_mem_cons] at h
      exact .inr (by omega)
  · intro h
    refine ⟨by omega, fun i hi => ?_⟩
    split at hi
    · exact absurd hi List.not_mem_nil
    · rename_i hfirst
      have hsix := h.resolve_left hfirst
      have hmem := mem_of_mem_comparisonReads hi
      simp only [List.map_cons, List.map_nil, List.mem_cons, List.not_mem_nil, or_false] at hmem
      omega

theorem header_inside (hroom : 7 ≤ buf.length) :
    ∀ j ∈ [1, 2, 3, 4], j < buf.length := by
  intro j hj
  simp only [List.mem_cons, List.not_mem_nil, or_false] at hj
  omega

theorem messageReads_inside (hlast : buf.getLast? = some 0) (hroom : 7 ≤ buf.length)
    (hpos : 0 < size) (hsize : size ≤ buf.length) (src : SentBy) :
    Inside buf (messageReads buf src size) ↔
      (buf.getD 0 0 = 69 ∧ src = .backend →
        (∀ p ∈ fieldPositions buf (announcedLength buf) rounds 5, p + 1 < buf.length) ∧
          ∀ pos, (errorLoop buf (announcedLength buf) rounds 5).2 = some pos → 0 ≤ asInt pos) ∧
      (buf.getD 0 0 = 84 ∧ src = .backend →
        ∀ p ∈ namePositions buf (nfield buf).toNat 7, p < buf.length) := by
  have hheader := header_inside hroom
  have htext : ∀ j ∈ textReads buf 5, j < buf.length := (textReads_inside hlast 5).mpr (by omega)
  have hplain : Inside buf (([1, 2, 3, 4] ++ textReads buf 5).map Int.ofNat) :=
    inside_map.mpr (List.forall_mem_append.mpr ⟨hheader, htext⟩)
  rw [messageReads]
  split
  · rename_i hquery
    exact iff_of_true hplain ⟨fun h => absurd (hquery.symm.trans h.1) (by decide),
      fun h => absurd (hquery.symm.trans h.1) (by decide)⟩
  · split
    · rename_i herror
      have htail : Inside buf ((errorLoop buf (announcedLength buf) rounds 5).2.elim []
          fun pos => indices (asInt pos) size) ↔
          ∀ pos, (errorLoop buf (announcedLength buf) rounds 5).2 = some pos → 0 ≤ asInt pos := by
        cases (errorLoop buf (announcedLength buf) rounds 5).2 with
        | none => simp [Inside]
        | some pos =>
            rw [Option.elim_some, inside_indices hpos hsize]
            simp
      rw [inside_append, inside_map, htail, List.forall_mem_append, errorLoop_inside hlast]
      constructor
      · rintro ⟨⟨-, hfields⟩, hend⟩
        exact ⟨fun _ => ⟨hfields, hend⟩, fun h => absurd (herror.1.symm.trans h.1) (by decide)⟩
      · rintro ⟨hboth, -⟩
        exact ⟨⟨hheader, (hboth herror).1⟩, (hboth herror).2⟩
    · rename_i hnotError
      split
      · rename_i hrow
        rw [inside_map, List.forall_mem_append, rowReads_inside hlast]
        constructor
        · rintro ⟨-, hnames⟩
          exact ⟨fun h => absurd h hnotError, fun _ => hnames⟩
        · rintro ⟨-, hnames⟩
          exact ⟨by simp; omega, hnames hrow⟩
      · rename_i hnotRow
        refine iff_of_true ?_ ⟨fun h => absurd h hnotError, fun h => absurd h hnotRow⟩
        split
        · exact hplain
        · exact fun j hj => absurd hj List.not_mem_nil

theorem printReads_inside (hpos : 0 < size) (hsize : size ≤ buf.length) (src : SentBy) :
    Inside buf (printReads buf src size) ↔ Inside buf (messageReads buf src size) := by
  have hend : Inside buf (if size > 6 then indices (size - 6) size else []) := by
    split
    · exact (inside_indices hpos hsize).mpr (by omega)
    · exact fun i hi => absurd hi List.not_mem_nil
  rw [printReads, List.cons_append, Inside, List.forall_mem_cons]
  constructor
  · rintro ⟨-, h⟩
    exact (inside_append.mp h).1
  · intro h
    exact ⟨by omega, inside_append.mpr ⟨h, hend⟩⟩

end Bounds

section Received

variable {bytes : Bytes} {src : SentBy}

theorem getLast?_received (bytes : Bytes) : (received bytes).buf.getLast? = some 0 := by
  have hleast := defaultSize_le_capacity bytes.length
  have hsize := le_capacity bytes.length
  rw [defaultSize] at hleast
  rw [received, List.getLast?_append, List.getLast?_replicate, if_neg (by omega)]
  rfl

theorem roomy_received (bytes : Bytes) : 7 ≤ (received bytes).buf.length := by
  have hleast := defaultSize_le_capacity bytes.length
  rw [defaultSize] at hleast
  rw [length_buf_received]
  omega

theorem asInt_le_length_received (bytes : Bytes) :
    asInt bytes.length ≤ (received bytes).buf.length := by
  have hcount := asInt_le bytes.length
  have hsize := le_capacity bytes.length
  rw [length_buf_received]
  omega

theorem getD_zero_received (hbytes : bytes ≠ []) (byte : UInt8) :
    (received bytes).buf.getD 0 0 = byte ↔ bytes.head? = some byte := by
  cases bytes with
  | nil => exact absurd rfl hbytes
  | cons x bytes => simp [received]

theorem ne_nil_of_asInt_pos (h : 0 < asInt bytes.length) : bytes ≠ [] := by
  rintro rfl
  exact absurd (h.trans_le (asInt_le 0)) (by decide)

theorem printReads_received (hcount : 0 < asInt bytes.length) :
    Inside (received bytes).buf (printReads (received bytes).buf .backend (asInt bytes.length)) ↔
      FieldsInside bytes := by
  have hfirst := getD_zero_received (ne_nil_of_asInt_pos hcount)
  have hinside := asInt_le_length_received bytes
  rw [printReads_inside hcount hinside,
    messageReads_inside (getLast?_received bytes) (roomy_received bytes) hcount hinside,
    length_buf_received]
  simp only [hfirst, and_true]
  constructor
  · rintro ⟨herror, hrow⟩
    exact ⟨fun h => (herror h).1, fun h => (herror h).2, hrow⟩
  · rintro ⟨herror, htail, hrow⟩
    exact ⟨fun h => ⟨herror h, htail h⟩, hrow⟩

theorem readyReads_received (hcount : 0 < asInt bytes.length) :
    Inside (received bytes).buf (readyReads (received bytes).buf (asInt bytes.length)) ↔
      SixCame bytes := by
  rw [readyReads_inside hcount (asInt_le_length_received bytes),
    getD_zero_received (ne_nil_of_asInt_pos hcount), SixCame]

/-- All reads are inside if and only if those of the two loops and of the check are. -/
theorem responseReads_inside (hcount : 0 < asInt bytes.length) :
    Inside (received bytes).buf (responseReads (received bytes).buf (asInt bytes.length)) ↔
      Roomed bytes := by
  rw [responseReads, inside_append, printReads_received hcount]
  split
  · rename_i hends
    rw [readyReads_received hcount]
    exact ⟨fun h => ⟨h.1, fun _ => h.2⟩, fun h => ⟨h.fields, h.ready hends⟩⟩
  · rename_i hends
    exact ⟨fun h => ⟨h.1, fun h => absurd h hends⟩,
      fun h => ⟨h.fields, fun i hi => absurd hi List.not_mem_nil⟩⟩

theorem printInfo_received (hcount : 0 < asInt bytes.length) :
    printInfo .backend (received bytes) = .ok () ↔ Printed bytes := by
  have hreads := printReads_received hcount
  have hsize : (received bytes).size = asInt bytes.length := rfl
  rw [printInfo, hsize]
  constructor
  · intro h
    by_contra hnot
    rw [if_neg fun hall => hnot ⟨hreads.mp hall.1, hall.2.1, hall.2.2⟩] at h
    cases h
  · intro h
    exact if_pos ⟨hreads.mpr h.fields, h.ends, h.index⟩

/-- What is printed of a request lies in its buffer. -/
theorem printInfo_request {chunks : List Bytes} {stop : RecvEnd} (hfits : Fits .new chunks)
    (hcount : 0 < (Buffer.new.recvFrom chunks stop).2) :
    printInfo .frontend (Buffer.new.recvFrom chunks stop).1 = .ok () := by
  rw [← received_nil] at hfits hcount ⊢
  rw [← restore_received] at hfits
  obtain ⟨hreceived, hres⟩ := recvFrom_received stop hfits
  rw [List.nil_append] at hreceived hres
  have hpaused := not_not.mp (mt hres.mpr (not_le.mpr hcount))
  have hinside := asInt_le_length_received chunks.flatten
  have hsize : (received chunks.flatten).size = asInt chunks.flatten.length := rfl
  rw [hreceived, printInfo, hsize, if_pos]
  rw [printReads_inside hpaused.1 hinside,
    messageReads_inside (getLast?_received _) (roomy_received _) hpaused.1 hinside]
  simp [LoopEnds, IndexFits]

end Received

/-- What a session says itself is printed, unless its length has no `int`. -/
theorem answered_of_setError {e : Conn.Error} {response : Buffer}
    (h : setError e = some response) (hlength : response.buf.length < 2147483648) :
    answered e = .ok response := by
  refine Frames.answered_eq_ok.mpr ⟨h, ?_⟩
  simp only [setError, Option.bind_eq_bind, Option.bind_eq_some_iff] at h
  obtain ⟨s, -, c, -, m, -, h⟩ := h
  obtain rfl := Option.some.inj h
  generalize errorFields _ = fields at hlength ⊢
  generalize hbuf : UInt8.ofNat 69 :: (bigEndian (fields.length + 5) ++ fields ++ [0]) ++
    [90, 0, 0, 0, 5, 73] = buf at hlength ⊢
  change buf.length < 2147483648 at hlength
  have hlen : buf.length = fields.length + 12 := by
    rw [← hbuf]
    simp [bigEndian]
  have hfirst : buf.getD 0 0 = 69 := by
    rw [← hbuf]
    rfl
  have hannounced : announcedLength buf = fields.length + 5 := by
    rw [← readBigEndian_bigEndian (n := fields.length + 5) (by omega), ← hbuf]
    rfl
  have hzero : buf[fields.length + 5]? = some 0 := by
    rw [← hbuf]
    simp [bigEndian]
  have hprint : printInfo .backend ⟨buf, 0, buf.length⟩ =
      if Inside buf (printReads buf .backend (asInt buf.length)) ∧ LoopEnds buf .backend ∧
        IndexFits buf .backend then .ok () else .error .astray := rfl
  obtain ⟨hreads, hlast, hends⟩ :=
    errorLoop_of_zero hzero (by omega) rounds (by omega : 5 ≤ fields.length + 6)
  have hloop := hends (by rw [rounds]; omega)
  rw [hprint, asInt_of_lt hlength, if_pos]
  refine ⟨?_, fun _ => hannounced ▸ hloop, fun hrow => absurd (hfirst.symm.trans hrow.1) (by decide)⟩
  rw [printReads, List.cons_append, Inside, List.forall_mem_cons, if_pos (by omega)]
  refine ⟨by omega, inside_append.mpr ⟨?_, (inside_indices (by omega) le_rfl).mpr (by omega)⟩⟩
  rw [messageReads, if_neg (by rw [hfirst]; decide), if_pos ⟨hfirst, rfl⟩, hannounced]
  refine inside_append.mpr ⟨inside_map.mpr (List.forall_mem_append.mpr
    ⟨header_inside (by omega), fun j hj => ?_⟩), ?_⟩
  · have hle := hreads j hj
    omega
  · cases hend : (errorLoop buf (fields.length + 5) rounds 5).2 with
    | none => exact absurd hend hloop
    | some pos =>
        have hle := hlast pos hend
        rw [Option.elim_some, inside_indices (by omega) le_rfl, asInt_of_lt (by omega)]
        omega

instance (r : Receipt) (turn : Turn) : Decidable (ReadsInside r turn) :=
  decidable_of_iff (r.session.context.initiated = true → Pauses r turn →
    Inside (r.session.context.response.recvFrom turn.io.chunks turn.io.stop).1.buf
      (responseReads (r.session.context.response.recvFrom turn.io.chunks turn.io.stop).1.buf
        (r.session.context.response.recvFrom turn.io.chunks turn.io.stop).1.size))
    (by simp only [ReadsInside, forall_eq])

theorem readsInside_iff_announced {r : Receipt} {turn : Turn} (h : Hears r)
    (hoffered : Offered r turn) : ReadsInside r turn ↔ Announced r turn := by
  refine forall_congr' fun _ => forall_congr' fun hpauses => ?_
  have hresponse := h.response _ hpauses.1 rfl
  have hfits := hoffered hpauses.1
  rw [hresponse] at hfits ⊢
  rw [forall_eq, (recvFrom_received _ hfits).1]
  exact responseReads_inside hpauses.2.1

theorem readsInside_iff (lib : Externals) (st : SchemaTracker) {turns : List Turn}
    (hoffered : AtEachTurn (receive lib) (.new st) Offered turns) :
    AtEachTurn (receive lib) (.new st) ReadsInside turns ↔
      AtEachTurn (receive lib) (.new st) Announced turns :=
  atEachTurn_congr_of (I := Hears) (R := Offered) (hears_new st)
    (fun _ _ _ h hoffered _ hstep => hears_receive hoffered h hstep)
    (fun _ _ h hoffered => readsInside_iff_announced h hoffered) hoffered

/-- The server answers the startup by an `ErrorResponse`, whose type and length come in first. -/
def refusedLogin : List Turn :=
  loginTurns [[69, 0, 0, 0, 90]]

theorem offered_refusedLogin :
    AtEachTurn (receive sampleExternals) (.new .empty) Offered refusedLogin := by
  decide +kernel

theorem readsInside_refusedLogin :
    AtEachTurn (receive sampleExternals) (.new .empty) ReadsInside refusedLogin ↔
      AtEachTurn (receive sampleExternals) (.new .empty) Announced refusedLogin :=
  readsInside_iff sampleExternals .empty offered_refusedLogin

theorem not_readsInside_refusedLogin :
    AtEachTurn (receive sampleExternals) (.new .empty) Offered refusedLogin ∧
      ¬AtEachTurn (receive sampleExternals) (.new .empty) ReadsInside refusedLogin :=
  ⟨offered_refusedLogin, by decide +kernel⟩

end PgFort.PrintInfo
