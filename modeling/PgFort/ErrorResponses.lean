import Mathlib.Data.List.GetD
import PgFort.BufferCalls
import PgFort.MandatoryFields
import PgFort.PrintInfo

namespace PgFort.ErrorResponses

open PgFort.Framing
open PgFort.Conn
open PgFort.Reads
open PgFort.MandatoryFields
open PgFort.BufferCalls
open PgFort.PrintInfo

/-- The fields of an `ErrorResponse` as its receiver reads them: each a type and a text, and a zero
behind the last. -/
def readFields : Nat → Bytes → Option (List (UInt8 × Bytes))
  | 0, _ => none
  | _ + 1, [] => none
  | n + 1, type :: rest =>
      if type = 0 then
        if rest = [] then some [] else none
      else
        let value := cString rest
        if value.length < rest.length then
          (readFields n (rest.drop (value.length + 1))).map ((type, value) :: ·)
        else none

/-- The fields of an `ErrorResponse`, as a client reads them. -/
def fieldList (payload : Bytes) : Option (List (UInt8 × Bytes)) :=
  readFields payload.length payload

/-- The fields of an `ErrorResponse` that the loop of `PrintInfo` comes by when it ends in so many
rounds, each with its position, and the position where the loop ends; it is an `uint32_t`. -/
def visitedFields (buf : Bytes) (len : Nat) : Nat → Nat → Option (List (Nat × UInt8 × Bytes) × Nat)
  | 0, _ => none
  | n + 1, pos =>
      if pos < len then
        let value := (pos + 1) % 4294967296
        (visitedFields buf len n ((value + strlen buf value + 1) % 4294967296)).map fun visited =>
          ((pos, buf.getD pos 0, cString (buf.drop value)) :: visited.1, visited.2)
      else some ([], pos)

/-- What the loop prints, and the position where it ends. -/
def printedFields (buf : Bytes) (len : Nat) : Nat → Nat → Option (List (UInt8 × Bytes) × Nat)
  | 0, _ => none
  | n + 1, pos =>
      if pos < len then
        let type := buf.getD pos 0
        let pos := (pos + 1) % 4294967296
        (printedFields buf len n ((pos + strlen buf pos + 1) % 4294967296)).map fun printed =>
          ((type, cString (buf.drop pos)) :: printed.1, printed.2)
      else some ([], pos)

/-- The types of the fields, each with the key of its value. -/
def fieldTypes : List (String × UInt8) :=
  [("C", 67), ("M", 77), ("S", 83), ("S", 86), ("F", 70), ("L", 76), ("P", 80), ("R", 82)]

/-- The fields that `SetError` writes: those of an error that have a type, in the order of the
types. -/
def suppliedFields (e : Conn.Error) : List (UInt8 × Bytes) :=
  fieldTypes.flatMap fun t => (e.fields.lookup t.1).toList.map fun value => (t.2, value)

/-- The length that `SetError` adds up. -/
def totalLen (e : Conn.Error) : Nat :=
  (suppliedFields e).foldl (fun len f => len + (f.2.length + 2)) 5

/-- All values are texts without a zero. -/
def ZeroFree (e : Conn.Error) : Prop :=
  ∀ key value, e.fields.lookup key = some value → ∀ byte ∈ value, byte ≠ 0

/-- The fields are those that the error supplies, each once, and the severity once more. -/
def FieldsOf (e : Conn.Error) (fields : List (UInt8 × Bytes)) : Prop :=
  (fields.map Prod.fst).Nodup ∧
    ∀ type value, (type, value) ∈ fields ↔
      ∃ key, (key, type) ∈ fieldTypes ∧ e.fields.lookup key = some value

/-- The data is an `ErrorResponse` for the error and a `ReadyForQuery`, and `PrintInfo` prints the
fields up to the zero behind them. -/
structure Responds (e : Conn.Error) (b : Buffer) (payload : Bytes) (fields : List (UInt8 × Bytes)) :
    Prop where
  messages : messages b.data = [⟨69, payload⟩, ⟨90, [73]⟩]
  pending : pending b.data = []
  read : fieldList payload = some fields
  supplied : FieldsOf e fields
  printed : ∃ n, printedFields b.buf (announcedLength b.buf) n 5 = some (fields, payload.length + 4)
  terminator : b.buf[payload.length + 4]? = some 0

section FieldLists

variable {fields : List (UInt8 × Bytes)}

/-- A type is not a zero, and a value has none. -/
def Readable (fields : List (UInt8 × Bytes)) : Prop :=
  ∀ f ∈ fields, f.1 ≠ 0 ∧ ∀ byte ∈ f.2, byte ≠ 0

theorem errorFields_cons (f : UInt8 × Bytes) (fields : List (UInt8 × Bytes)) :
    errorFields (f :: fields) = f.1 :: (f.2 ++ 0 :: errorFields fields) := by
  simp [errorFields]

theorem foldl_errorFields (fields : List (UInt8 × Bytes)) (len : Nat) :
    fields.foldl (fun len f => len + (f.2.length + 2)) len = len + (errorFields fields).length := by
  induction fields generalizing len with
  | nil => rfl
  | cons f fields ih =>
      rw [List.foldl_cons, ih, errorFields_cons, List.length_cons, List.length_append, List.length_cons]
      omega

theorem length_le_errorFields (fields : List (UInt8 × Bytes)) :
    fields.length ≤ (errorFields fields).length := by
  induction fields with
  | nil => exact Nat.zero_le _
  | cons f fields ih =>
      rw [errorFields_cons]
      simp only [List.length_cons, List.length_append]
      omega

theorem readFields_errorFields (h : Readable fields) {n : Nat} (hn : fields.length < n) :
    readFields n (errorFields fields ++ [0]) = some fields := by
  induction fields generalizing n with
  | nil =>
      obtain ⟨n, rfl⟩ : ∃ n', n = n' + 1 := ⟨n - 1, by omega⟩
      rfl
  | cons f fields ih =>
      obtain ⟨n, rfl⟩ : ∃ n', n = n' + 1 := ⟨n - 1, by omega⟩
      obtain ⟨htype, hvalue⟩ := h f List.mem_cons_self
      have hrest := ih (fun g hg => h g (List.mem_cons_of_mem f hg))
        (by rw [List.length_cons] at hn; omega : fields.length < n)
      have htext : cString (f.2 ++ 0 :: (errorFields fields ++ [0])) = f.2 :=
        cString_append_zero hvalue _
      have hlist : errorFields (f :: fields) ++ [0] =
          f.1 :: (f.2 ++ 0 :: (errorFields fields ++ [0])) := by
        rw [errorFields_cons, List.cons_append, List.append_assoc, List.cons_append]
      have hdrop : (f.2 ++ 0 :: (errorFields fields ++ [0])).drop (f.2.length + 1) =
          errorFields fields ++ [0] := by
        rw [← List.drop_drop, List.drop_left]
        rfl
      rw [hlist, readFields, if_neg htype]
      simp only [htext, hdrop, hrest]
      rw [if_pos (by rw [List.length_append, List.length_cons]; omega)]
      rfl

theorem fieldList_errorFields (h : Readable fields) :
    fieldList (errorFields fields ++ [0]) = some fields := by
  refine readFields_errorFields h ?_
  have hle := length_le_errorFields fields
  rw [List.length_append, List.length_singleton]
  omega

/-- Items that are encoded one behind the other from a position on, each with its own position. -/
def located {α : Type} (encode : α → Bytes) : Nat → List α → List (Nat × α)
  | _, [] => []
  | pos, x :: xs => (pos, x) :: located encode (pos + (encode x).length) xs

theorem map_snd_located {α : Type} (encode : α → Bytes) (pos : Nat) (xs : List α) :
    (located encode pos xs).map Prod.snd = xs := by
  induction xs generalizing pos with
  | nil => rfl
  | cons x xs ih => rw [located, List.map_cons, ih]

/-- A field with its type before and a NUL behind it. -/
def encodeField (f : UInt8 × Bytes) : Bytes :=
  f.1 :: (f.2 ++ [0])

theorem visitedFields_errorFields (h : Readable fields) (front rest : Bytes)
    (hlength : front.length + (errorFields fields).length < 4294967296) :
    visitedFields (front ++ (errorFields fields ++ rest))
        (front.length + (errorFields fields).length) (fields.length + 1) front.length =
      some (located encodeField front.length fields,
        front.length + (errorFields fields).length) := by
  induction fields generalizing front with
  | nil =>
      rw [visitedFields, if_neg (by simp [errorFields])]
      rfl
  | cons f fields ih =>
      obtain ⟨htype, hvalue⟩ := h f List.mem_cons_self
      have hfield : (encodeField f).length = f.2.length + 2 := by
        simp only [encodeField, List.length_cons, List.length_append, List.length_nil]
      have hsize : (errorFields (f :: fields)).length =
          (encodeField f).length + (errorFields fields).length := by
        rw [hfield, errorFields_cons]
        simp only [List.length_cons, List.length_append]
        omega
      rw [hsize] at hlength
      have hnext := ih (fun g hg => h g (List.mem_cons_of_mem f hg)) (front ++ encodeField f)
        (by rw [List.length_append]; omega)
      have hbuf : front ++ (errorFields (f :: fields) ++ rest) =
          front ++ encodeField f ++ (errorFields fields ++ rest) := by
        rw [errorFields_cons, encodeField]
        simp only [List.append_assoc, List.cons_append, List.nil_append]
      have hfirst : (front ++ (errorFields (f :: fields) ++ rest)).getD front.length 0 = f.1 := by
        rw [errorFields_cons, List.getD_append_right _ _ _ _ le_rfl, Nat.sub_self]
        rfl
      have hdrop : (front ++ (errorFields (f :: fields) ++ rest)).drop (front.length + 1) =
          f.2 ++ 0 :: (errorFields fields ++ rest) := by
        rw [← List.drop_drop, List.drop_left, errorFields_cons]
        simp only [List.cons_append, List.drop_succ_cons, List.drop_zero, List.append_assoc]
      have htext : cString (f.2 ++ 0 :: (errorFields fields ++ rest)) = f.2 :=
        cString_append_zero hvalue _
      have hstrlen : strlen (front ++ (errorFields (f :: fields) ++ rest)) (front.length + 1) =
          f.2.length := by
        rw [strlen, hdrop, htext]
      rw [List.length_cons, visitedFields, if_pos (by omega)]
      simp only [hfirst, Nat.mod_eq_of_lt (by omega : front.length + 1 < 4294967296), hdrop, htext,
        hstrlen]
      rw [Nat.mod_eq_of_lt (by omega), hsize, located]
      rw [List.length_append, Nat.add_assoc] at hnext
      rw [hbuf, show front.length + 1 + f.2.length + 1 = front.length + (encodeField f).length by omega,
        hnext]
      rfl

theorem printedFields_eq (buf : Bytes) (len n pos : Nat) :
    printedFields buf len n pos =
      (visitedFields buf len n pos).map fun visited => (visited.1.map Prod.snd, visited.2) := by
  induction n generalizing pos with
  | zero => rfl
  | succ n ih =>
      simp only [printedFields, visitedFields]
      split
      · rw [ih, Option.map_map, Option.map_map]
        rfl
      · rfl

theorem printedFields_errorFields (h : Readable fields) (front rest : Bytes)
    (hlength : front.length + (errorFields fields).length < 4294967296) :
    printedFields (front ++ (errorFields fields ++ rest))
        (front.length + (errorFields fields).length) (fields.length + 1) front.length =
      some (fields, front.length + (errorFields fields).length) := by
  rw [printedFields_eq, visitedFields_errorFields h front rest hlength, Option.map_some,
    map_snd_located]

end FieldLists

section Supplied

variable {e : Conn.Error}

theorem field?_of_zeroFree (h : ZeroFree e) (key : String) :
    e.field? key = e.fields.lookup key := by
  rw [Error.field?]
  cases hlookup : e.fields.lookup key with
  | none => rfl
  | some value => rw [Option.map_some, cString_of_forall_ne_zero (h key value hlookup)]

theorem mem_suppliedFields {type : UInt8} {value : Bytes} :
    (type, value) ∈ suppliedFields e ↔
      ∃ key, (key, type) ∈ fieldTypes ∧ e.fields.lookup key = some value := by
  simp only [suppliedFields, List.mem_flatMap, List.mem_map, Option.mem_toList,
    Prod.mk.injEq]
  constructor
  · rintro ⟨t, ht, v, hv, rfl, rfl⟩
    exact ⟨t.1, ht, hv⟩
  · rintro ⟨key, hkey, hvalue⟩
    exact ⟨(key, type), hkey, value, hvalue, rfl, rfl⟩

theorem fieldsOf_suppliedFields : FieldsOf e (suppliedFields e) := by
  refine ⟨?_, fun _ _ => mem_suppliedFields⟩
  have hsublist (types : List (String × UInt8)) :
      ((types.flatMap fun t => (e.fields.lookup t.1).toList.map fun value => (t.2, value)).map
        Prod.fst).Sublist (types.map Prod.snd) := by
    induction types with
    | nil => exact List.Sublist.refl []
    | cons t types ih =>
        rw [List.flatMap_cons, List.map_append, List.map_cons]
        cases e.fields.lookup t.1 with
        | none => exact ih.cons t.2
        | some value => exact ih.cons_cons t.2
  exact (hsublist fieldTypes).nodup (by decide)

theorem readable_suppliedFields (h : ZeroFree e) : Readable (suppliedFields e) := by
  rintro ⟨type, value⟩ hmem
  obtain ⟨key, hkey, hvalue⟩ := mem_suppliedFields.mp hmem
  have htypes : ∀ t ∈ fieldTypes, t.2 ≠ 0 := by decide
  exact ⟨htypes _ hkey, h key value hvalue⟩

/-- What `SetError` writes of an error. -/
def errorPayload (e : Conn.Error) : Bytes :=
  errorFields (suppliedFields e) ++ [0]

theorem setError_eq (hmandatory : Mandatory e) (hfree : ZeroFree e) :
    setError e = some
      { buf := (Message.mk 69 (errorPayload e)).encode ++ (Message.mk 90 [73]).encode
        bufSize := 0
        dataSize := ((Message.mk 69 (errorPayload e)).encode ++
          (Message.mk 90 [73]).encode).length } := by
  obtain ⟨hs, hc, hm⟩ := hmandatory
  rw [field?_of_zeroFree hfree] at hs hc hm
  obtain ⟨s, hs⟩ := Option.isSome_iff_exists.mp hs
  obtain ⟨c, hc⟩ := Option.isSome_iff_exists.mp hc
  obtain ⟨m, hm⟩ := Option.isSome_iff_exists.mp hm
  have hfields : suppliedFields e = [(67, c), (77, m), (83, s), (86, s)] ++
      ((e.fields.lookup "F").toList.map (fun v => (70, v)) ++
        (e.fields.lookup "L").toList.map (fun v => (76, v)) ++
        (e.fields.lookup "P").toList.map (fun v => (80, v)) ++
        (e.fields.lookup "R").toList.map (fun v => (82, v))) := by
    simp [suppliedFields, fieldTypes, hs, hc, hm]
  simp only [setError, field?_of_zeroFree hfree, hs, hc, hm, Option.bind_eq_bind, Option.bind_some,
    ← hfields]
  simp only [Message.encode, errorPayload, List.length_append, List.length_singleton,
    List.append_assoc]
  rfl

theorem totalLen_eq : totalLen e = (errorPayload e).length + 4 := by
  rw [totalLen, errorPayload, List.length_append, foldl_errorFields, List.length_singleton]
  omega

end Supplied

variable {e : Conn.Error}

/-- The response to an error tells its fields, no more and no less, to the client and to the log. -/
theorem responds_setError (b : Buffer) (hmandatory : Mandatory e) (hfree : ZeroFree e)
    (hlength : totalLen e < 4294967296) :
    ∃ b' payload fields, call b (.setError e) = .ok b' ∧ Responds e b' payload fields := by
  rw [totalLen_eq] at hlength
  have hreadable := readable_suppliedFields hfree
  have hfirst : firstMessage ((Message.mk 69 (errorPayload e)).encode ++ (Message.mk 90 [73]).encode) =
      some (Message.mk 69 (errorPayload e), (Message.mk 90 [73]).encode) :=
    firstMessage_encode hlength _
  have hready : (Message.mk 90 [73]).payload.length + 4 < 4294967296 := by decide
  have hbuf : (Message.mk 69 (errorPayload e)).encode ++ (Message.mk 90 [73]).encode =
      69 :: bigEndian ((errorPayload e).length + 4) ++
        (errorFields (suppliedFields e) ++ 0 :: (Message.mk 90 [73]).encode) := by
    simp only [Message.encode, errorPayload, List.cons_append, List.append_assoc, List.nil_append]
  have hannounced : announcedLength
      ((Message.mk 69 (errorPayload e)).encode ++ (Message.mk 90 [73]).encode) =
        (errorPayload e).length + 4 :=
    readBigEndian_bigEndian hlength
  have hheader : (69 :: bigEndian ((errorPayload e).length + 4)).length = 5 := rfl
  have hsize : 5 + (errorFields (suppliedFields e)).length = (errorPayload e).length + 4 := by
    rw [errorPayload, List.length_append, List.length_singleton]
    omega
  refine ⟨_, errorPayload e, suppliedFields e, by rw [call, setError_eq hmandatory hfree], ?_⟩
  constructor
  · rw [Buffer.data, List.take_length, messages_of_some hfirst, messages_encode hready]
  · rw [Buffer.data, List.take_length, pending_of_some hfirst, pending_encode hready]
  · exact fieldList_errorFields hreadable
  · exact fieldsOf_suppliedFields
  · refine ⟨(suppliedFields e).length + 1, ?_⟩
    dsimp only
    rw [hannounced, hbuf]
    have hprinted := printedFields_errorFields hreadable
      (69 :: bigEndian ((errorPayload e).length + 4)) (0 :: (Message.mk 90 [73]).encode)
      (by rw [hheader, hsize]; exact hlength)
    rwa [hheader, hsize] at hprinted
  · have hend : (errorPayload e).length + 4 =
        (69 :: bigEndian ((errorPayload e).length + 4) ++ errorFields (suppliedFields e)).length := by
      rw [List.length_append, hheader, hsize]
    dsimp only
    rw [hbuf, ← List.append_assoc, List.getElem?_append_right (by rw [← hend]), ← hend, Nat.sub_self]
    rfl

/-- What `EnsureNewTableHasIdPlugIn` answers to a table without an `id`. -/
def refusal : Conn.Error :=
  ⟨[("S", utf8 "ERROR"), ("C", utf8 "42P16"), ("M", utf8 "column \"id\" missing"),
    ("F", utf8 "/workspace/pg-fort/src/lib/session/plugin.cpp"), ("L", utf8 "272"),
    ("R", utf8 "EnsureNewTableHasIdPlugIn")]⟩

theorem zeroFree_refusal : ZeroFree refusal := by
  intro key value h
  have hall : ∀ f ∈ refusal.fields, ∀ byte ∈ f.2, byte ≠ 0 := by decide +kernel
  obtain ⟨l₁, l₂, hsplit, -⟩ := List.lookup_eq_some_iff.mp h
  exact hall (key, value) (by rw [hsplit]; exact List.mem_append_right l₁ List.mem_cons_self)

theorem responds_setError_refusal :
    ∃ b payload fields, call .new (.setError refusal) = .ok b ∧ Responds refusal b payload fields :=
  responds_setError .new ⟨by decide +kernel, by decide +kernel, by decide +kernel⟩ zeroFree_refusal
    (by decide +kernel)

end PgFort.ErrorResponses
