import PgFort.ErrorResponses

namespace PgFort.PrintedFields

open PgFort.Framing
open PgFort.Conn
open PgFort.Reads
open PgFort.PrintInfo
open PgFort.ErrorResponses

/-- The names in a `RowDescription` that the loop comes by in so many rounds, each with its position,
and the position where the loop ends. -/
def visitedColumns (buf : Bytes) : Nat → Nat → List (Nat × Bytes) × Nat
  | 0, pos => ([], pos)
  | n + 1, pos =>
      let visited :=
        visitedColumns buf n ((pos + (strlen buf pos + 1 + 4 + 2 + 4 + 2 + 4 + 2)) % 4294967296)
      ((pos, cString (buf.drop pos)) :: visited.1, visited.2)

/-- A column of a result: its name, and the eighteen bytes that say what it is. -/
structure Column where
  name : Bytes
  attributes : Bytes
  zeroFree : ∀ byte ∈ name, byte ≠ 0
  length_attributes : attributes.length = 18

/-- A field of a `RowDescription` on the wire: its name, and eighteen bytes. -/
def Column.encode (c : Column) : Bytes :=
  c.name ++ 0 :: c.attributes

def fieldCount (n : Nat) : Bytes :=
  [UInt8.ofNat (n / 256), UInt8.ofNat n]

structure RowDescription where
  columns : List Column
  count : columns.length < 65536
  length : (columns.flatMap Column.encode).length + 6 < 4294967296

def RowDescription.message (r : RowDescription) : Message :=
  ⟨84, fieldCount r.columns.length ++ r.columns.flatMap Column.encode⟩

structure ErrorResponse where
  fields : List (UInt8 × Bytes)
  readable : Readable fields
  length : (errorFields fields).length + 5 < 4294967296

def ErrorResponse.message (r : ErrorResponse) : Message :=
  ⟨69, errorFields r.fields ++ [0]⟩

/-- A message that `PrintInfo` looks for fields in. -/
inductive Described where
  | errorResponse (r : ErrorResponse)
  | rowDescription (r : RowDescription)

def Described.message : Described → Message
  | errorResponse r => r.message
  | rowDescription r => r.message

/-- The loop comes by the fields of the message, whatever is behind it, and ends at the zero behind
the fields of an `ErrorResponse`, and at the end of a `RowDescription`. -/
def Described.Visited (m : Described) : Prop :=
  ∀ rest buf, buf = m.message.encode ++ rest →
    match m with
    | errorResponse r =>
        buf[r.message.payload.length + 4]? = some 0 ∧
          ∃ n, visitedFields buf (announcedLength buf) n 5 =
            some (located encodeField 5 r.fields, r.message.payload.length + 4)
    | rowDescription r =>
        visitedColumns buf (nfield buf).toNat 7 =
          ((located Column.encode 7 r.columns).map fun c => (c.1, c.2.name),
            r.message.encode.length)

/-- The bytes of the number of columns have no sign, and a position has room for the end. -/
def Described.Printable : Described → Prop
  | errorResponse _ => True
  | rowDescription r =>
      r.columns.length < 32768 ∧ r.columns.length % 256 < 128 ∧
        r.message.encode.length < 4294967296

section Count

variable {buf : Bytes}

/-- A byte from 128 on is a negative `char`. -/
theorem toNat_char (b : UInt8) : b.toInt8.toInt32.toUInt32.toNat =
    if b.toNat < 128 then b.toNat else b.toNat + 4294967040 := by
  have hb := b.toNat_lt
  have hwidth : (b.toBitVec.setWidth 32).toNat = b.toNat := by
    rw [BitVec.toNat_setWidth]
    exact Nat.mod_eq_of_lt (by omega)
  change (b.toBitVec.signExtend 32).toNat = _
  rw [BitVec.toNat_signExtend, BitVec.msb_eq_decide, hwidth]
  change b.toNat + (if decide (2 ^ 7 ≤ b.toNat) then 2 ^ 32 - 2 ^ 8 else 0) = _
  simp only [decide_eq_true_eq]
  split <;> split <;> omega

theorem toNat_nfield (buf : Bytes) : (nfield buf).toNat =
    ((buf.getD 5 0).toInt8.toInt32.toUInt32.toNat * 256 +
      (buf.getD 6 0).toInt8.toInt32.toUInt32.toNat) % 4294967296 := by
  rw [nfield, UInt32.toNat_add, UInt32.toNat_shiftLeft, Nat.shiftLeft_eq]
  change (_ * 2 ^ 8 % 2 ^ 32 + _) % 2 ^ 32 = _
  omega

theorem toNat_nfield_eq_iff {n : Nat} (hn : n < 65536) (hhigh : buf.getD 5 0 = UInt8.ofNat (n / 256))
    (hlow : buf.getD 6 0 = UInt8.ofNat n) :
    (nfield buf).toNat = n ↔ n < 32768 ∧ n % 256 < 128 := by
  rw [toNat_nfield, hhigh, hlow, toNat_char, toNat_char, UInt8.toNat_ofNat', UInt8.toNat_ofNat']
  split <;> split <;> omega

end Count

section Columns

theorem length_visitedColumns (buf : Bytes) (n pos : Nat) :
    (visitedColumns buf n pos).1.length = n := by
  induction n generalizing pos with
  | zero => rfl
  | succ n ih => rw [visitedColumns, List.length_cons, ih]

theorem visitedColumns_snd_lt (buf : Bytes) {n pos : Nat} (hpos : pos < 4294967296) :
    (visitedColumns buf n pos).2 < 4294967296 := by
  induction n generalizing pos with
  | zero => exact hpos
  | succ n ih =>
      rw [visitedColumns]
      exact ih (Nat.mod_lt _ (by decide))

theorem length_located {α : Type} (encode : α → Bytes) (pos : Nat) (xs : List α) :
    (located encode pos xs).length = xs.length := by
  rw [← List.length_map (f := Prod.snd), map_snd_located]

theorem visitedColumns_encode (columns : List Column) (front rest : Bytes)
    (hlength : front.length + (columns.flatMap Column.encode).length < 4294967296) :
    visitedColumns (front ++ (columns.flatMap Column.encode ++ rest)) columns.length front.length =
      ((located Column.encode front.length columns).map fun c => (c.1, c.2.name),
        front.length + (columns.flatMap Column.encode).length) := by
  induction columns generalizing front with
  | nil => rfl
  | cons c columns ih =>
      have hcolumn : c.encode.length = c.name.length + 19 := by
        rw [Column.encode, List.length_append, List.length_cons, c.length_attributes]
      rw [List.flatMap_cons, List.length_append] at hlength ⊢
      have hnext := ih (front ++ c.encode) (by rw [List.length_append]; omega)
      have hbuf : front ++ (c.encode ++ columns.flatMap Column.encode ++ rest) =
          front ++ c.encode ++ (columns.flatMap Column.encode ++ rest) := by
        simp only [List.append_assoc]
      have htext : cString ((front ++ c.encode ++ (columns.flatMap Column.encode ++ rest)).drop
          front.length) = c.name := by
        rw [List.append_assoc, List.drop_left, Column.encode, List.append_assoc, List.cons_append]
        exact cString_append_zero c.zeroFree _
      have hstrlen : strlen (front ++ c.encode ++ (columns.flatMap Column.encode ++ rest))
          front.length = c.name.length := by
        rw [strlen, htext]
      rw [hbuf, List.length_cons, visitedColumns, located]
      simp only [htext, hstrlen]
      rw [Nat.mod_eq_of_lt (by omega),
        show front.length + (c.name.length + 1 + 4 + 2 + 4 + 2 + 4 + 2) =
          (front ++ c.encode).length by rw [List.length_append]; omega, hnext]
      simp only [List.map_cons, List.length_append, Nat.add_assoc]

end Columns

theorem visited_errorResponse (r : ErrorResponse) : (Described.errorResponse r).Visited := by
  rintro rest buf rfl
  have hlength := r.length
  have hpayload : r.message.payload.length = (errorFields r.fields).length + 1 := by
    rw [ErrorResponse.message, List.length_append, List.length_singleton]
  have hbuf : (Described.errorResponse r).message.encode ++ rest =
      69 :: bigEndian (r.message.payload.length + 4) ++ (errorFields r.fields ++ 0 :: rest) := by
    simp only [Described.message, ErrorResponse.message, Message.encode, List.cons_append,
      List.append_assoc, List.nil_append]
  have hannounced : announcedLength ((Described.errorResponse r).message.encode ++ rest) =
      r.message.payload.length + 4 :=
    readBigEndian_bigEndian (n := r.message.payload.length + 4) (by omega)
  have hheader : (69 :: bigEndian (r.message.payload.length + 4)).length = 5 := rfl
  have hsize : 5 + (errorFields r.fields).length = r.message.payload.length + 4 := by omega
  have hvisited := visitedFields_errorFields r.readable
    (69 :: bigEndian (r.message.payload.length + 4)) (0 :: rest) (by rw [hheader]; omega)
  rw [hheader, hsize, ← hbuf] at hvisited
  refine ⟨?_, r.fields.length + 1, ?_⟩
  · rw [hbuf, ← List.append_assoc, List.getElem?_append_right (by rw [List.length_append]; omega),
      List.length_append, hheader, hsize, Nat.sub_self]
    rfl
  · rw [hannounced]
    exact hvisited

theorem visited_rowDescription_iff (r : RowDescription) :
    (Described.rowDescription r).Visited ↔ (Described.rowDescription r).Printable := by
  have hfront : (84 :: bigEndian (r.message.payload.length + 4) ++
      fieldCount r.columns.length).length = 7 := rfl
  have hbuf (rest : Bytes) : (Described.rowDescription r).message.encode ++ rest =
      84 :: bigEndian (r.message.payload.length + 4) ++ fieldCount r.columns.length ++
        (r.columns.flatMap Column.encode ++ rest) := by
    simp only [Described.message, RowDescription.message, Message.encode, List.cons_append,
      List.append_assoc]
  have hsize : r.message.encode.length = 7 + (r.columns.flatMap Column.encode).length := by
    rw [Message.encode, RowDescription.message, fieldCount]
    simp only [bigEndian, List.length_cons, List.length_append, List.length_nil]
    omega
  have hcount (rest : Bytes) :
      (nfield ((Described.rowDescription r).message.encode ++ rest)).toNat = r.columns.length ↔
        r.columns.length < 32768 ∧ r.columns.length % 256 < 128 :=
    toNat_nfield_eq_iff r.count rfl rfl
  constructor
  · intro h
    have hvisited := h [] _ rfl
    have hrounds := congrArg (fun visited => visited.1.length) hvisited
    simp only [length_visitedColumns, List.length_map, length_located] at hrounds
    have hend := visitedColumns_snd_lt (n := (nfield
      ((Described.rowDescription r).message.encode ++ [])).toNat)
      ((Described.rowDescription r).message.encode ++ []) (show 7 < 4294967296 by decide)
    rw [hvisited] at hend
    exact ⟨((hcount []).mp hrounds).1, ((hcount []).mp hrounds).2, hend⟩
  · rintro ⟨hhigh, hlow, hend⟩ rest buf rfl
    rw [hsize] at hend
    have hvisited := visitedColumns_encode r.columns
      (84 :: bigEndian (r.message.payload.length + 4) ++ fieldCount r.columns.length) rest
      (by rw [hfront]; exact hend)
    rw [hfront, ← hbuf] at hvisited
    dsimp only
    rw [(hcount rest).mpr ⟨hhigh, hlow⟩, hvisited, hsize]

/-- A `char` has a sign, and a position has 32 bits. -/
theorem visited_iff_printable (m : Described) : m.Visited ↔ m.Printable := by
  cases m with
  | errorResponse r => exact iff_of_true (visited_errorResponse r) trivial
  | rowDescription r => exact visited_rowDescription_iff r

/-- A column of a query without a table. -/
def plainColumn : Column where
  name := utf8 "?column?"
  attributes := [0, 0, 0, 0, 0, 0, 0, 0, 0, 23, 0, 4, 255, 255, 255, 255, 0, 0]
  zeroFree := by decide +kernel
  length_attributes := rfl

theorem length_flatMap_replicate (n : Nat) :
    ((List.replicate n plainColumn).flatMap Column.encode).length = 27 * n := by
  induction n with
  | zero => rfl
  | succ n ih =>
      rw [List.replicate_succ, List.flatMap_cons, List.length_append, ih,
        show plainColumn.encode.length = 27 by decide +kernel]
      omega

/-- The answer to a query for so many columns. -/
def wideRow (n : Nat) (hn : n < 65536) : RowDescription where
  columns := List.replicate n plainColumn
  count := by rw [List.length_replicate]; exact hn
  length := by rw [length_flatMap_replicate]; omega

theorem not_visited_wideRow : ¬ (Described.rowDescription (wideRow 128 (by decide))).Visited := by
  rw [visited_rowDescription_iff]
  rintro ⟨-, hlow, -⟩
  simp [wideRow] at hlow

end PgFort.PrintedFields
