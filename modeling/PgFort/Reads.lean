import PgFort.Conn

namespace PgFort.Reads

open PgFort.Framing
open PgFort.Conn

/-- A position as an `uint32_t`. -/
def wrap (n : Nat) : Nat :=
  n % 4294967296

/-- As many rounds as there are positions. A loop that goes from position to position and takes more
of them has come to one of them again, and never ends. -/
def rounds : Nat :=
  4294967296

inductive SentBy where
  | backend
  | frontend
  deriving DecidableEq, Repr

section Texts

variable (buf : Bytes)

/-- `strlen` of the text at an index. -/
def strlen (i : Nat) : Nat :=
  (cString (buf.drop i)).length

/-- The indices of a text, and of the zero behind it. -/
def textReads (i : Nat) : List Nat :=
  List.range' i (strlen buf i + 1)

/-- The position behind the text at a position. -/
def behind (pos : Nat) : Nat :=
  wrap (pos + strlen buf pos + 1)

/-- The parameters that the loop of `Initiate` has found when it ends in so many rounds. -/
def parameterLoop : Nat → Nat → Option (List (Bytes × Bytes))
  | 0, _ => none
  | n + 1, pos =>
      if buf.getD pos 0 = 0 then some []
      else
        let pname := cString (buf.drop pos)
        let pval := cString (buf.drop (behind buf pos))
        (parameterLoop n (behind buf (behind buf pos))).map ((pname, pval) :: ·)

/-- What the loop of `Initiate` reads in so many rounds. -/
def loopReads : Nat → Nat → List Nat
  | 0, _ => []
  | n + 1, pos =>
      pos :: if buf.getD pos 0 = 0 then []
        else
          textReads buf pos ++ textReads buf (behind buf pos) ++
            loopReads n (behind buf (behind buf pos))

end Texts

section Printing

variable (buf : Bytes)

/-- The length that a message has of itself. -/
def announcedLength : Nat :=
  readBigEndian [buf.getD 1 0, buf.getD 2 0, buf.getD 3 0, buf.getD 4 0]

/-- The number of fields of a `RowDescription`; a byte is a `char`, which has a sign. -/
def nfield : UInt32 :=
  ((buf.getD 5 0).toInt8.toInt32.toUInt32 <<< 8) + (buf.getD 6 0).toInt8.toInt32.toUInt32

/-- The fields of an `ErrorResponse`, up to its announced length: what is read in so many rounds, and
where the loop ends, if it does. -/
def errorLoop (len : Nat) : Nat → Nat → List Nat × Option Nat
  | 0, _ => ([], none)
  | n + 1, pos =>
      if pos < len then
        let fields := errorLoop len n (behind buf (pos + 1))
        (pos :: textReads buf (pos + 1) ++ fields.1, fields.2)
      else ([], some pos)

/-- The fields of a `RowDescription`, each a name and eighteen bytes. -/
def rowReads : Nat → Nat → List Nat
  | 0, _ => []
  | n + 1, pos =>
      textReads buf pos ++ rowReads n (wrap (pos + strlen buf pos + 1 + 4 + 2 + 4 + 2 + 4 + 2))

/-- The indices from one `int` up to another. -/
def indices (i size : Int) : List Int :=
  (List.range' 0 (size - i).toNat).map fun k : Nat => i + k

/-- What `PrintInfo` reads for the type of a message. -/
def messageReads (src : SentBy) (size : Int) : List Int :=
  let type := buf.getD 0 0
  if type = 81 then ([1, 2, 3, 4] ++ textReads buf 5).map Int.ofNat
  else if type = 69 ∧ src = .backend then
    let fields := errorLoop buf (announcedLength buf) rounds 5
    ([1, 2, 3, 4] ++ fields.1).map Int.ofNat ++
      fields.2.elim [] fun pos => indices (asInt pos) size
  else if type = 84 ∧ src = .backend then
    ([1, 2, 3, 4, 5, 6] ++ rowReads buf (nfield buf).toNat 7).map Int.ofNat
  else if type = 67 ∧ src = .backend then ([1, 2, 3, 4] ++ textReads buf 5).map Int.ofNat
  else []

/-- What `PrintInfo` reads. -/
def printReads (src : SentBy) (size : Int) : List Int :=
  0 :: messageReads buf src size ++ if size > 6 then indices (size - 6) size else []

/-- The loop over the fields of an `ErrorResponse` comes to its end. -/
def LoopEnds (src : SentBy) : Prop :=
  buf.getD 0 0 = 69 ∧ src = .backend → (errorLoop buf (announcedLength buf) rounds 5).2 ≠ none

/-- The index of the fields of a `RowDescription`, an `int32_t`, has room for their number. -/
def IndexFits (src : SentBy) : Prop :=
  buf.getD 0 0 = 84 ∧ src = .backend → (nfield buf).toNat < 2147483648

instance (src : SentBy) : Decidable (LoopEnds buf src) :=
  inferInstanceAs (Decidable (_ → _))

instance (src : SentBy) : Decidable (IndexFits buf src) :=
  inferInstanceAs (Decidable (_ → _))

/-- Comparisons from the left, up to the first that fails. -/
def comparisonReads : List (Int × UInt8) → List Int
  | [] => []
  | (i, byte) :: rest =>
      i :: if 0 ≤ i ∧ buf.getD i.toNat 0 = byte then comparisonReads rest else []

/-- What `ready_for_query` reads of the response of an initiated session. -/
def readyReads (size : Int) : List Int :=
  0 :: if buf.getD 0 0 = 82 then [] else
    comparisonReads buf [(size - 6, 90), (size - 5, 0), (size - 4, 0), (size - 3, 0),
      (size - 2, 5), (size - 1, 73)]

end Printing

/-- All indices are in the buffer. -/
def Inside (buf : Bytes) (reads : List Int) : Prop :=
  ∀ i ∈ reads, 0 ≤ i ∧ i < buf.length

instance (buf : Bytes) (reads : List Int) : Decidable (Inside buf reads) :=
  inferInstanceAs (Decidable (∀ i ∈ reads, _))

end PgFort.Reads
