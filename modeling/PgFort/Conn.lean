import Mathlib.Data.List.TakeWhile
import PgFort.Framing

namespace PgFort.Conn

open PgFort.Framing

/-- The text that a pointer to `char` stands for. -/
def cString (bytes : Bytes) : Bytes :=
  bytes.takeWhile (· != 0)

theorem cString_append_zero {text : Bytes} (h : ∀ byte ∈ text, byte ≠ 0) (rest : Bytes) :
    cString (text ++ 0 :: rest) = text := by
  rw [cString, List.takeWhile_append_of_pos fun byte hbyte => bne_iff_ne.mpr (h byte hbyte)]
  simp

theorem ne_zero_of_mem_cString {bytes : Bytes} : ∀ byte ∈ cString bytes, byte ≠ 0 := by
  intro byte hbyte
  have hall := List.all_takeWhile (p := (· != 0)) (l := bytes)
  rw [List.all_eq_true] at hall
  exact bne_iff_ne.mp (hall byte hbyte)

theorem cString_of_forall_ne_zero {text : Bytes} (h : ∀ byte ∈ text, byte ≠ 0) :
    cString text = text :=
  List.takeWhile_eq_self_iff.mpr fun byte hbyte => bne_iff_ne.mpr (h byte hbyte)

def utf8 (s : String) : Bytes :=
  s.toUTF8.data.toList

theorem utf8_append (s t : String) : utf8 (s ++ t) = utf8 s ++ utf8 t := by
  simp [utf8]

theorem utf8_eq_of_chars (s : String) (cs : List Char) (h : s = String.ofList cs) :
    utf8 s = cs.flatMap String.utf8EncodeChar := by
  rw [h, utf8, String.toUTF8, String.toByteArray_ofList, List.utf8Encode, List.data_toByteArray]

/-- `buf_` is what the vector holds, `dataSize` how much of it is data, and `bufSize` the room that
the next `recv` is given; zero stands for a buffer written by hand. -/
structure Buffer where
  buf : Bytes
  bufSize : Nat
  dataSize : Nat
  deriving DecidableEq, Repr

/-- `DEFAULT_SIZE`. -/
def defaultSize : Nat := 1024

/-- A size as an `int`. -/
@[irreducible] def asInt (n : Nat) : Int :=
  Int.bmod n 4294967296

theorem asInt_eq (n : Nat) : asInt n =
    if n % 4294967296 < 2147483648 then ((n % 4294967296 : Nat) : Int)
    else ((n % 4294967296 : Nat) : Int) - 4294967296 := by
  have hdef : asInt n =
      if (n : Int) % 4294967296 < (4294967296 + 1) / 2 then (n : Int) % 4294967296
      else (n : Int) % 4294967296 - 4294967296 := by
    unfold asInt
    exact Int.bmod_def n 4294967296
  omega

theorem asInt_of_lt {n : Nat} (h : n < 2147483648) : asInt n = n := by
  rw [asInt_eq, if_pos (by omega)]
  omega

theorem asInt_le (n : Nat) : asInt n ≤ n := by
  rw [asInt_eq]
  split
  · omega
  · omega

/-- `std::vector::resize`: what is added is zero. -/
def resize (size : Nat) (buf : Bytes) : Bytes :=
  buf.take size ++ List.replicate (size - buf.length) 0

namespace Buffer

/-- The constructor of `Buffer`. -/
def new : Buffer where
  buf := resize (2 * defaultSize) []
  bufSize := defaultSize
  dataSize := 0

/-- `Data()`, as far as it has been received. -/
def data (b : Buffer) : Bytes :=
  b.buf.take b.dataSize

/-- `Size()`, which the callers take for an `int`. -/
def size (b : Buffer) : Int :=
  asInt b.dataSize

/-- The byte at an index from `Data()`; one outside of the vector is taken for zero. -/
def byteAt (b : Buffer) (i : Nat) : UInt8 :=
  b.buf.getD i 0

/-- The text at an index from `Data()`. -/
def textAt (b : Buffer) (i : Nat) : Bytes :=
  cString (b.buf.drop i)

/-- Make a buffer that was written by hand fit to receive. -/
def restore (b : Buffer) : Buffer :=
  if b.bufSize = 0 then
    let bufSize := if b.dataSize > defaultSize then defaultSize * 2 else defaultSize
    { b with buf := resize (bufSize * 2) b.buf, bufSize }
  else b

/-- What `recv` returned goes behind the data; the buffer is doubled when half full. -/
def receive (b : Buffer) (chunk : Bytes) : Buffer :=
  let buf := b.buf.take b.dataSize ++ chunk ++ b.buf.drop (b.dataSize + chunk.length)
  let dataSize := b.dataSize + chunk.length
  if dataSize > b.bufSize then
    { buf := resize (b.bufSize * 2 * 2) buf, bufSize := b.bufSize * 2, dataSize }
  else
    { buf, bufSize := b.bufSize, dataSize }

end Buffer

/-- How a series of `recv` calls comes to its end. -/
inductive RecvEnd where
  | wouldBlock
  | closed
  | failed (errno : Int)
  deriving DecidableEq, Repr

/-- `RecvFrom`, given the chunks that `recv` returns before it returns none. What it returns is an
`int`. -/
def Buffer.recvFrom (chunks : List Bytes) (stop : RecvEnd) (b : Buffer) : Buffer × Int :=
  let b := chunks.foldl Buffer.receive b.restore
  match stop with
  | .wouldBlock => (b, b.size)
  | .closed => (b, b.size)
  | .failed _ => (b, -1)

/-- `Request::SetQuery`. -/
def setQuery (q : Bytes) : Buffer :=
  let text := cString q
  let buf := UInt8.ofNat 81 :: (bigEndian (text.length + 5) ++ text ++ [0])
  { buf, bufSize := 0, dataSize := buf.length }

/-- An error as the fields of an `ErrorResponse`; without fields it is none. -/
structure Error where
  fields : List (String × Bytes)
  deriving DecidableEq, Repr

namespace Error

def noError : Error := ⟨[]⟩

/-- `operator bool`. -/
def isError (e : Error) : Bool :=
  !e.fields.isEmpty

/-- The field as a C string: what stands behind a NUL is not read. -/
def field? (e : Error) (key : String) : Option Bytes :=
  (e.fields.lookup key).map cString

end Error

/-- The fields in the order of a `std::map`, each after the byte of its key. -/
def errorFields (fields : List (UInt8 × Bytes)) : Bytes :=
  fields.flatMap fun f => f.1 :: (f.2 ++ [0])

/-- `Response::SetError`. It asserts the fields that are always present. -/
def setError (e : Error) : Option Buffer := do
  let s ← e.field? "S"
  let c ← e.field? "C"
  let m ← e.field? "M"
  let optional (key : String) (byte : UInt8) : List (UInt8 × Bytes) :=
    (e.field? key).toList.map fun v => (byte, v)
  let fields := errorFields ([(67, c), (77, m), (83, s), (86, s)] ++
    (optional "F" 70 ++ optional "L" 76 ++ optional "P" 80 ++ optional "R" 82))
  let buf := UInt8.ofNat 69 :: (bigEndian (fields.length + 5) ++ fields ++ [0]) ++
    [90, 0, 0, 0, 5, 73]
  return { buf, bufSize := 0, dataSize := buf.length }

end PgFort.Conn
