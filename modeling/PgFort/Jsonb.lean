import PgFort.Conn
import PgFort.JsonPrinting
import PgFort.KeyedTraversal

namespace PgFort.Jsonb

open PgFort.Framing
open PgFort.Conn
open PgFort.JsonTree
open PgFort.JsonTree.Json
open PgFort.JsonText
open PgFort.JsonPrinting

/-- A value as the JSON library compares it. A number is the decimal that it is printed as. -/
inductive Value where
  | null
  | bool (b : Bool)
  | num (q : Rat)
  | str (s : String)
  | arr (xs : List Value)
  | obj (ms : List (String × Value))

section Numerals

def naturalValue (ds : List Char) : Nat :=
  ds.foldl (fun n d => n * 10 + (d.toNat - '0'.toNat)) 0

/-- The exponent behind its letter. -/
def exponentValue : List Char → Int
  | [] => 0
  | _ :: '-' :: ds => -(naturalValue ds : Int)
  | _ :: '+' :: ds => naturalValue ds
  | _ :: ds => naturalValue ds

def scaled (m e : Int) : Rat :=
  mkRat (m * (Nat.pow 10 e.toNat : Nat)) (Nat.pow 10 (-e).toNat)

/-- The number that a numeral stands for. -/
def numeralValue (w : String) : Rat :=
  let negative := w.toList.head? = some '-'
  let ds := if negative then w.toList.tail else w.toList
  let rest := ds.dropWhile Char.isDigit
  let pointed := rest.head? = some '.'
  let fraction := if pointed then rest.tail.takeWhile Char.isDigit else []
  let exponent := if pointed then rest.tail.dropWhile Char.isDigit else rest
  let m : Int := naturalValue (ds.takeWhile Char.isDigit ++ fraction)
  scaled (if negative then -m else m) (exponentValue exponent - fraction.length)

example : numeralValue "-1.50e+2" = mkRat (-150) 1 ∧ numeralValue "25e-1" = mkRat 5 2 := by
  decide +kernel

end Numerals

mutual

/-- The value that a tree stands for. -/
def value : Json → Value
  | .null => .null
  | .bool b => .bool b
  | .num w => .num (numeralValue w)
  | .str s => .str s
  | .arr xs => .arr (valueElems xs)
  | .obj ms => .obj (valueMembers ms)

def valueElems : List Json → List Value
  | [] => []
  | x :: xs => value x :: valueElems xs

def valueMembers : List (String × Json) → List (String × Value)
  | [] => []
  | (k, v) :: ms => (k, value v) :: valueMembers ms

end

mutual

/-- The names of members and the strings of a value, at any depth. -/
def Value.strings : Value → List String
  | .str s => [s]
  | .arr xs => stringsOfValues xs
  | .obj ms => stringsOfMembers ms
  | _ => []

def Value.stringsOfValues : List Value → List String
  | [] => []
  | x :: xs => x.strings ++ stringsOfValues xs

def Value.stringsOfMembers : List (String × Value) → List String
  | [] => []
  | (k, v) :: ms => k :: (v.strings ++ stringsOfMembers ms)

end

/-- The value as it is written without filling, in UTF-8. -/
def text (j : Json) : Bytes := utf8 (String.ofList (print [] j))

/-- The text that bytes encode, if they are UTF-8. -/
def ofUtf8 (bytes : Bytes) : Option String := String.fromUTF8? ⟨bytes.toArray⟩

/-- What is PostgreSQL's own in the type `JSONB`. -/
structure JsonbType where
  /-- What the type `NUMERIC` prints for a numeral, unless it is out of its range. -/
  numeric : String → Option String
  isNumber_numeric : ∀ w u, numeric w = some u → isNumber u = true
  value_numeric : ∀ w u, numeric w = some u → numeralValue u = numeralValue w
  /-- The order of keys is not preserved. -/
  arrange : List (String × Json) → List (String × Json)
  arrange_perm : ∀ ms, (arrange ms).Perm ms
  /-- The sizes and the depth are within the limits. -/
  fits : Json → Bool

namespace JsonbType

variable (pg : JsonbType)

/-- `\u0000` is refused. -/
def storedString (s : String) : Option String :=
  if '\x00' ∈ s.toList then none else some s

mutual

/-- The tree that is read back from a column of the type `JSONB`. -/
def stored : Json → Option Json
  | .num w => (pg.numeric w).map .num
  | .str s => (storedString s).map .str
  | .arr xs => (storedElems xs).map .arr
  | .obj ms => (storedMembers ms).map fun ns => .obj (pg.arrange ns)
  | j => some j

def storedElems : List Json → Option (List Json)
  | [] => some []
  | x :: xs => do
      let y ← stored x
      let ys ← storedElems xs
      return y :: ys

def storedMembers : List (String × Json) → Option (List (String × Json))
  | [] => some []
  | (k, v) :: ms => do
      let l ← storedString k
      let w ← stored v
      let ns ← storedMembers ms
      return (l, w) :: ns

end

/-- A literal as it is read into the column, and read back from the column's text, which has a space
after each comma and colon. -/
def column (literal : Bytes) : Option Value := do
  let s ← ofUtf8 literal
  let j ← (parse s.toList).toOption
  let d ← pg.stored j
  if pg.fits j then
    let back ← (parse (print [' '] d)).toOption
    return value back
  else none

/-- The type can hold the value. -/
def Holds (j : Json) : Prop :=
  pg.fits j = true ∧ (pg.stored j).isSome = true

end JsonbType

section Encoding

theorem ofUtf8_utf8 (s : String) : ofUtf8 (utf8 s) = some s := by
  rw [ofUtf8, utf8, Array.toArray_toList]
  change String.fromUTF8? s.toUTF8 = some s
  rw [String.fromUTF8?, String.toUTF8_eq_toByteArray, dif_pos s.isValidUTF8]
  rfl

theorem mem_utf8EncodeChar {c : Char} : 39 ∈ String.utf8EncodeChar c ↔ c = '\'' := by
  have hbyte : ∀ n, (39 : UInt8) = UInt8.ofNat n ↔ n % 256 = 39 := by
    intro n
    rw [← UInt8.toNat_inj, UInt8.toNat_ofNat', eq_comm]
    rfl
  have hchar : c = '\'' ↔ c.val.toNat = 39 := by
    rw [← Char.toNat_inj]
    rfl
  rw [String.utf8EncodeChar, hchar]
  split
  · simp only [List.mem_singleton, hbyte]
    omega
  · split
    · simp only [List.mem_cons, List.not_mem_nil, or_false, hbyte]
      omega
    · split
      · simp only [List.mem_cons, List.not_mem_nil, or_false, hbyte]
        omega
      · simp only [List.mem_cons, List.not_mem_nil, or_false, hbyte]
        omega

theorem mem_utf8 {s : String} : 39 ∈ utf8 s ↔ '\'' ∈ s.toList := by
  have hbytes : utf8 s = s.toList.flatMap String.utf8EncodeChar := by
    rw [utf8, String.toUTF8_eq_toByteArray, ← String.utf8Encode_toList, List.utf8Encode]
    simp
  simp only [hbytes, List.mem_flatMap, mem_utf8EncodeChar, exists_eq_right]

end Encoding

section Strings

theorem strings_valueElems {xs : List Json} (h : ∀ x ∈ xs, (value x).strings = strings x) :
    Value.stringsOfValues (valueElems xs) = stringsOfElems xs := by
  induction xs with
  | nil => rfl
  | cons x xs ih =>
      rw [List.forall_mem_cons] at h
      rw [valueElems, Value.stringsOfValues, stringsOfElems, h.1, ih h.2]

theorem strings_valueMembers {ms : List (String × Json)}
    (h : ∀ m ∈ ms, (value m.2).strings = strings m.2) :
    Value.stringsOfMembers (valueMembers ms) = stringsOfMembers ms := by
  induction ms with
  | nil => rfl
  | cons m ms ih =>
      obtain ⟨k, v⟩ := m
      rw [List.forall_mem_cons] at h
      rw [valueMembers, Value.stringsOfMembers, stringsOfMembers, h.1, ih h.2]

theorem strings_value (j : Json) : (value j).strings = strings j := by
  induction j with
  | arr xs ih =>
      rw [value, Value.strings, strings]
      exact strings_valueElems ih
  | obj ms ih =>
      rw [value, Value.strings, strings]
      exact strings_valueMembers ih
  | _ => rfl

theorem mem_text {j : Json} (hj : numbered j = true) :
    39 ∈ text j ↔ ∃ s ∈ (value j).strings, '\'' ∈ s.toList := by
  rw [text, mem_utf8, String.toList_ofList, mem_print (by simp) hj, strings_value]
  rfl

end Strings

section Columns

open JsonbType

variable {pg : JsonbType}

/-- What is stored for a value reads as the value. -/
def Reads (pg : JsonbType) (j : Json) : Prop :=
  ∀ d, pg.stored j = some d → numbered d = true ∧ value (normal d) = value j

theorem eq_of_storedString {s t : String} (h : storedString s = some t) : t = s := by
  rw [storedString] at h
  split at h
  · exact absurd h (by simp)
  · exact (Option.some.inj h).symm

theorem reads_elems {xs ys : List Json} (h : ∀ x ∈ xs, Reads pg x)
    (hstored : pg.storedElems xs = some ys) :
    numberedElems ys = true ∧ valueElems (normalElems ys) = valueElems xs := by
  induction xs generalizing ys with
  | nil =>
      obtain rfl := Option.some.inj hstored
      exact ⟨rfl, rfl⟩
  | cons x xs ih =>
      rw [List.forall_mem_cons] at h
      rw [storedElems] at hstored
      obtain ⟨y, hy, hstored⟩ := Option.bind_eq_some_iff.mp hstored
      obtain ⟨zs, hzs, hstored⟩ := Option.bind_eq_some_iff.mp hstored
      obtain rfl := Option.some.inj hstored
      obtain ⟨hnumbered, hvalue⟩ := h.1 y hy
      obtain ⟨hrest, hvalues⟩ := ih h.2 hzs
      rw [numberedElems, hnumbered, hrest, normalElems, valueElems, valueElems, hvalue, hvalues]
      exact ⟨rfl, rfl⟩

theorem reads_members {ms ns : List (String × Json)} (h : ∀ m ∈ ms, Reads pg m.2)
    (hstored : pg.storedMembers ms = some ns) :
    ns.map Prod.fst = ms.map Prod.fst ∧ numberedMembers ns = true ∧
      valueMembers (ns.map fun m => (m.1, normal m.2)) = valueMembers ms := by
  induction ms generalizing ns with
  | nil =>
      obtain rfl := Option.some.inj hstored
      exact ⟨rfl, rfl, rfl⟩
  | cons m ms ih =>
      obtain ⟨k, v⟩ := m
      rw [List.forall_mem_cons] at h
      rw [storedMembers] at hstored
      obtain ⟨l, hl, hstored⟩ := Option.bind_eq_some_iff.mp hstored
      obtain ⟨w, hw, hstored⟩ := Option.bind_eq_some_iff.mp hstored
      obtain ⟨ks, hks, hstored⟩ := Option.bind_eq_some_iff.mp hstored
      obtain rfl := Option.some.inj hstored
      obtain rfl := eq_of_storedString hl
      obtain ⟨hnumbered, hvalue⟩ := h.1 w hw
      obtain ⟨hkeys, hrest, hvalues⟩ := ih h.2 hks
      rw [List.map_cons, List.map_cons, List.map_cons, hkeys, numberedMembers, hnumbered, hrest,
        valueMembers, valueMembers, hvalue, hvalues]
      exact ⟨rfl, rfl, rfl⟩

theorem reads_stored {j : Json} (hj : canonical j = true) : Reads pg j := by
  induction j with
  | num w =>
      intro d hd
      obtain ⟨u, hu, rfl⟩ := Option.map_eq_some_iff.mp hd
      refine ⟨pg.isNumber_numeric w u hu, ?_⟩
      rw [normal, value, value, pg.value_numeric w u hu]
      · simp
      · simp
  | str s =>
      intro d hd
      obtain ⟨t, ht, rfl⟩ := Option.map_eq_some_iff.mp hd
      rw [eq_of_storedString ht]
      exact ⟨rfl, rfl⟩
  | arr xs ih =>
      rw [canonical, canonicalElems_iff] at hj
      intro d hd
      obtain ⟨ys, hys, rfl⟩ := Option.map_eq_some_iff.mp hd
      obtain ⟨hnumbered, hvalues⟩ := reads_elems (fun x hx => ih x hx (hj x hx)) hys
      refine ⟨hnumbered, ?_⟩
      rw [normal, value, value, hvalues]
  | obj ms ih =>
      rw [canonical, Bool.and_eq_true, keysSorted_iff, canonicalMembers_iff] at hj
      intro d hd
      obtain ⟨ns, hns, rfl⟩ := Option.map_eq_some_iff.mp hd
      obtain ⟨hkeys, hnumbered, hvalues⟩ := reads_members (fun m hm => ih m hm (hj.2 m hm)) hns
      have hperm := pg.arrange_perm ns
      have hsorted : (ns.map fun m => (m.1, normal m.2)).Pairwise KeyLt := by
        rw [← hkeys, List.pairwise_map] at hj
        rw [List.pairwise_map]
        exact hj.1
      constructor
      · rw [numberedMembers_iff] at hnumbered
        exact (numberedMembers_iff _).mpr fun m hm => hnumbered m (hperm.subset hm)
      · rw [normal, normalMembers_of_perm hsorted (hperm.map _), value, value, hvalues]
  | null =>
      intro d hd
      obtain rfl := Option.some.inj hd
      exact ⟨rfl, rfl⟩
  | bool b =>
      intro d hd
      obtain rfl := Option.some.inj hd
      exact ⟨rfl, rfl⟩

theorem parse_text {j : Json} (hj : canonical j = true) : parse (print [] j) = .ok j := by
  rw [parse_print (by simp) (numbered_of_canonical hj), normal_of_canonical hj]

theorem isSpace_fill : ∀ c ∈ [' '], isSpace c = true := by
  simp [isSpace]

theorem column_text {j : Json} (hj : canonical j = true) (hholds : pg.Holds j) :
    pg.column (text j) = some (value j) := by
  obtain ⟨hfits, hsome⟩ := hholds
  obtain ⟨d, hd⟩ := Option.isSome_iff_exists.mp hsome
  obtain ⟨hnumbered, hvalue⟩ := reads_stored hj d hd
  have hback : parse (print [' '] d) = .ok (normal d) := parse_print isSpace_fill hnumbered
  rw [column, text, ofUtf8_utf8]
  simp only [Option.bind_eq_bind, Option.bind_some, String.toList_ofList, parse_text hj,
    Except.toOption, hd, hfits, if_true, hback]
  exact congrArg some hvalue

/-- A column never has another value than the one that was written. -/
theorem eq_of_column_text {j : Json} (hj : canonical j = true) {v : Value}
    (h : pg.column (text j) = some v) : v = value j := by
  rw [column, text, ofUtf8_utf8] at h
  simp only [Option.bind_eq_bind, Option.bind_some, String.toList_ofList, parse_text hj,
    Except.toOption] at h
  obtain ⟨d, hd, h⟩ := Option.bind_eq_some_iff.mp h
  obtain ⟨hnumbered, hvalue⟩ := reads_stored hj d hd
  split at h
  · rw [parse_print isSpace_fill hnumbered, Option.bind_some] at h
    exact (Option.some.inj h).symm.trans hvalue
  · exact absurd h (by simp)

end Columns

end PgFort.Jsonb
