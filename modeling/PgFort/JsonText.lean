import Mathlib.Order.Basic
import Mathlib.Data.String.Basic
import PgFort.JsonTree

/-!
JSON text: a lexer and a parser, both as machines that take one symbol at a
time, and the token sequence of a value, which the parser inverts.
-/

namespace PgFort.JsonText

open PgFort.JsonTree

inductive Token where
  | lbrace
  | rbrace
  | lbracket
  | rbracket
  | colon
  | comma
  | str (s : String)
  /-- A literal name or a number, not yet classified. -/
  | word (w : String)
  deriving DecidableEq, Repr

/-- What the lexer is inside of. Accumulated characters are newest first. -/
inductive Mode where
  | idle
  | str (acc : List Char)
  | esc (acc : List Char)
  /-- In a `\u` escape with the value of the digits so far; `high` is the
  leading surrogate when this is the second escape of a pair. -/
  | hex (acc : List Char) (high : Option Nat) (digits value : Nat)
  /-- After a leading surrogate, before the `u` of the escape that must follow. -/
  | low (acc : List Char) (high : Nat) (backslash : Bool)
  | word (acc : List Char)
  | fail
  deriving DecidableEq, Repr

def isSpace (c : Char) : Bool :=
  c == ' ' || c == '\t' || c == '\n' || c == '\r'

/-- The characters that are tokens by themselves. -/
def punctuation (c : Char) : Option Token :=
  if c = '\x7b' then some .lbrace
  else if c = '\x7d' then some .rbrace
  else if c = '[' then some .lbracket
  else if c = ']' then some .rbracket
  else if c = ':' then some .colon
  else if c = ',' then some .comma
  else none

/-- Characters that may not stand for themselves inside a JSON string. -/
def isSpecial (c : Char) : Bool :=
  c == '"' || c == '\\' || decide (c.toNat < 0x20)

def hexDigit (c : Char) : Option Nat :=
  if '0' ≤ c ∧ c ≤ '9' then some (c.toNat - '0'.toNat)
  else if 'a' ≤ c ∧ c ≤ 'f' then some (c.toNat - 'a'.toNat + 10)
  else if 'A' ≤ c ∧ c ≤ 'F' then some (c.toNat - 'A'.toNat + 10)
  else none

/-- The character of a single-letter escape. -/
def shortEscape (c : Char) : Option Char :=
  if c = '"' ∨ c = '\\' ∨ c = '/' then some c
  else if c = 'b' then some '\x08'
  else if c = 'f' then some '\x0c'
  else if c = 'n' then some '\n'
  else if c = 'r' then some '\r'
  else if c = 't' then some '\t'
  else none

/-- What the four digits of a `\u` escape lead to. -/
def finishHex (acc : List Char) (high : Option Nat) (v : Nat) : Mode :=
  match high with
  | none =>
      if 0xd800 ≤ v ∧ v < 0xdc00 then .low acc v false
      else if 0xdc00 ≤ v ∧ v < 0xe000 then .fail
      else .str (Char.ofNat v :: acc)
  | some h =>
      if 0xdc00 ≤ v ∧ v < 0xe000 then
        .str (Char.ofNat (0x10000 + (h - 0xd800) * 0x400 + (v - 0xdc00)) :: acc)
      else .fail

/-- One character outside of a string; `pending` is the word that ends here
if the character cannot continue it. -/
def lexOutside (pending : Option (List Char)) (c : Char) : List Token × Mode :=
  let flushed := pending.toList.map fun acc => Token.word (String.ofList acc.reverse)
  if isSpace c then (flushed, .idle)
  else if c = '"' then (flushed, .str [])
  else
    match punctuation c with
    | some t => (flushed ++ [t], .idle)
    | none => ([], .word (c :: pending.getD []))

/-- One character: the tokens it completes and the mode after it. -/
def lexStep : Mode → Char → List Token × Mode
  | .idle, c => lexOutside none c
  | .word acc, c => lexOutside (some acc) c
  | .str acc, c =>
      if c = '"' then ([.str (String.ofList acc.reverse)], .idle)
      else if c = '\\' then ([], .esc acc)
      else if isSpecial c then ([], .fail)
      else ([], .str (c :: acc))
  | .esc acc, c =>
      if c = 'u' then ([], .hex acc none 0 0)
      else
        match shortEscape c with
        | some d => ([], .str (d :: acc))
        | none => ([], .fail)
  | .hex acc high digits value, c =>
      match hexDigit c with
      | none => ([], .fail)
      | some d =>
          if digits = 3 then ([], finishHex acc high (value * 16 + d))
          else ([], .hex acc high (digits + 1) (value * 16 + d))
  | .low acc high false, c =>
      if c = '\\' then ([], .low acc high true) else ([], .fail)
  | .low acc high true, c =>
      if c = 'u' then ([], .hex acc (some high) 0 0) else ([], .fail)
  | .fail, _ => ([], .fail)

/-- The tokens of a text, and where the lexer is at its end. -/
def scan : Mode → List Char → List Token × Mode
  | m, [] => ([], m)
  | m, c :: cs =>
      let r := lexStep m c
      let rest := scan r.2 cs
      (r.1 ++ rest.1, rest.2)

/-- Where the parser stands: what must come next, inside of which containers. -/
inductive Frame where
  | arr (done : List Json)
  | obj (done : List (String × Json)) (key : String)

inductive State where
  | value (stack : List Frame)
  | elemOrClose (stack : List Frame)
  | keyOrClose (stack : List Frame)
  | key (done : List (String × Json)) (stack : List Frame)
  | colon (done : List (String × Json)) (key : String) (stack : List Frame)
  | afterElem (done : List Json) (stack : List Frame)
  | afterMember (done : List (String × Json)) (stack : List Frame)
  | done (j : Json)
  | fail

/-- The order of the keys of an object: lexicographic by characters. -/
def keyLt (k l : String) : Bool :=
  decide (k.toList < l.toList)

/-- Put a member into an object kept in key order; a repeated key takes the
new value. -/
def insertMember (k : String) (v : Json) : List (String × Json) → List (String × Json)
  | [] => [(k, v)]
  | (l, w) :: ms =>
      if k = l then (k, v) :: ms
      else if keyLt k l then (k, v) :: (l, w) :: ms
      else (l, w) :: insertMember k v ms

/-- A completed value goes to the innermost open container. -/
def emit (j : Json) : List Frame → State
  | [] => .done j
  | .arr xs :: fs => .afterElem (xs ++ [j]) fs
  | .obj ms k :: fs => .afterMember (insertMember k j ms) fs

def isDigits : List Char → Bool
  | [] => false
  | cs => cs.all Char.isDigit

/-- An optional exponent, up to the end of the number. -/
def isExponent : List Char → Bool
  | [] => true
  | c :: cs =>
      (c == 'e' || c == 'E') &&
        match cs with
        | '+' :: ds => isDigits ds
        | '-' :: ds => isDigits ds
        | ds => isDigits ds

/-- An optional fraction and an optional exponent. -/
def isFraction : List Char → Bool
  | '.' :: cs =>
      isDigits (cs.takeWhile Char.isDigit) && isExponent (cs.dropWhile Char.isDigit)
  | cs => isExponent cs

/-- The numbers of JSON: a sign, digits, a fraction and an exponent. -/
def isNumber (w : String) : Bool :=
  let cs := w.toList
  let ds := if cs.head? = some '-' then cs.tail else cs
  match ds with
  | '0' :: rest => isFraction rest
  | _ => isDigits (ds.takeWhile Char.isDigit) && isFraction (ds.dropWhile Char.isDigit)

/-- The value a bare word stands for. -/
def scalar (w : String) : Option Json :=
  if w = "null" then some .null
  else if w = "true" then some (.bool true)
  else if w = "false" then some (.bool false)
  else if isNumber w then some (.num w)
  else none

/-- A token where a value must stand. -/
def valueStep (fs : List Frame) : Token → State
  | .str s => emit (.str s) fs
  | .word w =>
      match scalar w with
      | some j => emit j fs
      | none => .fail
  | .lbracket => .elemOrClose fs
  | .lbrace => .keyOrClose fs
  | _ => .fail

/-- The parser takes one token. -/
def parseStep : State → Token → State
  | .value fs, t => valueStep fs t
  | .elemOrClose fs, t =>
      if t = .rbracket then emit (.arr []) fs else valueStep (.arr [] :: fs) t
  | .keyOrClose fs, .rbrace => emit (.obj []) fs
  | .keyOrClose fs, .str k => .colon [] k fs
  | .key ms fs, .str k => .colon ms k fs
  | .colon ms k fs, .colon => .value (.obj ms k :: fs)
  | .afterElem xs fs, .comma => .value (.arr xs :: fs)
  | .afterElem xs fs, .rbracket => emit (.arr xs) fs
  | .afterMember ms fs, .comma => .key ms fs
  | .afterMember ms fs, .rbrace => emit (.obj ms) fs
  | _, _ => .fail

def parseTokens (s : State) (ts : List Token) : State :=
  ts.foldl parseStep s

/-- `json::parse`: the value of a text, if the text is one value. -/
def parse (text : List Char) : Except Json.Error Json :=
  match scan .idle (text ++ ['\n']) with
  | (ts, .idle) =>
      match parseTokens (.value []) ts with
      | .done j => .ok j
      | _ => .error .parse
  | _ => .error .parse

theorem scan_append (m : Mode) (xs ys : List Char) :
    scan m (xs ++ ys) =
      ((scan m xs).1 ++ (scan (scan m xs).2 ys).1, (scan (scan m xs).2 ys).2) := by
  induction xs generalizing m with
  | nil => rfl
  | cons c xs ih => simp [scan, ih]

/-- Text without special characters stands for itself inside a string. -/
def Plain (cs : List Char) : Prop := ∀ c ∈ cs, isSpecial c = false

instance (cs : List Char) : Decidable (Plain cs) :=
  List.decidableBAll (fun c => isSpecial c = false) cs

theorem Plain.append {xs ys : List Char} (hx : Plain xs) (hy : Plain ys) :
    Plain (xs ++ ys) := by
  intro c hc
  rcases List.mem_append.mp hc with hc | hc
  · exact hx c hc
  · exact hy c hc

theorem lexStep_str_of_not_special {c : Char} (acc : List Char)
    (hc : isSpecial c = false) : lexStep (.str acc) c = ([], .str (c :: acc)) := by
  simp only [isSpecial, Bool.or_eq_false_iff, beq_eq_false_iff_ne] at hc
  simp [lexStep, isSpecial, hc.1.1, hc.1.2, hc.2]

theorem scan_plain (acc cs : List Char) (h : Plain cs) :
    scan (.str acc) cs = ([], .str (cs.reverse ++ acc)) := by
  induction cs generalizing acc with
  | nil => rfl
  | cons c cs ih =>
      rw [scan, lexStep_str_of_not_special acc (h c (by simp))]
      simp [ih (c :: acc) fun d hd => h d (by simp [hd])]

/-- A string in which the first text is written has the second one there. -/
def ReadAs (cs read : List Char) : Prop :=
  scan (.str []) cs = ([], .str read.reverse)

theorem readAs_of_plain {cs : List Char} (h : Plain cs) : ReadAs cs cs := by
  rw [ReadAs, scan_plain [] cs h, List.append_nil]

theorem ReadAs.append_plain {cs read suffix : List Char} (h : ReadAs cs read)
    (hsuffix : Plain suffix) : ReadAs (cs ++ suffix) (read ++ suffix) := by
  rw [ReadAs, scan_append, h, scan_plain _ suffix hsuffix, List.reverse_append, List.append_nil]

theorem scan_readAs_quote {cs read : List Char} (h : ReadAs cs read) :
    scan (.str []) (cs ++ ['"']) = ([.str (String.ofList read)], .idle) := by
  rw [scan_append, h]
  simp [scan, lexStep]

section Printing

open Json

mutual

def tokens : Json → List Token
  | .null => [.word "null"]
  | .bool true => [.word "true"]
  | .bool false => [.word "false"]
  | .num w => [.word w]
  | .str s => [.str s]
  | .arr [] => [.lbracket, .rbracket]
  | .arr (x :: xs) => .lbracket :: (tokens x ++ elemTokens xs)
  | .obj [] => [.lbrace, .rbrace]
  | .obj ((k, v) :: ms) => .lbrace :: .str k :: .colon :: (tokens v ++ memberTokens ms)

/-- The elements after the first, up to the closing bracket. -/
def elemTokens : List Json → List Token
  | [] => [.rbracket]
  | x :: xs => .comma :: (tokens x ++ elemTokens xs)

def memberTokens : List (String × Json) → List Token
  | [] => [.rbrace]
  | (k, v) :: ms => .comma :: .str k :: .colon :: (tokens v ++ memberTokens ms)

end

/-- The keys are in order, and none is there twice. -/
def keysSorted : List String → Bool
  | [] => true
  | k :: ks => ks.all (keyLt k) && keysSorted ks

mutual

/-- Members in strict key order and numbers that are numbers: what a value
read by `parse` satisfies. -/
def canonical : Json → Bool
  | .num w => isNumber w
  | .arr xs => canonicalElems xs
  | .obj ms => keysSorted (ms.map Prod.fst) && canonicalMembers ms
  | _ => true

def canonicalElems : List Json → Bool
  | [] => true
  | x :: xs => canonical x && canonicalElems xs

def canonicalMembers : List (String × Json) → Bool
  | [] => true
  | (_, v) :: ms => canonical v && canonicalMembers ms

end

theorem canonicalElems_iff (xs : List Json) :
    canonicalElems xs = true ↔ ∀ x ∈ xs, canonical x = true := by
  induction xs with
  | nil => simp [canonicalElems]
  | cons x xs ih => simp [canonicalElems, ih]

theorem canonicalMembers_iff (ms : List (String × Json)) :
    canonicalMembers ms = true ↔ ∀ a ∈ ms, canonical a.2 = true := by
  induction ms with
  | nil => simp [canonicalMembers]
  | cons a ms ih => simp [canonicalMembers, ih]

end Printing

section RoundTrip

open Json

theorem parseTokens_cons (s : State) (t : Token) (ts : List Token) :
    parseTokens s (t :: ts) = parseTokens (parseStep s t) ts := rfl

theorem scalar_of_isNumber {w : String} (h : isNumber w = true) :
    scalar w = some (.num w) := by
  have hnull : w ≠ "null" := by
    rintro rfl
    exact absurd h (by decide)
  have htrue : w ≠ "true" := by
    rintro rfl
    exact absurd h (by decide)
  have hfalse : w ≠ "false" := by
    rintro rfl
    exact absurd h (by decide)
  simp [scalar, hnull, htrue, hfalse, h]

theorem insertMember_of_lt (k : String) (v : Json) (ms : List (String × Json))
    (h : ∀ a ∈ ms, keyLt a.1 k = true) : insertMember k v ms = ms ++ [(k, v)] := by
  induction ms with
  | nil => rfl
  | cons a ms ih =>
      have hlt : a.1.toList < k.toList := of_decide_eq_true (h a (by simp))
      have hne : k ≠ a.1 := by
        rintro rfl
        exact List.lt_irrefl _ hlt
      have hge : keyLt k a.1 = false := decide_eq_false (List.lt_asymm hlt)
      rw [insertMember, if_neg hne, hge, if_neg (by simp),
        ih fun b hb => h b (by simp [hb])]
      rfl

theorem keysSorted_iff (ks : List String) :
    keysSorted ks = true ↔ ks.Pairwise (fun k l => keyLt k l = true) := by
  induction ks with
  | nil => simp [keysSorted]
  | cons k ks ih => simp [keysSorted, ih]

/-- No value starts with a closing bracket, so after an opening one the parser
takes it as the first element. -/
theorem parseTokens_elemOrClose (x : Json) (fs : List Frame) (rest : List Token) :
    parseTokens (.elemOrClose fs) (tokens x ++ rest) =
      parseTokens (.value (.arr [] :: fs)) (tokens x ++ rest) := by
  have hhead : ∃ t ts, tokens x = t :: ts ∧ t ≠ .rbracket := by
    cases x with
    | bool b => cases b <;> simp [tokens]
    | arr xs => cases xs <;> simp [tokens]
    | obj ms => cases ms <;> simp [tokens]
    | _ => simp [tokens]
  obtain ⟨t, ts, htokens, ht⟩ := hhead
  simp [htokens, parseTokens_cons, parseStep, ht]

mutual

/-- What a parser makes of the tokens: the members of each object come in key order. -/
def normal : Json → Json
  | .arr xs => .arr (normalElems xs)
  | .obj ms => .obj (normalMembers [] ms)
  | j => j

def normalElems : List Json → List Json
  | [] => []
  | x :: xs => normal x :: normalElems xs

def normalMembers : List (String × Json) → List (String × Json) → List (String × Json)
  | done, [] => done
  | done, (k, v) :: ms => normalMembers (insertMember k (normal v) done) ms

end

mutual

/-- The numbers are numbers. -/
def numbered : Json → Bool
  | .num w => isNumber w
  | .arr xs => numberedElems xs
  | .obj ms => numberedMembers ms
  | _ => true

def numberedElems : List Json → Bool
  | [] => true
  | x :: xs => numbered x && numberedElems xs

def numberedMembers : List (String × Json) → Bool
  | [] => true
  | (_, v) :: ms => numbered v && numberedMembers ms

end

theorem numberedElems_iff (xs : List Json) :
    numberedElems xs = true ↔ ∀ x ∈ xs, numbered x = true := by
  induction xs with
  | nil => simp [numberedElems]
  | cons x xs ih => simp [numberedElems, ih]

theorem numberedMembers_iff (ms : List (String × Json)) :
    numberedMembers ms = true ↔ ∀ m ∈ ms, numbered m.2 = true := by
  induction ms with
  | nil => simp [numberedMembers]
  | cons m ms ih => simp [numberedMembers, ih]

theorem parseTokens_elemTokens {xs : List Json}
    (h : ∀ x ∈ xs, ∀ fs rest,
      parseTokens (.value fs) (tokens x ++ rest) = parseTokens (emit (normal x) fs) rest)
    (done : List Json) (fs : List Frame) (rest : List Token) :
    parseTokens (.afterElem done fs) (elemTokens xs ++ rest) =
      parseTokens (emit (.arr (done ++ normalElems xs)) fs) rest := by
  induction xs generalizing done with
  | nil => simp [elemTokens, normalElems, parseTokens_cons, parseStep]
  | cons x xs ih =>
      simp only [elemTokens, List.cons_append, List.append_assoc, parseTokens_cons, parseStep]
      rw [h x (by simp), emit, ih fun y hy => h y (by simp [hy])]
      simp [normalElems]

theorem parseTokens_memberTokens {ms : List (String × Json)}
    (h : ∀ a ∈ ms, ∀ fs rest,
      parseTokens (.value fs) (tokens a.2 ++ rest) = parseTokens (emit (normal a.2) fs) rest)
    (done : List (String × Json)) (fs : List Frame) (rest : List Token) :
    parseTokens (.afterMember done fs) (memberTokens ms ++ rest) =
      parseTokens (emit (.obj (normalMembers done ms)) fs) rest := by
  induction ms generalizing done with
  | nil => simp [memberTokens, normalMembers, parseTokens_cons, parseStep]
  | cons a ms ih =>
      obtain ⟨k, v⟩ := a
      simp only [memberTokens, List.cons_append, List.append_assoc, parseTokens_cons, parseStep]
      rw [h (k, v) (by simp), emit, ih fun b hb => h b (by simp [hb])]
      rfl

theorem parseTokens_tokens {j : Json} (hj : numbered j = true)
    (fs : List Frame) (rest : List Token) :
    parseTokens (.value fs) (tokens j ++ rest) = parseTokens (emit (normal j) fs) rest := by
  induction j generalizing fs rest with
  | null => rfl
  | bool b => cases b <;> rfl
  | num w =>
      simp [tokens, normal, parseTokens_cons, parseStep, valueStep, scalar_of_isNumber hj]
  | str s => rfl
  | arr xs ih =>
      rw [numbered, numberedElems_iff] at hj
      cases xs with
      | nil => simp [tokens, normal, normalElems, parseTokens_cons, parseStep, valueStep]
      | cons x xs =>
          simp only [tokens, List.cons_append, List.append_assoc, parseTokens_cons,
            parseStep, valueStep]
          rw [parseTokens_elemOrClose, ih x (by simp) (hj x (by simp)), emit]
          exact parseTokens_elemTokens
            (fun y hy => ih y (by simp [hy]) (hj y (by simp [hy]))) _ _ _
  | obj ms ih =>
      rw [numbered, numberedMembers_iff] at hj
      cases ms with
      | nil => simp [tokens, normal, normalMembers, parseTokens_cons, parseStep, valueStep]
      | cons a ms =>
          obtain ⟨k, v⟩ := a
          simp only [tokens, List.cons_append, List.append_assoc, parseTokens_cons,
            parseStep, valueStep]
          rw [ih (k, v) (by simp) (hj (k, v) (by simp)), emit]
          exact parseTokens_memberTokens
            (fun b hb => ih b (by simp [hb]) (hj b (by simp [hb]))) [(k, normal v)] _ _

theorem normalElems_eq_self {xs : List Json} (h : ∀ x ∈ xs, normal x = x) : normalElems xs = xs := by
  induction xs with
  | nil => rfl
  | cons x xs ih =>
      rw [List.forall_mem_cons] at h
      rw [normalElems, h.1, ih h.2]

theorem normalMembers_of_sorted {ms done : List (String × Json)} (h : ∀ a ∈ ms, normal a.2 = a.2)
    (hsorted : ((done ++ ms).map Prod.fst).Pairwise fun k l => keyLt k l = true) :
    normalMembers done ms = done ++ ms := by
  induction ms generalizing done with
  | nil => rw [normalMembers, List.append_nil]
  | cons a ms ih =>
      obtain ⟨k, v⟩ := a
      rw [List.forall_mem_cons] at h
      have hlt : ∀ b ∈ done, keyLt b.1 k = true := by
        intro b hb
        rw [List.map_append, List.pairwise_append] at hsorted
        exact hsorted.2.2 b.1 (List.mem_map_of_mem hb) k (by simp)
      rw [normalMembers, h.1, insertMember_of_lt k v done hlt, ih h.2 (by simpa using hsorted),
        List.append_assoc]
      rfl

theorem numbered_of_canonical {j : Json} (hj : canonical j = true) : numbered j = true := by
  induction j with
  | arr xs ih =>
      rw [canonical, canonicalElems_iff] at hj
      exact (numberedElems_iff xs).mpr fun x hx => ih x hx (hj x hx)
  | obj ms ih =>
      rw [canonical, Bool.and_eq_true, canonicalMembers_iff] at hj
      exact (numberedMembers_iff ms).mpr fun a ha => ih a ha (hj.2 a ha)
  | num w => exact hj
  | _ => rfl

theorem normal_of_canonical {j : Json} (hj : canonical j = true) : normal j = j := by
  induction j with
  | arr xs ih =>
      rw [canonical, canonicalElems_iff] at hj
      rw [normal, normalElems_eq_self fun x hx => ih x hx (hj x hx)]
  | obj ms ih =>
      rw [canonical, Bool.and_eq_true, keysSorted_iff, canonicalMembers_iff] at hj
      have hmembers := @normalMembers_of_sorted ms [] (fun a ha => ih a ha (hj.2 a ha)) hj.1
      rw [normal, hmembers, List.nil_append]
  | _ => rfl

theorem parse_of_scan_numbered {text : List Char} {j : Json} (hj : numbered j = true)
    (h : scan .idle (text ++ ['\n']) = (tokens j, .idle)) : parse text = .ok (normal j) := by
  have hrun : parseTokens (.value []) (tokens j) = .done (normal j) := by
    simpa [parseTokens, emit] using parseTokens_tokens hj [] []
  simp [parse, h, hrun]

theorem parse_of_scan {text : List Char} {j : Json} (hj : canonical j = true)
    (h : scan .idle (text ++ ['\n']) = (tokens j, .idle)) : parse text = .ok j := by
  rw [parse_of_scan_numbered (numbered_of_canonical hj) h, normal_of_canonical hj]

end RoundTrip

section Strings

open Json

/-- The value has this string in it somewhere. -/
def HasString (j : Json) (s : String) : Prop :=
  ∃ p, j.get? p = some (.str s)

theorem hasString_str {s r : String} : HasString (.str s) r ↔ r = s := by
  constructor
  · rintro ⟨p, hp⟩
    cases p with
    | nil => simpa using hp.symm
    | cons e p => cases e <;> simp [get?, child?] at hp
  · rintro rfl
    exact ⟨[], rfl⟩

theorem hasString_arr {xs : List Json} {s : String} :
    HasString (.arr xs) s ↔ ∃ x ∈ xs, HasString x s := by
  constructor
  · rintro ⟨p, hp⟩
    cases p with
    | nil => simp at hp
    | cons e p =>
        rw [get?_cons, Option.bind_eq_some_iff] at hp
        obtain ⟨x, hx, hp⟩ := hp
        cases e with
        | elem i =>
            obtain ⟨ys, hys, hget⟩ := child?_elem_eq_some.mp hx
            cases hys
            exact ⟨x, List.mem_of_getElem? hget, p, hp⟩
        | member i k => simp [child?] at hx
  · rintro ⟨x, hx, p, hp⟩
    obtain ⟨i, hi⟩ := List.mem_iff_getElem?.mp hx
    refine ⟨.elem i :: p, ?_⟩
    rw [get?_cons, child?_elem_eq_some.mpr ⟨xs, rfl, hi⟩]
    exact hp

theorem hasString_obj {ms : List (String × Json)} {s : String} :
    HasString (.obj ms) s ↔ ∃ a ∈ ms, HasString a.2 s := by
  constructor
  · rintro ⟨p, hp⟩
    cases p with
    | nil => simp at hp
    | cons e p =>
        rw [get?_cons, Option.bind_eq_some_iff] at hp
        obtain ⟨x, hx, hp⟩ := hp
        cases e with
        | elem i => simp [child?] at hx
        | member i k =>
            obtain ⟨ns, hns, hget⟩ := child?_member_eq_some.mp hx
            cases hns
            exact ⟨(k, x), List.mem_of_getElem? hget, p, hp⟩
  · rintro ⟨⟨k, x⟩, hx, p, hp⟩
    obtain ⟨i, hi⟩ := List.mem_iff_getElem?.mp hx
    refine ⟨.member i k :: p, ?_⟩
    rw [get?_cons, child?_member_eq_some.mpr ⟨ms, rfl, hi⟩]
    exact hp

theorem not_hasString_of_scalar {w : String} {j : Json} {s : String}
    (h : scalar w = some j) : ¬ HasString j s := by
  rintro ⟨p, hp⟩
  have hprim : j = .null ∨ (∃ b, j = .bool b) ∨ ∃ t, j = .num t := by
    simp only [scalar] at h
    split at h
    · exact .inl (Option.some.inj h).symm
    · split at h
      · exact .inr (.inl ⟨true, (Option.some.inj h).symm⟩)
      · split at h
        · exact .inr (.inl ⟨false, (Option.some.inj h).symm⟩)
        · split at h
          · exact .inr (.inr ⟨w, (Option.some.inj h).symm⟩)
          · simp at h
  rcases hprim with rfl | ⟨b, rfl⟩ | ⟨t, rfl⟩ <;>
    cases p with
    | nil => simp at hp
    | cons e p => cases e <;> simp [get?, child?] at hp

/-- The values a frame and a state have completed so far. -/
def Frame.values : Frame → List Json
  | .arr done => done
  | .obj done _ => done.map Prod.snd

/-- The values that the parser has made so far. -/
def State.values : State → List Json
  | .value fs | .elemOrClose fs | .keyOrClose fs => fs.flatMap Frame.values
  | .key ms fs | .colon ms _ fs | .afterMember ms fs =>
      ms.map Prod.snd ++ fs.flatMap Frame.values
  | .afterElem xs fs => xs ++ fs.flatMap Frame.values
  | .done j => [j]
  | .fail => []

/-- Some value of the state has the string `s` in it. -/
def State.HasString (st : State) (s : String) : Prop :=
  ∃ x ∈ st.values, JsonText.HasString x s

theorem mem_insertMember {k : String} {v : Json} {ms : List (String × Json)}
    {a : String × Json} (h : a ∈ insertMember k v ms) : a = (k, v) ∨ a ∈ ms := by
  induction ms with
  | nil => simpa [insertMember] using h
  | cons b ms ih =>
      rw [insertMember] at h
      split at h
      · rcases List.mem_cons.mp h with h | h
        · exact .inl h
        · exact .inr (List.mem_cons_of_mem _ h)
      · split at h
        · exact List.mem_cons.mp h
        · rcases List.mem_cons.mp h with h | h
          · exact .inr (h ▸ List.mem_cons_self)
          · exact (ih h).imp_right (List.mem_cons_of_mem _)

theorem hasString_emit {j : Json} {fs : List Frame} {s : String}
    (h : (emit j fs).HasString s) :
    HasString j s ∨ ∃ x ∈ fs.flatMap Frame.values, HasString x s := by
  obtain ⟨x, hx, hs⟩ := h
  cases fs with
  | nil =>
      obtain rfl : x = j := by simpa [emit, State.values] using hx
      exact .inl hs
  | cons f fs =>
      cases f with
      | arr xs =>
          simp only [emit, State.values, List.mem_append, List.mem_singleton] at hx
          rcases hx with (hx | rfl) | hx
          · exact .inr ⟨x, by simp [Frame.values, hx], hs⟩
          · exact .inl hs
          · exact .inr ⟨x, by simp [List.flatMap_cons, hx], hs⟩
      | obj ms k =>
          simp only [emit, State.values, List.mem_append, List.mem_map] at hx
          rcases hx with ⟨a, ha, rfl⟩ | hx
          · rcases mem_insertMember ha with rfl | ha
            · exact .inl hs
            · exact .inr ⟨a.2, by
                rw [List.flatMap_cons, List.mem_append]
                exact .inl (List.mem_map_of_mem ha), hs⟩
          · exact .inr ⟨x, by simp [List.flatMap_cons, hx], hs⟩

theorem hasString_valueStep {fs : List Frame} {t : Token} {s : String}
    (h : (valueStep fs t).HasString s) :
    t = .str s ∨ ∃ x ∈ fs.flatMap Frame.values, HasString x s := by
  cases t with
  | str r =>
      rcases hasString_emit h with h | h
      · exact .inl (by rw [hasString_str.mp h])
      · exact .inr h
  | word w =>
      rw [valueStep] at h
      cases hw : scalar w with
      | none => simp [hw, State.HasString, State.values] at h
      | some j =>
          rw [hw] at h
          rcases hasString_emit h with h | h
          · exact absurd h (not_hasString_of_scalar hw)
          · exact .inr h
  | lbracket => exact .inr h
  | lbrace => exact .inr h
  | _ => simp [valueStep, State.HasString, State.values] at h

theorem hasString_parseStep {st : State} {t : Token} {s : String}
    (h : (parseStep st t).HasString s) : st.HasString s ∨ t = .str s := by
  cases st with
  | value fs => exact (hasString_valueStep h).symm
  | elemOrClose fs =>
      rw [parseStep] at h
      split at h
      · rcases hasString_emit h with h | h
        · simp [hasString_arr] at h
        · exact .inl h
      · rcases hasString_valueStep h with h | ⟨x, hx, hs⟩
        · exact .inr h
        · exact .inl ⟨x, by simpa [Frame.values, State.values] using hx, hs⟩
  | keyOrClose fs =>
      cases t with
      | rbrace =>
          rcases hasString_emit h with h | h
          · simp [hasString_obj] at h
          · exact .inl h
      | str k => exact .inl (by simpa [parseStep, State.HasString, State.values] using h)
      | _ => simp [parseStep, State.HasString, State.values] at h
  | key ms fs =>
      cases t with
      | str k => exact .inl h
      | _ => simp [parseStep, State.HasString, State.values] at h
  | colon ms k fs =>
      cases t with
      | colon =>
          exact .inl (by simpa [parseStep, State.HasString, State.values, Frame.values] using h)
      | _ => simp [parseStep, State.HasString, State.values] at h
  | afterElem xs fs =>
      cases t with
      | comma =>
          exact .inl (by simpa [parseStep, State.HasString, State.values, Frame.values] using h)
      | rbracket =>
          rcases hasString_emit h with h | ⟨x, hx, hs⟩
          · obtain ⟨x, hx, hs⟩ := hasString_arr.mp h
            exact .inl ⟨x, by simp [State.values, hx], hs⟩
          · exact .inl ⟨x, by rw [State.values]; exact List.mem_append_right _ hx, hs⟩
      | _ => simp [parseStep, State.HasString, State.values] at h
  | afterMember ms fs =>
      cases t with
      | comma => exact .inl h
      | rbrace =>
          rcases hasString_emit h with h | ⟨x, hx, hs⟩
          · obtain ⟨a, ha, hs⟩ := hasString_obj.mp h
            exact .inl ⟨a.2, by
              rw [State.values]
              exact List.mem_append_left _ (List.mem_map_of_mem ha), hs⟩
          · exact .inl ⟨x, by rw [State.values]; exact List.mem_append_right _ hx, hs⟩
      | _ => simp [parseStep, State.HasString, State.values] at h
  | done j => simp [parseStep, State.HasString, State.values] at h
  | fail => simp [parseStep, State.HasString, State.values] at h

theorem hasString_parseTokens {st : State} {ts : List Token} {s : String}
    (h : (parseTokens st ts).HasString s) : st.HasString s ∨ Token.str s ∈ ts := by
  induction ts generalizing st with
  | nil => exact .inl h
  | cons t ts ih =>
      rcases ih h with h | h
      · rcases hasString_parseStep h with h | rfl
        · exact .inl h
        · exact .inr List.mem_cons_self
      · exact .inr (List.mem_cons_of_mem _ h)

theorem scan_of_parse {text : List Char} {j : Json} (h : parse text = .ok j) :
    ∃ ts, scan .idle (text ++ ['\n']) = (ts, .idle) ∧
      ∀ s, HasString j s → Token.str s ∈ ts := by
  rw [parse] at h
  cases hscan : scan .idle (text ++ ['\n']) with
  | mk ts m =>
      rw [hscan] at h
      cases m with
      | idle =>
          refine ⟨ts, rfl, fun s hs => ?_⟩
          simp only at h
          cases hst : parseTokens (.value []) ts with
          | done j' =>
              rw [hst] at h
              cases h
              have hstate : (parseTokens (.value []) ts).HasString s := by
                rw [hst]
                exact ⟨j, by simp [State.values], hs⟩
              rcases hasString_parseTokens hstate with ⟨x, hx, -⟩ | hmem
              · simp [State.values] at hx
              · exact hmem
          | _ => simp [hst] at h
      | _ => simp at h

end Strings

section OuterKey

/-- The container is an object that has a member of this name, or is about to get it. -/
def Frame.HasKey (key : String) : Frame → Prop
  | .arr _ => False
  | .obj ms k => k = key ∨ key ∈ ms.map Prod.fst

/-- So is the outermost of the open containers. -/
def OuterKey (key : String) : List Frame → Prop
  | [] => False
  | f :: fs => fs = [] ∧ f.HasKey key ∨ OuterKey key fs

/-- The value that is being read is an object with a member of this name. -/
def State.Opened (key : String) : State → Prop
  | .value fs | .elemOrClose fs | .keyOrClose fs | .afterElem _ fs => OuterKey key fs
  | .colon ms k fs => OuterKey key (.obj ms k :: fs)
  | .key ms fs | .afterMember ms fs => fs = [] ∧ key ∈ ms.map Prod.fst ∨ OuterKey key fs
  | .done j => ∃ ms, j = .obj ms ∧ key ∈ ms.map Prod.fst
  | .fail => True

variable {key : String}

theorem key_mem_insertMember {k : String} {v : Json} {ms : List (String × Json)}
    (h : k = key ∨ key ∈ ms.map Prod.fst) : key ∈ (insertMember k v ms).map Prod.fst := by
  induction ms with
  | nil =>
      rw [insertMember, List.map_singleton, List.mem_singleton]
      exact (h.resolve_right (by simp)).symm
  | cons m ms ih =>
      obtain ⟨l, w⟩ := m
      rw [insertMember]
      split
      · rename_i heq
        subst heq
        simpa [eq_comm] using h
      · split
        · simpa [eq_comm] using h
        · rw [List.map_cons, List.mem_cons] at h ⊢
          obtain h | h | h := h
          · exact .inr (ih (.inl h))
          · exact .inl h
          · exact .inr (ih (.inr h))

theorem opened_emit {j : Json} {fs : List Frame} (h : OuterKey key fs) :
    (emit j fs).Opened key := by
  cases fs with
  | nil => exact h.elim
  | cons f fs =>
      cases f with
      | arr xs => exact h.resolve_left fun hhere => hhere.2
      | obj ms k => exact h.imp_left fun hhere => ⟨hhere.1, key_mem_insertMember hhere.2⟩

theorem opened_valueStep {fs : List Frame} {t : Token} (h : OuterKey key fs) :
    (valueStep fs t).Opened key := by
  cases t with
  | str s => exact opened_emit h
  | word w =>
      rw [valueStep]
      split
      · exact opened_emit h
      · trivial
  | lbracket => exact h
  | lbrace => exact h
  | _ => trivial

theorem opened_parseStep {st : State} {t : Token} (h : st.Opened key) :
    (parseStep st t).Opened key := by
  cases st with
  | value fs => exact opened_valueStep h
  | elemOrClose fs =>
      rw [parseStep]
      split
      · exact opened_emit h
      · exact opened_valueStep (.inr h)
  | keyOrClose fs =>
      cases t with
      | rbrace => exact opened_emit h
      | str k => exact .inr h
      | _ => trivial
  | key ms fs =>
      cases t with
      | str k => exact h.imp_left fun hhere => ⟨hhere.1, .inr hhere.2⟩
      | _ => trivial
  | colon ms k fs =>
      cases t with
      | colon => exact h
      | _ => trivial
  | afterElem xs fs =>
      cases t with
      | comma => exact .inr h
      | rbracket => exact opened_emit h
      | _ => trivial
  | afterMember ms fs =>
      cases t with
      | comma => exact h
      | rbrace =>
          obtain ⟨rfl, hkey⟩ | h := h
          · exact ⟨ms, rfl, hkey⟩
          · exact opened_emit h
      | _ => trivial
  | done j => trivial
  | fail => trivial

theorem opened_parseTokens {st : State} {ts : List Token} (h : st.Opened key) :
    (parseTokens st ts).Opened key := by
  induction ts generalizing st with
  | nil => exact h
  | cons t ts ih => exact ih (opened_parseStep h)

/-- A text that begins with an object and the name of its first member yields an object that
has this member, whatever follows. -/
theorem key_mem_of_parse {text : List Char} {ts : List Token} {j : Json} (h : parse text = .ok j)
    (hscan : (scan .idle (text ++ ['\n'])).1 = .lbrace :: .str key :: ts) :
    ∃ ms, j = .obj ms ∧ key ∈ ms.map Prod.fst := by
  rw [parse] at h
  cases hrun : scan .idle (text ++ ['\n']) with
  | mk us m =>
      rw [hrun] at h hscan
      cases m with
      | idle =>
          simp only at h hscan
          have hopened : (parseTokens (.value []) us).Opened key := by
            rw [hscan]
            exact @opened_parseTokens key (.colon [] key []) ts (.inl ⟨rfl, .inl rfl⟩)
          cases hst : parseTokens (.value []) us with
          | done j' =>
              rw [hst] at h hopened
              cases h
              exact hopened
          | _ => simp [hst] at h
      | _ => simp at h

end OuterKey

section Lengths

/-- How much of a string the lexer has already read, its opening quote
included. -/
def Mode.read : Mode → Nat
  | .str acc | .esc acc | .hex acc _ _ _ | .low acc _ _ => acc.length + 1
  | _ => 0

theorem lexStep_length (m : Mode) (c : Char) :
    (∀ s, Token.str s ∈ (lexStep m c).1 → s.toList.length + 2 ≤ m.read + 1) ∧
      (lexStep m c).2.read ≤ m.read + 1 := by
  have houtside : ∀ pending,
      (∀ s, Token.str s ∉ (lexOutside pending c).1) ∧ (lexOutside pending c).2.read ≤ 1 := by
    intro pending
    have hflush : ∀ s, Token.str s ∉
        pending.toList.map fun acc => Token.word (String.ofList acc.reverse) := by
      intro s hs
      obtain ⟨acc, -, hacc⟩ := List.mem_map.mp hs
      simp at hacc
    simp only [lexOutside]
    split
    · exact ⟨hflush, by simp [Mode.read]⟩
    · split
      · exact ⟨hflush, by simp [Mode.read]⟩
      · split
        · rename_i t ht
          refine ⟨fun s hs => ?_, by simp [Mode.read]⟩
          rcases List.mem_append.mp hs with hs | hs
          · exact hflush s hs
          · obtain rfl := List.mem_singleton.mp hs
            simp only [punctuation] at ht
            split_ifs at ht <;> simp at ht
        · exact ⟨by simp, by simp [Mode.read]⟩
  cases m with
  | idle => exact ⟨fun s hs => absurd hs ((houtside none).1 s), (houtside none).2⟩
  | word acc =>
      exact ⟨fun s hs => absurd hs ((houtside (some acc)).1 s), (houtside (some acc)).2⟩
  | str acc =>
      simp only [lexStep]
      split_ifs
      · refine ⟨fun s hs => ?_, by simp [Mode.read]⟩
        obtain rfl : s = String.ofList acc.reverse := by simpa using hs
        simp [Mode.read]
      all_goals simp [Mode.read]
  | esc acc =>
      simp only [lexStep]
      split_ifs
      · simp [Mode.read]
      · split <;> simp [Mode.read]
  | hex acc high digits value =>
      have hfinish : ∀ v, (finishHex acc high v).read ≤ acc.length + 1 + 1 := by
        intro v
        cases high <;> simp only [finishHex] <;> split_ifs <;> simp [Mode.read]
      simp only [lexStep]
      split
      · simp [Mode.read]
      · split_ifs
        · exact ⟨by simp, hfinish _⟩
        · simp [Mode.read]
  | low acc high backslash =>
      cases backslash <;> simp only [lexStep] <;> split_ifs <;> simp [Mode.read]
  | fail => simp [lexStep, Mode.read]

theorem length_of_mem_scan {m : Mode} {cs : List Char} {s : String}
    (h : Token.str s ∈ (scan m cs).1) : s.toList.length + 2 ≤ m.read + cs.length := by
  induction cs generalizing m with
  | nil => simp [scan] at h
  | cons c cs ih =>
      rw [scan, List.mem_append] at h
      have hstep := lexStep_length m c
      rcases h with h | h
      · have := hstep.1 s h
        simp only [List.length_cons]
        omega
      · have hrest := ih h
        have := hstep.2
        simp only [List.length_cons]
        omega

theorem scan_fail (cs : List Char) : scan .fail cs = ([], .fail) := by
  induction cs with
  | nil => rfl
  | cons c cs ih => simp [scan, lexStep, ih]

end Lengths

end PgFort.JsonText
