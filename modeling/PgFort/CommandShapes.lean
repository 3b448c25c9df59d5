import PgFort.IdQueries
import PgFort.Inheritances
import PgFort.Shapes

namespace PgFort.CommandShapes

open PgFort.Framing
open PgFort.Conn
open PgFort.Regexes
open PgFort.FirstWays
open PgFort.ProxyCommand
open PgFort.CommandLayouts
open PgFort.Shapes

/-- The symbols that names, parameters and white space consist of. -/
inductive Class where
  | space
  | word
  | mail
  | operand
  deriving BEq, ReflBEq, LawfulBEq, Repr

namespace Class

def is : Class → UInt8 → Bool
  | space, x => isSpace x
  | word, x => isWord x
  | mail, x => isWord x || x == 64
  | operand, x => isWord x || x == 64 || x == 36

def meets (k k' : Class) : Bool := (k == space) == (k' == space)

def isWordCode (n : ℕ) : Bool :=
  (Nat.ble 48 n && Nat.ble n 57) || (Nat.ble 97 n && Nat.ble n 122) || Nat.beq n 95

/-- The class has the symbol, or its capital letter. -/
def hasCode : Class → ℕ → Bool
  | space, n => Nat.beq n 32 || (Nat.ble 9 n && Nat.ble n 13)
  | word, n => isWordCode n
  | mail, n => isWordCode n || Nat.beq n 64
  | operand, n => isWordCode n || Nat.beq n 64 || Nat.beq n 36

end Class

/-- The number of a symbol, the same one for both cases of a letter. -/
def code (c : UInt8) : ℕ :=
  if Nat.ble 65 c.toNat && Nat.ble c.toNat 90 then c.toNat + 32 else c.toNat

theorem code_eq (c : UInt8) : code c = (toLower c).toNat := by
  have hall : (allBytes.all fun c => code c == (toLower c).toNat) = true := by decide +kernel
  exact beq_iff_eq.mp (List.all_eq_true.mp hall c (mem_allBytes c))

theorem code_eq_of_toLower_eq {x c : UInt8} (h : toLower x = toLower c) : code x = code c := by
  rw [code_eq, code_eq, h]

namespace Class

theorem forall_class {P : Class → Bool} (h : [space, word, mail, operand].all P = true) (k : Class) :
    P k = true := by
  have hmem : k ∈ [space, word, mail, operand] := by cases k <;> decide
  exact List.all_eq_true.mp h k hmem

theorem meets_of_is {k k' : Class} {x : UInt8} (h : k.is x = true) (h' : k'.is x = true) :
    k.meets k' = true := by
  have hall : ([space, word, mail, operand].all fun k => [space, word, mail, operand].all fun k' =>
      allBytes.all fun x => !(k.is x && k'.is x) || k.meets k') = true := by
    decide +kernel
  have hx := List.all_eq_true.mp (forall_class (forall_class hall k) k') x (mem_allBytes x)
  simpa [h, h'] using hx

theorem hasCode_of_is {k : Class} {x : UInt8} (h : k.is x = true) : k.hasCode (code x) = true := by
  have hall : ([space, word, mail, operand].all fun k =>
      allBytes.all fun x => !k.is x || k.hasCode (code x)) = true := by
    decide +kernel
  have hx := List.all_eq_true.mp (forall_class hall k) x (mem_allBytes x)
  simpa [h] using hx

end Class

/-- A letter in either case, or a symbol of a class. -/
inductive Kind where
  | letter (n : ℕ)
  | ofClass (k : Class)
  deriving BEq, ReflBEq, LawfulBEq, Repr

namespace Kind

def is : Kind → UInt8 → Bool
  | letter n, x => Nat.beq (code x) n
  | ofClass k, x => k.is x

def meets : Kind → Kind → Bool
  | letter n, letter m => Nat.beq n m
  | letter n, ofClass k => k.hasCode n
  | ofClass k, letter n => k.hasCode n
  | ofClass k, ofClass k' => k.meets k'

theorem code_of_is {n : ℕ} {x : UInt8} (h : (letter n).is x = true) : code x = n :=
  Nat.eq_of_beq_eq_true h

theorem is_letter {n : ℕ} {x : UInt8} (h : code x = n) : (letter n).is x = true :=
  h ▸ Nat.beq_refl _

theorem meets_of_is (k k' : Kind) (x : UInt8) (h : k.is x = true) (h' : k'.is x = true) :
    k.meets k' = true := by
  cases k with
  | letter n =>
      obtain rfl := code_of_is h
      cases k' with
      | letter m =>
          obtain rfl := code_of_is h'
          exact Nat.beq_refl _
      | ofClass k' => exact Class.hasCode_of_is h'
  | ofClass k =>
      cases k' with
      | letter m =>
          obtain rfl := code_of_is h'
          exact Class.hasCode_of_is h
      | ofClass k' => exact Class.meets_of_is h h'

end Kind

def kinds : Kinds UInt8 Kind := ⟨Kind.is, Kind.meets, Kind.meets_of_is⟩

/-- A name of a list, with the white space in front of its comma and behind it. -/
structure Listed where
  before : Gap
  behind : Gap
  word : Word

/-- What commands and their SQL consist of. -/
inductive Part where
  | text (s : Bytes)
  | keyword (s : String) (k : Keyword s)
  | space (b : Break)
  | gap (g : Gap)
  | word (w : Word)
  | principal (p : Principal)
  | operand {mail : Bool} (o : Operand mail)
  | value {mail : Bool} (o : Operand mail)
  | others (ws : List Listed)
  | quotedOthers (ws : List (Gap × Word))
  | conditions (ps : List (Word × Word))

namespace Part

def ofText : Bytes → Shape Kind
  | [] => .nothing
  | c :: s => .seq (.one (.letter (code c))) (ofText s)

def some (k : Class) : Shape Kind := .seq (.one (.ofClass k)) (.several (.ofClass k))

/-- A further name of a list. -/
def other : Shape Kind :=
  .seq (.several (.ofClass .space)) (.seq (.one (.letter 44))
    (.seq (.several (.ofClass .space)) (some .word)))

/-- A further name of a list in quotes. -/
def quotedOther : Shape Kind :=
  .seq (.one (.letter 44)) (.seq (.several (.ofClass .space))
    (.seq (.one (.letter 39)) (.seq (some .word) (.one (.letter 39)))))

def condition : Shape Kind :=
  .seq (ofText (utf8 " AND ")) (.seq (some .word) (.seq (ofText (utf8 " = $1.")) (some .word)))

def shape : Part → Shape Kind
  | text s => ofText s
  | keyword s _ => ofText (utf8 s)
  | space _ => some .space
  | gap _ => .several (.ofClass .space)
  | word _ => some .word
  | principal _ => some .mail
  | operand _ => some .operand
  | value _ => .seq (.several (.letter 39)) (.seq (some .operand) (.several (.letter 39)))
  | others _ => .star other
  | quotedOthers _ => .star quotedOther
  | conditions _ => .star condition

end Part

namespace Listed

variable (w : Listed)

def bytes : Bytes := w.before.bytes ++ 44 :: (w.behind.bytes ++ w.word.bytes)

end Listed

namespace Part

def quotedBytes (w : Gap × Word) : Bytes := 44 :: (w.1.bytes ++ 39 :: (w.2.bytes ++ [39]))

def conditionBytes (p : Word × Word) : Bytes :=
  utf8 " AND " ++ (p.1.bytes ++ (utf8 " = $1." ++ p.2.bytes))

def bytes : Part → Bytes
  | text s => s
  | keyword _ k => k.bytes
  | space b => b.bytes
  | gap g => g.bytes
  | word w => w.bytes
  | principal p => p.bytes
  | operand o => o.bytes
  | value o => IdQueries.Unbinding.value o
  | others ws => ws.flatMap Listed.bytes
  | quotedOthers ws => ws.flatMap quotedBytes
  | conditions ps => ps.flatMap conditionBytes

end Part

def shapeOf : List Part → Shape Kind
  | [] => .nothing
  | p :: ps => .seq p.shape (shapeOf ps)

def textOf : List Part → Bytes
  | [] => []
  | p :: ps => p.bytes ++ textOf ps

section Fills

theorem fills_ofText {s a : Bytes} (h : lower a = lower s) : kinds.Fills (Part.ofText s) a := by
  induction s generalizing a with
  | nil => exact List.map_eq_nil_iff.mp h
  | cons c s ih =>
      obtain ⟨x, a, rfl, hx, ha⟩ := List.map_eq_cons_iff.mp h
      exact ⟨[x], a, ⟨x, Kind.is_letter (code_eq_of_toLower_eq hx), rfl⟩, ih ha, rfl⟩

theorem fills_some {k : Class} {a : Bytes} (hne : a ≠ []) (ha : ∀ x ∈ a, k.is x = true) :
    kinds.Fills (Part.some k) a := by
  obtain ⟨x, a, rfl⟩ := List.exists_cons_of_ne_nil hne
  obtain ⟨hx, ha⟩ := List.forall_mem_cons.mp ha
  exact ⟨[x], a, ⟨x, hx, rfl⟩, ha, rfl⟩

theorem fills_other (w : Listed) : kinds.Fills Part.other w.bytes :=
  ⟨_, _, w.before.space, ⟨[44], _, ⟨44, rfl, rfl⟩,
    ⟨_, _, w.behind.space, fills_some w.word.ne_nil w.word.word, rfl⟩, rfl⟩, rfl⟩

theorem operand_of_ofName {mail : Bool} {x : UInt8} (h : ofName mail x = true) :
    Class.operand.is x = true := by
  cases mail with
  | false => simp [Class.is, show isWord x = true from h]
  | true => simp [Class.is, show (isWord x || x == 64) = true from h]

theorem fills_operand {mail : Bool} (o : Operand mail) :
    kinds.Fills (Part.some .operand) o.bytes := by
  cases o with
  | name bytes hne hnamed => exact fills_some hne fun x hx => operand_of_ofName (hnamed x hx)
  | parameter digits hne hdigit =>
      refine fills_some (List.cons_ne_nil _ _) (List.forall_mem_cons.mpr ⟨rfl, fun x hx => ?_⟩)
      simp [Class.is, isWord_of_isDigit (hdigit x hx)]

theorem fills_quotedOther (w : Gap × Word) :
    kinds.Fills Part.quotedOther (Part.quotedBytes w) :=
  ⟨[44], _, ⟨44, rfl, rfl⟩, ⟨_, _, w.1.space, ⟨[39], _, ⟨39, rfl, rfl⟩,
    ⟨_, [39], fills_some w.2.ne_nil w.2.word, ⟨39, rfl, rfl⟩, rfl⟩, rfl⟩, rfl⟩, rfl⟩

theorem fills_condition (p : Word × Word) :
    kinds.Fills Part.condition (Part.conditionBytes p) :=
  ⟨_, _, fills_ofText rfl, ⟨_, _, fills_some p.1.ne_nil p.1.word,
    ⟨_, _, fills_ofText rfl, fills_some p.2.ne_nil p.2.word, rfl⟩, rfl⟩, rfl⟩

theorem fills_star {β : Type} {s : Shape Kind} {g : β → Bytes} (h : ∀ x, kinds.Fills s (g x))
    (xs : List β) : kinds.Fills (.star s) (xs.flatMap g) := by
  refine ⟨xs.map g, fun b hb => ?_, List.flatMap_def⟩
  obtain ⟨x, -, rfl⟩ := List.mem_map.mp hb
  exact h x

theorem fills_value {mail : Bool} (o : Operand mail) :
    kinds.Fills (Part.value o).shape (Part.value o).bytes := by
  have hquote : ∀ x ∈ [39], (Kind.letter 39).is x = true := List.forall_mem_singleton.mpr rfl
  have hnone : ∀ x ∈ ([] : Bytes), (Kind.letter 39).is x = true := by simp
  cases o with
  | name bytes hne hnamed =>
      refine ⟨[39], bytes ++ [39], hquote, ⟨bytes, [39], ?_, hquote, rfl⟩, ?_⟩
      · exact fills_some hne fun x hx => operand_of_ofName (hnamed x hx)
      · change utf8 "'" ++ bytes ++ utf8 "'" = _
        rw [List.append_assoc]
        rfl
  | parameter digits hne hdigit =>
      refine ⟨[], 36 :: digits, hnone, ⟨36 :: digits, [], ?_, hnone, (List.append_nil _).symm⟩, rfl⟩
      exact fills_operand (.parameter digits hne hdigit : Operand mail)

theorem fills_shape (p : Part) : kinds.Fills p.shape p.bytes := by
  cases p with
  | text s => exact fills_ofText rfl
  | keyword s k => exact fills_ofText k.spelled
  | space b => exact fills_some b.ne_nil b.space
  | gap g => exact g.space
  | word w => exact fills_some w.ne_nil w.word
  | principal p => exact fills_some p.ne_nil p.word
  | operand o => exact fills_operand o
  | value o => exact fills_value o
  | others ws => exact fills_star fills_other ws
  | quotedOthers ws => exact fills_star fills_quotedOther ws
  | conditions ps => exact fills_star fills_condition ps

theorem fills_shapeOf (ps : List Part) : kinds.Fills (shapeOf ps) (textOf ps) := by
  induction ps with
  | nil => rfl
  | cons p ps ih => exact ⟨_, _, fills_shape p, ih, rfl⟩

end Fills

/-- The commands, in the order of the passes. -/
inductive Form where
  | enableAccessControl
  | createAccessPermission
  | createAccessRole
  | createAccessInheritance
  | listAccessPermission
  | listAccessRoleBinding
  | listAccessRole
  | listAccessInheritance
  | bindAccessRole
  | unbindAccessRole
  deriving DecidableEq, Repr

namespace Form

def all : List Form :=
  [enableAccessControl, createAccessPermission, createAccessRole, createAccessInheritance,
    listAccessPermission, listAccessRoleBinding, listAccessRole, listAccessInheritance,
    bindAccessRole, unbindAccessRole]

/-- The forms that are translated before. -/
def earlier (f : Form) : List Form := all.takeWhile fun g => decide (g ≠ f)

theorem exists_later (f : Form) : ∃ later, all = f.earlier ++ f :: later ∧ f ∉ later := by
  cases f <;> exact ⟨_, rfl, by decide⟩

def regex : Form → Regex UInt8
  | enableAccessControl => ProxyCommand.enableAccessControl
  | createAccessPermission => ProxyCommand.createAccessPermission
  | createAccessRole => ProxyCommand.createAccessRole
  | createAccessInheritance => ProxyCommand.createAccessInheritance
  | listAccessPermission => ProxyCommand.listAccessPermission
  | listAccessRoleBinding => ProxyCommand.listAccessRoleBinding
  | listAccessRole => ProxyCommand.listAccessRole
  | listAccessInheritance => ProxyCommand.listAccessInheritance
  | bindAccessRole => ProxyCommand.bindAccessRole
  | unbindAccessRole => ProxyCommand.unbindAccessRole

/-- What each pattern begins with. -/
def atoms : Form → List Atom
  | enableAccessControl =>
      [.keyword "ENABLE", .spaces, .keyword "ACCESS", .spaces, .keyword "CONTROL", .spaces, .word 1]
  | createAccessPermission =>
      [.keyword "CREATE", .spaces, .keyword "ACCESS", .spaces, .keyword "PERMISSION", .spaces,
        .word 1, .spaces, .keyword "ON", .spaces, .word 2, .spaces, .keyword "FOR", .spaces, .word 3]
  | createAccessRole =>
      [.keyword "CREATE", .spaces, .keyword "ACCESS", .spaces, .keyword "ROLE", .spaces, .word 1,
        .spaces, .keyword "WITH", .spaces, .list 2]
  | createAccessInheritance => Inheritances.atoms
  | listAccessPermission =>
      [.keyword "LIST", .spaces, .keyword "ACCESS", .spaces, .keyword "PERMISSION"]
  | listAccessRoleBinding =>
      [.keyword "LIST", .spaces, .keyword "ACCESS", .spaces, .keyword "ROLE", .spaces,
        .keyword "BINDING", .spaces, .keyword "ON", .spaces, .word 1, .mayBeSpaces, .keyword "("]
  | listAccessRole => [.keyword "LIST", .spaces, .keyword "ACCESS", .spaces, .keyword "ROLE"]
  | listAccessInheritance =>
      [.keyword "LIST", .spaces, .keyword "ACCESS", .spaces, .keyword "INHERITANCE"]
  | bindAccessRole => IdQueries.bindQuery.atoms
  | unbindAccessRole => IdQueries.unbindQuery.atoms

/-- What the patterns end with. -/
def tail : Form → List (Regex UInt8)
  | listAccessPermission => [optional (.group 1 (seqs [spaces, literal "ON", spaces, word 2]))]
  | listAccessRoleBinding => IdQueries.queryTail 2
  | listAccessRole =>
      [optional (.group 1 (seqs [spaces, literal "WITH", spaces,
        .group 2
          (.alt (seqs [.group 3 (literal "ALL"), mayBeSpaces, literal "(", wordList 4, literal ")"])
            (.alt (seqs [.group 6 (literal "ANY"), mayBeSpaces, literal "(", wordList 7, literal ")"])
              (word 9)))]))]
  | listAccessInheritance =>
      [optional (.group 1 (seqs [spaces, .group 2 (.alt (literal "FROM") (literal "TO")), spaces,
        word 3]))]
  | bindAccessRole => IdQueries.queryTail 4
  | unbindAccessRole => IdQueries.queryTail 10
  | _ => []

theorem regex_eq (f : Form) : f.regex = seqs (f.atoms.map Atom.regex ++ f.tail) := by
  cases f <;> rfl

def verb : Form → String
  | enableAccessControl => "ENABLE"
  | createAccessPermission | createAccessRole | createAccessInheritance => "CREATE"
  | listAccessPermission | listAccessRoleBinding | listAccessRole | listAccessInheritance => "LIST"
  | bindAccessRole => "BIND"
  | unbindAccessRole => "UNBIND"

/-- What the patterns of all forms begin with. -/
def verbAtoms (s : String) : List Atom := [.keyword s, .spaces, .keyword "ACCESS"]

theorem exists_regex_eq (f : Form) :
    ∃ tail, f.regex = seqs ((verbAtoms f.verb).map Atom.regex ++ tail) := by
  cases f <;> exact ⟨_, rfl⟩

def verbs : List (List Atom) := ["ENABLE", "CREATE", "LIST", "BIND", "UNBIND"].map verbAtoms

theorem mem_verbs (f : Form) : verbAtoms f.verb ∈ verbs := by
  cases f <;> decide

end Form

/-- What the atoms are made of, up to the first one that may be empty or a list. -/
def itemsOf : List Atom → Pattern Kind
  | .keyword s :: as => (utf8 s).map (fun c => .one (.letter (code c))) ++ itemsOf as
  | .spaces :: as => .many (.ofClass .space) :: itemsOf as
  | .word _ :: as => .many (.ofClass .word) :: itemsOf as
  | _ => []

section Patterns

variable {as : List Atom} {tail : List (Regex UInt8)} {a : Bytes}

theorem fits_letters {s b c : Bytes} {p : Pattern Kind} (hb : lower b = lower s)
    (hc : kinds.Fits p c) : kinds.Fits (s.map (fun c => .one (.letter (code c))) ++ p) (b ++ c) := by
  induction s generalizing b with
  | nil =>
      obtain rfl : b = [] := List.map_eq_nil_iff.mp hb
      exact hc
  | cons x s ih =>
      obtain ⟨y, b, rfl, hy, hb⟩ := List.map_eq_cons_iff.mp hb
      exact ⟨y, b ++ c, Kind.is_letter (code_eq_of_toLower_eq hy), rfl, ih hb⟩

theorem fits_many {k : Class} {b c : Bytes} {p : Pattern Kind} (hne : b ≠ [])
    (hb : ∀ x ∈ b, k.is x = true) (hc : kinds.Fits p c) :
    kinds.Fits (.many (.ofClass k) :: p) (b ++ c) := by
  obtain ⟨x, b, rfl⟩ := List.exists_cons_of_ne_nil hne
  obtain ⟨hx, hb⟩ := List.forall_mem_cons.mp hb
  exact ⟨x, b, c, hx, hb, rfl, hc⟩

theorem exists_fits_of_takes (h : Takes (seqs (as.map Atom.regex ++ tail)) a) :
    ∃ c d, a = c ++ d ∧ kinds.Fits (itemsOf as) c := by
  induction as generalizing a with
  | nil => exact ⟨[], a, rfl, rfl⟩
  | cons atom as ih =>
      obtain ⟨b, rest, hb, hrest, rfl⟩ := h
      obtain ⟨c, d, rfl, hc⟩ := ih hrest
      cases atom with
      | keyword s =>
          exact ⟨b ++ c, d, (List.append_assoc ..).symm, fits_letters (takes_literal.mp hb) hc⟩
      | spaces =>
          obtain ⟨hne, hspace⟩ := takes_plus.mp hb
          exact ⟨b ++ c, d, (List.append_assoc ..).symm, fits_many hne hspace hc⟩
      | word n =>
          obtain ⟨hne, hword⟩ := takes_plus.mp hb
          exact ⟨b ++ c, d, (List.append_assoc ..).symm, fits_many hne hword hc⟩
      | mayBeSpaces => exact ⟨[], _, rfl, rfl⟩
      | principal n => exact ⟨[], _, rfl, rfl⟩
      | operand n mail => exact ⟨[], _, rfl, rfl⟩
      | list n => exact ⟨[], _, rfl, rfl⟩

def kindOf : Item Kind → Kind
  | .one k => k
  | .many k => k

theorem not_mem_of_fits {x : UInt8} {p : Pattern Kind} (hp : ∀ i ∈ p, (kindOf i).is x = false)
    {c : Bytes} (hc : kinds.Fits p c) : x ∉ c := by
  induction p generalizing c with
  | nil =>
      obtain rfl : c = [] := hc
      exact List.not_mem_nil
  | cons i p ih =>
      obtain ⟨hi, hothers⟩ := List.forall_mem_cons.mp hp
      have hne {y : UInt8} (hy : (kindOf i).is y = true) : x ≠ y := by
        rintro rfl
        rw [hi] at hy
        simp at hy
      cases i with
      | one k =>
          obtain ⟨y, b, hy, rfl, hb⟩ := hc
          rw [List.mem_cons, not_or]
          exact ⟨hne hy, ih hothers hb⟩
      | many k =>
          obtain ⟨y, b, c, hy, hsome, rfl, hc⟩ := hc
          rw [List.mem_cons, List.mem_append, not_or, not_or]
          exact ⟨hne hy, fun hin => hne (hsome x hin) rfl, ih hothers hc⟩

variable {ass : List (List Atom)} {s : Shape Kind} {r : Regex UInt8}

/-- In texts of the shape nothing begins as the patterns do. -/
def Absent (ass : List (List Atom)) (s : Shape Kind) : Prop :=
  kinds.absent (ass.map itemsOf) s = true

instance : Decidable (Absent ass s) := inferInstanceAs (Decidable (_ = true))

theorem unmatched_of_absent (hr : r = seqs (as.map Atom.regex ++ tail)) (hmem : as ∈ ass)
    (h : Absent ass s) (hs : kinds.Fills s a) : Unmatched r a [] := by
  intro b u hsplit _
  refine matchHere_eq_none fun t rest ht heq => ?_
  rw [hr] at ht
  obtain ⟨c, d, rfl, hc⟩ := exists_fits_of_takes ht
  refine not_fits_of_absent h hs (List.mem_map_of_mem hmem) ?_ hc (b := b) (d := d ++ rest)
  rw [hsplit, ← List.append_nil u, heq, List.append_assoc]

theorem unmatched_open_of_absent (hr : r = seqs (as.map Atom.regex ++ tail)) (hmem : as ∈ ass)
    (hitems : ∀ i ∈ itemsOf as, (kindOf i).is 40 = false) (h : Absent ass s)
    (hs : kinds.Fills s a) (following : Bytes) : Unmatched r (a ++ [40]) following := by
  intro b u hsplit hu
  refine matchHere_eq_none fun t rest ht heq => ?_
  rw [hr] at ht
  obtain ⟨c, d, rfl, hc⟩ := exists_fits_of_takes ht
  have hopen := not_mem_of_fits hitems hc
  obtain ⟨v, x, rfl⟩ : ∃ v x, u = v ++ [x] := by
    rcases List.eq_nil_or_concat u with rfl | ⟨v, x, rfl⟩
    · exact absurd rfl hu
    · exact ⟨v, x, List.concat_eq_append⟩
  rw [← List.append_assoc] at hsplit
  obtain ⟨ha, hx⟩ := List.append_inj' hsplit rfl
  obtain rfl := (List.cons.inj hx).1
  have hbegins : ∃ w, v = c ++ w := by
    simp only [List.append_assoc, List.singleton_append] at heq
    rcases List.append_eq_append_iff.mp heq with ⟨w, rfl, hw⟩ | ⟨w, rfl, -⟩
    · cases w with
      | nil => exact ⟨[], by simp⟩
      | cons y w =>
          obtain ⟨rfl, -⟩ := List.cons.inj hw
          exact absurd (by simp) hopen
    · exact ⟨w, rfl⟩
  obtain ⟨w, rfl⟩ := hbegins
  exact not_fits_of_absent h hs (List.mem_map_of_mem hmem) ha hc

end Patterns

end PgFort.CommandShapes
