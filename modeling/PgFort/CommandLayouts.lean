import PgFort.FirstWays
import PgFort.ProxyCommand

namespace PgFort.CommandLayouts

open PgFort.Framing
open PgFort.Conn
open PgFort.Regexes
open PgFort.FirstWays
open PgFort.ProxyCommand

/-- White space, or none. -/
structure Gap where
  bytes : Bytes
  space : ∀ c ∈ bytes, isSpace c = true

/-- White space. -/
structure Break extends Gap where
  ne_nil : bytes ≠ []

structure Word where
  bytes : Bytes
  ne_nil : bytes ≠ []
  word : ∀ c ∈ bytes, isWord c = true

/-- A name of a principal may have an `@` in it. -/
structure Principal where
  bytes : Bytes
  ne_nil : bytes ≠ []
  word : ∀ c ∈ bytes, (isWord c || c == 64) = true

/-- The symbols of a name, which may be that of a principal. -/
def ofName : Bool → UInt8 → Bool
  | false => isWord
  | true => fun c => isWord c || c == 64

/-- A name, or a parameter in its place. -/
inductive Operand (mail : Bool) where
  | name (bytes : Bytes) (ne_nil : bytes ≠ []) (named : ∀ c ∈ bytes, ofName mail c = true)
  | parameter (digits : Bytes) (ne_nil : digits ≠ []) (digit : ∀ c ∈ digits, isDigit c = true)

namespace Operand

variable {mail : Bool}

def bytes : Operand mail → Bytes
  | name bytes _ _ => bytes
  | parameter digits _ _ => 36 :: digits

/-- What a pattern records of it. -/
def groups (n : Nat) : Operand mail → Groups UInt8
  | name bytes _ _ => [(n, bytes), (n + 1, bytes)]
  | parameter digits _ _ => [(n, 36 :: digits), (n + 2, 36 :: digits)]

end Operand

/-- The keyword in any case of its letters. -/
structure Keyword (s : String) where
  bytes : Bytes
  spelled : lower bytes = lower (utf8 s)

/-- Names with a comma in front of each but the first. -/
structure Columns where
  first : Word
  others : List (Gap × Word)

namespace Columns

variable (cols : Columns)

def item (i : Gap × Word) : Bytes := 44 :: (i.1.bytes ++ i.2.bytes)

def text : Bytes := cols.first.bytes ++ cols.others.flatMap item

def names : List Bytes := cols.first.bytes :: cols.others.map fun i => i.2.bytes

/-- What a pattern records of the list. -/
def groups (n : Nat) : Groups UInt8 :=
  (n, cols.text) :: cols.others.reverse.map fun i => (n + 1, item i)

end Columns

/-- What the patterns consist of. -/
inductive Atom where
  | keyword (s : String)
  | spaces
  | mayBeSpaces
  | word (n : Nat)
  | principal (n : Nat)
  | operand (n : Nat) (mail : Bool)
  | list (n : Nat)
  deriving DecidableEq, Repr

namespace Atom

def regex : Atom → Regex UInt8
  | keyword s => literal s
  | spaces => ProxyCommand.spaces
  | mayBeSpaces => ProxyCommand.mayBeSpaces
  | word n => ProxyCommand.word n
  | principal n => .group n (plus fun c => isWord c || c == 64)
  | operand n mail => orParameter n (plus (ofName mail))
  | list n => wordList n

/-- The symbols that its texts begin with. -/
def starts : Atom → UInt8 → Bool
  | keyword s, x =>
      match utf8 s with
      | [] => true
      | c :: _ => toLower x == toLower c
  | spaces, x => isSpace x
  | mayBeSpaces, x => isSpace x
  | word _, x => isWord x
  | principal _, x => isWord x || x == 64
  | operand _ mail, x => ofName mail x || x == 36
  | list _, x => isWord x

/-- The symbols behind a text of it that it could go on with. -/
def goesOn : Atom → UInt8 → Bool
  | keyword _, _ => false
  | spaces, x => isSpace x
  | mayBeSpaces, x => isSpace x
  | word _, x => isWord x
  | principal _, x => isWord x || x == 64
  | operand _ mail, x => ofName mail x
  | list _, x => isWord x || x == 44

end Atom

/-- A text of an atom, and what the atom records of it. -/
inductive Spelled : Atom → Bytes → Groups UInt8 → Prop where
  | keyword {s : String} (k : Keyword s) : Spelled (.keyword s) k.bytes []
  | spaces (b : Break) : Spelled .spaces b.bytes []
  | mayBeSpaces (g : Gap) : Spelled .mayBeSpaces g.bytes []
  | word (n : Nat) (w : Word) : Spelled (.word n) w.bytes [(n, w.bytes)]
  | principal (n : Nat) (p : Principal) : Spelled (.principal n) p.bytes [(n, p.bytes)]
  | operand {mail : Bool} (n : Nat) (o : Operand mail) :
      Spelled (.operand n mail) o.bytes (o.groups n)
  | list (n : Nat) (cols : Columns) : Spelled (.list n) cols.text (cols.groups n)

/-- A text of one atom after the other. -/
inductive Laid : List Atom → Bytes → Groups UInt8 → Prop where
  | nil : Laid [] [] []
  | cons {a : Atom} {as : List Atom} {s t : Bytes} {new new' : Groups UInt8}
      (first : Spelled a s new) (rest : Laid as t new') : Laid (a :: as) (s ++ t) (new' ++ new)

/-- The symbols that a text of the atoms can begin with, where some come behind it. -/
def startsOf (after : UInt8 → Bool) : List Atom → UInt8 → Bool
  | [], x => after x
  | .mayBeSpaces :: as, x => isSpace x || startsOf after as x
  | a :: _, x => a.starts x

def allBytes : List UInt8 := (List.range 256).map UInt8.ofNat

/-- No atom can go on with what comes behind it. -/
def Separated (after : UInt8 → Bool) : List Atom → Bool
  | [] => true
  | a :: as => (allBytes.all fun x => !(a.goesOn x && startsOf after as x)) && Separated after as

section Pieces

theorem mem_allBytes (x : UInt8) : x ∈ allBytes :=
  List.mem_map.mpr ⟨x.toNat, List.mem_range.mpr x.toNat_lt, UInt8.ofNat_toNat⟩

theorem first_literal_map {cs : Bytes} {bs : Bytes} (h : lower bs = lower cs) :
    First (seqs (cs.map fun c => .char fun x => toLower x == toLower c)) bs [] fun _ => True := by
  induction cs generalizing bs with
  | nil =>
      obtain rfl : bs = [] := List.map_eq_nil_iff.mp h
      exact first_nothing
  | cons c cs ih =>
      obtain ⟨b, bs, rfl, hb, hbs⟩ := List.map_eq_cons_iff.mp h
      exact first_seq (first_char (by simpa using hb)) (ih hbs) fun _ _ => trivial

theorem first_literal {s : String} (k : Keyword s) : First (literal s) k.bytes [] fun _ => True :=
  first_literal_map k.spelled

theorem first_plus {p : UInt8 → Bool} {s : Bytes} (hne : s ≠ []) (hs : ∀ c ∈ s, p c = true) :
    First (plus p) s [] (NoStart p) := by
  obtain ⟨c, s, rfl⟩ := List.exists_cons_of_ne_nil hne
  obtain ⟨hc, hs⟩ := List.forall_mem_cons.mp hs
  exact first_seq (first_char hc) (first_star_char hs) fun _ _ => trivial

theorem first_seqs_cons {r : Regex UInt8} {rs : List (Regex UInt8)} {a b : Bytes}
    {new new' : Groups UInt8} {fit fit' : Bytes → Prop} (h : First r a new fit)
    (h' : First (seqs rs) b new' fit') (hfit : ∀ rest, fit' rest → fit (b ++ rest)) :
    First (seqs (r :: rs)) (a ++ b) (new' ++ new) fit' :=
  first_seq h h' hfit

theorem first_seqs_singleton {r : Regex UInt8} {a : Bytes} {new : Groups UInt8}
    {fit : Bytes → Prop} (h : First r a new fit) : First (seqs [r]) a new fit := by
  have hnothing : First (seqs []) ([] : Bytes) [] fit := first_nothing.mono fun _ _ => trivial
  have hseq := first_seqs_cons h hnothing fun _ hrest => hrest
  rwa [List.append_nil, List.nil_append] at hseq

theorem takes_literal_map {cs a : Bytes} :
    Takes (seqs (cs.map fun c => .char fun x => toLower x == toLower c)) a ↔ lower a = lower cs := by
  induction cs generalizing a with
  | nil =>
      change a = [] ↔ lower a = []
      rw [lower, List.map_eq_nil_iff]
  | cons c cs ih =>
      constructor
      · rintro ⟨b, a, ⟨x, hx, rfl⟩, ha, rfl⟩
        exact congrArg₂ List.cons (beq_iff_eq.mp hx) (ih.mp ha)
      · intro h
        obtain ⟨x, a, rfl, hx, ha⟩ := List.map_eq_cons_iff.mp h
        exact ⟨[x], a, ⟨x, beq_iff_eq.mpr hx, rfl⟩, ih.mpr ha, rfl⟩

theorem takes_literal {s : String} {a : Bytes} :
    Takes (literal s) a ↔ lower a = lower (utf8 s) :=
  takes_literal_map

theorem takes_star_char {p : UInt8 → Bool} {greedy : Bool} {a : Bytes} :
    Takes (.star greedy (.char p)) a ↔ ∀ c ∈ a, p c = true := by
  constructor
  · rintro ⟨bs, hbs, rfl⟩ c hc
    obtain ⟨b, hb, hcb⟩ := List.mem_flatten.mp hc
    obtain ⟨x, hx, rfl⟩ := hbs b hb
    rw [List.mem_singleton.mp hcb]
    exact hx
  · intro h
    refine ⟨a.map fun c => [c], fun b hb => ?_, ?_⟩
    · obtain ⟨c, hc, rfl⟩ := List.mem_map.mp hb
      exact ⟨c, h c hc, rfl⟩
    · induction a with
      | nil => rfl
      | cons c a ih =>
          rw [List.map_cons, List.flatten_cons, ← ih (List.forall_mem_cons.mp h).2]
          rfl

theorem takes_plus {p : UInt8 → Bool} {a : Bytes} :
    Takes (plus p) a ↔ a ≠ [] ∧ ∀ c ∈ a, p c = true := by
  constructor
  · rintro ⟨b, a, ⟨x, hx, rfl⟩, ha, rfl⟩
    refine ⟨by simp, List.forall_mem_append.mpr ⟨?_, takes_star_char.mp ha⟩⟩
    intro c hc
    rw [List.mem_singleton.mp hc]
    exact hx
  · rintro ⟨hne, h⟩
    obtain ⟨c, a, rfl⟩ := List.exists_cons_of_ne_nil hne
    obtain ⟨hc, ha⟩ := List.forall_mem_cons.mp h
    exact ⟨[c], a, ⟨c, hc, rfl⟩, takes_star_char.mpr ha, rfl⟩

/-- A further name of a list. -/
def listItem : Regex UInt8 := seqs [literal ",", mayBeSpaces, plus isWord]

theorem isSpace_of_isWord {x : UInt8} (h : isWord x = true) : isSpace x = false := by
  have hall : (allBytes.all fun x => !(isWord x && isSpace x)) = true := by decide +kernel
  simpa [h] using List.all_eq_true.mp hall x (mem_allBytes x)

theorem first_listItem (i : Gap × Word) :
    First listItem (Columns.item i) [] (NoStart isWord) := by
  have hword := first_seqs_singleton (first_plus i.2.ne_nil i.2.word)
  have hgap : First (seqs [mayBeSpaces, plus isWord]) (i.1.bytes ++ i.2.bytes) []
      (NoStart isWord) :=
    first_seqs_cons (first_star_char i.1.space) hword fun rest _ =>
      noStart_append_of_ne_nil i.2.ne_nil (fun x hx => isSpace_of_isWord (i.2.word x hx)) rest
  exact first_seqs_cons (first_literal (s := ",") ⟨[44], rfl⟩) hgap fun _ _ => trivial

theorem eq_of_toLower_eq {x c : UInt8} (hc : c ∈ [36, 40, 41, 44]) (h : toLower x = toLower c) :
    x = c := by
  have hall : ([36, 40, 41, 44].all fun c => allBytes.all fun x =>
      !(toLower x == toLower c) || x == c) = true := by
    decide +kernel
  simpa [h] using List.all_eq_true.mp (List.all_eq_true.mp hall c hc) x (mem_allBytes x)

theorem eq_of_lower_eq {a : Bytes} {c : UInt8} (hc : c ∈ [36, 40, 41, 44]) (h : lower a = lower [c]) :
    a = [c] := by
  obtain ⟨x, b, rfl, hx, hb⟩ := List.map_eq_cons_iff.mp h
  obtain rfl : b = [] := List.map_eq_nil_iff.mp hb
  rw [eq_of_toLower_eq hc hx]

theorem eq_comma_of_takes {a : Bytes} (h : Takes (literal ",") a) : a = [44] :=
  eq_of_lower_eq (by decide) (takes_literal.mp h)

theorem ways_listItem_eq_nil (n : Nat) {gs : Groups UInt8} {s : Bytes}
    (hs : NoStart (fun x => isWord x || x == 44) s) :
    ways (.group n listItem) gs s = [] := by
  refine ways_eq_nil fun a rest ha heq => ?_
  obtain ⟨b, c, hb, -, rfl⟩ := ha
  rw [heq, eq_comma_of_takes hb] at hs
  exact absurd (noStart_cons.mp hs) (by decide)

theorem noStart_or {p q : UInt8 → Bool} {s : Bytes} (h : NoStart (fun x => p x || q x) s) :
    NoStart p s :=
  fun x hx => (Bool.or_eq_false_iff.mp (h x hx)).1

theorem first_wordList (n : Nat) (cols : Columns) :
    First (wordList n) cols.text (cols.groups n) (NoStart fun x => isWord x || x == 44) := by
  have hitems := first_star (r := .group (n + 1) listItem)
    (cols.others.map fun i => (Columns.item i, [(n + 1, Columns.item i)])) (NoStart isWord)
    (fun p hp => by
      obtain ⟨i, -, rfl⟩ := List.mem_map.mp hp
      exact ⟨List.cons_ne_nil _ _, first_group (n + 1) (first_listItem i),
        fun rest => noStart_cons.mpr (by decide)⟩)
    (fun gs rest (hrest : NoStart (fun x => isWord x || x == 44) rest) =>
      ways_listItem_eq_nil (n + 1) hrest) (fun rest => noStart_or)
  rw [List.flatMap_map, ← List.map_reverse, List.flatMap_map, ← List.map_eq_flatMap] at hitems
  have hseqs := first_seqs_cons (first_plus cols.first.ne_nil cols.first.word)
    (first_seqs_singleton hitems) fun rest hrest => by
      cases cols.others with
      | nil => exact noStart_or hrest
      | cons i others => exact noStart_cons.mpr (by decide)
  rw [List.append_nil] at hseqs
  exact first_group n hseqs

theorem isWord_of_isDigit {x : UInt8} (h : isDigit x = true) : isWord x = true := by
  rw [isWord, h]
  rfl

theorem ofName_of_isWord {mail : Bool} {x : UInt8} (h : isWord x = true) : ofName mail x = true := by
  cases mail with
  | false => exact h
  | true => exact (Bool.or_eq_true _ _).mpr (.inl h)

theorem first_operand {mail : Bool} (n : Nat) (o : Operand mail) :
    First (orParameter n (plus (ofName mail))) o.bytes (o.groups n) (NoStart (ofName mail)) := by
  cases o with
  | name bytes hne hnamed =>
      exact first_group n (first_alt_left (first_group (n + 1) (first_plus hne hnamed)))
  | parameter digits hne hdigit =>
      refine first_group n (first_alt_right (fun gs rest _ => ways_eq_nil fun a u ha heq => ?_)
        (first_group (n + 2) ?_))
      · obtain ⟨hne, hnamed⟩ := takes_plus.mp ha
        obtain ⟨x, a, rfl⟩ := List.exists_cons_of_ne_nil hne
        obtain ⟨rfl, -⟩ := List.cons.inj heq
        have hdollar := hnamed 36 List.mem_cons_self
        cases mail <;> exact absurd hdollar (by decide)
      · refine first_seq (first_literal (s := "$") ⟨[36], rfl⟩)
          ((first_plus hne hdigit).mono fun rest hrest => ?_) fun _ _ => trivial
        intro x hx
        by_contra hnot
        rw [Bool.not_eq_false] at hnot
        have hname : ofName mail x = true := ofName_of_isWord (isWord_of_isDigit hnot)
        exact absurd (hrest x hx) (by simp [hname])

theorem first_of_spelled {a : Atom} {s : Bytes} {new : Groups UInt8} (h : Spelled a s new) :
    First a.regex s new (NoStart a.goesOn) := by
  cases h with
  | keyword k => exact (first_literal k).mono fun _ _ => trivial
  | spaces b => exact first_plus b.ne_nil b.space
  | mayBeSpaces g => exact first_star_char g.space
  | word n w => exact first_group n (first_plus w.ne_nil w.word)
  | principal n p => exact first_group n (first_plus p.ne_nil p.word)
  | operand n o => exact first_operand n o
  | list n cols => exact first_wordList n cols

/-- The text begins with a symbol of a kind, or is empty. -/
def Starts (p : UInt8 → Bool) (s : Bytes) : Prop :=
  ∀ x, s.head? = some x → p x = true

theorem starts_append_of_ne_nil {p : UInt8 → Bool} {s : Bytes} (hne : s ≠ [])
    (hs : ∀ x ∈ s, p x = true) (t : Bytes) : Starts p (s ++ t) := by
  obtain ⟨x, s, rfl⟩ := List.exists_cons_of_ne_nil hne
  intro y hy
  exact Option.some.inj hy ▸ hs x List.mem_cons_self

theorem starts_spelled {a : Atom} {as : List Atom} {s t : Bytes} {new : Groups UInt8}
    {after : UInt8 → Bool} (h : Spelled a s new) (ht : Starts (startsOf after as) t) :
    Starts (startsOf after (a :: as)) (s ++ t) := by
  cases h with
  | @keyword s k =>
      intro x hx
      change (Atom.keyword s).starts x = true
      rw [Atom.starts]
      have hspelled := k.spelled
      cases hs : utf8 s with
      | nil => rfl
      | cons c cs =>
          rw [hs] at hspelled
          obtain ⟨b, bs, hbytes, hb, -⟩ := List.map_eq_cons_iff.mp hspelled
          rw [hbytes] at hx
          exact beq_iff_eq.mpr (Option.some.inj hx ▸ hb)
  | spaces b => exact starts_append_of_ne_nil b.ne_nil b.space t
  | mayBeSpaces g =>
      intro x hx
      change (isSpace x || startsOf after as x) = true
      rw [Bool.or_eq_true]
      have hspace := g.space
      cases hg : g.bytes with
      | nil =>
          rw [hg] at hx
          exact .inr (ht x hx)
      | cons c cs =>
          rw [hg] at hx hspace
          exact .inl (Option.some.inj hx ▸ hspace c List.mem_cons_self)
  | word n w => exact starts_append_of_ne_nil w.ne_nil w.word t
  | principal n p => exact starts_append_of_ne_nil p.ne_nil p.word t
  | @operand mail n o =>
      intro x hx
      change (ofName mail x || x == 36) = true
      rw [Bool.or_eq_true]
      cases o with
      | name bytes hne hnamed =>
          exact .inl (starts_append_of_ne_nil hne hnamed t x hx)
      | parameter digits hne hdigit => exact .inr (beq_iff_eq.mpr (Option.some.inj hx).symm)
  | list n cols =>
      rw [Columns.text, List.append_assoc]
      exact starts_append_of_ne_nil cols.first.ne_nil cols.first.word _

theorem starts_laid {as : List Atom} {s t : Bytes} {new : Groups UInt8} {after : UInt8 → Bool}
    (h : Laid as s new) (ht : Starts after t) : Starts (startsOf after as) (s ++ t) := by
  induction h with
  | nil => exact ht
  | cons first rest ih =>
      rw [List.append_assoc]
      exact starts_spelled first ih

theorem first_of_laid {as : List Atom} {s t : Bytes} {new new' : Groups UInt8}
    {after : UInt8 → Bool} {tail : List (Regex UInt8)} {fit : Bytes → Prop} (h : Laid as s new)
    (hseparated : Separated after as = true) (htail : First (seqs tail) t new' fit)
    (hafter : ∀ rest, fit rest → Starts after (t ++ rest)) :
    First (seqs (as.map Atom.regex ++ tail)) (s ++ t) (new' ++ new) fit := by
  induction h with
  | nil => simpa using htail
  | @cons a as s u new₁ new₂ first rest ih =>
      rw [Separated, Bool.and_eq_true] at hseparated
      rw [List.map_cons, List.cons_append, List.append_assoc, ← List.append_assoc new']
      refine first_seqs_cons (first_of_spelled first) (ih hseparated.2) fun rest' hrest' => ?_
      intro x hx
      rw [List.append_assoc] at hx
      have hstarts := starts_laid rest (hafter rest' hrest') x hx
      have hall := List.all_eq_true.mp hseparated.1 x (mem_allBytes x)
      simpa [hstarts] using hall

end Pieces

section Inversion

theorem takes_of_spelled {a : Atom} {s : Bytes} {new : Groups UInt8} (h : Spelled a s new) :
    Takes a.regex s := by
  obtain ⟨ws, hws⟩ := List.head?_eq_some_iff.mp (first_of_spelled h [] [] (noStart_nil _))
  obtain ⟨b, hb, hs⟩ := exists_takes_of_mem_ways (hws ▸ List.mem_cons_self)
  rw [List.append_nil, List.append_nil] at hs
  rwa [hs]

theorem takes_of_laid {as : List Atom} {s : Bytes} {new : Groups UInt8} (h : Laid as s new) :
    Takes (seqs (as.map Atom.regex)) s := by
  induction h with
  | nil => rfl
  | cons first rest ih => exact ⟨_, _, takes_of_spelled first, ih, rfl⟩

theorem exists_spelled_of_takes {a : Atom} {s : Bytes} (h : Takes a.regex s) :
    ∃ new, Spelled a s new := by
  cases a with
  | keyword k => exact ⟨[], .keyword ⟨s, takes_literal.mp h⟩⟩
  | spaces =>
      obtain ⟨hne, hspace⟩ := takes_plus.mp h
      exact ⟨[], .spaces ⟨⟨s, hspace⟩, hne⟩⟩
  | mayBeSpaces => exact ⟨[], .mayBeSpaces ⟨s, takes_star_char.mp h⟩⟩
  | word n =>
      obtain ⟨hne, hword⟩ := takes_plus.mp h
      exact ⟨_, .word n ⟨s, hne, hword⟩⟩
  | principal n =>
      obtain ⟨hne, hword⟩ := takes_plus.mp h
      exact ⟨_, .principal n ⟨s, hne, hword⟩⟩
  | operand n mail =>
      rcases h with hname | ⟨dollar, digits, hdollar, hdigits, rfl⟩
      · obtain ⟨hne, hnamed⟩ := takes_plus.mp hname
        exact ⟨_, .operand n (.name s hne hnamed)⟩
      · obtain ⟨hne, hdigit⟩ := takes_plus.mp hdigits
        rw [eq_of_lower_eq (by decide) (takes_literal.mp hdollar)]
        exact ⟨_, .operand n (.parameter digits hne hdigit)⟩
  | list n =>
      obtain ⟨first, rest, hfirst, ⟨items, rest', hitems, rfl, rfl⟩, rfl⟩ := h
      obtain ⟨hne, hword⟩ := takes_plus.mp hfirst
      obtain ⟨others, hothers⟩ : ∃ others : List (Gap × Word),
          items = others.flatMap Columns.item := by
        obtain ⟨bs, hbs, rfl⟩ := hitems
        induction bs with
        | nil => exact ⟨[], rfl⟩
        | cons b bs ih =>
            obtain ⟨hb, hbs⟩ := List.forall_mem_cons.mp hbs
            obtain ⟨others, hothers⟩ := ih hbs
            obtain ⟨i, rfl⟩ : ∃ i, b = Columns.item i := by
              obtain ⟨comma, rest, hcomma, ⟨gap, rest, hgap, ⟨name, rest, hname, rfl, rfl⟩, rfl⟩,
                rfl⟩ := hb
              obtain ⟨hne, hword⟩ := takes_plus.mp hname
              refine ⟨⟨⟨gap, takes_star_char.mp hgap⟩, ⟨name, hne, hword⟩⟩, ?_⟩
              rw [eq_comma_of_takes hcomma, List.append_nil]
              rfl
            exact ⟨i :: others, by rw [List.flatten_cons, hothers, List.flatMap_cons]⟩
      have hspelled := Spelled.list n ⟨⟨first, hne, hword⟩, others⟩
      rw [hothers, List.append_nil]
      exact ⟨_, hspelled⟩

theorem exists_laid_of_takes {as : List Atom} {s : Bytes}
    (h : Takes (seqs (as.map Atom.regex)) s) : ∃ new, Laid as s new := by
  induction as generalizing s with
  | nil =>
      obtain rfl : s = [] := h
      exact ⟨[], .nil⟩
  | cons a as ih =>
      obtain ⟨t, u, ht, hu, rfl⟩ := h
      obtain ⟨new, hspelled⟩ := exists_spelled_of_takes ht
      obtain ⟨new', hlaid⟩ := ih hu
      exact ⟨_, .cons hspelled hlaid⟩

variable {as : List Atom} {b : Bytes} {new : Groups UInt8} {s : String}

theorem Laid.exists_keyword (h : Laid (.keyword s :: as) b new) :
    ∃ (k : Keyword s) (u : Bytes) (new' : Groups UInt8), b = k.bytes ++ u ∧ Laid as u new' := by
  cases h with
  | cons first rest =>
      cases first with
      | keyword k => exact ⟨k, _, _, rfl, rest⟩

theorem Laid.exists_spaces (h : Laid (.spaces :: as) b new) :
    ∃ (k : Break) (u : Bytes) (new' : Groups UInt8), b = k.bytes ++ u ∧ Laid as u new' := by
  cases h with
  | cons first rest =>
      cases first with
      | spaces k => exact ⟨k, _, _, rfl, rest⟩

theorem Laid.exists_mayBeSpaces (h : Laid (.mayBeSpaces :: as) b new) :
    ∃ (g : Gap) (u : Bytes) (new' : Groups UInt8), b = g.bytes ++ u ∧ Laid as u new' := by
  cases h with
  | cons first rest =>
      cases first with
      | mayBeSpaces g => exact ⟨g, _, _, rfl, rest⟩

theorem Laid.exists_word {n : Nat} (h : Laid (.word n :: as) b new) :
    ∃ (w : Word) (u : Bytes) (new' : Groups UInt8), b = w.bytes ++ u ∧ Laid as u new' := by
  cases h with
  | cons first rest =>
      cases first with
      | word _ w => exact ⟨w, _, _, rfl, rest⟩

theorem Laid.exists_list {n : Nat} (h : Laid (.list n :: as) b new) :
    ∃ (cols : Columns) (u : Bytes) (new' : Groups UInt8), b = cols.text ++ u ∧ Laid as u new' := by
  cases h with
  | cons first rest =>
      cases first with
      | list _ cols => exact ⟨cols, _, _, rfl, rest⟩

theorem Laid.eq_nil (h : Laid [] b new) : b = [] := by
  cases h with
  | nil => rfl

theorem Laid.exists_append {bs : List Atom} (h : Laid (as ++ bs) b new) :
    ∃ s t new' new'', b = s ++ t ∧ Laid as s new' ∧ Laid bs t new'' := by
  induction as generalizing b new with
  | nil => exact ⟨[], b, [], new, rfl, .nil, h⟩
  | cons a as ih =>
      cases h with
      | cons first rest =>
          obtain ⟨s, t, new', new'', rfl, hs, ht⟩ := ih rest
          exact ⟨_, t, _, new'', (List.append_assoc ..).symm, .cons first hs, ht⟩

theorem Keyword.bytes_open (k : Keyword "(") : k.bytes = utf8 "(" :=
  eq_of_lower_eq (by decide) k.spelled

theorem Keyword.bytes_close (k : Keyword ")") : k.bytes = utf8 ")" :=
  eq_of_lower_eq (by decide) k.spelled

end Inversion

section Lookup

variable {n k : Nat} {cols : Columns}

theorem lookup_groups_self : (cols.groups n).lookup n = some cols.text := by
  rw [Columns.groups, List.lookup_cons_self]

theorem lookup_groups_of_ne (hk : k ≠ n) (hk' : k ≠ n + 1) : (cols.groups n).lookup k = none := by
  rw [Columns.groups, List.lookup_cons, beq_eq_false_iff_ne.mpr hk, List.lookup_eq_none_iff]
  intro p hp
  obtain ⟨i, -, rfl⟩ := List.mem_map.mp hp
  exact bne_iff_ne.mpr hk'

end Lookup

section Words

theorem search_word (w : Word) {rest : Bytes} (hrest : NoStart isWord rest) :
    search (word 0) (w.bytes ++ rest) = some ⟨[], [(0, w.bytes)], rest⟩ :=
  search_of_matchHere (matchHere_of_first (first_of_spelled (.word 0 w)) hrest)

theorem matchHere_word_cons {c : UInt8} (hc : isWord c = false) (s : Bytes) :
    matchHere (word 0) (c :: s) = none := by
  refine matchHere_eq_none fun a rest ha heq => ?_
  obtain ⟨hne, hword⟩ := takes_plus.mp ha
  obtain ⟨x, a, rfl⟩ := List.exists_cons_of_ne_nil hne
  obtain ⟨rfl, -⟩ := List.cons.inj heq
  exact absurd (hword c List.mem_cons_self) (by simp [hc])

theorem searchWords_append {sep : Bytes} (hsep : ∀ c ∈ sep, isWord c = false) (n : Nat) (s : Bytes) :
    searchWords n (sep ++ s) = searchWords n s := by
  cases n with
  | zero => rfl
  | succ n =>
      induction sep with
      | nil => rfl
      | cons c sep ih =>
          obtain ⟨hc, hsep⟩ := List.forall_mem_cons.mp hsep
          rw [← ih hsep, searchWords, searchWords, List.cons_append,
            search_cons_of_matchHere_none (matchHere_word_cons hc _)]
          cases search (word 0) (sep ++ s) <;> rfl

theorem searchWords_word (w : Word) {rest : Bytes} (hrest : NoStart isWord rest) (n : Nat) :
    searchWords (n + 1) (w.bytes ++ rest) = w.bytes :: searchWords n rest := by
  rw [searchWords, search_word w hrest]
  rfl

theorem not_isWord_of_isSpace {x : UInt8} (h : isSpace x = true) : isWord x = false := by
  by_contra hword
  rw [Bool.not_eq_false] at hword
  exact absurd (isSpace_of_isWord hword) (by simp [h])

theorem noStart_items (others : List (Gap × Word)) : NoStart isWord (others.flatMap Columns.item) := by
  cases others with
  | nil => exact noStart_nil _
  | cons i others => exact noStart_cons.mpr (by decide)

theorem searchWords_items {others : List (Gap × Word)} {n : Nat} (hn : others.length ≤ n) :
    searchWords n (others.flatMap Columns.item) = others.map fun i => i.2.bytes := by
  induction others generalizing n with
  | nil =>
      cases n with
      | zero => rfl
      | succ n => rfl
  | cons i others ih =>
      obtain ⟨n, rfl⟩ : ∃ n', n = n' + 1 := ⟨n - 1, by rw [List.length_cons] at hn; omega⟩
      have hsep : ∀ c ∈ 44 :: i.1.bytes, isWord c = false :=
        List.forall_mem_cons.mpr ⟨by decide, fun c hc => not_isWord_of_isSpace (i.1.space c hc)⟩
      have hitem : (i :: others).flatMap Columns.item =
          (44 :: i.1.bytes) ++ (i.2.bytes ++ others.flatMap Columns.item) := by
        rw [List.flatMap_cons, Columns.item, List.cons_append, List.append_assoc, List.cons_append]
      rw [hitem, searchWords_append hsep, searchWords_word i.2 (noStart_items others),
        ih (Nat.le_of_succ_le_succ hn), List.map_cons]

/-- The search for words finds the names of a list, one after the other. -/
theorem searchWords_text (cols : Columns) :
    searchWords cols.text.length cols.text = cols.names := by
  have hlength : cols.others.length + 1 ≤ cols.text.length := by
    have hfirst := List.length_pos_of_ne_nil cols.first.ne_nil
    have hitems : ∀ others : List (Gap × Word),
        others.length ≤ (others.flatMap Columns.item).length := by
      intro others
      induction others with
      | nil => exact le_rfl
      | cons i others ih =>
          rw [List.flatMap_cons, List.length_append, List.length_cons, Columns.item,
            List.length_cons]
          omega
    have hothers := hitems cols.others
    rw [Columns.text, List.length_append]
    omega
  obtain ⟨n, hn⟩ : ∃ n, cols.text.length = n + 1 := ⟨cols.text.length - 1, by omega⟩
  rw [hn, Columns.text, searchWords_word cols.first (noStart_items cols.others),
    searchWords_items (by omega), Columns.names]

end Words

end PgFort.CommandLayouts
