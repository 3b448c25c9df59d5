import Mathlib.Data.Fin.VecNotation
import PgFort.CommandLayouts
import PgFort.RoleNames

namespace PgFort.IdQueries

open PgFort.Framing
open PgFort.Conn
open PgFort.Regexes
open PgFort.FirstWays
open PgFort.ProxyCommand
open PgFort.CommandLayouts
open PgFort.RoleNames

/-- `BIND ACCESS ROLE role TO principal ON table (`, in a layout that the pattern has room for. -/
structure Binding where
  bind : Keyword "BIND"
  access : Keyword "ACCESS"
  roleKeyword : Keyword "ROLE"
  target : Keyword "TO"
  on : Keyword "ON"
  breaks : Fin 7 → Break
  gap : Gap
  role : Word
  principal : Principal
  table : Word

namespace Binding

variable (c : Binding)

def head : Bytes :=
  c.bind.bytes ++ ((c.breaks 0).bytes ++ (c.access.bytes ++ ((c.breaks 1).bytes ++
    (c.roleKeyword.bytes ++ ((c.breaks 2).bytes ++ (c.role.bytes ++ ((c.breaks 3).bytes ++
    (c.target.bytes ++ ((c.breaks 4).bytes ++ (c.principal.bytes ++ ((c.breaks 5).bytes ++
    (c.on.bytes ++ ((c.breaks 6).bytes ++ (c.table.bytes ++ (c.gap.bytes ++
    utf8 "(")))))))))))))))

/-- What the command becomes when the query for the ids is `e`. -/
def sql (e : Bytes) : Bytes :=
  insertBinding c.role.bytes c.principal.bytes c.table.bytes e

end Binding

/-- `UNBIND ACCESS ROLE role FROM principal ON table (`, where each may be a parameter. -/
structure Unbinding where
  unbind : Keyword "UNBIND"
  access : Keyword "ACCESS"
  roleKeyword : Keyword "ROLE"
  source : Keyword "FROM"
  on : Keyword "ON"
  breaks : Fin 7 → Break
  gap : Gap
  role : Operand false
  principal : Operand true
  table : Operand false

namespace Unbinding

variable (c : Unbinding)

def head : Bytes :=
  c.unbind.bytes ++ ((c.breaks 0).bytes ++ (c.access.bytes ++ ((c.breaks 1).bytes ++
    (c.roleKeyword.bytes ++ ((c.breaks 2).bytes ++ (c.role.bytes ++ ((c.breaks 3).bytes ++
    (c.source.bytes ++ ((c.breaks 4).bytes ++ (c.principal.bytes ++ ((c.breaks 5).bytes ++
    (c.on.bytes ++ ((c.breaks 6).bytes ++ (c.table.bytes ++ (c.gap.bytes ++
    utf8 "(")))))))))))))))

def value {mail : Bool} : Operand mail → Bytes
  | .name bytes _ _ => utf8 "'" ++ bytes ++ utf8 "'"
  | .parameter digits _ _ => 36 :: digits

/-- What the command becomes when the query for the ids is `e`. -/
def sql (e : Bytes) : Bytes :=
  utf8 "DELETE FROM __access_binding_refs__ r USING " ++ c.table.bytes ++
    utf8 "__access_bindings__ b WHERE b._id = (" ++ e ++ utf8 ") AND b._role = " ++ value c.role ++
    utf8 " AND b._principal = " ++ value c.principal ++
    utf8 " AND b._inheritance = 0 AND b._ref = r._id"

end Unbinding

/-- The rest of a text begins with a semicolon, or is empty. -/
def Ends (rest : Bytes) : Prop := rest = [] ∨ ∃ rest', rest = 59 :: rest'

/-- What stands around the head of a command: the text up to a semicolon, the text behind that, in
which no command begins, the query, the text behind it up to the next semicolon, and the rest. -/
structure Surroundings (r : Regex UInt8) (head : Bytes) where
  earlier : Bytes
  before : Bytes
  e : Bytes
  w : Bytes
  rest : Bytes
  ended : earlier = [] ∨ ∃ s, earlier = s ++ [59]
  free : Unmatched r before (head ++ (e ++ 41 :: (w ++ rest)))
  semicolon_e : 59 ∉ e
  semicolon_w : 59 ∉ w
  ends : Ends rest

namespace Surroundings

variable {r : Regex UInt8} {head : Bytes} (o : Surroundings r head)

def text : Bytes := o.earlier ++ (o.before ++ (head ++ (o.e ++ 41 :: (o.w ++ o.rest))))

/-- The pass puts the SQL with the query in place of the command, and copies the text behind it. -/
def Delimited (pass : Bytes → Except Conn.Error Bytes) (sql : Bytes → Bytes) : Prop :=
  ∃ earlier' rest', pass o.earlier = .ok earlier' ∧ pass o.rest = .ok rest' ∧
    pass o.text = .ok (earlier' ++ (o.before ++ (sql o.e ++ (o.w ++ rest'))))

end Surroundings

/-- The end of a pattern: a query in parentheses. -/
def queryTail (k : Nat) : List (Regex UInt8) := [.group k (plus (· != 59)), literal ")"]

def withQuery (atoms : List Atom) (k : Nat) : Regex UInt8 :=
  seqs (atoms.map Atom.regex ++ queryTail k)

/-- No parenthesis closes before the next semicolon. -/
def Unclosed (s : Bytes) : Prop :=
  ∀ a u, s = a ++ u → 59 ∉ a → 41 ∉ a

section Queries

theorem takes_close {a : Bytes} (h : Takes (seqs [literal ")"]) a) : a = [41] := by
  obtain ⟨b, c, hb, rfl, rfl⟩ := h
  rw [List.append_nil]
  exact eq_of_lower_eq (by decide) (takes_literal.mp hb)

/-- The query goes up to the last parenthesis that closes before a semicolon. -/
theorem first_queryTail (k : Nat) {body : Bytes} (hbody : body ≠ []) (hsemi : 59 ∉ body) :
    First (seqs (queryTail k)) (body ++ [41]) [(k, body)] Unclosed := by
  intro gs rest hrest
  obtain ⟨c, body, rfl⟩ := List.exists_cons_of_ne_nil hbody
  have hother : ∀ x ∈ c :: body, (x != 59) = true := by
    intro x hx
    refine bne_iff_ne.mpr ?_
    rintro rfl
    exact hsemi hx
  obtain ⟨hc, hothers⟩ := List.forall_mem_cons.mp hother
  let s := c :: (body ++ 41 :: rest)
  have hways : ways (seqs (queryTail k)) gs s =
      (ways (.star true (.char (· != 59))) gs (body ++ 41 :: rest)).flatMap fun w =>
        ways (seqs [literal ")"]) ((k, upTo s w.2) :: w.1) w.2 := by
    change ((((ways (.char (· != 59)) gs s).flatMap fun w =>
      ways (.star true (.char (· != 59))) w.1 w.2).map fun w =>
        ((k, upTo s w.2) :: w.1, w.2)).flatMap fun w => ways (seqs [literal ")"]) w.1 w.2) = _
    rw [ways, if_pos hc, List.flatMap_singleton, List.flatMap_map]
  have htext : c :: body ++ [41] ++ rest = s := by
    simp only [s, List.append_assoc, List.cons_append, List.nil_append]
  rw [htext, hways]
  refine head?_flatMap_star hothers ?_ fun a u hsplit ha hall => ways_eq_nil fun b v hb hu => ?_
  · have htaken : upTo s (41 :: rest) = c :: body := by
      have hs : s = (c :: body) ++ 41 :: rest := rfl
      rw [hs, upTo, List.length_append, Nat.add_sub_cancel, List.take_left]
    have hclose := first_seqs_singleton (first_literal (s := ")") ⟨[41], rfl⟩)
    rw [htaken]
    exact hclose ((k, c :: body) :: gs) rest trivial
  · obtain ⟨x, a, rfl⟩ := List.exists_cons_of_ne_nil ha
    have hsplit' : rest = a ++ u := (List.cons.inj hsplit).2
    have hu' : u = [41] ++ v := takes_close hb ▸ hu
    refine hrest (a ++ [41]) v ?_ ?_ (by simp)
    · rw [hsplit', hu', List.append_assoc]
    · rw [List.mem_append, not_or]
      refine ⟨fun h => ?_, by decide⟩
      exact absurd (hall 59 (List.mem_cons_of_mem _ h)) (by decide)

variable {atoms : List Atom} {k : Nat} {head : Bytes} {new : Groups UInt8}
  {f : Groups UInt8 → Except Conn.Error Bytes} {w rest : Bytes}

theorem matchHere_withQuery (hlaid : Laid atoms head new)
    (hseparated : Separated (fun _ => true) atoms = true) {body : Bytes} (hbody : body ≠ [])
    (hsemi : 59 ∉ body) (hrest : Unclosed rest) :
    matchHere (withQuery atoms k) (head ++ (body ++ 41 :: rest)) =
      some ⟨[], (k, body) :: new, rest⟩ := by
  have hfirst := first_of_laid hlaid hseparated (first_queryTail k hbody hsemi)
    fun _ _ _ _ => rfl
  have hmatch := matchHere_of_first hfirst hrest
  rw [List.append_assoc, List.append_assoc] at hmatch
  exact hmatch

theorem unclosed_append (hw : 41 ∉ w) (hends : Ends rest) : Unclosed (w ++ rest) := by
  intro a u hsplit hsemi hclose
  rcases List.append_eq_append_iff.mp hsplit with ⟨v, rfl, hrest⟩ | ⟨v, rfl, -⟩
  · rcases List.mem_append.mp hclose with hin | hin
    · exact hw hin
    · obtain ⟨x, v, rfl⟩ := List.exists_cons_of_ne_nil (List.ne_nil_of_mem hin)
      rcases hends with rfl | ⟨rest', rfl⟩
      · simp at hrest
      · obtain ⟨rfl, -⟩ := List.cons.inj hrest
        exact hsemi (by simp)
  · exact hw (List.mem_append_left _ hclose)

theorem exists_takes_withQuery {a : Bytes} (h : Takes (withQuery atoms k) a) :
    ∃ b body, a = b ++ (body ++ [41]) ∧ body ≠ [] ∧ Takes (seqs (atoms.map Atom.regex)) b := by
  have hall : ∀ (rs : List (Regex UInt8)) (a : Bytes), Takes (seqs (rs ++ queryTail k)) a →
      ∃ b body, a = b ++ (body ++ [41]) ∧ body ≠ [] ∧ Takes (seqs rs) b := by
    intro rs
    induction rs with
    | nil =>
        rintro a ⟨body, close, hbody, hclose, rfl⟩
        rw [takes_close hclose]
        exact ⟨[], body, rfl, (takes_plus.mp hbody).1, rfl⟩
    | cons r rs ih =>
        rintro a ⟨b, c, hb, hc, rfl⟩
        obtain ⟨d, body, rfl, hbody, hd⟩ := ih c hc
        exact ⟨b ++ d, body, (List.append_assoc ..).symm, hbody, b, d, hb, hd, rfl⟩
  exact hall _ a h

theorem unmatched_of_unclosed (havoids : (withQuery atoms k).avoids 59 = true) (hw : 41 ∉ w)
    (hends : Ends rest) : Unmatched (withQuery atoms k) w rest := by
  intro a u hsplit _
  refine matchHere_eq_none fun b v hb heq => ?_
  have hu : 41 ∉ u := fun h => hw (hsplit ▸ List.mem_append_right a h)
  obtain ⟨c, body, rfl, -, -⟩ := exists_takes_withQuery hb
  exact unclosed_append hu hends _ v heq (not_mem_of_takes havoids hb) (by simp)

theorem eq_of_append_cons {c : UInt8} {p q y v : Bytes} (h : p ++ c :: q = y ++ c :: v)
    (hp : c ∉ p) (hlater : ∀ z, y = p ++ c :: z → q = z ++ c :: v → False) : y = p := by
  rcases List.append_eq_append_iff.mp h with ⟨z, hy, hz⟩ | ⟨z, hpz, hz⟩
  · cases z with
    | nil => rw [hy, List.append_nil]
    | cons x z =>
        obtain ⟨rfl, hq⟩ := List.cons.inj hz
        exact (hlater z hy hq).elim
  · cases z with
    | nil => rw [hpz, List.append_nil]
    | cons x z =>
        obtain ⟨rfl, -⟩ := List.cons.inj hz
        exact absurd (hpz ▸ by simp) hp

end Queries

/-- A pattern for a command with a query: the words in front of the parenthesis that opens, and the
number of the group for the query. -/
structure QueryPattern where
  words : List Atom
  number : Nat
  separated : Separated (fun _ => true) (words ++ [.keyword "("]) = true
  words_avoid : ∀ c ∈ [40, 41, 59], (seqs (words.map Atom.regex)).avoids c = true
  avoids : (withQuery (words ++ [.keyword "("]) number).avoids 59 = true
  not_nullable : (withQuery (words ++ [.keyword "("]) number).nullable = false

namespace QueryPattern

variable (q : QueryPattern)

def atoms : List Atom := q.words ++ [.keyword "("]

def regex : Regex UInt8 := withQuery q.atoms q.number

theorem regex_avoids : q.regex.avoids 59 = true := q.avoids

theorem regex_not_nullable : q.regex.nullable = false := q.not_nullable

end QueryPattern

section Pass

variable {q : QueryPattern} {f : Groups UInt8 → Except Conn.Error Bytes}
  {head pre post e w rest rest' : Bytes} {new : Groups UInt8}

theorem exists_of_laid_open (hlaid : Laid q.atoms head new) :
    ∃ h : Bytes, 40 ∉ h ∧ 41 ∉ h ∧ 59 ∉ h ∧ head = h ++ [40] := by
  obtain ⟨h, last, _, _, rfl, hh, hlast⟩ := hlaid.exists_append
  obtain ⟨parenthesis, _, _, rfl, hnil⟩ := hlast.exists_keyword
  have havoid (c : UInt8) (hc : c ∈ [40, 41, 59]) : c ∉ h :=
    not_mem_of_takes (q.words_avoid c hc) (takes_of_laid hh)
  refine ⟨h, havoid 40 (by decide), havoid 41 (by decide), havoid 59 (by decide), ?_⟩
  rw [parenthesis.bytes_open, hnil.eq_nil, List.append_nil]
  rfl

theorem unmatched_of_empty (hlaid : Laid q.atoms head new) (hw : 41 ∉ w) (hsemi : 59 ∉ w)
    (hends : Ends rest) : Unmatched q.regex (head ++ 41 :: w) rest := by
  obtain ⟨h, h40, h41, h59, rfl⟩ := exists_of_laid_open hlaid
  intro x u hsplit _
  refine matchHere_eq_none fun a v ha heq => ?_
  have ha59 := not_mem_of_takes q.regex_avoids ha
  obtain ⟨b, body, rfl, hbody, hb⟩ := exists_takes_withQuery ha
  have hx59 : 59 ∉ x := by
    intro hx
    have hin : 59 ∈ h ++ [40] ++ 41 :: w := hsplit ▸ List.mem_append_left u hx
    simp [h59, hsemi] at hin
  have htexts : (h ++ [40]) ++ 41 :: (w ++ rest) = (x ++ (b ++ body)) ++ 41 :: v := by
    have happend := congrArg (· ++ rest) hsplit
    simp only [List.append_assoc, List.cons_append, List.nil_append] at happend heq ⊢
    rw [happend, heq]
  have hquery : x ++ (b ++ body) = h ++ [40] := by
    refine eq_of_append_cons htexts (by simp [h41]) fun z hz hv => ?_
    refine unclosed_append hw hends (z ++ [41]) v (by rw [hv, List.append_assoc]; rfl) ?_ (by simp)
    have hz59 : 59 ∉ x ++ (b ++ body) := by
      simp only [List.mem_append, not_or] at ha59 ⊢
      exact ⟨hx59, ha59.1, ha59.2.1⟩
    rw [hz] at hz59
    simpa [h59] using hz59
  rcases List.eq_nil_or_concat body with rfl | ⟨body, c, rfl⟩
  · exact hbody rfl
  · rw [List.concat_eq_append, ← List.append_assoc, ← List.append_assoc] at hquery
    obtain ⟨hh, -⟩ := List.append_inj' hquery rfl
    obtain ⟨new', hb⟩ := exists_laid_of_takes hb
    obtain ⟨h', -, -, -, rfl⟩ := exists_of_laid_open (q := q) hb
    exact h40 (hh ▸ by simp)

theorem replace_ended {earlier : Bytes} (h : earlier = [] ∨ ∃ s, earlier = s ++ [59]) (s : Bytes) :
    replace q.regex f (earlier ++ s) = do
      let a ← replace q.regex f earlier
      let b ← replace q.regex f s
      return a ++ b := by
  have hnil : replace q.regex f [] = .ok [] := rfl
  rcases h with rfl | ⟨x, rfl⟩
  · rw [List.nil_append, hnil]
    cases replace q.regex f s <;> rfl
  · rw [List.append_assoc, List.singleton_append,
      replace_append q.regex_avoids q.regex_not_nullable,
      replace_append q.regex_avoids q.regex_not_nullable x [], hnil]
    cases replace q.regex f x with
    | error err => rfl
    | ok a =>
        cases replace q.regex f s with
        | error err => rfl
        | ok b =>
            change Except.ok (a ++ 59 :: b) = Except.ok ((a ++ [59]) ++ b)
            rw [List.append_assoc, List.singleton_append]

theorem exists_last_close (h : 41 ∈ w) : ∃ w₁ w₂, w = w₁ ++ 41 :: w₂ ∧ 41 ∉ w₂ := by
  obtain ⟨xs, ys, hw, hxs⟩ := List.eq_append_cons_of_mem (List.mem_reverse.mpr h)
  refine ⟨ys.reverse, xs.reverse, ?_, fun hin => hxs (List.mem_reverse.mp hin)⟩
  rw [← List.reverse_reverse w, hw, List.reverse_append, List.reverse_cons, List.append_assoc]
  rfl

theorem replace_unclosed (hw : 41 ∉ w) (hends : Ends rest)
    (hrest : replace q.regex f rest = .ok rest') :
    replace q.regex f (w ++ rest) = .ok (w ++ rest') := by
  rw [replace_of_unmatched q.regex_not_nullable (unmatched_of_unclosed q.regex_avoids hw hends), hrest]
  rfl

theorem replace_query (hlaid : Laid q.atoms head new)
    (hput : ∀ body, f ((q.number, body) :: new) = .ok (pre ++ (body ++ post))) {body : Bytes}
    (hbody : body ≠ []) (hsemi : 59 ∉ body) (hw : 41 ∉ w) (hends : Ends rest)
    (hrest : replace q.regex f rest = .ok rest') :
    replace q.regex f (head ++ (body ++ 41 :: (w ++ rest))) =
      .ok ((pre ++ (body ++ post)) ++ (w ++ rest')) := by
  have hmatch : matchHere q.regex _ = _ :=
    matchHere_withQuery hlaid q.separated hbody hsemi (unclosed_append hw hends)
  rw [replace_of_matchHere q.regex_not_nullable hmatch, replace_unclosed hw hends hrest]
  simp only [hput]
  rfl

theorem replace_empty (hlaid : Laid q.atoms head new) (hw : 41 ∉ w) (hsemi : 59 ∉ w)
    (hends : Ends rest) (hrest : replace q.regex f rest = .ok rest') :
    replace q.regex f (head ++ 41 :: (w ++ rest)) = .ok (head ++ 41 :: (w ++ rest')) := by
  have hcopied := replace_of_unmatched (f := f) q.regex_not_nullable
    (unmatched_of_empty hlaid hw hsemi hends)
  rw [hrest, List.append_assoc, List.cons_append] at hcopied
  rw [hcopied]
  change Except.ok ((head ++ 41 :: w) ++ rest') = _
  rw [List.append_assoc, List.cons_append]

variable {c : UInt8} (hlast : ∃ s, post = s ++ [c]) (hc : c ≠ 41)

include hlast hc in
theorem closed_ne {w₁ w₂ : Bytes} :
    pre ++ ((e ++ 41 :: w₁) ++ post) ++ (w₂ ++ rest) ≠
      pre ++ (e ++ post) ++ ((w₁ ++ 41 :: w₂) ++ rest) := by
  obtain ⟨s, rfl⟩ := hlast
  intro h
  simp only [List.append_assoc, List.cons_append, List.append_cancel_left_eq] at h
  have hends : ((41 :: (w₁ ++ s)) ++ [c]) ++ (w₂ ++ rest) =
      ((s ++ c :: w₁) ++ [41]) ++ (w₂ ++ rest) := by
    simpa [List.append_assoc] using h
  obtain ⟨-, hlast⟩ := List.append_inj' (List.append_cancel_right hends) rfl
  exact hc (List.cons.inj hlast).1

include hlast hc in
theorem delimited_iff_of_laid (hlaid : Laid q.atoms head new)
    (hput : ∀ body, f ((q.number, body) :: new) = .ok (pre ++ (body ++ post)))
    (hf : ∀ gs, ∃ t, f gs = .ok t) (o : Surroundings q.regex head) :
    o.Delimited (replace q.regex f) (fun e => pre ++ (e ++ post)) ↔ o.e ≠ [] ∧ 41 ∉ o.w := by
  obtain ⟨earlier', hearlier⟩ := exists_replace q.regex_not_nullable hf o.earlier
  obtain ⟨rest', hrest⟩ := exists_replace q.regex_not_nullable hf o.rest
  have hall {x : Bytes} (hx : replace q.regex f (head ++ (o.e ++ 41 :: (o.w ++ o.rest))) = .ok x) :
      replace q.regex f o.text = .ok (earlier' ++ (o.before ++ x)) := by
    rw [Surroundings.text, replace_ended o.ended, replace_of_unmatched q.regex_not_nullable o.free,
      hearlier, hx]
    rfl
  have hdelimited {x : Bytes} (hx : replace q.regex f (head ++ (o.e ++ 41 :: (o.w ++ o.rest))) =
      .ok x) : o.Delimited (replace q.regex f) (fun e => pre ++ (e ++ post)) ↔
        x = (pre ++ (o.e ++ post)) ++ (o.w ++ rest') := by
    constructor
    · rintro ⟨a, b, ha, hb, htext⟩
      obtain rfl := Except.ok.inj (hearlier.symm.trans ha)
      obtain rfl := Except.ok.inj (hrest.symm.trans hb)
      have heq := Except.ok.inj ((hall hx).symm.trans htext)
      exact List.append_cancel_left (List.append_cancel_left heq)
    · rintro rfl
      exact ⟨earlier', rest', hearlier, hrest, hall hx⟩
  by_cases hin : 41 ∈ o.w
  · obtain ⟨w₁, w₂, hw, hw₂⟩ := exists_last_close hin
    have hsemi := o.semicolon_w
    rw [hw, List.mem_append, List.mem_cons, not_or] at hsemi
    have hbody : 59 ∉ o.e ++ 41 :: w₁ := by simp [o.semicolon_e, hsemi.1]
    have hx := replace_query hlaid hput (by simp) hbody hw₂ o.ends hrest
    have htext : o.e ++ 41 :: (o.w ++ o.rest) = (o.e ++ 41 :: w₁) ++ 41 :: (w₂ ++ o.rest) := by
      rw [hw]
      simp only [List.append_assoc, List.cons_append]
    rw [← htext] at hx
    rw [hdelimited hx, hw]
    exact iff_of_false (closed_ne hlast hc) fun h => h.2 (hw ▸ hin)
  · by_cases he : o.e = []
    · have hx := replace_empty hlaid hin o.semicolon_w o.ends hrest
      rw [← List.nil_append (41 :: (o.w ++ o.rest)), ← he] at hx
      rw [hdelimited hx, he]
      refine iff_of_false (fun h => ?_) fun h => h.1 rfl
      obtain ⟨s, rfl⟩ := hlast
      have hends : (head ++ [41]) ++ (o.w ++ rest') = ((pre ++ s) ++ [c]) ++ (o.w ++ rest') := by
        simpa [List.append_assoc] using h
      obtain ⟨-, hlast⟩ := List.append_inj' (List.append_cancel_right hends) rfl
      exact hc (List.cons.inj hlast).1.symm
    · have hx := replace_query hlaid hput he o.semicolon_e hin o.ends hrest
      rw [hdelimited hx]
      exact iff_of_true rfl ⟨he, hin⟩

end Pass

section Commands

/-- What stands around the query in BIND ACCESS ROLE. -/
def bindQuery : QueryPattern where
  words := [.keyword "BIND", .spaces, .keyword "ACCESS", .spaces, .keyword "ROLE", .spaces, .word 1,
    .spaces, .keyword "TO", .spaces, .principal 2, .spaces, .keyword "ON", .spaces, .word 3,
    .mayBeSpaces]
  number := 4
  separated := by decide +kernel
  words_avoid := by decide +kernel
  avoids := by decide +kernel
  not_nullable := by decide +kernel

theorem regex_bindQuery : bindQuery.regex = bindAccessRole := rfl

/-- What stands around the query in UNBIND ACCESS ROLE. -/
def unbindQuery : QueryPattern where
  words := [.keyword "UNBIND", .spaces, .keyword "ACCESS", .spaces, .keyword "ROLE", .spaces,
    .operand 1 false, .spaces, .keyword "FROM", .spaces, .operand 4 true, .spaces, .keyword "ON",
    .spaces, .operand 7 false, .mayBeSpaces]
  number := 10
  separated := by decide +kernel
  words_avoid := by decide +kernel
  avoids := by decide +kernel
  not_nullable := by decide +kernel

theorem regex_unbindQuery : unbindQuery.regex = unbindAccessRole := rfl

def parenthesis : Keyword "(" := ⟨utf8 "(", rfl⟩

theorem exists_laid_binding (c : Binding) :
    ∃ new, Laid bindQuery.atoms c.head new ∧ text new 1 = c.role.bytes ∧
      text new 2 = c.principal.bytes ∧ text new 3 = c.table.bytes := by
  have hlaid := Laid.cons (.keyword c.bind) <| .cons (.spaces (c.breaks 0)) <|
    .cons (.keyword c.access) <| .cons (.spaces (c.breaks 1)) <|
    .cons (.keyword c.roleKeyword) <| .cons (.spaces (c.breaks 2)) <|
    .cons (.word 1 c.role) <| .cons (.spaces (c.breaks 3)) <|
    .cons (.keyword c.target) <| .cons (.spaces (c.breaks 4)) <|
    .cons (.principal 2 c.principal) <| .cons (.spaces (c.breaks 5)) <|
    .cons (.keyword c.on) <| .cons (.spaces (c.breaks 6)) <|
    .cons (.word 3 c.table) <| .cons (.mayBeSpaces c.gap) <|
    .cons (.keyword parenthesis) .nil
  rw [List.append_nil] at hlaid
  refine ⟨_, hlaid, ?_, ?_, ?_⟩
  all_goals simp [text, List.lookup_cons]

theorem delimited_binding_iff (c : Binding) (o : Surroundings bindAccessRole c.head) :
    o.Delimited translateBindAccessRole c.sql ↔ o.e ≠ [] ∧ 41 ∉ o.w := by
  obtain ⟨new, hlaid, hrole, hprincipal, htable⟩ := exists_laid_binding c
  let pre := utf8
    "WITH r AS   (INSERT INTO __access_binding_refs__ (_origin, _origin_id)       VALUES ('" ++
      (c.table.bytes ++ utf8 "', (")
  let post := utf8 "))       RETURNING *)INSERT INTO " ++ (c.table.bytes ++
    (utf8 "__access_bindings__ (_role, _principal, _id, _ref)   SELECT '" ++ (c.role.bytes ++
    (utf8 "', '" ++ (c.principal.bytes ++ utf8 "', _origin_id, _id   FROM r")))))
  have hsql : c.sql = fun e => pre ++ (e ++ post) := by
    funext e
    simp only [Binding.sql, insertBinding, pre, post, List.append_assoc]
  have hlast : ∃ s, post = s ++ [114] := by
    refine ⟨utf8 "))       RETURNING *)INSERT INTO " ++ (c.table.bytes ++
      (utf8 "__access_bindings__ (_role, _principal, _id, _ref)   SELECT '" ++ (c.role.bytes ++
      (utf8 "', '" ++ (c.principal.bytes ++ utf8 "', _origin_id, _id   FROM "))))), ?_⟩
    simp only [post, List.append_assoc]
    rfl
  have hput (body : Bytes) : Except.ok (ε := Conn.Error)
      (format ((4, body) :: new) (utf8 bindFormat)) = .ok (pre ++ (body ++ post)) := by
    have hgroup (n : Nat) (hn : n ≠ 4) : text ((4, body) :: new) n = text new n := by
      rw [text, List.lookup_cons, beq_eq_false_iff_ne.mpr hn, text]
    rw [format_bindFormat, hgroup 1 (by decide), hgroup 2 (by decide), hgroup 3 (by decide), hrole,
      hprincipal, htable, ← congrFun hsql body]
    rfl
  rw [hsql]
  exact delimited_iff_of_laid hlast (by decide) hlaid hput (fun gs => ⟨_, rfl⟩) o

theorem comparison_name_or_parameter {mail : Bool} {m : Groups UInt8} {n : Nat} (o : Operand mail)
    (hname : m.lookup (n + 1) = (o.groups n).lookup (n + 1))
    (hparameter : m.lookup (n + 2) = (o.groups n).lookup (n + 2)) (column : String) :
    comparison m column (n + 1) (n + 2) = utf8 column ++ Unbinding.value o := by
  have hless (k : Nat) : (n + 1 + k == n) = false := beq_eq_false_iff_ne.mpr (by omega)
  rw [comparison, matched, matched, text, text, hname, hparameter]
  cases o with
  | name bytes hne hnamed =>
      have hfound : ((.name bytes hne hnamed : Operand mail).groups n).lookup (n + 1) =
          some bytes := by
        rw [Operand.groups, List.lookup_cons, hless 0, List.lookup_cons_self]
      rw [hfound, Option.isSome_some, if_pos rfl, Option.getD_some, Unbinding.value]
      simp only [List.append_assoc]
  | parameter digits hne hdigit =>
      have hnone : ((.parameter digits hne hdigit : Operand mail).groups n).lookup (n + 1) =
          none := by
        rw [Operand.groups, List.lookup_cons, hless 0, List.lookup_cons,
          beq_eq_false_iff_ne.mpr (by omega)]
        rfl
      have hfound : ((.parameter digits hne hdigit : Operand mail).groups n).lookup (n + 2) =
          some (36 :: digits) := by
        rw [Operand.groups, List.lookup_cons, hless 1, List.lookup_cons_self]
      rw [hnone, hfound, if_neg (by decide), Option.isSome_some, if_pos rfl, Option.getD_some,
        Unbinding.value]

theorem lookup_operand_groups {mail : Bool} {n k : Nat} (o : Operand mail)
    (hk : k < n ∨ n + 2 < k) : (o.groups n).lookup k = none := by
  rw [List.lookup_eq_none_iff]
  cases o <;>
    · simp only [Operand.groups, List.forall_mem_cons, List.not_mem_nil, false_imp_iff,
        implies_true, and_true, bne_iff_ne]
      omega

theorem exists_laid_unbinding (c : Unbinding) :
    ∃ new, Laid unbindQuery.atoms c.head new ∧ text new 7 = c.table.bytes ∧
      (∀ n ∈ [2, 3], new.lookup n = (c.role.groups 1).lookup n) ∧
      ∀ n ∈ [5, 6], new.lookup n = (c.principal.groups 4).lookup n := by
  have hlaid := Laid.cons (.keyword c.unbind) <| .cons (.spaces (c.breaks 0)) <|
    .cons (.keyword c.access) <| .cons (.spaces (c.breaks 1)) <|
    .cons (.keyword c.roleKeyword) <| .cons (.spaces (c.breaks 2)) <|
    .cons (.operand 1 c.role) <| .cons (.spaces (c.breaks 3)) <|
    .cons (.keyword c.source) <| .cons (.spaces (c.breaks 4)) <|
    .cons (.operand 4 c.principal) <| .cons (.spaces (c.breaks 5)) <|
    .cons (.keyword c.on) <| .cons (.spaces (c.breaks 6)) <|
    .cons (.operand 7 c.table) <| .cons (.mayBeSpaces c.gap) <|
    .cons (.keyword parenthesis) .nil
  rw [List.append_nil] at hlaid
  refine ⟨_, hlaid, ?_, fun n hn => ?_, fun n hn => ?_⟩
  · have hfound : (c.table.groups 7).lookup 7 = some c.table.bytes := by
      cases c.table <;> rw [Operand.groups, List.lookup_cons_self, Operand.bytes]
    simp only [text, List.append_nil, List.nil_append, List.lookup_append, hfound, Option.some_or,
      Option.getD_some]
  · have hsmall : n < 4 := by
      rcases List.mem_pair.mp hn with rfl | rfl <;> decide
    simp only [List.lookup_append, List.append_nil, List.nil_append,
      lookup_operand_groups c.table (.inl (show n < 7 by omega)),
      lookup_operand_groups c.principal (.inl hsmall), Option.none_or]
  · have hsmall : n < 7 := by
      rcases List.mem_pair.mp hn with rfl | rfl <;> decide
    have hlarge : 1 + 2 < n := by
      rcases List.mem_pair.mp hn with rfl | rfl <;> decide
    simp only [List.lookup_append, List.append_nil, List.nil_append,
      lookup_operand_groups c.table (.inl hsmall), lookup_operand_groups c.role (.inr hlarge),
      Option.none_or, Option.or_none]

theorem delimited_unbinding_iff (c : Unbinding) (o : Surroundings unbindAccessRole c.head) :
    o.Delimited translateUnbindAccessRole c.sql ↔ o.e ≠ [] ∧ 41 ∉ o.w := by
  obtain ⟨new, hlaid, htable, hrole, hprincipal⟩ := exists_laid_unbinding c
  let pre := utf8 "DELETE FROM __access_binding_refs__ r USING " ++ (c.table.bytes ++
    utf8 "__access_bindings__ b WHERE b._id = (")
  let post := utf8 ") AND b._role = " ++ (Unbinding.value c.role ++ (utf8 " AND b._principal = " ++
    (Unbinding.value c.principal ++ utf8 " AND b._inheritance = 0 AND b._ref = r._id")))
  have hsql : c.sql = fun e => pre ++ (e ++ post) := by
    funext e
    simp only [Unbinding.sql, pre, post, List.append_assoc]
  have hlast : ∃ s, post = s ++ [100] := by
    refine ⟨utf8 ") AND b._role = " ++ (Unbinding.value c.role ++ (utf8 " AND b._principal = " ++
      (Unbinding.value c.principal ++ utf8 " AND b._inheritance = 0 AND b._ref = r._i"))), ?_⟩
    simp only [post, List.append_assoc]
    rfl
  have hput (body : Bytes) : Except.ok (ε := Conn.Error) (deleteBindingRefs ((10, body) :: new)) =
      .ok (pre ++ (body ++ post)) := by
    have hlookup (n : Nat) (hn : n ≠ 10) : ((10, body) :: new).lookup n = new.lookup n := by
      rw [List.lookup_cons, beq_eq_false_iff_ne.mpr hn]
    have hrole' := comparison_name_or_parameter (m := (10, body) :: new) c.role
      ((hlookup 2 (by decide)).trans (hrole 2 (by decide)))
      ((hlookup 3 (by decide)).trans (hrole 3 (by decide))) " AND b._role = "
    have hprincipal' := comparison_name_or_parameter (m := (10, body) :: new) c.principal
      ((hlookup 5 (by decide)).trans (hprincipal 5 (by decide)))
      ((hlookup 6 (by decide)).trans (hprincipal 6 (by decide))) " AND b._principal = "
    have htable' : text ((10, body) :: new) 7 = c.table.bytes := by
      rw [text, hlookup 7 (by decide), ← htable, text]
    have hquery : text ((10, body) :: new) 10 = body := by
      rw [text, List.lookup_cons_self, Option.getD_some]
    rw [deleteBindingRefs, hrole', hprincipal', htable', hquery, ← congrFun hsql body,
      Unbinding.sql]
    simp only [List.append_assoc]
    rfl
  rw [hsql]
  exact delimited_iff_of_laid hlast (by decide) hlaid hput (fun gs => ⟨_, rfl⟩) o

/-- The query and the text behind the command are delimited exactly if the query is not empty and
no parenthesis closes in that text. -/
theorem delimited_iff (c : Binding) (o : Surroundings bindAccessRole c.head) (d : Unbinding)
    (p : Surroundings unbindAccessRole d.head) :
    (o.Delimited translateBindAccessRole c.sql ↔ o.e ≠ [] ∧ 41 ∉ o.w) ∧
      (p.Delimited translateUnbindAccessRole d.sql ↔ p.e ≠ [] ∧ 41 ∉ p.w) :=
  ⟨delimited_binding_iff c o, delimited_unbinding_iff d p⟩

def aSpace : Break := ⟨⟨utf8 " ", by decide +kernel⟩, by decide +kernel⟩

def parameters : Unbinding where
  unbind := ⟨utf8 "UNBIND", rfl⟩
  access := ⟨utf8 "ACCESS", rfl⟩
  roleKeyword := ⟨utf8 "ROLE", rfl⟩
  source := ⟨utf8 "FROM", rfl⟩
  on := ⟨utf8 "ON", rfl⟩
  breaks := fun _ => aSpace
  gap := aSpace.toGap
  role := .parameter (utf8 "1") (by decide +kernel) (by decide +kernel)
  principal := .parameter (utf8 "2") (by decide +kernel) (by decide +kernel)
  table := .name (utf8 "folders") (by decide +kernel) (by decide +kernel)

/-- `EXECUTE 'UNBIND ACCESS ROLE $1 FROM $2 ON folders ($3)' USING a, b, abs(c);` -/
def callBehind : Surroundings unbindAccessRole parameters.head where
  earlier := []
  before := utf8 "EXECUTE '"
  e := utf8 "$3"
  w := utf8 "' USING a, b, abs(c)"
  rest := utf8 ";"
  ended := .inl rfl
  free := unmatched_of_search (by decide +kernel)
  semicolon_e := by decide +kernel
  semicolon_w := by decide +kernel
  ends := .inr ⟨[], rfl⟩

/-- The query goes on to the parenthesis that closes behind the command. -/
theorem not_delimited_callBehind : ¬callBehind.Delimited translateUnbindAccessRole parameters.sql :=
  fun h => absurd ((delimited_unbinding_iff parameters callBehind).mp h).2 (by decide +kernel)

def docViewer : Binding where
  bind := ⟨utf8 "BIND", rfl⟩
  access := ⟨utf8 "ACCESS", rfl⟩
  roleKeyword := ⟨utf8 "ROLE", rfl⟩
  target := ⟨utf8 "TO", rfl⟩
  on := ⟨utf8 "ON", rfl⟩
  breaks := fun _ => aSpace
  gap := aSpace.toGap
  role := ⟨utf8 "doc_viewer", by decide +kernel, by decide +kernel⟩
  principal := ⟨utf8 "tom@amzn", by decide +kernel, by decide +kernel⟩
  table := ⟨utf8 "folders", by decide +kernel, by decide +kernel⟩

/-- Two commands in a row, of which the first is this one. -/
def demoBindings : Surroundings bindAccessRole docViewer.head where
  earlier := []
  before := []
  e := utf8 "SELECT id FROM folders WHERE name = 'root'"
  w := []
  rest := utf8 ("; BIND ACCESS ROLE viewer TO sam@amzn ON folders " ++
    "(SELECT id FROM folders WHERE name = 'folder-a');")
  ended := .inl rfl
  free := unmatched_of_search (by decide +kernel)
  semicolon_e := by decide +kernel
  semicolon_w := by decide +kernel
  ends := .inr ⟨_, rfl⟩

theorem delimited_demoBindings : demoBindings.Delimited translateBindAccessRole docViewer.sql :=
  (delimited_binding_iff docViewer demoBindings).mpr ⟨by decide +kernel, by decide +kernel⟩

end Commands

end PgFort.IdQueries
