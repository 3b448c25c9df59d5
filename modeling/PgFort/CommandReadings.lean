import PgFort.CommandSkeletons

namespace PgFort.CommandReadings

open PgFort.Framing
open PgFort.Conn
open PgFort.Regexes
open PgFort.FirstWays
open PgFort.ProxyCommand
open PgFort.CommandLayouts
open PgFort.CommandShapes
open PgFort.CommandPasses
open PgFort.CommandTexts
open PgFort.CommandLists
open PgFort.CommandSkeletons

section Laid

theorem textOf_append (ps ps' : List Part) : textOf (ps ++ ps') = textOf ps ++ textOf ps' := by
  induction ps with
  | nil => rfl
  | cons p ps ih => rw [List.cons_append, textOf, textOf, ih, List.append_assoc]

theorem laid_append {as bs : List Atom} {s t : Bytes} {new new' : Groups UInt8}
    (hs : Laid as s new) (ht : Laid bs t new') : Laid (as ++ bs) (s ++ t) (new' ++ new) := by
  induction hs with
  | nil => simpa using ht
  | cons first rest ih =>
      rw [List.cons_append, List.append_assoc, ← List.append_assoc new']
      exact .cons first ih

theorem laid_parts {as bs : List Atom} {ps ps' : List Part} {new new' : Groups UInt8}
    (hps : Laid as (textOf ps) new) (hps' : Laid bs (textOf ps') new') :
    Laid (as ++ bs) (textOf (ps ++ ps')) (new' ++ new) :=
  textOf_append ps ps' ▸ laid_append hps hps'

variable {q : Option Query} (l : Layout q)

theorem laid_verb (verb object : String) :
    Laid [.keyword verb, .spaces, .keyword "ACCESS", .spaces, .keyword object]
      (textOf (Command.verb l verb object)) [] :=
  .cons (.keyword _) <| .cons (.spaces _) <| .cons (.keyword _) <| .cons (.spaces _) <|
    .cons (.keyword _) .nil

theorem laid_clause {a : Atom} {p : Part} {new : Groups UInt8} (n : ℕ) (s : String)
    (h : Spelled a p.bytes new) :
    Laid [.spaces, .keyword s, .spaces, a] (textOf (Command.clause l n s p)) new := by
  have hnew : [] ++ new ++ [] ++ [] ++ [] = new := by simp
  exact hnew ▸ (.cons (.spaces _) <| .cons (.keyword _) <| .cons (.spaces _) <| .cons h .nil)

theorem laid_pair {a : Atom} {p : Part} {new : Groups UInt8} (b : Break)
    (h : Spelled a p.bytes new) : Laid [.spaces, a] (textOf [.space b, p]) new := by
  have hnew : [] ++ new ++ [] = new := by simp
  exact hnew ▸ (.cons (.spaces b) <| .cons h .nil)

theorem attached_listed {n : ℕ} {ns : Names} :
    Attached (l.listed n ns.others) ↔ Command.TightCommas l n ns := by
  constructor
  · intro h i hi
    exact h _ (List.mem_mapIdx.mpr ⟨i, hi, rfl⟩)
  · intro h w hw
    obtain ⟨i, hi, rfl⟩ := List.mem_mapIdx.mp hw
    exact h i hi

theorem text_columns {n : ℕ} {ns : Names} (h : Command.TightColumns l n ns) :
    textOf (Command.columns l n ns) = (l.gaps (3 * n)).bytes ++ (utf8 "(" ++
      ((columnsOf ns.first (l.listed n ns.others)).text ++ (utf8 ")" ++ []))) := by
  obtain ⟨hopen, hcommas, hclose⟩ := h
  rw [text_columnsOf ((attached_listed l).mpr hcommas)]
  simp only [Command.columns, textOf, Part.bytes, hopen, hclose, List.nil_append,
    List.append_assoc]

theorem laid_columns {n : ℕ} {ns : Names} (h : Command.TightColumns l n ns) (k : ℕ) :
    Laid [.mayBeSpaces, .keyword "(", .list k, .keyword ")"] (textOf (Command.columns l n ns))
      ((columnsOf ns.first (l.listed n ns.others)).groups k) := by
  have hlaid := Laid.cons (.mayBeSpaces (l.gaps (3 * n))) <|
    .cons (.keyword (Inheritances.parenthesis "(")) <|
    .cons (.list k (columnsOf ns.first (l.listed n ns.others))) <|
    .cons (.keyword (Inheritances.parenthesis ")")) .nil
  rw [text_columns l h]
  simpa only [List.append_nil, List.nil_append, Inheritances.parenthesis] using hlaid

end Laid

section Words

variable {s : String}

/-- A keyword as a word. -/
def keywordWord (hs : s ∈ clauseWords) (k : Keyword s) : Word where
  bytes := k.bytes
  ne_nil := by
    intro h
    have hspelled := k.spelled
    rw [h] at hspelled
    exact (spelled_clauseWords s hs).1.1 (List.map_eq_nil_iff.mp hspelled.symm)
  word := by
    intro x hx
    have hlower : toLower x ∈ lower (utf8 s) := k.spelled ▸ List.mem_map_of_mem hx
    exact isWord_of_toLower ((spelled_clauseWords s hs).1.2 _ hlower)

theorem noStart_word (w : Word) (t : Bytes) : NoStart isSpace (w.bytes ++ t) :=
  noStart_append_of_ne_nil w.ne_nil (fun x hx => isSpace_of_isWord (w.word x hx)) t

theorem first_word (w : Word) (k : ℕ) :
    First (word k) (w.bytes ++ []) [(k, w.bytes)] (NoStart isWord) := by
  rw [List.append_nil]
  exact first_group k (first_plus w.ne_nil w.word)

theorem noStart_keyword (hs : s ∈ clauseWords) (k : Keyword s) (t : Bytes) : NoStart isSpace (k.bytes ++ t) :=
  noStart_word (keywordWord hs k) t

end Words

section Replace

variable {f : Form} {s t rest out : Bytes} {new new' : Groups UInt8} {fit : Bytes → Prop}
  {g : Groups UInt8 → Except Conn.Error Bytes}

theorem replace_first (hfirst : First f.regex s new fit) (hfit : fit rest) (hput : g new = .ok out)
    (hrest : Unmatched f.regex rest []) : replace f.regex g (s ++ rest) = .ok (out ++ rest) := by
  have hcopied := replace_eq_self (f := g) (regex_not_nullable f) hrest
  rw [replace_of_matchHere (regex_not_nullable f) (matchHere_of_first hfirst hfit), hcopied]
  change (do let t ← g new; let u ← Except.ok rest; return t ++ u) = _
  rw [hput]
  rfl

theorem first_form (hlaid : Laid f.atoms s new) (htail : First (seqs f.tail) t new' fit)
    (hends : ∀ rest, fit rest → Starts (ends f) (t ++ rest)) :
    First f.regex (s ++ t) (new' ++ new) fit :=
  f.regex_eq ▸ first_of_laid hlaid (separated_atoms f) htail hends

theorem replace_atoms (htail : f.tail = []) (hlaid : Laid f.atoms s new)
    (hends : Starts (ends f) rest) (hput : g new = .ok out) (hrest : Unmatched f.regex rest []) :
    replace f.regex g (s ++ rest) = .ok (out ++ rest) := by
  have hnothing : First (seqs f.tail) [] [] (Starts (ends f)) :=
    htail ▸ first_nothing.mono fun _ _ => trivial
  have hfirst := first_form hlaid hnothing fun _ h => h
  rw [List.append_nil] at hfirst
  exact replace_first hfirst hends hput hrest

theorem starts_nil (after : UInt8 → Bool) : Starts after [] := by
  intro x hx
  simp at hx

theorem replace_whole (htail : f.tail = []) (hlaid : Laid f.atoms s new) (hput : g new = .ok out) :
    replace f.regex g s = .ok out := by
  have hwhole := replace_atoms htail hlaid (starts_nil _) hput unmatched_nil
  rwa [List.append_nil, List.append_nil] at hwhole

end Replace

section Formats

variable {gs : Groups UInt8} {part : ℕ → Part}

theorem format_eq (h : ∀ n, text gs n = (part n).bytes) (tpl : Bytes) :
    format gs tpl = textOf (formatParts part tpl) := by
  induction tpl using formatParts.induct with
  | case1 d tpl hd ih => rw [format, formatParts, if_pos hd, if_pos hd, textOf, h, ih]
  | case2 d tpl hd ih =>
      rw [format, formatParts, if_neg hd, if_neg hd, textOf, ih]
      rfl
  | case3 c tpl hc ih =>
      rw [format, formatParts, textOf, ih]
      · rfl
      · exact hc
      · exact hc
  | case4 => rfl

end Formats

section Passes

variable (file : Bytes) {q : Option Query} (l : Layout q)

theorem pass_enableAccessControl (t : Word) :
    pass file .enableAccessControl (textOf (Command.parts l (.enableAccessControl t))) =
      .ok (textOf (Command.enableAccessControl t).front) := by
  have hlaid := laid_parts (laid_verb l "ENABLE" "CONTROL") (laid_pair (l.breaks 2) (p := .word t) (.word 1 t))
  have hgroup (n : ℕ) : text [(1, t.bytes)] n =
      (if n = 1 then Part.word t else .text []).bytes := by
    by_cases hn : n = 1
    · rw [if_pos hn, hn]
      rfl
    · rw [if_neg hn, text, List.lookup_cons, beq_eq_false_iff_ne.mpr hn]
      rfl
  exact replace_whole (f := .enableAccessControl) rfl hlaid
    (congrArg Except.ok (format_eq hgroup _))

theorem pass_createAccessPermission (p t o : Word) :
    pass file .createAccessPermission (textOf (Command.parts l (.createAccessPermission p t o))) =
      .ok (textOf (Command.createAccessPermission p t o).front) := by
  have hlaid := laid_parts (laid_parts (laid_parts (laid_verb l "CREATE" "PERMISSION")
    (laid_pair (l.breaks 8) (p := .word p) (.word 1 p))) (laid_clause l 1 "ON" (p := .word t) (.word 2 t)))
    (laid_clause l 2 "FOR" (p := .word o) (.word 3 o))
  have hgroup (n : ℕ) : text [(3, o.bytes), (2, t.bytes), (1, p.bytes)] n =
      (if n = 1 then Part.word p else if n = 2 then .word t else if n = 3 then .word o
        else .text []).bytes := by
    by_cases h1 : n = 1
    · rw [if_pos h1, h1]
      rfl
    · by_cases h2 : n = 2
      · rw [if_neg h1, if_pos h2, h2]
        rfl
      · by_cases h3 : n = 3
        · rw [if_neg h1, if_neg h2, if_pos h3, h3]
          rfl
        · rw [if_neg h1, if_neg h2, if_neg h3, text, List.lookup_cons,
            beq_eq_false_iff_ne.mpr h3, List.lookup_cons, beq_eq_false_iff_ne.mpr h2,
            List.lookup_cons, beq_eq_false_iff_ne.mpr h1]
          rfl
  exact replace_whole (f := .createAccessPermission) rfl hlaid
    (congrArg Except.ok (format_eq hgroup _))

theorem insertAccessRole_eq (r : Word) (ps : Names) (p : Bytes) :
    insertAccessRole (lower r.bytes) p = (Command.createAccessRole r ps).sql p := by
  simp only [insertAccessRole, Command.sql, Command.front, Command.behind, Command.query, enclose,
    textOf, Part.bytes, List.append_assoc, List.append_nil]
  rfl

/-- The text up to the end of a list. -/
def untilList (r : Word) (cols : Columns) : Bytes :=
  textOf (Command.verb l "CREATE" "ROLE" ++ [.space (l.breaks 8), .word r]) ++
    ((l.breaks 2).bytes ++ ((l.keyword 3 "WITH").bytes ++ ((l.breaks 3).bytes ++
      (cols.text ++ []))))

theorem exists_laid_untilList (r : Word) (cols : Columns) :
    ∃ new, Laid Form.createAccessRole.atoms (untilList l r cols) new ∧ text new 1 = r.bytes ∧
      text new 2 = cols.text := by
  have hverb := laid_parts (laid_verb l "CREATE" "ROLE")
    (laid_pair (l.breaks 8) (p := .word r) (.word 1 r))
  have hlist := Laid.cons (.spaces (l.breaks 2)) <| .cons (.keyword (l.keyword 3 "WITH")) <|
    .cons (.spaces (l.breaks 3)) <| .cons (.list 2 cols) .nil
  refine ⟨_, laid_append hverb hlist, ?_, ?_⟩
  · simp [text, List.lookup_append, lookup_groups_of_ne]
  · simp [text, List.lookup_append, lookup_groups_self]

/-- The list goes up to the first comma that has white space in front of it. -/
theorem pass_createAccessRole (r : Word) (ps : Names) {ws ws' : List Listed}
    (hlisted : l.listed 0 ps.others = ws ++ ws') (hws : Attached ws)
    (hafter : NoStart (fun x => isWord x || x == 44) (textOf [.others ws'])) :
    pass file .createAccessRole (textOf (Command.parts l (.createAccessRole r ps))) =
      .ok ((Command.createAccessRole r ps).sql
        (textOf (quotedParts (lowerColumns (columnsOf ps.first ws)))) ++ textOf [.others ws']) := by
  obtain ⟨new, hlaid, hrole, hpermissions⟩ :=
    exists_laid_untilList l r (columnsOf ps.first ws)
  have htext : textOf (Command.parts l (.createAccessRole r ps)) =
      untilList l r (columnsOf ps.first ws) ++ textOf [.others ws'] := by
    have hclause : textOf (Command.clause l 1 "WITH" (.word ps.first) ++
        [.others (l.listed 0 ps.others)]) = (l.breaks 2).bytes ++ ((l.keyword 3 "WITH").bytes ++
          ((l.breaks 3).bytes ++ ((columnsOf ps.first ws).text ++ textOf [.others ws']))) := by
      rw [hlisted, text_columnsOf hws]
      simp only [Command.clause, List.cons_append, List.nil_append, textOf, Part.bytes,
        List.flatMap_append, List.append_nil, List.append_assoc]
    rw [Command.parts, List.append_assoc, textOf_append, hclause, untilList]
    simp only [List.append_assoc, List.nil_append]
  have hrest : Unmatched Form.createAccessRole.regex (textOf [.others ws']) [] := by
    have hshape : shapeOf [.others ws'] = shapeOf [.others []] := rfl
    exact unmatched_textOf (hshape ▸ leftOthers.absent) _
  rw [htext]
  have hends : Starts (ends .createAccessRole) (textOf [.others ws']) :=
    fun x hx => by simpa [ends] using hafter x hx
  refine replace_atoms (f := .createAccessRole) rfl hlaid hends ?_ hrest
  change (do let p ← quoteWords (lower (text new 2)); return insertAccessRole (lower (text new 1)) p)
    = _
  rw [hrole, hpermissions, quoteWords_lower]
  exact congrArg Except.ok (insertAccessRole_eq r ps _)

theorem names_columnsOf (n : ℕ) (ns : Names) :
    (columnsOf ns.first (l.listed n ns.others)).names =
      ns.first.bytes :: ns.others.map Word.bytes := by
  have hothers : ∀ (ws : List Word) (g : ℕ → Gap × Gap),
      ((ws.mapIdx fun i w => Listed.mk (g i).1 (g i).2 w).map fun w => (w.behind, w.word)).map
        (fun i => i.2.bytes) = ws.map Word.bytes := by
    intro ws
    induction ws with
    | nil => exact fun g => rfl
    | cons w ws ih =>
        intro g
        rw [List.mapIdx_cons, List.map_cons, List.map_cons, List.map_cons, ih fun i => g (i + 1)]
  exact congrArg (ns.first.bytes :: ·) (hothers ns.others (l.commas n))

def inheritanceOf (f : Word) (fs : Names) (t : Word) (ts : Names) (b : Break) :
    Inheritances.Inheritance where
  create := l.keyword 0 "CREATE"
  access := l.keyword 1 "ACCESS"
  inheritance := l.keyword 2 "INHERITANCE"
  source := l.keyword 3 "FROM"
  target := l.keyword 4 "TO"
  breaks := ![l.breaks 0, l.breaks 1, l.breaks 2, l.breaks 3, b, l.breaks 4]
  gaps := ![l.gaps 0, l.gaps 3]
  f := f
  fs := columnsOf fs.first (l.listed 0 fs.others)
  t := t
  ts := columnsOf ts.first (l.listed 1 ts.others)

section Inheritance

variable (f : Word) (fs : Names) (t : Word) (ts : Names) (b : Break)

theorem sql_inheritanceOf (hmatched : fs.others.length = ts.others.length) :
    (inheritanceOf l f fs t ts b).sql =
      textOf (Command.createAccessInheritance f fs t ts hmatched).front := by
  have hconditions : ∀ fs ts : List Word, ((fs.map Word.bytes).zip (ts.map Word.bytes)).flatMap
      (fun p => utf8 " AND " ++ (p.1 ++ utf8 " = $1." ++ p.2)) =
        (fs.zip ts).flatMap Part.conditionBytes := by
    intro fs ts
    rw [List.zip_map, List.flatMap_map]
    congr 1
    funext p
    exact congrArg (utf8 " AND " ++ ·) (List.append_assoc ..)
  rw [Inheritances.Inheritance.sql, Inheritances.Inheritance.sourceQuery,
    Inheritances.Inheritance.conditions]
  change _ ++ (_ ++ (utf8 " AND ").intercalate (((columnsOf _ _).names.zip
    (columnsOf _ _).names).map _)) ++ _ = _
  rw [names_columnsOf, names_columnsOf, List.zip_cons_cons, List.map_cons,
    Inheritances.intercalate_cons, List.flatMap_map, hconditions]
  simp only [Command.front, textOf, Part.bytes, List.append_assoc, List.append_nil]
  rfl

theorem pass_createAccessInheritance (hmatched : fs.others.length = ts.others.length)
    (h : Command.TightColumns l 0 fs) (h' : Command.TightColumns l 1 ts)
    (hgap : (l.gaps 9).bytes ≠ []) :
    pass file .createAccessInheritance
        (textOf (Command.parts l (.createAccessInheritance f fs t ts hmatched))) =
      .ok (textOf (Command.createAccessInheritance f fs t ts hmatched).front) := by
  have htext : textOf (Command.parts l (.createAccessInheritance f fs t ts hmatched)) =
      (inheritanceOf l f fs t ts ⟨l.gaps 9, hgap⟩).text := by
    simp only [Command.parts, textOf_append, text_columns l h, text_columns l h']
    simp only [Command.verb, Command.clause, textOf, Part.bytes, List.append_assoc, List.append_nil]
    rfl
  have hall : (inheritanceOf l f fs t ts ⟨l.gaps 9, hgap⟩).Matched := by
    change (columnsOf _ _).names.length = (columnsOf _ _).names.length
    rw [names_columnsOf, names_columnsOf, List.length_cons, List.length_cons, List.length_map,
      List.length_map, hmatched]
  have hpass : translateCreateAccessInheritance file
      ((inheritanceOf l f fs t ts ⟨l.gaps 9, hgap⟩).text ++ []) = _ :=
    Inheritances.replace_command (inheritanceOf l f fs t ts ⟨l.gaps 9, hgap⟩) []
  have hnil : translateCreateAccessInheritance file [] = .ok [] := rfl
  rw [List.append_nil, if_pos hall, sql_inheritanceOf l f fs t ts _ hmatched, hnil] at hpass
  rw [htext]
  refine hpass.trans ?_
  change Except.ok (textOf _ ++ []) = _
  rw [List.append_nil]

end Inheritance

section Optional

variable {r r' : Regex UInt8} {p : Part} {t : Bytes} {new new' : Groups UInt8} {fit : Bytes → Prop}

theorem first_optional_none {k : ℕ} {rs : List (Regex UInt8)} :
    First (seqs [optional (.group k (seqs (spaces :: rs)))]) [] [] fun rest => rest = [] := by
  have hnothing : First (.nothing : Regex UInt8) [] [] fun rest => rest = [] :=
    first_nothing.mono fun _ _ => trivial
  refine first_seqs_singleton (first_alt_right (fun gs rest hrest => ?_) hnothing)
  refine ways_eq_nil fun a u ha heq => ?_
  obtain ⟨b, c, hb, -, rfl⟩ := ha
  obtain ⟨hne, -⟩ := takes_plus.mp hb
  rw [hrest, List.nil_append] at heq
  simp [hne] at heq

theorem first_optional {k : ℕ} {rs : List (Regex UInt8)} (h : First (seqs rs) t new fit) :
    First (seqs [optional (.group k (seqs rs))]) t ((k, t) :: new) fit :=
  first_seqs_singleton (first_alt_left (first_group k h))

theorem first_clause (n : ℕ) {s : String} (hs : s ∈ clauseWords)
    (hkeyword : First r (l.keyword (n + 2) s).bytes new fun _ => True)
    (hp : First r' (p.bytes ++ t) new' fit)
    (hstart : ∀ rest, NoStart isSpace (p.bytes ++ t ++ rest)) :
    First (seqs [spaces, r, spaces, r'])
      ((l.breaks (2 * n)).bytes ++ ((l.keyword (n + 2) s).bytes ++
        ((l.breaks (2 * n + 1)).bytes ++ (p.bytes ++ t)))) (new' ++ new) fit := by
  have hbreak (b : Break) : First spaces b.bytes [] (NoStart isSpace) :=
    first_plus b.ne_nil b.space
  have hbehind := first_seqs_cons (hbreak (l.breaks (2 * n + 1))) (first_seqs_singleton hp)
    fun rest _ => hstart rest
  have hnew : new' ++ [] ++ new ++ [] = new' ++ new := by simp
  refine hnew ▸ first_seqs_cons (hbreak (l.breaks (2 * n)))
    (first_seqs_cons hkeyword hbehind fun _ _ => trivial) fun rest _ => ?_
  rw [List.append_assoc]
  exact noStart_keyword hs _ _

end Optional

section Lists

theorem ways_literal_eq_nil {s s' : String} (hs : s ∈ clauseWords) (hs' : s' ∈ clauseWords)
    (hne : s ≠ s') (k : Keyword s') (gs : Groups UInt8) (rest : Bytes) :
    ways (literal s) gs (k.bytes ++ rest) = [] := by
  refine ways_eq_nil fun a u ha heq => ?_
  have hlower := congrArg lower heq
  rw [lower_append, lower_append, k.spelled, takes_literal.mp ha] at hlower
  rcases List.prefix_or_prefix_of_prefix ⟨_, hlower⟩ (List.prefix_append ..) with h | h
  · exact not_prefix_clauseWords hs' hs hne.symm h
  · exact not_prefix_clauseWords hs hs' hne h

theorem upper_keyword {s : String} (hs : s ∈ clauseWords) (k : Keyword s) :
    upper k.bytes = utf8 s := by
  rw [← upper_lower, k.spelled, upper_lower, (spelled_clauseWords s hs).2.1]

section Optional

variable {f : Form} {k : ℕ} {rs : List (Regex UInt8)} {s t rest out : Bytes}
  {new new' : Groups UInt8} {fit : Bytes → Prop} {g : Groups UInt8 → Except Conn.Error Bytes}

theorem replace_optional_append (htail : f.tail = [ProxyCommand.optional (.group k (seqs rs))])
    (hlaid : Laid f.atoms s new) (hends : ∀ x, ends f x = true)
    (hrs : First (seqs rs) t new' fit) (hfit : fit rest)
    (hput : g ((k, t) :: new' ++ new) = .ok out) (hrest : Unmatched f.regex rest []) :
    replace f.regex g (s ++ t ++ rest) = .ok (out ++ rest) := by
  have hfirst := first_form (f := f) hlaid (htail ▸ first_optional hrs)
    fun _ _ x _ => hends x
  exact replace_first hfirst hfit hput hrest

theorem replace_optional (htail : f.tail = [ProxyCommand.optional (.group k (seqs rs))])
    (hlaid : Laid f.atoms s new) (hends : ∀ x, ends f x = true)
    (hrs : First (seqs rs) t new' fit) (hfit : fit [])
    (hput : g ((k, t) :: new' ++ new) = .ok out) : replace f.regex g (s ++ t) = .ok out := by
  have hreplace := replace_optional_append htail hlaid hends hrs hfit hput unmatched_nil
  rwa [List.append_nil, List.append_nil] at hreplace

theorem replace_optional_none
    (htail : f.tail = [ProxyCommand.optional (.group k (seqs (spaces :: rs)))])
    (hlaid : Laid f.atoms s new) (hends : ∀ x, ends f x = true) (hput : g new = .ok out) :
    replace f.regex g s = .ok out := by
  have hfirst := first_form (f := f) hlaid (htail ▸ first_optional_none)
    fun _ _ x _ => hends x
  have hreplace := replace_first hfirst rfl hput unmatched_nil
  rwa [List.append_nil, List.append_nil, List.append_nil] at hreplace

end Optional

theorem pass_listAccessPermission (t : Option Word) :
    pass file .listAccessPermission (textOf (Command.parts l (.listAccessPermission t))) =
      .ok (textOf (Command.listAccessPermission t).front) := by
  have hlaid := laid_verb l "LIST" "PERMISSION"
  cases t with
  | none =>
      exact replace_optional_none (f := .listAccessPermission) rfl hlaid (fun _ => rfl) rfl
  | some t =>
      have hclause := first_clause l (p := .word t) (t := []) 1 (s := "ON") (by decide)
        (first_literal _) (first_word t 2) fun rest => by
          rw [List.append_assoc]
          exact noStart_word t _
      rw [Command.parts, textOf_append]
      refine replace_optional (f := .listAccessPermission) rfl hlaid (fun _ => rfl) hclause
        (noStart_nil _) ?_
      have hsql : utf8 "SELECT * FROM __access_permissions__" ++
          (utf8 " WHERE _relation = '" ++ t.bytes ++ utf8 "'::REGCLASS") =
            textOf (Command.listAccessPermission (some t)).front := by
        simp only [Command.front, textOf, Part.bytes, List.append_assoc, List.append_nil]
      exact congrArg Except.ok hsql

theorem first_side (side : Side) (k : Keyword (Command.sideKeyword side)) :
    First (.group 2 (.alt (literal "FROM") (literal "TO"))) k.bytes [(2, k.bytes)]
      fun _ => True := by
  cases side with
  | source => exact first_group 2 (first_alt_left (first_literal k))
  | target =>
      refine first_group 2 (first_alt_right (fun gs rest _ => ?_) (first_literal k))
      exact ways_literal_eq_nil (by decide) (by decide) (by decide) k gs rest

/-- What the pass puts in place of a command with the direction `d`. -/
def inheritancesOf (d t : Bytes) : Except Conn.Error Bytes :=
  if d = utf8 "FROM" then
    .ok (utf8 "SELECT * FROM __access_inheritances__" ++
      (utf8 " WHERE _src = '" ++ t ++ utf8 "'::REGCLASS"))
  else if d = utf8 "TO" then
    .ok (utf8 "SELECT * FROM __access_inheritances__" ++
      (utf8 " WHERE _dst = '" ++ t ++ utf8 "'::REGCLASS"))
  else
    .error (syntaxError file d)

theorem inheritancesOf_side (side : Side) (t : Word) :
    inheritancesOf file (utf8 (Command.sideKeyword side)) t.bytes =
      .ok (textOf (Command.listAccessInheritance (some (side, t))).front) := by
  cases side with
  | source =>
      rw [inheritancesOf, Command.sideKeyword, if_pos rfl]
      simp only [Command.front, textOf, Part.bytes, List.append_assoc, List.append_nil]
  | target =>
      have hprefix : ¬lower (utf8 "TO") <+: lower (utf8 "FROM") :=
        not_prefix_clauseWords (by decide) (by decide) (by decide)
      have hne : utf8 "TO" ≠ utf8 "FROM" := fun h => hprefix (h ▸ List.prefix_refl _)
      rw [inheritancesOf, Command.sideKeyword, if_neg hne, if_pos rfl]
      simp only [Command.front, textOf, Part.bytes, List.append_assoc, List.append_nil]

theorem pass_listAccessInheritance (s : Option (Side × Word)) :
    pass file .listAccessInheritance (textOf (Command.parts l (.listAccessInheritance s))) =
      .ok (textOf (Command.listAccessInheritance s).front) := by
  have hlaid := laid_verb l "LIST" "INHERITANCE"
  cases s with
  | none =>
      exact replace_optional_none (f := .listAccessInheritance) rfl hlaid (fun _ => rfl) rfl
  | some s =>
      obtain ⟨side, t⟩ := s
      have hside : Command.sideKeyword side ∈ clauseWords := by cases side <;> decide
      have hupper : upper (l.keyword 3 (Command.sideKeyword side)).bytes =
          utf8 (Command.sideKeyword side) :=
        upper_keyword hside _
      have hclause := first_clause l (p := .word t) (t := []) 1 hside
        (first_side side _) (first_word t 3) fun rest => by
          rw [List.append_assoc]
          exact noStart_word t _
      rw [Command.parts, textOf_append]
      refine replace_optional (f := .listAccessInheritance) rfl hlaid (fun _ => rfl) hclause
        (noStart_nil _) ?_
      exact (congrArg (inheritancesOf file · t.bytes) hupper).trans
        (inheritancesOf_side file side t)

end Lists

end Passes

end PgFort.CommandReadings
