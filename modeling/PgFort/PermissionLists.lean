import PgFort.CommandReadings

namespace PgFort.PermissionLists

open PgFort.Framing
open PgFort.Conn
open PgFort.Regexes
open PgFort.FirstWays
open PgFort.ProxyCommand
open PgFort.CommandLayouts
open PgFort.CommandShapes
open PgFort.CommandPasses
open PgFort.CommandTexts
open PgFort.CommandLists
open PgFort.CommandSkeletons
open PgFort.CommandReadings

section Columns

theorem noStart_space_items (others : List (Gap × Word)) (v : Bytes) :
    NoStart isSpace (others.flatMap Columns.item ++ 41 :: v) := by
  cases others with
  | nil => exact noStart_cons.mpr (by decide)
  | cons i others => exact noStart_cons.mpr (by decide)

theorem noStart_word_items (others : List (Gap × Word)) (v : Bytes) :
    NoStart isWord (others.flatMap Columns.item ++ 41 :: v) := by
  cases others with
  | nil => exact noStart_cons.mpr (by decide)
  | cons i others => exact noStart_cons.mpr (by decide)

theorem noStart_gap (g : Gap) {c : UInt8} (hc : isWord c = false) (s : Bytes) :
    NoStart isWord (g.bytes ++ c :: s) :=
  noStart_append (fun x hx => not_isWord_of_isSpace (g.space x hx)) (noStart_cons.mpr hc)

theorem noStart_listed (ws : List Listed) (g : Gap) (u : Bytes) :
    NoStart isWord (ws.flatMap Listed.bytes ++ (g.bytes ++ 41 :: u)) := by
  cases ws with
  | nil => exact noStart_gap g (by decide) u
  | cons w ws =>
      rw [List.flatMap_cons, Listed.bytes, List.append_assoc, List.append_assoc, List.cons_append]
      exact noStart_gap w.before (by decide) _

theorem attached_of_items {ws : List Listed} {g : Gap} {others : List (Gap × Word)} {u v : Bytes}
    (h : ws.flatMap Listed.bytes ++ (g.bytes ++ 41 :: u) =
      others.flatMap Columns.item ++ 41 :: v) : Attached ws ∧ g.bytes = [] ∧ u = v := by
  induction ws generalizing others with
  | nil =>
      obtain ⟨hgap, hrest⟩ := append_inj_of_noStart (b := []) g.space (by simp)
        (noStart_cons.mpr (by decide)) (noStart_space_items others v) h
      cases others with
      | nil => exact ⟨fun _ hw => absurd hw List.not_mem_nil, hgap, (List.cons.inj hrest).2⟩
      | cons i others => exact absurd (List.cons.inj hrest).1 (by decide)
  | cons w ws ih =>
      rw [List.flatMap_cons, Listed.bytes, List.append_assoc, List.append_assoc,
        List.cons_append] at h
      obtain ⟨hbefore, hrest⟩ := append_inj_of_noStart (b := []) w.before.space (by simp)
        (noStart_cons.mpr (by decide)) (noStart_space_items others v) h
      cases others with
      | nil => exact absurd (List.cons.inj hrest).1 (by decide)
      | cons i others =>
          rw [List.flatMap_cons, Columns.item, List.append_assoc, List.append_assoc,
            List.cons_append, List.append_assoc] at hrest
          have hitem := (List.cons.inj hrest).2
          obtain ⟨-, hword⟩ := append_inj_of_noStart w.behind.space i.1.space
            (noStart_word w.word _) (noStart_word i.2 _) hitem
          obtain ⟨-, hlater⟩ := append_inj_of_noStart w.word.word i.2.word (noStart_listed ws g u)
            (noStart_word_items others v) hword
          obtain ⟨hws, hg, hu⟩ := ih hlater
          exact ⟨List.forall_mem_cons.mpr ⟨hbefore, hws⟩, hg, hu⟩

variable {q : Option Query} (l : Layout q)

theorem tight_of_columns {n : ℕ} {ns : Names} {g : Gap} {cols : Columns} {u v : Bytes}
    (h : textOf (Command.columns l n ns) ++ u = g.bytes ++ 40 :: (cols.text ++ 41 :: v)) :
    Command.TightColumns l n ns ∧ u = v := by
  have htext : textOf (Command.columns l n ns) ++ u = (l.gaps (3 * n)).bytes ++ 40 ::
      ((l.gaps (3 * n + 1)).bytes ++ (ns.first.bytes ++ ((l.listed n ns.others).flatMap
        Listed.bytes ++ ((l.gaps (3 * n + 2)).bytes ++ 41 :: u)))) := by
    have hopen : utf8 "(" = [40] := rfl
    have hclose : utf8 ")" = [41] := rfl
    simp only [Command.columns, textOf, Part.bytes, hopen, hclose, List.append_assoc,
      List.cons_append, List.nil_append, List.append_nil]
  rw [htext, Columns.text, List.append_assoc] at h
  obtain ⟨-, hinside⟩ := append_inj_of_noStart (l.gaps (3 * n)).space g.space
    (noStart_cons.mpr (by decide)) (noStart_cons.mpr (by decide)) h
  obtain ⟨hgap, hfirst⟩ := append_inj_of_noStart (b := []) (l.gaps (3 * n + 1)).space (by simp)
    (noStart_word ns.first _) (noStart_word cols.first _) (List.cons.inj hinside).2
  obtain ⟨-, hothers⟩ := append_inj_of_noStart ns.first.word cols.first.word
    (noStart_listed _ _ u) (noStart_word_items cols.others v) hfirst
  obtain ⟨hattached, hclose, hu⟩ := attached_of_items hothers
  exact ⟨⟨hgap, (attached_listed l).mp hattached, hclose⟩, hu⟩

end Columns

section Having

/-- A keyword in front of a list in parentheses. -/
def having (s : String) (n m : ℕ) : Regex UInt8 :=
  seqs [.group n (literal s), mayBeSpaces, literal "(", wordList m, literal ")"]

/-- The permissions of a role, as the pattern takes them. -/
def havings : Regex UInt8 := .alt (having "ALL" 3 4) (.alt (having "ANY" 6 7) (word 9))

theorem tail_listAccessRole : Form.listAccessRole.tail =
    [ProxyCommand.optional (.group 1 (seqs [spaces, literal "WITH", spaces, .group 2 havings]))] :=
  rfl

variable {s : String} {n m : ℕ}

theorem exists_of_having {w rest a v : Bytes} (hs : s ∈ clauseWords)
    (ha : Takes (having s n m) a) (hw : ∀ x ∈ w, isWord x = true) (hrest : NoStart isWord rest)
    (h : w ++ rest = a ++ v) :
    lower w = lower (utf8 s) ∧
      ∃ (g : Gap) (cols : Columns), rest = g.bytes ++ 40 :: (cols.text ++ 41 :: v) := by
  have hatoms : Takes (seqs ((Atom.keyword s :: listAtoms m).map Atom.regex)) a := ha
  obtain ⟨new, hlaid⟩ := exists_laid_of_takes hatoms
  obtain ⟨k, _, _, rfl, h1⟩ := hlaid.exists_keyword
  obtain ⟨g, _, _, rfl, h2⟩ := h1.exists_mayBeSpaces
  obtain ⟨open₁, _, _, rfl, h3⟩ := h2.exists_keyword
  obtain ⟨cols, _, _, rfl, h4⟩ := h3.exists_list
  obtain ⟨close₁, _, _, rfl, h5⟩ := h4.exists_keyword
  obtain rfl := h5.eq_nil
  have hopen : open₁.bytes = [40] := open₁.bytes_open
  have hclose : close₁.bytes = [41] := close₁.bytes_close
  simp only [hopen, hclose, List.append_assoc, List.cons_append, List.nil_append] at h
  obtain ⟨hkeyword, hlist⟩ := append_inj_of_noStart hw (keywordWord hs k).word hrest
    (noStart_gap g (by decide) _) h
  exact ⟨hkeyword ▸ k.spelled, g, cols, hlist⟩

theorem first_having {q : Option Query} (l : Layout q) {ns : Names}
    (h : Command.TightColumns l 0 ns) (k : Keyword s) :
    First (having s n m) (k.bytes ++ textOf (Command.columns l 0 ns))
      ((columnsOf ns.first (l.listed 0 ns.others)).groups m ++ [(n, k.bytes)]) fun _ => True := by
  have hlist : First (seqs ((listAtoms m).map Atom.regex ++ [])) _ _ fun _ => True :=
    first_of_laid (laid_columns l h m) (separated_listAtoms m) first_nothing fun _ _ _ _ => rfl
  rw [List.append_nil, List.append_nil, List.nil_append] at hlist
  exact first_seqs_cons (first_group n (first_literal k)) hlist fun _ _ => trivial

section Put

variable {m : Groups UInt8}

/-- What the pass puts in place of a match. -/
def put (m : Groups UInt8) : Except Conn.Error Bytes := do
  let condition ← permissionCondition m
  return utf8 "SELECT * FROM __access_roles__" ++ condition

theorem put_one (p : Word) (h3 : matched m 3 = false) (h6 : matched m 6 = false)
    (h2 : matched m 2 = true) (hp : text m 2 = p.bytes) :
    put m = .ok (textOf (Command.listAccessRole (some (.one p))).front) := by
  rw [put, permissionCondition, h3, h6, h2, hp]
  change Except.ok (utf8 "SELECT * FROM __access_roles__" ++
    (utf8 " WHERE _permissions @> ARRAY['" ++ lower p.bytes ++ utf8 "']")) = _
  simp only [Command.front, textOf, Part.bytes, List.append_assoc, List.append_nil]
  rfl

theorem put_all (ps : Names) {cols : Columns} (h3 : matched m 3 = true)
    (hps : text m 4 = cols.text) :
    put m = .ok ((Command.listAccessRole (some (.all ps))).sql
      (textOf (quotedParts (lowerColumns cols)))) := by
  rw [put, permissionCondition, h3, hps, quoteWords_lower]
  change Except.ok (utf8 "SELECT * FROM __access_roles__" ++
    (utf8 " WHERE _permissions @> ARRAY[" ++ _ ++ utf8 "]")) = _
  simp only [Command.sql, Command.front, Command.behind, Command.query, enclose, textOf, Part.bytes,
    List.append_assoc, List.append_nil]

theorem put_any (ps : Names) {cols : Columns} (h3 : matched m 3 = false)
    (h6 : matched m 6 = true) (hps : text m 7 = cols.text) :
    put m = .ok ((Command.listAccessRole (some (.any ps))).sql
      (textOf (quotedParts (lowerColumns cols)))) := by
  rw [put, permissionCondition, h3, h6, hps, quoteWords_lower]
  change Except.ok (utf8 "SELECT * FROM __access_roles__" ++
    (utf8 " WHERE _permissions && ARRAY[" ++ _ ++ utf8 "]")) = _
  simp only [Command.sql, Command.front, Command.behind, Command.query, enclose, textOf, Part.bytes,
    List.append_assoc, List.append_nil]

end Put

end Having

section Passes

variable (file : Bytes) {q : Option Query} (l : Layout q) {rest : Bytes}

theorem first_permission (w : Word) (hrest : NoStart isWord rest)
    (hnone : ∀ (g : Gap) (cols : Columns) (v : Bytes),
      rest ≠ g.bytes ++ 40 :: (cols.text ++ 41 :: v)) :
    First havings (w.bytes ++ []) [(9, w.bytes)] fun rest' => rest' = rest := by
  have hways {s : String} {n m : ℕ} (hs : s ∈ clauseWords)
      (gs : Groups UInt8) (rest' : Bytes) (h : rest' = rest) :
      ways (having s n m) gs (w.bytes ++ [] ++ rest') = [] := by
    refine ways_eq_nil fun a v ha heq => ?_
    rw [List.append_nil, h] at heq
    obtain ⟨-, g, cols, hlist⟩ := exists_of_having hs ha w.word hrest heq
    exact hnone g cols v hlist
  refine first_alt_right (hways (by decide)) (first_alt_right (hways (by decide)) ?_)
  exact (first_word w 9).mono fun rest' h => h ▸ hrest

theorem pass_roles : pass file .listAccessRole (textOf (Command.parts l (.listAccessRole none))) =
    .ok (textOf (Command.listAccessRole none).front) :=
  replace_optional_none tail_listAccessRole (laid_verb l "LIST" "ROLE") (fun _ => rfl) rfl

theorem pass_permission (p : Word) (hrest : NoStart isWord rest)
    (hnone : ∀ (g : Gap) (cols : Columns) (v : Bytes),
      rest ≠ g.bytes ++ 40 :: (cols.text ++ 41 :: v))
    (hunmatched : Unmatched Form.listAccessRole.regex rest []) :
    pass file .listAccessRole
        (textOf (Command.parts l (.listAccessRole (some (.one p)))) ++ rest) =
      .ok (textOf (Command.listAccessRole (some (.one p))).front ++ rest) := by
  have hclause := first_clause l (p := .word p) (t := []) 1 (s := "WITH") (by decide)
    (first_literal (l.keyword 3 "WITH")) (first_group 2 (first_permission p hrest hnone))
    fun rest => by
      rw [List.append_assoc]
      exact noStart_word p _
  rw [Command.parts, Command.havingParts, textOf_append]
  refine replace_optional_append tail_listAccessRole (laid_verb l "LIST" "ROLE") (fun _ => rfl)
    hclause rfl (put_one p rfl rfl rfl (List.append_nil p.bytes)) hunmatched

theorem noStart_columns (n : ℕ) (ns : Names) (t : Bytes) :
    NoStart isWord (textOf (Command.columns l n ns) ++ t) := by
  rw [Command.columns, textOf, List.append_assoc]
  exact noStart_gap (l.gaps (3 * n)) (by decide) _

theorem pass_having {s : String} {ps : Names} {new : Groups UInt8} {out : Bytes}
    (hs : s ∈ clauseWords)
    (hfirst : First havings ((l.keyword 4 s).bytes ++ textOf (Command.columns l 0 ps)) new
      fun _ => True)
    (hput : ∀ a b, put ((1, a) :: (2, b) :: new) = .ok out) :
    pass file .listAccessRole (textOf (Command.verb l "LIST" "ROLE" ++
      (Command.clause l 1 "WITH" (.keyword s (l.keyword 4 s)) ++ Command.columns l 0 ps))) =
        .ok out := by
  have hclause := first_clause l (p := .keyword s (l.keyword 4 s)) 1 (s := "WITH") (by decide)
    (first_literal (l.keyword 3 "WITH")) (first_group 2 hfirst) fun rest => by
      rw [List.append_assoc]
      exact noStart_keyword hs _ _
  rw [textOf_append]
  refine replace_optional tail_listAccessRole (laid_verb l "LIST" "ROLE") (fun _ => rfl)
    hclause trivial ?_
  rw [List.append_nil, List.append_nil]
  exact hput _ _

theorem pass_permissions_all (ps : Names) (h : Command.TightColumns l 0 ps) :
    pass file .listAccessRole (textOf (Command.parts l (.listAccessRole (some (.all ps))))) =
      .ok ((Command.listAccessRole (some (.all ps))).sql
        (textOf (quotedParts (lowerColumns (columnsOf ps.first (l.listed 0 ps.others)))))) := by
  have hall : First havings _ _ fun _ => True :=
    first_alt_left (first_having l h (l.keyword 4 "ALL"))
  refine pass_having file l (by decide) hall fun a b => put_all ps ?_ ?_
  · simp [matched, List.lookup_append, lookup_groups_of_ne, List.lookup_cons]
  · simp [text, List.lookup_append, lookup_groups_self, List.lookup_cons]

theorem pass_permissions_any (ps : Names) (h : Command.TightColumns l 0 ps) :
    pass file .listAccessRole (textOf (Command.parts l (.listAccessRole (some (.any ps))))) =
      .ok ((Command.listAccessRole (some (.any ps))).sql
        (textOf (quotedParts (lowerColumns (columnsOf ps.first (l.listed 0 ps.others)))))) := by
  have hnone (gs : Groups UInt8) (rest : Bytes) (_ : True) : ways (having "ALL" 3 4) gs
      ((l.keyword 4 "ANY").bytes ++ textOf (Command.columns l 0 ps) ++ rest) = [] := by
    refine ways_eq_nil fun a v ha heq => ?_
    rw [List.append_assoc] at heq
    obtain ⟨hkeyword, -⟩ := exists_of_having (by decide) ha
      (keywordWord (by decide) (l.keyword 4 "ANY")).word (noStart_columns l 0 ps rest) heq
    have hprefix : ¬lower (utf8 "ANY") <+: lower (utf8 "ALL") :=
      not_prefix_clauseWords (by decide) (by decide) (by decide)
    have hsame : lower (utf8 "ANY") = lower (utf8 "ALL") :=
      (l.keyword 4 "ANY").spelled.symm.trans hkeyword
    exact hprefix (hsame ▸ List.prefix_refl _)
  have hany : First havings _ _ fun _ => True := first_alt_right hnone
    (first_alt_left (first_having l h (l.keyword 4 "ANY")))
  refine pass_having file l (by decide) hany fun a b => put_any ps ?_ ?_ ?_
  · simp [matched, List.lookup_append, lookup_groups_of_ne, List.lookup_cons]
  · simp [matched, List.lookup_append, lookup_groups_of_ne, List.lookup_cons]
  · simp [text, List.lookup_append, lookup_groups_self, List.lookup_cons]

theorem pass_permissions_loose (ps : Names) (h : ¬Command.TightColumns l 0 ps) (p : Word) :
    pass file .listAccessRole (textOf (Command.parts l (.listAccessRole (some (.one p)))) ++
        textOf (Command.columns l 0 ps)) =
      .ok (textOf (Command.listAccessRole (some (.one p))).front ++
        textOf (Command.columns l 0 ps)) := by
  have hrest := noStart_columns l 0 ps []
  rw [List.append_nil] at hrest
  refine pass_permission file l p hrest (fun g cols v heq => ?_) ?_
  · exact h (tight_of_columns l ((List.append_nil _).trans heq)).1
  · have hshape : shapeOf (Command.columns l 0 ps) =
        shapeOf (Command.columns aLayout 0 someNames) := rfl
    exact unmatched_textOf (hshape ▸ leftColumns.absent) _

end Passes

end PgFort.PermissionLists
