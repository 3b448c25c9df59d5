import PgFort.PermissionLists
import PgFort.QueryCopies

namespace PgFort.LayoutInvariance

open PgFort.Framing
open PgFort.Conn
open PgFort.Regexes
open PgFort.FirstWays
open PgFort.ProxyCommand
open PgFort.CommandLayouts
open PgFort.Shapes
open PgFort.CommandShapes
open PgFort.CommandPasses
open PgFort.CommandTexts
open PgFort.CommandLists
open PgFort.CommandSkeletons
open PgFort.CommandReadings
open PgFort.PermissionLists
open PgFort.QueryCopies

section Lists

variable {c : Command}

theorem unmatched_listing (hc : skeleton c ∈ listings) (hquery : c.query = none) (cols : Columns)
    (ws : List Listed) (f : Form) :
    Unmatched f.regex (c.sql (textOf (quotedParts cols)) ++ textOf [.others ws]) [] := by
  obtain ⟨-, -, hfront, hbehind⟩ := shapes_skeleton aLayout c
  have habsent := absent_listings _ hc
  rw [listing, ← hfront, ← hbehind] at habsent
  obtain ⟨tail, htail⟩ := f.exists_regex_eq
  refine unmatched_of_absent htail f.mem_verbs habsent ?_
  refine ⟨_, _, fills_shapeOf c.front, ⟨_, _, fills_shapeOf (quotedParts cols), ⟨_, _,
    fills_shapeOf c.behind, fills_shapeOf [.others ws], rfl⟩, rfl⟩, ?_⟩
  rw [Command.sql, hquery]
  simp only [enclose, List.append_assoc]

end Lists

section Tight

variable {file : Bytes} {c : Command} {l : Layout c.query}

theorem translate_of_pass {t : Bytes} (hown : pass file c.form (c.text l) = .ok t)
    (ht : ∀ f : Form, Unmatched f.regex t []) : translate file (c.text l) = (t, .noError) :=
  translate_eq (uncommented_text c l) (fun _ hf => unmatched_text c l hf) hown fun f _ => ht f

theorem translate_plain (hbare : c.bare = none) (hsql : c.sql [] = textOf c.front)
    (hown : pass file c.form (c.text l) = .ok (textOf c.front)) :
    ∃ p, c.Copies p ∧ translate file (c.text l) = (c.sql p, .noError) := by
  refine ⟨[], ?_, ?_⟩
  · rw [Command.Copies, hbare]
  · obtain ⟨-, -, hfront, -⟩ := checked c l
    rw [hsql]
    exact translate_of_pass hown (unmatched_textOf hfront)

theorem translate_listing (hc : skeleton c ∈ listings) (hquery : c.query = none) {cols : Columns}
    {ws : List Listed}
    (hown : pass file c.form (c.text l) =
      .ok (c.sql (textOf (quotedParts cols)) ++ textOf [.others ws])) :
    translate file (c.text l) = (c.sql (textOf (quotedParts cols)) ++ textOf [.others ws], .noError) :=
  translate_of_pass hown (unmatched_listing hc hquery cols ws)

theorem copies_listed {ns : Names} (hbare : c.bare = some ns.quoted) :
    c.Copies (textOf (quotedParts (lowerColumns
      (columnsOf ns.first (l.listed 0 ns.others))))) := by
  rw [Command.Copies, hbare]
  exact strip_quotedParts l 0 ns

theorem translate_tight_list {ns : Names} (hc : skeleton c ∈ listings) (hquery : c.query = none)
    (hbare : c.bare = some ns.quoted)
    (hown : pass file c.form (c.text l) = .ok (c.sql (textOf (quotedParts (lowerColumns
      (columnsOf ns.first (l.listed 0 ns.others))))))) :
    ∃ p, c.Copies p ∧ translate file (c.text l) = (c.sql p, .noError) := by
  have hnil : textOf [.others []] = [] := rfl
  rw [← List.append_nil (c.sql _), ← hnil] at hown
  have htranslate := translate_listing hc hquery hown
  rw [hnil, List.append_nil] at htranslate
  exact ⟨_, copies_listed hbare, htranslate⟩

theorem translate_query {query : Query} {l : Layout (some query)} {c : Command}
    (hquery : c.query = some query) (hbare : c.bare = some query.bytes)
    (htext : textOf (c.parts l) ++ 40 :: (l.copied ++ [41]) = c.text (hquery ▸ l))
    (hown : pass file c.form (textOf (c.parts l) ++ 40 :: (l.copied ++ [41])) =
      .ok (c.sql l.copied)) :
    ∃ p, c.Copies p ∧ translate file (textOf (c.parts l) ++ 40 :: (l.copied ++ [41])) =
      (c.sql p, .noError) := by
  refine ⟨l.copied, ?_, ?_⟩
  · rw [Command.Copies, hbare]
    exact (l.copy query rfl).stripped
  · rw [htext] at hown ⊢
    exact translate_of_pass hown (unmatched_sql c l hquery)

theorem translate_of_tight (h : c.Tight l) :
    ∃ p, c.Copies p ∧ translate file (c.text l) = (c.sql p, .noError) := by
  have hplain {s t : Bytes} (h : pass file c.form s = .ok t) : pass file c.form (s ++ []) = .ok t :=
    (List.append_nil s).symm ▸ h
  cases c with
  | enableAccessControl t =>
      exact translate_plain rfl (List.append_nil _) (hplain (pass_enableAccessControl file l t))
  | createAccessPermission p t o =>
      exact translate_plain rfl (List.append_nil _) (hplain (pass_createAccessPermission file l p t o))
  | createAccessRole r ps =>
      have hattached := (attached_listed l).mpr h
      have hown := pass_createAccessRole file l r ps (List.append_nil _).symm hattached
        (noStart_nil _)
      exact translate_tight_list (List.mem_of_getElem? (i := 0) rfl) rfl rfl
        (hplain (hown.trans (congrArg Except.ok (List.append_nil _))))
  | createAccessInheritance f fs t ts hmatched =>
      obtain ⟨hfs, hgap, hts⟩ := h
      exact translate_plain rfl (List.append_nil _)
        (hplain (pass_createAccessInheritance file l f fs t ts hmatched hfs hts hgap))
  | listAccessPermission t =>
      have hown := hplain (pass_listAccessPermission file l t)
      cases t with
      | none => exact translate_plain rfl (List.append_nil _) hown
      | some t => exact translate_plain rfl (List.append_nil _) hown
  | listAccessRoleBinding t query =>
      exact translate_query (l := l) rfl rfl rfl (pass_listAccessRoleBinding file l t)
  | listAccessRole having =>
      cases having with
      | none => exact translate_plain rfl (List.append_nil _) (hplain (pass_roles file l))
      | some having =>
          cases having with
          | one p =>
              have hnone (g : Gap) (cols : Columns) (v : Bytes) :
                  [] ≠ g.bytes ++ 40 :: (cols.text ++ 41 :: v) := by
                simp
              have hown := pass_permission file l p (noStart_nil _) hnone unmatched_nil
              exact translate_plain rfl (List.append_nil _)
                (hown.trans (congrArg Except.ok (List.append_nil _)))
          | all ps =>
              exact translate_tight_list (List.mem_of_getElem? (i := 1) rfl) rfl rfl
                (hplain (pass_permissions_all file l ps h))
          | any ps =>
              exact translate_tight_list (List.mem_of_getElem? (i := 2) rfl) rfl rfl
                (hplain (pass_permissions_any file l ps h))
  | listAccessInheritance s =>
      have hown := hplain (pass_listAccessInheritance file l s)
      cases s with
      | none => exact translate_plain rfl (List.append_nil _) hown
      | some s =>
          obtain ⟨side, t⟩ := s
          cases side with
          | source => exact translate_plain rfl (List.append_nil _) hown
          | target => exact translate_plain rfl (List.append_nil _) hown
  | bindAccessRole r p t query =>
      exact translate_query (l := l) rfl rfl rfl (pass_bindAccessRole file l r p t)
  | unbindAccessRole r p t query =>
      exact translate_query (l := l) rfl rfl rfl (pass_unbindAccessRole file l r p t)

end Tight

section Loose

variable {file : Bytes}

theorem exists_attached (ws : List Listed) :
    ∃ ws₁ ws₂, ws = ws₁ ++ ws₂ ∧ Attached ws₁ ∧
      (ws₂ = [] ∨ ∃ w ws₃, ws₂ = w :: ws₃ ∧ w.before.bytes ≠ []) := by
  induction ws with
  | nil => exact ⟨[], [], rfl, fun _ h => absurd h List.not_mem_nil, .inl rfl⟩
  | cons w ws ih =>
      by_cases hw : w.before.bytes = []
      · obtain ⟨ws₁, ws₂, rfl, hattached, hrest⟩ := ih
        exact ⟨w :: ws₁, ws₂, rfl, List.forall_mem_cons.mpr ⟨hw, hattached⟩, hrest⟩
      · exact ⟨[], w :: ws, rfl, fun _ h => absurd h List.not_mem_nil, .inr ⟨w, ws, rfl, hw⟩⟩

theorem exists_last_word {ws : List Listed} (hne : ws ≠ []) :
    ∃ s x, textOf [.others ws] = s ++ [x] ∧ isWord x = true := by
  obtain ⟨ws, w, rfl⟩ := (List.eq_nil_or_concat ws).resolve_left hne
  obtain ⟨s, x, hword⟩ := (List.eq_nil_or_concat w.word.bytes).resolve_left w.word.ne_nil
  refine ⟨ws.flatMap Listed.bytes ++ (w.before.bytes ++ 44 :: (w.behind.bytes ++ s)), x, ?_, ?_⟩
  · simp only [textOf, Part.bytes, List.concat_eq_append, List.flatMap_append, List.flatMap_cons,
      List.flatMap_nil, Listed.bytes, hword, List.append_assoc, List.cons_append, List.append_nil]
  · exact w.word.word x (by simp [hword])

theorem noStart_loose {w : Listed} (hw : w.before.bytes ≠ []) (ws : List Listed) :
    NoStart (fun x => isWord x || x == 44) (textOf [.others (w :: ws)]) := by
  have hspace : ∀ x ∈ w.before.bytes, (isWord x || x == 44) = false := by
    intro x hx
    have hx := w.before.space x hx
    rw [not_isWord_of_isSpace hx, Bool.false_or, beq_eq_false_iff_ne]
    rintro rfl
    exact absurd hx (by decide)
  change NoStart _ (((w :: ws).flatMap Listed.bytes) ++ [])
  rw [List.flatMap_cons, Listed.bytes, List.append_assoc, List.append_assoc]
  exact noStart_append_of_ne_nil hw hspace _

theorem sql_of_behind {c : Command} (hquery : c.query = none) {s : Bytes} {x : UInt8}
    (hbehind : textOf c.behind = s ++ [x]) (p : Bytes) :
    c.sql p = (textOf c.front ++ (p ++ s)) ++ [x] := by
  rw [Command.sql, hquery, hbehind]
  simp only [enclose, List.append_assoc]

theorem ne_of_last {s t : Bytes} {x y : UInt8} (h : x ≠ y) : s ++ [x] ≠ t ++ [y] := by
  intro heq
  exact h (List.cons.inj (List.append_inj' heq rfl).2).1

theorem tight_createAccessRole {r : Word} {ps : Names} {l : Layout none} {p : Bytes}
    (h : translate file ((Command.createAccessRole r ps).text l) =
      ((Command.createAccessRole r ps).sql p, .noError)) : Command.TightCommas l 0 ps := by
  obtain ⟨ws, ws', hlisted, hattached, hrest⟩ := exists_attached (l.listed 0 ps.others)
  by_cases hnil : ws' = []
  · rw [hnil, List.append_nil] at hlisted
    exact (attached_listed l).mp (hlisted ▸ hattached)
  · obtain ⟨w, ws₃, rfl, hw⟩ := hrest.resolve_left hnil
    have hown := pass_createAccessRole file l r ps hlisted hattached (noStart_loose hw ws₃)
    have htext : (Command.createAccessRole r ps).text l =
        textOf (Command.parts l (.createAccessRole r ps)) := List.append_nil _
    have htranslate := translate_listing (c := .createAccessRole r ps)
      (List.mem_of_getElem? (i := 0) rfl) rfl (htext ▸ hown)
    rw [htranslate, Prod.mk.injEq] at h
    obtain ⟨s, x, hlast, hword⟩ := exists_last_word (List.cons_ne_nil w ws₃)
    have hquote : textOf (Command.createAccessRole r ps).behind = (utf8
        ("]);INSERT INTO __access_roles_denorm__ (_name, _permission) SELECT _name, " ++
          "unnest(_permissions) FROM __access_roles__ WHERE _name = '") ++ (lowerWord r).bytes) ++
            [39] := by
      simp only [Command.behind, textOf, Part.bytes, List.append_assoc, List.append_nil]
      rfl
    have hends := h.1
    rw [hlast, ← List.append_assoc, sql_of_behind rfl hquote p] at hends
    exact absurd hends (ne_of_last (by rintro rfl; exact absurd hword (by decide)))

theorem tight_listAccessRole {having : Having} {w : Word} {ps : Names} {l : Layout none} {p : Bytes}
    (htext : textOf (Command.parts l (.listAccessRole (some having))) =
      textOf (Command.parts l (.listAccessRole (some (.one w)))) ++ textOf (Command.columns l 0 ps))
    (hbehind : textOf (Command.listAccessRole (some having)).behind = [] ++ [93])
    (h : translate file ((Command.listAccessRole (some having)).text l) =
      ((Command.listAccessRole (some having)).sql p, .noError)) : Command.TightColumns l 0 ps := by
  by_contra hloose
  have hown := pass_permissions_loose file l ps hloose w
  rw [← htext] at hown
  have hcommand : (Command.listAccessRole (some having)).text l =
      textOf (Command.parts l (.listAccessRole (some having))) := List.append_nil _
  have hunmatched (f : Form) : Unmatched f.regex
      (textOf (Command.listAccessRole (some (.one w))).front ++
        textOf (Command.columns l 0 ps)) [] := by
    have hshape : shapeOf ((Command.listAccessRole (some (.one w))).front ++
        Command.columns l 0 ps) = shapeOf ((Command.listAccessRole (some (.one aWord))).front ++
          Command.columns aLayout 0 someNames) := rfl
    rw [← textOf_append]
    exact unmatched_textOf (hshape ▸ permissionColumns.absent) f
  have htranslate := translate_of_pass (c := .listAccessRole (some having)) (hcommand ▸ hown)
    hunmatched
  rw [htranslate, Prod.mk.injEq] at h
  have hclose : textOf (Command.columns l 0 ps) = textOf ([.gap (l.gaps 0), .text (utf8 "("),
      .gap (l.gaps 1), .word ps.first, .others (l.listed 0 ps.others), .gap (l.gaps 2)]) ++ [41] := by
    simp only [Command.columns, textOf, Part.bytes, List.append_assoc, List.append_nil]
    rfl
  have hends := h.1
  rw [hclose, ← List.append_assoc, sql_of_behind rfl hbehind] at hends
  exact ne_of_last (by decide) hends

theorem eq_of_laid {as : List Atom} {s s' u u' : Bytes} {new new' : Groups UInt8}
    {after : UInt8 → Bool} (hs : Laid as s new) (hs' : Laid as s' new')
    (hseparated : Separated after as = true) (hu : Starts after u) (hu' : Starts after u')
    (h : s ++ u = s' ++ u') : u = u' := by
  have hnothing : First (seqs []) ([] : Bytes) [] (Starts after) :=
    first_nothing.mono fun _ _ => trivial
  have hmatch {s u : Bytes} {new : Groups UInt8} (hs : Laid as s new) (hu : Starts after u) :
      matchHere (seqs (as.map Atom.regex ++ [])) (s ++ u) = some ⟨[], [] ++ new, u⟩ := by
    have hfirst := matchHere_of_first (first_of_laid hs hseparated hnothing fun _ h => h) hu
    rwa [List.append_nil s] at hfirst
  have hsame := (hmatch hs hu).symm.trans (h ▸ hmatch hs' hu')
  exact (Match.mk.inj (Option.some.inj hsame)).2.2

section Inheritance

variable {f : Word} {fs : Names} {t : Word} {ts : Names} {l : Layout none}

def targetText (k : Keyword "TO") (b : Break) (t : Word) : Bytes :=
  k.bytes ++ (b.bytes ++ (t.bytes ++ []))

theorem laid_source (c : Inheritances.Inheritance) :
    Laid ([.keyword "CREATE", .spaces, .keyword "ACCESS", .spaces, .keyword "INHERITANCE"] ++
      [.spaces, .keyword "FROM", .spaces, .word 1]) c.sourceText [(1, c.f.bytes)] :=
  .cons (.keyword c.create) <| .cons (.spaces (c.breaks 0)) <| .cons (.keyword c.access) <|
    .cons (.spaces (c.breaks 1)) <| .cons (.keyword c.inheritance) <| .cons (.spaces (c.breaks 2)) <|
    .cons (.keyword c.source) <| .cons (.spaces (c.breaks 3)) <| .cons (.word 1 c.f) .nil

theorem laid_target (k : Keyword "TO") (b : Break) (t : Word) :
    Laid [.keyword "TO", .spaces, .word 4] (targetText k b t) [(4, t.bytes)] :=
  .cons (.keyword k) <| .cons (.spaces b) <| .cons (.word 4 t) .nil

theorem noStart_target (k : Keyword "TO") (b : Break) (t : Word) (s : Bytes) :
    NoStart isSpace (targetText k b t ++ s) := by
  rw [targetText, List.append_assoc]
  exact noStart_keyword (by decide) k _

theorem starts_of_noStart {s : Bytes} (h : NoStart isWord s) : Starts (fun x => !isWord x) s :=
  fun x hx => by simp [h x hx]

theorem parts_inheritance (hmatched : fs.others.length = ts.others.length) :
    textOf (Command.parts l (.createAccessInheritance f fs t ts hmatched)) =
      textOf (Command.verb l "CREATE" "INHERITANCE" ++ Command.clause l 1 "FROM" (.word f)) ++
        (textOf (Command.columns l 0 fs) ++ ((l.gaps 9).bytes ++
          (targetText (l.keyword 4 "TO") (l.breaks 4) t ++
            (textOf (Command.columns l 1 ts) ++ [])))) := by
  simp only [Command.parts, textOf_append, targetText]
  simp only [textOf, Part.bytes, List.append_assoc, List.append_nil]

theorem text_inheritance (c : Inheritances.Inheritance) (v : Bytes) :
    c.text ++ v = c.sourceText ++ ((c.gaps 0).bytes ++ 40 :: (c.fs.text ++ 41 ::
      ((c.breaks 4).bytes ++ (targetText c.target (c.breaks 5) c.t ++
        ((c.gaps 1).bytes ++ 40 :: (c.ts.text ++ 41 :: v)))))) := by
  have hopen : utf8 "(" = [40] := rfl
  have hclose : utf8 ")" = [41] := rfl
  simp only [Inheritances.Inheritance.text, Inheritances.Inheritance.sourceText, targetText, hopen, hclose,
    List.append_assoc, List.cons_append, List.nil_append, List.append_nil]

theorem tight_of_text {c : Inheritances.Inheritance} {v : Bytes}
    (hmatched : fs.others.length = ts.others.length)
    (h : textOf (Command.parts l (.createAccessInheritance f fs t ts hmatched)) = c.text ++ v) :
    Command.TightColumns l 0 fs ∧ (l.gaps 9).bytes ≠ [] ∧ Command.TightColumns l 1 ts := by
  have hsource := laid_parts (laid_verb l "CREATE" "INHERITANCE")
    (laid_clause l 1 "FROM" (p := .word f) (.word 1 f))
  rw [parts_inheritance, text_inheritance] at h
  have hcolumns := eq_of_laid hsource (laid_source c) (by decide +kernel)
    (starts_of_noStart (noStart_columns l 0 fs _))
    (starts_of_noStart (noStart_gap (c.gaps 0) (by decide) _)) h
  obtain ⟨hfs, hbehind⟩ := tight_of_columns l hcolumns
  obtain ⟨hgap, htarget⟩ := append_inj_of_noStart (l.gaps 9).space (c.breaks 4).space
    (noStart_target _ _ _ _) (noStart_target _ _ _ _) hbehind
  have hcolumns' := eq_of_laid (laid_target (l.keyword 4 "TO") (l.breaks 4) t)
    (laid_target c.target (c.breaks 5) c.t) (by decide +kernel)
    (starts_of_noStart (noStart_columns l 1 ts _))
    (starts_of_noStart (noStart_gap (c.gaps 1) (by decide) _)) htarget
  exact ⟨hfs, hgap ▸ (c.breaks 4).ne_nil, (tight_of_columns l hcolumns').1⟩

/-- The verb of the pattern begins with another letter than a text. -/
def OtherVerb (x : UInt8) (g : Form) : Prop :=
  (lower (utf8 g.verb)).head?.any (fun c => c != toLower x) = true

theorem matchHere_eq_none_of_verb {g : Form} {x : UInt8} (hx : OtherVerb x g) (s : Bytes) :
    matchHere g.regex (x :: s) = none := by
  obtain ⟨tail, htail⟩ := g.exists_regex_eq
  refine matchHere_eq_none fun a v ha heq => ?_
  rw [htail] at ha
  obtain ⟨b, d, hb, -, rfl⟩ := ha
  rw [OtherVerb, ← takes_literal.mp hb] at hx
  cases b with
  | nil => simp [lower] at hx
  | cons y b =>
      obtain ⟨rfl, -⟩ := List.cons.inj heq
      simp [lower] at hx

theorem pass_cons {g : Form} {x : UInt8} {s t : Bytes} (hnone : matchHere g.regex (x :: s) = none)
    (h : pass file g (x :: s) = .ok t) : ∃ t', t = x :: t' := by
  obtain ⟨put, hput⟩ := exists_pass_eq file g
  rw [hput, replace_cons_of_matchHere_none (regex_not_nullable g) hnone] at h
  cases hrest : replace g.regex put s with
  | error err =>
      rw [hrest] at h
      exact absurd h (by simp [bind, Except.bind])
  | ok u =>
      rw [hrest] at h
      exact ⟨u, (Except.ok.inj h).symm⟩

theorem foldlM_cons {x : UInt8} {fs : List Form}
    (hfs : ∀ g ∈ fs, OtherVerb x g) {s t : Bytes}
    (h : (fs.map (pass file)).foldlM (fun s pass => pass s) (x :: s) = .ok t) :
    ∃ t', t = x :: t' := by
  induction fs generalizing s with
  | nil => exact ⟨s, (Except.ok.inj h).symm⟩
  | cons g fs ih =>
      obtain ⟨hg, hfs⟩ := List.forall_mem_cons.mp hfs
      rw [List.map_cons, List.foldlM_cons] at h
      cases hpass : pass file g (x :: s) with
      | error err =>
          rw [hpass] at h
          exact absurd h (by simp [bind, Except.bind])
      | ok u =>
          obtain ⟨u, rfl⟩ := pass_cons (matchHere_eq_none_of_verb hg s) hpass
          rw [hpass] at h
          exact ih hfs h

def laterForms : List Form :=
  [.listAccessPermission, .listAccessRoleBinding, .listAccessRole, .listAccessInheritance,
    .bindAccessRole, .unbindAccessRole]

theorem passes_split : passes file = Form.createAccessInheritance.earlier.map (pass file) ++
    pass file .createAccessInheritance :: laterForms.map (pass file) := rfl

theorem otherVerb_laterForms {x : UInt8} (hx : toLower x = 99) : ∀ g ∈ laterForms, OtherVerb x g := by
  have hall : ∀ g ∈ laterForms, (lower (utf8 g.verb)).head?.any (fun c => c != 99) = true := by
    decide +kernel
  intro g hg
  rw [OtherVerb, hx]
  exact hall g hg

theorem translate_cons (file : Bytes) {x : UInt8} {s : Bytes} (hcomments : Unmatched comment (x :: s) [])
    (hearlier : ∀ g ∈ Form.createAccessInheritance.earlier, Unmatched g.regex (x :: s) [])
    (hnone : matchHere createAccessInheritance (x :: s) = none) (hx : toLower x = 99) :
    ∃ t, (translate file (x :: s)).1 = x :: t := by
  have hfirst := foldlM_passes_eq_self file hearlier
  have hkept (t : Bytes) (ht : (passes file).foldlM (fun s pass => pass s) (x :: s) = .ok t) :
      ∃ t', t = x :: t' := by
    rw [passes_split, List.foldlM_append, hfirst] at ht
    change List.foldlM (fun s (pass : Bytes → Except Conn.Error Bytes) => pass s) (x :: s)
      (pass file .createAccessInheritance :: laterForms.map (pass file)) = .ok t at ht
    rw [List.foldlM_cons] at ht
    cases hpass : pass file .createAccessInheritance (x :: s) with
    | error err =>
        rw [hpass] at ht
        exact absurd ht (by simp [bind, Except.bind])
    | ok u =>
        obtain ⟨u, rfl⟩ := pass_cons (g := .createAccessInheritance) hnone hpass
        rw [hpass] at ht
        exact foldlM_cons (otherVerb_laterForms hx) ht
  rw [translate_uncommented hcomments]
  cases hfold : (passes file).foldlM (fun s pass => pass s) (x :: s) with
  | error err => exact ⟨s, rfl⟩
  | ok t => exact hkept t hfold

/-- A command that its pattern has no room for is left as it is. -/
theorem tight_createAccessInheritance {p : Bytes} (hmatched : fs.others.length = ts.others.length)
    (h : translate file ((Command.createAccessInheritance f fs t ts hmatched).text l) =
      ((Command.createAccessInheritance f fs t ts hmatched).sql p, .noError)) :
    Command.TightColumns l 0 fs ∧ (l.gaps 9).bytes ≠ [] ∧ Command.TightColumns l 1 ts := by
  by_contra hloose
  have htext : (Command.createAccessInheritance f fs t ts hmatched).text l =
      textOf (Command.parts l (.createAccessInheritance f fs t ts hmatched)) := List.append_nil _
  have hcreate : lower (utf8 "CREATE") = 99 :: lower (utf8 "REATE") := by decide +kernel
  obtain ⟨x, b, hbytes, hx, -⟩ :=
    List.map_eq_cons_iff.mp ((l.keyword 0 "CREATE").spelled.trans hcreate)
  obtain ⟨s, hs⟩ : ∃ s, (Command.createAccessInheritance f fs t ts hmatched).text l = x :: s := by
    rw [htext, parts_inheritance, textOf_append, Command.verb, textOf, Part.bytes, hbytes]
    exact ⟨_, rfl⟩
  have hnone : matchHere createAccessInheritance (x :: s) = none := by
    cases hmatch : matchHere createAccessInheritance (x :: s) with
    | none => rfl
    | some m =>
        obtain ⟨c, hc⟩ := Inheritances.exists_command_of_matchHere hmatch
        exact absurd (tight_of_text hmatched (htext.symm.trans (hs.trans hc.symm))) hloose
  have hcomments := uncommented_text (.createAccessInheritance f fs t ts hmatched) l
  have hearlier (g : Form) (hg : g ∈ Form.createAccessInheritance.earlier) :=
    unmatched_text (.createAccessInheritance f fs t ts hmatched) l hg
  rw [hs] at hcomments hearlier h
  obtain ⟨u, hu⟩ := translate_cons file hcomments hearlier hnone hx
  rw [h] at hu
  have hinsert : ∃ v, (Command.createAccessInheritance f fs t ts hmatched).sql p = 73 :: v :=
    ⟨_, rfl⟩
  obtain ⟨v, hv⟩ := hinsert
  obtain rfl : 73 = x := (List.cons.inj (hv.symm.trans hu)).1
  exact absurd hx (by decide)

end Inheritance

theorem parts_all (l : Layout none) (ps : Names) :
    textOf (Command.parts l (.listAccessRole (some (.all ps)))) =
      textOf (Command.parts l (.listAccessRole (some (.one
        (keywordWord (by decide) (l.keyword 4 "ALL")))))) ++ textOf (Command.columns l 0 ps) := by
  simp only [Command.parts, Command.havingParts, textOf_append, Command.clause, textOf, Part.bytes,
    keywordWord, List.append_assoc, List.nil_append]

theorem parts_any (l : Layout none) (ps : Names) :
    textOf (Command.parts l (.listAccessRole (some (.any ps)))) =
      textOf (Command.parts l (.listAccessRole (some (.one
        (keywordWord (by decide) (l.keyword 4 "ANY")))))) ++ textOf (Command.columns l 0 ps) := by
  simp only [Command.parts, Command.havingParts, textOf_append, Command.clause, textOf, Part.bytes,
    keywordWord, List.append_assoc, List.nil_append]

theorem tight_of_translate {c : Command} {l : Layout c.query} {p : Bytes}
    (h : translate file (c.text l) = (c.sql p, .noError)) : c.Tight l := by
  cases c with
  | createAccessRole r ps => exact tight_createAccessRole h
  | createAccessInheritance f fs t ts hmatched => exact tight_createAccessInheritance hmatched h
  | listAccessRole having =>
      cases having with
      | none => trivial
      | some having =>
          cases having with
          | one p => trivial
          | all ps => exact tight_listAccessRole (parts_all l ps) rfl h
          | any ps => exact tight_listAccessRole (parts_any l ps) rfl h
  | _ => trivial

end Loose

theorem translate_iff_tight (file : Bytes) (c : Command) (l : Layout c.query) :
    (∃ p, c.Copies p ∧ translate file (c.text l) = (c.sql p, .noError)) ↔ c.Tight l :=
  ⟨fun ⟨_, _, h⟩ => tight_of_translate h, translate_of_tight⟩

/-- Two layouts of a command are translated to the same SQL exactly if its pattern has room for
both. -/
theorem sameSql_iff_tight (file : Bytes) (c : Command) (l l' : Layout c.query) :
    c.SameSql file l l' ↔ c.Tight l ∧ c.Tight l' := by
  rw [← translate_iff_tight file c l, ← translate_iff_tight file c l']
  constructor
  · rintro ⟨p, p', hp, hp', h, h'⟩
    exact ⟨⟨p, hp, h⟩, ⟨p', hp', h'⟩⟩
  · rintro ⟨⟨p, hp, h⟩, ⟨p', hp', h'⟩⟩
    exact ⟨p, p', hp, hp', h, h'⟩

section Example

def otherWord : Word := ⟨[98], by decide, List.forall_mem_singleton.mpr rfl⟩

/-- `CREATE ACCESS ROLE a WITH a,b` -/
def twoPermissions : Command := .createAccessRole aWord ⟨aWord, [otherWord]⟩

def oneSpace : Gap := ⟨[32], isSpace_space⟩

/-- `CREATE ACCESS ROLE a WITH a ,b` -/
def spacedLayout : Layout none := { aLayout with commas := fun _ _ => (oneSpace, noGap) }

example : twoPermissions.text aLayout = utf8 "CREATE ACCESS ROLE a WITH a,b" ∧
    twoPermissions.text spacedLayout = utf8 "CREATE ACCESS ROLE a WITH a ,b" := by
  decide +kernel

/-- White space in front of a comma ends the list. -/
theorem not_sameSql_spaced : ¬twoPermissions.SameSql [] aLayout spacedLayout := by
  rintro ⟨-, p', -, -, -, h⟩
  have htight : Command.TightCommas spacedLayout 0 ⟨aWord, [otherWord]⟩ :=
    tight_createAccessRole (r := aWord) h
  exact absurd (htight 0 (by decide)) (by decide)

end Example

end PgFort.LayoutInvariance
