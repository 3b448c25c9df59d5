import PgFort.CommandLists

namespace PgFort.CommandSkeletons

open PgFort.Framing
open PgFort.Conn
open PgFort.Regexes
open PgFort.FirstWays
open PgFort.ProxyCommand
open PgFort.CommandLayouts
open PgFort.Shapes
open PgFort.CommandShapes
open PgFort.CommandPasses
open PgFort.CommandTexts
open PgFort.CommandLists

def aWord : Word := ⟨[97], by decide, List.forall_mem_singleton.mpr rfl⟩

def aPrincipal : Principal := ⟨[97], by decide, List.forall_mem_singleton.mpr rfl⟩

def aParameter {mail : Bool} : Operand mail :=
  .parameter [49] (by decide) (List.forall_mem_singleton.mpr rfl)

def someNames : Names := ⟨aWord, []⟩

def aQuery : Query := ⟨[97], by decide⟩

def noGap : Gap := ⟨[], fun _ h => absurd h List.not_mem_nil⟩

theorem isSpace_space : ∀ c ∈ [32], isSpace c = true := List.forall_mem_singleton.mpr rfl

def aLayout : Layout none where
  keyword _ s := Inheritances.parenthesis s
  breaks _ := ⟨⟨[32], isSpace_space⟩, by decide⟩
  gaps _ := noGap
  commas _ _ := (noGap, noGap)
  copy _ h := by simp at h

/-- A command in which and in whose SQL no comment and no earlier command begins. -/
structure Skeleton where
  command : Command
  parts : ∀ f ∈ command.form.earlier, Absent [f.atoms] (shapeOf (command.parts aLayout)) := by
    decide +kernel
  uncommented : Uncommented (shapeOf (command.parts aLayout)) := by decide +kernel
  front : Absent Form.verbs (shapeOf command.front) := by decide +kernel
  behind : Absent Form.verbs (.seq (Part.text [41]).shape (shapeOf command.behind)) := by
    decide +kernel

/-- What stands behind a match of a pattern without its tail. -/
def ends : Form → UInt8 → Bool
  | .enableAccessControl | .createAccessPermission => fun x => !isWord x
  | .createAccessRole => fun x => !(isWord x || x == 44)
  | _ => fun _ => true

/-- A pattern whose atoms go no further than they should. -/
structure Ending where
  form : Form
  separated : Separated (ends form) form.atoms = true := by decide +kernel

def endings : List Ending :=
  [{ form := .enableAccessControl }, { form := .createAccessPermission },
    { form := .createAccessRole }, { form := .listAccessPermission },
    { form := .listAccessRoleBinding }, { form := .listAccessRole },
    { form := .listAccessInheritance },
    { form := .createAccessInheritance, separated := Inheritances.separated_atoms },
    { form := .bindAccessRole, separated := IdQueries.bindQuery.separated },
    { form := .unbindAccessRole, separated := IdQueries.unbindQuery.separated }]

theorem separated_atoms (f : Form) : Separated (ends f) f.atoms = true := by
  have hform : ∃ e ∈ endings, e.form = f := by
    have hget (n : ℕ) (e : Ending) (h : endings[n]? = some e) (he : e.form = f) :
        ∃ e ∈ endings, e.form = f :=
      ⟨e, List.mem_of_getElem? h, he⟩
    cases f with
    | enableAccessControl => exact hget 0 _ rfl rfl
    | createAccessPermission => exact hget 1 _ rfl rfl
    | createAccessRole => exact hget 2 _ rfl rfl
    | listAccessPermission => exact hget 3 _ rfl rfl
    | listAccessRoleBinding => exact hget 4 _ rfl rfl
    | listAccessRole => exact hget 5 _ rfl rfl
    | listAccessInheritance => exact hget 6 _ rfl rfl
    | createAccessInheritance => exact hget 7 _ rfl rfl
    | bindAccessRole => exact hget 8 _ rfl rfl
    | unbindAccessRole => exact hget 9 _ rfl rfl
  obtain ⟨e, -, rfl⟩ := hform
  exact e.separated

def listAtoms (m : ℕ) : List Atom := [.mayBeSpaces, .keyword "(", .list m, .keyword ")"]

theorem separated_listAtoms (m : ℕ) : Separated (fun _ => true) (listAtoms m) = true := by
  have hsome : Separated (fun _ => true) (listAtoms 0) = true := by decide +kernel
  exact hsome

/-- The keywords that names stand behind, or in their place. -/
def clauseWords : List String := ["ON", "WITH", "FROM", "TO", "ALL", "ANY"]

theorem isWord_of_toLower {x : UInt8} (h : isWord (toLower x) = true) : isWord x = true := by
  have hall : (allBytes.all fun x => !isWord (toLower x) || isWord x) = true := by decide +kernel
  simpa [h] using List.all_eq_true.mp hall x (mem_allBytes x)

theorem spelled_clauseWords : ∀ s ∈ clauseWords,
    (utf8 s ≠ [] ∧ ∀ x ∈ lower (utf8 s), isWord x = true) ∧ upper (utf8 s) = utf8 s ∧
      ∀ s' ∈ clauseWords, s ≠ s' → ¬lower (utf8 s) <+: lower (utf8 s') := by
  decide +kernel

theorem not_prefix_clauseWords {s s' : String} (hs : s ∈ clauseWords) (hs' : s' ∈ clauseWords)
    (hne : s ≠ s') : ¬lower (utf8 s) <+: lower (utf8 s') := by
  obtain ⟨-, -, hprefix⟩ := spelled_clauseWords s hs
  exact hprefix s' hs' hne

/-- Parts in which no command begins. -/
structure Fragment where
  parts : List Part
  absent : Absent Form.verbs (shapeOf parts) := by decide +kernel

def leftOthers : Fragment := { parts := [.others []] }

def leftColumns : Fragment := { parts := Command.columns aLayout 0 someNames }

def permissionColumns : Fragment :=
  { parts := (Command.listAccessRole (some (.one aWord))).front ++
      Command.columns aLayout 0 someNames }

def aColumns : Columns := ⟨aWord, []⟩

/-- The shape of SQL with a list in quotes, and what may be left of the list. -/
def listing (c : Command) : Shape Kind :=
  .seq (shapeOf c.front) (.seq (shapeOf (quotedParts aColumns))
    (.seq (shapeOf c.behind) (shapeOf [.others []])))

def listings : List Command :=
  [.createAccessRole aWord someNames, .listAccessRole (some (.all someNames)),
    .listAccessRole (some (.any someNames))]

theorem absent_listings : ∀ c ∈ listings, Absent Form.verbs (listing c) := by
  decide +kernel

theorem matched_someNames : someNames.others.length = someNames.others.length := rfl

def skeletons : List Skeleton :=
  [{ command := .enableAccessControl aWord
     front := by
      unfold Command.front enableFormat
      repeat rw [utf8_append]
      repeat rw [utf8_eq_of_chars _ _ rfl]
      decide +kernel },
    { command := .createAccessPermission aWord aWord aWord },
    { command := .createAccessRole aWord someNames },
    { command := .createAccessInheritance aWord someNames aWord someNames matched_someNames },
    { command := .listAccessPermission none },
    { command := .listAccessPermission (some aWord) },
    { command := .listAccessRoleBinding aWord aQuery },
    { command := .listAccessRole none },
    { command := .listAccessRole (some (.one aWord)) },
    { command := .listAccessRole (some (.all someNames)) },
    { command := .listAccessRole (some (.any someNames)) },
    { command := .listAccessInheritance none },
    { command := .listAccessInheritance (some (.source, aWord)) },
    { command := .listAccessInheritance (some (.target, aWord)) },
    { command := .bindAccessRole aWord aPrincipal aWord aQuery },
    { command := .unbindAccessRole aParameter aParameter aParameter aQuery }]

/-- The command with the same name in all places. Its texts have the same shapes. -/
def skeleton : Command → Command
  | .enableAccessControl _ => .enableAccessControl aWord
  | .createAccessPermission .. => .createAccessPermission aWord aWord aWord
  | .createAccessRole .. => .createAccessRole aWord someNames
  | .createAccessInheritance .. =>
      .createAccessInheritance aWord someNames aWord someNames matched_someNames
  | .listAccessPermission none => .listAccessPermission none
  | .listAccessPermission (some _) => .listAccessPermission (some aWord)
  | .listAccessRoleBinding .. => .listAccessRoleBinding aWord aQuery
  | .listAccessRole none => .listAccessRole none
  | .listAccessRole (some (.one _)) => .listAccessRole (some (.one aWord))
  | .listAccessRole (some (.all _)) => .listAccessRole (some (.all someNames))
  | .listAccessRole (some (.any _)) => .listAccessRole (some (.any someNames))
  | .listAccessInheritance none => .listAccessInheritance none
  | .listAccessInheritance (some (side, _)) => .listAccessInheritance (some (side, aWord))
  | .bindAccessRole .. => .bindAccessRole aWord aPrincipal aWord aQuery
  | .unbindAccessRole .. => .unbindAccessRole aParameter aParameter aParameter aQuery

section Shapes

variable {q : Option Query}

theorem exists_skeleton (c : Command) : ∃ s ∈ skeletons, s.command = skeleton c := by
  have hget (n : ℕ) (s : Skeleton) (h : skeletons[n]? = some s) (hs : s.command = skeleton c) :
      ∃ s ∈ skeletons, s.command = skeleton c :=
    ⟨s, List.mem_of_getElem? h, hs⟩
  cases c with
  | enableAccessControl t => exact hget 0 _ rfl rfl
  | createAccessPermission p t o => exact hget 1 _ rfl rfl
  | createAccessRole r ps => exact hget 2 _ rfl rfl
  | createAccessInheritance f fs t ts h => exact hget 3 _ rfl rfl
  | listAccessPermission t =>
      cases t with
      | none => exact hget 4 _ rfl rfl
      | some t => exact hget 5 _ rfl rfl
  | listAccessRoleBinding t q => exact hget 6 _ rfl rfl
  | listAccessRole h =>
      cases h with
      | none => exact hget 7 _ rfl rfl
      | some h =>
          cases h with
          | one p => exact hget 8 _ rfl rfl
          | all ps => exact hget 9 _ rfl rfl
          | any ps => exact hget 10 _ rfl rfl
  | listAccessInheritance s =>
      cases s with
      | none => exact hget 11 _ rfl rfl
      | some s =>
          obtain ⟨side, t⟩ := s
          cases side with
          | source => exact hget 12 _ rfl rfl
          | target => exact hget 13 _ rfl rfl
  | bindAccessRole r p t q => exact hget 14 _ rfl rfl
  | unbindAccessRole r p t q => exact hget 15 _ rfl rfl

theorem shapeOf_formatParts {part part' : ℕ → Part} (h : ∀ n, (part n).shape = (part' n).shape)
    (tpl : Bytes) : shapeOf (formatParts part tpl) = shapeOf (formatParts part' tpl) := by
  induction tpl using formatParts.induct with
  | case1 d tpl hd ih =>
      rw [formatParts, formatParts, if_pos hd, if_pos hd, shapeOf, shapeOf, h, ih]
  | case2 d tpl hd ih =>
      rw [formatParts, formatParts, if_neg hd, if_neg hd, shapeOf, shapeOf, ih]
  | case3 c tpl hc ih =>
      rw [formatParts, formatParts, shapeOf, shapeOf, ih]
      · exact hc
      · exact hc
  | case4 => rfl

/-- The shape of what a command consists of, and that of its SQL, do not depend on its names. -/
theorem shapes_skeleton (l : Layout q) (c : Command) :
    (skeleton c).form = c.form ∧
      shapeOf (c.parts l) = shapeOf ((skeleton c).parts aLayout) ∧
      shapeOf c.front = shapeOf (skeleton c).front ∧
      shapeOf c.behind = shapeOf (skeleton c).behind := by
  cases c with
  | enableAccessControl t =>
      refine ⟨rfl, rfl, shapeOf_formatParts (fun n => ?_) _, rfl⟩
      split <;> rfl
  | createAccessPermission p t o =>
      refine ⟨rfl, rfl, shapeOf_formatParts (fun n => ?_) _, rfl⟩
      split
      · rfl
      · split
        · rfl
        · split <;> rfl
  | createAccessRole r ps => exact ⟨rfl, rfl, rfl, rfl⟩
  | createAccessInheritance f fs t ts h => exact ⟨rfl, rfl, rfl, rfl⟩
  | listAccessPermission t => cases t <;> exact ⟨rfl, rfl, rfl, rfl⟩
  | listAccessRoleBinding t q => exact ⟨rfl, rfl, rfl, rfl⟩
  | listAccessRole h =>
      cases h with
      | none => exact ⟨rfl, rfl, rfl, rfl⟩
      | some h => cases h <;> exact ⟨rfl, rfl, rfl, rfl⟩
  | listAccessInheritance s =>
      cases s with
      | none => exact ⟨rfl, rfl, rfl, rfl⟩
      | some s =>
          obtain ⟨side, t⟩ := s
          cases side <;> exact ⟨rfl, rfl, rfl, rfl⟩
  | bindAccessRole r p t q => exact ⟨rfl, rfl, rfl, rfl⟩
  | unbindAccessRole r p t q => exact ⟨rfl, rfl, rfl, rfl⟩

end Shapes

section Checks

variable {q : Option Query}

theorem checked (c : Command) (l : Layout q) :
    (∀ f ∈ c.form.earlier, Absent [f.atoms] (shapeOf (c.parts l))) ∧
      Uncommented (shapeOf (c.parts l)) ∧ Absent Form.verbs (shapeOf c.front) ∧
      Absent Form.verbs (.seq (Part.text [41]).shape (shapeOf c.behind)) := by
  obtain ⟨hform, hparts, hfront, hbehind⟩ := shapes_skeleton l c
  obtain ⟨s, -, hs⟩ := exists_skeleton c
  rw [hparts, hfront, hbehind, ← hform, ← hs]
  exact ⟨s.parts, s.uncommented, s.front, s.behind⟩

end Checks

section Around

variable {q : Query} (l : Layout (some q)) {f : Form} {ps : List Part}

theorem items_avoid_open (f : Form) : ∀ i ∈ itemsOf f.atoms, (kindOf i).is 40 = false := by
  cases f <;> decide +kernel

theorem verbs_avoid_open (f : Form) :
    ∀ i ∈ itemsOf (Form.verbAtoms f.verb), (kindOf i).is 40 = false := by
  have hall : ∀ as ∈ Form.verbs, ∀ i ∈ itemsOf as, (kindOf i).is 40 = false := by decide +kernel
  exact hall _ f.mem_verbs

theorem unmatched_around (behind : List Part)
    (hps : ∀ following, Unmatched f.regex (textOf ps ++ [40]) following)
    (hbehind : Unmatched f.regex (41 :: textOf behind) []) :
    Unmatched f.regex (textOf ps ++ (enclose (some q) l.copied ++ textOf behind)) [] := by
  have htext : textOf ps ++ (enclose (some q) l.copied ++ textOf behind) =
      (textOf ps ++ [40]) ++ (l.copied ++ 41 :: textOf behind) := by
    simp only [enclose, List.append_assoc, List.cons_append, List.nil_append]
  rw [htext]
  refine unmatched_append (hps _) (unmatched_append ?_ hbehind)
  rw [List.append_nil]
  exact (l.copy q rfl).command f (textOf behind)

end Around

section Commands

variable (c : Command) (l : Layout c.query)

theorem unmatched_text {f : Form} (hf : f ∈ c.form.earlier) : Unmatched f.regex (c.text l) [] := by
  have habsent := (checked c l).1 f hf
  have hfills := fills_shapeOf (c.parts l)
  rw [Command.text]
  generalize c.query = q at l hfills habsent
  cases q with
  | none =>
      have hempty : enclose none l.copied = [] := rfl
      rw [hempty, List.append_nil]
      exact unmatched_of_absent f.regex_eq (List.mem_singleton_self _) habsent hfills
  | some q =>
      have hclose : Unmatched f.regex [41] [] := by
        obtain ⟨tail, htail⟩ := f.exists_regex_eq
        exact unmatched_of_absent htail f.mem_verbs (by decide +kernel) (fills_shape (.text [41]))
      have haround := unmatched_around l [] (unmatched_open_of_absent f.regex_eq
        (List.mem_singleton_self _) (items_avoid_open f) habsent hfills) hclose
      rwa [textOf, List.append_nil] at haround

theorem uncommented_text : Unmatched comment (c.text l) [] := by
  obtain ⟨-, huncommented, -⟩ := checked c l
  have hcomment := unmatched_comment huncommented (fills_shapeOf (c.parts l))
  rw [Command.text]
  generalize c.query = q at l hcomment
  refine unmatched_append (hcomment _) ?_
  cases q with
  | none => exact unmatched_nil
  | some q =>
      have hopen : Unmatched comment [40] ((l.copied ++ [41]) ++ []) :=
        unmatched_comment (s := (Part.text [40]).shape) (by decide +kernel)
          (fills_shape (.text [40])) _
      have hclose : Unmatched comment [41] [] :=
        unmatched_comment (s := (Part.text [41]).shape) (by decide +kernel)
          (fills_shape (.text [41])) _
      exact unmatched_append (a := [40]) hopen
        (unmatched_append ((l.copy q rfl).comment) hclose)

theorem unmatched_sql {q : Query} (l : Layout (some q)) (hquery : c.query = some q) (f : Form) :
    Unmatched f.regex (c.sql l.copied) [] := by
  obtain ⟨tail, htail⟩ := f.exists_regex_eq
  obtain ⟨-, -, hfront, hbehind⟩ := checked c l
  rw [Command.sql, hquery]
  refine unmatched_around l _ ?_ ?_
  · exact unmatched_open_of_absent htail f.mem_verbs (verbs_avoid_open f) hfront
      (fills_shapeOf c.front)
  · exact unmatched_of_absent htail f.mem_verbs hbehind
      ⟨[41], _, fills_shape (.text [41]), fills_shapeOf c.behind, rfl⟩

theorem unmatched_textOf {ps : List Part} (h : Absent Form.verbs (shapeOf ps)) (f : Form) :
    Unmatched f.regex (textOf ps) [] := by
  obtain ⟨tail, htail⟩ := f.exists_regex_eq
  exact unmatched_of_absent htail f.mem_verbs h (fills_shapeOf ps)

end Commands

end PgFort.CommandSkeletons
