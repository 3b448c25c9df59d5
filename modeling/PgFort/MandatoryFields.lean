import PgFort.Lives
import PgFort.SqlForwarding
import PgFort.StatementLists

namespace PgFort.MandatoryFields

open PgFort.Framing
open PgFort.JsonTree
open PgFort.JsonAccess
open PgFort.KeyedTraversal
open PgFort.Conn
open PgFort.Regexes
open PgFort.ProxyCommand
open PgFort.CommentRemoval
open PgFort.StatementLists
open PgFort.Schema
open PgFort.Stateful.Action
open PgFort.Plugins
open PgFort.StateMachine
open PgFort.Frames
open PgFort.SqlForwarding
open PgFort.Runs
open PgFort.Lives

/-- The error has the fields that a response always has. -/
structure Mandatory (e : Conn.Error) : Prop where
  severity : (e.field? "S").isSome = true
  code : (e.field? "C").isSome = true
  message : (e.field? "M").isSome = true

theorem mandatory_iff {e : Conn.Error} : Mandatory e ↔ (setError e).isSome = true := by
  constructor
  · rintro ⟨hs, hc, hm⟩
    obtain ⟨s, hs⟩ := Option.isSome_iff_exists.mp hs
    obtain ⟨c, hc⟩ := Option.isSome_iff_exists.mp hc
    obtain ⟨m, hm⟩ := Option.isSome_iff_exists.mp hm
    rw [setError, hs, hc, hm]
    rfl
  · intro h
    rw [setError] at h
    cases hs : e.field? "S" with
    | none => simp [hs] at h
    | some s =>
        cases hc : e.field? "C" with
        | none => simp [hs, hc] at h
        | some c =>
            cases hm : e.field? "M" with
            | none => simp [hs, hc, hm] at h
            | some m => exact ⟨by rw [hs]; rfl, by rw [hc]; rfl, by rw [hm]; rfl⟩

section Translation

theorem lower_of_mem_ways {cs s : Bytes} {gs : Groups UInt8} {w : Way UInt8}
    (hw : w ∈ ways (seqs (cs.map fun c => .char fun x => toLower x == toLower c)) gs s) :
    ∃ t, s = t ++ w.2 ∧ lower t = lower cs := by
  induction cs generalizing s with
  | nil =>
      rw [List.map_nil, seqs, List.foldr_nil, ways, List.mem_singleton] at hw
      exact ⟨[], by rw [hw]; rfl, rfl⟩
  | cons c cs ih =>
      obtain ⟨v, hv, hrest⟩ := List.mem_flatMap.mp hw
      cases s with
      | nil => exact absurd hv List.not_mem_nil
      | cons x s =>
          rw [ways] at hv
          split at hv
          · rename_i hx
            rw [List.mem_singleton.mp hv] at hrest
            obtain ⟨t, rfl, ht⟩ := ih hrest
            refine ⟨x :: t, rfl, ?_⟩
            rw [lower, List.map_cons, eq_of_beq hx, lower, List.map_cons]
            exact congrArg _ ht
          · exact absurd hv List.not_mem_nil

theorem upper_of_matches {l : String} {t : Bytes} (h : Matches (literal l) t) :
    upper t = upper (utf8 l) := by
  obtain ⟨gs, s, w, hw, rfl⟩ := h
  obtain ⟨t, rfl, ht⟩ := lower_of_mem_ways hw
  have hupTo : upTo (t ++ w.2) w.2 = t := by
    rw [upTo, List.length_append, Nat.add_sub_cancel, List.take_left]
  rw [hupTo, ← upper_lower, ht, upper_lower]

theorem direction_of_mem_found {s : Bytes} {gs : Groups UInt8}
    (h : gs ∈ found listAccessInheritance s) (hmatched : matched gs 2 = true) :
    upper (text gs 2) = utf8 "FROM" ∨ upper (text gs 2) = utf8 "TO" := by
  obtain ⟨t, w, hw, rfl⟩ := exists_way_of_mem_found h
  obtain ⟨d, hd⟩ := Option.isSome_iff_exists.mp hmatched
  have htext : text w.1 2 = d := by rw [text, hd]; rfl
  have hmem : (2, d) ∈ w.1 := by
    obtain ⟨l₁, l₂, hsplit, -⟩ := List.lookup_eq_some_iff.mp hd
    rw [hsplit]
    exact List.mem_append_right l₁ List.mem_cons_self
  obtain ⟨r, hr, hmatches⟩ := (recorded_of_mem_ways hw (2, d) hmem).resolve_left List.not_mem_nil
  have hsubgroups : (2, r) ∈ [(1, seqs [spaces, .group 2 (.alt (literal "FROM") (literal "TO")), spaces,
      word 3]), (2, .alt (literal "FROM") (literal "TO")), (3, plus isWord)] := hr
  obtain rfl : r = .alt (literal "FROM") (literal "TO") := by simpa using hsubgroups
  obtain ⟨gs, s, v, hv, hupTo⟩ := hmatches
  rw [htext]
  rcases List.mem_append.mp hv with hv | hv
  · exact .inl (upper_of_matches ⟨gs, s, v, hv, hupTo⟩)
  · exact .inr (upper_of_matches ⟨gs, s, v, hv, hupTo⟩)

/-- The words of a list of columns. -/
def columns (gs : Groups UInt8) (n : Nat) : List Bytes :=
  searchWords (text gs n).length (text gs n)

/-- What the pass for `CREATE ACCESS INHERITANCE` is given of a query. -/
def beforeInheritance (query : Bytes) : Except Conn.Error Bytes := do
  let s ← removeComments query
  let s ← translateEnableAccessControl s
  let s ← translateCreateAccessPermission s
  translateCreateAccessRole s

/-- Every command for an inheritance names as many source as destination columns. -/
def EvenColumns (query : Bytes) : Prop :=
  ∀ s, beforeInheritance query = .ok s → ∀ gs ∈ found createAccessInheritance s,
    (columns gs 2).length = (columns gs 5).length

/-- A pass that comes to an end with a text. -/
def Total (pass : Bytes → Except Conn.Error Bytes) : Prop :=
  ∀ s, ∃ t, pass s = .ok t

theorem total_replace {r : Regex UInt8} {f : Groups UInt8 → Except Conn.Error Bytes}
    (hf : ∀ gs, ∃ t, f gs = .ok t) : Total (replace r f) :=
  fun _ => exists_replace_iff.mpr fun gs _ => hf gs

theorem total_translateCreateAccessRole : Total translateCreateAccessRole := by
  refine total_replace fun gs => ?_
  obtain ⟨p, hp⟩ := exists_quoteWords (lower (text gs 2))
  exact ⟨_, by rw [hp]; rfl⟩

theorem total_translateListAccessRole : Total translateListAccessRole := by
  refine total_replace fun gs => ?_
  obtain ⟨condition, hcondition⟩ := exists_permissionCondition gs
  exact ⟨_, by rw [hcondition]; rfl⟩

theorem total_translateListAccessInheritance (file : Bytes) :
    Total (translateListAccessInheritance file) := by
  intro s
  refine exists_replace_iff.mpr fun gs hgs => ?_
  dsimp only
  by_cases hmatched : matched gs 2 = true
  · rw [if_pos hmatched]
    rcases direction_of_mem_found hgs hmatched with hfrom | hto
    · exact ⟨_, by rw [if_pos hfrom]⟩
    · by_cases hfrom : upper (text gs 2) = utf8 "FROM"
      · exact ⟨_, by rw [if_pos hfrom]⟩
      · exact ⟨_, by rw [if_neg hfrom, if_pos hto]⟩
  · exact ⟨_, by rw [if_neg hmatched]⟩

theorem total_foldlM {ps : List (Bytes → Except Conn.Error Bytes)} (h : ∀ p ∈ ps, Total p) :
    Total fun s => ps.foldlM (fun s pass => pass s) s := by
  induction ps with
  | nil => exact fun s => ⟨s, rfl⟩
  | cons p ps ih =>
      intro s
      obtain ⟨t, ht⟩ := h p List.mem_cons_self s
      obtain ⟨u, hu⟩ := ih (fun q hq => h q (List.mem_cons_of_mem _ hq)) t
      exact ⟨u, by simp only [List.foldlM_cons, ht]; exact hu⟩

theorem total_laterPasses (file : Bytes) : ∀ p ∈ (passes file).drop 4, Total p := by
  simp only [passes, List.drop_succ_cons, List.drop_zero, List.forall_mem_cons]
  exact ⟨total_replace fun _ => ⟨_, rfl⟩, total_replace fun _ => ⟨_, rfl⟩,
    total_translateListAccessRole, total_translateListAccessInheritance file,
    total_replace fun _ => ⟨_, rfl⟩, total_replace fun _ => ⟨_, rfl⟩, by simp⟩

theorem exists_beforeInheritance (query : Bytes) : ∃ s, beforeInheritance query = .ok s := by
  obtain ⟨s₀, h₀⟩ := exists_removeComments query
  obtain ⟨s₁, h₁⟩ : ∃ s₁, translateEnableAccessControl s₀ = .ok s₁ :=
    total_replace (fun _ => ⟨_, rfl⟩) s₀
  obtain ⟨s₂, h₂⟩ : ∃ s₂, translateCreateAccessPermission s₁ = .ok s₂ :=
    total_replace (fun _ => ⟨_, rfl⟩) s₁
  obtain ⟨s₃, h₃⟩ := total_translateCreateAccessRole s₂
  exact ⟨s₃, by rw [beforeInheritance, h₀]; simp [h₁, h₂, h₃, bind, Except.bind]⟩

variable {file query s : Bytes}

theorem passes_eq (h : beforeInheritance query = .ok s) :
    (removeComments query >>= fun s => (passes file).foldlM (fun s pass => pass s) s) =
      translateCreateAccessInheritance file s >>= fun s =>
        ((passes file).drop 4).foldlM (fun s pass => pass s) s := by
  obtain ⟨s₀, h₀, h⟩ := bind_eq_ok.mp h
  obtain ⟨s₁, h₁, h⟩ := bind_eq_ok.mp h
  obtain ⟨s₂, h₂, h₃⟩ := bind_eq_ok.mp h
  have hsplit : passes file = [translateEnableAccessControl, translateCreateAccessPermission,
      translateCreateAccessRole, translateCreateAccessInheritance file] ++
        (passes file).drop 4 := rfl
  rw [h₀, hsplit]
  simp [h₁, h₂, h₃, bind, Except.bind]

theorem exists_translated_iff :
    (∃ t, translateCreateAccessInheritance file s = .ok t) ↔
      ∀ gs ∈ found createAccessInheritance s, (columns gs 2).length = (columns gs 5).length := by
  refine exists_replace_iff.trans (forall_congr' fun gs => forall_congr' fun _ => ?_)
  by_cases hcolumns : (columns gs 2).length = (columns gs 5).length
  · exact iff_of_true ⟨_, if_neg (not_not.mpr hcolumns)⟩ hcolumns
  · refine iff_of_false (fun ⟨t, ht⟩ => ?_) hcolumns
    exact nomatch (if_pos hcolumns).symm.trans ht

theorem error_of_translateCreateAccessInheritance {e : Conn.Error}
    (h : translateCreateAccessInheritance file s = .error e) : e = dimensionMismatch file := by
  obtain ⟨gs, hgs⟩ := exists_error_of_replace (by decide +kernel) h
  dsimp only at hgs
  split at hgs
  · exact (Except.error.inj hgs).symm
  · exact nomatch hgs

theorem translate_of_evenColumns (file : Bytes) (h : EvenColumns query) :
    (ProxyCommand.translate file query).2 = .noError := by
  obtain ⟨s, hs⟩ := exists_beforeInheritance query
  obtain ⟨t, ht⟩ := exists_translated_iff.mpr (h s hs)
  obtain ⟨u, hu⟩ := total_foldlM (total_laterPasses file) t
  have hpasses : (Except.ok t >>= fun s =>
      ((passes file).drop 4).foldlM (fun s pass => pass s) s) = .ok u := hu
  rw [ProxyCommand.translate, passes_eq hs, ht, hpasses]

theorem translate_of_not_evenColumns (file : Bytes) (h : ¬EvenColumns query) :
    (ProxyCommand.translate file query).2 = dimensionMismatch file := by
  simp only [EvenColumns, not_forall] at h
  obtain ⟨s, hs, gs, hgs, huneven⟩ := h
  cases ht : translateCreateAccessInheritance file s with
  | ok t => exact absurd (exists_translated_iff.mp ⟨t, ht⟩ gs hgs) huneven
  | error e =>
      rw [ProxyCommand.translate, passes_eq hs, ht]
      exact error_of_translateCreateAccessInheritance ht

end Translation

/-- The proxy with its own translation of proxy commands. -/
def translating (file : Bytes) (lib : Externals) : Externals :=
  { lib with translate := fun text => .ok (ProxyCommand.translate file text) }

section Plugins

variable {lib : Externals} {io : Io} {s : Session} {file : Bytes}

/-- The plug-in returns no error, or one with the fields that a response always has. -/
def Returns (p : Plugins.Action Conn.Error) : Prop :=
  ∀ s, wp p (fun err _ => err.isError = true → Mandatory err) (fun _ _ => True) s

theorem not_isError_noError : ¬Conn.Error.noError.isError = true := by
  simp [Conn.Error.isError, Conn.Error.noError]

theorem mandatory_invalidTable (msg line : String) : Mandatory (invalidTable lib msg line) :=
  ⟨rfl, rfl, rfl⟩

theorem returns_parseQueryPlugIn : Returns (parseQueryPlugIn lib) := by
  intro s
  simp [parseQueryPlugIn, wp_bind, wp_ite, wp_pure, wp_state, wp_ofExcept, wp_modify,
    not_isError_noError]

theorem returns_aclQueryPlugIn : Returns (aclQueryPlugIn lib) := by
  intro s
  simp [aclQueryPlugIn, wp_bind, wp_ite, wp_pure, wp_state, wp_ofExcept, wp_modify,
    wp_requestQuery, not_isError_noError]

theorem returns_dropTablePlugIn : Returns (dropTablePlugIn lib io) := by
  intro s
  simp only [dropTablePlugIn, wp_bind, wp_ite, wp_pure, wp_state]
  refine ⟨fun _ h => absurd h not_isError_noError, fun _ => ?_⟩
  cases findNode "DropStmt" s.context.query.json with
  | none => exact fun h => absurd h not_isError_noError
  | some n =>
      simp only [wp_bind, wp_onQuery, wp_ite, wp_pure, wp_state, wp_ofExcept, not_isError_noError,
        Bool.false_eq_true, false_imp_iff, implies_true, true_and, and_true]
      intros
      split <;> simp [wp_bind, wp_onQuery, wp_pure, wp_requestQuery, wp_ofExcept,
        not_isError_noError]

theorem returns_ensureNewTableHasIdPlugIn : Returns (ensureNewTableHasIdPlugIn lib) := by
  intro s
  simp only [ensureNewTableHasIdPlugIn, wp_bind, wp_ite, wp_pure, wp_state]
  refine ⟨fun _ h => absurd h not_isError_noError, fun _ => ?_⟩
  cases findNode "CreateStmt" s.context.query.json with
  | none => exact fun h => absurd h not_isError_noError
  | some n =>
      simp only [wp_bind, wp_onQuery, wp_ite, wp_pure, not_isError_noError, mandatory_invalidTable,
        Bool.false_eq_true, false_imp_iff, implies_true, and_self]

theorem applyAll_mandatory {ps : List (Plugins.Action Conn.Error)} (hps : ∀ p ∈ ps, Returns p)
    (s : Session) :
    wp (applyAll ps) (fun err _ => ∀ e, err = some e → Mandatory e) (fun _ _ => True) s := by
  induction ps generalizing s with
  | nil => exact fun e h => nomatch h
  | cons p ps ih =>
      rw [wp_applyAll_cons]
      refine wp_mono (hps p List.mem_cons_self s) (fun err s' h => ⟨fun herror e he => ?_, fun _ => ?_⟩)
        fun _ _ _ => trivial
      · exact Option.some.inj he ▸ h herror
      · exact ih (fun q hq => hps q (List.mem_cons_of_mem _ hq)) s'

theorem not_mandatory_dimensionMismatch (file : Bytes) : ¬Mandatory (dimensionMismatch file) :=
  fun h => nomatch h.code

/-- The session asserts the fields of every error that it makes a response of. -/
def Asserted (lib : Externals) (s : Session) (turn : Turn) : Prop :=
  s.current = some .applyPreRequestPlugins → ∀ e s',
    applyAll (preRequestPlugins lib turn.io) (turn.meet s) = (.ok (some e), s') → Mandatory e

/-- The commands of a query that is about to be translated are even. -/
def EvenQuery (s : Session) (_ : Turn) : Prop :=
  s.current = some .applyPreRequestPlugins → s.context.request.byteAt 0 = 81 →
    EvenColumns (s.context.request.textAt 5)

theorem preRequestPlugins_translating :
    preRequestPlugins (translating file lib) io =
      translateProxyCommandPlugIn (translating file lib) ::
        (preRequestPlugins (translating file lib) io).drop 1 := rfl

theorem returns_laterPlugins (lib : Externals) (io : Io) :
    ∀ p ∈ (preRequestPlugins lib io).drop 1, Returns p := by
  simp only [preRequestPlugins, List.drop_succ_cons, List.drop_zero, List.forall_mem_cons]
  exact ⟨returns_parseQueryPlugIn, returns_aclQueryPlugIn, returns_dropTablePlugIn,
    returns_ensureNewTableHasIdPlugIn, fun s h => absurd h not_isError_noError, by simp⟩

theorem asserted_of_even {turn : Turn} (h : EvenQuery s turn) :
    Asserted (translating file lib) s turn := by
  intro hcurrent e s' happly
  have htranslate : wp (translateProxyCommandPlugIn (translating file lib))
      (fun err _ => err.isError = true → Mandatory err) (fun _ _ => True) (turn.meet s) := by
    simp only [translateProxyCommandPlugIn, wp_bind, wp_ite, wp_pure, wp_state, wp_ofExcept,
      wp_setRequest]
    refine ⟨fun _ h => absurd h not_isError_noError, fun hbyte => ⟨fun translated hresult => ?_,
      fun _ _ => trivial⟩⟩
    have heven := h hcurrent (not_not.mp hbyte)
    have herror : translated.2 = .noError :=
      (congrArg Prod.snd (Except.ok.inj hresult)).symm.trans (translate_of_evenColumns file heven)
    rw [herror]
    exact ⟨fun h => absurd h not_isError_noError, fun _ h => absurd h not_isError_noError⟩
  have hall : wp (applyAll (preRequestPlugins (translating file lib) turn.io))
      (fun err _ => ∀ e, err = some e → Mandatory e) (fun _ _ => True) (turn.meet s) := by
    rw [preRequestPlugins_translating, wp_applyAll_cons]
    refine wp_mono htranslate (fun err t h => ⟨fun herror e he => ?_, fun _ => ?_⟩)
      fun _ _ _ => trivial
    · exact Option.some.inj he ▸ h herror
    · exact applyAll_mandatory (returns_laterPlugins _ _) t
  exact of_wp_ok hall happly e rfl

theorem even_of_asserted {turn : Turn} (h : Asserted (translating file lib) s turn) :
    EvenQuery s turn := by
  intro hcurrent hbyte
  by_contra huneven
  have herror := translate_of_not_evenColumns file huneven
  have hfirst : translateProxyCommandPlugIn (translating file lib) (turn.meet s) =
      (.ok (dimensionMismatch file), turn.meet s) := by
    have hquery : ¬(turn.meet s).context.request.byteAt 0 ≠ 81 := not_not.mpr hbyte
    have htranslated : (translating file lib).translate
        ((turn.meet s).context.request.textAt 5) =
          .ok (ProxyCommand.translate file (s.context.request.textAt 5)) := rfl
    rw [translateProxyCommandPlugIn, state_bind, if_neg hquery, ofExcept_bind_ok htranslated]
    simp only [herror]
    rfl
  have happly : applyAll (preRequestPlugins (translating file lib) turn.io) (turn.meet s) =
      (.ok (some (dimensionMismatch file)), turn.meet s) := by
    rw [preRequestPlugins_translating, applyAll, bind_of_ok hfirst]
    rfl
  exact not_mandatory_dimensionMismatch file (h hcurrent _ _ happly)

end Plugins

theorem mandatory_internalError (what : Bytes) : Mandatory (internalError what) :=
  ⟨rfl, rfl, rfl⟩

/-- Every error that a response is made of has the fields that it asserts. -/
def AlwaysMandatory (lib : Externals) (st : SchemaTracker) (turns : List Turn) : Prop :=
  AtEachTurn (act lib) (Session.new st) (Asserted lib) turns ∧
    ∀ what, Mandatory (internalError what)

theorem alwaysMandatory_iff (file : Bytes) (lib : Externals) (st : SchemaTracker)
    (turns : List Turn) :
    AlwaysMandatory (translating file lib) st turns ↔
      AtEachTurn (act (translating file lib)) (Session.new st) EvenQuery turns := by
  rw [AlwaysMandatory, and_iff_left mandatory_internalError]
  exact atEachTurn_congr (I := fun _ => True) (fun _ _ _ _ _ => trivial) trivial
    (fun _ _ _ => ⟨even_of_asserted, asserted_of_even⟩) turns

def mismatch : Bytes :=
  utf8 "CREATE ACCESS INHERITANCE FROM a (x) TO b (y, z)"

theorem not_evenColumns_mismatch : ¬EvenColumns mismatch := by
  intro h
  have hfound : (beforeInheritance mismatch).toOption.any (fun s =>
      (found createAccessInheritance s).any fun gs =>
        (columns gs 2).length != (columns gs 5).length) = true := by
    decide +kernel
  obtain ⟨s, hs, hfound⟩ := (Option.any_eq_true _ _).mp hfound
  obtain ⟨gs, hgs, hcolumns⟩ := List.any_eq_true.mp hfound
  exact absurd (h s (eq_ok_of_toOption hs) gs hgs) (bne_iff_ne.mp hcolumns)

/-- The error of a command with one source and two destination columns has no code. -/
theorem not_alwaysMandatory_mismatch :
    ¬AlwaysMandatory (translating [] sampleExternals) .empty
      (cycle startup ++ cycle (Message.encode ⟨81, mismatch ++ [0]⟩)) := by
  intro h
  have hbefore : (live (translating [] sampleExternals) (Session.new .empty)
      (cycle startup ++ (cycle (Message.encode ⟨81, mismatch ++ [0]⟩)).take 2)).toOption.map
        (fun s => (s.current, s.context.request.byteAt 0, s.context.request.textAt 5)) =
      some (some .applyPreRequestPlugins, 81, mismatch) := by
    decide +kernel
  obtain ⟨s, hs, hrequest⟩ := Option.map_eq_some_iff.mp hbefore
  obtain ⟨hcurrent, hrequest⟩ := Prod.mk.inj hrequest
  obtain ⟨hbyte, htext⟩ := Prod.mk.inj hrequest
  have hasserted := h.1 _ ⟨.empty, receiving (Message.encode ⟨81, mismatch ++ [0]⟩)⟩
    ((cycle (Message.encode ⟨81, mismatch ++ [0]⟩)).drop 3) s rfl (eq_ok_of_toOption hs)
  exact not_evenColumns_mismatch (htext ▸ even_of_asserted hasserted hcurrent hbyte)

end PgFort.MandatoryFields
