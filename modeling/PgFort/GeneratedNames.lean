import PgFort.Plugins

namespace PgFort.GeneratedNames

open PgFort.JsonTree
open PgFort.JsonAccess
open PgFort.ParseTree
open PgFort.Schema
open PgFort.QueryAcler
open PgFort.Plugins

inductive Call where
  /-- `Refresh`, with what is in the catalogue. -/
  | refresh (rows : List ClassRow)
  | addRelName (relname : String)
  deriving DecidableEq, Repr

/-- One of the two functions that change the tracker. -/
def call (st : SchemaTracker) : Call → SchemaTracker
  | .refresh rows => st.refresh rows
  | .addRelName relname => st.addRelName relname

/-- The tracker after a series of calls; its constructor makes the first. -/
def tracker (calls : List Call) : SchemaTracker :=
  calls.foldl call .empty

/-- The tables and the view of the first migration. -/
def internalRelations : List String :=
  ["__access_permissions__",
   "__access_roles__",
   "__access_roles_denorm__",
   "__access_binding_refs__",
   "__access_inheritances__",
   "__access_roles_expanded__"]

/-- What the proxy makes for its own use or for a table. -/
inductive Generated : String → Prop where
  | bindings (x : String) (hx : x ≠ "") : Generated (x ++ "__access_bindings__")
  | acls (x : String) (hx : x ≠ "") : Generated (x ++ "__acls__")
  | internal (relname : String) (h : relname ∈ internalRelations) : Generated relname

/-- A generated relation is no table to the tracker, so that the acler leaves it alone and the
drop-table plug-in has no bindings to drop with it. -/
structure NoTable (st : SchemaTracker) (relname : String) : Prop where
  exist : st.exist relname = false
  acler : ∀ rv : RangeVar, rv.relname = relname → aclRangeVar (some st) rv.toJson = .ok none
  drop : ∀ tableNames, bindingsTableName st tableNames (dropObject relname) =
    .ok (tableNames, dropObject relname)

/-- A call finds the relation in the catalogue, or is given its name. -/
def Call.Names (relname : String) : Call → Prop
  | .refresh rows => ∃ row ∈ rows, row.selected = true ∧ row.relname = relname
  | .addRelName name => name = relname

section Trackers

variable {st : SchemaTracker} {calls : List Call} {relname : String}

theorem exist_call {c : Call} :
    (call st c).exist relname = true ↔
      st.exist relname = true ∨ c.Names relname ∧ relname ∉ excluded ∧ isDerived relname = false := by
  cases c with
  | refresh rows => exact SchemaTracker.exist_refresh
  | addRelName name =>
      rw [call, SchemaTracker.exist_addRelName, Call.Names]
      exact or_congr_right (and_congr_left fun _ => eq_comm)

theorem exist_foldl_call :
    (calls.foldl call st).exist relname = true ↔
      st.exist relname = true ∨
        (∃ c ∈ calls, c.Names relname) ∧ relname ∉ excluded ∧ isDerived relname = false := by
  induction calls generalizing st with
  | nil => simp
  | cons c calls ih =>
      rw [List.foldl_cons, ih, exist_call, List.exists_mem_cons_iff]
      constructor
      · rintro ((h | ⟨hc, h⟩) | ⟨hcalls, h⟩)
        · exact .inl h
        · exact .inr ⟨.inl hc, h⟩
        · exact .inr ⟨.inr hcalls, h⟩
      · rintro (h | ⟨hc | hcalls, h⟩)
        · exact .inl (.inl h)
        · exact .inl (.inr ⟨hc, h⟩)
        · exact .inr ⟨hcalls, h⟩

theorem exist_tracker :
    (tracker calls).exist relname = true ↔
      (∃ c ∈ calls, c.Names relname) ∧ relname ∉ excluded ∧ isDerived relname = false := by
  rw [tracker, exist_foldl_call]
  refine or_iff_right fun h => ?_
  exact absurd (SchemaTracker.exist_iff.mp h).2.2 List.not_mem_nil

theorem noTable_iff : NoTable st relname ↔ st.exist relname = false := by
  constructor
  · exact NoTable.exist
  · intro h
    refine ⟨h, ?_, ?_⟩
    · rintro rv rfl
      rw [aclRangeVar_toJson, isTable, h]
      rfl
    · intro tableNames
      have hread : bindingsTableName st tableNames (dropObject relname) =
          (if st.exist relname then
            (return tableNames ++ [relname ++ "__access_bindings__"] : Access (List String))
          else return tableNames) (dropObject relname) :=
        rfl
      rw [hread, h]
      rfl

end Trackers

section Names

theorem endsWith_iff {s suffix : String} : endsWith s suffix = true ↔ suffix.toList <:+ s.toList := by
  rw [endsWith, List.isSuffixOf_iff_suffix]

theorem not_endsWith_append {x last suffix : String} (h : ¬ suffix.toList <:+ last.toList)
    (h' : ¬ last.toList <:+ suffix.toList) : endsWith (x ++ last) suffix = false := by
  rw [Bool.eq_false_iff, ne_eq, endsWith_iff, String.toList_append]
  intro hsuffix
  rcases List.suffix_or_suffix_of_suffix hsuffix (List.suffix_append x.toList last.toList) with hle | hle
  · exact h hle
  · exact h' hle

theorem isDerived_bindings (x : String) : isDerived (x ++ "__access_bindings__") = true := by
  rw [isDerived, Bool.or_eq_true, endsWith_iff, endsWith_iff, String.toList_append]
  exact .inr (List.suffix_append _ _)

theorem isDerived_acls (x : String) : isDerived (x ++ "__acls__") = false := by
  rw [isDerived, not_endsWith_append (by decide) (by decide),
    not_endsWith_append (by decide) (by decide)]
  rfl

theorem acls_not_mem_excluded (x : String) : x ++ "__acls__" ∉ excluded := by
  intro hmem
  have hall : ∀ name ∈ excluded, ¬ "__acls__".toList <:+ name.toList := by decide +kernel
  refine hall _ hmem ?_
  rw [String.toList_append]
  exact List.suffix_append _ _

end Names

/-- The views are taken for tables as soon as one of them is found or given. -/
theorem noTable_tracker_iff (calls : List Call) :
    (∀ relname, Generated relname → NoTable (tracker calls) relname) ↔
      ∀ x ≠ "", ∀ c ∈ calls, ¬ c.Names (x ++ "__acls__") := by
  constructor
  · intro h x hx c hc hnames
    have hfalse := (h _ (.acls x hx)).exist
    have htrue := exist_tracker.mpr ⟨⟨c, hc, hnames⟩, acls_not_mem_excluded x, isDerived_acls x⟩
    rw [htrue] at hfalse
    exact absurd hfalse (by decide)
  · intro h relname hgenerated
    rw [noTable_iff, Bool.eq_false_iff, ne_eq, exist_tracker]
    rintro ⟨⟨c, hc, hnames⟩, hexcluded, hderived⟩
    cases hgenerated with
    | bindings x hx =>
        rw [isDerived_bindings] at hderived
        exact absurd hderived (by decide)
    | acls x hx => exact h x hx c hc hnames
    | internal relname hinternal =>
        have hall : ∀ name ∈ internalRelations, name ∈ excluded := by decide
        exact hexcluded (hall relname hinternal)

/-- The tracker is made anew when a table is already under access control. -/
def restarted : List Call :=
  [.refresh
    [⟨"documents", 'r', true, some "public"⟩,
     ⟨"documents__access_bindings__", 'r', true, some "public"⟩,
     ⟨"documents__acls__", 'v', true, some "public"⟩]]

theorem not_noTable_restarted :
    ¬ ∀ relname, Generated relname → NoTable (tracker restarted) relname := by
  intro h
  have hview := (h "documents__acls__" (.acls "documents" (by decide))).exist
  exact absurd hview (by decide +kernel)

end PgFort.GeneratedNames
