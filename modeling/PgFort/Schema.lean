import Mathlib.Data.List.Basic

namespace PgFort.Schema

/-- `ends_with`. -/
def endsWith (s suffix : String) : Bool :=
  suffix.toList.isSuffixOf s.toList

def excluded : List String :=
  ["__access_binding_refs__",
   "__access_inheritances__",
   "__access_permissions__",
   "__access_roles__",
   "__access_roles_denorm__",
   "__access_roles_expanded__",
   "gorp_migrations"]

/-- Names that the tracker takes for relations the proxy made for a table. -/
def isDerived (relname : String) : Bool :=
  endsWith relname "__acl__" || endsWith relname "__access_bindings__"

/-- The set `relnames_`. -/
structure SchemaTracker where
  relnames : List String
  deriving DecidableEq, Repr

namespace SchemaTracker

def empty : SchemaTracker := ⟨[]⟩

/-- `AddRelName`. -/
def addRelName (st : SchemaTracker) (relname : String) : SchemaTracker :=
  if isDerived relname then st else ⟨st.relnames.insert relname⟩

/-- `Exist`. -/
def exist (st : SchemaTracker) (relname : String) : Bool :=
  if excluded.contains relname || isDerived relname then false
  else st.relnames.contains relname

end SchemaTracker

/-- A row of `pg_class` joined with `pg_namespace`. -/
structure ClassRow where
  relname : String
  relkind : Char
  /-- What `pg_table_is_visible` says of it. -/
  visible : Bool
  /-- Null when the left join finds no namespace. -/
  nspname : Option String
  deriving DecidableEq, Repr

/-- The condition of the catalogue query. A comparison with a null is not true. -/
def ClassRow.selected (row : ClassRow) : Bool :=
  ['r', 'p', 'v', 'm', 'f'].contains row.relkind && row.visible &&
    match row.nspname with
    | some n => n != "pg_catalog" && n != "information_schema" &&
        !"pg_toast".toList.isPrefixOf n.toList
    | none => false

/-- `Refresh` adds what the catalogue query returns and forgets nothing. -/
def SchemaTracker.refresh (st : SchemaTracker) (rows : List ClassRow) : SchemaTracker :=
  (rows.filter ClassRow.selected).foldl (fun st row => st.addRelName row.relname) st

namespace SchemaTracker

theorem exist_iff {st : SchemaTracker} {relname : String} :
    st.exist relname = true ↔
      relname ∉ excluded ∧ isDerived relname = false ∧ relname ∈ st.relnames := by
  rw [exist]
  split
  · rename_i h
    rw [Bool.or_eq_true, List.contains_iff_mem] at h
    constructor
    · intro hfalse
      exact absurd hfalse (by simp)
    · rintro ⟨hexcluded, hderived, -⟩
      rcases h with h | h
      · exact absurd h hexcluded
      · exact absurd h (by simp [hderived])
  · rename_i h
    simp only [Bool.or_eq_true, List.contains_iff_mem, not_or, Bool.not_eq_true] at h
    rw [List.contains_iff_mem]
    exact ⟨fun hmem => ⟨h.1, h.2, hmem⟩, fun hmem => hmem.2.2⟩

theorem mem_relnames_addRelName {st : SchemaTracker} {relname name : String} :
    name ∈ (st.addRelName relname).relnames ↔
      name ∈ st.relnames ∨ name = relname ∧ isDerived relname = false := by
  rw [addRelName]
  split
  · rename_i h
    simp [h]
  · rename_i h
    simp [h, or_comm]

theorem exist_addRelName {st : SchemaTracker} {relname name : String} :
    (st.addRelName relname).exist name = true ↔
      st.exist name = true ∨
        name = relname ∧ name ∉ excluded ∧ isDerived name = false := by
  rw [exist_iff, exist_iff, mem_relnames_addRelName]
  constructor
  · rintro ⟨hexcluded, hderived, hmem | ⟨rfl, -⟩⟩
    · exact .inl ⟨hexcluded, hderived, hmem⟩
    · exact .inr ⟨rfl, hexcluded, hderived⟩
  · rintro (⟨hexcluded, hderived, hmem⟩ | ⟨rfl, hexcluded, hderived⟩)
    · exact ⟨hexcluded, hderived, .inl hmem⟩
    · exact ⟨hexcluded, hderived, .inr ⟨rfl, hderived⟩⟩

theorem exist_refresh {st : SchemaTracker} {rows : List ClassRow} {name : String} :
    (st.refresh rows).exist name = true ↔
      st.exist name = true ∨
        (∃ row ∈ rows, row.selected = true ∧ row.relname = name) ∧
          name ∉ excluded ∧ isDerived name = false := by
  rw [refresh]
  have hfold : ∀ selected : List ClassRow, ∀ st : SchemaTracker,
      (selected.foldl (fun st row => st.addRelName row.relname) st).exist name = true ↔
        st.exist name = true ∨
          (∃ row ∈ selected, row.relname = name) ∧
            name ∉ excluded ∧ isDerived name = false := by
    intro selected
    induction selected with
    | nil => simp
    | cons row rest ih =>
        intro st
        rw [List.foldl_cons, ih, exist_addRelName]
        constructor
        · rintro ((h | ⟨rfl, h⟩) | ⟨⟨r, hr, hname⟩, h⟩)
          · exact .inl h
          · exact .inr ⟨⟨row, by simp, rfl⟩, h⟩
          · exact .inr ⟨⟨r, by simp [hr], hname⟩, h⟩
        · rintro (h | ⟨⟨r, hr, hname⟩, h⟩)
          · exact .inl (.inl h)
          · rcases List.mem_cons.mp hr with rfl | hr
            · exact .inl (.inr ⟨hname.symm, h⟩)
            · exact .inr ⟨⟨r, hr, hname⟩, h⟩
  rw [hfold]
  simp only [List.mem_filter, and_assoc]

end SchemaTracker

end PgFort.Schema
