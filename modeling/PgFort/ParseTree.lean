import PgFort.KeyedTraversal

/-!
The parse trees of libpg_query as JSON. Only the shape of their `RangeVar` nodes is
fixed here; every other node is left open.
-/

namespace PgFort.ParseTree

open PgFort.JsonTree
open PgFort.JsonTree.Json
open PgFort.KeyedTraversal

/-- An object whose one member names the kind of the node. -/
def node (kind : String) (fields : List (String × Json)) : Json :=
  .obj [(kind, .obj fields)]

def stringNode (s : String) : Json :=
  node "String" [("str", .str s)]

structure Alias where
  aliasname : String
  colnames : List String
  deriving DecidableEq, Repr

/-- An absent list is not written. -/
def Alias.toJson (a : Alias) : Json :=
  .obj (("aliasname", .str a.aliasname) ::
    if a.colnames = [] then [] else [("colnames", .arr (a.colnames.map stringNode))])

/-- A table reference. The location is the text of a number. -/
structure RangeVar where
  alias_ : Option Alias
  catalogname : Option String
  inh : Bool
  location : Option String
  relname : String
  relpersistence : String
  schemaname : Option String
  deriving DecidableEq, Repr

/-- The fields in key order. What is null, false or zero is not written. -/
def RangeVar.fields (rv : RangeVar) : List (String × Json) :=
  (rv.alias_.toList.map fun a => ("alias", a.toJson)) ++
    ((rv.catalogname.toList.map fun s => ("catalogname", .str s)) ++
      ((if rv.inh then [("inh", .bool true)] else []) ++
        ((rv.location.toList.map fun s => ("location", .num s)) ++
          ([("relname", .str rv.relname), ("relpersistence", .str rv.relpersistence)] ++
            (rv.schemaname.toList.map fun s => ("schemaname", .str s))))))

def RangeVar.toJson (rv : RangeVar) : Json := .obj rv.fields

/-- The names in an array of string nodes. -/
def stringNodes : Json → List String
  | .arr xs => xs.map fun
      | .obj [("String", .obj [("str", .str s)])] => s
      | _ => ""
  | _ => []

def string? : Json → Option String
  | .str s => some s
  | _ => none

def number? : Json → Option String
  | .num s => some s
  | _ => none

def field? (key : String) : Json → Option Json
  | .obj ms => ms.lookup key
  | _ => none

def Alias.read (j : Json) : Alias where
  aliasname := ((field? "aliasname" j).bind string?).getD ""
  colnames := ((field? "colnames" j).map stringNodes).getD []

def RangeVar.read (j : Json) : RangeVar where
  alias_ := (field? "alias" j).map Alias.read
  catalogname := (field? "catalogname" j).bind string?
  inh := (field? "inh" j).isSome
  location := (field? "location" j).bind number?
  relname := ((field? "relname" j).bind string?).getD ""
  relpersistence := ((field? "relpersistence" j).bind string?).getD ""
  schemaname := (field? "schemaname" j).bind string?

/-- Read a table reference; anything that would not be written back is refused. -/
def RangeVar.ofJson? (j : Json) : Option RangeVar :=
  if (read j).toJson = j then some (read j) else none

theorem stringNodes_map (ss : List String) : stringNodes (.arr (ss.map stringNode)) = ss := by
  simp only [stringNodes, List.map_map]
  conv_rhs => rw [← List.map_id ss]
  rfl

theorem RangeVar.toJson_of_ofJson? {j : Json} {rv : RangeVar} (h : ofJson? j = some rv) :
    rv.toJson = j := by
  rw [ofJson?] at h
  split at h
  · rename_i heq
    rw [← Option.some.inj h]
    exact heq
  · exact absurd h (by simp)

theorem Alias.read_toJson (a : Alias) : read a.toJson = a := by
  obtain ⟨aliasname, colnames⟩ := a
  cases colnames with
  | nil => rfl
  | cons c cs => exact congrArg (Alias.mk aliasname) (stringNodes_map (c :: cs))

theorem RangeVar.read_toJson (rv : RangeVar) : read rv.toJson = rv := by
  obtain ⟨alias_, catalogname, inh, location, relname, relpersistence, schemaname⟩ := rv
  cases alias_ with
  | none => cases catalogname <;> cases inh <;> cases location <;> cases schemaname <;> rfl
  | some a =>
      have halias := Alias.read_toJson a
      cases catalogname <;> cases inh <;> cases location <;> cases schemaname <;>
        exact congrArg (fun a => RangeVar.mk (some a) _ _ _ _ _ _) halias

theorem RangeVar.ofJson?_toJson (rv : RangeVar) : ofJson? rv.toJson = some rv := by
  rw [ofJson?, read_toJson, if_pos rfl]

theorem RangeVar.ofJson?_eq_some {j : Json} {rv : RangeVar} :
    ofJson? j = some rv ↔ j = rv.toJson := by
  constructor
  · intro h
    exact (toJson_of_ofJson? h).symm
  · rintro rfl
    exact ofJson?_toJson rv

theorem RangeVar.toJson_injective {rv rv' : RangeVar} (h : rv.toJson = rv'.toJson) : rv = rv' := by
  rw [← read_toJson rv, h, read_toJson]

/-- The name that a table reference is known by, if it has another than the table's. -/
def RangeVar.aliasname (rv : RangeVar) : Option String :=
  rv.alias_.map Alias.aliasname

theorem RangeVar.subscript_relname (rv : RangeVar) :
    rv.toJson.subscript "relname" = .ok (.str rv.relname) := by
  obtain ⟨alias_, catalogname, inh, location, relname, relpersistence, schemaname⟩ := rv
  cases alias_ <;> cases catalogname <;> cases inh <;> cases location <;> rfl

theorem RangeVar.contains_alias (rv : RangeVar) :
    rv.toJson.contains "alias" = rv.aliasname.isSome := by
  obtain ⟨alias_, catalogname, inh, location, relname, relpersistence, schemaname⟩ := rv
  cases alias_ <;> cases catalogname <;> cases inh <;> cases location <;> cases schemaname <;> rfl

theorem RangeVar.subscript_alias {rv : RangeVar} {a : Alias} (h : rv.alias_ = some a) :
    rv.toJson.subscript "alias" = .ok a.toJson := by
  simp [toJson, fields, h, subscript]

theorem Alias.subscript_aliasname (a : Alias) :
    a.toJson.subscript "aliasname" = .ok (.str a.aliasname) := rfl

mutual

/-- Every object with a member `RangeVar` is the node of a table reference. -/
def rangeVarsOk : Json → Bool
  | .arr xs => rangeVarsOkElems xs
  | .obj ms =>
      (match ms.lookup "RangeVar" with
        | some v => decide (ms = [("RangeVar", v)]) && (RangeVar.ofJson? v).isSome
        | none => true) && rangeVarsOkMembers ms
  | _ => true

def rangeVarsOkElems : List Json → Bool
  | [] => true
  | x :: xs => rangeVarsOk x && rangeVarsOkElems xs

def rangeVarsOkMembers : List (String × Json) → Bool
  | [] => true
  | (_, v) :: ms => rangeVarsOk v && rangeVarsOkMembers ms

end

theorem rangeVarsOkElems_eq_true {xs : List Json} :
    rangeVarsOkElems xs = true ↔ ∀ x ∈ xs, rangeVarsOk x = true := by
  induction xs with
  | nil => simp [rangeVarsOkElems]
  | cons x xs ih => rw [rangeVarsOkElems, Bool.and_eq_true, ih, List.forall_mem_cons]

theorem rangeVarsOkMembers_eq_true {ms : List (String × Json)} :
    rangeVarsOkMembers ms = true ↔ ∀ a ∈ ms, rangeVarsOk a.2 = true := by
  induction ms with
  | nil => simp [rangeVarsOkMembers]
  | cons a ms ih => rw [rangeVarsOkMembers, Bool.and_eq_true, ih, List.forall_mem_cons]

theorem rangeVarsOk_child {j v : Json} {s : Step} (h : rangeVarsOk j = true)
    (hv : j.child? s = some v) : rangeVarsOk v = true := by
  cases s with
  | elem i =>
      obtain ⟨xs, rfl, hget⟩ := child?_elem_eq_some.mp hv
      exact rangeVarsOkElems_eq_true.mp h v (List.mem_of_getElem? hget)
  | member i k =>
      obtain ⟨ms, rfl, hget⟩ := child?_member_eq_some.mp hv
      rw [rangeVarsOk, Bool.and_eq_true] at h
      exact rangeVarsOkMembers_eq_true.mp h.2 (k, v) (List.mem_of_getElem? hget)

theorem rangeVarsOk_get? {j v : Json} {p : Path} (h : rangeVarsOk j = true)
    (hv : j.get? p = some v) : rangeVarsOk v = true := by
  induction p generalizing j with
  | nil =>
      obtain rfl : j = v := by simpa using hv
      exact h
  | cons s p ih =>
      rw [get?_cons, Option.bind_eq_some_iff] at hv
      obtain ⟨x, hx, hv⟩ := hv
      exact ih (rangeVarsOk_child h hx) hv

/-- What the parser of the server makes of a query text. -/
structure Tree where
  json : Json
  rangeVars : rangeVarsOk json = true

namespace Tree

theorem rangeVar_of_mem {q : Tree} {p : Path} {ms : List (String × Json)} {v : Json}
    (hget : q.json.get? p = some (.obj ms)) (hmem : ("RangeVar", v) ∈ ms) :
    ms = [("RangeVar", v)] ∧ ∃ rv : RangeVar, v = rv.toJson := by
  have hok := rangeVarsOk_get? q.rangeVars hget
  rw [rangeVarsOk, Bool.and_eq_true] at hok
  cases hlookup : ms.lookup "RangeVar" with
  | none =>
      have hkeys := List.lookup_eq_none_iff.mp hlookup
      exact absurd (hkeys _ hmem) (by simp)
  | some w =>
      have hw := hok.1
      rw [hlookup, Bool.and_eq_true, decide_eq_true_eq, Option.isSome_iff_exists] at hw
      obtain ⟨hms, rv, hrv⟩ := hw
      rw [hms] at hmem
      obtain rfl : v = w := by simpa using hmem
      exact ⟨hms, rv, RangeVar.ofJson?_eq_some.mp hrv⟩

theorem loneKey (q : Tree) : LoneKey "RangeVar" q.json := by
  intro p ms v hget hmem
  exact (rangeVar_of_mem hget hmem).1

end Tree

end PgFort.ParseTree
