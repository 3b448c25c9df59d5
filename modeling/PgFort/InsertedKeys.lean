import PgFort.NewTables

/-!
What the check of new tables leaves in the parse tree: `operator[]` of a value that is not constant
makes the members that it does not find.
-/

namespace PgFort.InsertedKeys

open PgFort.JsonTree
open PgFort.JsonTree.Json
open PgFort.JsonAccess
open PgFort.FieldReads
open PgFort.KeyedTraversal
open PgFort.ParseTree
open PgFort.Plugins
open PgFort.NewTables

/-- The plug-in leaves the tree of the query as it was. -/
def Unchanged (lib : Externals) (q : Script) (s : Session) : Prop :=
  (ensureNewTableHasIdPlugIn lib (q.asked s)).2.context.query.json = q.json

/-- No element of a table is inspected: the query creates no table, or the first one is a bindings
table or has a list of elements in which there is none. -/
def Uninspected (q : Script) : Prop :=
  ∀ v ∈ (valuesUnder "CreateStmt" q.json).head?, ∀ t ∈ q.tables.head?,
    t.IsBindingTable ∨ field? "tableElts" v = some (.arr [])

section Members

variable {α β : Type} {x : Access α} {key : String} {v : Json} {ms : List (String × Json)}

theorem lookup_replaceMember (h : (ms.lookup key).isSome) :
    (replaceMember key v ms).lookup key = some v := by
  induction ms with
  | nil => exact absurd h (by simp)
  | cons m ms ih =>
      obtain ⟨k, w⟩ := m
      rw [replaceMember]
      split
      · rename_i heq
        subst heq
        exact List.lookup_cons_self
      · rename_i hne
        rw [List.lookup_cons, beq_false_of_ne hne] at h ⊢
        exact ih h

theorem lookup_insertMember (h : ms.lookup key = none) :
    (insertMember key v ms).lookup key = some v := by
  induction ms with
  | nil => exact List.lookup_cons_self
  | cons m ms ih =>
      obtain ⟨k, w⟩ := m
      rw [insertMember]
      split
      · exact List.lookup_cons_self
      · cases heq : key == k with
        | true =>
            rw [List.lookup_cons, heq] at h
            exact absurd h (by simp)
        | false =>
            rw [List.lookup_cons, heq] at h ⊢
            exact ih h

theorem lookup_setMember : (setMember key v ms).lookup key = some v := by
  rw [setMember]
  split
  · rename_i h
    exact lookup_replaceMember h
  · rename_i h
    exact lookup_insertMember (Option.not_isSome_iff_eq_none.mp h)

theorem setMember_eq_self_iff : setMember key v ms = ms ↔ ms.lookup key = some v := by
  constructor
  · intro h
    have hset : (setMember key v ms).lookup key = some v := lookup_setMember
    rwa [h] at hset
  · intro h
    rw [setMember, h, Option.isSome_some, if_pos rfl, replaceMember_of_lookup h]

theorem atKey_obj_eq_ok {a : α} {j : Json} : atKey key x (.obj ms) = .ok (a, j) ↔
    ∃ w, x ((ms.lookup key).getD .null) = .ok (a, w) ∧ j = .obj (setMember key w ms) := by
  rw [atKey, bind_eq_ok]
  constructor
  · rintro ⟨⟨b, w⟩, hw, h⟩
    obtain ⟨rfl, rfl⟩ := Prod.mk.inj (Except.ok.inj h)
    exact ⟨w, hw, rfl⟩
  · rintro ⟨w, hw, rfl⟩
    exact ⟨(a, w), hw, rfl⟩

theorem exists_of_atPath {a : α} {p : Path} {j j' : Json} (hdistinct : Distinct j)
    (hget : j.get? p = some v) (h : atPath p x j = .ok (a, j')) :
    ∃ w, x v = .ok (a, w) ∧ (j' = j ↔ w = v) := by
  induction p generalizing j j' with
  | nil =>
      obtain rfl : j = v := by simpa using hget
      exact ⟨j', h, Iff.rfl⟩
  | cons s p ih =>
      rw [get?_cons, Option.bind_eq_some_iff] at hget
      obtain ⟨u, hu, hv⟩ := hget
      have hdistinct' : Distinct u := by
        refine Everywhere.get? hdistinct (p := [s]) ?_
        rw [get?_cons, hu]
        rfl
      cases s with
      | elem i =>
          obtain ⟨xs, rfl, hxs⟩ := child?_elem_eq_some.mp hu
          obtain ⟨hi, hxi⟩ := List.getElem?_eq_some_iff.mp hxs
          rw [atPath, atIndex, Nat.sub_eq_zero_of_le (by omega : i + 1 ≤ xs.length),
            List.replicate_zero, List.append_nil, List.getD_eq_getElem?_getD, hxs,
            Option.getD_some] at h
          obtain ⟨⟨b, u'⟩, hu', h⟩ := bind_eq_ok.mp h
          obtain ⟨rfl, rfl⟩ := Prod.mk.inj (Except.ok.inj h)
          obtain ⟨w, hw, hiff⟩ := ih hdistinct' hv hu'
          refine ⟨w, hw, Iff.trans ?_ hiff⟩
          rw [Json.arr.injEq]
          constructor
          · intro heq
            have hset : (xs.set i u')[i]? = some u' := List.getElem?_set_self hi
            rw [heq, hxs] at hset
            exact (Option.some.inj hset).symm
          · rintro rfl
            rw [← hxi]
            exact List.set_getElem_self hi
      | member i k =>
          obtain ⟨ms, rfl, hms⟩ := child?_member_eq_some.mp hu
          have hlookup := lookup_of_getElem? (hdistinct [] ms rfl) hms
          rw [atPath, atKey_obj_eq_ok, hlookup, Option.getD_some] at h
          obtain ⟨u', hu', rfl⟩ := h
          obtain ⟨w, hw, hiff⟩ := ih hdistinct' hv hu'
          refine ⟨w, hw, Iff.trans ?_ hiff⟩
          rw [Json.obj.injEq, setMember_eq_self_iff, hlookup, Option.some.injEq, eq_comm]

/-- The access leaves an object an object, and takes no member away. -/
def Grows (x : Access α) : Prop :=
  ∀ ms a j, x (.obj ms) = .ok (a, j) →
    ∃ ns, j = .obj ns ∧ ∀ key, (ms.lookup key).isSome → (ns.lookup key).isSome

/-- The access leaves an object that has this member. -/
def Leaves (key : String) (x : Access α) : Prop :=
  ∀ ms a j, x (.obj ms) = .ok (a, j) → ∃ ns, j = .obj ns ∧ (ns.lookup key).isSome

theorem leaves_atKey : Leaves key (atKey key x) := by
  intro ms a j h
  obtain ⟨w, -, rfl⟩ := atKey_obj_eq_ok.mp h
  exact ⟨_, rfl, by rw [lookup_setMember]; rfl⟩

theorem grows_atKey : Grows (atKey key x) := by
  intro ms a j h
  obtain ⟨w, -, rfl⟩ := atKey_obj_eq_ok.mp h
  refine ⟨_, rfl, fun k hk => ?_⟩
  by_cases hkey : k = key
  · rw [hkey, lookup_setMember]
    rfl
  · rw [lookup_setMember_of_ne hkey]
    exact hk

theorem grows_pure {a : α} : Grows (pure a : Access α) := by
  intro ms b j h
  obtain ⟨-, rfl⟩ := Prod.mk.inj (Except.ok.inj h)
  exact ⟨ms, rfl, fun _ hk => hk⟩

theorem grows_liftM {e : Except Error α} : Grows (liftM e : Access α) := by
  intro ms a j h
  obtain ⟨b, -, h⟩ := bind_eq_ok.mp h
  obtain ⟨-, rfl⟩ := Prod.mk.inj (Except.ok.inj h)
  exact ⟨ms, rfl, fun _ hk => hk⟩

theorem Grows.bind {y : α → Access β} (hx : Grows x) (hy : ∀ a, Grows (y a)) :
    Grows (x >>= y) := by
  intro ms b j h
  obtain ⟨⟨a, v⟩, hv, h⟩ := bind_eq_ok.mp h
  obtain ⟨ns, rfl, hns⟩ := hx _ _ _ hv
  obtain ⟨ks, rfl, hks⟩ := hy a _ _ _ h
  exact ⟨ks, rfl, fun key hkey => hks key (hns key hkey)⟩

theorem Leaves.bind {y : α → Access β} (hx : Leaves key x) (hy : ∀ a, Grows (y a)) :
    Leaves key (x >>= y) := by
  intro ms b j h
  obtain ⟨⟨a, v⟩, hv, h⟩ := bind_eq_ok.mp h
  obtain ⟨ns, rfl, hns⟩ := hx _ _ _ hv
  obtain ⟨ks, rfl, hks⟩ := hy a _ _ _ h
  exact ⟨ks, rfl, hks key hns⟩

theorem Grows.leaves {y : α → Access β} (hx : Grows x) (hy : ∀ a, Leaves key (y a)) :
    Leaves key (x >>= y) := by
  intro ms b j h
  obtain ⟨⟨a, v⟩, hv, h⟩ := bind_eq_ok.mp h
  obtain ⟨ns, rfl, -⟩ := hx _ _ _ hv
  exact hy a _ _ _ h

end Members

section Inspect

variable {c c' : IdCheck}

theorem grows_inspectColumnDef : Grows (inspectColumnDef c) := by
  refine grows_atKey.bind fun b => ?_
  cases b with
  | true => exact grows_atKey
  | false => exact grows_pure

theorem leaves_inspectColumnDef : Leaves "ColumnDef" (inspectColumnDef c) := by
  refine leaves_atKey.bind fun b => ?_
  cases b with
  | true => exact grows_atKey
  | false => exact grows_pure

theorem grows_keys {b : Bool} : Grows (if b = true then do
      let keys ← atKey "Constraint" (atKey "keys" value)
      if size keys = 1 then
        let (isId, _) ← liftM (atIndex 0 (atKey "String" (atKey "str" (equals "id"))) keys)
        return { c with primary := c.primary || isId }
      else return c
    else return c : Access IdCheck) := by
  split
  · refine grows_atKey.bind fun keys => ?_
    split
    · exact grows_liftM.bind fun r => grows_pure
    · exact grows_pure
  · exact grows_pure

theorem grows_inspectTableConstraint : Grows (inspectTableConstraint c) :=
  grows_atKey.bind fun _ => grows_keys

theorem leaves_inspectTableConstraint : Leaves "Constraint" (inspectTableConstraint c) :=
  leaves_atKey.bind fun _ => grows_keys

theorem ne_of_inspectElt {x y : Json} {elt : TableElt} (h : IsElt x elt)
    (hx : inspectElt c x = .ok (c', y)) : y ≠ x := by
  have hnode : ∃ kind ms, x = node kind ms := by
    cases elt with
    | columnDef colname constraints =>
        obtain ⟨ms, rfl, -⟩ := h
        exact ⟨_, ms, rfl⟩
    | constraint contype keys =>
        obtain ⟨ms, rfl, -⟩ := h
        exact ⟨_, ms, rfl⟩
    | other kind =>
        obtain ⟨ms, rfl, -⟩ := h
        exact ⟨kind, ms, rfl⟩
  obtain ⟨kind, ms, rfl⟩ := hnode
  have hcolumn : Leaves "ColumnDef" (inspectElt c) :=
    leaves_inspectColumnDef.bind fun _ => grows_inspectTableConstraint
  have hconstraint : Leaves "Constraint" (inspectElt c) :=
    grows_inspectColumnDef.leaves fun _ => leaves_inspectTableConstraint
  have hkind : ∀ key, Leaves key (inspectElt c) → y = node kind ms → key = kind := by
    rintro key hkey rfl
    obtain ⟨ns, hns, hsome⟩ := hkey _ _ _ hx
    obtain rfl := Json.obj.inj hns
    by_contra hne
    rw [List.lookup_cons, beq_false_of_ne hne] at hsome
    exact absurd hsome (by simp)
  intro heq
  exact absurd ((hkind _ hcolumn heq).trans (hkind _ hconstraint heq).symm) (by decide)

theorem eq_of_tableElts_iff {ms : List (String × Json)} {elts : List TableElt} {v : Json}
    (helts : ListField IsElt "tableElts" ms elts)
    (h : atKey "tableElts" (forItems inspectElt c) (.obj ms) = .ok (c', v)) :
    v = .obj ms ↔ ms.lookup "tableElts" = some (.arr []) := by
  obtain ⟨w, hw, rfl⟩ := atKey_obj_eq_ok.mp h
  rw [Json.obj.injEq, setMember_eq_self_iff]
  obtain ⟨-, hnone⟩ | ⟨xs, hsome, hitems⟩ := helts
  · rw [hnone]
    exact iff_of_false (by simp) (by simp)
  · rw [hsome, Option.getD_some, forItems] at hw
    obtain ⟨⟨b, ys⟩, hloop, hw⟩ := bind_eq_ok.mp hw
    obtain ⟨-, rfl⟩ := Prod.mk.inj (Except.ok.inj hw)
    rw [hsome, Option.some.injEq, Json.arr.injEq, Option.some.injEq, Json.arr.injEq]
    cases hitems with
    | nil =>
        obtain ⟨-, rfl⟩ := Prod.mk.inj (Except.ok.inj hloop)
        exact Iff.rfl
    | cons hitem _ =>
        rw [forElems] at hloop
        obtain ⟨⟨d, y⟩, hy, hloop⟩ := bind_eq_ok.mp hloop
        obtain ⟨⟨e, zs⟩, -, hloop⟩ := bind_eq_ok.mp hloop
        obtain ⟨-, rfl⟩ := Prod.mk.inj (Except.ok.inj hloop)
        refine iff_of_false (fun heq => ?_) (by simp)
        exact ne_of_inspectElt hitem hy (List.cons.inj heq).1.symm

end Inspect

section PlugIn

open PgFort.Stateful.Action

variable {lib : Externals}

theorem wp_ensureNewTableHasId_tree (q : Script) (s : Session) :
    wp (ensureNewTableHasIdPlugIn lib)
      (fun _ s' => s'.context.query.json = q.json ↔ Uninspected q) (fun _ _ => False)
      (q.asked s) := by
  have hcreated := q.created
  simp only [ensureNewTableHasIdPlugIn, wp_bind, wp_ite, wp_pure, wp_state]
  refine ⟨fun hvalid => absurd hvalid (by simp [Script.asked]), fun _ => ?_⟩
  rw [show (q.asked s).context.query.json = q.json from rfl]
  cases hfind : findNode "CreateStmt" q.json with
  | none =>
      refine iff_of_true rfl fun v hv => ?_
      rw [valuesUnder_of_findNode_none hfind] at hv
      exact absurd hv (by simp)
  | some n =>
      obtain ⟨v, vs, hget, hvalues⟩ := exists_of_findNode hfind
      rw [hvalues] at hcreated
      obtain ⟨t, ts, hv, -, htables⟩ := List.forall₂_cons_left_iff.mp hcreated
      have huninspected : Uninspected q ↔
          t.IsBindingTable ∨ field? "tableElts" v = some (.arr []) := by
        rw [Uninspected, hvalues, htables]
        simp
      have hname : yield (atPath n createdName) q.json = .ok t.relname :=
        (yield_atPath q.distinct hget).trans (yield_createdName hv)
      have helts : yield (atPath n (atKey "tableElts"
          (forItems inspectElt ⟨false, false, false, false⟩))) q.json = .ok (check t) :=
        (yield_atPath q.distinct hget).trans (yield_tableElts hv)
      simp only [wp_bind, wp_ite, wp_pure]
      refine wp_onQuery_of_yield hname fun json hjson => ?_
      -- reading the name changes nothing
      have hstrict : Strict (fun _ => True) (atPath n createdName) :=
        ((strict_getString.atKey "relname").atKey "relation").atPath n
      obtain ⟨rfl, -⟩ := hstrict _ _ _ hjson trivial
      refine ⟨fun hbinding => iff_of_true rfl (huninspected.mpr (.inl hbinding)), fun hbinding => ?_⟩
      refine wp_onQuery_of_yield helts fun json' hjson' => ?_
      have htree : json' = q.json ↔ Uninspected q := by
        rw [huninspected, CreateStmt.IsBindingTable, or_iff_right hbinding]
        obtain ⟨w, hw, hiff⟩ := exists_of_atPath q.distinct hget hjson'
        rw [hiff]
        obtain ⟨ms, rel, rfl, -, -, hlist⟩ := hv
        exact eq_of_tableElts_iff hlist hw
      exact ⟨fun _ => htree, fun _ => ⟨fun _ => htree, fun _ => htree⟩⟩

end PlugIn

/-- The check of a new table leaves the tree as it was only if it inspects none of its elements. -/
theorem unchanged_iff (lib : Externals) (q : Script) (s : Session) :
    Unchanged lib q s ↔ Uninspected q := by
  have hwp := @wp_ensureNewTableHasId_tree lib q s
  rw [Stateful.Action.wp] at hwp
  rw [Unchanged]
  cases hrun : ensureNewTableHasIdPlugIn lib (q.asked s) with
  | mk r s' =>
      rw [hrun] at hwp
      cases r with
      | ok err => exact hwp
      | error f => exact hwp.elim

/-- `CREATE TABLE documents (id INT PRIMARY KEY)`, without the type of the column. -/
def oneColumn : Script where
  json := .obj [("stmts", .arr [statement "documents" [column "id" ["CONSTR_PRIMARY"]]])]
  distinct := by
    simp [Distinct, everywhere_arr_iff, everywhere_obj_iff, node, statement, column]
  tables := [⟨"documents", [.columnDef "id" [.primary]]⟩]
  created := by
    simp [valuesUnder, valuesUnderElems, valuesUnderMembers, node, statement, column, IsCreateStmt,
      IsElt, ListField, IsConstraint, List.lookup_cons, ConstrType.name]

/-- The column becomes a node of two kinds. -/
theorem not_unchanged_oneColumn : ¬ Unchanged quietExternals oneColumn checkingSession := by
  rw [Unchanged]
  decide +kernel

end PgFort.InsertedKeys
