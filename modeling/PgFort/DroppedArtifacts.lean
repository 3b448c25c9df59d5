import Mathlib.Data.Finset.Max
import PgFort.DroppedTables

namespace PgFort.DroppedArtifacts

open PgFort.JsonTree
open PgFort.JsonTree.Json
open PgFort.JsonAccess
open PgFort.Schema
open PgFort.Plugins
open PgFort.Dependencies
open PgFort.DryRun
open PgFort.DroppedTables

/-- The bindings tables that the plug-in adds to the names of a DROP TABLE. Of a name it reads
the first part. -/
def added (st : SchemaTracker) (names : List (List String)) : List String :=
  (names.map fun parts => parts.headD "").filterMap fun tn =>
    if st.exist tn then some (tn ++ "__access_bindings__") else none

section Tested

variable {lib : Externals} {st : SchemaTracker} {names : List (List String)} {d : DropStatement}

theorem atKey_of_ok {α : Type} {key : String} {x : Access α} {ms : List (String × Json)}
    {v w : Json} {a : α} (hlookup : ms.lookup key = some v) (h : x v = .ok (a, w)) :
    atKey key x (.obj ms) = .ok (a, .obj (replaceMember key w ms)) := by
  simp only [atKey, hlookup, Option.getD_some, h, setMember, Option.isSome_some, if_true]
  rfl

theorem atIndex_of_ok {α : Type} {x : Access α} {v w : Json} {vs : List Json} {a : α}
    (h : x v = .ok (a, w)) : atIndex 0 x (.arr (v :: vs)) = .ok (a, .arr (w :: vs)) := by
  have hlength : 0 + 1 - (v :: vs).length = 0 := by simp
  rw [atIndex, hlength]
  simp only [List.replicate_zero, List.append_nil, List.getD_cons_zero, h, bind, Except.bind]
  rfl

theorem firstPart_nameNode (tn : String) (parts : List String) :
    atKey "List" (atKey "items" (atIndex 0 (atKey "String" (atKey "str" getString))))
      (nameNode (tn :: parts)) = .ok (tn, nameNode (tn :: parts)) :=
  atKey_of_ok rfl (atKey_of_ok rfl (atIndex_of_ok (atKey_of_ok rfl (atKey_of_ok rfl rfl))))

theorem bindingsTableName_nameNode (acc : List String) (tn : String) (parts : List String) :
    bindingsTableName st acc (nameNode (tn :: parts)) =
      .ok (acc ++ added st [tn :: parts], nameNode (tn :: parts)) := by
  show ((atKey "List" (atKey "items" (atIndex 0 (atKey "String" (atKey "str" getString)))))
    (nameNode (tn :: parts)) >>= fun r => _) = _
  rw [firstPart_nameNode]
  cases hexist : st.exist tn with
  | true =>
      have hadded : added st [tn :: parts] = [tn ++ "__access_bindings__"] := by simp [added, hexist]
      rw [hadded]
      simp only [hexist, bind, Except.bind, if_true]
      rfl
  | false =>
      have hadded : added st [tn :: parts] = [] := by simp [added, hexist]
      rw [hadded, List.append_nil]
      simp only [hexist, bind, Except.bind, if_false, Bool.false_eq_true]
      rfl

theorem forElems_names (hnames : ∀ parts ∈ names, parts ≠ []) (acc : List String) :
    forElems (bindingsTableName st) acc (names.map nameNode) =
      .ok (acc ++ added st names, names.map nameNode) := by
  induction names generalizing acc with
  | nil => simp [forElems, added]
  | cons parts names ih =>
      obtain ⟨tn, parts, rfl⟩ := List.exists_cons_of_ne_nil (hnames parts List.mem_cons_self)
      have hrest := ih (fun p hp => hnames p (List.mem_cons_of_mem _ hp)) (acc ++ added st [tn :: parts])
      have hadded : added st [tn :: parts] ++ added st names = added st ((tn :: parts) :: names) := by
        rw [added, added, added, ← List.filterMap_append, ← List.map_append, List.singleton_append]
      simp only [List.map_cons, forElems, bindingsTableName_nameNode, bind, Except.bind, hrest]
      rw [List.append_assoc, hadded]
      rfl

theorem forM_pushBack (tableNames : List String) (objs : List Json) :
    (tableNames.forM fun tn => pushBack (dropObject tn)) (.arr objs) =
      .ok ((), .arr (objs ++ tableNames.map dropObject)) := by
  induction tableNames generalizing objs with
  | nil =>
      rw [List.map_nil, List.append_nil]
      rfl
  | cons tn tableNames ih =>
      show (tableNames.forM fun tn => pushBack (dropObject tn)) (.arr (objs ++ [dropObject tn])) = _
      rw [ih, List.map_cons, List.append_assoc, List.singleton_append]

def dropPath : Path := [.member 0 "stmts", .elem 0, .member 0 "stmt", .member 0 "DropStmt"]

theorem findNode_dropTable (d : DropStatement) :
    findNode "DropStmt" (tree [dropTable d]) = some dropPath := by
  simp [findNode, findMember, findElem, tree, dropTable, dropStmt, ParseTree.node, dropPath]

theorem findNode_objects (d : DropStatement) :
    findNode "objects" (tree [dropTable d]) =
      some (dropPath ++ [.member (if d.missingOk then 2 else 1) "objects"]) := by
  cases hmissing : d.missingOk <;>
    simp [findNode, findMember, findElem, tree, dropTable, dropStmt, ParseTree.node, dropPath,
      hmissing]

theorem atPath_objects {α : Type} {x : Access α} {names : List (List String)} {a : α}
    (h : x (.arr (d.names.map nameNode)) = .ok (a, .arr (names.map nameNode))) :
    atPath dropPath (atKey "objects" x) (tree [dropTable d]) =
      .ok (a, tree [dropTable { d with names }]) := by
  obtain ⟨names₀, missingOk, restrict⟩ := d
  cases missingOk
  · exact atKey_of_ok rfl (atIndex_of_ok (atKey_of_ok rfl (atKey_of_ok rfl (atKey_of_ok rfl h))))
  · exact atKey_of_ok rfl (atIndex_of_ok (atKey_of_ok rfl (atKey_of_ok rfl (atKey_of_ok rfl h))))

theorem map_readName_nameNode (names : List (List String)) :
    (names.map nameNode).map readName = names := by
  rw [List.map_map]
  conv => rhs; rw [← List.map_id names]
  refine List.map_congr_left fun parts _ => ?_
  show ((parts.map ParseTree.stringNode).map fun item =>
    ((field "String" item).map (textField "str")).getD "") = parts
  rw [List.map_map]
  conv => rhs; rw [← List.map_id parts]
  exact List.map_congr_left fun _ _ => rfl

theorem dropAt_dropTable (d : DropStatement) : dropAt dropPath (tree [dropTable d]) = d := by
  obtain ⟨names, missingOk, restrict⟩ := d
  have hnames := map_readName_nameNode names
  cases missingOk <;> cases restrict <;> exact congrArg (DropStatement.mk · _ _) hnames

/-- The test of a DROP TABLE has the names of the statement, and those that are added. -/
def widened (st : SchemaTracker) (d : DropStatement) : DropStatement :=
  { d with names := d.names ++ (added st d.names).map fun tn => [tn] }

theorem tested_dropTable {s : Session} {t : Test}
    (hquery : s.context.query.json = tree [dropTable d])
    (hparts : ∀ parts ∈ d.names, parts ≠ []) (ht : tested lib s = some t) :
    t.n = dropPath ∧ t.json = tree [dropTable d] ∧
      t.testQ = tree [dropTable (widened s.st d)] := by
  have hobjects : atPath dropPath (atKey "objects" (forItems (bindingsTableName s.st) []))
      (tree [dropTable d]) = .ok (added s.st d.names, tree [dropTable d]) := by
    have hitems : forItems (bindingsTableName s.st) [] (.arr (d.names.map nameNode)) =
        .ok (added s.st d.names, .arr (d.names.map nameNode)) := by
      rw [forItems, forElems_names hparts]
      rfl
    exact atPath_objects hitems
  have htest : testQuery lib (added s.st d.names) (tree [dropTable d]) =
      .ok (tree [dropTable (widened s.st d)]) := by
    have hpush : atPath (dropPath ++ [.member (if d.missingOk then 2 else 1) "objects"])
        ((added s.st d.names).forM fun tn => pushBack (dropObject tn)) (tree [dropTable d]) =
          .ok ((), tree [dropTable (widened s.st d)]) := by
      refine atPath_objects ((forM_pushBack _ _).trans ?_)
      rw [List.map_append, List.map_map]
      rfl
    simp only [testQuery, findNode_objects]
    rw [hpush]
  have hremove : atPath dropPath (atKey "removeType" value) (tree [dropTable d]) =
      .ok (.str "OBJECT_TABLE", tree [dropTable d]) := by
    obtain ⟨names, missingOk, restrict⟩ := d
    cases missingOk <;> rfl
  simp only [tested, hquery, findNode_dropTable, hremove, hobjects, htest, ne_eq, not_true_eq_false,
    if_false] at ht
  split at ht
  · simp at ht
  · split at ht
    · simp at ht
    · split at ht
      · simp at ht
      · rw [← Option.some.inj ht]
        exact ⟨rfl, rfl, rfl⟩

end Tested

/-- What ENABLE ACCESS CONTROL makes for a table: the bindings table with its foreign key to the
table, the trigger, and the view. -/
structure Artifacts where
  bindings : Nat
  foreignKey : Nat
  trigger : Nat
  view : Nat

/-- The table of the name and its artifacts, as the catalog holds them. The view stands alone,
the foreign key goes with its own table only, and neither is a table. -/
structure Enabled (g : Graph Nat) (r : Resolver) (name : List String) (table : Nat)
    (a : Artifacts) : Prop where
  named : r name = some table
  bindings : r (bindingsName name) = some a.bindings
  foreignKey_goesWith : ∀ x, g.goesWith a.foreignKey x ↔ x = a.bindings
  foreignKey_dependsOn : g.dependsOn a.foreignKey table
  foreignKey_noTable : ∀ n, r n ≠ some a.foreignKey
  trigger : g.goesWith a.trigger table
  view_dependsOn : g.dependsOn a.view a.bindings
  view_goesWith : ∀ x, ¬ g.goesWith a.view x
  view_noTable : ∀ n, r n ≠ some a.view

/-- The server accepts the test of the session's query. -/
def TestPasses (lib : Externals) (s : Session) (pool : Resolver) (g : Graph Nat) : Prop :=
  ∃ t, tested lib s = some t ∧ Accepted g pool (dropAt t.n t.testQ)

/-- What a statement drops that is not refused. -/
def Drops (g : Graph Nat) (r : Resolver) (d : DropStatement) : Set Nat :=
  if d.restrict then g.swept (resolved r d.names) else g.cascade (resolved r d.names)

/-- What the statement drops that is forwarded, with CASCADE if the test has passed. -/
def lost (lib : Externals) (s : Session) (pool client : Resolver) (g : Graph Nat)
    (d : DropStatement) : Set Nat :=
  {x | TestPasses lib s pool g ∧ Resolves client d ∧
      x ∈ Drops g client { d with restrict := false } ∨
    ¬ TestPasses lib s pool g ∧ Accepted g client d ∧ x ∈ Drops g client d}

/-- The test of a DROP TABLE passes, and its tables are dropped with their artifacts. -/
structure DropsArtifacts (lib : Externals) (s : Session) (pool client : Resolver) (g : Graph Nat)
    (d : DropStatement) : Prop where
  passes : TestPasses lib s pool g
  dropped : ∀ name ∈ d.names, ∀ table a, Enabled g client name table a →
    ∀ x ∈ [table, a.bindings, a.foreignKey, a.trigger, a.view], x ∈ lost lib s pool client g d

/-- A table has one name, whatever its schema. -/
def OwnNames (r : Resolver) : Prop :=
  ∀ name name' x, r name = some x → r name' = some x → name.getLast? = name'.getLast?

/-- The bindings table depends on its schema and the like: on no table, and on nothing that
depends on others. -/
def Rooted (g : Graph Nat) (r : Resolver) (a : Artifacts) : Prop :=
  ∀ x, g.goesWith a.bindings x ∨ g.dependsOn a.bindings x →
    (∀ name, r name ≠ some x) ∧ ∀ y, ¬ (g.goesWith x y ∨ g.dependsOn x y)

theorem not_droppable_of_enabled {g : Graph Nat} {r : Resolver} {names : List (List String)}
    {name : List String} {table : Nat} {a : Artifacts} (h : Enabled g r name table a)
    (hname : name ∈ names) : ¬ g.Droppable (resolved r names) := by
  intro hdrop
  have hmem : ∀ {x : Nat}, x ∈ resolved r names ↔ ∃ n ∈ names, r n = some x :=
    fun {x} => List.mem_filterMap
  have htable : table ∈ g.swept (resolved r names) :=
    g.subset_swept _ (hmem.mpr ⟨name, hname, h.named⟩)
  -- the foreign key keeps the table, unless the bindings table is dropped as well
  rcases Graph.mem_swept_cases (hdrop _ _ htable h.foreignKey_dependsOn) with
    hlisted | ⟨x, hx, hgoes⟩
  · obtain ⟨n, -, hn⟩ := hmem.mp hlisted
    exact h.foreignKey_noTable n hn
  -- and that one the view keeps
  · rw [h.foreignKey_goesWith] at hgoes
    have hview := hdrop _ _ (hgoes ▸ hx) h.view_dependsOn
    rw [Graph.mem_swept_of_alone h.view_goesWith] at hview
    obtain ⟨n, -, hn⟩ := hmem.mp hview
    exact h.view_noTable n hn

section

variable {lib : Externals} {s : Session} {pool client : Resolver} {g : Graph Nat}
  {d : DropStatement}

theorem not_testPasses (hquery : s.context.query.json = tree [dropTable d])
    (hrestrict : d.restrict = true) (hparts : ∀ parts ∈ d.names, parts ≠ []) {name : List String}
    (hname : name ∈ d.names) {table : Nat} {a : Artifacts} (h : Enabled g pool name table a) :
    ¬ TestPasses lib s pool g := by
  rintro ⟨t, ht, -, hdrop⟩
  obtain ⟨hn, -, htestQ⟩ := tested_dropTable hquery hparts ht
  rw [hn, htestQ, dropAt_dropTable] at hdrop
  exact not_droppable_of_enabled h (List.mem_append_left _ hname) (hdrop hrestrict)

theorem mem_cascade_of_lost (hcascade : d.restrict = false) {x : Nat}
    (h : x ∈ lost lib s pool client g d) : x ∈ g.cascade (resolved client d.names) := by
  have hdrops : Drops g client d = g.cascade (resolved client d.names) := by
    simp [Drops, hcascade]
  rcases h with ⟨-, -, h⟩ | ⟨-, -, h⟩
  · exact h
  · exact hdrops ▸ h

/-- With CASCADE, too, the bindings table goes only where it is listed. -/
theorem bindings_mem_resolved {names : List (List String)} {a : Artifacts}
    (hrooted : Rooted g client a) (h : a.bindings ∈ g.cascade (resolved client names)) :
    a.bindings ∈ resolved client names := by
  rcases Graph.mem_cascade_cases h with h | ⟨x, hx, hstep⟩
  · exact h
  obtain ⟨hnoTable, hroot⟩ := hrooted x hstep
  rcases Graph.mem_cascade_cases hx with hx | ⟨y, -, hxy⟩
  · obtain ⟨name, -, hname⟩ := List.mem_filterMap.mp hx
    exact absurd hname (hnoTable name)
  · exact absurd hxy (hroot y)

def lastLength (name : List String) : Nat := (name.getLast?.getD "").length

theorem lastLength_bindingsName (name : List String) :
    lastLength name < lastLength (bindingsName name) := by
  have hlength : lastLength (bindingsName name) = lastLength name + 19 := by
    simp only [lastLength, bindingsName, List.getLast?_append, List.getLast?_singleton,
      Option.some_or, Option.getD_some, String.length_append]
    rfl
  omega

theorem exists_bindings_notMem {names : List (List String)} (hown : OwnNames client)
    (hsome : names ≠ []) :
    ∃ name ∈ names, ∀ table a, Enabled g client name table a →
      a.bindings ∉ resolved client names := by
  obtain ⟨name, hname, hlongest⟩ :=
    names.toFinset.exists_max_image lastLength (List.toFinset_nonempty_iff names |>.mpr hsome)
  refine ⟨name, List.mem_toFinset.mp hname, fun table a h hlisted => ?_⟩
  obtain ⟨name', hname', hresolved⟩ := List.mem_filterMap.mp hlisted
  have hlast := hown _ _ _ hresolved h.bindings
  have hlonger := lastLength_bindingsName name
  have hle := hlongest name' (List.mem_toFinset.mpr hname')
  rw [lastLength, hlast] at hle
  exact absurd hle (Nat.not_le.mpr hlonger)

end

theorem not_dropsArtifacts (lib : Externals) (s : Session) (pool client : Resolver)
    (g : Graph Nat) (d : DropStatement) (hquery : s.context.query = ⟨true, tree [dropTable d]⟩)
    (hparts : ∀ parts ∈ d.names, parts ≠ []) (hsome : d.names ≠ [])
    (hpool : ∀ name ∈ d.names, ∃ table a, Enabled g pool name table a)
    (hclient : ∀ name ∈ d.names, ∃ table a, Enabled g client name table a)
    (hcascade : d.restrict = false → OwnNames client ∧
      ∀ name ∈ d.names, ∀ table a, Enabled g client name table a → Rooted g client a) :
    ¬ DropsArtifacts lib s pool client g d := by
  have hjson := congrArg Query.json hquery
  intro h
  cases hrestrict : d.restrict with
  | true =>
      obtain ⟨name, hname⟩ := List.exists_mem_of_ne_nil d.names hsome
      obtain ⟨table, a, henabled⟩ := hpool name hname
      exact not_testPasses hjson hrestrict hparts hname henabled h.passes
  | false =>
      obtain ⟨hown, hrooted⟩ := hcascade hrestrict
      obtain ⟨name, hname, hkept⟩ := exists_bindings_notMem hown hsome
      obtain ⟨table, a, henabled⟩ := hclient name hname
      have hlost := h.dropped name hname table a henabled a.bindings (by simp)
      exact hkept table a henabled (bindings_mem_resolved (hrooted name hname table a henabled)
        (mem_cascade_of_lost hrestrict hlost))

/-- The catalog after ENABLE ACCESS CONTROL documents: 1 is the table, 2 its bindings table, 3 the
foreign key, 4 the trigger and 5 the view. -/
def enabledCatalog : Graph Nat where
  goesWith x y := x = 3 ∧ y = 2 ∨ x = 4 ∧ y = 1
  dependsOn x y := x = 3 ∧ y = 1 ∨ x = 5 ∧ y = 2

theorem enabled_documents : Enabled enabledCatalog publicNames ["documents"] 1 ⟨2, 3, 4, 5⟩ where
  named := rfl
  bindings := by decide
  foreignKey_goesWith x := by simp [enabledCatalog]
  foreignKey_dependsOn := .inl ⟨rfl, rfl⟩
  foreignKey_noTable n := by
    rw [publicNames.eq_def]
    split <;> simp
  trigger := .inr ⟨rfl, rfl⟩
  view_dependsOn := .inr ⟨rfl, rfl⟩
  view_goesWith x := by simp [enabledCatalog]
  view_noTable n := by
    rw [publicNames.eq_def]
    split <;> simp

/-- Nothing but the objects themselves depends on one of them. -/
def Independent (g : Graph Nat) (S : Set Nat) : Prop :=
  ∀ x, ∀ y ∈ S, g.dependsOn x y → x ∈ S

/-- The view keeps the bindings table from being dropped, though nothing but the artifacts
depends on the table. -/
theorem not_dropsArtifacts_documents :
    Independent enabledCatalog {1, 2, 3, 4, 5} ∧
      ¬ DropsArtifacts textExternals droppingSession publicNames publicNames enabledCatalog
        dropDocuments := by
  constructor
  · rintro x y - (⟨rfl, -⟩ | ⟨rfl, -⟩)
    · simp
    · simp
  · intro h
    exact not_testPasses rfl rfl (by decide) List.mem_cons_self enabled_documents h.passes

theorem publicNames_cases {name : List String} {x : Nat} (h : publicNames name = some x) :
    name = ["documents"] ∧ x = 1 ∨ name = ["documents__access_bindings__"] ∧ x = 2 := by
  rw [publicNames.eq_def] at h
  split at h
  · exact .inl ⟨rfl, (Option.some.inj h).symm⟩
  · exact .inr ⟨rfl, (Option.some.inj h).symm⟩
  · simp at h

theorem ownNames_publicNames : OwnNames publicNames := by
  intro name name' x h h'
  rcases publicNames_cases h with ⟨rfl, hx⟩ | ⟨rfl, hx⟩ <;>
    rcases publicNames_cases h' with ⟨rfl, hx'⟩ | ⟨rfl, hx'⟩
  · rfl
  · omega
  · omega
  · rfl

theorem rooted_enabledCatalog {table : Nat} {a : Artifacts}
    (h : Enabled enabledCatalog publicNames ["documents"] table a) :
    Rooted enabledCatalog publicNames a := by
  have hbindings : publicNames (bindingsName ["documents"]) = some 2 := by decide
  rw [h.bindings] at hbindings
  intro x hx
  rw [Option.some.inj hbindings] at hx
  simp [enabledCatalog] at hx

def cleanUpDocuments : DropStatement := ⟨[["documents"]], true, false⟩

theorem enabled_names :
    ∀ name ∈ [["documents"]], ∃ table a, Enabled enabledCatalog publicNames name table a := by
  intro name hname
  rw [List.mem_singleton.mp hname]
  exact ⟨1, _, enabled_documents⟩

theorem rooted_names : ∀ name ∈ [["documents"]], ∀ table a,
    Enabled enabledCatalog publicNames name table a → Rooted enabledCatalog publicNames a := by
  intro name hname table a h
  rw [List.mem_singleton.mp hname] at h
  exact rooted_enabledCatalog h

/-- So it is for `DROP TABLE documents`, and for `DROP TABLE IF EXISTS documents CASCADE`. -/
theorem not_dropsArtifacts_enabledCatalog :
    ¬ DropsArtifacts textExternals (dropping dropDocuments) publicNames publicNames enabledCatalog
        dropDocuments ∧
      ¬ DropsArtifacts textExternals (dropping cleanUpDocuments) publicNames publicNames
        enabledCatalog cleanUpDocuments :=
  ⟨not_dropsArtifacts _ _ _ _ _ dropDocuments rfl (by decide) (by decide) enabled_names
      enabled_names fun _ => ⟨ownNames_publicNames, rooted_names⟩,
    not_dropsArtifacts _ _ _ _ _ cleanUpDocuments rfl (by decide) (by decide) enabled_names
      enabled_names fun _ => ⟨ownNames_publicNames, rooted_names⟩⟩

end PgFort.DroppedArtifacts
