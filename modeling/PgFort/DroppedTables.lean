import Mathlib.Data.Fintype.EquivFin
import PgFort.Dependencies
import PgFort.DryRun

namespace PgFort.DroppedTables

open PgFort.JsonTree
open PgFort.JsonTree.Json
open PgFort.Schema
open PgFort.Plugins
open PgFort.Dependencies
open PgFort.DryRun

/-- The table that a name stands for on a connection, by its search path and its temporary
tables. -/
abbrev Resolver := List String → Option Nat

def dropAt (n : Path) (json : Json) : DropStatement :=
  readDrop ((json.get? n).getD .null)

/-- The bindings table of a table, in the same schema. -/
def bindingsName (name : List String) : List String :=
  name.dropLast ++ [name.getLast?.getD "" ++ "__access_bindings__"]

/-- The objects that names stand for. -/
def resolved (r : Resolver) (names : List (List String)) : Set Nat :=
  {o | o ∈ names.filterMap r}

/-- The server finds all names, or need not. -/
def Resolves (r : Resolver) (d : DropStatement) : Prop :=
  d.missingOk = true ∨ ∀ name ∈ d.names, r name ≠ none

/-- The connection does not refuse the statement. -/
def Accepted (g : Graph Nat) (r : Resolver) (d : DropStatement) : Prop :=
  Resolves r d ∧ (d.restrict = true → g.Droppable (resolved r d.names))

/-- If the test of a DROP TABLE without CASCADE is accepted in the catalog, the statement that
the client's connection executes in the same catalog drops its tables, their bindings tables and
what goes with them, and nothing else. -/
def Confined (lib : Externals) (s : Session) (pool client : Resolver) (g : Graph Nat) : Prop :=
  ∀ t, tested lib s = some t → (dropAt t.n t.json).restrict = true →
    Accepted g pool (dropAt t.n t.testQ) → Resolves client (dropAt t.n t.json) →
      g.cascade (resolved client (dropAt t.n t.json).names) ⊆
        g.swept (resolved client ((dropAt t.n t.json).names ++
          (dropAt t.n t.json).names.map bindingsName))

/-- Unless there is nothing to drop, the test is without CASCADE, what the client's connection
is to drop is dropped in the test, and the test drops nothing but that and the bindings tables. -/
def Agreed (lib : Externals) (s : Session) (pool client : Resolver) : Prop :=
  ∀ t, tested lib s = some t → (dropAt t.n t.json).restrict = true →
    Resolves pool (dropAt t.n t.testQ) → Resolves client (dropAt t.n t.json) →
      (resolved client (dropAt t.n t.json).names).Nonempty →
        (dropAt t.n t.testQ).restrict = true ∧
          resolved client (dropAt t.n t.json).names ⊆ resolved pool (dropAt t.n t.testQ).names ∧
          resolved pool (dropAt t.n t.testQ).names ⊆
            resolved client ((dropAt t.n t.json).names ++
              (dropAt t.n t.json).names.map bindingsName)

section

variable {lib : Externals} {s : Session} {pool client : Resolver}

theorem confined_of_agreed (h : Agreed lib s pool client) (g : Graph Nat) :
    Confined lib s pool client g := by
  intro t ht hrestrict htest hclient x hx
  have hsome : (resolved client (dropAt t.n t.json).names).Nonempty := hx.imp fun _ h => h.1
  obtain ⟨htestRestrict, hlisted, htested⟩ := h t ht hrestrict htest.1 hclient hsome
  have hswept := Graph.cascade_subset_swept (htest.2 htestRestrict)
    (hlisted.trans (g.subset_swept _)) hx
  exact Graph.swept_subset_of_subset (htested.trans (g.subset_swept _)) hswept

def edge (x y : Nat) : Graph Nat where
  goesWith _ _ := False
  dependsOn a b := a = x ∧ b = y

theorem swept_edge (x y : Nat) (S : Set Nat) : (edge x y).swept S = S := by
  ext z
  exact Graph.mem_swept_of_alone fun _ => id

theorem droppable_edge {x y : Nat} {S : Set Nat} :
    (edge x y).Droppable S ↔ (y ∈ S → x ∈ S) := by
  rw [Graph.Droppable, swept_edge]
  constructor
  · intro h hy
    exact h x y hy ⟨rfl, rfl⟩
  · rintro h a b hb ⟨rfl, rfl⟩
    exact h hb

theorem mem_cascade_edge {x y : Nat} {S : Set Nat} (hy : y ∈ S) : x ∈ (edge x y).cascade S :=
  Graph.mem_cascade_of_dependsOn ⟨rfl, rfl⟩ ((edge x y).subset_cascade S hy)

theorem mem_of_confined_edge {x c : Nat} (h : Confined lib s pool client (edge x c)) {t : Test}
    (ht : tested lib s = some t) (hrestrict : (dropAt t.n t.json).restrict = true)
    (hpool : Resolves pool (dropAt t.n t.testQ)) (hclient : Resolves client (dropAt t.n t.json))
    (hc : c ∈ resolved client (dropAt t.n t.json).names)
    (hdrop : (dropAt t.n t.testQ).restrict = true →
      c ∈ resolved pool (dropAt t.n t.testQ).names →
        x ∈ resolved pool (dropAt t.n t.testQ).names) :
    x ∈ resolved client ((dropAt t.n t.json).names ++
      (dropAt t.n t.json).names.map bindingsName) := by
  have haccepted : Accepted (edge x c) pool (dropAt t.n t.testQ) :=
    ⟨hpool, fun htest => droppable_edge.mpr (hdrop htest)⟩
  have hmem := h t ht hrestrict haccepted hclient (mem_cascade_edge hc)
  rw [swept_edge] at hmem
  exact hmem

theorem exists_not_mem_resolved (r : Resolver) (names : List (List String)) :
    ∃ x, x ∉ resolved r names := by
  obtain ⟨x, hx⟩ := Infinite.exists_notMem_finset (names.filterMap r).toFinset
  exact ⟨x, fun hmem => hx (List.mem_toFinset.mpr hmem)⟩

theorem agreed_of_confined (h : ∀ g, Confined lib s pool client g) : Agreed lib s pool client := by
  rintro t ht hrestrict hpool hclient ⟨c, hc⟩
  obtain ⟨x, hx⟩ := exists_not_mem_resolved client
    ((dropAt t.n t.json).names ++ (dropAt t.n t.json).names.map bindingsName)
  have hmem := fun {x c : Nat} (hc : c ∈ resolved client (dropAt t.n t.json).names) hdrop =>
    mem_of_confined_edge (h (edge x c)) ht hrestrict hpool hclient hc hdrop
  refine ⟨?_, fun c hc => ?_, fun p hp => ?_⟩
  · by_contra htest
    exact hx (hmem hc fun hr => absurd hr htest)
  · by_contra hnot
    exact hx (hmem hc fun _ hcp => absurd hcp hnot)
  · exact hmem hc fun _ _ => hp

end

theorem confined_iff_agreed (lib : Externals) (s : Session) (pool client : Resolver) :
    (∀ g, Confined lib s pool client g) ↔ Agreed lib s pool client :=
  ⟨agreed_of_confined, confined_of_agreed⟩

/-- A session of a client of the table `documents` that sends a DROP TABLE. -/
def dropping (d : DropStatement) : Session where
  parameters _ := none
  st := ⟨["documents"]⟩
  context := { Context.new true with query := ⟨true, tree [dropTable d]⟩ }
  current := some .applyPreRequestPlugins

def droppingSession : Session := dropping dropDocuments

def publicNames : Resolver
  | ["documents"] => some 1
  | ["documents__access_bindings__"] => some 2
  | _ => none

/-- The client has a temporary table `documents`. -/
def temporaryNames : Resolver
  | ["documents"] => some 3
  | ["documents__access_bindings__"] => some 2
  | _ => none

/-- The test of the client's query. -/
def dropBoth : DropStatement := ⟨[["documents"], ["documents__access_bindings__"]], false, true⟩

/-- The client's view of its temporary table is lost. -/
theorem not_confined_temporary :
    ¬ ∀ g, Confined textExternals droppingSession publicNames temporaryNames g := by
  intro h
  have htested : tested textExternals droppingSession =
      some ⟨[.member 0 "stmts", .elem 0, .member 0 "stmt", .member 0 "DropStmt"],
        tree [dropTable dropDocuments],
        tree [dropTable dropBoth], dropText dropBoth⟩ := by
    decide +kernel
  have hmem : 4 ∈ resolved temporaryNames [["documents"], ["documents__access_bindings__"]] := by
    refine mem_of_confined_edge (h (edge 4 3)) htested (by decide +kernel) (.inr ?_) (.inr ?_) ?_ ?_
    · decide +kernel
    · decide +kernel
    · show 3 ∈ List.filterMap _ _
      decide +kernel
    · intro _ hmem
      exact absurd (show 3 ∈ List.filterMap _ _ from hmem) (by decide +kernel)
  exact absurd (show 4 ∈ List.filterMap _ _ from hmem) (by decide +kernel)

end PgFort.DroppedTables
