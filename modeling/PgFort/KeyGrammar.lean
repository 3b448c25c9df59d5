import PgFort.KeyedTraversal

/-!
Grammars of JSON values that go by member keys: each part of a value has a sort, which says
which keys an object may have there and of which sort the values under them are. A traversal
keeps a value within its grammar if what it puts in is of the sorts of the places.
-/

namespace PgFort.KeyGrammar

open PgFort.JsonTree
open PgFort.JsonTree.Json
open PgFort.KeyedTraversal

structure Grammar (S : Type) where
  /-- The sort of the value under a key, if an object of the sort may have such a member. -/
  member : S → String → Option S
  /-- The sort of the elements, if there may be an array. -/
  elem : S → Option S
  /-- Whether there must be an object with one member, or an array. -/
  isNode : S → Bool

variable {S M ε : Type} (g : Grammar S)

mutual

/-- A value of the sort. -/
def conforms : S → Json → Bool
  | s, .arr xs =>
      match g.elem s with
      | some t => conformsElems t xs
      | none => false
  | s, .obj ms => (!g.isNode s || ms.length == 1) && conformsMembers s ms
  | s, _ => !g.isNode s

def conformsElems : S → List Json → Bool
  | _, [] => true
  | s, x :: xs => conforms s x && conformsElems s xs

def conformsMembers : S → List (String × Json) → Bool
  | _, [] => true
  | s, (k, v) :: ms =>
      (match g.member s k with
        | some t => conforms t v
        | none => false) && conformsMembers s ms

end

/-- The sort of what stands at a position. -/
def sortAt : S → Path → Option S
  | s, [] => some s
  | s, .elem _ :: p => (g.elem s).bind (sortAt · p)
  | s, .member _ k :: p => (g.member s k).bind (sortAt · p)

variable {g} {s : S}

theorem conformsElems_iff {xs : List Json} :
    conformsElems g s xs = true ↔ ∀ x ∈ xs, conforms g s x = true := by
  induction xs with
  | nil => simp [conformsElems]
  | cons x xs ih => rw [conformsElems, Bool.and_eq_true, ih, List.forall_mem_cons]

theorem conforms_arr_iff {xs : List Json} :
    conforms g s (.arr xs) = true ↔ ∃ t, g.elem s = some t ∧ ∀ x ∈ xs, conforms g t x = true := by
  rw [conforms]
  cases g.elem s with
  | none => simp
  | some t => simp [conformsElems_iff]

theorem conformsMembers_iff {ms : List (String × Json)} :
    conformsMembers g s ms = true ↔
      ∀ m ∈ ms, ∃ t, g.member s m.1 = some t ∧ conforms g t m.2 = true := by
  induction ms with
  | nil => simp [conformsMembers]
  | cons m ms ih =>
      obtain ⟨k, v⟩ := m
      rw [conformsMembers, Bool.and_eq_true, ih, List.forall_mem_cons]
      cases g.member s k <;> simp

theorem conforms_obj_iff {ms : List (String × Json)} :
    conforms g s (.obj ms) = true ↔ (g.isNode s = true → ms.length = 1) ∧
      ∀ m ∈ ms, ∃ t, g.member s m.1 = some t ∧ conforms g t m.2 = true := by
  rw [conforms, Bool.and_eq_true, conformsMembers_iff, Bool.or_eq_true, beq_iff_eq, Bool.not_eq_true',
    ← Bool.not_eq_true, ← imp_iff_not_or]

theorem conforms_child {j v : Json} {step : Step} (h : conforms g s j = true)
    (hv : j.child? step = some v) : ∃ t, sortAt g s [step] = some t ∧ conforms g t v = true := by
  cases step with
  | elem i =>
      obtain ⟨xs, rfl, hget⟩ := child?_elem_eq_some.mp hv
      obtain ⟨t, ht, hall⟩ := conforms_arr_iff.mp h
      exact ⟨t, by simp [sortAt, ht], hall v (List.mem_of_getElem? hget)⟩
  | member i k =>
      obtain ⟨ms, rfl, hget⟩ := child?_member_eq_some.mp hv
      obtain ⟨t, ht, hconforms⟩ := (conforms_obj_iff.mp h).2 _ (List.mem_of_getElem? hget)
      exact ⟨t, by simp [sortAt, ht], hconforms⟩

theorem sortAt_append {p q : Path} :
    sortAt g s (p ++ q) = (sortAt g s p).bind fun t => sortAt g t q := by
  induction p generalizing s with
  | nil => rfl
  | cons step p ih =>
      cases step with
      | elem i =>
          rw [List.cons_append, sortAt, sortAt, Option.bind_assoc]
          exact Option.bind_congr fun t _ => ih
      | member i k =>
          rw [List.cons_append, sortAt, sortAt, Option.bind_assoc]
          exact Option.bind_congr fun t _ => ih

theorem conforms_get? {j v : Json} {p : Path} (h : conforms g s j = true) (hv : j.get? p = some v) :
    ∃ t, sortAt g s p = some t ∧ conforms g t v = true := by
  induction p generalizing s j with
  | nil =>
      obtain rfl : j = v := by simpa using hv
      exact ⟨s, rfl, h⟩
  | cons step p ih =>
      rw [get?_cons, Option.bind_eq_some_iff] at hv
      obtain ⟨x, hx, hv⟩ := hv
      obtain ⟨t, ht, hconforms⟩ := conforms_child h hx
      obtain ⟨u, hu, hvu⟩ := ih hconforms hv
      refine ⟨u, ?_, hvu⟩
      rw [show step :: p = [step] ++ p from rfl, sortAt_append, ht]
      exact hu

section Walk

variable {t : Traversal M} {f : Json → Except ε (Option Json)} {m : M}

/-- What is put in has the sorts of its places. -/
def Fits (g : Grammar S) (t : Traversal M) (f : Json → Except ε (Option Json)) (m : M) (s : S)
    (j : Json) : Prop :=
  ∀ p v r, VisitsAt t m j p v → f v = .ok (some r) →
    ∀ u, sortAt g s p = some u → conforms g u r = true

theorem conforms_walk {j j' : Json} (hj : conforms g s j = true) (hfits : Fits g t f m s j)
    (h : walk t f m j = .ok j') : conforms g s j' = true := by
  induction j generalizing m s j' with
  | arr xs ih =>
      obtain ⟨ys, rfl, hall⟩ := walk_arr_eq_ok.mp h
      obtain ⟨u, hu, hxs⟩ := conforms_arr_iff.mp hj
      refine conforms_arr_iff.mpr ⟨u, hu, fun y hy => ?_⟩
      obtain ⟨i, hi⟩ := List.mem_iff_getElem?.mp hy
      obtain ⟨x, hx, hwalk⟩ := exists_getElem?_of_forall₂ hall.flip hi
      have hmem := List.mem_of_getElem? hx
      refine ih x hmem (hxs x hmem) (fun p v r hv hf w hw => ?_) hwalk
      exact hfits (.elem i :: p) v r (hv.elem hx) hf w (by rw [sortAt, hu]; exact hw)
  | obj ms ih =>
      obtain ⟨k, v, hmem, hvisit, hf⟩ | ⟨ns, rfl, hall⟩ := walk_obj_cases h
      · exact hfits [] v j' ⟨m, ms, k, rfl, rfl, hmem, hvisit⟩ hf s rfl
      · obtain ⟨hnode, hms⟩ := conforms_obj_iff.mp hj
        refine conforms_obj_iff.mpr ⟨fun hs => hall.length_eq ▸ hnode hs, fun b hb => ?_⟩
        obtain ⟨i, hi⟩ := List.mem_iff_getElem?.mp hb
        obtain ⟨⟨k, x⟩, hx, hstep⟩ := exists_getElem?_of_forall₂ hall.flip hi
        have hmem := List.mem_of_getElem? hx
        obtain ⟨u, hu, hconforms⟩ := hms _ hmem
        obtain rfl | ⟨hl, n, hmove, hwalk⟩ := memberStep_cases hstep
        · exact ⟨u, hu, hconforms⟩
        · refine ⟨u, by rw [hl]; exact hu, ?_⟩
          refine ih _ hmem hconforms (fun p v r hv hf w hw => ?_) hwalk
          exact hfits (.member i k :: p) v r (hv.member hx hmove) hf w (by rw [sortAt, hu]; exact hw)
  | _ =>
      rw [walk_of_isPrimitive rfl h]
      exact hj

end Walk

end PgFort.KeyGrammar
