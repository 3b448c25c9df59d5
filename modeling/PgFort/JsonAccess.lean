import PgFort.KeyedTraversal

/-!
Access to JSON values through references, as the plug-ins do it: `operator[]` leaves null
where it found nothing, and what is assigned to a reference stays in the tree.
-/

namespace PgFort.JsonAccess

open PgFort.JsonTree
open PgFort.JsonTree.Json
open PgFort.KeyedTraversal

mutual

/-- `JsonUtil::FindNode`: the position of the first value under the key. An index of an
array is none of the keys that are looked for. -/
def findNode (key : String) : Json → Option Path
  | .arr xs => findElem key 0 xs
  | .obj ms => findMember key 0 ms
  | _ => none

def findElem (key : String) : Nat → List Json → Option Path
  | _, [] => none
  | i, x :: xs =>
      match findNode key x with
      | some p => some (.elem i :: p)
      | none => findElem key (i + 1) xs

def findMember (key : String) : Nat → List (String × Json) → Option Path
  | _, [] => none
  | i, (k, v) :: ms =>
      if k = key then some [.member i k]
      else
        match findNode key v with
        | some p => some (.member i k :: p)
        | none => findMember key (i + 1) ms

end

/-- An access through a reference: it may change the value that it refers to. -/
abbrev Access := StateT Json (Except Error)

def replaceMember (key : String) (v : Json) : List (String × Json) → List (String × Json)
  | [] => []
  | (k, w) :: ms => if key = k then (k, v) :: ms else (k, w) :: replaceMember key v ms

/-- A member in its place among others, which are in the order of their keys. -/
def insertMember (key : String) (v : Json) : List (String × Json) → List (String × Json)
  | [] => [(key, v)]
  | (k, w) :: ms => if key < k then (key, v) :: (k, w) :: ms else (k, w) :: insertMember key v ms

/-- The value of a member, which is made if it is not there. -/
def setMember (key : String) (v : Json) (ms : List (String × Json)) : List (String × Json) :=
  if (ms.lookup key).isSome then replaceMember key v ms else insertMember key v ms

/-- `j[key]`. -/
def atKey {α : Type} (key : String) (x : Access α) : Access α
  | .null => do
      let (a, v) ← x .null
      return (a, .obj [(key, v)])
  | .obj ms => do
      let (a, v) ← x ((ms.lookup key).getD .null)
      return (a, .obj (setMember key v ms))
  | _ => .error .noStringIndex

/-- `j[i]`. An array is filled up with null. -/
def atIndex {α : Type} (i : Nat) (x : Access α) : Access α
  | .null => do
      let (a, v) ← x .null
      return (a, .arr (List.replicate i .null ++ [v]))
  | .arr xs => do
      let xs := xs ++ List.replicate (i + 1 - xs.length) .null
      let (a, v) ← x (xs.getD i .null)
      return (a, .arr (xs.set i v))
  | _ => .error .noNumericIndex

/-- The value a reference stands for. -/
def value : Access Json := get

def getString : Access String := fun j =>
  j.getString.map fun s => (s, j)

def getBool : Access Bool
  | .bool b => .ok (b, .bool b)
  | _ => .error .typeMustBeBoolean

/-- `j == "…"`. -/
def equals (s : String) : Access Bool := do
  return (← value) = .str s

/-- `j = …`. -/
def assign (v : Json) : Access Unit := set v

/-- `push_back`, which makes an array of null. -/
def pushBack (v : Json) : Access Unit := do
  match ← value with
  | .null => assign (.arr [v])
  | .arr xs => assign (.arr (xs ++ [v]))
  | _ => throw .noPushBack

def size : Json → Nat
  | .null => 0
  | .arr xs => xs.length
  | .obj ms => ms.length
  | _ => 1

section

variable {σ : Type} (body : σ → Access σ)

/-- The body of a loop at the elements of an array, from the first to the last. -/
def forElems : σ → List Json → Except Error (σ × List Json)
  | s, [] => .ok (s, [])
  | s, x :: xs => do
      let (s, y) ← body s x
      let (s, ys) ← forElems s xs
      return (s, y :: ys)

/-- The body of a loop at the values of an object, in the order of the keys. -/
def forMembers : σ → List (String × Json) → Except Error (σ × List (String × Json))
  | s, [] => .ok (s, [])
  | s, (k, v) :: ms => do
      let (s, w) ← body s v
      let (s, ns) ← forMembers s ms
      return (s, (k, w) :: ns)

/-- `for (auto& x : j)`: an access at each of the values in a value. -/
def forItems (s : σ) : Access σ
  | .null => .ok (s, .null)
  | .arr xs => do
      let (s, ys) ← forElems body s xs
      return (s, .arr ys)
  | .obj ms => do
      let (s, ns) ← forMembers body s ms
      return (s, .obj ns)
  | v => body s v

end

/-- Access to the value at a position that is there. -/
def atPath {α : Type} : Path → Access α → Access α
  | [], x => x
  | .elem i :: p, x => atIndex i (atPath p x)
  | .member _ k :: p, x => atKey k (atPath p x)

/-- An access that ends with such a result has found all that it asked for, so it has left the
value as it was. -/
def Strict {α : Type} (good : α → Prop) (x : Access α) : Prop :=
  ∀ j a j', x j = .ok (a, j') → good a → j' = j ∧ j ≠ .null

section Strict

variable {α : Type} {good : α → Prop} {x : Access α}

theorem replaceMember_of_lookup {key : String} {v : Json} {ms : List (String × Json)}
    (h : ms.lookup key = some v) : replaceMember key v ms = ms := by
  induction ms with
  | nil => rfl
  | cons m ms ih =>
      obtain ⟨k, w⟩ := m
      rw [replaceMember]
      split
      · rename_i hkey
        subst hkey
        rw [List.lookup_cons_self] at h
        rw [Option.some.inj h]
      · rename_i hkey
        rw [List.lookup_cons, beq_false_of_ne hkey] at h
        rw [ih h]

theorem strict_getString {good : String → Prop} : Strict good getString := by
  intro j a j' h _
  obtain ⟨s, hs, heq⟩ := map_eq_ok.mp h
  obtain ⟨-, rfl⟩ := Prod.mk.inj heq
  refine ⟨rfl, fun hnull => ?_⟩
  rw [hnull] at hs
  exact absurd hs (by simp [Json.getString])

theorem strict_value {good : Json → Prop} (h : ¬ good .null) : Strict good value := by
  intro j a j' hx ha
  obtain ⟨rfl, rfl⟩ := Prod.mk.inj (Except.ok.inj hx)
  refine ⟨rfl, fun hnull => h ?_⟩
  rw [← hnull]
  exact ha

theorem Strict.atKey (hx : Strict good x) (key : String) : Strict good (atKey key x) := by
  intro j a j' h ha
  cases j with
  | null =>
      rw [JsonAccess.atKey] at h
      obtain ⟨⟨b, v⟩, hv, h⟩ := bind_eq_ok.mp h
      obtain ⟨rfl, -⟩ := Prod.mk.inj (Except.ok.inj h)
      exact absurd rfl (hx _ _ _ hv ha).2
  | obj ms =>
      rw [JsonAccess.atKey] at h
      obtain ⟨⟨b, v⟩, hv, h⟩ := bind_eq_ok.mp h
      obtain ⟨rfl, rfl⟩ := Prod.mk.inj (Except.ok.inj h)
      obtain ⟨rfl, hnull⟩ := hx _ _ _ hv ha
      cases hlookup : ms.lookup key with
      | none => simp [hlookup] at hnull
      | some v =>
          rw [setMember, hlookup, Option.getD_some, Option.isSome_some, if_pos rfl,
            replaceMember_of_lookup hlookup]
          exact ⟨rfl, by simp⟩
  | _ => simp [JsonAccess.atKey] at h

theorem Strict.atIndex (hx : Strict good x) (i : Nat) : Strict good (atIndex i x) := by
  intro j a j' h ha
  cases j with
  | null =>
      rw [JsonAccess.atIndex] at h
      obtain ⟨⟨b, v⟩, hv, h⟩ := bind_eq_ok.mp h
      obtain ⟨rfl, -⟩ := Prod.mk.inj (Except.ok.inj h)
      exact absurd rfl (hx _ _ _ hv ha).2
  | arr xs =>
      rw [JsonAccess.atIndex] at h
      obtain ⟨⟨b, v⟩, hv, h⟩ := bind_eq_ok.mp h
      obtain ⟨rfl, rfl⟩ := Prod.mk.inj (Except.ok.inj h)
      obtain ⟨rfl, hnull⟩ := hx _ _ _ hv ha
      rcases Nat.lt_or_ge i xs.length with hi | hi
      · rw [Nat.sub_eq_zero_of_le (by omega : i + 1 ≤ xs.length), List.replicate_zero,
          List.append_nil, List.getD_eq_getElem?_getD, List.getElem?_eq_getElem hi, Option.getD_some,
          List.set_getElem_self]
        exact ⟨rfl, by simp⟩
      · rw [List.getD_eq_getElem?_getD, List.getElem?_append_right hi,
          List.getElem?_replicate_of_lt (by omega)] at hnull
        exact absurd rfl hnull
  | _ => simp [JsonAccess.atIndex] at h

theorem Strict.atPath (hx : Strict good x) (p : Path) : Strict good (atPath p x) := by
  induction p with
  | nil => exact hx
  | cons s p ih =>
      cases s with
      | elem i => exact ih.atIndex i
      | member i k => exact ih.atKey k

section Loop

variable {σ : Type} {body : σ → Access σ} (hbody : ∀ s, Strict (fun _ => True) (body s))

include hbody

theorem forElems_eq {s t : σ} {xs ys : List Json} (h : forElems body s xs = .ok (t, ys)) : ys = xs := by
  induction xs generalizing s ys with
  | nil => exact (Prod.mk.inj (Except.ok.inj h)).2.symm
  | cons x xs ih =>
      rw [forElems] at h
      obtain ⟨⟨u, y⟩, hy, h⟩ := bind_eq_ok.mp h
      obtain ⟨⟨w, zs⟩, hzs, h⟩ := bind_eq_ok.mp h
      obtain ⟨rfl, rfl⟩ := Prod.mk.inj (Except.ok.inj h)
      obtain ⟨rfl, -⟩ := hbody _ _ _ _ hy trivial
      rw [ih hzs]

theorem forMembers_eq {s t : σ} {ms ns : List (String × Json)}
    (h : forMembers body s ms = .ok (t, ns)) : ns = ms := by
  induction ms generalizing s ns with
  | nil => exact (Prod.mk.inj (Except.ok.inj h)).2.symm
  | cons m ms ih =>
      obtain ⟨k, v⟩ := m
      rw [forMembers] at h
      obtain ⟨⟨u, w⟩, hw, h⟩ := bind_eq_ok.mp h
      obtain ⟨⟨z, ks⟩, hks, h⟩ := bind_eq_ok.mp h
      obtain ⟨rfl, rfl⟩ := Prod.mk.inj (Except.ok.inj h)
      obtain ⟨rfl, -⟩ := hbody _ _ _ _ hw trivial
      rw [ih hks]

theorem strict_forItems (s : σ) : Strict (fun t => t ≠ s) (forItems body s) := by
  intro j t j' h ht
  cases j with
  | null =>
      obtain ⟨rfl, -⟩ := Prod.mk.inj (Except.ok.inj h)
      exact absurd rfl ht
  | arr xs =>
      rw [forItems] at h
      obtain ⟨⟨u, ys⟩, hys, h⟩ := bind_eq_ok.mp h
      obtain ⟨-, rfl⟩ := Prod.mk.inj (Except.ok.inj h)
      rw [forElems_eq hbody hys]
      exact ⟨rfl, by simp⟩
  | obj ms =>
      rw [forItems] at h
      obtain ⟨⟨u, ns⟩, hns, h⟩ := bind_eq_ok.mp h
      obtain ⟨-, rfl⟩ := Prod.mk.inj (Except.ok.inj h)
      rw [forMembers_eq hbody hns]
      exact ⟨rfl, by simp⟩
  | _ => exact hbody _ _ _ _ h trivial

end Loop

end Strict

end PgFort.JsonAccess
