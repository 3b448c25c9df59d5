import Mathlib.Data.List.Basic

namespace PgFort.JsonTree

/-- A JSON value. An object keeps its members in iteration order, which is
the key order of the underlying map; a number keeps its text, since nothing
here computes with one. -/
inductive Json where
  | null
  | bool (b : Bool)
  | num (text : String)
  | str (s : String)
  | arr (elems : List Json)
  | obj (members : List (String × Json))
  deriving Inhabited

namespace Json

mutual

/-- Equality of values; objects have their members in the order of the keys. -/
def beq : Json → Json → Bool
  | .null, .null => true
  | .bool a, .bool b => a == b
  | .num a, .num b => a == b
  | .str a, .str b => a == b
  | .arr xs, .arr ys => beqElems xs ys
  | .obj xs, .obj ys => beqMembers xs ys
  | _, _ => false

def beqElems : List Json → List Json → Bool
  | [], [] => true
  | x :: xs, y :: ys => beq x y && beqElems xs ys
  | _, _ => false

def beqMembers : List (String × Json) → List (String × Json) → Bool
  | [], [] => true
  | (k, x) :: xs, (l, y) :: ys => k == l && (beq x y && beqMembers xs ys)
  | _, _ => false

end

mutual

theorem eq_of_beq : ∀ x y : Json, beq x y = true → x = y
  | .null, y, h => by cases y <;> simp_all [beq]
  | .bool _, y, h => by cases y <;> simp_all [beq]
  | .num _, y, h => by cases y <;> simp_all [beq]
  | .str _, y, h => by cases y <;> simp_all [beq]
  | .arr xs, y, h => by
      cases y with
      | arr ys =>
          rw [beq] at h
          rw [eq_of_beqElems xs ys h]
      | _ => simp [beq] at h
  | .obj xs, y, h => by
      cases y with
      | obj ys =>
          rw [beq] at h
          rw [eq_of_beqMembers xs ys h]
      | _ => simp [beq] at h

theorem eq_of_beqElems : ∀ xs ys : List Json, beqElems xs ys = true → xs = ys
  | [], ys, h => by cases ys <;> simp_all [beqElems]
  | x :: xs, ys, h => by
      cases ys with
      | nil => simp [beqElems] at h
      | cons y ys =>
          rw [beqElems, Bool.and_eq_true] at h
          rw [eq_of_beq x y h.1, eq_of_beqElems xs ys h.2]

theorem eq_of_beqMembers :
    ∀ xs ys : List (String × Json), beqMembers xs ys = true → xs = ys
  | [], ys, h => by cases ys <;> simp_all [beqMembers]
  | (k, x) :: xs, ys, h => by
      cases ys with
      | nil => simp [beqMembers] at h
      | cons m ys =>
          obtain ⟨l, y⟩ := m
          rw [beqMembers, Bool.and_eq_true, Bool.and_eq_true, beq_iff_eq] at h
          rw [h.1, eq_of_beq x y h.2.1, eq_of_beqMembers xs ys h.2.2]

end

mutual

theorem beq_self : ∀ x : Json, beq x x = true
  | .null => rfl
  | .bool _ => by simp [beq]
  | .num _ => by simp [beq]
  | .str _ => by simp [beq]
  | .arr xs => by rw [beq, beqElems_self xs]
  | .obj xs => by rw [beq, beqMembers_self xs]

theorem beqElems_self : ∀ xs : List Json, beqElems xs xs = true
  | [] => rfl
  | x :: xs => by rw [beqElems, beq_self x, beqElems_self xs, Bool.and_self]

theorem beqMembers_self : ∀ xs : List (String × Json), beqMembers xs xs = true
  | [] => rfl
  | (k, x) :: xs => by
      rw [beqMembers, beq_self x, beqMembers_self xs, Bool.and_self, Bool.and_true, beq_self_eq_true]

end

instance : DecidableEq Json := fun x y =>
  decidable_of_iff (beq x y = true)
    ⟨eq_of_beq x y, fun h => h ▸ beq_self x⟩

/-- Induction over a value with one case for each kind of node; the
hypothesis of a container speaks of all its children. -/
@[elab_as_elim, induction_eliminator]
theorem induction {motive : Json → Prop}
    (null : motive .null) (bool : ∀ b, motive (.bool b))
    (num : ∀ n, motive (.num n)) (str : ∀ s, motive (.str s))
    (arr : ∀ xs, (∀ x ∈ xs, motive x) → motive (.arr xs))
    (obj : ∀ ms, (∀ a ∈ ms, motive a.2) → motive (.obj ms)) (j : Json) :
    motive j :=
  @Json.rec motive (fun xs => ∀ x ∈ xs, motive x)
    (fun ms => ∀ a ∈ ms, motive a.2) (fun a => motive a.2)
    null bool num str arr obj
    (by simp) (fun _ _ hx hxs => by simpa using ⟨hx, hxs⟩)
    (by simp) (fun _ _ hm hms => by
      intro m hmem
      rcases List.mem_cons.mp hmem with rfl | hmem
      · exact hm
      · exact hms m hmem)
    (fun _ _ hv => hv) j

/-- What the accessors of the JSON library throw. -/
inductive Error where
  /-- A conversion to a string met another type. -/
  | typeMustBeString
  | typeMustBeBoolean
  /-- `operator[]` with a string argument met neither an object nor null. -/
  | noStringIndex
  /-- `operator[]` with a number met neither an array nor null. -/
  | noNumericIndex
  | noPushBack
  /-- The text is not JSON. -/
  | parse
  deriving DecidableEq, Repr

/-- Everything but an array and an object. -/
def isPrimitive : Json → Bool
  | .arr _ => false
  | .obj _ => false
  | _ => true

/-- Whether the value is an object with this key. -/
def contains (key : String) : Json → Bool
  | .obj ms => (ms.lookup key).isSome
  | _ => false

/-- The value `j[key]` has: a missing key reads as null, and so does any key
of null, which the access turns into an object. -/
def subscript (key : String) : Json → Except Error Json
  | .obj ms => .ok ((ms.lookup key).getD .null)
  | .null => .ok .null
  | _ => .error .noStringIndex

/-- `get<std::string>()` of a value that is not changed. -/
def getString : Json → Except Error String
  | .str s => .ok s
  | _ => .error .typeMustBeString

/-- One step from a container to a child. -/
inductive Step where
  | elem (index : Nat)
  | member (index : Nat) (key : String)
  deriving DecidableEq, Repr

/-- A position in a value, from the root downwards. -/
abbrev Path := List Step

/-- The value at a step from another. -/
def child? : Json → Step → Option Json
  | .arr xs, .elem i => xs[i]?
  | .obj ms, .member i k =>
      match ms[i]? with
      | some (l, v) => if l = k then some v else none
      | none => none
  | _, _ => none

/-- The value at a position. -/
def get? : Json → Path → Option Json
  | j, [] => some j
  | j, s :: p =>
      match child? j s with
      | some v => get? v p
      | none => none

@[simp] theorem get?_nil (j : Json) : get? j [] = some j := rfl

theorem get?_cons (j : Json) (s : Step) (p : Path) :
    get? j (s :: p) = (child? j s).bind fun v => get? v p := by
  rw [get?]
  cases child? j s <;> rfl

theorem get?_append (j : Json) (p q : Path) :
    get? j (p ++ q) = (get? j p).bind fun v => get? v q := by
  induction p generalizing j with
  | nil => rfl
  | cons s p ih =>
      rw [List.cons_append, get?_cons, get?_cons, Option.bind_assoc]
      exact Option.bind_congr fun v _ => ih v

theorem child?_member_eq_some {j v : Json} {i : Nat} {k : String} :
    child? j (.member i k) = some v ↔ ∃ ms, j = .obj ms ∧ ms[i]? = some (k, v) := by
  constructor
  · intro h
    cases j with
    | obj ms =>
        refine ⟨ms, rfl, ?_⟩
        simp only [child?] at h
        split at h
        · rename_i l w hget
          split at h
          · rename_i hl
            rw [hget, hl, Option.some.inj h]
          · exact absurd h (by simp)
        · exact absurd h (by simp)
    | _ => simp [child?] at h
  · rintro ⟨ms, rfl, hget⟩
    simp [child?, hget]

theorem child?_elem_eq_some {j v : Json} {i : Nat} :
    child? j (.elem i) = some v ↔ ∃ xs, j = .arr xs ∧ xs[i]? = some v := by
  constructor
  · intro h
    cases j with
    | arr xs => exact ⟨xs, rfl, h⟩
    | _ => simp [child?] at h
  · rintro ⟨xs, rfl, hget⟩
    exact hget

/-- What is true of the members of every object in the value. -/
def Everywhere (P : List (String × Json) → Prop) (j : Json) : Prop :=
  ∀ p ms, j.get? p = some (.obj ms) → P ms

section Everywhere

variable {P : List (String × Json) → Prop}

theorem Everywhere.get? {j v : Json} {p : Path} (h : Everywhere P j) (hv : j.get? p = some v) :
    Everywhere P v := by
  intro q ms hms
  refine h (p ++ q) ms ?_
  rw [get?_append, hv]
  exact hms

theorem everywhere_obj_iff {ms : List (String × Json)} :
    Everywhere P (.obj ms) ↔ P ms ∧ ∀ m ∈ ms, Everywhere P m.2 := by
  constructor
  · intro h
    refine ⟨h [] ms rfl, fun m hm => ?_⟩
    obtain ⟨i, hi⟩ := List.mem_iff_getElem?.mp hm
    refine h.get? (p := [.member i m.1]) ?_
    rw [get?_cons, child?_member_eq_some.mpr ⟨ms, rfl, hi⟩]
    rfl
  · rintro ⟨hhere, hms⟩ p ns hns
    cases p with
    | nil =>
        obtain rfl := Json.obj.inj (Option.some.inj hns)
        exact hhere
    | cons s p =>
        rw [get?_cons, Option.bind_eq_some_iff] at hns
        obtain ⟨v, hv, hns⟩ := hns
        cases s with
        | elem i => simp [child?] at hv
        | member i k =>
            obtain ⟨ks, heq, hget⟩ := child?_member_eq_some.mp hv
            obtain rfl := Json.obj.inj heq
            exact hms _ (List.mem_of_getElem? hget) p ns hns

theorem everywhere_arr_iff {xs : List Json} :
    Everywhere P (.arr xs) ↔ ∀ x ∈ xs, Everywhere P x := by
  constructor
  · intro h x hx
    obtain ⟨i, hi⟩ := List.mem_iff_getElem?.mp hx
    refine h.get? (p := [.elem i]) ?_
    rw [get?_cons, child?_elem_eq_some.mpr ⟨xs, rfl, hi⟩]
    rfl
  · intro h p ns hns
    cases p with
    | nil => simp at hns
    | cons s p =>
        rw [get?_cons, Option.bind_eq_some_iff] at hns
        obtain ⟨v, hv, hns⟩ := hns
        cases s with
        | member i k => simp [child?] at hv
        | elem i =>
            obtain ⟨ys, heq, hget⟩ := child?_elem_eq_some.mp hv
            obtain rfl := Json.arr.inj heq
            exact h _ (List.mem_of_getElem? hget) p ns hns

theorem everywhere_of_isPrimitive {j : Json} (h : j.isPrimitive = true) : Everywhere P j := by
  intro p ms hms
  cases j with
  | arr xs => simp [isPrimitive] at h
  | obj ms => simp [isPrimitive] at h
  | _ =>
      cases p with
      | nil => simp at hms
      | cons step p => simp [get?_cons, child?] at hms

@[simp] theorem everywhere_str (s : String) : Everywhere P (.str s) := everywhere_of_isPrimitive rfl

@[simp] theorem everywhere_num (s : String) : Everywhere P (.num s) := everywhere_of_isPrimitive rfl

@[simp] theorem everywhere_bool (b : Bool) : Everywhere P (.bool b) := everywhere_of_isPrimitive rfl

end Everywhere

end Json

end PgFort.JsonTree
