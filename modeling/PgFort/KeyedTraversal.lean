import Mathlib.Data.List.Forall2
import PgFort.JsonTree

/-!
Traversals of a JSON value that are directed by member keys. A traversal is a
small automaton: in each mode a key says whether the value under it is left
alone, entered, or handed to a visitor, which may put another value in the
place of the whole object it was found in.
-/

namespace PgFort.KeyedTraversal

open PgFort.JsonTree
open PgFort.JsonTree.Json

/-- What a traversal does with the value under a key. -/
inductive Move (M : Type) where
  | skip
  | enter (mode : M)
  | visit
  deriving DecidableEq

/-- The move of each mode at each key. The elements of an array are entered
in the mode of the array. -/
abbrev Traversal (M : Type) := M → String → Move M

variable {M ε : Type}

mutual

/-- Run a traversal with a visitor. A visitor that answers `some r` replaces
the object that holds the visited member by `r` and ends the loop over it. -/
def walk (t : Traversal M) (f : Json → Except ε (Option Json)) :
    M → Json → Except ε Json
  | m, .arr xs => (walkElems t f m xs).map .arr
  | m, .obj ms => (walkMembers t f m ms).map (Sum.elim id .obj)
  | _, j => .ok j

def walkElems (t : Traversal M) (f : Json → Except ε (Option Json)) :
    M → List Json → Except ε (List Json)
  | _, [] => .ok []
  | m, x :: xs => do
      let x' ← walk t f m x
      let xs' ← walkElems t f m xs
      return x' :: xs'

def walkMembers (t : Traversal M) (f : Json → Except ε (Option Json)) :
    M → List (String × Json) → Except ε (Json ⊕ List (String × Json))
  | _, [] => .ok (.inr [])
  | m, (k, v) :: ms =>
      match t m k with
      | .skip => (walkMembers t f m ms).map (Sum.map id ((k, v) :: ·))
      | .enter n => do
          let v' ← walk t f n v
          (walkMembers t f m ms).map (Sum.map id ((k, v') :: ·))
      | .visit => do
          match ← f v with
          | some r => return .inl r
          | none => (walkMembers t f m ms).map (Sum.map id ((k, v) :: ·))

end

/-- What the traversal does to a member. -/
def MemberStep (t : Traversal M) (f : Json → Except ε (Option Json)) (m : M)
    (a b : String × Json) : Prop :=
  b.1 = a.1 ∧
    match t m a.1 with
    | .skip => b.2 = a.2
    | .enter n => walk t f n a.2 = .ok b.2
    | .visit => f a.2 = .ok none ∧ b.2 = a.2

theorem exists_getElem?_of_forall₂ {α β : Type} {R : α → β → Prop} {xs : List α} {ys : List β}
    (h : List.Forall₂ R xs ys) {i : Nat} {x : α} (hx : xs[i]? = some x) :
    ∃ y, ys[i]? = some y ∧ R x y := by
  obtain ⟨hi, rfl⟩ := List.getElem?_eq_some_iff.mp hx
  have hi' : i < ys.length := h.length_eq ▸ hi
  exact ⟨ys[i], List.getElem?_eq_getElem hi', h.get hi hi'⟩

theorem bind_eq_ok {α β : Type} {x : Except ε α} {g : α → Except ε β} {b : β} :
    (x >>= g) = .ok b ↔ ∃ a, x = .ok a ∧ g a = .ok b := by
  cases x with
  | error e => simp [bind, Except.bind]
  | ok a => simp [bind, Except.bind]

theorem map_eq_ok {α β : Type} {x : Except ε α} {g : α → β} {b : β} :
    x.map g = .ok b ↔ ∃ a, x = .ok a ∧ g a = b := by
  cases x with
  | error e => simp [Except.map]
  | ok a => simp [Except.map]

theorem eq_ok_of_toOption {α : Type} {x : Except ε α} {a : α} (h : x.toOption = some a) :
    x = .ok a := by
  cases x with
  | error e => simp [Except.toOption] at h
  | ok b => rw [Option.some.inj h]

section Inversion

variable {t : Traversal M} {f : Json → Except ε (Option Json)} {m : M}

theorem walkElems_eq_ok {xs ys : List Json} :
    walkElems t f m xs = .ok ys ↔
      List.Forall₂ (fun x y => walk t f m x = .ok y) xs ys := by
  induction xs generalizing ys with
  | nil => simp [walkElems, eq_comm]
  | cons x xs ih =>
      rw [walkElems, bind_eq_ok]
      constructor
      · rintro ⟨y, hy, hrest⟩
        obtain ⟨zs, hzs, heq⟩ := bind_eq_ok.mp hrest
        cases heq
        exact .cons hy (ih.mp hzs)
      · intro h
        cases h with
        | cons hy hys =>
            exact ⟨_, hy, bind_eq_ok.mpr ⟨_, ih.mpr hys, rfl⟩⟩

theorem walk_arr_eq_ok {xs : List Json} {j : Json} :
    walk t f m (.arr xs) = .ok j ↔
      ∃ ys, j = .arr ys ∧ List.Forall₂ (fun x y => walk t f m x = .ok y) xs ys := by
  rw [walk, map_eq_ok]
  constructor
  · rintro ⟨ys, hys, rfl⟩
    exact ⟨ys, rfl, walkElems_eq_ok.mp hys⟩
  · rintro ⟨ys, rfl, hys⟩
    exact ⟨ys, walkElems_eq_ok.mpr hys, rfl⟩

theorem walkMembers_eq_inr {ms ns : List (String × Json)} :
    walkMembers t f m ms = .ok (.inr ns) ↔
      List.Forall₂ (MemberStep t f m) ms ns := by
  induction ms generalizing ns with
  | nil => simp [walkMembers, eq_comm]
  | cons a ms ih =>
      obtain ⟨k, v⟩ := a
      have htail : ∀ w, (walkMembers t f m ms).map (Sum.map id ((k, w) :: ·)) =
          Except.ok (Sum.inr ns) ↔
          ∃ rest, ns = (k, w) :: rest ∧ List.Forall₂ (MemberStep t f m) ms rest := by
        intro w
        rw [map_eq_ok]
        constructor
        · rintro ⟨r, hr, hmap⟩
          cases r with
          | inl _ => simp at hmap
          | inr rest =>
              refine ⟨rest, ?_, ih.mp hr⟩
              simpa using hmap.symm
        · rintro ⟨rest, rfl, hrest⟩
          exact ⟨.inr rest, ih.mpr hrest, rfl⟩
      rw [walkMembers, List.forall₂_cons_left_iff]
      constructor
      · intro h
        cases hmove : t m k with
        | skip =>
            rw [hmove] at h
            obtain ⟨rest, rfl, hrest⟩ := (htail v).mp h
            exact ⟨(k, v), rest, ⟨rfl, by simp [hmove]⟩, hrest, rfl⟩
        | enter n =>
            rw [hmove] at h
            obtain ⟨w, hw, hmap⟩ := bind_eq_ok.mp h
            obtain ⟨rest, rfl, hrest⟩ := (htail w).mp hmap
            exact ⟨(k, w), rest, ⟨rfl, by simpa [hmove] using hw⟩, hrest, rfl⟩
        | visit =>
            rw [hmove] at h
            obtain ⟨o, ho, hmap⟩ := bind_eq_ok.mp h
            cases o with
            | some r => simp [pure, Except.pure] at hmap
            | none =>
                obtain ⟨rest, rfl, hrest⟩ := (htail v).mp hmap
                exact ⟨(k, v), rest, ⟨rfl, by simpa [hmove] using ho⟩, hrest, rfl⟩
      · rintro ⟨⟨l, w⟩, rest, ⟨hl, hstep⟩, hrest, rfl⟩
        simp only at hl hstep
        subst l
        cases hmove : t m k with
        | skip =>
            rw [hmove] at hstep
            simp only at hstep ⊢
            subst w
            exact (htail v).mpr ⟨rest, rfl, hrest⟩
        | enter n =>
            rw [hmove] at hstep
            exact bind_eq_ok.mpr ⟨w, hstep, (htail w).mpr ⟨rest, rfl, hrest⟩⟩
        | visit =>
            rw [hmove] at hstep
            obtain ⟨hnone, rfl⟩ := hstep
            exact bind_eq_ok.mpr ⟨none, hnone, (htail _).mpr ⟨rest, rfl, hrest⟩⟩

theorem walkMembers_eq_inl {ms : List (String × Json)} {r : Json}
    (h : walkMembers t f m ms = .ok (.inl r)) :
    ∃ k v, (k, v) ∈ ms ∧ t m k = .visit ∧ f v = .ok (some r) := by
  induction ms with
  | nil => simp [walkMembers] at h
  | cons a ms ih =>
      obtain ⟨k, v⟩ := a
      have hrest : ∀ w, (walkMembers t f m ms).map (Sum.map id ((k, w) :: ·)) =
          Except.ok (Sum.inl r) →
          ∃ k' v', (k', v') ∈ (k, v) :: ms ∧ t m k' = .visit ∧ f v' = .ok (some r) := by
        intro w hw
        obtain ⟨s, hs, hmap⟩ := map_eq_ok.mp hw
        cases s with
        | inr _ => simp at hmap
        | inl r' =>
            obtain rfl : r' = r := by simpa using hmap
            obtain ⟨k', v', hmem, hvisit⟩ := ih hs
            exact ⟨k', v', List.mem_cons_of_mem _ hmem, hvisit⟩
      rw [walkMembers] at h
      cases hmove : t m k with
      | skip =>
          rw [hmove] at h
          exact hrest v h
      | enter n =>
          rw [hmove] at h
          obtain ⟨w, -, hmap⟩ := bind_eq_ok.mp h
          exact hrest w hmap
      | visit =>
          rw [hmove] at h
          obtain ⟨o, ho, hmap⟩ := bind_eq_ok.mp h
          cases o with
          | none => exact hrest v hmap
          | some r' =>
              obtain rfl : r' = r := by simpa [pure, Except.pure] using hmap
              exact ⟨k, v, List.mem_cons_self, hmove, ho⟩

theorem walk_obj_cases {ms : List (String × Json)} {j : Json}
    (h : walk t f m (.obj ms) = .ok j) :
    (∃ k v, (k, v) ∈ ms ∧ t m k = .visit ∧ f v = .ok (some j)) ∨
      ∃ ns, j = .obj ns ∧ List.Forall₂ (MemberStep t f m) ms ns := by
  rw [walk, map_eq_ok] at h
  obtain ⟨s, hs, rfl⟩ := h
  cases s with
  | inl r => exact .inl (walkMembers_eq_inl hs)
  | inr ns => exact .inr ⟨ns, rfl, walkMembers_eq_inr.mp hs⟩

theorem memberStep_cases {a b : String × Json} (h : MemberStep t f m a b) :
    b = a ∨ b.1 = a.1 ∧ ∃ n, t m a.1 = .enter n ∧ walk t f n a.2 = .ok b.2 := by
  obtain ⟨hkey, hstep⟩ := h
  cases hmove : t m a.1 with
  | skip =>
      rw [hmove] at hstep
      exact .inl (Prod.ext hkey hstep)
  | enter n =>
      rw [hmove] at hstep
      exact .inr ⟨hkey, n, rfl, hstep⟩
  | visit =>
      rw [hmove] at hstep
      exact .inl (Prod.ext hkey hstep.2)

theorem walk_of_isPrimitive {j j' : Json} (h : j.isPrimitive = true)
    (hwalk : walk t f m j = .ok j') : j' = j := by
  cases j <;> simp_all [walk, isPrimitive]

end Inversion

/-- The mode in which a traversal reaches a position. -/
def modeAt (t : Traversal M) : M → Path → Option M
  | m, [] => some m
  | m, .elem _ :: p => modeAt t m p
  | m, .member _ k :: p =>
      match t m k with
      | .enter n => modeAt t n p
      | _ => none

/-- The traversal, started in mode `m` on `j`, comes to the object at `p` and
visits the value `v` in it. -/
def VisitsAt (t : Traversal M) (m : M) (j : Json) (p : Path) (v : Json) : Prop :=
  ∃ n ms k, modeAt t m p = some n ∧ j.get? p = some (.obj ms) ∧ (k, v) ∈ ms ∧
    t n k = .visit

/-- Every object that has a member under `key` has no other member. -/
def LoneKey (key : String) (j : Json) : Prop :=
  ∀ p ms v, j.get? p = some (.obj ms) → (key, v) ∈ ms → ms = [(key, v)]

theorem LoneKey.child {key : String} {j v : Json} {s : Step}
    (h : LoneKey key j) (hv : j.child? s = some v) : LoneKey key v := by
  intro p ms w hget hmem
  exact h (s :: p) ms w (by rw [get?_cons, hv]; exact hget) hmem

theorem VisitsAt.elem {t : Traversal M} {m : M} {xs : List Json} {i : Nat}
    {x v : Json} {p : Path} (hx : xs[i]? = some x) (h : VisitsAt t m x p v) :
    VisitsAt t m (.arr xs) (.elem i :: p) v := by
  obtain ⟨n, ms, k, hmode, hget, hmem, hvisit⟩ := h
  refine ⟨n, ms, k, hmode, ?_, hmem, hvisit⟩
  rw [get?_cons, child?_elem_eq_some.mpr ⟨xs, rfl, hx⟩]
  exact hget

theorem VisitsAt.member {t : Traversal M} {m n : M}
    {ms : List (String × Json)} {i : Nat} {k : String} {x v : Json} {p : Path}
    (hx : ms[i]? = some (k, x)) (hmove : t m k = .enter n)
    (h : VisitsAt t n x p v) : VisitsAt t m (.obj ms) (.member i k :: p) v := by
  obtain ⟨n', ms', k', hmode, hget, hmem, hvisit⟩ := h
  refine ⟨n', ms', k', by rw [modeAt, hmove]; exact hmode, ?_, hmem, hvisit⟩
  rw [get?_cons, child?_member_eq_some.mpr ⟨ms, rfl, hx⟩]
  exact hget

theorem visitsAt_elem {t : Traversal M} {m : M} {j v : Json} {i : Nat}
    {p : Path} (h : VisitsAt t m j (.elem i :: p) v) :
    ∃ xs x, j = .arr xs ∧ xs[i]? = some x ∧ VisitsAt t m x p v := by
  obtain ⟨n, ms, k, hmode, hget, hmem, hvisit⟩ := h
  rw [get?_cons, Option.bind_eq_some_iff] at hget
  obtain ⟨x, hx, hget⟩ := hget
  obtain ⟨xs, rfl, hxs⟩ := child?_elem_eq_some.mp hx
  exact ⟨xs, x, rfl, hxs, n, ms, k, hmode, hget, hmem, hvisit⟩

theorem visitsAt_member {t : Traversal M} {m : M} {j v : Json} {i : Nat}
    {k : String} {p : Path} (h : VisitsAt t m j (.member i k :: p) v) :
    ∃ ms x n, j = .obj ms ∧ ms[i]? = some (k, x) ∧ t m k = .enter n ∧
      VisitsAt t n x p v := by
  obtain ⟨n, ms, k', hmode, hget, hmem, hvisit⟩ := h
  rw [get?_cons, Option.bind_eq_some_iff] at hget
  obtain ⟨x, hx, hget⟩ := hget
  obtain ⟨ms', rfl, hms⟩ := child?_member_eq_some.mp hx
  rw [modeAt] at hmode
  cases hmove : t m k with
  | enter n' =>
      rw [hmove] at hmode
      exact ⟨ms', x, n', rfl, hms, rfl, n, ms, k', hmode, hget, hmem, hvisit⟩
  | skip => simp [hmove] at hmode
  | visit => simp [hmove] at hmode

/-- The path goes through a member that the traversal leaves alone. -/
def Skips (t : Traversal M) : M → Path → Prop
  | _, [] => False
  | m, .elem _ :: p => Skips t m p
  | m, .member _ k :: p =>
      match t m k with
      | .skip => True
      | .enter n => Skips t n p
      | .visit => False

theorem skips_iff {t : Traversal M} {m : M} {p : Path} :
    Skips t m p ↔ ∃ pre i k rest n,
      p = pre ++ .member i k :: rest ∧ modeAt t m pre = some n ∧ t n k = .skip := by
  induction p generalizing m with
  | nil => simp [Skips]
  | cons s p ih =>
      cases s with
      | elem i =>
          rw [Skips, ih]
          constructor
          · rintro ⟨pre, j, k, rest, n, rfl, hmode, hmove⟩
            exact ⟨.elem i :: pre, j, k, rest, n, rfl, hmode, hmove⟩
          · rintro ⟨pre, j, k, rest, n, heq, hmode, hmove⟩
            cases pre with
            | nil => simp at heq
            | cons s pre =>
                obtain ⟨rfl, rfl⟩ := List.cons.inj heq
                exact ⟨pre, j, k, rest, n, rfl, hmode, hmove⟩
      | member i k =>
          rw [Skips]
          constructor
          · intro h
            cases hk : t m k with
            | skip => exact ⟨[], i, k, p, m, rfl, rfl, hk⟩
            | enter n =>
                rw [hk] at h
                obtain ⟨pre, j, l, rest, n', rfl, hmode, hmove⟩ := ih.mp h
                exact ⟨.member i k :: pre, j, l, rest, n', rfl, by simpa [modeAt, hk] using hmode,
                  hmove⟩
            | visit => simp [hk] at h
          · rintro ⟨pre, j, l, rest, n, heq, hmode, hmove⟩
            cases pre with
            | nil =>
                obtain ⟨hstep, -⟩ := List.cons.inj heq
                obtain ⟨-, rfl⟩ := Step.member.inj hstep
                obtain rfl : m = n := by simpa [modeAt] using hmode
                simp [hmove]
            | cons s pre =>
                obtain ⟨rfl, rfl⟩ := List.cons.inj heq
                rw [modeAt] at hmode
                cases hk : t m k with
                | skip => simp
                | enter n' =>
                    rw [hk] at hmode
                    exact ih.mpr ⟨pre, j, l, rest, n, rfl, hmode, hmove⟩
                | visit => simp [hk] at hmode

section Positions

variable {t : Traversal M} {f : Json → Except ε (Option Json)} {key : String}

/-- An object with a member that the traversal does not visit is not
replaced: a visited member would be its only one. -/
theorem members_of_walk_of_not_visit (hkey : ∀ m k, t m k = .visit → k = key)
    {m : M} {ms : List (String × Json)} {i : Nat} {k : String} {x j : Json}
    (hlone : LoneKey key (.obj ms)) (hx : ms[i]? = some (k, x))
    (hmove : t m k ≠ .visit) (h : walk t f m (.obj ms) = .ok j) :
    ∃ ns, j = .obj ns ∧ List.Forall₂ (MemberStep t f m) ms ns := by
  rcases walk_obj_cases h with ⟨k', v, hmem, hvisit, -⟩ | hall
  · obtain rfl := hkey m k' hvisit
    have hms := hlone [] ms v rfl hmem
    rw [hms] at hx
    have hk : k = k' := by
      cases i with
      | zero => exact (congrArg Prod.fst (Option.some.inj hx)).symm
      | succ i => simp at hx
    exact absurd (hk ▸ hvisit) hmove
  · exact hall

theorem members_of_walk_of_enter (hkey : ∀ m k, t m k = .visit → k = key)
    {m n : M} {ms : List (String × Json)} {i : Nat} {k : String} {x j : Json}
    (hlone : LoneKey key (.obj ms)) (hx : ms[i]? = some (k, x))
    (hmove : t m k = .enter n) (h : walk t f m (.obj ms) = .ok j) :
    ∃ ns y, j = .obj ns ∧ ns[i]? = some (k, y) ∧ walk t f n x = .ok y := by
  obtain ⟨ns, rfl, hall⟩ := members_of_walk_of_not_visit hkey hlone hx (by simp [hmove]) h
  obtain ⟨⟨l, y⟩, hy, hl, hstep⟩ := exists_getElem?_of_forall₂ hall hx
  obtain rfl : l = k := hl
  rw [hmove] at hstep
  exact ⟨ns, y, rfl, hy, hstep⟩

theorem members_of_walk_of_skip (hkey : ∀ m k, t m k = .visit → k = key)
    {m : M} {ms : List (String × Json)} {i : Nat} {k : String} {x j : Json}
    (hlone : LoneKey key (.obj ms)) (hx : ms[i]? = some (k, x))
    (hmove : t m k = .skip) (h : walk t f m (.obj ms) = .ok j) :
    ∃ ns, j = .obj ns ∧ ns[i]? = some (k, x) := by
  obtain ⟨ns, rfl, hall⟩ := members_of_walk_of_not_visit hkey hlone hx (by simp [hmove]) h
  obtain ⟨⟨l, y⟩, hy, hl, hstep⟩ := exists_getElem?_of_forall₂ hall hx
  obtain rfl : l = k := hl
  rw [hmove] at hstep
  obtain rfl : y = x := hstep
  exact ⟨ns, rfl, hy⟩

theorem visit_of_walk (hkey : ∀ m k, t m k = .visit → k = key) {m : M} {j j' v : Json}
    (hlone : LoneKey key j) (hv : VisitsAt t m j [] v) (h : walk t f m j = .ok j') :
    ∃ o, f v = .ok o ∧ ∀ r, o = some r → j' = r := by
  obtain ⟨n, ms, k, hmode, hget, hmem, hvisit⟩ := hv
  obtain rfl : n = m := by simpa [modeAt] using hmode.symm
  obtain rfl : j = .obj ms := by simpa using hget
  obtain rfl := hkey n k hvisit
  have hms := hlone [] ms v rfl hmem
  rw [hms, walk, map_eq_ok] at h
  obtain ⟨s, hs, rfl⟩ := h
  rw [walkMembers, hvisit] at hs
  obtain ⟨o, ho, hs⟩ := bind_eq_ok.mp hs
  refine ⟨o, ho, ?_⟩
  rintro r rfl
  cases hs
  rfl

/-- At a visited position the result of a traversal is what the visitor put
there. -/
theorem get?_walk_of_visitsAt (hkey : ∀ m k, t m k = .visit → k = key)
    {m : M} {j j' v r : Json} {p : Path} (hlone : LoneKey key j)
    (hv : VisitsAt t m j p v) (hf : f v = .ok (some r))
    (h : walk t f m j = .ok j') : j'.get? p = some r := by
  induction p generalizing m j j' with
  | nil =>
      obtain ⟨o, ho, hr⟩ := visit_of_walk hkey hlone hv h
      rw [hr r (Except.ok.inj (ho.symm.trans hf))]
      rfl
  | cons s p ih =>
      cases s with
      | elem i =>
          obtain ⟨xs, x, rfl, hx, hvx⟩ := visitsAt_elem hv
          obtain ⟨ys, rfl, hall⟩ := walk_arr_eq_ok.mp h
          obtain ⟨y, hy, hwalk⟩ := exists_getElem?_of_forall₂ hall hx
          rw [get?_cons, child?_elem_eq_some.mpr ⟨ys, rfl, hy⟩]
          exact ih (hlone.child (s := .elem i) hx) hvx hwalk
      | member i k =>
          obtain ⟨ms, x, n, rfl, hx, hmove, hvx⟩ := visitsAt_member hv
          obtain ⟨ns, y, rfl, hy, hwalk⟩ :=
            members_of_walk_of_enter hkey hlone hx hmove h
          have hchild : (Json.obj ms).child? (.member i k) = some x :=
            child?_member_eq_some.mpr ⟨ms, rfl, hx⟩
          rw [get?_cons, child?_member_eq_some.mpr ⟨ns, rfl, hy⟩]
          exact ih (hlone.child hchild) hvx hwalk

theorem visit_ok_of_walk (hkey : ∀ m k, t m k = .visit → k = key)
    {m : M} {j j' v : Json} {p : Path} (hlone : LoneKey key j)
    (hv : VisitsAt t m j p v) (h : walk t f m j = .ok j') : ∃ o, f v = .ok o := by
  induction p generalizing m j j' with
  | nil =>
      obtain ⟨o, ho, -⟩ := visit_of_walk hkey hlone hv h
      exact ⟨o, ho⟩
  | cons s p ih =>
      cases s with
      | elem i =>
          obtain ⟨xs, x, rfl, hx, hvx⟩ := visitsAt_elem hv
          obtain ⟨ys, rfl, hall⟩ := walk_arr_eq_ok.mp h
          obtain ⟨y, -, hwalk⟩ := exists_getElem?_of_forall₂ hall hx
          exact ih (hlone.child (s := .elem i) hx) hvx hwalk
      | member i k =>
          obtain ⟨ms, x, n, rfl, hx, hmove, hvx⟩ := visitsAt_member hv
          obtain ⟨ns, y, rfl, -, hwalk⟩ :=
            members_of_walk_of_enter hkey hlone hx hmove h
          exact ih (hlone.child (child?_member_eq_some.mpr ⟨ms, rfl, hx⟩)) hvx hwalk

theorem get?_walk_of_skips (hkey : ∀ m k, t m k = .visit → k = key)
    {m : M} {j j' x : Json} {p : Path} (hlone : LoneKey key j)
    (hp : Skips t m p) (hx : j.get? p = some x)
    (h : walk t f m j = .ok j') : j'.get? p = some x := by
  induction p generalizing m j j' with
  | nil => exact absurd hp id
  | cons s p ih =>
      rw [get?_cons, Option.bind_eq_some_iff] at hx
      obtain ⟨y, hy, hx⟩ := hx
      have hloneY := hlone.child hy
      cases s with
      | elem i =>
          obtain ⟨xs, rfl, hget⟩ := child?_elem_eq_some.mp hy
          obtain ⟨ys, rfl, hall⟩ := walk_arr_eq_ok.mp h
          obtain ⟨z, hz, hwalk⟩ := exists_getElem?_of_forall₂ hall hget
          rw [get?_cons, child?_elem_eq_some.mpr ⟨ys, rfl, hz⟩]
          exact ih hloneY hp hx hwalk
      | member i k =>
          obtain ⟨ms, rfl, hget⟩ := child?_member_eq_some.mp hy
          rw [Skips] at hp
          cases hmove : t m k with
          | skip =>
              obtain ⟨ns, rfl, hns⟩ := members_of_walk_of_skip hkey hlone hget hmove h
              rw [get?_cons, child?_member_eq_some.mpr ⟨ns, rfl, hns⟩]
              exact hx
          | enter n =>
              rw [hmove] at hp
              obtain ⟨ns, z, rfl, hz, hwalk⟩ :=
                members_of_walk_of_enter hkey hlone hget hmove h
              rw [get?_cons, child?_member_eq_some.mpr ⟨ns, rfl, hz⟩]
              exact ih hloneY hp hx hwalk
          | visit => simp [hmove] at hp

theorem walk_prefix (hkey : ∀ m k, t m k = .visit → k = key)
    {m : M} {j j' v : Json} {pre rest : Path} (hlone : LoneKey key j)
    (hv : VisitsAt t m j (pre ++ rest) v) (h : walk t f m j = .ok j') :
    ∃ n x y, j.get? pre = some x ∧ j'.get? pre = some y ∧ walk t f n x = .ok y ∧
      VisitsAt t n x rest v ∧ LoneKey key x ∧
      ∀ p w, VisitsAt t n x p w → VisitsAt t m j (pre ++ p) w := by
  induction pre generalizing m j j' with
  | nil => exact ⟨m, j, j', rfl, rfl, h, hv, hlone, fun _ _ hw => hw⟩
  | cons s pre ih =>
      cases s with
      | elem i =>
          obtain ⟨xs, x, rfl, hx, hvx⟩ := visitsAt_elem hv
          obtain ⟨ys, rfl, hall⟩ := walk_arr_eq_ok.mp h
          obtain ⟨x', hx', hwalk₁⟩ := exists_getElem?_of_forall₂ hall hx
          obtain ⟨n, z, y, hz, hy, hwalk, hvz, hlonez, hback⟩ :=
            ih (hlone.child (s := .elem i) hx) hvx hwalk₁
          refine ⟨n, z, y, ?_, ?_, hwalk, hvz, hlonez, fun p w hw => (hback p w hw).elem hx⟩
          · rw [get?_cons, child?_elem_eq_some.mpr ⟨xs, rfl, hx⟩]
            exact hz
          · rw [get?_cons, child?_elem_eq_some.mpr ⟨ys, rfl, hx'⟩]
            exact hy
      | member i k =>
          obtain ⟨ms, x, n₁, rfl, hx, hmove, hvx⟩ := visitsAt_member hv
          obtain ⟨ns, x', rfl, hx', hwalk₁⟩ := members_of_walk_of_enter hkey hlone hx hmove h
          have hchild : (Json.obj ms).child? (.member i k) = some x :=
            child?_member_eq_some.mpr ⟨ms, rfl, hx⟩
          obtain ⟨n, z, y, hz, hy, hwalk, hvz, hlonez, hback⟩ :=
            ih (hlone.child hchild) hvx hwalk₁
          refine ⟨n, z, y, ?_, ?_, hwalk, hvz, hlonez,
            fun p w hw => (hback p w hw).member hx hmove⟩
          · rw [get?_cons, hchild]
            exact hz
          · rw [get?_cons, child?_member_eq_some.mpr ⟨ns, rfl, hx'⟩]
            exact hy

/-- The path has no step to a member with this key. -/
def Avoids (key : String) (p : Path) : Prop :=
  ∀ i, Step.member i key ∉ p

theorem Avoids.tail {key : String} {s : Step} {p : Path} (h : Avoids key (s :: p)) :
    Avoids key p :=
  fun i hi => h i (List.mem_cons_of_mem _ hi)

theorem get?_walk_of_isPrimitive (hkey : ∀ m k, t m k = .visit → k = key)
    {m : M} {j j' v : Json} {p : Path} (hlone : LoneKey key j) (hp : Avoids key p)
    (hv : v.isPrimitive = true) (hget : j.get? p = some v) (h : walk t f m j = .ok j') :
    j'.get? p = some v := by
  induction p generalizing m j j' with
  | nil =>
      obtain rfl : j = v := by simpa using hget
      rw [walk_of_isPrimitive hv h]
      rfl
  | cons s p ih =>
      rw [get?_cons, Option.bind_eq_some_iff] at hget
      obtain ⟨x, hx, hget⟩ := hget
      have hloneX := hlone.child hx
      cases s with
      | elem i =>
          obtain ⟨xs, rfl, hxi⟩ := child?_elem_eq_some.mp hx
          obtain ⟨ys, rfl, hall⟩ := walk_arr_eq_ok.mp h
          obtain ⟨y, hy, hwalk⟩ := exists_getElem?_of_forall₂ hall hxi
          rw [get?_cons, child?_elem_eq_some.mpr ⟨ys, rfl, hy⟩]
          exact ih hloneX hp.tail hget hwalk
      | member i k =>
          obtain ⟨ms, rfl, hxi⟩ := child?_member_eq_some.mp hx
          have hne : k ≠ key := by
            rintro rfl
            exact hp i List.mem_cons_self
          cases hmove : t m k with
          | skip =>
              obtain ⟨ns, rfl, hns⟩ := members_of_walk_of_skip hkey hlone hxi hmove h
              rw [get?_cons, child?_member_eq_some.mpr ⟨ns, rfl, hns⟩]
              exact hget
          | enter n =>
              obtain ⟨ns, y, rfl, hy, hwalk⟩ :=
                members_of_walk_of_enter hkey hlone hxi hmove h
              rw [get?_cons, child?_member_eq_some.mpr ⟨ns, rfl, hy⟩]
              exact ih hloneX hp.tail hget hwalk
          | visit => exact absurd (hkey m k hmove) hne

theorem get?_of_get?_walk_of_isPrimitive {made : String}
    {m : M} {j j' v : Json} {p : Path}
    (hmade : ∀ p w r, VisitsAt t m j p w → f w = .ok (some r) → ∃ x, r = .obj [(made, x)])
    (hp : Avoids made p) (hv : v.isPrimitive = true) (hget : j'.get? p = some v)
    (h : walk t f m j = .ok j') : j.get? p = some v := by
  induction p generalizing m j j' with
  | nil =>
      obtain rfl : j' = v := by simpa using hget
      cases j with
      | arr xs =>
          obtain ⟨ys, rfl, -⟩ := walk_arr_eq_ok.mp h
          simp [isPrimitive] at hv
      | obj ms =>
          rcases walk_obj_cases h with ⟨k, w, hmem, hvisit, hf⟩ | ⟨ns, rfl, -⟩
          · obtain ⟨x, rfl⟩ := hmade [] w _ ⟨m, ms, k, rfl, rfl, hmem, hvisit⟩ hf
            simp [isPrimitive] at hv
          · simp [isPrimitive] at hv
      | _ => rw [walk_of_isPrimitive rfl h, get?_nil]
  | cons s p ih =>
      rw [get?_cons, Option.bind_eq_some_iff] at hget
      obtain ⟨y, hy, hget⟩ := hget
      cases j with
      | arr xs =>
          obtain ⟨ys, rfl, hall⟩ := walk_arr_eq_ok.mp h
          cases s with
          | elem i =>
              obtain ⟨zs, hzs, hyi⟩ := child?_elem_eq_some.mp hy
              obtain rfl := Json.arr.inj hzs
              obtain ⟨x, hx, hwalk⟩ := exists_getElem?_of_forall₂ hall.flip hyi
              rw [get?_cons, child?_elem_eq_some.mpr ⟨xs, rfl, hx⟩]
              exact ih (fun p w r hw => hmade (.elem i :: p) w r (hw.elem hx)) hp.tail hget hwalk
          | member i k =>
              obtain ⟨ms, hms, -⟩ := child?_member_eq_some.mp hy
              simp at hms
      | obj ms =>
          rcases walk_obj_cases h with ⟨k, w, hmem, hvisit, hf⟩ | ⟨ns, rfl, hall⟩
          · obtain ⟨x, rfl⟩ := hmade [] w _ ⟨m, ms, k, rfl, rfl, hmem, hvisit⟩ hf
            cases s with
            | elem i =>
                obtain ⟨zs, hzs, -⟩ := child?_elem_eq_some.mp hy
                simp at hzs
            | member i l =>
                obtain ⟨zs, hzs, hyi⟩ := child?_member_eq_some.mp hy
                obtain rfl := Json.obj.inj hzs
                have hl : l = made :=
                  (Prod.mk.inj (List.mem_singleton.mp (List.mem_of_getElem? hyi))).1
                exact absurd List.mem_cons_self (hl ▸ hp i)
          · cases s with
            | elem i =>
                obtain ⟨zs, hzs, -⟩ := child?_elem_eq_some.mp hy
                simp at hzs
            | member i l =>
                obtain ⟨zs, hzs, hyi⟩ := child?_member_eq_some.mp hy
                obtain rfl := Json.obj.inj hzs
                obtain ⟨⟨k, x⟩, hx, hstep⟩ := exists_getElem?_of_forall₂ hall.flip hyi
                obtain heq | ⟨hl, n, hmove, hwalk⟩ := memberStep_cases hstep
                · obtain ⟨rfl, rfl⟩ := Prod.mk.inj heq
                  rw [get?_cons, child?_member_eq_some.mpr ⟨ms, rfl, hx⟩]
                  exact hget
                · obtain rfl : l = k := hl
                  rw [get?_cons, child?_member_eq_some.mpr ⟨ms, rfl, hx⟩]
                  exact ih (fun p w r hw => hmade (.member i l :: p) w r (hw.member hx hmove))
                    hp.tail hget hwalk
      | _ =>
          rw [walk_of_isPrimitive rfl h] at hy
          cases s <;> simp [child?] at hy

end Positions

theorem exists_walk_ok {t : Traversal M} {f : Json → Except ε (Option Json)}
    {j : Json} {m : M} (h : ∀ p v, VisitsAt t m j p v → ∃ o, f v = .ok o) :
    ∃ j', walk t f m j = .ok j' := by
  induction j generalizing m with
  | null => exact ⟨.null, rfl⟩
  | bool b => exact ⟨.bool b, rfl⟩
  | num n => exact ⟨.num n, rfl⟩
  | str s => exact ⟨.str s, rfl⟩
  | arr xs ih =>
      have helems : ∀ ys : List Json, (∀ y ∈ ys, y ∈ xs) →
          ∃ zs, walkElems t f m ys = .ok zs := by
        intro ys hys
        induction ys with
        | nil => exact ⟨[], rfl⟩
        | cons y ys ihys =>
            have hy : y ∈ xs := hys y (by simp)
            obtain ⟨z, hz⟩ := ih y hy (m := m) fun p v hv => by
              obtain ⟨i, hi⟩ := List.mem_iff_getElem?.mp hy
              exact h (.elem i :: p) v (hv.elem hi)
            obtain ⟨zs, hzs⟩ := ihys fun y' hy' => hys y' (by simp [hy'])
            exact ⟨z :: zs, by rw [walkElems, hz, hzs]; rfl⟩
      obtain ⟨zs, hzs⟩ := helems xs fun _ hy => hy
      exact ⟨.arr zs, by rw [walk, hzs]; rfl⟩
  | obj ms ih =>
      have hmembers : ∀ ns : List (String × Json), (∀ a ∈ ns, a ∈ ms) →
          ∃ s, walkMembers t f m ns = .ok s := by
        intro ns hns
        induction ns with
        | nil => exact ⟨.inr [], rfl⟩
        | cons a ns ihns =>
            obtain ⟨k, v⟩ := a
            have hmem : (k, v) ∈ ms := hns (k, v) (by simp)
            obtain ⟨s, hs⟩ := ihns fun a ha => hns a (by simp [ha])
            rw [walkMembers]
            cases hmove : t m k with
            | skip => exact ⟨_, map_eq_ok.mpr ⟨s, hs, rfl⟩⟩
            | enter n =>
                obtain ⟨w, (hw : walk t f n v = .ok w)⟩ := ih (k, v) hmem (m := n) fun p v' hv => by
                  obtain ⟨i, hi⟩ := List.mem_iff_getElem?.mp hmem
                  exact h (.member i k :: p) v' (hv.member hi hmove)
                exact ⟨_, bind_eq_ok.mpr ⟨w, hw, map_eq_ok.mpr ⟨s, hs, rfl⟩⟩⟩
            | visit =>
                obtain ⟨o, ho⟩ := h [] v ⟨m, ms, k, rfl, rfl, hmem, hmove⟩
                cases o with
                | some r => exact ⟨.inl r, bind_eq_ok.mpr ⟨some r, ho, rfl⟩⟩
                | none =>
                    exact ⟨_, bind_eq_ok.mpr ⟨none, ho, map_eq_ok.mpr ⟨s, hs, rfl⟩⟩⟩
      obtain ⟨s, hs⟩ := hmembers ms fun _ ha => ha
      exact ⟨_, by rw [walk, hs]; rfl⟩

end PgFort.KeyedTraversal
