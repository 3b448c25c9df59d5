import Mathlib.Data.Set.Basic
import PgFort.KeyedTraversal

/-!
Replacement of the values at chosen positions, comparison of values up to some numbers,
and how both undo what a keyed traversal has put in.
-/

namespace PgFort.Replacement

open PgFort.JsonTree
open PgFort.JsonTree.Json
open PgFort.KeyedTraversal

section ReplaceAt

open Classical

variable (g : Json → Json)

mutual

/-- The value with others at the positions of a set. -/
noncomputable def replaceAt (ps : Set Path) : Json → Json
  | .arr xs => if [] ∈ ps then g (.arr xs) else .arr (replaceElems ps 0 xs)
  | .obj ms => if [] ∈ ps then g (.obj ms) else .obj (replaceMembers ps 0 ms)
  | j => if [] ∈ ps then g j else j

noncomputable def replaceElems (ps : Set Path) : Nat → List Json → List Json
  | _, [] => []
  | i, x :: xs => replaceAt {p | .elem i :: p ∈ ps} x :: replaceElems ps (i + 1) xs

noncomputable def replaceMembers (ps : Set Path) :
    Nat → List (String × Json) → List (String × Json)
  | _, [] => []
  | i, (k, v) :: ms =>
      (k, replaceAt {p | .member i k :: p ∈ ps} v) :: replaceMembers ps (i + 1) ms

end

variable {g} {ps : Set Path}

theorem replaceAt_of_nil_mem (h : [] ∈ ps) (j : Json) : replaceAt g ps j = g j := by
  cases j <;> simp [replaceAt, h]

theorem replaceAt_arr (h : [] ∉ ps) (xs : List Json) :
    replaceAt g ps (.arr xs) = .arr (replaceElems g ps 0 xs) := by
  rw [replaceAt, if_neg h]

theorem replaceAt_obj (h : [] ∉ ps) (ms : List (String × Json)) :
    replaceAt g ps (.obj ms) = .obj (replaceMembers g ps 0 ms) := by
  rw [replaceAt, if_neg h]

theorem getElem?_replaceElems (i n : Nat) (xs : List Json) :
    (replaceElems g ps i xs)[n]? =
      xs[n]?.map (replaceAt g {p | .elem (i + n) :: p ∈ ps}) := by
  induction xs generalizing i n with
  | nil => simp [replaceElems]
  | cons x xs ih =>
      rw [replaceElems]
      cases n with
      | zero => rfl
      | succ n =>
          rw [List.getElem?_cons_succ, List.getElem?_cons_succ, ih, Nat.add_right_comm i 1 n]
          rfl

theorem getElem?_replaceMembers (i n : Nat) (ms : List (String × Json)) :
    (replaceMembers g ps i ms)[n]? =
      ms[n]?.map fun a => (a.1, replaceAt g {p | .member (i + n) a.1 :: p ∈ ps} a.2) := by
  induction ms generalizing i n with
  | nil => simp [replaceMembers]
  | cons a ms ih =>
      rw [replaceMembers]
      cases n with
      | zero => rfl
      | succ n =>
          rw [List.getElem?_cons_succ, List.getElem?_cons_succ, ih, Nat.add_right_comm i 1 n]
          rfl

theorem length_replaceMembers (i : Nat) (ms : List (String × Json)) :
    (replaceMembers g ps i ms).length = ms.length := by
  induction ms generalizing i with
  | nil => rfl
  | cons a ms ih => rw [replaceMembers, List.length_cons, List.length_cons, ih]

theorem replaceAt_empty (j : Json) : replaceAt g ∅ j = j := by
  induction j with
  | arr xs ih =>
      rw [replaceAt_arr (Set.notMem_empty _)]
      congr 1
      apply List.ext_getElem?
      intro n
      rw [getElem?_replaceElems]
      cases hx : xs[n]? with
      | none => rfl
      | some x => exact congrArg some (ih x (List.mem_of_getElem? hx))
  | obj ms ih =>
      rw [replaceAt_obj (Set.notMem_empty _)]
      congr 1
      apply List.ext_getElem?
      intro n
      rw [getElem?_replaceMembers]
      cases ha : ms[n]? with
      | none => rfl
      | some a => exact congrArg (fun v => some (a.1, v)) (ih a (List.mem_of_getElem? ha))
  | _ => simp [replaceAt]

end ReplaceAt

/-- A number under this key. -/
def isNumberUnder (key : String) : String × Json → Bool
  | (k, .num _) => k == key
  | _ => false

@[simp] theorem isNumberUnder_num (key k s : String) :
    isNumberUnder key (k, .num s) = (k == key) := rfl

@[simp] theorem isNumberUnder_bool (key k : String) (b : Bool) :
    isNumberUnder key (k, .bool b) = false := rfl

@[simp] theorem isNumberUnder_str (key k s : String) :
    isNumberUnder key (k, .str s) = false := rfl

@[simp] theorem isNumberUnder_arr (key k : String) (xs : List Json) :
    isNumberUnder key (k, .arr xs) = false := rfl

@[simp] theorem isNumberUnder_obj (key k : String) (ms : List (String × Json)) :
    isNumberUnder key (k, .obj ms) = false := rfl

mutual

/-- Leave out the numbers under a key. -/
def dropNumbers (key : String) : Json → Json
  | .arr xs => .arr (dropNumbersElems key xs)
  | .obj ms => .obj (dropNumbersMembers key ms)
  | j => j

def dropNumbersElems (key : String) : List Json → List Json
  | [] => []
  | x :: xs => dropNumbers key x :: dropNumbersElems key xs

def dropNumbersMembers (key : String) : List (String × Json) → List (String × Json)
  | [] => []
  | (k, v) :: ms =>
      if isNumberUnder key (k, v) then dropNumbersMembers key ms
      else (k, dropNumbers key v) :: dropNumbersMembers key ms

end

theorem getElem?_dropNumbersElems (key : String) (n : Nat) (xs : List Json) :
    (dropNumbersElems key xs)[n]? = xs[n]?.map (dropNumbers key) := by
  induction xs generalizing n with
  | nil => simp [dropNumbersElems]
  | cons x xs ih =>
      rw [dropNumbersElems]
      cases n with
      | zero => rfl
      | succ n => simp [ih]

theorem dropNumbersMembers_eq_iff {key : String} {ms ns : List (String × Json)}
    (hall : List.Forall₂
      (fun a b => a.1 = b.1 ∧ isNumberUnder key a = isNumberUnder key b) ms ns) :
    dropNumbersMembers key ms = dropNumbersMembers key ns ↔
      List.Forall₂ (fun a b => isNumberUnder key a = true ∨
        dropNumbers key a.2 = dropNumbers key b.2) ms ns := by
  induction hall with
  | nil => simp
  | @cons a b ms ns hab hall ih =>
      obtain ⟨k, v⟩ := a
      obtain ⟨l, w⟩ := b
      obtain ⟨rfl, hdrop⟩ : k = l ∧ _ := hab
      rw [dropNumbersMembers, dropNumbersMembers, ← hdrop, List.forall₂_cons]
      split
      · rename_i h
        rw [ih]
        simp [h]
      · rename_i h
        rw [List.cons.injEq, Prod.mk.injEq, ih]
        simp [h]

section Walk

variable {M ε : Type} {t : Traversal M} {f : Json → Except ε (Option Json)} {m : M}

/-- The positions at which a traversal puts in what its visitor answers. -/
def replaced (t : Traversal M) (f : Json → Except ε (Option Json)) (m : M) (j : Json) :
    Set Path :=
  {p | ∃ v r, VisitsAt t m j p v ∧ f v = .ok (some r)}

theorem replaced_of_isPrimitive {j : Json} (h : j.isPrimitive = true) :
    replaced t f m j = ∅ := by
  rw [Set.eq_empty_iff_forall_notMem]
  rintro p ⟨v, r, ⟨n, ms, k, -, hget, -, -⟩, -⟩
  cases p with
  | nil =>
      obtain rfl : j = .obj ms := by simpa using hget
      simp [isPrimitive] at h
  | cons s p =>
      rw [get?_cons] at hget
      cases j <;> cases s <;> simp_all [child?, isPrimitive]

theorem nil_notMem_replaced_arr (xs : List Json) : [] ∉ replaced t f m (.arr xs) := by
  rintro ⟨v, r, ⟨n, ms, k, -, hget, -, -⟩, -⟩
  simp at hget

theorem replaced_elem {xs : List Json} {i : Nat} {x : Json} (hx : xs[i]? = some x) :
    {p | .elem i :: p ∈ replaced t f m (.arr xs)} = replaced t f m x := by
  ext p
  constructor
  · rintro ⟨v, r, hv, hf⟩
    obtain ⟨ys, y, hys, hy, hv⟩ := visitsAt_elem hv
    obtain rfl := Json.arr.inj hys
    obtain rfl : x = y := Option.some.inj (hx.symm.trans hy)
    exact ⟨v, r, hv, hf⟩
  · rintro ⟨v, r, hv, hf⟩
    exact ⟨v, r, hv.elem hx, hf⟩

theorem replaced_member {ms : List (String × Json)} {i : Nat} {k : String} {x : Json} {n : M}
    (hx : ms[i]? = some (k, x)) (hmove : t m k = .enter n) :
    {p | .member i k :: p ∈ replaced t f m (.obj ms)} = replaced t f n x := by
  ext p
  constructor
  · rintro ⟨v, r, hv, hf⟩
    obtain ⟨ns, y, n', hns, hy, hmove', hv⟩ := visitsAt_member hv
    obtain rfl := Json.obj.inj hns
    obtain ⟨-, rfl⟩ := Prod.mk.inj (Option.some.inj (hx.symm.trans hy))
    obtain rfl := Move.enter.inj (hmove.symm.trans hmove')
    exact ⟨v, r, hv, hf⟩
  · rintro ⟨v, r, hv, hf⟩
    exact ⟨v, r, hv.member hx hmove, hf⟩

theorem replaced_member_of_not_enter {ms : List (String × Json)} {i : Nat} {k : String}
    (hmove : ∀ n, t m k ≠ .enter n) :
    {p | .member i k :: p ∈ replaced t f m (.obj ms)} = ∅ := by
  rw [Set.eq_empty_iff_forall_notMem]
  rintro p ⟨v, r, hv, -⟩
  obtain ⟨-, -, n, -, -, hmove', -⟩ := visitsAt_member hv
  exact hmove n hmove'

/-- What the traversal puts in is restored by `g`, up to the dropped numbers. -/
def RestoredBy (t : Traversal M) (f : Json → Except ε (Option Json)) (g : Json → Json)
    (key drop : String) (m : M) (j : Json) : Prop :=
  ∀ p v r, VisitsAt t m j p v → f v = .ok (some r) →
    dropNumbers drop (g r) = dropNumbers drop (.obj [(key, v)])

theorem restoredBy_of_isPrimitive {g : Json → Json} {key drop : String} {j : Json}
    (h : j.isPrimitive = true) : RestoredBy t f g key drop m j := by
  intro p v r hv hf
  have hmem : p ∈ replaced t f m j := ⟨v, r, hv, hf⟩
  rw [replaced_of_isPrimitive h] at hmem
  exact absurd hmem (Set.notMem_empty p)

theorem restoredBy_arr {g : Json → Json} {key drop : String} {xs : List Json} :
    RestoredBy t f g key drop m (.arr xs) ↔
      ∀ (i : Nat) x, xs[i]? = some x → RestoredBy t f g key drop m x := by
  constructor
  · intro h i x hx p v r hv
    exact h (.elem i :: p) v r (hv.elem hx)
  · intro h p v r hv
    cases p with
    | nil =>
        obtain ⟨n, ms, k, -, hget, -, -⟩ := hv
        simp at hget
    | cons s p =>
        cases s with
        | elem i =>
            obtain ⟨ys, x, hys, hx, hv⟩ := visitsAt_elem hv
            obtain rfl := Json.arr.inj hys
            exact h i x hx p v r hv
        | member i k =>
            obtain ⟨ms, x, n, hms, -⟩ := visitsAt_member hv
            simp at hms

theorem restoredBy_obj_of_nil_notMem {g : Json → Json} {key drop : String}
    {ms : List (String × Json)} (hnil : [] ∉ replaced t f m (.obj ms)) :
    RestoredBy t f g key drop m (.obj ms) ↔
      ∀ (i : Nat) k x n, ms[i]? = some (k, x) → t m k = .enter n → RestoredBy t f g key drop n x := by
  constructor
  · intro h i k x n hx hmove p v r hv
    exact h (.member i k :: p) v r (hv.member hx hmove)
  · intro h p v r hv hf
    cases p with
    | nil => exact absurd ⟨v, r, hv, hf⟩ hnil
    | cons s p =>
        cases s with
        | elem i =>
            obtain ⟨ys, x, hys, -⟩ := visitsAt_elem hv
            simp at hys
        | member i k =>
            obtain ⟨ns, x, n, hns, hx, hmove, hv⟩ := visitsAt_member hv
            obtain rfl := Json.obj.inj hns
            exact h i k x n hx hmove p v r hv hf

theorem walk_obj_replaced {key : String} (hkey : ∀ m k, t m k = .visit → k = key)
    {ms : List (String × Json)} {j' : Json} (hlone : LoneKey key (.obj ms))
    (h : walk t f m (.obj ms) = .ok j') :
    (∃ v, ms = [(key, v)] ∧ t m key = .visit ∧ f v = .ok (some j')) ∨
      [] ∉ replaced t f m (.obj ms) ∧
        ∃ ns, j' = .obj ns ∧ List.Forall₂ (MemberStep t f m) ms ns := by
  rcases walk_obj_cases h with ⟨k, v, hmem, hvisit, hf⟩ | ⟨ns, rfl, hall⟩
  · obtain rfl := hkey m k hvisit
    exact .inl ⟨v, hlone [] ms v rfl hmem, hvisit, hf⟩
  · refine .inr ⟨?_, ns, rfl, hall⟩
    rintro ⟨v, r, ⟨n, ms', k, hmode, hget, hmem, hvisit⟩, hf⟩
    obtain rfl : ms = ms' := by simpa using hget
    obtain rfl : m = n := by simpa [modeAt] using hmode
    obtain rfl := hkey m k hvisit
    have hms := hlone [] ms v rfl hmem
    rw [hms, List.forall₂_cons_left_iff] at hall
    obtain ⟨b, rest, ⟨-, hstep⟩, -, -⟩ := hall
    rw [hvisit] at hstep
    simp [hf] at hstep

theorem eq_of_forall₂ {α : Type} {R : α → α → Prop} {xs ys : List α} (h : List.Forall₂ R xs ys)
    (heq : ∀ (i : Nat) x y, xs[i]? = some x → R x y → y = x) : ys = xs := by
  apply List.ext_getElem?
  intro i
  cases hx : xs[i]? with
  | none =>
      rw [List.getElem?_eq_none_iff] at hx ⊢
      rw [← h.length_eq]
      exact hx
  | some x =>
      obtain ⟨y, hy, hR⟩ := exists_getElem?_of_forall₂ h hx
      rw [hy, heq i x y hx hR]

theorem members_of_nil_notMem {ms : List (String × Json)} {j' : Json}
    (hnil : [] ∉ replaced t f m (.obj ms)) (h : walk t f m (.obj ms) = .ok j') :
    ∃ ns, j' = .obj ns ∧ List.Forall₂ (MemberStep t f m) ms ns := by
  obtain ⟨k, v, hmem, hvisit, hf⟩ | hall := walk_obj_cases h
  · exact absurd ⟨v, j', ⟨m, ms, k, rfl, rfl, hmem, hvisit⟩, hf⟩ hnil
  · exact hall

theorem walk_eq_self {j j' : Json} (hnone : replaced t f m j = ∅) (h : walk t f m j = .ok j') :
    j' = j := by
  induction j generalizing m j' with
  | arr xs ih =>
      obtain ⟨ys, rfl, hall⟩ := walk_arr_eq_ok.mp h
      congr 1
      refine eq_of_forall₂ hall fun i x y hx hwalk => ih x (List.mem_of_getElem? hx) ?_ hwalk
      rw [← replaced_elem hx, hnone]
      rfl
  | obj ms ih =>
      obtain ⟨ns, rfl, hall⟩ := members_of_nil_notMem (by simp [hnone]) h
      congr 1
      refine eq_of_forall₂ hall fun i a b ha hab => ?_
      obtain heq | ⟨hkey, n, hmove, hwalk⟩ := memberStep_cases hab
      · exact heq
      · refine Prod.ext hkey (ih _ (List.mem_of_getElem? ha) ?_ hwalk)
        rw [← replaced_member ha hmove, hnone]
        rfl
  | _ => exact walk_of_isPrimitive rfl h

theorem get?_walk_of_apart {j j' x : Json} {p : Path} (hget : j.get? p = some x)
    (hp : ∀ p' ∈ replaced t f m j, ¬ p' <+: p ∧ ¬ p <+: p') (h : walk t f m j = .ok j') :
    j'.get? p = some x := by
  induction p generalizing m j j' with
  | nil =>
      rw [walk_eq_self _ h]
      · exact hget
      · exact Set.eq_empty_iff_forall_notMem.mpr fun p' hp' => (hp p' hp').2 List.nil_prefix
  | cons s p ih =>
      rw [get?_cons, Option.bind_eq_some_iff] at hget
      obtain ⟨y, hy, hget⟩ := hget
      cases s with
      | elem i =>
          obtain ⟨xs, rfl, hyi⟩ := child?_elem_eq_some.mp hy
          obtain ⟨ys, rfl, hall⟩ := walk_arr_eq_ok.mp h
          obtain ⟨z, hz, hwalk⟩ := exists_getElem?_of_forall₂ hall hyi
          rw [get?_cons, child?_elem_eq_some.mpr ⟨ys, rfl, hz⟩]
          refine ih hget (fun p' hp' => ?_) hwalk
          rw [← replaced_elem hyi] at hp'
          simpa [List.prefix_cons_inj] using hp _ hp'
      | member i k =>
          obtain ⟨ms, rfl, hyi⟩ := child?_member_eq_some.mp hy
          obtain ⟨ns, rfl, hall⟩ :=
            members_of_nil_notMem (fun hnil => (hp _ hnil).1 List.nil_prefix) h
          obtain ⟨⟨l, z⟩, hz, hstep⟩ := exists_getElem?_of_forall₂ hall hyi
          obtain heq | ⟨hl, n, hmove, hwalk⟩ := memberStep_cases hstep
          · obtain ⟨rfl, rfl⟩ := Prod.mk.inj heq
            rw [get?_cons, child?_member_eq_some.mpr ⟨ns, rfl, hz⟩]
            exact hget
          · obtain rfl : l = k := hl
            rw [get?_cons, child?_member_eq_some.mpr ⟨ns, rfl, hz⟩]
            refine ih hget (fun p' hp' => ?_) hwalk
            rw [← replaced_member hyi hmove] at hp'
            simpa [List.prefix_cons_inj] using hp _ hp'

theorem replaceAt_walk_eq_num_iff {key : String} (hkey : ∀ m k, t m k = .visit → k = key)
    {g : Json → Json} {j j' : Json} (hlone : LoneKey key j)
    (hg : ∀ p v r, VisitsAt t m j p v → f v = .ok (some r) → ∀ s, g r ≠ .num s)
    (h : walk t f m j = .ok j') {s : String} :
    replaceAt g (replaced t f m j) j' = .num s ↔ j = .num s := by
  by_cases hprim : j.isPrimitive = true
  · rw [walk_of_isPrimitive hprim h, replaced_of_isPrimitive hprim, replaceAt_empty]
  · cases j with
    | arr xs =>
        obtain ⟨ys, rfl, -⟩ := walk_arr_eq_ok.mp h
        simp [replaceAt_arr (nil_notMem_replaced_arr xs)]
    | obj ms =>
        rcases walk_obj_replaced hkey hlone h with ⟨v, rfl, hvisit, hf⟩ | ⟨hnil, ns, rfl, -⟩
        · have hv : VisitsAt t m (.obj [(key, v)]) [] v :=
            ⟨m, _, key, rfl, rfl, List.mem_singleton.mpr rfl, hvisit⟩
          have hmem : [] ∈ replaced t f m (.obj [(key, v)]) := ⟨v, j', hv, hf⟩
          simp [replaceAt_of_nil_mem hmem, hg [] v j' hv hf s]
        · simp [replaceAt_obj hnil]
    | _ => simp [isPrimitive] at hprim

theorem visitsAt_singleton {k : String} {v w : Json} {p : Path} (hvisit : t m k = .visit)
    (h : VisitsAt t m (.obj [(k, v)]) p w) : p = [] ∧ w = v := by
  cases p with
  | nil =>
      obtain ⟨n, ms, l, -, hget, hmem, -⟩ := h
      obtain rfl : [(k, v)] = ms := by simpa using hget
      exact ⟨rfl, (Prod.mk.inj (List.mem_singleton.mp hmem)).2⟩
  | cons s p =>
      cases s with
      | elem i =>
          obtain ⟨xs, x, hxs, -⟩ := visitsAt_elem h
          simp at hxs
      | member i l =>
          obtain ⟨ms, x, n, hms, hx, hmove, -⟩ := visitsAt_member h
          obtain rfl := Json.obj.inj hms
          obtain ⟨rfl, -⟩ : l = k ∧ _ := by
            rcases List.mem_singleton.mp (List.mem_of_getElem? hx) with h
            exact Prod.mk.inj h
          simp [hvisit] at hmove

theorem isNumberUnder_eq_true {drop k : String} {v : Json} :
    isNumberUnder drop (k, v) = true ↔ k = drop ∧ ∃ s, v = .num s := by
  cases v <;> simp [isNumberUnder]

/-- The case of one member in the theorem below, in which `hwalk` is the induction
hypothesis. -/
theorem dropNumbers_replaceAt_member {key k : String} (drop : String)
    (hkey : ∀ m k, t m k = .visit → k = key) {g : Json → Json}
    {ms : List (String × Json)} {i : Nat} {x y : Json} (hx : ms[i]? = some (k, x))
    (hlone : LoneKey key x)
    (hg : ∀ n, t m k = .enter n → ∀ p v r, VisitsAt t n x p v → f v = .ok (some r) →
      ∀ s, g r ≠ .num s)
    (hstep : MemberStep t f m (k, x) (k, y))
    (hwalk : ∀ n, t m k = .enter n → walk t f n x = .ok y →
      (dropNumbers drop (replaceAt g (replaced t f n x) y) = dropNumbers drop x ↔
        RestoredBy t f g key drop n x)) :
    isNumberUnder drop (k, x) = isNumberUnder drop
        (k, replaceAt g {p | .member i k :: p ∈ replaced t f m (.obj ms)} y) ∧
      ((isNumberUnder drop (k, x) = true ∨ dropNumbers drop x =
          dropNumbers drop (replaceAt g {p | .member i k :: p ∈ replaced t f m (.obj ms)} y)) ↔
        ∀ n, t m k = .enter n → RestoredBy t f g key drop n x) := by
  have hsame : (∀ n, t m k ≠ .enter n) → y = x := by
    intro hne
    obtain heq | ⟨-, n, hmove, -⟩ := memberStep_cases hstep
    · exact (Prod.mk.inj heq).2
    · exact absurd hmove (hne n)
  by_cases henter : ∃ n, t m k = .enter n
  · obtain ⟨n, hmove⟩ := henter
    have hy : walk t f n x = .ok y := by
      obtain ⟨-, hstep⟩ := hstep
      rw [hmove] at hstep
      exact hstep
    rw [replaced_member hx hmove]
    constructor
    · rw [Bool.eq_iff_iff, isNumberUnder_eq_true, isNumberUnder_eq_true]
      simp only [replaceAt_walk_eq_num_iff hkey hlone (hg n hmove) hy]
    · constructor
      · intro h n' hmove'
        obtain rfl := Move.enter.inj (hmove.symm.trans hmove')
        rcases h with hnum | heq
        · obtain ⟨-, s, rfl⟩ := isNumberUnder_eq_true.mp hnum
          exact restoredBy_of_isPrimitive rfl
        · exact (hwalk n hmove hy).mp heq.symm
      · intro h
        exact .inr ((hwalk n hmove hy).mpr (h n hmove)).symm
  · have hne : ∀ n, t m k ≠ .enter n := fun n hn => henter ⟨n, hn⟩
    rw [replaced_member_of_not_enter hne, replaceAt_empty, hsame hne]
    exact ⟨rfl, iff_of_true (.inr rfl) fun n hn => absurd hn (hne n)⟩

theorem dropNumbersMembers_replaceMembers_iff {drop : String} {g : Json → Json} {ps : Set Path}
    {ms ns : List (String × Json)} {P : String × Json → Prop} (hlen : ms.length = ns.length)
    (hmember : ∀ (i : Nat) (a b : String × Json), ms[i]? = some a → ns[i]? = some b →
      (a.1 = b.1 ∧ isNumberUnder drop a = isNumberUnder drop
        (b.1, replaceAt g {p | .member i b.1 :: p ∈ ps} b.2)) ∧
      ((isNumberUnder drop a = true ∨ dropNumbers drop a.2 = dropNumbers drop
        (replaceAt g {p | .member i b.1 :: p ∈ ps} b.2)) ↔ P a)) :
    dropNumbersMembers drop ms = dropNumbersMembers drop (replaceMembers g ps 0 ns) ↔
      ∀ (i : Nat) (a : String × Json), ms[i]? = some a → P a := by
  have hget : ∀ (i : Nat) (hi : i < ns.length) (hi' : i < (replaceMembers g ps 0 ns).length),
      (replaceMembers g ps 0 ns).get ⟨i, hi'⟩ =
        (ns[i].1, replaceAt g {p | .member i ns[i].1 :: p ∈ ps} ns[i].2) := by
    intro i hi hi'
    apply Option.some.inj
    rw [List.get_eq_getElem, ← List.getElem?_eq_getElem, getElem?_replaceMembers,
      List.getElem?_eq_getElem hi, Nat.zero_add]
    rfl
  have hat : ∀ (i : Nat) (hi : i < ms.length) (hi' : i < ns.length), _ :=
    fun i hi hi' => hmember i ms[i] ns[i] (List.getElem?_eq_getElem hi)
      (List.getElem?_eq_getElem hi')
  rw [dropNumbersMembers_eq_iff, List.forall₂_iff_get]
  · constructor
    · rintro ⟨-, hagree⟩ i a ha
      obtain ⟨hi, rfl⟩ := List.getElem?_eq_some_iff.mp ha
      have hi' : i < ns.length := hlen ▸ hi
      have hagree := hagree i hi (by rw [length_replaceMembers]; exact hi')
      rw [hget i hi', List.get_eq_getElem] at hagree
      exact (hat i hi hi').2.mp hagree
    · intro hall
      refine ⟨by rw [length_replaceMembers, hlen], fun i hi hir => ?_⟩
      have hi' : i < ns.length := hlen ▸ hi
      rw [hget i hi', List.get_eq_getElem]
      exact (hat i hi hi').2.mpr (hall i ms[i] (List.getElem?_eq_getElem hi))
  · rw [List.forall₂_iff_get]
    refine ⟨by rw [length_replaceMembers, hlen], fun i hi hir => ?_⟩
    have hi' : i < ns.length := hlen ▸ hi
    rw [hget i hi', List.get_eq_getElem]
    exact (hat i hi hi').1

/-- Restoring what a traversal has replaced gives back the value it was started on, up to
the dropped numbers, exactly when each replaced object is restored. -/
theorem dropNumbers_replaceAt_walk {key drop : String}
    (hkey : ∀ m k, t m k = .visit → k = key) {g : Json → Json} {j j' : Json}
    (hlone : LoneKey key j)
    (hg : ∀ p v r, VisitsAt t m j p v → f v = .ok (some r) → ∀ s, g r ≠ .num s)
    (h : walk t f m j = .ok j') :
    dropNumbers drop (replaceAt g (replaced t f m j) j') = dropNumbers drop j ↔
      RestoredBy t f g key drop m j := by
  induction j generalizing m j' with
  | arr xs ih =>
      obtain ⟨ys, rfl, hall⟩ := walk_arr_eq_ok.mp h
      obtain ⟨hlen, hsteps⟩ := List.forall₂_iff_get.mp hall
      rw [replaceAt_arr (nil_notMem_replaced_arr xs), restoredBy_arr, dropNumbers, dropNumbers,
        Json.arr.injEq, List.ext_getElem?_iff]
      refine forall_congr' fun i => ?_
      rw [getElem?_dropNumbersElems, getElem?_replaceElems, getElem?_dropNumbersElems, Nat.zero_add]
      by_cases hi : i < xs.length
      · have hx : xs[i]? = some xs[i] := List.getElem?_eq_getElem hi
        rw [replaced_elem hx, hx, List.getElem?_eq_getElem (hlen ▸ hi)]
        have helem := ih xs[i] (List.getElem_mem hi) (hlone.child (s := .elem i) hx)
          (fun p v r hv => hg (.elem i :: p) v r (hv.elem hx)) (hsteps i hi (hlen ▸ hi))
        simpa using helem
      · have hi' : ¬ i < ys.length := hlen ▸ hi
        simp [List.getElem?_eq_none (Nat.le_of_not_lt hi),
          List.getElem?_eq_none (Nat.le_of_not_lt hi')]
  | obj ms ih =>
      rcases walk_obj_replaced hkey hlone h with ⟨v, rfl, hvisit, hf⟩ | ⟨hnil, ns, rfl, hall⟩
      · have hv : VisitsAt t m (.obj [(key, v)]) [] v :=
          ⟨m, _, key, rfl, rfl, List.mem_singleton.mpr rfl, hvisit⟩
        have hmem : [] ∈ replaced t f m (.obj [(key, v)]) := ⟨v, j', hv, hf⟩
        rw [replaceAt_of_nil_mem hmem]
        constructor
        · intro heq p w r hw hfw
          obtain ⟨rfl, rfl⟩ := visitsAt_singleton hvisit hw
          obtain rfl := Option.some.inj (Except.ok.inj (hf.symm.trans hfw))
          exact heq
        · intro hrestored
          exact hrestored [] v j' hv hf
      · rw [replaceAt_obj hnil, restoredBy_obj_of_nil_notMem hnil, dropNumbers, dropNumbers,
          Json.obj.injEq, eq_comm]
        rw [dropNumbersMembers_replaceMembers_iff hall.length_eq
          (P := fun a => ∀ n, t m a.1 = .enter n → RestoredBy t f g key drop n a.2)]
        · constructor
          · intro hrestored i k x n hx hmove
            exact hrestored i (k, x) hx n hmove
          · rintro hrestored i ⟨k, x⟩ hx n hmove
            exact hrestored i k x n hx hmove
        · rintro i ⟨k, x⟩ b hx hb
          obtain ⟨⟨l, y⟩, hy, hstep⟩ := exists_getElem?_of_forall₂ hall hx
          obtain rfl : (l, y) = b := Option.some.inj (hy.symm.trans hb)
          obtain rfl : l = k := hstep.1
          have hchild : (Json.obj ms).child? (.member i l) = some x :=
            child?_member_eq_some.mpr ⟨ms, rfl, hx⟩
          have h := dropNumbers_replaceAt_member drop hkey hx (hlone.child hchild)
            (fun n hmove p v r hv => hg (.member i l :: p) v r (hv.member hx hmove)) hstep
            (fun n hmove hwalk => ih (l, x) (List.mem_of_getElem? hx) (hlone.child hchild)
              (fun p v r hv => hg (.member i l :: p) v r (hv.member hx hmove)) hwalk)
          exact ⟨⟨rfl, h.1⟩, h.2⟩
  | _ =>
      rw [walk_of_isPrimitive rfl h, replaced_of_isPrimitive rfl, replaceAt_empty]
      exact iff_of_true rfl (restoredBy_of_isPrimitive rfl)

theorem isNumberUnder_walk {drop k : String} {v v' : Json}
    (hnum : ∀ v r, f v = .ok (some r) → ∀ s, r ≠ .num s) (h : walk t f m v = .ok v') :
    isNumberUnder drop (k, v') = isNumberUnder drop (k, v) := by
  cases v with
  | arr xs =>
      obtain ⟨ys, rfl, -⟩ := walk_arr_eq_ok.mp h
      rfl
  | obj ms =>
      rw [walk, map_eq_ok] at h
      obtain ⟨r | ns, hr, rfl⟩ := h
      · obtain ⟨k, w, -, -, hw⟩ := walkMembers_eq_inl hr
        cases r with
        | num s => exact absurd rfl (hnum w _ hw s)
        | _ => rfl
      · rfl
  | _ =>
      obtain rfl := Except.ok.inj h
      rfl

theorem map_dropNumbers_cons (drop k : String) (v : Json)
    (o : Except ε (Json ⊕ List (String × Json))) :
    (o.map (Sum.map id ((k, v) :: ·))).map (Sum.map (dropNumbers drop) (dropNumbersMembers drop)) =
      if isNumberUnder drop (k, v) then
        o.map (Sum.map (dropNumbers drop) (dropNumbersMembers drop))
      else
        (o.map (Sum.map (dropNumbers drop) (dropNumbersMembers drop))).map
          (Sum.map id ((k, dropNumbers drop v) :: ·)) := by
  rcases o with e | r | ns
  · split <;> rfl
  · split <;> rfl
  · refine (congrArg (Except.ok ∘ Sum.inr) (dropNumbersMembers.eq_2 drop k v ns)).trans ?_
    split <;> rfl

/-- The visitor `f`, in whose answers the numbers are left out as well. -/
def dropping (drop : String) (f : Json → Except ε (Option Json)) (v : Json) :
    Except ε (Option Json) :=
  (f v).map (Option.map (dropNumbers drop))

mutual

/-- Whether numbers that no visit comes to are left out before a traversal or after it makes no
difference. -/
theorem map_dropNumbers_walk {drop : String} (hdrop : ∀ m, t m drop ≠ .visit)
    (hf : ∀ v, f (dropNumbers drop v) = f v)
    (hnum : ∀ v r, f v = .ok (some r) → ∀ s, r ≠ .num s) : ∀ (m : M) (j : Json),
    (walk t f m j).map (dropNumbers drop) = walk t (dropping drop f) m (dropNumbers drop j)
  | m, .arr xs => by
      rw [dropNumbers, walk, walk, ← map_dropNumbers_walkElems hdrop hf hnum m xs]
      cases walkElems t f m xs <;> rfl
  | m, .obj ms => by
      rw [dropNumbers, walk, walk, ← map_dropNumbers_walkMembers hdrop hf hnum m ms]
      cases walkMembers t f m ms with
      | error e => rfl
      | ok o => cases o <;> rfl
  | _, .null => rfl
  | _, .bool _ => rfl
  | _, .num _ => rfl
  | _, .str _ => rfl

theorem map_dropNumbers_walkElems {drop : String} (hdrop : ∀ m, t m drop ≠ .visit)
    (hf : ∀ v, f (dropNumbers drop v) = f v)
    (hnum : ∀ v r, f v = .ok (some r) → ∀ s, r ≠ .num s) : ∀ (m : M) (xs : List Json),
    (walkElems t f m xs).map (dropNumbersElems drop) =
      walkElems t (dropping drop f) m (dropNumbersElems drop xs)
  | _, [] => rfl
  | m, x :: xs => by
      rw [dropNumbersElems, walkElems, walkElems, ← map_dropNumbers_walk hdrop hf hnum m x,
        ← map_dropNumbers_walkElems hdrop hf hnum m xs]
      cases walk t f m x with
      | error e => rfl
      | ok y => cases walkElems t f m xs <;> rfl

theorem map_dropNumbers_walkMembers {drop : String} (hdrop : ∀ m, t m drop ≠ .visit)
    (hf : ∀ v, f (dropNumbers drop v) = f v)
    (hnum : ∀ v r, f v = .ok (some r) → ∀ s, r ≠ .num s) :
    ∀ (m : M) (ms : List (String × Json)),
    (walkMembers t f m ms).map (Sum.map (dropNumbers drop) (dropNumbersMembers drop)) =
      walkMembers t (dropping drop f) m (dropNumbersMembers drop ms)
  | _, [] => rfl
  | m, (k, v) :: ms => by
      have hrest := map_dropNumbers_walkMembers hdrop hf hnum m ms
      rw [dropNumbersMembers, walkMembers]
      cases hmove : t m k with
      | skip =>
          simp only [map_dropNumbers_cons, hrest]
          split
          · rfl
          · rw [walkMembers, hmove]
      | enter n =>
          have hv := map_dropNumbers_walk hdrop hf hnum n v
          cases hwalk : walk t f n v with
          | error e =>
              rw [hwalk] at hv
              have hnumber : ¬ isNumberUnder drop (k, v) = true := by
                intro hnumber
                obtain ⟨-, s, rfl⟩ := isNumberUnder_eq_true.mp hnumber
                exact absurd hwalk (by simp [walk])
              rw [if_neg hnumber, walkMembers, hmove]
              simp only [hwalk, ← hv]
              rfl
          | ok v' =>
              rw [hwalk] at hv
              simp only [hwalk]
              show ((walkMembers t f m ms).map (Sum.map id ((k, v') :: ·))).map _ = _
              rw [map_dropNumbers_cons, isNumberUnder_walk hnum hwalk, hrest]
              split
              · rfl
              · rw [walkMembers, hmove]
                simp only [← hv]
                rfl
      | visit =>
          have hnumber : ¬ isNumberUnder drop (k, v) = true := by
            intro hnumber
            obtain ⟨rfl, -⟩ := isNumberUnder_eq_true.mp hnumber
            exact hdrop m hmove
          rw [if_neg hnumber, walkMembers, hmove]
          simp only [dropping, hf]
          cases f v with
          | error e => rfl
          | ok o =>
              cases o with
              | some r => rfl
              | none =>
                  show ((walkMembers t f m ms).map (Sum.map id ((k, v) :: ·))).map _ = _
                  rw [map_dropNumbers_cons, if_neg hnumber, hrest]
                  rfl

end

end Walk

end PgFort.Replacement
