import PgFort.JsonAccess

/-!
What an access through references yields: the value that stands at the first key that is
looked for, and what is read below it. What such an access inserts is of no account.
-/

namespace PgFort.FieldReads

open PgFort.JsonTree
open PgFort.JsonTree.Json
open PgFort.JsonAccess
open PgFort.KeyedTraversal

mutual

/-- All values under a key, in document order. -/
def valuesUnder (key : String) : Json → List Json
  | .arr xs => valuesUnderElems key xs
  | .obj ms => valuesUnderMembers key ms
  | _ => []

def valuesUnderElems (key : String) : List Json → List Json
  | [] => []
  | x :: xs => valuesUnder key x ++ valuesUnderElems key xs

def valuesUnderMembers (key : String) : List (String × Json) → List Json
  | [] => []
  | (k, v) :: ms =>
      (if k = key then [v] else []) ++ (valuesUnder key v ++ valuesUnderMembers key ms)

end

/-- No object has two members of one name. -/
def Distinct (j : Json) : Prop :=
  Everywhere (fun ms => (ms.map Prod.fst).Nodup) j

section Find

variable (key : String)

/-- A search either meets the first of the values, or there is none. -/
def Meets (j : Json) (found : Option Path) (values : List Json) : Prop :=
  match found with
  | none => values = []
  | some p => ∃ v vs, j.get? p = some v ∧ values = v :: vs

theorem meets_findElem {pre xs : List Json}
    (ih : ∀ x ∈ xs, Meets x (findNode key x) (valuesUnder key x)) :
    Meets (.arr (pre ++ xs)) (findElem key pre.length xs) (valuesUnderElems key xs) := by
  induction xs generalizing pre with
  | nil => rfl
  | cons x xs ihxs =>
      have hx := ih x List.mem_cons_self
      have hrest := @ihxs (pre ++ [x]) fun y hy => ih y (List.mem_cons_of_mem _ hy)
      rw [List.append_assoc, List.singleton_append, List.length_append, List.length_singleton] at hrest
      rw [findElem, valuesUnderElems]
      cases hfind : findNode key x with
      | none =>
          rw [hfind] at hx
          rw [show valuesUnder key x = [] from hx, List.nil_append]
          exact hrest
      | some p =>
          rw [hfind] at hx
          obtain ⟨v, vs, hget, hvalues⟩ := hx
          refine ⟨v, vs ++ valuesUnderElems key xs, ?_, by rw [hvalues, List.cons_append]⟩
          rw [get?_cons, child?]
          simpa using hget

theorem meets_findMember {pre ms : List (String × Json)}
    (ih : ∀ m ∈ ms, Meets m.2 (findNode key m.2) (valuesUnder key m.2)) :
    Meets (.obj (pre ++ ms)) (findMember key pre.length ms) (valuesUnderMembers key ms) := by
  induction ms generalizing pre with
  | nil => rfl
  | cons m ms ihms =>
      obtain ⟨k, w⟩ := m
      have hm := ih (k, w) List.mem_cons_self
      have hrest := @ihms (pre ++ [(k, w)]) fun y hy => ih y (List.mem_cons_of_mem _ hy)
      rw [List.append_assoc, List.singleton_append, List.length_append, List.length_singleton] at hrest
      have hget : ∀ q, (Json.obj (pre ++ (k, w) :: ms)).get? (.member pre.length k :: q) = w.get? q := by
        intro q
        rw [get?_cons, child?]
        simp
      rw [findMember, valuesUnderMembers]
      split
      · exact ⟨w, valuesUnder key w ++ valuesUnderMembers key ms, hget [], rfl⟩
      · cases hfind : findNode key w with
        | none =>
            rw [hfind] at hm
            rw [show valuesUnder key w = [] from hm, List.nil_append, List.nil_append]
            exact hrest
        | some p =>
            rw [hfind] at hm
            obtain ⟨v, vs, hv, hvalues⟩ := hm
            refine ⟨v, vs ++ valuesUnderMembers key ms, ?_, ?_⟩
            · rw [hget, hv]
            · rw [show valuesUnder key w = v :: vs from hvalues, List.nil_append, List.cons_append]

theorem meets_findNode (j : Json) : Meets j (findNode key j) (valuesUnder key j) := by
  induction j with
  | arr xs ih => exact @meets_findElem key [] xs ih
  | obj ms ih => exact @meets_findMember key [] ms ih
  | _ => rfl

variable {key}

theorem valuesUnder_of_findNode_none {j : Json} (h : findNode key j = none) :
    valuesUnder key j = [] := by
  have hmeets := meets_findNode key j
  rw [h] at hmeets
  exact hmeets

theorem exists_of_findNode {j : Json} {p : Path} (h : findNode key j = some p) :
    ∃ v vs, j.get? p = some v ∧ valuesUnder key j = v :: vs := by
  have hmeets := meets_findNode key j
  rw [h] at hmeets
  exact hmeets

end Find

/-- What an access yields, without what it leaves in the tree. -/
def yield {α : Type} (x : Access α) (j : Json) : Except Error α := (x j).map Prod.fst

section Yield

variable {α β : Type} {x : Access α} {key : String} {ms : List (String × Json)}

theorem lookup_of_getElem? {i : Nat} {v : Json} (hdistinct : (ms.map Prod.fst).Nodup)
    (h : ms[i]? = some (key, v)) : ms.lookup key = some v := by
  induction ms generalizing i with
  | nil => simp at h
  | cons m ms ih =>
      rw [List.map_cons, List.nodup_cons] at hdistinct
      cases i with
      | zero =>
          rw [List.getElem?_cons_zero] at h
          obtain rfl := Option.some.inj h
          exact List.lookup_cons_self
      | succ i =>
          rw [List.getElem?_cons_succ] at h
          have hne : key ≠ m.1 := by
            rintro rfl
            exact hdistinct.1 (List.mem_map.mpr ⟨_, List.mem_of_getElem? h, rfl⟩)
          obtain ⟨k, w⟩ := m
          rw [List.lookup_cons, beq_false_of_ne hne]
          exact ih hdistinct.2 h

theorem yield_atKey_obj : yield (atKey key x) (.obj ms) = yield x ((ms.lookup key).getD .null) := by
  rw [yield, yield, atKey]
  cases x ((ms.lookup key).getD .null) <;> rfl

theorem yield_atKey_null : yield (atKey key x) .null = yield x .null := by
  rw [yield, yield, atKey]
  cases x .null <;> rfl

theorem yield_atIndex {i : Nat} {xs : List Json} {v : Json} (h : xs[i]? = some v) :
    yield (atIndex i x) (.arr xs) = yield x v := by
  obtain ⟨hi, rfl⟩ := List.getElem?_eq_some_iff.mp h
  rw [yield, yield, atIndex, Nat.sub_eq_zero_of_le (by omega : i + 1 ≤ xs.length),
    List.replicate_zero, List.append_nil, List.getD_eq_getElem?_getD, h, Option.getD_some]
  cases x xs[i] <;> rfl

theorem yield_atPath {j v : Json} {p : Path} (hdistinct : Distinct j) (h : j.get? p = some v) :
    yield (atPath p x) j = yield x v := by
  induction p generalizing j with
  | nil =>
      obtain rfl : j = v := by simpa using h
      rfl
  | cons s p ih =>
      rw [get?_cons, Option.bind_eq_some_iff] at h
      obtain ⟨w, hw, hv⟩ := h
      have hw' : Distinct w := by
        refine Everywhere.get? hdistinct (p := [s]) ?_
        rw [get?_cons, hw]
        rfl
      cases s with
      | elem i =>
          obtain ⟨xs, rfl, hget⟩ := child?_elem_eq_some.mp hw
          exact (yield_atIndex hget).trans (ih hw' hv)
      | member i k =>
          obtain ⟨ms, rfl, hget⟩ := child?_member_eq_some.mp hw
          refine yield_atKey_obj.trans ?_
          rw [lookup_of_getElem? (hdistinct [] ms rfl) hget]
          exact ih hw' hv

theorem lookup_replaceMember_of_ne {k : String} {v : Json} (hne : key ≠ k) :
    (replaceMember k v ms).lookup key = ms.lookup key := by
  induction ms with
  | nil => rfl
  | cons m ms ih =>
      obtain ⟨l, w⟩ := m
      rw [replaceMember]
      split
      · rename_i heq
        subst heq
        rw [List.lookup_cons, List.lookup_cons, beq_false_of_ne hne]
      · rw [List.lookup_cons, List.lookup_cons, ih]

theorem lookup_insertMember_of_ne {k : String} {v : Json} (hne : key ≠ k) :
    (insertMember k v ms).lookup key = ms.lookup key := by
  induction ms with
  | nil => rw [insertMember, List.lookup_cons, beq_false_of_ne hne]
  | cons m ms ih =>
      obtain ⟨l, w⟩ := m
      rw [insertMember]
      split
      · rw [List.lookup_cons, beq_false_of_ne hne]
      · rw [List.lookup_cons, List.lookup_cons, ih]

theorem lookup_setMember_of_ne {k : String} {v : Json} (hne : key ≠ k) :
    (setMember k v ms).lookup key = ms.lookup key := by
  rw [setMember]
  split
  · exact lookup_replaceMember_of_ne hne
  · exact lookup_insertMember_of_ne hne

theorem yield_bind {y : α → Access β} {j : Json} {a : α} {r : Except Error β}
    (hx : yield x j = .ok a) (h : ∀ j', x j = .ok (a, j') → yield (y a) j' = r) :
    yield (x >>= y) j = r := by
  obtain ⟨⟨b, j'⟩, hb, hba⟩ := map_eq_ok.mp hx
  obtain rfl : b = a := hba
  rw [← h j' hb]
  show ((x j >>= fun c => y c.1 c.2).map Prod.fst) = _
  rw [hb]
  rfl

end Yield

/-- The access leaves an object an object, with the member of this name as it was. -/
def Keeps {α : Type} (key : String) (x : Access α) : Prop :=
  ∀ ms a j, x (.obj ms) = .ok (a, j) → ∃ ns, j = .obj ns ∧ ns.lookup key = ms.lookup key

section Keeps

variable {α β : Type} {x : Access α} {key : String}

theorem keeps_atKey {k : String} (hne : key ≠ k) : Keeps key (atKey k x) := by
  intro ms a j h
  rw [atKey] at h
  obtain ⟨⟨b, v⟩, -, h⟩ := bind_eq_ok.mp h
  obtain ⟨-, rfl⟩ := Prod.mk.inj (Except.ok.inj h)
  exact ⟨_, rfl, lookup_setMember_of_ne hne⟩

theorem keeps_pure {a : α} : Keeps key (pure a : Access α) := by
  intro ms b j h
  obtain ⟨-, rfl⟩ := Prod.mk.inj (Except.ok.inj h)
  exact ⟨ms, rfl, rfl⟩

theorem Keeps.bind {y : α → Access β} (hx : Keeps key x) (hy : ∀ a, Keeps key (y a)) :
    Keeps key (x >>= y) := by
  intro ms b j h
  obtain ⟨⟨a, v⟩, hv, h⟩ := bind_eq_ok.mp h
  obtain ⟨ns, rfl, hns⟩ := hx _ _ _ hv
  obtain ⟨ks, rfl, hks⟩ := hy a _ _ _ h
  exact ⟨ks, rfl, hks.trans hns⟩

end Keeps

theorem strict_equals (s : String) : Strict (fun b => b = true) (equals s) := by
  intro j b j' h hb
  obtain ⟨rfl, rfl⟩ := Prod.mk.inj (Except.ok.inj h)
  obtain rfl := of_decide_eq_true hb
  exact ⟨rfl, by simp⟩

/-- A member that is a list, and is left out where the list is empty. -/
def ListField {α : Type} (item : Json → α → Prop) (key : String) (ms : List (String × Json))
    (items : List α) : Prop :=
  items = [] ∧ ms.lookup key = none ∨
    ∃ xs, ms.lookup key = some (.arr xs) ∧ List.Forall₂ item xs items

section Loop

variable {α σ : Type} {item : Json → α → Prop} {body : σ → Access σ} {step : σ → α → σ}

theorem fst_forElems (hstep : ∀ s x a, item x a → yield (body s) x = .ok (step s a))
    {xs : List Json} {items : List α} (h : List.Forall₂ item xs items) (s : σ) :
    (forElems body s xs).map Prod.fst = .ok (items.foldl step s) := by
  induction h generalizing s with
  | nil => rfl
  | cons hitem hitems ih =>
      rename_i x a xs items
      obtain ⟨⟨s', y⟩, hbody, hs'⟩ := map_eq_ok.mp (hstep s x a hitem)
      obtain rfl : s' = step s a := hs'
      obtain ⟨⟨t, ys⟩, hrest, ht⟩ := map_eq_ok.mp (ih (step s a))
      obtain rfl : t = items.foldl step (step s a) := ht
      rw [forElems, hbody]
      show ((forElems body (step s a) xs >>= fun r => .ok (r.1, y :: r.2)).map Prod.fst) = _
      rw [hrest]
      rfl

theorem yield_forItems (hstep : ∀ s x a, item x a → yield (body s) x = .ok (step s a))
    {key : String} {ms : List (String × Json)} {items : List α} (h : ListField item key ms items)
    (s : σ) : yield (forItems body s) ((ms.lookup key).getD .null) = .ok (items.foldl step s) := by
  obtain ⟨rfl, hnone⟩ | ⟨xs, hsome, hitems⟩ := h
  · rw [hnone]
    rfl
  · obtain ⟨⟨t, ys⟩, hloop, ht⟩ := map_eq_ok.mp (fst_forElems hstep hitems s)
    obtain rfl : t = items.foldl step s := ht
    rw [hsome, Option.getD_some, yield, forItems, hloop]
    rfl

end Loop

section Insertions

variable {α : Type} {key : String} {v w : Json}

theorem mem_setMember (key : String) (v : Json) (ms : List (String × Json)) :
    (key, v) ∈ setMember key v ms := by
  rw [setMember]
  split
  · rename_i hfound
    induction ms with
    | nil => cases hfound
    | cons m ms ih =>
        obtain ⟨k, w⟩ := m
        rw [replaceMember]
        split
        · rename_i hkey
          exact hkey ▸ List.mem_cons_self
        · rename_i hkey
          rw [List.lookup_cons, beq_false_of_ne hkey] at hfound
          exact List.mem_cons_of_mem _ (ih hfound)
  · clear * -
    induction ms with
    | nil => exact List.mem_cons_self
    | cons m ms ih =>
        obtain ⟨k, w⟩ := m
        rw [insertMember]
        split
        · exact List.mem_cons_self
        · exact List.mem_cons_of_mem _ ih

theorem mem_valuesUnderMembers {ms : List (String × Json)} (h : (key, v) ∈ ms) :
    v ∈ valuesUnderMembers key ms := by
  induction ms with
  | nil => exact absurd h List.not_mem_nil
  | cons m ms ih =>
      obtain ⟨k, u⟩ := m
      rw [valuesUnderMembers, List.mem_append, List.mem_append]
      rcases List.mem_cons.mp h with heq | hrest
      · obtain ⟨rfl, rfl⟩ := Prod.mk.inj heq
        exact .inl (by rw [if_pos rfl]; exact List.mem_cons_self)
      · exact .inr (.inr (ih hrest))

theorem mem_valuesUnderMembers_of_mem {k : String} {ms : List (String × Json)} (h : (k, v) ∈ ms)
    (hw : w ∈ valuesUnder key v) : w ∈ valuesUnderMembers key ms := by
  induction ms with
  | nil => exact absurd h List.not_mem_nil
  | cons m ms ih =>
      rw [valuesUnderMembers, List.mem_append, List.mem_append]
      rcases List.mem_cons.mp h with rfl | hrest
      · exact .inr (.inl hw)
      · exact .inr (.inr (ih hrest))

theorem mem_valuesUnderElems_of_mem {xs : List Json} (h : v ∈ xs) (hw : w ∈ valuesUnder key v) :
    w ∈ valuesUnderElems key xs := by
  induction xs with
  | nil => exact absurd h List.not_mem_nil
  | cons x xs ih =>
      rw [valuesUnderElems, List.mem_append]
      rcases List.mem_cons.mp h with rfl | hrest
      · exact .inl hw
      · exact .inr (ih hrest)

theorem exists_mem_valuesUnder {p : Path} {x : Access α} {j j' : Json} {a : α}
    (h : atPath p (atKey key x) j = .ok (a, j')) : ∃ w, w ∈ valuesUnder key j' := by
  induction p generalizing j j' a with
  | nil =>
      cases j with
      | null =>
          obtain ⟨⟨_, v⟩, -, hj'⟩ := bind_eq_ok.mp h
          obtain ⟨-, rfl⟩ := Prod.mk.inj (Except.ok.inj hj')
          exact ⟨v, mem_valuesUnderMembers List.mem_cons_self⟩
      | obj ms =>
          obtain ⟨⟨_, v⟩, -, hj'⟩ := bind_eq_ok.mp h
          obtain ⟨-, rfl⟩ := Prod.mk.inj (Except.ok.inj hj')
          exact ⟨v, mem_valuesUnderMembers (mem_setMember key v ms)⟩
      | _ => exact nomatch h
  | cons s p ih =>
      cases s with
      | elem i =>
          cases j with
          | null =>
              obtain ⟨⟨b, v⟩, hv, hj'⟩ := bind_eq_ok.mp h
              obtain ⟨-, rfl⟩ := Prod.mk.inj (Except.ok.inj hj')
              obtain ⟨w, hw⟩ := ih hv
              exact ⟨w, mem_valuesUnderElems_of_mem
                (List.mem_append_right _ List.mem_cons_self) hw⟩
          | arr xs =>
              obtain ⟨⟨b, v⟩, hv, hj'⟩ := bind_eq_ok.mp h
              obtain ⟨-, rfl⟩ := Prod.mk.inj (Except.ok.inj hj')
              obtain ⟨w, hw⟩ := ih hv
              refine ⟨w, mem_valuesUnderElems_of_mem (List.mem_set ?_ v) hw⟩
              rw [List.length_append, List.length_replicate]
              omega
          | _ => exact nomatch h
      | member i k =>
          cases j with
          | null =>
              obtain ⟨⟨b, v⟩, hv, hj'⟩ := bind_eq_ok.mp h
              obtain ⟨-, rfl⟩ := Prod.mk.inj (Except.ok.inj hj')
              obtain ⟨w, hw⟩ := ih hv
              exact ⟨w, mem_valuesUnderMembers_of_mem List.mem_cons_self hw⟩
          | obj ms =>
              obtain ⟨⟨b, v⟩, hv, hj'⟩ := bind_eq_ok.mp h
              obtain ⟨-, rfl⟩ := Prod.mk.inj (Except.ok.inj hj')
              obtain ⟨w, hw⟩ := ih hv
              exact ⟨w, mem_valuesUnderMembers_of_mem (mem_setMember k v ms) hw⟩
          | _ => exact nomatch h

end Insertions

end PgFort.FieldReads
