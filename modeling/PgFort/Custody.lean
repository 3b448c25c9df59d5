import Mathlib.Data.List.Nodup
import Mathlib.Data.List.Perm.Basic

namespace PgFort.Custody

variable {ι κ : Type}

/-- Each item is in one keeping only, and there only once. -/
structure Exclusive (c : κ → List ι) : Prop where
  once : ∀ k, (c k).Nodup
  one : ∀ k k' i, i ∈ c k → i ∈ c k' → k = k'

/-- Some keeping has the item. -/
def Held (c : κ → List ι) (i : ι) : Prop :=
  ∃ k, i ∈ c k

/-- An item goes from one keeping to another. -/
structure Moves (c c' : κ → List ι) (i : ι) (k k' : κ) : Prop where
  ne : k ≠ k'
  taken : (c k).Perm (i :: c' k)
  given : (c' k').Perm (i :: c k')
  others : ∀ j, j ≠ k → j ≠ k' → c' j = c j

/-- A new item comes into a keeping. -/
structure Enters (c c' : κ → List ι) (i : ι) (k : κ) : Prop where
  fresh : ¬Held c i
  given : (c' k).Perm (i :: c k)
  others : ∀ j, j ≠ k → c' j = c j

variable {c c' : κ → List ι} {i x : ι} {j k k' : κ}

theorem exclusive_empty : Exclusive fun _ : κ => ([] : List ι) :=
  ⟨fun _ => List.nodup_nil, fun _ _ _ h _ => absurd h List.not_mem_nil⟩

theorem Exclusive.exists_unique (h : Exclusive c) (hx : Held c x) : ∃! k, x ∈ c k := by
  obtain ⟨k, hk⟩ := hx
  exact ⟨k, hk, fun k' hk' => h.one k' k x hk' hk⟩

theorem Exclusive.count_le_one [DecidableEq ι] (h : Exclusive c) (k : κ) (x : ι) :
    (c k).count x ≤ 1 :=
  List.nodup_iff_count_le_one.mp (h.once k) x

theorem Moves.mem_iff (hmoves : Moves c c' i k k') (h : Exclusive c) :
    x ∈ c' j ↔ x = i ∧ j = k' ∨ x ≠ i ∧ x ∈ c j := by
  have hnodup := hmoves.taken.nodup_iff.mp (h.once k)
  have hleft : i ∉ c' k := (List.nodup_cons.mp hnodup).1
  have hsource : i ∈ c k := hmoves.taken.mem_iff.mpr List.mem_cons_self
  by_cases htarget : j = k'
  · subst htarget
    rw [hmoves.given.mem_iff, List.mem_cons]
    by_cases hx : x = i
    · simp [hx]
    · simp [hx]
  · have hiff : x ∈ c' j ↔ x ≠ i ∧ x ∈ c j := by
      by_cases hfrom : j = k
      · subst hfrom
        rw [hmoves.taken.mem_iff, List.mem_cons]
        constructor
        · intro hx
          exact ⟨fun heq => hleft (heq ▸ hx), .inr hx⟩
        · rintro ⟨hne, hx⟩
          exact hx.resolve_left hne
      · rw [hmoves.others j hfrom htarget]
        constructor
        · intro hx
          refine ⟨?_, hx⟩
          rintro rfl
          exact hfrom (h.one j k x hx hsource)
        · rintro ⟨-, hx⟩
          exact hx
    rw [hiff]
    simp [htarget]

theorem Exclusive.moves (h : Exclusive c) (hmoves : Moves c c' i k k') : Exclusive c' := by
  have htarget : i ∉ c k' := by
    intro hi
    have hsource : i ∈ c k := hmoves.taken.mem_iff.mpr List.mem_cons_self
    exact hmoves.ne (h.one k k' i hsource hi)
  constructor
  · intro j
    by_cases hto : j = k'
    · subst hto
      rw [hmoves.given.nodup_iff, List.nodup_cons]
      exact ⟨htarget, h.once j⟩
    · by_cases hfrom : j = k
      · subst hfrom
        exact (List.nodup_cons.mp (hmoves.taken.nodup_iff.mp (h.once j))).2
      · rw [hmoves.others j hfrom hto]
        exact h.once j
  · intro j j' x hj hj'
    rcases (hmoves.mem_iff h).mp hj with ⟨rfl, rfl⟩ | ⟨hne, hx⟩
    · rcases (hmoves.mem_iff h).mp hj' with ⟨-, rfl⟩ | ⟨hne, -⟩
      · rfl
      · exact absurd rfl hne
    · rcases (hmoves.mem_iff h).mp hj' with ⟨heq, -⟩ | ⟨-, hx'⟩
      · exact absurd heq hne
      · exact h.one j j' x hx hx'

theorem Moves.held_iff (hmoves : Moves c c' i k k') (h : Exclusive c) : Held c' x ↔ Held c x := by
  constructor
  · rintro ⟨j, hj⟩
    rcases (hmoves.mem_iff h).mp hj with ⟨rfl, -⟩ | ⟨-, hx⟩
    · exact ⟨k, hmoves.taken.mem_iff.mpr List.mem_cons_self⟩
    · exact ⟨j, hx⟩
  · rintro ⟨j, hj⟩
    by_cases hx : x = i
    · exact ⟨k', (hmoves.mem_iff h).mpr (.inl ⟨hx, rfl⟩)⟩
    · exact ⟨j, (hmoves.mem_iff h).mpr (.inr ⟨hx, hj⟩)⟩

theorem Enters.mem_iff (henters : Enters c c' i k) : x ∈ c' j ↔ x = i ∧ j = k ∨ x ∈ c j := by
  by_cases hto : j = k
  · subst hto
    rw [henters.given.mem_iff, List.mem_cons]
    simp
  · rw [henters.others j hto]
    simp [hto]

theorem Exclusive.enters (h : Exclusive c) (henters : Enters c c' i k) : Exclusive c' := by
  constructor
  · intro j
    by_cases hto : j = k
    · subst hto
      rw [henters.given.nodup_iff, List.nodup_cons]
      exact ⟨fun hi => henters.fresh ⟨j, hi⟩, h.once j⟩
    · rw [henters.others j hto]
      exact h.once j
  · intro j j' x hj hj'
    rcases henters.mem_iff.mp hj with ⟨rfl, rfl⟩ | hx
    · rcases henters.mem_iff.mp hj' with ⟨-, rfl⟩ | hx'
      · rfl
      · exact absurd ⟨j', hx'⟩ henters.fresh
    · rcases henters.mem_iff.mp hj' with ⟨rfl, -⟩ | hx'
      · exact absurd ⟨j, hx⟩ henters.fresh
      · exact h.one j j' x hx hx'

theorem Enters.held_iff (henters : Enters c c' i k) : Held c' x ↔ x = i ∨ Held c x := by
  simp only [Held, henters.mem_iff]
  constructor
  · rintro ⟨j, ⟨rfl, -⟩ | hx⟩
    · exact .inl rfl
    · exact .inr ⟨j, hx⟩
  · rintro (rfl | ⟨j, hx⟩)
    · exact ⟨k, .inl ⟨rfl, rfl⟩⟩
    · exact ⟨j, .inr hx⟩

end PgFort.Custody
