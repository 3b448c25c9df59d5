import Mathlib.Data.List.Sort

/-!
Double-ended lists whose elements can be held, and tables of rows with distinct keys that store
them.
-/

namespace PgFort.HeldDeque

variable {α κ : Type}

/-- An element in its place, with who holds it. -/
structure Slot (α κ : Type) where
  value : α
  holder : Option κ
  deriving DecidableEq, Repr

inductive Side where
  | back
  | front
  deriving DecidableEq, Repr

def values (l : List (Slot α κ)) : List α :=
  l.map Slot.value

def push (side : Side) (a : α) (l : List (Slot α κ)) : List (Slot α κ) :=
  match side with
  | .back => l ++ [⟨a, none⟩]
  | .front => ⟨a, none⟩ :: l

/-- What `k` holds goes back to being held by nobody, in its place. -/
def Slot.letGo [DecidableEq κ] (k : κ) (s : Slot α κ) : Slot α κ :=
  if s.holder = some k then { s with holder := none } else s

def release [DecidableEq κ] (k : κ) (l : List (Slot α κ)) : List (Slot α κ) :=
  l.map (Slot.letGo k)

inductive Action (α κ : Type) where
  | pushes (side : Side) (a : α)
  | takes (k : κ) (side : Side) (a : α)
  | pops (k : κ) (a : α)
  | releases (k : κ)
  | stays

/-- What each action does to the list. -/
inductive Transition [DecidableEq κ] : Action α κ → List (Slot α κ) → List (Slot α κ) → Prop where
  | pushes (side : Side) (a : α) (l : List (Slot α κ)) :
      Transition (.pushes side a) l (push side a l)
  | takesFront (k : κ) (a : α) (pre post : List (Slot α κ)) (hpre : ∀ s ∈ pre, s.holder ≠ none) :
      Transition (.takes k .front a) (pre ++ ⟨a, none⟩ :: post) (pre ++ ⟨a, some k⟩ :: post)
  | takesBack (k : κ) (a : α) (pre post : List (Slot α κ)) (hpost : ∀ s ∈ post, s.holder ≠ none) :
      Transition (.takes k .back a) (pre ++ ⟨a, none⟩ :: post) (pre ++ ⟨a, some k⟩ :: post)
  | pops (k : κ) (a : α) (pre post : List (Slot α κ)) :
      Transition (.pops k a) (pre ++ ⟨a, some k⟩ :: post) (pre ++ post)
  | releases (k : κ) (l : List (Slot α κ)) : Transition (.releases k) l (release k l)
  | stays (l : List (Slot α κ)) : Transition .stays l l

theorem values_release [DecidableEq κ] (k : κ) (l : List (Slot α κ)) :
    values (release k l) = values l := by
  simp only [values, release, List.map_map]
  apply List.map_congr_left
  intro s _
  simp only [Function.comp_apply, Slot.letGo]
  split
  · rfl
  · rfl

theorem letGo_letGo [DecidableEq κ] (k : κ) (s : Slot α κ) : (s.letGo k).letGo k = s.letGo k := by
  by_cases h : s.holder = some k
  · simp [Slot.letGo, h]
  · simp [Slot.letGo, h]

theorem release_release [DecidableEq κ] (k : κ) (l : List (Slot α κ)) :
    release k (release k l) = release k l := by
  rw [release, release, List.map_map]
  exact List.map_congr_left fun s _ => letGo_letGo k s

theorem release_eq_self [DecidableEq κ] {k : κ} {l : List (Slot α κ)}
    (h : ∀ s ∈ l, s.holder ≠ some k) : release k l = l := by
  have hgo : ∀ s ∈ l, Slot.letGo k s = s := fun s hs => if_neg (h s hs)
  rw [release, List.map_congr_left hgo, List.map_id']

/-! A table of rows, ordered by a key that no two rows share. -/

section Keys

variable {ρ ι : Type} {key : ρ → ι} {rows pre post : List ρ} {r : ρ}

theorem ne_of_split (hkeys : (rows.map key).Nodup) (hsplit : rows = pre ++ r :: post) :
    (∀ r' ∈ pre, key r' ≠ key r) ∧ ∀ r' ∈ post, key r' ≠ key r := by
  rw [hsplit, List.map_append, List.map_cons, List.nodup_append] at hkeys
  obtain ⟨-, hpost, hpre⟩ := hkeys
  constructor
  · intro r' hr'
    exact hpre _ (List.mem_map_of_mem hr') _ List.mem_cons_self
  · intro r' hr' heq
    exact (List.nodup_cons.mp hpost).1 (heq ▸ List.mem_map_of_mem hr')

theorem filter_of_split [DecidableEq ι] (hkeys : (rows.map key).Nodup)
    (hsplit : rows = pre ++ r :: post) :
    (rows.filter fun r' => key r' ≠ key r) = pre ++ post := by
  obtain ⟨hpre, hpost⟩ := ne_of_split hkeys hsplit
  rw [hsplit, List.filter_append, List.filter_cons_of_neg (by simp),
    List.filter_eq_self.mpr (by simpa using hpre), List.filter_eq_self.mpr (by simpa using hpost)]

end Keys

section Tables

variable {ρ ι : Type} [LinearOrder ι] (key : ρ → ι)

def ascending (rows : List ρ) : List ρ :=
  rows.insertionSort fun r r' => key r ≤ key r'

def descending (rows : List ρ) : List ρ :=
  rows.insertionSort fun r r' => key r' ≤ key r

variable {key} {rows rows' : List ρ} {r : ρ}

theorem ascending_perm (rows : List ρ) : (ascending key rows).Perm rows :=
  List.perm_insertionSort _ rows

theorem mem_ascending : r ∈ ascending key rows ↔ r ∈ rows :=
  (ascending_perm rows).mem_iff

theorem ascending_pairwise (rows : List ρ) :
    (ascending key rows).Pairwise fun r r' => key r ≤ key r' := by
  have htotal : Std.Total fun r r' => key r ≤ key r' := ⟨fun r r' => le_total (key r) (key r')⟩
  have htrans : IsTrans ρ fun r r' => key r ≤ key r' := ⟨fun _ _ _ => le_trans⟩
  exact List.pairwise_insertionSort _ rows

theorem descending_pairwise (rows : List ρ) :
    (descending key rows).Pairwise fun r r' => key r' ≤ key r := by
  have htotal : Std.Total fun r r' => key r' ≤ key r := ⟨fun r r' => le_total (key r') (key r)⟩
  have htrans : IsTrans ρ fun r r' => key r' ≤ key r := ⟨fun _ _ _ h h' => le_trans h' h⟩
  exact List.pairwise_insertionSort _ rows

theorem ascending_eq (hkeys : (rows.map key).Nodup) (hperm : rows'.Perm rows)
    (hsorted : rows'.Pairwise fun r r' => key r ≤ key r') : ascending key rows = rows' := by
  have hrows : (ascending key rows).Perm rows' := (ascending_perm rows).trans hperm.symm
  apply List.Perm.eq_of_pairwise _ (ascending_pairwise rows) hsorted hrows
  intro r r' hr hr' hle hge
  exact List.inj_on_of_nodup_map hkeys (mem_ascending.mp hr) (hperm.mem_iff.mp hr')
    (le_antisymm hle hge)

theorem descending_eq_reverse (hkeys : (rows.map key).Nodup) :
    descending key rows = (ascending key rows).reverse := by
  have hperm : (descending key rows).reverse.Perm rows :=
    (List.reverse_perm _).trans (List.perm_insertionSort _ rows)
  have hsorted : (descending key rows).reverse.Pairwise fun r r' => key r ≤ key r' :=
    List.pairwise_reverse.mpr (descending_pairwise rows)
  rw [ascending_eq hkeys hperm hsorted, List.reverse_reverse]

theorem ascending_append (hkeys : ((rows ++ [r]).map key).Nodup)
    (hle : ∀ r' ∈ rows, key r' ≤ key r) :
    ascending key (rows ++ [r]) = ascending key rows ++ [r] := by
  apply ascending_eq hkeys
  · exact (ascending_perm rows).append_right [r]
  · apply List.pairwise_append.mpr
    refine ⟨ascending_pairwise rows, List.pairwise_singleton _ _, ?_⟩
    intro r' hr' r'' hr''
    rw [List.mem_singleton.mp hr'']
    exact hle r' (mem_ascending.mp hr')

theorem ascending_append_least (hkeys : ((rows ++ [r]).map key).Nodup)
    (hle : ∀ r' ∈ rows, key r ≤ key r') :
    ascending key (rows ++ [r]) = r :: ascending key rows := by
  apply ascending_eq hkeys
  · exact ((ascending_perm rows).cons r).trans (List.perm_append_singleton r rows).symm
  · apply List.pairwise_cons.mpr
    exact ⟨fun r' hr' => hle r' (mem_ascending.mp hr'), ascending_pairwise rows⟩

theorem ascending_map {f : ρ → ρ} (hf : ∀ r, key (f r) = key r) :
    ascending key (rows.map f) = (ascending key rows).map f := by
  apply Eq.symm
  apply List.map_insertionSort
  intro r _ r' _
  rw [hf, hf]

theorem nodup_ascending (hkeys : (rows.map key).Nodup) : ((ascending key rows).map key).Nodup :=
  ((ascending_perm rows).map key).nodup_iff.mpr hkeys

theorem ascending_update (hkeys : (rows.map key).Nodup) {pre post : List ρ}
    (hsplit : ascending key rows = pre ++ r :: post) {f : ρ → ρ} (hf : ∀ r, key (f r) = key r) :
    ascending key (rows.map fun r' => if key r' = key r then f r' else r') =
      pre ++ f r :: post := by
  obtain ⟨hpre, hpost⟩ := ne_of_split (nodup_ascending hkeys) hsplit
  have hkey : ∀ r', key (if key r' = key r then f r' else r') = key r' := by
    intro r'
    split
    · exact hf r'
    · rfl
  have hsame : ∀ l : List ρ, (∀ r' ∈ l, key r' ≠ key r) →
      (l.map fun r' => if key r' = key r then f r' else r') = l := by
    intro l hl
    have hself : ∀ r' ∈ l, (if key r' = key r then f r' else r') = r' :=
      fun r' hr' => if_neg (hl r' hr')
    rw [List.map_congr_left hself, List.map_id']
  rw [ascending_map hkey, hsplit, List.map_append, List.map_cons, hsame pre hpre, hsame post hpost,
    if_pos rfl]

theorem ascending_erase (hkeys : (rows.map key).Nodup) {pre post : List ρ}
    (hsplit : ascending key rows = pre ++ r :: post) :
    ascending key (rows.filter fun r' => key r' ≠ key r) = pre ++ post := by
  have hfilter := filter_of_split (nodup_ascending hkeys) hsplit
  apply ascending_eq
  · exact hkeys.sublist (List.filter_sublist.map key)
  · rw [← hfilter]
    exact (ascending_perm rows).filter _
  · rw [← hfilter]
    exact (ascending_pairwise rows).sublist List.filter_sublist

end Tables

end PgFort.HeldDeque
