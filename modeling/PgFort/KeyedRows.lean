import Mathlib.Data.List.Nodup

/-!
Tables with a primary key, and the statement that inserts rows, touches those that are
there already and deletes others, all in one snapshot.
-/

namespace PgFort.KeyedRows

variable {α κ : Type}

structure KeyedTable (key : α → κ) where
  rows : List α
  keys : (rows.map key).Nodup

/-- A second row of one key in `INSERT … ON CONFLICT DO UPDATE`. -/
structure CardinalityViolation where
  deriving DecidableEq, Repr

section

variable {key : α → κ}

theorem eq_of_mem_of_key_eq (t : KeyedTable key) {a b : α} (ha : a ∈ t.rows) (hb : b ∈ t.rows)
    (h : key a = key b) : a = b :=
  List.inj_on_of_nodup_map t.keys ha hb h

variable [DecidableEq κ]

/-- The rows that stay, and those of them that the insert meets. -/
def keptRows (touch : α → α) (doomed : α → Bool) (proposed : List α) (t : KeyedTable key) :
    List α :=
  (t.rows.filter fun r => decide (key r ∈ proposed.map key) || !doomed r).map fun r =>
    if key r ∈ proposed.map key then touch r else r

def newRows (proposed : List α) (t : KeyedTable key) : List α :=
  proposed.filter fun r => decide (key r ∉ t.rows.map key)

theorem key_of_touched {touch : α → α} (htouch : ∀ r, key (touch r) = key r)
    (proposed : List α) (r : α) :
    key (if key r ∈ proposed.map key then touch r else r) = key r := by
  split
  · exact htouch r
  · rfl

theorem keys_kept_append_new {touch : α → α} (htouch : ∀ r, key (touch r) = key r)
    (doomed : α → Bool) {proposed : List α} (hproposed : (proposed.map key).Nodup)
    (t : KeyedTable key) :
    ((keptRows touch doomed proposed t ++ newRows proposed t).map key).Nodup := by
  have hkept : (keptRows touch doomed proposed t).map key =
      (t.rows.filter fun r => decide (key r ∈ proposed.map key) || !doomed r).map key := by
    rw [keptRows, List.map_map]
    exact List.map_congr_left fun r _ => key_of_touched htouch proposed r
  rw [List.map_append, hkept, List.nodup_append]
  refine ⟨t.keys.sublist (List.filter_sublist.map key),
    hproposed.sublist (List.filter_sublist.map key), ?_⟩
  rintro k hk l hl rfl
  obtain ⟨r, hr, rfl⟩ := List.mem_map.mp hk
  obtain ⟨s, hs, hkey⟩ := List.mem_map.mp hl
  have hnew := of_decide_eq_true (List.mem_filter.mp hs).2
  exact hnew (hkey ▸ List.mem_map.mpr ⟨r, (List.mem_filter.mp hr).1, rfl⟩)

/-- Insert the proposed rows, apply `touch` where their key is taken, and delete the doomed
rows of the snapshot, except those just touched. -/
def writeAndPrune (touch : α → α) (htouch : ∀ r, key (touch r) = key r) (doomed : α → Bool)
    (proposed : List α) (t : KeyedTable key) :
    Except CardinalityViolation (KeyedTable key) :=
  if h : (proposed.map key).Nodup then
    .ok ⟨keptRows touch doomed proposed t ++ newRows proposed t,
      keys_kept_append_new htouch doomed h t⟩
  else .error ⟨⟩

variable {touch : α → α} {htouch : ∀ r, key (touch r) = key r} {doomed : α → Bool}
  {proposed : List α} {t t' : KeyedTable key}

theorem exists_writeAndPrune_ok :
    (∃ t', writeAndPrune touch htouch doomed proposed t = .ok t') ↔
      (proposed.map key).Nodup := by
  rw [writeAndPrune]
  split
  · rename_i h
    exact iff_of_true ⟨_, rfl⟩ h
  · rename_i h
    exact iff_of_false (by simp) h

theorem mem_writeAndPrune (h : writeAndPrune touch htouch doomed proposed t = .ok t') {r : α} :
    r ∈ t'.rows ↔
      (r ∈ t.rows ∧ key r ∉ proposed.map key ∧ doomed r = false) ∨
        (∃ s ∈ t.rows, key s ∈ proposed.map key ∧ r = touch s) ∨
          (r ∈ proposed ∧ key r ∉ t.rows.map key) := by
  rw [writeAndPrune] at h
  split at h
  · obtain rfl := Except.ok.inj h
    show r ∈ keptRows touch doomed proposed t ++ newRows proposed t ↔ _
    rw [List.mem_append, keptRows, newRows, List.mem_filter, decide_eq_true_eq, List.mem_map]
    simp only [List.mem_filter, Bool.or_eq_true, decide_eq_true_eq, Bool.not_eq_true']
    constructor
    · rintro (⟨s, ⟨hs, hcase⟩, rfl⟩ | hnew)
      · by_cases hkey : key s ∈ proposed.map key
        · rw [if_pos hkey]
          exact .inr (.inl ⟨s, hs, hkey, rfl⟩)
        · rw [if_neg hkey]
          exact .inl ⟨hs, hkey, hcase.resolve_left hkey⟩
      · exact .inr (.inr hnew)
    · rintro (⟨hr, hkey, hdoomed⟩ | ⟨s, hs, hkey, rfl⟩ | hnew)
      · exact .inl ⟨r, ⟨hr, .inr hdoomed⟩, if_neg hkey⟩
      · exact .inl ⟨s, ⟨hs, .inl hkey⟩, if_pos hkey⟩
      · exact .inr hnew
  · simp at h

theorem mem_writeAndPrune_of_frame
    (h : writeAndPrune touch htouch doomed proposed t = .ok t') {r : α}
    (hkey : key r ∉ proposed.map key) (hdoomed : doomed r = false) :
    r ∈ t'.rows ↔ r ∈ t.rows := by
  rw [mem_writeAndPrune h]
  constructor
  · rintro (⟨hr, -⟩ | ⟨s, -, hs, rfl⟩ | ⟨hr, -⟩)
    · exact hr
    · rw [htouch] at hkey
      exact absurd hs hkey
    · exact absurd (List.mem_map.mpr ⟨r, hr, rfl⟩) hkey
  · intro hr
    exact .inl ⟨hr, hkey, hdoomed⟩

end

end PgFort.KeyedRows
