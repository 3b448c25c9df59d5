import PgFort.Runs
import PgFort.PersistentDeque

namespace PgFort.DequeRefinement

open PgFort.Framing
open PgFort.Conn
open PgFort.Runs
open PgFort.HeldDeque
open PgFort.PersistentDeque

variable {δ : Type}

/-- The table, ordered by `_pos`. -/
def deque (w : World δ) : List (Slot δ Nat) :=
  (ascending Row.pos w.rows).map Row.slot

/-- A client has the element, with a transaction that holds its row. -/
def Holds (w : World δ) (id i : Nat) (pos : Int) : Prop :=
  ∃ e, w.elements id = some e ∧ e.work = .opened ∧ w.transactions i = .live id ∧ e.owner = i ∧
    e.pos = pos

/-- What is left of an element that has no say any more. -/
def letsGo (w : World δ) (id : Nat) : Action δ Nat :=
  match w.elements id with
  | some e => if e.work = .opened then .releases e.owner else .stays
  | none => .stays

/-- What an operation with its result is to do to the list. -/
def action (w : World δ) (op : Op δ) (result : Result δ) : Action δ Nat :=
  match op, result with
  | _, .absent => .stays
  | .push _ side data _, .done => .pushes side data
  | .take i side _ _, .element _ data => .takes i side data
  | .take i side _ _, .selected _ data => .takes i side data
  | .finish id _, .element _ data =>
      match w.elements id with
      | some e => .pops e.owner data
      | none => .stays
  | .pop id _, .done =>
      match w.elements id with
      | some e => .pops e.owner e.data
      | none => .stays
  | .finish id _, _ => letsGo w id
  | .pop id _, _ => letsGo w id
  | .release id, _ => letsGo w id
  | .destroy id, _ => letsGo w id
  | .breaks i, _ => .releases i
  | _, _ => .stays

section Refinement

variable (lib : Library δ) (w : World δ) (op : Op δ)

/-- The operation is one of the list, and those of all instances together lose nothing. -/
structure Refined : Prop where
  simulates : Transition (action w op (step lib w op).2) (deque w) (deque (next lib w op))
  unchanged : ∀ err, (step lib w op).2 = .error err →
    values (deque (next lib w op)) = values (deque w)
  finds : ∀ i side pop io err, op = .take i side pop io → (step lib w op).2 = .error err →
    (∀ s ∈ deque w, s.holder ≠ none) ∨ io.refusal ≠ none ∨ w.transactions i ≠ .idle
  held : ∀ r ∈ (next lib w op).rows, ∀ i,
    r.locker = some i ↔ ∃ id, Holds (next lib w op) id i r.pos
  exclusive : ∀ id id' i i' pos,
    Holds (next lib w op) id i pos → Holds (next lib w op) id' i' pos → id = id' ∧ i = i'
  once : ((next lib w op).pushed.map Prod.fst).Nodup
  conserved : ((next lib w op).rows.map Row.item ++ (next lib w op).popped).Perm
    (next lib w op).pushed

/-- The data has no quote in its text, unless the `INSERT` is not executed or not committed. -/
def Quoted : Prop :=
  ∀ i side data io text, op = .push i side data io → lib.dump data = some text →
    39 ∉ text ∨ w.busy i ∨ w.transactions i ≠ .idle ∨ io.refusal ≠ none ∨ io.commit ≠ none ∨
      execInsert lib side (w.nextPos side io) (insertQuery lib side text) w.rows = none

end Refinement

/-- What all instances keep. The element `missing` may be without its row. -/
structure Sound (missing : Option Nat) (w : World δ) : Prop where
  once : (w.pushed.map Prod.fst).Nodup
  conserved : (w.rows.map Row.item ++ w.popped).Perm w.pushed
  counted : ∀ p ∈ w.pushed, p.1.natAbs ≤ w.seq
  locked : ∀ r ∈ w.rows, ∀ i, r.locker = some i → ∃ id e, w.transactions i = .live id ∧
    w.elements id = some e ∧ e.owner = i ∧ e.work = .opened ∧ e.pos = r.pos
  registered : ∀ id e, w.elements id = some e → e.work = .opened →
    w.transactions e.owner = .live id ∨ w.transactions e.owner = .failed id
  backed : ∀ id e, some id ≠ missing → w.elements id = some e → e.work = .opened →
    w.transactions e.owner = .live id →
      ∃ r ∈ w.rows, r.item = (e.pos, e.data) ∧ r.locker = some e.owner
  fresh : ∀ id, w.created ≤ id → w.elements id = none

theorem sound_new : Sound none (World.new : World δ) where
  once := List.nodup_nil
  conserved := .nil
  counted := by simp [World.new]
  locked := by simp [World.new]
  registered := by simp [World.new]
  backed := by simp [World.new]
  fresh := fun _ _ => rfl

section Positions

variable {m : Option Nat} {w : World δ}

theorem Sound.nodup_pos (hw : Sound m w) : (w.rows.map Row.pos).Nodup := by
  have hitems := ((hw.conserved.map Prod.fst).nodup_iff.mpr hw.once)
  rw [List.map_append, List.map_map] at hitems
  exact (List.nodup_append.mp hitems).1

theorem Sound.eq_of_pos (hw : Sound m w) {r r' : Row δ} (hr : r ∈ w.rows) (hr' : r' ∈ w.rows)
    (hpos : r.pos = r'.pos) : r = r' :=
  List.inj_on_of_nodup_map hw.nodup_pos hr hr' hpos

theorem Sound.natAbs_pos_le (hw : Sound m w) {r : Row δ} (hr : r ∈ w.rows) :
    r.pos.natAbs ≤ w.seq := by
  apply hw.counted r.item
  exact hw.conserved.subset (List.mem_append_left _ (List.mem_map_of_mem hr))

theorem Sound.eq_of_locker (hw : Sound m w) {r r' : Row δ} {i : Nat} (hr : r ∈ w.rows)
    (hr' : r' ∈ w.rows) (hlocker : r.locker = some i) (hlocker' : r'.locker = some i) :
    r = r' := by
  obtain ⟨id, e, hlive, he, -, -, hpos⟩ := hw.locked r hr i hlocker
  obtain ⟨id', e', hlive', he', -, -, hpos'⟩ := hw.locked r' hr' i hlocker'
  obtain rfl : id = id' := Transaction.live.inj (hlive.symm.trans hlive')
  obtain rfl : e = e' := Option.some.inj (he.symm.trans he')
  exact hw.eq_of_pos hr hr' (hpos.symm.trans hpos')

theorem Sound.not_locked (hw : Sound m w) {i : Nat} (hidle : w.transactions i = .idle) :
    ∀ r ∈ w.rows, r.locker ≠ some i := by
  intro r hr hlocker
  obtain ⟨id, -, hlive, -⟩ := hw.locked r hr i hlocker
  rw [hidle] at hlive
  cases hlive

theorem Sound.owner_ne (hw : Sound m w) {id id' : Nat} {e e' : Element δ}
    (he : w.elements id = some e) (hopened : e.work = .opened)
    (he' : w.elements id' = some e') (hopened' : e'.work = .opened) (hne : id' ≠ id) :
    e'.owner ≠ e.owner := by
  intro howner
  have h := hw.registered id e he hopened
  have h' := hw.registered id' e' he' hopened'
  rw [howner] at h'
  rcases h with h | h
  · rcases h' with h' | h'
    · exact hne (Transaction.live.inj (h'.symm.trans h))
    · exact absurd (h'.symm.trans h) (by simp)
  · rcases h' with h' | h'
    · exact absurd (h'.symm.trans h) (by simp)
    · exact hne (Transaction.failed.inj (h'.symm.trans h))

end Positions

theorem unlock_item (i : Nat) (r : Row δ) : (r.unlock i).item = r.item := by
  unfold Row.unlock
  split
  · rfl
  · rfl

theorem unlock_pos (i : Nat) (r : Row δ) : (r.unlock i).pos = r.pos :=
  congrArg Prod.fst (unlock_item i r)

theorem unlock_slot (i : Nat) (r : Row δ) : (r.unlock i).slot = r.slot.letGo i := by
  unfold Row.unlock Slot.letGo Row.slot
  split
  · rfl
  · rfl

theorem unlock_locker {i j : Nat} {r : Row δ} :
    (r.unlock i).locker = some j ↔ r.locker = some j ∧ j ≠ i := by
  unfold Row.unlock
  split
  case isTrue h => simp [h, eq_comm]
  case isFalse h =>
    constructor
    · intro hj
      exact ⟨hj, fun hij => h (hij ▸ hj)⟩
    · exact fun hj => hj.1

theorem unlock_of_ne {i : Nat} {r : Row δ} (h : r.locker ≠ some i) : r.unlock i = r :=
  if_neg h

section Worlds

variable {m : Option Nat} {w : World δ} {i id : Nat} {e : Element δ}

theorem deque_unlock (i : Nat) {w' : World δ} (h : w'.rows = w.rows.map (Row.unlock i)) :
    deque w' = HeldDeque.release i (deque w) := by
  rw [deque, h, ascending_map (unlock_pos i), deque, HeldDeque.release, List.map_map, List.map_map]
  exact List.map_congr_left fun r _ => unlock_slot i r

theorem map_item_unlock (i : Nat) (rows : List (Row δ)) :
    (rows.map (Row.unlock i)).map Row.item = rows.map Row.item := by
  rw [List.map_map]
  exact List.map_congr_left fun r _ => unlock_item i r

theorem natAbs_position (side : Side) (n : Nat) : (position side n).natAbs = n := by
  cases side with
  | back => exact Int.natAbs_natCast n
  | front =>
      rw [position, Int.natAbs_neg]
      exact Int.natAbs_natCast n

theorem Sound.push (hw : Sound none w) (side : Side) {n : Nat} (hn : w.seq < n) (data : δ) :
    Sound none { w with
      rows := w.rows ++ [⟨position side n, data, none⟩]
      seq := n
      pushed := w.pushed ++ [(position side n, data)] } where
  once := by
    rw [List.map_append, List.nodup_append]
    refine ⟨hw.once, List.nodup_singleton _, ?_⟩
    intro pos hpos pos' hpos' heq
    obtain ⟨p, hp, rfl⟩ := List.mem_map.mp hpos
    have hle := hw.counted p hp
    rw [heq, List.mem_singleton.mp hpos', natAbs_position] at hle
    omega
  conserved := by
    rw [List.map_append, List.append_assoc]
    refine (List.Perm.append_left _ List.perm_append_comm).trans ?_
    rw [← List.append_assoc]
    exact hw.conserved.append_right _
  counted := by
    intro p hp
    rcases List.mem_append.mp hp with hp | hp
    · exact (hw.counted p hp).trans hn.le
    · rw [List.mem_singleton.mp hp]
      exact (natAbs_position side n).le
  locked := by
    intro r hr j hj
    rcases List.mem_append.mp hr with hr | hr
    · exact hw.locked r hr j hj
    · rw [List.mem_singleton.mp hr] at hj
      cases hj
  registered := hw.registered
  backed := by
    intro id e hid he hopened hlive
    obtain ⟨r, hr, hitem, hlocker⟩ := hw.backed id e hid he hopened hlive
    exact ⟨r, List.mem_append_left _ hr, hitem, hlocker⟩
  fresh := hw.fresh

theorem transition_push (hw : Sound none w) (side : Side) {n : Nat} (hn : w.seq < n) (data : δ)
    {w' : World δ} (h : w'.rows = w.rows ++ [⟨position side n, data, none⟩]) :
    Transition (.pushes side data) (deque w) (deque w') := by
  have hkeys := (hw.push side hn data).nodup_pos
  have hle : ∀ r ∈ w.rows, -(n : Int) ≤ r.pos ∧ r.pos ≤ n := by
    intro r hr
    have := hw.natAbs_pos_le hr
    omega
  have hpushed : deque w' = HeldDeque.push side data (deque w) := by
    rw [deque, h]
    cases side with
    | back =>
        rw [ascending_append hkeys fun r hr => (hle r hr).2, List.map_append]
        rfl
    | front =>
        rw [ascending_append_least hkeys fun r hr => (hle r hr).1]
        rfl
  rw [hpushed]
  exact .pushes side data (deque w)

theorem lock_item (i : Nat) (r r' : Row δ) :
    (if r'.pos = r.pos then r'.lock i else r').item = r'.item := by
  split
  · rfl
  · rfl

theorem Sound.acquire (hw : Sound none w) {r : Row δ} (hr : r ∈ w.rows) (hfree : r.locker = none)
    (hidle : w.transactions i = .idle) (call : Option Side) :
    Sound none (w.acquire i r call) where
  once := hw.once
  conserved := by
    have hitems : (w.acquire i r call).rows.map Row.item = w.rows.map Row.item := by
      rw [World.acquire_rows, List.map_map]
      exact List.map_congr_left fun r' _ => lock_item i r r'
    rw [hitems]
    exact hw.conserved
  counted := hw.counted
  locked := by
    intro r' hr' j hj
    obtain ⟨r₀, hr₀, rfl⟩ := List.mem_map.mp hr'
    by_cases hpos : r₀.pos = r.pos
    · rw [if_pos hpos] at hj ⊢
      obtain rfl : i = j := Option.some.inj hj
      exact ⟨w.created, _, Function.update_self .., Function.update_self .., rfl, rfl, hpos.symm⟩
    · rw [if_neg hpos] at hj ⊢
      obtain ⟨id, e, hlive, he, howner, hopened, hepos⟩ := hw.locked r₀ hr₀ j hj
      have hji : j ≠ i := by
        rintro rfl
        rw [hidle] at hlive
        cases hlive
      have hid : id ≠ w.created := by
        rintro rfl
        rw [hw.fresh _ (Nat.le_refl _)] at he
        cases he
      refine ⟨id, e, ?_, ?_, howner, hopened, hepos⟩
      · exact (Function.update_of_ne hji _ _).trans hlive
      · exact (Function.update_of_ne hid _ _).trans he
  registered := by
    intro id e he hopened
    rw [World.acquire_elements] at he
    rw [World.acquire_transactions]
    by_cases hid : id = w.created
    · rw [hid, Function.update_self] at he
      obtain rfl := Option.some.inj he
      rw [hid, Function.update_self]
      exact .inl rfl
    · rw [Function.update_of_ne hid] at he
      have hreg := hw.registered id e he hopened
      have howner : e.owner ≠ i := by
        intro howner
        rw [howner, hidle] at hreg
        rcases hreg with hreg | hreg
        · cases hreg
        · cases hreg
      rw [Function.update_of_ne howner]
      exact hreg
  backed := by
    intro id e hne he hopened hlive
    rw [World.acquire_elements] at he
    rw [World.acquire_transactions] at hlive
    by_cases hid : id = w.created
    · rw [hid, Function.update_self] at he
      obtain rfl := Option.some.inj he
      exact ⟨r.lock i, List.mem_map.mpr ⟨r, hr, if_pos rfl⟩, rfl, rfl⟩
    · rw [Function.update_of_ne hid] at he
      have howner : e.owner ≠ i := by
        intro howner
        rw [howner, Function.update_self] at hlive
        exact hid (Transaction.live.inj hlive).symm
      rw [Function.update_of_ne howner] at hlive
      obtain ⟨r₀, hr₀, hitem, hlocker⟩ := hw.backed id e hne he hopened hlive
      have hpos : r₀.pos ≠ r.pos := by
        intro hpos
        rw [hw.eq_of_pos hr₀ hr hpos, hfree] at hlocker
        cases hlocker
      exact ⟨r₀, List.mem_map.mpr ⟨r₀, hr₀, if_neg hpos⟩, hitem, hlocker⟩
  fresh := by
    intro id hid
    have hlt : w.created < id := hid
    rw [World.acquire_elements, Function.update_of_ne hlt.ne']
    exact hw.fresh id hlt.le

theorem Sound.fail (hw : Sound none w) (hlive : w.transactions i = .live id) :
    Sound none (w.fail i id) where
  once := hw.once
  conserved := by
    rw [World.fail_rows, map_item_unlock]
    exact hw.conserved
  counted := hw.counted
  locked := by
    intro r hr j hj
    obtain ⟨r₀, hr₀, rfl⟩ := List.mem_map.mp hr
    obtain ⟨hj, hji⟩ := unlock_locker.mp hj
    obtain ⟨id', e, hlive', he, howner, hopened, hpos⟩ := hw.locked r₀ hr₀ j hj
    refine ⟨id', e, (Function.update_of_ne hji _ _).trans hlive', he, howner, hopened, ?_⟩
    rw [unlock_pos]
    exact hpos
  registered := by
    intro id' e he hopened
    have hreg := hw.registered id' e he hopened
    by_cases howner : e.owner = i
    · rw [howner, hlive] at hreg
      rcases hreg with hreg | hreg
      · rw [World.fail_transactions, howner, Function.update_self, Transaction.live.inj hreg]
        exact .inr rfl
      · cases hreg
    · rw [World.fail_transactions, Function.update_of_ne howner]
      exact hreg
  backed := by
    intro id' e hne he hopened hlive'
    rw [World.fail_transactions] at hlive'
    have howner : e.owner ≠ i := by
      intro howner
      rw [howner, Function.update_self] at hlive'
      cases hlive'
    rw [Function.update_of_ne howner] at hlive'
    obtain ⟨r, hr, hitem, hlocker⟩ := hw.backed id' e hne he hopened hlive'
    have hother : r.locker ≠ some i := by
      rw [hlocker]
      exact fun h => howner (Option.some.inj h)
    exact ⟨r, List.mem_map.mpr ⟨r, hr, unlock_of_ne hother⟩, hitem, hlocker⟩
  fresh := hw.fresh

theorem Sound.delete (hw : Sound none w) (he : w.elements id = some e) (hopened : e.work = .opened)
    (hlive : w.transactions e.owner = .live id) : Sound (some id) (w.delete e) where
  once := hw.once
  conserved := by
    obtain ⟨r, hr, hitem, -⟩ := hw.backed id e (by simp) he hopened hlive
    have hpos : r.pos = e.pos := congrArg Prod.fst hitem
    obtain ⟨pre, post, hsplit⟩ := List.append_of_mem hr
    have hrows : w.rows.filter (fun r' => r'.pos ≠ e.pos) = pre ++ post :=
      hpos ▸ filter_of_split hw.nodup_pos hsplit
    have hconserved := hw.conserved
    rw [hsplit, List.map_append, List.map_cons, hitem, List.append_assoc, List.cons_append]
      at hconserved
    simp only [World.delete, hrows, List.map_append, List.append_assoc]
    refine List.Perm.trans ?_ hconserved
    apply List.Perm.append_left
    rw [← List.append_assoc]
    exact List.perm_append_singleton _ _
  counted := hw.counted
  locked := by
    intro r hr j hj
    exact hw.locked r (List.mem_filter.mp hr).1 j hj
  registered := hw.registered
  backed := by
    intro id' e' hne he' hopened' hlive'
    have hid : id' ≠ id := fun hid => hne (hid ▸ rfl)
    obtain ⟨r, hr, hitem, hlocker⟩ := hw.backed id' e' (by simp) he' hopened' hlive'
    obtain ⟨r₀, hr₀, hitem₀, hlocker₀⟩ := hw.backed id e (by simp) he hopened hlive
    have hpos : r.pos ≠ e.pos := by
      intro hpos
      have hsame : r = r₀ := hw.eq_of_pos hr hr₀ (hpos.trans (congrArg Prod.fst hitem₀).symm)
      rw [hsame, hlocker₀] at hlocker
      exact hw.owner_ne he hopened he' hopened' hid (Option.some.inj hlocker).symm
    exact ⟨r, List.mem_filter.mpr ⟨hr, by simpa using hpos⟩, hitem, hlocker⟩
  fresh := hw.fresh

theorem of_update_opened {left : Option (Element δ)} {id' : Nat} {e' : Element δ}
    (hleft : ∀ e', left = some e' → e'.work ≠ .opened)
    (he' : Function.update w.elements id left id' = some e') (hopened' : e'.work = .opened) :
    id' ≠ id ∧ w.elements id' = some e' := by
  by_cases hid : id' = id
  · rw [hid, Function.update_self] at he'
    exact absurd hopened' (hleft e' he')
  · rw [Function.update_of_ne hid] at he'
    exact ⟨hid, he'⟩

theorem Sound.fresh_update (hw : Sound m w) (he : w.elements id = some e)
    (left : Option (Element δ)) {id' : Nat} (hcreated : w.created ≤ id') :
    Function.update w.elements id left id' = none := by
  have hid : id' ≠ id := by
    rintro rfl
    rw [hw.fresh id' hcreated] at he
    cases he
  rw [Function.update_of_ne hid]
  exact hw.fresh id' hcreated

theorem Sound.leave_opened (hw : Sound m w) (hm : ∀ id', some id' = m → id' = id)
    (he : w.elements id = some e) (hopened : e.work = .opened) {left : Option (Element δ)}
    (hleft : ∀ e', left = some e' → e'.work ≠ .opened) :
    Sound none { w.endWork e.owner with elements := Function.update w.elements id left } where
  once := hw.once
  conserved := by
    rw [World.endWork_rows, map_item_unlock]
    exact hw.conserved
  counted := hw.counted
  locked := by
    intro r hr j hj
    obtain ⟨r₀, hr₀, rfl⟩ := List.mem_map.mp hr
    obtain ⟨hj, hji⟩ := unlock_locker.mp hj
    obtain ⟨id', e', hlive', he', rfl, hopened', hpos⟩ := hw.locked r₀ hr₀ j hj
    have hid : id' ≠ id := by
      rintro rfl
      rw [he] at he'
      exact hji (congrArg Element.owner (Option.some.inj he').symm)
    refine ⟨id', e', ?_, ?_, rfl, hopened', ?_⟩
    · rw [World.endWork_transactions, Function.update_of_ne hji]
      exact hlive'
    · exact (Function.update_of_ne hid _ _).trans he'
    · rw [unlock_pos]
      exact hpos
  registered := by
    intro id' e' he' hopened'
    obtain ⟨hid, he'⟩ := of_update_opened hleft he' hopened'
    have hne := hw.owner_ne he hopened he' hopened' hid
    rw [World.endWork_transactions, Function.update_of_ne hne]
    exact hw.registered id' e' he' hopened'
  backed := by
    intro id' e' _ he' hopened' hlive'
    obtain ⟨hid, he'⟩ := of_update_opened hleft he' hopened'
    have hne := hw.owner_ne he hopened he' hopened' hid
    rw [World.endWork_transactions, Function.update_of_ne hne] at hlive'
    obtain ⟨r, hr, hitem, hlocker⟩ :=
      hw.backed id' e' (fun h => hid (hm id' h)) he' hopened' hlive'
    have hother : r.locker ≠ some e.owner := by
      rw [hlocker]
      exact fun h => hne (Option.some.inj h)
    exact ⟨r, List.mem_map.mpr ⟨r, hr, unlock_of_ne hother⟩, hitem, hlocker⟩
  fresh := fun _ hcreated => hw.fresh_update he left hcreated

theorem Sound.leave_over (hw : Sound m w) (hm : ∀ id', some id' = m → id' = id)
    (he : w.elements id = some e) (hover : e.work ≠ .opened) {left : Option (Element δ)}
    (hleft : ∀ e', left = some e' → e'.work ≠ .opened) :
    Sound none { w with elements := Function.update w.elements id left } where
  once := hw.once
  conserved := hw.conserved
  counted := hw.counted
  locked := by
    intro r hr j hj
    obtain ⟨id', e', hlive', he', howner', hopened', hpos⟩ := hw.locked r hr j hj
    have hid : id' ≠ id := by
      rintro rfl
      rw [he] at he'
      exact hover (Option.some.inj he' ▸ hopened')
    exact ⟨id', e', hlive', (Function.update_of_ne hid _ _).trans he', howner', hopened', hpos⟩
  registered := by
    intro id' e' he' hopened'
    obtain ⟨-, he'⟩ := of_update_opened hleft he' hopened'
    exact hw.registered id' e' he' hopened'
  backed := by
    intro id' e' _ he' hopened' hlive'
    obtain ⟨hid, he'⟩ := of_update_opened hleft he' hopened'
    exact hw.backed id' e' (fun h => hid (hm id' h)) he' hopened' hlive'
  fresh := fun _ hcreated => hw.fresh_update he left hcreated

theorem Sound.leave (hw : Sound m w) (hm : ∀ id', some id' = m → id' = id)
    (he : w.elements id = some e) {left : Option (Element δ)}
    (hleft : ∀ e', left = some e' → e'.work ≠ .opened) : Sound none (w.leave id e left) := by
  by_cases hopened : e.work = .opened
  · rw [World.leave_opened hopened]
    exact hw.leave_opened hm he hopened hleft
  · rw [World.leave_of_ne hopened]
    exact hw.leave_over hm he hopened hleft

theorem deque_leave (id : Nat) (e : Element δ) (left : Option (Element δ)) :
    deque (w.leave id e left) =
      if e.work = .opened then HeldDeque.release e.owner (deque w) else deque w := by
  split
  case isTrue hopened =>
    rw [World.leave_opened hopened]
    exact deque_unlock e.owner rfl
  case isFalse hopened =>
    rw [World.leave_of_ne hopened]
    rfl

theorem release_deque (hnone : ∀ r ∈ w.rows, r.locker ≠ some i) :
    HeldDeque.release i (deque w) = deque w := by
  apply release_eq_self
  intro s hs
  obtain ⟨r, hr, rfl⟩ := List.mem_map.mp hs
  exact hnone r (mem_ascending.mp hr)

theorem Sound.split_at (hw : Sound none w) (he : w.elements id = some e)
    (hopened : e.work = .opened) (hlive : w.transactions e.owner = .live id) :
    ∃ r ∈ w.rows, r.item = (e.pos, e.data) ∧ r.locker = some e.owner ∧
      ∃ pre post, ascending Row.pos w.rows = pre ++ r :: post ∧
        ∀ r' ∈ pre ++ post, r'.locker ≠ some e.owner := by
  obtain ⟨r, hr, hitem, hlocker⟩ := hw.backed id e (by simp) he hopened hlive
  have hordered : r ∈ ascending Row.pos w.rows := mem_ascending.mpr hr
  obtain ⟨pre, post, hsplit⟩ := List.append_of_mem hordered
  refine ⟨r, hr, hitem, hlocker, pre, post, hsplit, ?_⟩
  obtain ⟨hpre, hpost⟩ := ne_of_split (nodup_ascending hw.nodup_pos) hsplit
  intro r' hr' hlocker'
  have hordered' : r' ∈ ascending Row.pos w.rows := by
    rw [hsplit]
    rcases List.mem_append.mp hr' with hr' | hr'
    · exact List.mem_append_left _ hr'
    · exact List.mem_append_right _ (List.mem_cons_of_mem _ hr')
  have hmem : r' ∈ w.rows := mem_ascending.mp hordered'
  have hsame : r'.pos = r.pos := congrArg Row.pos (hw.eq_of_locker hmem hr hlocker' hlocker)
  rcases List.mem_append.mp hr' with hr' | hr'
  · exact hpre r' hr' hsame
  · exact hpost r' hr' hsame

theorem transition_delete (hw : Sound none w) (he : w.elements id = some e)
    (hopened : e.work = .opened) (hlive : w.transactions e.owner = .live id)
    (left : Option (Element δ)) :
    Transition (.pops e.owner e.data) (deque w) (deque ((w.delete e).leave id e left)) := by
  obtain ⟨r, -, hitem, hlocker, pre, post, hsplit, hothers⟩ := hw.split_at he hopened hlive
  have hpos : r.pos = e.pos := congrArg Prod.fst hitem
  have hdata : r.data = e.data := congrArg Prod.snd hitem
  have hslot : r.slot = ⟨e.data, some e.owner⟩ := by rw [Row.slot, hlocker, hdata]
  have hbefore : deque w = pre.map Row.slot ++ ⟨e.data, some e.owner⟩ :: post.map Row.slot := by
    rw [deque, hsplit, List.map_append, List.map_cons, hslot]
  have hdeleted : deque (w.delete e) = pre.map Row.slot ++ post.map Row.slot := by
    rw [deque, World.delete, ← hpos, ascending_erase hw.nodup_pos hsplit, List.map_append]
  have hafter : deque ((w.delete e).leave id e left) = pre.map Row.slot ++ post.map Row.slot := by
    rw [deque_leave, if_pos hopened, hdeleted, ← List.map_append]
    apply release_eq_self
    intro s hs
    obtain ⟨r', hr', rfl⟩ := List.mem_map.mp hs
    exact hothers r' hr'
  rw [hbefore, hafter]
  exact Transition.pops e.owner e.data _ _

theorem select_eq_some {side : Side} {r : Row δ} (hw : Sound none w)
    (hidle : w.transactions i = .idle) (h : select side i w.rows = some r) :
    r ∈ w.rows ∧ r.locker = none := by
  have hmem : r ∈ w.rows := by
    have hr := List.mem_of_find?_eq_some h
    cases side with
    | back => exact (List.mem_insertionSort _).mp hr
    | front => exact (List.mem_insertionSort _).mp hr
  have hfree := List.find?_some h
  rw [Row.free, Bool.or_eq_true, Option.isNone_iff_eq_none, beq_iff_eq] at hfree
  rcases hfree with hfree | hfree
  · exact ⟨hmem, hfree⟩
  · exact absurd hfree (hw.not_locked hidle r hmem)

theorem not_free {r : Row δ} (h : ¬r.free i) : r.locker ≠ none := by
  intro hnone
  apply h
  rw [Row.free, hnone]
  rfl

theorem transition_acquire {side : Side} {r : Row δ} (hw : Sound none w)
    (hidle : w.transactions i = .idle) (h : select side i w.rows = some r) (call : Option Side) :
    Transition (.takes i side r.data) (deque w) (deque (w.acquire i r call)) := by
  obtain ⟨-, hfree⟩ := select_eq_some hw hidle h
  have hslot : r.slot = ⟨r.data, none⟩ := by rw [Row.slot, hfree]
  obtain ⟨-, first, rest, hsplit, hfirst⟩ := List.find?_eq_some_iff_append.mp h
  have hheld : ∀ l : List (Row δ), (∀ r' ∈ l, r' ∈ first) →
      ∀ s ∈ l.map Row.slot, s.holder ≠ none := by
    intro l hl s hs
    obtain ⟨r', hr', rfl⟩ := List.mem_map.mp hs
    exact not_free (by simpa using hfirst r' (hl r' hr'))
  have hacquired : ∀ pre post, ascending Row.pos w.rows = pre ++ r :: post →
      deque w = pre.map Row.slot ++ ⟨r.data, none⟩ :: post.map Row.slot ∧
        deque (w.acquire i r call) =
          pre.map Row.slot ++ ⟨r.data, some i⟩ :: post.map Row.slot := by
    intro pre post hrows
    constructor
    · rw [deque, hrows, List.map_append, List.map_cons, hslot]
    · rw [deque, World.acquire_rows, ascending_update (f := Row.lock i) hw.nodup_pos hrows
        fun _ => rfl, List.map_append, List.map_cons]
      rfl
  cases side with
  | front =>
      obtain ⟨hbefore, hafter⟩ := hacquired first rest hsplit
      rw [hbefore, hafter]
      exact .takesFront i r.data _ _ (hheld first fun _ hr => hr)
  | back =>
      have hrows : ascending Row.pos w.rows = rest.reverse ++ r :: first.reverse := by
        rw [← List.reverse_reverse (ascending Row.pos w.rows),
          ← descending_eq_reverse hw.nodup_pos]
        rw [orderBy] at hsplit
        rw [hsplit, List.reverse_append, List.reverse_cons, List.append_assoc]
        rfl
      obtain ⟨hbefore, hafter⟩ := hacquired _ _ hrows
      rw [hbefore, hafter]
      exact .takesBack i r.data _ _ (hheld first.reverse fun _ hr => List.mem_reverse.mp hr)

theorem held_of_select_eq_none {side : Side} (h : select side i w.rows = none) :
    ∀ s ∈ deque w, s.holder ≠ none := by
  intro s hs
  obtain ⟨r, hr, rfl⟩ := List.mem_map.mp hs
  have hmem : r ∈ orderBy side w.rows := by
    cases side with
    | back => exact (List.mem_insertionSort _).mpr (mem_ascending.mp hr)
    | front => exact hr
  exact not_free (List.find?_eq_none.mp h r hmem)

end Worlds

section Constants

theorem readConstant_quote {text rest : Bytes} (hquote : 39 ∉ text) (hrest : rest.head? ≠ some 39) :
    readConstant (text ++ 39 :: rest) = some (text, rest) := by
  induction text with
  | nil =>
      cases rest with
      | nil => rfl
      | cons c rest =>
          have hc : c ≠ 39 := by simpa using hrest
          simp [readConstant, hc]
  | cons c text ih =>
      have hc : c ≠ 39 := fun hc => hquote (hc ▸ List.mem_cons_self)
      have ih := ih fun h => hquote (List.mem_cons_of_mem _ h)
      rw [List.cons_append, readConstant.eq_def]
      simp only [if_neg hc, ih, Option.map_some]

theorem length_of_readConstant {text constant rest : Bytes}
    (h : readConstant text = some (constant, rest)) :
    text.length = constant.length + constant.count 39 + 1 + rest.length := by
  fun_induction readConstant text generalizing constant with
  | case1 => cases h
  | case2 =>
      cases h
      rfl
  | case3 text' ih =>
      obtain ⟨r, hr, heq⟩ := Option.map_eq_some_iff.mp h
      obtain ⟨rfl, rfl⟩ := Prod.mk.inj heq
      have hlength := ih hr
      simp only [List.length_cons, List.count_cons_self]
      omega
  | case4 d text' hd =>
      cases h
      simp only [List.length_cons, List.length_nil, List.count_nil]
      omega
  | case5 c text hc ih =>
      obtain ⟨r, hr, heq⟩ := Option.map_eq_some_iff.mp h
      obtain ⟨rfl, rfl⟩ := Prod.mk.inj heq
      have hlength := ih hr
      simp only [List.length_cons, List.count_cons_of_ne hc]
      omega

/-- A text is read as it was written exactly if it has no quote. -/
theorem readInsert_insertQuery_iff (lib : Library δ) (side : Side) {text : Bytes} :
    readInsert lib side (insertQuery lib side text) = some text ↔ 39 ∉ text := by
  have hend : utf8 "'::jsonb);" = 39 :: utf8 "::jsonb);" := by decide +kernel
  have hrest : (utf8 "::jsonb);").head? ≠ some 39 := by decide +kernel
  have hhead : (insertQuery lib side text).dropPrefix? (insertHead lib side) =
      some (text ++ 39 :: utf8 "::jsonb);") := by
    rw [insertQuery, List.append_assoc, ← hend]
    exact List.dropPrefix?_append_of_beq _ (beq_self_eq_true _)
  rw [readInsert, hhead]
  constructor
  · intro h
    obtain ⟨rest, hdropped, h⟩ := Option.bind_eq_some_iff.mp h
    obtain ⟨r, hconstant, h⟩ := Option.bind_eq_some_iff.mp h
    have hread : r.2 = utf8 "::jsonb);" ∧ r.1 = text := by simpa using h
    have hr : r = (text, utf8 "::jsonb);") := Prod.ext hread.2 hread.1
    rw [← Option.some.inj hdropped, hr] at hconstant
    have hlength := length_of_readConstant hconstant
    rw [List.length_append, List.length_cons] at hlength
    exact List.count_eq_zero.mp (by omega)
  · intro hquote
    simp [readConstant_quote hquote hrest]

end Constants

/-- A step that keeps what all instances keep, and is one of the list. -/
structure Follows (w : World δ) (op : Op δ) (out : World δ × Result δ) : Prop where
  sound : Sound none out.1
  simulates : Transition (action w op out.2) (deque w) (deque out.1)

section Steps

variable {lib : Library δ} {w : World δ} {i id : Nat}

theorem follows_self {op : Op δ} {result : Result δ} (hw : Sound none w)
    (hstays : action w op result = .stays) : Follows w op (w, result) where
  sound := hw
  simulates := by
    rw [hstays]
    exact .stays (deque w)

theorem follows_push {side : Side} {data : δ} {io : Io} (hw : Sound none w)
    (hquoted : Quoted lib w (.push i side data io)) :
    Follows w (.push i side data io) (PersistentDeque.push lib w i side data io) := by
  unfold PersistentDeque.push
  split
  case isTrue => exact follows_self hw rfl
  case isFalse hbusy =>
    split
    case h_1 => exact follows_self hw rfl
    case h_2 text hdump =>
      split
      case isTrue => exact follows_self hw rfl
      case isFalse hidle =>
        split
        case h_1 => exact follows_self hw rfl
        case h_2 hrefusal =>
          split
          case h_1 => exact follows_self hw rfl
          case h_2 rows hrows =>
            split
            case h_1 => exact follows_self hw rfl
            case h_2 hcommit =>
              have hlt : w.seq < w.seq + io.skipped + 1 := by omega
              have hplain : 39 ∉ text := by
                rcases hquoted i side data io text rfl hdump with h | h | h | h | h | h
                · exact h
                · exact absurd h hbusy
                · exact absurd h hidle
                · exact absurd hrefusal h
                · exact absurd hcommit h
                · rw [hrows] at h
                  cases h
              rw [execInsert, (readInsert_insertQuery_iff lib side).mpr hplain] at hrows
              obtain ⟨data', hjsonb, hrows⟩ := Option.map_eq_some_iff.mp hrows
              obtain rfl : data' = data := lib.jsonb_dump data text data' hdump hjsonb
              subst hrows
              exact ⟨hw.push side hlt data', transition_push hw side hlt data' rfl⟩

theorem follows_take {side : Side} {pop : Bool} {io : Io} (hw : Sound none w) :
    Follows w (.take i side pop io) (take lib w i side pop io) := by
  unfold take
  split
  case isTrue => exact follows_self hw rfl
  case isFalse =>
    split
    case isTrue => exact follows_self hw rfl
    case isFalse hidle =>
      rw [ne_eq, not_not] at hidle
      split
      case h_1 => exact follows_self hw rfl
      case h_2 =>
        split
        case h_1 => exact follows_self hw rfl
        case h_2 r hr =>
          obtain ⟨hmem, hfree⟩ := select_eq_some hw hidle hr
          split
          case isTrue =>
            exact ⟨hw.acquire hmem hfree hidle _, transition_acquire hw hidle hr _⟩
          case isFalse =>
            exact ⟨hw.acquire hmem hfree hidle _, transition_acquire hw hidle hr _⟩

theorem letsGo_eq {e : Element δ} (he : w.elements id = some e) {l : List (Slot δ Nat)}
    (hl : l = if e.work = .opened then HeldDeque.release e.owner (deque w) else deque w) :
    Transition (letsGo w id) (deque w) l := by
  rw [letsGo, he, hl]
  by_cases hopened : e.work = .opened
  · rw [if_pos hopened]
    simp only [hopened, if_true]
    exact .releases e.owner (deque w)
  · rw [if_neg hopened]
    simp only [hopened, if_false]
    exact .stays (deque w)

theorem popElement_cases (lib : Library δ) {e : Element δ} (hw : Sound none w) (he : w.elements id = some e)
    (io : Io) :
    (∃ w' err, popElement lib w id e io = (w', .error err) ∧ Sound none w' ∧
      w'.elements id = some e ∧
      deque w' = if e.work = .opened then HeldDeque.release e.owner (deque w) else deque w) ∨
    (∃ f, popElement lib w id e io =
      (w.leave id e (some { e with work := .closed }), .thrown f)) ∨
    (popElement lib w id e io =
        ((w.delete e).leave id e (some { e with work := .closed }), .done) ∧
      e.work = .opened ∧ w.transactions e.owner = .live id) := by
  unfold popElement
  cases hwork : e.work with
  | null => exact .inl ⟨w, _, rfl, hw, he, rfl⟩
  | closed => exact .inl ⟨w, _, rfl, hw, he, rfl⟩
  | opened =>
      rcases hw.registered id e he hwork with hlive | hfailed
      · simp only [hlive, if_true]
        cases io.refusal with
        | some f => exact .inl ⟨_, _, rfl, hw.fail hlive, he, deque_unlock e.owner rfl⟩
        | none =>
            cases io.commit with
            | some f => exact .inr (.inl ⟨f, rfl⟩)
            | none => exact .inr (.inr ⟨rfl, trivial, trivial⟩)
      · have hnone : ∀ r ∈ w.rows, r.locker ≠ some e.owner := by
          intro r hr hlocker
          obtain ⟨id', -, hlive, -⟩ := hw.locked r hr e.owner hlocker
          rw [hfailed] at hlive
          cases hlive
        simp only [hfailed, if_true]
        exact .inl ⟨w, _, rfl, hw, he, (release_deque hnone).symm⟩

theorem follows_onElement {op : Op δ} {act : Element δ → World δ × Result δ} (hw : Sound none w)
    (habsent : action w op .absent = .stays)
    (hact : ∀ e, w.elements id = some e → Follows w op (act e)) :
    Follows w op (onElement w id act) := by
  unfold onElement
  split
  case h_1 => exact follows_self hw habsent
  case h_2 e he =>
    split
    case isTrue => exact follows_self hw habsent
    case isFalse => exact hact e he

theorem follows_pop {io : Io} (hw : Sound none w) : Follows w (.pop id io) (pop lib w id io) := by
  apply follows_onElement hw rfl
  intro e he
  rcases popElement_cases lib hw he io with
    ⟨w', err, hpop, hw', -, hdeque⟩ | ⟨f, hpop⟩ | ⟨hpop, hopened, hlive⟩
  · rw [hpop]
    exact ⟨hw', letsGo_eq he hdeque⟩
  · rw [hpop]
    exact ⟨hw.leave (by simp) he (by simp), letsGo_eq he (deque_leave id e _)⟩
  · rw [hpop]
    refine ⟨(hw.delete he hopened hlive).leave (by simp) he (by simp), ?_⟩
    rw [action, he]
    exact transition_delete hw he hopened hlive _

theorem drop_eq {w : World δ} {e : Element δ} (he : w.elements id = some e) :
    w.drop id = w.leave id e none := by
  rw [World.drop, he]

theorem leave_elements (w : World δ) (id : Nat) (e : Element δ) (left : Option (Element δ)) :
    (w.leave id e left).elements = Function.update w.elements id left := by
  by_cases hopened : e.work = .opened
  · rw [World.leave_opened hopened]
  · rw [World.leave_of_ne hopened]

theorem follows_finish {io : Io} (hw : Sound none w) :
    Follows w (.finish id io) (finish lib w id io) := by
  unfold finish
  split
  case h_1 => exact follows_self hw rfl
  case h_2 e he =>
    split
    case h_1 => exact follows_self hw rfl
    case h_2 side hcall =>
      have hclosed : ∀ w' : World δ,
          (w'.leave id e (some { e with work := .closed })).elements id =
            some { e with work := .closed } := by
        intro w'
        rw [leave_elements, Function.update_self]
      rcases popElement_cases lib hw he io with
        ⟨w', err, hpop, hw', he', hdeque⟩ | ⟨f, hpop⟩ | ⟨hpop, hopened, hlive⟩
      · rw [hpop]
        dsimp only
        refine ⟨?_, letsGo_eq he ?_⟩
        · rw [drop_eq he']
          exact hw'.leave (by simp) he' (by simp)
        · rw [drop_eq he', deque_leave, hdeque]
          split
          · exact release_release e.owner (deque w)
          · rfl
      · rw [hpop]
        dsimp only
        have hleft : Sound none (w.leave id e (some { e with work := .closed })) :=
          hw.leave (by simp) he (by simp)
        refine ⟨?_, letsGo_eq he ?_⟩
        · rw [drop_eq (hclosed w)]
          exact hleft.leave (by simp) (hclosed w) (by simp)
        · rw [drop_eq (hclosed w), deque_leave, if_neg (by simp), deque_leave]
      · rw [hpop]
        dsimp only
        have hleft : Sound none ((w.delete e).leave id e (some { e with work := .closed })) :=
          (hw.delete he hopened hlive).leave (by simp) he (by simp)
        refine ⟨hleft.leave (by simp) (hclosed _) (by simp), ?_⟩
        rw [action, he, deque_leave, if_neg (by simp)]
        exact transition_delete hw he hopened hlive _

theorem follows_release (hw : Sound none w) : Follows w (.release id) (release w id) := by
  apply follows_onElement hw rfl
  intro e he
  exact ⟨hw.leave (by simp) he (by simp), letsGo_eq he (deque_leave id e _)⟩

theorem follows_destroy (hw : Sound none w) : Follows w (.destroy id) (destroy w id) := by
  apply follows_onElement hw rfl
  intro e he
  exact ⟨hw.leave (by simp) he (by simp), letsGo_eq he (deque_leave id e _)⟩

theorem follows_breaks (hw : Sound none w) : Follows w (.breaks i) (breaks w i) := by
  have hreleases : ∀ w' : World δ, deque w' = HeldDeque.release i (deque w) →
      Transition (.releases i) (deque w) (deque w') := by
    intro w' hw'
    rw [hw']
    exact .releases i (deque w)
  unfold breaks
  split
  case h_1 id hlive => exact ⟨hw.fail hlive, hreleases _ (deque_unlock i rfl)⟩
  case h_2 hother =>
    have hnone : ∀ r ∈ w.rows, r.locker ≠ some i := by
      intro r hr hlocker
      obtain ⟨id, -, hlive, -⟩ := hw.locked r hr i hlocker
      exact hother id hlive
    exact ⟨hw, hreleases w (release_deque hnone).symm⟩

theorem follows_step {op : Op δ} (hw : Sound none w) (hquoted : Quoted lib w op) :
    Follows w op (step lib w op) := by
  cases op with
  | push => exact follows_push hw hquoted
  | take => exact follows_take hw
  | finish => exact follows_finish hw
  | pop => exact follows_pop hw
  | release => exact follows_release hw
  | destroy => exact follows_destroy hw
  | breaks => exact follows_breaks hw

end Steps

section Runs

variable {lib : Library δ} {w : World δ}

theorem Sound.held_iff (hw : Sound none w) {r : Row δ} (hr : r ∈ w.rows) (i : Nat) :
    r.locker = some i ↔ ∃ id, Holds w id i r.pos := by
  constructor
  · intro hlocker
    obtain ⟨id, e, hlive, he, howner, hopened, hpos⟩ := hw.locked r hr i hlocker
    exact ⟨id, e, he, hopened, hlive, howner, hpos⟩
  · rintro ⟨id, e, he, hopened, hlive, rfl, hpos⟩
    obtain ⟨r', hr', hitem, hlocker⟩ := hw.backed id e (by simp) he hopened hlive
    have hpos' : r'.pos = e.pos := congrArg Prod.fst hitem
    rw [← hw.eq_of_pos hr' hr (hpos'.trans hpos)]
    exact hlocker

theorem Sound.exclusive (hw : Sound none w) {id id' i i' : Nat} {pos : Int}
    (h : Holds w id i pos) (h' : Holds w id' i' pos) : id = id' ∧ i = i' := by
  obtain ⟨e, he, hopened, hlive, rfl, rfl⟩ := h
  obtain ⟨e', he', hopened', hlive', rfl, hpos⟩ := h'
  obtain ⟨r, hr, hitem, hlocker⟩ := hw.backed id e (by simp) he hopened hlive
  obtain ⟨r', hr', hitem', hlocker'⟩ := hw.backed id' e' (by simp) he' hopened' hlive'
  have hrow : r.pos = r'.pos :=
    (congrArg Prod.fst hitem).trans (hpos.symm.trans (congrArg Prod.fst hitem').symm)
  rw [← hw.eq_of_pos hr hr' hrow, hlocker] at hlocker'
  have howner : e.owner = e'.owner := Option.some.inj hlocker'
  rw [← howner, hlive] at hlive'
  exact ⟨Transaction.live.inj hlive', howner⟩

theorem values_letsGo {id : Nat} {l l' : List (Slot δ Nat)} (h : Transition (letsGo w id) l l') :
    values l' = values l := by
  unfold letsGo at h
  split at h
  case h_1 e _ =>
    split at h
    case isTrue =>
      cases h
      exact values_release e.owner l
    case isFalse =>
      cases h
      rfl
  case h_2 =>
    cases h
    rfl

theorem values_of_error {op : Op δ} {err : Conn.Error} {l l' : List (Slot δ Nat)}
    (h : Transition (action w op (.error err)) l l') : values l' = values l := by
  cases op with
  | push =>
      cases h
      rfl
  | take =>
      cases h
      rfl
  | finish => exact values_letsGo h
  | pop => exact values_letsGo h
  | release => exact values_letsGo h
  | destroy => exact values_letsGo h
  | breaks i =>
      cases h
      exact values_release i l

theorem take_error {i : Nat} {side : Side} {pop : Bool} {io : Io} {err : Conn.Error}
    (h : (take lib w i side pop io).2 = .error err) :
    (∀ s ∈ deque w, s.holder ≠ none) ∨ io.refusal ≠ none ∨ w.transactions i ≠ .idle := by
  unfold take at h
  split at h
  case isTrue => cases h
  case isFalse =>
    split at h
    case isTrue hopen => exact .inr (.inr hopen)
    case isFalse =>
      split at h
      case h_1 f hrefusal => exact .inr (.inl (by simp [hrefusal]))
      case h_2 =>
        split at h
        case h_1 hnone => exact .inl (held_of_select_eq_none hnone)
        case h_2 =>
          split at h
          case isTrue => cases h
          case isFalse => cases h

theorem refined_step {op : Op δ} (hw : Sound none w) (hquoted : Quoted lib w op) :
    Refined lib w op := by
  have hfollows := follows_step hw hquoted
  have hsound : Sound none (next lib w op) := hfollows.sound
  exact {
    simulates := hfollows.simulates
    unchanged := by
      intro err herr
      have hsimulates := hfollows.simulates
      rw [herr] at hsimulates
      exact values_of_error hsimulates
    finds := by
      rintro i side pop io err rfl herr
      exact take_error herr
    held := fun r hr i => hsound.held_iff hr i
    exclusive := fun _ _ _ _ _ h h' => hsound.exclusive h h'
    once := hsound.once
    conserved := hsound.conserved }

/-- Every run of the instances of a deque is one of the list that they share, if the texts of what
is pushed have no quote in them. -/
theorem refined_run (lib : Library δ) {ops : List (Op δ)}
    (h : AtEachStep (next lib) World.new (Quoted lib) ops) :
    AtEachStep (next lib) World.new (Refined lib) ops :=
  h.of_invariant sound_new (fun _ _ hw hquoted => (follows_step hw hquoted).sound)
    fun _ _ hw hquoted => refined_step hw hquoted

end Runs

section Samples

/-- JSON strings of characters that need no escape. -/
def sampleJsonb : Bytes → Option Bytes
  | [] => none
  | c :: text => if c = 34 ∧ text.getLast? = some 34 then some text.dropLast else none

def sampleLibrary : Library Bytes where
  file := utf8 "persistent-deque.cpp"
  table := utf8 "__deque_jobs__"
  dump s := some (34 :: (s ++ [34]))
  jsonb := sampleJsonb
  jsonb_dump := by
    rintro d text d' hdump hjsonb
    obtain rfl := Option.some.inj hdump
    simpa [sampleJsonb] using hjsonb.symm
  other _ _ := none
  invalidUtf8 := utf8 "invalid UTF-8 byte"
  usageError := utf8 "Started new transaction while transaction was still active."
  unexpectedRows := utf8 "Expected 1 row(s) of data, got 0."
  refused _ := utf8 "ERROR:  syntax error"
  aborted := utf8 "ERROR:  current transaction is aborted"

def plainIo : Io := ⟨none, none, 0⟩

def pushed? : Op δ → Option δ
  | .push _ _ data _ => some data
  | _ => none

def sampleOps : List (Op Bytes) :=
  [.push 0 .back (utf8 "a") plainIo, .push 1 .back (utf8 "b") plainIo,
    .push 0 .front (utf8 "c") plainIo, .take 2 .back false plainIo, .take 3 .back true plainIo,
    .take 4 .front false plainIo, .finish 1 plainIo, .release 0, .pop 2 plainIo]

theorem refined_sampleOps :
    deque (sampleOps.foldl (next sampleLibrary) World.new) = [⟨utf8 "b", none⟩] ∧
      AtEachStep (next sampleLibrary) World.new (Refined sampleLibrary) sampleOps := by
  refine ⟨by decide +kernel, refined_run sampleLibrary ?_⟩
  rintro pre op post hsplit i side data io text rfl hdump
  have hmem : Op.push i side data io ∈ sampleOps := by
    rw [hsplit]
    simp
  obtain rfl := Option.some.inj hdump
  have hplain : ∀ op ∈ sampleOps, ∀ data ∈ pushed? op, 39 ∉ data := by decide +kernel
  left
  simpa using hplain _ hmem data rfl

/-- A pair of quotes is one quote in the table. -/
theorem not_refined_quotes :
    ¬AtEachStep (next sampleLibrary) World.new (Refined sampleLibrary)
      [.push 0 .back (utf8 "it''s") plainIo] := by
  intro h
  have hpushes : ∀ l l' : List (Slot Bytes Nat),
      Transition (.pushes .back (utf8 "it''s")) l l' → values l' = values l ++ [utf8 "it''s"] := by
    intro l l' hl
    cases hl
    exact List.map_append
  have hsimulates := (h [] _ [] rfl).simulates
  have hdone : (step sampleLibrary World.new (.push 0 .back (utf8 "it''s") plainIo)).2 = .done := by
    decide +kernel
  have hdeque : deque (next sampleLibrary World.new (.push 0 .back (utf8 "it''s") plainIo)) =
      [⟨utf8 "it's", none⟩] := by
    decide +kernel
  rw [List.foldl_nil, hdone, hdeque] at hsimulates
  have hvalues := hpushes _ _ hsimulates
  exact absurd hvalues (by decide +kernel)

end Samples

end PgFort.DequeRefinement
