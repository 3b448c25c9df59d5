import Mathlib.Data.List.Basic
import Mathlib.Data.List.Infix

/-!
Regular expressions that are matched by backtracking, search for the leftmost match, and
replacement of one match after the other. A symbol that no atom of an expression matches
separates what is found before it from what is found behind it.
-/

namespace PgFort.Regexes

variable {α : Type}

inductive Regex (α : Type) where
  | nothing
  | char (p : α → Bool)
  | seq (r r' : Regex α)
  | alt (r r' : Regex α)
  | star (greedy : Bool) (r : Regex α)
  | group (n : Nat) (r : Regex α)
  | ahead (r : Regex α)

/-- What the groups have matched, the latest first. -/
abbrev Groups (α : Type) := List (Nat × List α)

/-- A way to match the beginning of a text: the groups, and the rest of the text. -/
abbrev Way (α : Type) := Groups α × List α

/-- What has been read of a text, when `t` is left. -/
def upTo (s t : List α) : List α := s.take (s.length - t.length)

/-- The ways to match one expression after the other. An iteration that matches the empty text
is given up. -/
def iterate (ways : Groups α → List α → List (Way α)) (greedy : Bool) :
    Nat → Groups α → List α → List (Way α)
  | 0, gs, s => [(gs, s)]
  | n + 1, gs, s =>
      let more := ((ways gs s).filter fun w => decide (w.2.length < s.length)).flatMap fun w =>
        iterate ways greedy n w.1 w.2
      if greedy then more ++ [(gs, s)] else (gs, s) :: more

/-- All ways to match the beginning of a text, in the order in which they are tried. -/
def ways : Regex α → Groups α → List α → List (Way α)
  | .nothing, gs, s => [(gs, s)]
  | .char _, _, [] => []
  | .char p, gs, x :: s => if p x then [(gs, s)] else []
  | .seq r r', gs, s => (ways r gs s).flatMap fun w => ways r' w.1 w.2
  | .alt r r', gs, s => ways r gs s ++ ways r' gs s
  | .star greedy r, gs, s => iterate (ways r) greedy s.length gs s
  | .group n r, gs, s => (ways r gs s).map fun w => ((n, upTo s w.2) :: w.1, w.2)
  | .ahead r, gs, s => if (ways r gs s).isEmpty then [] else [(gs, s)]

structure Match (α : Type) where
  before : List α
  groups : Groups α
  after : List α

/-- The match at the beginning of a text. -/
def matchHere (r : Regex α) (s : List α) : Option (Match α) :=
  (ways r [] s).head?.map fun w => ⟨[], w.1, w.2⟩

/-- `regex_search`: the leftmost match. -/
def search (r : Regex α) : List α → Option (Match α)
  | [] => matchHere r []
  | x :: s =>
      match matchHere r (x :: s) with
      | some m => some m
      | none => (search r s).map fun m => { m with before := x :: m.before }

section Replace

variable {ε : Type}

/-- As many matches as there may be, each replaced, from the left to the right. -/
def replaceUpTo (r : Regex α) (f : Groups α → Except ε (List α)) :
    Nat → List α → Except ε (List α)
  | 0, s => .ok s
  | n + 1, s =>
      match search r s with
      | none => .ok s
      | some m => do
          let t ← f m.groups
          let u ← replaceUpTo r f n m.after
          return m.before ++ (t ++ u)

/-- `regex_replace`, with a function of the groups. -/
def replace (r : Regex α) (f : Groups α → Except ε (List α)) (s : List α) :
    Except ε (List α) :=
  replaceUpTo r f s.length s

end Replace

namespace Regex

/-- The expression matches the empty text. -/
def nullable : Regex α → Bool
  | nothing => true
  | char _ => false
  | seq r r' => r.nullable && r'.nullable
  | alt r r' => r.nullable || r'.nullable
  | star _ _ => true
  | group _ r => r.nullable
  | ahead _ => true

/-- No atom of the expression matches the symbol. -/
def avoids (sep : α) : Regex α → Bool
  | nothing => true
  | char p => !p sep
  | seq r r' => r.avoids sep && r'.avoids sep
  | alt r r' => r.avoids sep && r'.avoids sep
  | star _ r => r.avoids sep
  | group _ r => r.avoids sep
  | ahead r => r.avoids sep

end Regex

section Ways

variable {r : Regex α} {gs : Groups α} {s : List α} {w : Way α}

theorem suffix_of_mem_iterate {m : Groups α → List α → List (Way α)} {greedy : Bool}
    (hm : ∀ gs s, ∀ w ∈ m gs s, w.2 <:+ s) {n : Nat} (hw : w ∈ iterate m greedy n gs s) :
    w.2 <:+ s := by
  induction n generalizing gs s w with
  | zero =>
      rw [iterate, List.mem_singleton] at hw
      rw [hw]
  | succ n ih =>
      have hmore : ∀ w ∈ ((m gs s).filter fun w => decide (w.2.length < s.length)).flatMap
          (fun w => iterate m greedy n w.1 w.2), w.2 <:+ s := by
        intro w hw
        obtain ⟨v, hv, hw⟩ := List.mem_flatMap.mp hw
        exact (ih hw).trans (hm gs s v (List.mem_filter.mp hv).1)
      rw [iterate] at hw
      split at hw
      · rcases List.mem_append.mp hw with hw | hw
        · exact hmore w hw
        · rw [List.mem_singleton.mp hw]
      · rcases List.mem_cons.mp hw with rfl | hw
        · exact List.suffix_refl _
        · exact hmore w hw

theorem suffix_of_mem_ways (hw : w ∈ ways r gs s) : w.2 <:+ s := by
  induction r generalizing gs s w with
  | nothing =>
      rw [ways, List.mem_singleton] at hw
      rw [hw]
  | char p =>
      cases s with
      | nil => exact absurd hw List.not_mem_nil
      | cons x s =>
          rw [ways] at hw
          split at hw
          · rw [List.mem_singleton.mp hw]
            exact List.suffix_cons x s
          · exact absurd hw List.not_mem_nil
  | seq r r' ih ih' =>
      obtain ⟨v, hv, hw⟩ := List.mem_flatMap.mp hw
      exact (ih' hw).trans (ih hv)
  | alt r r' ih ih' =>
      rcases List.mem_append.mp hw with hw | hw
      · exact ih hw
      · exact ih' hw
  | star greedy r ih => exact suffix_of_mem_iterate (fun _ _ _ => ih) hw
  | group n r ih =>
      obtain ⟨v, hv, rfl⟩ := List.mem_map.mp hw
      exact ih (w := v) hv
  | ahead r ih =>
      rw [ways] at hw
      split at hw
      · exact absurd hw List.not_mem_nil
      · rw [List.mem_singleton.mp hw]

theorem length_lt_of_mem_ways (hr : r.nullable = false) (hw : w ∈ ways r gs s) :
    w.2.length < s.length := by
  induction r generalizing gs s w with
  | nothing => simp [Regex.nullable] at hr
  | char p =>
      cases s with
      | nil => exact absurd hw List.not_mem_nil
      | cons x s =>
          rw [ways] at hw
          split at hw
          · rw [List.mem_singleton.mp hw]
            exact Nat.lt_succ_self _
          · exact absurd hw List.not_mem_nil
  | seq r r' ih ih' =>
      obtain ⟨v, hv, hw⟩ := List.mem_flatMap.mp hw
      have hv' := (suffix_of_mem_ways hv).length_le
      have hw' := (suffix_of_mem_ways hw).length_le
      rw [Regex.nullable, Bool.and_eq_false_iff] at hr
      rcases hr with hr | hr
      · exact hw'.trans_lt (ih hr hv)
      · exact (ih' hr hw).trans_le hv'
  | alt r r' ih ih' =>
      rw [Regex.nullable, Bool.or_eq_false_iff] at hr
      rcases List.mem_append.mp hw with hw | hw
      · exact ih hr.1 hw
      · exact ih' hr.2 hw
  | star greedy r ih => simp [Regex.nullable] at hr
  | group n r ih =>
      obtain ⟨v, hv, rfl⟩ := List.mem_map.mp hw
      exact ih (w := v) hr hv
  | ahead r ih => simp [Regex.nullable] at hr

end Ways

section Atoms

variable {gs : Groups α} {s : List α}

theorem ways_foldr_seq_char [DecidableEq α] (l s : List α) :
    ways ((l.map fun c => Regex.char (· == c)).foldr .seq .nothing) gs s =
      if l <+: s then [(gs, s.drop l.length)] else [] := by
  induction l generalizing s with
  | nil => simp [ways]
  | cons c l ih =>
      rw [List.map_cons, List.foldr_cons, ways]
      cases s with
      | nil => simp [ways]
      | cons x s =>
          rw [ways]
          by_cases hx : x = c
          · simp [hx, ih, List.cons_prefix_cons]
          · simp [hx, Ne.symm hx, List.cons_prefix_cons]

theorem head?_iterate_char (p : α → Bool) {n : Nat} (hn : s.length ≤ n) :
    (iterate (ways (.char p)) true n gs s).head? = some (gs, s.dropWhile p) := by
  induction n generalizing s with
  | zero =>
      obtain rfl := List.length_eq_zero_iff.mp (Nat.le_zero.mp hn)
      rfl
  | succ n ih =>
      rw [iterate]
      cases s with
      | nil => rfl
      | cons x s =>
          rw [ways]
          by_cases hx : p x = true
          · have hs := ih (s := s) (Nat.le_of_succ_le_succ hn)
            simp [hx, hs]
          · simp [hx]

theorem head?_ways_star_char (p : α → Bool) :
    (ways (.star true (.char p)) gs s).head? = some (gs, s.dropWhile p) :=
  head?_iterate_char p le_rfl

theorem iterate_any {n : Nat} (hn : s.length ≤ n) :
    iterate (ways (.char fun _ => true)) false n gs s = s.tails.map fun t => (gs, t) := by
  induction n generalizing s with
  | zero =>
      obtain rfl := List.length_eq_zero_iff.mp (Nat.le_zero.mp hn)
      rfl
  | succ n ih =>
      rw [iterate]
      cases s with
      | nil => rfl
      | cons x s =>
          have hs := ih (s := s) (Nat.le_of_succ_le_succ hn)
          simp [ways, hs]

theorem ways_star_any :
    ways (.star false (.char fun _ => true)) gs s = s.tails.map fun t => (gs, t) :=
  iterate_any le_rfl

end Atoms

section Search

variable {r : Regex α} {s : List α} {m : Match α}

theorem matchHere_nil (hr : r.nullable = false) : matchHere r [] = none := by
  have hnone : ways r [] [] = [] :=
    List.eq_nil_iff_forall_not_mem.mpr fun w hw =>
      absurd (length_lt_of_mem_ways hr hw) (Nat.not_lt_zero _)
  rw [matchHere, hnone]
  rfl

theorem length_after_lt_of_matchHere (hr : r.nullable = false) (h : matchHere r s = some m) :
    m.after.length < s.length := by
  obtain ⟨w, hw, rfl⟩ := Option.map_eq_some_iff.mp h
  exact length_lt_of_mem_ways hr (List.mem_of_head? hw)

theorem length_after_lt (hr : r.nullable = false) (h : search r s = some m) :
    m.after.length < s.length := by
  induction s generalizing m with
  | nil => exact length_after_lt_of_matchHere hr h
  | cons x s ih =>
      rw [search] at h
      cases hhere : matchHere r (x :: s) with
      | some m' =>
          rw [hhere] at h
          obtain rfl := Option.some.inj h
          exact length_after_lt_of_matchHere hr hhere
      | none =>
          rw [hhere] at h
          obtain ⟨m', hm', rfl⟩ := Option.map_eq_some_iff.mp h
          exact (ih hm').trans (Nat.lt_succ_self _)

variable {ε : Type} {f : Groups α → Except ε (List α)}

theorem replaceUpTo_eq_of_le (hr : r.nullable = false) {n k : Nat} (hn : s.length ≤ n)
    (hk : s.length ≤ k) : replaceUpTo r f n s = replaceUpTo r f k s := by
  have hshort : ∀ n, replaceUpTo r f n ([] : List α) = .ok [] := by
    intro n
    cases n with
    | zero => rfl
    | succ n => rw [replaceUpTo, search, matchHere_nil hr]
  induction n generalizing k s with
  | zero =>
      obtain rfl := List.length_eq_zero_iff.mp (Nat.le_zero.mp hn)
      rw [hshort, hshort]
  | succ n ih =>
      cases k with
      | zero =>
          obtain rfl := List.length_eq_zero_iff.mp (Nat.le_zero.mp hk)
          rw [hshort, hshort]
      | succ k =>
          rw [replaceUpTo, replaceUpTo]
          cases hm : search r s with
          | none => rfl
          | some m =>
              have hless := length_after_lt hr hm
              simp only [ih (s := m.after) (k := k) (by omega) (by omega)]

theorem replace_eq (hr : r.nullable = false) :
    replace r f s =
      match search r s with
      | none => .ok s
      | some m => do
          let t ← f m.groups
          let u ← replace r f m.after
          return m.before ++ (t ++ u) := by
  cases s with
  | nil => rw [search, matchHere_nil hr, replace, List.length_nil, replaceUpTo]
  | cons x s =>
      rw [replace, List.length_cons, replaceUpTo]
      cases hm : search r (x :: s) with
      | none => rfl
      | some m =>
          have hless := length_after_lt hr hm
          rw [List.length_cons] at hless
          simp only [replace,
            replaceUpTo_eq_of_le (s := m.after) hr (k := m.after.length) (n := s.length) (by omega) le_rfl]

theorem search_of_matchHere (h : matchHere r s = some m) : search r s = some m := by
  cases s with
  | nil => exact h
  | cons x s => rw [search, h]

theorem search_cons_of_matchHere_none {x : α} (h : matchHere r (x :: s) = none) :
    search r (x :: s) = (search r s).map fun m => { m with before := x :: m.before } := by
  rw [search, h]

theorem replace_of_matchHere (hr : r.nullable = false) (h : matchHere r s = some m) :
    replace r f s = do
      let t ← f m.groups
      let u ← replace r f m.after
      return t ++ u := by
  have hbefore : m.before = [] := by
    obtain ⟨w, -, rfl⟩ := Option.map_eq_some_iff.mp h
    rfl
  rw [replace_eq hr, search_of_matchHere h]
  simp only [hbefore, List.nil_append]

theorem replace_cons_of_matchHere_none {x : α} (hr : r.nullable = false)
    (h : matchHere r (x :: s) = none) :
    replace r f (x :: s) = do
      let u ← replace r f s
      return x :: u := by
  rw [replace_eq hr, search_cons_of_matchHere_none h, replace_eq hr (s := s)]
  cases search r s with
  | none => rfl
  | some m =>
      change (do
        let t ← f m.groups
        let u ← replace r f m.after
        return x :: m.before ++ (t ++ u)) = (do
        let u ← (do
          let t ← f m.groups
          let u ← replace r f m.after
          return m.before ++ (t ++ u))
        return x :: u)
      simp only [bind_assoc, pure_bind, List.cons_append]

theorem exists_error_of_replace {e : ε} (hr : r.nullable = false)
    (h : replace r f s = .error e) : ∃ gs, f gs = .error e := by
  induction hlength : s.length using Nat.strong_induction_on generalizing s with
  | h n ih =>
      rw [replace_eq hr] at h
      cases hm : search r s with
      | none =>
          rw [hm] at h
          exact nomatch h
      | some m =>
          rw [hm] at h
          cases ht : f m.groups with
          | error e' =>
              have he : e' = e := by simpa [ht, bind, Except.bind] using h
              exact ⟨m.groups, he ▸ ht⟩
          | ok t =>
              cases hu : replace r f m.after with
              | error e' =>
                  have he : e' = e := by simpa [ht, hu, bind, Except.bind] using h
                  exact ih m.after.length (hlength ▸ length_after_lt hr hm) (he ▸ hu) rfl
              | ok u => simp [ht, hu, bind, Except.bind, pure, Except.pure] at h

theorem exists_replace (hr : r.nullable = false) (hf : ∀ gs, ∃ t, f gs = .ok t) (s : List α) :
    ∃ t, replace r f s = .ok t := by
  cases h : replace r f s with
  | ok t => exact ⟨t, rfl⟩
  | error e =>
      obtain ⟨gs, hgs⟩ := exists_error_of_replace hr h
      obtain ⟨t, ht⟩ := hf gs
      simp [hgs] at ht

end Search

section Separator

variable {r : Regex α} {sep : α} {a b : List α} {gs : Groups α}

/-- Go on with more text behind. -/
def extend (t : List α) (w : Way α) : Way α := (w.1, w.2 ++ t)

theorem upTo_append {s t : List α} (h : t <:+ s) (u : List α) : upTo (s ++ u) (t ++ u) = upTo s t := by
  have hlength := h.length_le
  rw [upTo, upTo, List.length_append, List.length_append,
    show s.length + u.length - (t.length + u.length) = s.length - t.length by omega,
    List.take_append_of_le_length (Nat.sub_le _ _)]

theorem iterate_eq_of_le {m : Groups α → List α → List (Way α)} {greedy : Bool} {n k : Nat}
    {s : List α} (hn : s.length ≤ n) (hk : s.length ≤ k) :
    iterate m greedy n gs s = iterate m greedy k gs s := by
  induction n generalizing k gs s with
  | zero =>
      obtain rfl := List.length_eq_zero_iff.mp (Nat.le_zero.mp hn)
      cases k with
      | zero => rfl
      | succ k => cases greedy <;> simp [iterate]
  | succ n ih =>
      cases k with
      | zero =>
          obtain rfl := List.length_eq_zero_iff.mp (Nat.le_zero.mp hk)
          cases greedy <;> simp [iterate]
      | succ k =>
          rw [iterate, iterate]
          have hmore : ∀ w ∈ (m gs s).filter fun w => decide (w.2.length < s.length),
              iterate m greedy n w.1 w.2 = iterate m greedy k w.1 w.2 := by
            intro w hw
            have hless := of_decide_eq_true (List.mem_filter.mp hw).2
            exact ih (by omega) (by omega)
          rw [List.flatMap_congr hmore]

theorem iterate_append {m : Groups α → List α → List (Way α)} {greedy : Bool} {u : List α}
    (hm : ∀ gs s, m gs (s ++ u) = (m gs s).map (extend u)) {n : Nat} {s : List α}
    (hn : s.length ≤ n) :
    iterate m greedy n gs (s ++ u) = (iterate m greedy n gs s).map (extend u) := by
  induction n generalizing gs s with
  | zero => rfl
  | succ n ih =>
      have hmore : ((m gs (s ++ u)).filter fun w => decide (w.2.length < (s ++ u).length)).flatMap
            (fun w => iterate m greedy n w.1 w.2) =
          (((m gs s).filter fun w => decide (w.2.length < s.length)).flatMap
            fun w => iterate m greedy n w.1 w.2).map (extend u) := by
        rw [hm, List.filter_map, List.flatMap_map, List.map_flatMap]
        have hfilter : ((fun w : Way α => decide (w.2.length < (s ++ u).length)) ∘ extend u) =
            fun w => decide (w.2.length < s.length) := by
          funext w
          simp [extend]
        rw [hfilter]
        refine List.flatMap_congr fun w hw => ?_
        have hless := of_decide_eq_true (List.mem_filter.mp hw).2
        exact ih (by omega)
      rw [iterate, iterate, hmore]
      split
      · rw [List.map_append]
        rfl
      · rfl

/-- No way leads beyond a symbol that the expression avoids. -/
theorem ways_append (hr : r.avoids sep = true) (s : List α) (gs : Groups α) :
    ways r gs (s ++ sep :: b) = (ways r gs s).map (extend (sep :: b)) := by
  induction r generalizing gs s with
  | nothing => rfl
  | char p =>
      cases s with
      | nil =>
          have hsep : p sep = false := by simpa [Regex.avoids] using hr
          simp [ways, hsep]
      | cons x s =>
          simp only [ways, List.cons_append]
          split <;> rfl
  | seq r r' ih ih' =>
      rw [Regex.avoids, Bool.and_eq_true] at hr
      rw [ways, ih hr.1, ways, List.flatMap_map, List.map_flatMap]
      exact List.flatMap_congr fun w _ => ih' hr.2 w.2 w.1
  | alt r r' ih ih' =>
      rw [Regex.avoids, Bool.and_eq_true] at hr
      rw [ways, ih hr.1, ih' hr.2, ways, List.map_append]
  | star greedy r ih =>
      rw [ways, ways, iterate_append (fun gs s => ih hr s gs) (by simp)]
      rw [iterate_eq_of_le (k := s.length) (by simp) le_rfl]
  | group n r ih =>
      rw [ways, ih hr, ways, List.map_map, List.map_map]
      refine List.map_congr_left fun w hw => ?_
      simp only [Function.comp_apply, extend, upTo_append (suffix_of_mem_ways hw)]
  | ahead r ih =>
      rw [ways, ih hr, ways, List.isEmpty_map]
      split <;> rfl

theorem matchHere_append (hr : r.avoids sep = true) (s : List α) :
    matchHere r (s ++ sep :: b) =
      (matchHere r s).map fun m => { m with after := m.after ++ sep :: b } := by
  rw [matchHere, ways_append hr, List.head?_map, Option.map_map, matchHere, Option.map_map]
  rfl

theorem search_append (hr : r.avoids sep = true) (hempty : r.nullable = false) (a : List α) :
    search r (a ++ sep :: b) =
      match search r a with
      | some m => some { m with after := m.after ++ sep :: b }
      | none => (search r b).map fun m => { m with before := a ++ sep :: m.before } := by
  induction a with
  | nil =>
      have hhere : matchHere r (sep :: b) = none := by
        have happend := matchHere_append (b := b) hr []
        rw [matchHere_nil hempty] at happend
        exact happend
      rw [List.nil_append, search_cons_of_matchHere_none hhere, search, matchHere_nil hempty]
      rfl
  | cons x a ih =>
      rw [List.cons_append, search, ← List.cons_append, matchHere_append hr, search, ih]
      cases matchHere r (x :: a) with
      | some m => rfl
      | none =>
          cases search r a with
          | some m => rfl
          | none =>
              rw [Option.map_none, Option.map_none, Option.map_map]
              rfl

variable {ε : Type} {f : Groups α → Except ε (List α)}

/-- Replacement is done separately on both sides of a symbol that the expression avoids. -/
theorem replace_append (hr : r.avoids sep = true) (hempty : r.nullable = false) (a b : List α) :
    replace r f (a ++ sep :: b) = do
      let a' ← replace r f a
      let b' ← replace r f b
      return a' ++ sep :: b' := by
  induction hlength : a.length using Nat.strong_induction_on generalizing a with
  | h n ih =>
      rw [replace_eq hempty, replace_eq hempty (s := a), search_append hr hempty]
      cases ha : search r a with
      | none =>
          rw [replace_eq hempty (s := b)]
          cases search r b with
          | none => rfl
          | some m =>
              change (do
                let t ← f m.groups
                let u ← replace r f m.after
                return (a ++ sep :: m.before) ++ (t ++ u)) = (do
                let b' ← (do
                  let t ← f m.groups
                  let u ← replace r f m.after
                  return m.before ++ (t ++ u))
                return a ++ sep :: b')
              simp only [bind_assoc, pure_bind, List.append_assoc, List.cons_append]
      | some m =>
          have hless := length_after_lt hempty ha
          simp only [ih _ (hlength ▸ hless) m.after rfl, bind_assoc, pure_bind]
          refine bind_congr fun t => bind_congr fun a' => bind_congr fun b' => ?_
          simp only [List.append_assoc]

end Separator

section Found

/-- The groups of one match after the other, as a replacement comes by them. -/
def foundUpTo (r : Regex α) : Nat → List α → List (Groups α)
  | 0, _ => []
  | n + 1, s =>
      match search r s with
      | none => []
      | some m => m.groups :: foundUpTo r n m.after

/-- The groups of the matches, from the left to the right. -/
def found (r : Regex α) (s : List α) : List (Groups α) := foundUpTo r s.length s

variable {ε : Type} {r : Regex α} {f : Groups α → Except ε (List α)} {gs : Groups α} {s : List α}
  {w : Way α}

theorem exists_replaceUpTo_iff {n : Nat} :
    (∃ t, replaceUpTo r f n s = .ok t) ↔ ∀ gs ∈ foundUpTo r n s, ∃ t, f gs = .ok t := by
  induction n generalizing s with
  | zero => exact iff_of_true ⟨s, rfl⟩ fun _ h => absurd h List.not_mem_nil
  | succ n ih =>
      rw [replaceUpTo, foundUpTo]
      cases search r s with
      | none => exact iff_of_true ⟨s, rfl⟩ fun _ h => absurd h List.not_mem_nil
      | some m =>
          simp only [List.forall_mem_cons, ← ih]
          cases ht : f m.groups with
          | error e => simp [bind, Except.bind]
          | ok t =>
              cases hu : replaceUpTo r f n m.after with
              | error e => simp [bind, Except.bind]
              | ok u => simp [bind, Except.bind, pure, Except.pure]

theorem exists_replace_iff :
    (∃ t, replace r f s = .ok t) ↔ ∀ gs ∈ found r s, ∃ t, f gs = .ok t :=
  exists_replaceUpTo_iff

theorem exists_way_of_search {m : Match α} (h : search r s = some m) :
    ∃ t w, w ∈ ways r [] t ∧ m.groups = w.1 := by
  induction s generalizing m with
  | nil =>
      obtain ⟨w, hw, rfl⟩ := Option.map_eq_some_iff.mp h
      exact ⟨[], w, List.mem_of_head? hw, rfl⟩
  | cons x s ih =>
      rw [search] at h
      cases hhere : matchHere r (x :: s) with
      | some m' =>
          rw [hhere] at h
          obtain rfl := Option.some.inj h
          obtain ⟨w, hw, rfl⟩ := Option.map_eq_some_iff.mp hhere
          exact ⟨x :: s, w, List.mem_of_head? hw, rfl⟩
      | none =>
          rw [hhere] at h
          obtain ⟨m', hm', rfl⟩ := Option.map_eq_some_iff.mp h
          exact ih (m := m') hm'

theorem exists_way_of_mem_found (h : gs ∈ found r s) : ∃ t w, w ∈ ways r [] t ∧ gs = w.1 := by
  have hall : ∀ n s, gs ∈ foundUpTo r n s → ∃ t w, w ∈ ways r [] t ∧ gs = w.1 := by
    intro n
    induction n with
    | zero => exact fun s h => absurd h List.not_mem_nil
    | succ n ih =>
        intro s h
        rw [foundUpTo] at h
        cases hm : search r s with
        | none =>
            rw [hm] at h
            exact absurd h List.not_mem_nil
        | some m =>
            rw [hm] at h
            rcases List.mem_cons.mp h with rfl | h
            · exact exists_way_of_search hm
            · exact ih m.after h
  exact hall s.length s h

/-- The groups of an expression. -/
def Regex.subgroups : Regex α → List (Nat × Regex α)
  | nothing => []
  | char _ => []
  | seq r r' => r.subgroups ++ r'.subgroups
  | alt r r' => r.subgroups ++ r'.subgroups
  | star _ r => r.subgroups
  | group n r => (n, r) :: r.subgroups
  | ahead _ => []

/-- A text that the expression matches somewhere. -/
def Matches (r : Regex α) (t : List α) : Prop :=
  ∃ gs s w, w ∈ ways r gs s ∧ t = upTo s w.2

/-- The groups are those of the expressions with their numbers. -/
def Recorded (rs : List (Nat × Regex α)) (gs gs' : Groups α) : Prop :=
  ∀ g ∈ gs', g ∈ gs ∨ ∃ r, (g.1, r) ∈ rs ∧ Matches r g.2

theorem Recorded.mono {rs rs' : List (Nat × Regex α)} {gs' : Groups α} (h : Recorded rs gs gs')
    (hrs : rs ⊆ rs') : Recorded rs' gs gs' :=
  fun g hg => (h g hg).imp_right fun ⟨r, hr, hmatches⟩ => ⟨r, hrs hr, hmatches⟩

theorem Recorded.trans {rs : List (Nat × Regex α)} {gs' gs'' : Groups α}
    (h : Recorded rs gs gs') (h' : Recorded rs gs' gs'') : Recorded rs gs gs'' :=
  fun g hg => (h' g hg).elim (h g) .inr

theorem recorded_iterate {rs : List (Nat × Regex α)} {m : Groups α → List α → List (Way α)}
    {greedy : Bool} (hm : ∀ gs s, ∀ w ∈ m gs s, Recorded rs gs w.1) {n : Nat}
    (hw : w ∈ iterate m greedy n gs s) : Recorded rs gs w.1 := by
  induction n generalizing gs s w with
  | zero =>
      rw [iterate, List.mem_singleton] at hw
      rw [hw]
      exact fun _ => .inl
  | succ n ih =>
      have hmore : ∀ w ∈ ((m gs s).filter fun w => decide (w.2.length < s.length)).flatMap
          (fun w => iterate m greedy n w.1 w.2), Recorded rs gs w.1 := by
        intro w hw
        obtain ⟨v, hv, hw⟩ := List.mem_flatMap.mp hw
        exact (hm gs s v (List.mem_filter.mp hv).1).trans (ih hw)
      rw [iterate] at hw
      split at hw
      · rcases List.mem_append.mp hw with hw | hw
        · exact hmore w hw
        · rw [List.mem_singleton.mp hw]
          exact fun _ => .inl
      · rcases List.mem_cons.mp hw with rfl | hw
        · exact fun _ => .inl
        · exact hmore w hw

theorem recorded_of_mem_ways (hw : w ∈ ways r gs s) : Recorded r.subgroups gs w.1 := by
  induction r generalizing gs s w with
  | nothing =>
      rw [ways, List.mem_singleton] at hw
      rw [hw]
      exact fun _ => .inl
  | char p =>
      cases s with
      | nil => exact absurd hw List.not_mem_nil
      | cons x s =>
          rw [ways] at hw
          split at hw
          · rw [List.mem_singleton.mp hw]
            exact fun _ => .inl
          · exact absurd hw List.not_mem_nil
  | seq r r' ih ih' =>
      obtain ⟨v, hv, hw⟩ := List.mem_flatMap.mp hw
      exact ((ih hv).mono (List.subset_append_left _ _)).trans
        ((ih' hw).mono (List.subset_append_right _ _))
  | alt r r' ih ih' =>
      rcases List.mem_append.mp hw with hw | hw
      · exact (ih hw).mono (List.subset_append_left _ _)
      · exact (ih' hw).mono (List.subset_append_right _ _)
  | star greedy r ih => exact recorded_iterate (fun _ _ _ => ih) hw
  | group n r ih =>
      obtain ⟨v, hv, rfl⟩ := List.mem_map.mp hw
      intro g hg
      rcases List.mem_cons.mp hg with rfl | hg
      · exact .inr ⟨r, List.mem_cons_self, gs, s, v, hv, rfl⟩
      · exact ((ih hv).mono (List.subset_cons_self _ _)) g hg
  | ahead r ih =>
      rw [ways] at hw
      split at hw
      · exact absurd hw List.not_mem_nil
      · rw [List.mem_singleton.mp hw]
        exact fun _ => .inl

end Found

end PgFort.Regexes
