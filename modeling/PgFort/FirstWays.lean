import PgFort.Regexes

namespace PgFort.FirstWays

open PgFort.Regexes

variable {α : Type}

/-- A text that the expression can take; a look ahead takes none of it. -/
def Takes : Regex α → List α → Prop
  | .nothing, a => a = []
  | .char p, a => ∃ x, p x = true ∧ a = [x]
  | .seq r r', a => ∃ b c, Takes r b ∧ Takes r' c ∧ a = b ++ c
  | .alt r r', a => Takes r a ∨ Takes r' a
  | .star _ r, a => ∃ bs : List (List α), (∀ b ∈ bs, Takes r b) ∧ a = bs.flatten
  | .group _ r, a => Takes r a
  | .ahead _, a => a = []

/-- Whatever fit text follows, the expression takes the text first, and records the groups. -/
def First (r : Regex α) (a : List α) (new : Groups α) (fit : List α → Prop) : Prop :=
  ∀ gs rest, fit rest → (ways r gs (a ++ rest)).head? = some (new ++ gs, rest)

/-- The text does not begin with a symbol of a kind. -/
def NoStart (p : α → Bool) (s : List α) : Prop :=
  ∀ x, s.head? = some x → p x = false

/-- No match begins in a text, with what follows behind it. -/
def Unmatched (r : Regex α) (before following : List α) : Prop :=
  ∀ a u, before = a ++ u → u ≠ [] → matchHere r (u ++ following) = none

section Takes

variable {r : Regex α} {gs : Groups α} {s : List α} {w : Way α}

theorem exists_takes_of_mem_iterate {m : Groups α → List α → List (Way α)} {greedy : Bool}
    {P : List α → Prop} (hm : ∀ gs s, ∀ w ∈ m gs s, ∃ a, P a ∧ s = a ++ w.2) {n : Nat}
    (hw : w ∈ iterate m greedy n gs s) :
    ∃ bs : List (List α), (∀ b ∈ bs, P b) ∧ s = bs.flatten ++ w.2 := by
  induction n generalizing gs s w with
  | zero =>
      rw [iterate, List.mem_singleton] at hw
      exact ⟨[], fun _ h => absurd h List.not_mem_nil, by rw [hw]; rfl⟩
  | succ n ih =>
      have hmore : ∀ w ∈ ((m gs s).filter fun w => decide (w.2.length < s.length)).flatMap
          (fun w => iterate m greedy n w.1 w.2),
            ∃ bs : List (List α), (∀ b ∈ bs, P b) ∧ s = bs.flatten ++ w.2 := by
        intro w hw
        obtain ⟨v, hv, hw⟩ := List.mem_flatMap.mp hw
        obtain ⟨a, ha, hs⟩ := hm gs s v (List.mem_filter.mp hv).1
        obtain ⟨bs, hbs, hv⟩ := ih hw
        refine ⟨a :: bs, List.forall_mem_cons.mpr ⟨ha, hbs⟩, ?_⟩
        rw [hs, hv, List.flatten_cons, List.append_assoc]
      have hnone : ∃ bs : List (List α), (∀ b ∈ bs, P b) ∧ s = bs.flatten ++ s :=
        ⟨[], fun _ h => absurd h List.not_mem_nil, rfl⟩
      rw [iterate] at hw
      split at hw
      · rcases List.mem_append.mp hw with hw | hw
        · exact hmore w hw
        · rw [List.mem_singleton.mp hw]
          exact hnone
      · rcases List.mem_cons.mp hw with rfl | hw
        · exact hnone
        · exact hmore w hw

theorem exists_takes_of_mem_ways (hw : w ∈ ways r gs s) : ∃ a, Takes r a ∧ s = a ++ w.2 := by
  induction r generalizing gs s w with
  | nothing =>
      rw [ways, List.mem_singleton] at hw
      exact ⟨[], rfl, by rw [hw]; rfl⟩
  | char p =>
      cases s with
      | nil => exact absurd hw List.not_mem_nil
      | cons x s =>
          rw [ways] at hw
          split at hw
          · rename_i hx
            rw [List.mem_singleton.mp hw]
            exact ⟨[x], ⟨x, hx, rfl⟩, rfl⟩
          · exact absurd hw List.not_mem_nil
  | seq r r' ih ih' =>
      obtain ⟨v, hv, hw⟩ := List.mem_flatMap.mp hw
      obtain ⟨b, hb, hs⟩ := ih hv
      obtain ⟨c, hc, hv⟩ := ih' hw
      exact ⟨b ++ c, ⟨b, c, hb, hc, rfl⟩, by rw [hs, hv, List.append_assoc]⟩
  | alt r r' ih ih' =>
      rcases List.mem_append.mp hw with hw | hw
      · exact (ih hw).imp fun a h => ⟨.inl h.1, h.2⟩
      · exact (ih' hw).imp fun a h => ⟨.inr h.1, h.2⟩
  | star greedy r ih =>
      obtain ⟨bs, hbs, hs⟩ := exists_takes_of_mem_iterate (fun _ _ _ => ih) hw
      exact ⟨bs.flatten, ⟨bs, hbs, rfl⟩, hs⟩
  | group n r ih =>
      obtain ⟨v, hv, rfl⟩ := List.mem_map.mp hw
      exact ih (w := v) hv
  | ahead r ih =>
      rw [ways] at hw
      split at hw
      · exact absurd hw List.not_mem_nil
      · rw [List.mem_singleton.mp hw]
        exact ⟨[], rfl, rfl⟩

theorem ways_eq_nil (h : ∀ a rest, Takes r a → s ≠ a ++ rest) : ways r gs s = [] :=
  List.eq_nil_iff_forall_not_mem.mpr fun w hw => by
    obtain ⟨a, ha, hs⟩ := exists_takes_of_mem_ways hw
    exact h a w.2 ha hs

theorem not_mem_of_takes {sep : α} (hr : r.avoids sep = true) {a : List α} (ha : Takes r a) :
    sep ∉ a := by
  induction r generalizing a with
  | nothing =>
      obtain rfl : a = [] := ha
      exact List.not_mem_nil
  | char p =>
      obtain ⟨x, hx, rfl⟩ := ha
      rintro hsep
      rw [← List.mem_singleton.mp hsep] at hx
      simp [Regex.avoids, hx] at hr
  | seq r r' ih ih' =>
      obtain ⟨b, c, hb, hc, rfl⟩ := ha
      rw [Regex.avoids, Bool.and_eq_true] at hr
      rw [List.mem_append, not_or]
      exact ⟨ih hr.1 hb, ih' hr.2 hc⟩
  | alt r r' ih ih' =>
      rw [Regex.avoids, Bool.and_eq_true] at hr
      exact ha.elim (ih hr.1) (ih' hr.2)
  | star greedy r ih =>
      obtain ⟨bs, hbs, rfl⟩ := ha
      intro hsep
      obtain ⟨b, hb, hsep⟩ := List.mem_flatten.mp hsep
      exact ih hr (hbs b hb) hsep
  | group n r ih => exact ih hr ha
  | ahead r ih =>
      obtain rfl : a = [] := ha
      exact List.not_mem_nil

theorem exists_takes_of_matchHere {m : Match α} (h : matchHere r s = some m) :
    ∃ a, Takes r a ∧ s = a ++ m.after := by
  obtain ⟨w, hw, rfl⟩ := Option.map_eq_some_iff.mp h
  exact exists_takes_of_mem_ways (List.mem_of_head? hw)

theorem matchHere_eq_none (h : ∀ a rest, Takes r a → s ≠ a ++ rest) : matchHere r s = none := by
  rw [matchHere, ways_eq_nil h]
  rfl

end Takes

section First

variable {r r' : Regex α} {a b : List α} {new new' : Groups α} {fit fit' : List α → Prop}

theorem noStart_nil (p : α → Bool) : NoStart p [] := by
  simp [NoStart]

theorem noStart_cons {p : α → Bool} {x : α} {s : List α} : NoStart p (x :: s) ↔ p x = false := by
  simp [NoStart]

theorem noStart_append {p : α → Bool} {s : List α} (hs : ∀ x ∈ s, p x = false) {t : List α}
    (ht : NoStart p t) : NoStart p (s ++ t) := by
  cases s with
  | nil => exact ht
  | cons x s => exact noStart_cons.mpr (hs x List.mem_cons_self)

theorem noStart_append_of_ne_nil {p : α → Bool} {s : List α} (hne : s ≠ [])
    (hs : ∀ x ∈ s, p x = false) (t : List α) : NoStart p (s ++ t) := by
  obtain ⟨x, s, rfl⟩ := List.exists_cons_of_ne_nil hne
  exact noStart_cons.mpr (hs x List.mem_cons_self)

theorem append_inj_of_noStart {p : α → Bool} {a b s t : List α}
    (ha : ∀ x ∈ a, p x = true) (hb : ∀ x ∈ b, p x = true) (hs : NoStart p s) (ht : NoStart p t)
    (h : a ++ s = b ++ t) : a = b ∧ s = t := by
  have htake {s : List α} (hs : NoStart p s) : s.takeWhile p = [] := by
    cases s with
    | nil => rfl
    | cons x s => rw [List.takeWhile_cons_of_neg (by simp [noStart_cons.mp hs])]
  have htaken := congrArg (List.takeWhile p) h
  rw [List.takeWhile_append_of_pos ha, List.takeWhile_append_of_pos hb, htake hs, htake ht,
    List.append_nil, List.append_nil] at htaken
  exact ⟨htaken, List.append_cancel_left (htaken ▸ h)⟩

theorem First.mono (h : First r a new fit) (hfit : ∀ rest, fit' rest → fit rest) :
    First r a new fit' :=
  fun gs rest hrest => h gs rest (hfit rest hrest)

theorem first_nothing : First (.nothing : Regex α) [] [] fun _ => True :=
  fun _ _ _ => rfl

theorem first_char {p : α → Bool} {x : α} (hx : p x = true) :
    First (.char p) [x] [] fun _ => True := by
  intro gs rest _
  rw [List.singleton_append, ways, if_pos hx]
  rfl

theorem first_seq (h : First r a new fit) (h' : First r' b new' fit')
    (hfit : ∀ rest, fit' rest → fit (b ++ rest)) :
    First (.seq r r') (a ++ b) (new' ++ new) fit' := by
  intro gs rest hrest
  obtain ⟨ws, hws⟩ := List.head?_eq_some_iff.mp (h gs (b ++ rest) (hfit rest hrest))
  obtain ⟨vs, hvs⟩ := List.head?_eq_some_iff.mp (h' (new ++ gs) rest hrest)
  rw [ways, List.append_assoc, hws, List.flatMap_cons, hvs, List.append_assoc]
  rfl

theorem first_alt_left (h : First r a new fit) : First (.alt r r') a new fit := by
  intro gs rest hrest
  rw [ways, List.head?_append, h gs rest hrest, Option.some_or]

theorem first_alt_right (hnone : ∀ gs rest, fit rest → ways r gs (a ++ rest) = [])
    (h : First r' a new fit) : First (.alt r r') a new fit := by
  intro gs rest hrest
  rw [ways, hnone gs rest hrest, List.nil_append]
  exact h gs rest hrest

theorem first_group (n : Nat) (h : First r a new fit) :
    First (.group n r) a ((n, a) :: new) fit := by
  intro gs rest hrest
  rw [ways, List.head?_map, h gs rest hrest]
  have htaken : upTo (a ++ rest) rest = a := by
    rw [upTo, List.length_append, Nat.add_sub_cancel, List.take_left]
  simp only [Option.map_some, htaken, List.cons_append]

theorem first_star_char {p : α → Bool} (ha : ∀ x ∈ a, p x = true) :
    First (.star true (.char p)) a [] (NoStart p) := by
  intro gs rest hrest
  rw [head?_ways_star_char, List.nil_append, List.dropWhile_append_of_pos ha]
  cases rest with
  | nil => rfl
  | cons x rest => rw [List.dropWhile_cons_of_neg (by simpa using noStart_cons.mp hrest)]

theorem ways_star_of_nil {gs : Groups α} {s : List α} (h : ways r gs s = []) :
    ways (.star true r) gs s = [(gs, s)] := by
  rw [ways]
  cases s with
  | nil => rfl
  | cons x s => rw [List.length_cons, iterate, h]; rfl

theorem head?_ways_star {gs : Groups α} {s : List α} {w v : Way α}
    (h : (ways r gs s).head? = some w) (hless : w.2.length < s.length)
    (hrest : (ways (.star true r) w.1 w.2).head? = some v) :
    (ways (.star true r) gs s).head? = some v := by
  obtain ⟨n, hn⟩ : ∃ n, s.length = n + 1 := ⟨s.length - 1, by omega⟩
  obtain ⟨ws, hws⟩ := List.head?_eq_some_iff.mp h
  obtain ⟨vs, hvs⟩ := List.head?_eq_some_iff.mp hrest
  rw [ways] at hvs ⊢
  rw [hn, iterate, hws, List.filter_cons_of_pos (by simpa using hless), List.flatMap_cons,
    iterate_eq_of_le (k := w.2.length) (by omega) le_rfl, hvs]
  rfl

theorem first_star (items : List (List α × Groups α)) (fitItem : List α → Prop)
    (hitem : ∀ i ∈ items, i.1 ≠ [] ∧ First r i.1 i.2 fitItem ∧ ∀ rest, fitItem (i.1 ++ rest))
    (hend : ∀ gs rest, fit rest → ways r gs rest = [])
    (hfit : ∀ rest, fit rest → fitItem rest) :
    First (.star true r) (items.flatMap Prod.fst) (items.reverse.flatMap Prod.snd) fit := by
  induction items with
  | nil =>
      intro gs rest hrest
      rw [List.flatMap_nil, List.nil_append, ways_star_of_nil (hend gs rest hrest)]
      rfl
  | cons i items ih =>
      intro gs rest hrest
      obtain ⟨hne, hfirst, -⟩ := hitem i List.mem_cons_self
      have hlater := ih fun i hi => hitem i (List.mem_cons_of_mem _ hi)
      have hfollow : fitItem (items.flatMap Prod.fst ++ rest) := by
        cases items with
        | nil => exact hfit rest hrest
        | cons j items =>
            rw [List.flatMap_cons, List.append_assoc]
            exact (hitem j (by simp)).2.2 _
      rw [List.flatMap_cons, List.append_assoc]
      refine head?_ways_star (hfirst gs _ hfollow) ?_ ?_
      · have hpos := List.length_pos_of_ne_nil hne
        simp only [List.length_append]
        omega
      · rw [hlater (i.2 ++ gs) rest hrest, List.reverse_cons, List.flatMap_append,
          List.flatMap_singleton, List.append_assoc]

theorem matchHere_of_first (h : First r a new fit) {rest : List α} (hrest : fit rest) :
    matchHere r (a ++ rest) = some ⟨[], new, rest⟩ := by
  rw [matchHere, h [] rest hrest, List.append_nil]
  rfl

end First

section Search

variable {r : Regex α} {s : List α} {m : Match α}

theorem matchHere_of_search_eq_none (h : search r s = none) {a u : List α} (hs : s = a ++ u) :
    matchHere r u = none := by
  induction a generalizing s with
  | nil =>
      obtain rfl : s = u := hs
      cases s with
      | nil => exact h
      | cons x s =>
          rw [search] at h
          cases hhere : matchHere r (x :: s) with
          | none => rfl
          | some m => simp [hhere] at h
  | cons x a ih =>
      rw [hs, List.cons_append, search] at h
      split at h
      · simp at h
      · exact ih (Option.map_eq_none_iff.mp h) rfl

/-- The match that a search finds is the first one. -/
theorem exists_of_search (h : search r s = some m) :
    ∃ t, s = m.before ++ t ∧ matchHere r t = some { m with before := [] } ∧
      ∀ a u, m.before = a ++ u → u ≠ [] → matchHere r (u ++ t) = none := by
  have hbefore {s : List α} {m : Match α} (h : matchHere r s = some m) : m.before = [] := by
    obtain ⟨w, -, rfl⟩ := Option.map_eq_some_iff.mp h
    rfl
  have hhere {s : List α} {m : Match α} (h : matchHere r s = some m) :
      ∃ t, s = m.before ++ t ∧ matchHere r t = some { m with before := [] } ∧
        ∀ a u, m.before = a ++ u → u ≠ [] → matchHere r (u ++ t) = none := by
    have hnil := hbefore h
    refine ⟨s, by rw [hnil]; rfl, by rw [h, ← hnil], fun a u hsplit hu => ?_⟩
    rw [hnil] at hsplit
    exact absurd (List.append_eq_nil_iff.mp hsplit.symm).2 hu
  induction s generalizing m with
  | nil => exact hhere h
  | cons x s ih =>
      rw [search] at h
      split at h
      · rename_i m' hm'
        obtain rfl := Option.some.inj h
        exact hhere hm'
      · rename_i hnone
        obtain ⟨m', hm', rfl⟩ := Option.map_eq_some_iff.mp h
        obtain ⟨t, hs, ht, hfree⟩ := ih hm'
        refine ⟨t, by rw [hs]; rfl, ht, fun a u hsplit hu => ?_⟩
        cases a with
        | nil =>
            obtain rfl : x :: m'.before = u := hsplit
            rw [List.cons_append, ← hs]
            exact hnone
        | cons y a => exact hfree a u (List.cons.inj hsplit).2 hu

theorem unmatched_of_search {before following : List α}
    (h : (search r (before ++ following)).map Match.before = some before) :
    Unmatched r before following := by
  obtain ⟨m, hm, rfl⟩ := Option.map_eq_some_iff.mp h
  obtain ⟨t, hs, -, hfree⟩ := exists_of_search hm
  rwa [← List.append_cancel_left hs] at hfree

theorem unmatched_of_search_eq_none (h : search r s = none) : Unmatched r s [] := by
  intro a u hs _
  rw [List.append_nil]
  exact matchHere_of_search_eq_none h hs

variable {ε : Type} {f : Groups α → Except ε (List α)}

theorem replace_of_unmatched (hr : r.nullable = false) {before following : List α}
    (h : Unmatched r before following) :
    replace r f (before ++ following) = do
      let u ← replace r f following
      return before ++ u := by
  induction before with
  | nil =>
      cases hu : replace r f following <;>
        simp [hu, bind, Except.bind, pure, Except.pure]
  | cons x before ih =>
      have hnone : matchHere r (x :: (before ++ following)) = none :=
        h [] (x :: before) rfl (List.cons_ne_nil _ _)
      rw [List.cons_append, replace_cons_of_matchHere_none hr hnone,
        ih fun a u hsplit => h (x :: a) u (by rw [hsplit]; rfl)]
      simp only [bind_assoc, pure_bind, List.cons_append]

theorem replace_eq_self (hr : r.nullable = false) (h : Unmatched r s []) :
    replace r f s = .ok s := by
  have hs := replace_of_unmatched (f := f) hr h
  rw [List.append_nil] at hs
  rw [hs]
  change Except.ok (s ++ []) = _
  rw [List.append_nil]

end Search

section Backtracking

variable {p : α → Bool} {gs : Groups α}

theorem ways_star_char_cons (x : α) (s : List α) :
    ways (.star true (.char p)) gs (x :: s) =
      (if p x = true then ways (.star true (.char p)) gs s else []) ++ [(gs, x :: s)] := by
  rw [ways, List.length_cons, iterate, ways, if_pos rfl]
  by_cases hx : p x = true
  · rw [if_pos hx, if_pos hx, List.filter_cons_of_pos (by simp), List.filter_nil,
      List.flatMap_singleton, ways]
  · rw [if_neg hx, if_neg hx]
    rfl

theorem mem_ways_star_char {s : List α} {w : Way α} (hw : w ∈ ways (.star true (.char p)) gs s) :
    w.1 = gs ∧ ∃ a, s = a ++ w.2 ∧ ∀ x ∈ a, p x = true := by
  induction s with
  | nil =>
      obtain rfl := List.mem_singleton.mp hw
      exact ⟨rfl, [], rfl, fun _ h => absurd h List.not_mem_nil⟩
  | cons x s ih =>
      rw [ways_star_char_cons] at hw
      rcases List.mem_append.mp hw with hw | hw
      · split at hw
        · rename_i hx
          obtain ⟨hgs, a, rfl, ha⟩ := ih hw
          exact ⟨hgs, x :: a, rfl, List.forall_mem_cons.mpr ⟨hx, ha⟩⟩
        · exact absurd hw List.not_mem_nil
      · obtain rfl := List.mem_singleton.mp hw
        exact ⟨rfl, [], rfl, fun _ h => absurd h List.not_mem_nil⟩

/-- A greedy repetition goes back to the last place where what comes behind it is found. -/
theorem head?_flatMap_star {g : Way α → List (Way α)} {w : Way α} {t v : List α}
    (ht : ∀ x ∈ t, p x = true) (hlast : (g (gs, v)).head? = some w)
    (hnone : ∀ a u, v = a ++ u → a ≠ [] → (∀ x ∈ a, p x = true) → g (gs, u) = []) :
    ((ways (.star true (.char p)) gs (t ++ v)).flatMap g).head? = some w := by
  induction t with
  | nil =>
      rw [List.nil_append]
      cases v with
      | nil =>
          rw [show ways (.star true (.char p)) gs ([] : List α) = [(gs, [])] from rfl,
            List.flatMap_singleton]
          exact hlast
      | cons x v =>
          have hlonger : (if p x = true then ways (.star true (.char p)) gs v else []).flatMap g =
              [] := by
            refine List.flatMap_eq_nil_iff.mpr fun w' hw' => ?_
            split at hw'
            · rename_i hx
              obtain ⟨hgs, a, rfl, ha⟩ := mem_ways_star_char hw'
              have hw : w' = (gs, w'.2) := by rw [← hgs]
              rw [hw]
              exact hnone (x :: a) w'.2 rfl (List.cons_ne_nil _ _)
                (List.forall_mem_cons.mpr ⟨hx, ha⟩)
            · exact absurd hw' List.not_mem_nil
          rw [ways_star_char_cons, List.flatMap_append, hlonger, List.nil_append,
            List.flatMap_singleton]
          exact hlast
  | cons x t ih =>
      obtain ⟨hx, ht⟩ := List.forall_mem_cons.mp ht
      rw [List.cons_append, ways_star_char_cons, if_pos hx, List.flatMap_append,
        List.head?_append, ih ht, Option.some_or]

end Backtracking

end PgFort.FirstWays
