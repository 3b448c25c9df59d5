import Mathlib.Data.List.Nodup
import PgFort.ConnPools
import PgFort.KeyedTraversal

namespace PgFort.QueueOrder

open PgFort.BlockingQueues
open PgFort.ConnPools
open PgFort.KeyedTraversal
open PgFort.Runs

section Queues

variable {α : Type}

/-- What a call gives the queue. -/
def brought : Call α → List α
  | .push item => [item]
  | _ => []

/-- What a `Pop` has taken. -/
def taken : Outcome α → List α
  | .returns (some item) => [item]
  | _ => []

def pushed (steps : List (Nat × Call α)) : List α :=
  steps.flatMap fun s => brought s.2

/-- What the calls of `Pop` return in a run, in the order in which they return. -/
def returned (b : BlockingQueue α) : List (Nat × Call α) → List α
  | [] => []
  | s :: steps =>
      match b.act s.1 s.2 with
      | .ok (b', outcome) => taken outcome ++ returned b' steps
      | .error _ => []

variable {b b' : BlockingQueue α} {thread : Nat} {call : Call α} {outcome : Outcome α}

theorem brought_eq_nil (h : ∀ item, call ≠ .push item) : brought call = [] := by
  cases call with
  | push item => exact absurd rfl (h item)
  | pop ms => rfl
  | wake status => rfl

theorem taken_eq_nil (h : ∀ item, outcome ≠ .returns (some item)) : taken outcome = [] := by
  cases outcome with
  | pushed => rfl
  | waits => rfl
  | returns item =>
      cases item with
      | none => rfl
      | some item => exact absurd rfl (h item)

theorem q_append_brought (h : b.act thread call = .ok (b', outcome)) :
    b.q ++ brought call = taken outcome ++ b'.q := by
  rcases q_act h with ⟨item, rfl, rfl, hq⟩ | ⟨hcall, ⟨item, rfl, hq⟩ | ⟨houtcome, hq⟩⟩
  · exact hq.symm
  · rw [brought_eq_nil hcall, List.append_nil, hq]
    rfl
  · rw [brought_eq_nil hcall, taken_eq_nil houtcome, List.append_nil, hq]
    rfl

/-- However threads push and pop, and however their waits end, what pops have returned and what the
queue still has is what it had and was given since, in this order. -/
theorem inOrder_run {b₀ : BlockingQueue α} {steps : List (Nat × Call α)}
    (hrun : steps.foldlM step b₀ = .ok b) :
    b₀.q ++ pushed steps = returned b₀ steps ++ b.q := by
  induction steps generalizing b₀ with
  | nil =>
      obtain rfl := Except.ok.inj hrun
      exact List.append_nil _
  | cons s steps ih =>
      rw [List.foldlM_cons] at hrun
      obtain ⟨b₁, hstep, hrun⟩ := bind_eq_ok.mp hrun
      obtain ⟨outcome, hact⟩ := step_eq_ok.mp hstep
      rw [pushed, List.flatMap_cons, ← List.append_assoc, q_append_brought hact, returned, hact,
        List.append_assoc, List.append_assoc, ← ih hrun, pushed]

/-- Of two waits the second is over first. -/
def twoWaits : List (Nat × Call Nat) :=
  [(0, .pop 100), (1, .pop (-1)), (2, .push 7), (1, .wake .noTimeout), (2, .push 8), (2, .push 9),
    (0, .wake .noTimeout)]

theorem inOrder_twoWaits :
    ∃ b, twoWaits.foldlM step (.of []) = .ok b ∧
      (BlockingQueue.of []).q ++ pushed twoWaits = returned (.of []) twoWaits ++ b.q :=
  ⟨_, rfl, inOrder_run rfl⟩

end Queues

/-- The connections that have been made for a release and are not in the queue yet. -/
def inflight (releases : List (Nat × Release)) : List Nat :=
  releases.flatMap fun q =>
    match q.2 with
    | .pushes c => [c]
    | _ => []

/-- What `Acquire` returns in a step. -/
def handed (p : PqxxConnPool) (s : Nat × PoolCall) : List Nat :=
  match acquired p s with
  | .ok (_, outcome) => taken outcome
  | .error _ => []

/-- What the calls of `Acquire` return in a run, in the order in which they return. -/
def acquisitions (p : PqxxConnPool) : List (Nat × PoolCall) → List Nat
  | [] => []
  | s :: steps =>
      match p.step s with
      | .ok p' => handed p s ++ acquisitions p' steps
      | .error _ => []

def destroyed (steps : List (Nat × PoolCall)) : List Nat :=
  steps.flatMap fun s =>
    match s.2 with
    | .destroys c => [c]
    | _ => []

def pushes (steps : List (Nat × PoolCall)) : List Nat :=
  steps.flatMap fun s =>
    match s.2 with
    | .pushes c => [c]
    | _ => []

section Pools

variable {p p' : PqxxConnPool}

theorem step_cases {thread : Nat} {call : PoolCall} (h : p.step (thread, call) = .ok p') :
    (∃ ask outcome conns, acquired p (thread, call) = .ok (p', outcome) ∧ brought ask = [] ∧
        destroyed [(thread, call)] = [] ∧ pushes [(thread, call)] = [] ∧
        p.conns.act thread ask = .ok (conns, outcome) ∧
        p' = { p with conns, handedOut := p.handedOut ++ taken outcome }) ∨
      (∃ c, call = .destroys c ∧ p.releases.lookup thread = none ∧ c ∈ p.handedOut ∧
        p' = { p with
          handedOut := p.handedOut.erase c
          releases := p.releases ++ [(thread, .checks)] }) ∨
      (call = .checks ∧ p.releases.lookup thread = some .checks ∧
        (p' = p.setRelease thread .connects ∨ p' = p.endRelease thread)) ∨
      (call = .connects ∧ p.releases.lookup thread = some .connects ∧
        p' = { p.setRelease thread (.pushes p.made) with made := p.made + 1 }) ∨
      ∃ c conns, call = .pushes c ∧ p.releases.lookup thread = some (.pushes c) ∧
        p.conns.act thread (.push c) = .ok (conns, .pushed) ∧
        p' = PqxxConnPool.endRelease { p with conns } thread := by
  have hacquires {ask : Call Nat} (h : (p.acquire thread ask).map Prod.fst = .ok p') :
      ∃ outcome conns, p.acquire thread ask = .ok (p', outcome) ∧
        p.conns.act thread ask = .ok (conns, outcome) ∧
          p' = { p with conns, handedOut := p.handedOut ++ taken outcome } := by
    cases hacquire : p.acquire thread ask with
    | error e => simp [hacquire, Except.map] at h
    | ok r =>
        obtain ⟨p₁, outcome⟩ := r
        rw [hacquire] at h
        obtain rfl := Except.ok.inj h
        rw [PqxxConnPool.acquire] at hacquire
        split at hacquire
        · obtain ⟨conns, hact, ⟨c, rfl, rfl⟩ | ⟨hother, rfl⟩⟩ := onConns_eq_ok hacquire
          · exact ⟨_, conns, rfl, hact, rfl⟩
          · refine ⟨outcome, conns, rfl, hact, ?_⟩
            rw [taken_eq_nil hother, List.append_nil]
        · simp at hacquire
  cases call with
  | acquire ms =>
      obtain ⟨outcome, conns, hacquire, hact, hp'⟩ := hacquires h
      exact .inl ⟨_, outcome, conns, hacquire, rfl, rfl, rfl, hact, hp'⟩
  | wake status =>
      obtain ⟨outcome, conns, hacquire, hact, hp'⟩ := hacquires h
      exact .inl ⟨_, outcome, conns, hacquire, rfl, rfl, rfl, hact, hp'⟩
  | destroys c =>
      right; left
      simp only [PqxxConnPool.step, PqxxConnPool.destroy] at h
      split at h
      · rename_i hfree
        exact ⟨c, rfl, hfree.2.1, hfree.2.2, (Except.ok.inj h).symm⟩
      · simp at h
  | checks =>
      right; right; left
      simp only [PqxxConnPool.step, PqxxConnPool.check] at h
      split at h
      · rename_i hrelease
        split at h
        · exact ⟨rfl, hrelease, .inl (Except.ok.inj h).symm⟩
        · exact ⟨rfl, hrelease, .inr (Except.ok.inj h).symm⟩
      · simp at h
  | connects =>
      right; right; right; left
      simp only [PqxxConnPool.step, PqxxConnPool.connect] at h
      split at h
      · rename_i hrelease
        exact ⟨rfl, hrelease, (Except.ok.inj h).symm⟩
      · simp at h
  | pushes c =>
      right; right; right; right
      obtain ⟨hrelease, conns, hact, hp'⟩ := push_eq_ok h
      exact ⟨c, conns, rfl, hrelease, hact, hp'⟩

theorem releases_split {thread : Nat} {r : Release}
    (hkeys : (p.releases.map Prod.fst).Nodup) (h : p.releases.lookup thread = some r) :
    ∃ before after, p.releases = before ++ (thread, r) :: after ∧
      (∀ r', (p.setRelease thread r').releases = before ++ (thread, r') :: after) ∧
        (p.endRelease thread).releases = before ++ after := by
  obtain ⟨before, after, hsplit, -⟩ := List.lookup_eq_some_iff.mp h
  have hne : ∀ q ∈ before ++ after, q.1 ≠ thread := by
    intro q hq hthread
    rw [hsplit, List.map_append, List.map_cons, List.nodup_middle, List.nodup_cons,
      ← List.map_append] at hkeys
    exact hkeys.1 (List.mem_map.mpr ⟨q, hq, hthread⟩)
  have hsame (r' : Release) (l : List (Nat × Release)) (hl : ∀ q ∈ l, q ∈ before ++ after) :
      l.map (fun q => if q.1 = thread then (thread, r') else q) = l :=
    List.map_congr_left (g := id) (fun q hq => if_neg (hne q (hl q hq))) |>.trans l.map_id
  refine ⟨before, after, hsplit, fun r' => ?_, ?_⟩
  · rw [PqxxConnPool.setRelease]
    change p.releases.map _ = _
    rw [hsplit, List.map_append, List.map_cons, if_pos rfl,
      hsame r' before fun q hq => List.mem_append_left _ hq,
      hsame r' after fun q hq => List.mem_append_right _ hq]
  · rw [PqxxConnPool.endRelease]
    change p.releases.eraseP _ = _
    rw [hsplit, List.eraseP_append_right _ fun q hq => ?_]
    · rw [List.eraseP_cons_of_pos (by simp)]
    · simpa using hne q (List.mem_append_left _ hq)

theorem inflight_append (before after : List (Nat × Release)) :
    inflight (before ++ after) = inflight before ++ inflight after :=
  List.flatMap_append ..

theorem destroyed_append (pre post : List (Nat × PoolCall)) :
    destroyed (pre ++ post) = destroyed pre ++ destroyed post :=
  List.flatMap_append ..

theorem pushes_append (pre post : List (Nat × PoolCall)) :
    pushes (pre ++ post) = pushes pre ++ pushes post :=
  List.flatMap_append ..

/-- Every connection that was made has been acquired, once, or is idle or about to be. -/
structure Accounted (p : PqxxConnPool) (acquired : List Nat) : Prop where
  made : (acquired ++ p.conns.q ++ inflight p.releases).Perm (List.range p.made)
  releases : (p.releases.map Prod.fst).Nodup

theorem Accounted.new (size : Nat) : Accounted (.new size) [] where
  made := by
    change ([] ++ List.range size ++ []).Perm (List.range size)
    rw [List.nil_append, List.append_nil]
  releases := List.nodup_nil

/-- From one state to another a pool is given connections, hands some out and has some back to
destroy. -/
structure Follows (p p' : PqxxConnPool) (given handed destroyed : List Nat) : Prop where
  accounted : ∀ acquired, Accounted p acquired → Accounted p' (acquired ++ handed)
  held : (p'.handedOut ++ destroyed).Perm (p.handedOut ++ handed)
  inOrder : p.conns.q ++ given = handed ++ p'.conns.q

namespace Follows

theorem refl (p : PqxxConnPool) : Follows p p [] [] [] where
  accounted acquired h := by rwa [List.append_nil]
  held := .refl _
  inOrder := List.append_nil _

theorem trans {p'' : PqxxConnPool} {given given' handed handed' destroyed destroyed' : List Nat}
    (h : Follows p p' given handed destroyed) (h' : Follows p' p'' given' handed' destroyed') :
    Follows p p'' (given ++ given') (handed ++ handed') (destroyed ++ destroyed') where
  accounted acquired hacquired := by
    rw [← List.append_assoc]
    exact h'.accounted _ (h.accounted _ hacquired)
  held := by
    have hfirst := h.held
    have hsecond := h'.held
    rw [List.perm_iff_count] at hfirst hsecond ⊢
    intro c
    have hc := hfirst c
    have hc' := hsecond c
    simp only [List.count_append] at hc hc' ⊢
    omega
  inOrder := by
    rw [← List.append_assoc, h.inOrder, List.append_assoc, h'.inOrder, List.append_assoc]

end Follows

theorem Accounted.release {acquired : List Nat} (h : Accounted p acquired)
    {before after : List (Nat × Release)} {thread : Nat} {r : Release}
    (rest : List (Nat × Release))
    (hsplit : p.releases = before ++ (thread, r) :: after)
    (hsplit' : p'.releases = before ++ (rest ++ after))
    (hthread : (rest.map Prod.fst).Sublist [thread])
    (hmoved : (p'.conns.q ++ inflight rest ++ List.range p.made).Perm
      (p.conns.q ++ inflight [(thread, r)] ++ List.range p'.made)) : Accounted p' acquired where
  made := by
    have hmade := h.made
    rw [hsplit, ← List.singleton_append, inflight_append, inflight_append] at hmade
    rw [hsplit', inflight_append, inflight_append]
    rw [List.perm_iff_count] at hmade hmoved ⊢
    intro c
    have hc := hmade c
    have hc' := hmoved c
    simp only [List.count_append] at hc hc' ⊢
    omega
  releases := by
    refine List.Nodup.sublist ?_ h.releases
    rw [hsplit, hsplit', List.map_append, List.map_append, List.map_append]
    exact (List.Sublist.refl _).append (hthread.append (List.Sublist.refl _))

theorem accounted_check {acquired : List Nat} {thread : Nat} (h : Accounted p acquired)
    (hrelease : p.releases.lookup thread = some .checks) :
    Accounted (p.setRelease thread .connects) acquired ∧
      Accounted (p.endRelease thread) acquired := by
  obtain ⟨before, after, hsplit, hset, hend⟩ := releases_split h.releases hrelease
  constructor
  · exact h.release [(thread, .connects)] hsplit (hset .connects) (.refl [thread]) (.refl _)
  · exact h.release [] hsplit hend (List.nil_sublist _) (.refl _)

theorem accounted_connect {acquired : List Nat} {thread : Nat} (h : Accounted p acquired)
    (hrelease : p.releases.lookup thread = some .connects) :
    Accounted { p.setRelease thread (.pushes p.made) with made := p.made + 1 } acquired := by
  obtain ⟨before, after, hsplit, hset, -⟩ := releases_split h.releases hrelease
  refine h.release [(thread, .pushes p.made)] hsplit (hset (.pushes p.made)) (.refl [thread]) ?_
  change (p.conns.q ++ [p.made] ++ List.range p.made).Perm
    (p.conns.q ++ [] ++ List.range (p.made + 1))
  rw [List.range_succ, List.append_nil, List.append_assoc]
  exact List.perm_append_comm.append_left _

theorem accounted_push {acquired : List Nat} {thread c : Nat} {conns : BlockingQueue Nat}
    (h : Accounted p acquired) (hrelease : p.releases.lookup thread = some (.pushes c))
    (hq : p.conns.q ++ [c] = conns.q) :
    Accounted (PqxxConnPool.endRelease { p with conns } thread) acquired := by
  obtain ⟨before, after, hsplit, -, hend⟩ := releases_split h.releases hrelease
  refine h.release [] hsplit hend (List.nil_sublist _) ?_
  change (conns.q ++ [] ++ List.range p.made).Perm (p.conns.q ++ [c] ++ List.range p.made)
  rw [hq, List.append_nil]

theorem accounted_destroy {acquired : List Nat} {thread c : Nat} (h : Accounted p acquired)
    (hrelease : p.releases.lookup thread = none) :
    Accounted { p with
      handedOut := p.handedOut.erase c
      releases := p.releases ++ [(thread, .checks)] } acquired where
  made := by
    change (acquired ++ p.conns.q ++ inflight (p.releases ++ [(thread, .checks)])).Perm _
    rw [inflight_append]
    change (acquired ++ p.conns.q ++ (inflight p.releases ++ [])).Perm _
    rw [List.append_nil]
    exact h.made
  releases := by
    change ((p.releases ++ [(thread, Release.checks)]).map Prod.fst).Nodup
    rw [List.map_append, List.map_singleton, ← List.concat_eq_append]
    refine List.Nodup.concat (fun hmem => ?_) h.releases
    obtain ⟨q, hq, hthread⟩ := List.mem_map.mp hmem
    exact absurd (List.lookup_eq_none_iff.mp hrelease q hq) (by simp [hthread])

theorem follows_step {s : Nat × PoolCall} (h : p.step s = .ok p') :
    Follows p p' (pushes [s]) (handed p s) (destroyed [s]) := by
  obtain ⟨thread, call⟩ := s
  rcases step_cases h with ⟨ask, outcome, conns, hacquired, hask, hdestroyed, hpushes, hact, hp'⟩ |
    ⟨c, rfl, hrelease, hmem, rfl⟩ | ⟨rfl, hrelease, hp'⟩ | ⟨rfl, hrelease, rfl⟩ |
    ⟨c, conns, rfl, hrelease, hact, rfl⟩
  · have hhanded : handed p (thread, call) = taken outcome := by rw [handed, hacquired]
    have hq := q_append_brought hact
    rw [hask, List.append_nil] at hq
    rw [hhanded, hdestroyed, hpushes]
    subst hp'
    refine ⟨fun acquired haccounted => ⟨?_, haccounted.releases⟩, ?_, ?_⟩
    · change (acquired ++ taken outcome ++ conns.q ++ inflight p.releases).Perm _
      rw [List.append_assoc acquired, ← hq]
      exact haccounted.made
    · exact .of_eq (List.append_nil _)
    · rw [List.append_nil, hq]
  · refine ⟨fun acquired haccounted => ?_, ?_, List.append_nil _⟩
    · exact (List.append_nil acquired).symm ▸ accounted_destroy haccounted hrelease
    · change (p.handedOut.erase c ++ [c]).Perm (p.handedOut ++ [])
      rw [List.append_nil]
      exact (List.perm_append_singleton c _).trans (List.perm_cons_erase hmem).symm
  · refine ⟨fun acquired haccounted => ?_, ?_, ?_⟩
    · obtain ⟨hset, hend⟩ := accounted_check haccounted hrelease
      rw [show handed p (thread, .checks) = [] from rfl, List.append_nil]
      rcases hp' with rfl | rfl
      · exact hset
      · exact hend
    · rcases hp' with rfl | rfl <;> exact .refl _
    · rcases hp' with rfl | rfl <;> exact List.append_nil _
  · refine ⟨fun acquired haccounted => ?_, .refl _, List.append_nil _⟩
    exact (List.append_nil acquired).symm ▸ accounted_connect haccounted hrelease
  · have hq := q_append_brought hact
    refine ⟨fun acquired haccounted => ?_, .refl _, hq⟩
    exact (List.append_nil acquired).symm ▸ accounted_push haccounted hrelease hq

theorem follows_run {p₀ : PqxxConnPool} {steps : List (Nat × PoolCall)}
    (hrun : steps.foldlM PqxxConnPool.step p₀ = .ok p) :
    Follows p₀ p (pushes steps) (acquisitions p₀ steps) (destroyed steps) := by
  induction steps generalizing p₀ with
  | nil =>
      obtain rfl := Except.ok.inj hrun
      exact .refl _
  | cons s steps ih =>
      rw [List.foldlM_cons] at hrun
      obtain ⟨p₁, hstep, hrun⟩ := bind_eq_ok.mp hrun
      have hacquisitions : acquisitions p₀ (s :: steps) = handed p₀ s ++ acquisitions p₁ steps := by
        simp only [acquisitions, hstep]
      rw [hacquisitions, ← List.singleton_append, pushes_append, destroyed_append]
      exact (follows_step hstep).trans (ih hrun)

end Pools

/-- Of the connections that were made each has been acquired, and that once, or is idle, or is
about to be; those that were acquired are held or have been destroyed; and they are acquired in
the order in which they came to the queue. -/
structure HandedOnce (size : Nat) (steps : List (Nat × PoolCall)) (p : PqxxConnPool) : Prop where
  once : (acquisitions (.new size) steps ++ p.conns.q ++ inflight p.releases).Perm
    (List.range p.made)
  held : (p.handedOut ++ destroyed steps).Perm (acquisitions (.new size) steps)
  inOrder : List.range size ++ pushes steps = acquisitions (.new size) steps ++ p.conns.q

theorem handedOnce_run {size : Nat} {steps : List (Nat × PoolCall)} {p : PqxxConnPool}
    (hrun : steps.foldlM PqxxConnPool.step (.new size) = .ok p) : HandedOnce size steps p where
  once := ((follows_run hrun).accounted [] (.new size)).made
  held := (follows_run hrun).held
  inOrder := (follows_run hrun).inOrder

theorem handedOnce_crossing :
    ∃ p, crossing.foldlM PqxxConnPool.step (.new 2) = .ok p ∧ HandedOnce 2 crossing p :=
  ⟨_, rfl, handedOnce_run rfl⟩

end PgFort.QueueOrder
