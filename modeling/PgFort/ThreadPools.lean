import PgFort.BlockingQueues
import PgFort.Custody

namespace PgFort.ThreadPools

open PgFort.BlockingQueues
open PgFort.Custody
open PgFort.Runs

/-- What `Work` has when `Pop` has returned: the result and its `j`, which was null before. -/
structure Popped where
  result : Bool
  j : Option Nat
  deriving DecidableEq, Repr

/-- Jobs are numbered as they are submitted. -/
structure ThreadPool where
  jobQueue : BlockingQueue Nat
  submitted : Nat
  popped : Nat → Option Popped
  executed : List Nat
  deleted : List Nat

/-- What a thread does: `goesOn` is the rest of `Work` behind `Pop`. -/
inductive Act where
  | submits
  | pops
  | wakes (status : CvStatus)
  | goesOn
  deriving DecidableEq, Repr

/-- The thread is not where it could do this, or the process ends. -/
inductive Halt where
  | elsewhere
  | nullCalled
  deriving DecidableEq, Repr

namespace ThreadPool

def new : ThreadPool where
  jobQueue := .of []
  submitted := 0
  popped _ := none
  executed := []
  deleted := []

variable (p : ThreadPool) (thread : Nat)

/-- `Submit`. -/
def submit : Except Halt ThreadPool :=
  match p.popped thread, p.jobQueue.act thread (.push p.submitted) with
  | none, .ok (jobQueue, _) => .ok { p with jobQueue, submitted := p.submitted + 1 }
  | _, _ => .error .elsewhere

/-- `Pop` in `Work`. -/
def pop (call : Call Nat) : Except Halt ThreadPool :=
  match p.popped thread, p.jobQueue.act thread call with
  | none, .ok (jobQueue, .returns j) =>
      .ok { p with jobQueue, popped := Function.update p.popped thread (some ⟨j.isSome, j⟩) }
  | none, .ok (jobQueue, _) => .ok { p with jobQueue }
  | _, _ => .error .elsewhere

/-- `j` goes out of scope. -/
def leave : ThreadPool :=
  { p with popped := Function.update p.popped thread none }

/-- The job is called and deleted where `Pop` has returned false. -/
def goOn : Except Halt ThreadPool :=
  match p.popped thread with
  | none => .error .elsewhere
  | some ⟨result, j⟩ =>
      if !result then
        match j with
        | none => .error .nullCalled
        | some j => .ok {
            p.leave thread with
            executed := p.executed ++ [j]
            deleted := p.deleted ++ [j] }
      else .ok (p.leave thread)

/-- A step of a thread of the pool. -/
def step (p : ThreadPool) : Nat × Act → Except Halt ThreadPool
  | (thread, .submits) => p.submit thread
  | (thread, .pops) => p.pop thread (.pop 1000)
  | (thread, .wakes status) => p.pop thread (.wake status)
  | (thread, .goesOn) => p.goOn thread

end ThreadPool

inductive Place where
  | jobQueue
  | worker (thread : Nat)
  | executed
  deriving DecidableEq, Repr

/-- The jobs in a place. -/
def ThreadPool.contents (p : ThreadPool) : Place → List Nat
  | .jobQueue => p.jobQueue.q
  | .worker thread => ((p.popped thread).bind Popped.j).toList
  | .executed => p.executed

/-- Each submitted job is in the queue, or with the one worker that has taken it, or has been
executed once and then deleted. -/
structure Accounted (p : ThreadPool) : Prop where
  exclusive : Exclusive p.contents
  held : ∀ j < p.submitted, Held p.contents j
  deleted : p.deleted = p.executed

/-- No null job is called, and no job is lost. -/
def Sound (steps : List (Nat × Act)) : Prop :=
  ∀ pre post, steps = pre ++ post →
    pre.foldlM ThreadPool.step .new ≠ .error .nullCalled ∧
      ∀ p, pre.foldlM ThreadPool.step .new = .ok p → Accounted p

/-- No worker that is back from `Pop` goes on. -/
def StaysInPop (p : ThreadPool) (s : Nat × Act) : Prop :=
  s.2 = .goesOn → p.popped s.1 = none

section Steps

variable {p p' : ThreadPool} {thread : Nat} {call : Call Nat}

/-- What holds of every pool, whatever its workers lose. -/
structure Numbered (p : ThreadPool) : Prop where
  result : ∀ thread popped, p.popped thread = some popped → popped.result = popped.j.isSome
  below : ∀ place, ∀ j ∈ p.contents place, j < p.submitted
  exclusive : Exclusive p.contents
  deleted : p.deleted = p.executed

theorem submit_eq_ok (h : p.submit thread = .ok p') :
    p'.submitted = p.submitted + 1 ∧ p'.jobQueue.q = p.jobQueue.q ++ [p.submitted] ∧
      p'.popped = p.popped ∧ p'.executed = p.executed ∧ p'.deleted = p.deleted := by
  rw [ThreadPool.submit] at h
  split at h
  · rename_i jobQueue outcome hfree hact
    obtain rfl := Except.ok.inj h
    rcases q_act hact with ⟨j, hcall, -, hq⟩ | ⟨hne, -⟩
    · obtain rfl := Call.push.inj hcall
      exact ⟨rfl, hq, rfl, rfl, rfl⟩
    · exact absurd rfl (hne p.submitted)
  · simp at h

theorem pop_eq_ok (hcall : ∀ j, call ≠ .push j) (h : p.pop thread call = .ok p') :
    p'.submitted = p.submitted ∧ p'.executed = p.executed ∧ p'.deleted = p.deleted ∧
      p.popped thread = none ∧
      ((∃ j, p.jobQueue.q = j :: p'.jobQueue.q ∧
          p'.popped = Function.update p.popped thread (some ⟨true, some j⟩)) ∨
        p'.jobQueue.q = p.jobQueue.q ∧
          (p'.popped = p.popped ∨
            p'.popped = Function.update p.popped thread (some ⟨false, none⟩))) := by
  rw [ThreadPool.pop] at h
  split at h
  · rename_i jobQueue j hfree hact
    obtain rfl := Except.ok.inj h
    refine ⟨rfl, rfl, rfl, hfree, ?_⟩
    rcases q_act hact with ⟨i, hpush, -⟩ | ⟨-, ⟨i, hreturns, hq⟩ | ⟨hnone, hq⟩⟩
    · exact absurd hpush (hcall i)
    · obtain rfl := Outcome.returns.inj hreturns
      exact .inl ⟨i, hq, rfl⟩
    · cases j with
      | none => exact .inr ⟨hq, .inr rfl⟩
      | some j => exact absurd rfl (hnone j)
  · rename_i jobQueue outcome hother hfree hact
    obtain rfl := Except.ok.inj h
    refine ⟨rfl, rfl, rfl, hfree, .inr ⟨?_, .inl rfl⟩⟩
    rcases q_act hact with ⟨i, hpush, -⟩ | ⟨-, ⟨i, hreturns, -⟩ | ⟨-, hq⟩⟩
    · exact absurd hpush (hcall i)
    · exact absurd hreturns (hother _)
    · exact hq
  · simp at h

theorem numbered_new : Numbered .new := by
  have hempty : ThreadPool.new.contents = fun _ => [] := by
    funext place
    cases place <;> rfl
  refine ⟨fun thread popped h => by simp [ThreadPool.new] at h, fun place j hj => ?_, ?_, rfl⟩
  · rw [hempty] at hj
    exact absurd hj List.not_mem_nil
  · rw [hempty]
    exact exclusive_empty

theorem enters_of_submit (hnumbered : Numbered p) (h : p.submit thread = .ok p') :
    Enters p.contents p'.contents p.submitted .jobQueue := by
  obtain ⟨hsubmitted, hq, hpopped, hexecuted, -⟩ := submit_eq_ok h
  refine ⟨fun ⟨place, hplace⟩ => Nat.lt_irrefl _ (hnumbered.below place _ hplace), ?_,
    fun place hplace => ?_⟩
  · change p'.jobQueue.q.Perm (p.submitted :: p.jobQueue.q)
    rw [hq]
    exact List.perm_append_singleton ..
  · cases place with
    | jobQueue => exact absurd rfl hplace
    | worker thread => rw [ThreadPool.contents, hpopped, ThreadPool.contents]
    | executed => exact hexecuted

theorem moves_of_pop (hcall : ∀ j, call ≠ .push j) (h : p.pop thread call = .ok p') :
    p'.contents = p.contents ∨
      ∃ j, Moves p.contents p'.contents j .jobQueue (.worker thread) := by
  obtain ⟨-, hexecuted, -, hfree, ⟨j, hq, hpopped⟩ | ⟨hq, hpopped⟩⟩ := pop_eq_ok hcall h
  · refine .inr ⟨j, ⟨by simp, ?_, ?_, fun place hqueue hworker => ?_⟩⟩
    · change p.jobQueue.q.Perm (j :: p'.jobQueue.q)
      rw [hq]
    · change (((p'.popped thread).bind Popped.j).toList).Perm
        (j :: ((p.popped thread).bind Popped.j).toList)
      rw [hpopped, Function.update_self, hfree]
      exact List.Perm.refl _
    · cases place with
      | jobQueue => exact absurd rfl hqueue
      | worker other =>
          have hne : other ≠ thread := fun heq => hworker (congrArg _ heq)
          rw [ThreadPool.contents, hpopped, Function.update_of_ne hne, ThreadPool.contents]
      | executed => exact hexecuted
  · left
    funext place
    cases place with
    | jobQueue => exact hq
    | worker other =>
        rw [ThreadPool.contents, ThreadPool.contents]
        rcases hpopped with hsame | hfalse
        · rw [hsame]
        · rw [hfalse, Function.update_apply]
          split
          · rename_i heq
            rw [heq, hfree]
            rfl
          · rfl
    | executed => exact hexecuted

theorem numbered_submit (hnumbered : Numbered p) (h : p.submit thread = .ok p') : Numbered p' := by
  have henters := enters_of_submit hnumbered h
  obtain ⟨hsubmitted, -, hpopped, hexecuted, hdeleted⟩ := submit_eq_ok h
  refine ⟨?_, fun place j hj => ?_, hnumbered.exclusive.enters henters, ?_⟩
  · rw [hpopped]
    exact hnumbered.result
  · rw [hsubmitted]
    rcases henters.mem_iff.mp hj with ⟨rfl, -⟩ | hin
    · exact Nat.lt_succ_self _
    · exact Nat.lt_succ_of_lt (hnumbered.below place j hin)
  · rw [hdeleted, hexecuted]
    exact hnumbered.deleted

theorem result_pop (hcall : ∀ j, call ≠ .push j) (hnumbered : Numbered p)
    (h : p.pop thread call = .ok p') (other : Nat) (popped : Popped)
    (hpopped : p'.popped other = some popped) : popped.result = popped.j.isSome := by
  obtain ⟨-, -, -, -, hcases⟩ := pop_eq_ok hcall h
  have hold := hnumbered.result other popped
  rcases hcases with ⟨j, -, hupdate⟩ | ⟨-, hsame | hupdate⟩
  · rw [hupdate, Function.update_apply] at hpopped
    split at hpopped
    · exact Option.some.inj hpopped ▸ rfl
    · exact hold hpopped
  · exact hold (hsame ▸ hpopped)
  · rw [hupdate, Function.update_apply] at hpopped
    split at hpopped
    · exact Option.some.inj hpopped ▸ rfl
    · exact hold hpopped

theorem numbered_pop (hcall : ∀ j, call ≠ .push j) (hnumbered : Numbered p)
    (h : p.pop thread call = .ok p') : Numbered p' := by
  obtain ⟨hsubmitted, hexecuted, hdeleted, -⟩ := pop_eq_ok hcall h
  have hdeleted' : p'.deleted = p'.executed := by
    rw [hdeleted, hexecuted]
    exact hnumbered.deleted
  rcases moves_of_pop hcall h with hsame | ⟨j, hmoves⟩
  · refine ⟨result_pop hcall hnumbered h, ?_, ?_, hdeleted'⟩
    · rw [hsame, hsubmitted]
      exact hnumbered.below
    · rw [hsame]
      exact hnumbered.exclusive
  · refine ⟨result_pop hcall hnumbered h, fun place i hi => ?_,
      hnumbered.exclusive.moves hmoves, hdeleted'⟩
    rw [hsubmitted]
    obtain ⟨place', hplace'⟩ := (hmoves.held_iff hnumbered.exclusive).mp ⟨place, hi⟩
    exact hnumbered.below place' i hplace'

theorem goOn_cases (hnumbered : Numbered p) {popped : Popped}
    (hpopped : p.popped thread = some popped) :
    p.goOn thread = .error .nullCalled ∨
      ∃ j, popped.j = some j ∧ p.goOn thread = .ok (p.leave thread) := by
  have hresult := hnumbered.result thread popped hpopped
  obtain ⟨result, j⟩ := popped
  rw [ThreadPool.goOn, hpopped]
  cases j with
  | none =>
      obtain rfl : result = false := hresult
      exact .inl rfl
  | some j =>
      obtain rfl : result = true := hresult
      exact .inr ⟨j, rfl, rfl⟩

theorem contents_leave (p : ThreadPool) (thread : Nat) (place : Place) :
    (p.leave thread).contents place = if place = .worker thread then [] else p.contents place := by
  cases place with
  | jobQueue => rfl
  | worker other =>
      change ((Function.update p.popped thread none other).bind Popped.j).toList = _
      rw [Function.update_apply]
      by_cases h : other = thread
      · rw [if_pos h, if_pos (congrArg _ h)]
        rfl
      · rw [if_neg h, if_neg (by simpa using h)]
        rfl
  | executed => rfl

theorem not_held_leave (hnumbered : Numbered p) {popped : Popped} {j : Nat}
    (hpopped : p.popped thread = some popped) (hj : popped.j = some j) :
    j < p.submitted ∧ ¬Held (p.leave thread).contents j := by
  have hin : j ∈ p.contents (.worker thread) := by
    rw [ThreadPool.contents, hpopped, Option.bind_some, hj]
    exact List.mem_singleton_self j
  refine ⟨hnumbered.below _ j hin, fun ⟨place, hplace⟩ => ?_⟩
  rw [contents_leave] at hplace
  split at hplace
  · exact absurd hplace List.not_mem_nil
  · rename_i hne
    exact hne (hnumbered.exclusive.one _ _ j hplace hin)

theorem numbered_leave (hnumbered : Numbered p) : Numbered (p.leave thread) := by
  have hmem {place : Place} {j : Nat} (hj : j ∈ (p.leave thread).contents place) :
      j ∈ p.contents place := by
    rw [contents_leave] at hj
    split at hj
    · exact absurd hj List.not_mem_nil
    · exact hj
  refine ⟨fun other popped hpopped => ?_, fun place j hj => hnumbered.below place j (hmem hj),
    ⟨fun place => ?_, fun place place' j hj hj' =>
      hnumbered.exclusive.one place place' j (hmem hj) (hmem hj')⟩, hnumbered.deleted⟩
  · change Function.update p.popped thread none other = some popped at hpopped
    rw [Function.update_apply] at hpopped
    split at hpopped
    · simp at hpopped
    · exact hnumbered.result other popped hpopped
  · rw [contents_leave]
    split
    · exact List.nodup_nil
    · exact hnumbered.exclusive.once place

theorem numbered_step {s : Nat × Act} (hnumbered : Numbered p) (h : p.step s = .ok p') :
    Numbered p' := by
  obtain ⟨thread, act⟩ := s
  cases act with
  | submits => exact numbered_submit hnumbered h
  | pops => exact numbered_pop (fun j => by simp) hnumbered h
  | wakes status => exact numbered_pop (fun j => by simp) hnumbered h
  | goesOn =>
      change p.goOn thread = .ok p' at h
      cases hpopped : p.popped thread with
      | none => simp [ThreadPool.goOn, hpopped] at h
      | some popped =>
          rcases goOn_cases hnumbered hpopped with hnull | ⟨j, -, hleave⟩
          · simp [hnull] at h
          · obtain rfl := Except.ok.inj (hleave.symm.trans h)
            exact numbered_leave hnumbered

theorem held_step {s : Nat × Act} (hnumbered : Numbered p) (hstays : StaysInPop p s)
    (hheld : ∀ j < p.submitted, Held p.contents j) (h : p.step s = .ok p') :
    ∀ j < p'.submitted, Held p'.contents j := by
  obtain ⟨thread, act⟩ := s
  have hpops {call : Call Nat} (hcall : ∀ j, call ≠ .push j) (h : p.pop thread call = .ok p') :
      ∀ j < p'.submitted, Held p'.contents j := by
    obtain ⟨hsubmitted, -⟩ := pop_eq_ok hcall h
    rw [hsubmitted]
    rcases moves_of_pop hcall h with hsame | ⟨i, hmoves⟩
    · rw [hsame]
      exact hheld
    · exact fun j hj => (hmoves.held_iff hnumbered.exclusive).mpr (hheld j hj)
  cases act with
  | submits =>
      obtain ⟨hsubmitted, -⟩ := submit_eq_ok h
      intro j hj
      rw [hsubmitted] at hj
      rw [(enters_of_submit hnumbered h).held_iff]
      exact (Nat.lt_succ_iff_lt_or_eq.mp hj).symm.imp_right (hheld j)
  | pops => exact hpops (fun j => by simp) h
  | wakes status => exact hpops (fun j => by simp) h
  | goesOn =>
      change p.goOn thread = .ok p' at h
      rw [ThreadPool.goOn, hstays rfl] at h
      simp at h

theorem step_ne_nullCalled {s : Nat × Act} (hstays : StaysInPop p s) :
    p.step s ≠ .error .nullCalled := by
  obtain ⟨thread, act⟩ := s
  have hpops (call : Call Nat) : p.pop thread call ≠ .error .nullCalled := by
    rw [ThreadPool.pop]
    split <;> simp
  cases act with
  | submits =>
      change p.submit thread ≠ _
      rw [ThreadPool.submit]
      split <;> simp
  | pops => exact hpops _
  | wakes status => exact hpops _
  | goesOn =>
      change p.goOn thread ≠ _
      rw [ThreadPool.goOn, hstays rfl]
      simp

end Steps

theorem run_ne_nullCalled {steps pre post : List (Nat × Act)}
    (h : AtEachTurn ThreadPool.step .new StaysInPop steps) (hsplit : steps = pre ++ post) :
    pre.foldlM ThreadPool.step .new ≠ .error .nullCalled := by
  induction pre using List.reverseRecOn generalizing post with
  | nil => simp [pure, Except.pure]
  | append_singleton pre s ih =>
      rw [List.append_assoc, List.singleton_append] at hsplit
      rw [foldlM_concat]
      cases hpre : pre.foldlM ThreadPool.step .new with
      | error e =>
          intro hnull
          exact ih hsplit (hpre.trans hnull)
      | ok p => exact step_ne_nullCalled (h pre s post p hsplit hpre)

/-- Jobs are executed once each, and none is lost, exactly as long as no worker gets any further
than to the end of its `Pop`. -/
theorem sound_iff (steps : List (Nat × Act)) :
    Sound steps ↔ AtEachTurn ThreadPool.step .new StaysInPop steps := by
  constructor
  · intro h pre s post p hsplit hrun hgoes
    obtain ⟨thread, act⟩ := s
    obtain rfl : act = .goesOn := hgoes
    have hnumbered := invariant_foldlM (fun _ _ _ => numbered_step) numbered_new hrun
    cases hpopped : p.popped thread with
    | none => rfl
    | some popped =>
        have hrun' : (pre ++ [(thread, Act.goesOn)]).foldlM ThreadPool.step .new = p.goOn thread := by
          rw [foldlM_concat, hrun]
          rfl
        obtain ⟨hcalled, haccounted⟩ := h (pre ++ [(thread, .goesOn)]) post (by simp [hsplit])
        rw [hrun'] at hcalled haccounted
        rcases goOn_cases hnumbered hpopped with hnull | ⟨j, hj, hleave⟩
        · exact absurd hnull hcalled
        · obtain ⟨hsubmitted, hlost⟩ := not_held_leave hnumbered hpopped hj
          exact absurd ((haccounted _ hleave).held j hsubmitted) hlost
  · intro h pre post hsplit
    refine ⟨run_ne_nullCalled h hsplit, fun p hrun => ?_⟩
    obtain ⟨hnumbered, hheld⟩ := invariant_of_atEachTurn
      (I := fun p : ThreadPool => Numbered p ∧ ∀ j < p.submitted, Held p.contents j)
      ⟨numbered_new, fun j hj => absurd hj (Nat.not_lt_zero j)⟩
      (fun _ _ _ hI hstays hstep =>
        ⟨numbered_step hI.1 hstep, held_step hI.1 hstays hI.2 hstep⟩) h hsplit hrun
    exact ⟨hnumbered.exclusive, hheld, hnumbered.deleted⟩

/-- A worker takes a job, and a second one finds none until its timeout. -/
def jobAndTimeout : List (Nat × Act) :=
  [(0, .submits), (1, .pops), (2, .pops), (1, .goesOn), (2, .wakes .timeout), (2, .goesOn)]

/-- The job is lost, and a null job is called. -/
theorem not_sound_jobAndTimeout : ¬ Sound jobAndTimeout ∧ ¬ Sound (jobAndTimeout.take 4) := by
  constructor
  · intro h
    obtain ⟨hcalled, -⟩ := h jobAndTimeout [] rfl
    exact hcalled rfl
  · intro h
    obtain ⟨-, haccounted⟩ := h (jobAndTimeout.take 4) [] rfl
    have hnumbered := invariant_foldlM (fun _ _ _ => numbered_step) numbered_new
      (show (jobAndTimeout.take 3).foldlM ThreadPool.step .new = .ok _ from rfl)
    exact (not_held_leave hnumbered (show _ = some ⟨true, some 0⟩ from rfl) rfl).2
      ((haccounted _ rfl).held 0 (by decide))

end PgFort.ThreadPools
