import PgFort.BlockingQueues

namespace PgFort.ConnPools

open PgFort.Backlogs
open PgFort.BlockingQueues
open PgFort.Runs

/-- Where `Release` is: before its look at `Size()`, before it makes a connection, and before it
pushes that. -/
inductive Release where
  | checks
  | connects
  | pushes (c : Nat)
  deriving DecidableEq, Repr

/-- Connections are numbered as they are made. `releases` has the threads that are destroying a
connection. -/
structure PqxxConnPool where
  size : Nat
  conns : BlockingQueue Nat
  handedOut : List Nat
  releases : List (Nat × Release)
  made : Nat

/-- What a thread does; `wake` goes on with an `Acquire`. -/
inductive PoolCall where
  | acquire (ms : Int)
  | wake (status : CvStatus)
  | destroys (c : Nat)
  | checks
  | connects
  | pushes (c : Nat)
  deriving DecidableEq, Repr

namespace PqxxConnPool

def new (size : Nat) : PqxxConnPool where
  size
  conns := .of (List.range size)
  handedOut := []
  releases := []
  made := size

variable (p : PqxxConnPool) (thread : Nat)

/-- A call of the queue; what `Pop` takes from it is handed out. -/
def onConns (call : Call Nat) : Except Elsewhere (PqxxConnPool × Outcome Nat) := do
  let (conns, outcome) ← p.conns.act thread call
  match outcome with
  | .returns (some c) => return ({ p with conns, handedOut := p.handedOut ++ [c] }, outcome)
  | _ => return ({ p with conns }, outcome)

def setRelease (r : Release) : PqxxConnPool :=
  { p with releases := p.releases.map fun q => if q.1 = thread then (thread, r) else q }

def endRelease : PqxxConnPool :=
  { p with releases := p.releases.eraseP fun q => q.1 = thread }

/-- `Acquire`, which returns null where `Pop` returns false. -/
def acquire (call : Call Nat) : Except Elsewhere (PqxxConnPool × Outcome Nat) :=
  match p.releases.lookup thread with
  | none => p.onConns thread call
  | some _ => .error .elsewhere

/-- The destructor of a connection that is handed out begins. -/
def destroy (c : Nat) : Except Elsewhere PqxxConnPool :=
  if p.conns.waiting thread = none ∧ p.releases.lookup thread = none ∧ c ∈ p.handedOut then
    .ok { p with
      handedOut := p.handedOut.erase c
      releases := p.releases ++ [(thread, .checks)] }
  else .error .elsewhere

/-- `if (conns_.Size() < size_)`: a connection is to be made in the place of the one that is
destroyed. -/
def check : Except Elsewhere PqxxConnPool :=
  match p.releases.lookup thread with
  | some .checks =>
      if p.size > p.conns.q.length then .ok (p.setRelease thread .connects)
      else .ok (p.endRelease thread)
  | _ => .error .elsewhere

/-- `std::make_shared<pqxx::connection>` of `Release`. -/
def connect : Except Elsewhere PqxxConnPool :=
  match p.releases.lookup thread with
  | some .connects => .ok { p.setRelease thread (.pushes p.made) with made := p.made + 1 }
  | _ => .error .elsewhere

/-- `conns_.Push`, the end of `Release`. -/
def push (c : Nat) : Except Elsewhere PqxxConnPool :=
  if p.releases.lookup thread = some (.pushes c) then do
    let (p, _) ← p.onConns thread (.push c)
    return p.endRelease thread
  else .error .elsewhere

/-- A step of a thread at the pool. -/
def step (p : PqxxConnPool) : Nat × PoolCall → Except Elsewhere PqxxConnPool
  | (thread, .acquire ms) => (p.acquire thread (.pop ms)).map Prod.fst
  | (thread, .wake status) => (p.acquire thread (.wake status)).map Prod.fst
  | (thread, .destroys c) => p.destroy thread c
  | (thread, .checks) => p.check thread
  | (thread, .connects) => p.connect thread
  | (thread, .pushes c) => p.push thread c

/-- Every place of the pool is idle, handed out or being replaced. -/
def Conserved : Prop :=
  p.conns.q.length + p.handedOut.length + p.releases.length = p.size

end PqxxConnPool

section Conservation

variable {p p' : PqxxConnPool} {thread : Nat} {call : Call Nat} {outcome : Outcome Nat}

theorem onConns_eq_ok (h : p.onConns thread call = .ok (p', outcome)) :
    ∃ conns, p.conns.act thread call = .ok (conns, outcome) ∧
      ((∃ c, outcome = .returns (some c) ∧
          p' = { p with conns, handedOut := p.handedOut ++ [c] }) ∨
        (∀ c, outcome ≠ .returns (some c)) ∧ p' = { p with conns }) := by
  rw [PqxxConnPool.onConns] at h
  cases hact : p.conns.act thread call with
  | error e => simp [hact, bind, Except.bind] at h
  | ok r =>
      obtain ⟨conns, result⟩ := r
      rw [hact] at h
      simp only [bind, Except.bind] at h
      split at h
      · obtain ⟨rfl, rfl⟩ := Prod.mk.inj (Except.ok.inj h)
        exact ⟨conns, rfl, .inl ⟨_, rfl, rfl⟩⟩
      · rename_i hother
        obtain ⟨rfl, rfl⟩ := Prod.mk.inj (Except.ok.inj h)
        exact ⟨conns, rfl, .inr ⟨hother, rfl⟩⟩

theorem conserved_acquire (h : p.Conserved) (hcall : ∀ c, call ≠ .push c)
    (hacquire : p.acquire thread call = .ok (p', outcome)) : p'.Conserved ∧ p'.size = p.size := by
  rw [PqxxConnPool.acquire] at hacquire
  split at hacquire
  · obtain ⟨conns, hact, hcases⟩ := onConns_eq_ok hacquire
    rcases q_act hact with ⟨c, hpush, -⟩ | ⟨-, ⟨c, rfl, hq⟩ | ⟨hnone, hq⟩⟩
    · exact absurd hpush (hcall c)
    · rcases hcases with ⟨c', -, rfl⟩ | ⟨hother, -⟩
      · refine ⟨?_, rfl⟩
        rw [PqxxConnPool.Conserved, hq, List.length_cons] at h
        change conns.q.length + (p.handedOut ++ [c']).length + p.releases.length = p.size
        rw [List.length_append, List.length_singleton]
        omega
      · exact absurd rfl (hother c)
    · rcases hcases with ⟨c', hsome, -⟩ | ⟨-, rfl⟩
      · exact absurd hsome (hnone c')
      · refine ⟨?_, rfl⟩
        rw [PqxxConnPool.Conserved] at h ⊢
        rwa [hq]
  · simp at hacquire

theorem conserved_destroy {c : Nat} (h : p.Conserved) (hdestroy : p.destroy thread c = .ok p') :
    p'.Conserved ∧ p'.size = p.size := by
  rw [PqxxConnPool.destroy] at hdestroy
  split at hdestroy
  · rename_i hfree
    obtain rfl := Except.ok.inj hdestroy
    have hlength := List.length_erase_of_mem hfree.2.2
    have hpos := List.length_pos_of_mem hfree.2.2
    refine ⟨?_, rfl⟩
    rw [PqxxConnPool.Conserved] at h
    change p.conns.q.length + (p.handedOut.erase c).length +
      (p.releases ++ [(thread, Release.checks)]).length = p.size
    rw [hlength, List.length_append, List.length_singleton]
    omega
  · simp at hdestroy

theorem length_setRelease (r : Release) :
    (p.setRelease thread r).releases.length = p.releases.length :=
  List.length_map ..

theorem length_endRelease {r : Release} (h : p.releases.lookup thread = some r) :
    (p.endRelease thread).releases.length + 1 = p.releases.length := by
  obtain ⟨before, after, hreleases, -⟩ := List.lookup_eq_some_iff.mp h
  have hmem : (thread, r) ∈ p.releases := hreleases ▸ List.mem_append_right _ List.mem_cons_self
  have hlength : (p.endRelease thread).releases.length = p.releases.length - 1 :=
    List.length_eraseP_of_mem hmem (by simp)
  have hpos := List.length_pos_of_mem hmem
  omega

theorem room_of_releasing (h : p.Conserved) {r : Release}
    (hrelease : p.releases.lookup thread = some r) : p.conns.q.length < p.size := by
  have hlength := length_endRelease hrelease
  rw [PqxxConnPool.Conserved] at h
  omega

theorem check_eq (h : p.Conserved) (hrelease : p.releases.lookup thread = some .checks) :
    p.check thread = .ok (p.setRelease thread .connects) := by
  rw [PqxxConnPool.check, hrelease]
  exact if_pos (room_of_releasing h hrelease)

theorem conserved_check (h : p.Conserved) (hcheck : p.check thread = .ok p') :
    p'.Conserved ∧ p'.size = p.size := by
  cases hrelease : p.releases.lookup thread with
  | none => simp [PqxxConnPool.check, hrelease] at hcheck
  | some r =>
      cases r with
      | checks =>
          rw [check_eq h hrelease] at hcheck
          obtain rfl := Except.ok.inj hcheck
          refine ⟨?_, rfl⟩
          rw [PqxxConnPool.Conserved, length_setRelease]
          exact h
      | connects => simp [PqxxConnPool.check, hrelease] at hcheck
      | pushes c => simp [PqxxConnPool.check, hrelease] at hcheck

theorem conserved_connect (h : p.Conserved) (hconnect : p.connect thread = .ok p') :
    p'.Conserved ∧ p'.size = p.size := by
  rw [PqxxConnPool.connect] at hconnect
  split at hconnect
  · obtain rfl := Except.ok.inj hconnect
    refine ⟨?_, rfl⟩
    rw [PqxxConnPool.Conserved, length_setRelease]
    exact h
  · simp at hconnect

theorem push_eq_ok {c : Nat} (hpush : p.push thread c = .ok p') :
    p.releases.lookup thread = some (.pushes c) ∧
      ∃ conns, p.conns.act thread (.push c) = .ok (conns, .pushed) ∧
        p' = PqxxConnPool.endRelease { p with conns } thread := by
  rw [PqxxConnPool.push] at hpush
  split at hpush
  · rename_i hrelease
    refine ⟨hrelease, ?_⟩
    cases hconns : p.onConns thread (.push c) with
    | error e => simp [hconns, bind, Except.bind] at hpush
    | ok r =>
        obtain ⟨p₁, outcome⟩ := r
        rw [hconns] at hpush
        obtain rfl := Except.ok.inj hpush
        obtain ⟨conns, hact, hcases⟩ := onConns_eq_ok hconns
        rcases q_act hact with ⟨c', -, rfl, -⟩ | ⟨hne, -⟩
        · rcases hcases with ⟨c', hsome, -⟩ | ⟨-, rfl⟩
          · simp at hsome
          · exact ⟨conns, hact, rfl⟩
        · exact absurd rfl (hne c)
  · simp at hpush

theorem conserved_push {c : Nat} (h : p.Conserved) (hpush : p.push thread c = .ok p') :
    p'.Conserved ∧ p'.size = p.size := by
  obtain ⟨hrelease, conns, hact, rfl⟩ := push_eq_ok hpush
  have hreleases := length_endRelease hrelease
  refine ⟨?_, rfl⟩
  rcases q_act hact with ⟨c', -, -, hq⟩ | ⟨hne, -⟩
  · change conns.q.length + p.handedOut.length + (p.endRelease thread).releases.length = p.size
    rw [PqxxConnPool.Conserved] at h
    rw [hq, List.length_append, List.length_singleton]
    omega
  · exact absurd rfl (hne c)

theorem conserved_step (h : p.Conserved) {s : Nat × PoolCall} (hstep : p.step s = .ok p') :
    p'.Conserved ∧ p'.size = p.size := by
  obtain ⟨thread, call⟩ := s
  have hacquires {call : Call Nat} (hcall : ∀ c, call ≠ .push c)
      (hstep : (p.acquire thread call).map Prod.fst = .ok p') : p'.Conserved ∧ p'.size = p.size := by
    cases hacquire : p.acquire thread call with
    | error e => simp [hacquire, Except.map] at hstep
    | ok r =>
        rw [hacquire] at hstep
        obtain rfl := Except.ok.inj hstep
        exact conserved_acquire h hcall hacquire
  cases call with
  | acquire ms => exact hacquires (fun _ => by simp) hstep
  | wake status => exact hacquires (fun _ => by simp) hstep
  | destroys c => exact conserved_destroy h hstep
  | checks => exact conserved_check h hstep
  | connects => exact conserved_connect h hstep
  | pushes c => exact conserved_push h hstep

theorem conserved_new (size : Nat) : (PqxxConnPool.new size).Conserved :=
  List.length_range

end Conservation

/-- However the threads acquire and destroy connections, every place of the pool is idle, handed
out or being replaced; no release finds the pool full. -/
theorem conserved_run (size : Nat) (steps : List (Nat × PoolCall)) {p : PqxxConnPool}
    (hrun : steps.foldlM PqxxConnPool.step (.new size) = .ok p) :
    p.conns.q.length + p.handedOut.length + p.releases.length = size ∧
      p.conns.q.length ≤ size ∧
      ∀ thread, p.releases.lookup thread = some .checks →
        p.check thread = .ok (p.setRelease thread .connects) := by
  obtain ⟨hconserved, hsize⟩ := invariant_foldlM
    (P := fun p : PqxxConnPool => p.Conserved ∧ p.size = size)
    (fun _ _ _ h hstep => by
      obtain ⟨hconserved, hsize⟩ := conserved_step h.1 hstep
      exact ⟨hconserved, hsize.trans h.2⟩)
    ⟨conserved_new size, rfl⟩ hrun
  refine ⟨hconserved.trans hsize, ?_, fun thread => check_eq hconserved⟩
  rw [PqxxConnPool.Conserved] at hconserved
  omega

/-- Two threads destroy a connection at the same time, and a third acquires one meanwhile. -/
def crossing : List (Nat × PoolCall) :=
  [(0, .acquire 500), (1, .acquire 500), (0, .destroys 0), (1, .destroys 1), (0, .checks),
    (1, .checks), (2, .acquire 500), (1, .connects), (2, .wake .timeout), (0, .connects),
    (0, .pushes 3), (2, .acquire 500), (1, .pushes 2)]

theorem conserved_run_crossing :
    ∃ p, crossing.foldlM PqxxConnPool.step (.new 2) = .ok p ∧
      p.conns.q.length + p.handedOut.length + p.releases.length = 2 ∧
      p.conns.q.length ≤ 2 ∧
      ∀ thread, p.releases.lookup thread = some .checks →
        p.check thread = .ok (p.setRelease thread .connects) :=
  ⟨_, rfl, conserved_run 2 crossing rfl⟩

section Acquire

/-- What a pool call asks of the queue. -/
def queueStep : Nat × PoolCall → Option (Nat × Call Nat)
  | (thread, .acquire ms) => some (thread, .pop ms)
  | (thread, .wake status) => some (thread, .wake status)
  | (thread, .pushes c) => some (thread, .push c)
  | _ => none

/-- What `Acquire` comes to in a step. -/
def acquired (p : PqxxConnPool) : Nat × PoolCall → Except Elsewhere (PqxxConnPool × Outcome Nat)
  | (thread, .acquire ms) => p.acquire thread (.pop ms)
  | (thread, .wake status) => p.acquire thread (.wake status)
  | _ => .error .elsewhere

/-- Where `Acquire` returns null no connection is idle. -/
def NullOnlyEmpty (size : Nat) (steps : List (Nat × PoolCall)) : Prop :=
  ∀ pre s post p p', steps = pre ++ s :: post →
    pre.foldlM PqxxConnPool.step (.new size) = .ok p → acquired p s = .ok (p', .returns none) →
      p'.conns.q = []

/-- While an `Acquire` waits that is given up, as many connections are acquired as are pushed. -/
def AcquiredMeanwhile (size : Nat) (steps : List (Nat × PoolCall)) : Prop :=
  ∀ pre thread post p, steps = pre ++ (thread, .wake .timeout) :: post →
    (pre ++ [(thread, .wake .timeout)]).foldlM PqxxConnPool.step (.new size) = .ok p →
      Drained ((since thread (pre.filterMap queueStep)).filterMap event)

variable {p p' : PqxxConnPool} {thread : Nat} {call : Call Nat} {outcome : Outcome Nat}

theorem conns_onConns (h : p.onConns thread call = .ok (p', outcome)) :
    p.conns.act thread call = .ok (p'.conns, outcome) := by
  obtain ⟨conns, hact, hcases⟩ := onConns_eq_ok h
  rcases hcases with ⟨c, -, rfl⟩ | ⟨-, rfl⟩
  · exact hact
  · exact hact

theorem conns_acquire (h : p.acquire thread call = .ok (p', outcome)) :
    p.conns.act thread call = .ok (p'.conns, outcome) := by
  rw [PqxxConnPool.acquire] at h
  split at h
  · exact conns_onConns h
  · simp at h

theorem conns_step {s : Nat × PoolCall} (h : p.step s = .ok p') :
    (queueStep s).toList.foldlM step p.conns = .ok p'.conns := by
  obtain ⟨thread, call⟩ := s
  have hacquires {call : Call Nat} (h : (p.acquire thread call).map Prod.fst = .ok p') :
      [(thread, call)].foldlM step p.conns = .ok p'.conns := by
    cases hacquire : p.acquire thread call with
    | error e => simp [hacquire, Except.map] at h
    | ok r =>
        rw [hacquire] at h
        obtain rfl := Except.ok.inj h
        rw [List.foldlM_cons, step_eq_ok.mpr ⟨_, conns_acquire hacquire⟩]
        rfl
  cases call with
  | acquire ms => exact hacquires h
  | wake status => exact hacquires h
  | destroys c =>
      simp only [PqxxConnPool.step, PqxxConnPool.destroy] at h
      split at h
      · exact Except.ok.inj h ▸ rfl
      · simp at h
  | checks =>
      simp only [PqxxConnPool.step, PqxxConnPool.check] at h
      split at h
      · split at h <;> exact Except.ok.inj h ▸ rfl
      · simp at h
  | connects =>
      simp only [PqxxConnPool.step, PqxxConnPool.connect] at h
      split at h
      · exact Except.ok.inj h ▸ rfl
      · simp at h
  | pushes c =>
      obtain ⟨-, conns, hact, rfl⟩ := push_eq_ok h
      change [(thread, Call.push c)].foldlM step p.conns = .ok conns
      rw [List.foldlM_cons, step_eq_ok.mpr ⟨_, hact⟩]
      rfl

theorem conns_run {size : Nat} {steps : List (Nat × PoolCall)}
    (hrun : steps.foldlM PqxxConnPool.step (.new size) = .ok p) :
    (steps.filterMap queueStep).foldlM step (.of (List.range size)) = .ok p.conns := by
  induction steps using List.reverseRecOn generalizing p with
  | nil =>
      obtain rfl := Except.ok.inj hrun
      rfl
  | append_singleton steps s ih =>
      rw [foldlM_concat] at hrun
      cases hpre : steps.foldlM PqxxConnPool.step (.new size) with
      | error e => simp [hpre, bind, Except.bind] at hrun
      | ok p₀ =>
          rw [hpre] at hrun
          have hstep : [s].filterMap queueStep = (queueStep s).toList := by
            rw [List.filterMap_cons]
            cases queueStep s <;> rfl
          rw [List.filterMap_append, hstep, List.foldlM_append, ih hpre]
          exact conns_step hrun

theorem empty_iff_acquired {size : Nat} {pre : List (Nat × PoolCall)}
    (hrun : pre.foldlM PqxxConnPool.step (.new size) = .ok p)
    (hact : p.acquire thread (.wake .timeout) = .ok (p', outcome)) :
    p'.conns.q = [] ↔ Drained ((since thread (pre.filterMap queueStep)).filterMap event) :=
  empty_iff_drained (conns_run hrun) (conns_acquire hact)

theorem acquired_eq_null {s : Nat × PoolCall} (h : acquired p s = .ok (p', .returns none)) :
    ∃ thread, s = (thread, .wake .timeout) := by
  obtain ⟨thread, call⟩ := s
  cases call with
  | acquire ms =>
      obtain ⟨hcall, -, -⟩ := act_eq_returns_none (conns_acquire h)
      simp at hcall
  | wake status =>
      obtain ⟨hcall, -, -⟩ := act_eq_returns_none (conns_acquire h)
      exact ⟨thread, by rw [Call.wake.inj hcall]⟩
  | _ => simp [acquired] at h

theorem nullOnlyEmpty_iff (size : Nat) (steps : List (Nat × PoolCall)) :
    NullOnlyEmpty size steps ↔ AcquiredMeanwhile size steps := by
  constructor
  · intro h pre thread post p' hsplit hrun
    rw [foldlM_concat] at hrun
    cases hpre : pre.foldlM PqxxConnPool.step (.new size) with
    | error e => simp [hpre, bind, Except.bind] at hrun
    | ok p =>
        rw [hpre] at hrun
        change (p.acquire thread (.wake .timeout)).map Prod.fst = .ok p' at hrun
        cases hacquire : p.acquire thread (.wake .timeout) with
        | error e => simp [hacquire, Except.map] at hrun
        | ok r =>
            obtain ⟨p₁, outcome⟩ := r
            rw [hacquire] at hrun
            obtain rfl := returns_none_of_timeout (conns_acquire hacquire)
            exact (empty_iff_acquired hpre hacquire).mp (h pre _ post p p₁ hsplit hpre hacquire)
  · intro h pre s post p p' hsplit hpre hacquired
    obtain ⟨thread, rfl⟩ := acquired_eq_null hacquired
    refine (empty_iff_acquired hpre hacquired).mpr (h pre thread post p' hsplit ?_)
    rw [foldlM_concat, hpre]
    change (p.acquire thread (.wake .timeout)).map Prod.fst = _
    rw [show p.acquire thread (.wake .timeout) = _ from hacquired]
    rfl

end Acquire

/-- `Pop` returns false, and `Acquire` null, at an empty queue only, exactly if during each wait
that ends by its timeout as much is taken as is pushed. -/
theorem onlyEmpty_iff {α : Type} (items : List α) (steps : List (Nat × Call α)) (size : Nat)
    (poolSteps : List (Nat × PoolCall)) :
    (FalseOnlyEmpty items steps ↔ TakenMeanwhile items steps) ∧
      (NullOnlyEmpty size poolSteps ↔ AcquiredMeanwhile size poolSteps) :=
  ⟨falseOnlyEmpty_iff items steps, nullOnlyEmpty_iff size poolSteps⟩

/-- The timeout comes first, and then the item, but the lock goes to the push. -/
def latePush : List (Nat × Call Nat) :=
  [(0, .pop 100), (1, .push 7), (0, .wake .timeout)]

/-- A release comes to its push when the one who waited has gone. -/
def lateRelease : List (Nat × PoolCall) :=
  [(0, .acquire 500), (1, .acquire 500), (0, .destroys 0), (0, .checks), (0, .connects),
    (0, .pushes 1), (1, .wake .timeout)]

theorem not_onlyEmpty_latePush : ¬ FalseOnlyEmpty [] latePush ∧ ¬ NullOnlyEmpty 1 lateRelease := by
  constructor
  · intro h
    have hempty := h (latePush.take 2) (0, .wake .timeout) [] _ _ rfl rfl rfl
    exact absurd hempty (by decide)
  · intro h
    have hempty := h (lateRelease.take 6) (1, .wake .timeout) [] _ _ rfl rfl rfl
    exact absurd hempty (by decide)

end PgFort.ConnPools
