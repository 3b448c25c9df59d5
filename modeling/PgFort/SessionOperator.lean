import PgFort.Custody
import PgFort.Lives
import PgFort.SqlForwarding

namespace PgFort.SessionOperator

open PgFort.KeyedTraversal
open PgFort.Schema
open PgFort.Plugins
open PgFort.StateMachine
open PgFort.SqlForwarding
open PgFort.Runs
open PgFort.Lives
open PgFort.Custody

/-- Where a worker is in `Work`; the session is the one that its pointer leads to. -/
inductive Stage where
  | idle
  | popped (session : Nat)
  | acted (session : Nat)
  | watching (session : Nat) (peer : Peer)
  | submitting (session : Nat)
  | finished
  deriving DecidableEq, Repr

/-- The session that is the worker's to deal with. -/
def Stage.session : Stage → Option Nat
  | idle => none
  | popped s => some s
  | acted s => some s
  | watching s _ => some s
  | submitting s => some s
  | finished => none

/-- Sessions are numbered as they are submitted; none is left of one that has been deleted. The
epoll set has the descriptors of sessions, each with the session, and `events` those that
`epoll_wait` has reported and the watcher has not come to. -/
structure Operator where
  sessions : Nat → Option Session
  submitted : Nat
  jobQueue : List Nat
  workers : Nat → Stage
  epoll : List (Nat × Peer)
  events : List Nat
  hand : Option Nat
  deleted : List Nat

def Operator.new : Operator where
  sessions _ := none
  submitted := 0
  jobQueue := []
  workers _ := .idle
  epoll := []
  events := []
  hand := none
  deleted := []

inductive Step where
  | submits (st : SchemaTracker)
  | pops (worker : Nat)
  | deletes (worker : Nat)
  | acts (worker : Nat) (turn : Turn)
  | asks (worker : Nat)
  | addsToWatch (worker : Nat)
  | resubmits (worker : Nat)
  | finishes (worker : Nat)
  | reports (sessions : List Nat)
  | removes
  | returns

/-- How the process ends. -/
inductive Crash where
  | faulted (f : Fault)
  | exited
  | freedMemory
  deriving DecidableEq, Repr

/-- `MAX_EVENTS`. -/
def maxEvents : Nat := 100

section Steps

variable (lib : Externals) (o : Operator)

/-- Follow a pointer to a session. -/
def Operator.deref (s : Nat) : Except Crash Session :=
  match o.sessions s with
  | some session => .ok session
  | none => .error .freedMemory

def Operator.setWorker (worker : Nat) (stage : Stage) : Operator :=
  { o with workers := Function.update o.workers worker stage }

/-- `IsTerminated`, before the session is deleted. -/
def delete (worker : Nat) : Except Crash Operator :=
  match o.workers worker with
  | .popped s => do
      let session ← o.deref s
      if session.current = none then
        return {
          o.setWorker worker .finished with
          sessions := Function.update o.sessions s none
          deleted := o.deleted ++ [s] }
      else return o
  | _ => return o

/-- The session's action, unless it is terminated. -/
def takeTurn (worker : Nat) (turn : Turn) : Except Crash Operator :=
  match o.workers worker with
  | .popped s => do
      let session ← o.deref s
      if session.current = none then return o
      else
        let session ← (act lib session turn).mapError .faulted
        return {
          o.setWorker worker (.acted s) with
          sessions := Function.update o.sessions s (some session) }
  | _ => return o

/-- `IsWaiting`, and the event that the session waits for. -/
def ask (worker : Nat) : Except Crash Operator :=
  match o.workers worker with
  | .acted s => do
      let session ← o.deref s
      if session.context.waiting then
        match session.context.ev with
        | some (peer, _) => return o.setWorker worker (.watching s peer)
        | none => .error .exited
      else return o.setWorker worker (.submitting s)
  | _ => return o

/-- `EPOLL_CTL_ADD`, which fails if the descriptor is there. -/
def addToWatch (worker : Nat) : Except Crash Operator :=
  match o.workers worker with
  | .watching s peer =>
      if (s, peer) ∈ o.epoll then .error .exited
      else return { o.setWorker worker .finished with epoll := o.epoll ++ [(s, peer)] }
  | _ => return o

/-- `Submit(ssp)` at the end of `Work`. -/
def resubmit (worker : Nat) : Except Crash Operator :=
  match o.workers worker with
  | .submitting s => return { o.setWorker worker .finished with jobQueue := o.jobQueue ++ [s] }
  | _ => return o

/-- `EPOLL_CTL_DEL` for the first of the events, which fails if the descriptor is not there. -/
def remove : Except Crash Operator :=
  match o.hand, o.events with
  | none, s :: events => do
      let session ← o.deref s
      match session.context.ev with
      | some (peer, _) =>
          if (s, peer) ∈ o.epoll then
            return { o with epoll := o.epoll.erase (s, peer), events, hand := some s }
          else .error .exited
      | none => .error .exited
  | _, _ => return o

/-- A step of the acceptor, of a worker or of the watcher; one that it has not come to leaves
everything as it is. -/
def step : Step → Except Crash Operator
  | .submits st => return {
      o with
      sessions := Function.update o.sessions o.submitted (some (Session.new st))
      submitted := o.submitted + 1
      jobQueue := o.jobQueue ++ [o.submitted] }
  | .pops worker =>
      match o.workers worker, o.jobQueue with
      | .idle, s :: jobQueue => return { o.setWorker worker (.popped s) with jobQueue }
      | _, _ => return o
  | .deletes worker => delete o worker
  | .acts worker turn => takeTurn lib o worker turn
  | .asks worker => ask o worker
  | .addsToWatch worker => addToWatch o worker
  | .resubmits worker => resubmit o worker
  | .finishes worker =>
      if o.workers worker = .finished then return o.setWorker worker .idle else return o
  | .reports sessions =>
      if o.hand = none ∧ o.events = [] ∧ sessions.Nodup ∧ sessions.length ≤ maxEvents ∧
          ∀ s ∈ sessions, s ∈ o.epoll.map Prod.fst then
        return { o with events := sessions }
      else return o
  | .removes => remove o
  | .returns =>
      match o.hand with
      | some s => return { o with jobQueue := o.jobQueue ++ [s], hand := none }
      | none => return o

end Steps

inductive Place where
  | jobQueue
  | worker (worker : Nat)
  | epoll
  | hand
  | deleted
  deriving DecidableEq, Repr

/-- The sessions in a place; one that is reported stays in the epoll set until it is removed. -/
def Operator.contents (o : Operator) : Place → List Nat
  | .jobQueue => o.jobQueue
  | .worker worker => (o.workers worker).session.toList
  | .epoll => o.epoll.map Prod.fst
  | .hand => o.hand.toList
  | .deleted => o.deleted

/-- Each submitted session is in exactly one place, once. -/
structure Kept (o : Operator) : Prop where
  place : ∀ s < o.submitted, ∃! place, s ∈ o.contents place
  once : ∀ s place, (o.contents place).count s ≤ 1

/-- A step follows no pointer to a session that has been deleted, and deletes only a session that
is terminated. -/
structure Careful (lib : Externals) (o : Operator) (e : Step) : Prop where
  pointers : step lib o e ≠ .error .freedMemory
  deletes : ∀ o' s, step lib o e = .ok o' → s ∈ o'.deleted → s ∉ o.deleted →
    ∃ session, o.sessions s = some session ∧ session.current = none

/-- What the steps keep. -/
structure Owned (o : Operator) : Prop where
  exclusive : Exclusive o.contents
  held : ∀ s, Held o.contents s ↔ s < o.submitted
  memory : ∀ s < o.submitted, s ∉ o.deleted → ∃ session, o.sessions s = some session
  events : ∀ s ∈ o.events, s ∈ o.epoll.map Prod.fst
  once : o.events.Nodup

section Invariant

variable {lib : Externals} {o o' : Operator} {worker s : Nat}

theorem owned_new : Owned .new := by
  have hempty : Operator.new.contents = fun _ => [] := by
    funext place
    cases place <;> rfl
  refine ⟨?_, fun s => ?_, fun s hs => absurd hs (Nat.not_lt_zero s), fun s hs => ?_,
    List.nodup_nil⟩
  · rw [hempty]
    exact exclusive_empty
  · rw [hempty]
    exact iff_of_false (fun ⟨_, h⟩ => absurd h List.not_mem_nil) (Nat.not_lt_zero s)
  · exact absurd hs List.not_mem_nil

theorem Owned.kept (h : Owned o) : Kept o :=
  ⟨fun s hs => h.exclusive.exists_unique ((h.held s).mpr hs),
    fun s place => h.exclusive.count_le_one place s⟩

theorem Owned.exists_deref (h : Owned o) {place : Place} (hplace : place ≠ .deleted)
    (hs : s ∈ o.contents place) :
    ∃ session, o.sessions s = some session ∧ o.deref s = .ok session := by
  have hdeleted : s ∉ o.deleted := fun hin => hplace (h.exclusive.one _ .deleted s hs hin)
  obtain ⟨session, hsession⟩ := h.memory s ((h.held s).mp ⟨place, hs⟩) hdeleted
  exact ⟨session, hsession, by rw [Operator.deref, hsession]⟩

theorem owned_of_moves (s : Nat) (k k' : Place) (h : Owned o)
    (hmoves : Moves o.contents o'.contents s k k') (hsubmitted : o'.submitted = o.submitted)
    (hmemory : ∀ s < o.submitted, s ∉ o'.deleted → ∃ session, o'.sessions s = some session)
    (hevents : ∀ s ∈ o'.events, s ∈ o'.epoll.map Prod.fst) (honce : o'.events.Nodup) :
    Owned o' :=
  ⟨h.exclusive.moves hmoves,
    fun x => by rw [hmoves.held_iff h.exclusive, h.held, hsubmitted],
    hsubmitted ▸ hmemory, hevents, honce⟩

theorem owned_of_contents (h : Owned o) (hcontents : o'.contents = o.contents)
    (hsubmitted : o'.submitted = o.submitted)
    (hmemory : ∀ s < o.submitted, s ∉ o'.deleted → ∃ session, o'.sessions s = some session)
    (hevents : ∀ s ∈ o'.events, s ∈ o'.epoll.map Prod.fst) (honce : o'.events.Nodup) :
    Owned o' :=
  ⟨hcontents ▸ h.exclusive, fun x => by rw [hcontents, h.held, hsubmitted],
    hsubmitted ▸ hmemory, hevents, honce⟩

theorem contents_of_workers {stage stage' : Stage} (hworker : o.workers worker = stage)
    (hworkers : o'.workers = Function.update o.workers worker stage')
    (hstage : stage'.session = stage.session)
    (hothers : ∀ place, (∀ i, place ≠ .worker i) → o'.contents place = o.contents place) :
    o'.contents = o.contents := by
  funext place
  cases place with
  | worker i =>
      show (o'.workers i).session.toList = (o.workers i).session.toList
      rw [hworkers, Function.update_apply]
      split
      · rename_i hi
        rw [hi, hworker, hstage]
      · rfl
  | _ => exact hothers _ (by simp)

theorem mem_contents_worker {stage : Stage} (hworker : o.workers worker = stage)
    (hstage : stage.session = some s) : s ∈ o.contents (.worker worker) := by
  show s ∈ (o.workers worker).session.toList
  rw [hworker, hstage]
  exact List.mem_singleton_self s

theorem owned_of_worker {stage stage' : Stage} (place : Place) (h : Owned o)
    (hworker : o.workers worker = stage) (hstage : stage.session = some s)
    (hplace : place ≠ .worker worker)
    (hworkers : o'.workers = Function.update o.workers worker stage')
    (hnone : stage'.session = none) (hgiven : o'.contents place = o.contents place ++ [s])
    (hothers : ∀ j, (∀ i, j ≠ .worker i) → j ≠ place → o'.contents j = o.contents j)
    (hsubmitted : o'.submitted = o.submitted)
    (hmemory : ∀ s < o.submitted, s ∉ o'.deleted → ∃ session, o'.sessions s = some session)
    (hevents : ∀ s ∈ o'.events, s ∈ o'.epoll.map Prod.fst) (honce : o'.events.Nodup) :
    Owned o' := by
  have hcontents (i : Nat) :
      o'.contents (.worker i) = if i = worker then [] else o.contents (.worker i) := by
    show (o'.workers i).session.toList = _
    rw [hworkers, Function.update_apply]
    split
    · rw [hnone]
      rfl
    · rfl
  have hmoves : Moves o.contents o'.contents s (.worker worker) place := by
    refine ⟨hplace.symm, ?_, ?_, fun j hj hj' => ?_⟩
    · rw [hcontents, if_pos rfl]
      show ((o.workers worker).session.toList).Perm _
      rw [hworker, hstage]
      exact List.Perm.refl _
    · rw [hgiven]
      exact List.perm_append_singleton _ _
    · cases j with
      | worker i => rw [hcontents, if_neg fun heq => hj (congrArg _ heq)]
      | _ => exact hothers _ (by simp) hj'
  exact owned_of_moves s _ _ h hmoves hsubmitted hmemory hevents honce

/-- A step follows no pointer to a session that has been deleted, keeps what the steps keep and
deletes only a session that is terminated. -/
def Safe (o : Operator) : Except Crash Operator → Prop
  | .ok o' => Owned o' ∧ ∀ s ∈ o'.deleted, s ∉ o.deleted →
      ∃ session, o.sessions s = some session ∧ session.current = none
  | .error crash => crash ≠ .freedMemory

theorem Owned.safe (h : Owned o') (hdeleted : o'.deleted = o.deleted) : Safe o (.ok o') :=
  ⟨h, fun _ hs hnot => absurd (hdeleted ▸ hs) hnot⟩

theorem Owned.safe_self (h : Owned o) : Safe o (.ok o) :=
  h.safe rfl

theorem safe_exited : Safe o (.error .exited) := by
  simp [Safe]

theorem Owned.safe_deref (h : Owned o) {place : Place} (hplace : place ≠ .deleted)
    (hs : s ∈ o.contents place) {f : Session → Except Crash Operator}
    (hf : ∀ session, o.sessions s = some session → Safe o (f session)) :
    Safe o (o.deref s >>= f) := by
  obtain ⟨session, hsession, hderef⟩ := h.exists_deref hplace hs
  rw [hderef]
  exact hf session hsession

theorem safe_delete (h : Owned o) : Safe o (delete o worker) := by
  rw [delete]
  split
  · rename_i t hworker
    refine h.safe_deref (by simp) (mem_contents_worker hworker rfl) fun session hsession => ?_
    split
    · rename_i hterminated
      refine ⟨owned_of_worker .deleted h hworker rfl (by simp) rfl rfl rfl (fun j hj hne => ?_) rfl
        (fun x hx hnot => ?_) h.events h.once, fun x hx hnot => ⟨session, ?_, hterminated⟩⟩
      · cases j with
        | worker i => exact absurd rfl (hj i)
        | deleted => exact absurd rfl hne
        | _ => rfl
      · have hne : x ≠ t := by
          rintro rfl
          exact hnot (List.mem_append_right _ (List.mem_singleton_self x))
        obtain ⟨session, hsession⟩ := h.memory x hx fun hin => hnot (List.mem_append_left _ hin)
        exact ⟨session, (Function.update_of_ne hne _ _).trans hsession⟩
      · have hxt : x = t := List.mem_singleton.mp ((List.mem_append.mp hx).resolve_left hnot)
        rw [hxt]
        exact hsession
    · exact h.safe_self
  · exact h.safe_self

theorem safe_takeTurn {turn : Turn} (h : Owned o) : Safe o (takeTurn lib o worker turn) := by
  rw [takeTurn]
  split
  · rename_i t hworker
    refine h.safe_deref (by simp) (mem_contents_worker hworker rfl) fun session _ => ?_
    split
    · exact h.safe_self
    · cases act lib session turn with
      | error f => exact fun hf => by simp at hf
      | ok session' =>
          refine Owned.safe (owned_of_contents h
            (contents_of_workers hworker rfl rfl fun place hplace => ?_) rfl
            (fun x hx hnot => ?_) h.events h.once) rfl
          · cases place with
            | worker i => exact absurd rfl (hplace i)
            | _ => rfl
          · by_cases hxt : x = t
            · subst hxt
              exact ⟨session', Function.update_self _ _ _⟩
            · obtain ⟨session, hsession⟩ := h.memory x hx hnot
              exact ⟨session, (Function.update_of_ne hxt _ _).trans hsession⟩
  · exact h.safe_self

theorem safe_ask (h : Owned o) : Safe o (ask o worker) := by
  rw [ask]
  split
  · rename_i t hworker
    have hgoes {stage : Stage} (hstage : stage.session = some t) :
        Owned (o.setWorker worker stage) := by
      refine owned_of_contents h (contents_of_workers hworker rfl hstage fun place hplace => ?_) rfl
        h.memory h.events h.once
      cases place with
      | worker i => exact absurd rfl (hplace i)
      | _ => rfl
    refine h.safe_deref (by simp) (mem_contents_worker hworker rfl) fun session _ => ?_
    split
    · split
      · exact Owned.safe (hgoes rfl) rfl
      · exact safe_exited
    · exact Owned.safe (hgoes rfl) rfl
  · exact h.safe_self

theorem safe_addToWatch (h : Owned o) : Safe o (addToWatch o worker) := by
  rw [addToWatch]
  split
  · rename_i t peer hworker
    split
    · exact safe_exited
    · have hmap : (o.epoll ++ [(t, peer)]).map Prod.fst = o.epoll.map Prod.fst ++ [t] :=
        List.map_append
      refine Owned.safe (owned_of_worker .epoll h hworker rfl (by simp) rfl rfl hmap
        (fun j hj hne => ?_) rfl h.memory (fun x hx => ?_) h.once) rfl
      · cases j with
        | worker i => exact absurd rfl (hj i)
        | epoll => exact absurd rfl hne
        | _ => rfl
      · show x ∈ (o.epoll ++ [(t, peer)]).map Prod.fst
        rw [hmap]
        exact List.mem_append_left _ (h.events x hx)
  · exact h.safe_self

theorem safe_resubmit (h : Owned o) : Safe o (resubmit o worker) := by
  rw [resubmit]
  split
  · rename_i t hworker
    refine Owned.safe (owned_of_worker .jobQueue h hworker rfl (by simp) rfl rfl rfl
      (fun j hj hne => ?_) rfl h.memory h.events h.once) rfl
    cases j with
    | worker i => exact absurd rfl (hj i)
    | jobQueue => exact absurd rfl hne
    | _ => rfl
  · exact h.safe_self

theorem safe_remove (h : Owned o) : Safe o (remove o) := by
  rw [remove]
  split
  · rename_i t events hhand hevents
    have hwatched : t ∈ o.contents .epoll := h.events t (hevents ▸ List.mem_cons_self)
    refine h.safe_deref (by simp) hwatched fun session _ => ?_
    split
    · rename_i peer _ _
      split
      · rename_i hin
        have hperm : (o.epoll.map Prod.fst).Perm (t :: (o.epoll.erase (t, peer)).map Prod.fst) :=
          (List.perm_cons_erase hin).map Prod.fst
        have hlater := hevents ▸ h.once
        refine Owned.safe (owned_of_moves t .epoll .hand h
          ⟨by simp, hperm, ?_, fun j hj hj' => ?_⟩ rfl h.memory (fun x hx => ?_)
          (List.nodup_cons.mp hlater).2) rfl
        · show [t].Perm (t :: o.hand.toList)
          rw [hhand]
          exact List.Perm.refl _
        · cases j with
          | epoll => exact absurd rfl hj
          | hand => exact absurd rfl hj'
          | _ => rfl
        · have hne : x ≠ t := by
            rintro rfl
            exact (List.nodup_cons.mp hlater).1 hx
          have hmem := h.events x (hevents ▸ List.mem_cons_of_mem t hx)
          exact (List.mem_cons.mp (hperm.mem_iff.mp hmem)).resolve_left hne
      · exact safe_exited
    · exact safe_exited
  · exact h.safe_self

theorem owned_submits (h : Owned o) (st : SchemaTracker) : Owned {
    o with
    sessions := Function.update o.sessions o.submitted (some (Session.new st))
    submitted := o.submitted + 1
    jobQueue := o.jobQueue ++ [o.submitted] } := by
  have henters : Enters o.contents (Operator.contents {
      o with
      sessions := Function.update o.sessions o.submitted (some (Session.new st))
      submitted := o.submitted + 1
      jobQueue := o.jobQueue ++ [o.submitted] }) o.submitted .jobQueue := by
    refine ⟨fun hheld => Nat.lt_irrefl _ ((h.held _).mp hheld), List.perm_append_singleton _ _,
      fun j hj => ?_⟩
    cases j with
    | jobQueue => exact absurd rfl hj
    | _ => rfl
  refine ⟨h.exclusive.enters henters, fun x => ?_, fun x hx hnot => ?_, h.events, h.once⟩
  · rw [henters.held_iff, h.held]
    show _ ↔ x < o.submitted + 1
    omega
  · by_cases hnew : x = o.submitted
    · subst hnew
      exact ⟨_, Function.update_self _ _ _⟩
    · have hx' : x < o.submitted + 1 := hx
      obtain ⟨session, hsession⟩ := h.memory x (by omega) hnot
      exact ⟨session, (Function.update_of_ne hnew _ _).trans hsession⟩

theorem owned_pops (h : Owned o) {jobQueue : List Nat} (hworker : o.workers worker = .idle)
    (hqueue : o.jobQueue = s :: jobQueue) :
    Owned { o.setWorker worker (.popped s) with jobQueue } := by
  refine owned_of_moves s .jobQueue (.worker worker) h
    ⟨by simp, ?_, ?_, fun j hj hj' => ?_⟩ rfl h.memory h.events h.once
  · show o.jobQueue.Perm (s :: jobQueue)
    rw [hqueue]
  · show (Function.update o.workers worker (.popped s) worker).session.toList.Perm
      (s :: (o.workers worker).session.toList)
    rw [Function.update_self, hworker]
    exact List.Perm.refl _
  · cases j with
    | jobQueue => exact absurd rfl hj
    | worker i =>
        show (Function.update o.workers worker (.popped s) i).session.toList = _
        rw [Function.update_of_ne fun heq => hj' (congrArg _ heq)]
        rfl
    | _ => rfl

theorem safe_step (h : Owned o) (e : Step) : Safe o (step lib o e) := by
  cases e with
  | submits st => exact (owned_submits h st).safe rfl
  | pops worker =>
      rw [step]
      split
      · rename_i hworker hqueue
        exact (owned_pops h hworker hqueue).safe rfl
      · exact h.safe_self
  | deletes worker => exact safe_delete h
  | acts worker turn => exact safe_takeTurn h
  | asks worker => exact safe_ask h
  | addsToWatch worker => exact safe_addToWatch h
  | resubmits worker => exact safe_resubmit h
  | finishes worker =>
      rw [step]
      split
      · rename_i hworker
        refine Owned.safe (owned_of_contents h
          (contents_of_workers hworker rfl rfl fun place hplace => ?_) rfl
          h.memory h.events h.once) rfl
        cases place with
        | worker i => exact absurd rfl (hplace i)
        | _ => rfl
      · exact h.safe_self
  | reports sessions =>
      rw [step]
      split
      · rename_i hreported
        obtain ⟨-, -, honce, -, hin⟩ := hreported
        exact Owned.safe ⟨h.exclusive, h.held, h.memory, hin, honce⟩ rfl
      · exact h.safe_self
  | removes => exact safe_remove h
  | returns =>
      rw [step]
      split
      · rename_i t hhand
        refine Owned.safe (owned_of_moves t .hand .jobQueue h
          ⟨by simp, ?_, List.perm_append_singleton _ _, fun j hj hj' => ?_⟩ rfl h.memory h.events
          h.once) rfl
        · show o.hand.toList.Perm [t]
          rw [hhand]
          exact List.Perm.refl _
        · cases j with
          | jobQueue => exact absurd rfl hj'
          | hand => exact absurd rfl hj
          | _ => rfl
      · exact h.safe_self

theorem owned_step {e : Step} (h : Owned o) (hstep : step lib o e = .ok o') : Owned o' := by
  have hsafe : Safe o (step lib o e) := safe_step h e
  rw [hstep] at hsafe
  exact hsafe.1

theorem Owned.careful (h : Owned o) (e : Step) : Careful lib o e := by
  have hsafe : Safe o (step lib o e) := safe_step h e
  constructor
  · intro hstep
    rw [hstep] at hsafe
    exact hsafe rfl
  · intro o' s hstep hs hnot
    rw [hstep] at hsafe
    exact hsafe.2 s hs hnot

end Invariant

/-- However the steps of the acceptor, the workers and the watcher interleave. -/
theorem kept_run (lib : Externals) {steps : List Step} {o : Operator}
    (hrun : steps.foldlM (step lib) .new = .ok o) : Kept o ∧ ∀ e, Careful lib o e := by
  have howned := invariant_foldlM (fun _ _ _ h hstep => owned_step h hstep) owned_new hrun
  exact ⟨howned.kept, fun e => howned.careful e⟩

/-- A worker pops a session and leaves it in the epoll set, and the watcher brings it back, before
the worker has finished. -/
def visit (worker session : Nat) : List Step :=
  [.pops worker, .acts worker ⟨.empty, receiving []⟩, .asks worker, .addsToWatch worker,
    .reports [session], .removes, .returns, .finishes worker]

/-- A client says nothing and goes. -/
def silentClient : List Step :=
  .submits .empty :: (visit 0 0 ++ visit 1 0 ++ [.pops 0, .deletes 0])

theorem kept_silentClient : ∃ o, silentClient.foldlM (step sampleExternals) .new = .ok o ∧
    o.deleted = [0] ∧ Kept o ∧ ∀ e, Careful sampleExternals o e := by
  have hend : (silentClient.foldlM (step sampleExternals) .new).toOption.map Operator.deleted =
      some [0] := by
    decide +kernel
  obtain ⟨o, ho, hdeleted⟩ := Option.map_eq_some_iff.mp hend
  have hrun := eq_ok_of_toOption ho
  exact ⟨o, hrun, hdeleted, kept_run sampleExternals hrun⟩

end PgFort.SessionOperator
