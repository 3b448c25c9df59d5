import Mathlib.Data.List.DropRight
import Mathlib.Logic.Function.Basic
import PgFort.Backlogs
import PgFort.Runs

namespace PgFort.BlockingQueues

open PgFort.Backlogs
open PgFort.Runs

/-- `std::cv_status`. -/
inductive CvStatus where
  | noTimeout
  | timeout
  deriving DecidableEq, Repr

/-- What a thread does while it has the lock. A wait may be over at any time, by a notification,
by its timeout or by neither, and then has the lock again. -/
inductive Call (α : Type) where
  | push (item : α)
  | pop (ms : Int)
  | wake (status : CvStatus)
  deriving DecidableEq, Repr

/-- How the lock is released: `Pop` returns false where it returns without an item. -/
inductive Outcome (α : Type) where
  | pushed
  | waits
  | returns (item : Option α)
  deriving DecidableEq, Repr

/-- The thread is not where it could do this. -/
inductive Elsewhere where
  | elsewhere
  deriving DecidableEq, Repr

/-- The threads in `waiting` are in `Pop`, each with its `ms`. -/
structure BlockingQueue (α : Type) where
  q : List α
  waiting : Nat → Option Int

variable {α : Type}

namespace BlockingQueue

def of (items : List α) : BlockingQueue α := ⟨items, fun _ => none⟩

variable (b : BlockingQueue α) (thread : Nat)

/-- The loop of `Pop`, up to the next wait. -/
def look (ms : Int) : BlockingQueue α × Outcome α :=
  match b.q with
  | [] => ({ b with waiting := Function.update b.waiting thread (some ms) }, .waits)
  | item :: q => (⟨q, Function.update b.waiting thread none⟩, .returns (some item))

/-- A call of `Push` or `Pop` by a thread, or the end of its wait. -/
def act : Call α → Except Elsewhere (BlockingQueue α × Outcome α)
  | .push item =>
      match b.waiting thread with
      | none => .ok ({ b with q := b.q ++ [item] }, .pushed)
      | some _ => .error .elsewhere
  | .pop ms =>
      match b.waiting thread with
      | none => .ok (b.look thread ms)
      | some _ => .error .elsewhere
  | .wake .noTimeout =>
      match b.waiting thread with
      | none => .error .elsewhere
      | some ms => .ok (b.look thread ms)
  | .wake .timeout =>
      match b.waiting thread with
      | none => .error .elsewhere
      | some ms =>
          -- a negative `ms` waits without a timeout
          if ms < 0 then .error .elsewhere
          else .ok ({ b with waiting := Function.update b.waiting thread none }, .returns none)

end BlockingQueue

def step (b : BlockingQueue α) (s : Nat × Call α) : Except Elsewhere (BlockingQueue α) :=
  (b.act s.1 s.2).map Prod.fst

/-- A push brings an item, and each look of a `Pop` takes one if there is one. -/
def event : Nat × Call α → Option Event
  | (_, .push _) => some .arrival
  | (_, .pop _) => some .service
  | (_, .wake .noTimeout) => some .service
  | (_, .wake .timeout) => none

/-- The steps since the last one of a thread. -/
def since (thread : Nat) (steps : List (Nat × Call α)) : List (Nat × Call α) :=
  steps.rtakeWhile fun s => s.1 != thread

/-- Where `Pop` returns false the queue is empty. -/
def FalseOnlyEmpty (items : List α) (steps : List (Nat × Call α)) : Prop :=
  ∀ pre s post b b', steps = pre ++ s :: post → pre.foldlM step (.of items) = .ok b →
    b.act s.1 s.2 = .ok (b', .returns none) → b'.q = []

/-- While a wait lasts that ends by its timeout, as many items are taken as are pushed. -/
def TakenMeanwhile (items : List α) (steps : List (Nat × Call α)) : Prop :=
  ∀ pre thread post b, steps = pre ++ (thread, .wake .timeout) :: post →
    (pre ++ [(thread, .wake .timeout)]).foldlM step (.of items) = .ok b →
      Drained ((since thread pre).filterMap event)

section Steps

variable {b b' : BlockingQueue α} {thread other : Nat} {call : Call α} {outcome : Outcome α}

theorem look_cases (b : BlockingQueue α) (thread : Nat) (ms : Int) :
    b.q = [] ∧ b.look thread ms =
        ({ b with waiting := Function.update b.waiting thread (some ms) }, .waits) ∨
      ∃ item q, b.q = item :: q ∧ b.look thread ms =
        (⟨q, Function.update b.waiting thread none⟩, .returns (some item)) := by
  rw [BlockingQueue.look]
  cases b.q with
  | nil => exact .inl ⟨rfl, rfl⟩
  | cons item q => exact .inr ⟨item, q, rfl, rfl⟩

theorem act_cases (h : b.act thread call = .ok (b', outcome)) :
    (∃ item, call = .push item ∧ b.waiting thread = none ∧ outcome = .pushed ∧
        b' = { b with q := b.q ++ [item] }) ∨
      (∃ ms, b.look thread ms = (b', outcome) ∧
        (call = .pop ms ∧ b.waiting thread = none ∨
          call = .wake .noTimeout ∧ b.waiting thread = some ms)) ∨
      (∃ ms, call = .wake .timeout ∧ b.waiting thread = some ms ∧ ¬ ms < 0 ∧
        outcome = .returns none ∧
        b' = { b with waiting := Function.update b.waiting thread none }) := by
  cases call with
  | push item =>
      left
      simp only [BlockingQueue.act] at h
      split at h
      · rename_i hfree
        obtain ⟨rfl, rfl⟩ := Prod.mk.inj (Except.ok.inj h)
        exact ⟨item, rfl, hfree, rfl, rfl⟩
      · simp at h
  | pop ms =>
      right; left
      simp only [BlockingQueue.act] at h
      split at h
      · rename_i hfree
        exact ⟨ms, Except.ok.inj h, .inl ⟨rfl, hfree⟩⟩
      · simp at h
  | wake status =>
      right
      cases status with
      | noTimeout =>
          left
          simp only [BlockingQueue.act] at h
          split at h
          · simp at h
          · rename_i ms hwaits
            exact ⟨ms, Except.ok.inj h, .inr ⟨rfl, hwaits⟩⟩
      | timeout =>
          right
          simp only [BlockingQueue.act] at h
          split at h
          · simp at h
          · rename_i ms hwaits
            split at h
            · simp at h
            · rename_i hms
              obtain ⟨rfl, rfl⟩ := Prod.mk.inj (Except.ok.inj h)
              exact ⟨ms, rfl, hwaits, hms, rfl, rfl⟩

theorem q_act (h : b.act thread call = .ok (b', outcome)) :
    (∃ item, call = .push item ∧ outcome = .pushed ∧ b'.q = b.q ++ [item]) ∨
      ((∀ item, call ≠ .push item) ∧
        ((∃ item, outcome = .returns (some item) ∧ b.q = item :: b'.q) ∨
          (∀ item, outcome ≠ .returns (some item)) ∧ b'.q = b.q)) := by
  rcases act_cases h with ⟨item, rfl, -, rfl, rfl⟩ | ⟨ms, hlook, hcall⟩ | ⟨ms, rfl, -, -, rfl, rfl⟩
  · exact .inl ⟨item, rfl, rfl, rfl⟩
  · right
    refine ⟨fun item => by rcases hcall with ⟨rfl, -⟩ | ⟨rfl, -⟩ <;> simp, ?_⟩
    rcases look_cases b thread ms with ⟨hempty, heq⟩ | ⟨item, q, hcons, heq⟩
    · obtain ⟨rfl, rfl⟩ := Prod.mk.inj (heq.symm.trans hlook)
      exact .inr ⟨fun item => by simp, rfl⟩
    · obtain ⟨rfl, rfl⟩ := Prod.mk.inj (heq.symm.trans hlook)
      exact .inl ⟨item, rfl, hcons⟩
  · exact .inr ⟨fun item => by simp, .inr ⟨fun item => by simp, rfl⟩⟩

theorem length_act (h : b.act thread call = .ok (b', outcome)) :
    b'.q.length = (event (thread, call)).toList.foldl Event.apply b.q.length := by
  rcases act_cases h with ⟨item, rfl, -, -, rfl⟩ | ⟨ms, hlook, hcall⟩ | ⟨ms, rfl, -, -, -, rfl⟩
  · exact List.length_append
  · have hevent : event (thread, call) = some .service := by
      rcases hcall with ⟨rfl, -⟩ | ⟨rfl, -⟩ <;> rfl
    rw [hevent]
    change b'.q.length = b.q.length - 1
    rcases look_cases b thread ms with ⟨hempty, heq⟩ | ⟨item, q, hcons, heq⟩
    · obtain ⟨rfl, -⟩ := Prod.mk.inj (heq.symm.trans hlook)
      rw [hempty, List.length_nil]
    · obtain ⟨rfl, -⟩ := Prod.mk.inj (heq.symm.trans hlook)
      rw [hcons, List.length_cons, Nat.add_sub_cancel]
  · rfl

theorem waiting_act_of_ne (h : b.act thread call = .ok (b', outcome)) (hne : other ≠ thread) :
    b'.waiting other = b.waiting other := by
  rcases act_cases h with ⟨item, -, -, -, rfl⟩ | ⟨ms, hlook, -⟩ | ⟨ms, -, -, -, -, rfl⟩
  · rfl
  · rcases look_cases b thread ms with ⟨-, heq⟩ | ⟨item, q, -, heq⟩
    · obtain ⟨rfl, -⟩ := Prod.mk.inj (heq.symm.trans hlook)
      exact Function.update_of_ne hne ..
    · obtain ⟨rfl, -⟩ := Prod.mk.inj (heq.symm.trans hlook)
      exact Function.update_of_ne hne ..
  · exact Function.update_of_ne hne ..

theorem empty_of_waiting (h : b.act thread call = .ok (b', outcome))
    (hwaits : b'.waiting thread ≠ none) : b'.q = [] := by
  rcases act_cases h with ⟨item, -, hfree, -, rfl⟩ | ⟨ms, hlook, -⟩ | ⟨ms, -, -, -, -, rfl⟩
  · exact absurd hfree hwaits
  · rcases look_cases b thread ms with ⟨hempty, heq⟩ | ⟨item, q, -, heq⟩
    · obtain ⟨rfl, -⟩ := Prod.mk.inj (heq.symm.trans hlook)
      exact hempty
    · obtain ⟨rfl, -⟩ := Prod.mk.inj (heq.symm.trans hlook)
      exact absurd (Function.update_self ..) hwaits
  · exact absurd (Function.update_self ..) hwaits

theorem act_eq_returns_none (h : b.act thread call = .ok (b', .returns none)) :
    call = .wake .timeout ∧ b.waiting thread ≠ none ∧ b'.q = b.q := by
  rcases act_cases h with ⟨item, -, -, hpushed, -⟩ | ⟨ms, hlook, -⟩ | ⟨ms, rfl, hwaits, -, -, rfl⟩
  · simp at hpushed
  · rcases look_cases b thread ms with ⟨-, heq⟩ | ⟨item, q, -, heq⟩
    · simp [heq] at hlook
    · simp [heq] at hlook
  · exact ⟨rfl, by simp [hwaits], rfl⟩

theorem returns_none_of_timeout (h : b.act thread (.wake .timeout) = .ok (b', outcome)) :
    outcome = .returns none := by
  rcases act_cases h with ⟨item, hcall, -⟩ | ⟨ms, -, hcall⟩ | ⟨ms, -, -, -, houtcome, -⟩
  · simp at hcall
  · simp at hcall
  · exact houtcome

theorem step_eq_ok {s : Nat × Call α} :
    step b s = .ok b' ↔ ∃ outcome, b.act s.1 s.2 = .ok (b', outcome) := by
  rw [step]
  cases b.act s.1 s.2 with
  | error e => simp [Except.map]
  | ok r =>
      obtain ⟨b₁, outcome⟩ := r
      simp [Except.map]

end Steps

section Runs

variable {b : BlockingQueue α} {items : List α} {steps : List (Nat × Call α)}

theorem since_concat (thread : Nat) (steps : List (Nat × Call α)) (s : Nat × Call α) :
    since thread (steps ++ [s]) = if s.1 = thread then [] else since thread steps ++ [s] := by
  rw [since, List.rtakeWhile_concat]
  by_cases h : s.1 = thread
  · rw [if_pos h, if_neg (by simpa using h)]
  · rw [if_neg h, if_pos (by simpa using h), since]

/-- While a thread waits, the queue has what is left of the items pushed since the wait began. -/
theorem length_of_waiting (hrun : steps.foldlM step (.of items) = .ok b) {thread : Nat}
    (hwaits : b.waiting thread ≠ none) :
    b.q.length = backlog ((since thread steps).filterMap event) := by
  induction steps using List.reverseRecOn generalizing b with
  | nil =>
      obtain rfl := Except.ok.inj hrun
      exact absurd rfl hwaits
  | append_singleton steps s ih =>
      rw [foldlM_concat] at hrun
      cases hpre : steps.foldlM step (.of items) with
      | error e => simp [hpre, bind, Except.bind] at hrun
      | ok b₀ =>
          rw [hpre] at hrun
          obtain ⟨outcome, hact⟩ := step_eq_ok.mp hrun
          obtain ⟨other, call⟩ := s
          rw [since_concat]
          by_cases hself : other = thread
          · subst hself
            rw [if_pos rfl, empty_of_waiting hact hwaits]
            rfl
          · have hevent : [(other, call)].filterMap event = (event (other, call)).toList := by
              rw [List.filterMap_cons]
              cases event (other, call) <;> rfl
            rw [if_neg hself, List.filterMap_append, hevent, length_act hact,
              ih hpre (by rwa [← waiting_act_of_ne hact (Ne.symm hself)]), backlog, backlog,
              List.foldl_append]

theorem empty_iff_drained {pre : List (Nat × Call α)} {thread : Nat} {b' : BlockingQueue α}
    {outcome : Outcome α} (hrun : pre.foldlM step (.of items) = .ok b)
    (hact : b.act thread (.wake .timeout) = .ok (b', outcome)) :
    b'.q = [] ↔ Drained ((since thread pre).filterMap event) := by
  obtain ⟨-, hwaits, hq⟩ := act_eq_returns_none (returns_none_of_timeout hact ▸ hact)
  rw [hq, ← List.length_eq_zero_iff, length_of_waiting hrun hwaits, backlog_eq_zero_iff]

theorem falseOnlyEmpty_iff (items : List α) (steps : List (Nat × Call α)) :
    FalseOnlyEmpty items steps ↔ TakenMeanwhile items steps := by
  constructor
  · intro h pre thread post b' hsplit hrun
    rw [foldlM_concat] at hrun
    cases hpre : pre.foldlM step (.of items) with
    | error e => simp [hpre, bind, Except.bind] at hrun
    | ok b =>
        rw [hpre] at hrun
        obtain ⟨outcome, hact⟩ := step_eq_ok.mp hrun
        obtain rfl := returns_none_of_timeout hact
        exact (empty_iff_drained hpre hact).mp (h pre _ post b b' hsplit hpre hact)
  · intro h pre s post b b' hsplit hpre hact
    obtain ⟨thread, call⟩ := s
    obtain ⟨rfl, -, -⟩ := act_eq_returns_none hact
    refine (empty_iff_drained hpre hact).mpr (h pre thread post b' hsplit ?_)
    rw [foldlM_concat, hpre]
    exact step_eq_ok.mpr ⟨_, hact⟩

end Runs

end PgFort.BlockingQueues
