import Mathlib.Data.List.Forall2
import Mathlib.Data.List.Infix

/-!
A text of statements on a connection whose transaction is open: what it commits, and which
texts commit nothing whatever their statements do to the data.
-/

namespace PgFort.Transactions

/-- The statements that control the transaction of their connection. -/
inductive Control where
  | begin
  | commit (chain : Bool)
  | rollback (chain : Bool)
  | savepoint (name : String)
  | release (name : String)
  | rollbackTo (name : String)
  | prepare (gid : String)
  /-- `COMMIT PREPARED` and `ROLLBACK PREPARED`, which are refused in a text of several
  statements. -/
  | finishPrepared
  deriving DecidableEq, Repr

inductive Statement (α : Type) where
  | control (c : Control)
  | plain (a : α)
  deriving DecidableEq, Repr

/-- A connection works on data of its own until it commits. Outside a transaction block the
statements of a text form a transaction too. -/
structure Connection (D : Type) where
  committed : D
  prepared : List (String × D)
  work : D
  inBlock : Bool
  savepoints : List (String × D)

variable {α D : Type}

namespace Connection

def opened (d : D) (prepared : List (String × D)) : Connection D where
  committed := d
  prepared
  work := d
  inBlock := true
  savepoints := []

/-- What stays when the connection ends. -/
def lasting (s : Connection D) : D × List (String × D) :=
  (s.committed, s.prepared)

/-- The end of a text commits what is done outside a block. -/
def finish (s : Connection D) : Connection D :=
  if s.inBlock then s else { s with committed := s.work }

end Connection

/-- The effect of a control statement, unless it is refused. The server may be set up not to
prepare transactions. -/
def control (prepares : Bool) (s : Connection D) : Control → Option (Connection D)
  | .begin => some { s with inBlock := true }
  | .commit chain =>
      if chain && !s.inBlock then none
      else some { s with committed := s.work, inBlock := chain, savepoints := [] }
  | .rollback chain =>
      if chain && !s.inBlock then none
      else some { s with work := s.committed, inBlock := chain, savepoints := [] }
  | .savepoint name =>
      if s.inBlock then some { s with savepoints := (name, s.work) :: s.savepoints } else none
  | .release name =>
      match s.savepoints.dropWhile fun p => p.1 != name with
      | [] => none
      | _ :: rest => some { s with savepoints := rest }
  | .rollbackTo name =>
      match s.savepoints.dropWhile fun p => p.1 != name with
      | [] => none
      | p :: rest => some { s with work := p.2, savepoints := p :: rest }
  | .prepare gid =>
      if s.inBlock then
        if prepares && !s.prepared.any fun p => p.1 == gid then
          some { s with
            prepared := (gid, s.work) :: s.prepared
            work := s.committed
            inBlock := false
            savepoints := [] }
        else none
      else some { s with committed := s.work, savepoints := [] }
  | .finishPrepared => none

/-- What a statement does to the connection, unless it fails. -/
def step (effect : α → D → Option D) (prepares : Bool) (s : Connection D) :
    Statement α → Option (Connection D)
  | .control c => control prepares s c
  | .plain a => (effect a s.work).map fun work => { s with work }

/-- The statements in their order. An error ends the text; the flag says that there was none. -/
def exec (effect : α → D → Option D) (prepares : Bool) (s : Connection D) :
    List (Statement α) → Connection D × Bool
  | [] => (s.finish, true)
  | st :: sts =>
      match step effect prepares s st with
      | some s' => exec effect prepares s' sts
      | none => (s, false)

/-- What stays when the text has been executed in a transaction that is aborted. -/
def dryRun (effect : α → D → Option D) (prepares : Bool) (d : D) (prepared : List (String × D))
    (sts : List (Statement α)) : D × List (String × D) :=
  (exec effect prepares (.opened d prepared) sts).1.lasting

/-- Data that records what was done to them. -/
def record (a : α) (log : List α) : Option (List α) :=
  some (log ++ [a])

/-- Nothing was committed to the records or prepared. -/
def Connection.Undone (l : Connection (List α)) : Prop :=
  l.committed = [] ∧ l.prepared = []

/-- No plain statement of the text stands, uncommitted, before a commit, a preparation or, out
of a block, the end of the text. -/
def CommitsNothing (sts : List (Statement α)) : Prop :=
  (exec record true (.opened [] []) sts).1.Undone

instance (sts : List (Statement α)) : Decidable (CommitsNothing sts) :=
  decidable_of_iff
    ((exec record true (.opened [] []) sts).1.committed.isEmpty = true ∧
      (exec record true (.opened [] []) sts).1.prepared.isEmpty = true)
    (and_congr List.isEmpty_iff List.isEmpty_iff)

section Inversion

/-- The control statements that are not refused. -/
inductive Controls (prepares : Bool) (s : Connection D) : Control → Connection D → Prop where
  | begin : Controls prepares s .begin { s with inBlock := true }
  | commit {chain : Bool} (h : ¬(chain && !s.inBlock) = true) :
      Controls prepares s (.commit chain)
        { s with committed := s.work, inBlock := chain, savepoints := [] }
  | rollback {chain : Bool} (h : ¬(chain && !s.inBlock) = true) :
      Controls prepares s (.rollback chain)
        { s with work := s.committed, inBlock := chain, savepoints := [] }
  | savepoint {name : String} (h : s.inBlock = true) :
      Controls prepares s (.savepoint name)
        { s with savepoints := (name, s.work) :: s.savepoints }
  | release {name : String} {p : String × D} {rest : List (String × D)}
      (h : (s.savepoints.dropWhile fun p => p.1 != name) = p :: rest) :
      Controls prepares s (.release name) { s with savepoints := rest }
  | rollbackTo {name : String} {p : String × D} {rest : List (String × D)}
      (h : (s.savepoints.dropWhile fun p => p.1 != name) = p :: rest) :
      Controls prepares s (.rollbackTo name) { s with work := p.2, savepoints := p :: rest }
  | prepare (gid : String) (h : s.inBlock = true)
      (hfree : (prepares && !s.prepared.any fun p => p.1 == gid) = true) :
      Controls prepares s (.prepare gid)
        { s with
          prepared := (gid, s.work) :: s.prepared
          work := s.committed
          inBlock := false
          savepoints := [] }
  | prepareOutside {gid : String} (h : ¬s.inBlock = true) :
      Controls prepares s (.prepare gid) { s with committed := s.work, savepoints := [] }

theorem controls_iff {prepares : Bool} {s s' : Connection D} {c : Control} :
    control prepares s c = some s' ↔ Controls prepares s c s' := by
  constructor
  · intro h
    cases c with
    | begin => exact Option.some.inj h ▸ .begin
    | commit chain =>
        rw [control] at h
        split at h
        · simp at h
        · exact Option.some.inj h ▸ .commit ‹_›
    | rollback chain =>
        rw [control] at h
        split at h
        · simp at h
        · exact Option.some.inj h ▸ .rollback ‹_›
    | savepoint name =>
        rw [control] at h
        split at h
        · exact Option.some.inj h ▸ .savepoint ‹_›
        · simp at h
    | release name =>
        rw [control] at h
        split at h
        · simp at h
        · exact Option.some.inj h ▸ .release ‹_›
    | rollbackTo name =>
        rw [control] at h
        split at h
        · simp at h
        · exact Option.some.inj h ▸ .rollbackTo ‹_›
    | prepare gid =>
        rw [control] at h
        split at h
        · split at h
          · exact Option.some.inj h ▸ .prepare gid ‹_› ‹_›
          · simp at h
        · exact Option.some.inj h ▸ .prepareOutside ‹_›
    | finishPrepared => simp [control] at h
  · intro h
    cases h with
    | begin => rfl
    | commit h => rw [control, if_neg h]
    | rollback h => rw [control, if_neg h]
    | savepoint h => rw [control, if_pos h]
    | release h => rw [control, h]
    | rollbackTo h => rw [control, h]
    | prepare _ h hfree => rw [control, if_pos h, if_pos hfree]
    | prepareOutside h => rw [control, if_neg h]

end Inversion

section Records

variable {l l' : Connection (List α)}

/-- What was done before stays at the beginning of the record. -/
structure Ordered (l : Connection (List α)) : Prop where
  work : l.committed <+: l.work
  savepoints : ∀ p ∈ l.savepoints, l.committed <+: p.2

theorem ordered_opened : Ordered (.opened ([] : List α) []) :=
  ⟨List.prefix_refl _, fun _ hp => absurd hp List.not_mem_nil⟩

theorem mem_of_dropWhile {p : String × D} {rest sps : List (String × D)} {name : String}
    (h : sps.dropWhile (fun p => p.1 != name) = p :: rest) : ∀ q ∈ p :: rest, q ∈ sps := by
  intro q hq
  rw [← h] at hq
  exact (List.dropWhile_suffix _).subset hq

theorem Ordered.step (h : Ordered l) {prepares : Bool} {st : Statement α}
    (hstep : Transactions.step record prepares l st = some l') :
    Ordered l' ∧ (l'.Undone → l.Undone) := by
  have hempty : l.work = [] → l.committed = [] := fun hwork => List.prefix_nil.mp (hwork ▸ h.work)
  cases st with
  | plain a =>
      obtain rfl := Option.some.inj hstep
      exact ⟨⟨h.work.trans (List.prefix_append _ _), h.savepoints⟩, id⟩
  | control c =>
      cases controls_iff.mp hstep with
      | begin => exact ⟨⟨h.work, h.savepoints⟩, id⟩
      | commit =>
          exact ⟨⟨List.prefix_refl _, fun _ hp => absurd hp List.not_mem_nil⟩,
            fun hu => ⟨hempty hu.1, hu.2⟩⟩
      | rollback =>
          exact ⟨⟨List.prefix_refl _, fun _ hp => absurd hp List.not_mem_nil⟩, id⟩
      | savepoint =>
          refine ⟨⟨h.work, fun p hp => ?_⟩, id⟩
          rcases List.mem_cons.mp hp with rfl | hp
          · exact h.work
          · exact h.savepoints p hp
      | release hdrop =>
          refine ⟨⟨h.work, fun q hq => h.savepoints q ?_⟩, id⟩
          exact mem_of_dropWhile hdrop q (List.mem_cons_of_mem _ hq)
      | rollbackTo hdrop =>
          have hmem := mem_of_dropWhile hdrop
          exact ⟨⟨h.savepoints _ (hmem _ List.mem_cons_self),
            fun q hq => h.savepoints q (hmem q hq)⟩, id⟩
      | prepare =>
          exact ⟨⟨List.prefix_refl _, fun _ hp => absurd hp List.not_mem_nil⟩,
            fun hu => absurd hu.2 (List.cons_ne_nil _ _)⟩
      | prepareOutside =>
          exact ⟨⟨List.prefix_refl _, fun _ hp => absurd hp List.not_mem_nil⟩,
            fun hu => ⟨hempty hu.1, hu.2⟩⟩

theorem undone_of_exec (h : Ordered l) {prepares : Bool} {sts : List (Statement α)}
    (hundone : (exec record prepares l sts).1.Undone) : l.Undone := by
  induction sts generalizing l with
  | nil =>
      simp only [exec, Connection.finish] at hundone
      split at hundone
      · exact hundone
      · exact ⟨List.prefix_nil.mp (hundone.1 ▸ h.work), hundone.2⟩
  | cons st sts ih =>
      simp only [exec] at hundone
      split at hundone
      · rename_i l' hstep
        obtain ⟨hordered, hback⟩ := h.step hstep
        exact hback (ih hordered hundone)
      · exact hundone

end Records

section Replay

variable {effect : α → D → Option D} {prepares : Bool} {d : D} {prepared : List (String × D)}
  {l l' : Connection (List α)} {s s' : Connection D}

/-- The data are what the recorded statements make of the old ones. -/
def Replays (effect : α → D → Option D) (d : D) (log : List α) (w : D) : Prop :=
  log.foldlM (fun w a => effect a w) d = some w

theorem replays_nil {w : D} : Replays effect d [] w ↔ w = d := by
  rw [Replays, List.foldlM_nil, Option.pure_def, Option.some.injEq, eq_comm]

theorem Replays.concat {log : List α} {w w' : D} {a : α} (h : Replays effect d log w)
    (ha : effect a w = some w') : Replays effect d (log ++ [a]) w' := by
  rw [Replays] at h
  rw [Replays, List.foldlM_append, h]
  simp [ha]

/-- A connection and the record of what it does. -/
structure Follows (effect : α → D → Option D) (d : D) (prepared : List (String × D))
    (l : Connection (List α)) (s : Connection D) : Prop where
  committed : Replays effect d l.committed s.committed
  work : Replays effect d l.work s.work
  inBlock : s.inBlock = l.inBlock
  savepoints : List.Forall₂ (fun p q => p.1 = q.1 ∧ Replays effect d p.2 q.2)
    l.savepoints s.savepoints
  prepared : ∃ new, s.prepared = new ++ prepared ∧ new.map Prod.fst = l.prepared.map Prod.fst

theorem follows_opened : Follows effect d prepared (.opened [] []) (.opened d prepared) where
  committed := replays_nil.mpr rfl
  work := replays_nil.mpr rfl
  inBlock := rfl
  savepoints := .nil
  prepared := ⟨[], rfl, rfl⟩

theorem forall₂_dropWhile {R : List α → D → Prop} {ps : List (String × List α)}
    {qs : List (String × D)} (h : List.Forall₂ (fun p q => p.1 = q.1 ∧ R p.2 q.2) ps qs)
    (name : String) :
    List.Forall₂ (fun p q => p.1 = q.1 ∧ R p.2 q.2) (ps.dropWhile fun p => p.1 != name)
      (qs.dropWhile fun q => q.1 != name) := by
  induction h with
  | nil => exact .nil
  | cons hpq _ ih =>
      rw [List.dropWhile_cons, List.dropWhile_cons, hpq.1]
      split
      · exact ih
      · exact .cons hpq ‹_›

theorem Follows.free (h : Follows effect d prepared l s) {gid : String}
    (hfree : (prepares && !s.prepared.any fun p => p.1 == gid) = true) :
    (true && !l.prepared.any fun p => p.1 == gid) = true := by
  obtain ⟨new, hnew, hnames⟩ := h.prepared
  rw [Bool.and_eq_true, hnew, List.any_append, Bool.not_or, Bool.and_eq_true] at hfree
  have hany : ∀ {E : Type} (ps : List (String × E)),
      (ps.any fun p => p.1 == gid) = (ps.map Prod.fst).any fun n => n == gid := by
    intro E ps
    rw [List.any_map]
    rfl
  rw [Bool.true_and, hany, ← hnames, ← hany]
  exact hfree.2.1

theorem Follows.step (h : Follows effect d prepared l s) {st : Statement α}
    (hstep : Transactions.step effect prepares s st = some s') :
    ∃ l', Transactions.step record true l st = some l' ∧ Follows effect d prepared l' s' := by
  have hblock := h.inBlock
  cases st with
  | plain a =>
      obtain ⟨w, hw, rfl⟩ := Option.map_eq_some_iff.mp hstep
      exact ⟨_, rfl, h.committed, h.work.concat hw, h.inBlock, h.savepoints, h.prepared⟩
  | control c =>
      suffices hcontrols : ∃ l', Controls true l c l' ∧ Follows effect d prepared l' s' by
        obtain ⟨l', hl', hfollows⟩ := hcontrols
        exact ⟨l', controls_iff.mpr hl', hfollows⟩
      cases controls_iff.mp hstep with
      | begin => exact ⟨_, .begin, h.committed, h.work, rfl, h.savepoints, h.prepared⟩
      | commit hchain =>
          exact ⟨_, .commit (hblock ▸ hchain), h.work, h.work, rfl, .nil, h.prepared⟩
      | rollback hchain =>
          exact ⟨_, .rollback (hblock ▸ hchain), h.committed, h.committed, rfl, .nil, h.prepared⟩
      | savepoint hin =>
          exact ⟨_, .savepoint (hblock ▸ hin), h.committed, h.work, h.inBlock,
            .cons ⟨rfl, h.work⟩ h.savepoints, h.prepared⟩
      | release hq =>
          obtain ⟨p, ps, -, hps, heq⟩ :=
            List.forall₂_cons_right_iff.mp (hq ▸ forall₂_dropWhile h.savepoints _)
          exact ⟨_, .release heq, h.committed, h.work, h.inBlock, hps, h.prepared⟩
      | rollbackTo hq =>
          obtain ⟨p, ps, hpq, hps, heq⟩ :=
            List.forall₂_cons_right_iff.mp (hq ▸ forall₂_dropWhile h.savepoints _)
          exact ⟨_, .rollbackTo heq, h.committed, hpq.2, h.inBlock, .cons hpq hps, h.prepared⟩
      | prepare gid hin hfree =>
          obtain ⟨new, hnew, hnames⟩ := h.prepared
          refine ⟨_, .prepare gid (hblock ▸ hin) (h.free hfree), h.committed, h.committed, rfl, .nil,
            (gid, s.work) :: new, ?_, ?_⟩
          · rw [hnew, List.cons_append]
          · rw [List.map_cons, hnames, List.map_cons]
      | prepareOutside hout =>
          exact ⟨_, .prepareOutside (hblock ▸ hout), h.work, h.work, h.inBlock, .nil, h.prepared⟩

/-- A text whose record commits nothing leaves the data, wherever it stops. -/
theorem lasting_exec (h : Follows effect d prepared l s) (hordered : Ordered l)
    {sts : List (Statement α)} (hundone : (exec record true l sts).1.Undone) :
    (exec effect prepares s sts).1.lasting = (d, prepared) := by
  -- what has been committed or prepared so far is nothing
  have hlasting : ∀ {l : Connection (List α)} {s : Connection D},
      Follows effect d prepared l s → l.Undone → s.lasting = (d, prepared) := by
    intro l s h hl
    obtain ⟨new, hnew, hnames⟩ := h.prepared
    rw [hl.2, List.map_nil, List.map_eq_nil_iff] at hnames
    have hcommitted := h.committed
    rw [hl.1, replays_nil] at hcommitted
    rw [Connection.lasting, hcommitted, hnew, hnames, List.nil_append]
  induction sts generalizing l s with
  | nil =>
      simp only [exec, Connection.finish] at hundone ⊢
      rw [← h.inBlock] at hundone
      split at hundone
      · rename_i hblock
        rw [if_pos hblock]
        exact hlasting h hundone
      · rename_i hblock
        rw [if_neg hblock]
        have hcommit : Follows effect d prepared { l with committed := l.work }
            { s with committed := s.work } :=
          ⟨h.work, h.work, h.inBlock, h.savepoints, h.prepared⟩
        exact hlasting hcommit hundone
  | cons st sts ih =>
      simp only [exec]
      split
      · rename_i s' hstep
        obtain ⟨l', hrecord, hfollows⟩ := h.step hstep
        simp only [exec, hrecord] at hundone
        exact ih hfollows (hordered.step hrecord).1 hundone
      · exact hlasting h (undone_of_exec hordered hundone)

end Replay

/-- Exactly the texts that commit nothing leave all data as they were, whatever their plain
statements do. -/
theorem dryRun_eq_iff (sts : List (Statement α)) :
    (∀ (D : Type) (effect : α → D → Option D) (prepares : Bool) (d : D)
      (prepared : List (String × D)), dryRun effect prepares d prepared sts = (d, prepared)) ↔
      CommitsNothing sts := by
  constructor
  · intro h
    exact Prod.mk.inj (h (List α) record true [] [])
  · intro h D effect prepares d prepared
    exact lasting_exec follows_opened ordered_opened h

end PgFort.Transactions
