import PgFort.Transactions

namespace PgFort.Settings

open PgFort.Transactions

/-- What is left of a setting when the transaction commits, and what is in effect until then. -/
structure Setting (V : Type) where
  kept : V
  current : V
  deriving DecidableEq, Repr

def Setting.of {V : Type} (v : V) : Setting V := ⟨v, v⟩

/-- What a connection does, as far as the setting is concerned. -/
inductive Command (V : Type) where
  /-- `SET LOCAL` lasts until the end of the transaction. -/
  | assign (isLocal : Bool) (f : V → V)
  | control (c : Control)
  | other
  /-- A statement that fails. -/
  | error

structure Connection (V : Type) where
  saved : V
  setting : Setting V
  inBlock : Bool
  failed : Bool
  savepoints : List (String × Setting V)
  deriving DecidableEq, Repr

namespace Connection

variable {V : Type} (c : Connection V)

def idle (v : V) : Connection V := ⟨v, .of v, false, false, []⟩

def commit (inBlock : Bool) : Connection V :=
  { idle c.setting.kept with inBlock }

/-- The changes of the transaction are taken back, with those of the setting. -/
def rollback (inBlock : Bool) : Connection V :=
  { idle c.saved with inBlock }

/-- An error takes back the work since the last savepoint, or all of it; a block then waits for
its end. -/
def fail : Connection V :=
  if c.inBlock then
    { c with setting := (c.savepoints.head?.map Prod.snd).getD (.of c.saved), failed := true }
  else c.rollback false

/-- The end of a statement: outside of a block its transaction is committed. -/
def finish : Connection V :=
  if c.inBlock then c else c.commit false

/-- `ROLLBACK TO`; the savepoints after that one are gone. -/
def rollbackTo (name : String) : Option (Connection V) :=
  match c.savepoints.dropWhile fun p => p.1 != name with
  | [] => none
  | p :: rest => some { c with setting := p.2, failed := false, savepoints := p :: rest }

/-- The effect of a control statement, unless it is refused. -/
def control : Control → Option (Connection V)
  | .begin => if c.failed then none else some { c with inBlock := true }
  | .commit chain =>
      if chain && !c.inBlock then none
      else if c.failed then some (c.rollback chain)
      else some (c.commit chain)
  | .rollback chain => if chain && !c.inBlock then none else some (c.rollback chain)
  | .savepoint name =>
      if c.failed || !c.inBlock then none
      else some { c with savepoints := (name, c.setting) :: c.savepoints }
  | .release name =>
      if c.failed then none
      else
        match c.savepoints.dropWhile fun p => p.1 != name with
        | [] => none
        | _ :: rest => some { c with savepoints := rest }
  | .rollbackTo name => c.rollbackTo name
  | .prepare _ => if c.failed then some (c.rollback false) else some (c.commit false)
  | .finishPrepared => if c.inBlock then none else some c

/-- What a command does to the connection, unless it fails. -/
def step : Command V → Option (Connection V)
  | .control ctl => c.control ctl
  | .assign isLocal f =>
      if c.failed then none
      else
        some { c with
          setting.kept := if isLocal then c.setting.kept else f c.setting.kept
          setting.current := f c.setting.current }
  | .other => if c.failed then none else some c
  | .error => none

/-- The commands of a text in their order, up to the first that fails. -/
def exec (c : Connection V) : List (Command V) → Connection V
  | [] => c.finish
  | cmd :: cmds =>
      match c.step cmd with
      | some c' => c'.exec cmds
      | none => c.fail

def current : V := c.setting.current

variable {c}

theorem exec_of_other {v : V} {cmds : List (Command V)} (h : ∀ cmd ∈ cmds, cmd = .other) :
    (idle v).exec cmds = idle v := by
  induction cmds with
  | nil => rfl
  | cons cmd cmds ih =>
      obtain rfl := h cmd List.mem_cons_self
      exact ih fun cmd hcmd => h cmd (List.mem_cons_of_mem _ hcmd)

theorem exec_assign {v : V} {isLocal : Bool} {f : V → V} :
    (idle v).exec [.assign isLocal f] = idle (if isLocal then v else f v) := by
  cases isLocal <;> rfl

end Connection

end PgFort.Settings
