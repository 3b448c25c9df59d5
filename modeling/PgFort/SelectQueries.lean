import Mathlib.Data.List.Dedup
import PgFort.Sql

/-!
SELECT statements over a catalogue of tables: joins and sub-selects in FROM clauses, conditions
in three-valued logic, and set operations. The types of values are not checked.
-/

namespace PgFort.SelectQueries

open PgFort.Sql

inductive Qual where
  | equals (lexpr rexpr : Expr)
  | isNull (arg : Expr)
  | not (arg : Qual)
  | and (args : List Qual)
  | or (args : List Qual)

def notTruth (a : Option Bool) : Option Bool := a.map (!·)

/-- OR in three-valued logic. -/
def orTruth (a b : Option Bool) : Option Bool :=
  notTruth (andTruth (notTruth a) (notTruth b))

mutual

def Qual.exprs : Qual → List Expr
  | .equals l r => [l, r]
  | .isNull e => [e]
  | .not q => q.exprs
  | .and qs => Qual.exprsAll qs
  | .or qs => Qual.exprsAll qs

def Qual.exprsAll : List Qual → List Expr
  | [] => []
  | q :: qs => q.exprs ++ Qual.exprsAll qs

end

mutual

/-- The truth of a condition for a row. -/
def Qual.eval (user : String) (columns : List Column) (row : List Value) : Qual → Option Bool
  | .equals l r => (l.eval user columns row).equals (r.eval user columns row)
  | .isNull e => some (e.eval user columns row == .null)
  | .not q => notTruth (q.eval user columns row)
  | .and qs => Qual.evalAnd user columns row qs
  | .or qs => Qual.evalOr user columns row qs

def Qual.evalAnd (user : String) (columns : List Column) (row : List Value) :
    List Qual → Option Bool
  | [] => some true
  | q :: qs => andTruth (q.eval user columns row) (Qual.evalAnd user columns row qs)

def Qual.evalOr (user : String) (columns : List Column) (row : List Value) :
    List Qual → Option Bool
  | [] => some false
  | q :: qs => orTruth (q.eval user columns row) (Qual.evalOr user columns row qs)

end

/-- All columns in the condition are there, and none is ambiguous. -/
def Qual.resolves (columns : List Column) (q : Qual) : Bool :=
  q.exprs.all (Expr.resolves columns)

/-- A row that a condition keeps. -/
def Qual.holds (user : String) (columns : List Column) (q : Qual) (row : List Value) : Bool :=
  q.eval user columns row == some true

inductive JoinType where
  | inner
  | left
  deriving DecidableEq, Repr

inductive SetOperation where
  | union
  | intersect
  | except
  deriving DecidableEq, Repr

/-- An output column of a SELECT. -/
structure ResTarget where
  name : Option String
  val : Expr
  deriving DecidableEq, Repr

/-- The name that the server gives to an output column without one. -/
def ResTarget.colname (t : ResTarget) : String :=
  t.name.getD (match t.val with
    | .column c => c.name
    | .const _ => "?column?"
    | .currentUser => "current_user")

mutual

/-- An item of a FROM clause. -/
inductive RangeItem where
  | rangeVar (relname : String) (aliasname : Option String)
  | joinExpr (jointype : JoinType) (larg rarg : RangeItem) (quals : Qual)
  | rangeSubselect (subquery : SelectStmt) (aliasname : String)

inductive SelectStmt where
  | select (targetList : List ResTarget) (fromClause : List RangeItem) (whereClause : Option Qual)
  | setOperation (op : SetOperation) (all : Bool) (larg rarg : SelectStmt)

end

/-- The result of a SELECT. -/
structure Answer where
  names : List String
  rows : List (List Value)
  width : ∀ row ∈ rows, row.length = names.length

def Answer.named (a : Answer) (relation : String) : Relation where
  columns := a.names.map fun name => ⟨relation, name⟩
  rows := a.rows
  width := by
    intro row hrow
    rw [List.length_map, a.width row hrow]

/-- What a join makes of a row of its left side: the pairs that the condition is true of and,
for a left join without any, the row with nulls. -/
def partners (jointype : JoinType) (holds : List Value → Bool) (r : Relation)
    (row : List Value) : List (List Value) :=
  let pairs := (r.rows.map (row ++ ·)).filter holds
  if jointype = .left ∧ pairs = [] then [row ++ List.replicate r.columns.length .null] else pairs

theorem length_of_mem_partners {jointype : JoinType} {holds : List Value → Bool} {r : Relation}
    {row pair : List Value} (h : pair ∈ partners jointype holds r row) :
    pair.length = row.length + r.columns.length := by
  rw [partners] at h
  split at h
  · obtain rfl := List.mem_singleton.mp h
    rw [List.length_append, List.length_replicate]
  · obtain ⟨other, hother, rfl⟩ := List.mem_map.mp (List.mem_filter.mp h).1
    rw [List.length_append, r.width other hother]

/-- A join. -/
def joined (jointype : JoinType) (holds : List Value → Bool) (l r : Relation) : Relation where
  columns := l.columns ++ r.columns
  rows := l.rows.flatMap (partners jointype holds r)
  width := by
    intro pair hpair
    obtain ⟨row, hrow, hpair⟩ := List.mem_flatMap.mp hpair
    rw [length_of_mem_partners hpair, l.width row hrow, List.length_append]

/-- The FROM clause without an item. -/
def oneRow : Relation where
  columns := []
  rows := [[]]
  width := by
    intro row hrow
    exact congrArg List.length (List.mem_singleton.mp hrow)

def keep (holds : List Value → Bool) (r : Relation) : Relation where
  columns := r.columns
  rows := r.rows.filter holds
  width row hrow := r.width row (List.mem_of_mem_filter hrow)

def project (user : String) (targetList : List ResTarget) (r : Relation) : Answer where
  names := targetList.map ResTarget.colname
  rows := r.rows.map fun row => targetList.map fun t => t.val.eval user r.columns row
  width := by
    intro row hrow
    obtain ⟨row', -, rfl⟩ := List.mem_map.mp hrow
    rw [List.length_map, List.length_map]

/-- The rows of a set operation. Two nulls count as the same. -/
def combineRows (op : SetOperation) (all : Bool) (l r : List (List Value)) : List (List Value) :=
  match op, all with
  | .union, true => l ++ r
  | .union, false => (l ++ r).dedup
  -- as often as in the side that has it less often
  | .intersect, true => l.diff (l.diff r)
  | .intersect, false => l.dedup.filter (· ∈ r)
  | .except, true => l.diff r
  | .except, false => l.dedup.filter (· ∉ r)

theorem mem_or_mem_of_mem_combineRows {op : SetOperation} {all : Bool} {l r : List (List Value)}
    {row : List Value} (h : row ∈ combineRows op all l r) : row ∈ l ∨ row ∈ r := by
  cases op <;> cases all <;> simp only [combineRows] at h
  · exact List.mem_append.mp (List.mem_dedup.mp h)
  · exact List.mem_append.mp h
  · exact .inl (List.mem_dedup.mp (List.mem_of_mem_filter h))
  · exact .inl (List.diff_subset l _ h)
  · exact .inl (List.mem_dedup.mp (List.mem_of_mem_filter h))
  · exact .inl (List.diff_subset l r h)

/-- A set operation on two answers. -/
def combine (op : SetOperation) (all : Bool) (l r : Answer) : Option Answer :=
  if h : l.names.length = r.names.length then
    some
      { names := l.names
        rows := combineRows op all l.rows r.rows
        width := fun row hrow => (mem_or_mem_of_mem_combineRows hrow).elim (l.width row)
          fun hr => (r.width row hr).trans h.symm }
  else none

mutual

/-- The names that an item is known by in the rest of the query. -/
def RangeItem.refs : RangeItem → List String
  | .rangeVar relname aliasname => [aliasname.getD relname]
  | .joinExpr _ larg rarg _ => larg.refs ++ rarg.refs
  | .rangeSubselect _ aliasname => [aliasname]

def RangeItem.refsAll : List RangeItem → List String
  | [] => []
  | i :: is => i.refs ++ RangeItem.refsAll is

end

/-- The output columns of the rows that the condition is true of, when no name is given twice and
every column is one. -/
def selectRows (user : String) (targetList : List ResTarget) (refs : List String)
    (whereClause : Option Qual) (r : Relation) : Option Answer :=
  if refs.Nodup ∧ (∀ t ∈ targetList, t.val.resolves r.columns) ∧
      ∀ q ∈ whereClause, q.resolves r.columns then
    some (project user targetList (keep (fun row => whereClause.all (·.holds user r.columns row)) r))
  else none

mutual

/-- What a FROM item is evaluated to. -/
def RangeItem.eval (catalogue : String → Option Table) (user : String) :
    RangeItem → Option Relation
  | .rangeVar relname aliasname => (catalogue relname).map (·.named (aliasname.getD relname))
  | .joinExpr jointype larg rarg quals => do
      let l ← larg.eval catalogue user
      let r ← rarg.eval catalogue user
      if quals.resolves (l.columns ++ r.columns) then
        some (joined jointype (quals.holds user (l.columns ++ r.columns)) l r)
      else none
  | .rangeSubselect subquery aliasname => (subquery.eval catalogue user).map (·.named aliasname)

/-- The product of the items of a FROM clause. -/
def RangeItem.evalAll (catalogue : String → Option Table) (user : String) :
    List RangeItem → Option Relation
  | [] => some oneRow
  | i :: is => do
      let l ← i.eval catalogue user
      let r ← RangeItem.evalAll catalogue user is
      return joined .inner (fun _ => true) l r

/-- The result of a SELECT, when all its names resolve. -/
def SelectStmt.eval (catalogue : String → Option Table) (user : String) :
    SelectStmt → Option Answer
  | .select targetList fromClause whereClause => do
      let r ← RangeItem.evalAll catalogue user fromClause
      selectRows user targetList (RangeItem.refsAll fromClause) whereClause r
  | .setOperation op all larg rarg => do
      let l ← larg.eval catalogue user
      let r ← rarg.eval catalogue user
      combine op all l r

end

mutual

/-- The table references of an item, with their aliases. -/
def RangeItem.rangeVars : RangeItem → List (String × Option String)
  | .rangeVar relname aliasname => [(relname, aliasname)]
  | .joinExpr _ larg rarg _ => larg.rangeVars ++ rarg.rangeVars
  | .rangeSubselect subquery _ => subquery.rangeVars

def RangeItem.rangeVarsAll : List RangeItem → List (String × Option String)
  | [] => []
  | i :: is => i.rangeVars ++ RangeItem.rangeVarsAll is

/-- The tables that a SELECT reads, with their aliases. -/
def SelectStmt.rangeVars : SelectStmt → List (String × Option String)
  | .select _ fromClause _ => RangeItem.rangeVarsAll fromClause
  | .setOperation _ _ larg rarg => larg.rangeVars ++ rarg.rangeVars

end

section Catalogue

variable {catalogue catalogue' : String → Option Table} {user : String}

mutual

theorem RangeItem.eval_congr : ∀ i : RangeItem,
    (∀ x ∈ i.rangeVars, catalogue x.1 = catalogue' x.1) →
      i.eval catalogue user = i.eval catalogue' user
  | .rangeVar relname aliasname, h => by
      rw [RangeItem.eval, RangeItem.eval, h (relname, aliasname) (List.mem_singleton.mpr rfl)]
  | .joinExpr _ larg rarg _, h => by
      rw [RangeItem.eval, RangeItem.eval,
        larg.eval_congr fun x hx => h x (List.mem_append_left _ hx),
        rarg.eval_congr fun x hx => h x (List.mem_append_right _ hx)]
  | .rangeSubselect subquery _, h => by
      rw [RangeItem.eval, RangeItem.eval, subquery.eval_congr h]

theorem RangeItem.evalAll_congr : ∀ is : List RangeItem,
    (∀ x ∈ RangeItem.rangeVarsAll is, catalogue x.1 = catalogue' x.1) →
      RangeItem.evalAll catalogue user is = RangeItem.evalAll catalogue' user is
  | [], _ => rfl
  | i :: is, h => by
      rw [RangeItem.evalAll, RangeItem.evalAll,
        i.eval_congr fun x hx => h x (List.mem_append_left _ hx),
        RangeItem.evalAll_congr is fun x hx => h x (List.mem_append_right _ hx)]

theorem SelectStmt.eval_congr : ∀ q : SelectStmt,
    (∀ x ∈ q.rangeVars, catalogue x.1 = catalogue' x.1) →
      q.eval catalogue user = q.eval catalogue' user
  | .select _ fromClause _, h => by
      rw [SelectStmt.eval, SelectStmt.eval, RangeItem.evalAll_congr fromClause h]
  | .setOperation _ _ larg rarg, h => by
      rw [SelectStmt.eval, SelectStmt.eval,
        larg.eval_congr fun x hx => h x (List.mem_append_left _ hx),
        rarg.eval_congr fun x hx => h x (List.mem_append_right _ hx)]

end

end Catalogue

end PgFort.SelectQueries
