import Mathlib.Data.List.Nodup

/-!
A fragment of SQL: values with null, conditions in three-valued logic, and FROM items
over a catalogue of tables. A relation is a bag of rows, as a list whose order means
nothing.
-/

namespace PgFort.Sql

/-- A value. What has none of the types of interest is given by its text. -/
inductive Value where
  | null
  | int (n : Int)
  | text (s : String)
  | texts (ss : List String)
  | other (repr : String)
  deriving DecidableEq, Repr

/-- `=`. Nothing is known to be equal to null. -/
def Value.equals : Value → Value → Option Bool
  | .null, _ => none
  | _, .null => none
  | a, b => some (a == b)

theorem Value.equals_eq_true {a b : Value} :
    a.equals b = some true ↔ a ≠ .null ∧ a = b := by
  cases a <;> cases b <;> simp [equals]

structure Column where
  relation : String
  name : String
  deriving DecidableEq, Repr

/-- A stored table or the result of a view. -/
structure Table where
  columns : List String
  rows : List (List Value)
  nodup : columns.Nodup
  width : ∀ row ∈ rows, row.length = columns.length

structure Relation where
  columns : List Column
  rows : List (List Value)
  width : ∀ row ∈ rows, row.length = columns.length

def Table.value (t : Table) (row : List Value) (name : String) : Value :=
  ((t.columns.zip row).lookup name).getD .null

/-- A table under the name it goes by in a query. -/
def Table.named (t : Table) (relation : String) : Relation where
  columns := t.columns.map fun name => ⟨relation, name⟩
  rows := t.rows
  width := by
    intro row hrow
    rw [List.length_map, t.width row hrow]

inductive Expr where
  | column (c : Column)
  | const (v : Value)
  | currentUser
  deriving DecidableEq, Repr

inductive Condition where
  | equals (lexpr rexpr : Expr)
  | and (args : List Condition)

/-- The values of a row under a column. -/
def valuesOf (columns : List Column) (row : List Value) (c : Column) : List Value :=
  ((columns.zip row).filter fun p => p.1 = c).map Prod.snd

/-- A column reference is an error unless there is one such column. -/
def Expr.resolves (columns : List Column) : Expr → Bool
  | .column c => columns.count c == 1
  | .const _ => true
  | .currentUser => true

def Expr.eval (user : String) (columns : List Column) (row : List Value) : Expr → Value
  | .column c => (valuesOf columns row c).headD .null
  | .const v => v
  | .currentUser => .text user

mutual

/-- All columns in the condition are there, and none is ambiguous. -/
def Condition.resolves (columns : List Column) : Condition → Bool
  | .equals l r => l.resolves columns && r.resolves columns
  | .and args => Condition.resolvesAll columns args

def Condition.resolvesAll (columns : List Column) : List Condition → Bool
  | [] => true
  | c :: cs => c.resolves columns && Condition.resolvesAll columns cs

end

/-- AND in three-valued logic. -/
def andTruth : Option Bool → Option Bool → Option Bool
  | some false, _ => some false
  | _, some false => some false
  | some true, some true => some true
  | _, _ => none

mutual

/-- The truth of a condition for a row. -/
def Condition.eval (user : String) (columns : List Column) (row : List Value) :
    Condition → Option Bool
  | .equals l r => (l.eval user columns row).equals (r.eval user columns row)
  | .and args => Condition.evalAll user columns row args

def Condition.evalAll (user : String) (columns : List Column) (row : List Value) :
    List Condition → Option Bool
  | [] => some true
  | c :: cs => andTruth (c.eval user columns row) (Condition.evalAll user columns row cs)

end

/-- A row is kept when the condition is true of it, neither false nor unknown. -/
def Condition.holds (user : String) (columns : List Column) (cond : Condition)
    (row : List Value) : Bool :=
  cond.eval user columns row == some true

inductive FromItem where
  | table (relname : String) (aliasname : Option String)
  | innerJoin (larg rarg : FromItem) (quals : Condition)

/-- The pairs of rows that the condition is true of. -/
def Relation.join (l : Relation) (user : String) (r : Relation) (quals : Condition) : Relation where
  columns := l.columns ++ r.columns
  rows := l.rows.flatMap fun a =>
    (r.rows.map (a ++ ·)).filter (quals.holds user (l.columns ++ r.columns))
  width := by
    intro row hrow
    obtain ⟨a, ha, hrow⟩ := List.mem_flatMap.mp hrow
    obtain ⟨b, hb, rfl⟩ := List.mem_map.mp (List.mem_filter.mp hrow).1
    rw [List.length_append, List.length_append, l.width a ha, r.width b hb]

/-- The relation of a FROM item, when all its names resolve. -/
def FromItem.eval (catalogue : String → Option Table) (user : String) :
    FromItem → Option Relation
  | .table relname aliasname =>
      (catalogue relname).map fun t => t.named (aliasname.getD relname)
  | .innerJoin larg rarg quals => do
      let l ← larg.eval catalogue user
      let r ← rarg.eval catalogue user
      if quals.resolves (l.columns ++ r.columns) then some (l.join user r quals)
      else none

section Columns

theorem valuesOf_append {ls rs : List Column} {a b : List Value} (hlen : a.length = ls.length)
    (c : Column) : valuesOf (ls ++ rs) (a ++ b) c = valuesOf ls a c ++ valuesOf rs b c := by
  rw [valuesOf, List.zip_append hlen.symm, List.filter_append, List.map_append]
  rfl

theorem valuesOf_of_notMem {cs : List Column} {row : List Value} {c : Column} (h : c ∉ cs) :
    valuesOf cs row c = [] := by
  rw [valuesOf, List.map_eq_nil_iff, List.filter_eq_nil_iff]
  rintro ⟨c', v⟩ hmem hc
  obtain rfl : c' = c := by simpa using hc
  exact h (List.of_mem_zip hmem).1

theorem eval_column_left {user : String} {ls rs : List Column} {a b : List Value} {c : Column}
    (hlen : a.length = ls.length) (hc : c ∉ rs) :
    (Expr.column c).eval user (ls ++ rs) (a ++ b) = (Expr.column c).eval user ls a := by
  rw [Expr.eval, valuesOf_append hlen, valuesOf_of_notMem hc, List.append_nil, Expr.eval]

theorem eval_column_right {user : String} {ls rs : List Column} {a b : List Value} {c : Column}
    (hlen : a.length = ls.length) (hc : c ∉ ls) :
    (Expr.column c).eval user (ls ++ rs) (a ++ b) = (Expr.column c).eval user rs b := by
  rw [Expr.eval, valuesOf_append hlen, valuesOf_of_notMem hc, List.nil_append, Expr.eval]

theorem mem_columns_named {t : Table} {relation : String} {c : Column} :
    c ∈ (t.named relation).columns ↔ c.relation = relation ∧ c.name ∈ t.columns := by
  obtain ⟨rel, name⟩ := c
  simp only [Table.named, List.mem_map, Column.mk.injEq]
  constructor
  · rintro ⟨n, hn, rfl, rfl⟩
    exact ⟨rfl, hn⟩
  · rintro ⟨rfl, hn⟩
    exact ⟨name, hn, rfl, rfl⟩

theorem count_columns_named {t : Table} {relation name : String} (h : name ∈ t.columns) :
    (t.named relation).columns.count ⟨relation, name⟩ = 1 := by
  apply List.count_eq_one_of_mem
  · exact t.nodup.map fun n n' hn => (Column.mk.inj hn).2
  · exact mem_columns_named.mpr ⟨rfl, h⟩

theorem eval_column_named (user : String) (t : Table) (relation : String) (row : List Value)
    (name : String) :
    (Expr.column ⟨relation, name⟩).eval user (t.named relation).columns row =
      t.value row name := by
  have hlookup : ∀ (ns : List String) (row : List Value),
      (valuesOf (ns.map fun n => ⟨relation, n⟩) row ⟨relation, name⟩).headD .null =
        ((ns.zip row).lookup name).getD .null := by
    intro ns
    induction ns with
    | nil => simp [valuesOf]
    | cons n ns ih =>
        intro row
        cases row with
        | nil => simp [valuesOf]
        | cons v row =>
            rw [List.map_cons, valuesOf, List.zip_cons_cons, List.zip_cons_cons]
            by_cases hn : n = name
            · simp [hn]
            · rw [List.filter_cons_of_neg (by simp [hn]), ← valuesOf, ih row, List.lookup_cons,
                beq_false_of_ne (Ne.symm hn)]
  exact hlookup t.columns row

end Columns

theorem andTruth_eq_true {a b : Option Bool} :
    andTruth a b = some true ↔ a = some true ∧ b = some true := by
  rcases a with _ | _ | _ <;> rcases b with _ | _ | _ <;> simp [andTruth]

theorem evalAll_eq_true {user : String} {columns : List Column} {row : List Value}
    {args : List Condition} :
    Condition.evalAll user columns row args = some true ↔
      ∀ c ∈ args, c.eval user columns row = some true := by
  induction args with
  | nil => simp [Condition.evalAll]
  | cons c cs ih => rw [Condition.evalAll, andTruth_eq_true, ih, List.forall_mem_cons]

end PgFort.Sql
