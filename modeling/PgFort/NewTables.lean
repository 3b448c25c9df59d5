import PgFort.FieldReads
import PgFort.ParseTree
import PgFort.Plugins

namespace PgFort.NewTables

open PgFort.JsonTree
open PgFort.JsonTree.Json
open PgFort.JsonAccess
open PgFort.FieldReads
open PgFort.KeyedTraversal
open PgFort.ParseTree
open PgFort.Schema
open PgFort.Conn
open PgFort.Plugins

/-- The kinds of constraints of the server's parser. -/
inductive ConstrType where
  | null
  | notNull
  | default
  | identity
  | generated
  | check
  | primary
  | unique
  | exclusion
  | foreign
  | attrDeferrable
  | attrNotDeferrable
  | attrDeferred
  | attrImmediate
  deriving DecidableEq, Repr

def ConstrType.name : ConstrType → String
  | .null => "CONSTR_NULL"
  | .notNull => "CONSTR_NOTNULL"
  | .default => "CONSTR_DEFAULT"
  | .identity => "CONSTR_IDENTITY"
  | .generated => "CONSTR_GENERATED"
  | .check => "CONSTR_CHECK"
  | .primary => "CONSTR_PRIMARY"
  | .unique => "CONSTR_UNIQUE"
  | .exclusion => "CONSTR_EXCLUSION"
  | .foreign => "CONSTR_FOREIGN"
  | .attrDeferrable => "CONSTR_ATTR_DEFERRABLE"
  | .attrNotDeferrable => "CONSTR_ATTR_NOT_DEFERRABLE"
  | .attrDeferred => "CONSTR_ATTR_DEFERRED"
  | .attrImmediate => "CONSTR_ATTR_IMMEDIATE"

/-- An element of a table. Of a LIKE clause nothing is read. -/
inductive TableElt where
  | columnDef (colname : String) (constraints : List ConstrType)
  | constraint (contype : ConstrType) (keys : List String)
  | other (kind : String)
  deriving DecidableEq, Repr

structure CreateStmt where
  relname : String
  tableElts : List TableElt
  deriving DecidableEq, Repr

namespace CreateStmt

/-- The plug-in does not look at the tables that hold bindings. -/
def IsBindingTable (t : CreateStmt) : Prop :=
  endsWith t.relname "__access_bindings__" = true

section Id

variable (t : CreateStmt) (constraints : List ConstrType)

/-- The column `id`, with such constraints, is the whole primary key. -/
def IsPrimaryKey : Prop :=
  .primary ∈ constraints ∨ .constraint .primary ["id"] ∈ t.tableElts

/-- Identity columns are NOT NULL, and so are those of a primary key. -/
def IsNotNull : Prop :=
  .notNull ∈ constraints ∨ .identity ∈ constraints ∨
    ∃ keys, "id" ∈ keys ∧ .constraint .primary keys ∈ t.tableElts

/-- A constraint UNIQUE (id), at the column or at the table. -/
def IsUnique : Prop :=
  .unique ∈ constraints ∨ .constraint .unique ["id"] ∈ t.tableElts

end Id

/-- The statement declares a column `id` by which its rows can be referred to. -/
def HasId (t : CreateStmt) : Prop :=
  ∃ constraints, .columnDef "id" constraints ∈ t.tableElts ∧
    (t.IsPrimaryKey constraints ∨ t.IsNotNull constraints ∧ t.IsUnique constraints)

/-- A column `id` is declared with a constraint of this kind. -/
def Declares (t : CreateStmt) (contype : ConstrType) : Prop :=
  ∃ constraints, .columnDef "id" constraints ∈ t.tableElts ∧ contype ∈ constraints

/-- The table has a column `id`, with a primary key of its own or of the table, or with both
NOT NULL and UNIQUE among the constraints of the columns of that name. -/
def PlainlyHasId (t : CreateStmt) : Prop :=
  (∃ constraints, .columnDef "id" constraints ∈ t.tableElts) ∧
    (t.Declares .primary ∨ .constraint .primary ["id"] ∈ t.tableElts ∨
      t.Declares .notNull ∧ t.Declares .unique)

end CreateStmt

/-- How the parser writes the statement: the members that are read are as they are here, and
there may be others. -/
def IsConstraint (x : Json) (contype : ConstrType) : Prop :=
  ∃ ms, x = node "Constraint" ms ∧ ms.lookup "contype" = some (.str contype.name)

/-- How the parser writes an element of a table. -/
def IsElt (x : Json) : TableElt → Prop
  | .columnDef colname constraints =>
      ∃ ms, x = node "ColumnDef" ms ∧ ms.lookup "colname" = some (.str colname) ∧
        ListField IsConstraint "constraints" ms constraints
  | .constraint contype keys =>
      ∃ ms, x = node "Constraint" ms ∧ ms.lookup "contype" = some (.str contype.name) ∧
        ListField (fun y key => y = stringNode key) "keys" ms keys
  | .other kind => ∃ ms, x = node kind ms ∧ kind ≠ "ColumnDef" ∧ kind ≠ "Constraint"

/-- How the parser writes CREATE TABLE. -/
def IsCreateStmt (v : Json) (t : CreateStmt) : Prop :=
  ∃ ms rel, v = .obj ms ∧ ms.lookup "relation" = some (.obj rel) ∧
    rel.lookup "relname" = some (.str t.relname) ∧ ListField IsElt "tableElts" ms t.tableElts

/-- The tree of a query with the CREATE TABLE statements in it, wherever they stand. -/
structure Script where
  json : Json
  distinct : Distinct json
  tables : List CreateStmt
  created : List.Forall₂ IsCreateStmt (valuesUnder "CreateStmt" json) tables

/-- The session's query is this one. -/
def Script.asked (q : Script) (s : Session) : Session :=
  { s with context.query := ⟨true, q.json⟩ }

variable {lib : Externals}

section Inspect

theorem equals_str (s t : String) : yield (equals s) (.str t) = .ok (decide (t = s)) := by
  show Except.ok (decide (Json.str t = Json.str s)) = _
  simp

theorem name_injective {c d : ConstrType} (h : c.name = d.name) : c = d := by
  cases c <;> cases d <;> first | rfl | exact absurd h (by decide)

def noted (c : IdCheck) (contype : ConstrType) : IdCheck :=
  { c with
    notNull := c.notNull || contype = .notNull
    isUnique := c.isUnique || contype = .unique
    primary := c.primary || contype = .primary }

theorem yield_inspectConstraint (c : IdCheck) (x : Json) (contype : ConstrType)
    (h : IsConstraint x contype) : yield (inspectConstraint c) x = .ok (noted c contype) := by
  obtain ⟨ms, rfl, hcontype⟩ := h
  have hread : yield (atKey "Constraint" (atKey "contype" value)) (node "Constraint" ms) =
      .ok (.str contype.name) := by
    rw [node, yield_atKey_obj, List.lookup_cons_self, Option.getD_some, yield_atKey_obj, hcontype]
    rfl
  refine yield_bind hread fun j' _ => ?_
  show Except.ok _ = _
  cases contype <;> rfl

/-- What an element adds to the check. -/
def inspected (c : IdCheck) : TableElt → IdCheck
  | .columnDef colname constraints =>
      if colname = "id" then constraints.foldl noted { c with haveId := true } else c
  | .constraint contype keys => { c with primary := c.primary || (contype = .primary && keys = ["id"]) }
  | .other _ => c

variable {c : IdCheck} {ms : List (String × Json)}

theorem yield_columnDef {α : Type} {x : Access α} {cd : List (String × Json)}
    (h : ms.lookup "ColumnDef" = some (.obj cd)) {key : String} :
    yield (atKey "ColumnDef" (atKey key x)) (.obj ms) =
      yield x ((cd.lookup key).getD .null) := by
  rw [yield_atKey_obj, h, Option.getD_some, yield_atKey_obj]

theorem yield_inspectColumnDef {cd : List (String × Json)} {colname : String}
    {constraints : List ConstrType} (h : ms.lookup "ColumnDef" = some (.obj cd))
    (hcolname : cd.lookup "colname" = some (.str colname))
    (hconstraints : ListField IsConstraint "constraints" cd constraints) :
    yield (inspectColumnDef c) (.obj ms) = .ok (inspected c (.columnDef colname constraints)) := by
  have hname : yield (atKey "ColumnDef" (atKey "colname" (equals "id"))) (.obj ms) =
      .ok (decide (colname = "id")) := by
    rw [yield_columnDef h, hcolname, Option.getD_some, equals_str]
  refine yield_bind hname fun j' hj' => ?_
  rw [inspected]
  split
  · rename_i hid
    obtain ⟨rfl, -⟩ := (((strict_equals "id").atKey "colname").atKey "ColumnDef") _ _ _ hj' hid
    rw [if_pos (of_decide_eq_true hid), yield_columnDef h]
    exact yield_forItems yield_inspectConstraint hconstraints _
  · rename_i hid
    rw [if_neg fun heq => hid (decide_eq_true heq)]
    rfl

theorem yield_equals_none {kind key s : String} (h : ms.lookup kind = none) :
    yield (atKey kind (atKey key (equals s))) (.obj ms) = .ok false := by
  rw [yield_atKey_obj, h, Option.getD_none, yield_atKey_null]
  rfl

theorem yield_inspectColumnDef_none (h : ms.lookup "ColumnDef" = none) :
    yield (inspectColumnDef c) (.obj ms) = .ok c :=
  yield_bind (yield_equals_none h) fun _ _ => rfl

theorem keeps_inspectColumnDef : Keeps "Constraint" (inspectColumnDef c) := by
  refine (keeps_atKey (by decide)).bind fun b => ?_
  cases b with
  | true => exact keeps_atKey (by decide)
  | false => exact keeps_pure

theorem yield_inspectTableConstraint_none (h : ms.lookup "Constraint" = none) :
    yield (inspectTableConstraint c) (.obj ms) = .ok c :=
  yield_bind (yield_equals_none h) fun _ _ => rfl

theorem getD_keys {cs : List (String × Json)} {keys : List String}
    (h : ListField (fun y key => y = stringNode key) "keys" cs keys) :
    (cs.lookup "keys").getD .null = .null ∧ keys = [] ∨
      (cs.lookup "keys").getD .null = .arr (keys.map stringNode) := by
  obtain ⟨rfl, hnone⟩ | ⟨xs, hsome, hxs⟩ := h
  · left
    rw [hnone]
    exact ⟨rfl, rfl⟩
  · right
    have hmap : xs = keys.map stringNode := by
      rw [← List.forall₂_eq_eq_eq, List.forall₂_map_right_iff]
      exact hxs
    rw [hsome, Option.getD_some, hmap]

theorem yield_inspectTableConstraint {cs : List (String × Json)} {contype : ConstrType}
    {keys : List String} (h : ms.lookup "Constraint" = some (.obj cs))
    (hcontype : cs.lookup "contype" = some (.str contype.name))
    (hkeys : ListField (fun y key => y = stringNode key) "keys" cs keys) :
    yield (inspectTableConstraint c) (.obj ms) = .ok (inspected c (.constraint contype keys)) := by
  have htype : yield (atKey "Constraint" (atKey "contype" (equals "CONSTR_PRIMARY"))) (.obj ms) =
      .ok (decide (contype = .primary)) := by
    rw [yield_atKey_obj, h, Option.getD_some, yield_atKey_obj, hcontype, Option.getD_some, equals_str]
    refine congrArg _ (decide_eq_decide.mpr ⟨fun heq => name_injective heq, ?_⟩)
    rintro rfl
    rfl
  refine yield_bind htype fun j' hj' => ?_
  cases hprimary : decide (contype = .primary) with
  | false =>
      rw [inspected, hprimary, Bool.false_and, Bool.or_false]
      rfl
  | true =>
      rw [hprimary] at hj'
      obtain ⟨rfl, -⟩ := (((strict_equals _).atKey "contype").atKey "Constraint") _ _ _ hj' rfl
      have hread : yield (atKey "Constraint" (atKey "keys" value)) (.obj ms) =
          .ok ((cs.lookup "keys").getD .null) := by
        rw [yield_atKey_obj, h, Option.getD_some, yield_atKey_obj]
        rfl
      refine yield_bind hread fun j' _ => ?_
      rw [inspected, hprimary, Bool.true_and]
      obtain hkeys | hkeys := getD_keys hkeys
      · rw [hkeys.1, hkeys.2, decide_eq_false (by decide), Bool.or_false]
        rfl
      · rw [hkeys]
        match keys with
        | [] =>
            rw [decide_eq_false (by decide), Bool.or_false]
            rfl
        | [key] =>
            have hdecide : decide (Json.str key = Json.str "id") = decide ([key] = ["id"]) := by simp
            rw [← hdecide]
            rfl
        | _ :: _ :: _ =>
            rw [decide_eq_false (by simp), Bool.or_false]
            rfl

theorem yield_inspectElt (c : IdCheck) (x : Json) (elt : TableElt) (h : IsElt x elt) :
    yield (inspectElt c) x = .ok (inspected c elt) := by
  cases elt with
  | columnDef colname constraints =>
      obtain ⟨ms, rfl, hcolname, hconstraints⟩ := h
      refine yield_bind (yield_inspectColumnDef List.lookup_cons_self hcolname hconstraints)
        fun j' hj' => ?_
      obtain ⟨ns, rfl, hns⟩ := keeps_inspectColumnDef _ _ _ hj'
      exact yield_inspectTableConstraint_none hns
  | constraint contype keys =>
      obtain ⟨ms, rfl, hcontype, hkeys⟩ := h
      refine yield_bind (yield_inspectColumnDef_none rfl) fun j' hj' => ?_
      obtain ⟨ns, rfl, hns⟩ := keeps_inspectColumnDef _ _ _ hj'
      exact yield_inspectTableConstraint (hns.trans List.lookup_cons_self) hcontype hkeys
  | other kind =>
      obtain ⟨ms, rfl, hcolumn, hconstraint⟩ := h
      have hlookup : ∀ key, kind ≠ key → [(kind, Json.obj ms)].lookup key = none := by
        intro key hne
        rw [List.lookup_cons, beq_false_of_ne hne.symm]
        rfl
      refine yield_bind (yield_inspectColumnDef_none (hlookup _ hcolumn)) fun j' hj' => ?_
      obtain ⟨ns, rfl, hns⟩ := keeps_inspectColumnDef _ _ _ hj'
      exact yield_inspectTableConstraint_none (hns.trans (hlookup _ hconstraint))

end Inspect

section Flags

theorem foldl_flag_iff {α σ : Type} {step : σ → α → σ} (flag : σ → Bool) (sets : α → Prop)
    (hstep : ∀ s a, flag (step s a) = true ↔ flag s = true ∨ sets a) (items : List α) (s : σ) :
    flag (items.foldl step s) = true ↔ flag s = true ∨ ∃ a ∈ items, sets a := by
  induction items generalizing s with
  | nil => simp
  | cons a items ih => rw [List.foldl_cons, ih, hstep, List.exists_mem_cons_iff, or_assoc]

theorem haveId_foldl (c : IdCheck) (constraints : List ConstrType) :
    (constraints.foldl noted c).haveId = c.haveId := by
  induction constraints generalizing c with
  | nil => rfl
  | cons contype constraints ih => exact ih (noted c contype)

theorem flag_columnDef {flag : IdCheck → Bool} {kind : ConstrType}
    (hid : ∀ c, flag { c with haveId := true } = flag c)
    (hnoted : ∀ c contype, flag (noted c contype) = true ↔ flag c = true ∨ contype = kind)
    (c : IdCheck) (colname : String) (constraints : List ConstrType) :
    flag (inspected c (.columnDef colname constraints)) = true ↔
      flag c = true ∨ colname = "id" ∧ kind ∈ constraints := by
  rw [inspected]
  split
  · rename_i heq
    rw [foldl_flag_iff flag (· = kind) hnoted, hid]
    simp [heq]
  · rename_i heq
    simp [heq]

variable (t : CreateStmt)

/-- The outcome of the inspection. -/
def check : IdCheck := t.tableElts.foldl inspected ⟨false, false, false, false⟩

theorem haveId_check : (check t).haveId = true ↔
    ∃ constraints, .columnDef "id" constraints ∈ t.tableElts := by
  rw [check, foldl_flag_iff IdCheck.haveId fun elt => ∃ constraints, elt = .columnDef "id" constraints]
  · simp only [Bool.false_eq_true, false_or]
    constructor
    · rintro ⟨elt, hmem, constraints, rfl⟩
      exact ⟨constraints, hmem⟩
    · rintro ⟨constraints, hmem⟩
      exact ⟨_, hmem, constraints, rfl⟩
  · intro c elt
    cases elt with
    | columnDef colname constraints =>
        rw [inspected]
        split
        · rename_i heq
          simp [haveId_foldl, heq]
        · rename_i heq
          simp [heq]
    | _ => simp [inspected]

theorem declares_iff {kind : ConstrType} : t.Declares kind ↔ ∃ elt ∈ t.tableElts,
    ∃ constraints, elt = .columnDef "id" constraints ∧ kind ∈ constraints := by
  constructor
  · rintro ⟨constraints, hmem, hkind⟩
    exact ⟨_, hmem, constraints, rfl, hkind⟩
  · rintro ⟨elt, hmem, constraints, rfl, hkind⟩
    exact ⟨constraints, hmem, hkind⟩

theorem flag_check {flag : IdCheck → Bool} {kind : ConstrType}
    (hid : ∀ c, flag { c with haveId := true } = flag c)
    (hnoted : ∀ c contype, flag (noted c contype) = true ↔ flag c = true ∨ contype = kind)
    (htable : ∀ c contype keys, flag (inspected c (.constraint contype keys)) = flag c)
    (hnone : flag ⟨false, false, false, false⟩ = false) :
    flag (check t) = true ↔ t.Declares kind := by
  rw [check, declares_iff, foldl_flag_iff flag fun elt =>
    ∃ constraints, elt = .columnDef "id" constraints ∧ kind ∈ constraints]
  · simp [hnone]
  · intro c elt
    cases elt with
    | columnDef colname constraints =>
        rw [flag_columnDef hid hnoted]
        simp
    | constraint contype keys => simp [htable]
    | other _ => simp [inspected]

theorem notNull_check : (check t).notNull = true ↔ t.Declares .notNull :=
  flag_check t (fun _ => rfl) (fun _ _ => by simp [noted]) (fun _ _ _ => rfl) rfl

theorem isUnique_check : (check t).isUnique = true ↔ t.Declares .unique :=
  flag_check t (fun _ => rfl) (fun _ _ => by simp [noted]) (fun _ _ _ => rfl) rfl

theorem primary_check : (check t).primary = true ↔
    t.Declares .primary ∨ .constraint .primary ["id"] ∈ t.tableElts := by
  rw [check, declares_iff, foldl_flag_iff IdCheck.primary fun elt =>
    (∃ constraints, elt = .columnDef "id" constraints ∧ .primary ∈ constraints) ∨
      elt = .constraint .primary ["id"]]
  · simp only [Bool.false_eq_true, false_or, and_or_left, exists_or, exists_eq_right]
  · intro c elt
    cases elt with
    | columnDef colname constraints =>
        rw [flag_columnDef (fun _ => rfl) (fun _ _ => by simp [noted]; rfl)]
        simp
    | _ => simp [inspected]

theorem plainlyHasId_iff : t.PlainlyHasId ↔
    ((check t).haveId && ((check t).primary || (check t).notNull && (check t).isUnique)) = true := by
  rw [Bool.and_eq_true, Bool.or_eq_true, Bool.and_eq_true, haveId_check, primary_check, notNull_check,
    isUnique_check, or_assoc]
  rfl

end Flags

section PlugIn

open PgFort.Stateful.Action

theorem wp_onQuery_of_yield {α : Type} {x : Access α} {Q : α → Session → Prop}
    {E : Fault → Session → Prop} {s : Session} {a : α} (hx : yield x s.context.query.json = .ok a)
    (h : ∀ json, x s.context.query.json = .ok (a, json) →
      Q a { s with context.query.json := json }) : wp (onQuery lib x) Q E s := by
  obtain ⟨⟨b, json⟩, hb, hba⟩ := map_eq_ok.mp hx
  obtain rfl : b = a := hba
  rw [wp, onQuery, hb]
  exact h json hb

variable {q : Script} {s : Session}

/-- The check accepts a query without new tables, and else goes by the first of them. -/
def Accepted : List CreateStmt → Prop
  | [] => True
  | t :: _ => t.IsBindingTable ∨ t.PlainlyHasId

theorem yield_createdName {v : Json} {t : CreateStmt} (h : IsCreateStmt v t) :
    yield createdName v = .ok t.relname := by
  obtain ⟨ms, rel, rfl, hrelation, hrelname, -⟩ := h
  rw [createdName, yield_atKey_obj, hrelation, Option.getD_some, yield_atKey_obj, hrelname]
  rfl

theorem yield_tableElts {v : Json} {t : CreateStmt} (h : IsCreateStmt v t) :
    yield (atKey "tableElts" (forItems inspectElt ⟨false, false, false, false⟩)) v =
      .ok (check t) := by
  obtain ⟨ms, rel, rfl, -, -, helts⟩ := h
  rw [yield_atKey_obj]
  exact yield_forItems yield_inspectElt helts _

theorem invalidTable_ne_noError {msg line : String} : invalidTable lib msg line ≠ .noError := by
  intro h
  exact absurd (congrArg Conn.Error.fields h) (by simp [invalidTable, Conn.Error.noError])

theorem wp_ensureNewTableHasId (q : Script) (s : Session) :
    wp (ensureNewTableHasIdPlugIn lib) (fun err _ => err = .noError ↔ Accepted q.tables)
      (fun _ _ => False) (q.asked s) := by
  have hcreated := q.created
  simp only [ensureNewTableHasIdPlugIn, wp_bind, wp_ite, wp_pure, wp_state]
  refine ⟨fun hvalid => absurd hvalid (by simp [Script.asked]), fun _ => ?_⟩
  rw [show (q.asked s).context.query.json = q.json from rfl]
  cases hfind : findNode "CreateStmt" q.json with
  | none =>
      rw [valuesUnder_of_findNode_none hfind, List.forall₂_nil_left_iff] at hcreated
      rw [hcreated]
      exact iff_of_true rfl trivial
  | some n =>
      obtain ⟨v, vs, hget, hvalues⟩ := exists_of_findNode hfind
      rw [hvalues] at hcreated
      obtain ⟨t, ts, hv, -, htables⟩ := List.forall₂_cons_left_iff.mp hcreated
      have hname : yield (atPath n createdName) q.json = .ok t.relname :=
        (yield_atPath q.distinct hget).trans (yield_createdName hv)
      have helts : yield (atPath n (atKey "tableElts"
          (forItems inspectElt ⟨false, false, false, false⟩))) q.json = .ok (check t) :=
        (yield_atPath q.distinct hget).trans (yield_tableElts hv)
      rw [htables, Accepted]
      simp only [wp_bind, wp_ite, wp_pure]
      refine wp_onQuery_of_yield hname fun json hjson => ?_
      -- reading the name changes nothing
      have hstrict : Strict (fun _ => True) (atPath n createdName) :=
        ((strict_getString.atKey "relname").atKey "relation").atPath n
      obtain ⟨rfl, -⟩ := hstrict _ _ _ hjson trivial
      refine ⟨fun hbinding => iff_of_true trivial (.inl hbinding), fun hbinding => ?_⟩
      refine wp_onQuery_of_yield helts fun json' _ => ?_
      rw [CreateStmt.IsBindingTable, or_iff_right hbinding, plainlyHasId_iff]
      cases hid : (check t).haveId <;> cases hprimary : (check t).primary <;>
        cases hnull : (check t).notNull <;> cases hunique : (check t).isUnique <;>
          simp [invalidTable_ne_noError]

theorem result_ensureNewTableHasId (q : Script) (s : Session) :
    (ensureNewTableHasIdPlugIn lib (q.asked s)).1 = .ok .noError ↔ Accepted q.tables := by
  have hwp := @wp_ensureNewTableHasId lib q s
  rw [wp] at hwp
  cases hrun : ensureNewTableHasIdPlugIn lib (q.asked s) with
  | mk r s' =>
      rw [hrun] at hwp
      cases r with
      | ok err => exact ⟨fun h => hwp.mp (Except.ok.inj h), fun h => congrArg _ (hwp.mpr h)⟩
      | error f => exact hwp.elim

end PlugIn

section Agreement

/-- A new table that is not a bindings table has an `id`. -/
def Sound (t : CreateStmt) : Prop := t.IsBindingTable ∨ t.HasId

/-- The plug-in accepts the query if and only if every new table in it has an `id`. -/
def Agrees (lib : Externals) (q : Script) (s : Session) : Prop :=
  (ensureNewTableHasIdPlugIn lib (q.asked s)).1 = .ok .noError ↔ ∀ t ∈ q.tables, Sound t

/-- What the plug-in does not look at. -/
inductive Overlooked : List CreateStmt → Prop
  /-- NOT NULL stands at one column `id` and UNIQUE at another. -/
  | split {t ts} : ¬ t.IsBindingTable → t.Declares .notNull → t.Declares .unique → ¬ t.HasId →
      Overlooked (t :: ts)
  /-- A later statement creates a table without an `id`. -/
  | later {t ts t'} : t.IsBindingTable ∨ t.PlainlyHasId → t' ∈ ts → ¬ Sound t' → Overlooked (t :: ts)
  /-- The `id` is NOT NULL as an identity or as a part of the primary key. -/
  | implied {t ts constraints} : ¬ t.IsBindingTable → ¬ t.PlainlyHasId →
      .columnDef "id" constraints ∈ t.tableElts →
      (.identity ∈ constraints ∨ ∃ keys, "id" ∈ keys ∧ .constraint .primary keys ∈ t.tableElts) →
      t.IsUnique constraints → (∀ t' ∈ ts, Sound t') → Overlooked (t :: ts)
  /-- The `id` is UNIQUE by a constraint of the table. -/
  | ofTable {t ts constraints} : ¬ t.IsBindingTable → ¬ t.PlainlyHasId →
      .columnDef "id" constraints ∈ t.tableElts → t.IsNotNull constraints →
      .constraint .unique ["id"] ∈ t.tableElts → (∀ t' ∈ ts, Sound t') → Overlooked (t :: ts)

section Constraints

variable {t : CreateStmt} {constraints : List ConstrType}

theorem hasId_of_primary (hid : .columnDef "id" constraints ∈ t.tableElts)
    (hprimary : t.Declares .primary ∨ .constraint .primary ["id"] ∈ t.tableElts) : t.HasId := by
  rcases hprimary with ⟨constraints', hid', hmem⟩ | hmem
  · exact ⟨constraints', hid', .inl (.inl hmem)⟩
  · exact ⟨constraints, hid, .inl (.inr hmem)⟩

theorem declares_of_plainlyHasId (hplain : t.PlainlyHasId) (hid : ¬ t.HasId) :
    t.Declares .notNull ∧ t.Declares .unique := by
  obtain ⟨⟨constraints, hmem⟩, hprimary | hprimary | hboth⟩ := hplain
  · exact absurd (hasId_of_primary hmem (.inl hprimary)) hid
  · exact absurd (hasId_of_primary hmem (.inr hprimary)) hid
  · exact hboth

theorem exists_of_hasId (hplain : ¬ t.PlainlyHasId) (h : t.HasId) :
    ∃ constraints, .columnDef "id" constraints ∈ t.tableElts ∧
      ((.identity ∈ constraints ∨ ∃ keys, "id" ∈ keys ∧ .constraint .primary keys ∈ t.tableElts) ∧
          t.IsUnique constraints ∨
        t.IsNotNull constraints ∧ .constraint .unique ["id"] ∈ t.tableElts) := by
  obtain ⟨constraints, hmem, (hprimary | hprimary) | ⟨hnull, hunique⟩⟩ := h
  · exact absurd ⟨⟨constraints, hmem⟩, .inl ⟨constraints, hmem, hprimary⟩⟩ hplain
  · exact absurd ⟨⟨constraints, hmem⟩, .inr (.inl hprimary)⟩ hplain
  · refine ⟨constraints, hmem, ?_⟩
    rcases hunique with hcolumn | htable
    · rcases hnull with hnull | himplied
      · exact absurd ⟨⟨constraints, hmem⟩,
          .inr (.inr ⟨⟨constraints, hmem, hnull⟩, constraints, hmem, hcolumn⟩)⟩ hplain
      · exact .inl ⟨himplied, .inl hcolumn⟩
    · exact .inr ⟨hnull, htable⟩

end Constraints

theorem agrees_iff (lib : Externals) (q : Script) (s : Session) :
    Agrees lib q s ↔ ¬ Overlooked q.tables := by
  rw [Agrees, result_ensureNewTableHasId]
  cases q.tables with
  | nil => exact iff_of_true (iff_of_true trivial (by simp)) (by rintro ⟨⟩)
  | cons t ts =>
      rw [Accepted, List.forall_mem_cons]
      constructor
      · rintro h (⟨hbinding, hnull, hunique, hid⟩ | ⟨haccepted, hmem, hsound⟩ |
          ⟨hbinding, hplain, hmem, himplied, hunique, hrest⟩ |
          ⟨hbinding, hplain, hmem, hnull, hunique, hrest⟩)
        · have hplain : t.PlainlyHasId :=
            ⟨hnull.imp fun _ h => h.1, .inr (.inr ⟨hnull, hunique⟩)⟩
          exact ((h.mp (.inr hplain)).1).elim hbinding hid
        · exact hsound ((h.mp haccepted).2 _ hmem)
        · exact (h.mpr ⟨.inr ⟨_, hmem, .inr ⟨.inr himplied, hunique⟩⟩, hrest⟩).elim hbinding hplain
        · exact (h.mpr ⟨.inr ⟨_, hmem, .inr ⟨hnull, .inr hunique⟩⟩, hrest⟩).elim hbinding hplain
      · intro h
        constructor
        · intro haccepted
          constructor
          · by_contra hsound
            obtain ⟨hbinding, hid⟩ := not_or.mp hsound
            obtain ⟨hnull, hunique⟩ :=
              declares_of_plainlyHasId (haccepted.resolve_left hbinding) hid
            exact h (.split hbinding hnull hunique hid)
          · intro t' hmem
            by_contra hsound
            exact h (.later haccepted hmem hsound)
        · rintro ⟨hsound, hrest⟩
          by_contra haccepted
          obtain ⟨hbinding, hplain⟩ := not_or.mp haccepted
          obtain ⟨constraints, hmem, ⟨himplied, hunique⟩ | ⟨hnull, hunique⟩⟩ :=
            exists_of_hasId hplain (hsound.resolve_left hbinding)
          · exact h (.implied hbinding hplain hmem himplied hunique hrest)
          · exact h (.ofTable hbinding hplain hmem hnull hunique hrest)

/-- A `CREATE TABLE` as a statement of a parse tree. -/
def statement (relname : String) (elts : List Json) : Json :=
  .obj [("stmt", node "CreateStmt"
    [("oncommit", .str "ONCOMMIT_NOOP"),
      ("relation", .obj
        [("inh", .bool true), ("relname", .str relname), ("relpersistence", .str "p")]),
      ("tableElts", .arr elts)])]

def column (colname : String) (constraints : List String) : Json :=
  node "ColumnDef"
    [("colname", .str colname),
      ("constraints", .arr (constraints.map fun c => node "Constraint" [("contype", .str c)])),
      ("is_local", .bool true)]

/-- `CREATE TABLE documents (id INT PRIMARY KEY); CREATE TABLE notes (body TEXT NOT NULL)`,
without the types of the columns. -/
def secondWithoutId : Script where
  json := .obj [("stmts", .arr
    [statement "documents" [column "id" ["CONSTR_PRIMARY"]],
      statement "notes" [column "body" ["CONSTR_NOTNULL"]]])]
  distinct := by
    simp [Distinct, everywhere_arr_iff, everywhere_obj_iff, node, statement, column]
  tables :=
    [⟨"documents", [.columnDef "id" [.primary]]⟩, ⟨"notes", [.columnDef "body" [.notNull]]⟩]
  created := by
    simp [valuesUnder, valuesUnderElems, valuesUnderMembers, node, statement, column, IsCreateStmt,
      IsElt, ListField, IsConstraint, List.lookup_cons, ConstrType.name]

/-- `CREATE TABLE documents (id BIGINT NOT NULL, UNIQUE (id))` -/
def uniqueOfTable : Script where
  json := .obj [("stmts", .arr
    [statement "documents" [column "id" ["CONSTR_NOTNULL"],
      node "Constraint"
        [("contype", .str "CONSTR_UNIQUE"), ("keys", .arr [stringNode "id"])]]])]
  distinct := by
    simp [Distinct, everywhere_arr_iff, everywhere_obj_iff, node, statement, column, stringNode]
  tables := [⟨"documents", [.columnDef "id" [.notNull], .constraint .unique ["id"]]⟩]
  created := by
    simp [valuesUnder, valuesUnderElems, valuesUnderMembers, node, statement, column, IsCreateStmt,
      IsElt, ListField, IsConstraint, List.lookup_cons, ConstrType.name, stringNode]

def quietExternals : Externals where
  translate text := .ok (text, .noError)
  pgQueryParse _ := .ok (.error ⟨utf8 "syntax error", [], [], 0, 0⟩)
  deparse _ := .error .aborted
  length_deparse := by
    intro _ _ h
    exact absurd h (by simp)
  what _ := []
  file := []

def checkingSession : Session where
  parameters _ := none
  st := .empty
  context := .new true
  current := some .applyPreRequestPlugins

/-- A script is accepted whose second table has no `id`, and a table refused whose `id` is NOT NULL
and UNIQUE. -/
theorem not_agrees_secondWithoutId :
    ¬ Agrees quietExternals secondWithoutId checkingSession ∧
      ¬ Agrees quietExternals uniqueOfTable checkingSession := by
  constructor
  · intro h
    obtain hbinding | ⟨constraints, hmem, -⟩ := h.mp
      ((result_ensureNewTableHasId secondWithoutId checkingSession).mpr (.inr
        ⟨⟨[.primary], List.mem_singleton_self _⟩,
          .inl ⟨[.primary], List.mem_singleton_self _, by decide⟩⟩))
      ⟨"notes", [.columnDef "body" [.notNull]]⟩ (by simp [secondWithoutId])
    · exact absurd hbinding (by unfold CreateStmt.IsBindingTable; decide +kernel)
    · simp at hmem
  · intro h
    have haccepted := h.mpr (by
      simp [uniqueOfTable, Sound, CreateStmt.HasId, CreateStmt.IsNotNull, CreateStmt.IsUnique])
    obtain hbinding | ⟨-, hplain⟩ :=
      (result_ensureNewTableHasId uniqueOfTable checkingSession).mp haccepted
    · exact absurd hbinding (by unfold CreateStmt.IsBindingTable; decide +kernel)
    · simp [CreateStmt.Declares] at hplain

end Agreement

end PgFort.NewTables
