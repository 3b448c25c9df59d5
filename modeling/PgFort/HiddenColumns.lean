import PgFort.SelectQueries

namespace PgFort.HiddenColumns

open PgFort.Sql
open PgFort.SelectQueries

variable (shown : Column → Bool)

/-- The values of a row under the columns that are shown. -/
def shownValues (columns : List Column) (row : List Value) : List Value :=
  ((columns.zip row).filter fun p => shown p.1).map Prod.snd

theorem length_shownValues {columns : List Column} {row : List Value}
    (hlen : row.length = columns.length) :
    (shownValues shown columns row).length = (columns.filter shown).length := by
  rw [shownValues, List.length_map]
  conv_rhs => rw [← List.map_fst_zip (Nat.le_of_eq hlen.symm), List.filter_map, List.length_map]
  rfl

/-- A relation without the columns that are not shown. -/
def hide (r : Relation) : Relation where
  columns := r.columns.filter shown
  rows := r.rows.map (shownValues shown r.columns)
  width := by
    intro row hrow
    obtain ⟨full, hfull, rfl⟩ := List.mem_map.mp hrow
    exact length_shownValues shown (r.width full hfull)

variable {shown}

theorem relation_ext {r r' : Relation} (hcolumns : r.columns = r'.columns)
    (hrows : r.rows = r'.rows) : r = r' := by
  cases r
  cases r'
  simp only at hcolumns hrows
  subst hcolumns hrows
  rfl

theorem answer_ext {a a' : Answer} (hnames : a.names = a'.names) (hrows : a.rows = a'.rows) :
    a = a' := by
  cases a
  cases a'
  simp only at hnames hrows
  subst hnames hrows
  rfl

theorem shownValues_append {ls rs : List Column} {a b : List Value} (hlen : a.length = ls.length) :
    shownValues shown (ls ++ rs) (a ++ b) = shownValues shown ls a ++ shownValues shown rs b := by
  rw [shownValues, List.zip_append hlen.symm, List.filter_append, List.map_append]
  rfl

theorem shownValues_replicate (columns : List Column) (v : Value) :
    shownValues shown columns (List.replicate columns.length v) =
      List.replicate (columns.filter shown).length v := by
  induction columns with
  | nil => rfl
  | cons c cs ih =>
      rw [shownValues] at ih ⊢
      rw [List.length_cons, List.replicate_succ, List.zip_cons_cons]
      cases hc : shown c with
      | true => simp only [List.filter_cons, hc, if_true, List.map_cons, ih, List.length_cons,
          List.replicate_succ]
      | false => simp only [List.filter_cons, hc, Bool.false_eq_true, if_false, ih]

theorem shownValues_eq_self {columns : List Column} {row : List Value}
    (hshown : ∀ c ∈ columns, shown c = true) (hlen : row.length = columns.length) :
    shownValues shown columns row = row := by
  rw [shownValues, List.filter_eq_self.mpr, List.map_snd_zip (Nat.le_of_eq hlen)]
  intro p hp
  exact hshown p.1 (List.of_mem_zip hp).1

theorem shownValues_eq_nil {columns : List Column} {row : List Value}
    (hhidden : ∀ c ∈ columns, shown c = false) : shownValues shown columns row = [] := by
  rw [shownValues, List.map_eq_nil_iff, List.filter_eq_nil_iff]
  intro p hp
  rw [hhidden p.1 (List.of_mem_zip hp).1]
  decide

theorem hide_eq_self {r : Relation} (hshown : ∀ c ∈ r.columns, shown c = true) :
    hide shown r = r := by
  refine relation_ext (List.filter_eq_self.mpr hshown) ?_
  show r.rows.map (shownValues shown r.columns) = r.rows
  conv_rhs => rw [← List.map_id r.rows]
  refine List.map_congr_left fun row hrow => ?_
  exact shownValues_eq_self hshown (r.width row hrow)

section Expressions

variable {columns : List Column} {row : List Value} {user : String}

theorem zip_shownValues (columns : List Column) (row : List Value) :
    (columns.filter shown).zip (shownValues shown columns row) =
      (columns.zip row).filter fun p => shown p.1 := by
  induction columns generalizing row with
  | nil => rfl
  | cons c cs ih =>
      cases row with
      | nil => rw [shownValues, List.zip_nil_right]; exact List.zip_nil_right
      | cons v vs =>
          have hrest := ih vs
          rw [shownValues] at hrest ⊢
          rw [List.zip_cons_cons]
          cases hc : shown c with
          | true => simp only [List.filter_cons, hc, if_true, List.map_cons, List.zip_cons_cons, hrest]
          | false => simp only [List.filter_cons, hc, Bool.false_eq_true, if_false, hrest]

theorem valuesOf_shownValues {c : Column} (hc : shown c = true) :
    valuesOf (columns.filter shown) (shownValues shown columns row) c = valuesOf columns row c := by
  rw [valuesOf, zip_shownValues, List.filter_filter, valuesOf]
  congr 1
  refine List.filter_congr fun p _ => ?_
  by_cases hp : p.1 = c
  · rw [hp, hc, Bool.and_true]
  · simp [hp]

/-- The expression reads none of the columns that are left out. -/
def Reads (shown : Column → Bool) (e : Expr) : Prop :=
  ∀ c, e = .column c → shown c = true

theorem eval_shownValues {e : Expr} (he : Reads shown e) :
    e.eval user (columns.filter shown) (shownValues shown columns row) =
      e.eval user columns row := by
  cases e with
  | column c => rw [Expr.eval, valuesOf_shownValues (he c rfl), Expr.eval]
  | const v => rfl
  | currentUser => rfl

theorem resolves_filter {e : Expr} (he : Reads shown e) :
    e.resolves (columns.filter shown) = e.resolves columns := by
  cases e with
  | column c => rw [Expr.resolves, List.count_filter (he c rfl), Expr.resolves]
  | const v => rfl
  | currentUser => rfl

mutual

theorem eval_congr {cs cs' : List Column} {r r' : List Value} : ∀ (q : Qual),
    (∀ e ∈ q.exprs, e.eval user cs r = e.eval user cs' r') →
      q.eval user cs r = q.eval user cs' r'
  | .equals l r, h => by
      rw [Qual.eval, Qual.eval, h l (by simp [Qual.exprs]), h r (by simp [Qual.exprs])]
  | .isNull e, h => by rw [Qual.eval, Qual.eval, h e (by simp [Qual.exprs])]
  | .not q, h => by rw [Qual.eval, Qual.eval, eval_congr q h]
  | .and qs, h => by rw [Qual.eval, Qual.eval, evalAnd_congr qs h]
  | .or qs, h => by rw [Qual.eval, Qual.eval, evalOr_congr qs h]

theorem evalAnd_congr {cs cs' : List Column} {r r' : List Value} : ∀ (qs : List Qual),
    (∀ e ∈ Qual.exprsAll qs, e.eval user cs r = e.eval user cs' r') →
      Qual.evalAnd user cs r qs = Qual.evalAnd user cs' r' qs
  | [], _ => rfl
  | q :: qs, h => by
      rw [Qual.evalAnd, Qual.evalAnd, eval_congr q fun e he => h e (List.mem_append_left _ he),
        evalAnd_congr qs fun e he => h e (List.mem_append_right _ he)]

theorem evalOr_congr {cs cs' : List Column} {r r' : List Value} : ∀ (qs : List Qual),
    (∀ e ∈ Qual.exprsAll qs, e.eval user cs r = e.eval user cs' r') →
      Qual.evalOr user cs r qs = Qual.evalOr user cs' r' qs
  | [], _ => rfl
  | q :: qs, h => by
      rw [Qual.evalOr, Qual.evalOr, eval_congr q fun e he => h e (List.mem_append_left _ he),
        evalOr_congr qs fun e he => h e (List.mem_append_right _ he)]

end

theorem holds_shownValues {q : Qual} (hq : ∀ e ∈ q.exprs, Reads shown e) :
    q.holds user (columns.filter shown) (shownValues shown columns row) =
      q.holds user columns row := by
  rw [Qual.holds, Qual.holds, eval_congr q fun e he => eval_shownValues (hq e he)]

theorem qual_resolves_filter {q : Qual} (hq : ∀ e ∈ q.exprs, Reads shown e) :
    q.resolves (columns.filter shown) = q.resolves columns := by
  rw [Qual.resolves, Qual.resolves, Bool.eq_iff_iff, List.all_eq_true, List.all_eq_true]
  exact forall₂_congr fun e he => by rw [resolves_filter (hq e he)]

end Expressions

section Relations

variable {holds holds' : List Value → Bool} {l r : Relation}

theorem map_partners (jointype : JoinType) {row : List Value}
    (hrow : row.length = l.columns.length)
    (hholds : ∀ other ∈ r.rows, holds (row ++ other) =
      holds' (shownValues shown l.columns row ++ shownValues shown r.columns other)) :
    (partners jointype holds r row).map (shownValues shown (l.columns ++ r.columns)) =
      partners jointype holds' (hide shown r) (shownValues shown l.columns row) := by
  have hpairs : ((r.rows.map (row ++ ·)).filter holds).map
      (shownValues shown (l.columns ++ r.columns)) =
        ((hide shown r).rows.map (shownValues shown l.columns row ++ ·)).filter holds' := by
    show _ = ((r.rows.map (shownValues shown r.columns)).map _).filter holds'
    rw [List.map_map, List.filter_map, List.filter_map, List.map_map]
    have hsame : r.rows.filter (holds ∘ (row ++ ·)) = r.rows.filter
        (holds' ∘ ((shownValues shown l.columns row ++ ·) ∘ shownValues shown r.columns)) :=
      List.filter_congr hholds
    rw [hsame]
    exact List.map_congr_left fun other _ => shownValues_append hrow
  rw [partners, partners]
  simp only [← hpairs, List.map_eq_nil_iff]
  split
  · rw [List.map_singleton, shownValues_append hrow, shownValues_replicate]
    rfl
  · rfl

theorem hide_joined (jointype : JoinType)
    (hholds : ∀ a ∈ l.rows, ∀ b ∈ r.rows, holds (a ++ b) =
      holds' (shownValues shown l.columns a ++ shownValues shown r.columns b)) :
    hide shown (joined jointype holds l r) =
      joined jointype holds' (hide shown l) (hide shown r) := by
  refine relation_ext (List.filter_append _ _) ?_
  show (l.rows.flatMap (partners jointype holds r)).map _ =
    (l.rows.map (shownValues shown l.columns)).flatMap (partners jointype holds' (hide shown r))
  rw [List.map_flatMap, List.flatMap_map]
  refine List.flatMap_congr fun a ha => ?_
  exact map_partners jointype (l.width a ha) (hholds a ha)

theorem hide_keep (hholds : ∀ a ∈ r.rows, holds a = holds' (shownValues shown r.columns a)) :
    hide shown (keep holds r) = keep holds' (hide shown r) := by
  refine relation_ext rfl ?_
  show (r.rows.filter holds).map _ = (r.rows.map (shownValues shown r.columns)).filter holds'
  rw [List.filter_map, List.filter_congr hholds]
  rfl

theorem project_hide {user : String} {targetList : List ResTarget}
    (htargets : ∀ t ∈ targetList, Reads shown t.val) :
    project user targetList (hide shown r) = project user targetList r := by
  refine answer_ext rfl ?_
  show (r.rows.map (shownValues shown r.columns)).map _ = r.rows.map _
  rw [List.map_map]
  refine List.map_congr_left fun row _ => List.map_congr_left fun t ht => ?_
  exact eval_shownValues (htargets t ht)

/-- Of a SELECT that refers to none of them, the columns that are left out decide nothing. -/
theorem selectRows_hide {user : String} {targetList : List ResTarget} {refs refs' : List String}
    {whereClause : Option Qual} (hrefs : refs.Nodup ↔ refs'.Nodup)
    (htargets : ∀ t ∈ targetList, Reads shown t.val)
    (hwhere : ∀ q ∈ whereClause, ∀ e ∈ q.exprs, Reads shown e) :
    selectRows user targetList refs whereClause (hide shown r) =
      selectRows user targetList refs' whereClause r := by
  have hresolves : (∀ t ∈ targetList, t.val.resolves (hide shown r).columns = true) ↔
      ∀ t ∈ targetList, t.val.resolves r.columns = true :=
    forall₂_congr fun t ht => iff_of_eq (congrArg (· = true) (resolves_filter (htargets t ht)))
  have hquals : (∀ q ∈ whereClause, q.resolves (hide shown r).columns = true) ↔
      ∀ q ∈ whereClause, q.resolves r.columns = true :=
    forall₂_congr fun q hq => iff_of_eq (congrArg (· = true) (qual_resolves_filter (hwhere q hq)))
  have hrows : keep (fun row => whereClause.all (·.holds user (hide shown r).columns row))
      (hide shown r) =
        hide shown (keep (fun row => whereClause.all (·.holds user r.columns row)) r) := by
    refine (hide_keep fun row _ => ?_).symm
    cases whereClause with
    | none => rfl
    | some q => exact (holds_shownValues (hwhere q rfl)).symm
  rw [selectRows, selectRows, hrows, project_hide htargets]
  simp only [hrefs, hresolves, hquals]

end Relations

end PgFort.HiddenColumns
