import PgFort.SelectQueries

namespace PgFort.RepeatedRows

open PgFort.Sql
open PgFort.SelectQueries

/-- EXCEPT ALL and INTERSECT ALL count. -/
def counts (op : SetOperation) (all : Bool) : Bool :=
  all && op != .union

mutual

def RangeItem.countsNothing : RangeItem → Bool
  | .rangeVar _ _ => true
  | .joinExpr _ larg rarg _ => RangeItem.countsNothing larg && RangeItem.countsNothing rarg
  | .rangeSubselect subquery _ => SelectStmt.countsNothing subquery

def RangeItem.countsNothingAll : List RangeItem → Bool
  | [] => true
  | i :: is => RangeItem.countsNothing i && RangeItem.countsNothingAll is

/-- No operation of the statement depends on how often a row is there. -/
def SelectStmt.countsNothing : SelectStmt → Bool
  | .select _ fromClause _ => RangeItem.countsNothingAll fromClause
  | .setOperation op all larg rarg =>
      !counts op all && (SelectStmt.countsNothing larg && SelectStmt.countsNothing rarg)

end

def SameRows (rows rows' : List (List Value)) : Prop :=
  ∀ row, row ∈ rows ↔ row ∈ rows'

def SameTable (t t' : Table) : Prop :=
  t.columns = t'.columns ∧ SameRows t.rows t'.rows

def SameRelation (r r' : Relation) : Prop :=
  r.columns = r'.columns ∧ SameRows r.rows r'.rows

def SameAnswer (a a' : Answer) : Prop :=
  a.names = a'.names ∧ SameRows a.rows a'.rows

section Rows

variable {rows rows' others others' : List (List Value)}

theorem SameRows.filter (h : SameRows rows rows') (p : List Value → Bool) :
    SameRows (rows.filter p) (rows'.filter p) := by
  intro row
  rw [List.mem_filter, List.mem_filter, h row]

theorem SameRows.map (h : SameRows rows rows') (f : List Value → List Value) :
    SameRows (rows.map f) (rows'.map f) := by
  intro row
  rw [List.mem_map, List.mem_map]
  exact exists_congr fun row' => and_congr_left fun _ => h row'

theorem SameRows.flatMap {f f' : List Value → List (List Value)} (h : SameRows rows rows')
    (hf : ∀ row, SameRows (f row) (f' row)) : SameRows (rows.flatMap f) (rows'.flatMap f') := by
  intro pair
  rw [List.mem_flatMap, List.mem_flatMap]
  exact exists_congr fun row => and_congr (h row) (hf row pair)

theorem SameRows.eq_nil_iff (h : SameRows rows rows') : rows = [] ↔ rows' = [] := by
  rw [List.eq_nil_iff_forall_not_mem, List.eq_nil_iff_forall_not_mem]
  exact forall_congr' fun row => not_congr (h row)

theorem SameRows.combineRows {op : SetOperation} {all : Bool} (hcounts : counts op all = false)
    (h : SameRows rows rows') (hothers : SameRows others others') :
    SameRows (combineRows op all rows others) (combineRows op all rows' others') := by
  intro row
  cases op <;> cases all
  · show row ∈ (rows ++ others).dedup ↔ row ∈ (rows' ++ others').dedup
    rw [List.mem_dedup, List.mem_dedup, List.mem_append, List.mem_append, h row, hothers row]
  · show row ∈ rows ++ others ↔ row ∈ rows' ++ others'
    rw [List.mem_append, List.mem_append, h row, hothers row]
  · show row ∈ rows.dedup.filter _ ↔ row ∈ rows'.dedup.filter _
    simp only [List.mem_filter, List.mem_dedup, decide_eq_true_eq, h row, hothers row]
  · exact absurd hcounts (by decide)
  · show row ∈ rows.dedup.filter _ ↔ row ∈ rows'.dedup.filter _
    simp only [List.mem_filter, List.mem_dedup, decide_eq_true_eq, h row, hothers row]
  · exact absurd hcounts (by decide)

end Rows

section Relations

variable {l l' r r' : Relation}

theorem SameRelation.partners (h : SameRelation r r') (jointype : JoinType)
    (holds : List Value → Bool) (row : List Value) :
    SameRows (partners jointype holds r row) (partners jointype holds r' row) := by
  have hpairs : SameRows ((r.rows.map (row ++ ·)).filter holds)
      ((r'.rows.map (row ++ ·)).filter holds) := (h.2.map _).filter _
  intro pair
  rw [SelectQueries.partners, SelectQueries.partners]
  simp only [hpairs.eq_nil_iff, h.1]
  split
  · exact Iff.rfl
  · exact hpairs pair

theorem SameRelation.joined (hl : SameRelation l l') (hr : SameRelation r r')
    (jointype : JoinType) (holds : List Value → Bool) :
    SameRelation (joined jointype holds l r) (joined jointype holds l' r') := by
  refine ⟨?_, hl.2.flatMap fun row => hr.partners jointype holds row⟩
  show l.columns ++ r.columns = l'.columns ++ r'.columns
  rw [hl.1, hr.1]

theorem SameRelation.selectRows (h : SameRelation r r') (user : String)
    (targetList : List ResTarget) (refs : List String) (whereClause : Option Qual) :
    Option.Rel SameAnswer (selectRows user targetList refs whereClause r)
      (selectRows user targetList refs whereClause r') := by
  rw [SelectQueries.selectRows, SelectQueries.selectRows, h.1]
  split
  · refine .some ⟨rfl, ?_⟩
    show SameRows ((r.rows.filter _).map fun row => targetList.map fun t =>
      t.val.eval user r.columns row) ((r'.rows.filter _).map fun row => targetList.map fun t =>
        t.val.eval user r'.columns row)
    rw [h.1]
    exact (h.2.filter _).map _
  · exact .none

theorem SameAnswer.named {a a' : Answer} (h : SameAnswer a a') (relation : String) :
    SameRelation (a.named relation) (a'.named relation) := by
  refine ⟨?_, h.2⟩
  show a.names.map _ = a'.names.map _
  rw [h.1]

theorem SameTable.named {t t' : Table} (h : SameTable t t') (relation : String) :
    SameRelation (t.named relation) (t'.named relation) := by
  refine ⟨?_, h.2⟩
  show t.columns.map _ = t'.columns.map _
  rw [h.1]

theorem SameAnswer.combine {a a' b b' : Answer} {op : SetOperation} {all : Bool}
    (hcounts : counts op all = false) (ha : SameAnswer a a') (hb : SameAnswer b b') :
    Option.Rel SameAnswer (combine op all a b) (combine op all a' b') := by
  rw [SelectQueries.combine, SelectQueries.combine]
  by_cases hlen : a.names.length = b.names.length
  · rw [dif_pos hlen, dif_pos (by rw [← ha.1, ← hb.1, hlen])]
    exact .some ⟨ha.1, ha.2.combineRows hcounts hb.2⟩
  · rw [dif_neg hlen, dif_neg (by rw [← ha.1, ← hb.1]; exact hlen)]
    exact .none

end Relations

section Results

variable {α β α' β' : Type} {R : α → α' → Prop} {S : β → β' → Prop}

theorem rel_map {f : α → β} {f' : α' → β'} (hf : ∀ a a', R a a' → S (f a) (f' a')) {o : Option α}
    {o' : Option α'} (h : Option.Rel R o o') : Option.Rel S (o.map f) (o'.map f') := by
  cases h with
  | none => exact .none
  | some h => exact .some (hf _ _ h)

theorem rel_bind {f : α → Option β} {f' : α' → Option β'} {o : Option α} {o' : Option α'}
    (h : Option.Rel R o o') (hf : ∀ a a', R a a' → Option.Rel S (f a) (f' a')) :
    Option.Rel S (o.bind f) (o'.bind f') := by
  cases h with
  | none => exact .none
  | some h => exact hf _ _ h

end Results

section Statements

variable {catalogue catalogue' : String → Option Table} {user : String}

mutual

theorem rel_item_eval : ∀ i : RangeItem, RangeItem.countsNothing i = true →
    (∀ x ∈ i.rangeVars, Option.Rel SameTable (catalogue x.1) (catalogue' x.1)) →
      Option.Rel SameRelation (i.eval catalogue user) (i.eval catalogue' user)
  | .rangeVar relname aliasname, _, hc => by
      rw [RangeItem.eval, RangeItem.eval]
      exact rel_map (fun _ _ h => h.named _) (hc (relname, aliasname) (List.mem_singleton.mpr rfl))
  | .joinExpr jointype larg rarg quals, h, hc => by
      rw [RangeItem.countsNothing, Bool.and_eq_true] at h
      have hl := rel_item_eval larg h.1 fun x hx => hc x (List.mem_append_left _ hx)
      have hr := rel_item_eval rarg h.2 fun x hx => hc x (List.mem_append_right _ hx)
      rw [RangeItem.eval, RangeItem.eval]
      refine rel_bind hl fun l l' hl => rel_bind hr fun r r' hr => ?_
      rw [hl.1, hr.1]
      split
      · exact .some (hl.joined hr jointype _)
      · exact .none
  | .rangeSubselect subquery aliasname, h, hc => by
      rw [RangeItem.eval, RangeItem.eval]
      exact rel_map (fun _ _ h => h.named _) (rel_select_eval subquery h hc)

theorem rel_items_eval : ∀ is : List RangeItem, RangeItem.countsNothingAll is = true →
    (∀ x ∈ RangeItem.rangeVarsAll is, Option.Rel SameTable (catalogue x.1) (catalogue' x.1)) →
      Option.Rel SameRelation (RangeItem.evalAll catalogue user is)
        (RangeItem.evalAll catalogue' user is)
  | [], _, _ => .some ⟨rfl, fun _ => Iff.rfl⟩
  | i :: is, h, hc => by
      rw [RangeItem.countsNothingAll, Bool.and_eq_true] at h
      have hi := rel_item_eval i h.1 fun x hx => hc x (List.mem_append_left _ hx)
      have his := rel_items_eval is h.2 fun x hx => hc x (List.mem_append_right _ hx)
      rw [RangeItem.evalAll, RangeItem.evalAll]
      exact rel_bind hi fun _ _ hl => rel_bind his fun _ _ hr => .some (hl.joined hr .inner _)

/-- Tables with the same rows, in whatever numbers, give results with the same rows. -/
theorem rel_select_eval : ∀ q : SelectStmt, SelectStmt.countsNothing q = true →
    (∀ x ∈ q.rangeVars, Option.Rel SameTable (catalogue x.1) (catalogue' x.1)) →
      Option.Rel SameAnswer (q.eval catalogue user) (q.eval catalogue' user)
  | .select targetList fromClause whereClause, h, hc => by
      rw [SelectStmt.eval, SelectStmt.eval]
      exact rel_bind (rel_items_eval fromClause h hc) fun _ _ hr =>
        hr.selectRows user targetList _ whereClause
  | .setOperation op all larg rarg, h, hc => by
      rw [SelectStmt.countsNothing, Bool.and_eq_true, Bool.and_eq_true, Bool.not_eq_true'] at h
      have hl := rel_select_eval larg h.2.1 fun x hx => hc x (List.mem_append_left _ hx)
      have hr := rel_select_eval rarg h.2.2 fun x hx => hc x (List.mem_append_right _ hx)
      rw [SelectStmt.eval, SelectStmt.eval]
      exact rel_bind hl fun _ _ ha => rel_bind hr fun _ _ hb => ha.combine h.1 hb

end

end Statements

end PgFort.RepeatedRows
