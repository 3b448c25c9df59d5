import PgFort.HiddenColumns
import PgFort.QueryAcler

namespace PgFort.RewrittenSelects

open PgFort.Sql
open PgFort.SelectQueries
open PgFort.HiddenColumns
open PgFort.Schema
open PgFort.QueryAcler (isTable)

/-- The condition of the injected join. -/
def accessQual (ref : String) : Qual :=
  .and [.equals (.column ⟨ref, "id"⟩) (.column ⟨ref ++ "__acls__", "_id"⟩),
    .equals (.column ⟨ref ++ "__acls__", "_principal"⟩) .currentUser,
    .equals (.column ⟨ref ++ "__acls__", "_operation"⟩) (.const (.text "SELECT"))]

mutual

/-- What `AclSelectStmtFromClause` makes of a FROM item. -/
def aclRangeItem (st : Option SchemaTracker) : RangeItem → RangeItem
  | .rangeVar relname aliasname =>
      if isTable st relname then
        .joinExpr .inner (.rangeVar relname aliasname)
          (.rangeVar (relname ++ "__acls__") (aliasname.map (· ++ "__acls__")))
          (accessQual (aliasname.getD relname))
      else .rangeVar relname aliasname
  | .joinExpr jointype larg rarg quals =>
      .joinExpr jointype (aclRangeItem st larg) (aclRangeItem st rarg) quals
  | .rangeSubselect subquery aliasname => .rangeSubselect (aclSelect st subquery) aliasname

def aclRangeItems (st : Option SchemaTracker) : List RangeItem → List RangeItem
  | [] => []
  | i :: is => aclRangeItem st i :: aclRangeItems st is

/-- What `AclSelectStmt` makes of a SELECT. -/
def aclSelect (st : Option SchemaTracker) : SelectStmt → SelectStmt
  | .select targetList fromClause whereClause =>
      .select targetList (aclRangeItems st fromClause) whereClause
  | .setOperation op all larg rarg => .setOperation op all (aclSelect st larg) (aclSelect st rarg)

end

def exprNames : Expr → List String
  | .column c => [c.relation]
  | _ => []

mutual

/-- The names of relations in an item: those that it goes by and those that its expressions
refer to. -/
def RangeItem.names : RangeItem → List String
  | .rangeVar relname aliasname => [aliasname.getD relname]
  | .joinExpr _ larg rarg quals =>
      RangeItem.names larg ++ (RangeItem.names rarg ++ quals.exprs.flatMap exprNames)
  | .rangeSubselect subquery aliasname => aliasname :: SelectStmt.names subquery

def RangeItem.namesAll : List RangeItem → List String
  | [] => []
  | i :: is => RangeItem.names i ++ RangeItem.namesAll is

def SelectStmt.names : SelectStmt → List String
  | .select targetList fromClause whereClause =>
      targetList.flatMap (fun t => exprNames t.val) ++
        (whereClause.toList.flatMap (fun q => q.exprs.flatMap exprNames) ++
          RangeItem.namesAll fromClause)
  | .setOperation _ _ larg rarg => SelectStmt.names larg ++ SelectStmt.names rarg

end

/-- No name of a relation is one that the rewriting makes. -/
def Apart (names : List String) : Prop :=
  ∀ name ∈ names, endsWith name "__acls__" = false

instance (names : List String) : Decidable (Apart names) :=
  inferInstanceAs (Decidable (∀ name ∈ names, endsWith name "__acls__" = false))

/-- The row of the access view is one of the user for the row of the table. -/
def grants (user : String) (t acls : Table) (row acl : List Value) : Bool :=
  (t.value row "id").equals (acls.value acl "_id") == some true &&
    ((acls.value acl "_principal").equals (.text user) == some true &&
      (acls.value acl "_operation").equals (.text "SELECT") == some true)

/-- The rows that the access view allows the user to read, each as often as it does. -/
def readableTable (user : String) (t acls : Table) : Table where
  columns := t.columns
  rows := t.rows.flatMap fun row => (acls.rows.filter (grants user t acls row)).map fun _ => row
  nodup := t.nodup
  width := by
    intro row hrow
    obtain ⟨row', hrow', hrow⟩ := List.mem_flatMap.mp hrow
    obtain ⟨-, -, rfl⟩ := List.mem_map.mp hrow
    exact t.width row' hrow'

/-- What the user may read of the tables. A table that the proxy controls has an access view, or
no query comes to it. -/
def readable (st : Option SchemaTracker) (catalogue : String → Option Table) (user : String)
    (relname : String) : Option Table :=
  if isTable st relname then do
    let t ← catalogue relname
    let acls ← catalogue (relname ++ "__acls__")
    if "id" ∈ t.columns ∧ "_id" ∈ acls.columns ∧ "_principal" ∈ acls.columns ∧
        "_operation" ∈ acls.columns then
      some (readableTable user t acls)
    else none
  else catalogue relname

/-- The columns that are not of access views. -/
def isShown (c : Column) : Bool :=
  !endsWith c.relation "__acls__"

theorem endsWith_append (s suffix : String) : endsWith (s ++ suffix) suffix = true := by
  rw [endsWith, List.isSuffixOf_iff_suffix, String.toList_append]
  exact List.suffix_append _ _

theorem reads_of_apart {e : Expr} (h : Apart (exprNames e)) : Reads isShown e := by
  rintro c rfl
  rw [isShown, h c.relation (List.mem_singleton.mpr rfl)]
  rfl

theorem Apart.mono {names names' : List String} (h : Apart names') (hsub : names ⊆ names') :
    Apart names :=
  fun name hname => h name (hsub hname)

theorem apart_append {names names' : List String} :
    Apart (names ++ names') ↔ Apart names ∧ Apart names' :=
  List.forall_mem_append

theorem reads_of_mem {es : List Expr} (h : Apart (es.flatMap exprNames)) {e : Expr} (he : e ∈ es) :
    Reads isShown e :=
  reads_of_apart (h.mono fun _ hname => List.mem_flatMap.mpr ⟨e, he, hname⟩)

section Leaf

variable {user ref : String} {t acls : Table}

theorem resolves_named {r : Relation} (href : ∀ c ∈ r.columns, c.relation ≠ ref) (name : String) :
    (Expr.column ⟨ref, name⟩).resolves ((t.named ref).columns ++ r.columns) =
      decide (name ∈ t.columns) := by
  have hright : r.columns.count ⟨ref, name⟩ = 0 :=
    List.count_eq_zero_of_not_mem fun hmem => href _ hmem rfl
  rw [Expr.resolves, List.count_append, hright, Nat.add_zero]
  by_cases hname : name ∈ t.columns
  · rw [count_columns_named hname, decide_eq_true hname]
    rfl
  · rw [List.count_eq_zero_of_not_mem fun hmem => hname (mem_columns_named.mp hmem).2,
      decide_eq_false hname]
    rfl

theorem resolves_named_right {l : Relation} (href : ∀ c ∈ l.columns, c.relation ≠ ref)
    (name : String) :
    (Expr.column ⟨ref, name⟩).resolves (l.columns ++ (t.named ref).columns) =
      decide (name ∈ t.columns) := by
  rw [← resolves_named href name, Expr.resolves, Expr.resolves, List.count_append,
    List.count_append, Nat.add_comm]

theorem relation_of_mem_named {c : Column} (h : c ∈ (t.named ref).columns) : c.relation = ref :=
  (mem_columns_named.mp h).1

theorem resolves_accessQual (href : endsWith ref "__acls__" = false) :
    (accessQual ref).resolves
        ((t.named ref).columns ++ (acls.named (ref ++ "__acls__")).columns) = true ↔
      "id" ∈ t.columns ∧ "_id" ∈ acls.columns ∧ "_principal" ∈ acls.columns ∧
        "_operation" ∈ acls.columns := by
  have hne : ref ≠ ref ++ "__acls__" := by
    intro heq
    rw [heq, endsWith_append] at href
    exact absurd href (by decide)
  have hleft := resolves_named (t := t) (r := acls.named (ref ++ "__acls__"))
    fun c hc heq => hne (heq.symm.trans (relation_of_mem_named hc))
  have hright := resolves_named_right (t := acls) (l := t.named ref)
    fun c hc heq => hne ((relation_of_mem_named hc).symm.trans heq)
  simp only [Qual.resolves, accessQual, Qual.exprs, Qual.exprsAll, List.append_nil,
    List.all_append, List.all_cons, List.all_nil, hleft, hright, Bool.and_eq_true,
    decide_eq_true_eq, and_true]
  constructor
  · rintro ⟨⟨hid, hacl⟩, ⟨hprincipal, -⟩, hoperation, -⟩
    exact ⟨hid, hacl, hprincipal, hoperation⟩
  · rintro ⟨hid, hacl, hprincipal, hoperation⟩
    exact ⟨⟨hid, hacl⟩, ⟨hprincipal, rfl⟩, hoperation, rfl⟩

theorem holds_accessQual (href : endsWith ref "__acls__" = false) {row acl : List Value}
    (hrow : row ∈ t.rows) :
    (accessQual ref).holds user
        ((t.named ref).columns ++ (acls.named (ref ++ "__acls__")).columns) (row ++ acl) =
      grants user t acls row acl := by
  have hne : ref ≠ ref ++ "__acls__" := by
    intro heq
    rw [heq, endsWith_append] at href
    exact absurd href (by decide)
  have hlen : row.length = (t.named ref).columns.length := (t.named ref).width row hrow
  have hleft : (Expr.column ⟨ref, "id"⟩).eval user
      ((t.named ref).columns ++ (acls.named (ref ++ "__acls__")).columns) (row ++ acl) =
        t.value row "id" := by
    rw [eval_column_left hlen fun hc => hne (relation_of_mem_named hc)]
    exact eval_column_named user t ref row "id"
  have hright : ∀ name, (Expr.column ⟨ref ++ "__acls__", name⟩).eval user
      ((t.named ref).columns ++ (acls.named (ref ++ "__acls__")).columns) (row ++ acl) =
        acls.value acl name := by
    intro name
    rw [eval_column_right hlen fun hc => hne (relation_of_mem_named hc).symm]
    exact eval_column_named user acls _ acl name
  have huser : ∀ columns values, Expr.currentUser.eval user columns values = .text user :=
    fun _ _ => rfl
  have hconst : ∀ (v : Value) columns values, (Expr.const v).eval user columns values = v :=
    fun _ _ _ => rfl
  rw [Bool.eq_iff_iff]
  simp only [Qual.holds, accessQual, Qual.eval, Qual.evalAnd, hleft, hright, huser, hconst,
    beq_iff_eq, andTruth_eq_true, and_true, grants, Bool.and_eq_true]

/-- Without the columns of the access view, the injected join is the table of what the user may
read. -/
theorem hide_injected (href : endsWith ref "__acls__" = false) :
    hide isShown (joined .inner ((accessQual ref).holds user
        ((t.named ref).columns ++ (acls.named (ref ++ "__acls__")).columns))
      (t.named ref) (acls.named (ref ++ "__acls__"))) =
      (readableTable user t acls).named ref := by
  have hleft : ∀ c ∈ (t.named ref).columns, isShown c = true := by
    intro c hc
    rw [isShown, relation_of_mem_named hc, href]
    rfl
  have hright : ∀ c ∈ (acls.named (ref ++ "__acls__")).columns, isShown c = false := by
    intro c hc
    rw [isShown, relation_of_mem_named hc, endsWith_append]
    rfl
  have hcolumns : (acls.named (ref ++ "__acls__")).columns.filter isShown = [] :=
    List.filter_eq_nil_iff.mpr fun c hc => by rw [hright c hc]; decide
  refine relation_ext ?_ ?_
  · show ((t.named ref).columns ++ _).filter isShown = (t.named ref).columns
    rw [List.filter_append, List.filter_eq_self.mpr hleft, hcolumns, List.append_nil]
  · show (t.rows.flatMap (partners .inner _ (acls.named (ref ++ "__acls__")))).map _ =
      t.rows.flatMap _
    rw [List.map_flatMap]
    refine List.flatMap_congr fun row hrow => ?_
    have hlen := (t.named ref).width row hrow
    rw [partners, if_neg (by simp), List.filter_map, List.map_map]
    show (acls.rows.filter _).map _ = _
    have hgrants : acls.rows.filter ((accessQual ref).holds user
        ((t.named ref).columns ++ (acls.named (ref ++ "__acls__")).columns) ∘ (row ++ ·)) =
        acls.rows.filter (grants user t acls row) :=
      List.filter_congr fun acl _ => holds_accessQual href hrow
    rw [hgrants]
    refine List.map_congr_left fun acl _ => ?_
    show shownValues isShown ((t.named ref).columns ++ (acls.named (ref ++ "__acls__")).columns)
      (row ++ acl) = row
    rw [shownValues_append hlen, shownValues_eq_self hleft hlen, shownValues_eq_nil hright,
      List.append_nil]

end Leaf

section Names

variable {st : Option SchemaTracker}

mutual

theorem refs_subset_names : ∀ i : RangeItem, i.refs ⊆ RangeItem.names i
  | .rangeVar relname aliasname => List.Subset.refl _
  | .joinExpr _ larg rarg quals => by
      rw [RangeItem.refs, RangeItem.names]
      exact List.append_subset.mpr
        ⟨fun name h => List.mem_append_left _ (refs_subset_names larg h),
          fun name h => List.mem_append_right _
            (List.mem_append_left _ (refs_subset_names rarg h))⟩
  | .rangeSubselect subquery aliasname => by
      rw [RangeItem.refs, RangeItem.names]
      exact List.cons_subset_cons _ (List.nil_subset _)

theorem refsAll_subset_namesAll : ∀ is : List RangeItem,
    RangeItem.refsAll is ⊆ RangeItem.namesAll is
  | [] => List.Subset.refl _
  | i :: is => by
      rw [RangeItem.refsAll, RangeItem.namesAll]
      exact List.append_subset.mpr
        ⟨fun name h => List.mem_append_left _ (refs_subset_names i h),
          fun name h => List.mem_append_right _ (refsAll_subset_namesAll is h)⟩

end

/-- The names are those of before, and names made of some of them. -/
def Extends (refs refs' : List String) : Prop :=
  ∃ made : List String, made.Sublist refs ∧ refs'.Perm (refs ++ made.map (· ++ "__acls__"))

theorem Extends.refl (refs : List String) : Extends refs refs :=
  ⟨[], List.nil_sublist _, by rw [List.map_nil, List.append_nil]⟩

theorem Extends.append {refs refs' others others' : List String} (h : Extends refs refs')
    (h' : Extends others others') : Extends (refs ++ others) (refs' ++ others') := by
  obtain ⟨made, hmade, hperm⟩ := h
  obtain ⟨made', hmade', hperm'⟩ := h'
  refine ⟨made ++ made', hmade.append hmade', ?_⟩
  rw [List.map_append]
  refine (hperm.append hperm').trans ?_
  rw [List.append_assoc, List.append_assoc]
  refine List.Perm.append_left refs ?_
  rw [← List.append_assoc, ← List.append_assoc]
  exact List.perm_append_comm.append_right _

theorem Extends.nodup_iff {refs refs' : List String} (h : Extends refs refs')
    (hapart : Apart refs) : refs'.Nodup ↔ refs.Nodup := by
  obtain ⟨made, hmade, hperm⟩ := h
  rw [hperm.nodup_iff]
  constructor
  · intro hnodup
    exact hnodup.sublist (List.sublist_append_left _ _)
  · intro hnodup
    have hinjective : Function.Injective fun s : String => s ++ "__acls__" := by
      intro s s' heq
      have hlist := congrArg String.toList heq
      simp only [String.toList_append] at hlist
      exact String.toList_injective (List.append_cancel_right hlist)
    refine List.nodup_append.mpr ⟨hnodup, (hnodup.sublist hmade).map hinjective, ?_⟩
    intro name hname name' hname' heq
    obtain ⟨s, -, rfl⟩ := List.mem_map.mp hname'
    rw [heq] at hname
    exact absurd (hapart _ hname) (by rw [endsWith_append]; decide)

mutual

theorem extends_aclRangeItem : ∀ i : RangeItem, Extends i.refs (aclRangeItem st i).refs
  | .rangeVar relname aliasname => by
      rw [aclRangeItem]
      split
      · refine ⟨[aliasname.getD relname], List.Sublist.refl _, ?_⟩
        cases aliasname <;> exact List.Perm.refl _
      · exact .refl _
  | .joinExpr _ larg rarg _ => by
      rw [aclRangeItem, RangeItem.refs, RangeItem.refs]
      exact (extends_aclRangeItem larg).append (extends_aclRangeItem rarg)
  | .rangeSubselect _ aliasname => by
      rw [aclRangeItem]
      exact .refl _

theorem extends_aclRangeItems : ∀ is : List RangeItem,
    Extends (RangeItem.refsAll is) (RangeItem.refsAll (aclRangeItems st is))
  | [] => .refl _
  | i :: is => by
      rw [aclRangeItems, RangeItem.refsAll, RangeItem.refsAll]
      exact (extends_aclRangeItem i).append (extends_aclRangeItems is)

end

end Names

section Meaning

variable {st : Option SchemaTracker} {catalogue : String → Option Table} {user : String}

theorem hide_rangeVar {relname : String} {aliasname : Option String}
    (h : endsWith (aliasname.getD relname) "__acls__" = false) :
    ((aclRangeItem st (.rangeVar relname aliasname)).eval catalogue user).map (hide isShown) =
      (RangeItem.rangeVar relname aliasname).eval (readable st catalogue user) user := by
  rw [aclRangeItem, RangeItem.eval, readable]
  by_cases htable : isTable st relname = true
  · rw [if_pos htable, if_pos htable, RangeItem.eval, RangeItem.eval, RangeItem.eval]
    have href : (aliasname.map (· ++ "__acls__")).getD (relname ++ "__acls__") =
        aliasname.getD relname ++ "__acls__" := by
      cases aliasname <;> rfl
    rw [href]
    cases ht : catalogue relname with
    | none => rfl
    | some t =>
        cases hacls : catalogue (relname ++ "__acls__") with
        | none => rfl
        | some acls =>
            simp only [Option.map_some, Option.bind_eq_bind, Option.bind_some]
            by_cases hcolumns : "id" ∈ t.columns ∧ "_id" ∈ acls.columns ∧
                "_principal" ∈ acls.columns ∧ "_operation" ∈ acls.columns
            · rw [if_pos ((resolves_accessQual h).mpr hcolumns), if_pos hcolumns, Option.map_some,
                Option.map_some, hide_injected h]
            · rw [if_neg fun hres => hcolumns ((resolves_accessQual h).mp hres), if_neg hcolumns]
              rfl
  · rw [if_neg htable, if_neg htable, RangeItem.eval]
    cases catalogue relname with
    | none => rfl
    | some t =>
        refine congrArg some (hide_eq_self fun c hc => ?_)
        rw [isShown, relation_of_mem_named hc, h]
        rfl

mutual

theorem hide_aclRangeItem : ∀ i : RangeItem, Apart (RangeItem.names i) →
    ((aclRangeItem st i).eval catalogue user).map (hide isShown) =
      i.eval (readable st catalogue user) user
  | .rangeVar relname aliasname, h => by
      exact hide_rangeVar (h _ (List.mem_singleton.mpr rfl))
  | .joinExpr jointype larg rarg quals, h => by
      rw [RangeItem.names, apart_append, apart_append] at h
      have hl := hide_aclRangeItem larg h.1
      have hr := hide_aclRangeItem rarg h.2.1
      have hquals : ∀ e ∈ quals.exprs, Reads isShown e := fun e he => reads_of_mem h.2.2 he
      rw [aclRangeItem, RangeItem.eval, RangeItem.eval, ← hl, ← hr]
      cases (aclRangeItem st larg).eval catalogue user with
      | none => rfl
      | some l =>
          cases (aclRangeItem st rarg).eval catalogue user with
          | none => rfl
          | some r =>
              simp only [Option.map_some, Option.bind_eq_bind, Option.bind_some]
              have hcolumns : (hide isShown l).columns ++ (hide isShown r).columns =
                  (l.columns ++ r.columns).filter isShown := (List.filter_append _ _).symm
              rw [hcolumns, qual_resolves_filter hquals]
              split
              · rw [Option.map_some, hide_joined]
                intro a ha b _
                rw [← shownValues_append (l.width a ha), holds_shownValues hquals]
              · rfl
  | .rangeSubselect subquery aliasname, h => by
      rw [RangeItem.names] at h
      have hsub := aclSelect_eval subquery fun name hname => h name (List.mem_cons_of_mem _ hname)
      rw [aclRangeItem, RangeItem.eval, RangeItem.eval, hsub]
      cases subquery.eval (readable st catalogue user) user with
      | none => rfl
      | some a =>
          refine congrArg some (hide_eq_self fun c hc => ?_)
          obtain ⟨name, -, rfl⟩ := List.mem_map.mp hc
          rw [isShown, h aliasname List.mem_cons_self]
          rfl

theorem hide_aclRangeItems : ∀ is : List RangeItem, Apart (RangeItem.namesAll is) →
    (RangeItem.evalAll catalogue user (aclRangeItems st is)).map (hide isShown) =
      RangeItem.evalAll (readable st catalogue user) user is
  | [], _ => rfl
  | i :: is, h => by
      rw [RangeItem.namesAll, apart_append] at h
      rw [aclRangeItems, RangeItem.evalAll, RangeItem.evalAll, ← hide_aclRangeItem i h.1,
        ← hide_aclRangeItems is h.2]
      cases (aclRangeItem st i).eval catalogue user with
      | none => rfl
      | some l =>
          cases RangeItem.evalAll catalogue user (aclRangeItems st is) with
          | none => rfl
          | some r => exact congrArg some (hide_joined .inner fun _ _ _ _ => rfl)

/-- A rewritten SELECT is the SELECT on what the user may read. -/
theorem aclSelect_eval : ∀ q : SelectStmt, Apart (SelectStmt.names q) →
    (aclSelect st q).eval catalogue user = q.eval (readable st catalogue user) user
  | .select targetList fromClause whereClause, h => by
      rw [SelectStmt.names, apart_append, apart_append] at h
      obtain ⟨htargets, hwhere, hfrom⟩ := h
      rw [aclSelect, SelectStmt.eval, SelectStmt.eval, ← hide_aclRangeItems fromClause hfrom]
      cases RangeItem.evalAll catalogue user (aclRangeItems st fromClause) with
      | none => rfl
      | some r =>
          refine (selectRows_hide ?_ (fun t ht => ?_) fun q hq e he => ?_).symm
          · exact ((extends_aclRangeItems fromClause).nodup_iff
              (hfrom.mono (refsAll_subset_namesAll fromClause))).symm
          · exact reads_of_apart (htargets.mono fun _ hname => List.mem_flatMap.mpr ⟨t, ht, hname⟩)
          · refine reads_of_mem (hwhere.mono fun _ hname => ?_) he
            exact List.mem_flatMap.mpr ⟨q, Option.mem_toList.mpr hq, hname⟩
  | .setOperation op all larg rarg, h => by
      rw [SelectStmt.names, apart_append] at h
      rw [aclSelect, SelectStmt.eval, SelectStmt.eval, aclSelect_eval larg h.1,
        aclSelect_eval rarg h.2]

end

end Meaning

end PgFort.RewrittenSelects
