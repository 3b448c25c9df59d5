import PgFort.AccessHistories
import PgFort.Lives
import PgFort.SqlForwarding

namespace PgFort.ServedQueries

open PgFort.Framing
open PgFort.JsonTree
open PgFort.JsonTree.Json
open PgFort.KeyedTraversal
open PgFort.Replacement (dropNumbers dropNumbersElems dropNumbersMembers isNumberUnder
  isNumberUnder_eq_true)
open PgFort.JsonAccess
open PgFort.JoinTemplate
open PgFort.ParseTree
open PgFort.Schema
open PgFort.QueryAcler
open PgFort.Conn
open PgFort.Stateful.Action
open PgFort.Plugins
open PgFort.StateMachine
open PgFort.SqlForwarding (carried byteAt_setQuery textAt_setQuery data_setQuery carried_setQuery
  toText_spec carried_append)
open PgFort.Lives (run_append takeAction_of_step exists_step_of_takeAction run_of_others)
open PgFort.SelectQueries
open PgFort.RewrittenSelects
open PgFort.RepeatedRows
open PgFort.SelectTrees
open PgFort.ReadableQueries
open PgFort.AccessHistories (Contents tablesOf readCatalogue)

section Keys

variable {drop key : String} {keys : List String}

theorem mem_dropNumbersElems {x : Json} {xs : List Json} (h : x ∈ xs) :
    dropNumbers drop x ∈ dropNumbersElems drop xs := by
  induction xs with
  | nil => exact absurd h List.not_mem_nil
  | cons y ys ih =>
      rw [dropNumbersElems]
      rcases List.mem_cons.mp h with rfl | h
      · exact List.mem_cons_self
      · exact List.mem_cons_of_mem _ (ih h)

theorem mem_dropNumbersMembers {a : String × Json} {ms : List (String × Json)} (h : a ∈ ms) :
    isNumberUnder drop a = true ∨ (a.1, dropNumbers drop a.2) ∈ dropNumbersMembers drop ms := by
  induction ms with
  | nil => exact absurd h List.not_mem_nil
  | cons b ms ih =>
      obtain ⟨k, v⟩ := b
      rw [dropNumbersMembers]
      rcases List.mem_cons.mp h with rfl | h
      · by_cases hnumber : isNumberUnder drop (k, v) = true
        · exact .inl hnumber
        · rw [if_neg hnumber]
          exact .inr List.mem_cons_self
      · refine (ih h).imp_right fun hmem => ?_
        split
        · exact hmem
        · exact List.mem_cons_of_mem _ hmem

theorem keysIn_of_dropNumbers {j : Json} (h : KeysIn keys (dropNumbers drop j)) :
    KeysIn (drop :: keys) j := by
  induction j with
  | arr xs ih =>
      rw [dropNumbers] at h
      exact keysIn_arr fun x hx => ih x hx (everywhere_arr_iff.mp h _ (mem_dropNumbersElems hx))
  | obj ms ih =>
      rw [dropNumbers] at h
      obtain ⟨hkeys, hvals⟩ := everywhere_obj_iff.mp h
      refine keysIn_obj (fun a ha => ?_) fun a ha => ?_
      · rcases mem_dropNumbersMembers ha with hnumber | hmem
        · rw [(isNumberUnder_eq_true.mp hnumber).1]
          exact List.mem_cons_self
        · exact List.mem_cons_of_mem _ (hkeys (a.1, dropNumbers drop a.2) hmem)
      · rcases mem_dropNumbersMembers ha with hnumber | hmem
        · obtain ⟨-, n, hn⟩ := isNumberUnder_eq_true.mp hnumber
          rw [hn]
          exact keysIn_num n
        · exact ih a ha (hvals _ hmem)
  | null => exact everywhere_of_isPrimitive rfl
  | bool b => exact keysIn_bool b
  | num s => exact keysIn_num s
  | str s => exact keysIn_str s

theorem findNode_of_keysIn {j : Json} (h : KeysIn keys j) (hkey : key ∉ keys) :
    findNode key j = none := by
  induction j with
  | arr xs ih =>
      have hxs := everywhere_arr_iff.mp h
      rw [findNode]
      generalize 0 = i
      induction xs generalizing i with
      | nil => rfl
      | cons x xs ihxs =>
          rw [findElem, ih x List.mem_cons_self (hxs x List.mem_cons_self)]
          exact ihxs (fun y hy => ih y (List.mem_cons_of_mem _ hy))
            (keysIn_arr fun y hy => hxs y (List.mem_cons_of_mem _ hy))
            (fun y hy => hxs y (List.mem_cons_of_mem _ hy)) (i + 1)
  | obj ms ih =>
      obtain ⟨hkeys, hvals⟩ := everywhere_obj_iff.mp h
      rw [findNode]
      clear h
      generalize 0 = i
      induction ms generalizing i with
      | nil => rfl
      | cons a ms ihms =>
          obtain ⟨k, v⟩ := a
          have hk : k ≠ key := fun heq => hkey (heq ▸ hkeys _ List.mem_cons_self)
          rw [findMember, if_neg hk, ih _ List.mem_cons_self (hvals _ List.mem_cons_self)]
          exact ihms (fun b hb => ih b (List.mem_cons_of_mem _ hb))
            (fun b hb => hkeys b (List.mem_cons_of_mem _ hb))
            (fun b hb => hvals b (List.mem_cons_of_mem _ hb)) (i + 1)
  | _ => rfl

def treeKeys : List String :=
  exprKeys ++
    ["JoinExpr", "RangeSubselect", "RangeVar", "ResTarget", "SelectStmt", "alias", "aliasname",
      "all", "fromClause", "inh", "jointype", "larg", "limitOption", "quals", "rarg", "relname",
      "relpersistence", "stmt", "stmt_len", "stmt_location", "stmts", "subquery", "targetList",
      "version", "whereClause"]

theorem exprKeys_subset : exprKeys ⊆ treeKeys :=
  List.subset_append_left exprKeys _

def FieldsIn (fields : List (String × Json)) : Prop :=
  ∀ a ∈ fields, a.1 ∈ treeKeys ∧ KeysIn treeKeys a.2

theorem fieldsIn_append {fields fields' : List (String × Json)} (h : FieldsIn fields)
    (h' : FieldsIn fields') : FieldsIn (fields ++ fields') :=
  List.forall_mem_append.mpr ⟨h, h'⟩

theorem FieldsIn.obj {fields : List (String × Json)} (h : FieldsIn fields) :
    KeysIn treeKeys (.obj fields) :=
  keysIn_obj (fun a ha => (h a ha).1) fun a ha => (h a ha).2

theorem FieldsIn.node {fields : List (String × Json)} (h : FieldsIn fields) {kind : String}
    (hkind : kind ∈ treeKeys) : KeysIn treeKeys (node kind fields) :=
  keysIn_node hkind (fun a ha => (h a ha).1) fun a ha => (h a ha).2

theorem fieldsIn_singleton {v : Json} (hkey : key ∈ treeKeys) (h : KeysIn treeKeys v) :
    FieldsIn [(key, v)] :=
  List.forall_mem_singleton.mpr ⟨hkey, h⟩

theorem fieldsIn_listMember {elems : List Json} (hkey : key ∈ treeKeys)
    (h : ∀ x ∈ elems, KeysIn treeKeys x) : FieldsIn (listMember key elems) := by
  rw [listMember]
  split
  · exact fun a ha => absurd ha List.not_mem_nil
  · exact fieldsIn_singleton hkey (keysIn_arr h)

theorem fieldsIn_option {α : Type} {o : Option α} {f : α → Json} (hkey : key ∈ treeKeys)
    (h : ∀ x, KeysIn treeKeys (f x)) : FieldsIn (o.toList.map fun x => (key, f x)) := by
  intro a ha
  obtain ⟨x, -, rfl⟩ := List.mem_map.mp ha
  exact ⟨hkey, h x⟩

theorem keysIn_targetNode (t : ResTarget) : KeysIn treeKeys (targetNode t) := by
  have hval := (keysIn_exprNode t.val).mono exprKeys_subset
  exact (fieldsIn_append (fieldsIn_option (by decide +kernel) keysIn_str)
    (fieldsIn_singleton (by decide +kernel) hval)).node (by decide +kernel)

theorem keysIn_alias (aliasname : String) :
    KeysIn treeKeys (.obj [("aliasname", .str aliasname)]) :=
  (fieldsIn_singleton (by decide +kernel) (keysIn_str aliasname)).obj

theorem keysIn_rangeVarNode (relname : String) (aliasname : Option String) :
    KeysIn treeKeys (rangeVarNode relname aliasname) := by
  refine (fieldsIn_append (fieldsIn_option (by decide +kernel) keysIn_alias) ?_).node
    (by decide +kernel)
  simp only [FieldsIn, List.forall_mem_cons, keysIn_str, keysIn_bool, and_true]
  exact ⟨by decide +kernel, by decide +kernel, by decide +kernel, List.forall_mem_nil _⟩

theorem fieldsIn_joinExpr {larg rarg : Json} (jointype : JoinType) (quals : Qual)
    (hl : KeysIn treeKeys larg) (hr : KeysIn treeKeys rarg) :
    FieldsIn [("jointype", .str (jointypeText jointype)), ("larg", larg),
      ("quals", qualNode quals), ("rarg", rarg)] := by
  have hquals := (keysIn_qualNode quals).mono exprKeys_subset
  simp only [FieldsIn, List.forall_mem_cons, keysIn_str, hl, hr, hquals, and_true]
  exact ⟨by decide +kernel, by decide +kernel, by decide +kernel, by decide +kernel,
    List.forall_mem_nil _⟩

theorem fieldsIn_rangeSubselect {subquery : Json} (aliasname : String)
    (h : KeysIn treeKeys subquery) :
    FieldsIn [("alias", .obj [("aliasname", .str aliasname)]), ("subquery", subquery)] := by
  simp only [FieldsIn, List.forall_mem_cons, keysIn_alias, h, and_true]
  exact ⟨by decide +kernel, by decide +kernel, List.forall_mem_nil _⟩

theorem fieldsIn_select {froms targets : List Json} (whereClause : Option Qual)
    (hfroms : ∀ x ∈ froms, KeysIn treeKeys x) (htargets : ∀ x ∈ targets, KeysIn treeKeys x) :
    FieldsIn (listMember "fromClause" froms ++
      ([("limitOption", .str "LIMIT_OPTION_DEFAULT"), ("op", .str "SETOP_NONE")] ++
        (listMember "targetList" targets ++
          (whereClause.toList.map fun q => ("whereClause", qualNode q))))) := by
  refine fieldsIn_append (fieldsIn_listMember (by decide +kernel) hfroms) (fieldsIn_append ?_
    (fieldsIn_append (fieldsIn_listMember (by decide +kernel) htargets)
      (fieldsIn_option (by decide +kernel) fun q => (keysIn_qualNode q).mono exprKeys_subset)))
  simp only [FieldsIn, List.forall_mem_cons, keysIn_str, and_true]
  exact ⟨by decide +kernel, by decide +kernel, List.forall_mem_nil _⟩

theorem fieldsIn_setOperation {larg rarg : Json} (op : SetOperation) (all : Bool)
    (hl : KeysIn treeKeys larg) (hr : KeysIn treeKeys rarg) :
    FieldsIn ((if all then [("all", .bool true)] else []) ++
      [("larg", larg), ("limitOption", .str "LIMIT_OPTION_DEFAULT"),
        ("op", .str (setOperationText op)), ("rarg", rarg)]) := by
  refine fieldsIn_append ?_ ?_
  · split
    · exact fieldsIn_singleton (by decide +kernel) (keysIn_bool true)
    · exact List.forall_mem_nil _
  · simp only [FieldsIn, List.forall_mem_cons, keysIn_str, hl, hr, and_true]
    exact ⟨by decide +kernel, by decide +kernel, by decide +kernel, by decide +kernel,
      List.forall_mem_nil _⟩

mutual

theorem keysIn_itemNode : ∀ i : RangeItem, KeysIn treeKeys (itemNode i)
  | .rangeVar relname aliasname => keysIn_rangeVarNode relname aliasname
  | .joinExpr jointype larg rarg quals =>
      (fieldsIn_joinExpr jointype quals (keysIn_itemNode larg) (keysIn_itemNode rarg)).node
        (by decide +kernel)
  | .rangeSubselect subquery aliasname =>
      (fieldsIn_rangeSubselect aliasname
        ((fieldsIn_selectFields subquery).node (by decide +kernel))).node (by decide +kernel)

theorem keysIn_itemNodes : ∀ is : List RangeItem, ∀ x ∈ itemNodes is, KeysIn treeKeys x
  | [], _, hx => absurd hx List.not_mem_nil
  | i :: is, x, hx => by
      rcases List.mem_cons.mp hx with rfl | hx
      · exact keysIn_itemNode i
      · exact keysIn_itemNodes is x hx

theorem fieldsIn_selectFields : ∀ q : SelectStmt, FieldsIn (selectFields q)
  | .select targetList fromClause whereClause => by
      rw [selectFields]
      refine fieldsIn_select whereClause (keysIn_itemNodes fromClause) fun x hx => ?_
      obtain ⟨t, -, rfl⟩ := List.mem_map.mp hx
      exact keysIn_targetNode t
  | .setOperation op all larg rarg => by
      rw [selectFields]
      exact fieldsIn_setOperation op all (fieldsIn_selectFields larg).obj
        (fieldsIn_selectFields rarg).obj

end

theorem keysIn_parseTree (version : String) (stmts : List RawStmt) :
    KeysIn treeKeys (parseTree version stmts) := by
  have hstmts : KeysIn treeKeys (.arr (stmts.map rawStmtNode)) := by
    refine keysIn_arr fun x hx => ?_
    obtain ⟨r, -, rfl⟩ := List.mem_map.mp hx
    refine (fieldsIn_append ?_ (fieldsIn_append (fieldsIn_option (by decide +kernel) keysIn_num)
      (fieldsIn_option (by decide +kernel) keysIn_num))).obj
    exact fieldsIn_singleton (by decide +kernel)
      ((fieldsIn_selectFields r.stmt).node (by decide +kernel))
  refine FieldsIn.obj ?_
  simp only [FieldsIn, List.forall_mem_cons, keysIn_num, hstmts, and_true]
  exact ⟨by decide +kernel, by decide +kernel, List.forall_mem_nil _⟩

/-- The plug-ins behind the rewriting find nothing to look at in the trees of SELECT statements. -/
theorem findNode_of_parseTree {j : Json} {version : String} {stmts : List RawStmt}
    (hj : dropNumbers "location" j = parseTree version stmts)
    (hkey : key ∉ "location" :: treeKeys) : findNode key j = none :=
  findNode_of_keysIn (keysIn_of_dropNumbers (hj ▸ keysIn_parseTree version stmts)) hkey

end Keys

/-- The plug-in finds nothing wrong and makes the one session of the other. -/
def Passes (p : Action Conn.Error) (s s' : Session) : Prop :=
  wp p (fun err t => err = .noError ∧ t = s') (fun _ _ => False) s

section PlugIns

variable {lib : Externals} {io : Io} {s s' : Session}

theorem applyAll_of_passes {p : Action Conn.Error} {ps : List (Action Conn.Error)}
    {Q : Option Conn.Error → Session → Prop} {E : Fault → Session → Prop} (hp : Passes p s s')
    (h : wp (applyAll ps) Q E s') : wp (applyAll (p :: ps)) Q E s := by
  rw [Frames.wp_applyAll_cons]
  refine wp_mono hp ?_ fun _ _ h => h.elim
  rintro err t ⟨rfl, rfl⟩
  exact ⟨fun herr => absurd herr (by decide), fun _ => h⟩

theorem passes_translate {translated : Bytes} {err : Conn.Error}
    (hbyte : s.context.request.byteAt 0 = 81)
    (htranslate : lib.translate (s.context.request.textAt 5) = .ok (translated, err))
    (herr : err.isError = false) :
    Passes (translateProxyCommandPlugIn lib) s
      { s with context.request := setQuery translated } := by
  simp [Passes, translateProxyCommandPlugIn, wp_bind, wp_state, wp_pure, wp_ite, wp_ofExcept,
    wp_setRequest, hbyte, htranslate, herr]

theorem passes_parse {text : Bytes} {json : Json} (hrequest : s.context.request = setQuery text)
    (hparse : lib.pgQueryParse (cString text) = .ok (.ok json)) :
    Passes (parseQueryPlugIn lib) s { s with context.query := ⟨true, json⟩ } := by
  have hquery : Query.parse lib (cString text) = .ok (⟨true, json⟩, .noError) := by
    rw [Query.parse, hparse]
    rfl
  simp [Passes, parseQueryPlugIn, wp_bind, wp_state, wp_pure, wp_ofExcept, wp_modify, hrequest,
    hquery, byteAt_setQuery, textAt_setQuery]

theorem passes_acl {json : Json} {text : Bytes} (hrole : s.parameter "rolsuper" ≠ utf8 "t")
    (hvalid : s.context.query.valid = true)
    (hacl : QueryAcler.acl (some s.st) s.context.query.json = .ok json)
    (htext : Query.toText lib json = .ok text) :
    Passes (aclQueryPlugIn lib) s
      { s with context.query.json := json, context.request := setQuery text } := by
  have hrewritten : Plugins.acl lib s.st s.context.query.json = .ok json := by
    rw [Plugins.acl, hacl]
  simp [Passes, aclQueryPlugIn, wp_bind, wp_state, wp_pure, wp_ite, wp_ofExcept, wp_modify,
    wp_requestQuery, hrole, hvalid, hrewritten, htext]

theorem passes_dropTable (hnone : findNode "DropStmt" s.context.query.json = none) :
    Passes (dropTablePlugIn lib io) s s := by
  simp [Passes, dropTablePlugIn, wp_bind, wp_state, wp_pure, wp_ite, hnone]

theorem passes_ensureNewTableHasId (hnone : findNode "CreateStmt" s.context.query.json = none) :
    Passes (ensureNewTableHasIdPlugIn lib) s s := by
  simp [Passes, ensureNewTableHasIdPlugIn, wp_bind, wp_state, wp_pure, wp_ite, hnone]

/-- A query of a role without superuser rights, which the parser accepts and in whose rewritten
tree the plug-ins behind find nothing, leaves the plug-ins as the text of that tree. -/
theorem applyAll_of_parsed {translated text : Bytes} {err : Conn.Error} {json json' : Json}
    (hbyte : s.context.request.byteAt 0 = 81) (hrole : s.parameter "rolsuper" ≠ utf8 "t")
    (htranslate : lib.translate (s.context.request.textAt 5) = .ok (translated, err))
    (herr : err.isError = false)
    (hparse : lib.pgQueryParse (cString translated) = .ok (.ok json))
    (hacl : QueryAcler.acl (some s.st) json = .ok json')
    (htext : Query.toText lib json' = .ok text) (hdrop : findNode "DropStmt" json' = none)
    (hcreate : findNode "CreateStmt" json' = none) :
    wp (applyAll (preRequestPlugins lib io))
      (fun err t => err = none ∧ t.context.request = setQuery text) (fun _ _ => False) s := by
  rw [preRequestPlugins]
  refine applyAll_of_passes (passes_translate hbyte htranslate herr) ?_
  refine applyAll_of_passes (passes_parse rfl hparse) ?_
  refine applyAll_of_passes (passes_acl hrole rfl hacl htext) ?_
  refine applyAll_of_passes (passes_dropTable hdrop) ?_
  refine applyAll_of_passes (passes_ensureNewTableHasId hcreate) ?_
  exact applyAll_of_passes ⟨rfl, rfl⟩ ⟨rfl, rfl⟩

theorem takeAction_of_parsed {translated text : Bytes} {err : Conn.Error} {json json' : Json}
    (hcurrent : s.current = some .applyPreRequestPlugins)
    (hbyte : s.context.request.byteAt 0 = 81) (hrole : s.parameter "rolsuper" ≠ utf8 "t")
    (htranslate : lib.translate (s.context.request.textAt 5) = .ok (translated, err))
    (herr : err.isError = false)
    (hparse : lib.pgQueryParse (cString translated) = .ok (.ok json))
    (hacl : QueryAcler.acl (some s.st) json = .ok json')
    (htext : Query.toText lib json' = .ok text) (hdrop : findNode "DropStmt" json' = none)
    (hcreate : findNode "CreateStmt" json' = none) :
    ∃ s', takeAction lib io s = .ok s' ∧ s'.current = some .prepareToForwardRequest ∧
      s'.context.request = setQuery text := by
  have haction : wp (action lib io .applyPreRequestPlugins)
      (fun next t => next = some .prepareToForwardRequest ∧ t.context.request = setQuery text)
      (fun _ _ => False) s := by
    rw [action, applyPreRequestPlugins, wp_catching, wp_bind]
    refine wp_mono (applyAll_of_parsed hbyte hrole htranslate herr hparse hacl htext hdrop hcreate)
      ?_ fun _ _ h => h.elim
    rintro err t ⟨rfl, ht⟩
    exact ⟨rfl, ht⟩
  rw [wp] at haction
  cases hresult : action lib io .applyPreRequestPlugins s with
  | mk r t =>
      rw [hresult] at haction
      cases r with
      | ok next =>
          obtain ⟨rfl, ht⟩ := haction
          refine ⟨{ t with current := some .prepareToForwardRequest }, ?_, rfl, ht⟩
          rw [takeAction, hcurrent]
          simp only [hresult]
      | error f => exact haction.elim

end PlugIns

section Turns

variable {lib : Externals} {p q : Proxy} {i : Nat} {io : Io} {s : Session}

theorem awaits_of_ready {text : Bytes}
    (hcurrent : (p.sessions i).current = some .prepareToForwardRequest)
    (hrequest : (p.sessions i).context.request = setQuery text)
    (hstep : StateMachine.step lib p (i, io) = .ok q) :
    (q.sessions i).current = some .forwardRequest ∧
      (q.sessions i).context.request = setQuery text ∧ q.toServer i = p.toServer i := by
  obtain ⟨htake, hserver⟩ := takeAction_of_step hstep
  have hcurrent' : (p.session i).current = some .prepareToForwardRequest := hcurrent
  rw [takeAction, hcurrent'] at htake
  rw [← Except.ok.inj htake, hserver, handed, hcurrent', if_neg (by simp), List.append_nil]
  exact ⟨rfl, hrequest, rfl⟩

/-- And hands the request over when it takes its next turn, whatever the others do meanwhile. -/
theorem toServer_of_ready {io' : Io} {others others' : List (Nat × Io)} {text : Bytes}
    (hcurrent : (p.sessions i).current = some .prepareToForwardRequest)
    (hrequest : (p.sessions i).context.request = setQuery text)
    (hothers : ∀ t ∈ others, t.1 ≠ i) (hothers' : ∀ t ∈ others', t.1 ≠ i)
    (hrun : run lib p (others ++ (i, io) :: (others' ++ [(i, io')])) = .ok q) :
    q.toServer i = p.toServer i ++ (setQuery text).data := by
  rw [run_append] at hrun
  obtain ⟨p₁, hp₁, hrun⟩ := bind_eq_ok.mp hrun
  obtain ⟨hsession₁, hserver₁⟩ := run_of_others hothers hp₁
  obtain ⟨p₂, hstep₂, hrun⟩ := bind_eq_ok.mp hrun
  obtain ⟨hcurrent₂, hrequest₂, hserver₂⟩ :=
    awaits_of_ready (by rw [hsession₁, hcurrent]) (by rw [hsession₁, hrequest]) hstep₂
  change run lib p₂ (others' ++ [(i, io')]) = .ok q at hrun
  rw [run_concat] at hrun
  obtain ⟨p₃, hp₃, hstep₃⟩ := bind_eq_ok.mp hrun
  obtain ⟨hsession₃, hserver₃⟩ := run_of_others hothers' hp₃
  have hhanded : handed (p₃.session i) = (setQuery text).data := by
    have hcurrent₃ : (p₃.session i).current = some .forwardRequest :=
      (congrArg Session.current hsession₃).trans hcurrent₂
    rw [handed, if_pos hcurrent₃]
    exact congrArg Buffer.data
      ((congrArg (fun s => s.context.request) hsession₃).trans hrequest₂)
  rw [(takeAction_of_step hstep₃).2, hhanded, hserver₃, hserver₂, hserver₁]

/-- A session of a role without superuser rights has received a query that the parser takes for
this tree. -/
structure Asks (lib : Externals) (s : Session) (json : Json) : Prop where
  current : s.current = some .applyPreRequestPlugins
  message : s.context.request.byteAt 0 = 81
  role : s.parameter "rolsuper" ≠ utf8 "t"
  parsed : ∃ translated err, lib.translate (s.context.request.textAt 5) = .ok (translated, err) ∧
    err.isError = false ∧ lib.pgQueryParse (cString translated) = .ok (.ok json)

/-- Whatever the other sessions do meanwhile, the session hands its server one query, the text of
a tree that asks in every database, for every user, what the client asks of the rows that the user
may read by then. -/
def Serves (lib : Externals) (p : Proxy) (i : Nat) (version : String) (stmts : List RawStmt) :
    Prop :=
  ∃ json, dropNumbers "location" json = parseTree version (stmts.map (RawStmt.acl (some p.st))) ∧
    (∀ raw, lib.deparse json = .ok raw →
      (∀ io, ∃ q, StateMachine.step lib p (i, io) = .ok q) ∧
      ∀ io io' io'' others others' q, (∀ t ∈ others, t.1 ≠ i) → (∀ t ∈ others', t.1 ≠ i) →
        run lib p ((i, io) :: (others ++ (i, io') :: (others' ++ [(i, io'')]))) = .ok q →
          q.toServer i = p.toServer i ++ Message.encode ⟨81, cString raw ++ [0]⟩) ∧
    ∀ (cs : List AccessHistories.Command) (contents : Contents (AccessHistories.run cs).bindings)
      (user : String), ∀ r ∈ stmts, SelectStmt.countsNothing r.stmt = true →
        (∀ x ∈ r.stmt.rangeVars, isTable (some p.st) x.1 = true →
          x.1 ∈ (AccessHistories.run cs).bindings.controlled) →
        Option.Rel SameAnswer
          ((r.acl (some p.st)).stmt.eval (tablesOf (AccessHistories.run cs) contents).catalogue
            user)
          (r.stmt.eval (readCatalogue (some p.st) (AccessHistories.run cs) contents user) user)

end Turns

def documentNamesText : Bytes :=
  utf8 "SELECT documents.name FROM documents"

def documentNamesAclText : Bytes :=
  utf8 ("SELECT documents.name FROM documents JOIN documents__acls__ ON " ++
    "documents.id = documents__acls__._id AND documents__acls__._principal = current_user " ++
    "AND documents__acls__._operation = 'SELECT'")

/-- The text of the rewritten tree; of other trees nothing is asked. -/
def deparseDocumentNames (json : Json) : Except Fault Bytes :=
  if dropNumbers "location" json =
      parseTree "130003" [documentNames.acl (some ⟨["documents"]⟩)] then
    .ok documentNamesAclText
  else .ok []

theorem length_deparseDocumentNames (json : Json) (text : Bytes)
    (h : deparseDocumentNames json = .ok text) : text.length < 1073741824 := by
  rw [deparseDocumentNames] at h
  split at h
  · rw [← Except.ok.inj h]
    decide +kernel
  · rw [← Except.ok.inj h]
    decide +kernel

/-- The libraries, as they treat that text and the tree that is made of it. -/
def documentExternals : Externals where
  translate text := .ok (text, .noError)
  pgQueryParse text :=
    if text = documentNamesText then .ok (.ok documentNamesTree)
    else .ok (.error ⟨utf8 "syntax error", [], [], 0, 0⟩)
  deparse := deparseDocumentNames
  length_deparse := length_deparseDocumentNames
  what _ := []
  file := []

/-- The session 0 has received the query, and the others wait for one. -/
def askedProxy : Proxy where
  sessions i :=
    { parameters := fun name => if name = utf8 "rolsuper" then some (utf8 "f") else none
      st := .empty
      context := { Context.new true with request := setQuery documentNamesText }
      current := if i = 0 then some .applyPreRequestPlugins else some .prepareToReceiveRequest }
  st := ⟨["documents"]⟩
  toServer _ := []

theorem asks_askedProxy : Asks documentExternals (askedProxy.session 0) documentNamesTree where
  current := rfl
  message := rfl
  role := by decide +kernel
  parsed := by
    refine ⟨documentNamesText, .noError, ?_, rfl, ?_⟩
    · show Except.ok ((setQuery documentNamesText).textAt 5, Conn.Error.noError) = _
      have htext : cString documentNamesText = documentNamesText := by decide +kernel
      rw [textAt_setQuery, htext]
    · have htext : cString documentNamesText = documentNamesText := by decide +kernel
      rw [htext]
      have hparse : documentExternals.pgQueryParse documentNamesText =
          if documentNamesText = documentNamesText then .ok (.ok documentNamesTree)
          else .ok (.error ⟨utf8 "syntax error", [], [], 0, 0⟩) := rfl
      rw [hparse, if_pos rfl]

end PgFort.ServedQueries
