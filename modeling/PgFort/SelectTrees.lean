import PgFort.AclFrame
import PgFort.RewrittenSelects

namespace PgFort.SelectTrees

open PgFort.JsonTree
open PgFort.JsonTree.Json
open PgFort.KeyedTraversal
open PgFort.Replacement
open PgFort.JsonText (parse Plain)
open PgFort.JoinTemplate
open PgFort.ParseTree
open PgFort.Schema
open PgFort.QueryAcler
open PgFort.Sql
open PgFort.SelectQueries
open PgFort.RewrittenSelects

def valueNode : Value → Json
  | .null => node "A_Const" [("val", node "Null" [])]
  | .int n => node "A_Const" [("val", node "Integer" [("ival", .num (toString n))])]
  | .text s => stringConstNode s
  | .texts ss => node "A_ArrayExpr" [("elements", .arr (ss.map stringConstNode))]
  | .other repr => node "A_Const" [("val", node "Float" [("str", .str repr)])]

def exprNode : Expr → Json
  | .column c => columnRefNode c.relation c.name
  | .const v => valueNode v
  | .currentUser => currentUserNode

mutual

def qualNode : Qual → Json
  | .equals l r => equalsNode (exprNode l) (exprNode r)
  | .isNull e => node "NullTest" [("arg", exprNode e), ("nulltesttype", .str "IS_NULL")]
  | .not q => node "BoolExpr" [("args", .arr [qualNode q]), ("boolop", .str "NOT_EXPR")]
  | .and qs => node "BoolExpr" [("args", .arr (qualNodes qs)), ("boolop", .str "AND_EXPR")]
  | .or qs => node "BoolExpr" [("args", .arr (qualNodes qs)), ("boolop", .str "OR_EXPR")]

def qualNodes : List Qual → List Json
  | [] => []
  | q :: qs => qualNode q :: qualNodes qs

end

def jointypeText : JoinType → String
  | .inner => "JOIN_INNER"
  | .left => "JOIN_LEFT"

def setOperationText : SetOperation → String
  | .union => "SETOP_UNION"
  | .intersect => "SETOP_INTERSECT"
  | .except => "SETOP_EXCEPT"

def targetNode (t : ResTarget) : Json :=
  node "ResTarget"
    ((t.name.toList.map fun name => ("name", .str name)) ++ [("val", exprNode t.val)])

/-- A member for a list. An empty one is not written. -/
def listMember (key : String) (elems : List Json) : List (String × Json) :=
  if elems = [] then [] else [(key, .arr elems)]

mutual

def itemNode : RangeItem → Json
  | .rangeVar relname aliasname => rangeVarNode relname aliasname
  | .joinExpr jointype larg rarg quals =>
      node "JoinExpr" [("jointype", .str (jointypeText jointype)), ("larg", itemNode larg),
        ("quals", qualNode quals), ("rarg", itemNode rarg)]
  | .rangeSubselect subquery aliasname =>
      node "RangeSubselect" [("alias", .obj [("aliasname", .str aliasname)]),
        ("subquery", node "SelectStmt" (selectFields subquery))]

def itemNodes : List RangeItem → List Json
  | [] => []
  | i :: is => itemNode i :: itemNodes is

def selectFields : SelectStmt → List (String × Json)
  | .select targetList fromClause whereClause =>
      listMember "fromClause" (itemNodes fromClause) ++
        ([("limitOption", .str "LIMIT_OPTION_DEFAULT"), ("op", .str "SETOP_NONE")] ++
          (listMember "targetList" (targetList.map targetNode) ++
            (whereClause.toList.map fun q => ("whereClause", qualNode q))))
  | .setOperation op all larg rarg =>
      (if all then [("all", .bool true)] else []) ++
        [("larg", .obj (selectFields larg)), ("limitOption", .str "LIMIT_OPTION_DEFAULT"),
          ("op", .str (setOperationText op)), ("rarg", .obj (selectFields rarg))]

end

/-- A statement of a query text, with the numbers that say where in the text it stands. -/
structure RawStmt where
  stmt : SelectStmt
  stmtLen : Option String
  stmtLocation : Option String

/-- A statement whose SELECT is rewritten. -/
def RawStmt.acl (st : Option SchemaTracker) (r : RawStmt) : RawStmt :=
  { r with stmt := aclSelect st r.stmt }

def rawStmtNode (r : RawStmt) : Json :=
  .obj ([("stmt", node "SelectStmt" (selectFields r.stmt))] ++
    ((r.stmtLen.toList.map fun s => ("stmt_len", .num s)) ++
      (r.stmtLocation.toList.map fun s => ("stmt_location", .num s))))

/-- The tree of a query text, source locations aside. -/
def parseTree (version : String) (stmts : List RawStmt) : Json :=
  .obj [("stmts", .arr (stmts.map rawStmtNode)), ("version", .num version)]

/-- A table reference without a schema. -/
def rangeVar (relname : String) (aliasname : Option String) : RangeVar where
  alias_ := aliasname.map fun a => ⟨a, []⟩
  catalogname := none
  inh := true
  location := none
  relname := relname
  relpersistence := "p"
  schemaname := none

theorem rangeVarNode_eq (relname : String) (aliasname : Option String) :
    rangeVarNode relname aliasname = .obj [("RangeVar", (rangeVar relname aliasname).toJson)] := by
  cases aliasname <;> rfl

theorem aliasname_rangeVar (relname : String) (aliasname : Option String) :
    (rangeVar relname aliasname).aliasname = aliasname := by
  cases aliasname <;> rfl

theorem joinExprNode_aclDictionary (relname : String) (aliasname : Option String) :
    joinExprNode (aclDictionary relname aliasname) =
      itemNode (.joinExpr .inner (.rangeVar relname aliasname)
        (.rangeVar (relname ++ "__acls__") (aliasname.map (· ++ "__acls__")))
        (accessQual (aliasname.getD relname))) := by
  rw [itemNode, itemNode, itemNode]
  rfl

section Walk

variable {ε : Type} {g : Json → Except ε (Option Json)} {m : Mode}

theorem walk_of_unvisited {j : Json}
    (h : Everywhere (fun ms => ∀ a ∈ ms, a.1 ≠ "RangeVar") j) : walk move g m j = .ok j := by
  induction j generalizing m with
  | arr xs ih =>
      refine walk_arr_eq_ok.mpr ⟨xs, rfl, ?_⟩
      exact List.forall₂_same.mpr fun x hx => ih x hx (everywhere_arr_iff.mp h x hx)
  | obj ms ih =>
      obtain ⟨hkeys, hms⟩ := everywhere_obj_iff.mp h
      have hmembers : walkMembers move g m ms = .ok (.inr ms) := by
        refine walkMembers_eq_inr.mpr (List.forall₂_same.mpr fun a ha => ⟨rfl, ?_⟩)
        cases hmove : move m a.1 with
        | skip => rfl
        | enter n => exact ih a ha (hms a ha)
        | visit => exact absurd (key_of_move_visit hmove) (hkeys a ha)
      rw [walk, hmembers]
      rfl
  | _ => rfl

theorem walk_node {n : Mode} {kind : String} {fields fields' : List (String × Json)}
    (hmove : move m kind = .enter n)
    (hfields : List.Forall₂ (MemberStep move g n) fields fields') :
    walk move g m (node kind fields) = .ok (node kind fields') := by
  rw [node, walk, walkMembers, hmove]
  simp only [walk, walkMembers_eq_inr.mpr hfields]
  rfl

theorem walk_obj {fields fields' : List (String × Json)}
    (hfields : List.Forall₂ (MemberStep move g m) fields fields') :
    walk move g m (.obj fields) = .ok (.obj fields') := by
  rw [walk, walkMembers_eq_inr.mpr hfields]
  rfl

theorem memberStep_enter {n : Mode} {key : String} {v v' : Json} (hmove : move m key = .enter n)
    (h : walk move g n v = .ok v') : MemberStep move g m (key, v) (key, v') :=
  ⟨rfl, by rw [hmove]; exact h⟩

theorem memberStep_unvisited {key : String} {v : Json} (hkey : key ≠ "RangeVar")
    (h : Everywhere (fun ms => ∀ a ∈ ms, a.1 ≠ "RangeVar") v) :
    MemberStep move g m (key, v) (key, v) := by
  refine ⟨rfl, ?_⟩
  cases hmove : move m key with
  | skip => rfl
  | enter n => exact walk_of_unvisited h
  | visit => exact absurd (key_of_move_visit hmove) hkey

theorem memberStep_skip {key : String} {v : Json} (hmove : move m key = .skip) :
    MemberStep move g m (key, v) (key, v) :=
  ⟨rfl, by rw [hmove]⟩

end Walk

section Expressions

/-- The keys of all objects in the value are among these. -/
def KeysIn (keys : List String) (j : Json) : Prop :=
  Everywhere (fun ms => ∀ a ∈ ms, a.1 ∈ keys) j

variable {keys : List String}

theorem KeysIn.mono {keys' : List String} {j : Json} (h : KeysIn keys j) (hkeys : keys ⊆ keys') :
    KeysIn keys' j :=
  fun p ms hms a ha => hkeys (h p ms hms a ha)

theorem KeysIn.unvisited {j : Json} (h : KeysIn keys j) (hkeys : "RangeVar" ∉ keys) :
    Everywhere (fun ms => ∀ a ∈ ms, a.1 ≠ "RangeVar") j := by
  intro p ms hms a ha heq
  exact hkeys (heq ▸ h p ms hms a ha)

theorem keysIn_obj {fields : List (String × Json)} (hkeys : ∀ a ∈ fields, a.1 ∈ keys)
    (hvals : ∀ a ∈ fields, KeysIn keys a.2) : KeysIn keys (.obj fields) :=
  everywhere_obj_iff.mpr ⟨hkeys, hvals⟩

theorem keysIn_node {kind : String} {fields : List (String × Json)} (hkind : kind ∈ keys)
    (hkeys : ∀ a ∈ fields, a.1 ∈ keys) (hvals : ∀ a ∈ fields, KeysIn keys a.2) :
    KeysIn keys (node kind fields) :=
  keysIn_obj (List.forall_mem_singleton.mpr hkind)
    (List.forall_mem_singleton.mpr (keysIn_obj hkeys hvals))

theorem keysIn_arr {xs : List Json} (h : ∀ x ∈ xs, KeysIn keys x) : KeysIn keys (.arr xs) :=
  everywhere_arr_iff.mpr h

@[simp] theorem keysIn_str (s : String) : KeysIn keys (.str s) := everywhere_str s

@[simp] theorem keysIn_num (s : String) : KeysIn keys (.num s) := everywhere_num s

@[simp] theorem keysIn_bool (b : Bool) : KeysIn keys (.bool b) := everywhere_bool b

def exprKeys : List String :=
  ["A_Const", "A_ArrayExpr", "A_Expr", "BoolExpr", "ColumnRef", "Float", "Integer", "Null",
    "NullTest", "SQLValueFunction", "String", "arg", "args", "boolop", "elements", "fields", "ival",
    "kind", "lexpr", "name", "nulltesttype", "op", "rexpr", "str", "typmod", "val"]

theorem keysIn_stringNode (s : String) : KeysIn exprKeys (stringNode s) :=
  keysIn_node (by simp [exprKeys]) (by simp [exprKeys]) (by simp)

theorem keysIn_stringConstNode (s : String) : KeysIn exprKeys (stringConstNode s) :=
  keysIn_node (by simp [exprKeys]) (by simp [exprKeys]) (by simp [keysIn_stringNode])

theorem keysIn_constant {kind : String} {fields : List (String × Json)}
    (h : KeysIn exprKeys (node kind fields)) :
    KeysIn exprKeys (node "A_Const" [("val", node kind fields)]) :=
  keysIn_node (by simp [exprKeys]) (by simp [exprKeys]) (by simp [h])

theorem keysIn_valueNode (v : Value) : KeysIn exprKeys (valueNode v) := by
  cases v with
  | null => exact keysIn_constant (keysIn_node (by simp [exprKeys]) (by simp) (by simp))
  | int n => exact keysIn_constant (keysIn_node (by simp [exprKeys]) (by simp [exprKeys]) (by simp))
  | text s => exact keysIn_stringConstNode s
  | texts ss =>
      have helements : KeysIn exprKeys (.arr (ss.map stringConstNode)) := by
        refine keysIn_arr fun x hx => ?_
        obtain ⟨s, -, rfl⟩ := List.mem_map.mp hx
        exact keysIn_stringConstNode s
      exact keysIn_node (by simp [exprKeys]) (by simp [exprKeys]) (by simp [helements])
  | other repr =>
      exact keysIn_constant (keysIn_node (by simp [exprKeys]) (by simp [exprKeys]) (by simp))

theorem keysIn_exprNode (e : Expr) : KeysIn exprKeys (exprNode e) := by
  cases e with
  | column c =>
      have hfields : KeysIn exprKeys (.arr [stringNode c.relation, stringNode c.name]) :=
        keysIn_arr (by simp [keysIn_stringNode])
      exact keysIn_node (by simp [exprKeys]) (by simp [exprKeys]) (by simp [hfields])
  | const v => exact keysIn_valueNode v
  | currentUser => exact keysIn_node (by simp [exprKeys]) (by simp [exprKeys]) (by simp)

theorem keysIn_equalsNode {l r : Json} (hl : KeysIn exprKeys l) (hr : KeysIn exprKeys r) :
    KeysIn exprKeys (equalsNode l r) := by
  have hname : KeysIn exprKeys (.arr [stringNode "="]) := keysIn_arr (by simp [keysIn_stringNode])
  exact keysIn_node (by simp [exprKeys]) (by simp [exprKeys]) (by simp [hl, hr, hname])

theorem keysIn_nullTest {arg : Json} (nulltesttype : String) (harg : KeysIn exprKeys arg) :
    KeysIn exprKeys (node "NullTest" [("arg", arg), ("nulltesttype", .str nulltesttype)]) :=
  keysIn_node (by simp [exprKeys]) (by simp [exprKeys]) (by simp [harg])

theorem keysIn_boolExpr {args : List Json} (boolop : String)
    (hargs : ∀ x ∈ args, KeysIn exprKeys x) :
    KeysIn exprKeys (node "BoolExpr" [("args", .arr args), ("boolop", .str boolop)]) :=
  keysIn_node (by simp [exprKeys]) (by simp [exprKeys]) (by simp [keysIn_arr hargs])

mutual

theorem keysIn_qualNode : ∀ q : Qual, KeysIn exprKeys (qualNode q)
  | .equals l r => keysIn_equalsNode (keysIn_exprNode l) (keysIn_exprNode r)
  | .isNull e => keysIn_nullTest _ (keysIn_exprNode e)
  | .not q => by
      refine keysIn_boolExpr _ fun x hx => ?_
      rw [List.mem_singleton.mp hx]
      exact keysIn_qualNode q
  | .and qs => keysIn_boolExpr _ (keysIn_qualNodes qs)
  | .or qs => keysIn_boolExpr _ (keysIn_qualNodes qs)

theorem keysIn_qualNodes : ∀ qs : List Qual, ∀ x ∈ qualNodes qs, KeysIn exprKeys x
  | [], _, hx => absurd hx List.not_mem_nil
  | q :: qs, x, hx => by
      rcases List.mem_cons.mp hx with rfl | hx
      · exact keysIn_qualNode q
      · exact keysIn_qualNodes qs x hx

end

theorem unvisited_qualNode (q : Qual) :
    Everywhere (fun ms => ∀ a ∈ ms, a.1 ≠ "RangeVar") (qualNode q) :=
  (keysIn_qualNode q).unvisited (by simp [exprKeys])

end Expressions

section Statements

variable {ε : Type} {st : Option SchemaTracker} {g : Json → Except ε (Option Json)}

/-- The visitor answers with the injected joins. -/
def Answers (st : Option SchemaTracker) (g : Json → Except ε (Option Json))
    (vars : List (String × Option String)) : Prop :=
  ∀ x ∈ vars, g (rangeVar x.1 x.2).toJson =
    .ok (if isTable st x.1 then some (joinExprNode (aclDictionary x.1 x.2)) else none)

theorem answers_append {vars vars' : List (String × Option String)} :
    Answers st g (vars ++ vars') ↔ Answers st g vars ∧ Answers st g vars' :=
  List.forall_mem_append

theorem forall₂_listMember {m : Mode} {key : String} {elems elems' : List Json}
    (hlen : elems = [] ↔ elems' = [])
    (h : MemberStep move g m (key, .arr elems) (key, .arr elems')) :
    List.Forall₂ (MemberStep move g m) (listMember key elems) (listMember key elems') := by
  rw [listMember, listMember]
  by_cases hnil : elems = []
  · rw [if_pos hnil, if_pos (hlen.mp hnil)]
    exact .nil
  · rw [if_neg hnil, if_neg fun h' => hnil (hlen.mpr h')]
    exact .cons h .nil

theorem itemNodes_eq_nil_iff (is : List RangeItem) :
    itemNodes is = [] ↔ itemNodes (aclRangeItems st is) = [] := by
  cases is <;> simp [itemNodes, aclRangeItems]

mutual

theorem walk_itemNode : ∀ i : RangeItem, Answers st g i.rangeVars →
    walk move g .aclSelectStmtFromClause (itemNode i) = .ok (itemNode (aclRangeItem st i))
  | .rangeVar relname aliasname, h => by
      have hvisit := h _ (List.mem_singleton.mpr rfl)
      have hmove : move .aclSelectStmtFromClause "RangeVar" = .visit := by decide +kernel
      rw [aclRangeItem, itemNode, rangeVarNode_eq, walk, walkMembers, hmove]
      simp only [hvisit]
      by_cases htable : isTable st relname = true
      · rw [if_pos htable, if_pos htable, ← joinExprNode_aclDictionary]
        rfl
      · rw [if_neg htable, if_neg htable, itemNode, rangeVarNode_eq]
        rfl
  | .joinExpr jointype larg rarg quals, h => by
      obtain ⟨hl, hr⟩ := answers_append.mp h
      rw [aclRangeItem, itemNode, itemNode]
      refine walk_node (n := .aclSelectStmtFromClause) (by decide +kernel) ?_
      refine .cons (memberStep_unvisited (by decide +kernel) (everywhere_str _)) ?_
      refine .cons (memberStep_enter (by decide +kernel) (walk_itemNode larg hl)) ?_
      refine .cons (memberStep_unvisited (by decide +kernel) (unvisited_qualNode quals)) ?_
      exact .cons (memberStep_enter (by decide +kernel) (walk_itemNode rarg hr)) .nil
  | .rangeSubselect subquery aliasname, h => by
      rw [aclRangeItem, itemNode, itemNode]
      refine walk_node (n := .aclSelectStmtFromClause) (by decide +kernel) ?_
      have halias : Everywhere (fun ms => ∀ a ∈ ms, a.1 ≠ "RangeVar")
          (.obj [("aliasname", .str aliasname)]) := everywhere_obj_iff.mpr ⟨by simp, by simp⟩
      refine .cons (memberStep_unvisited (by decide +kernel) halias) (.cons ?_ .nil)
      refine memberStep_enter (n := .aclSelectStmtFromClause) (by decide +kernel) ?_
      exact walk_node (by decide +kernel) (walk_selectFields subquery h)

theorem walk_itemNodes : ∀ is : List RangeItem, Answers st g (RangeItem.rangeVarsAll is) →
    List.Forall₂ (fun x y => walk move g .aclSelectStmtFromClause x = .ok y) (itemNodes is)
      (itemNodes (aclRangeItems st is))
  | [], _ => .nil
  | i :: is, h => by
      obtain ⟨hi, his⟩ := answers_append.mp h
      rw [itemNodes, aclRangeItems, itemNodes]
      exact .cons (walk_itemNode i hi) (walk_itemNodes is his)

theorem walk_selectFields : ∀ q : SelectStmt, Answers st g q.rangeVars →
    List.Forall₂ (MemberStep move g .aclSelectStmt) (selectFields q)
      (selectFields (aclSelect st q))
  | .select targetList fromClause whereClause, h => by
      rw [aclSelect, selectFields, selectFields]
      refine List.rel_append ?_ (List.rel_append ?_ (List.rel_append ?_ ?_))
      · refine forall₂_listMember (itemNodes_eq_nil_iff fromClause) ?_
        exact memberStep_enter (n := .aclSelectStmtFromClause) (by decide +kernel)
          (walk_arr_eq_ok.mpr ⟨_, rfl, walk_itemNodes fromClause h⟩)
      · exact .cons (memberStep_unvisited (by decide +kernel) (everywhere_str _))
          (.cons (memberStep_unvisited (by decide +kernel) (everywhere_str _)) .nil)
      · exact forall₂_listMember Iff.rfl (memberStep_skip (by decide +kernel))
      · refine List.forall₂_same.mpr fun a ha => ?_
        obtain ⟨q, -, rfl⟩ := List.mem_map.mp ha
        exact memberStep_skip (by decide +kernel)
  | .setOperation op all larg rarg, h => by
      obtain ⟨hl, hr⟩ := answers_append.mp h
      rw [aclSelect, selectFields, selectFields]
      refine List.rel_append ?_ ?_
      · cases all
        · exact .nil
        · exact .cons (memberStep_unvisited (by decide +kernel) (everywhere_bool _)) .nil
      · refine .cons (memberStep_enter (n := .aclSelectStmt) (by decide +kernel) ?_) ?_
        · exact walk_obj (walk_selectFields larg hl)
        refine .cons (memberStep_unvisited (by decide +kernel) (everywhere_str _)) ?_
        refine .cons (memberStep_unvisited (by decide +kernel) (everywhere_str _)) ?_
        refine .cons (memberStep_enter (n := .aclSelectStmt) (by decide +kernel) ?_) .nil
        exact walk_obj (walk_selectFields rarg hr)

end

theorem walk_rawStmtNode {r : RawStmt} (h : Answers st g r.stmt.rangeVars) :
    walk move g .acl (rawStmtNode r) = .ok (rawStmtNode (r.acl st)) := by
  have hnumber : ∀ {key s : String}, key ≠ "RangeVar" →
      MemberStep move g .acl (key, .num s) (key, .num s) :=
    fun hkey => memberStep_unvisited hkey (everywhere_num _)
  refine walk_obj (List.rel_append ?_ (List.rel_append ?_ ?_))
  · refine .cons (memberStep_enter (n := .acl) (by decide +kernel) ?_) .nil
    exact walk_node (by decide +kernel) (walk_selectFields r.stmt h)
  · refine List.forall₂_same.mpr fun a ha => ?_
    obtain ⟨s, -, rfl⟩ := List.mem_map.mp ha
    exact hnumber (by decide +kernel)
  · refine List.forall₂_same.mpr fun a ha => ?_
    obtain ⟨s, -, rfl⟩ := List.mem_map.mp ha
    exact hnumber (by decide +kernel)

theorem walk_parseTree {version : String} {stmts : List RawStmt}
    (h : ∀ r ∈ stmts, Answers st g r.stmt.rangeVars) :
    walk move g .acl (parseTree version stmts) =
      .ok (parseTree version (stmts.map (RawStmt.acl st))) := by
  have hversion : MemberStep move g .acl ("version", .num version) ("version", .num version) :=
    memberStep_unvisited (by decide +kernel) (everywhere_num _)
  refine walk_obj (.cons ?_ (.cons hversion .nil))
  refine memberStep_enter (n := .acl) (by decide +kernel) (walk_arr_eq_ok.mpr ⟨_, rfl, ?_⟩)
  rw [List.map_map, List.forall₂_map_left_iff, List.forall₂_map_right_iff]
  exact List.forall₂_same.mpr fun r hr => walk_rawStmtNode (h r hr)

end Statements

section Locations

variable {drop key : String}

theorem lookup_dropNumbersMembers (hkey : key ≠ drop) (ms : List (String × Json)) :
    (dropNumbersMembers drop ms).lookup key = (ms.lookup key).map (dropNumbers drop) := by
  induction ms with
  | nil => rfl
  | cons a ms ih =>
      obtain ⟨k, v⟩ := a
      rw [dropNumbersMembers, List.lookup_cons]
      split
      · rename_i hnumber
        obtain ⟨rfl, -⟩ := isNumberUnder_eq_true.mp hnumber
        rw [beq_false_of_ne hkey, ih]
      · rw [List.lookup_cons, ih]
        cases key == k <;> rfl

theorem subscript_dropNumbers (hkey : key ≠ drop) (v : Json) :
    (dropNumbers drop v).subscript key = (v.subscript key).map (dropNumbers drop) := by
  cases v with
  | obj ms =>
      rw [dropNumbers, subscript, subscript, lookup_dropNumbersMembers hkey]
      cases ms.lookup key <;> rfl
  | _ => rfl

theorem contains_dropNumbers (hkey : key ≠ drop) (v : Json) :
    (dropNumbers drop v).contains key = v.contains key := by
  cases v with
  | obj ms =>
      rw [dropNumbers, contains, contains, lookup_dropNumbersMembers hkey, Option.isSome_map]
  | _ => rfl

theorem getString_dropNumbers (v : Json) : (dropNumbers drop v).getString = v.getString := by
  cases v <;> rfl

theorem aclRangeVar_dropNumbers (st : Option SchemaTracker) (v : Json) :
    aclRangeVar st (dropNumbers "location" v) = aclRangeVar st v := by
  rw [aclRangeVar, aclRangeVar, subscript_dropNumbers (by decide +kernel),
    subscript_dropNumbers (by decide +kernel), contains_dropNumbers (by decide +kernel)]
  cases v.subscript "relname" with
  | error e => rfl
  | ok relname =>
      simp only [Except.map, bind, Except.bind, getString_dropNumbers]
      cases v.subscript "alias" with
      | error e => rfl
      | ok a =>
          simp only [subscript_dropNumbers (show "aliasname" ≠ "location" by decide +kernel)]
          cases a.subscript "aliasname" with
          | error e => rfl
          | ok name => simp only [Except.map, getString_dropNumbers]

theorem not_num_of_aclRangeVar {st : Option SchemaTracker} {v r : Json}
    (h : aclRangeVar st v = .ok (some r)) (s : String) : r ≠ .num s := by
  have hmade : ∀ {d j}, parse (expandTemplate d) = .ok j → j ≠ .num s := by
    intro d j hparse
    obtain ⟨ms, rfl, -⟩ := key_mem_of_parse_expandTemplate hparse
    simp
  rw [aclRangeVar] at h
  obtain ⟨relname, -, h⟩ := bind_eq_ok.mp h
  obtain ⟨name, -, h⟩ := bind_eq_ok.mp h
  split at h
  · split at h
    · obtain ⟨a, -, h⟩ := bind_eq_ok.mp h
      obtain ⟨aliasname, -, h⟩ := bind_eq_ok.mp h
      obtain ⟨alias', -, h⟩ := bind_eq_ok.mp h
      obtain ⟨j, hj, h⟩ := bind_eq_ok.mp h
      obtain rfl := Option.some.inj (Except.ok.inj h)
      exact hmade hj
    · obtain ⟨j, hj, h⟩ := bind_eq_ok.mp h
      obtain rfl := Option.some.inj (Except.ok.inj h)
      exact hmade hj
  · exact absurd (Except.ok.inj h) (by simp)

theorem dropNumbers_joinExprNode (d : TemplateDictionary) :
    dropNumbers "location" (joinExprNode d) = joinExprNode d := by
  obtain ⟨tableName, operation, tableAlias, tableRef⟩ := d
  cases tableAlias <;> rfl

theorem answers_aclRangeVar {st : Option SchemaTracker} {vars : List (String × Option String)}
    (h : ∀ x ∈ vars, isTable st x.1 = true → PlainNames x.1 x.2) :
    Answers st (dropping "location" (aclRangeVar st)) vars := by
  intro x hx
  rw [dropping, aclRangeVar_toJson, aliasname_rangeVar]
  show Except.map _ (if isTable st x.1 then _ else _) = _
  by_cases htable : isTable st x.1 = true
  · rw [if_pos htable, if_pos htable]
    show Except.map _ ((parse (expandTemplate (aclDictionary x.1 x.2))).map some) = _
    rw [parse_expandTemplate (h x hx htable)]
    exact congrArg (Except.ok ∘ some) (dropNumbers_joinExprNode _)
  · rw [if_neg htable, if_neg htable]
    rfl

end Locations

/-- The rewriting makes of the tree of some statements the tree of rewritten ones. -/
theorem acl_parseTree {st : Option SchemaTracker} {version : String} {stmts : List RawStmt}
    {j : Json} (hj : dropNumbers "location" j = parseTree version stmts)
    (hplain : ∀ r ∈ stmts, ∀ x ∈ r.stmt.rangeVars, isTable st x.1 = true → PlainNames x.1 x.2) :
    ∃ j', acl st j = .ok j' ∧
      dropNumbers "location" j' = parseTree version (stmts.map (RawStmt.acl st)) := by
  have hpasses : ∀ m, move m "location" ≠ .visit := by
    intro m
    cases m <;> decide +kernel
  have hwalk := map_dropNumbers_walk hpasses (aclRangeVar_dropNumbers st)
    (fun _ _ h => not_num_of_aclRangeVar h) Mode.acl j
  rw [hj, walk_parseTree fun r hr => answers_aclRangeVar (hplain r hr)] at hwalk
  exact map_eq_ok.mp hwalk

/-- The rewriting makes of the tree of the statements the tree of rewritten ones, and each of
these is, in every database, the statement on what the user may read. -/
def ReadsReadable (st : Option SchemaTracker) (version : String) (stmts : List RawStmt)
    (j : Json) : Prop :=
  ∃ j', acl st j = .ok j' ∧
    dropNumbers "location" j' = parseTree version (stmts.map (RawStmt.acl st)) ∧
    ∀ r ∈ stmts, ∀ catalogue user,
      (r.acl st).stmt.eval catalogue user = r.stmt.eval (readable st catalogue user) user

theorem readsReadable_acl {st : Option SchemaTracker} {version : String} {stmts : List RawStmt}
    {j : Json} (hj : dropNumbers "location" j = parseTree version stmts)
    (hplain : ∀ r ∈ stmts, ∀ x ∈ r.stmt.rangeVars, isTable st x.1 = true → PlainNames x.1 x.2)
    (hapart : ∀ r ∈ stmts, Apart (SelectStmt.names r.stmt)) :
    ReadsReadable st version stmts j := by
  obtain ⟨j', hacl, htree⟩ := acl_parseTree hj hplain
  exact ⟨j', hacl, htree, fun r hr catalogue user => aclSelect_eval r.stmt (hapart r hr)⟩

/-- `SELECT d.name FROM documents d LEFT JOIN notes ON d.id = notes.document WHERE NOT d.name IS
NULL`. -/
def notedDocuments : SelectStmt :=
  .select [⟨none, .column ⟨"d", "name"⟩⟩]
    [.joinExpr .left (.rangeVar "documents" (some "d")) (.rangeVar "notes" none)
      (.equals (.column ⟨"d", "id"⟩) (.column ⟨"notes", "document"⟩))]
    (some (.not (.isNull (.column ⟨"d", "name"⟩))))

/-- The parse of that text. -/
def notedDocumentsTree : Json :=
  let column (relation name location : String) : Json := node "ColumnRef"
    [("fields", .arr [stringNode relation, stringNode name]), ("location", .num location)]
  .obj [("stmts", .arr [.obj [("stmt", node "SelectStmt"
    [("fromClause", .arr [node "JoinExpr"
        [("jointype", .str "JOIN_LEFT"),
         ("larg", node "RangeVar" [("alias", .obj [("aliasname", .str "d")]), ("inh", .bool true),
           ("location", .num "19"), ("relname", .str "documents"), ("relpersistence", .str "p")]),
         ("quals", node "A_Expr" [("kind", .str "AEXPR_OP"), ("lexpr", column "d" "id" "50"),
           ("location", .num "55"), ("name", .arr [stringNode "="]),
           ("rexpr", column "notes" "document" "57")]),
         ("rarg", node "RangeVar" [("inh", .bool true), ("location", .num "41"),
           ("relname", .str "notes"), ("relpersistence", .str "p")])]]),
     ("limitOption", .str "LIMIT_OPTION_DEFAULT"), ("op", .str "SETOP_NONE"),
     ("targetList", .arr [node "ResTarget" [("location", .num "7"),
       ("val", column "d" "name" "7")]]),
     ("whereClause", node "BoolExpr"
       [("args", .arr [node "NullTest" [("arg", column "d" "name" "82"), ("location", .num "89"),
          ("nulltesttype", .str "IS_NULL")]]),
        ("boolop", .str "NOT_EXPR"), ("location", .num "78")])])]]),
    ("version", .num "130003")]

theorem dropNumbers_notedDocumentsTree :
    dropNumbers "location" notedDocumentsTree =
      parseTree "130003" [⟨notedDocuments, none, none⟩] := rfl

theorem plainNames_notedDocuments :
    ∀ x ∈ notedDocuments.rangeVars, PlainNames x.1 x.2 := by
  have hplain : Plain "documents".toList ∧ Plain "d".toList ∧ Plain "notes".toList := by
    decide +kernel
  obtain ⟨hdocuments, hd, hnotes⟩ := hplain
  intro x hx
  simp only [notedDocuments, SelectStmt.rangeVars, RangeItem.rangeVarsAll, RangeItem.rangeVars,
    List.append_nil, List.cons_append, List.nil_append, List.mem_cons, List.not_mem_nil,
    or_false] at hx
  rcases hx with rfl | rfl
  · exact ⟨hdocuments, fun a ha => Option.some.inj ha ▸ hd⟩
  · exact ⟨hnotes, fun a ha => absurd ha (by simp)⟩

theorem readsReadable_notedDocuments :
    ReadsReadable (some ⟨["documents", "notes"]⟩) "130003" [⟨notedDocuments, none, none⟩]
      notedDocumentsTree :=
  readsReadable_acl dropNumbers_notedDocumentsTree
    (List.forall_mem_singleton.mpr fun x hx _ => plainNames_notedDocuments x hx)
    (List.forall_mem_singleton.mpr (by decide +kernel))

end PgFort.SelectTrees
