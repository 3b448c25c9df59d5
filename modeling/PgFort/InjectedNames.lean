import PgFort.QueryAcler

namespace PgFort.InjectedNames

open PgFort.JsonTree
open PgFort.JsonText
open PgFort.ParseTree
open PgFort.JoinTemplate
open PgFort.Schema
open PgFort.QueryAcler

/-- The text is JSON, and all that the names do to its value is to stand in it as they are: no others
give the same node, and it takes the place of every tracked reference with these. -/
structure Uninjected (relname : String) (aliasname : Option String) : Prop where
  valid : ∃ j, parse (expandTemplate (aclDictionary relname aliasname)) = .ok j
  skeleton : ∀ j, parse (expandTemplate (aclDictionary relname aliasname)) = .ok j →
    j = joinExprNode (aclDictionary relname aliasname)
  distinct : ∀ relname' aliasname',
    joinExprNode (aclDictionary relname' aliasname') = joinExprNode (aclDictionary relname aliasname) →
      relname' = relname ∧ aliasname' = aliasname
  replaced : ∀ (st : Option SchemaTracker) (rv : RangeVar), rv.relname = relname →
    rv.aliasname = aliasname → isTable st relname = true →
      aclRangeVar st rv.toJson = .ok (some (joinExprNode (aclDictionary relname aliasname)))

/-- The left argument of the join. -/
def leftArgument : Json → Option Json
  | .obj [(_, .obj [_, (_, larg), _, _])] => some larg
  | _ => none

/-- The reference that the template writes. -/
def plainReference (relname : String) (aliasname : Option String) : RangeVar where
  alias_ := aliasname.map fun a => ⟨a, []⟩
  catalogname := none
  inh := true
  location := none
  relname
  relpersistence := "p"
  schemaname := none

section Node

variable {relname relname' : String} {aliasname aliasname' : Option String}

theorem leftArgument_joinExprNode :
    leftArgument (joinExprNode (aclDictionary relname aliasname)) =
      some (.obj [("RangeVar", (plainReference relname aliasname).toJson)]) := by
  cases aliasname <;> rfl

theorem joinExprNode_injective
    (h : joinExprNode (aclDictionary relname' aliasname') =
      joinExprNode (aclDictionary relname aliasname)) :
    relname' = relname ∧ aliasname' = aliasname := by
  have hleft := congrArg leftArgument h
  rw [leftArgument_joinExprNode, leftArgument_joinExprNode, Option.some.injEq, Json.obj.injEq,
    List.cons.injEq, Prod.mk.injEq] at hleft
  have hreference := RangeVar.toJson_injective hleft.1.2
  refine ⟨congrArg RangeVar.relname hreference, ?_⟩
  have halias := congrArg RangeVar.aliasname hreference
  simp only [RangeVar.aliasname, plainReference, Option.map_map] at halias
  simpa [Function.comp_def] using halias

end Node

/-- Only names without a double quote, a backslash and a control character stay what they are. -/
theorem uninjected_iff (relname : String) (aliasname : Option String) :
    Uninjected relname aliasname ↔ PlainNames relname aliasname := by
  constructor
  · rintro ⟨⟨j, hj⟩, hskeleton, -, -⟩
    rw [hskeleton j hj] at hj
    exact parse_expandTemplate_iff.mp hj
  · intro h
    have hparse := parse_expandTemplate h
    refine ⟨⟨_, hparse⟩, fun j hj => ?_, fun _ _ => joinExprNode_injective, ?_⟩
    · exact Except.ok.inj (hj.symm.trans hparse)
    · rintro st rv rfl rfl htable
      rw [aclRangeVar_toJson, if_pos htable, hparse]
      rfl

/-- In `x AS "y""", the quote of the alias ends the string that it is put in. -/
theorem not_uninjected_quote : ¬ Uninjected "x" (some "y\"") := by
  rintro ⟨⟨j, hj⟩, hskeleton, -, -⟩
  rw [hskeleton j hj] at hj
  have halias := (parse_expandTemplate_iff.mp hj).2 "y\"" rfl
  exact absurd (halias '"' (by decide)) (by decide)

end PgFort.InjectedNames
