import PgFort.Revocation

namespace PgFort.GrantOrigins

open PgFort.KeyedRows
open PgFort.Bindings
open PgFort.Propagation
open PgFort.BindingHistories
open PgFort.Revocation

/-- The command writes the row. -/
def Writes (table : String) (new : NewRow) : Command → Prop
  | .insertRow t n => t = table ∧ n = new
  | .updateRow t _ n => t = table ∧ n = new
  | _ => False

/-- In the history the row of the table has come by a binding with this inheritance, role,
principal and ref. -/
inductive Derived : List Command → String → Int → Int → String × String × Int → Prop where
  | bound {cs : List Command} {table role principal : String} {id now : Int} {db : Database}
      (hstep : step (run cs) (.bindAccessRole table role principal (some id) now) = .ok db) :
      Derived (cs ++ [.bindAccessRole table role principal (some id) now]) table id 0
        (role, principal, (run cs).access.nextRef)
  /-- The row was written when the source that the inheritance selects had the binding. -/
  | inherited {cs : List Command} {c : Command} {new : NewRow} {i : Inheritance} {db : Database}
      {source inheritance : Int} {grant : String × String × Int} (hc : Writes i.dst new c)
      (hstep : step (run cs) c = .ok db) (hi : i ∈ (run cs).inheritances.rows)
      (hyields : new.yields i.srcQuery = some source)
      (hsource : Derived (cs ++ [c]) i.src source inheritance grant) :
      Derived (cs ++ [c]) i.dst new.id i.id grant
  | kept {cs : List Command} {table : String} {id inheritance : Int}
      {grant : String × String × Int} (c : Command) (h : Derived cs table id inheritance grant) :
      Derived (cs ++ [c]) table id inheritance grant

theorem run_concat (cs : List Command) (c : Command) : run (cs ++ [c]) = perform (run cs) c := by
  rw [run, List.foldl_append]
  rfl

section Step

variable {db db' : Database} {c : Command}

theorem bindings_of_isUpsert (hc : c.IsUpsert) (hstep : step db c = .ok db') :
    db'.access.bindings = db.access.bindings ∨
      ∃ table new, Writes table new c ∧
        setAccessBindings db.inheritances table new db.access.bindings =
          .ok db'.access.bindings := by
  have htrigger : ∀ {table : String} {new : NewRow} {rows : String → List Int},
      Writes table new c → fireTrigger table new { db with rows } = .ok db' →
        db'.access.bindings = db.access.bindings ∨
          ∃ table new, Writes table new c ∧
            setAccessBindings db.inheritances table new db.access.bindings =
              .ok db'.access.bindings := by
    intro table new rows hwrites h
    rcases fireTrigger_cases h with rfl | ⟨-, bs, hbs, rfl⟩
    · exact .inl rfl
    · exact .inr ⟨table, new, hwrites, hbs⟩
  cases c with
  | insertRow table new =>
      simp only [step, insertRow] at hstep
      split at hstep
      · simp at hstep
      · exact htrigger ⟨rfl, rfl⟩ hstep
  | updateRow table old new =>
      simp only [step, updateRow] at hstep
      split at hstep
      · exact .inl (congrArg (·.access.bindings) (Except.ok.inj hstep).symm)
      · split at hstep
        · exact @htrigger table new db.rows ⟨rfl, rfl⟩ hstep
        · split at hstep
          · simp at hstep
          · split at hstep
            · simp at hstep
            · exact htrigger ⟨rfl, rfl⟩ hstep
  | _ => exact absurd hc id

end Step

section Derivations

/-- Every binding of the tables has a derivation in the history. -/
def AllDerived (cs : List Command) (bs : BindingTables) : Prop :=
  ∀ t, ∀ b ∈ (bs t).rows, Derived cs t b.id b.inheritance b.grant

theorem AllDerived.concat {cs : List Command} (h : AllDerived cs (run cs).access.bindings)
    (c : Command) :
    AllDerived (cs ++ [c]) (run (cs ++ [c])).access.bindings := by
  have hkept : AllDerived (cs ++ [c]) (run cs).access.bindings :=
    fun t b hb => .kept c (h t b hb)
  rw [run_concat, perform]
  split
  · rename_i db' hstep
    have heffect := (effects_of_step hstep).1
    by_cases hupsert : c.IsUpsert
    · rcases bindings_of_isUpsert hupsert hstep with heq | ⟨table, new, hwrites, hbs⟩
      · exact heq ▸ hkept
      · refine forall_mem_inheritAll (fun _ _ h => h) (fun i hi b hyields hsource => ?_) hkept hbs
        obtain ⟨hmem, hdst⟩ := mem_filter_dst.mp hi
        exact .inherited (hdst ▸ hwrites) hstep hmem hyields hsource
    · generalize db'.access = s' at heffect
      intro t b hb
      cases heffect with
      | same => exact hkept t b hb
      | drawn => exact hkept t b hb
      | uninherited => exact hkept t b (List.mem_of_mem_filter hb)
      | deleted => exact hkept t b (List.mem_of_mem_filter hb)
      | unbound => exact hkept t b (List.mem_of_mem_filter hb)
      | propagated _ hc => exact absurd hc hupsert
      | bound table role principal id now s htable hs =>
          rcases ((bound_of_bindAccessRole hs).2.2 t b).mp hb with ⟨rfl, rfl⟩ | hb
          · exact .bound hstep
          · exact hkept t b hb
  · exact hkept

end Derivations

theorem allDerived_run (cs : List Command) : AllDerived cs (run cs).access.bindings := by
  induction cs using List.reverseRecOn with
  | nil => exact fun _ _ hb => absurd hb List.not_mem_nil
  | append_singleton cs c ih => exact ih.concat c

theorem exists_bind_of_derived {cs : List Command} {t : String} {id w : Int}
    {grant : String × String × Int} (h : Derived cs t id w grant) :
    ∃ pre table origin now post db,
      cs = pre ++ .bindAccessRole table grant.1 grant.2.1 (some origin) now :: post ∧
        step (run pre) (.bindAccessRole table grant.1 grant.2.1 (some origin) now) = .ok db ∧
          (run pre).access.nextRef = grant.2.2 := by
  induction h with
  | bound hstep => exact ⟨_, _, _, _, [], _, rfl, hstep, rfl⟩
  | inherited _ _ _ _ _ ih => exact ih
  | kept c _ ih =>
      obtain ⟨pre, table, origin, now, post, db, rfl, hstep, href⟩ := ih
      exact ⟨pre, table, origin, now, post ++ [c], db, by simp, hstep, href⟩

theorem exists_bind_of_mem {cs : List Command} {t : String} {b : Binding}
    (hb : b ∈ ((run cs).access.bindings t).rows) :
    ∃ pre table id now post db,
      cs = pre ++ .bindAccessRole table b.role b.principal (some id) now :: post ∧
        step (run pre) (.bindAccessRole table b.role b.principal (some id) now) = .ok db ∧
          (run pre).access.nextRef = b.ref :=
  exists_bind_of_derived (allDerived_run cs t b hb)

/-- After the history every binding has come by a BIND of its role to its principal, the one that
drew its ref, and by inheritances that were there when rows were written. -/
structure Originated (cs : List Command) : Prop where
  derived : ∀ t, ∀ b ∈ ((run cs).access.bindings t).rows,
    Derived cs t b.id b.inheritance (b.role, b.principal, b.ref)
  bound : ∀ t, ∀ b ∈ ((run cs).access.bindings t).rows, ∃ pre table origin now post db,
    cs = pre ++ .bindAccessRole table b.role b.principal (some origin) now :: post ∧
      step (run pre) (.bindAccessRole table b.role b.principal (some origin) now) = .ok db ∧
        (run pre).access.nextRef = b.ref

theorem originated_run (cs : List Command) : Originated cs where
  derived := allDerived_run cs
  bound _ _ hb := exists_bind_of_mem hb

section Refs

variable {db : Database} {c : Command} {s' : PropagationRuns.State}

theorem old_of_effect (heffect : Effect db c s') :
    db.access.nextRef ≤ s'.nextRef ∧
      (∀ r ∈ s'.refs, r ∈ db.access.refs ∨ r.id = db.access.nextRef) ∧
      ∀ t, ∀ b ∈ (s'.bindings t).rows,
        (∃ u, ∃ o ∈ (db.access.bindings u).rows, o.grant = b.grant) ∨
          b.ref = db.access.nextRef := by
  cases heffect with
  | same => exact ⟨le_rfl, fun _ hr => .inl hr, fun t b hb => .inl ⟨t, b, hb, rfl⟩⟩
  | drawn =>
      exact ⟨(Int.lt_succ _).le, fun _ hr => .inl hr, fun t b hb => .inl ⟨t, b, hb, rfl⟩⟩
  | uninherited =>
      exact ⟨le_rfl, fun _ hr => .inl hr,
        fun t b hb => .inl ⟨t, b, List.mem_of_mem_filter hb, rfl⟩⟩
  | deleted =>
      exact ⟨le_rfl, fun _ hr => .inl hr,
        fun t b hb => .inl ⟨t, b, List.mem_of_mem_filter hb, rfl⟩⟩
  | bound table role principal id now s htable hs =>
      obtain ⟨hrefs, hnext, hmem⟩ := bound_of_bindAccessRole hs
      refine ⟨hnext ▸ (Int.lt_succ _).le, fun r hr => ?_, fun t b hb => ?_⟩
      · rcases List.mem_cons.mp (hrefs ▸ hr : r ∈ _ :: db.access.refs) with rfl | hr
        · exact .inr rfl
        · exact .inl hr
      · rcases (hmem t b).mp hb with ⟨-, rfl⟩ | hb
        · exact .inr rfl
        · exact .inl ⟨t, b, hb, rfl⟩
  | unbound =>
      exact ⟨le_rfl, fun _ hr => .inl (List.mem_of_mem_filter hr),
        fun t b hb => .inl ⟨t, b, List.mem_of_mem_filter hb, rfl⟩⟩
  | propagated _ _ table new bs htable hbs =>
      exact ⟨le_rfl, fun _ hr => .inl hr, fun t b hb => .inl (grant_of_mem_inheritAll hbs hb)⟩

/-- The ref was drawn by a BIND of the role to the principal on the row. -/
structure DrawnBy (table role principal : String) (id ref : Int) (db : Database) : Prop where
  drawn : ref < db.access.nextRef
  origin : ∀ r ∈ db.access.refs, r.id = ref → r.origin = table ∧ r.originId = id
  grants : ∀ t, ∀ b ∈ (db.access.bindings t).rows, b.ref = ref →
    b.role = role ∧ b.principal = principal

/-- The ref was drawn, and no binding carries it. -/
structure Gone (ref : Int) (db : Database) : Prop where
  drawn : ref < db.access.nextRef
  none : ∀ t, ∀ b ∈ (db.access.bindings t).rows, b.ref ≠ ref

theorem DrawnBy.perform {table role principal : String} {id ref : Int}
    (h : DrawnBy table role principal id ref db) (c : Command) :
    DrawnBy table role principal id ref (perform db c) := by
  rw [BindingHistories.perform]
  split
  · rename_i db' hstep
    obtain ⟨hnext, hrefs, hgrants⟩ := old_of_effect (effects_of_step hstep).1
    have hdrawn := h.drawn
    refine ⟨hdrawn.trans_le hnext, fun r hr hid => ?_, fun t b hb href => ?_⟩
    · rcases hrefs r hr with hr | hnew
      · exact h.origin r hr hid
      · omega
    · rcases hgrants t b hb with ⟨u, o, ho, hgrant⟩ | hnew
      · obtain ⟨hrole, hprincipal⟩ :=
          h.grants u o ho ((congrArg (fun g => g.2.2) hgrant).trans href)
        exact ⟨(congrArg (fun g => g.1) hgrant).symm.trans hrole,
          (congrArg (fun g => g.2.1) hgrant).symm.trans hprincipal⟩
      · omega
  · exact h

theorem Gone.perform {ref : Int} (h : Gone ref db) (c : Command) : Gone ref (perform db c) := by
  rw [BindingHistories.perform]
  split
  · rename_i db' hstep
    obtain ⟨hnext, -, hgrants⟩ := old_of_effect (effects_of_step hstep).1
    have hdrawn := h.drawn
    refine ⟨hdrawn.trans_le hnext, fun t b hb href => ?_⟩
    rcases hgrants t b hb with ⟨u, o, ho, hgrant⟩ | hnew
    · exact h.none u o ho ((congrArg (fun g => g.2.2) hgrant).trans href)
    · omega
  · exact h

theorem drawnBy_of_bind {table role principal : String} {id now : Int} {db' : Database}
    (h : Invariant db)
    (hstep : step db (.bindAccessRole table role principal (some id) now) = .ok db') :
    DrawnBy table role principal id db.access.nextRef db' := by
  obtain ⟨i, hi, -, s, hs, rfl⟩ := bindAccessRole_cases hstep
  obtain rfl := Option.some.inj hi
  obtain ⟨hrefs, hnext, hmem⟩ := bound_of_bindAccessRole hs
  refine ⟨?_, fun r hr hid => ?_, fun t b hb href => ?_⟩
  · show db.access.nextRef < s.nextRef
    rw [hnext]
    exact Int.lt_succ _
  · rcases List.mem_cons.mp (hrefs ▸ hr : r ∈ _ :: db.access.refs) with rfl | hr
    · exact ⟨rfl, rfl⟩
    · exact absurd (h.coherent.drawn r hr) (by omega)
  · rcases (hmem t b).mp hb with ⟨-, rfl⟩ | hb
    · exact ⟨rfl, rfl⟩
    · exact absurd (h.coherent.ref_lt hb) (by omega)

/-- When everything inherited has a direct binding, UNBIND takes away all that a BIND of the
same has led to. -/
theorem gone_of_unbind {table role principal : String} {id ref : Int} (h : Invariant db)
    (hrev : Revocable db) (hdrawn : DrawnBy table role principal id ref db) :
    Gone ref (perform db (.unbindAccessRole table role principal (some id))) := by
  refine ⟨(hdrawn.perform _).drawn, fun t b hb href => ?_⟩
  have hdirect : ∀ u, ∀ d ∈ (db.access.bindings u).rows, d.inheritance = 0 → d.ref = ref →
      u = table ∧ BoundBy db table role principal id ref := by
    intro u d hd hzero hdref
    obtain ⟨rfl, hid⟩ := hdrawn.origin _ (h.coherent.origin u d hd hzero) hdref
    obtain ⟨hrole, hprincipal⟩ := hdrawn.grants u d hd hdref
    exact ⟨rfl, d, hd, hzero, hid, hrole, hprincipal, hdref⟩
  have hmem : b ∈ (db.access.bindings t).rows := by
    rw [BindingHistories.perform] at hb
    split at hb
    · rename_i db' hstep
      have heffect := (effects_of_step hstep).1
      generalize db'.access = s' at heffect hb
      cases heffect with
      | same => exact hb
      | unbound => exact List.mem_of_mem_filter hb
      | propagated _ hc => exact False.elim hc
    · exact hb
  obtain ⟨u, d, hd, hzero, hdref⟩ :
      ∃ u, ∃ d ∈ (db.access.bindings u).rows, d.inheritance = 0 ∧ d.ref = b.ref := by
    by_cases hzero : b.inheritance = 0
    · exact ⟨t, b, hmem, hzero, rfl⟩
    · exact (revocable_iff h.coherent).mp hrev t b hmem hzero
  obtain ⟨rfl, hbound⟩ := hdirect u d hd hzero (hdref.trans href)
  rw [mem_perform_unbindAccessRole h.coherent (h.confined u d hd)] at hb
  exact hb.2 (href ▸ hbound)

end Refs

theorem revocable_of_takesHeirs {cs : List Command}
    (hheirs : Runs.AtEachStep perform Database.initial TakesHeirs cs) : Revocable (run cs) := by
  have halways := Runs.always_iff_atEachStep .initial (fun _ c h => h.perform c) revocable_initial
    (fun _ c h hrev => revocable_perform h hrev c) cs
  exact halways.mpr hheirs cs [] (List.append_nil cs).symm

theorem run_append (cs post : List Command) : run (cs ++ post) = post.foldl perform (run cs) :=
  List.foldl_append

/-- Nothing of a BIND is left after an UNBIND of the same, whatever has come between or comes
later. -/
theorem gone_of_takesHeirs {before mid : List Command} {table role principal : String}
    {id now : Int} {db : Database}
    (hheirs : Runs.AtEachStep perform Database.initial TakesHeirs
      (before ++ .bindAccessRole table role principal (some id) now :: mid))
    (hstep : step (run before) (.bindAccessRole table role principal (some id) now) = .ok db)
    (after : List Command) :
    Gone (run before).access.nextRef
      (run (before ++ .bindAccessRole table role principal (some id) now :: mid ++
        .unbindAccessRole table role principal (some id) :: after)) := by
  have hinv := invariant_run before
  have hbound : DrawnBy table role principal id (run before).access.nextRef
      (run (before ++ .bindAccessRole table role principal (some id) now :: mid)) := by
    rw [run_append, List.foldl_cons, perform, hstep]
    exact Runs.invariant_foldl (fun _ c h => h.perform c) (drawnBy_of_bind hinv hstep) mid
  have hgone := gone_of_unbind (invariant_run _) (revocable_of_takesHeirs hheirs) hbound
  rw [run_append, List.foldl_cons]
  exact Runs.invariant_foldl (fun _ c h => h.perform c) hgone after

/-- After an UNBIND, in a history whose deletions have taken heirs until then, what a BIND of the
same has led to comes from a BIND after it. -/
def FinallyUnbound (pre post : List Command) (table role principal : String) (id : Int) : Prop :=
  ∀ t, ∀ b ∈ ((run (pre ++ .unbindAccessRole table role principal (some id) :: post)).access.bindings
      t).rows,
    ∀ before now after db,
      pre ++ .unbindAccessRole table role principal (some id) :: post =
          before ++ .bindAccessRole table role principal (some id) now :: after →
        step (run before) (.bindAccessRole table role principal (some id) now) = .ok db →
          (run before).access.nextRef = b.ref → pre.length < before.length

theorem finallyUnbound_of_takesHeirs {pre : List Command} (post : List Command)
    (table role principal : String) (id : Int)
    (hheirs : Runs.AtEachStep perform Database.initial TakesHeirs pre) :
    FinallyUnbound pre post table role principal id := by
  intro t b hb before now after db hsplit hstep href
  by_contra hlen
  obtain ⟨rest, rfl⟩ : ∃ rest, pre = before ++ rest := by
    have hprefix : before <+: pre := by
      have hpre := List.prefix_append pre (.unbindAccessRole table role principal (some id) :: post)
      rw [hsplit] at hpre
      exact List.prefix_of_prefix_length_le (List.prefix_append _ _) hpre (Nat.le_of_not_lt hlen)
    obtain ⟨rest, hrest⟩ := hprefix
    exact ⟨rest, hrest.symm⟩
  rw [List.append_assoc, List.append_cancel_left_eq] at hsplit
  cases rest with
  | nil => simp at hsplit
  | cons c rest =>
      obtain ⟨rfl, -⟩ := List.cons.inj hsplit
      exact (gone_of_takesHeirs hheirs hstep post).none t b hb href.symm

/-- A document inherits from a folder that is bound. -/
def boundFolderRun : List Command :=
  [.createAccessRole "viewer", .enableAccessControl "folders", .enableAccessControl "documents",
    .createAccessInheritance "folders" "documents" "SELECT id FROM folders WHERE id = $1.folder_id",
    .insertRow "folders" ⟨1, 1, fun _ => some []⟩,
    .bindAccessRole "folders" "viewer" "tom" (some 1) 2,
    .insertRow "documents" ⟨7, 3, fun _ => some [1]⟩]

theorem takesHeirs_boundFolder :
    Runs.AtEachStep perform Database.initial TakesHeirs boundFolderRun := by
  intro pre c post hsplit
  have hc : c ∈ boundFolderRun := hsplit ▸ List.mem_append_right pre List.mem_cons_self
  simp only [boundFolderRun, List.mem_cons, List.not_mem_nil, or_false] at hc
  rcases hc with rfl | rfl | rfl | rfl | rfl | rfl | rfl <;> trivial

theorem finallyUnbound_boundFolder :
    FinallyUnbound boundFolderRun
      [.bindAccessRole "folders" "viewer" "tom" (some 1) 4,
        .updateRow "documents" 7 ⟨7, 5, fun _ => some [1]⟩] "folders" "viewer" "tom" 1 :=
  finallyUnbound_of_takesHeirs _ "folders" "viewer" "tom" 1 takesHeirs_boundFolder

theorem principal_ne_of_unbound {cs : List Command} {principal : String}
    (hunbound : ∀ pre post table role id now,
      cs = pre ++ .bindAccessRole table role principal (some id) now :: post →
        ∃ mid after, post = mid ++ .unbindAccessRole table role principal (some id) :: after ∧
          Runs.AtEachStep perform Database.initial TakesHeirs
            (pre ++ .bindAccessRole table role principal (some id) now :: mid)) :
    ∀ t, ∀ b ∈ ((run cs).access.bindings t).rows, b.principal ≠ principal := by
  rintro t b hb rfl
  obtain ⟨pre, table, id, now, post, db, hsplit, hstep, href⟩ :=
    exists_bind_of_mem hb
  obtain ⟨mid, after, rfl, hheirs⟩ := hunbound pre post table b.role id now hsplit
  rw [← List.cons_append, ← List.append_assoc] at hsplit
  have hgone := gone_of_takesHeirs hheirs hstep after
  rw [← hsplit] at hgone
  exact hgone.none t b hb href.symm

end PgFort.GrantOrigins
