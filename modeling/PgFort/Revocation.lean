import PgFort.BindingHistories

namespace PgFort.Revocation

open PgFort.KeyedRows
open PgFort.Bindings
open PgFort.Propagation
open PgFort.PropagationRuns (BindingRef unbound)
open PgFort.BindingHistories

/-- The ref belongs to a direct binding of the role to the principal on the row. -/
def BoundBy (db : Database) (table role principal : String) (id ref : Int) : Prop :=
  ∃ d ∈ (db.access.bindings table).rows,
    d.inheritance = 0 ∧ d.id = id ∧ d.role = role ∧ d.principal = principal ∧ d.ref = ref

section Unbind

variable {db : Database} {table role principal : String} {id : Int}

theorem mem_unbound (h : Coherent db.access) {ref : Int} :
    ref ∈ unbound table role principal id db.access ↔ BoundBy db table role principal id ref := by
  simp only [unbound, List.mem_filter, List.any_eq_true, Bool.and_eq_true, beq_iff_eq, BoundBy]
  constructor
  · rintro ⟨-, d, hd, ⟨⟨⟨hid, hrole⟩, hprincipal⟩, hdirect⟩, href⟩
    exact ⟨d, hd, hdirect, hid, hrole, hprincipal, href⟩
  · rintro ⟨d, hd, hdirect, hid, hrole, hprincipal, href⟩
    obtain ⟨r, hr, hrid⟩ := h.referenced table d hd
    exact ⟨List.mem_map.mpr ⟨r, hr, hrid.trans href⟩, d, hd,
      ⟨⟨⟨hid, hrole⟩, hprincipal⟩, hdirect⟩, href⟩

theorem perform_unbindAccessRole (htable : table ∈ db.controlled) :
    (perform db (.unbindAccessRole table role principal (some id))).access =
      PropagationRuns.unbindAccessRole table role principal id db.access := by
  simp only [perform, step, BindingHistories.unbindAccessRole, htable, not_true_eq_false, if_false]

theorem mem_perform_unbindAccessRole (h : Coherent db.access) (htable : table ∈ db.controlled)
    {t : String} {b : Binding} :
    b ∈ ((perform db (.unbindAccessRole table role principal (some id))).access.bindings t).rows ↔
      b ∈ (db.access.bindings t).rows ∧ ¬ BoundBy db table role principal id b.ref := by
  rw [perform_unbindAccessRole htable, ← mem_unbound h]
  show b ∈ List.filter _ _ ↔ _
  rw [List.mem_filter, decide_eq_true_eq]

theorem mem_perform_of_isUpsert (h : Invariant db) {c : Command} (hc : c.IsUpsert) {t : String}
    {b : Binding} (hb : b ∈ (db.access.bindings t).rows) (hdirect : b.inheritance = 0) :
    b ∈ ((perform db c).access.bindings t).rows := by
  rw [perform]
  split
  · rename_i db' hstep
    have heffect := (effects_of_step hstep).1
    generalize db'.access = s' at heffect ⊢
    cases heffect with
    | same => exact hb
    | propagated _ _ table new bs htable hbs =>
        exact (mem_of_direct hbs (h.catalogued.id_ne_zero htable) hdirect t).mpr hb
    | drawn => exact absurd hc id
    | uninherited => exact absurd hc id
    | deleted => exact absurd hc id
    | bound => exact absurd hc id
    | unbound => exact absurd hc id
  · exact hb

theorem mem_foldl_of_isUpsert (h : Invariant db) {ups : List Command}
    (hups : ∀ c ∈ ups, c.IsUpsert) {t : String} {b : Binding}
    (hb : b ∈ (db.access.bindings t).rows) (hdirect : b.inheritance = 0) :
    b ∈ ((ups.foldl perform db).access.bindings t).rows := by
  induction ups generalizing db with
  | nil => exact hb
  | cons c ups ih =>
      exact ih (h.perform c) (fun c' hc' => hups c' (List.mem_cons_of_mem _ hc'))
        (mem_perform_of_isUpsert h (hups c List.mem_cons_self) hb hdirect)

end Unbind

/-- After the history, UNBIND takes away the bindings with a ref of the direct bindings that it
names, and no others; a BIND, changes of rows, and that UNBIND leave no trace of the new ref. -/
structure Revokes (cs : List Command) : Prop where
  exactly : ∀ table role principal id, table ∈ (run cs).controlled → ∀ t b,
    b ∈ ((perform (run cs) (.unbindAccessRole table role principal (some id))).access.bindings
        t).rows ↔
      b ∈ ((run cs).access.bindings t).rows ∧ ¬ BoundBy (run cs) table role principal id b.ref
  undoes : ∀ table role principal id now (ups : List Command) db,
    step (run cs) (.bindAccessRole table role principal (some id) now) = .ok db →
      (∀ c ∈ ups, c.IsUpsert) → ∀ t,
        ∀ b ∈ ((perform (ups.foldl perform db)
            (.unbindAccessRole table role principal (some id))).access.bindings t).rows,
          b.ref ≠ (run cs).access.nextRef

theorem revokes_run (cs : List Command) : Revokes cs := by
  have hinv := invariant_run cs
  refine ⟨fun table role principal id htable t b =>
    mem_perform_unbindAccessRole hinv.coherent htable, ?_⟩
  intro table role principal id now ups db hstep hups t b hb href
  have hdb : Invariant db := hinv.step hstep
  have hups' : Invariant (ups.foldl perform db) :=
    Runs.invariant_foldl (fun _ c h => h.perform c) hdb ups
  -- the direct binding is there after the changes
  have hdirect : (⟨id, role, principal, (run cs).access.nextRef, 0, now⟩ : Binding) ∈
      ((ups.foldl perform db).access.bindings table).rows := by
    refine mem_foldl_of_isUpsert hdb hups ?_ rfl
    obtain ⟨i, hi, -, s, hs, rfl⟩ := bindAccessRole_cases hstep
    obtain rfl := Option.some.inj hi
    exact ((bound_of_bindAccessRole hs).2.2 table _).mpr (.inl ⟨rfl, rfl⟩)
  have htable := hups'.confined table _ hdirect
  have hgone := ((mem_perform_unbindAccessRole hups'.coherent htable).mp hb).2
  exact hgone ⟨_, hdirect, rfl, rfl, rfl, rfl, href.symm⟩

/-- Every inherited binding has a direct one, at the origin of its ref. -/
def Revocable (db : Database) : Prop :=
  ∀ t, ∀ b ∈ (db.access.bindings t).rows, b.inheritance ≠ 0 →
    ∃ r ∈ db.access.refs, r.id = b.ref ∧ ∃ d ∈ (db.access.bindings r.origin).rows,
      d.id = r.originId ∧ d.inheritance = 0 ∧ d.ref = b.ref

/-- Rows are deleted together with those that hold what they inherited from them. -/
def TakesHeirs (db : Database) : Command → Prop
  | .deleteRows doomed =>
      ∀ t, ∀ b ∈ (db.access.bindings t).rows, b.inheritance ≠ 0 →
        ∀ u, ∀ d ∈ (db.access.bindings u).rows, d.inheritance = 0 → d.ref = b.ref →
          (u, d.id) ∈ doomed → (t, b.id) ∈ doomed
  | _ => True

section Heirs

variable {db : Database}

theorem revocable_iff (h : Coherent db.access) :
    Revocable db ↔ ∀ t, ∀ b ∈ (db.access.bindings t).rows, b.inheritance ≠ 0 →
      ∃ u, ∃ d ∈ (db.access.bindings u).rows, d.inheritance = 0 ∧ d.ref = b.ref := by
  constructor
  · intro hrev t b hb hinh
    obtain ⟨r, -, -, d, hd, -, hdirect, href⟩ := hrev t b hb hinh
    exact ⟨r.origin, d, hd, hdirect, href⟩
  · intro hrev t b hb hinh
    obtain ⟨u, d, hd, hdirect, href⟩ := hrev t b hb hinh
    exact ⟨_, h.origin u d hd hdirect, href, d, hd, rfl, hdirect, href⟩

theorem direct_of_effect (hcat : Catalogued db) {c : Command} {s' : PropagationRuns.State}
    (heffect : Effect db c s') (hc : ∀ doomed, c ≠ .deleteRows doomed)
    (hrev : ∀ t, ∀ b ∈ (db.access.bindings t).rows, b.inheritance ≠ 0 →
      ∃ u, ∃ d ∈ (db.access.bindings u).rows, d.inheritance = 0 ∧ d.ref = b.ref) :
    ∀ t, ∀ b ∈ (s'.bindings t).rows, b.inheritance ≠ 0 →
      ∃ u, ∃ d ∈ (s'.bindings u).rows, d.inheritance = 0 ∧ d.ref = b.ref := by
  intro t b hb hinh
  cases heffect with
  | same => exact hrev t b hb hinh
  | drawn => exact hrev t b hb hinh
  | uninherited src dst gone hzero =>
      obtain ⟨u, d, hd, hdirect, href⟩ := hrev t b (List.mem_of_mem_filter hb) hinh
      have hkept : d.inheritance ∉ gone := hdirect ▸ hzero
      exact ⟨u, d, List.mem_filter.mpr ⟨hd, decide_eq_true hkept⟩, hdirect, href⟩
  | deleted doomed => exact absurd rfl (hc doomed)
  | bound table role principal id now s htable hs =>
      have hmem := (bound_of_bindAccessRole hs).2.2
      rcases (hmem t b).mp hb with ⟨-, rfl⟩ | hb
      · exact absurd rfl hinh
      · obtain ⟨u, d, hd, hdirect, href⟩ := hrev t b hb hinh
        exact ⟨u, d, (hmem u d).mpr (.inr hd), hdirect, href⟩
  | unbound table role principal id =>
      obtain ⟨hb, hkept⟩ := List.mem_filter.mp hb
      obtain ⟨u, d, hd, hdirect, href⟩ := hrev t b hb hinh
      exact ⟨u, d, List.mem_filter.mpr ⟨hd, href ▸ hkept⟩, hdirect, href⟩
  | propagated _ _ table new bs htable hbs =>
      have hmem := fun {d : Binding} (hdirect : d.inheritance = 0) u =>
        mem_of_direct hbs (hcat.id_ne_zero htable) hdirect u
      obtain ⟨u, o, ho, hgrant⟩ := grant_of_mem_inheritAll hbs hb
      have href : o.ref = b.ref := congrArg (fun g => g.2.2) hgrant
      by_cases hdirect : o.inheritance = 0
      · exact ⟨u, o, (hmem hdirect u).mpr ho, hdirect, href⟩
      · obtain ⟨v, d, hd, hdirect, hdref⟩ := hrev u o ho hdirect
        exact ⟨v, d, (hmem hdirect v).mpr hd, hdirect, hdref.trans href⟩

theorem revocable_deleteRows (h : Invariant db) (hrev : Revocable db)
    (doomed : List (String × Int)) :
    Revocable (deleteRows doomed db) ↔ TakesHeirs db (.deleteRows doomed) := by
  have hafter : Invariant (deleteRows doomed db) := h.step (c := .deleteRows doomed) rfl
  rw [revocable_iff hafter.coherent]
  rw [revocable_iff h.coherent] at hrev
  constructor
  · intro hdirect t b hb hinh u d hd hzero href hdoomed
    by_contra hspared
    obtain ⟨v, d', hd', hzero', href'⟩ :=
      hdirect t b (List.mem_filter.mpr ⟨hb, decide_eq_true hspared⟩) hinh
    obtain ⟨hd', hspared'⟩ := List.mem_filter.mp hd'
    -- there is only one direct binding with the ref, and it is gone
    obtain ⟨rfl, rfl⟩ := h.coherent.eq_of_direct hd hd' (href.trans href'.symm) hzero hzero'
    exact of_decide_eq_true hspared' hdoomed
  · intro htakes t b hb hinh
    obtain ⟨hb, hspared⟩ := List.mem_filter.mp hb
    obtain ⟨u, d, hd, hzero, href⟩ := hrev t b hb hinh
    refine ⟨u, d, List.mem_filter.mpr ⟨hd, decide_eq_true fun hdoomed => ?_⟩, hzero, href⟩
    exact of_decide_eq_true hspared (htakes t b hb hinh u d hd hzero href hdoomed)

theorem revocable_perform (h : Invariant db) (hrev : Revocable db) (c : Command) :
    Revocable (perform db c) ↔ TakesHeirs db c := by
  by_cases hc : ∃ doomed, c = .deleteRows doomed
  · obtain ⟨doomed, rfl⟩ := hc
    exact revocable_deleteRows h hrev doomed
  · refine iff_of_true ?_ ?_
    · rw [perform]
      split
      · rename_i db' hstep
        rw [revocable_iff (h.step hstep).coherent]
        exact direct_of_effect h.catalogued (effects_of_step hstep).1
          (fun doomed heq => hc ⟨doomed, heq⟩) ((revocable_iff h.coherent).mp hrev)
      · exact hrev
    · cases c with
      | deleteRows doomed => exact absurd ⟨doomed, rfl⟩ hc
      | _ => trivial

theorem exists_unbind (h : Invariant db) (hrev : Revocable db) {t : String} {b : Binding}
    (hb : b ∈ (db.access.bindings t).rows) (hinh : b.inheritance ≠ 0) :
    ∃ table role principal id, b ∉ ((perform db
      (.unbindAccessRole table role principal (some id))).access.bindings t).rows := by
  obtain ⟨r, -, -, d, hd, -, hdirect, href⟩ := hrev t b hb hinh
  refine ⟨r.origin, d.role, d.principal, d.id, fun hmem => ?_⟩
  rw [mem_perform_unbindAccessRole h.coherent (h.confined r.origin d hd)] at hmem
  exact hmem.2 ⟨d, hd, hdirect, rfl, rfl, rfl, href⟩

end Heirs

theorem revocable_initial : Revocable Database.initial :=
  fun _ _ hb => absurd hb List.not_mem_nil

theorem revocable_iff_takesHeirs (cs : List Command) :
    Runs.Always perform Database.initial Revocable cs ↔
      Runs.AtEachStep perform Database.initial TakesHeirs cs :=
  Runs.always_iff_atEachStep .initial (fun _ c h => h.perform c) revocable_initial
    (fun _ c h hrev => revocable_perform h hrev c) cs

/-- A document inherits from its folder, and the folder is deleted. -/
def orphanRun : List Command :=
  [.createAccessRole "viewer", .enableAccessControl "folders", .enableAccessControl "documents",
    .createAccessInheritance "folders" "documents" "SELECT id FROM folders WHERE id = $1.folder_id",
    .insertRow "folders" ⟨1, 1, fun _ => some []⟩,
    .bindAccessRole "folders" "viewer" "tom" (some 1) 2,
    .insertRow "documents" ⟨7, 3, fun _ => some [1]⟩, .deleteRows [("folders", 1)]]

theorem not_revocable_orphan : ¬ Runs.Always perform Database.initial Revocable orphanRun := by
  intro h
  have hrev : Revocable (run orphanRun) := h orphanRun [] rfl
  have hinherited : (⟨7, "viewer", "tom", 1, 1, 3⟩ : Binding) ∈
      ((run orphanRun).access.bindings "documents").rows := by decide +kernel
  obtain ⟨r, hr, -, d, hd, -⟩ := hrev "documents" _ hinherited (by decide)
  have hrefs : (run orphanRun).access.refs = [⟨1, "folders", 1⟩] := by decide +kernel
  obtain rfl := List.mem_singleton.mp (hrefs ▸ hr)
  have hfolders : ((run orphanRun).access.bindings "folders").rows = [] := by decide +kernel
  rw [hfolders] at hd
  exact List.not_mem_nil hd

end PgFort.Revocation
