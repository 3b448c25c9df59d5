import PgFort.BindingHistories

namespace PgFort.ReferentialIntegrity

open PgFort.KeyedRows
open PgFort.Bindings
open PgFort.Propagation
open PgFort.PropagationRuns (BindingRef unbound)
open PgFort.BindingHistories

/-- The foreign keys of a row in the bindings table of `t`. -/
structure Refers (db : Database) (t : String) (b : Binding) : Prop where
  row : b.id ∈ db.rows t
  role : b.role ∈ db.roles
  ref : ∃ r ∈ db.access.refs, r.id = b.ref
  inheritance : ∃ i ∈ db.inheritances.rows, i.id = b.inheritance

instance (db : Database) (t : String) (b : Binding) : Decidable (Refers db t b) :=
  decidable_of_iff
    (b.id ∈ db.rows t ∧ b.role ∈ db.roles ∧ (∃ r ∈ db.access.refs, r.id = b.ref) ∧
      ∃ i ∈ db.inheritances.rows, i.id = b.inheritance)
    ⟨fun ⟨row, role, ref, inheritance⟩ => ⟨row, role, ref, inheritance⟩,
      fun ⟨row, role, ref, inheritance⟩ => ⟨row, role, ref, inheritance⟩⟩

/-- A step with the checks of the foreign keys that the database makes when a statement ends. -/
def checkedStep (db : Database) (c : Command) : Except Refusal Database := do
  let db' ← step db c
  if ∀ t ∈ db'.controlled, ∀ b ∈ (db'.access.bindings t).rows, Refers db' t b then return db'
  else .error .foreignKeyViolation

structure Intact (db : Database) : Prop where
  refers : ∀ t, ∀ b ∈ (db.access.bindings t).rows, Refers db t b
  /-- An inherited binding is where its inheritance leads. -/
  dst : ∀ t, ∀ b ∈ (db.access.bindings t).rows, b.inheritance ≠ 0 →
    ∃ i ∈ db.inheritances.rows, i.id = b.inheritance ∧ i.dst = t
  rows : ∀ t, (db.rows t).Nodup
  roles : db.roles.Nodup
  drawn : ∀ i ∈ db.inheritances.rows, i.id < db.nextInheritance
  self : ∃ i ∈ db.inheritances.rows, i.id = 0

theorem Refers.mono {db db' : Database} {t : String} {b : Binding} (h : Refers db t b)
    (hrows : ∀ id ∈ db.rows t, id ∈ db'.rows t) (hroles : ∀ r ∈ db.roles, r ∈ db'.roles)
    (hrefs : ∀ r ∈ db.access.refs, r ∈ db'.access.refs)
    (hinhs : ∀ i ∈ db.inheritances.rows, i ∈ db'.inheritances.rows) : Refers db' t b := by
  obtain ⟨r, hr, href⟩ := h.ref
  obtain ⟨i, hi, hinh⟩ := h.inheritance
  exact ⟨hrows _ h.row, hroles _ h.role, ⟨r, hrefs r hr, href⟩, ⟨i, hinhs i hi, hinh⟩⟩

namespace Intact

variable {db db' : Database}

theorem initial : Intact Database.initial where
  refers _ _ hb := absurd hb List.not_mem_nil
  dst _ _ hb := absurd hb List.not_mem_nil
  rows _ := List.nodup_nil
  roles := List.nodup_nil
  drawn := by decide
  self := by decide

theorem createAccessRole (h : Intact db) {name : String}
    (hok : BindingHistories.createAccessRole name db = .ok db') : Intact db' := by
  rw [BindingHistories.createAccessRole] at hok
  split at hok
  · simp at hok
  · rename_i hnew
    obtain rfl := Except.ok.inj hok
    refine ⟨fun t b hb => ?_, h.dst, h.rows, List.nodup_cons.mpr ⟨hnew, h.roles⟩, h.drawn, h.self⟩
    exact (h.refers t b hb).mono (fun _ => id) (fun _ => List.mem_cons_of_mem _) (fun _ => id)
      (fun _ => id)

theorem enableAccessControl (h : Intact db) {table : String}
    (hok : BindingHistories.enableAccessControl table db = .ok db') : Intact db' := by
  rw [BindingHistories.enableAccessControl] at hok
  split at hok
  · simp at hok
  · split at hok
    · simp at hok
    · obtain rfl := Except.ok.inj hok
      refine ⟨fun t b hb => ?_, h.dst, h.rows, h.roles, h.drawn, h.self⟩
      exact (h.refers t b hb).mono (fun _ => id) (fun _ => id) (fun _ => id) (fun _ => id)

theorem createAccessInheritance (h : Intact db) {src dst srcQuery : String}
    (hok : BindingHistories.createAccessInheritance src dst srcQuery db = .ok db') :
    Intact db' := by
  obtain ⟨inhs, hinsert, heq⟩ := KeyedTraversal.bind_eq_ok.mp hok
  obtain rfl := Except.ok.inj heq
  have hrows := rows_of_insert hinsert
  have hold : ∀ i ∈ db.inheritances.rows, i ∈ inhs.rows :=
    fun i hi => hrows ▸ List.mem_cons_of_mem _ hi
  refine ⟨fun t b hb => ?_, fun t b hb hinh => ?_, h.rows, h.roles, fun i hi => ?_, ?_⟩
  · exact (h.refers t b hb).mono (fun _ => id) (fun _ => id) (fun _ => id) hold
  · obtain ⟨i, hi, hid, hdst⟩ := h.dst t b hb hinh
    exact ⟨i, hold i hi, hid, hdst⟩
  · rcases List.mem_cons.mp (hrows ▸ hi : i ∈ _ :: db.inheritances.rows) with rfl | hi
    · exact Int.lt_succ _
    · exact (h.drawn i hi).trans (Int.lt_succ _)
  · obtain ⟨i, hi, hzero⟩ := h.self
    exact ⟨i, hold i hi, hzero⟩

theorem deleteAccessInheritance (h : Intact db) (src dst : String) :
    Intact (BindingHistories.deleteAccessInheritance src dst db) := by
  have hkept : ∀ {t : String} {b : Binding},
      b ∈ ((BindingHistories.deleteAccessInheritance src dst db).access.bindings t).rows →
        ∀ i ∈ db.inheritances.rows, i.id = b.inheritance →
          i ∈ (BindingHistories.deleteAccessInheritance src dst db).inheritances.rows := by
    intro t b hb i hi hid
    have hgone := of_decide_eq_true (List.mem_filter.mp hb).2
    refine List.mem_filter.mpr ⟨hi, ?_⟩
    cases hdeleted : isDeleted src dst i with
    | false => rfl
    | true =>
        exact absurd (List.mem_map.mpr ⟨i, List.mem_filter.mpr ⟨hi, hdeleted⟩, hid⟩) hgone
  refine ⟨fun t b hb => ?_, fun t b hb hinh => ?_, h.rows, h.roles,
    fun i hi => h.drawn i (List.mem_of_mem_filter hi), ?_⟩
  · have hrefers := h.refers t b (List.mem_of_mem_filter hb)
    obtain ⟨i, hi, hid⟩ := hrefers.inheritance
    exact ⟨hrefers.row, hrefers.role, hrefers.ref, i, hkept hb i hi hid, hid⟩
  · obtain ⟨i, hi, hid, hdst⟩ := h.dst t b (List.mem_of_mem_filter hb) hinh
    exact ⟨i, hkept hb i hi hid, hid, hdst⟩
  · obtain ⟨i, hi, hzero⟩ := h.self
    exact ⟨i, List.mem_filter.mpr ⟨hi, by simp [isDeleted, hzero]⟩, hzero⟩

theorem bindAccessRole (h : Intact db) {table role principal : String} {origin : Option Int}
    {now : Int}
    (hok : BindingHistories.bindAccessRole table role principal origin now db = .ok db') :
    Intact db' := by
  simp only [BindingHistories.bindAccessRole] at hok
  split at hok
  · simp at hok
  · cases origin with
    | none => simp at hok
    | some origin =>
        simp only at hok
        split at hok
        · simp at hok
        · rename_i hchecks
          obtain ⟨hrow, hrole⟩ := not_or.mp hchecks
          obtain ⟨s, hs, heq⟩ := KeyedTraversal.bind_eq_ok.mp hok
          obtain rfl := Except.ok.inj heq
          obtain ⟨hrefs, -, hmem⟩ := bound_of_bindAccessRole (mapError_eq_ok.mp hs)
          have hold : ∀ r ∈ db.access.refs, r ∈ s.refs :=
            fun r hr => hrefs ▸ List.mem_cons_of_mem _ hr
          refine ⟨fun t b hb => ?_, fun t b hb hinh => ?_, h.rows, h.roles, h.drawn, h.self⟩
          · rcases (hmem t b).mp hb with ⟨rfl, rfl⟩ | hb
            · exact ⟨not_not.mp hrow, not_not.mp hrole,
                ⟨_, hrefs ▸ List.mem_cons_self, rfl⟩, h.self⟩
            · exact (h.refers t b hb).mono (fun _ => id) (fun _ => id) hold
                (fun _ => id)
          · rcases (hmem t b).mp hb with ⟨-, rfl⟩ | hb
            · exact absurd rfl hinh
            · exact h.dst t b hb hinh

theorem unbindAccessRole (h : Intact db) {table role principal : String} {id : Option Int}
    (hok : BindingHistories.unbindAccessRole table role principal id db = .ok db') :
    Intact db' := by
  simp only [BindingHistories.unbindAccessRole] at hok
  split at hok
  · simp at hok
  · cases id with
    | none => exact Except.ok.inj hok ▸ h
    | some id =>
        obtain rfl := Except.ok.inj hok
        refine ⟨fun t b hb => ?_, fun t b hb => h.dst t b (List.mem_of_mem_filter hb), h.rows,
          h.roles, h.drawn, h.self⟩
        obtain ⟨hb, hkept⟩ := List.mem_filter.mp hb
        have hrefers := h.refers t b hb
        obtain ⟨r, hr, href⟩ := hrefers.ref
        exact ⟨hrefers.row, hrefers.role, ⟨r, List.mem_filter.mpr ⟨hr, href ▸ hkept⟩, href⟩,
          hrefers.inheritance⟩

theorem withRows (h : Intact db) {rows : String → List Int} (hnodup : ∀ t, (rows t).Nodup)
    (hrows : ∀ t, ∀ b ∈ (db.access.bindings t).rows, b.id ∈ rows t) :
    Intact { db with rows } := by
  refine ⟨fun t b hb => ?_, h.dst, hnodup, h.roles, h.drawn, h.self⟩
  have hrefers := h.refers t b hb
  exact ⟨hrows t b hb, hrefers.role, hrefers.ref, hrefers.inheritance⟩

theorem fireTrigger (h : Intact db) {table : String} {new : NewRow}
    (hnew : new.id ∈ db.rows table)
    (hok : BindingHistories.fireTrigger table new db = .ok db') : Intact db' := by
  rcases fireTrigger_cases hok with rfl | ⟨-, bs, hbs, rfl⟩
  · exact h
  · have hfollowed : ∀ i ∈ db.inheritances.rows.filter fun i => i.dst = table,
        i ∈ db.inheritances.rows ∧ i.dst = table := fun i hi => mem_filter_dst.mp hi
    have hrefers : ∀ t, ∀ b ∈ (bs t).rows, Refers db t b := by
      refine forall_mem_inheritAll (fun t b hb => ⟨hb.row, hb.role, hb.ref, hb.inheritance⟩)
        (fun i hi b _ hb => ?_) h.refers hbs
      obtain ⟨hi, hdst⟩ := hfollowed i hi
      exact ⟨hdst ▸ hnew, hb.role, hb.ref, i, hi, rfl⟩
    have hdst : ∀ t, ∀ b ∈ (bs t).rows, b.inheritance ≠ 0 →
        ∃ i ∈ db.inheritances.rows, i.id = b.inheritance ∧ i.dst = t := by
      refine forall_mem_inheritAll (P := fun t b => b.inheritance ≠ 0 →
        ∃ i ∈ db.inheritances.rows, i.id = b.inheritance ∧ i.dst = t) (fun _ _ hb => hb)
        (fun i hi b _ _ _ => ?_) h.dst hbs
      exact ⟨i, (hfollowed i hi).1, rfl, rfl⟩
    refine ⟨fun t b hb => ?_, hdst, h.rows, h.roles, h.drawn, h.self⟩
    have hb := hrefers t b hb
    exact ⟨hb.row, hb.role, hb.ref, hb.inheritance⟩

theorem insertRow (h : Intact db) {table : String} {new : NewRow}
    (hok : BindingHistories.insertRow table new db = .ok db') : Intact db' := by
  rw [BindingHistories.insertRow] at hok
  split at hok
  · simp at hok
  · rename_i hfresh
    refine (h.withRows (fun t => ?_) fun t b hb => ?_).fireTrigger ?_ hok
    · by_cases ht : t = table
      · subst ht
        rw [Function.update_self]
        exact List.nodup_cons.mpr ⟨hfresh, h.rows t⟩
      · rw [Function.update_of_ne ht]
        exact h.rows t
    · have hrow := (h.refers t b hb).row
      by_cases ht : t = table
      · subst ht
        rw [Function.update_self]
        exact List.mem_cons_of_mem _ hrow
      · rwa [Function.update_of_ne ht]
    · show new.id ∈ Function.update db.rows table _ table
      rw [Function.update_self]
      exact List.mem_cons_self

theorem updateRow (h : Intact db) {table : String} {old : Int} {new : NewRow}
    (hok : BindingHistories.updateRow table old new db = .ok db') : Intact db' := by
  rw [BindingHistories.updateRow] at hok
  split at hok
  · exact Except.ok.inj hok ▸ h
  · rename_i hold
    split at hok
    · rename_i hsame
      exact h.fireTrigger (hsame ▸ not_not.mp hold) hok
    · split at hok
      · simp at hok
      · rename_i hfresh
        split at hok
        · simp at hok
        · rename_i hunbound
          refine (h.withRows (fun t => ?_) fun t b hb => ?_).fireTrigger ?_ hok
          · by_cases ht : t = table
            · subst ht
              rw [Function.update_self]
              exact List.nodup_cons.mpr
                ⟨fun hnew => hfresh (List.mem_of_mem_erase hnew), (h.rows t).erase old⟩
            · rw [Function.update_of_ne ht]
              exact h.rows t
          · have hrow := (h.refers t b hb).row
            by_cases ht : t = table
            · subst ht
              have hne : b.id ≠ old := fun hid => hunbound ⟨b, hb, hid⟩
              rw [Function.update_self]
              exact List.mem_cons_of_mem _ ((List.mem_erase_of_ne hne).mpr hrow)
            · rwa [Function.update_of_ne ht]
          · show new.id ∈ Function.update db.rows table _ table
            rw [Function.update_self]
            exact List.mem_cons_self

theorem deleteRows (h : Intact db) (doomed : List (String × Int)) :
    Intact (BindingHistories.deleteRows doomed db) := by
  refine ⟨fun t b hb => ?_, fun t b hb => h.dst t b (List.mem_of_mem_filter hb),
    fun t => (h.rows t).filter _, h.roles, h.drawn, h.self⟩
  obtain ⟨hb, hkept⟩ := List.mem_filter.mp hb
  have hrefers := h.refers t b hb
  exact ⟨List.mem_filter.mpr ⟨hrefers.row, hkept⟩, hrefers.role, hrefers.ref, hrefers.inheritance⟩

theorem step (h : Intact db) {c : Command} (hok : BindingHistories.step db c = .ok db') :
    Intact db' := by
  cases c with
  | createAccessRole name => exact h.createAccessRole hok
  | enableAccessControl table => exact h.enableAccessControl hok
  | createAccessInheritance src dst srcQuery => exact h.createAccessInheritance hok
  | deleteAccessInheritance src dst => exact Except.ok.inj hok ▸ h.deleteAccessInheritance src dst
  | bindAccessRole table role principal id now => exact h.bindAccessRole hok
  | unbindAccessRole table role principal id => exact h.unbindAccessRole hok
  | insertRow table new => exact h.insertRow hok
  | updateRow table old new => exact h.updateRow hok
  | deleteRows doomed => exact Except.ok.inj hok ▸ h.deleteRows doomed
  | drawRef =>
      obtain rfl := Except.ok.inj hok
      refine ⟨fun t b hb => ?_, h.dst, h.rows, h.roles, h.drawn, h.self⟩
      exact (h.refers t b hb).mono (fun _ => id) (fun _ => id) (fun _ => id) (fun _ => id)

theorem perform (h : Intact db) (c : Command) : Intact (BindingHistories.perform db c) := by
  rw [BindingHistories.perform]
  split
  · rename_i db' hstep
    exact h.step hstep
  · exact h

end Intact

theorem intact_run (cs : List Command) : Intact (run cs) :=
  Runs.invariant_foldl (fun _ c h => h.perform c) .initial cs

/-- After the history the foreign keys hold, inherited bindings are where their inheritances
lead, no id is there twice or is drawn again, and of no command, with what its trigger inserts
and its deletions cascade, the checks of the foreign keys change the outcome. -/
structure NeverDangles (cs : List Command) : Prop where
  intact : Intact (run cs)
  unchecked : ∀ c, checkedStep (run cs) c = step (run cs) c

theorem neverDangles_run (cs : List Command) : NeverDangles cs := by
  refine ⟨intact_run cs, fun c => ?_⟩
  rw [checkedStep]
  cases hstep : step (run cs) c with
  | error e => rfl
  | ok db' => exact if_pos fun t _ b hb => ((intact_run cs).step hstep).refers t b hb

end PgFort.ReferentialIntegrity
