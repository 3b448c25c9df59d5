import PgFort.KeyedTraversal
import PgFort.PropagationRuns
import PgFort.Runs

namespace PgFort.BindingHistories

open PgFort.KeyedRows
open PgFort.Bindings
open PgFort.Propagation
open PgFort.PropagationRuns

structure Database where
  access : PropagationRuns.State
  roles : List String
  /-- The ids of the rows of each table. -/
  rows : String → List Int
  /-- The tables with a bindings table and a trigger. -/
  controlled : List String
  inheritances : Inheritances
  /-- The sequence behind the ids of the inheritances. -/
  nextInheritance : Int

/-- Tables of the proxy, whose key is `_id`. -/
def accessTables : List String :=
  ["__access_permissions__", "__access_roles__", "__access_roles_denorm__",
    "__access_binding_refs__", "__access_inheritances__"]

/-- The migration enters the inheritance 0, which direct bindings refer to. -/
def Database.initial : Database where
  access := State.initial
  roles := []
  rows _ := []
  controlled := []
  inheritances :=
    { rows := [⟨0, "__access_inheritances__", "__access_inheritances__", ""⟩]
      primaryKey := List.nodup_singleton _
      unique := List.nodup_singleton _ }
  nextInheritance := 1

/-- What the sub-select of a command yields is `none` when it finds no row. -/
inductive Command where
  | createAccessRole (name : String)
  | enableAccessControl (table : String)
  | createAccessInheritance (src dst srcQuery : String)
  | deleteAccessInheritance (src dst : String)
  | bindAccessRole (table role principal : String) (id : Option Int) (now : Int)
  | unbindAccessRole (table role principal : String) (id : Option Int)
  | insertRow (table : String) (new : NewRow)
  | updateRow (table : String) (old : Int) (new : NewRow)
  /-- One statement may delete rows of several tables, by foreign keys between them. -/
  | deleteRows (doomed : List (String × Int))
  /-- A statement that drew a ref from the sequence and failed. -/
  | drawRef

inductive Refusal where
  | uniqueViolation
  | foreignKeyViolation
  | notNullViolation
  | ofTrigger (e : TriggerError)
  | undefinedTable
  | undefinedColumn
  | duplicateTable
  deriving DecidableEq, Repr

/-- CREATE ACCESS ROLE, as far as the bindings are concerned: its name is new. -/
def createAccessRole (name : String) (db : Database) : Except Refusal Database :=
  if name ∈ db.roles then .error .uniqueViolation
  else .ok { db with roles := name :: db.roles }

/-- The bindings table refers to the column `id` of the table. -/
def enableAccessControl (table : String) (db : Database) : Except Refusal Database :=
  if table ∈ accessTables then .error .undefinedColumn
  else if table ∈ db.controlled then .error .duplicateTable
  else .ok { db with controlled := table :: db.controlled }

/-- A row more in `__access_inheritances__`, under its primary key and `UNIQUE (_src, _dst)`. -/
def Inheritances.insert (i : Inheritance) (inhs : Inheritances) : Except Refusal Inheritances :=
  if h : i.id ∉ inhs.rows.map Inheritance.id ∧
      (i.src, i.dst) ∉ inhs.rows.map fun i => (i.src, i.dst) then
    .ok
      { rows := i :: inhs.rows
        primaryKey := List.nodup_cons.mpr ⟨h.1, inhs.primaryKey⟩
        unique := List.nodup_cons.mpr ⟨h.2, inhs.unique⟩ }
  else .error .uniqueViolation

/-- `DELETE FROM __access_inheritances__`. -/
def Inheritances.filter (p : Inheritance → Bool) (inhs : Inheritances) : Inheritances where
  rows := inhs.rows.filter p
  primaryKey := inhs.primaryKey.sublist (List.filter_sublist.map _)
  unique := inhs.unique.sublist (List.filter_sublist.map _)

/-- The statement that CREATE ACCESS INHERITANCE is translated to. -/
def createAccessInheritance (src dst srcQuery : String) (db : Database) :
    Except Refusal Database := do
  let inheritances ←
    Inheritances.insert ⟨db.nextInheritance, src, dst, srcQuery⟩ db.inheritances
  return { db with inheritances, nextInheritance := db.nextInheritance + 1 }

/-- `DELETE` from bindings tables. -/
def filterBindings (p : String → Binding → Bool) (s : PropagationRuns.State) :
    PropagationRuns.State :=
  { s with bindings := fun t =>
      { rows := (s.bindings t).rows.filter (p t)
        keys := (s.bindings t).keys.sublist (List.filter_sublist.map _) } }

/-- A rule protects the inheritance 0. -/
def isDeleted (src dst : String) (i : Inheritance) : Bool :=
  i.src == src && i.dst == dst && i.id != 0

/-- `DELETE` of an inheritance, which cascades to the bindings that hold its id. -/
def deleteAccessInheritance (src dst : String) (db : Database) : Database :=
  let gone := (db.inheritances.rows.filter (isDeleted src dst)).map Inheritance.id
  { db with
    inheritances := Inheritances.filter (fun i => !isDeleted src dst i) db.inheritances
    access := filterBindings (fun _ b => decide (b.inheritance ∉ gone)) db.access }

def ofFailure : Failure → Refusal
  | .uniqueViolation => .uniqueViolation
  | .ofTrigger e => .ofTrigger e

/-- The statements that BIND ACCESS ROLE is translated to: a ref of its own, and a row of the
bindings table that holds it. -/
def bindAccessRole (table role principal : String) (id : Option Int) (now : Int)
    (db : Database) : Except Refusal Database :=
  if table ∉ db.controlled then .error .undefinedTable
  else
    match id with
    | none => .error .notNullViolation
    | some id =>
        if id ∉ db.rows table ∨ role ∉ db.roles then .error .foreignKeyViolation
        else do
          let access ←
            (PropagationRuns.bindAccessRole table role principal id now db.access).mapError ofFailure
          return { db with access }

/-- Nothing equals NULL. -/
def unbindAccessRole (table role principal : String) (id : Option Int) (db : Database) :
    Except Refusal Database :=
  if table ∉ db.controlled then .error .undefinedTable
  else
    match id with
    | none => .ok db
    | some id =>
        .ok { db with access := PropagationRuns.unbindAccessRole table role principal id db.access }

/-- The trigger of a table, if it has one. -/
def fireTrigger (table : String) (new : NewRow) (db : Database) : Except Refusal Database :=
  if table ∉ db.controlled then .ok db
  else if ∃ i ∈ db.inheritances.rows, i.dst = table ∧ i.src ∉ db.controlled then
    .error .undefinedTable
  else do
    let access ← (PropagationRuns.upsertRow db.inheritances table new db.access).mapError ofFailure
    return { db with access }

/-- `INSERT` of a row into a table, and its trigger. -/
def insertRow (table : String) (new : NewRow) (db : Database) : Except Refusal Database :=
  if new.id ∈ db.rows table then .error .uniqueViolation
  else
    fireTrigger table new
      { db with rows := Function.update db.rows table (new.id :: db.rows table) }

/-- An id to which bindings refer does not change. -/
def updateRow (table : String) (old : Int) (new : NewRow) (db : Database) :
    Except Refusal Database :=
  if old ∉ db.rows table then .ok db
  else if new.id = old then fireTrigger table new db
  else if new.id ∈ db.rows table then .error .uniqueViolation
  else if ∃ b ∈ (db.access.bindings table).rows, b.id = old then .error .foreignKeyViolation
  else
    fireTrigger table new
      { db with rows := Function.update db.rows table (new.id :: (db.rows table).erase old) }

/-- The deletion of rows cascades to their bindings. -/
def deleteRows (doomed : List (String × Int)) (db : Database) : Database where
  access := filterBindings (fun t b => decide ((t, b.id) ∉ doomed)) db.access
  roles := db.roles
  rows t := (db.rows t).filter fun id => decide ((t, id) ∉ doomed)
  controlled := db.controlled
  inheritances := db.inheritances
  nextInheritance := db.nextInheritance

/-- What a command does to the database, or why it is refused. -/
def step (db : Database) : Command → Except Refusal Database
  | .createAccessRole name => createAccessRole name db
  | .enableAccessControl table => enableAccessControl table db
  | .createAccessInheritance src dst srcQuery => createAccessInheritance src dst srcQuery db
  | .deleteAccessInheritance src dst => .ok (deleteAccessInheritance src dst db)
  | .bindAccessRole table role principal id now => bindAccessRole table role principal id now db
  | .unbindAccessRole table role principal id => unbindAccessRole table role principal id db
  | .insertRow table new => insertRow table new db
  | .updateRow table old new => updateRow table old new db
  | .deleteRows doomed => .ok (deleteRows doomed db)
  | .drawRef => .ok { db with access := { db.access with nextRef := db.access.nextRef + 1 } }

/-- A command that is refused changes nothing. -/
def perform (db : Database) (c : Command) : Database :=
  match step db c with
  | .ok db' => db'
  | .error _ => db

def run (cs : List Command) : Database :=
  cs.foldl perform Database.initial

/-- The commands that fire the trigger. -/
def Command.IsUpsert : Command → Prop
  | .insertRow _ _ | .updateRow _ _ _ => True
  | _ => False

/-- What a command does to the binding tables and their refs. -/
inductive Effect (db : Database) : Command → PropagationRuns.State → Prop where
  | same (c : Command) : Effect db c db.access
  | drawn : Effect db .drawRef { db.access with nextRef := db.access.nextRef + 1 }
  | uninherited (src dst : String) (gone : List Int) (hzero : 0 ∉ gone) :
      Effect db (.deleteAccessInheritance src dst)
        (filterBindings (fun _ b => decide (b.inheritance ∉ gone)) db.access)
  | deleted (doomed : List (String × Int)) :
      Effect db (.deleteRows doomed)
        (filterBindings (fun t b => decide ((t, b.id) ∉ doomed)) db.access)
  | bound (table role principal : String) (id now : Int) (s : PropagationRuns.State)
      (htable : table ∈ db.controlled)
      (hs : PropagationRuns.bindAccessRole table role principal id now db.access = .ok s) :
      Effect db (.bindAccessRole table role principal (some id) now) s
  | unbound (table role principal : String) (id : Int) :
      Effect db (.unbindAccessRole table role principal (some id))
        (PropagationRuns.unbindAccessRole table role principal id db.access)
  | propagated (c : Command) (hc : c.IsUpsert) (table : String) (new : NewRow)
      (bs : BindingTables) (htable : table ∈ db.controlled)
      (hbs : setAccessBindings db.inheritances table new db.access.bindings = .ok bs) :
      Effect db c { db.access with bindings := bs }

/-- What a command does to the tables under control and to the inheritances. -/
inductive CatalogEffect (db : Database) : Database → Prop where
  | same (access : PropagationRuns.State) (roles : List String) (rows : String → List Int) :
      CatalogEffect db { db with access, roles, rows }
  | enabled (table : String) (htable : table ∉ accessTables) :
      CatalogEffect db { db with controlled := table :: db.controlled }
  | inheritanceCreated (src dst srcQuery : String) (inheritances : Inheritances)
      (hrows : inheritances.rows =
        ⟨db.nextInheritance, src, dst, srcQuery⟩ :: db.inheritances.rows) :
      CatalogEffect db
        { db with inheritances, nextInheritance := db.nextInheritance + 1 }
  | inheritanceDeleted (access : PropagationRuns.State) (p : Inheritance → Bool) :
      CatalogEffect db
        { db with access, inheritances := Inheritances.filter p db.inheritances }

section Step

variable {db db' : Database} {c : Command}

theorem mapError_eq_ok {α ε ε' : Type} {f : ε → ε'} {x : Except ε α} {a : α} :
    x.mapError f = .ok a ↔ x = .ok a := by
  cases x <;> simp [Except.mapError]

theorem rows_of_insert {i : Inheritance} {inhs inhs' : Inheritances}
    (h : Inheritances.insert i inhs = .ok inhs') : inhs'.rows = i :: inhs.rows := by
  rw [Inheritances.insert] at h
  split at h
  · rw [← Except.ok.inj h]
  · simp at h

theorem fireTrigger_cases {table : String} {new : NewRow}
    (h : fireTrigger table new db = .ok db') :
    db' = db ∨ table ∈ db.controlled ∧
      ∃ bs, setAccessBindings db.inheritances table new db.access.bindings = .ok bs ∧
        db' = { db with access := { db.access with bindings := bs } } := by
  rw [fireTrigger] at h
  split at h
  · exact .inl (Except.ok.inj h).symm
  · rename_i htable
    split at h
    · simp at h
    · obtain ⟨s, hs, heq⟩ := KeyedTraversal.bind_eq_ok.mp h
      rw [mapError_eq_ok, upsertRow] at hs
      split at hs
      · rename_i bs hbs
        obtain rfl := Except.ok.inj hs
        exact .inr ⟨not_not.mp htable, bs, hbs, (Except.ok.inj heq).symm⟩
      · simp at hs

theorem effects_of_fireTrigger {table : String} {new : NewRow} (rows : String → List Int)
    (hc : c.IsUpsert) (h : fireTrigger table new { db with rows } = .ok db') :
    Effect db c db'.access ∧ CatalogEffect db db' := by
  rcases fireTrigger_cases h with rfl | ⟨htable, bs, hbs, rfl⟩
  · exact ⟨.same c, .same db.access db.roles rows⟩
  · exact ⟨.propagated c hc table new bs htable hbs, .same _ db.roles rows⟩

theorem bindAccessRole_cases {table role principal : String} {id : Option Int} {now : Int}
    (h : step db (.bindAccessRole table role principal id now) = .ok db') :
    ∃ i, id = some i ∧ table ∈ db.controlled ∧
      ∃ s, PropagationRuns.bindAccessRole table role principal i now db.access = .ok s ∧
        db' = { db with access := s } := by
  simp only [step, bindAccessRole] at h
  split at h
  · simp at h
  · rename_i htable
    cases id with
    | none => simp at h
    | some i =>
        simp only at h
        split at h
        · simp at h
        · obtain ⟨s, hs, heq⟩ := KeyedTraversal.bind_eq_ok.mp h
          exact ⟨i, rfl, not_not.mp htable, s, mapError_eq_ok.mp hs, (Except.ok.inj heq).symm⟩

/-- Every command is one of these effects on the bindings and one on the catalog. -/
theorem effects_of_step (h : step db c = .ok db') :
    Effect db c db'.access ∧ CatalogEffect db db' := by
  cases c with
  | createAccessRole name =>
      simp only [step, createAccessRole] at h
      split at h
      · simp at h
      · obtain rfl := Except.ok.inj h
        exact ⟨.same _, .same db.access _ db.rows⟩
  | enableAccessControl table =>
      simp only [step, enableAccessControl] at h
      split at h
      · simp at h
      · rename_i htable
        split at h
        · simp at h
        · obtain rfl := Except.ok.inj h
          exact ⟨.same _, .enabled table htable⟩
  | createAccessInheritance src dst srcQuery =>
      obtain ⟨inhs, hinsert, heq⟩ := KeyedTraversal.bind_eq_ok.mp h
      obtain rfl := Except.ok.inj heq
      exact ⟨.same _, .inheritanceCreated src dst srcQuery inhs (rows_of_insert hinsert)⟩
  | deleteAccessInheritance src dst =>
      obtain rfl := Except.ok.inj h
      refine ⟨.uninherited src dst _ fun hzero => ?_, .inheritanceDeleted _ _⟩
      obtain ⟨i, hi, hid⟩ := List.mem_map.mp hzero
      have hdeleted := (List.mem_filter.mp hi).2
      simp [isDeleted, hid] at hdeleted
  | bindAccessRole table role principal id now =>
      obtain ⟨id, rfl, htable, s, hs, rfl⟩ := bindAccessRole_cases h
      exact ⟨.bound table role principal id now s htable hs, .same s db.roles db.rows⟩
  | unbindAccessRole table role principal id =>
      simp only [step, unbindAccessRole] at h
      split at h
      · simp at h
      · cases id with
        | none =>
            obtain rfl := Except.ok.inj h
            exact ⟨.same _, .same db.access db.roles db.rows⟩
        | some id =>
            obtain rfl := Except.ok.inj h
            exact ⟨.unbound table role principal id, .same _ db.roles db.rows⟩
  | insertRow table new =>
      simp only [step, insertRow] at h
      split at h
      · simp at h
      · exact effects_of_fireTrigger _ trivial h
  | updateRow table old new =>
      simp only [step, updateRow] at h
      split at h
      · obtain rfl := Except.ok.inj h
        exact ⟨.same _, .same db.access db.roles db.rows⟩
      · split at h
        · exact effects_of_fireTrigger db.rows trivial h
        · split at h
          · simp at h
          · split at h
            · simp at h
            · exact effects_of_fireTrigger _ trivial h
  | deleteRows doomed =>
      obtain rfl := Except.ok.inj h
      exact ⟨.deleted doomed, .same _ db.roles _⟩
  | drawRef =>
      obtain rfl := Except.ok.inj h
      exact ⟨.drawn, .same _ db.roles db.rows⟩

end Step

/-- The inheritance 0 stays the only one of its id, and no trigger follows it. -/
structure Catalogued (db : Database) : Prop where
  drawn : 0 < db.nextInheritance
  unfollowed : ∀ i ∈ db.inheritances.rows, i.id = 0 → i.dst ∈ accessTables
  controlled : ∀ t ∈ db.controlled, t ∉ accessTables

theorem Catalogued.initial : Catalogued Database.initial where
  drawn := by decide
  unfollowed := by decide
  controlled := by decide

theorem Catalogued.step {db db' : Database} (h : Catalogued db) (heffect : CatalogEffect db db') :
    Catalogued db' := by
  cases heffect with
  | same access roles rows => exact ⟨h.drawn, h.unfollowed, h.controlled⟩
  | enabled table htable =>
      refine ⟨h.drawn, h.unfollowed, fun t ht => ?_⟩
      rcases List.mem_cons.mp ht with rfl | ht
      · exact htable
      · exact h.controlled t ht
  | inheritanceCreated src dst srcQuery inhs hrows =>
      have hdrawn := h.drawn
      refine ⟨show 0 < db.nextInheritance + 1 by omega, fun i hi hid => ?_, h.controlled⟩
      rcases List.mem_cons.mp (hrows ▸ hi : i ∈ _ :: db.inheritances.rows) with rfl | hi
      · exact absurd hid (show db.nextInheritance ≠ 0 by omega)
      · exact h.unfollowed i hi hid
  | inheritanceDeleted access p =>
      exact ⟨h.drawn, fun i hi => h.unfollowed i (List.mem_of_mem_filter hi), h.controlled⟩

theorem Catalogued.id_ne_zero {db : Database} (h : Catalogued db) {table : String}
    (htable : table ∈ db.controlled) :
    ∀ i ∈ db.inheritances.rows.filter fun i => i.dst = table, i.id ≠ 0 := by
  intro i hi hid
  obtain ⟨hi, hdst⟩ := mem_filter_dst.mp hi
  exact h.controlled table htable (hdst ▸ h.unfollowed i hi hid)

theorem mem_of_direct {inhs : Inheritances} {table : String} {new : NewRow}
    {bs bs' : BindingTables} (hok : setAccessBindings inhs table new bs = .ok bs')
    (hids : ∀ i ∈ inhs.rows.filter fun i => i.dst = table, i.id ≠ 0) {b : Binding}
    (hdirect : b.inheritance = 0) (t : String) : b ∈ (bs' t).rows ↔ b ∈ (bs t).rows :=
  mem_inheritAll_of_frame hok (fun _ i hi heq => hids i hi (heq.symm.trans hdirect)) t

/-- Every binding refers to a ref, which names the row of the direct binding if there is one,
and bindings with one ref grant the same. -/
structure Coherent (s : PropagationRuns.State) : Prop where
  distinct : (s.refs.map BindingRef.id).Nodup
  drawn : ∀ r ∈ s.refs, r.id < s.nextRef
  referenced : ∀ t, ∀ b ∈ (s.bindings t).rows, ∃ r ∈ s.refs, r.id = b.ref
  origin : ∀ t, ∀ b ∈ (s.bindings t).rows, b.inheritance = 0 → ⟨b.ref, t, b.id⟩ ∈ s.refs
  grants : ∀ t u, ∀ a ∈ (s.bindings t).rows, ∀ b ∈ (s.bindings u).rows, a.ref = b.ref →
    a.grant = b.grant

theorem bound_of_bindAccessRole {s s' : PropagationRuns.State} {table role principal : String}
    {id now : Int}
    (h : PropagationRuns.bindAccessRole table role principal id now s = .ok s') :
    s'.refs = ⟨s.nextRef, table, id⟩ :: s.refs ∧ s'.nextRef = s.nextRef + 1 ∧
      ∀ t b, b ∈ (s'.bindings t).rows ↔
        t = table ∧ b = ⟨id, role, principal, s.nextRef, 0, now⟩ ∨ b ∈ (s.bindings t).rows := by
  obtain ⟨rows, hrows, heq⟩ := KeyedTraversal.bind_eq_ok.mp h
  obtain rfl := Except.ok.inj heq
  rw [PropagationRuns.insertRow] at hrows
  split at hrows
  · simp at hrows
  · obtain rfl := Except.ok.inj hrows
    refine ⟨rfl, rfl, fun t b => ?_⟩
    by_cases ht : t = table
    · subst ht
      simp only [Function.update_self, List.mem_cons, true_and]
    · simp only [Function.update_of_ne ht, ht, false_and, false_or]

namespace Coherent

variable {s s' : PropagationRuns.State}

theorem initial : Coherent State.initial where
  distinct := List.nodup_nil
  drawn _ hr := absurd hr List.not_mem_nil
  referenced _ _ hb := absurd hb List.not_mem_nil
  origin _ _ hb := absurd hb List.not_mem_nil
  grants _ _ _ ha := absurd ha List.not_mem_nil

theorem ref_lt (h : Coherent s) {t : String} {b : Binding} (hb : b ∈ (s.bindings t).rows) :
    b.ref < s.nextRef := by
  obtain ⟨r, hr, hid⟩ := h.referenced t b hb
  rw [← hid]
  exact h.drawn r hr

theorem restrict (h : Coherent s) {p : BindingRef → Bool} {q : String → Binding → Bool}
    (hpq : ∀ t b r, q t b = true → r.id = b.ref → p r = true) :
    Coherent { filterBindings q s with refs := s.refs.filter p } where
  distinct := h.distinct.sublist (List.filter_sublist.map _)
  drawn r hr := h.drawn r (List.mem_of_mem_filter hr)
  referenced := by
    intro t b hb
    obtain ⟨hb, hq⟩ := List.mem_filter.mp hb
    obtain ⟨r, hr, hid⟩ := h.referenced t b hb
    exact ⟨r, List.mem_filter.mpr ⟨hr, hpq t b r hq hid⟩, hid⟩
  origin := by
    intro t b hb hdirect
    obtain ⟨hb, hq⟩ := List.mem_filter.mp hb
    exact List.mem_filter.mpr ⟨h.origin t b hb hdirect, hpq t b _ hq rfl⟩
  grants t u a ha b hb := h.grants t u a (List.mem_of_mem_filter ha) b (List.mem_of_mem_filter hb)

theorem filterBindings (h : Coherent s) (q : String → Binding → Bool) :
    Coherent (BindingHistories.filterBindings q s) := by
  have hall := h.restrict (p := fun _ => true) (q := q) fun _ _ _ _ _ => rfl
  rw [List.filter_true] at hall
  exact hall

theorem unbindAccessRole (h : Coherent s) (table role principal : String) (id : Int) :
    Coherent (PropagationRuns.unbindAccessRole table role principal id s) :=
  h.restrict fun _ _ _ hq hid => hid ▸ hq

theorem bindAccessRole (h : Coherent s) {table role principal : String} {id now : Int}
    (hs : PropagationRuns.bindAccessRole table role principal id now s = .ok s') :
    Coherent s' := by
  obtain ⟨hrefs, hnext, hmem⟩ := bound_of_bindAccessRole hs
  constructor
  · rw [hrefs, List.map_cons, List.nodup_cons]
    refine ⟨fun hnew => ?_, h.distinct⟩
    obtain ⟨r, hr, hid⟩ := List.mem_map.mp hnew
    exact absurd (h.drawn r hr) (by rw [hid]; exact lt_irrefl _)
  · rw [hrefs, hnext]
    intro r hr
    rcases List.mem_cons.mp hr with rfl | hr
    · exact Int.lt_succ s.nextRef
    · exact (h.drawn r hr).trans (Int.lt_succ _)
  · intro t b hb
    rw [hrefs]
    rcases (hmem t b).mp hb with ⟨-, rfl⟩ | hb
    · exact ⟨_, List.mem_cons_self, rfl⟩
    · obtain ⟨r, hr, hid⟩ := h.referenced t b hb
      exact ⟨r, List.mem_cons_of_mem _ hr, hid⟩
  · intro t b hb hdirect
    rw [hrefs]
    rcases (hmem t b).mp hb with ⟨rfl, rfl⟩ | hb
    · exact List.mem_cons_self
    · exact List.mem_cons_of_mem _ (h.origin t b hb hdirect)
  · intro t u a ha b hb href
    rcases (hmem t a).mp ha with ⟨-, rfl⟩ | ha <;> rcases (hmem u b).mp hb with ⟨-, rfl⟩ | hb
    · rfl
    · exact absurd (h.ref_lt hb) (href ▸ lt_irrefl _)
    · exact absurd (h.ref_lt ha) (href ▸ lt_irrefl _)
    · exact h.grants t u a ha b hb href

theorem grants_inheritAll (h : Coherent s) {new : NewRow}
    {is : List Inheritance} {bs : BindingTables} (hok : inheritAll new is s.bindings = .ok bs)
    {t u : String} {a b : Binding} (ha : a ∈ (bs t).rows) (hb : b ∈ (bs u).rows)
    (href : a.ref = b.ref) : a.grant = b.grant := by
  obtain ⟨t', a', ha', hagrant⟩ := grant_of_mem_inheritAll hok ha
  obtain ⟨u', b', hb', hbgrant⟩ := grant_of_mem_inheritAll hok hb
  have haref : a'.ref = a.ref := congrArg (fun g => g.2.2) hagrant
  have hbref : b'.ref = b.ref := congrArg (fun g => g.2.2) hbgrant
  rw [← hagrant, ← hbgrant]
  exact h.grants t' u' a' ha' b' hb' (haref.trans (href.trans hbref.symm))

theorem setAccessBindings (h : Coherent s) {inhs : Inheritances} {table : String} {new : NewRow}
    {bs : BindingTables}
    (hbs : Bindings.setAccessBindings inhs table new s.bindings = .ok bs)
    (hids : ∀ i ∈ inhs.rows.filter fun i => i.dst = table, i.id ≠ 0) :
    Coherent { s with bindings := bs } where
  distinct := h.distinct
  drawn := h.drawn
  referenced := by
    intro t b hb
    obtain ⟨u, o, ho, hgrant⟩ := grant_of_mem_inheritAll hbs hb
    have href : o.ref = b.ref := congrArg (fun g => g.2.2) hgrant
    rw [← href]
    exact h.referenced u o ho
  origin := by
    intro t b hb hdirect
    exact h.origin t b ((mem_of_direct hbs hids hdirect t).mp hb) hdirect
  grants := by
    intro t u a ha b hb href
    exact h.grants_inheritAll hbs ha hb href

theorem effect {db : Database} {c : Command} (h : Coherent db.access) (hdb : Catalogued db)
    (heffect : Effect db c s') : Coherent s' := by
  cases heffect with
  | same => exact h
  | drawn =>
      exact ⟨h.distinct, fun r hr => (h.drawn r hr).trans (Int.lt_succ _), h.referenced, h.origin,
        h.grants⟩
  | uninherited => exact h.filterBindings _
  | deleted => exact h.filterBindings _
  | bound table role principal id now s htable hs => exact h.bindAccessRole hs
  | unbound table role principal id => exact h.unbindAccessRole table role principal id
  | propagated _ _ table new bs htable hbs =>
      exact h.setAccessBindings hbs (hdb.id_ne_zero htable)

end Coherent

/-- Bindings are made only in tables under control. -/
def Confined (db : Database) : Prop :=
  ∀ t, ∀ b ∈ (db.access.bindings t).rows, t ∈ db.controlled

theorem mem_controlled_of_effect {db : Database} {c : Command} {s' : PropagationRuns.State}
    (h : Confined db) (heffect : Effect db c s') :
    ∀ t, ∀ b ∈ (s'.bindings t).rows, t ∈ db.controlled := by
  intro t b hb
  cases heffect with
  | same => exact h t b hb
  | drawn => exact h t b hb
  | uninherited => exact h t b (List.mem_of_mem_filter hb)
  | deleted => exact h t b (List.mem_of_mem_filter hb)
  | bound table role principal id now s htable hs =>
      rcases ((bound_of_bindAccessRole hs).2.2 t b).mp hb with ⟨rfl, -⟩ | hb
      · exact htable
      · exact h t b hb
  | unbound => exact h t b (List.mem_of_mem_filter hb)
  | propagated _ _ table new bs htable hbs =>
      by_cases ht : t = table
      · exact ht ▸ htable
      · have hsame : bs t = db.access.bindings t :=
          inheritAll_of_ne hbs (fun i hi => (mem_filter_dst.mp hi).2) ht
        exact h t b (hsame ▸ hb)

theorem CatalogEffect.mem_controlled {db db' : Database} (h : CatalogEffect db db') {t : String}
    (ht : t ∈ db.controlled) : t ∈ db'.controlled := by
  cases h with
  | same => exact ht
  | enabled => exact List.mem_cons_of_mem _ ht
  | inheritanceCreated => exact ht
  | inheritanceDeleted => exact ht

structure Invariant (db : Database) : Prop where
  catalogued : Catalogued db
  coherent : Coherent db.access
  confined : Confined db

theorem Invariant.step {db db' : Database} (h : Invariant db) {c : Command}
    (hstep : BindingHistories.step db c = .ok db') : Invariant db' := by
  obtain ⟨heffect, hcatalog⟩ := effects_of_step hstep
  refine ⟨h.catalogued.step hcatalog, h.coherent.effect h.catalogued heffect, fun t b hb => ?_⟩
  exact hcatalog.mem_controlled (mem_controlled_of_effect h.confined heffect t b hb)

theorem Invariant.perform {db : Database} (h : Invariant db) (c : Command) :
    Invariant (BindingHistories.perform db c) := by
  rw [BindingHistories.perform]
  split
  · rename_i db' hstep
    exact h.step hstep
  · exact h

theorem Invariant.initial : Invariant Database.initial where
  catalogued := .initial
  coherent := .initial
  confined _ _ hb := absurd hb List.not_mem_nil

theorem invariant_run (cs : List Command) : Invariant (run cs) :=
  Runs.invariant_foldl (fun _ c h => h.perform c) .initial cs

/-- Bindings with one ref agree on their role and principal, at most one of them is direct, and
a binding that the trigger function touches agrees with the one it would inherit. -/
structure RefsDetermine (db : Database) : Prop where
  grants : ∀ t u, ∀ a ∈ (db.access.bindings t).rows, ∀ b ∈ (db.access.bindings u).rows,
    a.ref = b.ref → a.role = b.role ∧ a.principal = b.principal
  oneDirect : ∀ t u, ∀ a ∈ (db.access.bindings t).rows, ∀ b ∈ (db.access.bindings u).rows,
    a.ref = b.ref → a.inheritance = 0 → b.inheritance = 0 → t = u ∧ a = b
  touched : ∀ table new pre i post bs,
    (db.inheritances.rows.filter fun i => i.dst = table) = pre ++ i :: post →
      inheritAll new pre db.access.bindings = .ok bs →
        ∀ n ∈ sourceRows new i bs, ∀ o ∈ (bs i.dst).rows, o.key = (inherited new i n).key →
          o.role = n.role ∧ o.principal = n.principal

theorem Coherent.eq_of_direct {s : PropagationRuns.State} (h : Coherent s) {t u : String}
    {a b : Binding} (ha : a ∈ (s.bindings t).rows) (hb : b ∈ (s.bindings u).rows)
    (href : a.ref = b.ref) (hadirect : a.inheritance = 0) (hbdirect : b.inheritance = 0) :
    t = u ∧ a = b := by
  have horigin : (⟨a.ref, t, a.id⟩ : BindingRef) = ⟨b.ref, u, b.id⟩ :=
    List.inj_on_of_nodup_map h.distinct (h.origin t a ha hadirect) (h.origin u b hb hbdirect) href
  obtain ⟨-, rfl, hid⟩ := BindingRef.mk.inj horigin
  exact ⟨rfl, eq_of_mem_of_key_eq _ ha hb (by simp [Binding.key, hid, hadirect, hbdirect, href])⟩

theorem refsDetermine_run (cs : List Command) : RefsDetermine (run cs) := by
  have hinv := (invariant_run cs).coherent
  have hsplit : ∀ {a b : Binding}, a.grant = b.grant → a.role = b.role ∧ a.principal = b.principal :=
    fun h => ⟨congrArg (fun g => g.1) h, congrArg (fun g => g.2.1) h⟩
  refine ⟨fun t u a ha b hb href => hsplit (hinv.grants t u a ha b hb href),
    fun t u a ha b hb => hinv.eq_of_direct ha hb, ?_⟩
  intro table new pre i post bs _ hok n hn o ho hkey
  have href : o.ref = n.ref := congrArg (fun k => k.2.2) hkey
  exact hsplit (hinv.grants_inheritAll hok ho (mem_sourceRows.mp hn).2 href)

end PgFort.BindingHistories
