import PgFort.GrantOrigins
import PgFort.ReadableQueries
import PgFort.ReferentialIntegrity

namespace PgFort.AccessHistories

open PgFort.JsonTree
open PgFort.Replacement (dropNumbers)
open PgFort.Sql
open PgFort.Schema
open PgFort.QueryAcler
open PgFort.AccessTables (Permission RoleDenorm operations)
open PgFort.ReadableRows
open PgFort.JoinTemplate
open PgFort.SelectQueries
open PgFort.RewrittenSelects
open PgFort.RepeatedRows
open PgFort.SelectTrees
open PgFort.ReadableQueries

/-- A row of `__access_roles__`. -/
structure Role where
  name : String
  permissions : List String
  deriving DecidableEq, Repr

/-- The tables of permissions and roles, with their primary keys and the check. -/
structure Catalog where
  permissions : List Permission
  roles : List Role
  rolesDenorm : List RoleDenorm
  permissionNames : (permissions.map Permission.name).Nodup
  permissionOperations : ∀ p ∈ permissions, p.operation ∈ operations
  roleNames : (roles.map Role.name).Nodup
  rolesDenormKey : rolesDenorm.Nodup

structure Database where
  catalog : Catalog
  bindings : BindingHistories.Database

inductive Refusal where
  | uniqueViolation
  | foreignKeyViolation
  | checkViolation
  | undefinedTable
  | onBindings (r : BindingHistories.Refusal)
  deriving DecidableEq, Repr

/-- The command makes a role. -/
def createsRole : BindingHistories.Command → Bool
  | .createAccessRole _ => true
  | _ => false

/-- What the name of a relation stands for is `none` when there is no such relation. -/
inductive Command where
  | createAccessPermission (name : String) (relation : Option String) (operation : String)
  | createAccessRole (name : String) (permissions : List String)
  | onBindings (c : BindingHistories.Command) (h : createsRole c = false)

/-- `::tolower` and LOWER, of the characters that names have. -/
def lower (s : String) : String :=
  .ofList (s.toList.map Char.toLower)

def upper (s : String) : String :=
  .ofList (s.toList.map Char.toUpper)

/-- The tables of permissions and roles as the migration leaves them. -/
def Catalog.empty : Catalog where
  permissions := []
  roles := []
  rolesDenorm := []
  permissionNames := List.nodup_nil
  permissionOperations := List.forall_mem_nil _
  roleNames := List.nodup_nil
  rolesDenormKey := List.nodup_nil

/-- The database as the migration leaves it. -/
def Database.initial : Database where
  catalog := .empty
  bindings := .initial

/-- A row more in `__access_permissions__`, if its name is new and its operation one of those
allowed. -/
def Catalog.insertPermission (p : Permission) (c : Catalog) : Except Refusal Catalog :=
  if hname : p.name ∉ c.permissions.map Permission.name then
    if hoperation : p.operation ∈ operations then
      .ok
        { c with
          permissions := p :: c.permissions
          permissionNames := List.nodup_cons.mpr ⟨hname, c.permissionNames⟩
          permissionOperations := List.forall_mem_cons.mpr ⟨hoperation, c.permissionOperations⟩ }
    else .error .checkViolation
  else .error .uniqueViolation

/-- `SELECT _name, unnest(_permissions)`. -/
def Role.unnest (r : Role) : List RoleDenorm :=
  r.permissions.map fun p => ⟨r.name, p⟩

/-- A row more in `__access_roles__` and one in `__access_roles_denorm__` for each of its
permissions, which must all be there. -/
def Catalog.insertRole (r : Role) (c : Catalog) : Except Refusal Catalog :=
  if hname : r.name ∉ c.roles.map Role.name then
    if hkey : (r.unnest ++ c.rolesDenorm).Nodup then
      if ∀ p ∈ r.permissions, p ∈ c.permissions.map Permission.name then
        .ok
          { c with
            roles := r :: c.roles
            rolesDenorm := r.unnest ++ c.rolesDenorm
            roleNames := List.nodup_cons.mpr ⟨hname, c.roleNames⟩
            rolesDenormKey := hkey }
      else .error .foreignKeyViolation
    else .error .uniqueViolation
  else .error .uniqueViolation

/-- Columns are not given, and NULL violates no UNIQUE constraint. -/
def createAccessPermission (name : String) (relation : Option String) (operation : String)
    (db : Database) : Except Refusal Database :=
  match relation with
  | none => .error .undefinedTable
  | some relation => do
      let catalog ←
        db.catalog.insertPermission ⟨lower name, relation, upper operation, none⟩
      return { db with catalog }

/-- Both statements are of one transaction. -/
def createAccessRole (name : String) (permissions : List String) (db : Database) :
    Except Refusal Database := do
  let catalog ← db.catalog.insertRole ⟨lower name, permissions.map lower⟩
  let bindings ←
    (BindingHistories.createAccessRole (lower name) db.bindings).mapError Refusal.onBindings
  return ⟨catalog, bindings⟩

/-- What a command does to the database, or why it is refused. -/
def step (db : Database) : Command → Except Refusal Database
  | .createAccessPermission name relation operation =>
      createAccessPermission name relation operation db
  | .createAccessRole name permissions => createAccessRole name permissions db
  | .onBindings c _ => do
      let bindings ← (BindingHistories.step db.bindings c).mapError Refusal.onBindings
      return { db with bindings }

/-- A command that is refused changes nothing. -/
def perform (db : Database) (c : Command) : Database :=
  match step db c with
  | .ok db' => db'
  | .error _ => db

def run (cs : List Command) : Database :=
  cs.foldl perform Database.initial

section Step

variable {db db' : Database}

theorem step_cases {c : Command} (h : step db c = .ok db') :
    (∃ name relation operation p, c = .createAccessPermission name (some relation) operation ∧
      p = ⟨lower name, relation, upper operation, none⟩ ∧
        db'.catalog.permissions = p :: db.catalog.permissions ∧
          db'.catalog.roles = db.catalog.roles ∧
            db'.catalog.rolesDenorm = db.catalog.rolesDenorm ∧ db'.bindings = db.bindings) ∨
      (∃ name permissions r, c = .createAccessRole name permissions ∧
        r = ⟨lower name, permissions.map lower⟩ ∧
          (∀ p ∈ r.permissions, p ∈ db.catalog.permissions.map Permission.name) ∧
            db'.catalog.permissions = db.catalog.permissions ∧
              db'.catalog.roles = r :: db.catalog.roles ∧
                db'.catalog.rolesDenorm = r.unnest ++ db.catalog.rolesDenorm ∧
                  BindingHistories.step db.bindings (.createAccessRole (lower name)) =
                    .ok db'.bindings) ∨
        ∃ c' hc', c = .onBindings c' hc' ∧ db'.catalog = db.catalog ∧
          BindingHistories.step db.bindings c' = .ok db'.bindings := by
  cases c with
  | createAccessPermission name relation operation =>
      left
      simp only [step, createAccessPermission] at h
      cases relation with
      | none => simp at h
      | some relation =>
          obtain ⟨catalog, hinsert, heq⟩ := KeyedTraversal.bind_eq_ok.mp h
          obtain rfl := Except.ok.inj heq
          rw [Catalog.insertPermission] at hinsert
          split at hinsert
          · split at hinsert
            · obtain rfl := Except.ok.inj hinsert
              exact ⟨name, relation, operation, _, rfl, rfl, rfl, rfl, rfl, rfl⟩
            · simp at hinsert
          · simp at hinsert
  | createAccessRole name permissions =>
      right; left
      obtain ⟨catalog, hinsert, hrest⟩ := KeyedTraversal.bind_eq_ok.mp h
      obtain ⟨bindings, hbindings, heq⟩ := KeyedTraversal.bind_eq_ok.mp hrest
      obtain rfl := Except.ok.inj heq
      rw [Catalog.insertRole] at hinsert
      split at hinsert
      · split at hinsert
        · split at hinsert
          · rename_i hknown
            obtain rfl := Except.ok.inj hinsert
            exact ⟨name, permissions, _, rfl, rfl, hknown, rfl, rfl, rfl,
              BindingHistories.mapError_eq_ok.mp hbindings⟩
          · simp at hinsert
        · simp at hinsert
      · simp at hinsert
  | onBindings c' hc' =>
      right; right
      obtain ⟨bindings, hbindings, heq⟩ := KeyedTraversal.bind_eq_ok.mp h
      obtain rfl := Except.ok.inj heq
      exact ⟨c', hc', rfl, rfl, BindingHistories.mapError_eq_ok.mp hbindings⟩

end Step

/-- The roles are stored twice, and those that BIND knows are the same. -/
structure Mirrored (db : Database) : Prop where
  unnested : db.catalog.rolesDenorm = db.catalog.roles.flatMap Role.unnest
  known : ∀ r ∈ db.catalog.roles, ∀ p ∈ r.permissions,
    p ∈ db.catalog.permissions.map Permission.name
  bindable : db.bindings.roles = db.catalog.roles.map Role.name

section Mirror

variable {db db' : BindingHistories.Database}

theorem roles_of_fireTrigger {table : String} {new : Bindings.NewRow}
    (h : BindingHistories.fireTrigger table new db = .ok db') : db'.roles = db.roles := by
  rcases BindingHistories.fireTrigger_cases h with rfl | ⟨-, bs, -, rfl⟩ <;> rfl

theorem roles_of_step {c : BindingHistories.Command} (hc : createsRole c = false)
    (h : BindingHistories.step db c = .ok db') : db'.roles = db.roles := by
  cases c with
  | createAccessRole name => simp [createsRole] at hc
  | enableAccessControl table =>
      simp only [BindingHistories.step, BindingHistories.enableAccessControl] at h
      split at h
      · simp at h
      · split at h
        · simp at h
        · exact congrArg (·.roles) (Except.ok.inj h).symm
  | createAccessInheritance src dst srcQuery =>
      obtain ⟨inhs, -, heq⟩ := KeyedTraversal.bind_eq_ok.mp h
      exact congrArg (·.roles) (Except.ok.inj heq).symm
  | deleteAccessInheritance src dst => exact congrArg (·.roles) (Except.ok.inj h).symm
  | bindAccessRole table role principal id now =>
      obtain ⟨i, -, -, s, -, rfl⟩ := BindingHistories.bindAccessRole_cases h
      rfl
  | unbindAccessRole table role principal id =>
      simp only [BindingHistories.step, BindingHistories.unbindAccessRole] at h
      split at h
      · simp at h
      · cases id with
        | none => exact congrArg (·.roles) (Except.ok.inj h).symm
        | some id => exact congrArg (·.roles) (Except.ok.inj h).symm
  | insertRow table new =>
      simp only [BindingHistories.step, BindingHistories.insertRow] at h
      split at h
      · simp at h
      · exact (roles_of_fireTrigger h).trans rfl
  | updateRow table old new =>
      simp only [BindingHistories.step, BindingHistories.updateRow] at h
      split at h
      · exact congrArg (·.roles) (Except.ok.inj h).symm
      · split at h
        · exact roles_of_fireTrigger h
        · split at h
          · simp at h
          · split at h
            · simp at h
            · exact (roles_of_fireTrigger h).trans rfl
  | deleteRows doomed => exact congrArg (·.roles) (Except.ok.inj h).symm
  | drawRef => exact congrArg (·.roles) (Except.ok.inj h).symm

theorem roles_of_createAccessRole {name : String}
    (h : BindingHistories.step db (.createAccessRole name) = .ok db') :
    db'.roles = name :: db.roles := by
  simp only [BindingHistories.step, BindingHistories.createAccessRole] at h
  split at h
  · simp at h
  · exact congrArg (·.roles) (Except.ok.inj h).symm

end Mirror

namespace Mirrored

theorem initial : Mirrored Database.initial where
  unnested := rfl
  known := List.forall_mem_nil _
  bindable := rfl

theorem step {db db' : Database} (h : Mirrored db) {c : Command}
    (hstep : AccessHistories.step db c = .ok db') : Mirrored db' := by
  rcases step_cases hstep with ⟨name, relation, operation, p, -, -, hperm, hroles, hdenorm, hb⟩ |
    ⟨name, permissions, r, -, hr, hknown, hperm, hroles, hdenorm, hb⟩ | ⟨c', hc', -, hcat, hb⟩
  · refine ⟨by rw [hdenorm, hroles, h.unnested], fun r hr q hq => ?_,
      by rw [hb, hroles, h.bindable]⟩
    rw [hperm, List.map_cons]
    exact List.mem_cons_of_mem _ (h.known r (hroles ▸ hr) q hq)
  · refine ⟨?_, fun s hs q hq => ?_, ?_⟩
    · rw [hdenorm, hroles, List.flatMap_cons, h.unnested]
    · rw [hperm]
      rcases List.mem_cons.mp (hroles ▸ hs : s ∈ r :: db.catalog.roles) with rfl | hs
      · exact hknown q hq
      · exact h.known s hs q hq
    · rw [roles_of_createAccessRole hb, hroles, List.map_cons, h.bindable, hr]
  · refine ⟨by rw [hcat, h.unnested], by rw [hcat]; exact h.known, ?_⟩
    rw [roles_of_step hc' hb, hcat, h.bindable]

theorem perform {db : Database} (h : Mirrored db) (c : Command) :
    Mirrored (AccessHistories.perform db c) := by
  rw [AccessHistories.perform]
  split
  · rename_i db' hstep
    exact h.step hstep
  · exact h

end Mirrored

theorem mirrored_run (cs : List Command) : Mirrored (run cs) :=
  Runs.invariant_foldl (fun _ c h => h.perform c) .initial cs

/-- What a command asks of the bindings. -/
def bindingCommands (db : Database) : Command → List BindingHistories.Command
  | .createAccessPermission _ _ _ => []
  | .createAccessRole name permissions =>
      match createAccessRole name permissions db with
      | .ok _ => [.createAccessRole (lower name)]
      | .error _ => []
  | .onBindings c _ => [c]

/-- The commands of a history that concern the bindings, each as it finds the database. -/
def trace : Database → List Command → List BindingHistories.Command
  | _, [] => []
  | db, c :: cs => bindingCommands db c ++ trace (perform db c) cs

section Trace

variable {db : Database}

theorem bindings_perform (db : Database) (c : Command) :
    (perform db c).bindings =
      (bindingCommands db c).foldl BindingHistories.perform db.bindings := by
  rw [perform]
  cases hstep : step db c with
  | ok db' =>
      rcases step_cases hstep with ⟨name, relation, operation, p, rfl, -, -, -, -, hb⟩ |
        ⟨name, permissions, r, rfl, -, -, -, -, -, hb⟩ | ⟨c', hc', rfl, -, hb⟩
      · exact hb
      · have hrole : createAccessRole name permissions db = .ok db' := hstep
        rw [bindingCommands, hrole]
        simp only [List.foldl_cons, List.foldl_nil, BindingHistories.perform, hb]
      · simp only [bindingCommands, List.foldl_cons, List.foldl_nil, BindingHistories.perform, hb]
  | error e =>
      cases c with
      | createAccessPermission name relation operation => rfl
      | createAccessRole name permissions =>
          have hrole : createAccessRole name permissions db = .error e := hstep
          rw [bindingCommands, hrole]
          rfl
      | onBindings c' hc' =>
          simp only [bindingCommands, List.foldl_cons, List.foldl_nil, BindingHistories.perform]
          cases hb : BindingHistories.step db.bindings c' with
          | ok bindings =>
              simp [step, hb, Except.mapError, bind, Except.bind, pure, Except.pure] at hstep
          | error e' => rfl

theorem bindings_foldl (db : Database) (cs : List Command) :
    (cs.foldl perform db).bindings = (trace db cs).foldl BindingHistories.perform db.bindings := by
  induction cs generalizing db with
  | nil => rfl
  | cons c cs ih => rw [List.foldl_cons, ih, trace, List.foldl_append, bindings_perform]

theorem bindings_run (cs : List Command) :
    (run cs).bindings = BindingHistories.run (trace Database.initial cs) :=
  bindings_foldl Database.initial cs

theorem trace_append (db : Database) (cs ds : List Command) :
    trace db (cs ++ ds) = trace db cs ++ trace (cs.foldl perform db) ds := by
  induction cs generalizing db with
  | nil => rfl
  | cons c cs ih => rw [List.cons_append, trace, ih, trace, List.append_assoc, List.foldl_cons]

theorem split_of_trace {cs : List Command} {pre' post' : List BindingHistories.Command}
    {c : BindingHistories.Command} (hc : createsRole c = false)
    (h : trace db cs = pre' ++ c :: post') :
    ∃ pre post, cs = pre ++ .onBindings c hc :: post ∧ trace db pre = pre' ∧
      trace (perform (pre.foldl perform db) (.onBindings c hc)) post = post' := by
  induction cs generalizing db pre' with
  | nil => simp [trace] at h
  | cons d cs ih =>
      rw [trace] at h
      rcases List.append_eq_append_iff.mp h with ⟨more, hpre, hrest⟩ | ⟨more, hd, hrest⟩
      · obtain ⟨pre, post, rfl, htrace, hpost⟩ := ih hrest
        exact ⟨d :: pre, post, rfl, by rw [trace, htrace, hpre], hpost⟩
      · cases more with
        | nil =>
            rw [List.append_nil] at hd
            have hlater : trace (perform db d) cs = [] ++ c :: post' := hrest.symm
            obtain ⟨pre, post, rfl, htrace, hpost⟩ := ih hlater
            exact ⟨d :: pre, post, rfl, by rw [trace, htrace, hd, List.append_nil], hpost⟩
        | cons c' more =>
            obtain ⟨rfl, rfl⟩ := List.cons.inj hrest
            cases d with
            | createAccessPermission name relation operation => simp [bindingCommands] at hd
            | createAccessRole name permissions =>
                rw [bindingCommands] at hd
                split at hd
                · have hmem : c ∈ [BindingHistories.Command.createAccessRole (lower name)] :=
                    hd ▸ List.mem_append_right _ List.mem_cons_self
                  rw [List.mem_singleton.mp hmem] at hc
                  simp [createsRole] at hc
                · simp at hd
            | onBindings d hd' =>
                rw [bindingCommands] at hd
                obtain ⟨rfl, hd⟩ := List.append_eq_singleton_iff.mp hd.symm |>.resolve_right
                  (fun h => by simp at h)
                obtain ⟨rfl, rfl⟩ := List.cons.inj hd
                exact ⟨[], cs, rfl, rfl, rfl⟩

end Trace

/-- Rows are deleted together with those that hold what they inherited from them. -/
def TakesHeirs (db : Database) : Command → Prop
  | .onBindings c _ => Revocation.TakesHeirs db.bindings c
  | _ => True

theorem takesHeirs_trace {cs : List Command}
    (h : Runs.AtEachStep perform Database.initial TakesHeirs cs) :
    Runs.AtEachStep BindingHistories.perform BindingHistories.Database.initial
      Revocation.TakesHeirs (trace Database.initial cs) := by
  intro pre' c post' hsplit
  cases hc : createsRole c with
  | true =>
      cases c with
      | createAccessRole name => trivial
      | _ => simp [createsRole] at hc
  | false =>
      obtain ⟨pre, post, rfl, htrace, -⟩ := split_of_trace hc hsplit
      have hheirs := h pre (.onBindings c hc) post rfl
      rw [TakesHeirs, bindings_foldl, htrace] at hheirs
      exact hheirs

/-- Tables as the history leaves them: those under control have a row for each of their ids, and
no relation has the name of an access view. -/
structure Contents (db : BindingHistories.Database) where
  tables : List (String × Table)
  ids : ∀ t ∈ db.controlled, ∃ table, tables.lookup t = some table ∧ "id" ∈ table.columns ∧
    ∀ id, id ∈ db.rows t ↔ ∃ row ∈ table.rows, table.value row "id" = .int id
  freshView : ∀ t ∈ db.controlled, tables.lookup (t ++ "__acls__") = none

/-- What the views and the queries read. -/
def tablesOf (db : Database) (contents : Contents db.bindings) : AccessTables.Database where
  permissions := db.catalog.permissions
  rolesDenorm := db.catalog.rolesDenorm
  tables := contents.tables
  bindings := db.bindings.controlled.map fun t => (t, db.bindings.access.bindings t)
  permissionNames := db.catalog.permissionNames
  permissionOperations := db.catalog.permissionOperations
  rolesDenormKey := db.catalog.rolesDenormKey
  bindingsTable := by
    intro a ha
    obtain ⟨t, ht, rfl⟩ := List.mem_map.mp ha
    obtain ⟨table, hlookup, hid, -⟩ := contents.ids t ht
    exact ⟨table, hlookup, hid⟩
  freshView := by
    intro a ha
    obtain ⟨t, ht, rfl⟩ := List.mem_map.mp ha
    exact contents.freshView t ht

/-- A role with a permission to select from the table is bound to the user on the row with this
id. -/
def MayRead (db : Database) (user table : String) (id : Value) : Prop :=
  ∃ b ∈ (db.bindings.access.bindings table).rows, id = .int b.id ∧ b.principal = user ∧
    ∃ r ∈ db.catalog.roles, r.name = b.role ∧
      ∃ p ∈ db.catalog.permissions, p.name ∈ r.permissions ∧ p.relation = table ∧
        p.operation = "SELECT"

instance (db : Database) (user table : String) (id : Value) :
    Decidable (MayRead db user table id) :=
  inferInstanceAs (Decidable (∃ b ∈ (db.bindings.access.bindings table).rows, _))

/-- The rows of the table that the user may read. -/
def readTable (db : Database) (user name : String) (table : Table) : Table where
  columns := table.columns
  rows := table.rows.filter fun row => MayRead db user name (table.value row "id")
  nodup := table.nodup
  width row hrow := table.width row (List.mem_of_mem_filter hrow)

/-- What the names of relations stand for, with the tables that the tracker knows cut down to the
rows that the user may read. -/
def readCatalogue (st : Option SchemaTracker) (db : Database) (contents : Contents db.bindings)
    (user relname : String) : Option Table :=
  if isTable st relname then
    if relname ∈ db.bindings.controlled then
      (contents.tables.lookup relname).map (readTable db user relname)
    else none
  else (tablesOf db contents).catalogue relname

section Reading

variable {db : Database} {contents : Contents db.bindings} {user : String}

theorem lookup_map_of_mem {β : Type} {f : String → β} {ts : List String} {t : String}
    (ht : t ∈ ts) : (ts.map fun t => (t, f t)).lookup t = some (f t) := by
  induction ts with
  | nil => exact absurd ht List.not_mem_nil
  | cons u ts ih =>
      rw [List.map_cons, List.lookup_cons]
      by_cases htu : t = u
      · subst htu
        simp
      · rw [beq_false_of_ne htu]
        exact ih ((List.mem_cons.mp ht).resolve_left htu)

theorem bindingsOf_tablesOf {t : String} (ht : t ∈ db.bindings.controlled) :
    (tablesOf db contents).bindingsOf t = (db.bindings.access.bindings t).rows := by
  rw [AccessTables.Database.bindingsOf]
  show ((List.lookup t (db.bindings.controlled.map fun t => (t, db.bindings.access.bindings t))).map
    KeyedRows.KeyedTable.rows).getD [] = _
  rw [lookup_map_of_mem ht]
  rfl

theorem mem_controlled_of_controlled (t : (tablesOf db contents).Controlled) :
    t.name ∈ db.bindings.controlled := by
  obtain ⟨a, ha, hname⟩ := t.enabled
  obtain ⟨u, hu, rfl⟩ := List.mem_map.mp ha
  exact hname ▸ hu

theorem exists_denorm_iff (h : Mirrored db) {role t : String} :
    (∃ r ∈ db.catalog.rolesDenorm, role = r.name ∧
        ∃ p ∈ db.catalog.permissions, r.permission = p.name ∧ p.relation = t ∧
          p.operation ∈ ["SELECT"]) ↔
      ∃ r ∈ db.catalog.roles, r.name = role ∧
        ∃ p ∈ db.catalog.permissions, p.name ∈ r.permissions ∧ p.relation = t ∧
          p.operation = "SELECT" := by
  simp only [List.mem_singleton]
  constructor
  · rintro ⟨d, hd, rfl, p, hp, hname, hrelation, hselect⟩
    obtain ⟨r, hr, hd⟩ := List.mem_flatMap.mp (h.unnested ▸ hd)
    obtain ⟨q, hq, rfl⟩ := List.mem_map.mp hd
    exact ⟨r, hr, rfl, p, hp, hname ▸ hq, hrelation, hselect⟩
  · rintro ⟨r, hr, rfl, p, hp, hmem, hrelation, hselect⟩
    refine ⟨⟨r.name, p.name⟩, ?_, rfl, p, hp, rfl, hrelation, hselect⟩
    rw [h.unnested]
    exact List.mem_flatMap.mpr ⟨r, hr, List.mem_map.mpr ⟨p.name, hmem, rfl⟩⟩

theorem granted_iff_mayRead (h : Mirrored db) (t : (tablesOf db contents).Controlled)
    (row : List Value) :
    Granted (tablesOf db contents) t user ["SELECT"] row ↔
      MayRead db user t.name (t.table.value row "id") := by
  rw [Granted, MayRead, bindingsOf_tablesOf (mem_controlled_of_controlled t)]
  refine exists_congr fun b => and_congr_right fun _ => and_congr_right fun _ => ?_
  exact and_congr_right fun _ => exists_denorm_iff h

theorem onceTable_tablesOf (h : Mirrored db) (t : (tablesOf db contents).Controlled) :
    onceTable (tablesOf db contents) user t = readTable db user t.name t.table := by
  rw [onceTable, readTable, Table.mk.injEq]
  refine ⟨rfl, List.filter_congr fun row _ => decide_eq_decide.mpr ?_⟩
  rw [← granted_select_iff, granted_iff_mayRead h]

theorem controlled?_tablesOf (relname : String) :
    (controlled? (tablesOf db contents) relname).map (fun t => (t.name, t.table)) =
      if relname ∈ db.bindings.controlled then
        (contents.tables.lookup relname).map fun table => (relname, table)
      else none := by
  rw [controlled?]
  have henabled : (∃ a ∈ (tablesOf db contents).bindings, a.1 = relname) ↔
      relname ∈ db.bindings.controlled := by
    simp [tablesOf]
  by_cases hmem : relname ∈ db.bindings.controlled
  · rw [if_pos hmem]
    obtain ⟨table, hlookup, -⟩ := contents.ids relname hmem
    have hsome : ((tablesOf db contents).tables.lookup relname).isSome = true := by
      show (contents.tables.lookup relname).isSome = true
      rw [hlookup]
      rfl
    rw [dif_pos ⟨hsome, henabled.mpr hmem⟩, Option.map_some, hlookup, Option.map_some]
    refine congrArg (fun table => some (relname, table)) (Option.some.inj ?_)
    rw [Option.some_get]
    exact hlookup
  · rw [if_neg hmem, dif_neg fun h => hmem (henabled.mp h.2)]
    rfl

theorem cutDown_tablesOf (st : Option SchemaTracker)
    (f : (tablesOf db contents).Controlled → Table) (g : String → Table → Table)
    (hfg : ∀ t, f t = g t.name t.table) (relname : String) :
    cutDown st (tablesOf db contents) f relname =
      if isTable st relname then
        if relname ∈ db.bindings.controlled then (contents.tables.lookup relname).map (g relname)
        else none
      else (tablesOf db contents).catalogue relname := by
  rw [cutDown]
  refine if_congr Iff.rfl ?_ rfl
  have hmap : (controlled? (tablesOf db contents) relname).map f =
      ((controlled? (tablesOf db contents) relname).map fun t => (t.name, t.table)).map
        fun a => g a.1 a.2 := by
    rw [Option.map_map]
    exact Option.map_congr fun t _ => hfg t
  rw [hmap, controlled?_tablesOf]
  split
  · rw [Option.map_map]
    rfl
  · rfl

theorem enabled_of_controlled {st : Option SchemaTracker} {q : SelectStmt}
    (h : ∀ x ∈ q.rangeVars, isTable st x.1 = true → x.1 ∈ db.bindings.controlled) :
    Enabled st (tablesOf db contents) q := by
  intro x hx htable
  have hmem := h x hx htable
  obtain ⟨table, hlookup, -⟩ := contents.ids x.1 hmem
  have hsome := @controlled?_tablesOf db contents x.1
  rw [if_pos hmem, hlookup] at hsome
  cases hcontrolled : controlled? (tablesOf db contents) x.1 with
  | none => simp [hcontrolled] at hsome
  | some t => rfl

/-- The ids that a user reads are those bound to the user by such a role. -/
theorem exists_mem_readTable_iff (h : ReferentialIntegrity.Intact db.bindings) {t : String}
    (ht : t ∈ db.bindings.controlled) {table : Table}
    (hlookup : contents.tables.lookup t = some table) (id : Int) :
    (∃ row ∈ (readTable db user t table).rows, table.value row "id" = .int id) ↔
      MayRead db user t (.int id) := by
  constructor
  · rintro ⟨row, hrow, hvalue⟩
    exact hvalue ▸ of_decide_eq_true (List.mem_filter.mp hrow).2
  · intro hmay
    have hbound := hmay
    obtain ⟨b, hb, hid, -⟩ := hbound
    obtain ⟨table', hlookup', -, hids⟩ := contents.ids t ht
    obtain rfl := Option.some.inj (hlookup.symm.trans hlookup')
    obtain ⟨row, hrow, hvalue⟩ := (hids b.id).mp (h.refers t b hb).row
    refine ⟨row, List.mem_filter.mpr ⟨hrow, decide_eq_true ?_⟩, hvalue.trans hid.symm⟩
    rw [hvalue, ← hid]
    exact hmay

end Reading

theorem rel_answers {st : Option SchemaTracker} {q : SelectStmt} (cs : List Command)
    (contents : Contents (run cs).bindings) (user : String) (hapart : Apart (SelectStmt.names q))
    (hcounts : SelectStmt.countsNothing q = true)
    (hcontrolled : ∀ x ∈ q.rangeVars, isTable st x.1 = true →
      x.1 ∈ (run cs).bindings.controlled) :
    Option.Rel SameAnswer ((aclSelect st q).eval (tablesOf (run cs) contents).catalogue user)
      (q.eval (readCatalogue st (run cs) contents user) user) := by
  have hcatalogue : cutDown st (tablesOf (run cs) contents)
      (onceTable (tablesOf (run cs) contents) user) = readCatalogue st (run cs) contents user :=
    funext (cutDown_tablesOf st _ _ fun t => onceTable_tablesOf (mirrored_run cs) t)
  rw [aclSelect_eval_cutDown hapart (enabled_of_controlled hcontrolled), ← hcatalogue]
  exact rel_select_eval q hcounts fun x _ => rel_cutDown x.1

/-- After the history a user gets from the rewritten statements that do not count rows what they
say of the rows that the user may read, and of each table these are all the rows on which such a
role is bound to the user. -/
structure ReadsBound (st : Option SchemaTracker) (cs : List Command)
    (contents : Contents (run cs).bindings) (user version : String) (stmts : List RawStmt)
    (j : Json) : Prop where
  answers : ∃ j', acl st j = .ok j' ∧
    dropNumbers "location" j' = parseTree version (stmts.map (RawStmt.acl st)) ∧
    ∀ r ∈ stmts, SelectStmt.countsNothing r.stmt = true →
      Option.Rel SameAnswer ((r.acl st).stmt.eval (tablesOf (run cs) contents).catalogue user)
        (r.stmt.eval (readCatalogue st (run cs) contents user) user)
  rows : ∀ t ∈ (run cs).bindings.controlled, ∀ table, contents.tables.lookup t = some table →
    ∀ id, (∃ row ∈ (readTable (run cs) user t table).rows, table.value row "id" = .int id) ↔
      MayRead (run cs) user t (.int id)

theorem readsBound_acl {st : Option SchemaTracker} {cs : List Command}
    {contents : Contents (run cs).bindings} {user version : String} {stmts : List RawStmt}
    {j : Json} (hj : dropNumbers "location" j = parseTree version stmts)
    (hplain : ∀ r ∈ stmts, ∀ x ∈ r.stmt.rangeVars, isTable st x.1 = true → PlainNames x.1 x.2)
    (hapart : ∀ r ∈ stmts, Apart (SelectStmt.names r.stmt))
    (hcontrolled : ∀ r ∈ stmts, ∀ x ∈ r.stmt.rangeVars, isTable st x.1 = true →
      x.1 ∈ (run cs).bindings.controlled) :
    ReadsBound st cs contents user version stmts j := by
  obtain ⟨j', hacl, htree⟩ := acl_parseTree hj hplain
  refine ⟨⟨j', hacl, htree, fun r hr hcounts => ?_⟩, fun t ht table hlookup id => ?_⟩
  · exact rel_answers cs contents user (hapart r hr) hcounts (hcontrolled r hr)
  · have hintact : ReferentialIntegrity.Intact (run cs).bindings :=
      bindings_run cs ▸ ReferentialIntegrity.intact_run _
    exact exists_mem_readTable_iff hintact ht hlookup id

/-- A document is shown to a user, and another is not. -/
def sharedRun : List Command :=
  [.createAccessPermission "doc_view" (some "documents") "select",
    .createAccessRole "Viewer" ["doc_view"], .onBindings (.enableAccessControl "documents") rfl,
    .onBindings (.insertRow "documents" ⟨1, 1, fun _ => some []⟩) rfl,
    .onBindings (.insertRow "documents" ⟨2, 2, fun _ => some []⟩) rfl,
    .onBindings (.bindAccessRole "documents" "viewer" "tom" (some 1) 3) rfl]

def documentRows : List (List Value) :=
  [[.int 1, .text "plan"], [.int 2, .text "budget"]]

theorem nodup_documentColumns : ["id", "name"].Nodup := by
  decide

theorem length_documentRows : ∀ row ∈ documentRows, row.length = ["id", "name"].length := by
  decide

def documents : Table where
  columns := ["id", "name"]
  rows := documentRows
  nodup := nodup_documentColumns
  width := length_documentRows

theorem ids_documents {db : BindingHistories.Database} (hcontrolled : db.controlled = ["documents"])
    (hrows : db.rows "documents" = [2, 1]) :
    ∀ t ∈ db.controlled, ∃ table, [("documents", documents)].lookup t = some table ∧
      "id" ∈ table.columns ∧
        ∀ id, id ∈ db.rows t ↔ ∃ row ∈ table.rows, table.value row "id" = .int id := by
  rw [hcontrolled]
  refine List.forall_mem_singleton.mpr ⟨documents, rfl, List.mem_cons_self, fun id => ?_⟩
  have hplan : documents.value [.int 1, .text "plan"] "id" = .int 1 := rfl
  have hbudget : documents.value [.int 2, .text "budget"] "id" = .int 2 := rfl
  rw [hrows]
  simp only [documents, documentRows, List.mem_cons, List.not_mem_nil, or_false,
    exists_eq_or_imp, exists_eq_left]
  change id = 2 ∨ id = 1 ↔ documents.value _ "id" = _ ∨ documents.value _ "id" = _
  rw [hplan, hbudget, Value.int.injEq, Value.int.injEq, or_comm, eq_comm, eq_comm (a := id)]

theorem freshView_documents {db : BindingHistories.Database}
    (hcontrolled : db.controlled = ["documents"]) :
    ∀ t ∈ db.controlled, [("documents", documents)].lookup (t ++ "__acls__") = none := by
  rw [hcontrolled]
  exact List.forall_mem_singleton.mpr rfl

def documentContents (db : BindingHistories.Database) (hcontrolled : db.controlled = ["documents"])
    (hrows : db.rows "documents" = [2, 1]) : Contents db where
  tables := [("documents", documents)]
  ids := ids_documents hcontrolled hrows
  freshView := freshView_documents hcontrolled

theorem controlled_sharedRun : (run sharedRun).bindings.controlled = ["documents"] := by
  decide +kernel

theorem rows_sharedRun : (run sharedRun).bindings.rows "documents" = [2, 1] := by
  decide +kernel

theorem readsBound_sharedRun :
    ReadsBound (some ⟨["documents"]⟩) sharedRun
      (documentContents _ controlled_sharedRun rows_sharedRun) "tom" "130003" [documentNames]
      documentNamesTree :=
  readsBound_acl rfl
    (List.forall_mem_singleton.mpr fun x hx _ => plainNames_documentNames x hx)
    (List.forall_mem_singleton.mpr (by decide +kernel))
    (List.forall_mem_singleton.mpr fun x hx _ => by
      obtain rfl := List.mem_singleton.mp hx
      exact controlled_sharedRun ▸ List.mem_cons_self)

/-- Every BIND to the user has an UNBIND of the same after it, up to which the deletions have
taken heirs. -/
def Withdrawn (cs : List Command) (user : String) : Prop :=
  ∀ pre post table role id now,
    cs = pre ++ .onBindings (.bindAccessRole table role user (some id) now) rfl :: post →
      ∃ mid after,
        post = mid ++ .onBindings (.unbindAccessRole table role user (some id)) rfl :: after ∧
        Runs.AtEachStep perform Database.initial TakesHeirs
          (pre ++ .onBindings (.bindAccessRole table role user (some id) now) rfl :: mid)

/-- The table without its rows. -/
def withoutRows (table : Table) : Table where
  columns := table.columns
  rows := []
  nodup := table.nodup
  width := List.forall_mem_nil _

/-- What the names of relations stand for, with the tables that the tracker knows empty. -/
def emptiedCatalogue (st : Option SchemaTracker) (db : Database) (contents : Contents db.bindings)
    (relname : String) : Option Table :=
  if isTable st relname then
    if relname ∈ db.bindings.controlled then (contents.tables.lookup relname).map withoutRows
    else none
  else (tablesOf db contents).catalogue relname

section Withdrawal

variable {cs : List Command} {user : String}

theorem principal_ne_of_withdrawn (h : Withdrawn cs user) :
    ∀ t, ∀ b ∈ ((run cs).bindings.access.bindings t).rows, b.principal ≠ user := by
  rw [bindings_run]
  refine GrantOrigins.principal_ne_of_unbound ?_
  intro pre' post' table role id now hsplit
  obtain ⟨pre, post, rfl, hpre, hpost⟩ := split_of_trace rfl hsplit
  obtain ⟨mid, after, rfl, hheirs⟩ := h pre post table role id now rfl
  rw [trace_append] at hpost
  refine ⟨_, _, hpost.symm, ?_⟩
  have htrace := takesHeirs_trace hheirs
  rw [trace_append, hpre] at htrace
  exact htrace

theorem timesTable_of_principal_ne {db : Database} {contents : Contents db.bindings}
    (h : ∀ t, ∀ b ∈ (db.bindings.access.bindings t).rows, b.principal ≠ user)
    (t : (tablesOf db contents).Controlled) :
    timesTable (tablesOf db contents) user t = withoutRows t.table := by
  have hnone : ∀ row, selectGrants (tablesOf db contents) t user row = [] := by
    intro row
    refine List.eq_nil_iff_forall_not_mem.mpr fun g hg => ?_
    obtain ⟨hb, -, -, -, huser, -⟩ := mem_selectGrants.mp hg
    rw [bindingsOf_tablesOf (mem_controlled_of_controlled t)] at hb
    exact h t.name g.1 hb huser
  rw [timesTable, withoutRows, Table.mk.injEq]
  refine ⟨rfl, List.flatMap_eq_nil_iff.mpr fun row _ => ?_⟩
  rw [hnone row]
  rfl

end Withdrawal

/-- From the rewritten statements the user gets what the statements say of empty tables. -/
def ReadsNothing (st : Option SchemaTracker) (cs : List Command)
    (contents : Contents (run cs).bindings) (user version : String) (stmts : List RawStmt)
    (j : Json) : Prop :=
  ∃ j', acl st j = .ok j' ∧
    dropNumbers "location" j' = parseTree version (stmts.map (RawStmt.acl st)) ∧
    ∀ r ∈ stmts, (r.acl st).stmt.eval (tablesOf (run cs) contents).catalogue user =
      r.stmt.eval (emptiedCatalogue st (run cs) contents) user

theorem readsNothing_of_withdrawn {st : Option SchemaTracker} {cs : List Command}
    {contents : Contents (run cs).bindings} {user version : String} {stmts : List RawStmt}
    {j : Json} (hj : dropNumbers "location" j = parseTree version stmts)
    (hplain : ∀ r ∈ stmts, ∀ x ∈ r.stmt.rangeVars, isTable st x.1 = true → PlainNames x.1 x.2)
    (hapart : ∀ r ∈ stmts, Apart (SelectStmt.names r.stmt))
    (hcontrolled : ∀ r ∈ stmts, ∀ x ∈ r.stmt.rangeVars, isTable st x.1 = true →
      x.1 ∈ (run cs).bindings.controlled)
    (hwithdrawn : Withdrawn cs user) :
    ReadsNothing st cs contents user version stmts j := by
  obtain ⟨j', hacl, htree⟩ := acl_parseTree hj hplain
  refine ⟨j', hacl, htree, fun r hr => ?_⟩
  have hnone := principal_ne_of_withdrawn hwithdrawn
  have hcatalogue : cutDown st (tablesOf (run cs) contents)
      (timesTable (tablesOf (run cs) contents) user) = emptiedCatalogue st (run cs) contents :=
    funext (cutDown_tablesOf st _ _ fun t => timesTable_of_principal_ne hnone t)
  rw [RawStmt.acl, aclSelect_eval_cutDown (hapart r hr) (enabled_of_controlled (hcontrolled r hr)),
    hcatalogue]

/-- The document is no longer shown. -/
def withdrawnRun : List Command :=
  sharedRun ++ [.onBindings (.unbindAccessRole "documents" "viewer" "tom" (some 1)) rfl]

theorem takesHeirs_sharedRun : Runs.AtEachStep perform Database.initial TakesHeirs sharedRun := by
  intro pre c post hsplit
  have hc : c ∈ sharedRun := hsplit ▸ List.mem_append_right pre List.mem_cons_self
  simp only [sharedRun, List.mem_cons, List.not_mem_nil, or_false] at hc
  rcases hc with rfl | rfl | rfl | rfl | rfl | rfl <;> trivial

theorem withdrawn_withdrawnRun : Withdrawn withdrawnRun "tom" := by
  intro pre post table role id now hsplit
  rcases List.eq_nil_or_concat post with rfl | ⟨mid, c, rfl⟩
  · have hlast := (List.append_inj' hsplit rfl).2
    cases (List.cons.inj hlast).1
  · rw [List.concat_eq_append] at hsplit ⊢
    rw [← List.cons_append, ← List.append_assoc] at hsplit
    obtain ⟨hshared, hlast⟩ := List.append_inj' hsplit rfl
    obtain rfl := (List.cons.inj hlast).1
    have hbind : .onBindings (.bindAccessRole table role "tom" (some id) now) rfl ∈ sharedRun :=
      hshared ▸ List.mem_append_right pre List.mem_cons_self
    refine ⟨mid, [], ?_, hshared ▸ takesHeirs_sharedRun⟩
    simp only [sharedRun, List.mem_cons, List.not_mem_nil, or_false] at hbind
    rcases hbind with hbind | hbind | hbind | hbind | hbind | hbind <;> cases hbind
    rfl

theorem controlled_withdrawnRun : (run withdrawnRun).bindings.controlled = ["documents"] := by
  decide +kernel

theorem rows_withdrawnRun : (run withdrawnRun).bindings.rows "documents" = [2, 1] := by
  decide +kernel

theorem readsNothing_withdrawnRun :
    ReadsNothing (some ⟨["documents"]⟩) withdrawnRun
      (documentContents _ controlled_withdrawnRun rows_withdrawnRun) "tom" "130003"
      [documentNames] documentNamesTree :=
  readsNothing_of_withdrawn rfl
    (List.forall_mem_singleton.mpr fun x hx _ => plainNames_documentNames x hx)
    (List.forall_mem_singleton.mpr (by decide +kernel))
    (List.forall_mem_singleton.mpr fun x hx _ => by
      obtain rfl := List.mem_singleton.mp hx
      exact controlled_withdrawnRun ▸ List.mem_cons_self)
    withdrawn_withdrawnRun

end PgFort.AccessHistories
