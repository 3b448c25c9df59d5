import PgFort.KeyedRows

namespace PgFort.Bindings

open PgFort.KeyedRows

/-- A row of the bindings table of some table. -/
structure Binding where
  id : Int
  role : String
  principal : String
  ref : Int
  inheritance : Int
  ts : Int
  deriving DecidableEq, Repr

/-- `PRIMARY KEY (_id, _inheritance, _ref)`. -/
def Binding.key (b : Binding) : Int × Int × Int :=
  (b.id, b.inheritance, b.ref)

/-- What a binding grants, and where it comes from. -/
def Binding.grant (b : Binding) : String × String × Int :=
  (b.role, b.principal, b.ref)

abbrev BindingTable := KeyedTable Binding.key

/-- The bindings table of every table with access control. -/
abbrev BindingTables := String → BindingTable

/-- A row of `__access_inheritances__`. -/
structure Inheritance where
  id : Int
  src : String
  dst : String
  srcQuery : String
  deriving DecidableEq, Repr

structure Inheritances where
  rows : List Inheritance
  primaryKey : (rows.map Inheritance.id).Nodup
  unique : (rows.map fun i => (i.src, i.dst)).Nodup

/-- What the trigger function gets of the row `NEW`: its id, the time, and for each source query the
ids that it selects, unless it raises an error. -/
structure NewRow where
  id : Int
  now : Int
  selects : String → Option (List Int)

inductive TriggerError where
  /-- Two rows of one key are to be inserted, or a sub-select finds more than one row. -/
  | cardinalityViolation
  | queryError
  deriving DecidableEq, Repr

namespace NewRow

variable (new : NewRow) (query : String)

/-- A source query as a sub-select. It is taken to be evaluated also where there is no binding that
its id could be compared with. -/
def scalar : Except TriggerError (Option Int) :=
  match new.selects query with
  | none => .error .queryError
  | some [] => .ok none
  | some [id] => .ok (some id)
  | some _ => .error .cardinalityViolation

/-- The id of the source row; none if the query selects no row, or fails. -/
def yields : Option Int :=
  match new.scalar query with
  | .ok id => id
  | .error _ => none

/-- The query selects at most one row. -/
def Scalar : Prop :=
  ∃ ids, new.selects query = some ids ∧ ids.length ≤ 1

end NewRow

/-- The bindings that a row is to inherit. -/
def sourceRows (new : NewRow) (i : Inheritance) (bs : BindingTables) : List Binding :=
  match new.yields i.srcQuery with
  | some id => (bs i.src).rows.filter fun b => b.id = id
  | none => []

/-- A binding of the source row as the row inherits it. -/
def inherited (new : NewRow) (i : Inheritance) (b : Binding) : Binding :=
  { b with id := new.id, inheritance := i.id, ts := new.now }

/-- `DO UPDATE SET _ts = $2`. -/
def touch (new : NewRow) (b : Binding) : Binding :=
  { b with ts := new.now }

theorem key_touch (new : NewRow) (b : Binding) : (touch new b).key = b.key := rfl

/-- The condition of the DELETE on a row, in which `n` ranges over what the INSERT
returned. An updated row is returned with the key it was proposed with. -/
def outdated (new : NewRow) (returned : List Binding) (b : Binding) : Bool :=
  b.id == new.id && returned.any fun n => b.inheritance == n.inheritance && b.ref != n.ref

/-- The statement that the trigger function executes for an inheritance. -/
def inherit (new : NewRow) (i : Inheritance) (bs : BindingTables) :
    Except TriggerError BindingTables := do
  let _ ← new.scalar i.srcQuery
  let proposed := (sourceRows new i bs).map (inherited new i)
  match writeAndPrune (touch new) (key_touch new) (outdated new proposed) proposed (bs i.dst) with
  | .ok rows => return Function.update bs i.dst rows
  | .error _ => .error .cardinalityViolation

/-- The loop of the trigger function. -/
def inheritAll (new : NewRow) : List Inheritance → BindingTables →
    Except TriggerError BindingTables
  | [], bs => .ok bs
  | i :: is, bs => do
      let bs' ← inherit new i bs
      inheritAll new is bs'

/-- `__set_access_bindings__` on a row of the table `d`. -/
def setAccessBindings (inhs : Inheritances) (d : String) (new : NewRow) (bs : BindingTables) :
    Except TriggerError BindingTables :=
  inheritAll new (inhs.rows.filter fun i => i.dst = d) bs

section Statement

variable {new : NewRow} {i : Inheritance} {bs bs' : BindingTables}

theorem mem_sourceRows {b : Binding} :
    b ∈ sourceRows new i bs ↔ new.yields i.srcQuery = some b.id ∧ b ∈ (bs i.src).rows := by
  rw [sourceRows]
  cases hyield : new.yields i.srcQuery with
  | none => simp
  | some id =>
      rw [List.mem_filter, decide_eq_true_eq, Option.some.injEq, and_comm, eq_comm]

theorem nodup_sourceRows (new : NewRow) (i : Inheritance) (bs : BindingTables) :
    (sourceRows new i bs).Nodup := by
  rw [sourceRows]
  cases new.yields i.srcQuery with
  | none => exact List.nodup_nil
  | some id => exact (List.Nodup.of_map _ (bs i.src).keys).filter _

theorem keys_inherited (new : NewRow) (i : Inheritance) (rows : List Binding) :
    (rows.map (inherited new i)).map Binding.key =
      rows.map fun b => (new.id, i.id, b.ref) := by
  rw [List.map_map]
  rfl

theorem key_mem_inherited {rows : List Binding} {b : Binding} :
    b.key ∈ (rows.map (inherited new i)).map Binding.key ↔
      b.id = new.id ∧ b.inheritance = i.id ∧ ∃ n ∈ rows, n.ref = b.ref := by
  rw [keys_inherited, List.mem_map]
  simp only [Binding.key, Prod.mk.injEq]
  constructor
  · rintro ⟨n, hn, hid, hinh, href⟩
    exact ⟨hid.symm, hinh.symm, n, hn, href⟩
  · rintro ⟨hid, hinh, n, hn, href⟩
    exact ⟨n, hn, hid.symm, hinh.symm, href⟩

theorem exists_scalar_iff {query : String} :
    (∃ id, new.scalar query = .ok id) ↔ new.Scalar query := by
  rw [NewRow.scalar, NewRow.Scalar]
  cases new.selects query with
  | none => simp
  | some ids =>
      match ids with
      | [] => simp
      | [id] => simp
      | _ :: _ :: _ => simp

theorem scalar_of_yields {query : String} {id : Int} (h : new.yields query = some id) :
    new.Scalar query := by
  rw [NewRow.yields] at h
  split at h
  · rename_i hscalar
    exact exists_scalar_iff.mp ⟨_, hscalar⟩
  · exact nomatch h

theorem inherit_eq_ok :
    inherit new i bs = .ok bs' ↔ new.Scalar i.srcQuery ∧
      ∃ t, writeAndPrune (touch new) (key_touch new)
          (outdated new ((sourceRows new i bs).map (inherited new i)))
          ((sourceRows new i bs).map (inherited new i)) (bs i.dst) = .ok t ∧
        bs' = Function.update bs i.dst t := by
  rw [inherit, ← exists_scalar_iff]
  cases hscalar : new.scalar i.srcQuery with
  | error e => simp [bind, Except.bind]
  | ok id =>
      cases hwrite : writeAndPrune (touch new) (key_touch new)
        (outdated new ((sourceRows new i bs).map (inherited new i)))
        ((sourceRows new i bs).map (inherited new i)) (bs i.dst) with
      | error e => simp [bind, Except.bind, hwrite]
      | ok t => simp [bind, Except.bind, pure, Except.pure, hwrite, eq_comm]

/-- The statement fails when the source query does, or the source holds a ref twice for the id. -/
theorem exists_inherit_ok :
    (∃ bs', inherit new i bs = .ok bs') ↔ new.Scalar i.srcQuery ∧
      ∀ a ∈ sourceRows new i bs, ∀ b ∈ sourceRows new i bs, a.ref = b.ref → a = b := by
  have hkeys : (((sourceRows new i bs).map (inherited new i)).map Binding.key).Nodup ↔
      ∀ a ∈ sourceRows new i bs, ∀ b ∈ sourceRows new i bs, a.ref = b.ref → a = b := by
    rw [keys_inherited]
    constructor
    · intro h a ha b hb href
      exact List.inj_on_of_nodup_map h ha hb (by rw [href])
    · intro h
      refine (nodup_sourceRows new i bs).map_on fun a ha b hb heq => h a ha b hb ?_
      exact (Prod.mk.inj (Prod.mk.inj heq).2).2
  rw [← hkeys]
  constructor
  · rintro ⟨bs', h⟩
    obtain ⟨hscalar, t, ht, -⟩ := inherit_eq_ok.mp h
    exact ⟨hscalar, exists_writeAndPrune_ok.mp ⟨t, ht⟩⟩
  · rintro ⟨hscalar, h⟩
    obtain ⟨t, ht⟩ := exists_writeAndPrune_ok.mpr h
    exact ⟨_, inherit_eq_ok.mpr ⟨hscalar, t, ht, rfl⟩⟩

theorem inherit_of_ne (h : inherit new i bs = .ok bs') {d : String} (hd : d ≠ i.dst) :
    bs' d = bs d := by
  obtain ⟨-, t, -, rfl⟩ := inherit_eq_ok.mp h
  exact Function.update_of_ne hd t bs

theorem mem_outdated {b : Binding} :
    outdated new ((sourceRows new i bs).map (inherited new i)) b = true ↔
      b.id = new.id ∧ b.inheritance = i.id ∧ ∃ n ∈ sourceRows new i bs, b.ref ≠ n.ref := by
  simp only [outdated, Bool.and_eq_true, beq_iff_eq, List.any_map, List.any_eq_true,
    Function.comp_apply, inherited, bne_iff_ne]
  constructor
  · rintro ⟨hid, n, hn, hinh, href⟩
    exact ⟨hid, hinh, n, hn, href⟩
  · rintro ⟨hid, hinh, n, hn, href⟩
    exact ⟨hid, n, hn, hinh, href⟩

theorem mem_inherit_of_frame (h : inherit new i bs = .ok bs') {b : Binding}
    (hb : ¬ (b.id = new.id ∧ b.inheritance = i.id)) (d : String) :
    b ∈ (bs' d).rows ↔ b ∈ (bs d).rows := by
  by_cases hd : d = i.dst
  · subst hd
    obtain ⟨-, t, ht, rfl⟩ := inherit_eq_ok.mp h
    rw [Function.update_self]
    apply mem_writeAndPrune_of_frame ht
    · intro hkey
      have hmem := key_mem_inherited.mp hkey
      exact hb ⟨hmem.1, hmem.2.1⟩
    · rw [← Bool.not_eq_true, mem_outdated]
      exact fun hout => hb ⟨hout.1, hout.2.1⟩
  · rw [inherit_of_ne h hd]

/-- The bindings of the row by the inheritance: old ones if there is nothing to inherit,
else those with an inherited ref, which keep all but their time, and new ones. -/
theorem mem_inherit (h : inherit new i bs = .ok bs') {b : Binding} (hid : b.id = new.id)
    (hinh : b.inheritance = i.id) :
    b ∈ (bs' i.dst).rows ↔
      (sourceRows new i bs = [] ∧ b ∈ (bs i.dst).rows) ∨
        (∃ o ∈ (bs i.dst).rows, o.id = new.id ∧ o.inheritance = i.id ∧
          (∃ n ∈ sourceRows new i bs, n.ref = o.ref) ∧ b = touch new o) ∨
        ∃ n ∈ sourceRows new i bs, b = inherited new i n ∧
          ∀ o ∈ (bs i.dst).rows, o.id = new.id → o.inheritance = i.id → o.ref ≠ n.ref := by
  obtain ⟨-, t, ht, rfl⟩ := inherit_eq_ok.mp h
  rw [Function.update_self, mem_writeAndPrune ht]
  refine or_congr ?_ (or_congr ?_ ?_)
  · rw [← Bool.not_eq_true, mem_outdated, key_mem_inherited]
    constructor
    · rintro ⟨hb, hkey, hout⟩
      refine ⟨List.eq_nil_iff_forall_not_mem.mpr fun n hn => ?_, hb⟩
      by_cases href : n.ref = b.ref
      · exact hkey ⟨hid, hinh, n, hn, href⟩
      · exact hout ⟨hid, hinh, n, hn, fun h => href h.symm⟩
    · rintro ⟨hnil, hb⟩
      simp [hnil, hb]
  · refine exists_congr fun o => and_congr_right fun _ => ?_
    rw [key_mem_inherited, and_assoc, and_assoc]
  · rw [List.mem_map]
    constructor
    · rintro ⟨⟨n, hn, rfl⟩, hkey⟩
      refine ⟨n, hn, rfl, fun o ho hoid hoinh href => hkey ?_⟩
      exact List.mem_map.mpr ⟨o, ho, by simp [Binding.key, inherited, hoid, hoinh, href]⟩
    · rintro ⟨n, hn, rfl, hall⟩
      refine ⟨⟨n, hn, rfl⟩, fun hkey => ?_⟩
      obtain ⟨o, ho, heq⟩ := List.mem_map.mp hkey
      obtain ⟨hoid, hrest⟩ := Prod.mk.inj heq
      obtain ⟨hoinh, href⟩ := Prod.mk.inj hrest
      exact hall o ho hoid hoinh href

end Statement

end PgFort.Bindings
