import PgFort.StatementLists

namespace PgFort.RoleNames

open PgFort.Framing
open PgFort.Conn
open PgFort.Regexes
open PgFort.ProxyCommand
open PgFort.StatementLists

/-- The pass puts the SQL in place of a command. -/
def Puts (pass : Bytes → Except Conn.Error Bytes) (s : Bytes) (m : Match UInt8) (sql : Bytes) :
    Prop :=
  ∃ rest, pass m.after = .ok rest ∧ pass s = .ok (m.before ++ (sql ++ rest))

def insertBinding (role principal table query : Bytes) : Bytes :=
  utf8 "WITH r AS   (INSERT INTO __access_binding_refs__ (_origin, _origin_id)       VALUES ('" ++
    (table ++ (utf8 "', (" ++ (query ++
    (utf8 "))       RETURNING *)INSERT INTO " ++ (table ++
    (utf8 "__access_bindings__ (_role, _principal, _id, _ref)   SELECT '" ++ (role ++
    (utf8 "', '" ++ (principal ++ utf8 "', _origin_id, _id   FROM r")))))))))

def deleteBindings (role : Bytes) (m : Groups UInt8) : Bytes :=
  utf8 "DELETE FROM __access_binding_refs__ r" ++ utf8 " USING " ++ text m 7 ++
    utf8 "__access_bindings__ b" ++ utf8 " WHERE b._id = (" ++ text m 10 ++ utf8 ")" ++
    (utf8 " AND b._role = " ++ utf8 "'" ++ role ++ utf8 "'") ++
    comparison m " AND b._principal = " 5 6 ++
    utf8 " AND b._inheritance = 0" ++ utf8 " AND b._ref = r._id"

/-- Texts with a command that creates a role, one that binds it and one that unbinds it. -/
structure Commands where
  create : Bytes
  bind : Bytes
  unbind : Bytes
  created : Match UInt8
  bound : Match UInt8
  unbound : Match UInt8
  search_create : search createAccessRole create = some created
  search_bind : search bindAccessRole bind = some bound
  search_unbind : search unbindAccessRole unbind = some unbound
  /-- The role to unbind is given by its name, not as a parameter. -/
  named : matched unbound.groups 2 = true

namespace Commands

variable (c : Commands)

def createName : Bytes := text c.created.groups 1

def bindName : Bytes := text c.bound.groups 1

def unbindName : Bytes := text c.unbound.groups 2

/-- The same name is typed, up to the case of its letters. -/
def SameRole : Prop :=
  lower c.createName = lower c.bindName ∧ lower c.createName = lower c.unbindName

instance : Decidable c.SameRole := inferInstanceAs (Decidable (_ ∧ _))

/-- One name is stored for the role, stored for the binding and compared with it. -/
def OneName : Prop :=
  ∃ name,
    (∃ permissions, quoteWords (lower (text c.created.groups 2)) = .ok permissions ∧
      Puts translateCreateAccessRole c.create c.created (insertAccessRole name permissions)) ∧
    Puts translateBindAccessRole c.bind c.bound
      (insertBinding name (text c.bound.groups 2) (text c.bound.groups 3)
        (text c.bound.groups 4)) ∧
    Puts translateUnbindAccessRole c.unbind c.unbound (deleteBindings name c.unbound.groups)

end Commands

section Puts

variable {r : Regex UInt8} {f : Groups UInt8 → Except Conn.Error Bytes} {s t sql : Bytes}
  {m : Match UInt8}

theorem puts_replace_iff (hr : r.nullable = false) (hf : ∀ gs, ∃ t, f gs = .ok t)
    (hm : search r s = some m) (ht : f m.groups = .ok t) : Puts (replace r f) s m sql ↔ sql = t := by
  obtain ⟨rest, hrest⟩ := exists_replace hr hf m.after
  have hs : replace r f s = .ok (m.before ++ (t ++ rest)) := by
    rw [replace_eq hr, hm]
    simp only [ht, hrest]
    rfl
  constructor
  · rintro ⟨rest', hrest', hs'⟩
    obtain rfl := Except.ok.inj (hrest.symm.trans hrest')
    have htext := List.append_cancel_left (Except.ok.inj (hs'.symm.trans hs))
    exact List.append_cancel_right htext
  · rintro rfl
    exact ⟨rest, hrest, hs⟩

end Puts

section Format

variable {gs : Groups UInt8} {x tpl : Bytes}

theorem format_append (h : 36 ∉ x) : format gs (x ++ tpl) = x ++ format gs tpl := by
  induction x with
  | nil => rfl
  | cons c x ih =>
      rw [List.mem_cons, not_or] at h
      rw [List.cons_append, format, ih h.2, List.cons_append]
      intro d tpl hc
      exact absurd hc.symm (by simpa using h.1)

theorem format_group {d : UInt8} (h : isDigit d = true) :
    format gs (36 :: d :: tpl) = text gs (d.toNat - 48) ++ format gs tpl := by
  rw [format, if_pos h]

end Format

section Names

variable {role role' : Bytes}

theorem insertAccessRole_inj {permissions : Bytes}
    (h : insertAccessRole role permissions = insertAccessRole role' permissions) : role = role' := by
  have hlength : role.length = role'.length := by
    have htotal := congrArg List.length h
    simp only [insertAccessRole, List.length_append] at htotal
    omega
  simp only [insertAccessRole, List.append_assoc, List.append_cancel_left_eq] at h
  exact (List.append_inj h hlength).1

theorem insertBinding_inj {principal table query : Bytes}
    (h : insertBinding role principal table query = insertBinding role' principal table query) :
    role = role' := by
  simpa only [insertBinding, List.append_cancel_left_eq, List.append_cancel_right_eq] using h

theorem deleteBindings_inj {m : Groups UInt8} (h : deleteBindings role m = deleteBindings role' m) :
    role = role' := by
  simpa only [deleteBindings, List.append_cancel_left_eq, List.append_cancel_right_eq] using h

theorem format_bindFormat (gs : Groups UInt8) :
    format gs (utf8 bindFormat) =
      insertBinding (text gs 1) (text gs 2) (text gs 3) (text gs 4) := by
  have hparts : utf8 bindFormat =
      utf8 ("WITH r AS   (INSERT INTO __access_binding_refs__ (_origin, _origin_id)" ++
        "       VALUES ('") ++ (36 :: 51 :: (utf8 "', (" ++ (36 :: 52 ::
      (utf8 "))       RETURNING *)INSERT INTO " ++ (36 :: 51 ::
      (utf8 "__access_bindings__ (_role, _principal, _id, _ref)   SELECT '" ++ (36 :: 49 ::
      (utf8 "', '" ++ (36 :: 50 :: (utf8 "', _origin_id, _id   FROM r" ++ [])))))))))) := by
    decide +kernel
  rw [hparts, insertBinding, format_append (by decide +kernel), format_group (by decide),
    format_append (by decide +kernel), format_group (by decide), format_append (by decide +kernel),
    format_group (by decide), format_append (by decide +kernel), format_group (by decide),
    format_append (by decide +kernel), format_group (by decide), format_append (by decide +kernel),
    format, List.append_nil]
  rfl

theorem deleteBindingRefs_eq {m : Groups UInt8} (h : matched m 2 = true) :
    deleteBindingRefs m = deleteBindings (text m 2) m := by
  rw [deleteBindingRefs, deleteBindings, comparison, if_pos h]

end Names

namespace Commands

variable {c : Commands} {name : Bytes}

theorem puts_create_iff :
    (∃ permissions, quoteWords (lower (text c.created.groups 2)) = .ok permissions ∧
      Puts translateCreateAccessRole c.create c.created (insertAccessRole name permissions)) ↔
      name = lower c.createName := by
  obtain ⟨p, hp⟩ := exists_quoteWords (lower (text c.created.groups 2))
  have hputs (sql : Bytes) : Puts translateCreateAccessRole c.create c.created sql ↔
      sql = insertAccessRole (lower c.createName) p := by
    refine puts_replace_iff (by decide +kernel) (fun gs => ?_) c.search_create ?_
    · obtain ⟨p', hp'⟩ := exists_quoteWords (lower (text gs 2))
      exact ⟨insertAccessRole (lower (text gs 1)) p', by rw [hp']; rfl⟩
    · rw [hp]
      rfl
  constructor
  · rintro ⟨permissions, hpermissions, h⟩
    obtain rfl := Except.ok.inj (hp.symm.trans hpermissions)
    exact insertAccessRole_inj ((hputs _).mp h)
  · rintro rfl
    exact ⟨p, hp, (hputs _).mpr rfl⟩

theorem puts_bind_iff :
    Puts translateBindAccessRole c.bind c.bound (insertBinding name (text c.bound.groups 2)
      (text c.bound.groups 3) (text c.bound.groups 4)) ↔ name = c.bindName := by
  have hpass : translateBindAccessRole =
      replace bindAccessRole fun gs => .ok (format gs (utf8 bindFormat)) := rfl
  rw [hpass, puts_replace_iff (by decide +kernel) (fun gs => ⟨_, rfl⟩) c.search_bind rfl, format_bindFormat]
  constructor
  · intro h
    exact insertBinding_inj h
  · rintro rfl
    rfl

theorem puts_unbind_iff :
    Puts translateUnbindAccessRole c.unbind c.unbound (deleteBindings name c.unbound.groups) ↔
      name = c.unbindName := by
  rw [translateUnbindAccessRole,
    puts_replace_iff (by decide +kernel) (fun gs => ⟨_, rfl⟩) c.search_unbind rfl,
    deleteBindingRefs_eq c.named]
  constructor
  · intro h
    exact deleteBindings_inj h
  · rintro rfl
    rfl

/-- Only the command that creates a role changes the case of its name. -/
theorem oneName_iff :
    c.OneName ↔ c.bindName = lower c.createName ∧ c.unbindName = lower c.createName := by
  constructor
  · rintro ⟨name, hcreate, hbind, hunbind⟩
    obtain rfl := puts_create_iff.mp hcreate
    exact ⟨(puts_bind_iff.mp hbind).symm, (puts_unbind_iff.mp hunbind).symm⟩
  · rintro ⟨hbind, hunbind⟩
    exact ⟨lower c.createName, puts_create_iff.mpr rfl, puts_bind_iff.mpr hbind.symm,
      puts_unbind_iff.mpr hunbind.symm⟩

end Commands

theorem oneName_iff_lower (c : Commands) (hsame : c.SameRole) :
    c.OneName ↔ lower c.bindName = c.bindName ∧ lower c.unbindName = c.unbindName := by
  rw [Commands.oneName_iff]
  constructor
  · rintro ⟨hbind, hunbind⟩
    exact ⟨hsame.1.symm.trans hbind.symm, hsame.2.symm.trans hunbind.symm⟩
  · rintro ⟨hbind, hunbind⟩
    exact ⟨hbind.symm.trans hsame.1.symm, hunbind.symm.trans hsame.2.symm⟩

def commands (create bind unbind : Bytes) (hcreate : (search createAccessRole create).isSome = true)
    (hbind : (search bindAccessRole bind).isSome = true)
    (hunbind : (search unbindAccessRole unbind).isSome = true)
    (hnamed : matched ((search unbindAccessRole unbind).get hunbind).groups 2 = true) : Commands where
  create := create
  bind := bind
  unbind := unbind
  created := (search createAccessRole create).get hcreate
  bound := (search bindAccessRole bind).get hbind
  unbound := (search unbindAccessRole unbind).get hunbind
  search_create := (Option.some_get hcreate).symm
  search_bind := (Option.some_get hbind).symm
  search_unbind := (Option.some_get hunbind).symm
  named := hnamed

def viewerBound : Commands :=
  commands (utf8 "CREATE ACCESS ROLE Viewer WITH view")
    (utf8 "BIND ACCESS ROLE viewer TO tom ON folders (SELECT 1)")
    (utf8 "UNBIND ACCESS ROLE viewer FROM tom ON folders (SELECT 1)")
    (by decide +kernel) (by decide +kernel) (by decide +kernel) (by decide +kernel)

/-- A role that is created in another case is found. -/
theorem oneName_iff_lower_viewerBound :
    viewerBound.OneName ↔
      lower viewerBound.bindName = viewerBound.bindName ∧
        lower viewerBound.unbindName = viewerBound.unbindName :=
  oneName_iff_lower viewerBound (by decide +kernel)

def viewerUnbound : Commands :=
  commands (utf8 "CREATE ACCESS ROLE viewer WITH view")
    (utf8 "BIND ACCESS ROLE viewer TO tom ON folders (SELECT 1)")
    (utf8 "UNBIND ACCESS ROLE Viewer FROM tom ON folders (SELECT 1)")
    (by decide +kernel) (by decide +kernel) (by decide +kernel) (by decide +kernel)

/-- The binding is stored for `viewer`, and the one that is deleted is that of `Viewer`. -/
theorem not_oneName_viewerUnbound : viewerUnbound.SameRole ∧ ¬viewerUnbound.OneName := by
  refine ⟨by decide +kernel, fun h => ?_⟩
  have hunbind := (Commands.oneName_iff.mp h).2
  have hcase : viewerUnbound.unbindName ≠ lower viewerUnbound.createName := by decide +kernel
  exact hcase hunbind

end PgFort.RoleNames
