import PgFort.CommandShapes

namespace PgFort.CommandPasses

open PgFort.Framing
open PgFort.Conn
open PgFort.Regexes
open PgFort.FirstWays
open PgFort.ProxyCommand
open PgFort.CommandLayouts
open PgFort.Shapes
open PgFort.CommandShapes

variable (file : Bytes)

/-- The pass of the translation that is for a form of command. -/
def pass : Form → Bytes → Except Conn.Error Bytes
  | .enableAccessControl => translateEnableAccessControl
  | .createAccessPermission => translateCreateAccessPermission
  | .createAccessRole => translateCreateAccessRole
  | .createAccessInheritance => translateCreateAccessInheritance file
  | .listAccessPermission => translateListAccessPermission
  | .listAccessRoleBinding => translateListAccessRoleBinding
  | .listAccessRole => translateListAccessRole
  | .listAccessInheritance => translateListAccessInheritance file
  | .bindAccessRole => translateBindAccessRole
  | .unbindAccessRole => translateUnbindAccessRole

theorem passes_eq : passes file = Form.all.map (pass file) := rfl

section Passes

variable {file : Bytes} {f : Form} {s t : Bytes}

theorem regex_not_nullable (f : Form) : f.regex.nullable = false := by
  cases f <;> decide +kernel

theorem exists_pass_eq (file : Bytes) (f : Form) : ∃ g, pass file f = replace f.regex g := by
  cases f <;> exact ⟨_, rfl⟩

/-- A pass copies text in which no command of its own begins. -/
theorem pass_eq_self (h : Unmatched f.regex s []) : pass file f s = .ok s := by
  obtain ⟨g, hg⟩ := exists_pass_eq file f
  rw [hg]
  exact replace_eq_self (regex_not_nullable f) h

theorem foldlM_passes_eq_self (file : Bytes) {fs : List Form} (h : ∀ f ∈ fs, Unmatched f.regex s []) :
    (fs.map (pass file)).foldlM (fun s pass => pass s) s = .ok s := by
  induction fs with
  | nil => rfl
  | cons f fs ih =>
      obtain ⟨hf, hfs⟩ := List.forall_mem_cons.mp h
      rw [List.map_cons, List.foldlM_cons, pass_eq_self hf]
      exact ih hfs

theorem foldlM_passes (hearlier : ∀ g ∈ f.earlier, Unmatched g.regex s [])
    (hown : pass file f s = .ok t) (hlater : ∀ g, g ≠ f → Unmatched g.regex t []) :
    (passes file).foldlM (fun s pass => pass s) s = .ok t := by
  obtain ⟨later, hall, hnot⟩ := f.exists_later
  have hfirst := foldlM_passes_eq_self file hearlier
  have hlast := foldlM_passes_eq_self file fun g (hg : g ∈ later) =>
    hlater g fun heq => hnot (heq ▸ hg)
  rw [passes_eq, hall, List.map_append, List.foldlM_append, hfirst]
  change (((f :: later).map (pass file)).foldlM (fun s pass => pass s) s : Except _ _) = _
  rw [List.map_cons, List.foldlM_cons, hown]
  exact hlast

theorem translate_uncommented (hcomments : Unmatched comment s []) :
    translate file s =
      match (passes file).foldlM (fun s pass => pass s) s with
      | .ok t => (t, Conn.Error.noError)
      | .error err => (s, err) := by
  have hremove : removeComments s = .ok s :=
    replace_eq_self (by decide +kernel) hcomments
  rw [ProxyCommand.translate, hremove]
  rfl

theorem translate_eq (hcomments : Unmatched comment s [])
    (hearlier : ∀ g ∈ f.earlier, Unmatched g.regex s []) (hown : pass file f s = .ok t)
    (hlater : ∀ g, g ≠ f → Unmatched g.regex t []) : translate file s = (t, .noError) := by
  rw [translate_uncommented hcomments, foldlM_passes hearlier hown hlater]

end Passes

section Unmatched

variable {r : Regex UInt8} {a b following : Bytes}

theorem unmatched_nil : Unmatched r [] following := by
  intro x u hsplit hu
  exact absurd (List.append_eq_nil_iff.mp hsplit.symm).2 hu

theorem unmatched_append (ha : Unmatched r a (b ++ following)) (hb : Unmatched r b following) :
    Unmatched r (a ++ b) following := by
  intro x u hsplit hu
  rcases List.append_eq_append_iff.mp hsplit with ⟨v, rfl, rfl⟩ | ⟨v, rfl, rfl⟩
  · exact hb v u rfl hu
  · rw [List.append_assoc]
    cases v with
    | nil => exact hb [] b rfl hu
    | cons y v => exact ha x (y :: v) rfl (List.cons_ne_nil _ _)

/-- The shapes that have neither of the symbols that a comment begins with. -/
def Uncommented (s : Shape Kind) : Prop :=
  kinds.absent [[.one (.letter 45)], [.one (.letter 47)]] s = true

instance (s : Shape Kind) : Decidable (Uncommented s) := inferInstanceAs (Decidable (_ = true))

theorem not_mem_of_uncommented {c : UInt8} {s : Shape Kind} (h : Uncommented s)
    (hs : kinds.Fills s a) (hc : code c = 45 ∨ code c = 47) : c ∉ a := by
  intro hin
  obtain ⟨x, y, rfl⟩ := List.append_of_mem hin
  have hfits {n : ℕ} (hn : code c = n) : kinds.Fits [.one (.letter n)] [c] :=
    ⟨c, [], Kind.is_letter hn, rfl, rfl⟩
  rcases hc with hc | hc
  · exact not_fits_of_absent h hs (by simp) (d := y) rfl (hfits hc)
  · exact not_fits_of_absent h hs (by simp) (d := y) rfl (hfits hc)

theorem unmatched_comment {s : Shape Kind} (h : Uncommented s) (hs : kinds.Fills s a)
    (following : Bytes) : Unmatched comment a following := by
  intro x u hsplit hu
  obtain ⟨y, u, rfl⟩ := List.exists_cons_of_ne_nil hu
  have hy : y ∈ a := hsplit ▸ by simp
  refine matchHere_eq_none fun t rest ht heq => ?_
  rcases ht with ⟨b, c, ⟨_, d, ⟨z, hz, rfl⟩, -, rfl⟩, -, rfl⟩ |
    ⟨b, c, ⟨_, d, ⟨z, hz, rfl⟩, -, rfl⟩, -, rfl⟩
  · obtain ⟨rfl, -⟩ := List.cons.inj heq
    have hdash : y = 45 := beq_iff_eq.mp hz
    exact not_mem_of_uncommented h hs (.inl rfl) (hdash ▸ hy)
  · obtain ⟨rfl, -⟩ := List.cons.inj heq
    have hslash : y = 47 := beq_iff_eq.mp hz
    exact not_mem_of_uncommented h hs (.inr rfl) (hslash ▸ hy)

end Unmatched

end PgFort.CommandPasses
