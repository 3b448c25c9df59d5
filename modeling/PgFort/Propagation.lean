import Mathlib.Data.List.Induction
import Mathlib.Data.Set.Basic
import PgFort.Bindings

namespace PgFort.Propagation

open PgFort.KeyedRows
open PgFort.Bindings

/-- The roles, principals and refs that a row of `d` holds by an inheritance. -/
def grantsAt (bs : BindingTables) (d : String) (id inheritance : Int) :
    Set (String × String × Int) :=
  {g | ∃ b ∈ (bs d).rows, b.id = id ∧ b.inheritance = inheritance ∧ b.grant = g}

/-- What the source row grants. -/
def sourceGrants (new : NewRow) (i : Inheritance) (bs : BindingTables) :
    Set (String × String × Int) :=
  {g | ∃ b ∈ sourceRows new i bs, b.grant = g}

/-- The trigger function succeeds, the row then holds by every inheritance what the source
holds, and all other bindings are as before. -/
def Propagates (inhs : Inheritances) (d : String) (new : NewRow) (bs : BindingTables) : Prop :=
  ∃ bs', setAccessBindings inhs d new bs = .ok bs' ∧
    (∀ i ∈ inhs.rows, i.dst = d → grantsAt bs' d new.id i.id = sourceGrants new i bs') ∧
    ∀ t b, (t = d → b.id = new.id → ∀ i ∈ inhs.rows, i.dst = d → b.inheritance ≠ i.id) →
      (b ∈ (bs' t).rows ↔ b ∈ (bs t).rows)

/-- The inheritance leads from the row to itself. -/
def OwnSource (new : NewRow) (i : Inheritance) : Prop :=
  i.src = i.dst ∧ new.yields i.srcQuery = some new.id

/-- The source query selects at most one row, and its source holds no ref twice, is not empty if the
row holds bindings by the inheritance, and agrees with those on the role and principal of a ref. -/
structure Agrees (new : NewRow) (i : Inheritance) (bs : BindingTables) : Prop where
  scalar : new.Scalar i.srcQuery
  distinct : ∀ a ∈ sourceRows new i bs, ∀ b ∈ sourceRows new i bs, a.ref = b.ref → a = b
  nonempty : ∀ o ∈ (bs i.dst).rows, o.id = new.id → o.inheritance = i.id →
    ∃ n, n ∈ sourceRows new i bs
  same : ∀ n ∈ sourceRows new i bs, ∀ o ∈ (bs i.dst).rows, o.id = new.id →
    o.inheritance = i.id → o.ref = n.ref → o.grant = n.grant

/-- What the row is to hold by an inheritance when those in `pre` have been followed. -/
def held (new : NewRow) (d : String) (pre : List Inheritance) (bs : BindingTables)
    (inheritance : Int) : Set (String × String × Int) :=
  {g | (∃ k ∈ pre, k.id = inheritance ∧ g ∈ sourceGrants new k bs) ∨
    (∀ k ∈ pre, k.id ≠ inheritance) ∧ g ∈ grantsAt bs d new.id inheritance}

/-- A row that is its own source is to hold every ref in one way when its turn comes, and
nothing new afterwards. -/
def SelfConsistent (new : NewRow) (d : String) (pre post : List Inheritance)
    (bs : BindingTables) : Prop :=
  (∀ w w' g g', g ∈ held new d pre bs w → g' ∈ held new d pre bs w' → g.2.2 = g'.2.2 → w = w') ∧
    ∀ j ∈ post, ∀ g ∈ sourceGrants new j bs, ∃ w, g ∈ held new d pre bs w

/-- The condition on the bindings that the trigger finds: no statement of it has a row to add twice,
and none that should be deleted is left. -/
def Propagable (inhs : Inheritances) (d : String) (new : NewRow) (bs : BindingTables) : Prop :=
  ∀ pre i post, (inhs.rows.filter fun i => i.dst = d) = pre ++ i :: post →
    (¬ OwnSource new i → Agrees new i bs) ∧ (OwnSource new i → SelfConsistent new d pre post bs)

section Statement

variable {new : NewRow} {i : Inheritance} {bs bs' : BindingTables}

theorem grantsAt_inherit (h : inherit new i bs = .ok bs') :
    grantsAt bs' i.dst new.id i.id = sourceGrants new i bs ↔ Agrees new i bs := by
  obtain ⟨hscalar, hdistinct⟩ := exists_inherit_ok.mp ⟨bs', h⟩
  constructor
  · intro heq
    refine ⟨hscalar, hdistinct, fun o ho hid hinh => ?_, fun n hn o ho hid hinh href => ?_⟩
    · by_contra hnone
      have hnil : sourceRows new i bs = [] :=
        List.eq_nil_iff_forall_not_mem.mpr fun n hn => hnone ⟨n, hn⟩
      have hmem : o.grant ∈ grantsAt bs' i.dst new.id i.id :=
        ⟨o, (mem_inherit h hid hinh).mpr (.inl ⟨hnil, ho⟩), hid, hinh, rfl⟩
      rw [heq] at hmem
      obtain ⟨n, hn, -⟩ := hmem
      exact hnone ⟨n, hn⟩
    · have hmem : o.grant ∈ grantsAt bs' i.dst new.id i.id := by
        refine ⟨touch new o, ?_, hid, hinh, rfl⟩
        exact (mem_inherit (b := touch new o) h hid hinh).mpr
          (.inr (.inl ⟨o, ho, hid, hinh, ⟨n, hn, href.symm⟩, rfl⟩))
      rw [heq] at hmem
      obtain ⟨n', hn', hgrant⟩ := hmem
      have href' : n'.ref = n.ref := by
        rw [← href]
        exact congrArg (fun g => g.2.2) hgrant
      rw [← hgrant, hdistinct n' hn' n hn href']
  · intro hagrees
    ext g
    constructor
    · rintro ⟨b, hb, hid, hinh, rfl⟩
      rcases (mem_inherit h hid hinh).mp hb with ⟨hnil, hb⟩ | ⟨o, ho, hoid, hoinh, ⟨n, hn, href⟩, rfl⟩ |
        ⟨n, hn, rfl, -⟩
      · obtain ⟨n, hn⟩ := hagrees.nonempty b hb hid hinh
        exact absurd hn (by simp [hnil])
      · exact ⟨n, hn, (hagrees.same n hn o ho hoid hoinh href.symm).symm⟩
      · exact ⟨n, hn, rfl⟩
    · rintro ⟨n, hn, rfl⟩
      by_cases hold : ∃ o ∈ (bs i.dst).rows, o.id = new.id ∧ o.inheritance = i.id ∧ o.ref = n.ref
      · obtain ⟨o, ho, hid, hinh, href⟩ := hold
        refine ⟨touch new o, ?_, hid, hinh, hagrees.same n hn o ho hid hinh href⟩
        exact (mem_inherit (b := touch new o) h hid hinh).mpr
          (.inr (.inl ⟨o, ho, hid, hinh, ⟨n, hn, href.symm⟩, rfl⟩))
      · refine ⟨inherited new i n, ?_, rfl, rfl, rfl⟩
        refine (mem_inherit h rfl rfl).mpr (.inr (.inr ⟨n, hn, rfl, fun o ho hid hinh href => ?_⟩))
        exact hold ⟨o, ho, hid, hinh, href⟩

theorem mem_sourceGrants_of_ownSource (hown : OwnSource new i) {g : String × String × Int} :
    g ∈ sourceGrants new i bs ↔ ∃ w, g ∈ grantsAt bs i.dst new.id w := by
  obtain ⟨hsrc, hyield⟩ := hown
  constructor
  · rintro ⟨b, hb, rfl⟩
    obtain ⟨hid, hb⟩ := mem_sourceRows.mp hb
    rw [hyield] at hid
    exact ⟨b.inheritance, b, hsrc ▸ hb, (Option.some.inj hid).symm, rfl, rfl⟩
  · rintro ⟨w, b, hb, hid, -, rfl⟩
    exact ⟨b, mem_sourceRows.mpr ⟨by rw [hyield, hid], hsrc ▸ hb⟩, rfl⟩

theorem mem_sourceRows_of_ownSource (hown : OwnSource new i) {b : Binding} :
    b ∈ sourceRows new i bs ↔ b ∈ (bs i.dst).rows ∧ b.id = new.id := by
  rw [mem_sourceRows, hown.1, hown.2, Option.some.injEq, and_comm, eq_comm]

theorem agrees_of_distinct (hown : OwnSource new i)
    (hdistinct : ∀ a ∈ sourceRows new i bs, ∀ b ∈ sourceRows new i bs, a.ref = b.ref → a = b) :
    Agrees new i bs := by
  have hmem : ∀ o ∈ (bs i.dst).rows, o.id = new.id → o ∈ sourceRows new i bs :=
    fun o ho hid => (mem_sourceRows_of_ownSource hown).mpr ⟨ho, hid⟩
  refine ⟨scalar_of_yields hown.2, hdistinct, fun o ho hid _ => ⟨o, hmem o ho hid⟩,
    fun n hn o ho hid _ href => ?_⟩
  rw [hdistinct o (hmem o ho hid) n hn href]

theorem agrees_iff_of_ownSource (hown : OwnSource new i) :
    Agrees new i bs ↔
      ∀ w w' g g', g ∈ grantsAt bs i.dst new.id w → g' ∈ grantsAt bs i.dst new.id w' →
        g.2.2 = g'.2.2 → w = w' := by
  constructor
  · rintro hagrees w w' g g' ⟨b, hb, hid, rfl, rfl⟩ ⟨b', hb', hid', rfl, rfl⟩ href
    rw [hagrees.distinct b ((mem_sourceRows_of_ownSource hown).mpr ⟨hb, hid⟩) b'
      ((mem_sourceRows_of_ownSource hown).mpr ⟨hb', hid'⟩) href]
  · intro hall
    refine agrees_of_distinct hown fun a ha b hb href => ?_
    obtain ⟨ha, haid⟩ := (mem_sourceRows_of_ownSource hown).mp ha
    obtain ⟨hb, hbid⟩ := (mem_sourceRows_of_ownSource hown).mp hb
    have hinh := hall a.inheritance b.inheritance a.grant b.grant
      ⟨a, ha, haid, rfl, rfl⟩ ⟨b, hb, hbid, rfl, rfl⟩ href
    exact eq_of_mem_of_key_eq (bs i.dst) ha hb (by simp [Binding.key, haid, hbid, hinh, href])

end Statement

section Loop

variable {new : NewRow} {d : String} {is js : List Inheritance} {bs bs' : BindingTables}

theorem inheritAll_append :
    inheritAll new (is ++ js) bs = .ok bs' ↔
      ∃ bs₁, inheritAll new is bs = .ok bs₁ ∧ inheritAll new js bs₁ = .ok bs' := by
  induction is generalizing bs with
  | nil => simp [inheritAll]
  | cons i is ih =>
      rw [List.cons_append, inheritAll, inheritAll]
      cases inherit new i bs with
      | error e => simp [bind, Except.bind]
      | ok bs₂ => exact ih

theorem inheritAll_cons {i : Inheritance} :
    inheritAll new (i :: js) bs = .ok bs' ↔
      ∃ bs₁, inherit new i bs = .ok bs₁ ∧ inheritAll new js bs₁ = .ok bs' := by
  rw [inheritAll]
  cases inherit new i bs <;> simp [bind, Except.bind]

theorem mem_inheritAll_of_frame (h : inheritAll new is bs = .ok bs') {b : Binding}
    (hb : b.id = new.id → ∀ i ∈ is, b.inheritance ≠ i.id) (t : String) :
    b ∈ (bs' t).rows ↔ b ∈ (bs t).rows := by
  induction is generalizing bs with
  | nil =>
      obtain rfl := Except.ok.inj h
      exact Iff.rfl
  | cons i is ih =>
      obtain ⟨bs₁, h₁, h₂⟩ := inheritAll_cons.mp h
      rw [ih h₂ fun hid k hk => hb hid k (List.mem_cons_of_mem _ hk)]
      exact mem_inherit_of_frame h₁ (fun hkey => hb hkey.1 i List.mem_cons_self hkey.2) t

theorem inheritAll_of_ne (h : inheritAll new is bs = .ok bs') (his : ∀ i ∈ is, i.dst = d)
    {t : String} (ht : t ≠ d) : bs' t = bs t := by
  induction is generalizing bs with
  | nil =>
      obtain rfl := Except.ok.inj h
      rfl
  | cons i is ih =>
      obtain ⟨bs₁, h₁, h₂⟩ := inheritAll_cons.mp h
      rw [ih h₂ fun k hk => his k (List.mem_cons_of_mem _ hk)]
      exact inherit_of_ne h₁ (his i List.mem_cons_self ▸ ht)

theorem grantsAt_inheritAll (h : inheritAll new is bs = .ok bs') {w : Int}
    (hw : ∀ i ∈ is, i.id ≠ w) (t : String) : grantsAt bs' t new.id w = grantsAt bs t new.id w := by
  ext g
  constructor
  · rintro ⟨b, hb, hid, rfl, rfl⟩
    exact ⟨b, (mem_inheritAll_of_frame h (fun _ i hi heq => hw i hi heq.symm) t).mp hb, hid, rfl, rfl⟩
  · rintro ⟨b, hb, hid, rfl, rfl⟩
    exact ⟨b, (mem_inheritAll_of_frame h (fun _ i hi heq => hw i hi heq.symm) t).mpr hb, hid, rfl, rfl⟩

theorem mem_sourceRows_inheritAll (h : inheritAll new is bs = .ok bs')
    (his : ∀ i ∈ is, i.dst = d) {i : Inheritance} (hi : i.dst = d) (hown : ¬ OwnSource new i)
    {b : Binding} : b ∈ sourceRows new i bs' ↔ b ∈ sourceRows new i bs := by
  rw [mem_sourceRows, mem_sourceRows]
  refine and_congr_right fun hyield => ?_
  by_cases hsrc : i.src = d
  · apply mem_inheritAll_of_frame h
    intro hid
    exact absurd ⟨hsrc.trans hi.symm, by rw [hyield, hid]⟩ hown
  · rw [inheritAll_of_ne h his hsrc]

theorem sourceGrants_inheritAll (h : inheritAll new is bs = .ok bs')
    (his : ∀ i ∈ is, i.dst = d) {i : Inheritance} (hi : i.dst = d) (hown : ¬ OwnSource new i) :
    sourceGrants new i bs' = sourceGrants new i bs := by
  ext g
  exact exists_congr fun b => and_congr_left fun _ => mem_sourceRows_inheritAll h his hi hown

theorem grant_of_mem_inherit {i : Inheritance} (hinherit : inherit new i bs = .ok bs')
    {t : String} {b : Binding} (hb : b ∈ (bs' t).rows) :
    ∃ u, ∃ o ∈ (bs u).rows, o.grant = b.grant := by
  by_cases hkey : t = i.dst ∧ b.id = new.id ∧ b.inheritance = i.id
  · obtain ⟨rfl, hid, hinh⟩ := hkey
    rcases (mem_inherit hinherit hid hinh).mp hb with
      ⟨-, hb⟩ | ⟨o, ho, -, -, -, rfl⟩ | ⟨n, hn, rfl, -⟩
    · exact ⟨i.dst, b, hb, rfl⟩
    · exact ⟨i.dst, o, ho, rfl⟩
    · exact ⟨i.src, n, (mem_sourceRows.mp hn).2, rfl⟩
  · refine ⟨t, b, ?_, rfl⟩
    by_cases ht : t = i.dst
    · exact (mem_inherit_of_frame hinherit (fun h => hkey ⟨ht, h⟩) t).mp hb
    · rw [inherit_of_ne hinherit ht] at hb
      exact hb

theorem grant_of_mem_inheritAll (hok : inheritAll new is bs = .ok bs') {t : String} {b : Binding}
    (hb : b ∈ (bs' t).rows) :
    ∃ u, ∃ o ∈ (bs u).rows, o.grant = b.grant := by
  induction is generalizing bs with
  | nil =>
      obtain rfl := Except.ok.inj hok
      exact ⟨t, b, hb, rfl⟩
  | cons i is ih =>
      obtain ⟨bs₁, hinherit, hrest⟩ := inheritAll_cons.mp hok
      obtain ⟨u, o, ho, hgrant⟩ := ih hrest
      obtain ⟨u', o', ho', hgrant'⟩ := grant_of_mem_inherit hinherit ho
      exact ⟨u', o', ho', hgrant'.trans hgrant⟩

theorem forall_mem_inherit {i : Inheritance} {P : String → Binding → Prop}
    (htouch : ∀ t b, P t b → P t (touch new b))
    (hinherited : ∀ b, new.yields i.srcQuery = some b.id → P i.src b → P i.dst (inherited new i b))
    (h : ∀ t, ∀ b ∈ (bs t).rows, P t b) (hinherit : inherit new i bs = .ok bs') :
    ∀ t, ∀ b ∈ (bs' t).rows, P t b := by
  intro t b hb
  by_cases hkey : t = i.dst ∧ b.id = new.id ∧ b.inheritance = i.id
  · obtain ⟨rfl, hid, hinh⟩ := hkey
    rcases (mem_inherit hinherit hid hinh).mp hb with
      ⟨-, hb⟩ | ⟨o, ho, -, -, -, rfl⟩ | ⟨n, hn, rfl, -⟩
    · exact h i.dst b hb
    · exact htouch i.dst o (h i.dst o ho)
    · obtain ⟨hyields, hn⟩ := mem_sourceRows.mp hn
      exact hinherited n hyields (h i.src n hn)
  · refine h t b ?_
    by_cases ht : t = i.dst
    · exact (mem_inherit_of_frame hinherit (fun h' => hkey ⟨ht, h'⟩) t).mp hb
    · rw [inherit_of_ne hinherit ht] at hb
      exact hb

theorem forall_mem_inheritAll {P : String → Binding → Prop}
    (htouch : ∀ t b, P t b → P t (touch new b))
    (hinherited : ∀ i ∈ is, ∀ b, new.yields i.srcQuery = some b.id → P i.src b →
      P i.dst (inherited new i b))
    (h : ∀ t, ∀ b ∈ (bs t).rows, P t b) (hok : inheritAll new is bs = .ok bs') :
    ∀ t, ∀ b ∈ (bs' t).rows, P t b := by
  induction is generalizing bs with
  | nil =>
      obtain rfl := Except.ok.inj hok
      exact h
  | cons i is ih =>
      obtain ⟨bs₁, hinherit, hrest⟩ := inheritAll_cons.mp hok
      refine ih (fun k hk => hinherited k (List.mem_cons_of_mem _ hk)) ?_ hrest
      exact forall_mem_inherit htouch (hinherited i List.mem_cons_self) h hinherit

theorem agrees_inheritAll (h : inheritAll new is bs = .ok bs') (his : ∀ i ∈ is, i.dst = d)
    {i : Inheritance} (hi : i.dst = d) (hown : ¬ OwnSource new i) (hid : ∀ k ∈ is, k.id ≠ i.id) :
    Agrees new i bs' ↔ Agrees new i bs := by
  have hsource : ∀ b, b ∈ sourceRows new i bs' ↔ b ∈ sourceRows new i bs :=
    fun b => mem_sourceRows_inheritAll h his hi hown
  have hold : ∀ o : Binding, o.inheritance = i.id →
      (o ∈ (bs' i.dst).rows ↔ o ∈ (bs i.dst).rows) := by
    intro o ho
    exact mem_inheritAll_of_frame h (fun _ k hk heq => hid k hk (heq.symm.trans ho)) i.dst
  constructor
  · intro hagrees
    refine ⟨hagrees.scalar, fun a ha b hb => hagrees.distinct a ((hsource a).mpr ha) b ((hsource b).mpr hb),
      fun o ho hoid hinh => ?_, fun n hn o ho hoid hinh => ?_⟩
    · obtain ⟨n, hn⟩ := hagrees.nonempty o ((hold o hinh).mpr ho) hoid hinh
      exact ⟨n, (hsource n).mp hn⟩
    · exact hagrees.same n ((hsource n).mpr hn) o ((hold o hinh).mpr ho) hoid hinh
  · intro hagrees
    refine ⟨hagrees.scalar, fun a ha b hb => hagrees.distinct a ((hsource a).mp ha) b ((hsource b).mp hb),
      fun o ho hoid hinh => ?_, fun n hn o ho hoid hinh => ?_⟩
    · obtain ⟨n, hn⟩ := hagrees.nonempty o ((hold o hinh).mp ho) hoid hinh
      exact ⟨n, (hsource n).mpr hn⟩
    · exact hagrees.same n ((hsource n).mp hn) o ((hold o hinh).mp ho) hoid hinh

/-- When the inheritances followed so far have left what their sources hold, the row holds
what it is to hold. -/
theorem grantsAt_eq_held (h : inheritAll new is bs = .ok bs')
    (hgrants : ∀ k ∈ is, grantsAt bs' d new.id k.id = sourceGrants new k bs) (w : Int) :
    grantsAt bs' d new.id w = held new d is bs w := by
  ext g
  by_cases hw : ∃ k ∈ is, k.id = w
  · obtain ⟨k, hk, rfl⟩ := hw
    rw [hgrants k hk]
    constructor
    · intro hg
      exact .inl ⟨k, hk, rfl, hg⟩
    · rintro (⟨k', hk', hid, hg⟩ | ⟨hne, -⟩)
      · rw [← hgrants k hk, ← hid, hgrants k' hk']
        exact hg
      · exact absurd rfl (hne k hk)
  · have hne : ∀ k ∈ is, k.id ≠ w := fun k hk hid => hw ⟨k, hk, hid⟩
    rw [grantsAt_inheritAll h hne]
    constructor
    · intro hg
      exact .inr ⟨hne, hg⟩
    · rintro (⟨k, hk, hid, -⟩ | ⟨-, hg⟩)
      · exact absurd hid (hne k hk)
      · exact hg

end Loop

section Trigger

variable {inhs : Inheritances} {d : String} {new : NewRow} {bs bs' : BindingTables}
  {pre post : List Inheritance} {i : Inheritance}

theorem mem_filter_dst {k : Inheritance} :
    k ∈ (inhs.rows.filter fun i => i.dst = d) ↔ k ∈ inhs.rows ∧ k.dst = d := by
  rw [List.mem_filter, decide_eq_true_eq]

theorem dst_of_split (hsplit : (inhs.rows.filter fun i => i.dst = d) = pre ++ i :: post)
    {k : Inheritance} (hk : k ∈ pre ∨ k = i ∨ k ∈ post) : k ∈ inhs.rows ∧ k.dst = d := by
  rw [← mem_filter_dst, hsplit, List.mem_append, List.mem_cons]
  exact hk

theorem ids_of_split (hsplit : (inhs.rows.filter fun i => i.dst = d) = pre ++ i :: post) :
    (∀ k ∈ pre, k.id ≠ i.id) ∧ (∀ k ∈ post, k.id ≠ i.id) ∧
      ∀ k ∈ pre, ∀ j ∈ post, k.id ≠ j.id := by
  have hids : ((pre ++ i :: post).map Inheritance.id).Nodup := by
    rw [← hsplit]
    exact inhs.primaryKey.sublist (List.filter_sublist.map _)
  rw [List.map_append, List.map_cons, List.nodup_append, List.nodup_cons] at hids
  obtain ⟨-, ⟨hpost, -⟩, hne⟩ := hids
  refine ⟨fun k hk => ?_, fun k hk heq => ?_, fun k hk j hj => ?_⟩
  · exact hne _ (List.mem_map_of_mem hk) _ List.mem_cons_self
  · exact hpost (List.mem_map.mpr ⟨k, hk, heq⟩)
  · exact hne _ (List.mem_map_of_mem hk) _ (List.mem_cons_of_mem _ (List.mem_map_of_mem hj))

theorem not_ownSource_of_split
    (hsplit : (inhs.rows.filter fun i => i.dst = d) = pre ++ i :: post)
    (hown : OwnSource new i) {k : Inheritance} (hk : k ∈ pre ∨ k ∈ post) : ¬ OwnSource new k := by
  intro hk'
  have hmem := dst_of_split hsplit (k := k) (hk.imp_right .inr)
  have himem := dst_of_split hsplit (k := i) (.inr (.inl rfl))
  have heq : k = i := by
    refine List.inj_on_of_nodup_map inhs.unique hmem.1 himem.1 ?_
    rw [hk'.1, hown.1, hmem.2, himem.2]
  obtain ⟨hpre, hpost, -⟩ := ids_of_split hsplit
  rcases hk with hk | hk
  · exact hpre k hk (heq ▸ rfl)
  · exact hpost k hk (heq ▸ rfl)

theorem agrees_of_propagates_of_not_own (h : Propagates inhs d new bs)
    (hsplit : (inhs.rows.filter fun i => i.dst = d) = pre ++ i :: post)
    (hown : ¬ OwnSource new i) : Agrees new i bs := by
  obtain ⟨bs', hok, hgrants, -⟩ := h
  have hi := dst_of_split hsplit (k := i) (.inr (.inl rfl))
  obtain ⟨hpreId, hpostId, -⟩ := ids_of_split hsplit
  rw [setAccessBindings, hsplit] at hok
  obtain ⟨bs₁, h₁, h₂⟩ := inheritAll_append.mp hok
  obtain ⟨bs₂, h₂, h₃⟩ := inheritAll_cons.mp h₂
  have hpreDst : ∀ k ∈ pre, k.dst = d := fun k hk => (dst_of_split hsplit (.inl hk)).2
  have hpostDst : ∀ k ∈ post, k.dst = d := fun k hk => (dst_of_split hsplit (.inr (.inr hk))).2
  have hsource : sourceGrants new i bs' = sourceGrants new i bs₁ := by
    have hcons : inheritAll new (i :: post) bs₁ = .ok bs' := inheritAll_cons.mpr ⟨bs₂, h₂, h₃⟩
    refine sourceGrants_inheritAll hcons ?_ hi.2 hown
    intro k hk
    rcases List.mem_cons.mp hk with rfl | hk
    · exact hi.2
    · exact hpostDst k hk
  rw [← agrees_inheritAll h₁ hpreDst hi.2 hown hpreId, ← grantsAt_inherit h₂, ← hsource,
    ← hgrants i hi.1 hi.2, grantsAt_inheritAll h₃ hpostId, hi.2]

theorem propagable_of_propagates (h : Propagates inhs d new bs) : Propagable inhs d new bs := by
  intro pre i post hsplit
  refine ⟨agrees_of_propagates_of_not_own h hsplit, fun hown => ?_⟩
  obtain ⟨bs', hok, hgrants, -⟩ := h
  have hi := dst_of_split hsplit (k := i) (.inr (.inl rfl))
  obtain ⟨-, hpostId, hprePost⟩ := ids_of_split hsplit
  have hnot : ∀ k, k ∈ pre ∨ k ∈ post → ¬ OwnSource new k :=
    fun k hk => not_ownSource_of_split hsplit hown hk
  have hall : ∀ k ∈ pre ++ i :: post, k.dst = d := fun k hk =>
    (mem_filter_dst.mp (hsplit ▸ hk)).2
  rw [setAccessBindings, hsplit] at hok
  have hsource : ∀ k, k ∈ pre ∨ k ∈ post → sourceGrants new k bs' = sourceGrants new k bs := by
    intro k hk
    exact sourceGrants_inheritAll hok hall
      (dst_of_split hsplit (hk.imp_right .inr)).2 (hnot k hk)
  obtain ⟨bs₁, h₁, h₂⟩ := inheritAll_append.mp hok
  obtain ⟨bs₂, h₂, h₃⟩ := inheritAll_cons.mp h₂
  -- what the row holds when its own turn comes
  have hheld : ∀ w, grantsAt bs₁ d new.id w = held new d pre bs w := by
    refine grantsAt_eq_held h₁ fun k hk => ?_
    have hkmem := dst_of_split hsplit (k := k) (.inl hk)
    have hcons : inheritAll new (i :: post) bs₁ = .ok bs' := inheritAll_cons.mpr ⟨bs₂, h₂, h₃⟩
    rw [← hsource k (.inl hk), ← hgrants k hkmem.1 hkmem.2, grantsAt_inheritAll hcons]
    intro j hj
    rcases List.mem_cons.mp hj with rfl | hj
    · exact ((ids_of_split hsplit).1 k hk).symm
    · exact (hprePost k hk j hj).symm
  have hagrees : Agrees new i bs₁ := agrees_of_distinct hown (exists_inherit_ok.mp ⟨bs₂, h₂⟩).2
  have hheldAll : ∀ g, g ∈ grantsAt bs' d new.id i.id ↔ ∃ w, g ∈ held new d pre bs w := by
    intro g
    rw [grantsAt_inheritAll h₃ hpostId, ← hi.2, (grantsAt_inherit h₂).mpr hagrees,
      mem_sourceGrants_of_ownSource hown, hi.2]
    simp only [hheld]
  constructor
  · have hdistinct := (agrees_iff_of_ownSource hown).mp hagrees
    simp only [hi.2, hheld] at hdistinct
    exact hdistinct
  · intro j hj g hg
    have hjmem := dst_of_split hsplit (k := j) (.inr (.inr hj))
    rw [← hheldAll, hgrants i hi.1 hi.2, mem_sourceGrants_of_ownSource hown, hi.2]
    rw [← hsource j (.inr hj), ← hgrants j hjmem.1 hjmem.2] at hg
    exact ⟨j.id, hg⟩

/-- Under the condition every part of the loop succeeds, and the row then holds by the
inheritances followed what it is to hold. -/
theorem exists_inheritAll_of_propagable (h : Propagable inhs d new bs) :
    ∀ pre post, (inhs.rows.filter fun i => i.dst = d) = pre ++ post →
      ∃ bs', inheritAll new pre bs = .ok bs' ∧
        ∀ pre₁ k pre₂, pre = pre₁ ++ k :: pre₂ →
          (¬ OwnSource new k → grantsAt bs' d new.id k.id = sourceGrants new k bs) ∧
          (OwnSource new k →
            grantsAt bs' d new.id k.id = {g | ∃ w, g ∈ held new d pre₁ bs w}) := by
  intro pre
  induction pre using List.reverseRecOn with
  | nil =>
      intro post _
      refine ⟨bs, rfl, fun pre₁ k pre₂ heq => ?_⟩
      simp at heq
  | append_singleton pre i ih =>
      intro post hsplit
      rw [List.append_assoc, List.singleton_append] at hsplit
      obtain ⟨bs₁, h₁, hgrants⟩ := ih (i :: post) hsplit
      have hi := dst_of_split hsplit (k := i) (.inr (.inl rfl))
      have hpreDst : ∀ k ∈ pre, k.dst = d := fun k hk => (dst_of_split hsplit (.inl hk)).2
      obtain ⟨hpreId, -, -⟩ := ids_of_split hsplit
      have hheld : OwnSource new i → ∀ w, grantsAt bs₁ d new.id w = held new d pre bs w := by
        intro hown
        refine grantsAt_eq_held h₁ fun k hk => ?_
        obtain ⟨pre₁, pre₂, rfl⟩ := List.append_of_mem hk
        exact (hgrants pre₁ k pre₂ rfl).1 (not_ownSource_of_split hsplit hown (.inl hk))
      have hagrees : Agrees new i bs₁ := by
        by_cases hown : OwnSource new i
        · have hself := ((h pre i post hsplit).2 hown).1
          rw [agrees_iff_of_ownSource hown, hi.2]
          simp only [hheld hown]
          exact hself
        · rw [agrees_inheritAll h₁ hpreDst hi.2 hown hpreId]
          exact (h pre i post hsplit).1 hown
      obtain ⟨bs₂, h₂⟩ := exists_inherit_ok.mpr ⟨hagrees.scalar, hagrees.distinct⟩
      have hstep := (grantsAt_inherit h₂).mpr hagrees
      rw [hi.2] at hstep
      refine ⟨bs₂, inheritAll_append.mpr ⟨bs₁, h₁, inheritAll_cons.mpr ⟨bs₂, h₂, rfl⟩⟩, ?_⟩
      intro pre₁ k pre₂ heq
      rcases List.eq_nil_or_concat pre₂ with rfl | ⟨pre₂, j, rfl⟩
      · obtain ⟨rfl, rfl⟩ : pre = pre₁ ∧ i = k := by simpa using heq
        constructor
        · intro hown
          rw [hstep, sourceGrants_inheritAll h₁ hpreDst hi.2 hown]
        · intro hown
          ext g
          rw [hstep, mem_sourceGrants_of_ownSource hown, hi.2]
          simp only [hheld hown]
          rfl
      · obtain ⟨rfl, rfl⟩ : pre = pre₁ ++ k :: pre₂ ∧ i = j := by
          rw [List.concat_eq_append, ← List.cons_append, ← List.append_assoc] at heq
          obtain ⟨hpre, hij⟩ := List.append_inj' heq rfl
          exact ⟨hpre, (List.cons.inj hij).1⟩
        have hsame : grantsAt bs₂ d new.id k.id = grantsAt bs₁ d new.id k.id := by
          have hone : inheritAll new [i] bs₁ = .ok bs₂ := inheritAll_cons.mpr ⟨bs₂, h₂, rfl⟩
          refine grantsAt_inheritAll hone (fun j hj => ?_) d
          rw [List.mem_singleton.mp hj]
          exact (hpreId k (by simp)).symm
        rw [hsame]
        exact hgrants pre₁ k pre₂ rfl

/-- A row that is its own source ends up with what it held when its turn came. -/
theorem held_of_grantsAt (hok : setAccessBindings inhs d new bs = .ok bs')
    (hsplit : (inhs.rows.filter fun i => i.dst = d) = pre ++ i :: post)
    (hself : SelfConsistent new d pre post bs)
    (hothers : ∀ k, k ∈ pre ∨ k ∈ post → grantsAt bs' d new.id k.id = sourceGrants new k bs)
    (hown : grantsAt bs' d new.id i.id = {g | ∃ w, g ∈ held new d pre bs w})
    {w : Int} {g : String × String × Int} (hg : g ∈ grantsAt bs' d new.id w) :
    ∃ w, g ∈ held new d pre bs w := by
  by_cases hpre : ∃ k ∈ pre, k.id = w
  · obtain ⟨k, hk, rfl⟩ := hpre
    rw [hothers k (.inl hk)] at hg
    exact ⟨k.id, .inl ⟨k, hk, rfl, hg⟩⟩
  · by_cases hi : i.id = w
    · subst hi
      rw [hown] at hg
      exact hg
    · by_cases hpost : ∃ j ∈ post, j.id = w
      · obtain ⟨j, hj, rfl⟩ := hpost
        rw [hothers j (.inr hj)] at hg
        exact hself.2 j hj g hg
      · rw [setAccessBindings, hsplit] at hok
        rw [grantsAt_inheritAll hok] at hg
        · exact ⟨w, .inr ⟨fun k hk hkw => hpre ⟨k, hk, hkw⟩, hg⟩⟩
        · intro k hk hkw
          rcases List.mem_append.mp hk with hk | hk
          · exact hpre ⟨k, hk, hkw⟩
          · rcases List.mem_cons.mp hk with rfl | hk
            · exact hi hkw
            · exact hpost ⟨k, hk, hkw⟩

theorem propagates_of_propagable (h : Propagable inhs d new bs) : Propagates inhs d new bs := by
  obtain ⟨bs', hok, hgrants⟩ := exists_inheritAll_of_propagable h _ [] (List.append_nil _).symm
  have hdst : ∀ k ∈ inhs.rows.filter fun i => i.dst = d, k.dst = d :=
    fun k hk => (mem_filter_dst.mp hk).2
  have hnotOwn : ∀ k ∈ inhs.rows.filter fun i => i.dst = d, ¬ OwnSource new k →
      grantsAt bs' d new.id k.id = sourceGrants new k bs := by
    intro k hk hown
    obtain ⟨pre, post, hsplit⟩ := List.append_of_mem hk
    exact (hgrants pre k post hsplit).1 hown
  refine ⟨bs', hok, fun i hi hid => ?_, fun t b hb => ?_⟩
  · have hmem := mem_filter_dst.mpr ⟨hi, hid⟩
    by_cases hown : OwnSource new i
    · obtain ⟨pre, post, hsplit⟩ := List.append_of_mem hmem
      have hfinal := (hgrants pre i post hsplit).2 hown
      ext g
      rw [mem_sourceGrants_of_ownSource hown, hid]
      constructor
      · intro hg
        exact ⟨i.id, hg⟩
      · rintro ⟨w, hg⟩
        rw [hfinal]
        refine held_of_grantsAt hok hsplit ((h pre i post hsplit).2 hown) (fun k hk => ?_) hfinal hg
        refine hnotOwn k ?_ (not_ownSource_of_split hsplit hown hk)
        rw [hsplit, List.mem_append, List.mem_cons]
        exact hk.imp_right .inr
    · rw [hnotOwn i hmem hown, sourceGrants_inheritAll hok hdst hid hown]
  · by_cases ht : t = d
    · refine mem_inheritAll_of_frame hok (fun hbid k hk => ?_) t
      obtain ⟨hk, hkd⟩ := mem_filter_dst.mp hk
      exact hb ht hbid k hk hkd
    · rw [inheritAll_of_ne hok hdst ht]

end Trigger

theorem propagates_iff (inhs : Inheritances) (d : String) (new : NewRow) (bs : BindingTables) :
    Propagates inhs d new bs ↔ Propagable inhs d new bs :=
  ⟨propagable_of_propagates, propagates_of_propagable⟩

/-- Documents inherit from their folder. -/
def folderInheritance : Inheritances where
  rows := [⟨1, "folders", "documents", "SELECT id FROM folders WHERE id = $1.folder_id"⟩]
  primaryKey := by decide
  unique := by decide

/-- A document with a binding that it has inherited from a folder. -/
def documentBindings : BindingTables
  | "documents" => ⟨[⟨7, "viewer", "tom", 1, 1, 0⟩], by decide⟩
  | "folders" => ⟨[⟨1, "viewer", "tom", 1, 0, 0⟩], by decide⟩
  | _ => ⟨[], by decide⟩

/-- A document moved to a folder without bindings stays open to those of the old one. -/
theorem not_propagates_move :
    ¬ Propagates folderInheritance "documents" ⟨7, 5, fun _ => some [2]⟩ documentBindings := by
  intro h
  have hsplit : (folderInheritance.rows.filter fun i => i.dst = "documents") =
      [] ++ ⟨1, "folders", "documents", "SELECT id FROM folders WHERE id = $1.folder_id"⟩ :: [] := by
    rfl
  have hagrees := agrees_of_propagates_of_not_own h hsplit
    (by simp [OwnSource, NewRow.yields, NewRow.scalar])
  obtain ⟨n, hn⟩ := hagrees.nonempty ⟨7, "viewer", "tom", 1, 1, 0⟩
    (List.mem_singleton.mpr rfl) rfl rfl
  obtain ⟨hid, hn⟩ := mem_sourceRows.mp hn
  obtain rfl := List.mem_singleton.mp hn
  simp [NewRow.yields, NewRow.scalar] at hid

end PgFort.Propagation
