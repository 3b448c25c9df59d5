import PgFort.Propagation

namespace PgFort.PropagationRuns

open PgFort.KeyedRows
open PgFort.Bindings
open PgFort.Propagation

/-- A row of `__access_binding_refs__`. -/
structure BindingRef where
  id : Int
  origin : String
  originId : Int
  deriving DecidableEq, Repr

structure State where
  refs : List BindingRef
  /-- The sequence behind the ids of the refs. -/
  nextRef : Int
  bindings : BindingTables

def State.initial : State where
  refs := []
  nextRef := 1
  bindings _ := ⟨[], List.nodup_nil⟩

inductive Command where
  | bind (table role principal : String) (id now : Int)
  | unbind (table role principal : String) (id : Int)
  /-- An insert or update of a row, with what its trigger gets. -/
  | upsert (table : String) (new : NewRow)

inductive Failure where
  | uniqueViolation
  | ofTrigger (e : TriggerError)
  deriving DecidableEq, Repr

def insertRow (b : Binding) (t : BindingTable) : Except Failure BindingTable :=
  if h : b.key ∈ t.rows.map Binding.key then .error .uniqueViolation
  else .ok ⟨b :: t.rows, List.nodup_cons.mpr ⟨h, t.keys⟩⟩

/-- `BIND ACCESS ROLE`: a new ref, and a direct binding that carries it. -/
def bindAccessRole (table role principal : String) (id now : Int) (s : State) :
    Except Failure State := do
  let rows ← insertRow ⟨id, role, principal, s.nextRef, 0, now⟩ (s.bindings table)
  return { refs := ⟨s.nextRef, table, id⟩ :: s.refs
           nextRef := s.nextRef + 1
           bindings := Function.update s.bindings table rows }

/-- The refs of the direct bindings that `UNBIND ACCESS ROLE` names. -/
def unbound (table role principal : String) (id : Int) (s : State) : List Int :=
  (s.refs.map BindingRef.id).filter fun r => (s.bindings table).rows.any fun b =>
    b.id == id && b.role == role && b.principal == principal && b.inheritance == 0 && b.ref == r

/-- The deletion of refs cascades to the bindings that carry them. -/
def unbindAccessRole (table role principal : String) (id : Int) (s : State) : State where
  refs := s.refs.filter fun r => decide (r.id ∉ unbound table role principal id s)
  nextRef := s.nextRef
  bindings t :=
    { rows := (s.bindings t).rows.filter fun b => decide (b.ref ∉ unbound table role principal id s)
      keys := (s.bindings t).keys.sublist (List.filter_sublist.map _) }

/-- `INSERT` or `UPDATE` of a row of a table, as far as its trigger goes. -/
def upsertRow (inhs : Inheritances) (table : String) (new : NewRow) (s : State) :
    Except Failure State :=
  match setAccessBindings inhs table new s.bindings with
  | .ok bindings => .ok { s with bindings }
  | .error e => .error (.ofTrigger e)

/-- What a command does to the bindings, or why it fails. -/
def step (inhs : Inheritances) (s : State) : Command → Except Failure State
  | .bind table role principal id now => bindAccessRole table role principal id now s
  | .unbind table role principal id => .ok (unbindAccessRole table role principal id s)
  | .upsert table new => upsertRow inhs table new s

/-- A run stops at the first command that fails. -/
def run (inhs : Inheritances) (cs : List Command) : Except Failure State :=
  cs.foldlM (step inhs) State.initial

/-- The inheritance gives the row a ref: one that its source holds or, when the row is its
own source, one that another inheritance gives it. -/
def Brings (inhs : Inheritances) (d : String) (new : NewRow) (bs : BindingTables)
    (i : Inheritance) (ref : Int) : Prop :=
  (∃ b ∈ sourceRows new i bs, b.ref = ref) ∨
    OwnSource new i ∧ ∃ j ∈ inhs.rows, j.dst = d ∧ ∃ b ∈ sourceRows new j bs, b.ref = ref

/-- The row gets a ref by an inheritance, or has it by one that brings nothing, or directly. -/
def ComesBy (inhs : Inheritances) (d : String) (new : NewRow) (bs : BindingTables)
    (ref w : Int) : Prop :=
  (∃ i ∈ inhs.rows, i.dst = d ∧ i.id = w ∧ Brings inhs d new bs i ref) ∨
    (∃ b ∈ (bs d).rows, b.id = new.id ∧ b.inheritance = w ∧ b.ref = ref) ∧
      ∀ i ∈ inhs.rows, i.dst = d → i.id = w → sourceRows new i bs = []

/-- No ref comes to the row in two ways. -/
def OneWay (inhs : Inheritances) (d : String) (new : NewRow) (bs : BindingTables) : Prop :=
  ∀ ref w w', ComesBy inhs d new bs ref w → ComesBy inhs d new bs ref w' → w = w'

/-- An inheritance leads away from the table. -/
def IsSource (inhs : Inheritances) (t : String) : Prop :=
  ∃ i ∈ inhs.rows, i.src = t

/-- The condition on a command: each source query for a changed row selects at most one row, and the
change of a row that others inherit from joins no two ways of one ref. -/
def Unjoined (inhs : Inheritances) (s : State) : Command → Prop
  | .upsert d new =>
      (∀ i ∈ inhs.rows, i.dst = d → new.Scalar i.srcQuery) ∧
        (IsSource inhs d → OneWay inhs d new s.bindings)
  | _ => True

/-- Every command of the run meets the condition, as far as the run gets. -/
def UnjoinedRun (inhs : Inheritances) (cs : List Command) : Prop :=
  ∀ pre c post s, cs = pre ++ c :: post → run inhs pre = .ok s → Unjoined inhs s c

/-- A row that others inherit from holds no ref twice. -/
def RefsDistinct (inhs : Inheritances) (bs : BindingTables) : Prop :=
  ∀ t, IsSource inhs t → ∀ a ∈ (bs t).rows, ∀ b ∈ (bs t).rows, a.id = b.id → a.ref = b.ref → a = b

structure Invariant (inhs : Inheritances) (s : State) : Prop where
  distinct : RefsDistinct inhs s.bindings
  issued : ∀ t, ∀ b ∈ (s.bindings t).rows, b.ref < s.nextRef

section Upsert

variable {inhs : Inheritances} {d : String} {new : NewRow} {bs bs' : BindingTables}
  {pre post : List Inheritance} {i : Inheritance}

/-- In the midst of the loop the bindings by an inheritance followed already come by it. -/
def Followed (inhs : Inheritances) (d : String) (new : NewRow) (bs : BindingTables)
    (pre : List Inheritance) (bs' : BindingTables) : Prop :=
  ∀ b ∈ (bs' d).rows, b.id = new.id → ∀ k ∈ pre, b.inheritance = k.id →
    ComesBy inhs d new bs b.ref k.id

theorem isSource_of_split (hsplit : (inhs.rows.filter fun i => i.dst = d) = pre ++ i :: post) :
    IsSource inhs i.src :=
  ⟨i, (dst_of_split hsplit (.inr (.inl rfl))).1, rfl⟩

theorem dst_of_mem_pre (hsplit : (inhs.rows.filter fun i => i.dst = d) = pre ++ i :: post) :
    ∀ k ∈ pre, k.dst = d :=
  fun _ hk => (dst_of_split hsplit (.inl hk)).2

/-- What another inheritance gave a row that is its own source, the row gets once more. -/
theorem brings_of_comesBy (hsplit : (inhs.rows.filter fun i => i.dst = d) = pre ++ i :: post)
    (hown : OwnSource new i) {k : Inheritance} (hk : k ∈ pre) {ref : Int}
    (hcomes : ComesBy inhs d new bs ref k.id) : Brings inhs d new bs i ref := by
  have hdst : i.dst = d := (dst_of_split hsplit (.inr (.inl rfl))).2
  rcases hcomes with ⟨j, hj, hjd, hjid, hbrings⟩ | ⟨⟨b, hb, hid, -, href⟩, -⟩
  · have hkrow := (dst_of_split hsplit (k := k) (.inl hk)).1
    obtain rfl : j = k := List.inj_on_of_nodup_map inhs.primaryKey hj hkrow hjid
    rcases hbrings with hsource | ⟨hjown, -⟩
    · exact .inr ⟨hown, j, hj, hjd, hsource⟩
    · exact absurd hjown (not_ownSource_of_split hsplit hown (.inl hk))
  · refine .inl ⟨b, (mem_sourceRows_of_ownSource hown).mpr ⟨?_, hid⟩, href⟩
    rw [hdst]
    exact hb

theorem brings_of_mem_sourceRows
    (hsplit : (inhs.rows.filter fun i => i.dst = d) = pre ++ i :: post)
    (hok : inheritAll new pre bs = .ok bs') (hfollowed : Followed inhs d new bs pre bs')
    {n : Binding} (hn : n ∈ sourceRows new i bs') : Brings inhs d new bs i n.ref := by
  have hdst : i.dst = d := (dst_of_split hsplit (.inr (.inl rfl))).2
  by_cases hown : OwnSource new i
  · obtain ⟨hn, hid⟩ := (mem_sourceRows_of_ownSource hown).mp hn
    by_cases hk : ∃ k ∈ pre, n.inheritance = k.id
    · obtain ⟨k, hk, hinh⟩ := hk
      exact brings_of_comesBy hsplit hown hk (hfollowed n (hdst ▸ hn) hid k hk hinh)
    · have hfirst : n ∈ (bs i.dst).rows :=
        (mem_inheritAll_of_frame hok (fun _ k hkp heq => hk ⟨k, hkp, heq⟩) i.dst).mp hn
      exact .inl ⟨n, (mem_sourceRows_of_ownSource hown).mpr ⟨hfirst, hid⟩, rfl⟩
  · exact .inl ⟨n, (mem_sourceRows_inheritAll hok (dst_of_mem_pre hsplit) hdst hown).mp hn, rfl⟩

theorem distinct_sourceRows
    (hdistinct : RefsDistinct inhs bs) (hone : IsSource inhs d → OneWay inhs d new bs)
    (hsplit : (inhs.rows.filter fun i => i.dst = d) = pre ++ i :: post)
    (hok : inheritAll new pre bs = .ok bs') (hfollowed : Followed inhs d new bs pre bs') :
    ∀ a ∈ sourceRows new i bs', ∀ b ∈ sourceRows new i bs', a.ref = b.ref → a = b := by
  have hirow := dst_of_split hsplit (k := i) (.inr (.inl rfl))
  by_cases hown : OwnSource new i
  · have hsource : IsSource inhs d := ⟨i, hirow.1, hown.1.trans hirow.2⟩
    -- a binding by an inheritance followed already would come by this one as well
    have hfirst : ∀ a ∈ sourceRows new i bs', a ∈ (bs d).rows ∧ a.id = new.id := by
      intro a ha
      obtain ⟨hmem, hid⟩ := (mem_sourceRows_of_ownSource hown).mp ha
      rw [hirow.2] at hmem
      refine ⟨(mem_inheritAll_of_frame hok (fun _ k hk hinh => ?_) d).mp hmem, hid⟩
      have hcomes := hfollowed a hmem hid k hk hinh
      have hagain : ComesBy inhs d new bs a.ref i.id :=
        .inl ⟨i, hirow.1, hirow.2, rfl, brings_of_comesBy hsplit hown hk hcomes⟩
      exact (ids_of_split hsplit).1 k hk (hone hsource a.ref k.id i.id hcomes hagain)
    intro a ha b hb href
    obtain ⟨ha, haid⟩ := hfirst a ha
    obtain ⟨hb, hbid⟩ := hfirst b hb
    exact hdistinct d hsource a ha b hb (haid.trans hbid.symm) href
  · intro a ha b hb href
    rw [mem_sourceRows_inheritAll hok (dst_of_mem_pre hsplit) hirow.2 hown, mem_sourceRows] at ha hb
    refine hdistinct i.src (isSource_of_split hsplit) a ha.2 b hb.2 ?_ href
    exact Option.some.inj (ha.1.symm.trans hb.1)

theorem comesBy_of_nothing_inherited
    (hsplit : (inhs.rows.filter fun i => i.dst = d) = pre ++ i :: post)
    (hok : inheritAll new pre bs = .ok bs') (hnil : sourceRows new i bs' = []) {b : Binding}
    (hb : b ∈ (bs' d).rows) (hid : b.id = new.id) (hinh : b.inheritance = i.id) :
    ComesBy inhs d new bs b.ref i.id := by
  have hirow := dst_of_split hsplit (k := i) (.inr (.inl rfl))
  have hown : ¬ OwnSource new i := by
    intro hown
    have hmem : b ∈ sourceRows new i bs' :=
      (mem_sourceRows_of_ownSource hown).mpr ⟨hirow.2.symm ▸ hb, hid⟩
    rw [hnil] at hmem
    exact List.not_mem_nil hmem
  have hfirst : b ∈ (bs d).rows := by
    refine (mem_inheritAll_of_frame hok (fun _ k hk heq => ?_) d).mp hb
    exact (ids_of_split hsplit).1 k hk (heq.symm.trans hinh)
  refine .inr ⟨⟨b, hfirst, hid, hinh, rfl⟩, fun j hj hjd hjid => ?_⟩
  obtain rfl : j = i := List.inj_on_of_nodup_map inhs.primaryKey hj hirow.1 hjid
  rw [List.eq_nil_iff_forall_not_mem] at hnil ⊢
  intro n hn
  exact hnil n ((mem_sourceRows_inheritAll hok (dst_of_mem_pre hsplit) hirow.2 hown).mpr hn)

theorem followed_concat (hsplit : (inhs.rows.filter fun i => i.dst = d) = pre ++ i :: post)
    (hok : inheritAll new pre bs = .ok bs') (hfollowed : Followed inhs d new bs pre bs')
    {bs'' : BindingTables} (hinherit : inherit new i bs' = .ok bs'') :
    Followed inhs d new bs (pre ++ [i]) bs'' := by
  have hirow := dst_of_split hsplit (k := i) (.inr (.inl rfl))
  intro b hb hid k hk hinh
  rcases List.mem_append.mp hk with hk | hk
  · rw [mem_inherit_of_frame hinherit] at hb
    · exact hfollowed b hb hid k hk hinh
    · exact fun hkey => (ids_of_split hsplit).1 k hk (hinh.symm.trans hkey.2)
  · obtain rfl := List.mem_singleton.mp hk
    have hbrings : ∀ n ∈ sourceRows new k bs', ComesBy inhs d new bs n.ref k.id := by
      intro n hn
      exact .inl ⟨k, hirow.1, hirow.2, rfl, brings_of_mem_sourceRows hsplit hok hfollowed hn⟩
    rw [← hirow.2] at hb
    rcases (mem_inherit hinherit hid hinh).mp hb with
      ⟨hnil, hb⟩ | ⟨o, -, -, -, ⟨n, hn, href⟩, rfl⟩ | ⟨n, hn, rfl, -⟩
    · exact comesBy_of_nothing_inherited hsplit hok hnil (hirow.2 ▸ hb) hid hinh
    · show ComesBy inhs d new bs o.ref k.id
      rw [← href]
      exact hbrings n hn
    · exact hbrings n hn

theorem exists_inheritAll_ok (hdistinct : RefsDistinct inhs bs)
    (hscalar : ∀ i ∈ inhs.rows, i.dst = d → new.Scalar i.srcQuery)
    (hone : IsSource inhs d → OneWay inhs d new bs) (pre : List Inheritance) :
    ∀ post, (inhs.rows.filter fun i => i.dst = d) = pre ++ post →
      ∃ bs', inheritAll new pre bs = .ok bs' ∧ Followed inhs d new bs pre bs' := by
  induction pre using List.reverseRecOn with
  | nil =>
      intro post _
      exact ⟨bs, rfl, fun _ _ _ k hk => absurd hk List.not_mem_nil⟩
  | append_singleton pre i ih =>
      intro post hsplit
      rw [List.append_assoc, List.singleton_append] at hsplit
      obtain ⟨bs', hok, hfollowed⟩ := ih (i :: post) hsplit
      have hirow := dst_of_split hsplit (k := i) (.inr (.inl rfl))
      obtain ⟨bs'', hinherit⟩ := exists_inherit_ok.mpr ⟨hscalar i hirow.1 hirow.2,
        distinct_sourceRows hdistinct hone hsplit hok hfollowed⟩
      refine ⟨bs'', ?_, followed_concat hsplit hok hfollowed hinherit⟩
      exact inheritAll_append.mpr ⟨bs', hok, inheritAll_cons.mpr ⟨bs'', hinherit, rfl⟩⟩

theorem comesBy_of_mem (hok : setAccessBindings inhs d new bs = .ok bs')
    (hfollowed : Followed inhs d new bs (inhs.rows.filter fun i => i.dst = d) bs') {b : Binding}
    (hb : b ∈ (bs' d).rows) (hid : b.id = new.id) :
    ComesBy inhs d new bs b.ref b.inheritance := by
  by_cases hk : ∃ k ∈ (inhs.rows.filter fun i => i.dst = d), b.inheritance = k.id
  · obtain ⟨k, hk, hinh⟩ := hk
    rw [hinh]
    exact hfollowed b hb hid k hk hinh
  · have hfirst := (mem_inheritAll_of_frame hok (fun _ k hkm heq => hk ⟨k, hkm, heq⟩) d).mp hb
    refine .inr ⟨⟨b, hfirst, hid, rfl, rfl⟩, fun j hj hjd hjid => ?_⟩
    exact absurd ⟨j, mem_filter_dst.mpr ⟨hj, hjd⟩, hjid.symm⟩ hk

theorem refsDistinct_setAccessBindings (hdistinct : RefsDistinct inhs bs)
    (hone : IsSource inhs d → OneWay inhs d new bs)
    (hok : setAccessBindings inhs d new bs = .ok bs')
    (hfollowed : Followed inhs d new bs (inhs.rows.filter fun i => i.dst = d) bs') :
    RefsDistinct inhs bs' := by
  intro t ht a ha b hb hid href
  by_cases htd : t = d
  · subst htd
    by_cases hnew : a.id = new.id
    · have hinh := hone ht a.ref a.inheritance b.inheritance (comesBy_of_mem hok hfollowed ha hnew)
        (href ▸ comesBy_of_mem hok hfollowed hb (hid ▸ hnew))
      exact eq_of_mem_of_key_eq (bs' t) ha hb (by simp [Binding.key, hid, hinh, href])
    · rw [mem_inheritAll_of_frame hok (fun h => absurd h hnew) t] at ha
      rw [mem_inheritAll_of_frame hok (fun h => absurd (hid.trans h) hnew) t] at hb
      exact hdistinct t ht a ha b hb hid href
  · rw [inheritAll_of_ne hok (fun k hk => (mem_filter_dst.mp hk).2) htd] at ha hb
    exact hdistinct t ht a ha b hb hid href

end Upsert

section Step

variable {inhs : Inheritances} {s : State}

theorem Invariant.upsertRow (hs : Invariant inhs s) {d : String} {new : NewRow}
    (hscalar : ∀ i ∈ inhs.rows, i.dst = d → new.Scalar i.srcQuery)
    (hone : IsSource inhs d → OneWay inhs d new s.bindings) :
    ∃ s', PropagationRuns.upsertRow inhs d new s = .ok s' ∧ Invariant inhs s' := by
  obtain ⟨bs', hok, hfollowed⟩ :=
    exists_inheritAll_ok hs.distinct hscalar hone _ [] (List.append_nil _).symm
  have hset : setAccessBindings inhs d new s.bindings = .ok bs' := hok
  refine ⟨{ s with bindings := bs' }, by rw [PropagationRuns.upsertRow, hset], ?_, ?_⟩
  · exact refsDistinct_setAccessBindings hs.distinct hone hset hfollowed
  · intro t b hb
    obtain ⟨u, o, ho, hgrant⟩ := grant_of_mem_inheritAll hok hb
    have href : o.ref = b.ref := congrArg (fun g => g.2.2) hgrant
    rw [← href]
    exact hs.issued u o ho

theorem Invariant.bindAccessRole (hs : Invariant inhs s) (table role principal : String)
    (id now : Int) :
    ∃ s', PropagationRuns.bindAccessRole table role principal id now s = .ok s' ∧
      Invariant inhs s' := by
  have hkey : (⟨id, role, principal, s.nextRef, 0, now⟩ : Binding).key ∉
      (s.bindings table).rows.map Binding.key := by
    intro hmem
    obtain ⟨b, hb, heq⟩ := List.mem_map.mp hmem
    have href : b.ref = s.nextRef := congrArg (fun k => k.2.2) heq
    exact absurd (hs.issued table b hb) (by omega)
  refine ⟨_, by rw [PropagationRuns.bindAccessRole, insertRow, dif_neg hkey]; rfl, ?_, ?_⟩
  · intro t ht a ha b hb hid href
    by_cases htable : t = table
    · subst htable
      simp only [Function.update_self, List.mem_cons] at ha hb
      rcases ha with rfl | ha <;> rcases hb with rfl | hb
      · rfl
      · exact absurd (hs.issued t b hb) (by simp only at href; omega)
      · exact absurd (hs.issued t a ha) (by simp only at href; omega)
      · exact hs.distinct t ht a ha b hb hid href
    · simp only [Function.update_of_ne htable] at ha hb
      exact hs.distinct t ht a ha b hb hid href
  · intro t b hb
    show b.ref < s.nextRef + 1
    by_cases htable : t = table
    · subst htable
      simp only [Function.update_self, List.mem_cons] at hb
      rcases hb with rfl | hb
      · show s.nextRef < s.nextRef + 1
        omega
      · have := hs.issued t b hb
        omega
    · simp only [Function.update_of_ne htable] at hb
      have := hs.issued t b hb
      omega

theorem Invariant.unbindAccessRole (hs : Invariant inhs s) (table role principal : String)
    (id : Int) : Invariant inhs (PropagationRuns.unbindAccessRole table role principal id s) := by
  have hmem : ∀ t, ∀ b ∈ ((PropagationRuns.unbindAccessRole table role principal id s).bindings
      t).rows, b ∈ (s.bindings t).rows := fun t b hb => List.mem_of_mem_filter hb
  constructor
  · intro t ht a ha b hb
    exact hs.distinct t ht a (hmem t a ha) b (hmem t b hb)
  · intro t b hb
    exact hs.issued t b (hmem t b hb)

theorem Invariant.step (hs : Invariant inhs s) {c : Command} (hc : Unjoined inhs s c) :
    ∃ s', PropagationRuns.step inhs s c = .ok s' ∧ Invariant inhs s' := by
  cases c with
  | bind table role principal id now => exact hs.bindAccessRole table role principal id now
  | unbind table role principal id => exact ⟨_, rfl, hs.unbindAccessRole table role principal id⟩
  | upsert table new => exact hs.upsertRow hc.1 hc.2

theorem invariant_initial (inhs : Inheritances) : Invariant inhs State.initial :=
  ⟨fun _ _ _ ha => absurd ha List.not_mem_nil, fun _ _ hb => absurd hb List.not_mem_nil⟩

theorem run_concat (inhs : Inheritances) (cs : List Command) (c : Command) :
    run inhs (cs ++ [c]) = run inhs cs >>= fun s => PropagationRuns.step inhs s c := by
  rw [run, run, List.foldlM_append]
  simp [List.foldlM]

theorem invariant_run {cs : List Command} (h : UnjoinedRun inhs cs) :
    ∃ s, run inhs cs = .ok s ∧ Invariant inhs s := by
  induction cs using List.reverseRecOn with
  | nil => exact ⟨_, rfl, invariant_initial inhs⟩
  | append_singleton cs c ih =>
      obtain ⟨s, hrun, hs⟩ := ih fun pre c' post s hsplit hrun =>
        h pre c' (post ++ [c]) s (by rw [hsplit, List.append_assoc, List.cons_append]) hrun
      obtain ⟨s', hstep, hs'⟩ := hs.step (h cs c [] s rfl hrun)
      exact ⟨s', by rw [run_concat, hrun]; exact hstep, hs'⟩

end Step

/-- The run gets through, and no INSERT of a trigger proposes two rows of one key. -/
structure NeverFails (inhs : Inheritances) (cs : List Command) : Prop where
  succeeds : ∃ s, run inhs cs = .ok s
  proposed : ∀ pre d new post s, cs = pre ++ .upsert d new :: post → run inhs pre = .ok s →
    ∀ before i after bs, (inhs.rows.filter fun i => i.dst = d) = before ++ i :: after →
      inheritAll new before s.bindings = .ok bs →
        (((sourceRows new i bs).map (inherited new i)).map Binding.key).Nodup

/-- Pages inherit from their document, which inherits from its folder. -/
def chain : Inheritances where
  rows :=
    [⟨1, "folders", "documents", "SELECT id FROM folders WHERE id = $1.folder_id"⟩,
      ⟨2, "documents", "pages", "SELECT id FROM documents WHERE id = $1.document_id"⟩]
  primaryKey := by decide
  unique := by decide

def chainRun : List Command :=
  [.bind "folders" "viewer" "tom" 1 0, .upsert "documents" ⟨7, 1, fun _ => some [1]⟩,
    .upsert "pages" ⟨9, 2, fun _ => some [7]⟩]

/-- Pages that inherit from a document and from a note, both in one folder. -/
def diamond : Inheritances where
  rows :=
    [⟨1, "folders", "documents", "documents"⟩, ⟨2, "folders", "notes", "notes"⟩,
      ⟨3, "documents", "pages", "pages"⟩, ⟨4, "notes", "pages", "pages"⟩,
      ⟨5, "pages", "lines", "lines"⟩]
  primaryKey := by decide
  unique := by decide

def diamondRun : List Command :=
  [.bind "folders" "viewer" "tom" 1 0, .upsert "documents" ⟨1, 1, fun _ => some [1]⟩,
    .upsert "notes" ⟨1, 2, fun _ => some [1]⟩, .upsert "pages" ⟨1, 3, fun _ => some [1]⟩,
    .upsert "lines" ⟨1, 4, fun _ => some [1]⟩]

end PgFort.PropagationRuns
