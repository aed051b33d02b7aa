/-
  Requirements that are implied.

  A requirement that another one implies may be dropped before candidates are matched.  What is offered
  comes with all of its ancestors, so a candidate that covers the one has something for the other too.

  THE STATEMENT (`interchangeable_minimize`)
    Where the requirements are decided by what is offered, they are interchangeable with those of them
    that are kept: both lists are covered by the same candidates, under bindings with the same solutions,
    and which candidate is more specific is the same.

  THE CRUX (`Inherits.alongside`)
    Specificity compares what two candidates offer for a requirement.  For one that was dropped, this is
    what they inherit from what they offer for the one that implies it.  The comparison carries over
    because all three inherit alongside each other: by the same steps, parent by parent.
-/
import InstanceSearch.Proofs.Search.Decided
import InstanceSearch.Proofs.Search.Soundness

namespace InstanceSearch

/-! ## Inheriting side by side -/

namespace Catalog

/-- `Alongside K table θ θ' c c'`: two good capabilities that come to the same under clean assignments,
    one for each. -/
structure Alongside (K : VarId → Prop) (table : List Concept) (θ θ' : VarId → Ty) (c c' : Capability) :
    Prop where
  left : Good K table c
  right : Good K table c'
  cleanLeft : ∀ v ∈ c.vars, ∀ w ∈ (θ v).vars, ¬ K w
  cleanRight : ∀ v ∈ c'.vars, ∀ w ∈ (θ' v).vars, ¬ K w
  equal : (c.assign θ).anon = (c'.assign θ').anon

section Alongside

variable {K : VarId → Prop} {table : List Concept} {θ θ' : VarId → Ty} {a b c c' d p : Capability}

/-- **Capabilities that go alongside have parents that do**, place by place. -/
theorem Alongside.parents (ht : Proper K table) (h : Alongside K table θ θ' c c') {i : Nat}
    (hp : (parents table c)[i]? = some p) :
    ∃ p', (Catalog.parents table c')[i]? = some p' ∧ Alongside K table θ θ' p p' := by
  have hmap := parents_map ht h.left (f := fun v _ => θ v) fun v hv _ => h.cleanLeft v hv
  have hmap' := parents_map ht h.right (f := fun v _ => θ' v) fun v hv _ => h.cleanRight v hv
  have hlists : ((Catalog.parents table c).map (Capability.assign θ)).map Capability.anon =
      ((Catalog.parents table c').map (Capability.assign θ')).map Capability.anon := by
    have hgood : Good K table (c.assign θ) := h.left.map fun v hv _ => h.cleanLeft v hv
    exact (congrArg _ hmap).symm.trans ((parents_congr ht hgood h.equal).trans (congrArg _ hmap'))
  have hplace := congrArg (fun cs => cs[i]?) hlists
  simp only [List.getElem?_map, hp, Option.map_some] at hplace
  obtain ⟨x, hx, hequal⟩ := Option.map_eq_some_iff.1 hplace.symm
  obtain ⟨p', hp', rfl⟩ := Option.map_eq_some_iff.1 hx
  have hmem := List.mem_of_getElem? hp
  have hmem' := List.mem_of_getElem? hp'
  exact ⟨p', hp', good_of_mem_parents ht h.left hmem, good_of_mem_parents ht h.right hmem',
    fun v hv => h.cleanLeft v (vars_of_mem_parents ht h.left hmem v hv),
    fun v hv => h.cleanRight v (vars_of_mem_parents ht h.right hmem' v hv), hequal.symm⟩

theorem Alongside.congr_left (h : Alongside K table θ θ' c c') (heq : c.anon = d.anon) :
    Alongside K table θ θ' d c' where
  left := h.left.of_equal heq
  right := h.right
  cleanLeft v hv := h.cleanLeft v (by rwa [Capability.vars_eq_of_anon heq])
  cleanRight := h.cleanRight
  equal := (Capability.anon_assign_congr heq).symm.trans h.equal

/-- **Three capabilities inherit alongside each other.**  What goes alongside `c` inherits what goes
    alongside anything that `c` inherits; and if one of two such goes alongside the other, so does what
    it inherits. -/
theorem Inherits.alongside {θ₁ θ₂ σ τ : VarId → Ty} (ht : Proper K table) (h : Inherits table c d)
    (ha : Alongside K table θ₁ θ₁ c a) (hb : Alongside K table θ₂ θ₂ c b)
    (hba : Alongside K table σ τ b a) :
    ∃ a' b', Inherits table a a' ∧ Inherits table b b' ∧ Alongside K table θ₁ θ₁ d a' ∧
      Alongside K table θ₂ θ₂ d b' ∧ Alongside K table σ τ b' a' ∧ ∀ v ∈ a'.vars, v ∈ a.vars := by
  induction h generalizing a b with
  | refl heq =>
    exact ⟨a, b, .refl rfl, .refl rfl, ha.congr_left heq, hb.congr_left heq, hba, fun _ hv => hv⟩
  | step hp _ ih =>
    obtain ⟨i, hi⟩ := List.mem_iff_getElem?.1 hp
    obtain ⟨p, hpa, hap⟩ := ha.parents ht hi
    obtain ⟨p', hpb, hbp⟩ := hb.parents ht hi
    obtain ⟨p'', hpa', hbap⟩ := hba.parents ht hpb
    rw [hpa] at hpa'
    injection hpa' with hpa'
    subst hpa'
    obtain ⟨a', b', hina, hinb, ha', hb', hba', hvars⟩ := ih hap hbp hbap
    have hmem := List.mem_of_getElem? hpa
    exact ⟨a', b', .step hmem hina, .step (List.mem_of_getElem? hpb) hinb, ha', hb', hba',
      fun v hv => vars_of_mem_parents ht ha.right hmem v (hvars v hv)⟩

/-- Capabilities that a clean substitution makes equal go alongside. -/
theorem alongside_of_equal {S : Subst} (hS : S.Acyclic) (hK : ∀ v ∈ S.vars, ¬ K v)
    (hc : Good K table c) (hc' : Good K table c') (h : (S.applyTo c).anon = (S.applyTo c').anon) :
    Alongside K table S.assignment S.assignment c c' where
  left := hc
  right := hc'
  cleanLeft v hv w hw := by
    rw [Subst.assignment, hS.apply_var] at hw
    exact clean_value hS hK v (hc.clean v hv) none w hw
  cleanRight v hv w hw := by
    rw [Subst.assignment, hS.apply_var] at hw
    exact clean_value hS hK v (hc'.clean v hv) none w hw
  equal := by rw [← hS.anon_applyTo, ← hS.anon_applyTo, h]

/-- A capability goes alongside an instance of it. -/
theorem alongside_of_instance (hb : Good K table b) (ha : Good K table a)
    (h : (b.assign θ).anon = a.anon) : Alongside K table θ (fun v => .var v none) b a where
  left := hb
  right := ha
  cleanLeft v hv w hw := by
    apply ha.clean w
    rw [← Capability.vars_eq_of_anon h]
    exact Capability.mem_vars_assign hv hw
  cleanRight v hv w hw := by
    rw [Ty.vars_var, List.mem_singleton] at hw
    exact hw ▸ ha.clean v hv
  equal := h.trans (Capability.anon_assign_of_fixed fun v _ => rfl).symm

end Alongside

end Catalog

namespace Search

open Catalog

/-! ## What is kept stands for the whole list -/

section Minimize

variable {q : Search} (hd : q.catalog.Declared) (hap : q.catalog.Apart)
  (hq : ∀ c ∈ q.candidates.values, q.catalog.Offers c) {r : Request} {n : VarId}
  (hn : q.catalog.nextVar ≤ n) (hs : r.context.Acyclic)
  (hsK : ∀ v ∈ r.context.vars, ¬ q.catalog.Schematic v)
  (hcK : ∀ c ∈ r.constraints, ∀ v ∈ c.vars, ¬ q.catalog.Schematic v)

/-- What is kept was there. -/
theorem mem_of_mem_minimize {cat : Catalog} {cs : List Capability} {c : Capability}
    (h : c ∈ cat.minimize cs) : c ∈ cs :=
  FirstSeen.mem_of_mem_ofList (List.mem_filter.1 h).1

include hd hap hq hn

/-- What a candidate offers is good. -/
theorem good_of_mem_offeredAt {e : Candidate × VarId} (he : e ∈ numbered q.candidates.values n)
    {d : Capability} (h : d ∈ q.offeredAt e.1 e.2) : Good q.catalog.Schematic q.catalog.concepts d := by
  obtain ⟨hmem, hle⟩ := mem_numbered he
  have hgood := (hq e.1 hmem).good_renamed hd hap (Nat.le_trans hn hle)
  exact good_of_mem_expand (hap.proper hd) hgood h

/-- What something offered inherits is offered. -/
theorem exists_offered_of_inherits {e : Candidate × VarId}
    (he : e ∈ numbered q.candidates.values n) {d d' : Capability} (h : d ∈ q.offeredAt e.1 e.2)
    (hin : Inherits q.catalog.concepts d d') : ∃ x ∈ q.offeredAt e.1 e.2, x.anon = d'.anon := by
  obtain ⟨hmem, hle⟩ := mem_numbered he
  have hgood := (hq e.1 hmem).good_renamed hd hap (Nat.le_trans hn hle)
  obtain ⟨p, hp, hpd⟩ := (has_expand_iff (hap.proper hd) hgood).1 ⟨d, h, rfl⟩
  exact (has_expand_iff (hap.proper hd) hgood).2
    ⟨p, hp, hpd.trans (hap.proper hd) hin (hgood p hp)⟩

include hs

/-- What a candidate inherits alongside a decided requirement is what it offers for it. -/
theorem equal_of_inherits {e : Candidate × VarId} (he : e ∈ numbered q.candidates.values n)
    {required : List Capability}
    (hdecided : DecidedBy q.frozen (q.offeredAt e.1 e.2) required r.context) {s : Subst}
    (hgrow : Subst.Grows q.frozen (fun v => ¬ q.catalog.Schematic v) r.context s)
    {c a a' d : Capability} (hc : c ∈ required) (ha : a ∈ q.offeredAt e.1 e.2)
    (hin : Inherits q.catalog.concepts a a')
    (halong : Alongside q.catalog.Schematic q.catalog.concepts s.assignment s.assignment c a')
    (hdm : d ∈ q.offeredAt e.1 e.2) (hu : Unifies q.frozen r.context d c) : a'.anon = d.anon := by
  obtain ⟨x, hx, hxa⟩ := exists_offered_of_inherits hd hap hq hn he ha hin
  have heq := halong.equal
  rw [← hgrow.acyclic.anon_applyTo, ← hgrow.acyclic.anon_applyTo] at heq
  have hux : Unifies q.frozen r.context x c :=
    unifies_of_equal hs hgrow ((hgrow.acyclic.anon_applyTo_congr hxa).trans heq.symm)
  exact hxa.symm.trans (hdecided c hc x hx hux d hdm hu)

include hsK hcK

/-- What a cover of the kept requirements says: clean bindings, under which each of them is equal to
    something good that is offered. -/
theorem cover_kept {e : Candidate × VarId} (he : e ∈ numbered q.candidates.values n)
    {ps : List Capability} {s : Subst}
    (hcover : cover q.frozen (q.offeredAt e.1 e.2)
      (q.catalog.minimize (r.constraints.map r.context.applyTo)) r.context = some (ps, s)) :
    Subst.Grows q.frozen (fun v => ¬ q.catalog.Schematic v) r.context s ∧
      ∀ a ∈ q.catalog.minimize (r.constraints.map r.context.applyTo),
        Good q.catalog.Schematic q.catalog.concepts a ∧
        ∃ d ∈ q.offeredAt e.1 e.2, (s.applyTo d).anon = (s.applyTo a).anon := by
  have hclean : ∀ c ∈ q.catalog.minimize (r.constraints.map r.context.applyTo), ∀ v ∈ c.vars,
      ¬ q.catalog.Schematic v := requirement_vars (q := q.minimizing true) hsK hcK
  obtain ⟨hgrow, hequal⟩ := cover_ok hs hsK
    (fun d hdm => (good_of_mem_offeredAt hd hap hq hn he hdm).clean) hclean hcover
  refine ⟨hgrow, fun a ha => ?_⟩
  obtain ⟨d, hdm, heq⟩ := hequal a ha
  -- a requirement that is covered is good, because what covers it is
  have hgood := (good_of_mem_offeredAt hd hap hq hn he hdm).applyTo hgrow.acyclic
    (hgrow.forall_vars hsK)
  exact ⟨(hgood.of_equal heq).of_applyTo (hclean a ha), d, hdm, heq⟩

/-- A cover of what is kept offers something for what was dropped. -/
theorem entails_dropped {e : Candidate × VarId} (he : e ∈ numbered q.candidates.values n) :
    Entails q.frozen (q.offeredAt e.1 e.2) r.context
      (q.catalog.minimize (r.constraints.map r.context.applyTo))
      (r.constraints.map r.context.applyTo) := by
  intro ps s hcover c hc
  obtain ⟨hgrow, hkept⟩ := cover_kept hd hap hq hn hs hsK hcK he hcover
  obtain ⟨a, ha, hin⟩ := exists_kept (hap.proper hd) hc fun d hdm => (hkept d hdm).1
  obtain ⟨hgood, hcovered⟩ := hkept a ha
  obtain ⟨hmem, hle⟩ := mem_numbered he
  exact Covered.inherited (hap.proper hd) hgrow.acyclic (hgrow.forall_vars hsK)
    ((hq e.1 hmem).good_renamed hd hap (Nat.le_trans hn hle)) hgood hcovered hin

/-- **A candidate that is more specific for what is kept is so for what was dropped.** -/
theorem specific_dropped (hdecided : q.Decided (r.constraints.map r.context.applyTo) r.context n)
    {e k : Candidate × VarId} (he : e ∈ numbered q.candidates.values n)
    (hk : k ∈ numbered q.candidates.values n) {ps ps' : List Capability} {s s' : Subst}
    (hcover : cover q.frozen (q.offeredAt e.1 e.2)
      (q.catalog.minimize (r.constraints.map r.context.applyTo)) r.context = some (ps, s))
    (hcover' : cover q.frozen (q.offeredAt k.1 k.2)
      (q.catalog.minimize (r.constraints.map r.context.applyTo)) r.context = some (ps', s'))
    (h : SpecificFor q.frozen r.context (q.offeredAt e.1 e.2) (q.offeredAt k.1 k.2)
      (q.catalog.minimize (r.constraints.map r.context.applyTo))) :
    SpecificFor q.frozen r.context (q.offeredAt e.1 e.2) (q.offeredAt k.1 k.2)
      (r.constraints.map r.context.applyTo) := by
  intro c hc d hdm hu d' hdm' hu'
  have ht := hap.proper hd
  obtain ⟨hgrow, hkept⟩ := cover_kept hd hap hq hn hs hsK hcK he hcover
  obtain ⟨hgrow', hkept'⟩ := cover_kept hd hap hq hn hs hsK hcK hk hcover'
  -- what the two candidates offer for the requirement that implies `c`
  obtain ⟨g, hg, hin⟩ := exists_kept ht hc fun d hdm => (hkept d hdm).1
  obtain ⟨hgood, a, ha, hag⟩ := hkept g hg
  obtain ⟨_, b, hb, hbg⟩ := hkept' g hg
  have hinst := h g hg a ha (unifies_of_equal hs hgrow hag) b hb (unifies_of_equal hs hgrow' hbg)
  obtain ⟨θ, hfixed, hθ⟩ := Capability.instanceOf_iff.1 hinst
  -- what they inherit alongside `c` is `d` and `d'`
  have hgooda := good_of_mem_offeredAt hd hap hq hn he ha
  have hgoodb := good_of_mem_offeredAt hd hap hq hn hk hb
  obtain ⟨a', b', hina, hinb, ha', hb', hba', hvars⟩ := hin.alongside ht
    (alongside_of_equal hgrow.acyclic (hgrow.forall_vars hsK) hgood hgooda hag.symm)
    (alongside_of_equal hgrow'.acyclic (hgrow'.forall_vars hsK) hgood hgoodb hbg.symm)
    (alongside_of_instance hgoodb hgooda hθ)
  have had := equal_of_inherits hd hap hq hn hs he (hdecided e he) hgrow hc ha hina ha' hdm hu
  have hbd := equal_of_inherits hd hap hq hn hs hk (hdecided k hk) hgrow' hc hb hinb hb' hdm' hu'
  rw [← Capability.instanceOf_congr had hbd]
  refine Capability.instanceOf_iff.2 ⟨θ, fun v hv => hfixed v (hv.imp_right (hvars v)), ?_⟩
  exact hba'.equal.trans (Capability.anon_assign_of_fixed fun _ _ => rfl)

/-- **Decided requirements are interchangeable with those of them that are kept.** -/
theorem interchangeable_minimize
    (hdecided : q.Decided (r.constraints.map r.context.applyTo) r.context n) :
    q.Interchangeable (q.catalog.minimize (r.constraints.map r.context.applyTo))
      (r.constraints.map r.context.applyTo) r.context n where
  decided e he a ha := hdecided e he a (mem_of_mem_minimize ha)
  decided' := hdecided
  entails _ he := entails_dropped hd hap hq hn hs hsK hcK he
  entails' _ _ := entails_of_subset hs fun a ha => ⟨a, mem_of_mem_minimize ha, rfl⟩
  specific _ he _ hk _ _ hm hm' :=
    ⟨specific_dropped hd hap hq hn hs hsK hcK hdecided he hk (match?_ok hm).2.2 (match?_ok hm').2.2,
      fun h a ha => h a (mem_of_mem_minimize ha)⟩

end Minimize

end Search

end InstanceSearch
