/-
  Soundness: what the search returns is a derivation.

  THE SPECIFICATION
    `Witness.Valid` says when a witness is one for a list of constraints, without a word about how it was
    found: at every node, each constraint is among the capabilities that the node's candidate offers at
    its arguments, under one substitution for the whole term; and each nested witness is valid for what
    its parameter asks for at the same arguments.

  THE PROOF
    The substitution is the one that the search ends with.  It extends every substitution on the way, so
    what unification made equal stays equal (`match?_grows`).  Constraints that were dropped before the
    matching are inherited from others that were not, and inheritance goes through substitutions in both
    directions (`lift`): so they are offered as well (`requirement_covered`).  The rest is bookkeeping,
    of which new variable stands for which parameter (`Instantiated`).

  Where the registry is `Tidy`, the parameters of concepts stand in concepts only; that is what lets the
  parents of a concept be instantiated without capture.
-/
import InstanceSearch.Proofs.Catalog.Ancestors
import InstanceSearch.Proofs.Catalog.Visible
import InstanceSearch.Proofs.Search.NewVars

namespace InstanceSearch

/-! ## The specification -/

/-- `Covered cat S provides c`: under `S`, the capability `c` is one of those that come with
    `provides`. -/
def Covered (cat : Catalog) (S : Subst) (provides : List Capability) (c : Capability) : Prop :=
  ∃ d ∈ cat.expand provides, (S.applyTo d).anon = (S.applyTo c).anon

/-- `σ` instantiates the parameters of an instance by its arguments: each parameter that has a type by
    this type, and nothing but parameters. -/
structure Instantiates (σ : VarId → Ty) (params : List Param) (args : List Argument) : Prop where
  length : args.length = params.length
  types : ∀ p t, (p, Argument.type t) ∈ params.zip args → σ p.id = t
  witnesses : ∀ p w, (p, Argument.witness w) ∈ params.zip args → p.isWitness = true
  others : ∀ v, v ∉ params.map Param.id → σ v = .var v none

/-- `w.Valid cat known S cs`: the witness `w`, built from the candidates `known`, is one for the
    constraints `cs` under the substitution `S`. -/
inductive Witness.Valid (cat : Catalog) (known : Candidate → Prop) (S : Subst) :
    Witness → List Capability → Prop where
  | ambient {p : Param} {cs : List Capability} (candidate : known (.ambient p))
      (covers : ∀ c ∈ cs, Covered cat S p.constraints c) :
      Valid cat known S (.ambient p.id p.name) cs
  | apply {i : Instance} {σ : VarId → Ty} {args : List Argument} {cs : List Capability}
      (candidate : known (.declared i)) (instantiates : Instantiates σ i.params args)
      (covers : ∀ c ∈ cs, Covered cat S (i.provides.map (Capability.assign σ)) c)
      (nested : ∀ p w, (p, Argument.witness w) ∈ i.params.zip args →
        Valid cat known S w (p.constraints.map (Capability.assign σ))) :
      Valid cat known S (.apply i.id i.name args) cs

namespace Catalog

/-- A variable that a concept is written with. -/
def Schematic (cat : Catalog) (v : VarId) : Prop := ∃ d ∈ cat.concepts, ∃ p ∈ d.params, p.id = v

instance (cat : Catalog) (v : VarId) : Decidable (cat.Schematic v) :=
  inferInstanceAs (Decidable (∃ d ∈ cat.concepts, ∃ p ∈ d.params, p.id = v))

/-- A registry in which parameters are not mixed up: the ones of a concept differ and are all that its
    parents mention, the ones of an instance differ, and no instance or scope uses those of a concept. -/
structure Tidy (cat : Catalog) : Prop where
  concepts : ∀ d ∈ cat.concepts, d.SelfContained
  instances : ∀ i ∈ cat.instances, (i.params.map Param.id).Nodup
  instanceVars : ∀ i ∈ cat.instances,
    ∀ v ∈ i.params.flatMap Param.vars ++ i.provides.flatMap Capability.vars, ¬ cat.Schematic v
  scopeVars : ∀ s ∈ cat.scopes, ∀ v ∈ s.params.flatMap Param.vars, ¬ cat.Schematic v

instance (cat : Catalog) : Decidable cat.Tidy :=
  decidable_of_iff ((∀ d ∈ cat.concepts, d.SelfContained) ∧
      (∀ i ∈ cat.instances, (i.params.map Param.id).Nodup) ∧
      (∀ i ∈ cat.instances,
        ∀ v ∈ i.params.flatMap Param.vars ++ i.provides.flatMap Capability.vars,
          ¬ cat.Schematic v) ∧
      ∀ s ∈ cat.scopes, ∀ v ∈ s.params.flatMap Param.vars, ¬ cat.Schematic v)
    ⟨fun h => ⟨h.1, h.2.1, h.2.2.1, h.2.2.2⟩,
      fun h => ⟨h.concepts, h.instances, h.instanceVars, h.scopeVars⟩⟩

/-- A registry in which the parameters of a concept stand in that concept only. -/
structure Apart (cat : Catalog) : Prop where
  concepts : ∀ d ∈ cat.concepts, d.Closed
  instanceVars : ∀ i ∈ cat.instances,
    ∀ v ∈ i.params.flatMap Param.vars ++ i.provides.flatMap Capability.vars, ¬ cat.Schematic v
  scopeVars : ∀ s ∈ cat.scopes, ∀ v ∈ s.params.flatMap Param.vars, ¬ cat.Schematic v

instance (cat : Catalog) : Decidable cat.Apart :=
  decidable_of_iff ((∀ d ∈ cat.concepts, d.Closed) ∧
      (∀ i ∈ cat.instances,
        ∀ v ∈ i.params.flatMap Param.vars ++ i.provides.flatMap Capability.vars,
          ¬ cat.Schematic v) ∧
      ∀ s ∈ cat.scopes, ∀ v ∈ s.params.flatMap Param.vars, ¬ cat.Schematic v)
    ⟨fun h => ⟨h.1, h.2.1, h.2.2⟩, fun h => ⟨h.concepts, h.instanceVars, h.scopeVars⟩⟩

variable {cat : Catalog}

theorem Tidy.apart (h : cat.Tidy) : cat.Apart :=
  ⟨fun d hd => (h.concepts d hd).closed, h.instanceVars, h.scopeVars⟩

/-- A registry of closed concepts is proper, and what is schematic are their parameters. -/
theorem Declared.proper (hd : cat.Declared) (hclosed : ∀ d ∈ cat.concepts, d.Closed) :
    Proper cat.Schematic cat.concepts where
  ordered := hd.regular.ordered
  closed := hclosed
  schematic := fun d hdm p hp => ⟨d, hdm, p, hp, rfl⟩

theorem Apart.proper (h : cat.Apart) (hd : cat.Declared) : Proper cat.Schematic cat.concepts :=
  hd.proper h.concepts

/-- No variable from the watermark on is schematic. -/
theorem Declared.not_schematic (h : cat.Declared) {v : VarId} (hv : cat.nextVar ≤ v) :
    ¬ cat.Schematic v := by
  rintro ⟨d, hd, p, hp, rfl⟩
  have hlt := h.regular.conceptVars d hd p.id
    (List.mem_append.2 (Or.inl (List.mem_flatMap.2 ⟨p, hp, by simp [Param.vars]⟩)))
  exact absurd hlt (Nat.not_lt.2 hv)

end Catalog

/-! ## Inheritance under a substitution -/

section Lift

open Catalog

variable {K : VarId → Prop} {cat : Catalog} {S : Subst}

theorem Subst.Acyclic.applyTo_eq (h : S.Acyclic) (c : Capability) :
    S.applyTo c = c.map (Ty.replaceVars S.value) := by
  unfold Subst.applyTo
  congr 1
  funext t
  exact h.apply_eq t

/-- A substitution over clean variables puts clean types for clean variables. -/
theorem clean_value (hS : S.Acyclic) (hK : ∀ v ∈ S.vars, ¬ K v) :
    ∀ v, ¬ K v → ∀ n, ∀ w ∈ (S.value v n).vars, ¬ K w := by
  intro v hv n w hw
  rw [← hS.apply_var] at hw
  rcases Subst.mem_vars_apply hw with hw | hw
  · rw [List.mem_singleton.1 hw]
    exact hv
  · exact hK w hw

theorem Catalog.Good.applyTo {c : Capability} (h : Good K cat.concepts c) (hS : S.Acyclic)
    (hK : ∀ v ∈ S.vars, ¬ K v) : Good K cat.concepts (S.applyTo c) := by
  rw [hS.applyTo_eq]
  exact h.map fun v hv => clean_value hS hK v (h.clean v hv)

/-- What is good after a substitution was good before, if it is clean. -/
theorem Catalog.Good.of_applyTo {c : Capability} (h : Good K cat.concepts (S.applyTo c))
    (hc : ∀ v ∈ c.vars, ¬ K v) : Good K cat.concepts c where
  fits := by
    obtain ⟨e, he, hlength⟩ := h.fits
    rw [Subst.applyTo, Capability.args_map, List.length_map] at hlength
    exact ⟨e, he, hlength⟩
  clean := hc

/-- Choices that are equal under a substitution give capabilities that are. -/
theorem anon_applyTo_map_congr (hS : S.Acyclic) {f : Subst} {σ : VarId → Ty}
    (h : ∀ v, (S.apply (σ v)).anon = (S.apply (f.pick v none)).anon) {b : Capability} :
    (S.applyTo (b.assign σ)).anon = (S.applyTo (b.map (Ty.replaceVars f.pick))).anon := by
  have hlabel : ∀ v n, (f.pick v none).anon = (f.pick v n).anon := by
    intro v n
    unfold Subst.pick
    cases f.find? v <;> rfl
  rw [hS.applyTo_eq, hS.applyTo_eq, Capability.assign, Capability.map_map, Capability.map_map]
  unfold Ty.assign
  simp only [Ty.replaceVars_replaceVars]
  apply Capability.anon_map_congr rfl
  intro v _ n m
  rw [← hS.apply_eq, ← hS.apply_eq, h v]
  exact hS.anon_apply_congr (hlabel v m)

/-- **What one of two equal capabilities inherits, the other does too**, where equality is that under a
    substitution. -/
theorem lift (ht : Proper K cat.concepts) (hS : S.Acyclic) (hK : ∀ v ∈ S.vars, ¬ K v)
    {a c d : Capability} (ha : Good K cat.concepts a) (hd : Good K cat.concepts d)
    (heq : (S.applyTo d).anon = (S.applyTo a).anon) (h : Inherits cat.concepts a c) :
    ∃ e, Inherits cat.concepts d e ∧ (S.applyTo e).anon = (S.applyTo c).anon := by
  have hclean := clean_value hS hK
  have hmap : Inherits cat.concepts (S.applyTo a) (S.applyTo c) := by
    rw [hS.applyTo_eq, hS.applyTo_eq]
    exact h.map ht ha S.anon_value hclean
  have hmap' := hmap.congr_left ht (ha.applyTo hS hK) heq.symm
  rw [hS.applyTo_eq d] at hmap'
  obtain ⟨e, he, hee⟩ := Inherits.exists_of_map ht hclean hd hmap'
  exact ⟨e, he, by rw [hS.applyTo_eq e]; exact hee⟩

/-- Provided capabilities that are equal under a substitution cover the same. -/
theorem Covered.transfer (ht : Proper K cat.concepts) (hS : S.Acyclic) (hK : ∀ v ∈ S.vars, ¬ K v)
    {ps ps' : List Capability} (hps : ∀ p ∈ ps, Good K cat.concepts p)
    (hps' : ∀ p ∈ ps', Good K cat.concepts p)
    (hmatch : ∀ p ∈ ps, ∃ p' ∈ ps', (S.applyTo p').anon = (S.applyTo p).anon) {c : Capability}
    (h : Covered cat S ps c) : Covered cat S ps' c := by
  obtain ⟨d, hd, hdc⟩ := h
  obtain ⟨p, hp, hin⟩ := (has_expand_iff ht hps).1 ⟨d, hd, rfl⟩
  obtain ⟨p', hp', heq⟩ := hmatch p hp
  obtain ⟨e, he, hed⟩ := lift ht hS hK (hps p hp) (hps' p' hp') heq hin
  obtain ⟨e', he', hee⟩ := (has_expand_iff ht hps').2 ⟨p', hp', he⟩
  exact ⟨e', he', (hS.anon_applyTo_congr hee).trans (hed.trans hdc)⟩

/-- What a covered capability inherits is covered. -/
theorem Covered.inherited (ht : Proper K cat.concepts) (hS : S.Acyclic) (hK : ∀ v ∈ S.vars, ¬ K v)
    {ps : List Capability} (hps : ∀ p ∈ ps, Good K cat.concepts p) {a c : Capability}
    (ha : Good K cat.concepts a) (h : Covered cat S ps a) (hin : Inherits cat.concepts a c) :
    Covered cat S ps c := by
  obtain ⟨d, hd, hda⟩ := h
  obtain ⟨p, hp, hpd⟩ := (has_expand_iff ht hps).1 ⟨d, hd, rfl⟩
  obtain ⟨e, he, hec⟩ := lift ht hS hK ha (hpd.good ht (hps p hp)) hda hin
  obtain ⟨e', he', hee⟩ := (has_expand_iff ht hps).2 ⟨p, hp, hpd.trans ht he (hps p hp)⟩
  exact ⟨e', he', (hS.anon_applyTo_congr hee).trans hec⟩

end Lift

/-- A witness is valid for all constraints that are equal, under the substitution, to some of its own. -/
theorem Witness.Valid.weaken {cat : Catalog} {known : Candidate → Prop} {S : Subst} {w : Witness}
    {cs cs' : List Capability} (h : w.Valid cat known S cs)
    (hcs : ∀ c ∈ cs', ∃ d ∈ cs, (S.applyTo d).anon = (S.applyTo c).anon) :
    w.Valid cat known S cs' := by
  have htrans : ∀ ps, (∀ c ∈ cs, Covered cat S ps c) → ∀ c ∈ cs', Covered cat S ps c := by
    intro ps hcover c hc
    obtain ⟨d, hd, heq⟩ := hcs c hc
    obtain ⟨e, he, hed⟩ := hcover d hd
    exact ⟨e, he, hed.trans heq⟩
  cases h with
  | ambient candidate covers => exact .ambient candidate (htrans _ covers)
  | apply candidate instantiates covers nested =>
    exact .apply candidate instantiates (htrans _ covers) nested

/-! ## The candidates of a registry -/

namespace Catalog

section Offers

variable {cat : Catalog} (hd : cat.Declared) (hap : cat.Apart) {c : Candidate} (h : cat.Offers c)
include hd hap h

/-- What a candidate offers is good. -/
theorem Offers.good : ∀ a ∈ c.offers, Good cat.Schematic cat.concepts a := by
  intro a ha
  cases c with
  | ambient p =>
    obtain ⟨s, hs, hp⟩ := h
    constructor
    · exact hd.regular.scopeFits s hs a (List.mem_flatMap.2 ⟨p, hp, ha⟩)
    · intro v hv
      apply hap.scopeVars s hs v
      refine List.mem_flatMap.2 ⟨p, hp, List.mem_cons_of_mem _ ?_⟩
      exact List.mem_flatMap.2 ⟨a, ha, hv⟩
  | declared i =>
    constructor
    · exact hd.regular.instanceFits i h a (List.mem_append.2 (Or.inl ha))
    · intro v hv
      exact hap.instanceVars i h v (List.mem_append.2 (Or.inr (List.mem_flatMap.2 ⟨a, ha, hv⟩)))

omit hd hap in
/-- The parameters of a candidate differ. -/
theorem Offers.nodup (ht : cat.Tidy) : (c.params.map Param.id).Nodup := by
  cases c with
  | ambient p => exact List.nodup_nil
  | declared i => exact ht.instances i h

omit hap in
/-- They are below the watermark. -/
theorem Offers.below : ∀ v ∈ c.params.map Param.id, v < cat.nextVar := by
  intro v hv
  cases c with
  | ambient p => cases hv
  | declared i =>
    obtain ⟨p, hp, rfl⟩ := List.mem_map.1 hv
    apply hd.regular.instanceVars i h
    refine List.mem_append.2 (Or.inl (List.mem_flatMap.2 ⟨p, hp, ?_⟩))
    exact List.mem_cons_self ..

omit hd in
/-- Neither they nor what they ask for is schematic. -/
theorem Offers.clean : ∀ p ∈ c.params, ∀ v ∈ p.vars, ¬ cat.Schematic v := by
  intro p hp v hv
  cases c with
  | ambient p' => cases hp
  | declared i =>
    exact hap.instanceVars i h v (List.mem_append.2 (Or.inl (List.mem_flatMap.2 ⟨p, hp, hv⟩)))

variable {n : VarId} (hn : cat.nextVar ≤ n)
include hn

omit hap in
theorem Offers.flat : (newVars c.params n).Flat :=
  newVars_flat fun v hv => Nat.lt_of_lt_of_le (h.below hd v hv) hn

omit hap h in
/-- New variables are not schematic. -/
theorem clean_pick {params : List Param} {v : VarId} (hv : ¬ cat.Schematic v)
    (name : Option String) : ∀ w ∈ ((newVars params n).pick v name).vars, ¬ cat.Schematic w := by
  intro w hw
  rcases (pick_newVars v name).2 w hw with hw | hw
  · exact hw ▸ hv
  · exact hd.not_schematic (Nat.le_trans hn hw)

/-- So what a candidate offers at new variables is good as well. -/
theorem Offers.good_renamed : ∀ a ∈ c.offers.map (newVars c.params n).applyTo,
    Good cat.Schematic cat.concepts a := by
  intro a ha
  obtain ⟨b, hb, rfl⟩ := List.mem_map.1 ha
  have hgood := h.good hd hap b hb
  rw [(h.flat hd hn).applyTo_eq]
  exact hgood.map fun v hv => clean_pick hd hn (hgood.clean v hv)

/-- And what its parameters ask for is clean. -/
theorem Offers.clean_renamed : ∀ p ∈ c.params, ∀ a ∈ (p.rename (newVars c.params n)).constraints,
    ∀ v ∈ a.vars, ¬ cat.Schematic v := by
  intro p hp a ha v hv
  rw [constraints_rename, List.mem_map] at ha
  obtain ⟨b, hb, rfl⟩ := ha
  rw [(h.flat hd hn).applyTo_eq] at hv
  obtain ⟨t, htm, hv⟩ := List.mem_flatMap.1 hv
  obtain ⟨u, hu, rfl⟩ := List.mem_map.1 htm
  obtain ⟨w, hw, name, hv⟩ := Ty.vars_replaceVars hv
  refine clean_pick hd hn (h.clean hap p hp w (List.mem_cons_of_mem _ ?_)) name v hv
  exact List.mem_flatMap.2 ⟨b, hb, List.mem_flatMap.2 ⟨u, hu, hw⟩⟩

end Offers

end Catalog

namespace Search

variable {q : Search}

/-- What is not schematic is room enough for a search in a registry that keeps its concepts apart. -/
theorem roomy_apart (hd : q.catalog.Declared) (hap : q.catalog.Apart)
    (hq : ∀ c ∈ q.candidates.values, q.catalog.Offers c) :
    q.Roomy (fun v => ¬ q.catalog.Schematic v) q.catalog.nextVar where
  offered c hc k hk d hdm := by
    have hgood := (hq c hc).good_renamed hd hap hk
    exact (Catalog.good_of_mem_expand (hap.proper hd) hgood hdm).clean
  params c hc k hk := (hq c hc).clean_renamed hd hap hk

/-- So it is in a tidy registry. -/
theorem roomy_clean (hd : q.catalog.Declared) (ht : q.catalog.Tidy)
    (hq : ∀ c ∈ q.candidates.values, q.catalog.Offers c) :
    q.Roomy (fun v => ¬ q.catalog.Schematic v) q.catalog.nextVar := roomy_apart hd ht.apart hq

/-! ## One round -/

/-- **Every constraint is covered if every goal is**, those included that were dropped as implied. -/
theorem requirement_covered {K : VarId → Prop} {S : Subst} {ps : List Capability} {r : Request}
    (ht : Catalog.Proper K q.catalog.concepts) (hS : S.Acyclic) (hK : ∀ v ∈ S.vars, ¬ K v)
    (hps : ∀ p ∈ ps, Catalog.Good K q.catalog.concepts p) (hr : r.context.Acyclic)
    (hext : S.Extends r.context) (hrK : ∀ v ∈ r.context.vars, ¬ K v)
    (hcK : ∀ c ∈ r.constraints, ∀ v ∈ c.vars, ¬ K v)
    (h : ∀ a ∈ q.requirement r, Covered q.catalog S ps a) :
    ∀ c ∈ r.constraints, Covered q.catalog S ps c := by
  intro c hc
  have happlied : Covered q.catalog S ps (r.context.applyTo c) := by
    have hmem : r.context.applyTo c ∈ r.constraints.map r.context.applyTo := List.mem_map_of_mem hc
    by_cases hmin : q.config.minimize = true
    · have hreq : q.requirement r = q.catalog.minimize (r.constraints.map r.context.applyTo) := by
        rw [requirement]
        exact if_pos hmin
      -- a goal that is covered is good, because what covers it is
      have hgood : ∀ a ∈ q.requirement r, Catalog.Good K q.catalog.concepts a := by
        intro a ha
        obtain ⟨d, hd, heq⟩ := h a ha
        have hgd := (Catalog.good_of_mem_expand ht hps hd).applyTo hS hK
        refine (hgd.of_equal heq).of_applyTo ?_
        intro v hv
        obtain ⟨b, hb, rfl⟩ := mem_requirement ha
        rcases Subst.mem_vars_applyTo hv with hv | hv
        · exact hcK b hb v hv
        · exact hrK v hv
      rw [hreq] at h hgood
      obtain ⟨a, ha, hin⟩ := Catalog.exists_kept ht hmem hgood
      exact (h a ha).inherited ht hS hK hps (hgood a ha) hin
    · have hreq : q.requirement r = r.constraints.map r.context.applyTo := by
        rw [requirement]
        exact if_neg hmin
      exact h _ (hreq ▸ hmem)
  obtain ⟨d, hd, heq⟩ := happlied
  rw [hr.applyTo_applyTo_of_extends hS hext] at heq
  exact ⟨d, hd, heq⟩

/-- What a solver answers is valid, under every clean substitution that extends the bindings it found. -/
def SoundAt (q : Search) (solver : Solver) : Prop :=
  ∀ (r : Request) (st : State) (found : Solved), q.catalog.nextVar ≤ st.next → r.context.Acyclic →
    (∀ v ∈ r.context.vars, ¬ q.catalog.Schematic v) →
    (∀ c ∈ r.constraints, ∀ v ∈ c.vars, ¬ q.catalog.Schematic v) →
    (solver r st).1 = .ok found → ∀ S : Subst, S.Acyclic → (∀ v ∈ S.vars, ¬ q.catalog.Schematic v) →
    S.Extends found.subst → found.witness.Valid q.catalog (· ∈ q.candidates.values) S r.constraints

/-- Each dependency of a chain is valid for what its parameter asks for. -/
theorem Chain.valid {solver : Solver} (hnext : ∀ r st, st.next ≤ (solver r st).2.next)
    (hgrows : q.GrowsAt (fun v => ¬ q.catalog.Schematic v) q.catalog.nextVar solver)
    (hsound : q.SoundAt solver) {ps : List Param} {s s' : Subst} {st st' : State}
    {found : List Solved} (h : Chain solver ps s st found s' st')
    (hn : q.catalog.nextVar ≤ st.next) (hs : s.Acyclic)
    (hsK : ∀ v ∈ s.vars, ¬ q.catalog.Schematic v)
    (hps : ∀ p ∈ ps, ∀ c ∈ p.constraints, ∀ v ∈ c.vars, ¬ q.catalog.Schematic v) {S : Subst}
    (hS : S.Acyclic) (hK : ∀ v ∈ S.vars, ¬ q.catalog.Schematic v) (hext : S.Extends s')
    {p : Param} {w : Witness} (hpw : (p, w) ∈ ps.zip (found.map Solved.witness)) :
    w.Valid q.catalog (· ∈ q.candidates.values) S p.constraints := by
  induction h with
  | nil => cases hpw
  | cons first more ih =>
    rename_i p' ps s s' st st₁ st' f rest
    rw [List.forall_mem_cons] at hps
    have hgrow := hgrows ⟨p'.name, p'.constraints, s⟩ st f hn hs hsK hps.1 (by rw [first])
    have hle : st.next ≤ st₁.next := by
      have := hnext ⟨p'.name, p'.constraints, s⟩ st
      rwa [first] at this
    have hn' := Nat.le_trans hn hle
    have hsK' := hgrow.forall_vars hsK
    rw [List.map_cons, List.zip_cons_cons, List.mem_cons] at hpw
    rcases hpw with hpw | hpw
    · injection hpw with hp hw
      subst hp hw
      have hmore := more.grows hnext hgrows hn' hgrow.acyclic hsK' hps.2
      exact hsound ⟨p.name, p.constraints, s⟩ st f hn hs hsK hps.1 (by rw [first]) S hS hK
        (hmore.isExtension.trans hext)
    · exact ih hn' hgrow.acyclic hsK' hps.2 hext hpw

/-- The choice for the parameters of an instance that its arguments are: a type where there is one, and
    for a parameter that is filled with a witness its new variable. -/
def instantiation (fresh : Subst) (params : List Param) (args : List Argument) (v : VarId) : Ty :=
  match ((params.map Param.id).zip args).lookup v with
  | some (.type t) => t
  | some (.witness _) => fresh.pick v none
  | none => .var v none

theorem mem_zip_ids {α : Type} {params : List Param} {args : List α} {v : VarId} {a : α}
    (h : (v, a) ∈ (params.map Param.id).zip args) : ∃ p, p.id = v ∧ (p, a) ∈ params.zip args := by
  rw [List.zip_map_left] at h
  obtain ⟨⟨p, a'⟩, hp, heq⟩ := List.mem_map.1 h
  injection heq with hv ha
  exact ⟨p, hv, ha ▸ hp⟩

section Instantiation

variable {fresh : Subst} {params : List Param} {args : List Argument}
  (hdistinct : (params.map Param.id).Nodup) (hlength : args.length = params.length)
include hdistinct hlength

theorem lookup_args {v : VarId} {a : Argument} :
    ((params.map Param.id).zip args).lookup v = some a ↔ (v, a) ∈ (params.map Param.id).zip args := by
  apply OrderedMap.lookup_eq_some_iff
  rw [map_fst_zip (by rw [List.length_map, hlength])]
  exact hdistinct

theorem instantiation_of_type {p : Param} {t : Ty} (h : (p, Argument.type t) ∈ params.zip args) :
    instantiation fresh params args p.id = t := by
  have hm : (p.id, Argument.type t) ∈ (params.map Param.id).zip args := by
    rw [List.zip_map_left]
    exact List.mem_map_of_mem (f := Prod.map Param.id id) h
  rw [instantiation, (lookup_args hdistinct hlength).2 hm]

omit hdistinct in
theorem instantiation_of_other {v : VarId} (h : v ∉ params.map Param.id) :
    instantiation fresh params args v = .var v none := by
  have hnone : ((params.map Param.id).zip args).lookup v = none := by
    rw [OrderedMap.lookup_eq_none_iff, map_fst_zip (by rw [List.length_map, hlength])]
    exact h
  rw [instantiation, hnone]

/-- Every variable is either chosen as an argument says, or put as the renaming puts it. -/
theorem instantiation_cases (hfresh : ∀ v, v ∉ params.map Param.id → fresh.pick v none = .var v none)
    (v : VarId) :
    (∃ p t, p.id = v ∧ (p, Argument.type t) ∈ params.zip args ∧
      instantiation fresh params args v = t) ∨
    instantiation fresh params args v = fresh.pick v none := by
  cases hl : ((params.map Param.id).zip args).lookup v with
  | none =>
    right
    have hnot : v ∉ params.map Param.id := by
      rw [OrderedMap.lookup_eq_none_iff, map_fst_zip (by rw [List.length_map, hlength])] at hl
      exact hl
    rw [instantiation, hl, hfresh v hnot]
  | some a =>
    obtain ⟨p, hp, hm⟩ := mem_zip_ids ((lookup_args hdistinct hlength).1 hl)
    cases a with
    | type t => exact Or.inl ⟨p, t, hp, hm, by rw [instantiation, hl]⟩
    | witness w => exact Or.inr (by rw [instantiation, hl])

section Bindings

variable {s : Subst} (hfresh : ∀ v, v ∉ params.map Param.id → fresh.pick v none = .var v none)
  (htypes : ∀ p t, (p, Argument.type t) ∈ params.zip args → t = s.apply (fresh.pick p.id none))
include hfresh htypes

/-- Where the type arguments are what `s` says about the new variables, so is the choice. -/
theorem instantiation_eq (v : VarId) :
    instantiation fresh params args v = s.apply (fresh.pick v none) ∨
    instantiation fresh params args v = fresh.pick v none := by
  rcases instantiation_cases hdistinct hlength hfresh v with ⟨p, t, rfl, hpt, heq⟩ | heq
  · exact Or.inl (heq.trans (htypes p t hpt))
  · exact Or.inr heq

/-- Under bindings that extend `s` the choice and the renaming are equal. -/
theorem anon_assign_instantiation (hflat : fresh.Flat) (hs : s.Acyclic) {S : Subst} (hS : S.Acyclic)
    (hext : S.Extends s) (b : Capability) :
    (S.applyTo (b.assign (instantiation fresh params args))).anon =
      (S.applyTo (fresh.applyTo b)).anon := by
  rw [hflat.applyTo_eq]
  apply anon_applyTo_map_congr hS
  intro v
  rcases instantiation_eq hdistinct hlength hfresh htypes v with h | h
  · rw [h, hs.apply_apply_of_extends hS hext]
  · rw [h]

/-- The variables of what is chosen come from the renaming or from the bindings. -/
theorem mem_vars_instantiation {P : VarId → Prop} (hs : ∀ w ∈ s.vars, P w) {v w : VarId}
    (hpick : ∀ w ∈ (fresh.pick v none).vars, P w)
    (hw : w ∈ (instantiation fresh params args v).vars) : P w := by
  rcases instantiation_eq hdistinct hlength hfresh htypes v with h | h
  · rw [h] at hw
    rcases Subst.mem_vars_apply hw with hw | hw
    · exact hpick w hw
    · exact hs w hw
  · exact hpick w (h ▸ hw)

end Bindings

end Instantiation

/-- Which argument stands for which parameter of an instance: for an open one the witness that was found
    for it, for any other one what the bindings say about its new variable. -/
theorem argument_cases {i : Instance} {n : VarId} {m : Matched} {s : Subst} {ws : List Witness}
    (hdistinct : (i.params.map Param.id).Nodup) (hbelow : ∀ v ∈ i.params.map Param.id, v < n)
    (hparams : m.params = i.params.map (fun p => p.rename (newVars i.params n)))
    (hlength : ws.length = (q.openParams m).length) {p : Param} {a : Argument}
    (hpa : (p, a) ∈ i.params.zip (arguments ((q.openParams m).map Param.id) s m.params ws)) :
    (∃ w, a = .witness w ∧ (p.rename (newVars i.params n), w) ∈ (q.openParams m).zip ws) ∨
    a = .type (s.apply ((newVars i.params n).pick p.id none)) := by
  have hrenamed : (m.params.map Param.id).Nodup := hparams ▸ nodup_renamed hdistinct hbelow
  have hmem : (p.rename (newVars i.params n), a) ∈
      m.params.zip (arguments ((q.openParams m).map Param.id) s m.params ws) := by
    have hzip := List.mem_map_of_mem (f := Prod.map (fun p => p.rename (newVars i.params n)) id) hpa
    rw [← List.zip_map_left, ← hparams] at hzip
    exact hzip
  rcases mem_zip_arguments (by rw [filter_openParams hrenamed, hlength]) hmem with
    ⟨w, ha, hw⟩ | ⟨_, ha⟩
  · rw [filter_openParams hrenamed] at hw
    exact Or.inl ⟨w, ha, hw⟩
  · rw [rename_asTy hdistinct hbelow (List.of_mem_zip hpa).1 none] at ha
    exact Or.inr ha

section Round

variable (hd : q.catalog.Declared) (ht : q.catalog.Tidy)
  (hq : ∀ c ∈ q.candidates.values, q.catalog.Offers c)
include hd ht hq

/-- What a match offers covers every constraint of the request, also under later bindings. -/
theorem match_covered {c : Candidate} (hc : c ∈ q.candidates.values) {r : Request} {n : VarId}
    (hn : q.catalog.nextVar ≤ n) {m : Matched} (hr : r.context.Acyclic)
    (hrK : ∀ v ∈ r.context.vars, ¬ q.catalog.Schematic v)
    (hcK : ∀ c ∈ r.constraints, ∀ v ∈ c.vars, ¬ q.catalog.Schematic v)
    (hmatch : q.match? c (q.requirement r) r.context n = some m) {S : Subst} (hS : S.Acyclic)
    (hK : ∀ v ∈ S.vars, ¬ q.catalog.Schematic v) (hext : S.Extends m.subst) :
    ∀ a ∈ r.constraints, Covered q.catalog S (c.offers.map (newVars c.params n).applyTo) a := by
  obtain ⟨hgrow, hcovers⟩ := match?_grows (roomy_clean hd ht hq) hc hn hr hrK hcK hmatch
  apply requirement_covered (ht.apart.proper hd) hS hK ((hq c hc).good_renamed hd ht.apart hn) hr
    (hgrow.isExtension.trans hext) hrK hcK
  intro a ha
  obtain ⟨d, hdm, heq⟩ := hcovers a ha
  have hlater := hS.anon_applyTo_congr heq
  rw [hgrow.acyclic.applyTo_applyTo_of_extends hS hext,
    hgrow.acyclic.applyTo_applyTo_of_extends hS hext] at hlater
  exact ⟨d, hdm, hlater⟩

/-- An instance with its dependencies solved is valid. -/
theorem valid_instance {solver : Solver} (hnext : ∀ r st, st.next ≤ (solver r st).2.next)
    (hgrows : q.GrowsAt (fun v => ¬ q.catalog.Schematic v) q.catalog.nextVar solver)
    (hsound : q.SoundAt solver) {i : Instance} (hi : Candidate.declared i ∈ q.candidates.values)
    {r : Request} {n : VarId} (hn : q.catalog.nextVar ≤ n) {m : Matched} (hr : r.context.Acyclic)
    (hrK : ∀ v ∈ r.context.vars, ¬ q.catalog.Schematic v)
    (hcK : ∀ c ∈ r.constraints, ∀ v ∈ c.vars, ¬ q.catalog.Schematic v)
    (hmatch : q.match? (.declared i) (q.requirement r) r.context n = some m) {s : Subst}
    {st st' : State} {found : List Solved}
    (hchain : Chain solver (q.openParams m) m.subst st found s st')
    (hst : q.catalog.nextVar ≤ st.next) {S : Subst} (hS : S.Acyclic)
    (hK : ∀ v ∈ S.vars, ¬ q.catalog.Schematic v) (hext : S.Extends s) :
    Witness.Valid q.catalog (· ∈ q.candidates.values) S
      (.apply i.id i.name (arguments ((q.openParams m).map Param.id) s m.params
        (found.map Solved.witness))) r.constraints := by
  have hroom := roomy_clean hd ht hq
  have hoffer := hq _ hi
  have hdistinct : (i.params.map Param.id).Nodup := hoffer.nodup ht
  have hbelow : ∀ v ∈ i.params.map Param.id, v < n :=
    fun v hv => Nat.lt_of_lt_of_le (hoffer.below hd v hv) hn
  -- the bindings: those of the match, then those of the dependencies, then the later ones
  have hgrow := (match?_grows hroom hi hn hr hrK hcK hmatch).1
  have hmK := hgrow.forall_vars hrK
  have hopen := openParams_within hroom hi hn hmatch
  have hmore := hchain.grows hnext hgrows hst hgrow.acyclic hmK hopen
  have hsK := hmore.forall_vars hmK
  have hcover : ∀ a ∈ r.constraints,
      Covered q.catalog S (i.provides.map (newVars i.params n).applyTo) a :=
    match_covered hd ht hq hi hn hr hrK hcK hmatch hS hK (hmore.isExtension.trans hext)
  -- which argument stands for which parameter
  have hparams : m.params = i.params.map (fun p => p.rename (newVars i.params n)) :=
    (match?_ok hmatch).2.1
  have hws : (found.map Solved.witness).length = (q.openParams m).length := by
    rw [List.length_map, hchain.length]
  have hroles := fun p a => argument_cases (p := p) (a := a) (s := s) hdistinct hbelow hparams hws
  generalize hargs : arguments ((q.openParams m).map Param.id) s m.params
    (found.map Solved.witness) = args at hroles
  have hlength : args.length = i.params.length := by
    rw [← hargs, length_arguments, hparams, List.length_map]
  have htypes : ∀ p t, (p, Argument.type t) ∈ i.params.zip args →
      t = s.apply ((newVars i.params n).pick p.id none) := by
    intro p t hpt
    rcases hroles p _ hpt with ⟨w, hw, _⟩ | ht
    · cases hw
    · injection ht
  -- the arguments say what the new variables stand for
  have hothers : ∀ v, v ∉ i.params.map Param.id → (newVars i.params n).pick v none = .var v none :=
    fun v hv => (pick_newVars v none).1 hv
  have hequal := anon_assign_instantiation hdistinct hlength hothers htypes (hoffer.flat hd hn)
    hmore.acyclic hS hext
  refine .apply (σ := instantiation (newVars i.params n) i.params args) hi ⟨hlength, ?_, ?_, ?_⟩ ?_ ?_
  · exact fun p t hpt => instantiation_of_type hdistinct hlength hpt
  · intro p w hpw
    rcases hroles p _ hpw with ⟨w', _, hm⟩ | ht
    · have hopened := (List.mem_filter.1 (List.of_mem_zip hm).1).2
      rw [Bool.and_eq_true, isWitness_rename] at hopened
      exact hopened.1
    · cases ht
  · exact fun v hv => instantiation_of_other hlength hv
  · intro a ha
    refine (hcover a ha).transfer (ht.apart.proper hd) hS hK (hoffer.good_renamed hd ht.apart hn) ?_ ?_
    · intro b hb
      obtain ⟨b', hb', rfl⟩ := List.mem_map.1 hb
      have hgood := hoffer.good hd ht.apart b' hb'
      exact hgood.map fun v hv _ w hw => mem_vars_instantiation hdistinct hlength hothers htypes hsK
        (Catalog.clean_pick hd hn (hgood.clean v hv) none) hw
    · intro b hb
      obtain ⟨b', hb', rfl⟩ := List.mem_map.1 hb
      exact ⟨b'.assign _, List.mem_map_of_mem hb', hequal b'⟩
  · intro p w hpw
    rcases hroles p _ hpw with ⟨w', hw, hm⟩ | ht
    · injection hw with hw
      subst hw
      have hvalid := hchain.valid hnext hgrows hsound hst hgrow.acyclic hmK hopen hS hK hext hm
      refine hvalid.weaken ?_
      intro c hc
      obtain ⟨b, hb, rfl⟩ := List.mem_map.1 hc
      refine ⟨(newVars i.params n).applyTo b, ?_, (hequal b).symm⟩
      rw [constraints_rename]
      exact List.mem_map_of_mem hb
    · cases ht

/-- An ambient witness is valid. -/
theorem valid_ambient {p : Param} (hp : Candidate.ambient p ∈ q.candidates.values) {r : Request}
    {n : VarId} (hn : q.catalog.nextVar ≤ n) {m : Matched} (hr : r.context.Acyclic)
    (hrK : ∀ v ∈ r.context.vars, ¬ q.catalog.Schematic v)
    (hcK : ∀ c ∈ r.constraints, ∀ v ∈ c.vars, ¬ q.catalog.Schematic v)
    (hmatch : q.match? (.ambient p) (q.requirement r) r.context n = some m) {S : Subst}
    (hS : S.Acyclic) (hK : ∀ v ∈ S.vars, ¬ q.catalog.Schematic v) (hext : S.Extends m.subst) :
    Witness.Valid q.catalog (· ∈ q.candidates.values) S (.ambient p.id p.name) r.constraints := by
  refine .ambient hp ?_
  have hcover := match_covered hd ht hq hp hn hr hrK hcK hmatch hS hK hext
  have hnone : (Candidate.ambient p).offers.map (newVars (Candidate.ambient p).params n).applyTo =
      p.constraints := by
    refine (List.map_congr_left fun c _ => ?_).trans (List.map_id _)
    show c.map _ = c
    unfold Capability.map
    congr 1
    refine (List.map_congr_left fun t _ => ?_).trans (List.map_id _)
    exact Subst.apply_of_free fun v _ => rfl
  rw [hnone] at hcover
  exact hcover

/-- **One round is sound if its solver is.** -/
theorem step_sound {solver : Solver} (hnext : ∀ r st, st.next ≤ (solver r st).2.next)
    (hgrows : q.GrowsAt (fun v => ¬ q.catalog.Schematic v) q.catalog.nextVar solver)
    (hsound : q.SoundAt solver) : q.SoundAt (q.step solver) := by
  intro r st found hn hr hrK hcK h S hS hK hext
  obtain ⟨c, hc, n, m, hle, hmatch, w, st₁, st₂, hst, hsurvive, rfl⟩ := step_ok hnext h
  have hn' := Nat.le_trans hn hle
  have hst' := Nat.le_trans hn hst
  have hcand := (match?_ok hmatch).1
  rcases survive_ok hsurvive with ⟨p, hp, hw, hs⟩ | ⟨i, found, st₃, hi, hchain, hw⟩
  · rw [hcand] at hp
    subst hp
    show Witness.Valid _ _ S w.witness _
    rw [hw]
    exact valid_ambient hd ht hq hc hn' hr hrK hcK hmatch hS hK (hs ▸ hext)
  · rw [hcand] at hi
    subst hi
    show Witness.Valid _ _ S w.witness _
    rw [hw]
    exact valid_instance hd ht hq hnext hgrows hsound hc hn' hr hrK hcK hmatch hchain hst' hS hK hext

/-- **The search is sound.** -/
theorem solve_sound (levels : Nat) : q.SoundAt (q.solve levels) := by
  induction levels with
  | zero => exact fun r st found _ _ _ _ h => nomatch h
  | succ levels ih =>
    exact step_sound hd ht hq (q.solve_next_le levels) (solve_grows (roomy_clean hd ht hq) levels) ih

end Round

end Search

end InstanceSearch
