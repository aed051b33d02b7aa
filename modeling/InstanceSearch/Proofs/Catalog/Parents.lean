/-
  Parents, one step up.

  SCHEMATIC VARIABLES
    The parents of a concept are written with its parameters.  These variables are placeholders: they are
    replaced by arguments and must not stand in any.  `K` is a set of variables that holds all of them,
    and a capability is `Good` if it fits its concept and mentions none of `K`.

  WHAT FOLLOWS FOR GOOD CAPABILITIES
    * their parents are good again (`good_of_mem_parents`);
    * taking parents and replacing variables can be exchanged (`parents_map`);
    * equal capabilities have equal parents (`exists_parent_of_equal`).
    These carry over to `Inherits`, the steps upwards in any number.
-/
import InstanceSearch.Catalog.Inheritance
import InstanceSearch.Proofs.Catalog.Declared
import InstanceSearch.Proofs.Subst.Flat

namespace InstanceSearch

/-! ## Arguments for parameters -/

theorem lookup_map_snd {α β γ : Type} [BEq α] (es : List (α × β)) (f : β → γ) (k : α) :
    (es.map (Prod.map id f)).lookup k = (es.lookup k).map f := by
  induction es with
  | nil => rfl
  | cons e es ih =>
    rw [List.map_cons, List.lookup_cons, List.lookup_cons]
    show (match k == e.1 with | true => some (f e.2) | false => _) = _
    cases k == e.1 with
    | true => rfl
    | false => exact ih

theorem map_fst_zip {α β : Type} {ks : List α} {xs : List β} (h : ks.length = xs.length) :
    (ks.zip xs).map Prod.fst = ks := by
  induction ks generalizing xs with
  | nil => rfl
  | cons k ks ih =>
    cases xs with
    | nil => cases h
    | cons x xs => rw [List.zip_cons_cons, List.map_cons, ih (by simpa using h)]

namespace Concept

/-- The arguments put for the parameters of a concept. -/
def choice (d : Concept) (args : List Ty) : Subst := OrderedMap.ofList ((d.params.map Param.id).zip args)

/-- A concept whose parameters differ, and whose parents mention nothing else. -/
structure SelfContained (d : Concept) : Prop where
  distinct : (d.params.map Param.id).Nodup
  own : ∀ p ∈ d.parents, ∀ v ∈ p.vars, v ∈ d.params.map Param.id

instance (d : Concept) : Decidable d.SelfContained :=
  decidable_of_iff ((d.params.map Param.id).Nodup ∧
      ∀ p ∈ d.parents, ∀ v ∈ p.vars, v ∈ d.params.map Param.id)
    ⟨fun h => ⟨h.1, h.2⟩, fun h => ⟨h.distinct, h.own⟩⟩

/-- A concept whose parents mention nothing but its parameters. -/
def Closed (d : Concept) : Prop := ∀ p ∈ d.parents, ∀ v ∈ p.vars, v ∈ d.params.map Param.id

instance (d : Concept) : Decidable d.Closed :=
  inferInstanceAs (Decidable (∀ p ∈ d.parents, ∀ v ∈ p.vars, v ∈ d.params.map Param.id))

theorem SelfContained.closed {d : Concept} (h : d.SelfContained) : d.Closed := h.own

/-- `d.Accepts args`: as many arguments as parameters, and no parameter among them. -/
structure Accepts (d : Concept) (args : List Ty) : Prop where
  length : d.params.length = args.length
  clean : ∀ t ∈ args, ∀ v ∈ t.vars, v ∉ d.params.map Param.id

variable {d : Concept} {args : List Ty}

/-- Arguments that are changed one by one are found changed. -/
theorem find?_choice_map (d : Concept) (args : List Ty) (f : Ty → Ty) (v : VarId) :
    (d.choice (args.map f)).find? v = ((d.choice args).find? v).map f := by
  unfold choice
  rw [OrderedMap.find?_ofList_reverse, OrderedMap.find?_ofList_reverse, List.zip_map_right,
    ← List.map_reverse, lookup_map_snd]

theorem find?_choice_of_mem (ha : d.Accepts args) {v : VarId} (hv : v ∈ d.params.map Param.id) :
    ∃ t ∈ args, (d.choice args).find? v = some t := by
  cases hfind : (d.choice args).find? v with
  | some t => exact ⟨t, (List.of_mem_zip (OrderedMap.mem_of_find?_ofList hfind)).2, rfl⟩
  | none =>
    rw [choice, OrderedMap.find?_ofList_reverse, OrderedMap.lookup_eq_none_iff, List.map_reverse,
      map_fst_zip (by simpa using ha.length), List.mem_reverse] at hfind
    exact absurd hv hfind

theorem choice_flat (ha : d.Accepts args) : (d.choice args).Flat := by
  intro v t hv w hw
  have hm := Subst.mem_keys_of_find? hv
  have hkeys : ∀ u, u ∈ (d.choice args).keys → u ∈ d.params.map Param.id := by
    intro u hu
    have := OrderedMap.mem_keys_ofList hu
    rwa [map_fst_zip (by simpa using ha.length)] at this
  obtain ⟨t', ht', hfind⟩ := find?_choice_of_mem ha (hkeys v hm)
  rw [hfind] at hv
  injection hv with hv
  rw [OrderedMap.find?_eq_none_iff]
  intro hw'
  exact ha.clean t (hv ▸ ht') w hw (hkeys w hw')

theorem parentsAt_eq (ha : d.Accepts args) :
    d.parentsAt args = d.parents.map (Capability.map (Ty.replaceVars (d.choice args).pick)) := by
  unfold parentsAt
  apply List.map_congr_left
  intro p _
  exact (choice_flat ha).applyTo_eq p

/-- **Replacing variables in the arguments replaces them in the parents.** -/
theorem parentsAt_map (h : d.Closed) (ha : d.Accepts args)
    {f : VarId → Option String → Ty} (hf : d.Accepts (args.map (Ty.replaceVars f))) :
    d.parentsAt (args.map (Ty.replaceVars f)) =
      (d.parentsAt args).map (Capability.map (Ty.replaceVars f)) := by
  rw [parentsAt_eq ha, parentsAt_eq hf, List.map_map]
  apply List.map_congr_left
  intro p hp
  rw [Function.comp_apply, Capability.map_map]
  unfold Capability.map
  congr 1
  apply List.map_congr_left
  intro t ht
  rw [Ty.replaceVars_replaceVars]
  apply Ty.replaceVars_congr
  intro v hv n
  -- parents mention nothing but parameters, so every variable has an argument on both sides
  have hown := h p hp v (List.mem_flatMap.2 ⟨t, ht, hv⟩)
  obtain ⟨u, _, hu⟩ := find?_choice_of_mem ha hown
  have hu' : (d.choice (args.map (Ty.replaceVars f))).find? v = some (u.replaceVars f) := by
    rw [find?_choice_map, hu]
    rfl
  rw [Subst.pick, Subst.pick, hu, hu']
  rfl

/-- Equal arguments give equal parents. -/
theorem parentsAt_congr {args' : List Ty} (h : d.Closed) (ha : d.Accepts args)
    (ha' : d.Accepts args') (heq : args.map Ty.anon = args'.map Ty.anon) :
    (d.parentsAt args).map Capability.anon = (d.parentsAt args').map Capability.anon := by
  rw [parentsAt_eq ha, parentsAt_eq ha', List.map_map, List.map_map]
  apply List.map_congr_left
  intro p hp
  apply Capability.anon_map_congr rfl
  intro v hv n m
  have hown := h p hp v hv
  obtain ⟨u, _, hu⟩ := find?_choice_of_mem ha hown
  obtain ⟨u', _, hu'⟩ := find?_choice_of_mem ha' hown
  rw [Subst.pick, Subst.pick, hu, hu']
  have hanon : u.anon = u'.anon := by
    have hl := find?_choice_map d args Ty.anon v
    rw [heq, find?_choice_map, hu, hu'] at hl
    injection hl with hl
    exact hl.symm
  exact hanon

/-- The variables of the parents are those of the arguments. -/
theorem mem_vars_parentsAt (h : d.Closed) (ha : d.Accepts args) {p : Capability}
    (hp : p ∈ d.parentsAt args) {v : VarId} (hv : v ∈ p.vars) : ∃ t ∈ args, v ∈ t.vars := by
  rw [parentsAt_eq ha, List.mem_map] at hp
  obtain ⟨p', hp', rfl⟩ := hp
  obtain ⟨t, ht, hv⟩ := List.mem_flatMap.1 hv
  obtain ⟨t', ht', rfl⟩ := List.mem_map.1 ht
  obtain ⟨w, hw, n, hvw⟩ := Ty.vars_replaceVars hv
  obtain ⟨u, hu, hfind⟩ := find?_choice_of_mem ha
    (h p' hp' w (List.mem_flatMap.2 ⟨t', ht', hw⟩))
  rw [Subst.pick, hfind] at hvw
  exact ⟨u, hu, hvw⟩

end Concept

namespace Catalog

/-! ## Good capabilities -/

/-- A table whose concepts are in order, closed, and written with variables of `K`. -/
structure Proper (K : VarId → Prop) (table : List Concept) : Prop where
  ordered : Ordered table
  closed : ∀ d ∈ table, d.Closed
  schematic : ∀ d ∈ table, ∀ p ∈ d.params, K p.id

/-- `Good K table c`: the capability fits its concept, and mentions nothing schematic. -/
structure Good (K : VarId → Prop) (table : List Concept) (c : Capability) : Prop where
  fits : Fits table c
  clean : ∀ v ∈ c.vars, ¬ K v

/-- The parents of a capability. -/
def parents (table : List Concept) (c : Capability) : List Capability :=
  match lookup table c.concept with
  | some d => d.parentsAt c.args
  | none => []

section Parents

variable {K : VarId → Prop} {table : List Concept} {c d p : Capability}

theorem Good.accepts (h : Good K table c) (ht : Proper K table) {e : Concept}
    (he : lookup table c.concept = some e) : e.Accepts c.args := by
  obtain ⟨e', he', hlength⟩ := h.fits
  rw [he] at he'
  injection he' with he'
  subst he'
  refine ⟨hlength, ?_⟩
  intro t htm v hv hparam
  obtain ⟨q, hq, rfl⟩ := List.mem_map.1 hparam
  exact h.clean q.id (List.mem_flatMap.2 ⟨t, htm, hv⟩) (ht.schematic e (mem_of_lookup he) q hq)

theorem parents_of_lookup {e : Concept} (he : lookup table c.concept = some e) :
    parents table c = e.parentsAt c.args := by
  rw [parents, he]

/-- Equal capabilities are good together. -/
theorem Good.of_equal (h : Good K table c) (heq : c.anon = d.anon) : Good K table d := by
  constructor
  · obtain ⟨hconcept, hargs⟩ := Capability.anon_eq_iff.1 heq
    obtain ⟨e, he, hlength⟩ := h.fits
    refine ⟨e, hconcept ▸ he, ?_⟩
    have := congrArg List.length hargs
    rw [List.length_map, List.length_map] at this
    rw [hlength, this]
  · rw [← Capability.vars_eq_of_anon heq]
    exact h.clean

/-- Replacing variables by good types keeps a capability good. -/
theorem Good.map {f : VarId → Option String → Ty} (h : Good K table c)
    (hf : ∀ v ∈ c.vars, ∀ n, ∀ w ∈ (f v n).vars, ¬ K w) :
    Good K table (c.map (Ty.replaceVars f)) where
  fits := by
    obtain ⟨e, he, hlength⟩ := h.fits
    exact ⟨e, he, by rw [Capability.args_map, List.length_map, hlength]⟩
  clean v hv := by
    obtain ⟨t, ht, hv⟩ := List.mem_flatMap.1 hv
    obtain ⟨t', ht', rfl⟩ := List.mem_map.1 ht
    obtain ⟨w, hw, n, hvw⟩ := Ty.vars_replaceVars hv
    exact hf w (List.mem_flatMap.2 ⟨t', ht', hw⟩) n v hvw

/-- What fits an older part of an ordered table fits the table. -/
theorem fits_of_parent (h : Ordered table) {e : Concept} (he : e ∈ table) :
    ∀ p ∈ e.parents, Fits table p := by
  induction h with
  | nil => cases he
  | cons new parents _ ih =>
    rcases List.mem_cons.1 he with he | he
    · subst he
      exact fun p hp => (parents p hp).cons new
    · exact fun p hp => (ih he p hp).cons new

/-- Parents mention nothing new. -/
theorem vars_of_mem_parents (ht : Proper K table) (h : Good K table c) (hp : p ∈ parents table c) :
    ∀ v ∈ p.vars, v ∈ c.vars := by
  obtain ⟨e, he, _⟩ := h.fits
  rw [parents_of_lookup he] at hp
  intro v hv
  obtain ⟨t, htm, hvt⟩ := Concept.mem_vars_parentsAt (ht.closed e (mem_of_lookup he))
    (h.accepts ht he) hp hv
  exact List.mem_flatMap.2 ⟨t, htm, hvt⟩

/-- **Parents of good capabilities are good.** -/
theorem good_of_mem_parents (ht : Proper K table) (h : Good K table c) (hp : p ∈ parents table c) :
    Good K table p := by
  constructor
  · obtain ⟨e, he, hlength⟩ := h.fits
    rw [parents_of_lookup he, Concept.parentsAt_eq (h.accepts ht he), List.mem_map] at hp
    obtain ⟨p', hp', rfl⟩ := hp
    obtain ⟨e', he', hlength'⟩ := fits_of_parent ht.ordered (mem_of_lookup he) p' hp'
    exact ⟨e', he', by rw [Capability.args_map, List.length_map, hlength']⟩
  · exact fun v hv => h.clean v (vars_of_mem_parents ht h hp v hv)

/-- **Taking parents and replacing variables can be exchanged.** -/
theorem parents_map (ht : Proper K table) (h : Good K table c) {f : VarId → Option String → Ty}
    (hf : ∀ v ∈ c.vars, ∀ n, ∀ w ∈ (f v n).vars, ¬ K w) :
    parents table (c.map (Ty.replaceVars f)) =
      (parents table c).map (Capability.map (Ty.replaceVars f)) := by
  obtain ⟨e, he, _⟩ := h.fits
  rw [parents_of_lookup he, parents_of_lookup (c := c.map (Ty.replaceVars f)) he]
  exact Concept.parentsAt_map (ht.closed e (mem_of_lookup he)) (h.accepts ht he)
    ((h.map hf).accepts ht he)

/-- **Equal capabilities have equal parents**, one by one. -/
theorem parents_congr (ht : Proper K table) (h : Good K table c) (heq : c.anon = d.anon) :
    (parents table c).map Capability.anon = (parents table d).map Capability.anon := by
  obtain ⟨e, he, _⟩ := h.fits
  obtain ⟨hconcept, hargs⟩ := Capability.anon_eq_iff.1 heq
  have he' : lookup table d.concept = some e := hconcept ▸ he
  rw [parents_of_lookup he, parents_of_lookup he']
  exact Concept.parentsAt_congr (ht.closed e (mem_of_lookup he)) (h.accepts ht he)
    ((h.of_equal heq).accepts ht he') hargs

theorem exists_parent_of_equal (ht : Proper K table) (h : Good K table c) (heq : c.anon = d.anon)
    (hp : p ∈ parents table c) : ∃ p' ∈ parents table d, p.anon = p'.anon := by
  have hm : p.anon ∈ (parents table d).map Capability.anon := by
    rw [← parents_congr ht h heq]
    exact List.mem_map_of_mem hp
  obtain ⟨p', hp', heq'⟩ := List.mem_map.1 hm
  exact ⟨p', hp', heq'.symm⟩

end Parents

/-! ## Inheritance -/

/-- `Inherits table c d`: from `c`, steps to parents lead to a capability equal to `d`. -/
inductive Inherits (table : List Concept) : Capability → Capability → Prop where
  | refl {c d : Capability} (h : c.anon = d.anon) : Inherits table c d
  | step {c p d : Capability} (hp : p ∈ parents table c) (h : Inherits table p d) :
      Inherits table c d

namespace Inherits

variable {K : VarId → Prop} {table : List Concept} {a b c d : Capability}

theorem good (ht : Proper K table) (h : Inherits table c d) (hc : Good K table c) :
    Good K table d := by
  induction h with
  | refl heq => exact hc.of_equal heq
  | step hp _ ih => exact ih (good_of_mem_parents ht hc hp)

theorem congr_right (h : Inherits table c d) (heq : d.anon = b.anon) : Inherits table c b := by
  induction h with
  | refl h => exact .refl (h.trans heq)
  | step hp _ ih => exact .step hp (ih heq)

theorem congr_left (ht : Proper K table) (h : Inherits table c d) (hc : Good K table c)
    (heq : c.anon = a.anon) : Inherits table a d := by
  induction h generalizing a with
  | refl h => exact .refl (heq.symm.trans h)
  | step hp _ ih =>
    obtain ⟨p', hp', heq'⟩ := exists_parent_of_equal ht hc heq hp
    exact .step hp' (ih (good_of_mem_parents ht hc hp) heq')

theorem trans (ht : Proper K table) (h : Inherits table a b) (h' : Inherits table b c)
    (ha : Good K table a) : Inherits table a c := by
  induction h with
  | refl heq => exact h'.congr_left ht (ha.of_equal heq) heq.symm
  | step hp _ ih => exact .step hp (ih h' (good_of_mem_parents ht ha hp))

/-- Replacing variables keeps inheritance. -/
theorem map (ht : Proper K table) (h : Inherits table c d) (hc : Good K table c)
    {f : VarId → Option String → Ty} (hlabel : ∀ v n m, (f v n).anon = (f v m).anon)
    (hf : ∀ v, ¬ K v → ∀ n, ∀ w ∈ (f v n).vars, ¬ K w) :
    Inherits table (c.map (Ty.replaceVars f)) (d.map (Ty.replaceVars f)) := by
  induction h with
  | refl heq =>
    exact .refl (Capability.anon_map_congr heq fun v _ n m => hlabel v n m)
  | step hp _ ih =>
    refine .step ?_ (ih (good_of_mem_parents ht hc hp))
    rw [parents_map ht hc fun v hv => hf v (hc.clean v hv)]
    exact List.mem_map_of_mem hp

/-- And whatever is inherited after variables were replaced was inherited before. -/
theorem exists_of_map (ht : Proper K table) {f : VarId → Option String → Ty}
    (hf : ∀ v, ¬ K v → ∀ n, ∀ w ∈ (f v n).vars, ¬ K w) (hc : Good K table c)
    (h : Inherits table (c.map (Ty.replaceVars f)) d) :
    ∃ e, Inherits table c e ∧ (e.map (Ty.replaceVars f)).anon = d.anon := by
  generalize hm : c.map (Ty.replaceVars f) = c' at h
  induction h generalizing c with
  | refl heq => exact ⟨c, .refl rfl, by rw [hm, heq]⟩
  | step hp _ ih =>
    subst hm
    rw [parents_map ht hc fun v hv => hf v (hc.clean v hv), List.mem_map] at hp
    obtain ⟨p', hp', hpm⟩ := hp
    obtain ⟨e, he, heq⟩ := ih (good_of_mem_parents ht hc hp') hpm
    exact ⟨e, .step hp' he, heq⟩

end Inherits

end Catalog

end InstanceSearch
