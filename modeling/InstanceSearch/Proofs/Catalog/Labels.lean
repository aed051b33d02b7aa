/-
  Inheritance and the texts of goals do not see labels.

  Types are compared without the names of their variables.  Two searches that say the same may carry
  different names along, so nothing that decides the course of a search may depend on them.  For
  unification this is shown beside it; here it is shown for what is computed from a list of capabilities:
  the ancestors, which one implies which (`implies_congr`), what is left when the implied ones are
  dropped (`minimize_congr`), and the text of the goal (`goalText_congr`).

  WHAT IS LEFT when the implied capabilities are dropped depends on no more than which capabilities there
  are: their order and their repetitions do not matter for it (`minimize_alike`).

  No assumption is made on the registry.
-/
import InstanceSearch.Proofs.Subst.Values
import InstanceSearch.Catalog.Inheritance
import InstanceSearch.Search.Basic

namespace InstanceSearch

/-! ## Without labels -/

@[simp] theorem Ty.anon_anon (t : Ty) : t.anon.anon = t.anon := by
  rw [anon, anon, replaceVars_replaceVars]
  rfl

namespace Capability

@[simp] theorem anon_anon (c : Capability) : c.anon.anon = c.anon := by
  simp [anon]

/-- Equality is the same without labels. -/
theorem beq_anon (c d : Capability) : (c.anon == d.anon) = (c == d) := by
  rw [Bool.eq_iff_iff, beq_iff, beq_iff, anon_anon, anon_anon]

theorem contains_congr {xs xs' : List Capability} {c c' : Capability}
    (hxs : xs.map anon = xs'.map anon) (hc : c.anon = c'.anon) : xs.contains c = xs'.contains c' := by
  rw [← FirstSeen.contains_map beq_anon xs c, hxs, hc, FirstSeen.contains_map beq_anon]

/-- `Alike cs cs'`: the two lists hold the same capabilities, in any order and any number of times. -/
def Alike (cs cs' : List Capability) : Prop := ∀ k, k ∈ cs.map anon ↔ k ∈ cs'.map anon

theorem Alike.symm {cs cs' : List Capability} (h : Alike cs cs') : Alike cs' cs := fun k => (h k).symm

theorem Alike.exists_mem {cs cs' : List Capability} (h : Alike cs cs') {c : Capability} (hc : c ∈ cs) :
    ∃ c' ∈ cs', c'.anon = c.anon :=
  List.mem_map.1 ((h c.anon).1 (List.mem_map_of_mem hc))

theorem alike_of_perm {cs cs' : List Capability} (h : cs.Perm cs') : Alike cs cs' :=
  fun _ => (h.map anon).mem_iff

end Capability

/-! ## Substitutions with the same values -/

namespace Subst

theorem putEntry_map (f : Ty → Ty) (v : VarId) (t : Ty) (es : List (VarId × Ty)) :
    OrderedMap.putEntry v (f t) (es.map fun e => (e.1, f e.2)) =
      (OrderedMap.putEntry v t es).map fun e => (e.1, f e.2) := by
  induction es with
  | nil => rfl
  | cons e es ih =>
    rw [List.map_cons, OrderedMap.putEntry, OrderedMap.putEntry, ih]
    split <;> rfl

theorem ofList_map (f : Ty → Ty) (es : List (VarId × Ty)) :
    OrderedMap.ofList (es.map fun e => (e.1, f e.2)) = (OrderedMap.ofList es).mapValues f := by
  have hfold : ∀ s : Subst, (es.map fun e => (e.1, f e.2)).foldl (fun m e => m.insert e.1 e.2)
      (s.mapValues f) = (es.foldl (fun m e => m.insert e.1 e.2) s).mapValues f := by
    induction es with
    | nil => exact fun _ => rfl
    | cons e es ih =>
      intro s
      rw [List.map_cons, List.foldl_cons, List.foldl_cons, ← ih]
      congr 1
      exact OrderedMap.ext_entries (putEntry_map f e.1 e.2 s.entries)
  exact hfold OrderedMap.empty

section SameValues

variable {s s' : Subst} (h : s.mapValues Ty.anon = s'.mapValues Ty.anon)
include h

/-- Chains of bindings are followed to the same end. -/
theorem anon_follow_congr (n : Nat) {t t' : Ty} (ht : t.anon = t'.anon) :
    (s.follow n t).anon = (s'.follow n t').anon := by
  induction n generalizing t t' with
  | zero => exact ht
  | succ n ih =>
    rw [follow, follow]
    apply Ty.anon_replaceVars_congr ht
    intro v _ n m
    have hfind := OrderedMap.find?_mapValues Ty.anon s v
    rw [h, OrderedMap.find?_mapValues] at hfind
    cases hs : s.find? v with
    | none =>
      rw [hs, Option.map_none, Option.map_eq_none_iff] at hfind
      rw [hfind]
      rfl
    | some u =>
      rw [hs, Option.map_some, Option.map_eq_some_iff] at hfind
      obtain ⟨u', hu', heq⟩ := hfind
      rw [hu']
      exact ih heq.symm

theorem anon_applyTo_of_sameValues (c : Capability) : (s.applyTo c).anon = (s'.applyTo c).anon := by
  have hsize : s.size = s'.size := by
    have hlength := congrArg (fun m : Subst => m.entries.length) h
    simp only [OrderedMap.mapValues, List.length_map] at hlength
    exact hlength
  rw [Capability.anon_eq_iff]
  refine ⟨rfl, ?_⟩
  rw [applyTo, applyTo, Capability.args_map, Capability.args_map, List.map_map, List.map_map]
  refine List.map_congr_left fun t _ => ?_
  rw [Function.comp_apply, Function.comp_apply, apply, apply, hsize]
  exact anon_follow_congr h _ rfl

end SameValues

end Subst

/-! ## Ancestors -/

/-- The parents of a concept at equal arguments are equal, whatever the arguments. -/
theorem Concept.anon_parentsAt (d : Concept) {args args' : List Ty}
    (h : args.map Ty.anon = args'.map Ty.anon) :
    (d.parentsAt args).map Capability.anon = (d.parentsAt args').map Capability.anon := by
  have hentries : ∀ ts : List Ty, ((d.params.map Param.id).zip ts).map (fun e => (e.1, e.2.anon)) =
      (d.params.map Param.id).zip (ts.map Ty.anon) := by
    intro ts
    rw [List.zip_map_right]
    rfl
  have hvalues : ∀ ts : List Ty,
      (OrderedMap.ofList ((d.params.map Param.id).zip ts)).mapValues Ty.anon =
        OrderedMap.ofList ((d.params.map Param.id).zip (ts.map Ty.anon)) := by
    intro ts
    rw [← Subst.ofList_map, hentries]
  unfold parentsAt
  dsimp only
  rw [List.map_map, List.map_map]
  refine List.map_congr_left fun c _ => ?_
  exact Subst.anon_applyTo_of_sameValues ((hvalues args).trans (h ▸ (hvalues args').symm)) c

namespace Catalog

theorem ancestorsInto_congr {table : List Concept} {c c' : Capability} {found found' : List Capability}
    (hc : c.anon = c'.anon) (hfound : found.map Capability.anon = found'.map Capability.anon) :
    (ancestorsInto table c found).map Capability.anon =
      (ancestorsInto table c' found').map Capability.anon := by
  induction table generalizing c c' found found' with
  | nil => exact hfound
  | cons d older ih =>
    obtain ⟨hconcept, hargs⟩ := Capability.anon_eq_iff.1 hc
    rw [ancestorsInto, ancestorsInto, hconcept]
    split
    · -- the fold over the parents: one parent keeps the two lists in step
      have hfold : ∀ {ps ps' : List Capability},
          ps.map Capability.anon = ps'.map Capability.anon → ∀ {found found' : List Capability},
          found.map Capability.anon = found'.map Capability.anon →
          (ps.foldl (fun found p => if found.contains p then found
            else ancestorsInto older p (found ++ [p])) found).map Capability.anon =
          (ps'.foldl (fun found p => if found.contains p then found
            else ancestorsInto older p (found ++ [p])) found').map Capability.anon := by
        intro ps
        induction ps with
        | nil =>
          intro ps' hps found found' hfound
          rw [List.map_nil, List.nil_eq, List.map_eq_nil_iff] at hps
          rw [hps]
          exact hfound
        | cons p ps ihp =>
          intro ps' hps found found' hfound
          obtain ⟨p', qs, rfl, hp, hqs⟩ := List.map_eq_cons_iff.1 hps.symm
          rw [List.foldl_cons, List.foldl_cons]
          apply ihp hqs.symm
          rw [Capability.contains_congr hfound hp.symm]
          split
          · exact hfound
          · apply ih hp.symm
            rw [List.map_append, List.map_append, hfound, List.map_singleton, List.map_singleton, hp]
      exact hfold (d.anon_parentsAt hargs) hfound
    · exact ih hc hfound

variable {cat : Catalog} {c c' d d' : Capability} {cs cs' : List Capability}

/-- **Equal capabilities imply the same.** -/
theorem implies_congr (hc : c.anon = c'.anon) (hd : d.anon = d'.anon) :
    cat.implies c d = cat.implies c' d' := by
  have hancestors : (cat.ancestors c).contains d = (cat.ancestors c').contains d' :=
    Capability.contains_congr (ancestorsInto_congr hc rfl) hd
  unfold implies
  rw [(Capability.anon_eq_iff.1 hc).1, (Capability.anon_eq_iff.1 hd).1, hancestors]

/-! ## What is left without the implied ones -/

/-- Dropping what is implied does not see labels. -/
theorem minimize_anon (cs : List Capability) :
    cat.minimize (cs.map Capability.anon) = (cat.minimize cs).map Capability.anon := by
  unfold minimize
  dsimp only
  rw [FirstSeen.ofList_map Capability.beq_anon, List.filter_map]
  congr 1
  refine List.filter_congr fun c _ => ?_
  simp only [Function.comp_apply, List.any_map, bne, Capability.beq_anon, Function.comp_def,
    implies_congr (Capability.anon_anon _) (Capability.anon_anon c)]

theorem minimize_congr (h : cs.map Capability.anon = cs'.map Capability.anon) :
    (cat.minimize cs).map Capability.anon = (cat.minimize cs').map Capability.anon := by
  rw [← minimize_anon, h, minimize_anon]

/-- A capability is left if it is in the list and nothing else in the list implies it. -/
theorem mem_minimize_iff {c : Capability} : c ∈ cat.minimize cs ↔
    c ∈ FirstSeen.ofList cs ∧ ∀ d ∈ cs, d.anon ≠ c.anon → cat.implies d c = false := by
  have hkeeps : (∀ d ∈ FirstSeen.ofList cs, d.anon ≠ c.anon → cat.implies d c = false) ↔
      ∀ d ∈ cs, d.anon ≠ c.anon → cat.implies d c = false := by
    constructor
    · intro h d hd hne
      obtain ⟨e, he, heq⟩ := FirstSeen.exists_mem_ofList hd
      rw [Capability.beq_iff] at heq
      rw [implies_congr heq rfl]
      exact h e he (heq ▸ hne)
    · exact fun h d hd => h d (FirstSeen.mem_of_mem_ofList hd)
  have hne : ∀ d, (d != c) = true ↔ d.anon ≠ c.anon := by
    intro d
    rw [bne, Bool.not_eq_true', ← Bool.not_eq_true, Capability.beq_iff]
  rw [← hkeeps]
  unfold minimize
  simp [List.mem_filter, hne]

/-- **What is left depends on which capabilities there are**, and not on their order. -/
theorem minimize_alike (h : Capability.Alike cs cs') :
    Capability.Alike (cat.minimize cs) (cat.minimize cs') := by
  have hleft : ∀ {cs cs' : List Capability}, Capability.Alike cs cs' → ∀ c ∈ cat.minimize cs,
      ∃ c' ∈ cat.minimize cs', c'.anon = c.anon := by
    intro cs cs' h c hc
    obtain ⟨hmem, hkept⟩ := mem_minimize_iff.1 hc
    obtain ⟨c₁, hc₁, heq₁⟩ := h.exists_mem (FirstSeen.mem_of_mem_ofList hmem)
    obtain ⟨c', hc', heq⟩ := FirstSeen.exists_mem_ofList hc₁
    rw [Capability.beq_iff, heq₁] at heq
    refine ⟨c', mem_minimize_iff.2 ⟨hc', ?_⟩, heq.symm⟩
    intro d' hd' hne
    obtain ⟨d, hd, hdd⟩ := h.symm.exists_mem hd'
    rw [← implies_congr hdd heq]
    exact hkept d hd fun he => hne (hdd.symm.trans (he.trans heq))
  intro k
  simp only [List.mem_map]
  constructor
  · rintro ⟨c, hc, rfl⟩
    exact hleft h c hc
  · rintro ⟨c, hc, rfl⟩
    exact hleft h.symm c hc

end Catalog

/-! ## The text of a goal -/

namespace Search

/-- **Goals that are the same without labels have one text.** -/
theorem goalText_congr {frozen : VarSet} {cs cs' : List Capability}
    (h : cs.map Capability.anon = cs'.map Capability.anon) :
    goalText frozen cs = goalText frozen cs' := by
  have hvars : ∀ cs : List Capability,
      (cs.map Capability.anon).flatMap Capability.vars = cs.flatMap Capability.vars := by
    intro cs
    rw [List.flatMap_map]
    congr 1
    funext c
    exact Capability.vars_eq_of_anon c.anon_anon
  have hplaced : ∀ (order : List VarId) (cs : List Capability),
      (cs.map Capability.anon).map (Capability.map (Ty.replaceVars (place frozen order))) =
        cs.map (Capability.map (Ty.replaceVars (place frozen order))) := by
    intro order cs
    rw [List.map_map]
    refine List.map_congr_left fun c _ => ?_
    rw [Function.comp_apply, Capability.anon, Capability.map, Capability.map, List.map_map]
    congr 1
    refine List.map_congr_left fun t _ => ?_
    rw [Function.comp_apply, Ty.anon, Ty.replaceVars_replaceVars]
    exact Ty.replaceVars_congr fun v _ n => rfl
  have hanon : ∀ cs : List Capability, goalText frozen (cs.map Capability.anon) = goalText frozen cs := by
    intro cs
    unfold goalText
    dsimp only
    rw [hvars, hplaced]
  rw [← hanon cs, h, hanon]

end Search

end InstanceSearch
