/-
  Dropping what is implied, exactly.

  THE PROGRAM
    `minimize` keeps the first occurrences in a list that nothing else in the list implies.  It looks at
    the whole list, so a capability may be dropped for one that is dropped as well.

  WHY NOTHING IS LOST
    What implies a capability has a younger concept, so the chain of what is dropped for what ends, and it
    ends at something that is kept (`exists_kept`).  Inheritance is transitive across capabilities at
    their arguments, and so that one implies them all.

  THE STATEMENT (`minimize_exact`)
    What is kept stands in order and once, no member of it implies a member, and it implies the rest.
    Therefore to minimise again changes nothing, and which capabilities are kept does not depend on the
    order in which they were required.
-/
import InstanceSearch.Proofs.Catalog.Hierarchy
import InstanceSearch.Proofs.Catalog.Lineage

namespace InstanceSearch

namespace Capability

theorem Distinct.sublist {cs ds : List Capability} (h : Distinct ds) (hsub : cs.Sublist ds) : Distinct cs :=
  List.Nodup.sublist (hsub.map anon) h

/-- Where nothing is repeated, everything is added. -/
theorem addAll_of_distinct {cs ds : List Capability} (h : Distinct (cs ++ ds)) :
    FirstSeen.addAll cs ds = cs ++ ds := by
  induction ds generalizing cs with
  | nil => exact (List.append_nil cs).symm
  | cons d ds ih =>
    have hmore : Distinct ((cs ++ [d]) ++ ds) := by rwa [List.append_assoc]
    have hnew : ¬ cs.contains d = true := by
      intro hc
      obtain ⟨x, hx, heq⟩ := Catalog.contains_iff_has.1 hc
      rw [Distinct, List.map_append] at h
      exact (List.nodup_append.1 h).2.2 _ (List.mem_map_of_mem hx) d.anon (by simp) heq
    rw [FirstSeen.addAll_cons, FirstSeen.add, if_neg hnew, ih hmore, List.append_assoc]
    rfl

/-- A list without repetition is its own list of first occurrences. -/
theorem ofList_of_distinct {cs : List Capability} (h : Distinct cs) : FirstSeen.ofList cs = cs := by
  have hempty : Distinct ([] ++ cs) := h
  exact addAll_of_distinct hempty

/-- Lists without repetition that hold the same hold it in some order. -/
theorem Alike.perm {cs ds : List Capability} (h : Alike cs ds) (hcs : Distinct cs) (hds : Distinct ds) :
    (cs.map anon).Perm (ds.map anon) := (List.perm_ext_iff_of_nodup hcs hds).2 h

end Capability

namespace Catalog

variable {cat : Catalog} {K : VarId → Prop} {c d : Capability} {required : List Capability}

/-- In a registry, one capability implies another exactly if it has it among its ancestors. -/
theorem implies_iff_has (h : cat.Declared) : cat.implies d c = true ↔ Has (cat.ancestors d) c := by
  rw [implies_eq h, contains_iff_has]

theorem minimize_sublist : (cat.minimize required).Sublist (FirstSeen.ofList required) :=
  List.filter_sublist

theorem distinct_minimize : Capability.Distinct (cat.minimize required) := by
  have hfirst : Capability.Distinct (FirstSeen.ofList required) :=
    Capability.distinct_addAll List.nodup_nil
  exact hfirst.sublist minimize_sublist

/-- **Nothing that is kept implies anything that is kept**, itself included. -/
theorem not_implies_of_mem_minimize (h : cat.Declared) (hc : c ∈ cat.minimize required)
    (hd : d ∈ cat.minimize required) : cat.implies d c = false := by
  by_cases heq : d.anon = c.anon
  · rw [← Bool.not_eq_true, implies_iff_has h, has_ancestors_congr heq]
    exact not_has_self h.regular.ordered c
  · have hmem : d ∈ required := FirstSeen.mem_of_mem_ofList (minimize_sublist.subset hd)
    exact (mem_minimize_iff.1 hc).2 d hmem heq

/-- **Everything that was required is kept or implied by what is kept.** -/
theorem covered_of_mem (h : cat.Declared) (ht : Proper K cat.concepts)
    (hgood : ∀ c ∈ required, Good K cat.concepts c) (hc : c ∈ required) :
    ∃ d ∈ cat.minimize required, d.anon = c.anon ∨ cat.implies d c = true := by
  have hkept : ∀ d ∈ cat.minimize required, Good K cat.concepts d :=
    fun d hd => hgood d (FirstSeen.mem_of_mem_ofList (minimize_sublist.subset hd))
  obtain ⟨d, hd, hin⟩ := exists_kept ht hc hkept
  refine ⟨d, hd, ?_⟩
  cases hin with
  | refl heq => exact Or.inl heq
  | step hp hin =>
    have hhas := (has_ancestors_iff_parent ht (hkept d hd)).2 ⟨_, hp, hin⟩
    exact Or.inr ((implies_iff_has h).2 hhas)

/-- What is kept offers what was required, and all that comes with it. -/
theorem alike_expand_minimize (ht : Proper K cat.concepts)
    (hgood : ∀ c ∈ required, Good K cat.concepts c) :
    Capability.Alike (cat.expand (cat.minimize required)) (cat.expand required) := by
  have hsub : ∀ d ∈ cat.minimize required, d ∈ required :=
    fun d hd => FirstSeen.mem_of_mem_ofList (minimize_sublist.subset hd)
  have hkept : ∀ d ∈ cat.minimize required, Good K cat.concepts d := fun d hd => hgood d (hsub d hd)
  refine alike_of_has fun e => ?_
  rw [has_expand_iff ht hkept, has_expand_iff ht hgood]
  constructor
  · rintro ⟨d, hd, hin⟩
    exact ⟨d, hsub d hd, hin⟩
  · rintro ⟨c, hc, hin⟩
    obtain ⟨d, hd, hdc⟩ := exists_kept ht hc hkept
    exact ⟨d, hd, hdc.trans ht hin (hkept d hd)⟩

/-- Minimising a second time changes nothing. -/
theorem minimize_minimize (h : cat.Declared) :
    cat.minimize (cat.minimize required) = cat.minimize required := by
  have hsame : ∀ ds : List Capability, Capability.Distinct ds →
      (∀ c ∈ ds, ∀ d ∈ ds, cat.implies d c = false) → cat.minimize ds = ds := by
    intro ds hds hnone
    rw [minimize, Capability.ofList_of_distinct hds, List.filter_eq_self]
    intro c hc
    simp only [Bool.not_eq_true', List.any_eq_false, Bool.and_eq_true, not_and, Bool.not_eq_true]
    exact fun d hd _ => hnone c hc d hd
  exact hsame _ distinct_minimize fun c hc d hd => not_implies_of_mem_minimize h hc hd

/-- **Minimising, exactly.**  In a registry of self-contained concepts, what is kept of a list of good
    capabilities are first occurrences, in order and each once; none of them implies another; every
    member of the list is kept or implied by one that is, so that both offer the same; a second time
    changes nothing; and of a list in another order the same capabilities are kept. -/
theorem minimize_exact (h : cat.Declared) (hown : ∀ d ∈ cat.concepts, d.SelfContained)
    (hgood : ∀ c ∈ required, Good cat.Schematic cat.concepts c) :
    (cat.minimize required).Sublist required.eraseDups ∧
    Capability.Distinct (cat.minimize required) ∧
    (∀ c ∈ cat.minimize required, ∀ d ∈ cat.minimize required, cat.implies d c = false) ∧
    (∀ c ∈ required, ∃ d ∈ cat.minimize required, (d == c) = true ∨ cat.implies d c = true) ∧
    Capability.Alike (cat.expand (cat.minimize required)) (cat.expand required) ∧
    cat.minimize (cat.minimize required) = cat.minimize required ∧
    ∀ required' : List Capability, required.Perm required' →
      ((cat.minimize required).map Capability.anon).Perm
        ((cat.minimize required').map Capability.anon) := by
  have ht := h.proper fun d hd => (hown d hd).closed
  refine ⟨?_, distinct_minimize, ?_, ?_, alike_expand_minimize ht hgood, minimize_minimize h, ?_⟩
  · rw [← FirstSeen.ofList_eq_eraseDups]
    exact minimize_sublist
  · exact fun c hc d hd => not_implies_of_mem_minimize h hc hd
  · intro c hc
    simp only [Capability.beq_iff]
    exact covered_of_mem h ht hgood hc
  · intro required' hperm
    have halike : Capability.Alike (cat.minimize required) (cat.minimize required') :=
      minimize_alike (Capability.alike_of_perm hperm)
    exact halike.perm distinct_minimize distinct_minimize

/-- A list in which `Type<?30>` is dropped for what is dropped as well. -/
def conversionGoals : List Capability :=
  [⟨"Type", [.var 30 none]⟩, ⟨"Into", [Ty.con "Int" [], .var 30 none]⟩, isoInt,
    ⟨"Into", [.var 30 none, .var 31 none]⟩, isoInt]

/-- The isomorphism is kept, and the conversion that it says nothing of. -/
theorem minimize_exact_conversions :
    (conversions.minimize conversionGoals).map Capability.text = ["Iso<?30, Int>", "Into<?30, ?31>"] ∧
    (∀ c ∈ conversionGoals, ∃ d ∈ conversions.minimize conversionGoals,
      (d == c) = true ∨ conversions.implies d c = true) ∧
    Capability.Alike (conversions.expand (conversions.minimize conversionGoals))
      (conversions.expand conversionGoals) := by
  have hown : ∀ d ∈ conversions.concepts, d.SelfContained := by decide +kernel
  have hclean : ∀ c ∈ conversionGoals, ∀ v ∈ c.vars, ¬ conversions.Schematic v := by decide +kernel
  have hfits : ∀ c ∈ conversionGoals, Fits conversions.concepts c := checkAll_ok (by rfl)
  obtain ⟨_, _, _, hcovered, hoffers, _⟩ := minimize_exact (session_declared _) hown
    fun c hc => ⟨hfits c hc, hclean c hc⟩
  exact ⟨by decide +kernel, hcovered, hoffers⟩

end Catalog

end InstanceSearch
