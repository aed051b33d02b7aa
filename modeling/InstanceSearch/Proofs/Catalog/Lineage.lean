/-
  Ancestors, exactly.

  THE STATEMENT (`ancestors_exact`)
    A capability `Extends` to a parent if the parent is what a parent of its concept says, with the
    arguments put for the parameters all at once.  Its ancestors are what one step or more lead to; none
    is listed twice, and the capability itself is not among them.  Replacing variables replaces them in
    the ancestors, and to expand a list a second time changes nothing.

  WHY IT IS NOT OBVIOUS
    The walk is a procedure that calls itself (`ancestorsWithin`), and it applies the arguments by one that
    does so as well.  Both end: the parents of a concept stand further down the table, and what is put for
    a parameter mentions none (`collectWithin_settles`).  It also leaves out what was found before, so
    what is found depends on the order; as a set it does not.

  REPETITIONS
    Capabilities that differ in labels only are equal.  After variables were replaced more of them are
    equal, so the ancestors are then fewer, and only `Alike`.
-/
import Mathlib.Logic.Relation
import InstanceSearch.Catalog.Nested
import InstanceSearch.Proofs.Catalog.InPlace
import InstanceSearch.Proofs.Catalog.Labels
import InstanceSearch.Proofs.Search.Soundness
import InstanceSearch.Proofs.Subst.Nested

namespace InstanceSearch

open Relation (ReflTransGen TransGen)

/-! ## Lists without repetition -/

namespace Capability

/-- No two members of the list are equal. -/
def Distinct (cs : List Capability) : Prop := (cs.map anon).Nodup

theorem distinct_add {cs : List Capability} (h : Distinct cs) {c : Capability}
    (hnew : ¬ cs.contains c = true) : Distinct (cs ++ [c]) := by
  have hout : c.anon ∉ cs.map anon := by
    intro hm
    obtain ⟨x, hx, heq⟩ := List.mem_map.1 hm
    exact hnew (Catalog.contains_iff_has.2 ⟨x, hx, heq⟩)
  rw [Distinct, List.map_append]
  exact OrderedMap.nodup_concat h hout

theorem distinct_addAll {cs ds : List Capability} (h : Distinct cs) : Distinct (FirstSeen.addAll cs ds) := by
  induction ds generalizing cs with
  | nil => exact h
  | cons d ds ih =>
    refine ih ?_
    unfold FirstSeen.add
    split
    · exact h
    · rename_i hnew
      exact distinct_add h hnew

end Capability

/-! ## Arguments for parameters, all at once -/

/-- `d.argument args v name` = the argument at the place of the parameter `v`, or the variable itself if
    the concept has no such parameter. -/
def Concept.argument (d : Concept) (args : List Ty) (v : VarId) (name : Option String) : Ty :=
  (((d.params.map Param.id).zip args).lookup v).getD (.var v name)

/-- Where the parameters differ, the arguments are put for them all at once. -/
theorem Concept.parentsAt_eq_argument {d : Concept} {args : List Ty} (hd : d.SelfContained)
    (ha : d.Accepts args) :
    d.parentsAt args = d.parents.map (Capability.map (Ty.replaceVars (d.argument args))) := by
  have hkeys : ((d.params.map Param.id).zip args).map Prod.fst = d.params.map Param.id :=
    map_fst_zip (by simpa using ha.length)
  have hpick : (d.choice args).pick = d.argument args := by
    funext v name
    rw [Subst.pick, choice, OrderedMap.find?_ofList (by rw [hkeys]; exact hd.distinct), argument]
  rw [parentsAt_eq ha, hpick]

namespace Catalog

/-- `cat.Extends c p`: `p` is a parent of the concept of `c`, with the arguments of `c` put for the
    parameters. -/
def Extends (cat : Catalog) (c p : Capability) : Prop :=
  ∃ d, cat.concept? c.concept = some d ∧
    ∃ parent ∈ d.parents, p = parent.map (Ty.replaceVars (d.argument c.args))

/-! ## The walk ends -/

theorem applyToWithin_settles {s : Subst} (hs : s.Acyclic) (c : Capability) :
    Settles (fun n => s.applyToWithin n c) (s.applyTo c) :=
  (Settles.mapM fun t _ => hs.applyWithin_settles t).map _

section Walk

variable {cat : Catalog} {K : VarId → Prop} {c d : Capability}

/-- **The walk by nested calls ends**, with what the walk down the table finds. -/
theorem collectWithin_settles (ht : Proper K cat.concepts) {older : List Concept}
    (hs : older <:+ cat.concepts) (hc : Good K cat.concepts c) (hfits : Fits older c)
    (found : List Capability) :
    Settles (fun n => cat.collectWithin n c found) (ancestorsInto older c found) := by
  induction older generalizing c found with
  | nil =>
    obtain ⟨d, hd, _⟩ := hfits
    cases hd
  | cons d older ih =>
    have hs' : older <:+ cat.concepts := (List.suffix_cons d older).trans hs
    rw [ancestorsInto]
    by_cases hname : d.name = c.concept
    · obtain ⟨hparents, hfit⟩ := parents_of_suffix ht.ordered hs hname
      have hlookup : cat.concept? c.concept = some d :=
        lookup_of_suffix ht.ordered hs (hname ▸ lookup_cons_self d older)
      have hflat := Concept.choice_flat (hc.accepts ht hlookup)
      have hwritten : d.parentsAt c.args = d.parents.map (d.choice c.args).applyTo := rfl
      rw [if_pos hname, hwritten, List.foldl_map]
      refine Settles.succ ?_
      simp only [collectWithin, hlookup]
      refine Settles.foldlM (fun parent hparent found => ?_) found
      -- a parent is written out, and then skipped or entered
      refine (applyToWithin_settles hflat.acyclic parent).bind ?_
      have hmem : (d.choice c.args).applyTo parent ∈ d.parentsAt c.args := List.mem_map_of_mem hparent
      by_cases hfound : found.contains ((d.choice c.args).applyTo parent) = true
      · rw [if_pos hfound]
        exact Settles.const fun n => if_pos hfound
      · rw [if_neg hfound]
        have hcall := ih hs' (good_of_mem_parents ht hc (hparents ▸ hmem)) (hfit _ hmem)
          (found ++ [(d.choice c.args).applyTo parent])
        simpa only [if_neg hfound] using hcall
    · rw [if_neg hname]
      exact ih hs' hc (hfits.of_cons hname) found

/-! ## What is listed -/

/-- The walk adds nothing twice. -/
theorem distinct_ancestorsInto {table : List Concept} {found : List Capability}
    (h : Capability.Distinct found) : Capability.Distinct (ancestorsInto table c found) := by
  induction table generalizing c found with
  | nil => exact h
  | cons d older ih =>
    rw [ancestorsInto]
    split
    · refine List.foldlRecOn (motive := Capability.Distinct) _ _ h fun found hfound p _ => ?_
      split
      · exact hfound
      · rename_i hnew
        exact ih (Capability.distinct_add hfound hnew)
    · exact ih h

/-- A capability is not among its ancestors. -/
theorem not_has_self (ht : Ordered cat.concepts) (c : Capability) : ¬ Has (cat.ancestors c) c := by
  intro h
  exact Nat.lt_irrefl _ (rank_lt_of_has ht h).2

/-- A step is a step to a parent. -/
theorem extends_iff (ht : Proper K cat.concepts) (hown : ∀ d ∈ cat.concepts, d.SelfContained)
    (hc : Good K cat.concepts c) {p : Capability} :
    cat.Extends c p ↔ p ∈ parents cat.concepts c := by
  obtain ⟨d, hd, _⟩ := hc.fits
  have hparents : parents cat.concepts c =
      d.parents.map (Capability.map (Ty.replaceVars (d.argument c.args))) := by
    rw [parents_of_lookup hd]
    exact Concept.parentsAt_eq_argument (hown d (mem_of_lookup hd)) (hc.accepts ht hd)
  rw [hparents, List.mem_map]
  constructor
  · rintro ⟨d', hd', parent, hparent, rfl⟩
    obtain rfl : d = d' := Option.some.inj (hd.symm.trans hd')
    exact ⟨parent, hparent, rfl⟩
  · rintro ⟨parent, hparent, rfl⟩
    exact ⟨d, hd, parent, hparent, rfl⟩

/-- What is inherited is what steps lead to, up to equality. -/
theorem inherits_iff_path (ht : Proper K cat.concepts) (hown : ∀ d ∈ cat.concepts, d.SelfContained)
    (hc : Good K cat.concepts c) :
    Inherits cat.concepts c d ↔ ∃ e, ReflTransGen cat.Extends c e ∧ e.anon = d.anon := by
  constructor
  · intro h
    induction h with
    | refl heq => exact ⟨_, .refl, heq⟩
    | step hp _ ih =>
      obtain ⟨e, hpath, heq⟩ := ih (good_of_mem_parents ht hc hp)
      exact ⟨e, hpath.head ((extends_iff ht hown hc).2 hp), heq⟩
  · rintro ⟨e, hpath, heq⟩
    induction hpath using ReflTransGen.head_induction_on with
    | refl => exact .refl heq
    | head hstep _ ih =>
      have hp := (extends_iff ht hown hc).1 hstep
      exact .step hp (ih (good_of_mem_parents ht hc hp))

/-- **The ancestors are what one step or more lead to**, up to equality. -/
theorem has_ancestors_iff_path (ht : Proper K cat.concepts)
    (hown : ∀ d ∈ cat.concepts, d.SelfContained) (hc : Good K cat.concepts c) :
    Has (cat.ancestors c) d ↔ ∃ e, TransGen cat.Extends c e ∧ e.anon = d.anon := by
  rw [has_ancestors_iff_parent ht hc]
  constructor
  · rintro ⟨p, hp, hin⟩
    obtain ⟨e, hpath, heq⟩ := (inherits_iff_path ht hown (good_of_mem_parents ht hc hp)).1 hin
    exact ⟨e, TransGen.head' ((extends_iff ht hown hc).2 hp) hpath, heq⟩
  · rintro ⟨e, hpath, heq⟩
    obtain ⟨p, hstep, hrest⟩ := TransGen.head'_iff.1 hpath
    have hp := (extends_iff ht hown hc).1 hstep
    exact ⟨p, hp, (inherits_iff_path ht hown (good_of_mem_parents ht hc hp)).2 ⟨e, hrest, heq⟩⟩

/-! ## Replacing variables -/

theorem has_iff_mem {cs : List Capability} : Has cs d ↔ d.anon ∈ cs.map Capability.anon :=
  List.mem_map.symm

theorem alike_of_has {cs ds : List Capability} (h : ∀ d, Has cs d ↔ Has ds d) :
    Capability.Alike cs ds := by
  intro k
  constructor <;> intro hk
  · obtain ⟨c, _, rfl⟩ := List.mem_map.1 hk
    exact has_iff_mem.1 ((h c).1 (has_iff_mem.2 hk))
  · obtain ⟨c, _, rfl⟩ := List.mem_map.1 hk
    exact has_iff_mem.1 ((h c).2 (has_iff_mem.2 hk))

/-- **Replacing variables replaces them in the ancestors**, as a set. -/
theorem alike_ancestors_map (ht : Proper K cat.concepts) (hc : Good K cat.concepts c)
    {f : VarId → Option String → Ty} (hlabel : ∀ v n m, (f v n).anon = (f v m).anon)
    (hf : ∀ v, ¬ K v → ∀ n, ∀ w ∈ (f v n).vars, ¬ K w) :
    Capability.Alike (cat.ancestors (c.map (Ty.replaceVars f)))
      ((cat.ancestors c).map (Capability.map (Ty.replaceVars f))) := by
  have hclean : ∀ v ∈ c.vars, ∀ n, ∀ w ∈ (f v n).vars, ¬ K w := fun v hv => hf v (hc.clean v hv)
  refine alike_of_has fun d => ?_
  rw [has_ancestors_iff_parent ht (hc.map hclean), parents_map ht hc hclean]
  constructor
  · rintro ⟨_, hpf, hin⟩
    obtain ⟨p, hp, rfl⟩ := List.mem_map.1 hpf
    obtain ⟨e, he, heq⟩ := hin.exists_of_map ht hf (good_of_mem_parents ht hc hp)
    obtain ⟨x, hx, hxe⟩ := (has_ancestors_iff_parent ht hc).2 ⟨p, hp, he⟩
    have hmap : (x.map (Ty.replaceVars f)).anon = (e.map (Ty.replaceVars f)).anon :=
      Capability.anon_map_congr hxe fun v _ n m => hlabel v n m
    exact ⟨_, List.mem_map_of_mem hx, hmap.trans heq⟩
  · rintro ⟨_, hxf, heq⟩
    obtain ⟨x, hx, rfl⟩ := List.mem_map.1 hxf
    obtain ⟨p, hp, hin⟩ := (has_ancestors_iff_parent ht hc).1 ⟨x, hx, rfl⟩
    have hmapped := hin.map ht (good_of_mem_parents ht hc hp) hlabel hf
    exact ⟨_, List.mem_map_of_mem hp, hmapped.congr_right heq⟩

/-- Any substitution is read variable by variable. -/
theorem apply_eq_replaceVars (s : Subst) (t : Ty) :
    s.apply t = t.replaceVars fun v name => s.apply (.var v name) := by
  induction t using Ty.induction with
  | var v name => rfl
  | app f args ih =>
    rw [Subst.apply_app, Ty.replaceVars_app]
    exact congrArg (Ty.app f) (List.map_congr_left ih)

/-- The same for a substitution whose values mention nothing schematic. -/
theorem alike_ancestors_applyTo (ht : Proper K cat.concepts) (hc : Good K cat.concepts c) {s : Subst}
    (hs : ∀ e ∈ s.entries, ∀ v ∈ e.2.vars, ¬ K v) :
    Capability.Alike (cat.ancestors (s.applyTo c)) ((cat.ancestors c).map s.applyTo) := by
  have happly : s.apply = Ty.replaceVars fun v name => s.apply (.var v name) :=
    funext (apply_eq_replaceVars s)
  have hsame : s.applyTo = Capability.map (Ty.replaceVars fun v name => s.apply (.var v name)) := by
    rw [← happly]
    rfl
  rw [hsame]
  refine alike_ancestors_map ht hc (fun v n m => ?_) fun v hv n w hw => ?_
  · exact Subst.anon_follow_congr rfl s.size rfl
  · rcases Subst.mem_vars_follow s.size (.var v n) hw with hw | ⟨e, he, hw⟩
    · rw [Ty.vars_var, List.mem_singleton] at hw
      exact hw ▸ hv
    · exact hs e he w hw

/-- Equal capabilities have equal ancestors. -/
theorem has_ancestors_congr {x : Capability} (heq : x.anon = c.anon) :
    Has (cat.ancestors x) d ↔ Has (cat.ancestors c) d := by
  rw [has_iff_mem, has_iff_mem, ancestors, ancestors, ancestorsInto_congr heq rfl]

/-! ## Expanding twice -/

theorem addAll_eq_self {xs ys : List Capability} (h : ∀ y ∈ ys, Has xs y) :
    FirstSeen.addAll xs ys = xs := by
  induction ys with
  | nil => rfl
  | cons y ys ih =>
    rw [List.forall_mem_cons] at h
    rw [FirstSeen.addAll_cons, FirstSeen.add, if_pos (contains_iff_has.2 h.1)]
    exact ih h.2

/-- `cat.Complete found`: with every member its ancestors are there. -/
def Complete (cat : Catalog) (found : List Capability) : Prop :=
  ∀ x ∈ found, ∀ y ∈ cat.ancestors x, Has found y

/-- A capability and what comes with it. -/
def withAncestors (cat : Catalog) (c : Capability) : List Capability := c :: cat.ancestors c

/-- Adding a good capability and its ancestors keeps a list complete. -/
theorem Complete.add (ht : Proper K cat.concepts) {found : List Capability} (h : cat.Complete found)
    (hc : Good K cat.concepts c) : cat.Complete (FirstSeen.addAll found (cat.withAncestors c)) := by
  intro x hx y hy
  rcases FirstSeen.mem_of_mem_addAll hx with hx | hx
  · exact (h x hx y hy).mono fun z hz => FirstSeen.mem_addAll_of_mem hz
  · have hcx : Inherits cat.concepts c x := (has_ancestors_iff ht hc).1 ⟨x, hx, rfl⟩
    obtain ⟨p, hp, hin⟩ := (has_ancestors_iff_parent ht (hcx.good ht hc)).1 ⟨y, hy, rfl⟩
    obtain ⟨z, hz, hzy⟩ := (has_ancestors_iff ht hc).2 (hcx.trans ht (.step hp hin) hc)
    obtain ⟨u, hu, huz⟩ := FirstSeen.exists_mem_addAll hz
    exact ⟨u, hu, (Capability.beq_iff.1 huz).symm.trans hzy⟩

/-- What one capability adds to a complete list, expanded, adds the same: the first of it brings all. -/
theorem addAll_again (ht : Proper K cat.concepts) {found new : List Capability}
    (h : cat.Complete found) (hc : Good K cat.concepts c)
    (hnew : FirstSeen.addAll found (cat.withAncestors c) = found ++ new) :
    FirstSeen.addAll found (new.flatMap cat.withAncestors) = found ++ new := by
  have hcomplete := h.add ht hc
  rw [hnew] at hcomplete
  have hbrought : ∀ x ∈ found ++ new, ∀ y ∈ cat.withAncestors x, Has (found ++ new) y := by
    intro x hx y hy
    rcases List.mem_cons.1 hy with rfl | hy
    · exact ⟨_, hx, rfl⟩
    · exact hcomplete x hx y hy
  by_cases hfound : found.contains c = true
  · -- it was there, and so was everything that it brings
    obtain ⟨x, hx, hxc⟩ := contains_iff_has.1 hfound
    have hall : ∀ y ∈ cat.withAncestors c, Has found y := by
      intro y hy
      rcases List.mem_cons.1 hy with rfl | hy
      · exact ⟨x, hx, hxc⟩
      · obtain ⟨z, hz, hzy⟩ := (has_ancestors_congr hxc).2 ⟨y, hy, rfl⟩
        obtain ⟨u, hu, huz⟩ := h x hx z hz
        exact ⟨u, hu, huz.trans hzy⟩
    rw [addAll_eq_self hall] at hnew
    obtain rfl : new = [] := List.append_right_eq_self.1 hnew.symm
    exact (List.append_nil found).symm
  · -- it is new and comes first
    have hadd : FirstSeen.add found c = found ++ [c] := if_neg hfound
    obtain ⟨rest, hrest⟩ := FirstSeen.isPrefix_addAll (found ++ [c]) (cat.ancestors c)
    have hsplit : new = c :: rest := by
      rw [withAncestors, FirstSeen.addAll_cons, hadd, ← hrest, List.append_assoc] at hnew
      exact (List.append_cancel_left hnew).symm
    rw [hsplit, List.flatMap_cons, FirstSeen.addAll_append, hnew, hsplit]
    refine addAll_eq_self fun y hy => ?_
    obtain ⟨x, hx, hy⟩ := List.mem_flatMap.1 hy
    have hx' : x ∈ found ++ new := by
      rw [hsplit]
      exact List.mem_append_right _ (List.mem_cons_of_mem c hx)
    exact hsplit ▸ hbrought x hx' y hy

theorem addAll_expanded (ht : Proper K cat.concepts) {found : List Capability} (h : cat.Complete found)
    {cs new : List Capability} (hcs : ∀ c ∈ cs, Good K cat.concepts c)
    (hnew : FirstSeen.addAll found (cs.flatMap cat.withAncestors) = found ++ new) :
    FirstSeen.addAll found (new.flatMap cat.withAncestors) = found ++ new := by
  induction cs generalizing found new with
  | nil =>
    obtain rfl : new = [] := List.append_right_eq_self.1 hnew.symm
    exact hnew
  | cons c cs ih =>
    rw [List.forall_mem_cons] at hcs
    obtain ⟨new₁, hnew₁⟩ := FirstSeen.isPrefix_addAll found (cat.withAncestors c)
    obtain ⟨new₂, hnew₂⟩ := FirstSeen.isPrefix_addAll (found ++ new₁) (cs.flatMap cat.withAncestors)
    have hsplit : new = new₁ ++ new₂ := by
      rw [List.flatMap_cons, FirstSeen.addAll_append, ← hnew₁, ← hnew₂, List.append_assoc] at hnew
      exact (List.append_cancel_left hnew).symm
    have hcomplete : cat.Complete (found ++ new₁) := hnew₁ ▸ h.add ht hcs.1
    rw [hsplit, List.flatMap_append, FirstSeen.addAll_append, addAll_again ht h hcs.1 hnew₁.symm,
      ih hcomplete hcs.2 hnew₂.symm, List.append_assoc]

/-- **Expanding an expanded list changes nothing.** -/
theorem expand_expand (ht : Proper K cat.concepts) {cs : List Capability}
    (hcs : ∀ c ∈ cs, Good K cat.concepts c) : cat.expand (cat.expand cs) = cat.expand cs := by
  have hempty : cat.Complete [] := fun x hx => nomatch hx
  exact addAll_expanded ht hempty hcs (List.nil_append _).symm

end Walk

/-! ## The statement -/

/-- **Ancestors, exactly.**  In a registry of self-contained concepts, the walk from a good capability
    ends, lists nothing twice and not the capability itself, and finds what one step or more lead to.
    Substituting before the walk gives, as a set, what substituting after it gives; and expanding a list
    of good capabilities twice is expanding it once. -/
theorem ancestors_exact {cat : Catalog} (h : cat.Declared) (hown : ∀ d ∈ cat.concepts, d.SelfContained)
    {c : Capability} (hc : Good cat.Schematic cat.concepts c) :
    Settles (fun n => cat.ancestorsWithin n c) (cat.ancestors c) ∧
    Capability.Distinct (cat.ancestors c) ∧
    (cat.ancestors c).contains c = false ∧
    (∀ d, (cat.ancestors c).contains d = true ↔
      ∃ e, TransGen cat.Extends c e ∧ (e == d) = true) ∧
    (∀ s : Subst, (∀ e ∈ s.entries, ∀ v ∈ e.2.vars, ¬ cat.Schematic v) →
      Capability.Alike (cat.ancestors (s.applyTo c)) ((cat.ancestors c).map s.applyTo)) ∧
    ∀ cs, (∀ d ∈ cs, Good cat.Schematic cat.concepts d) →
      cat.expand (cat.expand cs) = cat.expand cs := by
  have ht := h.proper fun d hd => (hown d hd).closed
  refine ⟨collectWithin_settles ht (List.suffix_refl _) hc hc.fits [], ?_, ?_, ?_, ?_, ?_⟩
  · exact distinct_ancestorsInto List.nodup_nil
  · rw [← Bool.not_eq_true, contains_iff_has]
    exact not_has_self ht.ordered c
  · intro d
    rw [contains_iff_has, has_ancestors_iff_path ht hown hc]
    exact exists_congr fun e => and_congr_right fun _ => Capability.beq_iff.symm
  · exact fun s hs => alike_ancestors_applyTo ht hc hs
  · exact fun cs hcs => expand_expand ht hcs

/-- Two types that can be converted to one another are isomorphic, and all of them are types. -/
def conversions : Catalog :=
  session [
    .newConcept ⟨"Type", [⟨0, "A", .ordinary⟩], [], []⟩,
    .newConcept ⟨"Into", [⟨1, "A", .ordinary⟩, ⟨2, "B", .ordinary⟩],
      [⟨"Type", [.var 1 (some "A")]⟩, ⟨"Type", [.var 2 (some "B")]⟩], []⟩,
    .newConcept ⟨"Iso", [⟨3, "A", .ordinary⟩, ⟨4, "B", .ordinary⟩],
      [⟨"Into", [.var 3 (some "A"), .var 4 (some "B")]⟩,
        ⟨"Into", [.var 4 (some "B"), .var 3 (some "A")]⟩], []⟩]

/-- `Iso` of `?30` and `Int`. -/
def isoInt : Capability := ⟨"Iso", [.var 30 none, Ty.con "Int" []]⟩

/-- It has four ancestors.  Where `?30` is `Int`, only two are left. -/
theorem ancestors_exact_conversions :
    (conversions.ancestors isoInt).map Capability.text =
      ["Into<?30, Int>", "Type<?30>", "Type<Int>", "Into<Int, ?30>"] ∧
    Settles (fun n => conversions.ancestorsWithin n isoInt) (conversions.ancestors isoInt) ∧
    ∃ s : Subst, (conversions.ancestors (s.applyTo isoInt)).map Capability.text =
      ["Into<Int, Int>", "Type<Int>"] ∧
      Capability.Alike (conversions.ancestors (s.applyTo isoInt))
        ((conversions.ancestors isoInt).map s.applyTo) := by
  have hown : ∀ d ∈ conversions.concepts, d.SelfContained := by decide +kernel
  have hclean : ∀ v ∈ isoInt.vars, ¬ conversions.Schematic v := by decide +kernel
  have hvalues : ∀ e ∈ (OrderedMap.empty.insert 30 (Ty.con "Int" []) : Subst).entries,
      ∀ v ∈ e.2.vars, ¬ conversions.Schematic v := by decide +kernel
  have hgood : Good conversions.Schematic conversions.concepts isoInt :=
    ⟨checkCapability_ok (by rfl), hclean⟩
  obtain ⟨hends, _, _, _, hsubst, _⟩ := ancestors_exact (session_declared _) hown hgood
  exact ⟨by decide +kernel, hends, _, by decide +kernel, hsubst _ hvalues⟩

end Catalog

end InstanceSearch
