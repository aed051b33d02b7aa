/-
  The graph of concepts: what it answers, and that it has no cycle.

  THE GRAPH
    `reaches` grows the set of what can be reached until nothing is added.  Every round but the last adds
    the target of an edge, so as many rounds as there are edges are enough (`saturated_close`), and the
    two questions that the graph answers are those about paths (`reaches_iff`, `isCyclic_iff`).

  NO CYCLE
    An edge leads to an older concept (`rank_lt_of_edge`), because a concept is drawn after its parents
    were declared.  A path therefore goes down the table, and a new concept, to which no edge leads,
    closes none.  So what refuses a concept as cyclic is that it lists itself as a parent
    (`declareConcept_cyclic`), and never the search for a cycle.

  THE SHORT CUT
    `implies` asks the graph before it walks.  Ancestors are declared, have other concepts, and lie at the
    end of a path, so the walk alone would give the same answer (`implies_eq`).
-/
import Mathlib.Data.List.Induction
import Mathlib.Logic.Relation
import InstanceSearch.Proofs.Catalog.InPlace
import InstanceSearch.Proofs.Catalog.Names

namespace InstanceSearch

open Relation (ReflTransGen TransGen)

/-! ## What the graph answers -/

namespace Hierarchy

variable {h : Hierarchy} {a b : String} {seen : List String} {n : Nat}

/-- `h.Edge a b`: an edge leads from `a` to `b`. -/
def Edge (h : Hierarchy) (a b : String) : Prop := (a, b) ∈ h.edges

/-- `h.Saturated seen`: no edge leads out of `seen`. -/
def Saturated (h : Hierarchy) (seen : List String) : Prop := ∀ a ∈ seen, ∀ b, h.Edge a b → b ∈ seen

/-- What does not grow is saturated. -/
theorem saturated_of_length (hlength : (h.grow seen).length = seen.length) : h.Saturated seen := by
  intro a ha b hedge
  have hsame : seen = h.grow seen := (FirstSeen.isPrefix_addAll _ _).eq_of_length hlength.symm
  rw [hsame]
  exact mem_grow.2 (Or.inr ⟨a, ha, hedge⟩)

/-- Everything reachable from `a` is `a` or the target of an edge, and growing adds nothing else. -/
theorem grow_subset (hseen : ∀ b ∈ seen, b ∈ a :: h.edges.map Prod.snd) :
    ∀ b ∈ h.grow seen, b ∈ a :: h.edges.map Prod.snd := by
  intro b hb
  rcases mem_grow.1 hb with hb | ⟨c, _, hedge⟩
  · exact hseen b hb
  · exact List.mem_cons_of_mem a (List.mem_map.2 ⟨_, hedge, rfl⟩)

/-- **Enough rounds saturate**: the rounds that are left and what was found make up all that there is. -/
theorem saturated_close (hnodup : seen.Nodup) (hseen : ∀ b ∈ seen, b ∈ a :: h.edges.map Prod.snd)
    (hn : h.edges.length + 1 ≤ n + seen.length) : h.Saturated (h.close n seen) := by
  induction n generalizing seen with
  | zero =>
    have hmore : (h.grow seen).Nodup := FirstSeen.nodup_addAll hnodup
    have hbound := hmore.length_le_of_subset (grow_subset hseen)
    have hgrown := (FirstSeen.isPrefix_addAll seen (seen.flatMap h.parents)).length_le
    rw [List.length_cons, List.length_map] at hbound
    rw [Nat.zero_add] at hn
    exact saturated_of_length (Nat.le_antisymm (Nat.le_trans hbound hn) hgrown)
  | succ n ih =>
    rw [close]
    split
    · rename_i hsame
      exact saturated_of_length hsame
    · rename_i hsame
      have hgrown : seen.length ≤ (h.grow seen).length := (FirstSeen.isPrefix_addAll _ _).length_le
      exact ih (FirstSeen.nodup_addAll hnodup) (grow_subset hseen) (by omega)

/-- What is found stays found. -/
theorem mem_close_of_mem (hb : b ∈ seen) : b ∈ h.close n seen := by
  induction n generalizing seen with
  | zero => exact hb
  | succ n ih =>
    rw [close]
    split
    · exact hb
    · exact ih (mem_grow.2 (Or.inl hb))

/-- Whatever is found can be reached from where the search began. -/
theorem reached_of_mem_close (hb : b ∈ h.close n seen) : ∃ a ∈ seen, ReflTransGen h.Edge a b := by
  induction n generalizing seen with
  | zero => exact ⟨b, hb, .refl⟩
  | succ n ih =>
    rw [close] at hb
    split at hb
    · exact ⟨b, hb, .refl⟩
    · obtain ⟨c, hc, hpath⟩ := ih hb
      rcases mem_grow.1 hc with hc | ⟨a, ha, hedge⟩
      · exact ⟨c, hc, hpath⟩
      · exact ⟨a, ha, hpath.head hedge⟩

/-- **The graph finds a path exactly if there is one.** -/
theorem reaches_iff : h.reaches a b = true ↔ ReflTransGen h.Edge a b := by
  have hclosed : h.Saturated (h.reachable a) := by
    refine saturated_close (a := a) (by simp) (fun b hb => ?_) (Nat.le_refl _)
    rw [List.mem_singleton.1 hb]
    exact List.mem_cons_self
  rw [reaches, List.contains_iff_mem]
  constructor
  · intro hb
    obtain ⟨c, hc, hpath⟩ := reached_of_mem_close hb
    rwa [List.mem_singleton.1 hc] at hpath
  · intro hpath
    induction hpath with
    | refl => exact mem_close_of_mem (List.mem_singleton.2 rfl)
    | tail _ hedge ih => exact hclosed _ ih _ hedge

/-- **The graph is called cyclic exactly if a path of edges comes back to where it began.** -/
theorem isCyclic_iff : h.isCyclic = true ↔ ∃ a, TransGen h.Edge a a := by
  simp only [isCyclic, List.any_eq_true, reaches_iff, TransGen.head'_iff]
  constructor
  · rintro ⟨⟨a, b⟩, hedge, hpath⟩
    exact ⟨a, b, hedge, hpath⟩
  · rintro ⟨a, b, hedge, hpath⟩
    exact ⟨(a, b), hedge, hpath⟩

end Hierarchy

namespace Catalog

/-! ## Edges lead to older concepts -/

section Drawn

variable {table : List Concept} {a b : String}

theorem mem_nodes_iff {name : String} : name ∈ (drawn table).nodes ↔ ∃ d ∈ table, d.name = name := by
  refine ⟨exists_of_mem_nodes, ?_⟩
  rintro ⟨d, hd, rfl⟩
  induction table with
  | nil => cases hd
  | cons e older ih =>
    rcases List.mem_cons.1 hd with rfl | hd
    · exact List.mem_append_right _ (List.mem_singleton.2 rfl)
    · exact List.mem_append_left _ (ih hd)

/-- **An edge leads to an older concept.** -/
theorem rank_lt_of_edge (ht : Ordered table) (hedge : (drawn table).Edge a b) :
    rank table b < rank table a := by
  obtain ⟨d, hd, p, hp, heq⟩ := mem_edges_iff.1 hedge
  obtain ⟨rfl, rfl⟩ := Prod.mk.inj heq
  induction ht with
  | nil => cases hd
  | @cons e older new hparents hrest ih =>
    rcases List.mem_cons.1 hd with rfl | hd
    · have hle := rank_le older p.concept
      rw [(rank_cons_of_declared new (hparents p hp).declared).2, rank, if_pos rfl]
      omega
    · have hdeclared := (fits_of_parent hrest hd p hp).declared
      have hne : e.name ≠ d.name := fun he => ne_of_undeclared new hd he.symm
      rw [(rank_cons_of_declared new hdeclared).2, rank, if_neg hne]
      exact ih hd (mem_edges_iff.2 ⟨d, hd, p, hp, rfl⟩)

theorem rank_lt_of_path (ht : Ordered table) (h : TransGen (drawn table).Edge a b) :
    rank table b < rank table a := by
  induction h with
  | single hedge => exact rank_lt_of_edge ht hedge
  | tail _ hedge ih => exact Nat.lt_trans (rank_lt_of_edge ht hedge) ih

/-- **The graph of an ordered table has no cycle.** -/
theorem acyclic_drawn (ht : Ordered table) (a : String) : ¬ TransGen (drawn table).Edge a a :=
  fun h => Nat.lt_irrefl _ (rank_lt_of_path ht h)

/-- A path that leads anywhere begins at a declared concept. -/
theorem Descends.declared_of_ne (h : Descends table a b) (hne : a ≠ b) :
    ∃ d, lookup table a = some d := by
  cases h with
  | refl _ => exact absurd rfl hne
  | step hd _ _ => exact ⟨_, hd⟩

/-- Paths of parents are paths of the graph. -/
theorem Descends.path (h : Descends table a b) : ReflTransGen (drawn table).Edge a b := by
  induction h with
  | refl _ => exact .refl
  | @step a b d p hd hp _ ih =>
    refine ih.head (mem_edges_iff.2 ⟨d, mem_of_lookup hd, p, hp, ?_⟩)
    rw [name_of_lookup hd]

end Drawn

/-! ## The declaration of a concept -/

section Declare

variable {cat : Catalog} {decl : ConceptDecl}

/-- What is wrong with a capability by itself is not a cycle. -/
theorem checkCapability_ne_cyclic {c : Capability} {name : String} :
    cat.checkCapability c ≠ .error (.cyclicInheritance name) := by
  intro h
  unfold checkCapability getConcept at h
  cases hc : cat.concept? c.concept with
  | none =>
    rw [hc] at h
    cases h
  | some d =>
    rw [hc] at h
    change (if _ then _ else _) = _ at h
    split at h <;> cases h

theorem checkParents_cyclic {name other : String} {ps : List Capability}
    (h : cat.checkParents name ps = .error (.cyclicInheritance other)) :
    other = name ∧ ∃ p ∈ ps, p.concept = name := by
  induction ps with
  | nil => cases h
  | cons p ps ih =>
    rw [checkParents] at h
    split at h
    · rename_i hself
      injection h with h
      injection h with h
      exact ⟨h.symm, p, List.mem_cons_self, hself⟩
    · cases hp : cat.checkCapability p with
      | error e =>
        rw [hp] at h
        injection h with h
        exact absurd (h ▸ hp) checkCapability_ne_cyclic
      | ok _ =>
        rw [hp] at h
        obtain ⟨rfl, p', hp', hself⟩ := ih h
        exact ⟨rfl, p', List.mem_cons_of_mem p hp', hself⟩

/-- **A new concept closes no cycle**: its parents are declared, and no edge leads to it. -/
theorem isCyclic_add (h : Declared cat) (hnew : cat.concept? decl.name = none)
    (hparents : cat.checkParents decl.name decl.parents = .ok ()) :
    (cat.hierarchy.add decl.name (decl.parents.map Capability.concept)).isCyclic = false := by
  have hordered : Ordered (⟨decl.name, decl.params, decl.parents, decl.fragments, 0⟩ :: cat.concepts) :=
    .cons hnew (checkParents_ok hparents) h.regular.ordered
  rw [h.hierarchy_eq, ← Bool.not_eq_true, Hierarchy.isCyclic_iff]
  rintro ⟨a, hcycle⟩
  exact acyclic_drawn hordered a hcycle

/-- **A concept is refused as cyclic only if it lists itself.** -/
theorem declareConcept_cyclic (h : Declared cat) {name : String}
    (hrefused : cat.declareConcept decl = .error (.cyclicInheritance name)) :
    name = decl.name ∧ ∃ p ∈ decl.parents, p.concept = decl.name := by
  unfold declareConcept at hrefused
  split at hrefused
  · cases hrefused
  · rename_i hnew
    cases hparents : cat.checkParents decl.name decl.parents with
    | error e =>
      rw [hparents] at hrefused
      injection hrefused with he
      rw [he] at hparents
      exact checkParents_cyclic hparents
    | ok _ =>
      have hacyclic := isCyclic_add h (by simpa using hnew) hparents
      rw [hparents] at hrefused
      change (if _ then _ else _) = _ at hrefused
      rw [if_neg (by rw [hacyclic]; exact Bool.false_ne_true)] at hrefused
      cases hrefused

/-- What an accepted declaration does to the table of concepts. -/
theorem Declaration.Accepted.concepts {cat' : Catalog} {d : Declaration} (h : d.Accepted cat cat') :
    cat'.concepts = cat.concepts ∨ ∃ decl var, d = .newConcept decl ∧
      cat'.concepts = ⟨decl.name, decl.params, decl.parents, decl.fragments, var⟩ :: cat.concepts ∧
      cat.concept? decl.name = none ∧ ∀ p ∈ decl.parents, (cat.concept? p.concept).isSome := by
  cases d with
  | newVar =>
    rw [← show cat.freshVar.2 = cat' from h]
    exact Or.inl rfl
  | newScope parent kind name params =>
    obtain ⟨_, hok⟩ := h
    obtain ⟨_, rfl⟩ := declareScope_ok hok
    exact Or.inl rfl
  | newImport scope imported =>
    rw [addImport_ok h]
    exact Or.inl rfl
  | newConcept decl =>
    obtain ⟨hnew, hparents, var, _, _, _, rfl⟩ := declareConcept_ok h
    refine Or.inr ⟨decl, var, rfl, rfl, hnew, fun p hp => ?_⟩
    obtain ⟨e, he, _⟩ := hparents p hp
    exact Option.isSome_iff_exists.2 ⟨e, he⟩
  | newInstance scope decl =>
    obtain ⟨_, hok⟩ := h
    obtain ⟨_, rfl⟩ := declareInstance_ok hok
    exact Or.inl rfl

/-- `Founded ds d`: among the declarations `ds` is one that gave the concept, when its name was new and the
    concepts of its parents were declared. -/
def Founded (ds : List Declaration) (d : Concept) : Prop :=
  ∃ earlier decl later, ds = earlier ++ .newConcept decl :: later ∧
    decl.name = d.name ∧ decl.parents = d.parents ∧ (session earlier).concept? d.name = none ∧
    ∀ p ∈ d.parents, ((session earlier).concept? p.concept).isSome

theorem Founded.append {ds : List Declaration} {d : Concept} (h : Founded ds d)
    (more : List Declaration) : Founded (ds ++ more) d := by
  obtain ⟨earlier, decl, later, rfl, hrest⟩ := h
  exact ⟨earlier, decl, later ++ more, by simp, hrest⟩

/-- **Every concept was declared after its parents.** -/
theorem founded_of_mem (ds : List Declaration) {d : Concept} (hd : d ∈ (session ds).concepts) :
    Founded ds d := by
  induction ds using List.reverseRecOn with
  | nil => cases hd
  | append_singleton ds x ih =>
    have hlast : session (ds ++ [x]) = (perform x (session ds)).2 := by
      rw [session, List.foldl_append]
      rfl
    rw [hlast] at hd
    rcases perform_cases (session_declared ds) x with ⟨e, hfailed⟩ | ⟨cat', hok, haccepted⟩
    · rw [hfailed] at hd
      exact (ih hd).append [x]
    · rw [hok] at hd
      rcases haccepted.concepts with hsame | ⟨decl, var, rfl, hcons, hnew, hparents⟩
      · exact (ih (hsame ▸ hd)).append [x]
      · rcases List.mem_cons.1 (hcons ▸ hd) with rfl | hd
        · exact ⟨ds, decl, [], rfl, rfl, rfl, hnew, hparents⟩
        · exact (ih hd).append [.newConcept decl]

end Declare

/-! ## The short cut -/

/-- **To ask the graph first never changes the answer.** -/
theorem implies_eq {cat : Catalog} (h : Declared cat) (a b : Capability) :
    cat.implies a b = (cat.ancestors a).contains b := by
  have hordered := h.regular.ordered
  rw [Bool.eq_iff_iff]
  constructor
  · intro himplies
    unfold implies at himplies
    simp only [Bool.and_eq_true] at himplies
    exact himplies.2
  · intro hcontains
    -- what was found has an older concept, which a path leads to
    have hhas := contains_iff_has.1 hcontains
    obtain ⟨hdeclared, hlt⟩ := rank_lt_of_has hordered hhas
    have hpath := descends_of_has hordered hhas
    have hne : a.concept ≠ b.concept := fun he => Nat.lt_irrefl _ (he ▸ hlt)
    obtain ⟨d, hd⟩ := hpath.declared_of_ne hne
    obtain ⟨e, he⟩ := Option.ne_none_iff_exists'.1 hdeclared
    have hnode : ∀ {name d}, lookup cat.concepts name = some d →
        cat.hierarchy.nodes.contains name = true := by
      intro name d hd
      rw [h.hierarchy_eq, List.contains_iff_mem, mem_nodes_iff]
      exact ⟨d, mem_of_lookup hd, name_of_lookup hd⟩
    have hreaches : cat.hierarchy.reaches a.concept b.concept = true := by
      rw [Hierarchy.reaches_iff, h.hierarchy_eq]
      exact hpath.path
    rw [implies, hnode hd, hnode he, bne_iff_ne.2 hne, hreaches, hcontains]
    rfl

/-- **Inheritance stays acyclic, and the graph is a short cut.**  After any session there is an edge from a
    concept to each of its parents and no other; every concept was declared after its parents; no path
    leads back to where it began, and none would if a concept with checked parents were added.  So a
    concept is refused as cyclic only if it lists itself, and whether one capability implies another is
    whether it has it among its ancestors. -/
theorem hierarchy_exact (ds : List Declaration) :
    (∀ a b, (session ds).hierarchy.Edge a b ↔
      ∃ d ∈ (session ds).concepts, d.name = a ∧ ∃ p ∈ d.parents, p.concept = b) ∧
    (∀ d ∈ (session ds).concepts, Founded ds d) ∧
    (∀ a, ¬ TransGen (session ds).hierarchy.Edge a a) ∧
    (∀ decl : ConceptDecl, (session ds).concept? decl.name = none →
      (session ds).checkParents decl.name decl.parents = .ok () →
      ((session ds).hierarchy.add decl.name (decl.parents.map Capability.concept)).isCyclic = false) ∧
    (∀ decl name, (perform (.newConcept decl) (session ds)).1 = .error (.cyclicInheritance name) →
      name = decl.name ∧ ∃ p ∈ decl.parents, p.concept = decl.name) ∧
    ∀ a b, (session ds).implies a b = ((session ds).ancestors a).contains b := by
  have h := session_declared ds
  refine ⟨?_, fun d => founded_of_mem ds, ?_, fun decl => isCyclic_add h, ?_, implies_eq h⟩
  · intro a b
    rw [h.hierarchy_eq, Hierarchy.Edge, mem_edges_iff]
    constructor
    · rintro ⟨d, hd, p, hp, heq⟩
      obtain ⟨rfl, rfl⟩ := Prod.mk.inj heq
      exact ⟨d, hd, rfl, p, hp, rfl⟩
    · rintro ⟨d, hd, rfl, p, hp, rfl⟩
      exact ⟨d, hd, p, hp, rfl⟩
  · rw [h.hierarchy_eq]
    exact acyclic_drawn h.regular.ordered
  · intro decl name hrefused
    rw [perform, declareConceptInPlace_eq h] at hrefused
    cases hok : (session ds).declareConcept decl with
    | error e =>
      rw [hok] at hrefused
      injection hrefused with he
      exact declareConcept_cyclic h (he ▸ hok)
    | ok cat' =>
      rw [hok] at hrefused
      cases hrefused

end Catalog

end InstanceSearch
