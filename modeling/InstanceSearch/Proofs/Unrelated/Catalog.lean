/-
  A catalog with unrelated declarations.

  WHAT IS ADDED (`Adds`)
    Concepts without parents, and instances that provide nothing but capabilities of these concepts, in
    any order and in any scopes.

  WHAT STAYS (`Widens`)
    The concepts of the first catalog are still there, below the new ones, with the same paths between
    them; the scopes are the same, apart from the new instances that they list.  So
      * what a capability of an old concept brings along, implies and is implied by is the same;
      * a capability of a new concept brings nothing along;
      * what can be seen from a scope, without the new instances, is what could be seen before
        (`searchAt`).

  That the new names are new, and that they occur in no earlier declaration, is not assumed: a concept is
  refused if its name was declared before, and every declaration refers to declared concepts only.
-/
import Mathlib.Data.List.Basic
import InstanceSearch.Proofs.Catalog.Visible
import InstanceSearch.Proofs.Renaming.Search

namespace InstanceSearch

/-! ## Paths -/

/-- Paths depend on the edges only. -/
theorem Hierarchy.reaches_congr {h h' : Hierarchy} (hedges : h'.edges = h.edges) (a b : String) :
    h'.reaches a b = h.reaches a b := by
  have hparents : h'.parents = h.parents := by
    funext a
    rw [parents, parents, hedges]
  have hclose : ∀ n seen, h'.close n seen = h.close n seen := by
    intro n
    induction n with
    | zero => exact fun _ => rfl
    | succ n ih =>
      intro seen
      rw [close, close, grow, grow, hparents, ih]
  rw [reaches, reaches, reachable, reachable, hclose, hedges]

/-! ## Some of the candidates -/

/-- The entries whose keys pass a test. -/
def OrderedMap.filterKeys {κ α : Type} (P : κ → Bool) (m : OrderedMap κ α) : OrderedMap κ α where
  entries := m.entries.filter fun e => P e.1
  nodup := m.nodup.sublist (List.filter_sublist.map Prod.fst)

namespace CandidateSet

/-- **The first candidates of some keys** are found by looking at these keys only. -/
theorem ofList_filter (P : Candidate.Key → Bool) (cs : List Candidate) :
    ofList (cs.filter fun c => P c.key) = (ofList cs).filterKeys P := by
  have hadd : ∀ (s : CandidateSet) (c : Candidate),
      (if P c.key then add (s.filterKeys P) c else s.filterKeys P) = (s.add c).filterKeys P := by
    intro s c
    have hmem : P c.key = true → (c.key ∈ (s.filterKeys P).keys ↔ c.key ∈ s.keys) := by
      intro hk
      constructor
      · exact fun h => (List.filter_sublist.map Prod.fst).subset h
      · intro h
        obtain ⟨e, he, hkey⟩ := List.mem_map.1 h
        rw [← hkey] at hk ⊢
        exact List.mem_map_of_mem (List.mem_filter.2 ⟨he, hk⟩)
    apply OrderedMap.ext_entries
    show _ = (s.add c).entries.filter fun e => P e.1
    rw [entries_add]
    by_cases hk : P c.key = true
    · rw [if_pos hk, entries_add]
      simp only [hmem hk]
      split
      · rfl
      · rw [List.filter_append, List.filter_singleton, hk]
        rfl
    · rw [if_neg hk]
      split
      · rfl
      · rw [List.filter_append, List.filter_singleton, eq_false_of_ne_true hk]
        exact (List.append_nil _).symm
  unfold ofList
  rw [List.foldl_filter]
  change List.foldl _ (OrderedMap.filterKeys P OrderedMap.empty) cs = _
  refine List.foldl_hom (OrderedMap.filterKeys P) ?_
  exact hadd

theorem values_filterKeys {s : CandidateSet} (hs : ∀ e ∈ s.entries, e.1 = e.2.key)
    (P : Candidate.Key → Bool) : (s.filterKeys P).values = s.values.filter fun c => P c.key := by
  show (s.entries.filter fun e => P e.1).map Prod.snd = _
  rw [OrderedMap.values, List.filter_map]
  refine congrArg (List.map Prod.snd) (List.filter_congr fun e he => ?_)
  rw [Function.comp_apply, hs e he]

end CandidateSet

/-- The key is not that of an instance from number `k` on. -/
def Candidate.Key.isBefore (k : InstanceId) : Candidate.Key → Bool
  | .ambient _ => true
  | .declared id => decide (id < k)

/-- The scope with none of the instances from number `k` on. -/
def Scope.upTo (k : InstanceId) (s : Scope) : Scope :=
  { s with instances := s.instances.filter fun id => decide (id < k) }

namespace Catalog

/-- The candidates that a site gets stand under their own keys. -/
theorem key_of_searchAt {cat : Catalog} {config : Config} {scope : ScopeId} {q : Search}
    (h : cat.searchAt config scope = .ok q) : ∀ e ∈ q.candidates.entries, e.1 = e.2.key := by
  obtain ⟨candidates, hcandidates, h⟩ := bind_eq_ok h
  obtain ⟨_, _, h⟩ := bind_eq_ok h
  injection h with h
  obtain ⟨_, _, hcandidates⟩ := bind_eq_ok hcandidates
  obtain ⟨_, _, hcandidates⟩ := bind_eq_ok hcandidates
  injection hcandidates with hcandidates
  subst h hcandidates
  exact fun e he => (CandidateSet.mem_entries_ofList e he).1

/-! ## What is added -/

/-- `cat.Adds names cat'`: from `cat`, further declarations lead to `cat'`: concepts without parents,
    whose names are `names`, and instances that provide nothing but capabilities of these. -/
inductive Adds (cat : Catalog) : List String → Catalog → Prop where
  | refl : Adds cat [] cat
  | freshVar {names : List String} {cat' : Catalog} (h : Adds cat names cat') :
      Adds cat names cat'.freshVar.2
  | concept {names : List String} {cat' cat'' : Catalog} (h : Adds cat names cat')
      {decl : ConceptDecl} (parents : decl.parents = [])
      (hok : cat'.declareConcept decl = .ok cat'') : Adds cat (decl.name :: names) cat''
  | instance {names : List String} {cat' cat'' : Catalog} (h : Adds cat names cat')
      {scope : ScopeId} {decl : InstanceDecl} {id : InstanceId}
      (provides : ∀ c ∈ decl.provides, c.concept ∈ names)
      (hok : cat'.declareInstance scope decl = .ok (id, cat'')) : Adds cat names cat''

theorem Adds.declared {cat cat' : Catalog} {names : List String} (h : cat.Adds names cat')
    (hd : cat.Declared) : cat'.Declared := by
  induction h with
  | refl => exact hd
  | freshVar _ ih => exact .freshVar ih
  | concept _ _ hok ih => exact .concept ih hok
  | «instance» _ _ hok ih => exact .instance ih hok

/-- What is still there after such declarations, and what is new. -/
structure Widens (cat : Catalog) (names : List String) (cat' : Catalog) : Prop where
  fresh : ∀ a ∈ names, lookup cat.concepts a = none
  concepts : ∃ new, cat'.concepts = new ++ cat.concepts ∧
    ∀ d ∈ new, d.name ∈ names ∧ d.parents = []
  nodes : ∀ a, a ∉ names → (a ∈ cat'.hierarchy.nodes ↔ a ∈ cat.hierarchy.nodes)
  edges : cat'.hierarchy.edges = cat.hierarchy.edges
  instances : ∃ new, cat'.instances = cat.instances ++ new ∧
    ∀ i ∈ new, ∀ c ∈ i.provides, c.concept ∈ names
  scopes : cat.scopes = cat'.scopes.map (Scope.upTo cat.instances.length)
  nextVar : cat.nextVar ≤ cat'.nextVar

namespace Widens

variable {cat cat' cat'' : Catalog} {names : List String}

/-- Nothing is new. -/
theorem refl (hd : cat.Declared) : cat.Widens [] cat where
  fresh _ ha := nomatch ha
  concepts := ⟨[], rfl, fun _ hd => nomatch hd⟩
  nodes _ _ := Iff.rfl
  edges := rfl
  instances := ⟨[], (List.append_nil _).symm, fun _ hi => nomatch hi⟩
  scopes := by
    refine (List.map_id' cat.scopes).symm.trans (List.map_congr_left fun s hs => ?_)
    -- all numbers in a scope are those of instances that are there
    have hall : s.instances.filter (fun id => decide (id < cat.instances.length)) = s.instances :=
      List.filter_eq_self.2 fun k hk => decide_eq_true (hd.numbered.listed s hs k hk)
    show s = { s with instances := s.instances.filter fun id => decide (id < cat.instances.length) }
    rw [hall]
  nextVar := Nat.le_refl _

/-- The watermark may rise. -/
theorem raise (h : cat.Widens names cat') {next : VarId} (hle : cat'.nextVar ≤ next) :
    cat.Widens names { cat' with nextVar := next } :=
  ⟨h.fresh, h.concepts, h.nodes, h.edges, h.instances, h.scopes, Nat.le_trans h.nextVar hle⟩

/-- **One more concept without parents.** -/
theorem addConcept (h : cat.Widens names cat') {decl : ConceptDecl} (parents : decl.parents = [])
    (hok : cat'.declareConcept decl = .ok cat'') : cat.Widens (decl.name :: names) cat'' := by
  obtain ⟨hnew, -, carrierVar, hierarchy, hvar, rfl, rfl⟩ := declareConcept_ok hok
  obtain ⟨new, hconcepts, hall⟩ := h.concepts
  obtain ⟨added, hinstances, hprovides⟩ := h.instances
  constructor
  · refine List.forall_mem_cons.2 ⟨?_, h.fresh⟩
    rw [hconcepts, lookup, List.find?_append, Option.or_eq_none_iff] at hnew
    exact hnew.2
  · refine ⟨_ :: new, by rw [hconcepts]; rfl, List.forall_mem_cons.2 ⟨⟨by simp, parents⟩, ?_⟩⟩
    exact fun d hd => ⟨List.mem_cons_of_mem _ (hall d hd).1, (hall d hd).2⟩
  · intro a ha
    have hne : a ≠ decl.name := fun he => ha (he ▸ List.mem_cons_self)
    have hrest : a ∉ names := fun hm => ha (List.mem_cons_of_mem _ hm)
    simp [Hierarchy.add, hne, h.nodes a hrest]
  · simp [Hierarchy.add, parents, h.edges]
  · exact ⟨added, hinstances, fun i hi c hc => List.mem_cons_of_mem _ (hprovides i hi c hc)⟩
  · exact h.scopes
  · exact Nat.le_succ_of_le (Nat.le_trans h.nextVar (hvar ▸ le_reserve _ _))

/-- **One more instance** that provides nothing old. -/
theorem addInstance (h : cat.Widens names cat') {scope : ScopeId} {decl : InstanceDecl}
    {id : InstanceId} (provides : ∀ c ∈ decl.provides, c.concept ∈ names)
    (hok : cat'.declareInstance scope decl = .ok (id, cat'')) : cat.Widens names cat'' := by
  obtain ⟨-, rfl⟩ := declareInstance_ok hok
  obtain ⟨new, hinstances, hall⟩ := h.instances
  refine ⟨h.fresh, h.concepts, h.nodes, h.edges,
    ⟨new ++ [⟨decl, cat'.instances.length, scope⟩], ?_, ?_⟩, ?_,
    Nat.le_trans h.nextVar (le_reserve _ _)⟩
  · show cat'.instances ++ [_] = _
    rw [hinstances, List.append_assoc]
  · intro i hi
    rcases List.mem_append.1 hi with hi | hi
    · exact hall i hi
    · rw [List.mem_singleton.1 hi]
      exact provides
  · refine h.scopes.trans (map_modify_of_eq (fun s => ?_) _ _).symm
    -- the number of the new instance is not below that of the first new one
    have hlast : ¬ cat'.instances.length < cat.instances.length := by
      rw [hinstances, List.length_append]
      omega
    simp [Scope.upTo, hlast]

end Widens

/-- **What further declarations leave as it is.** -/
theorem Adds.widens {cat cat' : Catalog} {names : List String} (h : cat.Adds names cat')
    (hd : cat.Declared) : cat.Widens names cat' := by
  induction h with
  | refl => exact .refl hd
  | freshVar _ ih => exact ih.raise (Nat.le_succ _)
  | concept _ parents hok ih => exact ih.addConcept parents hok
  | «instance» _ provides hok ih => exact ih.addInstance provides hok

namespace Widens

variable {cat cat' : Catalog} {names : List String} (h : cat.Widens names cat')
include h

/-- What fits a concept of the first catalog has none of the new names. -/
theorem notMem_of_fits {c : Capability} (hc : Fits cat.concepts c) : c.concept ∉ names := by
  intro hm
  obtain ⟨d, hd, _⟩ := hc
  rw [h.fresh _ hm] at hd
  cases hd

/-! ## Inheritance -/

/-- The ancestors of a capability are the same. -/
theorem ancestors {c : Capability} (hc : c.concept ∉ names) : cat'.ancestors c = cat.ancestors c := by
  obtain ⟨new, hconcepts, hnew⟩ := h.concepts
  rw [Catalog.ancestors, Catalog.ancestors, hconcepts]
  clear hconcepts
  induction new with
  | nil => rfl
  | cons d new ih =>
    have hne : d.name ≠ c.concept := fun he => hc (he ▸ (hnew d List.mem_cons_self).1)
    rw [List.cons_append, ancestorsInto, if_neg hne]
    exact ih fun d' hd' => hnew d' (List.mem_cons_of_mem d hd')

/-- A capability of a new concept has no ancestors. -/
theorem ancestors_new {c : Capability} (hc : c.concept ∈ names) : cat'.ancestors c = [] := by
  obtain ⟨new, hconcepts, hnew⟩ := h.concepts
  have hold : ∀ table, lookup table c.concept = none → ancestorsInto table c [] = [] := by
    intro table
    induction table with
    | nil => exact fun _ => rfl
    | cons d table ih =>
      intro hnone
      have hne : d.name ≠ c.concept := by
        intro he
        rw [← he, lookup_cons_self] at hnone
        cases hnone
      rw [lookup_cons_of_ne hne] at hnone
      rw [ancestorsInto, if_neg hne]
      exact ih hnone
  rw [Catalog.ancestors, hconcepts]
  clear hconcepts
  induction new with
  | nil => exact hold _ (h.fresh _ hc)
  | cons d new ih =>
    rw [List.cons_append, ancestorsInto, Concept.parentsAt, (hnew d List.mem_cons_self).2]
    split
    · rfl
    · exact ih fun d' hd' => hnew d' (List.mem_cons_of_mem d hd')

theorem implies {a b : Capability} (ha : a.concept ∉ names) (hb : b.concept ∉ names) :
    cat'.implies a b = cat.implies a b := by
  have hnodes : ∀ c : Capability, c.concept ∉ names → cat'.hierarchy.nodes.contains c.concept =
      cat.hierarchy.nodes.contains c.concept := by
    intro c hc
    rw [Bool.eq_iff_iff, List.contains_iff_mem, List.contains_iff_mem]
    exact h.nodes _ hc
  unfold Catalog.implies
  rw [hnodes a ha, hnodes b hb, Hierarchy.reaches_congr h.edges, h.ancestors ha]

/-- **What capabilities of old concepts bring along is the same.** -/
theorem expand {cs : List Capability} (hcs : ∀ c ∈ cs, c.concept ∉ names) :
    cat'.expand cs = cat.expand cs := by
  unfold Catalog.expand
  congr 1
  refine List.flatMap_congr fun c hc => ?_
  rw [h.ancestors (hcs c hc)]

/-- What capabilities of new concepts bring along is of new concepts. -/
theorem expand_new {cs : List Capability} (hcs : ∀ c ∈ cs, c.concept ∈ names) :
    ∀ c ∈ cat'.expand cs, c.concept ∈ names := by
  intro c hc
  obtain ⟨d, hd, hc⟩ := List.mem_flatMap.1 (FirstSeen.mem_of_mem_ofList hc)
  rw [h.ancestors_new (hcs d hd), List.mem_singleton] at hc
  exact hc ▸ hcs d hd

/-- **What is left to ask for is the same.** -/
theorem minimize {cs : List Capability} (hcs : ∀ c ∈ cs, c.concept ∉ names) :
    cat'.minimize cs = cat.minimize cs := by
  have hdistinct : ∀ c ∈ FirstSeen.ofList cs, c.concept ∉ names :=
    fun c hc => hcs c (FirstSeen.mem_of_mem_ofList hc)
  unfold Catalog.minimize
  dsimp only
  refine List.filter_congr fun c hc => congrArg not ?_
  rw [Bool.eq_iff_iff, List.any_eq_true, List.any_eq_true]
  refine exists_congr fun d => and_congr_right fun hd => ?_
  rw [h.implies (hdistinct d hd) (hdistinct c hc)]

/-! ## What can be seen -/

section Visible

variable (hd : cat.Declared) (hd' : cat'.Declared)
include hd'

/-- The instances of the first catalog among some, found by their numbers in either catalog. -/
theorem mapM_getInstance {ids : List InstanceId} (hids : ∀ k ∈ ids, k < cat'.instances.length) :
    (ids.filter fun k => decide (k < cat.instances.length)).mapM cat.getInstance =
      (ids.mapM cat'.getInstance).map
        (List.filter fun i => decide (i.id < cat.instances.length)) := by
  obtain ⟨new, hinstances, -⟩ := h.instances
  induction ids with
  | nil => rfl
  | cons k ids ih =>
    have hrest := ih fun j hj => hids j (List.mem_cons_of_mem k hj)
    have hk := hids k List.mem_cons_self
    have hget' : cat'.getInstance k = .ok cat'.instances[k] := by
      rw [getInstance, List.getElem?_eq_getElem hk]
    have hid := hd'.numbered.ids k _ (List.getElem?_eq_getElem hk)
    rw [List.mapM_cons, hget']
    show _ = Except.map _ ((ids.mapM cat'.getInstance) >>= _)
    -- the number decides on both sides whether the instance stays
    have hkeep : ∀ is : List Instance,
        (cat'.instances[k] :: is).filter (fun i => decide (i.id < cat.instances.length)) =
          if k < cat.instances.length then
            cat'.instances[k] :: is.filter fun i => decide (i.id < cat.instances.length)
          else is.filter fun i => decide (i.id < cat.instances.length) := by
      intro is
      rw [List.filter_cons, hid]
      simp
    by_cases hold : k < cat.instances.length
    · have hget : cat.getInstance k = .ok cat'.instances[k] := by
        rw [getInstance, List.getElem?_eq_getElem hold]
        simp [hinstances, List.getElem_append_left hold]
      rw [List.filter_cons, if_pos (decide_eq_true hold), List.mapM_cons, hget, hrest]
      cases ids.mapM cat'.getInstance with
      | error e => rfl
      | ok is => exact congrArg Except.ok ((hkeep is).trans (if_pos hold)).symm
    · rw [List.filter_cons, if_neg (by simpa using hold), hrest]
      cases ids.mapM cat'.getInstance with
      | error e => rfl
      | ok is => exact congrArg Except.ok ((hkeep is).trans (if_neg hold)).symm

theorem accessibleIn (accessible : Accessibility) (site : List ScopeId) (id : ScopeId) :
    cat.accessibleIn accessible site id = (cat'.accessibleIn accessible site id).map
      (List.filter fun c => c.key.isBefore cat.instances.length) := by
  unfold Catalog.accessibleIn
  rw [getScope_map h.scopes]
  cases hplace : cat'.getScope id with
  | error e => rfl
  | ok place =>
    show ((place.instances.filter fun k => decide (k < cat.instances.length)).mapM cat.getInstance
      >>= _) = Except.map _ (place.instances.mapM cat'.getInstance >>= _)
    rw [h.mapM_getInstance hd' (hd'.numbered.listed place (mem_of_getScope hplace))]
    cases place.instances.mapM cat'.getInstance with
    | error e => rfl
    | ok insts =>
      refine congrArg Except.ok ?_
      rw [List.filter_map, List.filter_filter, List.filter_filter]
      refine congrArg (List.map _) (List.filter_congr fun i _ => ?_)
      rw [Bool.and_comm]
      rfl

/-- **The scopes of the wider catalog show the same**, the new instances apart. -/
theorem shows (accessible : Accessibility) : cat'.Shows cat accessible
    (Scope.upTo cat.instances.length)
    (List.filter fun c => c.key.isBefore cat.instances.length) where
  scopes := h.scopes
  parent _ := rfl
  imports _ := rfl
  frozen _ := rfl
  ambient s := by
    refine (List.filter_eq_self.2 fun c hc => ?_).symm
    obtain ⟨p, _, rfl⟩ := List.mem_map.1 hc
    rfl
  declared := h.accessibleIn hd' accessible
  nil := rfl
  append _ _ := List.filter_append _ _

/-- The search that a site gets in the first catalog is that of the wider one, without the new
    candidates. -/
theorem searchAt (config : Config) (scope : ScopeId) : cat.searchAt config scope =
    (cat'.searchAt config scope).map fun q => q.withCatalog cat
      (q.candidates.filterKeys (Candidate.Key.isBefore cat.instances.length)) := by
  have hshows := h.shows hd' .byVisibility
  unfold Catalog.searchAt
  rw [hshows.visible (CandidateSet.ofList_filter _), hshows.frozenAt]
  cases cat'.visible .byVisibility scope with
  | error e => rfl
  | ok candidates => cases cat'.frozenAt scope <;> rfl

end Visible

end Widens

end Catalog

end InstanceSearch
