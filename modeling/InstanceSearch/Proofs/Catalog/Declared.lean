/-
  What every registry has in common.

  A catalog is `Declared` if it came from the empty one by accepted declarations, in any number and any
  order.  Each declaration is checked before it enters the table, and what it was checked for stays true
  when the table grows; so `Declared.regular` holds of all of them:

    (1) a concept has a name of its own, and its parents fit concepts that are older;
    (2) whatever an instance provides, and whatever a witness parameter asks for, fits a concept;
    (3) every variable of a declaration is below the watermark.

  A capability FITS if its concept is declared and has as many parameters as the capability has
  arguments.
-/
import InstanceSearch.Catalog.Declare

namespace InstanceSearch

/-- A sequence of two checked steps succeeds if both do. -/
theorem bind_eq_ok {ε α β : Type} {x : Except ε α} {f : α → Except ε β} {b : β}
    (h : (x >>= f) = .ok b) : ∃ a, x = .ok a ∧ f a = .ok b := by
  cases x with
  | error e => cases h
  | ok a => exact ⟨a, rfl, h⟩

/-- `okAnd x P`: a value is there, and it passes the test `P`. -/
def okAnd {ε α : Type} (x : Except ε α) (P : α → Bool) : Bool :=
  match x with
  | .error _ => false
  | .ok a => P a

theorem okAnd_eq_true {ε α : Type} {x : Except ε α} {P : α → Bool} (h : okAnd x P = true) :
    ∃ a, x = .ok a ∧ P a = true := by
  cases x with
  | error e => cases h
  | ok a => exact ⟨a, rfl, h⟩

/-- What holds of all members of a list, and survives a change to one of them, holds after the change. -/
theorem forall_mem_modify {α : Type} {P : α → Prop} {f : α → α} {xs : List α} {k : Nat}
    (h : ∀ x ∈ xs, P x) (hf : ∀ x, P x → P (f x)) : ∀ x ∈ xs.modify k f, P x := by
  induction xs generalizing k with
  | nil => simp
  | cons y ys ih =>
    rw [List.forall_mem_cons] at h
    cases k with
    | zero =>
      rw [List.modify_zero_cons, List.forall_mem_cons]
      exact ⟨hf y h.1, h.2⟩
    | succ k =>
      rw [List.modify_succ_cons, List.forall_mem_cons]
      exact ⟨h.1, ih h.2⟩

/-- A change that a function does not see. -/
theorem map_modify_of_eq {α β : Type} {f : α → α} {g : α → β} (h : ∀ x, g (f x) = g x) (k : Nat)
    (xs : List α) : (xs.modify k f).map g = xs.map g := by
  induction xs generalizing k with
  | nil => simp
  | cons x xs ih =>
    cases k with
    | zero => rw [List.modify_zero_cons, List.map_cons, List.map_cons, h]
    | succ k => rw [List.modify_succ_cons, List.map_cons, List.map_cons, ih]

namespace Catalog

/-! ## Fitting a concept -/

/-- The concept of a name in a table. -/
def lookup (table : List Concept) (name : String) : Option Concept :=
  table.find? fun d => d.name == name

/-- `Fits table c`: the concept of `c` is in the table, and has as many parameters as `c` arguments. -/
def Fits (table : List Concept) (c : Capability) : Prop :=
  ∃ d, lookup table c.concept = some d ∧ d.params.length = c.args.length

theorem lookup_cons_of_ne {d : Concept} {table : List Concept} {name : String} (h : d.name ≠ name) :
    lookup (d :: table) name = lookup table name := by
  simp [lookup, h]

theorem lookup_cons_self (d : Concept) (table : List Concept) :
    lookup (d :: table) d.name = some d := by
  simp [lookup]

theorem mem_of_lookup {table : List Concept} {name : String} {d : Concept}
    (h : lookup table name = some d) : d ∈ table := List.mem_of_find?_eq_some h

theorem name_of_lookup {table : List Concept} {name : String} {d : Concept}
    (h : lookup table name = some d) : d.name = name := by
  simpa using List.find?_some h

theorem getConcept_eq_ok_iff {cat : Catalog} {name : String} {d : Concept} :
    cat.getConcept name = .ok d ↔ lookup cat.concepts name = some d := by
  unfold getConcept
  rw [concept?, ← lookup]
  cases lookup cat.concepts name <;> simp

/-- A concept of a new name does not hide the others. -/
theorem lookup_cons_of_some {d d' : Concept} {table : List Concept} {name : String}
    (hnew : lookup table d.name = none) (h : lookup table name = some d') :
    lookup (d :: table) name = some d' := by
  have hne : d.name ≠ name := by
    rintro rfl
    rw [hnew] at h
    cases h
  rw [lookup_cons_of_ne hne, h]

theorem Fits.cons {d : Concept} {table : List Concept} {c : Capability}
    (hnew : lookup table d.name = none) (h : Fits table c) : Fits (d :: table) c := by
  obtain ⟨d', hd', hlength⟩ := h
  exact ⟨d', lookup_cons_of_some hnew hd', hlength⟩

/-- A table in which names are not repeated and parents fit older concepts. -/
inductive Ordered : List Concept → Prop where
  | nil : Ordered []
  | cons {d : Concept} {older : List Concept} (new : lookup older d.name = none)
      (parents : ∀ p ∈ d.parents, Fits older p) (rest : Ordered older) : Ordered (d :: older)

/-! ## What is checked -/

section Checks

variable {cat : Catalog}

theorem checkCapability_ok {c : Capability} (h : cat.checkCapability c = .ok ()) :
    Fits cat.concepts c := by
  obtain ⟨d, hd, h⟩ := bind_eq_ok h
  split at h
  · rename_i hlength
    exact ⟨d, getConcept_eq_ok_iff.1 hd, hlength⟩
  · cases h

theorem checkAll_ok {cs : List Capability} (h : cat.checkAll cs = .ok ()) :
    ∀ c ∈ cs, Fits cat.concepts c := by
  induction cs with
  | nil => exact fun c hc => nomatch hc
  | cons c cs ih =>
    obtain ⟨_, hc, h⟩ := bind_eq_ok h
    exact List.forall_mem_cons.2 ⟨checkCapability_ok hc, ih h⟩

theorem checkParents_ok {name : String} {ps : List Capability}
    (h : cat.checkParents name ps = .ok ()) : ∀ p ∈ ps, Fits cat.concepts p := by
  induction ps with
  | nil => exact fun p hp => nomatch hp
  | cons p ps ih =>
    rw [checkParents] at h
    split at h
    · cases h
    · obtain ⟨_, hp, h⟩ := bind_eq_ok h
      exact List.forall_mem_cons.2 ⟨checkCapability_ok hp, ih h⟩

end Checks

/-! ## Accepted declarations -/

section Accepted

variable {cat cat' : Catalog}

theorem declareScope_ok {parent id : ScopeId} {kind : ScopeKind} {name : String}
    {params : List Param} (h : cat.declareScope parent kind name params = .ok (id, cat')) :
    (∀ c ∈ params.flatMap Param.constraints, Fits cat.concepts c) ∧
      cat' = { cat with
        scopes := cat.scopes ++ [⟨kind, name, some parent, params, [], []⟩]
        nextVar := reserve cat.nextVar (params.flatMap Param.vars) } := by
  obtain ⟨_, _, h⟩ := bind_eq_ok h
  obtain ⟨_, hcheck, h⟩ := bind_eq_ok h
  injection h with h
  injection h with _ h
  exact ⟨checkAll_ok hcheck, h.symm⟩

theorem addImport_ok {scope imported : ScopeId} (h : cat.addImport scope imported = .ok cat') :
    cat' = { cat with
      scopes := cat.scopes.modify scope fun s =>
        { s with imports := FirstSeen.add s.imports imported } } := by
  obtain ⟨_, _, h⟩ := bind_eq_ok h
  obtain ⟨_, _, h⟩ := bind_eq_ok h
  injection h with h
  exact h.symm

theorem declareConcept_ok {decl : ConceptDecl} (h : cat.declareConcept decl = .ok cat') :
    lookup cat.concepts decl.name = none ∧ (∀ p ∈ decl.parents, Fits cat.concepts p) ∧
      ∃ carrierVar hierarchy, reserve cat.nextVar
        (decl.params.flatMap Param.vars ++ decl.parents.flatMap Capability.vars) = carrierVar ∧
        cat.hierarchy.add decl.name (decl.parents.map Capability.concept) = hierarchy ∧
        cat' = { cat with
          concepts := ⟨decl.name, decl.params, decl.parents, decl.fragments, carrierVar⟩
            :: cat.concepts
          hierarchy
          nextVar := carrierVar + 1 } := by
  unfold declareConcept at h
  split at h
  · cases h
  · rename_i hnew
    obtain ⟨_, hparents, h⟩ := bind_eq_ok h
    dsimp only at h
    split at h
    · cases h
    · injection h with h
      refine ⟨?_, checkParents_ok hparents, _, _, rfl, rfl, h.symm⟩
      cases hl : lookup cat.concepts decl.name with
      | none => rfl
      | some d =>
        rw [concept?, ← lookup, hl] at hnew
        exact absurd rfl hnew

theorem declareInstance_ok {scope : ScopeId} {decl : InstanceDecl} {id : InstanceId}
    (h : cat.declareInstance scope decl = .ok (id, cat')) :
    (∀ c ∈ decl.provides ++ decl.params.flatMap Param.constraints, Fits cat.concepts c) ∧
      cat' = { cat with
        instances := cat.instances ++ [⟨decl, cat.instances.length, scope⟩]
        scopes := cat.scopes.modify scope fun s =>
          { s with instances := s.instances ++ [cat.instances.length] }
        nextVar := reserve cat.nextVar
          (decl.params.flatMap Param.vars ++ decl.provides.flatMap Capability.vars) } := by
  unfold declareInstance at h
  obtain ⟨place, _, h⟩ := bind_eq_ok h
  by_cases hplace : place.kind = .methodBody
  · rw [if_pos hplace] at h
    cases h
  · rw [if_neg hplace] at h
    -- the container of a member is looked up and then forgotten
    have hrest : (do
        cat.checkAll (decl.provides ++ decl.params.flatMap Param.constraints)
        pure (cat.instances.length,
          { cat with
            instances := cat.instances ++ [⟨decl, cat.instances.length, scope⟩]
            scopes := cat.scopes.modify scope fun s =>
              { s with instances := s.instances ++ [cat.instances.length] }
            nextVar := reserve cat.nextVar
              (decl.params.flatMap Param.vars ++ decl.provides.flatMap Capability.vars) }) :
          Except DeclError (InstanceId × Catalog)) = .ok (id, cat') := by
      split at h
      · obtain ⟨_, _, h⟩ := bind_eq_ok h
        exact h
      · exact h
    obtain ⟨_, hcheck, h⟩ := bind_eq_ok hrest
    injection h with h
    injection h with _ h
    exact ⟨checkAll_ok hcheck, h.symm⟩

end Accepted

/-! ## Registries -/

/-- The catalogs that accepted declarations lead to. -/
inductive Declared : Catalog → Prop where
  | empty : Declared .empty
  | freshVar {cat : Catalog} (h : Declared cat) : Declared cat.freshVar.2
  | scope {cat cat' : Catalog} (h : Declared cat) {parent id : ScopeId} {kind : ScopeKind}
      {name : String} {params : List Param}
      (hok : cat.declareScope parent kind name params = .ok (id, cat')) : Declared cat'
  | import {cat cat' : Catalog} (h : Declared cat) {scope imported : ScopeId}
      (hok : cat.addImport scope imported = .ok cat') : Declared cat'
  | concept {cat cat' : Catalog} (h : Declared cat) {decl : ConceptDecl}
      (hok : cat.declareConcept decl = .ok cat') : Declared cat'
  | instance {cat cat' : Catalog} (h : Declared cat) {scope : ScopeId} {decl : InstanceDecl}
      {id : InstanceId} (hok : cat.declareInstance scope decl = .ok (id, cat')) : Declared cat'

/-- What every registry has in common. -/
structure Regular (cat : Catalog) : Prop where
  ordered : Ordered cat.concepts
  conceptVars : ∀ d ∈ cat.concepts,
    ∀ v ∈ d.params.flatMap Param.vars ++ d.parents.flatMap Capability.vars, v < cat.nextVar
  instanceFits : ∀ i ∈ cat.instances,
    ∀ c ∈ i.provides ++ i.params.flatMap Param.constraints, Fits cat.concepts c
  instanceVars : ∀ i ∈ cat.instances,
    ∀ v ∈ i.params.flatMap Param.vars ++ i.provides.flatMap Capability.vars, v < cat.nextVar
  scopeFits : ∀ s ∈ cat.scopes, ∀ c ∈ s.params.flatMap Param.constraints, Fits cat.concepts c
  scopeVars : ∀ s ∈ cat.scopes, ∀ v ∈ s.params.flatMap Param.vars, v < cat.nextVar

theorem regular_empty : Regular .empty where
  ordered := .nil
  conceptVars _ h := nomatch h
  instanceFits _ h := nomatch h
  instanceVars _ h := nomatch h
  scopeFits := by simp [Catalog.empty]
  scopeVars := by simp [Catalog.empty]

namespace Regular

variable {cat : Catalog}

/-- The watermark may rise. -/
theorem raise (h : Regular cat) {next : VarId} (hle : cat.nextVar ≤ next) :
    Regular { cat with nextVar := next } where
  ordered := h.ordered
  conceptVars d hd v hv := Nat.lt_of_lt_of_le (h.conceptVars d hd v hv) hle
  instanceFits := h.instanceFits
  instanceVars i hi v hv := Nat.lt_of_lt_of_le (h.instanceVars i hi v hv) hle
  scopeFits := h.scopeFits
  scopeVars s hs v hv := Nat.lt_of_lt_of_le (h.scopeVars s hs v hv) hle

/-- Scopes may change as long as their parameters stay. -/
theorem modifyScope (h : Regular cat) (id : ScopeId) {f : Scope → Scope}
    (hf : ∀ s, (f s).params = s.params) :
    Regular { cat with scopes := cat.scopes.modify id f } where
  ordered := h.ordered
  conceptVars := h.conceptVars
  instanceFits := h.instanceFits
  instanceVars := h.instanceVars
  scopeFits := forall_mem_modify h.scopeFits fun s hs => by rw [hf]; exact hs
  scopeVars := forall_mem_modify h.scopeVars fun s hs => by rw [hf]; exact hs

/-- A scope may be added if what its parameters ask for fits, and its variables are reserved. -/
theorem addScope (h : Regular cat) {s : Scope}
    (hfits : ∀ c ∈ s.params.flatMap Param.constraints, Fits cat.concepts c)
    (hvars : ∀ v ∈ s.params.flatMap Param.vars, v < cat.nextVar) :
    Regular { cat with scopes := cat.scopes ++ [s] } where
  ordered := h.ordered
  conceptVars := h.conceptVars
  instanceFits := h.instanceFits
  instanceVars := h.instanceVars
  scopeFits t ht := by
    rcases List.mem_append.1 ht with ht | ht
    · exact h.scopeFits t ht
    · rw [List.mem_singleton.1 ht]
      exact hfits
  scopeVars t ht := by
    rcases List.mem_append.1 ht with ht | ht
    · exact h.scopeVars t ht
    · rw [List.mem_singleton.1 ht]
      exact hvars

/-- An instance may be added on the same terms. -/
theorem addInstance (h : Regular cat) {i : Instance}
    (hfits : ∀ c ∈ i.provides ++ i.params.flatMap Param.constraints, Fits cat.concepts c)
    (hvars : ∀ v ∈ i.params.flatMap Param.vars ++ i.provides.flatMap Capability.vars,
      v < cat.nextVar) :
    Regular { cat with instances := cat.instances ++ [i] } where
  ordered := h.ordered
  conceptVars := h.conceptVars
  scopeFits := h.scopeFits
  scopeVars := h.scopeVars
  instanceFits j hj := by
    rcases List.mem_append.1 hj with hj | hj
    · exact h.instanceFits j hj
    · rw [List.mem_singleton.1 hj]
      exact hfits
  instanceVars j hj := by
    rcases List.mem_append.1 hj with hj | hj
    · exact h.instanceVars j hj
    · rw [List.mem_singleton.1 hj]
      exact hvars

/-- A concept may be added if its name is new and its parents fit. -/
theorem addConcept (h : Regular cat) {d : Concept} (hnew : lookup cat.concepts d.name = none)
    (hparents : ∀ p ∈ d.parents, Fits cat.concepts p)
    (hvars : ∀ v ∈ d.params.flatMap Param.vars ++ d.parents.flatMap Capability.vars,
      v < cat.nextVar) :
    Regular { cat with concepts := d :: cat.concepts } where
  ordered := .cons hnew hparents h.ordered
  conceptVars := List.forall_mem_cons.2 ⟨hvars, h.conceptVars⟩
  instanceFits i hi c hc := (h.instanceFits i hi c hc).cons hnew
  instanceVars := h.instanceVars
  scopeFits s hs c hc := (h.scopeFits s hs c hc).cons hnew
  scopeVars := h.scopeVars

/-- The hierarchy is not part of what is kept. -/
theorem setHierarchy (h : Regular cat) (hierarchy : Hierarchy) :
    Regular { cat with hierarchy } where
  ordered := h.ordered
  conceptVars := h.conceptVars
  instanceFits := h.instanceFits
  instanceVars := h.instanceVars
  scopeFits := h.scopeFits
  scopeVars := h.scopeVars

end Regular

/-- **Every registry is regular.** -/
theorem Declared.regular {cat : Catalog} (h : Declared cat) : Regular cat := by
  induction h with
  | empty => exact regular_empty
  | freshVar _ ih => exact ih.raise (Nat.le_succ _)
  | scope _ hok ih =>
    obtain ⟨hfits, rfl⟩ := declareScope_ok hok
    refine (ih.raise (le_reserve _ _)).addScope hfits ?_
    intro v hv
    exact lt_reserve hv
  | «import» _ hok ih =>
    rw [addImport_ok hok]
    exact ih.modifyScope _ fun _ => rfl
  | concept _ hok ih =>
    obtain ⟨hnew, hparents, carrierVar, hierarchy, hvar, -, rfl⟩ := declareConcept_ok hok
    rename_i cat _ decl
    have hle : cat.nextVar ≤ carrierVar + 1 :=
      Nat.le_succ_of_le (hvar ▸ le_reserve _ _)
    -- the parents were checked against the older concepts, before this one was there
    refine ((ih.raise hle).addConcept hnew hparents ?_).setHierarchy hierarchy
    intro v hv
    exact Nat.lt_succ_of_lt (hvar ▸ lt_reserve hv)
  | «instance» _ hok ih =>
    obtain ⟨hfits, rfl⟩ := declareInstance_ok hok
    refine ((ih.raise (le_reserve _ _)).addInstance hfits ?_).modifyScope _ fun _ => rfl
    intro v hv
    exact lt_reserve hv

/-! ## Numbers of instances -/

/-- Instances are numbered by their places in the table, and scopes list numbers that are there. -/
structure Numbered (cat : Catalog) : Prop where
  ids : ∀ k (i : Instance), cat.instances[k]? = some i → i.id = k
  listed : ∀ s ∈ cat.scopes, ∀ k ∈ s.instances, k < cat.instances.length

theorem Declared.numbered {cat : Catalog} (h : Declared cat) : Numbered cat := by
  induction h with
  | empty => exact ⟨fun _ _ h => (nomatch h), by simp [Catalog.empty]⟩
  | freshVar _ ih => exact ⟨ih.ids, ih.listed⟩
  | scope _ hok ih =>
    obtain ⟨_, rfl⟩ := declareScope_ok hok
    refine ⟨ih.ids, fun s hs => ?_⟩
    rcases List.mem_append.1 hs with hs | hs
    · exact ih.listed s hs
    · rw [List.mem_singleton.1 hs]
      exact fun k hk => nomatch hk
  | «import» _ hok ih =>
    rw [addImport_ok hok]
    exact ⟨ih.ids, forall_mem_modify ih.listed fun _ hs => hs⟩
  | concept _ hok ih =>
    obtain ⟨_, _, _, _, _, _, rfl⟩ := declareConcept_ok hok
    exact ⟨ih.ids, ih.listed⟩
  | @«instance» cat _ _ _ _ _ hok ih =>
    obtain ⟨_, rfl⟩ := declareInstance_ok hok
    constructor
    · intro k i hi
      dsimp only at hi
      rcases Nat.lt_or_ge k cat.instances.length with hk | hk
      · rw [List.getElem?_append_left hk] at hi
        exact ih.ids k i hi
      · -- the last one got the number of those before it
        rw [List.getElem?_append_right hk] at hi
        obtain ⟨hlast, rfl⟩ := List.getElem?_eq_some_iff.1 hi
        rw [List.getElem_singleton]
        have hk' : k - cat.instances.length = 0 := Nat.lt_one_iff.1 hlast
        exact Nat.le_antisymm hk (Nat.sub_eq_zero_iff_le.1 hk')
    · rw [List.length_append, List.length_singleton]
      refine forall_mem_modify (fun s hs k hk => Nat.lt_succ_of_lt (ih.listed s hs k hk)) ?_
      intro s hs k hk
      rcases List.mem_append.1 hk with hk | hk
      · exact hs k hk
      · rw [List.mem_singleton.1 hk]
        exact Nat.lt_succ_self _

/-- An instance of a registry is found under its number. -/
theorem Declared.getInstance_id {cat : Catalog} (h : Declared cat) {i : Instance}
    (hi : i ∈ cat.instances) : cat.getInstance i.id = .ok i := by
  obtain ⟨k, hk⟩ := List.mem_iff_getElem?.1 hi
  rw [getInstance, h.numbered.ids k i hk, hk]

end Catalog

end InstanceSearch
