/-
  Candidates come from the registry.

  Whatever can be seen from a scope is an instance of the catalog or a parameter of one of its scopes
  (`offers_of_visible`).  So what is proved of searches over candidates of a registry holds of the
  search that a site gets (`searchAt_ok`).

  TWO CATALOGS may have the same scopes with other contents: with other names, or without the instances
  that were declared last.  If their scopes correspond (`Shows`), so does what can be seen from them.
-/
import InstanceSearch.Catalog.Visible
import InstanceSearch.Proofs.Catalog.Declared
import InstanceSearch.Search.Resolve

namespace InstanceSearch

/-- Every member of a list of results is the result for some member of the list. -/
theorem exists_of_mem_mapM {ε α β : Type} {f : α → Except ε β} {xs : List α} {ys : List β}
    (h : xs.mapM f = .ok ys) {y : β} (hy : y ∈ ys) : ∃ x ∈ xs, f x = .ok y := by
  induction xs generalizing ys with
  | nil =>
    injection h with h
    rw [← h] at hy
    cases hy
  | cons x xs ih =>
    rw [List.mapM_cons] at h
    obtain ⟨z, hz, h⟩ := bind_eq_ok h
    obtain ⟨zs, hzs, h⟩ := bind_eq_ok h
    injection h with h
    rw [← h, List.mem_cons] at hy
    rcases hy with hy | hy
    · exact ⟨x, List.mem_cons_self .., by rw [hz, hy]⟩
    · obtain ⟨x', hx', hy'⟩ := ih hzs hy
      exact ⟨x', List.mem_cons_of_mem _ hx', hy'⟩

/-- Every member of a list has a result among the results. -/
theorem exists_mem_of_mapM {ε α β : Type} {f : α → Except ε β} {xs : List α} {ys : List β}
    (h : xs.mapM f = .ok ys) {x : α} (hx : x ∈ xs) : ∃ y ∈ ys, f x = .ok y := by
  induction xs generalizing ys with
  | nil => cases hx
  | cons x' xs ih =>
    rw [List.mapM_cons] at h
    obtain ⟨y, hy, h⟩ := bind_eq_ok h
    obtain ⟨rest, hrest, h⟩ := bind_eq_ok h
    injection h with h
    subst h
    rcases List.mem_cons.1 hx with rfl | hx
    · exact ⟨y, List.mem_cons_self, hy⟩
    · obtain ⟨y', hy', hx⟩ := ih hrest hx
      exact ⟨y', List.mem_cons_of_mem y hy', hx⟩

/-- A second step decides, once the first has succeeded. -/
theorem exists_bind_ok {ε α β : Type} {x : Except ε α} {f : α → Except ε β} {a : α} (hx : x = .ok a)
    (hf : ∃ b, f a = .ok b) : ∃ b, (x >>= f) = .ok b := by
  rw [hx]
  exact hf

/-- A walk succeeds if each of its steps does. -/
theorem exists_mapM_ok {ε α β : Type} {f : α → Except ε β} {xs : List α}
    (h : ∀ x ∈ xs, ∃ y, f x = .ok y) : ∃ ys, xs.mapM f = .ok ys := by
  induction xs with
  | nil => exact ⟨[], rfl⟩
  | cons x xs ih =>
    rw [List.forall_mem_cons] at h
    obtain ⟨y, hy⟩ := h.1
    obtain ⟨ys, hys⟩ := ih h.2
    rw [List.mapM_cons]
    exact exists_bind_ok hy (exists_bind_ok hys ⟨_, rfl⟩)

/-- A walk on which nothing fails is a map. -/
theorem mapM_eq_ok {ε α β : Type} {f : α → Except ε β} {g : α → β} {xs : List α}
    (h : ∀ x ∈ xs, f x = .ok (g x)) : xs.mapM f = .ok (xs.map g) := by
  induction xs with
  | nil => rfl
  | cons x xs ih =>
    rw [List.forall_mem_cons] at h
    rw [List.mapM_cons, h.1, ih h.2]
    rfl

/-- A walk that may fail goes along with a map on its results. -/
theorem mapM_map_ok {ε α β γ : Type} {f : α → Except ε β} {f' : α → Except ε γ} {g : β → γ}
    (h : ∀ x, f' x = (f x).map g) (xs : List α) : xs.mapM f' = (xs.mapM f).map (List.map g) := by
  induction xs with
  | nil => rfl
  | cons x xs ih =>
    rw [List.mapM_cons, List.mapM_cons, h, ih]
    cases f x with
    | error e => rfl
    | ok y => cases xs.mapM f <;> rfl

/-! ## Sets of candidates -/

namespace CandidateSet

/-- A candidate goes to the end, unless its key is there. -/
theorem entries_add (s : CandidateSet) (c : Candidate) : (s.add c).entries =
    if c.key ∈ s.keys then s.entries else s.entries ++ [(c.key, c)] := by
  unfold add OrderedMap.insertIfNew
  by_cases h : c.key ∈ s.keys
  · rw [if_pos h, if_pos (OrderedMap.contains_iff.2 h)]
  · rw [if_neg h, if_neg fun hc => h (OrderedMap.contains_iff.1 hc),
      OrderedMap.entries_insert_of_notMem c h]

/-- A set holds nothing but what it was made from, under its own keys. -/
theorem mem_entries_ofList {cs : List Candidate} :
    ∀ e ∈ (ofList cs).entries, e.1 = e.2.key ∧ e.2 ∈ cs := by
  refine List.foldlRecOn (motive := fun s => ∀ e ∈ s.entries, e.1 = e.2.key ∧ e.2 ∈ cs) cs add ?_ ?_
  · intro e he
    cases he
  · intro s hs c hc
    rw [entries_add]
    split
    · exact hs
    · intro e he
      rcases List.mem_append.1 he with he | he
      · exact hs e he
      · rw [List.mem_singleton.1 he]
        exact ⟨rfl, hc⟩

theorem mem_values_ofList {cs : List Candidate} {c : Candidate} (h : c ∈ (ofList cs).values) :
    c ∈ cs := by
  obtain ⟨e, he, rfl⟩ := List.mem_map.1 h
  exact (mem_entries_ofList e he).2

end CandidateSet

namespace Catalog

variable {cat : Catalog}

/-- `cat.Offers c`: the candidate is an instance of the registry or a parameter of one of its scopes. -/
def Offers (cat : Catalog) : Candidate → Prop
  | .ambient p => ∃ s ∈ cat.scopes, p ∈ s.params
  | .declared i => i ∈ cat.instances

theorem mem_of_getScope {id : ScopeId} {s : Scope} (h : cat.getScope id = .ok s) : s ∈ cat.scopes := by
  unfold getScope at h
  split at h
  · rename_i s' hs'
    injection h with h
    exact h ▸ List.mem_of_getElem? hs'
  · cases h

theorem mem_of_getInstance {id : InstanceId} {i : Instance} (h : cat.getInstance id = .ok i) :
    i ∈ cat.instances := by
  unfold getInstance at h
  split at h
  · rename_i i' hi'
    injection h with h
    exact h ▸ List.mem_of_getElem? hi'
  · cases h

/-- The instances seen in a scope are instances of the registry. -/
theorem offers_of_accessibleIn {accessible : Accessibility} {site : List ScopeId} {id : ScopeId}
    {cs : List Candidate} (h : cat.accessibleIn accessible site id = .ok cs) :
    ∀ c ∈ cs, cat.Offers c := by
  obtain ⟨place, _, h⟩ := bind_eq_ok h
  obtain ⟨insts, hinsts, h⟩ := bind_eq_ok h
  injection h with h
  intro c hc
  rw [← h] at hc
  obtain ⟨i, hi, rfl⟩ := List.mem_map.1 hc
  obtain ⟨_, _, hget⟩ := exists_of_mem_mapM hinsts (List.mem_filter.1 hi).1
  exact mem_of_getInstance hget

theorem offers_of_seenAt {accessible : Accessibility} {site : List ScopeId} {id : ScopeId}
    {cs : List Candidate} (h : cat.seenAt accessible site id = .ok cs) : ∀ c ∈ cs, cat.Offers c := by
  obtain ⟨place, hplace, h⟩ := bind_eq_ok h
  obtain ⟨declared, hdeclared, h⟩ := bind_eq_ok h
  injection h with h
  intro c hc
  rw [← h] at hc
  rcases List.mem_append.1 hc with hc | hc
  · obtain ⟨p, hp, rfl⟩ := List.mem_map.1 hc
    have hbound := (List.mem_filter.1 hp).1
    unfold boundParams at hbound
    split at hbound
    · exact ⟨place, mem_of_getScope hplace, hbound⟩
    · cases hbound
  · obtain ⟨cs', hcs', hc⟩ := List.mem_flatten.1 hc
    obtain ⟨_, _, hseen⟩ := exists_of_mem_mapM hdeclared hcs'
    exact offers_of_accessibleIn hseen c hc

/-- **What can be seen comes from the registry.** -/
theorem offers_of_visible {accessible : Accessibility} {id : ScopeId} {s : CandidateSet}
    (h : cat.visible accessible id = .ok s) : ∀ c ∈ s.values, cat.Offers c := by
  obtain ⟨chain, _, h⟩ := bind_eq_ok h
  obtain ⟨seen, hseen, h⟩ := bind_eq_ok h
  injection h with h
  intro c hc
  rw [← h] at hc
  obtain ⟨cs, hcs, hc⟩ := List.mem_flatten.1 (CandidateSet.mem_values_ofList hc)
  obtain ⟨_, _, hat⟩ := exists_of_mem_mapM hseen hcs
  exact offers_of_seenAt hat c hc

/-- The search that a site gets is one over its catalog. -/
theorem searchAt_ok {config : Config} {scope : ScopeId} {q : Search}
    (h : cat.searchAt config scope = .ok q) :
    q.catalog = cat ∧ q.config = config ∧ ∀ c ∈ q.candidates.values, cat.Offers c := by
  obtain ⟨candidates, hcandidates, h⟩ := bind_eq_ok h
  obtain ⟨frozen, _, h⟩ := bind_eq_ok h
  injection h with h
  subst h
  exact ⟨rfl, rfl, offers_of_visible hcandidates⟩

theorem searchAt_frozen {cat : Catalog} {config : Config} {scope : ScopeId} {q : Search}
    (h : cat.searchAt config scope = .ok q) : cat.frozenAt scope = .ok q.frozen := by
  obtain ⟨candidates, _, h⟩ := bind_eq_ok h
  obtain ⟨frozen, hfrozen, h⟩ := bind_eq_ok h
  injection h with h
  rw [← h, hfrozen]

/-! ## Two catalogs -/

theorem getScope_map {cat cat' : Catalog} {f : Scope → Scope} (h : cat'.scopes = cat.scopes.map f)
    (id : ScopeId) : cat'.getScope id = (cat.getScope id).map f := by
  unfold getScope
  rw [h, List.getElem?_map]
  cases cat.scopes[id]? <;> rfl

/-- `f` takes the scopes of `cat` to those of `cat'`, and `g` takes what they contribute to what can be
    seen in `cat` to what they contribute in `cat'`. -/
structure Shows (cat cat' : Catalog) (accessible : Accessibility) (f : Scope → Scope)
    (g : List Candidate → List Candidate) : Prop where
  scopes : cat'.scopes = cat.scopes.map f
  parent : ∀ s, (f s).parent = s.parent
  imports : ∀ s, (f s).imports = s.imports
  frozen : ∀ s, (boundParams (f s)).map Param.id = (boundParams s).map Param.id
  ambient : ∀ s, ((boundParams (f s)).filter Param.isWitness).map Candidate.ambient =
    g (((boundParams s).filter Param.isWitness).map Candidate.ambient)
  declared : ∀ site id,
    cat'.accessibleIn accessible site id = (cat.accessibleIn accessible site id).map g
  nil : g [] = []
  append : ∀ xs ys, g (xs ++ ys) = g xs ++ g ys

namespace Shows

variable {cat' : Catalog} {accessible : Accessibility} {f : Scope → Scope}
  {g : List Candidate → List Candidate} (h : cat.Shows cat' accessible f g)
include h

theorem flatten (xss : List (List Candidate)) : g xss.flatten = (xss.map g).flatten := by
  induction xss with
  | nil => exact h.nil
  | cons xs xss ih => rw [List.flatten_cons, h.append, ih, List.map_cons, List.flatten_cons]

/-- The scopes around a scope are the same. -/
theorem scopeChain (id : ScopeId) : cat'.scopeChain id = cat.scopeChain id := by
  have hchain : ∀ n id, chainWithin (cat.scopes.map f) n id = chainWithin cat.scopes n id := by
    intro n
    induction n with
    | zero => exact fun _ => rfl
    | succ n ih =>
      intro id
      rw [chainWithin, chainWithin, List.getElem?_map]
      cases cat.scopes[id]? with
      | none => rfl
      | some s =>
        dsimp only [Option.map_some]
        rw [h.parent]
        cases s.parent with
        | none => rfl
        | some p => exact congrArg (id :: ·) (ih p)
  unfold Catalog.scopeChain
  rw [getScope_map h.scopes]
  cases cat.getScope id with
  | error e => rfl
  | ok s =>
    show Except.ok (chainWithin cat'.scopes cat'.scopes.length id) = _
    rw [h.scopes, hchain, List.length_map]
    rfl

theorem seenAt (site : List ScopeId) (id : ScopeId) :
    cat'.seenAt accessible site id = (cat.seenAt accessible site id).map g := by
  unfold Catalog.seenAt
  rw [getScope_map h.scopes]
  cases cat.getScope id with
  | error e => rfl
  | ok place =>
    show ((id :: (f place).imports).mapM (cat'.accessibleIn accessible site) >>= _) =
      Except.map _ ((id :: place.imports).mapM (cat.accessibleIn accessible site) >>= _)
    rw [h.imports, mapM_map_ok (h.declared site)]
    cases (id :: place.imports).mapM (cat.accessibleIn accessible site) with
    | error e => rfl
    | ok declared =>
      refine congrArg Except.ok ?_
      rw [h.append, h.flatten, h.ambient]

/-- **What can be seen corresponds**, if the first candidates of their keys do. -/
theorem visible {k : CandidateSet → CandidateSet}
    (hk : ∀ cs, CandidateSet.ofList (g cs) = k (CandidateSet.ofList cs)) (id : ScopeId) :
    cat'.visible accessible id = (cat.visible accessible id).map k := by
  unfold Catalog.visible
  rw [h.scopeChain]
  cases cat.scopeChain id with
  | error e => rfl
  | ok chain =>
    show (chain.mapM (cat'.seenAt accessible chain) >>= _) =
      Except.map _ (chain.mapM (cat.seenAt accessible chain) >>= _)
    rw [mapM_map_ok (h.seenAt chain)]
    cases chain.mapM (cat.seenAt accessible chain) with
    | error e => rfl
    | ok seen =>
      refine congrArg Except.ok ?_
      rw [← h.flatten, hk]

/-- The frozen variables are the same. -/
theorem frozenAt (id : ScopeId) : cat'.frozenAt id = cat.frozenAt id := by
  unfold Catalog.frozenAt
  rw [h.scopeChain]
  cases cat.scopeChain id with
  | error e => rfl
  | ok chain =>
    show (chain.mapM cat'.getScope >>= _) = (chain.mapM cat.getScope >>= _)
    rw [mapM_map_ok (getScope_map h.scopes)]
    cases chain.mapM cat.getScope with
    | error e => rfl
    | ok places =>
      refine congrArg (fun vs => Except.ok (VarSet.ofList vs)) ?_
      rw [List.flatMap_map, List.map_flatMap, List.map_flatMap]
      simp only [h.frozen]

end Shows

end Catalog

end InstanceSearch
