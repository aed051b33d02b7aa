/-
  The tables of a registry fit together.

  PLACES (`Placed`)
    Scopes form a tree by number: the root is 0, and every other scope has a parent of a smaller number.
    Imports are declared scopes, each once.  A scope lists the instances that were declared in it, in
    order, and nothing else; none of them is in the body of a method, and a member of an instance has a
    greater number than that instance.
    Whether this holds depends on the scopes and the instances alone, so new concepts and new variables
    cannot break it, and the three other declarations have a lemma each.

  WAYS OUT (`Outward`)
    From a declared scope, parent by parent, numbers fall, so the way ends, and it can only end in the
    root.  `scopeChain` looks at no more scopes than there are in the table, and that is enough.
    Everything that is looked up on the way out is there; so a site is answered exactly if its scope is
    declared.
-/
import InstanceSearch.Proofs.Catalog.InPlace
import InstanceSearch.Proofs.Catalog.Visible

namespace InstanceSearch

/-- What stands in a list of which one member was changed. -/
theorem exists_of_getElem?_modify {α : Type} {xs : List α} {f : α → α} {k j : Nat} {y : α}
    (h : (xs.modify k f)[j]? = some y) :
    ∃ x, xs[j]? = some x ∧ (if k = j then f x else x) = y := by
  rw [List.getElem?_modify] at h
  obtain ⟨x, hx, rfl⟩ := Option.map_eq_some_iff.1 h
  refine ⟨x, hx, ?_⟩
  split <;> rfl

namespace Catalog

/-! ## What is checked about places -/

section Accepted

variable {cat cat' : Catalog}

theorem getScope_eq_ok_iff {id : ScopeId} {s : Scope} :
    cat.getScope id = .ok s ↔ cat.scopes[id]? = some s := by
  unfold getScope
  cases cat.scopes[id]? <;> simp

theorem exists_getScope_iff {id : ScopeId} :
    (∃ s, cat.getScope id = .ok s) ↔ id < cat.scopes.length := by
  simp only [getScope_eq_ok_iff, List.getElem?_eq_some_iff]
  exact ⟨fun ⟨_, h, _⟩ => h, fun h => ⟨_, h, rfl⟩⟩

theorem exists_getInstance_iff {id : InstanceId} :
    (∃ i, cat.getInstance id = .ok i) ↔ id < cat.instances.length := by
  unfold getInstance
  cases h : cat.instances[id]? with
  | none => simpa using List.getElem?_eq_none_iff.1 h
  | some i => simpa using (List.getElem?_eq_some_iff.1 h).1

theorem declareScope_parent {parent id : ScopeId} {kind : ScopeKind} {name : String}
    {params : List Param} (h : cat.declareScope parent kind name params = .ok (id, cat')) :
    parent < cat.scopes.length := by
  obtain ⟨s, hs, _⟩ := bind_eq_ok h
  exact exists_getScope_iff.1 ⟨s, hs⟩

theorem addImport_imported {scope imported : ScopeId} (h : cat.addImport scope imported = .ok cat') :
    imported < cat.scopes.length := by
  obtain ⟨s, hs, _⟩ := bind_eq_ok h
  exact exists_getScope_iff.1 ⟨s, hs⟩

/-- Instances stand in scopes that may hold instances, and members in instances that are there. -/
theorem declareInstance_place {scope : ScopeId} {decl : InstanceDecl} {id : InstanceId}
    (h : cat.declareInstance scope decl = .ok (id, cat')) :
    (∃ s, cat.scopes[scope]? = some s ∧ s.kind ≠ .methodBody) ∧
      ∀ m, decl.memberOf = some m → m < cat.instances.length := by
  unfold declareInstance at h
  obtain ⟨place, hplace, h⟩ := bind_eq_ok h
  by_cases hkind : place.kind = .methodBody
  · rw [if_pos hkind] at h
    cases h
  · rw [if_neg hkind] at h
    refine ⟨⟨place, getScope_eq_ok_iff.1 hplace, hkind⟩, fun m hm => ?_⟩
    rw [hm] at h
    obtain ⟨i, hi, _⟩ := bind_eq_ok h
    exact exists_getInstance_iff.1 ⟨i, hi⟩

end Accepted

/-! ## The tree of scopes -/

/-- Scopes that form a tree by number, and import each other. -/
structure Tree (scopes : List Scope) : Prop where
  root_lt : root < scopes.length
  /-- only the root has no parent -/
  outermost : ∀ (id : ScopeId) (s : Scope), scopes[id]? = some s → (s.parent = none ↔ id = root)
  parent_lt : ∀ (id p : ScopeId) (s : Scope), scopes[id]? = some s → s.parent = some p → p < id
  imports : ∀ s ∈ scopes, s.imports.Nodup ∧ ∀ j ∈ s.imports, j < scopes.length

/-- What stands in a table that got one more entry. -/
theorem getElem?_concat_cases {α : Type} {xs : List α} {x y : α} {k : Nat}
    (h : (xs ++ [x])[k]? = some y) : xs[k]? = some y ∨ k = xs.length ∧ y = x := by
  rw [List.getElem?_append] at h
  split at h
  · exact .inl h
  · obtain ⟨hlast, rfl⟩ := List.getElem?_eq_some_iff.1 h
    rw [List.length_singleton] at hlast
    exact .inr ⟨by omega, List.getElem_singleton ..⟩

namespace Tree

variable {scopes : List Scope}

theorem add (h : Tree scopes) {s : Scope} {p : ScopeId} (hparent : s.parent = some p)
    (hp : p < scopes.length) (himports : s.imports = []) : Tree (scopes ++ [s]) := by
  have hgrown : scopes.length < (scopes ++ [s]).length := by simp
  constructor
  case root_lt => exact Nat.lt_trans h.root_lt hgrown
  case outermost =>
    intro id t ht
    rcases getElem?_concat_cases ht with ht | ⟨rfl, rfl⟩
    · exact h.outermost id t ht
    · have hne : scopes.length ≠ root := Nat.ne_of_gt h.root_lt
      simp [hparent, hne]
  case parent_lt =>
    intro id q t ht hq
    rcases getElem?_concat_cases ht with ht | ⟨rfl, rfl⟩
    · exact h.parent_lt id q t ht hq
    · rw [hparent] at hq
      injection hq with hq
      exact hq ▸ hp
  case imports =>
    intro t ht
    rcases List.mem_append.1 ht with ht | ht
    · exact ⟨(h.imports t ht).1, fun j hj => Nat.lt_trans ((h.imports t ht).2 j hj) hgrown⟩
    · rw [List.mem_singleton.1 ht, himports]
      exact ⟨List.nodup_nil, fun j hj => nomatch hj⟩

/-- A scope may change as long as its parent stays. -/
theorem modify (h : Tree scopes) (id : ScopeId) {f : Scope → Scope}
    (hparent : ∀ s, (f s).parent = s.parent)
    (himports : ∀ s, (s.imports.Nodup ∧ ∀ j ∈ s.imports, j < scopes.length) →
      (f s).imports.Nodup ∧ ∀ j ∈ (f s).imports, j < scopes.length) :
    Tree (scopes.modify id f) := by
  have hkept : ∀ (j : ScopeId) (t : Scope), (scopes.modify id f)[j]? = some t →
      ∃ s, scopes[j]? = some s ∧ t.parent = s.parent := by
    intro j t ht
    obtain ⟨s, hs, rfl⟩ := exists_of_getElem?_modify ht
    exact ⟨s, hs, by split <;> simp [hparent]⟩
  constructor
  case root_lt =>
    rw [List.length_modify]
    exact h.root_lt
  case outermost =>
    intro j t ht
    obtain ⟨s, hs, hsame⟩ := hkept j t ht
    rw [hsame]
    exact h.outermost j s hs
  case parent_lt =>
    intro j p t ht hp
    obtain ⟨s, hs, hsame⟩ := hkept j t ht
    exact h.parent_lt j p s hs (hsame ▸ hp)
  case imports =>
    rw [List.length_modify]
    exact forall_mem_modify h.imports himports

end Tree

/-! ## Places -/

/-- Scopes and instances that are where they should be. -/
structure Placed (scopes : List Scope) (instances : List Instance) : Prop extends Tree scopes where
  /-- a scope lists what was declared in it, in order -/
  lists : ∀ (id : ScopeId) (s : Scope), scopes[id]? = some s →
    s.instances = (instances.filter fun i => i.scope == id).map Instance.id
  notInMethod : ∀ i ∈ instances, ∃ s, scopes[i.scope]? = some s ∧ s.kind ≠ .methodBody
  member_lt : ∀ i ∈ instances, ∀ m, i.memberOf = some m → m < i.id

namespace Placed

variable {scopes : List Scope} {instances : List Instance}

theorem scope_lt (h : Placed scopes instances) {i : Instance} (hi : i ∈ instances) :
    i.scope < scopes.length := by
  obtain ⟨s, hs, _⟩ := h.notInMethod i hi
  exact (List.getElem?_eq_some_iff.1 hs).1

theorem addScope (h : Placed scopes instances) {s : Scope} {p : ScopeId}
    (hparent : s.parent = some p) (hp : p < scopes.length) (himports : s.imports = [])
    (hinstances : s.instances = []) : Placed (scopes ++ [s]) instances where
  toTree := h.toTree.add hparent hp himports
  lists id t ht := by
    rcases getElem?_concat_cases ht with ht | ⟨rfl, rfl⟩
    · exact h.lists id t ht
    · -- no instance can have been declared in a scope that was not there
      have hnone : instances.filter (fun i => i.scope == scopes.length) = [] := by
        rw [List.filter_eq_nil_iff]
        intro i hi
        simpa using Nat.ne_of_lt (h.scope_lt hi)
      rw [hinstances, hnone]
      rfl
  notInMethod i hi := by
    obtain ⟨t, ht, hkind⟩ := h.notInMethod i hi
    exact ⟨t, by rw [List.getElem?_append_left (h.scope_lt hi), ht], hkind⟩
  member_lt := h.member_lt

/-- A place stays one when a scope changes that keeps its kind. -/
theorem exists_place_modify {f : Scope → Scope} (id : ScopeId) {j : ScopeId}
    (h : ∃ s, scopes[j]? = some s ∧ s.kind ≠ .methodBody) (hf : ∀ s, (f s).kind = s.kind) :
    ∃ s, (scopes.modify id f)[j]? = some s ∧ s.kind ≠ .methodBody := by
  obtain ⟨s, hs, hkind⟩ := h
  refine ⟨_, by rw [List.getElem?_modify, hs]; rfl, ?_⟩
  split
  · rw [hf]
    exact hkind
  · exact hkind

theorem addImport (h : Placed scopes instances) (id : ScopeId) {imported : ScopeId}
    (himported : imported < scopes.length) :
    Placed (scopes.modify id fun s => { s with imports := FirstSeen.add s.imports imported })
      instances where
  toTree := by
    refine h.toTree.modify id (fun _ => rfl) fun s hs => ⟨FirstSeen.nodup_add hs.1, fun j hj => ?_⟩
    rcases FirstSeen.mem_add.1 hj with hj | rfl
    · exact hs.2 j hj
    · exact himported
  lists j t ht := by
    obtain ⟨s, hs, rfl⟩ := exists_of_getElem?_modify ht
    have hlists := h.lists j s hs
    split <;> exact hlists
  notInMethod i hi := by
    refine exists_place_modify id (h.notInMethod i hi) ?_
    exact fun _ => rfl
  member_lt := h.member_lt

theorem addInstance (h : Placed scopes instances) {i : Instance} (hid : i.id = instances.length)
    (hplace : ∃ s, scopes[i.scope]? = some s ∧ s.kind ≠ .methodBody)
    (hmember : ∀ m, i.memberOf = some m → m < instances.length) :
    Placed (scopes.modify i.scope fun s => { s with instances := s.instances ++ [instances.length] })
      (instances ++ [i]) where
  toTree := h.toTree.modify i.scope (fun _ => rfl) fun _ hs => hs
  lists j t ht := by
    obtain ⟨s, hs, rfl⟩ := exists_of_getElem?_modify ht
    rw [List.filter_append, List.map_append, ← h.lists j s hs]
    by_cases hj : i.scope = j
    · rw [if_pos hj, List.filter_cons_of_pos (by simpa using hj)]
      exact congrArg (s.instances ++ [·]) hid.symm
    · rw [if_neg hj, List.filter_cons_of_neg (by simpa using hj)]
      exact (List.append_nil _).symm
  notInMethod i' hi' := by
    rcases List.mem_append.1 hi' with hi' | hi'
    · refine exists_place_modify i.scope (h.notInMethod i' hi') ?_
      exact fun _ => rfl
    · rw [List.mem_singleton.1 hi']
      refine exists_place_modify i.scope hplace ?_
      exact fun _ => rfl
  member_lt i' hi' m hm := by
    rcases List.mem_append.1 hi' with hi' | hi'
    · exact h.member_lt i' hi' m hm
    · obtain rfl := List.mem_singleton.1 hi'
      exact hid ▸ hmember m hm

end Placed

theorem placed_empty : Placed Catalog.empty.scopes Catalog.empty.instances where
  root_lt := by decide
  outermost id s hs := by
    obtain ⟨hid, rfl⟩ := List.getElem?_eq_some_iff.1 hs
    have hroot : id = root := Nat.lt_one_iff.1 hid
    subst hroot
    simp [Catalog.empty, root]
  parent_lt id p s hs hp := by
    obtain ⟨hid, rfl⟩ := List.getElem?_eq_some_iff.1 hs
    have hroot : id = root := Nat.lt_one_iff.1 hid
    subst hroot
    cases hp
  imports := by simp [Catalog.empty]
  lists id s hs := by
    obtain ⟨hid, rfl⟩ := List.getElem?_eq_some_iff.1 hs
    have hroot : id = root := Nat.lt_one_iff.1 hid
    subst hroot
    rfl
  notInMethod _ hi := nomatch hi
  member_lt _ hi := nomatch hi

/-- **Everything in a registry is in its place.** -/
theorem Declared.placed {cat : Catalog} (h : Declared cat) : Placed cat.scopes cat.instances := by
  induction h with
  | empty => exact placed_empty
  | freshVar _ ih => exact ih
  | scope _ hok ih =>
    obtain ⟨_, rfl⟩ := declareScope_ok hok
    exact ih.addScope rfl (declareScope_parent hok) rfl rfl
  | «import» _ hok ih =>
    have himported := addImport_imported hok
    rw [addImport_ok hok]
    exact ih.addImport _ himported
  | concept _ hok ih =>
    obtain ⟨_, _, _, _, _, _, rfl⟩ := declareConcept_ok hok
    exact ih
  | @«instance» cat _ _ scope decl _ hok ih =>
    obtain ⟨hplace, hmember⟩ := declareInstance_place hok
    obtain ⟨_, rfl⟩ := declareInstance_ok hok
    exact Placed.addInstance (i := ⟨decl, cat.instances.length, scope⟩) ih rfl hplace hmember

/-- No two instances have the same number. -/
theorem Declared.nodup_ids {cat : Catalog} (h : Declared cat) :
    (cat.instances.map Instance.id).Nodup := by
  have hids : cat.instances.map Instance.id = List.range cat.instances.length := by
    apply List.ext_getElem
    · rw [List.length_map, List.length_range]
    · intro k hk _
      rw [List.length_map] at hk
      rw [List.getElem_map, List.getElem_range]
      exact h.numbered.ids k _ (List.getElem?_eq_getElem hk)
  rw [hids]
  exact List.nodup_range

/-- **Every instance is listed once**, where it was declared. -/
theorem Declared.count_instances {cat : Catalog} (h : Declared cat) {i : Instance}
    (hi : i ∈ cat.instances) {id : ScopeId} {s : Scope} (hs : cat.scopes[id]? = some s) :
    s.instances.count i.id = if i.scope = id then 1 else 0 := by
  rw [h.placed.lists id s hs]
  have hdistinct := h.nodup_ids.sublist ((List.filter_sublist (p := fun j => j.scope == id)).map _)
  rw [hdistinct.count]
  have hmem : i.id ∈ (cat.instances.filter fun j => j.scope == id).map Instance.id ↔
      i.scope = id := by
    constructor
    · intro hmem
      obtain ⟨i', hi', hid⟩ := List.mem_map.1 hmem
      obtain ⟨hi', hscope⟩ := List.mem_filter.1 hi'
      -- the number determines the instance
      have hsame := h.getInstance_id hi'
      rw [hid, h.getInstance_id hi] at hsame
      injection hsame with hsame
      rw [hsame]
      simpa using hscope
    · intro hscope
      exact List.mem_map_of_mem (List.mem_filter.2 ⟨hi, by simpa using hscope⟩)
  simp only [hmem]

/-! ## The way out of a scope -/

/-- `cat.Outward id chain`: going from parent to parent, `chain` is what is met from `id` on, and there
    it ends. -/
inductive Outward (cat : Catalog) : ScopeId → List ScopeId → Prop where
  | last {id : ScopeId} {s : Scope} (hs : cat.getScope id = .ok s) (hparent : s.parent = none) :
      Outward cat id [id]
  | inside {id p : ScopeId} {s : Scope} {chain : List ScopeId} (hs : cat.getScope id = .ok s)
      (hparent : s.parent = some p) (h : Outward cat p chain) : Outward cat id (id :: chain)

namespace Outward

variable {cat : Catalog} {id : ScopeId} {chain : List ScopeId}

theorem declared (h : Outward cat id chain) : ∀ j ∈ chain, j < cat.scopes.length := by
  induction h with
  | last hs _ =>
    intro j hj
    rw [List.mem_singleton.1 hj]
    exact exists_getScope_iff.1 ⟨_, hs⟩
  | inside hs _ _ ih => exact List.forall_mem_cons.2 ⟨exists_getScope_iff.1 ⟨_, hs⟩, ih⟩

variable (ht : Tree cat.scopes)
include ht

theorem le_start (h : Outward cat id chain) : ∀ j ∈ chain, j ≤ id := by
  induction h with
  | last _ _ =>
    intro j hj
    exact Nat.le_of_eq (List.mem_singleton.1 hj)
  | inside hs hparent _ ih =>
    have hlt := ht.parent_lt _ _ _ (getScope_eq_ok_iff.1 hs) hparent
    exact List.forall_mem_cons.2
      ⟨Nat.le_refl _, fun j hj => Nat.le_trans (ih j hj) (Nat.le_of_lt hlt)⟩

/-- Numbers fall on the way out. -/
theorem pairwise_gt (h : Outward cat id chain) : chain.Pairwise (· > ·) := by
  induction h with
  | last _ _ => exact List.pairwise_singleton ..
  | inside hs hparent hout ih =>
    have hlt := ht.parent_lt _ _ _ (getScope_eq_ok_iff.1 hs) hparent
    exact List.pairwise_cons.2 ⟨fun j hj => Nat.lt_of_le_of_lt (le_start ht hout j hj) hlt, ih⟩

/-- The way ends in the root. -/
theorem getLast?_eq (h : Outward cat id chain) : chain.getLast? = some root := by
  induction h with
  | last hs hparent =>
    have hroot := (ht.outermost _ _ (getScope_eq_ok_iff.1 hs)).1 hparent
    rw [List.getLast?_singleton, hroot]
  | inside _ _ _ ih =>
    rw [List.getLast?_cons, ih]
    rfl

end Outward

section Answers

variable {cat : Catalog} {id : ScopeId}

/-- **The table is long enough for its chains.** -/
theorem chainWithin_outward (ht : Tree cat.scopes) {n : Nat} (hid : id < cat.scopes.length)
    (hn : id < n) : Outward cat id (chainWithin cat.scopes n id) := by
  induction n generalizing id with
  | zero => exact absurd hn (Nat.not_lt_zero _)
  | succ n ih =>
    have hs : cat.scopes[id]? = some cat.scopes[id] := List.getElem?_eq_getElem hid
    have hget := getScope_eq_ok_iff.2 hs
    rw [chainWithin, hs]
    cases hparent : cat.scopes[id].parent with
    | none =>
      dsimp only
      rw [hparent]
      exact .last hget hparent
    | some p =>
      have hlt : p < id := ht.parent_lt _ _ _ hs hparent
      dsimp only
      rw [hparent]
      exact .inside hget hparent
        (ih (Nat.lt_trans hlt hid) (Nat.lt_of_lt_of_le hlt (Nat.le_of_lt_succ hn)))

theorem scopeChain_outward (ht : Tree cat.scopes) (hid : id < cat.scopes.length) :
    ∃ chain, cat.scopeChain id = .ok chain ∧ Outward cat id chain := by
  obtain ⟨s, hs⟩ := exists_getScope_iff.2 hid
  refine ⟨_, ?_, chainWithin_outward ht hid hid⟩
  rw [scopeChain, hs]
  rfl

theorem declared_of_scopeChain {chain : List ScopeId} (h : cat.scopeChain id = .ok chain) :
    id < cat.scopes.length := by
  obtain ⟨s, hs, _⟩ := bind_eq_ok h
  exact exists_getScope_iff.1 ⟨s, hs⟩

/-- What a declared scope contributes to a site can be told. -/
theorem exists_seenAt (h : Declared cat) (hid : id < cat.scopes.length) (accessible : Accessibility)
    (site : List ScopeId) : ∃ cs, cat.seenAt accessible site id = .ok cs := by
  have haccessible : ∀ j, j < cat.scopes.length →
      ∃ cs, cat.accessibleIn accessible site j = .ok cs := by
    intro j hj
    obtain ⟨s, hs⟩ := exists_getScope_iff.2 hj
    have hlisted := h.numbered.listed s (mem_of_getScope hs)
    obtain ⟨insts, hinsts⟩ := exists_mapM_ok (f := cat.getInstance) fun k hk =>
      exists_getInstance_iff.2 (hlisted k hk)
    exact exists_bind_ok hs (exists_bind_ok hinsts ⟨_, rfl⟩)
  obtain ⟨s, hs⟩ := exists_getScope_iff.2 hid
  have himports := (h.placed.imports s (mem_of_getScope hs)).2
  obtain ⟨seen, hseen⟩ := exists_mapM_ok (f := cat.accessibleIn accessible site)
    (List.forall_mem_cons.2 ⟨haccessible id hid, fun j hj => haccessible j (himports j hj)⟩)
  exact exists_bind_ok hs (exists_bind_ok hseen ⟨_, rfl⟩)

theorem exists_visible_iff (h : Declared cat) (accessible : Accessibility) :
    (∃ cs, cat.visible accessible id = .ok cs) ↔ id < cat.scopes.length := by
  constructor
  · rintro ⟨cs, hcs⟩
    obtain ⟨chain, hchain, _⟩ := bind_eq_ok hcs
    exact declared_of_scopeChain hchain
  · intro hid
    obtain ⟨chain, hchain, hout⟩ := scopeChain_outward h.placed.toTree hid
    obtain ⟨seen, hseen⟩ := exists_mapM_ok (f := cat.seenAt accessible chain) fun j hj =>
      exists_seenAt h (hout.declared j hj) accessible chain
    exact exists_bind_ok hchain (exists_bind_ok hseen ⟨_, rfl⟩)

theorem exists_frozenAt_iff (h : Declared cat) :
    (∃ vs, cat.frozenAt id = .ok vs) ↔ id < cat.scopes.length := by
  constructor
  · rintro ⟨vs, hvs⟩
    obtain ⟨chain, hchain, _⟩ := bind_eq_ok hvs
    exact declared_of_scopeChain hchain
  · intro hid
    obtain ⟨chain, hchain, hout⟩ := scopeChain_outward h.placed.toTree hid
    obtain ⟨places, hplaces⟩ := exists_mapM_ok (f := cat.getScope) fun j hj =>
      exists_getScope_iff.2 (hout.declared j hj)
    exact exists_bind_ok hchain (exists_bind_ok hplaces ⟨_, rfl⟩)

end Answers

/-! ## Whole sessions -/

/-- A catalog whose tables fit together. -/
structure Intact (cat : Catalog) : Prop extends Placed cat.scopes cat.instances where
  /-- instances are numbered in the order of declaration -/
  numbered : ∀ (k : InstanceId) (i : Instance), cat.instances[k]? = some i → i.id = k
  /-- an instance is listed once in its scope, and in no other -/
  listedOnce : ∀ i ∈ cat.instances, ∀ (id : ScopeId) (s : Scope), cat.scopes[id]? = some s →
    s.instances.count i.id = if i.scope = id then 1 else 0
  parentsFit : ∀ d ∈ cat.concepts, ∀ p ∈ d.parents, Fits cat.concepts p
  instancesFit : ∀ i ∈ cat.instances, ∀ c ∈ i.provides ++ i.params.flatMap Param.constraints,
    Fits cat.concepts c
  scopesFit : ∀ s ∈ cat.scopes, ∀ c ∈ s.params.flatMap Param.constraints, Fits cat.concepts c

/-- What is asked about a site is answered exactly if its scope is declared. -/
structure Answered (cat : Catalog) (id : ScopeId) : Prop where
  chain : (∃ chain, cat.scopeChain id = .ok chain) ↔ id < cat.scopes.length
  /-- the chain is the way out of the scope, along which numbers fall, down to the root -/
  outward : ∀ chain, cat.scopeChain id = .ok chain →
    cat.Outward id chain ∧ chain.Pairwise (· > ·) ∧ chain.getLast? = some root
  visible : ∀ accessible,
    (∃ candidates, cat.visible accessible id = .ok candidates) ↔ id < cat.scopes.length
  frozen : (∃ frozen, cat.frozenAt id = .ok frozen) ↔ id < cat.scopes.length

/-- The instances that a declaration adds if it is accepted. -/
def Declaration.newInstances (cat : Catalog) : Declaration → List Instance
  | .newInstance scope decl => [⟨decl, cat.instances.length, scope⟩]
  | _ => []

theorem Declared.intact {cat : Catalog} (h : Declared cat) : Intact cat where
  toPlaced := h.placed
  numbered := h.numbered.ids
  listedOnce _ hi _ _ hs := h.count_instances hi hs
  parentsFit _ hd := fits_of_parent h.regular.ordered hd
  instancesFit := h.regular.instanceFits
  scopesFit := h.regular.scopeFits

theorem Declared.answered {cat : Catalog} (h : Declared cat) (id : ScopeId) : Answered cat id where
  chain := by
    constructor
    · rintro ⟨chain, hchain⟩
      exact declared_of_scopeChain hchain
    · intro hid
      obtain ⟨chain, hchain, _⟩ := scopeChain_outward h.placed.toTree hid
      exact ⟨chain, hchain⟩
  outward chain hchain := by
    obtain ⟨chain', hchain', hout⟩ :=
      scopeChain_outward h.placed.toTree (declared_of_scopeChain hchain)
    rw [hchain] at hchain'
    injection hchain' with hchain'
    subst hchain'
    exact ⟨hout, hout.pairwise_gt h.placed.toTree, hout.getLast?_eq h.placed.toTree⟩
  visible := exists_visible_iff h
  frozen := exists_frozenAt_iff h

/-- An accepted declaration adds to the instances what it declares, and nothing else. -/
theorem perform_instances {cat : Catalog} (h : Declared cat) {d : Declaration}
    (hok : (perform d cat).1 = .ok ()) :
    (perform d cat).2.instances = cat.instances ++ d.newInstances cat := by
  rcases perform_cases h d with ⟨e, he⟩ | ⟨cat', hcat', haccepted⟩
  · rw [he] at hok
    cases hok
  · rw [hcat']
    cases d with
    | newVar =>
      obtain rfl := haccepted
      exact (List.append_nil _).symm
    | newScope parent kind name params =>
      obtain ⟨id, haccepted⟩ := haccepted
      obtain ⟨_, rfl⟩ := declareScope_ok haccepted
      exact (List.append_nil _).symm
    | newImport scope imported =>
      obtain rfl := addImport_ok haccepted
      exact (List.append_nil _).symm
    | newConcept decl =>
      obtain ⟨_, _, _, _, _, _, rfl⟩ := declareConcept_ok haccepted
      exact (List.append_nil _).symm
    | newInstance scope decl =>
      obtain ⟨id, haccepted⟩ := haccepted
      obtain ⟨_, rfl⟩ := declareInstance_ok haccepted
      rfl

/-- **After any session the tables fit together**: whatever was declared, in whatever order, and
    whatever failed on the way.  A declaration that fails next changes nothing, and one that is accepted
    adds its own instance, if it has one. -/
theorem session_intact (ds : List Declaration) :
    Intact (session ds) ∧ (∀ id, Answered (session ds) id) ∧
      ∀ d, (∀ e, (perform d (session ds)).1 = .error e → (perform d (session ds)).2 = session ds) ∧
        ((perform d (session ds)).1 = .ok () → (perform d (session ds)).2.instances =
          (session ds).instances ++ d.newInstances (session ds)) := by
  have h := session_declared ds
  exact ⟨h.intact, h.answered, fun d => ⟨fun _ hfailed => perform_error h hfailed, perform_instances h⟩⟩

/-- A scope that was refused, because what it was to stand in is missing, leaves no gap. -/
example : (session [.newScope root .nameSpace "outer" [], .newScope 7 .typeBody "lost" [],
    .newScope 1 .typeBody "inner" []]).scopeChain 2 = .ok [2, 1, 0] := rfl

end Catalog

end InstanceSearch
