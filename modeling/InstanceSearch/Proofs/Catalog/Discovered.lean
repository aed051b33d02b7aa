/-
  What can be seen from a scope is told by the tables.

  `visible` walks along the chain, looks scopes and instances up by number, may fail on the way, and
  inserts what it finds one by one.  In a registry no look-up fails, and a scope lists what was declared in
  it; so the walk can be read off the tables (`met`), and what it leaves is the first candidate of each key
  (`visible_eq`).

  WHO IS SEEN (`Shown`)
    * a parameter, if it is the first witness parameter of its number, from the inside out (`Innermost`);
    * an instance, if it is no member of another, may be used from here, and stands in a scope that is on
      the chain or is imported by one that is (`Reaches`).  Nothing is asked of the imports beyond that:
      they may lead back into the chain, or to a scope that was met before.

  ORDER
    Each key stands where it was met first.
-/
import InstanceSearch.Proofs.Catalog.Integrity

namespace InstanceSearch

/-! ## The first candidate of each key -/

namespace CandidateSet

theorem keys_ofList (cs : List Candidate) :
    (ofList cs).keys = FirstSeen.ofList (cs.map Candidate.key) := by
  have hall : ∀ s : CandidateSet, (cs.foldl add s).keys =
      FirstSeen.addAll s.keys (cs.map Candidate.key) := by
    induction cs with
    | nil => exact fun s => rfl
    | cons c cs ih =>
      intro s
      have hadd : (s.add c).keys = FirstSeen.add s.keys c.key := by
        rw [add, OrderedMap.keys_insertIfNew, FirstSeen.add]
        simp only [List.contains_iff_mem]
      rw [List.foldl_cons, ih, hadd, List.map_cons, FirstSeen.addAll_cons]
  exact hall OrderedMap.empty

theorem find?_ofList (cs : List Candidate) (k : Candidate.Key) :
    (ofList cs).find? k = cs.find? fun c => decide (c.key = k) := by
  have hall : ∀ s : CandidateSet, (cs.foldl add s).find? k =
      (s.find? k).or (cs.find? fun c => decide (c.key = k)) := by
    induction cs with
    | nil => exact fun s => Option.or_none.symm
    | cons c cs ih =>
      intro s
      rw [List.foldl_cons, ih, add, OrderedMap.find?_insertIfNew]
      by_cases hk : k = c.key
      · subst hk
        rw [if_pos rfl, List.find?_cons_of_pos (by simp)]
        cases s.find? c.key <;> rfl
      · rw [if_neg hk, List.find?_cons_of_neg (by simpa using fun h => hk h.symm)]
  exact hall OrderedMap.empty

theorem mem_of_find?_ofList {cs : List Candidate} {k : Candidate.Key} {c : Candidate}
    (h : (ofList cs).find? k = some c) : c ∈ cs ∧ c.key = k := by
  rw [find?_ofList] at h
  have hkey := List.find?_some h
  exact ⟨List.mem_of_find?_eq_some h, of_decide_eq_true hkey⟩

end CandidateSet

namespace Catalog

variable {cat : Catalog}

theorem Declared.getElem?_id (h : Declared cat) {i : Instance} (hi : i ∈ cat.instances) :
    cat.instances[i.id]? = some i := by
  obtain ⟨k, hk⟩ := List.mem_iff_getElem?.1 hi
  rw [h.numbered.ids k i hk, hk]

/-! ## Who is seen -/

/-- A generic scope on the chain has the parameter. -/
def Binds (cat : Catalog) (chain : List ScopeId) (p : Param) : Prop :=
  ∃ j ∈ chain, ∃ s, cat.scopes[j]? = some s ∧ s.kind.isGeneric ∧ p ∈ s.params

/-- `Introduces s v p`: in the generic scope `s`, the first witness parameter of the number `v` is `p`. -/
structure Introduces (s : Scope) (v : VarId) (p : Param) : Prop where
  generic : s.kind.isGeneric
  witness : p.isWitness
  id : p.id = v
  first : ∃ before after, s.params = before ++ p :: after ∧ ∀ p' ∈ before, p'.isWitness → p'.id ≠ v

/-- `cat.Innermost v p chain`: from the inside out, `p` is the first witness parameter of the number `v`
    that a generic scope on the chain has. -/
inductive Innermost (cat : Catalog) (v : VarId) (p : Param) : List ScopeId → Prop where
  | here {j : ScopeId} {outer : List ScopeId} {s : Scope} (hs : cat.scopes[j]? = some s)
      (h : Introduces s v p) : Innermost cat v p (j :: outer)
  | outside {j : ScopeId} {outer : List ScopeId}
      (none : ∀ p', cat.Binds [j] p' → p'.isWitness → p'.id ≠ v) (h : Innermost cat v p outer) :
      Innermost cat v p (j :: outer)

/-- The scope is on the chain, or is imported by one that is. -/
def Reaches (cat : Catalog) (chain : List ScopeId) (id : ScopeId) : Prop :=
  id ∈ chain ∨ ∃ j ∈ chain, ∃ s, cat.scopes[j]? = some s ∧ id ∈ s.imports

/-! ## The walk, read off the tables -/

/-- The instances of a scope that may be used from a site, in the order of declaration. -/
def usableIn (cat : Catalog) (accessible : Accessibility) (site : List ScopeId) (id : ScopeId) :
    List Instance :=
  cat.instances.filter fun i => i.scope == id && (i.memberOf.isNone && accessible i site)

/-- What is met in one scope: its own witness parameters, its own instances, those of its imports. -/
def metAt (cat : Catalog) (accessible : Accessibility) (site : List ScopeId) (id : ScopeId) :
    List Candidate :=
  match cat.scopes[id]? with
  | none => []
  | some s => ((boundParams s).filter Param.isWitness).map .ambient ++
      (id :: s.imports).flatMap fun j => (cat.usableIn accessible site j).map .declared

/-- What is met on the chain of a site, from the inside out. -/
def met (cat : Catalog) (accessible : Accessibility) (chain : List ScopeId) : List Candidate :=
  chain.flatMap (cat.metAt accessible chain)

section Walk

variable (h : Declared cat) (accessible : Accessibility) (site : List ScopeId)
include h

theorem accessibleIn_eq {id : ScopeId} (hid : id < cat.scopes.length) :
    cat.accessibleIn accessible site id = .ok ((cat.usableIn accessible site id).map .declared) := by
  obtain ⟨s, hs⟩ := exists_getScope_iff.2 hid
  have hlisted : s.instances.mapM cat.getInstance =
      .ok (cat.instances.filter fun i => i.scope == id) := by
    rw [h.placed.lists id s (getScope_eq_ok_iff.1 hs), List.mapM_map]
    refine (mapM_eq_ok (g := fun i => i) fun i hi => ?_).trans (congrArg Except.ok (List.map_id' _))
    exact h.getInstance_id (List.mem_filter.1 hi).1
  rw [accessibleIn, hs]
  show (s.instances.mapM cat.getInstance >>= _) = _
  rw [hlisted]
  show Except.ok _ = _
  rw [List.filter_filter, usableIn]
  simp only [Bool.and_comm]

theorem seenAt_eq {id : ScopeId} (hid : id < cat.scopes.length) :
    cat.seenAt accessible site id = .ok (cat.metAt accessible site id) := by
  obtain ⟨s, hs⟩ := exists_getScope_iff.2 hid
  have himports := (h.placed.imports s (mem_of_getScope hs)).2
  have hdeclared : (id :: s.imports).mapM (cat.accessibleIn accessible site) =
      .ok ((id :: s.imports).map fun j => (cat.usableIn accessible site j).map .declared) :=
    mapM_eq_ok (List.forall_mem_cons.2 ⟨accessibleIn_eq h accessible site hid,
      fun j hj => accessibleIn_eq h accessible site (himports j hj)⟩)
  rw [seenAt, hs]
  show ((id :: s.imports).mapM (cat.accessibleIn accessible site) >>= _) = _
  rw [hdeclared, metAt, getScope_eq_ok_iff.1 hs]
  rfl

/-- **The walk finds what the tables say.** -/
theorem visible_eq {id : ScopeId} {chain : List ScopeId} (hchain : cat.scopeChain id = .ok chain)
    (hout : cat.Outward id chain) :
    cat.visible accessible id = .ok (.ofList (cat.met accessible chain)) := by
  rw [visible, hchain]
  show (chain.mapM (cat.seenAt accessible chain) >>= _) = _
  rw [mapM_eq_ok fun j hj => seenAt_eq h accessible chain (hout.declared j hj), met, List.flatMap_def]
  rfl

end Walk

/-! ## What is met -/

section Met

variable {accessible : Accessibility} {site : List ScopeId}

theorem mem_boundParams {s : Scope} {p : Param} :
    p ∈ boundParams s ↔ s.kind.isGeneric ∧ p ∈ s.params := by
  unfold boundParams
  split <;> simp_all

theorem binds_singleton {id : ScopeId} {s : Scope} (hs : cat.scopes[id]? = some s) {p : Param} :
    cat.Binds [id] p ↔ p ∈ boundParams s := by
  rw [mem_boundParams]
  constructor
  · rintro ⟨j, hj, s', hs', hbound⟩
    rw [List.mem_singleton.1 hj, hs] at hs'
    obtain rfl := Option.some.inj hs'
    exact hbound
  · exact fun hbound => ⟨id, List.mem_singleton_self id, s, hs, hbound⟩

theorem ambient_mem_metAt {id : ScopeId} {p : Param} :
    .ambient p ∈ cat.metAt accessible site id ↔ cat.Binds [id] p ∧ p.isWitness := by
  unfold metAt
  cases hs : cat.scopes[id]? with
  | none =>
    refine iff_of_false List.not_mem_nil ?_
    rintro ⟨⟨j, hj, s, hs', _⟩, _⟩
    rw [List.mem_singleton.1 hj, hs] at hs'
    cases hs'
  | some s =>
    rw [binds_singleton hs]
    simp

theorem mem_usableIn {id : ScopeId} {i : Instance} : i ∈ cat.usableIn accessible site id ↔
    i ∈ cat.instances ∧ i.scope = id ∧ i.memberOf = none ∧ accessible i site := by
  simp [usableIn]

theorem declared_mem_metAt {id : ScopeId} {s : Scope} (hs : cat.scopes[id]? = some s) {i : Instance} :
    .declared i ∈ cat.metAt accessible site id ↔ i ∈ cat.instances ∧ i.memberOf = none ∧
      accessible i site ∧ (i.scope = id ∨ i.scope ∈ s.imports) := by
  have hmet : .declared i ∈ cat.metAt accessible site id ↔
      ∃ j ∈ id :: s.imports, i ∈ cat.usableIn accessible site j := by
    unfold metAt
    rw [hs]
    simp
  rw [hmet]
  constructor
  · rintro ⟨j, hj, hi⟩
    obtain ⟨hmem, rfl, hmember, haccessible⟩ := mem_usableIn.1 hi
    exact ⟨hmem, hmember, haccessible, List.mem_cons.1 hj⟩
  · rintro ⟨hmem, hmember, haccessible, hscope⟩
    exact ⟨i.scope, List.mem_cons.2 hscope, mem_usableIn.2 ⟨hmem, rfl, hmember, haccessible⟩⟩

theorem ambient_mem_met {chain : List ScopeId} {p : Param} :
    .ambient p ∈ cat.met accessible chain ↔ cat.Binds chain p ∧ p.isWitness := by
  rw [met, List.mem_flatMap]
  constructor
  · rintro ⟨j, hj, hp⟩
    obtain ⟨⟨k, hk, s, hbound⟩, hwitness⟩ := ambient_mem_metAt.1 hp
    rw [List.mem_singleton.1 hk] at hbound
    exact ⟨⟨j, hj, s, hbound⟩, hwitness⟩
  · rintro ⟨⟨j, hj, s, hbound⟩, hwitness⟩
    exact ⟨j, hj, ambient_mem_metAt.2 ⟨⟨j, List.mem_singleton_self j, s, hbound⟩, hwitness⟩⟩

theorem declared_mem_met {chain : List ScopeId} (hchain : ∀ j ∈ chain, j < cat.scopes.length)
    {i : Instance} : .declared i ∈ cat.met accessible chain ↔ i ∈ cat.instances ∧ i.memberOf = none ∧
      accessible i chain ∧ cat.Reaches chain i.scope := by
  rw [met, List.mem_flatMap]
  constructor
  · rintro ⟨j, hj, hi⟩
    have hs := List.getElem?_eq_getElem (hchain j hj)
    obtain ⟨hmem, hmember, haccessible, hscope⟩ := (declared_mem_metAt hs).1 hi
    refine ⟨hmem, hmember, haccessible, hscope.imp (fun heq => ?_) fun himport => ?_⟩
    · exact heq ▸ hj
    · exact ⟨j, hj, _, hs, himport⟩
  · rintro ⟨hmem, hmember, haccessible, hon | ⟨j, hj, s, hs, himport⟩⟩
    · have hs := List.getElem?_eq_getElem (hchain _ hon)
      exact ⟨i.scope, hon, (declared_mem_metAt hs).2 ⟨hmem, hmember, haccessible, .inl rfl⟩⟩
    · exact ⟨j, hj, (declared_mem_metAt hs).2 ⟨hmem, hmember, haccessible, .inr himport⟩⟩

/-! ## Who represents a parameter -/

theorem exists_ambient_of_key {c : Candidate} {v : VarId} (h : c.key = .ambient v) :
    ∃ p, c = .ambient p ∧ p.id = v := by
  cases c with
  | ambient p =>
    injection h with h
    exact ⟨p, rfl, h⟩
  | declared i => cases h

theorem exists_declared_of_key {c : Candidate} {id : InstanceId} (h : c.key = .declared id) :
    ∃ i, c = .declared i ∧ i.id = id := by
  cases c with
  | ambient p => cases h
  | declared i =>
    injection h with h
    exact ⟨i, rfl, h⟩

/-- In one scope, the first witness parameter of a number is met first. -/
theorem find?_metAt_iff {id : ScopeId} {v : VarId} {p : Param} :
    (cat.metAt accessible site id).find? (fun c => decide (c.key = .ambient v)) = some (.ambient p) ↔
      ∃ s, cat.scopes[id]? = some s ∧ Introduces s v p := by
  unfold metAt
  cases hs : cat.scopes[id]? with
  | none => exact iff_of_false (fun h => nomatch h) fun ⟨_, hs, _⟩ => nomatch hs
  | some s =>
    -- no instance has the key of a parameter
    have hdeclared : ((id :: s.imports).flatMap fun j =>
        (cat.usableIn accessible site j).map Candidate.declared).find?
          (fun c => decide (c.key = .ambient v)) = none := by
      rw [List.find?_eq_none]
      intro c hc hkey
      obtain ⟨p', rfl, _⟩ := exists_ambient_of_key (of_decide_eq_true hkey)
      simp at hc
    dsimp only
    rw [List.find?_append, hdeclared, Option.or_none, List.find?_map, Option.map_eq_some_iff,
      List.find?_filter]
    constructor
    · rintro ⟨p', hp', heq⟩
      injection heq with heq
      subst heq
      obtain ⟨hp, before, after, hsplit, hfirst⟩ := List.find?_eq_some_iff_append.1 hp'
      have hbound : p' ∈ boundParams s := hsplit ▸ List.mem_append_right before List.mem_cons_self
      have hgeneric := (mem_boundParams.1 hbound).1
      rw [boundParams, if_pos hgeneric] at hsplit
      have hp : p'.isWitness ∧ p'.id = v := by simpa [Candidate.key] using hp
      refine ⟨s, rfl, hgeneric, hp.1, hp.2, before, after, hsplit, fun a ha hwitness hv => ?_⟩
      simpa [Candidate.key, hwitness, hv] using hfirst a ha
    · rintro ⟨s', hs', hgeneric, hwitness, hid, before, after, hsplit, hfirst⟩
      obtain rfl := Option.some.inj hs'
      refine ⟨p, List.find?_eq_some_iff_append.2 ⟨?_, before, after, ?_, ?_⟩, rfl⟩
      · simp [Candidate.key, hwitness, hid]
      · rw [boundParams, if_pos hgeneric, hsplit]
      · intro a ha
        by_cases hother : a.isWitness
        · simpa [Candidate.key, hother] using hfirst a ha hother
        · simp [hother]

/-- **On a chain, the innermost is met first.** -/
theorem find?_met_iff {chain : List ScopeId} {v : VarId} {p : Param} :
    (chain.flatMap (cat.metAt accessible site)).find? (fun c => decide (c.key = .ambient v)) =
      some (.ambient p) ↔ cat.Innermost v p chain := by
  induction chain with
  | nil =>
    refine iff_of_false (fun h => nomatch h) fun h => nomatch h
  | cons j outer ih =>
    rw [List.flatMap_cons, List.find?_append, Option.or_eq_some_iff, ih, find?_metAt_iff,
      List.find?_eq_none]
    constructor
    · rintro (⟨s, hs, hintroduces⟩ | ⟨hnone, hinner⟩)
      · exact .here hs hintroduces
      · refine .outside (fun p' hp' hwitness hv => ?_) hinner
        exact hnone _ (ambient_mem_metAt.2 ⟨hp', hwitness⟩) (decide_eq_true (congrArg _ hv))
    · intro h
      cases h with
      | here hs h => exact .inl ⟨_, hs, h⟩
      | outside hnone h =>
        refine .inr ⟨fun c hc hkey => ?_, h⟩
        obtain ⟨p', rfl, hv⟩ := exists_ambient_of_key (of_decide_eq_true hkey)
        obtain ⟨hbinds, hwitness⟩ := ambient_mem_metAt.1 hc
        exact hnone p' hbinds hwitness hv

end Met

/-! ## What a site gets -/

/-- `cat.Shown accessible chain candidates`: what can be seen along the chain is among the candidates, in
    the order in which it is met, and nothing else is. -/
structure Shown (cat : Catalog) (accessible : Accessibility) (chain : List ScopeId)
    (candidates : CandidateSet) : Prop where
  ambient : ∀ v, .ambient v ∈ candidates.keys ↔ ∃ p, cat.Binds chain p ∧ p.isWitness ∧ p.id = v
  /-- the first parameter from the inside out stands for its number -/
  innermost : ∀ v c, candidates.find? (.ambient v) = some c ↔
    ∃ p, c = .ambient p ∧ cat.Innermost v p chain
  declared : ∀ id, .declared id ∈ candidates.keys ↔ ∃ i, cat.instances[id]? = some i ∧
    i.memberOf = none ∧ accessible i chain ∧ cat.Reaches chain i.scope
  /-- a number stands for its instance -/
  numbered : ∀ id c, candidates.find? (.declared id) = some c →
    ∃ i, c = .declared i ∧ cat.instances[id]? = some i
  once : candidates.keys.Nodup
  order : candidates.keys = FirstSeen.ofList ((cat.met accessible chain).map Candidate.key)

theorem shown_met (h : Declared cat) (accessible : Accessibility) {chain : List ScopeId}
    (hchain : ∀ j ∈ chain, j < cat.scopes.length) :
    cat.Shown accessible chain (.ofList (cat.met accessible chain)) where
  ambient v := by
    rw [CandidateSet.keys_ofList, FirstSeen.mem_ofList, List.mem_map]
    constructor
    · rintro ⟨c, hc, hkey⟩
      obtain ⟨p, rfl, hv⟩ := exists_ambient_of_key hkey
      obtain ⟨hbinds, hwitness⟩ := ambient_mem_met.1 hc
      exact ⟨p, hbinds, hwitness, hv⟩
    · rintro ⟨p, hbinds, hwitness, rfl⟩
      exact ⟨.ambient p, ambient_mem_met.2 ⟨hbinds, hwitness⟩, rfl⟩
  innermost v c := by
    constructor
    · intro hc
      obtain ⟨p, rfl, _⟩ := exists_ambient_of_key (CandidateSet.mem_of_find?_ofList hc).2
      rw [CandidateSet.find?_ofList] at hc
      exact ⟨p, rfl, find?_met_iff.1 hc⟩
    · rintro ⟨p, rfl, hinnermost⟩
      rw [CandidateSet.find?_ofList]
      exact find?_met_iff.2 hinnermost
  declared id := by
    rw [CandidateSet.keys_ofList, FirstSeen.mem_ofList, List.mem_map]
    constructor
    · rintro ⟨c, hc, hkey⟩
      obtain ⟨i, rfl, rfl⟩ := exists_declared_of_key hkey
      obtain ⟨hi, hseen⟩ := (declared_mem_met hchain).1 hc
      exact ⟨i, h.getElem?_id hi, hseen⟩
    · rintro ⟨i, hi, hseen⟩
      exact ⟨.declared i, (declared_mem_met hchain).2 ⟨List.mem_of_getElem? hi, hseen⟩,
        congrArg _ (h.numbered.ids id i hi)⟩
  numbered id c hc := by
    obtain ⟨hmem, hkey⟩ := CandidateSet.mem_of_find?_ofList hc
    obtain ⟨i, rfl, rfl⟩ := exists_declared_of_key hkey
    exact ⟨i, rfl, h.getElem?_id ((declared_mem_met hchain).1 hmem).1⟩
  once := OrderedMap.nodup_keys _
  order := CandidateSet.keys_ofList _

/-- The frozen variables are the parameters that the chain binds. -/
theorem mem_frozenAt_iff {id : ScopeId} {chain : List ScopeId} {frozen : VarSet}
    (hchain : cat.scopeChain id = .ok chain) (hfrozen : cat.frozenAt id = .ok frozen) {v : VarId} :
    v ∈ frozen ↔ ∃ p, cat.Binds chain p ∧ p.id = v := by
  obtain ⟨chain', hchain', hfrozen⟩ := bind_eq_ok hfrozen
  obtain rfl := Except.ok.inj (hchain.symm.trans hchain')
  obtain ⟨places, hplaces, hfrozen⟩ := bind_eq_ok hfrozen
  injection hfrozen with hfrozen
  subst hfrozen
  rw [VarSet.mem_ofList, List.mem_map]
  refine exists_congr fun p => and_congr_left fun _ => ?_
  rw [List.mem_flatMap]
  constructor
  · rintro ⟨s, hs, hp⟩
    obtain ⟨j, hj, hget⟩ := exists_of_mem_mapM hplaces hs
    exact ⟨j, hj, s, getScope_eq_ok_iff.1 hget, mem_boundParams.1 hp⟩
  · rintro ⟨j, hj, s, hs, hbound⟩
    obtain ⟨s', hs', hget⟩ := exists_mem_of_mapM hplaces hj
    rw [getScope_eq_ok_iff, hs] at hget
    obtain rfl := Option.some.inj hget
    exact ⟨s, hs', mem_boundParams.2 hbound⟩

/-- **A site gets what can be seen from it**: in every registry, from every declared scope and for every
    rule of accessibility. -/
theorem visible_exact {cat : Catalog} (h : Declared cat) {id : ScopeId} (hid : id < cat.scopes.length)
    (accessible : Accessibility) :
    ∃ chain candidates frozen, cat.scopeChain id = .ok chain ∧ cat.Outward id chain ∧
      cat.visible accessible id = .ok candidates ∧ cat.frozenAt id = .ok frozen ∧
      cat.Shown accessible chain candidates ∧
      -- what is frozen are the parameters of the generic scopes, ambient candidates among them
      (∀ v, v ∈ frozen ↔ ∃ p, cat.Binds chain p ∧ p.id = v) ∧
      (∀ v, .ambient v ∈ candidates.keys → v ∈ frozen) ∧
      -- by the usual rule, a private instance is seen from within its scope only
      (accessible = .byVisibility → ∀ i ∈ cat.instances, .declared i.id ∈ candidates.keys ↔
        i.memberOf = none ∧ cat.Reaches chain i.scope ∧ (i.isPrivate → i.scope ∈ chain)) := by
  obtain ⟨chain, hchain, hout⟩ := scopeChain_outward h.placed.toTree hid
  obtain ⟨frozen, hfrozen⟩ := (exists_frozenAt_iff h).2 hid
  have hshown := shown_met h accessible hout.declared
  refine ⟨chain, _, frozen, hchain, hout, visible_eq h accessible hchain hout, hfrozen, hshown,
    fun v => mem_frozenAt_iff hchain hfrozen, ?_, ?_⟩
  · intro v hv
    obtain ⟨p, hbinds, _, hid⟩ := (hshown.ambient v).1 hv
    exact (mem_frozenAt_iff hchain hfrozen).2 ⟨p, hbinds, hid⟩
  · rintro rfl i hi
    have husual : Accessibility.byVisibility i chain = true ↔ (i.isPrivate → i.scope ∈ chain) := by
      cases hprivate : i.isPrivate <;> simp [Accessibility.byVisibility, hprivate]
    rw [hshown.declared, h.getElem?_id hi]
    constructor
    · rintro ⟨i', hi', hmember, haccessible, hreaches⟩
      obtain rfl := Option.some.inj hi'
      exact ⟨hmember, hreaches, husual.1 haccessible⟩
    · rintro ⟨hmember, hreaches, hscope⟩
      exact ⟨i, rfl, hmember, husual.2 hscope, hreaches⟩

/-- A method `map` in a type `Box`, which share the number of a witness parameter.  `Box` and `Lib` import
    each other, `map` imports `Box` once more, and `Lib` imports `Far`.  The instances 0 to 5 are `Own` in
    `Box`, `Shared`, a private `Hidden` and a member `Part` of `Shared` in `Lib`, `Distant` in `Far`, and a
    private `Global` in the root. -/
def boxes : List Declaration :=
  let plain (name : String) : InstanceDecl := ⟨name, [], [], false, false, none, []⟩
  [.newScope root .typeBody "Box" [⟨4, "T", .ordinary⟩, ⟨5, "W", .witness []⟩],
    .newScope 1 .methodBody "map" [⟨5, "V", .witness []⟩, ⟨6, "U", .witness []⟩],
    .newScope root .nameSpace "Lib" [], .newScope root .nameSpace "Far" [],
    .newImport 1 3, .newImport 3 1, .newImport 2 1, .newImport 3 4,
    .newInstance 1 (plain "Own"), .newInstance 3 (plain "Shared"),
    .newInstance 3 { plain "Hidden" with isPrivate := true },
    .newInstance 3 { plain "Part" with memberOf := some 1 },
    .newInstance 4 (plain "Distant"), .newInstance root { plain "Global" with isPrivate := true }]

/-- From `map`: its own two parameters, `Own` by the import, `Shared` by the import of `Box`, and `Global`. -/
theorem visible_exact_boxes : ∃ chain candidates frozen, (session boxes).scopeChain 2 = .ok chain ∧
    (session boxes).visible .byVisibility 2 = .ok candidates ∧
    (session boxes).frozenAt 2 = .ok frozen ∧
    (session boxes).Shown .byVisibility chain candidates ∧
    candidates.keys = [.ambient 5, .ambient 6, .declared 0, .declared 1, .declared 5] ∧
    frozen.ids = [4, 5, 6] := by
  obtain ⟨chain, candidates, frozen, hchain, _, hvisible, hfrozen, hshown, _⟩ :=
    @visible_exact _ (session_declared boxes) 2 (by decide) .byVisibility
  have hkeys : okAnd ((session boxes).visible .byVisibility 2) (fun candidates => decide (candidates.keys =
      [.ambient 5, .ambient 6, .declared 0, .declared 1, .declared 5])) = true := by decide +kernel
  have hids : okAnd ((session boxes).frozenAt 2) (fun frozen => decide (frozen.ids = [4, 5, 6])) = true := by
    decide +kernel
  rw [hvisible] at hkeys
  rw [hfrozen] at hids
  exact ⟨chain, candidates, frozen, hchain, hvisible, hfrozen, hshown, of_decide_eq_true hkeys,
    of_decide_eq_true hids⟩

end Catalog

end InstanceSearch
