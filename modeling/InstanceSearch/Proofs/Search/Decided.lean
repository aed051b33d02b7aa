/-
  Requirements that leave no choice.

  Covering is greedy.  Each required capability takes the first offered one that unifies with it, and the
  choice is not taken back; so it may take one that stands in the way of a later requirement.  Requirements
  are DECIDED by what is offered if none of them unifies with two different offered capabilities.

  WHAT FOLLOWS
    * Covering fails only where there is no cover at all (`cover_complete`).
    * Lists of requirements that cover each other are covered together, and what is left to solve is the
      same (`cover_same`).
    * The patterns of a match do not depend on the list either (`specific_iff`).

  THE CRUX
    A solution of the bindings that makes each requirement equal to some offered capability is never lost:
    the capability that is taken can only be that one.
-/
import InstanceSearch.Proofs.Search.Lockstep

namespace InstanceSearch.Search

/-! ## The condition -/

/-- `Unifies frozen s d r`: the offered capability `d` and the required one `r` can be made equal. -/
abbrev Unifies (frozen : VarSet) (s : Subst) (d r : Capability) : Prop :=
  (tryUnifyCapabilities frozen d r s).isOk = true

/-- No required capability unifies with two different offered ones. -/
def DecidedBy (frozen : VarSet) (offered required : List Capability) (s : Subst) : Prop :=
  ∀ r ∈ required, ∀ d ∈ offered, Unifies frozen s d r →
    ∀ d' ∈ offered, Unifies frozen s d' r → d.anon = d'.anon

instance (frozen : VarSet) (offered required : List Capability) (s : Subst) :
    Decidable (DecidedBy frozen offered required s) :=
  inferInstanceAs (Decidable (∀ r ∈ required, ∀ d ∈ offered, Unifies frozen s d r →
    ∀ d' ∈ offered, Unifies frozen s d' r → d.anon = d'.anon))

/-- What a candidate offers where its new variables are counted from `n`. -/
def offeredAt (q : Search) (c : Candidate) (n : VarId) : List Capability :=
  q.catalog.expand (c.offers.map (newVars c.params n).applyTo)

/-- The requirements are decided by what each candidate offers. -/
def Decided (q : Search) (required : List Capability) (context : Subst) (n : VarId) : Prop :=
  ∀ e ∈ numbered q.candidates.values n, DecidedBy q.frozen (q.offeredAt e.1 e.2) required context

instance (q : Search) (required : List Capability) (context : Subst) (n : VarId) :
    Decidable (q.Decided required context n) :=
  inferInstanceAs (Decidable (∀ e ∈ numbered q.candidates.values n,
    DecidedBy q.frozen (q.offeredAt e.1 e.2) required context))

section Cover

variable {frozen : VarSet} {offered required required' : List Capability} {s s₁ : Subst}

/-- What can be made equal does not depend on labels. -/
theorem unifies_congr (hs : s.Acyclic) {d d' r r' : Capability} (hd : d.anon = d'.anon)
    (hr : r.anon = r'.anon) : Unifies frozen s d r ↔ Unifies frozen s d' r' := by
  unfold Unifies
  rw [tryUnifyCapabilities_isOk_iff hs, tryUnifyCapabilities_isOk_iff hs]
  constructor
  · rintro ⟨θ, hθ, heq⟩
    exact ⟨θ, hθ, ((Capability.anon_assign_congr hd).symm.trans heq).trans
      (Capability.anon_assign_congr hr)⟩
  · rintro ⟨θ, hθ, heq⟩
    exact ⟨θ, hθ, ((Capability.anon_assign_congr hd).trans heq).trans
      (Capability.anon_assign_congr hr).symm⟩

/-- What can be made equal under more bindings can be made equal under fewer. -/
theorem Unifies.of_grows {P : VarId → Prop} {d r : Capability} (h : Unifies frozen s₁ d r)
    (hs : s.Acyclic) (hgrow : Subst.Grows frozen P s s₁) : Unifies frozen s d r := by
  unfold Unifies at h ⊢
  rw [tryUnifyCapabilities_isOk_iff hgrow.acyclic] at h
  rw [tryUnifyCapabilities_isOk_iff hs]
  obtain ⟨θ, hθ, heq⟩ := h
  exact ⟨θ, hθ.of_extends hgrow.isExtension fun _ hv hf => hgrow.frozen_free hv hf, heq⟩

/-- Capabilities that some later bindings make equal unify. -/
theorem unifies_of_equal {P : VarId → Prop} {d r : Capability} (hs : s.Acyclic)
    (hgrow : Subst.Grows frozen P s s₁) (h : (s₁.applyTo d).anon = (s₁.applyTo r).anon) :
    Unifies frozen s d r := by
  unfold Unifies
  rw [tryUnifyCapabilities_isOk_iff hs]
  refine ⟨_, hgrow.solution, ?_⟩
  rw [← hgrow.acyclic.anon_applyTo, ← hgrow.acyclic.anon_applyTo, h]

theorem DecidedBy.of_grows {P : VarId → Prop} (h : DecidedBy frozen offered required s)
    (hs : s.Acyclic) (hgrow : Subst.Grows frozen P s s₁) :
    DecidedBy frozen offered required s₁ :=
  fun r hr d hd hu d' hd' hu' => h r hr d hd (hu.of_grows hs hgrow) d' hd' (hu'.of_grows hs hgrow)

theorem DecidedBy.of_alike (hs : s.Acyclic) (h : DecidedBy frozen offered required s)
    (halike : Capability.Alike required required') : DecidedBy frozen offered required' s := by
  intro r' hr' d hd hu d' hd' hu'
  obtain ⟨r, hr, heq⟩ := halike.symm.exists_mem hr'
  exact h r hr d hd ((unifies_congr hs rfl heq).2 hu) d' hd' ((unifies_congr hs rfl heq).2 hu')

/-! ## Covering -/

/-- One is taken if any unifies. -/
theorem exists_firstCover {r d : Capability} (hd : d ∈ offered) (h : Unifies frozen s d r) :
    ∃ c s₁, firstCover frozen offered r s = some (c, s₁) := by
  cases hf : firstCover frozen offered r s with
  | some e => exact ⟨e.1, e.2, rfl⟩
  | none =>
    unfold firstCover at hf
    have hnone := List.findSome?_eq_none_iff.1 hf d hd
    cases hx : tryUnifyCapabilities frozen d r s with
    | ok s' =>
      rw [hx] at hnone
      cases hnone
    | error e =>
      rw [Unifies, hx] at h
      cases h

/-- **Where requirements are decided, covering keeps every solution**: if under a solution of the bindings
    each requirement is equal to something that is offered, there is a cover, which it solves. -/
theorem cover_complete (hs : s.Acyclic) (hdecided : DecidedBy frozen offered required s)
    {θ : VarId → Ty} (hθ : s.Solution frozen θ)
    (h : ∀ r ∈ required, ∃ d ∈ offered, (d.assign θ).anon = (r.assign θ).anon) :
    ∃ ps s₁, cover frozen offered required s = some (ps, s₁) ∧ s₁.Solution frozen θ := by
  induction required generalizing s with
  | nil => exact ⟨[], s, rfl, hθ⟩
  | cons r rs ih =>
    obtain ⟨d, hd, heq⟩ := h r List.mem_cons_self
    have hunifies : Unifies frozen s d r := (tryUnifyCapabilities_isOk_iff hs).2 ⟨θ, hθ, heq⟩
    obtain ⟨c, s', hfirst⟩ := exists_firstCover hd hunifies
    obtain ⟨hc, hok⟩ := firstCover_some hfirst
    -- what is taken is `d`, so the solution stays one
    have hcd : c.anon = d.anon := by
      refine hdecided r List.mem_cons_self c hc ?_ d hd hunifies
      rw [Unifies, hok]
      rfl
    have hθ' : s'.Solution frozen θ :=
      (solution_iff hs hok).2 ⟨hθ, (Capability.anon_assign_congr hcd).trans heq⟩
    have hgrow := (tryUnifyCapabilities_sound hs hok).1
    have hrest : DecidedBy frozen offered rs s' :=
      DecidedBy.of_grows (fun r' hr' => hdecided r' (List.mem_cons_of_mem r hr')) hs hgrow
    obtain ⟨ps, s₁, hcover, hsol⟩ := ih hgrow.acyclic hrest hθ'
      fun r' hr' => h r' (List.mem_cons_of_mem r hr')
    refine ⟨c :: ps, s₁, ?_, hsol⟩
    simp only [cover, hfirst, Option.bind_eq_bind, Option.bind_some, hcover]
    rfl

/-- What a cover took for each requirement: something offered that unifies with it. -/
theorem cover_patterns (hs : s.Acyclic) {ps : List Capability}
    (h : cover frozen offered required s = some (ps, s₁)) :
    List.Forall₂ (fun r d => d ∈ offered ∧ Unifies frozen s d r) required ps := by
  induction required generalizing s ps with
  | nil =>
    injection h with h
    injection h with h
    rw [← h]
    exact .nil
  | cons r rs ih =>
    obtain ⟨d, s', ds, hfirst, hrest, rfl⟩ := cover_cons h
    obtain ⟨hd, hok⟩ := firstCover_some hfirst
    have hgrow := (tryUnifyCapabilities_sound hs hok).1
    refine .cons ⟨hd, ?_⟩ ((ih hgrow.acyclic hrest).imp fun r' d' hd' => ⟨hd'.1, hd'.2.of_grows hs hgrow⟩)
    rw [Unifies, hok]
    rfl

/-- `Entails frozen offered s required required'`: whatever covers the one list covers the other. -/
def Entails (frozen : VarSet) (offered : List Capability) (s : Subst)
    (required required' : List Capability) : Prop :=
  ∀ ps s₁, cover frozen offered required s = some (ps, s₁) →
    ∀ r ∈ required', ∃ d ∈ offered, (s₁.applyTo d).anon = (s₁.applyTo r).anon

/-- A cover of one list is enough for a cover of the other, which leaves no less to solve. -/
theorem cover_of_entails (hs : s.Acyclic) (hdecided : DecidedBy frozen offered required' s)
    (h : Entails frozen offered s required required') {ps : List Capability}
    (hcover : cover frozen offered required s = some (ps, s₁)) :
    ∃ ps' s₁', cover frozen offered required' s = some (ps', s₁') ∧
      ∀ θ, s₁.Solution frozen θ → s₁'.Solution frozen θ := by
  have hgrow := (cover_sound hs hcover).1
  have hkeep : ∀ θ, s₁.Solution frozen θ → ∃ ps' s₁',
      cover frozen offered required' s = some (ps', s₁') ∧ s₁'.Solution frozen θ := by
    intro θ hθ
    refine cover_complete hs hdecided
      (hθ.of_extends hgrow.isExtension fun _ hv hf => hgrow.frozen_free hv hf) ?_
    intro r hr
    obtain ⟨d, hd, heq⟩ := h ps s₁ hcover r hr
    refine ⟨d, hd, ?_⟩
    rw [← hθ.assign_applyTo hgrow.acyclic d, ← hθ.assign_applyTo hgrow.acyclic r]
    exact Capability.anon_assign_congr heq
  obtain ⟨ps', s₁', hcover', _⟩ := hkeep _ (hgrow.acyclic.solution frozen)
  refine ⟨ps', s₁', hcover', fun θ hθ => ?_⟩
  obtain ⟨ps'', s₁'', hcover'', hsol⟩ := hkeep θ hθ
  rw [hcover'] at hcover''
  injection hcover'' with hcover''
  injection hcover'' with _ hsame
  exact hsame ▸ hsol

/-- **Lists of requirements that cover each other are covered together**, and the bindings have the same
    solutions. -/
theorem cover_same (hs : s.Acyclic) (hdecided : DecidedBy frozen offered required s)
    (hdecided' : DecidedBy frozen offered required' s)
    (h : Entails frozen offered s required required') (h' : Entails frozen offered s required' required) :
    (cover frozen offered required s = none ∧ cover frozen offered required' s = none) ∨
      ∃ ps s₁ ps' s₁', cover frozen offered required s = some (ps, s₁) ∧
        cover frozen offered required' s = some (ps', s₁') ∧
        ∀ θ, s₁.Solution frozen θ ↔ s₁'.Solution frozen θ := by
  cases hc : cover frozen offered required s with
  | some e =>
    obtain ⟨ps, s₁⟩ := e
    obtain ⟨ps', s₁', hc', hsol⟩ := cover_of_entails hs hdecided' h hc
    obtain ⟨ps'', s₁'', hc'', hsol'⟩ := cover_of_entails hs hdecided h' hc'
    rw [hc] at hc''
    injection hc'' with hc''
    injection hc'' with _ hsame
    subst hsame
    exact Or.inr ⟨ps, s₁, ps', s₁', rfl, hc', fun θ => ⟨hsol θ, hsol' θ⟩⟩
  | none =>
    cases hc' : cover frozen offered required' s with
    | none => exact Or.inl ⟨rfl, rfl⟩
    | some e =>
      obtain ⟨ps, s₁, hc₁, _⟩ := cover_of_entails hs hdecided h' hc'
      rw [hc] at hc₁
      cases hc₁

/-- A list covers whatever is in it. -/
theorem entails_of_subset (hs : s.Acyclic)
    (h : ∀ r' ∈ required', ∃ r ∈ required, r.anon = r'.anon) :
    Entails frozen offered s required required' := by
  intro ps s₁ hcover r' hr'
  obtain ⟨hgrow, hequal⟩ := cover_sound hs hcover
  obtain ⟨r, hr, heq⟩ := h r' hr'
  obtain ⟨d, hd, hdr⟩ := hequal r hr
  exact ⟨d, hd, hdr.trans (hgrow.acyclic.anon_applyTo_congr heq)⟩

/-! ## Specificity -/

/-- `SpecificFor frozen s offered offered' required`: whatever one candidate covers a requirement
    with is an instance of what the other one covers it with. -/
def SpecificFor (frozen : VarSet) (s : Subst) (offered offered' required : List Capability) : Prop :=
  ∀ r ∈ required, ∀ d ∈ offered, Unifies frozen s d r → ∀ d' ∈ offered', Unifies frozen s d' r →
    d.instanceOf d' frozen = true

/-- **Which of two candidates is at least as specific as the other does not depend on the order of the
    requirements**, if they are decided by both. -/
theorem specific_iff {offered' ps ps' : List Capability} (hs : s.Acyclic)
    (hdecided : DecidedBy frozen offered required s) (hdecided' : DecidedBy frozen offered' required s)
    {s₁' : Subst} (h : cover frozen offered required s = some (ps, s₁))
    (h' : cover frozen offered' required s = some (ps', s₁')) :
    ((ps.zip ps').all fun p => p.1.instanceOf p.2 frozen) = true ↔
      SpecificFor frozen s offered offered' required := by
  have hps := cover_patterns hs h
  have hps' := cover_patterns hs h'
  clear h h'
  induction hps generalizing ps' with
  | nil => exact ⟨fun _ r hr => (nomatch hr), fun _ => rfl⟩
  | @cons r d rs ds hd hds ih =>
    obtain ⟨d', ds', hd', hds', rfl⟩ := List.forall₂_cons_left_iff.1 hps'
    have hrest := ih (fun r' hr' => hdecided r' (List.mem_cons_of_mem r hr'))
      (fun r' hr' => hdecided' r' (List.mem_cons_of_mem r hr')) hds'
    rw [List.zip_cons_cons, List.all_cons, Bool.and_eq_true]
    refine (and_congr_right fun _ => hrest).trans ?_
    constructor
    · rintro ⟨hinst, hall⟩ r' hr' c hc hu c' hc' hu'
      rcases List.mem_cons.1 hr' with rfl | hr'
      · rw [← hinst]
        exact Capability.instanceOf_congr (hdecided _ List.mem_cons_self c hc hu d hd.1 hd.2)
          (hdecided' _ List.mem_cons_self c' hc' hu' d' hd'.1 hd'.2)
      · exact hall r' hr' c hc hu c' hc' hu'
    · intro hall
      exact ⟨hall r List.mem_cons_self d hd.1 hd.2 d' hd'.1 hd'.2,
        fun r' hr' => hall r' (List.mem_cons_of_mem r hr')⟩

end Cover

/-! ## Matches that say the same -/

/-- Two matches of one candidate at the same new variables, whose bindings have the same solutions. -/
structure SameMatch (frozen : VarSet) (m m' : Matched) : Prop where
  candidate : m'.candidate = m.candidate
  params : m'.params = m.params
  left : m.subst.Acyclic
  right : m'.subst.Acyclic
  solutions : ∀ θ, m.subst.Solution frozen θ ↔ m'.subst.Solution frozen θ
  frozen : ∀ v ∈ frozen, m.subst.find? v = none ↔ m'.subst.find? v = none

/-- Their bindings are variants, by a renaming that moves variables of the bindings only. -/
theorem SameMatch.exists_variant {frozen : VarSet} {m m' : Matched} (h : SameMatch frozen m m') :
    ∃ π, Subst.Variant frozen π m.subst m'.subst ∧
      ∀ v, v ∉ m.subst.vars → v ∉ m'.subst.vars → π v = v :=
  Subst.exists_variant h.left h.right h.solutions h.frozen

section Matches

variable {q : Search} {required required' : List Capability} {context : Subst} {n : VarId}

theorem match?_eq (c : Candidate) : q.match? c required context n =
    (cover q.frozen (q.offeredAt c n) required context).map fun e =>
      ⟨c, e.2, e.1, c.params.map fun p => p.rename (newVars c.params n)⟩ := by
  unfold match? offeredAt
  dsimp only
  cases cover q.frozen (q.catalog.expand (c.offers.map (newVars c.params n).applyTo)) required context <;>
    rfl

/-- `Interchangeable q required required' context n`: the two lists of requirements are decided, each
    candidate covers both or neither, and is more specific than another one for both or neither. -/
structure Interchangeable (q : Search) (required required' : List Capability) (context : Subst)
    (n : VarId) : Prop where
  decided : q.Decided required context n
  decided' : q.Decided required' context n
  entails : ∀ e ∈ numbered q.candidates.values n,
    Entails q.frozen (q.offeredAt e.1 e.2) context required required'
  entails' : ∀ e ∈ numbered q.candidates.values n,
    Entails q.frozen (q.offeredAt e.1 e.2) context required' required
  specific : ∀ e ∈ numbered q.candidates.values n, ∀ k ∈ numbered q.candidates.values n,
    ∀ m m', q.match? e.1 required context e.2 = some m → q.match? k.1 required context k.2 = some m' →
    (SpecificFor q.frozen context (q.offeredAt e.1 e.2) (q.offeredAt k.1 k.2) required ↔
      SpecificFor q.frozen context (q.offeredAt e.1 e.2) (q.offeredAt k.1 k.2) required')

/-- Two matches of one of the candidates, for either list. -/
structure MatchedBoth (q : Search) (required required' : List Capability) (context : Subst) (n : VarId)
    (m m' : Matched) : Prop where
  same : SameMatch q.frozen m m'
  matched : ∃ e ∈ numbered q.candidates.values n,
    q.match? e.1 required context e.2 = some m ∧ q.match? e.1 required' context e.2 = some m'

variable (hs : context.Acyclic) (h : q.Interchangeable required required' context n)
include hs h

/-- **Interchangeable requirements are matched by the same candidates**, with the same outcome. -/
theorem match?_same : ∀ e ∈ numbered q.candidates.values n,
    MatchTogether (q.MatchedBoth required required' context n) (q.match? e.1 required context e.2)
      (q.match? e.1 required' context e.2) := by
  intro e he
  rcases cover_same hs (h.decided e he) (h.decided' e he) (h.entails e he) (h.entails' e he) with
    ⟨hc, hc'⟩ | ⟨ps, s₁, ps', s₁', hc, hc', hsol⟩
  · rw [match?_eq, match?_eq, hc, hc']
    exact Or.inl ⟨rfl, rfl⟩
  · have hm : q.match? e.1 required context e.2 = _ := match?_eq e.1
    have hm' : q.match? e.1 required' context e.2 = _ := match?_eq e.1
    rw [hc, Option.map_some] at hm
    rw [hc', Option.map_some] at hm'
    have hgrow := (cover_sound hs hc).1
    have hgrow' := (cover_sound hs hc').1
    refine Or.inr ⟨_, _, hm, hm', ⟨rfl, rfl, hgrow.acyclic, hgrow'.acyclic, hsol, ?_⟩, e, he, hm, hm'⟩
    exact fun v hv => (hgrow.frozen_free_iff hv).trans (hgrow'.frozen_free_iff hv).symm

/-- Which of two matches is at least as specific as the other is the same for both lists. -/
theorem specific_same {m m' k k' : Matched}
    (hm : q.MatchedBoth required required' context n m m')
    (hk : q.MatchedBoth required required' context n k k') :
    ((m.patterns.zip k.patterns).all fun p => p.1.instanceOf p.2 q.frozen) =
      (m'.patterns.zip k'.patterns).all fun p => p.1.instanceOf p.2 q.frozen := by
  obtain ⟨e, he, hme, hme'⟩ := hm.matched
  obtain ⟨e', he', hke, hke'⟩ := hk.matched
  rw [Bool.eq_iff_iff, specific_iff hs (h.decided e he) (h.decided e' he') (match?_ok hme).2.2
      (match?_ok hke).2.2,
    specific_iff hs (h.decided' e he) (h.decided' e' he') (match?_ok hme').2.2 (match?_ok hke').2.2]
  exact h.specific e he e' he' m k hme hke

end Matches

end InstanceSearch.Search
