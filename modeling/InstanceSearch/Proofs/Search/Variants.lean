/-
  A search under bindings that say the same.

  THE STATEMENT (`solve_variant`)
    The same request, under two substitutions that are variants by a renaming `π`, is answered in step:
    either by the same witness and the same bindings up to `π`, or by the same failure.  The goals have
    the same texts all the way down.

  WHAT IS RENAMED
    Neither the candidates nor their new variables: both searches draw from the same counter.  What may
    differ is which variable of the request stands for which, where several came to the same; `π` says
    so.  It may move any variables but the frozen ones and those that the concepts are written with.

  A goal in flight may have another text on the other side, if no text that comes up in the search is
  confused with it (`U`).
-/
import InstanceSearch.Proofs.Renaming.Search
import InstanceSearch.Proofs.Search.Lockstep

namespace InstanceSearch.Search

/-! ## The bond -/

/-- Bindings that are variants by `π`, and types that `π` takes to each other, which come to the same
    under later bindings. -/
def Bond.renaming (frozen : VarSet) (π : Renaming) : Bond frozen where
  substs := Subst.Variant frozen π
  types s' t t' := t'.anon = (t.mapVars π).anon ∧ (s'.apply t').anon = (s'.apply t).anon
  acyclic h := ⟨h.left, h.right⟩
  opens h t := by
    rw [h.asVar? t]
    constructor
    · rintro ⟨v', hv', hfree⟩
      obtain ⟨v, hv, rfl⟩ := Option.map_eq_some_iff.1 hv'
      exact ⟨v, hv, fun hm => hfree ((VarSet.mem_iff_of_fixed h.frozen v).2 hm)⟩
    · rintro ⟨v, hv, hfree⟩
      refine ⟨π v, by rw [hv]; rfl, fun hm => hfree ?_⟩
      exact (VarSet.mem_iff_of_fixed h.frozen v).1 hm
  rendered h t := ⟨h.apply t, by rw [h.right.apply_apply, h.apply_apply]⟩
  later hs hs₁ hext h := ⟨h.1, hs.anon_apply_later hs₁ hext h.2⟩

/-! ## What is asked for -/

section Variants

variable {q : Search} {π : Renaming} {s s' : Subst}

/-- What is asked for is the same up to the renaming. -/
theorem requirement_variant (hπ : q.catalog.Unmoved π) (h : Subst.Variant q.frozen π s s')
    (label : String) (cs : List Capability) :
    (q.requirement ⟨label, cs, s'⟩).map Capability.anon =
      ((q.requirement ⟨label, cs, s⟩).map (Capability.mapVars π)).map Capability.anon := by
  have happlied : (cs.map s'.applyTo).map Capability.anon =
      ((cs.map s.applyTo).map (Capability.mapVars π)).map Capability.anon := by
    simp only [List.map_map]
    exact List.map_congr_left fun c _ => h.applyTo c
  unfold requirement
  dsimp only
  split
  · rw [Catalog.minimize_congr happlied, Catalog.minimize_mapVars hπ]
  · exact happlied

/-- **The goals have one text.** -/
theorem goal_variant (hπ : q.catalog.Unmoved π) (h : Subst.Variant q.frozen π s s') (label : String)
    (cs : List Capability) : q.goal ⟨label, cs, s'⟩ = q.goal ⟨label, cs, s⟩ := by
  unfold goal
  rw [goalText_congr (requirement_variant hπ h label cs), goalText_mapVars h.frozen]

/-- `SameUnder s' c c'`: the two capabilities come to the same under `s'`. -/
def SameUnder (s' : Subst) (c c' : Capability) : Prop := (s'.applyTo c').anon = (s'.applyTo c).anon

theorem SameUnder.later {s₁ : Subst} {c c' : Capability} (h : SameUnder s c c') (hs : s.Acyclic)
    (hs₁ : s₁.Acyclic) (hext : s₁.Extends s) : SameUnder s₁ c c' := by
  have hlater := hs₁.anon_applyTo_congr h
  rwa [hs.applyTo_applyTo_of_extends hs₁ hext, hs.applyTo_applyTo_of_extends hs₁ hext] at hlater

/-- Under the other bindings, both searches ask for the same. -/
theorem requirement_sameUnder (hπ : q.catalog.Unmoved π) (h : Subst.Variant q.frozen π s s')
    (label : String) (cs : List Capability) :
    List.Forall₂ (SameUnder s') (q.requirement ⟨label, cs, s⟩) (q.requirement ⟨label, cs, s'⟩) := by
  have hreq := requirement_variant hπ h label cs
  have hmem : ∀ c ∈ q.requirement ⟨label, cs, s⟩, ∃ d, c = s.applyTo d := by
    intro c hc
    obtain ⟨d, _, hd⟩ := mem_requirement hc
    exact ⟨d, hd⟩
  generalize q.requirement ⟨label, cs, s⟩ = R at hreq hmem
  generalize q.requirement ⟨label, cs, s'⟩ = R' at hreq
  induction R generalizing R' with
  | nil =>
    rw [List.map_nil, List.map_nil, List.map_eq_nil_iff] at hreq
    rw [hreq]
    exact .nil
  | cons c R ih =>
    rw [List.map_cons, List.map_cons] at hreq
    obtain ⟨c', R'', rfl, hc', hrest⟩ := List.map_eq_cons_iff.1 hreq
    refine .cons ?_ (ih (fun d hd => hmem d (List.mem_cons_of_mem c hd)) _ hrest)
    obtain ⟨d, rfl⟩ := hmem c List.mem_cons_self
    -- both are what `s'` makes of `d`
    have hd : c'.anon = (s'.applyTo d).anon := hc'.trans (h.applyTo d).symm
    have hc := h.right.anon_applyTo_congr hd
    rw [h.right.applyTo_applyTo_of_extends h.right (.refl s')] at hc
    exact hc.trans (h.applyTo_applyTo d).symm

/-! ## Covering -/

/-- Two covers: both fail, or both succeed with the same patterns, under bindings that are variants. -/
def CoverTogether {α : Type} (frozen : VarSet) (π : Renaming) (o o' : Option (α × Subst)) : Prop :=
  (o = none ∧ o' = none) ∨
    ∃ x s₁ s₁', o = some (x, s₁) ∧ o' = some (x, s₁') ∧ Subst.Variant frozen π s₁ s₁'

theorem firstCover_variant {frozen : VarSet} (h : Subst.Variant frozen π s s') {r r' : Capability}
    (hr : SameUnder s' r r') (offered : List Capability) :
    CoverTogether frozen π (firstCover frozen offered r s) (firstCover frozen offered r' s') := by
  induction offered with
  | nil => exact Or.inl ⟨rfl, rfl⟩
  | cons d offered ih =>
    have hfirst := tryUnifyCapabilities_variant h (h.applyTo d) (hr.trans (h.applyTo r))
    unfold firstCover at ih ⊢
    rw [List.findSome?_cons, List.findSome?_cons]
    cases hx : tryUnifyCapabilities frozen d r s with
    | error e =>
      rw [hx] at hfirst
      cases hx' : tryUnifyCapabilities frozen d r' s' with
      | error e' => exact ih
      | ok s₁' =>
        rw [hx'] at hfirst
        cases hfirst
    | ok s₁ =>
      rw [hx] at hfirst
      cases hx' : tryUnifyCapabilities frozen d r' s' with
      | error e' =>
        rw [hx'] at hfirst
        cases hfirst
      | ok s₁' =>
        rw [hx'] at hfirst
        cases hfirst with
        | ok hvariant => exact Or.inr ⟨d, s₁, s₁', rfl, rfl, hvariant⟩

/-- **Covering the same requirements under variants** fails on both sides, or takes the same offered
    capabilities and leaves variants. -/
theorem cover_variant {frozen : VarSet} {offered required required' : List Capability}
    (h : Subst.Variant frozen π s s') (hr : List.Forall₂ (SameUnder s') required required') :
    CoverTogether frozen π (cover frozen offered required s) (cover frozen offered required' s') := by
  induction required generalizing required' s s' with
  | nil =>
    cases hr
    exact Or.inr ⟨[], s, s', rfl, rfl, h⟩
  | cons r rs ih =>
    obtain ⟨r', rs', hfirst, hrs, rfl⟩ := List.forall₂_cons_left_iff.1 hr
    rw [cover, cover]
    rcases firstCover_variant h hfirst offered with ⟨hf, hf'⟩ | ⟨d, s₁, s₁', hf, hf', hvariant⟩
    · rw [hf, hf']
      exact Or.inl ⟨rfl, rfl⟩
    · rw [hf, hf']
      have hgrow := (tryUnifyCapabilities_sound h.right (firstCover_some hf').2).1
      have hlater := hrs.imp fun c c' hc => hc.later h.right hvariant.right hgrow.isExtension
      rcases ih hvariant hlater with ⟨hc, hc'⟩ | ⟨ds, s₂, s₂', hc, hc', hend⟩
      · simp only [Option.bind_eq_bind, Option.bind_some, hc, hc', Option.bind_none]
        exact Or.inl ⟨rfl, rfl⟩
      · simp only [Option.bind_eq_bind, Option.bind_some, hc, hc']
        exact Or.inr ⟨d :: ds, s₂, s₂', rfl, rfl, hend⟩

/-- Two matches of one candidate that used the same offered capabilities. -/
def SamePatterns (π : Renaming) (frozen : VarSet) (m m' : Matched) : Prop :=
  Fits (Bond.renaming frozen π) m m' ∧ m'.patterns = m.patterns

theorem match?_variant (h : Subst.Variant q.frozen π s s') {required required' : List Capability}
    (hr : List.Forall₂ (SameUnder s') required required') (c : Candidate) (n : VarId) :
    MatchTogether (SamePatterns π q.frozen) (q.match? c required s n) (q.match? c required' s' n) := by
  unfold match?
  dsimp only
  generalize q.catalog.expand (c.offers.map (newVars c.params n).applyTo) = offered
  have hcover : CoverTogether q.frozen π (cover q.frozen offered required s)
      (cover q.frozen offered required' s') := cover_variant h hr
  rcases hcover with ⟨hc, hc'⟩ | ⟨ds, s₁, s₁', hc, hc', hvariant⟩
  · rw [hc, hc']
    exact Or.inl ⟨rfl, rfl⟩
  · rw [hc, hc']
    exact Or.inr ⟨_, _, rfl, rfl, ⟨rfl, rfl, hvariant⟩, rfl⟩

end Variants

/-! ## The search -/

/-- What a call must satisfy for the cycle guard not to confuse its goal with one in flight. -/
def Distinct (q : Search) (U : String → String → Prop) (r : Request) : Prop :=
  U (q.goal r) (q.goal r) ∧ Separates U (q.goal r) (q.goal r)

/-- **A request is answered in step under variants.** -/
theorem solve_variant {q : Search} {π : Renaming} (hπ : q.catalog.Unmoved π)
    {U : String → String → Prop} {levels depth : Nat} {r : Request} {st : State}
    (hcalls : ∀ c ∈ q.calls levels depth r st, q.Distinct U c.request) :
    Follows (Bond.renaming q.frozen π) U (q.solve levels) (q.solve levels) (r, st) := by
  induction levels generalizing depth r st with
  | zero => exact fun s' st' _ hst => ⟨.error rfl, hst⟩
  | succ levels ih =>
    intro s' st' hs hst
    rw [calls, List.forall_mem_cons] at hcalls
    obtain ⟨⟨hU, hseparates⟩, hbelow⟩ := hcalls
    have hgoal : q.goal ⟨r.label, r.constraints, s'⟩ = q.goal r := goal_variant hπ hs _ _
    have hreentry : (reentry st.stack (q.goal r)).isSome =
        (reentry st'.stack (q.goal ⟨r.label, r.constraints, s'⟩)).isSome := by
      rw [hgoal]
      exact hst.reentry hseparates
    have hmatch : ∀ e ∈ numbered q.candidates.values st.next,
        MatchTogether (SamePatterns π q.frozen) (q.match? e.1 (q.requirement r) r.context e.2)
          (q.match? e.1 (q.requirement ⟨r.label, r.constraints, s'⟩) s' e.2) :=
      fun e _ => match?_variant hs (requirement_sameUnder hπ hs r.label r.constraints) e.1 e.2
    have hgrows : q.GrowsAt (fun _ => True) 0 (q.solve levels) := solve_grows (roomy_true q 0) levels
    have hround : Parallel U SameFailure (Bond.renaming q.frozen π).Solved
        ((q.minimizing q.config.minimize).step (q.solve levels) r st)
        ((q.minimizing q.config.minimize).step (q.solve levels) ⟨r.label, r.constraints, s'⟩ st') := by
      refine step_together ?label hst hreentry hmatch ?candidate ?specific ?survive
        fun c hc d hd => hbelow d (List.mem_flatMap.2 ⟨c, hc, hd⟩)
      case label => rfl
      case candidate => exact fun _ _ hm => hm.1.candidate
      case specific => exact fun _ _ _ _ hm hk => by rw [hm.2, hk.2]
      case survive =>
        intro m m' st st' hm hst hbelow
        show Parallel U SameRejection _ (q.survive (q.solve levels) (q.goal r) m st)
          (q.survive (q.solve levels) (q.goal ⟨r.label, r.constraints, s'⟩) m' st')
        rw [hgoal]
        exact survive_together hgrows hU hm.1 hst fun c hc => ih (hbelow c hc)
    exact hround

end InstanceSearch.Search
