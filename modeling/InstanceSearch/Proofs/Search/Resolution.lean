/-
  Resolutions are sound.

  A resolution hands out less than the search found: the context, with a binding for each variable of the
  query that was determined.  That is enough: on the query the two agree (`learn_agrees`), because what is
  added is read off the bindings at the end and mentions no bound variable.

  `resolveWith_sound` puts this together with the soundness of the search.
-/
import InstanceSearch.Proofs.Search.Soundness

namespace InstanceSearch

namespace Search

/-! ## What is learned -/

section Learn

variable {q : Search} {found context : Subst} {vs : List VarId}

/-- What a reader of the learned substitution sees. -/
theorem find?_learn (q : Search) (found : Subst) (vs : List VarId) (context : Subst) (x : VarId) :
    (q.learn found vs context).find? x =
      if x ∈ vs ∧ (x ∈ q.frozen || found.isUnresolved x) = false then
        some (found.apply (.var x none))
      else context.find? x := by
  induction vs generalizing context with
  | nil => simp [learn]
  | cons v vs ih =>
    have hstep : q.learn found (v :: vs) context = q.learn found vs
        (if v ∈ q.frozen || found.isUnresolved v then context
          else context.insert v (found.apply (.var v none))) := rfl
    rw [hstep, ih]
    -- a variable that comes again is given the same value, so the order does not matter
    by_cases hx : x ∈ vs ∧ (x ∈ q.frozen || found.isUnresolved x) = false
    · rw [if_pos hx, if_pos ⟨List.mem_cons_of_mem _ hx.1, hx.2⟩]
    · rw [if_neg hx]
      by_cases hxv : x = v
      · subst hxv
        cases hskip : (decide (x ∈ q.frozen) || found.isUnresolved x) <;> simp
      · have hiff : (x ∈ v :: vs ∧ (x ∈ q.frozen || found.isUnresolved x) = false) ↔
            (x ∈ vs ∧ (x ∈ q.frozen || found.isUnresolved x) = false) := by
          rw [List.mem_cons, or_iff_right hxv]
        rw [if_neg (fun h => hx (hiff.1 h))]
        split
        · rfl
        · rw [OrderedMap.find?_insert, if_neg hxv]

/-- A variable that was learned is bound in what was found. -/
theorem bound_of_resolved {v : VarId} (h : found.isUnresolved v = false) :
    ∃ t, found.find? v = some t := by
  cases hv : found.find? v with
  | some t => exact ⟨t, rfl⟩
  | none =>
    rw [Subst.isUnresolved_of_none hv] at h
    cases h

section Agree

variable (hf : found.Acyclic) (hext : found.Extends context)
  (hfree : ∀ v ∈ vs, context.find? v = none)
include hf hext hfree

omit hf hfree in
/-- A variable that is free in what was found was not learned. -/
theorem learn_free {w : VarId} (hw : found.find? w = none) :
    (q.learn found vs context).find? w = none := by
  rw [find?_learn, if_neg]
  · cases hc : context.find? w with
    | none => rfl
    | some t =>
      rw [hext w t hc] at hw
      cases hw
  · rintro ⟨_, hskip⟩
    rw [Bool.or_eq_false_iff] at hskip
    obtain ⟨t, ht⟩ := bound_of_resolved hskip.2
    rw [hw] at ht
    cases ht

/-- What is learned adds no cycle. -/
theorem learn_acyclic (hc : context.Acyclic) : (q.learn found vs context).Acyclic := by
  obtain ⟨rank, hr⟩ := hc
  -- old bindings move up by two, learned ones stand on 1, free variables on 0
  refine ⟨fun v => if context.find? v = none then
    (if (q.learn found vs context).find? v = none then 0 else 1) else rank v + 2, ?_⟩
  intro v t hv w hw
  rw [find?_learn] at hv
  split at hv
  · rename_i hlearned
    injection hv with hv
    have hwf : found.find? w = none := hf.not_bound_of_mem_apply (hv ▸ hw)
    have hwl : (q.learn found vs context).find? w = none := learn_free hext hwf
    have hwc : context.find? w = none := by
      cases hcw : context.find? w with
      | none => rfl
      | some u =>
        rw [hext w u hcw] at hwf
        cases hwf
    have hvl : (q.learn found vs context).find? v ≠ none := by
      rw [find?_learn, if_pos hlearned]
      exact Option.some_ne_none _
    simp only [hfree v hlearned.1, hwc, hwl, hvl, if_true, if_false]
    exact Nat.zero_lt_one
  · have hlt := hr v t hv w hw
    have hvc : context.find? v ≠ none := by
      rw [hv]
      exact Option.some_ne_none _
    simp only [hvc, if_false]
    split
    · split <;> omega
    · omega

omit hf hext in
/-- What is learned keeps the context. -/
theorem learn_extends : (q.learn found vs context).Extends context := by
  intro v t hv
  rw [find?_learn, if_neg]
  · exact hv
  · rintro ⟨hm, _⟩
    rw [hfree v hm] at hv
    cases hv

/-- **On the variables of the query, what is learned agrees with what was found.** -/
theorem learn_agrees (hc : context.Acyclic)
    (hfrozen : ∀ v ∈ q.frozen, context.find? v = none → found.find? v = none) :
    ∀ v ∈ vs, ∀ n, (q.learn found vs context).apply (.var v n) = found.apply (.var v n) := by
  intro v hv n
  by_cases hskip : (v ∈ q.frozen || found.isUnresolved v) = false
  · have hfind : (q.learn found vs context).find? v = some (found.apply (.var v none)) := by
      rw [find?_learn, if_pos ⟨hv, hskip⟩]
    rw [Bool.or_eq_false_iff] at hskip
    obtain ⟨t, ht⟩ := bound_of_resolved hskip.2
    rw [(learn_acyclic hf hext hfree hc).apply_var_of_some hfind]
    rw [Subst.apply_of_free fun w hw =>
      learn_free hext (hf.not_bound_of_mem_apply hw)]
    rw [hf.apply_var_of_some ht, hf.apply_var_of_some ht]
  · have hfree' : found.find? v = none := by
      rw [Bool.not_eq_false, Bool.or_eq_true, decide_eq_true_eq] at hskip
      rcases hskip with hfz | hun
      · exact hfrozen v hfz (hfree v hv)
      · exact hf.isUnresolved_iff.1 hun
    rw [Subst.apply_var_of_none hfree',
      Subst.apply_var_of_none (learn_free hext hfree')]

end Agree

end Learn

/-! ## The variables of a query -/

/-- Substitutions that keep the context and agree on the variables of a query agree on its constraints. -/
theorem applyTo_eq_of_agree {p : Param} {context s s' : Subst} (hc : context.Acyclic) (hs : s.Acyclic)
    (hs' : s'.Acyclic) (hext : s.Extends context) (hext' : s'.Extends context)
    (hagree : ∀ v ∈ queryVars p context, ∀ n, s.apply (.var v n) = s'.apply (.var v n)) :
    ∀ c ∈ p.constraints, s.applyTo c = s'.applyTo c := by
  intro c hcm
  rw [← hc.applyTo_applyTo_of_extends hs hext, ← hc.applyTo_applyTo_of_extends hs' hext']
  unfold Subst.applyTo Capability.map
  congr 1
  apply List.map_congr_left
  intro t ht
  rw [hs.apply_eq, hs'.apply_eq]
  apply Ty.replaceVars_congr
  intro v hv n
  rw [← hs.apply_var, ← hs'.apply_var]
  apply hagree
  rw [queryVars, FirstSeen.mem_ofList]
  exact List.mem_flatMap.2 ⟨_, List.mem_map_of_mem hcm, List.mem_flatMap.2 ⟨t, ht, hv⟩⟩

/-- The variables of a query are free in the context. -/
theorem free_of_mem_queryVars {p : Param} {context : Subst} (hc : context.Acyclic) :
    ∀ v ∈ queryVars p context, context.find? v = none := by
  intro v hv
  rw [queryVars, FirstSeen.mem_ofList] at hv
  obtain ⟨c, hcm, hv⟩ := List.mem_flatMap.1 hv
  obtain ⟨c', _, rfl⟩ := List.mem_map.1 hcm
  exact hc.not_bound_of_mem_applyTo hv

/-! ## Soundness -/

/-- **Resolution is sound.**  For a witness that is found from candidates of a tidy registry, under a
    context without cycles, there is one substitution for the whole term: it keeps the context, binds no
    frozen variable, agrees with what is returned on the query, and makes the term valid for all of the
    constraints. -/
theorem resolveWith_sound {q : Search} {p : Param} {context : Subst} {r : Resolution}
    (hd : q.catalog.Declared) (ht : q.catalog.Tidy)
    (hq : ∀ c ∈ q.candidates.values, q.catalog.Offers c)
    (hclean : ∀ v ∈ p.vars ++ context.vars ++ q.frozen.ids, ¬ q.catalog.Schematic v)
    (hc : context.Acyclic) (h : q.resolveWith p context = .ok r) :
    ∃ S : Subst, S.Acyclic ∧ context.entries <+: S.entries ∧
      (∀ v ∈ q.frozen, context.find? v = none → S.find? v = none) ∧
      (∀ v ∈ queryVars p context, ∀ n, r.subst.apply (.var v n) = S.apply (.var v n)) ∧
      (∀ c ∈ p.constraints, r.subst.applyTo c = S.applyTo c) ∧
      r.witness.Valid q.catalog (· ∈ q.candidates.values) S p.constraints := by
  unfold resolveWith at h
  split at h
  · cases h
  · rename_i solved hsolved
    injection h with h
    subst h
    have hseed : q.catalog.nextVar ≤ q.seed p context := le_reserve _ _
    have hcontext : ∀ v ∈ context.vars, ¬ q.catalog.Schematic v := by
      intro v hv
      exact hclean v (List.mem_append.2 (Or.inl (List.mem_append.2 (Or.inr hv))))
    have hconstraints : ∀ c ∈ p.constraints, ∀ v ∈ c.vars, ¬ q.catalog.Schematic v := by
      intro c hcm v hv
      have hvars : v ∈ p.vars := List.mem_cons_of_mem _ (List.mem_flatMap.2 ⟨c, hcm, hv⟩)
      exact hclean v (List.mem_append.2 (Or.inl (List.mem_append.2 (Or.inl hvars))))
    have hgrow := solve_grows (roomy_clean hd ht hq) _ _ _ solved hseed hc hcontext hconstraints
      hsolved
    have hvalid := solve_sound hd ht hq _ _ _ solved hseed hc hcontext hconstraints hsolved
      solved.subst hgrow.acyclic (hgrow.forall_vars hcontext) (Subst.Extends.refl _)
    -- the substitution for the whole term is the one that the search ends with
    have hfrozen : ∀ v ∈ q.frozen, context.find? v = none → solved.subst.find? v = none :=
      fun v hv hfree => hgrow.frozen_free hv hfree
    have hfree := free_of_mem_queryVars (p := p) hc
    have hagree := learn_agrees (q := q) hgrow.acyclic hgrow.isExtension hfree hc hfrozen
    refine ⟨solved.subst, hgrow.acyclic, hgrow.isPrefix, hfrozen, hagree, ?_, hvalid⟩
    exact applyTo_eq_of_agree hc (learn_acyclic hgrow.acyclic hgrow.isExtension hfree hc)
      hgrow.acyclic (learn_extends hfree) hgrow.isExtension hagree

/-! ## A resolution with an implied constraint -/

/-- `Eq<T>`, `Ord<T> : Eq<T>`, and instances of `Ord` for `Int` and for lists. -/
def ordering : Except DeclError Catalog := do
  let ord := fun t : Ty => (⟨"Ord", [t]⟩ : Capability)
  let cat ← Catalog.empty.declareConcept ⟨"Eq", [⟨0, "T", .ordinary⟩], [], []⟩
  let cat ← cat.declareConcept
    ⟨"Ord", [⟨2, "T", .ordinary⟩], [⟨"Eq", [.var 2 (some "T")]⟩], []⟩
  let (_, cat) ← cat.declareInstance Catalog.root
    ⟨"OrdInt", [], [ord (Ty.con "Int" [])], false, false, none, []⟩
  let elem : Ty := .var 4 (some "T")
  let (_, cat) ← cat.declareInstance Catalog.root ⟨"OrdList",
    [⟨4, "T", .ordinary⟩, ⟨5, "W", .witness [ord elem]⟩], [ord (Ty.con "List" [elem])],
    false, false, none, []⟩
  return cat

theorem ordering_declared {cat : Catalog} (h : ordering = .ok cat) : cat.Declared := by
  obtain ⟨_, h₁, h⟩ := bind_eq_ok h
  obtain ⟨_, h₂, h⟩ := bind_eq_ok h
  obtain ⟨⟨_, _⟩, h₃, h⟩ := bind_eq_ok h
  obtain ⟨⟨_, _⟩, h₄, h⟩ := bind_eq_ok h
  injection h with h
  exact h ▸ .instance (.instance (.concept (.concept .empty h₁) h₂) h₃) h₄

/-- The query for `Eq` and `Ord` of lists of something that is not known yet. -/
def orderingQuery : Param :=
  ⟨20, "W", .witness [⟨"Eq", [Ty.con "List" [.var 21 none]]⟩, ⟨"Ord", [Ty.con "List" [.var 21 none]]⟩]⟩

/-- It is answered by `OrdList<Int, OrdInt>`, which is valid for both constraints. -/
theorem resolveWith_sound_ordering : ∃ (q : Search) (r : Resolution),
    q.resolveWith orderingQuery .empty = .ok r ∧ r.witness.text = "OrdList<Int, OrdInt>" ∧
    ∃ S : Subst, S.Acyclic ∧
      r.witness.Valid q.catalog (· ∈ q.candidates.values) S orderingQuery.constraints := by
  have h : okAnd ordering (fun cat => okAnd (cat.searchAt .default Catalog.root) fun q =>
      okAnd (q.resolveWith orderingQuery .empty) fun r =>
        decide (r.witness.text = "OrdList<Int, OrdInt>" ∧ q.catalog.Tidy ∧
          ∀ v ∈ orderingQuery.vars ++ Subst.vars .empty ++ q.frozen.ids,
            ¬ q.catalog.Schematic v)) = true := by decide +kernel
  obtain ⟨cat, hcat, h⟩ := okAnd_eq_true h
  obtain ⟨q, hq, h⟩ := okAnd_eq_true h
  obtain ⟨r, hr, h⟩ := okAnd_eq_true h
  obtain ⟨htext, htidy, hclean⟩ := of_decide_eq_true h
  obtain ⟨hcatalog, _, hoffers⟩ := Catalog.searchAt_ok hq
  obtain ⟨S, hS, _, _, _, _, hvalid⟩ := resolveWith_sound (hcatalog ▸ ordering_declared hcat) htidy
    (hcatalog ▸ hoffers) hclean Subst.acyclic_empty hr
  exact ⟨q, r, hr, htext, S, hS, hvalid⟩

end Search

end InstanceSearch
