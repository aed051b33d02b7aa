/-
  What a resolution may learn.

  A resolution starts from a context and hands a substitution back, which the next resolution may start
  from.  Between the two lies a search that binds variables of its own at every level; none of these
  bindings may show.

  THE STATEMENT (`resolveWith_learns`)
    The context comes first, unchanged and in order.  What follows it are bindings for variables of the
    query: they occur in a constraint as it stands under the context, they are not frozen, the context
    does not bind them, and the search did not invent them.  Their values are final: no variable in them
    is bound by the substitution that is handed back.

  THE CRUX (`learn_entries`)
    The fold that writes down what was learned inserts, and an insert overwrites where it can.  It
    cannot, because the variables of a query are free in the context and are listed once each.
-/
import InstanceSearch.Proofs.Search.Resolution

namespace InstanceSearch.Search

/-- The variables out of `vs` that a search may bind and has determined. -/
def determined (q : Search) (found : Subst) (vs : List VarId) : List VarId :=
  vs.filter fun v => !(decide (v ∈ q.frozen) || found.isUnresolved v)

theorem mem_determined {q : Search} {found : Subst} {vs : List VarId} {v : VarId} :
    v ∈ q.determined found vs ↔ v ∈ vs ∧ v ∉ q.frozen ∧ found.isUnresolved v = false := by
  simp [determined]

/-- **What is learned comes after the context**, one entry for each variable that was determined. -/
theorem learn_entries {q : Search} {found : Subst} {vs : List VarId} {context : Subst}
    (hnodup : vs.Nodup) (hfree : ∀ v ∈ vs, context.find? v = none) :
    (q.learn found vs context).entries = context.entries ++
      (q.determined found vs).map fun v => (v, found.apply (.var v none)) := by
  induction vs generalizing context with
  | nil => simp [learn, determined]
  | cons v vs ih =>
    have hstep : q.learn found (v :: vs) context = q.learn found vs
        (if v ∈ q.frozen || found.isUnresolved v then context
          else context.insert v (found.apply (.var v none))) := rfl
    obtain ⟨hv, hvs⟩ := List.nodup_cons.1 hnodup
    have hv_free : context.find? v = none := hfree v (by simp)
    have hvs_free : ∀ w ∈ vs, context.find? w = none := fun w hw => hfree w (by simp [hw])
    rw [hstep]
    cases hskip : (decide (v ∈ q.frozen) || found.isUnresolved v) with
    | true =>
      rw [if_pos rfl, ih hvs hvs_free, determined, determined, List.filter_cons, hskip]
      rfl
    | false =>
      -- the insert appends, and it leaves the variables that are still to come free
      have hentries := OrderedMap.entries_insert_of_notMem (found.apply (.var v none))
        (OrderedMap.find?_eq_none_iff.1 hv_free)
      have hrest : ∀ w ∈ vs, (context.insert v (found.apply (.var v none))).find? w = none := by
        intro w hw
        have hwv : w ≠ v := fun h => hv (h ▸ hw)
        rw [OrderedMap.find?_insert, if_neg hwv]
        exact hvs_free w hw
      rw [if_neg (by decide), ih hvs hrest, hentries, List.append_assoc, determined, determined,
        List.filter_cons, hskip]
      rfl

/-- The variables of a query come from its constraints under the context. -/
theorem mem_queryVars {p : Param} {context : Subst} {v : VarId} :
    v ∈ queryVars p context ↔ ∃ c ∈ p.constraints, v ∈ (context.applyTo c).vars := by
  rw [queryVars, FirstSeen.mem_ofList, List.flatMap_map, List.mem_flatMap]

/-- A query mentions no variable that its search invents. -/
theorem lt_seed_of_mem_queryVars (q : Search) {p : Param} {context : Subst} {v : VarId}
    (h : v ∈ queryVars p context) : v < q.seed p context := by
  obtain ⟨c, hc, hv⟩ := mem_queryVars.1 h
  apply lt_reserve
  rcases Subst.mem_vars_applyTo hv with hv | hv
  · have hvars : v ∈ p.vars := List.mem_cons_of_mem _ (List.mem_flatMap.2 ⟨c, hc, hv⟩)
    simp [hvars]
  · simp [hv]

/-- Behind a resolution stands a search that only added bindings to the context. -/
theorem resolveWith_found {q : Search} {p : Param} {context : Subst} {r : Resolution}
    (hc : context.Acyclic) (h : q.resolveWith p context = .ok r) :
    ∃ found, Subst.Grows q.frozen (fun _ => True) context found ∧
      r.subst = q.learn found (queryVars p context) context := by
  unfold resolveWith at h
  split at h
  · cases h
  · rename_i solved hsolved
    injection h with h
    subst h
    have hgrow : Subst.Grows q.frozen (fun _ => True) context solved.subst :=
      solve_grows (roomy_true q (q.seed p context)) _ _ _ solved (Nat.le_refl _) hc
        (fun _ _ => trivial) (fun _ _ _ _ => trivial) hsolved
    exact ⟨solved.subst, hgrow, rfl⟩

/-- A resolution only adds bindings to the context, none of them for a frozen variable. -/
theorem resolveWith_grows {q : Search} {p : Param} {context : Subst} {r : Resolution}
    (hc : context.Acyclic) (h : q.resolveWith p context = .ok r) :
    Subst.Grows q.frozen (fun _ => True) context r.subst := by
  obtain ⟨found, hgrow, hr⟩ := resolveWith_found hc h
  have hfree := free_of_mem_queryVars (p := p) hc
  have hnodup : (queryVars p context).Nodup := FirstSeen.nodup_ofList _
  constructor
  · refine ⟨_, hr ▸ learn_entries hnodup hfree, ?_⟩
    intro e he
    obtain ⟨v, hv, rfl⟩ := List.mem_map.1 he
    exact ⟨(mem_determined.1 hv).2.1, trivial, fun _ _ => trivial⟩
  · rw [hr]
    exact learn_acyclic hgrow.acyclic hgrow.isExtension hfree hc

/-- A resolution hands back a substitution that the next one may start from. -/
theorem resolveWith_acyclic {q : Search} {p : Param} {context : Subst} {r : Resolution}
    (hc : context.Acyclic) (h : q.resolveWith p context = .ok r) :
    r.subst.Acyclic ∧ context.entries <+: r.subst.entries :=
  ⟨(resolveWith_grows hc h).acyclic, (resolveWith_grows hc h).isPrefix⟩

/-- **A resolution learns about its query and about nothing else.**  The substitution that it returns is
    without cycles.  It consists of the context, unchanged and in order, and of new entries.  Each new
    key is a variable of the constraints under the context, which is not frozen, was not bound and was
    not invented by the search; no new value mentions a variable that is bound. -/
theorem resolveWith_learns {q : Search} {p : Param} {context : Subst} {r : Resolution}
    (hc : context.Acyclic) (h : q.resolveWith p context = .ok r) :
    r.subst.Acyclic ∧ ∃ learned, r.subst.entries = context.entries ++ learned ∧
      ∀ e ∈ learned,
        (∃ c ∈ p.constraints, e.1 ∈ (context.applyTo c).vars) ∧
        e.1 ∉ q.frozen ∧ context.find? e.1 = none ∧ e.1 < q.seed p context ∧
        ∀ w ∈ e.2.vars, r.subst.find? w = none := by
  obtain ⟨found, hgrow, hr⟩ := resolveWith_found hc h
  have hfree := free_of_mem_queryVars (p := p) hc
  have hnodup : (queryVars p context).Nodup := FirstSeen.nodup_ofList _
  refine ⟨(resolveWith_acyclic hc h).1, _, hr ▸ learn_entries hnodup hfree, ?_⟩
  intro e he
  obtain ⟨v, hv, rfl⟩ := List.mem_map.1 he
  obtain ⟨hquery, hfrozen, _⟩ := mem_determined.1 hv
  refine ⟨mem_queryVars.1 hquery, hfrozen, hfree v hquery, lt_seed_of_mem_queryVars q hquery, ?_⟩
  intro w hw
  rw [hr]
  exact learn_free hgrow.isExtension (hgrow.acyclic.not_bound_of_mem_apply hw)

/-! ## Learning under a context -/

/-- The query for `Ord` of `?30`, asked where `?30` is known to be a list of `?21`. -/
def aliasQuery : Param := ⟨31, "W", .witness [⟨"Ord", [.var 30 none]⟩]⟩

/-- The context of `aliasQuery`. -/
def aliasContext : Subst := OrderedMap.empty.insert 30 (Ty.con "List" [.var 21 none])

/-- What is learned there is that `?21` is `Int`, although `OrdList` and `OrdInt` were both used at
    variables of their own. -/
theorem resolveWith_learns_alias : ∃ (q : Search) (r : Resolution),
    q.resolveWith aliasQuery aliasContext = .ok r ∧ r.witness.text = "OrdList<Int, OrdInt>" ∧
    r.subst.text = "\x7b?30 := List<?21>, ?21 := Int\x7d" ∧ r.subst.Acyclic ∧
    ∃ learned, r.subst.entries = aliasContext.entries ++ learned ∧
      ∀ e ∈ learned, e.1 ∉ q.frozen ∧ e.1 < q.seed aliasQuery aliasContext := by
  have h : okAnd ordering (fun cat => okAnd (cat.searchAt .default Catalog.root) fun q =>
      okAnd (q.resolveWith aliasQuery aliasContext) fun r =>
        decide (r.witness.text = "OrdList<Int, OrdInt>" ∧
          r.subst.text = "\x7b?30 := List<?21>, ?21 := Int\x7d")) = true := by decide +kernel
  obtain ⟨_, _, h⟩ := okAnd_eq_true h
  obtain ⟨q, _, h⟩ := okAnd_eq_true h
  obtain ⟨r, hr, h⟩ := okAnd_eq_true h
  obtain ⟨hwitness, hsubst⟩ := of_decide_eq_true h
  have hcontext : aliasContext.Acyclic :=
    Subst.acyclic_empty.insert rfl (fun _ _ => rfl) (by decide)
  obtain ⟨hacyclic, learned, hentries, hlearned⟩ := resolveWith_learns hcontext hr
  refine ⟨q, r, hr, hwitness, hsubst, hacyclic, learned, hentries, ?_⟩
  intro e he
  obtain ⟨_, hfrozen, _, hseed, _⟩ := hlearned e he
  exact ⟨hfrozen, hseed⟩

end InstanceSearch.Search
