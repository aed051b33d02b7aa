/-
  Failures at a call are local.

  The parameters of a call are resolved one after the other, and what is learned about one is known to
  the next.  A parameter that fails teaches nothing: the one after it starts from what was known before.

  THE STATEMENT (`infer_failures_local`)
    A call without the parameters that failed has the outcomes of the others, in order, and the same
    substitution at its end.  That substitution consists of the fixed arguments, unchanged and in order,
    and of bindings for variables that are not frozen; it has no cycle, and the substitution of every
    resolution of the call is a part of it, from the beginning on.

  THE CRUX (`resolveAll_resolved`)
    Two runs side by side, one with all parameters and one with those that were resolved, know the same
    at every parameter that both of them meet.  So both make the same search for it, and the variables
    that the two searches invent are the same as well.
-/
import InstanceSearch.Proofs.CallSite.Fresh

namespace InstanceSearch

/-- The outcomes that are resolutions. -/
def Report.resolved (r : Report) : List Outcome := r.outcomes.filter fun o => o.result.isOk

/-- `withoutFailed fixed signature outcomes` = the signature without the parameters that failed, if the
    outcomes are those of its unfixed parameters.  Parameters go by their place, not by their name: of
    one that stands twice, only the occurrence that failed is left out. -/
def withoutFailed (fixed : Subst) : List Param → List Outcome → List Param
  | [], _ => []
  | p :: ps, os =>
    if fixed.contains p.id then p :: withoutFailed fixed ps os
    else if os.head?.any fun o => o.result.isOk then p :: withoutFailed fixed ps os.tail
    else withoutFailed fixed ps os.tail

/-- The unfixed parameters that are left are those of the resolutions. -/
theorem unfixed_withoutFailed {fixed : Subst} {signature : List Param} {outcomes : List Outcome}
    (h : outcomes.map Outcome.param = Catalog.unfixed signature fixed) :
    Catalog.unfixed (withoutFailed fixed signature outcomes) fixed =
      (outcomes.filter fun o => o.result.isOk).map Outcome.param := by
  induction signature generalizing outcomes with
  | nil =>
    rw [List.map_eq_nil_iff.1 h]
    rfl
  | cons p ps ih =>
    rw [withoutFailed]
    by_cases hfixed : fixed.contains p.id = true
    · have hskip : ∀ qs : List Param, Catalog.unfixed (p :: qs) fixed = Catalog.unfixed qs fixed := by
        intro qs
        rw [Catalog.unfixed, List.filter_cons_of_neg (by simp [hfixed])]
        rfl
      rw [if_pos hfixed, hskip]
      exact ih (by rw [h, hskip])
    · have hmeet : ∀ qs : List Param,
          Catalog.unfixed (p :: qs) fixed = p :: Catalog.unfixed qs fixed := by
        intro qs
        rw [Catalog.unfixed, List.filter_cons_of_pos (by rw [Bool.not_eq_true] at hfixed; rw [hfixed]; rfl)]
        rfl
      rw [hmeet] at h
      rw [if_neg hfixed]
      cases outcomes with
      | nil => cases h
      | cons o os =>
        rw [List.map_cons, List.cons.injEq] at h
        rw [List.head?_cons, Option.any_some, List.tail_cons]
        by_cases hok : o.result.isOk = true
        · rw [if_pos hok, hmeet, ih h.2, List.filter_cons, if_pos hok, List.map_cons, h.1]
        · rw [if_neg hok, ih h.2, List.filter_cons, if_neg hok]

namespace Search

variable {q : Search} {ps : List Param} {fixed : Subst}

/-- Each parameter has its outcome. -/
theorem map_param_resolveAll (q : Search) (ps : List Param) (fixed : Subst) :
    (q.resolveAll ps fixed).1.map Outcome.param = ps := by
  induction ps generalizing fixed with
  | nil => rfl
  | cons p ps ih =>
    rw [resolveAll]
    exact congrArg (p :: ·) (ih _)

/-- What a call ends with is what is known after all of its outcomes. -/
theorem known_resolveAll (q : Search) (ps : List Param) (fixed : Subst) :
    known fixed (q.resolveAll ps fixed).1 = (q.resolveAll ps fixed).2 := by
  induction ps generalizing fixed with
  | nil => rfl
  | cons p ps ih =>
    rw [resolveAll, known]
    cases q.resolveWith p fixed with
    | error e => exact ih fixed
    | ok r => exact ih r.subst

/-- **Failures can be left out**: the run over the parameters that were resolved has their outcomes and
    ends with the same substitution. -/
theorem resolveAll_resolved (q : Search) (ps : List Param) (fixed : Subst) :
    q.resolveAll (((q.resolveAll ps fixed).1.filter fun o => o.result.isOk).map Outcome.param) fixed =
      ((q.resolveAll ps fixed).1.filter fun o => o.result.isOk, (q.resolveAll ps fixed).2) := by
  induction ps generalizing fixed with
  | nil => rfl
  | cons p ps ih =>
    rw [resolveAll]
    cases hp : q.resolveWith p fixed with
    | error e =>
      -- the second run does not meet this parameter, and the first one learned nothing from it
      rw [List.filter_cons_of_neg (by simp [Except.isOk, Except.toBool])]
      exact ih fixed
    | ok r =>
      rw [List.filter_cons_of_pos rfl, List.map_cons, resolveAll, hp]
      dsimp only
      rw [ih r.subst]

/-- **A call only adds bindings to what is fixed**, none of them for a frozen variable. -/
theorem resolveAll_grows (hfixed : fixed.Acyclic) :
    Subst.Grows q.frozen (fun _ => True) fixed (q.resolveAll ps fixed).2 := by
  induction ps generalizing fixed with
  | nil => exact .refl hfixed
  | cons p ps ih =>
    rw [resolveAll]
    cases hp : q.resolveWith p fixed with
    | error e => exact ih hfixed
    | ok r =>
      have hstep := resolveWith_grows hfixed hp
      exact hstep.trans (ih hstep.acyclic)

/-- What a resolution of a call learned is still there at its end. -/
theorem prefix_resolveAll (hfixed : fixed.Acyclic) {o : Outcome} (ho : o ∈ (q.resolveAll ps fixed).1)
    {r : Resolution} (hr : o.result = .ok r) :
    r.subst.entries <+: (q.resolveAll ps fixed).2.entries := by
  have h := prefix_known hfixed (List.append_nil (q.resolveAll ps fixed).1).symm ho hr
  rwa [known_resolveAll] at h

end Search

namespace Catalog

/-- **Failures at a call are local, and fixed arguments are kept.**  The outcomes of a call are those of
    its unfixed parameters, in order.  The call without the parameters that failed has the other outcomes
    and the same substitution.  The substitution is acyclic and consists of what was fixed and of
    bindings for variables that are not frozen at the site; each resolution's own substitution is the
    beginning of it. -/
theorem infer_failures_local {cat : Catalog} {config : Config} {signature : List Param} {fixed : Subst}
    {scope : ScopeId} {report : Report} (hfixed : fixed.Acyclic)
    (h : cat.infer config signature fixed scope = .ok report) :
    report.outcomes.map Outcome.param = unfixed signature fixed ∧
    cat.infer config (withoutFailed fixed signature report.outcomes) fixed scope =
      .ok ⟨report.resolved, report.subst⟩ ∧
    report.subst.Acyclic ∧
    (∃ frozen learned, cat.frozenAt scope = .ok frozen ∧
      report.subst.entries = fixed.entries ++ learned ∧ ∀ e ∈ learned, e.1 ∉ frozen) ∧
    ∀ o ∈ report.outcomes, ∀ r, o.result = .ok r → r.subst.entries <+: report.subst.entries := by
  obtain ⟨hwitness, q, hq, rfl⟩ := infer_eq_ok_iff.1 h
  have hparams := q.map_param_resolveAll (unfixed signature fixed) fixed
  have hgrow : Subst.Grows q.frozen (fun _ => True) fixed
      (q.resolveAll (unfixed signature fixed) fixed).2 := Search.resolveAll_grows hfixed
  refine ⟨hparams, ?_, hgrow.acyclic, ?_, fun o ho r hr => Search.prefix_resolveAll hfixed ho hr⟩
  · rw [infer_eq_ok_iff, unfixed_withoutFailed hparams]
    refine ⟨?_, q, hq, by rw [q.resolveAll_resolved]; rfl⟩
    intro p hp
    obtain ⟨o, ho, rfl⟩ := List.mem_map.1 hp
    exact hwitness _ (hparams ▸ List.mem_map_of_mem (List.mem_filter.1 ho).1)
  · obtain ⟨learned, hentries, hlearned⟩ := hgrow.entries
    exact ⟨q.frozen, learned, searchAt_frozen hq, hentries, fun e he => (hlearned e he).1⟩

/-- A signature whose third parameter asks for `D` of `Bool`, which nothing provides; the first one is
    ordinary, and the last one asks about the variable of the second. -/
def faultySignature : List Param :=
  [⟨20, "F", .ordinary⟩,
    ⟨21, "W1", .witness [⟨"C", [.var 22 none]⟩]⟩,
    ⟨23, "W2", .witness [⟨"D", [Ty.con "Bool" []]⟩]⟩,
    ⟨24, "W3", .witness [⟨"E", [.var 22 none]⟩]⟩]

/-- The call that fixes the ordinary parameter of `faultySignature`. -/
def faultyArguments : Subst := OrderedMap.empty.insert 20 (Ty.con "Int" [])

/-- The first witness parameter is found for lists of a new variable, `?31`, which is shown as `X`; the last
    one learns that this is `Bool`.  Both do so as well where the one between them is left out. -/
theorem infer_failures_local_lists : ∃ (cat : Catalog) (report : Report),
    cat.infer .default faultySignature faultyArguments Catalog.root = .ok report ∧
    report.outcomes.map (fun o => o.result.isOk) = [true, false, true] ∧
    report.subst.text = "\x7b?20 := Int, ?22 := List<X>, ?31 := Bool\x7d" ∧
    (withoutFailed faultyArguments faultySignature report.outcomes).map Param.name = ["F", "W1", "W3"] ∧
    cat.infer .default (withoutFailed faultyArguments faultySignature report.outcomes) faultyArguments
      Catalog.root = .ok ⟨report.resolved, report.subst⟩ := by
  have h : okAnd lists (fun cat =>
      okAnd (cat.infer .default faultySignature faultyArguments Catalog.root) fun report =>
        decide (report.outcomes.map (fun o => o.result.isOk) = [true, false, true] ∧
          report.subst.text = "\x7b?20 := Int, ?22 := List<X>, ?31 := Bool\x7d" ∧
          (withoutFailed faultyArguments faultySignature report.outcomes).map Param.name =
            ["F", "W1", "W3"])) = true := by decide +kernel
  obtain ⟨cat, _, h⟩ := okAnd_eq_true h
  obtain ⟨report, hreport, h⟩ := okAnd_eq_true h
  obtain ⟨hresults, htext, hnames⟩ := of_decide_eq_true h
  have hfixed : faultyArguments.Acyclic :=
    Subst.acyclic_empty.insert rfl (fun _ _ => rfl) (by decide)
  obtain ⟨_, hagain, _⟩ := infer_failures_local hfixed hreport
  exact ⟨cat, report, hreport, hresults, htext, hnames, hagain⟩

end Catalog

end InstanceSearch
