/-
  The variables that a call invents.

  Every parameter of a call is resolved by a search with a counter of its own.  The counter starts above
  the catalog, the frozen variables, the parameter, and what is known by then.  It does not start above
  the other parameters of the signature, nor above the variables that stand open in earlier witnesses.

  THE STATEMENT (`infer_fresh`)
    What a resolution invents is new to everything that its counter sees, so to every binding learned
    before; and it is new to the whole signature if the catalog has reserved the signature's variables.

  WITHOUT THE RESERVATION (`not_always_fresh`)
    A variable that the first parameter invents may be one that the second parameter asks about.  What is
    learned about the second then changes what was learned about the first, and a third parameter, which
    only asks about the first, fails.
-/
import InstanceSearch.CallSite.Infer
import InstanceSearch.Proofs.Search.Finality
import InstanceSearch.Proofs.Search.Learning

namespace InstanceSearch

/-! ## What is known along a call -/

/-- `known fixed outcomes` = what is known after the outcomes: the substitution of the last success. -/
def known (fixed : Subst) : List Outcome → Subst
  | [] => fixed
  | o :: os =>
    match o.result with
    | .ok r => known r.subst os
    | .error _ => known fixed os

namespace Search

/-- A call goes on from what is known as a call of its own. -/
theorem exists_resolveAll_of_append {q : Search} {ps : List Param} {fixed : Subst}
    {before after : List Outcome} (h : (q.resolveAll ps fixed).1 = before ++ after) :
    ∃ rest, rest <:+ ps ∧ (q.resolveAll rest (known fixed before)).1 = after := by
  induction before generalizing ps fixed with
  | nil => exact ⟨ps, List.suffix_refl ps, h⟩
  | cons o before ih =>
    cases ps with
    | nil => cases h
    | cons p ps =>
      rw [resolveAll] at h
      injection h with ho hrest
      subst ho
      obtain ⟨rest, hsuffix, hafter⟩ := ih hrest
      refine ⟨rest, hsuffix.trans (List.suffix_cons p ps), ?_⟩
      cases hr : q.resolveWith p fixed with
      | error e =>
        rw [hr] at hafter
        exact hafter
      | ok r =>
        rw [hr] at hafter
        exact hafter

/-- Each outcome of a call is that of a parameter under what is known by then. -/
theorem outcome_of_resolveAll {q : Search} {ps : List Param} {fixed : Subst}
    {before after : List Outcome} {o : Outcome} (h : (q.resolveAll ps fixed).1 = before ++ o :: after) :
    o.param ∈ ps ∧ o.result = q.resolveWith o.param (known fixed before) := by
  obtain ⟨rest, hsuffix, hrest⟩ := exists_resolveAll_of_append h
  cases rest with
  | nil => cases hrest
  | cons p rest =>
    rw [resolveAll] at hrest
    injection hrest with ho _
    subst ho
    exact ⟨hsuffix.subset (List.mem_cons_self ..), rfl⟩

/-- **What is known only grows**, and stays without cycles. -/
theorem known_grows {q : Search} {ps : List Param} {fixed : Subst} (hfixed : fixed.Acyclic)
    {before after : List Outcome} (h : (q.resolveAll ps fixed).1 = before ++ after) :
    (known fixed before).Acyclic ∧ fixed.entries <+: (known fixed before).entries := by
  induction before generalizing ps fixed with
  | nil => exact ⟨hfixed, List.prefix_refl _⟩
  | cons o before ih =>
    cases ps with
    | nil => cases h
    | cons p ps =>
      rw [resolveAll] at h
      injection h with ho hrest
      subst ho
      rw [known]
      cases hr : q.resolveWith p fixed with
      | error e =>
        rw [hr] at hrest
        exact ih hfixed hrest
      | ok r =>
        rw [hr] at hrest
        obtain ⟨hacyclic, hprefix⟩ := resolveWith_acyclic hfixed hr
        obtain ⟨hacyclic', hprefix'⟩ := ih hacyclic hrest
        exact ⟨hacyclic', hprefix.trans hprefix'⟩

/-- What an earlier outcome learned is known later. -/
theorem prefix_known {q : Search} {ps : List Param} {fixed : Subst} (hfixed : fixed.Acyclic)
    {before after : List Outcome} (h : (q.resolveAll ps fixed).1 = before ++ after) {o : Outcome}
    (ho : o ∈ before) {r : Resolution} (hr : o.result = .ok r) :
    r.subst.entries <+: (known fixed before).entries := by
  induction before generalizing ps fixed with
  | nil => cases ho
  | cons o' before ih =>
    cases ps with
    | nil => cases h
    | cons p ps =>
      rw [resolveAll] at h
      injection h with ho' hrest
      subst ho'
      rw [known]
      cases hp : q.resolveWith p fixed with
      | error e =>
        rw [hp] at hrest ho
        rcases List.mem_cons.1 ho with rfl | ho
        · cases hr
        · exact ih hfixed hrest ho
      | ok r' =>
        rw [hp] at hrest ho
        have hacyclic := (resolveWith_acyclic hfixed hp).1
        rcases List.mem_cons.1 ho with rfl | ho
        · injection hr with hr
          subst hr
          exact (known_grows hacyclic hrest).2
        · exact ih hacyclic hrest ho

/-! ## What is invented -/

/-- `q.Invented p context r v`: the resolution `r` of `p` under `context` shows a variable of the
    search's own, in an argument of its witness or in what it learned. -/
def Invented (q : Search) (p : Param) (context : Subst) (r : Resolution) (v : VarId) : Prop :=
  q.seed p context ≤ v ∧ (v ∈ r.witness.openVars ∨ v ∈ r.subst.vars)

instance (q : Search) (p : Param) (context : Subst) (r : Resolution) (v : VarId) :
    Decidable (q.Invented p context r v) :=
  inferInstanceAs (Decidable (_ ∧ _))

/-- What a search invents is new to all that its counter sees. -/
theorem Invented.new {q : Search} {p : Param} {context : Subst} {r : Resolution} {v : VarId}
    (h : q.Invented p context r v) :
    q.catalog.nextVar ≤ v ∧ v ∉ p.vars ∧ v ∉ context.vars ∧ v ∉ q.frozen := by
  have hseen : ∀ w ∈ p.vars ++ context.vars ++ q.frozen.ids, w < v :=
    fun w hw => Nat.lt_of_lt_of_le (lt_reserve hw) h.1
  refine ⟨Nat.le_trans (le_reserve _ _) h.1, ?_, ?_, ?_⟩
  · exact fun hv => Nat.lt_irrefl v (hseen v (by simp [hv]))
  · exact fun hv => Nat.lt_irrefl v (hseen v (by simp [hv]))
  · exact fun hv => Nat.lt_irrefl v (hseen v (by simp [VarSet.mem_def.1 hv]))

end Search

/-- A longer substitution mentions more variables. -/
theorem Subst.vars_subset_of_prefix {s s' : Subst} (h : s.entries <+: s'.entries) :
    ∀ v ∈ s.vars, v ∈ s'.vars := by
  intro v hv
  obtain ⟨e, he, hv⟩ := List.mem_flatMap.1 hv
  exact List.mem_flatMap.2 ⟨e, h.subset he, hv⟩

namespace Catalog

/-- A call has a report exactly if every parameter that is not fixed is a witness parameter and its site
    was declared; the report is that of the unfixed parameters, for the search of the site. -/
theorem infer_eq_ok_iff {cat : Catalog} {config : Config} {signature : List Param} {fixed : Subst}
    {scope : ScopeId} {report : Report} : cat.infer config signature fixed scope = .ok report ↔
      (∀ p ∈ unfixed signature fixed, p.isWitness = true) ∧
      ∃ q, cat.searchAt config scope = .ok q ∧
        report = ⟨(q.resolveAll (unfixed signature fixed) fixed).1,
          (q.resolveAll (unfixed signature fixed) fixed).2⟩ := by
  have hfind : ((unfixed signature fixed).find? fun p => !p.isWitness) = none ↔
      ∀ p ∈ unfixed signature fixed, p.isWitness = true := by
    simp [List.find?_eq_none]
  rw [← hfind]
  unfold infer
  split
  · rename_i p hp
    rw [hp]
    exact ⟨fun h => (nomatch h), fun h => (nomatch h.1)⟩
  · rename_i hnone
    rw [hnone]
    split
    · rename_i e he
      exact ⟨fun h => (nomatch h), fun ⟨_, q, hq, _⟩ => (nomatch he.symm.trans hq)⟩
    · rename_i q hq
      constructor
      · intro h
        injection h with h
        exact ⟨rfl, q, hq, h.symm⟩
      · rintro ⟨_, q', hq', rfl⟩
        injection hq.symm.trans hq' with hq'
        rw [hq']

/-- The outcomes of a call are those of its unfixed parameters, for the search of its site. -/
theorem infer_ok {cat : Catalog} {config : Config} {signature : List Param} {fixed : Subst}
    {scope : ScopeId} {report : Report} (h : cat.infer config signature fixed scope = .ok report) :
    ∃ q, cat.searchAt config scope = .ok q ∧
      report.outcomes = (q.resolveAll (unfixed signature fixed) fixed).1 := by
  obtain ⟨_, q, hq, rfl⟩ := infer_eq_ok_iff.1 h
  exact ⟨q, hq, rfl⟩

/-- **What one parameter of a call invents.**  It is above everything that the catalog mentions; it is
    not frozen, not fixed by the call, not part of the parameter, and not part of anything that an
    earlier parameter taught.  If the catalog has reserved the variables of the signature, it is not part
    of any of its parameters, before or after. -/
theorem infer_fresh {cat : Catalog} {config : Config} {signature : List Param} {fixed : Subst}
    {scope : ScopeId} {q : Search} {report : Report} (hfixed : fixed.Acyclic)
    (hq : cat.searchAt config scope = .ok q)
    (h : cat.infer config signature fixed scope = .ok report)
    {before after : List Outcome} {p : Param} {r : Resolution}
    (hsplit : report.outcomes = before ++ ⟨p, .ok r⟩ :: after) :
    q.resolveWith p (known fixed before) = .ok r ∧
    ∀ v, q.Invented p (known fixed before) r v →
      cat.nextVar ≤ v ∧ v ∉ q.frozen ∧ v ∉ fixed.vars ∧ v ∉ p.vars ∧
      (∀ o ∈ before, ∀ r', o.result = .ok r' → v ∉ r'.subst.vars) ∧
      ((∀ a ∈ signature, ∀ w ∈ a.vars, w < cat.nextVar) → ∀ a ∈ signature, v ∉ a.vars) := by
  obtain ⟨q', hq', houtcomes⟩ := infer_ok h
  rw [hq] at hq'
  injection hq' with hq'
  subst hq'
  rw [hsplit] at houtcomes
  have hresult := (Search.outcome_of_resolveAll houtcomes.symm).2
  refine ⟨hresult.symm, ?_⟩
  intro v hv
  obtain ⟨hcatalog, hp, hknown, hfrozen⟩ := hv.new
  rw [(searchAt_ok hq).1] at hcatalog
  refine ⟨hcatalog, hfrozen, ?_, hp, ?_, ?_⟩
  · have hprefix := (Search.known_grows hfixed houtcomes.symm).2
    exact fun hm => hknown (Subst.vars_subset_of_prefix hprefix v hm)
  · intro o ho r' hr' hm
    have hprefix := Search.prefix_known hfixed houtcomes.symm ho hr'
    exact hknown (Subst.vars_subset_of_prefix hprefix v hm)
  · intro hreserved a ha hm
    exact Nat.lt_irrefl v (Nat.lt_of_lt_of_le (hreserved a ha v hm) hcatalog)

/-! ## A signature with three parameters -/

/-- Concepts `C`, `D` and `E`; `I<X>` provides `C` for lists of `X`, `J` provides `D` for `Int`, and `L`
    provides `E` for lists of `Bool`. -/
def lists : Except DeclError Catalog := do
  let listOf := fun t : Ty => Ty.con "List" [t]
  let cat ← Catalog.empty.declareConcept ⟨"C", [⟨0, "T", .ordinary⟩], [], []⟩
  let cat ← cat.declareConcept ⟨"D", [⟨2, "T", .ordinary⟩], [], []⟩
  let cat ← cat.declareConcept ⟨"E", [⟨4, "T", .ordinary⟩], [], []⟩
  let (_, cat) ← cat.declareInstance Catalog.root ⟨"I", [⟨30, "X", .ordinary⟩],
    [⟨"C", [listOf (.var 30 (some "X"))]⟩], false, false, none, []⟩
  let (_, cat) ← cat.declareInstance Catalog.root ⟨"J", [],
    [⟨"D", [Ty.con "Int" []]⟩], false, false, none, []⟩
  let (_, cat) ← cat.declareInstance Catalog.root ⟨"L", [],
    [⟨"E", [listOf (Ty.con "Bool" [])]⟩], false, false, none, []⟩
  return cat

/-- The first parameter asks for `C` and the third for `E` of one variable; the second asks for `D` of
    another one.  The variables of the signature are those from `n` to `n + 4`. -/
def listSignature (n : VarId) : List Param :=
  [⟨n, "W1", .witness [⟨"C", [.var (n + 1) none]⟩]⟩,
    ⟨n + 3, "W2", .witness [⟨"D", [.var (n + 2) none]⟩]⟩,
    ⟨n + 4, "W3", .witness [⟨"E", [.var (n + 1) none]⟩]⟩]

/-- `resolvedAnd os P`: the first outcome is a resolution, which passes the test `P` with the outcomes
    after it. -/
def resolvedAnd (os : List Outcome) (P : Param → Resolution → List Outcome → Bool) : Bool :=
  match os with
  | [] => false
  | o :: rest => okAnd o.result fun r => P o.param r rest

theorem resolvedAnd_eq_true {os : List Outcome} {P : Param → Resolution → List Outcome → Bool}
    (h : resolvedAnd os P = true) : ∃ p r rest, os = ⟨p, .ok r⟩ :: rest ∧ P p r rest = true := by
  cases os with
  | nil => cases h
  | cons o rest =>
    obtain ⟨r, hr, h⟩ := okAnd_eq_true h
    exact ⟨o.param, r, rest, by rw [← hr], h⟩

/-- With the signature's variables reserved, the first parameter invents `?31`, which no parameter
    mentions, and all three are resolved. -/
theorem infer_fresh_lists : ∃ (cat : Catalog) (q : Search) (report : Report) (p : Param)
    (r : Resolution) (rest : List Outcome), cat.searchAt .default Catalog.root = .ok q ∧
    cat.infer .default (listSignature 20) .empty Catalog.root = .ok report ∧
    report.outcomes = ⟨p, .ok r⟩ :: rest ∧ report.allResolved = true ∧
    q.Invented p .empty r 31 ∧ ∀ a ∈ listSignature 20, 31 ∉ a.vars := by
  have h : okAnd lists (fun cat => okAnd (cat.searchAt .default Catalog.root) fun q =>
      okAnd (cat.infer .default (listSignature 20) .empty Catalog.root) fun report =>
        resolvedAnd report.outcomes fun p r _ =>
          decide (report.allResolved = true ∧ q.Invented p .empty r 31 ∧
            ∀ a ∈ listSignature 20, ∀ w ∈ a.vars, w < cat.nextVar)) = true := by decide +kernel
  obtain ⟨cat, _, h⟩ := okAnd_eq_true h
  obtain ⟨q, hq, h⟩ := okAnd_eq_true h
  obtain ⟨report, hreport, h⟩ := okAnd_eq_true h
  obtain ⟨p, r, rest, houtcomes, h⟩ := resolvedAnd_eq_true h
  obtain ⟨hall, hinvented, hreserved⟩ := of_decide_eq_true h
  have hfirst : report.outcomes = [] ++ ⟨p, .ok r⟩ :: rest := houtcomes
  obtain ⟨_, hfresh⟩ := infer_fresh Subst.acyclic_empty hq hreport hfirst
  obtain ⟨_, _, _, _, _, hsignature⟩ := hfresh 31 hinvented
  exact ⟨cat, q, report, p, r, rest, hq, hreport, houtcomes, hall, hinvented, hsignature hreserved⟩

/-- Without, the first parameter invents `?42`, which the second one asks about; it is then known to be
    `Int`, and the third parameter, for which the first left lists of anything, finds no instance. -/
theorem lists_captured : ∃ (cat : Catalog) (q : Search) (report : Report) (p p' : Param)
    (r r' : Resolution) (o : Outcome) (rest : List Outcome),
    cat.searchAt .default Catalog.root = .ok q ∧
    cat.infer .default (listSignature 40) .empty Catalog.root = .ok report ∧
    report.outcomes = ⟨p, .ok r⟩ :: ⟨p', .ok r'⟩ :: o :: rest ∧
    q.Invented p .empty r 42 ∧ 42 ∈ p'.vars ∧ o.result.isOk = false := by
  have h : okAnd lists (fun cat => okAnd (cat.searchAt .default Catalog.root) fun q =>
      okAnd (cat.infer .default (listSignature 40) .empty Catalog.root) fun report =>
        resolvedAnd report.outcomes fun p r rest => resolvedAnd rest fun p' _ rest =>
          decide (q.Invented p .empty r 42 ∧ 42 ∈ p'.vars) &&
            rest.head?.any fun o => !o.result.isOk) = true := by decide +kernel
  obtain ⟨cat, _, h⟩ := okAnd_eq_true h
  obtain ⟨q, hq, h⟩ := okAnd_eq_true h
  obtain ⟨report, hreport, h⟩ := okAnd_eq_true h
  obtain ⟨p, r, others, houtcomes, h⟩ := resolvedAnd_eq_true h
  obtain ⟨p', r', others', hothers, h⟩ := resolvedAnd_eq_true h
  rw [Bool.and_eq_true, Option.any_eq_true] at h
  obtain ⟨hdecide, o, hfirst, hfails⟩ := h
  obtain ⟨rest, hrest⟩ := List.head?_eq_some_iff.1 hfirst
  obtain ⟨hinvented, hmem⟩ := of_decide_eq_true hdecide
  rw [hothers, hrest] at houtcomes
  rw [Bool.not_eq_true'] at hfails
  exact ⟨cat, q, report, p, p', r, r', o, rest, hq, hreport, houtcomes, hinvented, hmem, hfails⟩

/-- So what a parameter invents may be part of a later one. -/
theorem not_always_fresh : ¬ ∀ (cat : Catalog) (config : Config) (signature : List Param)
    (fixed : Subst) (scope : ScopeId) (q : Search) (report : Report) (before after : List Outcome)
    (p : Param) (r : Resolution) (o : Outcome), fixed.Acyclic → cat.searchAt config scope = .ok q →
    cat.infer config signature fixed scope = .ok report →
    report.outcomes = before ++ ⟨p, .ok r⟩ :: after → o ∈ after →
    ∀ v, q.Invented p (known fixed before) r v → v ∉ o.param.vars := by
  intro hall
  obtain ⟨cat, q, report, p, p', r, r', o, rest, hq, hreport, houtcomes, hinvented, hmem, _⟩ :=
    lists_captured
  exact hall cat _ _ _ _ q report [] _ p r ⟨p', .ok r'⟩ Subst.acyclic_empty hq hreport houtcomes
    (by simp) 42 hinvented hmem

end Catalog

end InstanceSearch
