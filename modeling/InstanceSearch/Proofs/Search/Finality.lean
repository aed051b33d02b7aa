/-
  Which type arguments of a witness are final.

  THE QUESTION
    An instance gets its arguments when its own dependencies are solved.  Dependencies of its parent that
    come after it go on binding variables.  Is the witness, in the end, still what the final bindings say?

  THE ANSWER
    The arguments of the instance at the root always are.  Those of a nested one are exactly if no
    dependency solved after it binds a variable that its arguments left open: that the derivation is
    `Undisturbed` (`final_iff_undisturbed`).  `disturbed` is a registry in which this happens.

  THE DERIVATION
    A `Derivation` records, for each witness that was found on the way, the bindings at that moment and
    the witnesses that it was made from.  With those at hand the answer is an induction: an argument
    that is final now stays so as long as its variables are free (`final_iff_free`), and a variable is
    free at the end of a chain exactly if it is free after each of its dependencies (`Chain.free_iff`).
-/
import InstanceSearch.Proofs.Catalog.Declared
import InstanceSearch.Proofs.Search.Calls
import InstanceSearch.Proofs.Search.NewVars

namespace InstanceSearch

/-! ## The type arguments of a witness -/

mutual
/-- All type arguments of a witness, those of nested witnesses included, from left to right. -/
def Witness.typeArgs : Witness → List Ty
  | .ambient _ _ => []
  | .apply _ _ args => Argument.typeArgsAll args

def Argument.typeArgs : Argument → List Ty
  | .type t => [t]
  | .witness w => w.typeArgs

def Argument.typeArgsAll : List Argument → List Ty
  | [] => []
  | a :: as => a.typeArgs ++ Argument.typeArgsAll as
end

theorem Argument.mem_typeArgsAll {t : Ty} {as : List Argument} :
    t ∈ Argument.typeArgsAll as ↔ ∃ a ∈ as, t ∈ a.typeArgs := by
  induction as with
  | nil => simp [Argument.typeArgsAll]
  | cons a as ih => simp [Argument.typeArgsAll, ih]

namespace Witness

/-- The variables that a witness leaves open. -/
def openVars (w : Witness) : List VarId := w.typeArgs.flatMap Ty.vars

/-- `w.Final s`: the bindings `s` change no type argument of `w`, however deep it stands. -/
def Final (w : Witness) (s : Subst) : Prop := ∀ t ∈ w.typeArgs, s.apply t = t

instance (w : Witness) (s : Subst) : Decidable (w.Final s) :=
  inferInstanceAs (Decidable (∀ t ∈ w.typeArgs, s.apply t = t))

/-- **A witness is final exactly if every variable that it leaves open is free.** -/
theorem final_iff_free {w : Witness} {s : Subst} (hs : s.Acyclic) :
    w.Final s ↔ ∀ v ∈ w.openVars, s.find? v = none := by
  constructor
  · intro h v hv
    obtain ⟨t, ht, hvt⟩ := List.mem_flatMap.1 hv
    rw [← h t ht] at hvt
    exact hs.not_bound_of_mem_apply hvt
  · intro h t ht
    apply Subst.apply_of_free
    intro v hv
    exact h v (List.mem_flatMap.2 ⟨t, ht, hv⟩)

/-- A witness is final if its own type arguments and its nested witnesses are. -/
theorem final_iff {w : Witness} {s : Subst} : w.Final s ↔
    (∀ t, Argument.type t ∈ w.args → s.apply t = t) ∧ ∀ u ∈ w.nested, u.Final s := by
  cases w with
  | ambient v name => simp [Final, typeArgs, args, nested]
  | apply id name as =>
    simp only [Final, typeArgs, args, nested, Argument.mem_typeArgsAll, List.mem_filterMap]
    constructor
    · intro h
      constructor
      · intro t ht
        exact h t ⟨_, ht, by simp [Argument.typeArgs]⟩
      · rintro u ⟨a, ha, hu⟩ t ht
        cases a with
        | type t' => cases hu
        | witness u' =>
          injection hu with hu
          exact h t ⟨_, ha, by rw [Argument.typeArgs, hu]; exact ht⟩
    · rintro ⟨htypes, hnested⟩ t ⟨a, ha, ht⟩
      cases a with
      | type t' =>
        rw [Argument.typeArgs, List.mem_singleton] at ht
        rw [ht]
        exact htypes t' ha
      | witness u =>
        rw [Argument.typeArgs] at ht
        exact hnested u ⟨_, ha, rfl⟩ t ht

end Witness

namespace Search

/-! ## Free at the end of a chain -/

/-- A solver that only adds bindings. -/
def Grower (q : Search) (solver : Solver) : Prop :=
  ∀ (r : Request) (st : State) (found : Solved), r.context.Acyclic →
    (solver r st).1 = .ok found → Subst.Grows q.frozen (fun _ => True) r.context found.subst

theorem solve_grower (q : Search) (levels : Nat) : q.Grower (q.solve levels) := by
  intro r st found hr h
  exact solve_grows (q.roomy_true 0) levels r st found (Nat.zero_le _) hr (fun _ _ => trivial)
    (fun _ _ _ _ => trivial) h

section Chain

variable {q : Search} {solver : Solver} {ps : List Param} {s s' : Subst} {st st' : State}
  {found : List Solved}

/-- The first dependency of a chain starts from bindings without cycles and keeps them. -/
theorem Grower.first (hsolver : q.Grower solver) {p : Param} {f : Solved} (hs : s.Acyclic)
    (h : solver ⟨p.name, p.constraints, s⟩ st = (.ok f, st')) :
    f.subst.Acyclic ∧ f.subst.Extends s := by
  have hgrow := hsolver ⟨p.name, p.constraints, s⟩ st f hs (by rw [h])
  exact ⟨hgrow.acyclic, hgrow.isExtension⟩

/-- **A variable is free at the end of a chain exactly if it was free before and every dependency left
    it free.** -/
theorem Chain.free_iff (hsolver : q.Grower solver) (h : Chain solver ps s st found s' st')
    (hs : s.Acyclic) {v : VarId} :
    s'.find? v = none ↔ s.find? v = none ∧ ∀ f ∈ found, f.subst.find? v = none := by
  induction h with
  | nil => simp
  | cons first more ih =>
    rename_i s s' st st₁ st' f rest
    obtain ⟨hacyclic, hextends⟩ := hsolver.first hs first
    have hbefore : f.subst.find? v = none → s.find? v = none := by
      intro hf
      cases hv : s.find? v with
      | none => rfl
      | some t =>
        have hbound := hextends v t hv
        rw [hf] at hbound
        cases hbound
    rw [ih hacyclic, List.forall_mem_cons]
    exact ⟨fun h => ⟨hbefore h.1, h⟩, fun h => h.2⟩

theorem Chain.acyclic (hsolver : q.Grower solver) (h : Chain solver ps s st found s' st')
    (hs : s.Acyclic) : s'.Acyclic ∧ ∀ f ∈ found, f.subst.Acyclic := by
  induction h with
  | nil => exact ⟨hs, fun f hf => nomatch hf⟩
  | cons first more ih =>
    obtain ⟨hacyclic, _⟩ := hsolver.first hs first
    obtain ⟨hlast, hall⟩ := ih hacyclic
    exact ⟨hlast, List.forall_mem_cons.2 ⟨hacyclic, hall⟩⟩

/-- No dependency binds what an earlier one left open. -/
def LeftAlone (found : List Solved) : Prop :=
  found.Pairwise fun f g => ∀ v ∈ f.witness.openVars, g.subst.find? v = none

/-- **The witnesses of a chain are final at its end** exactly if each was final when it was found, and
    none was disturbed by a later one. -/
theorem Chain.final_iff (hsolver : q.Grower solver) (h : Chain solver ps s st found s' st')
    (hs : s.Acyclic) : (∀ f ∈ found, f.witness.Final s') ↔
      (∀ f ∈ found, f.witness.Final f.subst) ∧ LeftAlone found := by
  induction h with
  | nil => simp [LeftAlone]
  | cons first more ih =>
    rename_i s s' st st₁ st' f rest
    obtain ⟨hacyclic, _⟩ := hsolver.first hs first
    have hlast := (more.acyclic hsolver hacyclic).1
    -- the first witness is final at the end if its own bindings and all later ones leave it alone
    have hhead : f.witness.Final s' ↔ f.witness.Final f.subst ∧
        ∀ g ∈ rest, ∀ v ∈ f.witness.openVars, g.subst.find? v = none := by
      rw [Witness.final_iff_free hlast, Witness.final_iff_free hacyclic]
      constructor
      · intro hfree
        exact ⟨fun v hv => ((more.free_iff hsolver hacyclic).1 (hfree v hv)).1,
          fun g hg v hv => ((more.free_iff hsolver hacyclic).1 (hfree v hv)).2 g hg⟩
      · rintro ⟨hnow, hlater⟩ v hv
        exact (more.free_iff hsolver hacyclic).2 ⟨hnow v hv, fun g hg => hlater g hg v hv⟩
    rw [List.forall_mem_cons, List.forall_mem_cons, hhead, ih hacyclic, LeftAlone, LeftAlone,
      List.pairwise_cons]
    constructor
    · rintro ⟨⟨hf, hlater⟩, hrest, hpair⟩
      exact ⟨⟨hf, hrest⟩, hlater, hpair⟩
    · rintro ⟨⟨hf, hrest⟩, hlater, hpair⟩
      exact ⟨⟨hf, hlater⟩, hrest, hpair⟩

end Chain

/-! ## Derivations -/

/-- A solved goal, with the solved goals that its witness was made from. -/
inductive Derivation where
  | node (found : Solved) (deps : List Derivation)

namespace Derivation

def found : Derivation → Solved
  | node found _ => found

def deps : Derivation → List Derivation
  | node _ deps => deps

/-- `d.Undisturbed`: nowhere in it does a dependency bind a variable that the witness of an earlier
    dependency of the same instance left open. -/
inductive Undisturbed : Derivation → Prop where
  | node {found : Solved} {deps : List Derivation} (here : LeftAlone (deps.map Derivation.found))
      (below : ∀ d ∈ deps, Undisturbed d) : Undisturbed (node found deps)

theorem undisturbed_iff {d : Derivation} :
    d.Undisturbed ↔ LeftAlone (d.deps.map Derivation.found) ∧ ∀ e ∈ d.deps, e.Undisturbed := by
  constructor
  · rintro ⟨here, below⟩
    exact ⟨here, below⟩
  · rintro ⟨here, below⟩
    cases d with
    | node found deps => exact .node here below

end Derivation

/-- `q.Derives levels r st d`: with so many levels left, the call for `r` in the state `st` succeeds, and
    `d` is how.  Either an ambient witness was taken, or an instance that matched, after its open
    parameters were solved in a chain; and each of these has a derivation in turn. -/
def Derives (q : Search) : Nat → Request → State → Derivation → Prop
  | 0, _, _, _ => False
  | levels + 1, r, st, d =>
    (q.solve (levels + 1) r st).1 = .ok d.found ∧
    (∃ c ∈ q.candidates.values, ∃ n m, q.match? c (q.requirement r) r.context n = some m ∧
      ((∃ p, c = .ambient p ∧ d.found = ⟨.ambient p.id p.name, m.subst⟩ ∧ d.deps = []) ∨
      (∃ i st₁ st₂, c = .declared i ∧
        Chain (q.solve levels) (q.openParams m) m.subst st₁ (d.deps.map Derivation.found)
          d.found.subst st₂ ∧
        d.found.witness = .apply i.id i.name
          (arguments ((q.openParams m).map Param.id) d.found.subst m.params
            (d.deps.map fun e => e.found.witness))))) ∧
    ∀ e ∈ d.deps, ∃ r' st', r'.context.Acyclic ∧ q.Derives levels r' st' e

/-- Each dependency of a chain was found by a call of the solver, from bindings without cycles. -/
theorem Chain.answered {q : Search} {solver : Solver} {ps : List Param} {s s' : Subst}
    {st st' : State} {found : List Solved} (hsolver : q.Grower solver)
    (h : Chain solver ps s st found s' st') (hs : s.Acyclic) :
    ∀ f ∈ found, ∃ r st, r.context.Acyclic ∧ (solver r st).1 = .ok f := by
  induction h with
  | nil => exact fun f hf => nomatch hf
  | cons first more ih =>
    refine List.forall_mem_cons.2 ⟨?_, ih (hsolver.first hs first).1⟩
    exact ⟨_, _, hs, by rw [first]⟩

/-- A match of bindings without cycles has none either. -/
theorem match?_acyclic {q : Search} {c : Candidate} (hc : c ∈ q.candidates.values) {r : Request}
    {n : VarId} {m : Matched} (hr : r.context.Acyclic)
    (h : q.match? c (q.requirement r) r.context n = some m) : m.subst.Acyclic :=
  (match?_grows (q.roomy_true 0) hc (Nat.zero_le n) hr (fun _ _ => trivial)
    (fun _ _ _ _ => trivial) h).1.acyclic

/-- Witnesses that were found have derivations, if each of them has one. -/
theorem exists_derivations {R : Derivation → Prop} {found : List Solved}
    (h : ∀ f ∈ found, ∃ d, R d ∧ d.found = f) :
    ∃ ds : List Derivation, (∀ d ∈ ds, R d) ∧ ds.map Derivation.found = found := by
  induction found with
  | nil => exact ⟨[], List.forall_mem_nil _, rfl⟩
  | cons f found ih =>
    obtain ⟨d, hd, hf⟩ := h f (List.mem_cons_self ..)
    obtain ⟨ds, hds, hfound⟩ := ih fun g hg => h g (List.mem_cons_of_mem _ hg)
    exact ⟨d :: ds, List.forall_mem_cons.2 ⟨hd, hds⟩, by rw [List.map_cons, hf, hfound]⟩

/-- **Every success has a derivation.** -/
theorem exists_derives {q : Search} {levels : Nat} {r : Request} {st : State} {found : Solved}
    (hr : r.context.Acyclic) (h : (q.solve levels r st).1 = .ok found) :
    ∃ d, q.Derives levels r st d ∧ d.found = found := by
  induction levels generalizing r st found with
  | zero => cases h
  | succ levels ih =>
    obtain ⟨c, hc, n, m, _, hmatch, w, st₁, st₂, _, hsurvive, rfl⟩ :=
      step_ok (q.solve_next_le levels) h
    have hcand := (match?_ok hmatch).1
    rcases survive_ok hsurvive with ⟨p, hp, hw, hs⟩ | ⟨i, found, st₃, hi, hchain, hw⟩
    · refine ⟨.node ⟨w.witness, w.subst⟩ [], ⟨h, ⟨c, hc, n, m, hmatch, Or.inl ?_⟩, ?_⟩, rfl⟩
      · exact ⟨p, by rw [← hcand, hp], by rw [Derivation.found, hw, hs], rfl⟩
      · exact fun e he => nomatch he
    · -- every dependency was found with one level less
      have hall : ∀ f ∈ found, ∃ d : Derivation,
          (∃ r' st', r'.context.Acyclic ∧ q.Derives levels r' st' d) ∧ d.found = f := by
        intro f hf
        have hstart := match?_acyclic hc hr hmatch
        obtain ⟨r', st', hr', hok⟩ := hchain.answered (q.solve_grower levels) hstart f hf
        obtain ⟨d, hd, hdf⟩ := ih hr' hok
        exact ⟨d, ⟨r', st', hr', hd⟩, hdf⟩
      obtain ⟨ds, hds, hfound⟩ := exists_derivations hall
      refine ⟨.node ⟨w.witness, w.subst⟩ ds, ⟨h, ⟨c, hc, n, m, hmatch, Or.inr ?_⟩, hds⟩, rfl⟩
      have hws : found.map Solved.witness = ds.map fun e => e.found.witness := by
        rw [← hfound, List.map_map]
        rfl
      have hchain' : Chain (q.solve levels) (q.openParams m) m.subst _ (ds.map Derivation.found)
          w.subst st₃ := hfound ▸ hchain
      exact ⟨i, _, st₃, by rw [← hcand, hi], hchain', hws ▸ hw⟩

/-! ## Finality -/

/-- The type arguments at the root are read off the bindings at the end. -/
theorem Derives.args_final {q : Search} {levels : Nat} {r : Request} {st : State} {d : Derivation}
    (hr : r.context.Acyclic) (h : q.Derives levels r st d) :
    ∀ t, Argument.type t ∈ d.found.witness.args → d.found.subst.apply t = t := by
  cases levels with
  | zero => exact h.elim
  | succ levels =>
    obtain ⟨hok, ⟨c, hc, n, m, hmatch, hhow⟩, _⟩ := h
    have hlast := (q.solve_grower (levels + 1) r st d.found hr hok).acyclic
    intro t ht
    rcases hhow with ⟨p, _, hfound, _⟩ | ⟨i, st₁, st₂, _, _, hw⟩
    · rw [hfound] at ht
      cases ht
    · rw [hw] at ht
      obtain ⟨p, _, rfl⟩ := type_mem_arguments ht
      exact hlast.apply_apply _

/-- The witnesses right below the root are final exactly if each was when it was found, and was left
    alone. -/
theorem Derives.nested_final_iff {q : Search} {levels : Nat} {r : Request} {st : State}
    {d : Derivation} (hr : r.context.Acyclic) (h : q.Derives levels r st d) :
    (∀ w ∈ d.found.witness.nested, w.Final d.found.subst) ↔
      (∀ e ∈ d.deps, e.found.witness.Final e.found.subst) ∧
        LeftAlone (d.deps.map Derivation.found) := by
  cases levels with
  | zero => exact h.elim
  | succ levels =>
    obtain ⟨_, ⟨c, hc, n, m, hmatch, hhow⟩, _⟩ := h
    rcases hhow with ⟨p, _, hfound, hdeps⟩ | ⟨i, st₁, st₂, _, hchain, hw⟩
    · rw [hfound, hdeps]
      simp [Witness.nested, Witness.args, LeftAlone]
    · have hnested : d.found.witness.nested = d.deps.map fun e => e.found.witness := by
        rw [hw]
        apply nested_arguments
        have hlength := hchain.length
        rw [List.length_map] at hlength
        rw [List.length_map, hlength]
        exact length_openParams_le q m
      have hchained := hchain.final_iff (q.solve_grower levels) (match?_acyclic hc hr hmatch)
      rw [List.forall_mem_map, List.forall_mem_map] at hchained
      rw [hnested, List.forall_mem_map, hchained]

/-- A derivation is undisturbed exactly if its witness is final. -/
theorem Derives.final_iff {q : Search} {levels : Nat} {r : Request} {st : State} {d : Derivation}
    (hr : r.context.Acyclic) (h : q.Derives levels r st d) :
    d.found.witness.Final d.found.subst ↔ d.Undisturbed := by
  induction levels generalizing r st d with
  | zero => exact h.elim
  | succ levels ih =>
    -- at the bindings that it was found with a dependency is final as its own derivation says
    have hbelow : ∀ e ∈ d.deps, (e.found.witness.Final e.found.subst ↔ e.Undisturbed) := by
      intro e he
      obtain ⟨r', st', hr', hd⟩ := h.2.2 e he
      exact ih hr' hd
    rw [Witness.final_iff, h.nested_final_iff hr, Derivation.undisturbed_iff]
    constructor
    · rintro ⟨_, hdeps, halone⟩
      exact ⟨halone, fun e he => (hbelow e he).1 (hdeps e he)⟩
    · rintro ⟨halone, hdeps⟩
      exact ⟨h.args_final hr, fun e he => (hbelow e he).2 (hdeps e he), halone⟩

/-- **A witness that was found is final exactly if its derivation is undisturbed.**  Its own type arguments
    are final in any case; a nested witness is not if a dependency that was solved later binds a variable
    that it left open. -/
theorem final_iff_undisturbed {q : Search} {levels : Nat} {r : Request} {st : State} {found : Solved}
    (hr : r.context.Acyclic) (h : (q.solve levels r st).1 = .ok found) :
    (∀ t, Argument.type t ∈ found.witness.args → found.subst.apply t = t) ∧
    (∃ d, q.Derives levels r st d ∧ d.found = found) ∧
    ∀ d, q.Derives levels r st d → d.found = found →
      (found.witness.Final found.subst ↔ d.Undisturbed) := by
  obtain ⟨d, hd, hfound⟩ := exists_derives hr h
  refine ⟨?_, ⟨d, hd, hfound⟩, ?_⟩
  · rw [← hfound]
    exact hd.args_final hr
  · rintro e he rfl
    exact he.final_iff hr

/-- No match has more open parameters than its candidate has witness parameters. -/
theorem length_openParams_of_match {q : Search} {i : Instance} {required : List Capability}
    {context : Subst} {n : VarId} {m : Matched}
    (h : q.match? (.declared i) required context n = some m) :
    (q.openParams m).length ≤ (i.params.filter Param.isWitness).length := by
  have hopen : (q.openParams m).length ≤ (m.params.filter Param.isWitness).length := by
    rw [openParams, ← List.filter_filter]
    exact (List.filter_sublist.filter Param.isWitness).length_le
  have hparams : (m.params.filter Param.isWitness).length =
      (i.params.filter Param.isWitness).length := by
    rw [(match?_ok h).2.1, List.filter_map, List.length_map]
    congr 2
    funext p
    exact isWitness_rename p _
  rwa [hparams] at hopen

theorem leftAlone_of_length_le_one {found : List Solved} (h : found.length ≤ 1) :
    LeftAlone found := by
  match found with
  | [] => exact List.Pairwise.nil
  | [f] => exact List.pairwise_singleton _ f
  | f :: g :: rest =>
    simp only [List.length_cons] at h
    omega

/-- **With one dependency for each instance at most, every witness is final**: there is nothing that
    could come later. -/
theorem final_of_single_dependency {q : Search}
    (hsingle : ∀ i, Candidate.declared i ∈ q.candidates.values →
      (i.params.filter Param.isWitness).length ≤ 1)
    {levels : Nat} {r : Request} {st : State} {found : Solved} (hr : r.context.Acyclic)
    (h : (q.solve levels r st).1 = .ok found) : found.witness.Final found.subst := by
  have hundisturbed : ∀ levels r st d, r.context.Acyclic → q.Derives levels r st d →
      d.Undisturbed := by
    intro levels
    induction levels with
    | zero => exact fun r st d _ hd => hd.elim
    | succ levels ih =>
      intro r st d hr hd
      obtain ⟨_, ⟨c, hc, n, m, hmatch, hhow⟩, hbelow⟩ := hd
      rw [Derivation.undisturbed_iff]
      constructor
      · rcases hhow with ⟨p, _, _, hdeps⟩ | ⟨i, st₁, st₂, hi, hchain, _⟩
        · rw [hdeps]
          exact List.Pairwise.nil
        · -- one open parameter at most, so one dependency at most
          subst hi
          have hcount := length_openParams_of_match hmatch
          have hsingle' := hsingle i hc
          apply leftAlone_of_length_le_one
          rw [hchain.length]
          omega
      · intro e he
        obtain ⟨r', st', hr', hd'⟩ := hbelow e he
        exact ih r' st' e hr' hd'
  obtain ⟨d, hd, rfl⟩ := exists_derives hr h
  exact (hd.final_iff hr).2 (hundisturbed levels r st d hr hd)

/-! ## A dependency that is disturbed -/

/-- `P<A, W1, W2>` provides `Root`, with `W1` for `C1<A>` and `W2` for `C2<A>`.  The one instance of `C1`
    is for lists of anything, the one of `C2` for lists of `Int`: what `C1` is used at is decided by
    `C2`. -/
def siblings : Except DeclError Catalog := do
  let elem : Ty := .var 20 (some "A")
  let listOf := fun t : Ty => Ty.con "List" [t]
  let cat ← Catalog.empty.declareConcept ⟨"Root", [], [], []⟩
  let cat ← cat.declareConcept ⟨"C1", [⟨10, "T", .ordinary⟩], [], []⟩
  let cat ← cat.declareConcept ⟨"C2", [⟨12, "T", .ordinary⟩], [], []⟩
  let (_, cat) ← cat.declareInstance Catalog.root ⟨"P",
    [⟨20, "A", .ordinary⟩, ⟨21, "W1", .witness [⟨"C1", [elem]⟩]⟩, ⟨22, "W2", .witness [⟨"C2", [elem]⟩]⟩],
    [⟨"Root", []⟩], false, false, none, []⟩
  let (_, cat) ← cat.declareInstance Catalog.root ⟨"I1", [⟨30, "X", .ordinary⟩],
    [⟨"C1", [listOf (.var 30 (some "X"))]⟩], false, false, none, []⟩
  let (_, cat) ← cat.declareInstance Catalog.root ⟨"I2", [],
    [⟨"C2", [listOf (Ty.con "Int" [])]⟩], false, false, none, []⟩
  return cat

/-- The search for `Root` in the root scope. -/
def siblingSearch : Except DeclError Search := do
  let cat ← siblings
  cat.searchAt .default Catalog.root

/-- The query for `Root`. -/
def siblingQuery : Param := ⟨40, "W", .witness [⟨"Root", []⟩]⟩

/-- It is answered by `P<List<Int>, I1<X>, I2>`, in which the argument of `I1` is not final. -/
theorem siblings_disturbed : ∃ q found, siblingSearch = .ok q ∧
    (q.solve (q.config.maxDepth + 1) (queryRequest siblingQuery .empty)
      (q.queryState siblingQuery .empty)).1 = .ok found ∧
    ¬ found.witness.Final found.subst := by
  have h : okAnd siblingSearch (fun q =>
      okAnd (q.solve (q.config.maxDepth + 1) (queryRequest siblingQuery .empty)
        (q.queryState siblingQuery .empty)).1 fun found =>
          decide (¬ found.witness.Final found.subst)) = true := by decide +kernel
  obtain ⟨q, hq, h⟩ := okAnd_eq_true h
  obtain ⟨found, hfound, h⟩ := okAnd_eq_true h
  exact ⟨q, found, hq, hfound, of_decide_eq_true h⟩

/-- So type arguments are not final in general. -/
theorem not_always_final : ¬ ∀ (q : Search) (levels : Nat) (r : Request) (st : State) (found : Solved),
    r.context.Acyclic → (q.solve levels r st).1 = .ok found → found.witness.Final found.subst := by
  intro hall
  obtain ⟨q, found, _, hfound, hnot⟩ := siblings_disturbed
  exact hnot (hall q _ _ _ found Subst.acyclic_empty hfound)

/-- The derivation of that answer is disturbed. -/
theorem siblings_derivation_disturbed : ∃ q d, siblingSearch = .ok q ∧
    q.Derives (q.config.maxDepth + 1) (queryRequest siblingQuery .empty)
      (q.queryState siblingQuery .empty) d ∧
    ¬ d.Undisturbed := by
  obtain ⟨q, found, hq, hfound, hnot⟩ := siblings_disturbed
  obtain ⟨_, ⟨d, hd, hdf⟩, hiff⟩ := final_iff_undisturbed Subst.acyclic_empty hfound
  exact ⟨q, d, hq, hd, fun hund => hnot ((hiff d hd hdf).2 hund)⟩

end Search

end InstanceSearch
