/-
  What a round does.

  A round of the search is a pipeline: matching, dependencies, choice.

  FORWARDS.  `solveParams_of_ok`, `survive_of_solved`, `surviveAll_cons`, `step_of_matches` and those next
  to them give the outcome of each part from the outcomes of its own parts, one equation for each way
  that it can go.  Later proofs about a round go through them.

  BACKWARDS.  If a round gives a witness, each stage left something behind that the next one kept:
    * `cover_ok`, `match?_ok`  the substitution of a match only grew, and makes every required
                               capability equal to an offered one;
    * `Chain`                  the open parameters were solved one after the other, each by a call of
                               the solver that started from the bindings of the one before;
    * `step_winner`            what is returned is the winner among the survivors;
    * `step_ok`                the witness comes from one match and one such chain.

  What every part keeps between the states before and after it, the whole search keeps
  (`Persistent.solve_state`); so the counter only rises (`solve_next_le`).
-/
import InstanceSearch.Proofs.Search.Choice
import InstanceSearch.Proofs.Unify.Sound
import InstanceSearch.Search.Resolve

namespace InstanceSearch.Search

/-! ## Matching -/

section Matching

variable {frozen : VarSet} {P : VarId → Prop} {offered required : List Capability} {s s' s₁ : Subst}

/-- The capability that is taken is offered and unifies. -/
theorem firstCover_some {r d : Capability} (h : firstCover frozen offered r s = some (d, s₁)) :
    d ∈ offered ∧ tryUnifyCapabilities frozen d r s = .ok s₁ := by
  unfold firstCover at h
  obtain ⟨c, hc, hsome⟩ := List.exists_of_findSome?_eq_some h
  split at hsome
  · rename_i s' hok
    injection hsome with hpair
    injection hpair with hd hs
    exact ⟨hd ▸ hc, by rw [← hd, ← hs, hok]⟩
  · cases hsome

/-- The first requirement of a cover, and the others. -/
theorem cover_cons {r : Capability} {rs ps : List Capability}
    (h : cover frozen offered (r :: rs) s = some (ps, s₁)) :
    ∃ d s' ds, firstCover frozen offered r s = some (d, s') ∧
      cover frozen offered rs s' = some (ds, s₁) ∧ ps = d :: ds := by
  rw [cover, Option.bind_eq_bind, Option.bind_eq_some_iff] at h
  obtain ⟨⟨d, s'⟩, hfirst, h⟩ := h
  dsimp only at h
  rw [Option.bind_eq_bind, Option.bind_eq_some_iff] at h
  obtain ⟨⟨ds, s''⟩, hrest, h⟩ := h
  injection h with h
  injection h with hps hs
  exact ⟨d, s', ds, hfirst, hs ▸ hrest, hps.symm⟩

/-- Capabilities that unify have one concept. -/
theorem concept_eq_of_unifies {c r : Capability} (h : tryUnifyCapabilities frozen c r s = .ok s') :
    c.concept = r.concept := by
  unfold tryUnifyCapabilities unifyCapabilities at h
  by_cases hne : c.concept ≠ r.concept
  · rw [if_pos hne] at h
    cases h
  · exact Decidable.not_not.1 hne

/-- What covers a list of requirements has their names. -/
theorem names_of_cover {ps : List Capability} (h : cover frozen offered required s = some (ps, s')) :
    ∀ r ∈ required, ∃ d ∈ offered, d.concept = r.concept := by
  induction required generalizing s ps with
  | nil => exact fun r hr => nomatch hr
  | cons r rs ih =>
    obtain ⟨d, _, _, hfirst, hrest, _⟩ := cover_cons h
    obtain ⟨hd, hunifies⟩ := firstCover_some hfirst
    exact List.forall_mem_cons.2 ⟨⟨d, hd, concept_eq_of_unifies hunifies⟩, ih hrest⟩

/-- The first capability that unifies is an offered one, and is made equal to the required one. -/
theorem firstCover_ok {c r : Capability} (hs : s.Acyclic) (hsP : ∀ v ∈ s.vars, P v)
    (hoP : ∀ c ∈ offered, ∀ v ∈ c.vars, P v) (hrP : ∀ v ∈ r.vars, P v)
    (h : firstCover frozen offered r s = some (c, s')) :
    c ∈ offered ∧ Subst.Grows frozen P s s' ∧ (s'.applyTo c).anon = (s'.applyTo r).anon := by
  obtain ⟨hc, hok⟩ := firstCover_some h
  exact ⟨hc, tryUnifyCapabilities_ok hs hsP (hoP c hc) hrP hok⟩

/-- **Covering** only appends bindings, and makes each required capability equal to an offered one. -/
theorem cover_ok {patterns : List Capability} (hs : s.Acyclic) (hsP : ∀ v ∈ s.vars, P v)
    (hoP : ∀ c ∈ offered, ∀ v ∈ c.vars, P v) (hrP : ∀ r ∈ required, ∀ v ∈ r.vars, P v)
    (h : cover frozen offered required s = some (patterns, s')) :
    Subst.Grows frozen P s s' ∧
      ∀ r ∈ required, ∃ c ∈ offered, (s'.applyTo c).anon = (s'.applyTo r).anon := by
  induction required generalizing s patterns with
  | nil =>
    injection h with h
    injection h with _ h
    subst h
    exact ⟨.refl hs, fun r hr => nomatch hr⟩
  | cons r rs ih =>
    obtain ⟨c, s₁, cs, hfirst, hrest, _⟩ := cover_cons h
    obtain ⟨hc, hgrow, hequal⟩ := firstCover_ok hs hsP hoP (hrP r (by simp)) hfirst
    obtain ⟨hmore, hcovered⟩ := ih hgrow.acyclic (hgrow.forall_vars hsP)
      (fun r' hr' => hrP r' (by simp [hr'])) hrest
    refine ⟨hgrow.trans hmore, ?_⟩
    intro r' hr'
    rcases List.mem_cons.1 hr' with hr' | hr'
    · -- what was made equal first stays equal under the bindings that came later
      subst hr'
      have hlater := hmore.acyclic.anon_applyTo_congr hequal
      rw [hgrow.acyclic.applyTo_applyTo_of_extends hmore.acyclic hmore.isExtension,
        hgrow.acyclic.applyTo_applyTo_of_extends hmore.acyclic hmore.isExtension] at hlater
      exact ⟨c, hc, hlater⟩
    · exact hcovered r' hr'

/-- The same with nothing said of the variables. -/
theorem cover_sound {patterns : List Capability} (hs : s.Acyclic)
    (h : cover frozen offered required s = some (patterns, s')) :
    Subst.Grows frozen (fun _ => True) s s' ∧
      ∀ r ∈ required, ∃ c ∈ offered, (s'.applyTo c).anon = (s'.applyTo r).anon :=
  cover_ok hs (fun _ _ => trivial) (fun _ _ _ _ => trivial) (fun _ _ _ _ => trivial) h

end Matching

/-- A match, taken apart: the offered capabilities are those of the candidate at new variables. -/
theorem match?_ok {q : Search} {c : Candidate} {required : List Capability} {context : Subst}
    {next : VarId} {m : Matched} (h : q.match? c required context next = some m) :
    m.candidate = c ∧ m.params = c.params.map (fun p => p.rename (newVars c.params next)) ∧
      cover q.frozen (q.catalog.expand (c.offers.map (newVars c.params next).applyTo)) required
        context = some (m.patterns, m.subst) := by
  unfold match? at h
  rw [Option.bind_eq_bind, Option.bind_eq_some_iff] at h
  obtain ⟨⟨patterns, s⟩, hcover, h⟩ := h
  injection h with h
  subst h
  exact ⟨rfl, rfl, hcover⟩

/-- Every match is one of a candidate, with its new variables counted from somewhere in between. -/
theorem mem_matchAll {q : Search} {required : List Capability} {context : Subst}
    {cs : List Candidate} {next : Nat} {m : Matched}
    (h : m ∈ (q.matchAll required context cs next).1) :
    ∃ c ∈ cs, ∃ n : Nat, next ≤ n ∧ q.match? c required context n = some m := by
  induction cs generalizing next with
  | nil => cases h
  | cons c cs ih =>
    have hrest : m ∈ (q.matchAll required context cs (next + c.params.length)).1 →
        ∃ c' ∈ c :: cs, ∃ n : Nat, next ≤ n ∧ q.match? c' required context n = some m := by
      intro hm
      obtain ⟨c', hc', n, hn, hmatch⟩ := ih hm
      exact ⟨c', List.mem_cons_of_mem _ hc', n, by omega, hmatch⟩
    rw [matchAll] at h
    dsimp only at h
    split at h
    · rename_i m' hm'
      rcases List.mem_cons.1 h with h | h
      · exact ⟨c, List.mem_cons_self .., next, Nat.le_refl _, by rw [h, hm']⟩
      · exact hrest h
    · exact hrest h

/-- Two searches in which every candidate matches in the same way. -/
theorem matchAll_eq {q q' : Search} {required : List Capability} {context : Subst}
    (h : ∀ c n, q'.match? c required context n = q.match? c required context n)
    (cs : List Candidate) (next : VarId) :
    q'.matchAll required context cs next = q.matchAll required context cs next := by
  induction cs generalizing next with
  | nil => rfl
  | cons c cs ih => rw [matchAll, matchAll, ih, h]

/-- The number of variables that a list of candidates draws. -/
def drawnBy (cs : List Candidate) : Nat := (cs.flatMap Candidate.params).length

theorem drawnBy_cons (c : Candidate) (cs : List Candidate) :
    drawnBy (c :: cs) = c.params.length + drawnBy cs := by
  rw [drawnBy, List.flatMap_cons, List.length_append, drawnBy]

/-- Matching draws as many variables as the candidates have parameters. -/
theorem matchAll_next (q : Search) (required : List Capability) (context : Subst)
    (cs : List Candidate) (next : Nat) :
    (q.matchAll required context cs next).2 = next + drawnBy cs := by
  induction cs generalizing next with
  | nil => rfl
  | cons c cs ih =>
    rw [matchAll]
    dsimp only
    split <;>
    · rw [ih, drawnBy_cons, Nat.add_assoc]

theorem le_matchAll_next (q : Search) (required : List Capability) (context : Subst)
    (cs : List Candidate) (next : VarId) : next ≤ (q.matchAll required context cs next).2 := by
  rw [matchAll_next]
  exact Nat.le_add_right ..

/-! ## The parts of a round -/

section Parts

variable {q : Search} {solver : Solver} {goal : String} {st st₁ st₂ : State}

/-- The first dependency that fails ends the chain. -/
theorem solveParams_of_error {p : Param} {ps : List Param} {s : Subst} {e : SearchError}
    (h : solver ⟨p.name, p.constraints, s⟩ st = (.error e, st₁)) :
    solveParams solver (p :: ps) s st = (.error e, st₁) := by
  rw [solveParams, h]

/-- After a dependency that is found the chain goes on from its bindings. -/
theorem solveParams_of_ok {p : Param} {ps : List Param} {s : Subst} {found : Solved}
    {x : Except SearchError (Subst × List Witness)}
    (h : solver ⟨p.name, p.constraints, s⟩ st = (.ok found, st₁))
    (hrest : solveParams solver ps found.subst st₁ = (x, st₂)) :
    solveParams solver (p :: ps) s st = (x.map fun e => (e.1, found.witness :: e.2), st₂) := by
  rw [solveParams, h]
  dsimp only
  rw [hrest]
  cases x <;> rfl

/-- `q.finish m i x` = what becomes of a match of the instance `i` whose dependencies came out as `x`. -/
def finish (q : Search) (m : Matched) (i : Instance) (x : Except SearchError (Subst × List Witness)) :
    Except Rejection Survivor :=
  (x.mapError Rejection.dependency).map fun e => ⟨m.candidate, e.1, m.patterns,
    .apply i.id i.name (arguments ((q.openParams m).map Param.id) e.1 m.params e.2)⟩

/-- `q.Refuses m`: the match has open parameters, and the settings do not allow any. -/
def Refuses (q : Search) (m : Matched) : Prop :=
  (!(q.openParams m).isEmpty && q.config.policy == .rejectUnresolved) = true

/-- A witness at hand survives as it is. -/
theorem survive_of_ambient {m : Matched} {p : Param} (h : m.candidate = .ambient p) :
    q.survive solver goal m st =
      (.ok ⟨m.candidate, m.subst, m.patterns, .ambient p.id p.name⟩, st) := by
  rw [survive, h]

section Declared

variable {m : Matched} {i : Instance} (h : m.candidate = .declared i)
include h

theorem survive_of_refused (hpolicy : q.Refuses m) :
    q.survive solver goal m st = (.error .unresolved, st) := by
  rw [survive, h]
  exact if_pos hpolicy

/-- While its dependencies are solved the instance is in flight. -/
theorem survive_of_solved (hpolicy : ¬ q.Refuses m) (st : State)
    {x : Except SearchError (Subst × List Witness)} (hsolved : solveParams solver (q.openParams m) m.subst
      { st with stack := ⟨i.name, goal⟩ :: st.stack } = (x, st₁)) :
    q.survive solver goal m st = (q.finish m i x, { st₁ with stack := st₁.stack.tail }) := by
  rw [Refuses] at hpolicy
  rw [survive, finish, h]
  dsimp only
  rw [if_neg hpolicy, hsolved]
  cases x <;> rfl

end Declared

/-- `addSurvival name x rest` = `rest` with what became of one more match: a survivor, or a rejection
    under the name of its candidate. -/
def addSurvival (name : String) (x : Except Rejection Survivor)
    (rest : List Survivor × List (String × Rejection)) :
    List Survivor × List (String × Rejection) :=
  match x with
  | .ok s => (s :: rest.1, rest.2)
  | .error r => (rest.1, (name, r) :: rest.2)

/-- The first of the matches, and the others after it. -/
theorem surviveAll_cons {m : Matched} {ms : List Matched} {x : Except Rejection Survivor}
    {rest : List Survivor × List (String × Rejection)} (h : q.survive solver goal m st = (x, st₁))
    (hrest : q.surviveAll solver goal ms st₁ = (rest, st₂)) :
    q.surviveAll solver goal (m :: ms) st = (addSurvival m.candidate.name x rest, st₂) := by
  rw [surviveAll, h]
  dsimp only
  rw [hrest]
  cases x <;> rfl

/-- Two searches in which the same becomes of every match. -/
theorem surviveAll_eq {q' : Search} (h : ∀ m st, q'.survive solver goal m st = q.survive solver goal m st)
    (ms : List Matched) (st : State) :
    q'.surviveAll solver goal ms st = q.surviveAll solver goal ms st := by
  induction ms generalizing st with
  | nil => rfl
  | cons m ms ih =>
    rcases hx : q.survive solver goal m st with ⟨x, st₁⟩
    rcases hxs : q.surviveAll solver goal ms st₁ with ⟨xs, st₂⟩
    rw [surviveAll_cons hx hxs]
    exact surviveAll_cons ((h m st).trans hx) ((ih st₁).trans hxs)

end Parts

section Step

variable {q : Search} {solver : Solver} {r : Request} {st : State}

/-- A goal that is in flight is a cycle. -/
theorem step_of_reentry {path : List Attempt}
    (h : reentry st.stack (goalText q.frozen (q.requirement r)) = some path) :
    q.step solver r st =
      (.error (.cyclic r.label (path ++ [⟨r.label, goalText q.frozen (q.requirement r)⟩])), st) := by
  unfold step
  dsimp only
  rw [h]

variable {ms : List Matched} {n : VarId}
  (hnew : reentry st.stack (goalText q.frozen (q.requirement r)) = none)
  (hms : q.matchAll (q.requirement r) r.context q.candidates.values st.next = (ms, n))
include hnew hms

/-- Without a match there is no instance. -/
theorem step_of_no_match (h : ms.isEmpty = true) :
    q.step solver r st = (.error (.noInstance r.label (q.requirement r) []), { st with next := n }) := by
  unfold step
  dsimp only
  rw [hnew, hms]
  exact if_pos h

/-- Otherwise there is a choice to make among the survivors. -/
theorem step_of_matches (h : ¬ ms.isEmpty = true) {st' : State}
    {xs : List Survivor × List (String × Rejection)}
    (hxs : q.surviveAll solver (goalText q.frozen (q.requirement r)) ms { st with next := n } =
      (xs, st')) :
    q.step solver r st = (q.choose r.label (q.requirement r) xs.1 xs.2, st') := by
  unfold step
  dsimp only
  rw [hnew, hms]
  dsimp only
  rw [if_neg h, hxs]

end Step

/-! ## What all parts of a round keep -/

/-- A relation between the states before and after a part of the search.  It holds of an attempt that is
    put on the stack and taken off again, and of variables that are drawn. -/
structure Persistent (R : State → State → Prop) : Prop where
  refl (st : State) : R st st
  trans {st st₁ st₂ : State} (h : R st st₁) (h' : R st₁ st₂) : R st st₂
  attempt (a : Attempt) {st st' : State} (h : R { st with stack := a :: st.stack } st') :
    R st { st' with stack := st'.stack.tail }
  draw (st : State) {n : Nat} (h : st.next ≤ n) : R st { st with next := n }

namespace Persistent

variable {R : State → State → Prop} (hR : Persistent R) {q : Search} {solver : Solver}
include hR

section Round

variable (h : ∀ r st, R st (solver r st).2)
include h

theorem solveParams_state (ps : List Param) (s : Subst) (st : State) :
    R st (solveParams solver ps s st).2 := by
  induction ps generalizing s st with
  | nil => exact hR.refl st
  | cons p ps ih =>
    have hfirst := h ⟨p.name, p.constraints, s⟩ st
    rcases hout : solver ⟨p.name, p.constraints, s⟩ st with ⟨e | found, st₁⟩
    · rw [hout] at hfirst
      rw [solveParams_of_error hout]
      exact hfirst
    · rw [hout] at hfirst
      rw [solveParams_of_ok hout rfl]
      exact hR.trans hfirst (ih found.subst st₁)

theorem survive_state (goal : String) (m : Matched) (st : State) :
    R st (q.survive solver goal m st).2 := by
  cases hm : m.candidate with
  | ambient p =>
    rw [survive_of_ambient hm]
    exact hR.refl st
  | declared i =>
    by_cases hpolicy : q.Refuses m
    · rw [survive_of_refused hm hpolicy]
      exact hR.refl st
    · rw [survive_of_solved hm hpolicy st rfl]
      -- the dependencies start and end with the instance on top of the stack
      exact hR.attempt ⟨i.name, goal⟩ (hR.solveParams_state h _ _ _)

theorem surviveAll_state (goal : String) (ms : List Matched) (st : State) :
    R st (q.surviveAll solver goal ms st).2 := by
  induction ms generalizing st with
  | nil => exact hR.refl st
  | cons m ms ih =>
    have hfirst := hR.survive_state (q := q) h goal m st
    rcases hx : q.survive solver goal m st with ⟨x, st₁⟩
    rw [hx] at hfirst
    rw [surviveAll_cons hx rfl]
    exact hR.trans hfirst (ih st₁)

theorem step_state (r : Request) (st : State) : R st (q.step solver r st).2 := by
  cases hre : reentry st.stack (goalText q.frozen (q.requirement r)) with
  | some path =>
    rw [step_of_reentry hre]
    exact hR.refl st
  | none =>
    have hdrawn := hR.draw st (le_matchAll_next q (q.requirement r) r.context q.candidates.values st.next)
    by_cases hempty : (q.matchAll (q.requirement r) r.context q.candidates.values st.next).1.isEmpty
    · rw [step_of_no_match hre rfl hempty]
      exact hdrawn
    · rw [step_of_matches hre rfl hempty rfl]
      exact hR.trans hdrawn (hR.surviveAll_state h _ _ _)

end Round

/-- **What every part keeps is kept by the whole search**, through successes and failures alike. -/
theorem solve_state (q : Search) (levels : Nat) (r : Request) (st : State) :
    R st (q.solve levels r st).2 := by
  induction levels generalizing r st with
  | zero => exact hR.refl st
  | succ levels ih => exact hR.step_state ih r st

end Persistent

theorem persistent_next : Persistent fun st st' => st.next ≤ st'.next where
  refl _ := Nat.le_refl _
  trans := Nat.le_trans
  attempt _ _ _ h := h
  draw _ _ h := h

/-- **The counter only rises.** -/
theorem solve_next_le (q : Search) (levels : Nat) (r : Request) (st : State) :
    st.next ≤ (q.solve levels r st).2.next := persistent_next.solve_state q levels r st

/-! ## Dependencies -/

/-- `Chain solver ps s st ws s' st'`: from the bindings `s` the solver finds the witnesses `ws` for the
    parameters `ps`, one after the other, and ends with the bindings `s'`. -/
inductive Chain (solver : Solver) :
    List Param → Subst → State → List Solved → Subst → State → Prop where
  | nil {s : Subst} {st : State} : Chain solver [] s st [] s st
  | cons {p : Param} {ps : List Param} {s s' : Subst} {st st₁ st' : State} {found : Solved}
      {rest : List Solved} (first : solver ⟨p.name, p.constraints, s⟩ st = (.ok found, st₁))
      (more : Chain solver ps found.subst st₁ rest s' st') :
      Chain solver (p :: ps) s st (found :: rest) s' st'

/-- Solving parameters successfully is a chain. -/
theorem solveParams_ok {solver : Solver} {ps : List Param} {s s' : Subst} {st st' : State}
    {ws : List Witness} (h : solveParams solver ps s st = (.ok (s', ws), st')) :
    ∃ found, Chain solver ps s st found s' st' ∧ ws = found.map Solved.witness := by
  induction ps generalizing s st ws with
  | nil =>
    injection h with h hst
    injection h with h
    injection h with hs hws
    subst hs hws hst
    exact ⟨[], .nil, rfl⟩
  | cons p ps ih =>
    rcases hout : solver ⟨p.name, p.constraints, s⟩ st with ⟨e | solved, st₁⟩
    · rw [solveParams_of_error hout] at h
      cases h
    · rcases hmore : solveParams solver ps solved.subst st₁ with ⟨e | ⟨s₂, ws₂⟩, st₂⟩
      · rw [solveParams_of_ok hout hmore] at h
        cases h
      · rw [solveParams_of_ok hout hmore] at h
        injection h with h hst
        injection h with h
        injection h with hs hws
        subst hs hws hst
        obtain ⟨found, hchain, hfound⟩ := ih hmore
        exact ⟨solved :: found, .cons hout hchain, by rw [hfound, List.map_cons]⟩

theorem Chain.length {solver : Solver} {ps : List Param} {s s' : Subst} {st st' : State}
    {found : List Solved} (h : Chain solver ps s st found s' st') : found.length = ps.length := by
  induction h with
  | nil => rfl
  | cons first more ih => rw [List.length_cons, List.length_cons, ih]

/-- What a survivor was made from: its match, and for an instance the chain of its dependencies. -/
theorem survive_ok {q : Search} {solver : Solver} {goal : String} {m : Matched} {st st' : State}
    {w : Survivor} (h : q.survive solver goal m st = (.ok w, st')) :
    (∃ p, m.candidate = .ambient p ∧ w.witness = .ambient p.id p.name ∧ w.subst = m.subst) ∨
    (∃ i found st₁, m.candidate = .declared i ∧
      Chain solver (q.openParams m) m.subst { st with stack := ⟨i.name, goal⟩ :: st.stack }
        found w.subst st₁ ∧
      w.witness = .apply i.id i.name
        (arguments ((q.openParams m).map Param.id) w.subst m.params (found.map Solved.witness))) := by
  cases hm : m.candidate with
  | ambient p =>
    rw [survive_of_ambient hm] at h
    injection h with h
    injection h with h
    subst h
    exact Or.inl ⟨p, rfl, rfl, rfl⟩
  | declared i =>
    by_cases hpolicy : q.Refuses m
    · rw [survive_of_refused hm hpolicy] at h
      cases h
    · rcases hsolved : solveParams solver (q.openParams m) m.subst
        { st with stack := ⟨i.name, goal⟩ :: st.stack } with ⟨e | ⟨s, ws⟩, st₁⟩
      · rw [survive_of_solved hm hpolicy st hsolved] at h
        cases h
      · rw [survive_of_solved hm hpolicy st hsolved] at h
        injection h with h
        injection h with h
        subst h
        obtain ⟨found, hchain, hws⟩ := solveParams_ok hsolved
        exact Or.inr ⟨i, found, st₁, rfl, hchain, by rw [hws]⟩

/-- Every survivor is what one of the matches became, from a state whose counter was no lower. -/
theorem mem_surviveAll {q : Search} {solver : Solver} (hnext : ∀ r st, st.next ≤ (solver r st).2.next)
    {goal : String} {ms : List Matched} {st : State} {w : Survivor}
    (h : w ∈ (q.surviveAll solver goal ms st).1.1) :
    ∃ m ∈ ms, ∃ st₁ st₂, st.next ≤ st₁.next ∧ q.survive solver goal m st₁ = (.ok w, st₂) := by
  induction ms generalizing st with
  | nil => cases h
  | cons m ms ih =>
    have hfirst := persistent_next.survive_state (q := q) hnext goal m st
    rcases hx : q.survive solver goal m st with ⟨x, st₁⟩
    rw [surviveAll_cons hx rfl] at h
    rw [hx] at hfirst
    -- a later survivor was found from a state that came after `st₁`
    have hrest : w ∈ (q.surviveAll solver goal ms st₁).1.1 →
        ∃ m' ∈ m :: ms, ∃ st₁ st₂, st.next ≤ st₁.next ∧
          q.survive solver goal m' st₁ = (.ok w, st₂) := by
      intro hw
      obtain ⟨m', hm', st₂, st₃, hle, hsurvive⟩ := ih hw
      exact ⟨m', List.mem_cons_of_mem _ hm', st₂, st₃, Nat.le_trans hfirst hle, hsurvive⟩
    cases x with
    | error r => exact hrest h
    | ok w' =>
      rcases List.mem_cons.1 h with rfl | h
      · exact ⟨m, List.mem_cons_self .., st, st₁, Nat.le_refl _, hx⟩
      · exact hrest h

/-! ## The arguments of an instance -/

section Arguments

variable {opened : List VarId} {s : Subst} {p : Param} {ps : List Param} {w : Witness}
  {ws : List Witness}

theorem arguments_of_open (h : opened.contains p.id = true) :
    arguments opened s (p :: ps) (w :: ws) = .witness w :: arguments opened s ps ws := by
  simp only [arguments, h, if_true]

theorem arguments_of_spent (h : opened.contains p.id = true) :
    arguments opened s (p :: ps) [] = .type (s.apply p.asTy) :: arguments opened s ps [] := by
  simp only [arguments, h, if_true]

theorem arguments_of_closed (h : ¬ opened.contains p.id = true) :
    arguments opened s (p :: ps) ws = .type (s.apply p.asTy) :: arguments opened s ps ws := by
  simp only [arguments, if_neg h]

/-- The type arguments are read off the bindings at the end. -/
theorem type_mem_arguments {t : Ty} (h : Argument.type t ∈ arguments opened s ps ws) :
    ∃ p ∈ ps, t = s.apply p.asTy := by
  induction ps generalizing ws with
  | nil => cases h
  | cons p ps ih =>
    have hrest : ∀ ws, Argument.type t ∈ arguments opened s ps ws →
        ∃ p' ∈ p :: ps, t = s.apply p'.asTy := by
      intro ws hm
      obtain ⟨p', hp', ht⟩ := ih hm
      exact ⟨p', List.mem_cons_of_mem _ hp', ht⟩
    have hhere : Argument.type t = .type (s.apply p.asTy) → ∃ p' ∈ p :: ps, t = s.apply p'.asTy := by
      intro ht
      injection ht with ht
      exact ⟨p, List.mem_cons_self .., ht⟩
    by_cases hp : opened.contains p.id = true
    · cases ws with
      | nil =>
        rw [arguments_of_spent hp, List.mem_cons] at h
        exact h.elim hhere (hrest _)
      | cons w ws =>
        rw [arguments_of_open hp, List.mem_cons] at h
        exact h.elim (fun h => nomatch h) (hrest _)
    · rw [arguments_of_closed hp, List.mem_cons] at h
      exact h.elim hhere (hrest _)

/-- Every solved witness finds its place, in order. -/
theorem nested_arguments (h : ws.length ≤ (ps.filter fun p => opened.contains p.id).length) :
    (arguments opened s ps ws).filterMap Argument.witness? = ws := by
  induction ps generalizing ws with
  | nil => exact (List.length_eq_zero_iff.1 (Nat.le_zero.1 h)).symm
  | cons p ps ih =>
    by_cases hp : opened.contains p.id = true
    · rw [List.filter_cons_of_pos (p := fun p : Param => opened.contains p.id) hp, List.length_cons] at h
      cases ws with
      | nil =>
        rw [arguments_of_spent hp, List.filterMap_cons]
        exact ih (Nat.zero_le _)
      | cons w ws =>
        rw [arguments_of_open hp, List.filterMap_cons]
        rw [List.length_cons] at h
        exact congrArg (w :: ·) (ih (by omega))
    · rw [List.filter_cons_of_neg (p := fun p : Param => opened.contains p.id) hp] at h
      rw [arguments_of_closed hp, List.filterMap_cons]
      exact ih h

theorem length_arguments : (arguments opened s ps ws).length = ps.length := by
  induction ps generalizing ws with
  | nil => rfl
  | cons p ps ih =>
    by_cases hp : opened.contains p.id = true
    · cases ws with
      | nil => rw [arguments_of_spent hp, List.length_cons, List.length_cons, ih]
      | cons w ws => rw [arguments_of_open hp, List.length_cons, List.length_cons, ih]
    · rw [arguments_of_closed hp, List.length_cons, List.length_cons, ih]

/-- **Where there is one witness for each open parameter, each gets its own**, and the others get what
    they stand for. -/
theorem mem_zip_arguments {a : Argument}
    (hcount : ws.length = (ps.filter fun p => opened.contains p.id).length)
    (h : (p, a) ∈ ps.zip (arguments opened s ps ws)) :
    (∃ w, a = .witness w ∧ (p, w) ∈ (ps.filter fun p => opened.contains p.id).zip ws) ∨
      (opened.contains p.id ≠ true ∧ a = .type (s.apply p.asTy)) := by
  induction ps generalizing ws with
  | nil => cases h
  | cons p' ps ih =>
    by_cases hp : opened.contains p'.id = true
    · rw [List.filter_cons_of_pos (p := fun p : Param => opened.contains p.id) hp] at hcount ⊢
      cases ws with
      | nil => cases hcount
      | cons w ws =>
        rw [arguments_of_open hp, List.zip_cons_cons, List.mem_cons] at h
        rw [List.zip_cons_cons]
        rcases h with h | h
        · injection h with h₁ h₂
          subst h₁
          exact Or.inl ⟨w, h₂, List.mem_cons_self ..⟩
        · have hcount' : ws.length = (ps.filter fun p => opened.contains p.id).length := by
            simpa using hcount
          rcases ih hcount' h with ⟨w', ha, hm⟩ | hclosed
          · exact Or.inl ⟨w', ha, List.mem_cons_of_mem _ hm⟩
          · exact Or.inr hclosed
    · rw [List.filter_cons_of_neg (p := fun p : Param => opened.contains p.id) hp] at hcount ⊢
      rw [arguments_of_closed hp, List.zip_cons_cons, List.mem_cons] at h
      rcases h with h | h
      · injection h with h₁ h₂
        subst h₁
        exact Or.inr ⟨hp, h₂⟩
      · exact ih hcount h

/-- Members of a list whose images differ are equal if their images are. -/
theorem eq_of_nodup_map {α β : Type} {f : α → β} {xs : List α} (h : (xs.map f).Nodup) {x y : α}
    (hx : x ∈ xs) (hy : y ∈ xs) (hf : f x = f y) : x = y := by
  induction xs with
  | nil => cases hx
  | cons z xs ih =>
    rw [List.map_cons, List.nodup_cons] at h
    rcases List.mem_cons.1 hx with hx | hx <;> rcases List.mem_cons.1 hy with hy | hy
    · rw [hx, hy]
    · exact absurd (List.mem_map_of_mem hy) (hf ▸ hx ▸ h.1)
    · exact absurd (List.mem_map_of_mem hx) (hf ▸ hy ▸ h.1)
    · exact ih h.2 hx hy

/-- With different variables, the parameters whose variables are open are the open ones. -/
theorem filter_openParams {q : Search} {m : Matched} (h : (m.params.map Param.id).Nodup) :
    m.params.filter (fun p => ((q.openParams m).map Param.id).contains p.id) = q.openParams m := by
  rw [openParams]
  apply List.filter_congr
  intro p hp
  rw [Bool.eq_iff_iff, List.contains_iff_mem, List.mem_map]
  constructor
  · rintro ⟨p', hp', hid⟩
    obtain ⟨hmem, hopen⟩ := List.mem_filter.1 hp'
    have heq : p' = p := eq_of_nodup_map h hmem hp hid
    exact heq ▸ hopen
  · intro hopen
    exact ⟨p, List.mem_filter.2 ⟨hp, hopen⟩, rfl⟩

/-- The open parameters are among those whose variables are open. -/
theorem length_openParams_le (q : Search) (m : Matched) : (q.openParams m).length ≤
    (m.params.filter fun p => ((q.openParams m).map Param.id).contains p.id).length := by
  rw [openParams]
  have hsub : ∀ p ∈ m.params, (p.isWitness && q.isOpen m.subst p) = true →
      (((m.params.filter fun p => p.isWitness && q.isOpen m.subst p).map Param.id).contains p.id) =
        true := by
    intro p hp hopen
    rw [List.contains_iff_mem]
    exact List.mem_map_of_mem (List.mem_filter.2 ⟨hp, hopen⟩)
  have hboth : m.params.filter (fun p => p.isWitness && q.isOpen m.subst p) =
      (m.params.filter fun p =>
        ((m.params.filter fun p => p.isWitness && q.isOpen m.subst p).map Param.id).contains
          p.id).filter fun p => p.isWitness && q.isOpen m.subst p := by
    rw [List.filter_filter]
    apply List.filter_congr
    intro p hp
    cases hopen : (p.isWitness && q.isOpen m.subst p) with
    | false => rfl
    | true => rw [hsub p hp hopen, Bool.and_true]
  calc (m.params.filter fun p => p.isWitness && q.isOpen m.subst p).length
      _ = _ := congrArg List.length hboth
      _ ≤ _ := List.length_filter_le _ _

end Arguments

/-! ## The round -/

/-- A successful round returns the winner among its survivors. -/
theorem step_winner {q : Search} {solver : Solver} {r : Request} {st : State} {found : Solved}
    (h : (q.step solver r st).1 = .ok found) :
    ∃ w, mostSpecific q.frozen (q.surviveAll solver (goalText q.frozen (q.requirement r))
        (q.matchAll (q.requirement r) r.context q.candidates.values st.next).1
        { st with next := (q.matchAll (q.requirement r) r.context q.candidates.values st.next).2 }).1.1 =
          some w ∧
      found = ⟨w.witness, w.subst⟩ := by
  cases hre : reentry st.stack (goalText q.frozen (q.requirement r)) with
  | some path =>
    rw [step_of_reentry hre] at h
    cases h
  | none =>
    by_cases hempty : (q.matchAll (q.requirement r) r.context q.candidates.values st.next).1.isEmpty
    · rw [step_of_no_match hre rfl hempty] at h
      cases h
    · rw [step_of_matches hre rfl hempty rfl] at h
      exact choose_winner h

/-- **What a successful round did**: some candidate matched, with new variables from the counter on; its
    dependencies were solved; and the outcome is its witness with the bindings at the end. -/
theorem step_ok {q : Search} {solver : Solver} (hnext : ∀ r st, st.next ≤ (solver r st).2.next)
    {r : Request} {st : State} {found : Solved} (h : (q.step solver r st).1 = .ok found) :
    ∃ c ∈ q.candidates.values, ∃ n m, st.next ≤ n ∧
      q.match? c (q.requirement r) r.context n = some m ∧
      ∃ w st₁ st₂, st.next ≤ st₁.next ∧
        q.survive solver (goalText q.frozen (q.requirement r)) m st₁ = (.ok w, st₂) ∧
        found = ⟨w.witness, w.subst⟩ := by
  obtain ⟨w, hwinner, hfound⟩ := step_winner h
  obtain ⟨m, hm, st₁, st₂, hle, hsurvive⟩ := mem_surviveAll hnext (mem_of_mostSpecific hwinner)
  obtain ⟨c, hc, n, hn, hmatch⟩ := mem_matchAll hm
  have hfirst := le_matchAll_next q (q.requirement r) r.context q.candidates.values st.next
  exact ⟨c, hc, n, m, hn, hmatch, w, st₁, st₂, Nat.le_trans hfirst hle, hsurvive, hfound⟩

end InstanceSearch.Search
