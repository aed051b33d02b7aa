/-
  A search only adds bindings.

  Everything that the search does to a substitution is unification, so what holds of a unification holds
  of the whole search: the bindings that it starts from stay, in order; new ones are for variables that
  are neither bound nor frozen; and no cycle arises.

  THE VARIABLES
    The new bindings stay within any set of variables that is `Roomy`: it holds the variables of the
    candidates, as they are used by the search, and all that the counter will still give.  With all
    variables in the set nothing is asked for (`roomy_true`).
-/
import InstanceSearch.Proofs.Search.Calls
import InstanceSearch.Proofs.Search.Rounds

namespace InstanceSearch.Search

/-- The variables `P` are enough for a search whose counter is at `n` or above. -/
structure Roomy (q : Search) (P : VarId → Prop) (n : VarId) : Prop where
  offered : ∀ c ∈ q.candidates.values, ∀ k, n ≤ k →
    ∀ d ∈ q.catalog.expand (c.offers.map (newVars c.params k).applyTo), ∀ v ∈ d.vars, P v
  params : ∀ c ∈ q.candidates.values, ∀ k, n ≤ k →
    ∀ p ∈ c.params, ∀ d ∈ (p.rename (newVars c.params k)).constraints, ∀ v ∈ d.vars, P v

theorem roomy_true (q : Search) (n : VarId) : q.Roomy (fun _ => True) n where
  offered _ _ _ _ _ _ _ _ := trivial
  params _ _ _ _ _ _ _ _ _ _ := trivial

/-! ## What is asked for -/

/-- A goal is one of the constraints, with the bindings applied. -/
theorem mem_requirement {q : Search} {r : Request} {c : Capability} (h : c ∈ q.requirement r) :
    ∃ d ∈ r.constraints, c = r.context.applyTo d := by
  have hm : c ∈ r.constraints.map r.context.applyTo := by
    unfold requirement at h
    dsimp only at h
    split at h
    · exact FirstSeen.mem_of_mem_ofList (List.mem_filter.1 h).1
    · exact h
  obtain ⟨d, hd, hc⟩ := List.mem_map.1 hm
  exact ⟨d, hd, hc.symm⟩

/-- The variables of a goal are those of the constraints and of the bindings. -/
theorem requirement_vars {q : Search} {P : VarId → Prop} {r : Request}
    (hs : ∀ v ∈ r.context.vars, P v) (hr : ∀ c ∈ r.constraints, ∀ v ∈ c.vars, P v) :
    ∀ c ∈ q.requirement r, ∀ v ∈ c.vars, P v := by
  intro c hc v hv
  obtain ⟨d, hd, rfl⟩ := mem_requirement hc
  rcases Subst.mem_vars_applyTo hv with hv | hv
  · exact hr d hd v hv
  · exact hs v hv

/-! ## Growth -/

section Growth

variable {q : Search} {P : VarId → Prop} {n : VarId}

/-- What a solver does to the bindings of the requests that it answers. -/
def GrowsAt (q : Search) (P : VarId → Prop) (n : VarId) (solver : Solver) : Prop :=
  ∀ (r : Request) (st : State) (found : Solved), n ≤ st.next → r.context.Acyclic →
    (∀ v ∈ r.context.vars, P v) → (∀ c ∈ r.constraints, ∀ v ∈ c.vars, P v) →
    (solver r st).1 = .ok found → Subst.Grows q.frozen P r.context found.subst

/-- A match only adds bindings, and makes every required capability equal to an offered one. -/
theorem match?_grows (hroom : q.Roomy P n) {c : Candidate} (hc : c ∈ q.candidates.values) {r : Request}
    {k : VarId} (hk : n ≤ k) {m : Matched} (hs : r.context.Acyclic)
    (hsP : ∀ v ∈ r.context.vars, P v) (hrP : ∀ c ∈ r.constraints, ∀ v ∈ c.vars, P v)
    (h : q.match? c (q.requirement r) r.context k = some m) :
    Subst.Grows q.frozen P r.context m.subst ∧
      ∀ a ∈ q.requirement r, ∃ d ∈ q.catalog.expand (c.offers.map (newVars c.params k).applyTo),
        (m.subst.applyTo d).anon = (m.subst.applyTo a).anon := by
  obtain ⟨_, _, hcover⟩ := match?_ok h
  exact cover_ok hs hsP (hroom.offered c hc k hk) (requirement_vars hsP hrP) hcover

/-- The constraints that a match has open stay within `P`. -/
theorem openParams_within (hroom : q.Roomy P n) {c : Candidate} (hc : c ∈ q.candidates.values)
    {required : List Capability} {context : Subst} {k : VarId} (hk : n ≤ k) {m : Matched}
    (h : q.match? c required context k = some m) :
    ∀ p ∈ q.openParams m, ∀ d ∈ p.constraints, ∀ v ∈ d.vars, P v := by
  intro p hp
  have hmem := (List.mem_filter.1 hp).1
  rw [(match?_ok h).2.1, List.mem_map] at hmem
  obtain ⟨p', hp', rfl⟩ := hmem
  exact hroom.params c hc k hk p' hp'

/-- A chain of dependencies only adds bindings. -/
theorem Chain.grows {solver : Solver} (hnext : ∀ r st, st.next ≤ (solver r st).2.next)
    (hsolver : q.GrowsAt P n solver) {ps : List Param} {s s' : Subst} {st st' : State}
    {found : List Solved} (h : Chain solver ps s st found s' st') (hn : n ≤ st.next) (hs : s.Acyclic)
    (hsP : ∀ v ∈ s.vars, P v) (hps : ∀ p ∈ ps, ∀ d ∈ p.constraints, ∀ v ∈ d.vars, P v) :
    Subst.Grows q.frozen P s s' := by
  induction h with
  | nil => exact .refl hs
  | cons first more ih =>
    rename_i p ps s s' st st₁ st' f rest
    have hgrow := hsolver ⟨p.name, p.constraints, s⟩ st f hn hs hsP (hps p (by simp)) (by rw [first])
    have hle : st.next ≤ st₁.next := by
      have := hnext ⟨p.name, p.constraints, s⟩ st
      rwa [first] at this
    exact hgrow.trans (ih (Nat.le_trans hn hle) hgrow.acyclic (hgrow.forall_vars hsP)
      fun p' hp' => hps p' (by simp [hp']))

/-- One round adds bindings only, if its solver does. -/
theorem step_grows (hroom : q.Roomy P n) {solver : Solver}
    (hnext : ∀ r st, st.next ≤ (solver r st).2.next) (hsolver : q.GrowsAt P n solver) :
    q.GrowsAt P n (q.step solver) := by
  intro r st found hn hs hsP hrP h
  obtain ⟨c, hc, k, m, hk, hmatch, w, st₁, st₂, hst, hsurvive, rfl⟩ := step_ok hnext h
  have hk' := Nat.le_trans hn hk
  obtain ⟨hgrow, _⟩ := match?_grows hroom hc hk' hs hsP hrP hmatch
  rcases survive_ok hsurvive with ⟨p, _, _, hw⟩ | ⟨i, found, st₃, _, hchain, _⟩
  · rw [hw]
    exact hgrow
  · exact hgrow.trans (hchain.grows hnext hsolver (Nat.le_trans hn hst) hgrow.acyclic
      (hgrow.forall_vars hsP) (openParams_within hroom hc hk' hmatch))

/-- **A search only adds bindings**, for variables that are neither bound nor frozen. -/
theorem solve_grows (hroom : q.Roomy P n) (levels : Nat) : q.GrowsAt P n (q.solve levels) := by
  induction levels with
  | zero => exact fun r st found _ _ _ _ h => nomatch h
  | succ levels ih => exact step_grows hroom (q.solve_next_le levels) ih

/-! ## What is asked along the way -/

/-- A request within `P`, under bindings without cycles, with a counter at `n` or above. -/
structure Confined (P : VarId → Prop) (n : VarId) (r : Request) (st : State) : Prop where
  next : n ≤ st.next
  acyclic : r.context.Acyclic
  context : ∀ v ∈ r.context.vars, P v
  constraints : ∀ c ∈ r.constraints, ∀ v ∈ c.vars, P v

/-- What parameters ask for, one after the other, stays within `P`. -/
theorem confined_of_mem_paramCalls {solver : Solver} (hnext : ∀ r st, st.next ≤ (solver r st).2.next)
    (hsolver : q.GrowsAt P n solver) {ps : List Param} {s : Subst} {st : State} (hn : n ≤ st.next)
    (hs : s.Acyclic) (hsP : ∀ v ∈ s.vars, P v)
    (hps : ∀ p ∈ ps, ∀ d ∈ p.constraints, ∀ v ∈ d.vars, P v) {c : Request × State}
    (hc : c ∈ paramCalls solver ps s st) : Confined P n c.1 c.2 := by
  induction ps generalizing s st with
  | nil => cases hc
  | cons p ps ih =>
    rw [List.forall_mem_cons] at hps
    have hle := hnext ⟨p.name, p.constraints, s⟩ st
    have hgrow := fun f => hsolver ⟨p.name, p.constraints, s⟩ st f hn hs hsP hps.1
    rw [paramCalls, List.mem_cons] at hc
    rcases hc with rfl | hc
    · exact ⟨hn, hs, hsP, hps.1⟩
    · rcases hout : solver ⟨p.name, p.constraints, s⟩ st with ⟨e | found, st₁⟩
      · rw [hout] at hc
        cases hc
      · rw [hout] at hc hle hgrow
        exact ih (Nat.le_trans hn hle) (hgrow found rfl).acyclic ((hgrow found rfl).forall_vars hsP)
          hps.2 hc

/-- What matches ask for, one after the other, stays within `P`, if their bindings and open parameters
    do. -/
theorem confined_of_mem_surviveAllCalls {solver : Solver}
    (hnext : ∀ r st, st.next ≤ (solver r st).2.next) (hsolver : q.GrowsAt P n solver) {goal : String}
    {ms : List Matched} {st : State} (hn : n ≤ st.next)
    (hms : ∀ m ∈ ms, m.subst.Acyclic ∧ (∀ v ∈ m.subst.vars, P v) ∧
      ∀ p ∈ q.openParams m, ∀ d ∈ p.constraints, ∀ v ∈ d.vars, P v) {c : Request × State}
    (hc : c ∈ q.surviveAllCalls solver goal ms st) : Confined P n c.1 c.2 := by
  induction ms generalizing st with
  | nil => cases hc
  | cons m ms ih =>
    rw [List.forall_mem_cons] at hms
    obtain ⟨⟨hs, hsP, hps⟩, hrest⟩ := hms
    rw [surviveAllCalls, List.mem_append] at hc
    rcases hc with hc | hc
    · unfold surviveCalls at hc
      split at hc
      · cases hc
      · dsimp only at hc
        split at hc
        · cases hc
        · refine confined_of_mem_paramCalls hnext hsolver ?_ hs hsP hps hc
          exact hn
    · exact ih (Nat.le_trans hn (persistent_next.survive_state hnext _ m st)) hrest hc

/-- **What one round asks for stays within `P`**, if what it is asked for does. -/
theorem confined_of_mem_stepCalls (hroom : q.Roomy P n) {solver : Solver}
    (hnext : ∀ r st, st.next ≤ (solver r st).2.next) (hsolver : q.GrowsAt P n solver) {r : Request}
    {st : State} (h : Confined P n r st) {c : Request × State} (hc : c ∈ q.stepCalls solver r st) :
    Confined P n c.1 c.2 := by
  -- every match leads to bindings and open parameters within `P`
  have hmatches : ∀ m ∈ (q.matchAll (q.requirement r) r.context q.candidates.values st.next).1,
      m.subst.Acyclic ∧ (∀ v ∈ m.subst.vars, P v) ∧
        ∀ p ∈ q.openParams m, ∀ d ∈ p.constraints, ∀ v ∈ d.vars, P v := by
    intro m hm
    obtain ⟨c, hc, k, hk, hmatch⟩ := mem_matchAll hm
    have hgrow := (match?_grows hroom hc (Nat.le_trans h.next hk) h.acyclic h.context h.constraints
      hmatch).1
    exact ⟨hgrow.acyclic, hgrow.forall_vars h.context,
      openParams_within hroom hc (Nat.le_trans h.next hk) hmatch⟩
  unfold stepCalls at hc
  split at hc
  · cases hc
  · exact confined_of_mem_surviveAllCalls hnext hsolver (Nat.le_trans h.next (le_matchAll_next ..))
      hmatches hc

end Growth

end InstanceSearch.Search
