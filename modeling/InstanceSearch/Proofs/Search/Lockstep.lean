/-
  Two searches in step.

  Two searches go IN STEP if they make the same turns: they try the same candidates at the same new
  variables, match the same ones, nest the same calls, and fail together.  They need not work on the same
  bindings, and the texts of their goals may differ.

  WHAT RELATES THEM
    * A `Bond` says how the bindings of one search correspond to those of the other, and how the types in
      the witnesses do.  It has to keep the same variables open.
    * `U` relates the texts of goals.  The cycle guard compares a new goal with those in flight, so it
      works the same way on both sides where `U` does not mix goals up (`Separates`).
    * Failures agree in everything but the goals that they speak of (`SearchError.bare`).

  THE METHOD
    One lemma for each part of a round, with what is needed of the parts below it as an argument:
    `solveParams_together`, `survive_together`, `surviveAll_together`, `choose_together`, and from them
    `step_together`.  What is assumed of the solver is assumed at the calls of the first search only.
-/
import InstanceSearch.Proofs.Search.Calls
import InstanceSearch.Proofs.Search.Choice
import InstanceSearch.Proofs.Search.CycleGuard
import InstanceSearch.Proofs.Search.Growth
import InstanceSearch.Proofs.Search.Order
import InstanceSearch.Proofs.Unify.Variants

namespace InstanceSearch

/-! ## Failures without their goals -/

/-- `e.bare` = the failure without the capabilities that were required and without the path of a cycle. -/
def SearchError.bare : SearchError → SearchError
  | .noInstance label _ rejected => .noInstance label [] rejected
  | .ambiguous label _ candidates => .ambiguous label [] candidates
  | .cyclic label _ => .cyclic label []
  | .depthLimit label limit => .depthLimit label limit

/-- The kind of a failure is that of the bare one. -/
@[simp] theorem SearchError.tag_bare (e : SearchError) : e.bare.tag = e.tag := by
  cases e <;> rfl

/-- Failures that agree in everything but their goals have one tag. -/
theorem SearchError.tag_eq_of_bare {e e' : SearchError} (h : e.bare = e'.bare) : e.tag = e'.tag := by
  rw [← tag_bare e, h, tag_bare]

/-! ## Witnesses of the same shape -/

mutual
/-- `Like T w w'`: the same instances in the same places, and corresponding types related by `T`. -/
inductive Witness.Like (T : Ty → Ty → Prop) : Witness → Witness → Prop where
  | ambient {var : VarId} {name : String} : Witness.Like T (.ambient var name) (.ambient var name)
  | apply {id : InstanceId} {name : String} {args args' : List Argument}
      (h : Argument.LikeAll T args args') :
      Witness.Like T (.apply id name args) (.apply id name args')

/-- The same for lists of arguments. -/
inductive Argument.LikeAll (T : Ty → Ty → Prop) : List Argument → List Argument → Prop where
  | nil : Argument.LikeAll T [] []
  | type {t t' : Ty} {as as' : List Argument} (h : T t t') (more : Argument.LikeAll T as as') :
      Argument.LikeAll T (.type t :: as) (.type t' :: as')
  | witness {w w' : Witness} {as as' : List Argument} (h : Witness.Like T w w')
      (more : Argument.LikeAll T as as') : Argument.LikeAll T (.witness w :: as) (.witness w' :: as')
end

mutual
theorem Witness.Like.mono {T T' : Ty → Ty → Prop} (hT : ∀ t t', T t t' → T' t t') :
    ∀ {w w' : Witness}, Witness.Like T w w' → Witness.Like T' w w'
  | _, _, .ambient => .ambient
  | _, _, .apply h => .apply (Argument.LikeAll.mono hT h)

theorem Argument.LikeAll.mono {T T' : Ty → Ty → Prop} (hT : ∀ t t', T t t' → T' t t') :
    ∀ {as as' : List Argument}, Argument.LikeAll T as as' → Argument.LikeAll T' as as'
  | _, _, .nil => .nil
  | _, _, .type h more => .type (hT _ _ h) (Argument.LikeAll.mono hT more)
  | _, _, .witness h more => .witness (Witness.Like.mono hT h) (Argument.LikeAll.mono hT more)
end

mutual
theorem Witness.Like.trans {T T' T'' : Ty → Ty → Prop} (hT : ∀ t t' t'', T t t' → T' t' t'' → T'' t t'') :
    ∀ {w w' w'' : Witness}, Witness.Like T w w' → Witness.Like T' w' w'' → Witness.Like T'' w w''
  | _, _, _, .ambient, .ambient => .ambient
  | _, _, _, .apply h, .apply h' => .apply (Argument.LikeAll.trans hT h h')

theorem Argument.LikeAll.trans {T T' T'' : Ty → Ty → Prop}
    (hT : ∀ t t' t'', T t t' → T' t' t'' → T'' t t'') :
    ∀ {as as' as'' : List Argument}, Argument.LikeAll T as as' → Argument.LikeAll T' as' as'' →
      Argument.LikeAll T'' as as''
  | _, _, _, .nil, .nil => .nil
  | _, _, _, .type h more, .type h' more' => .type (hT _ _ _ h h') (Argument.LikeAll.trans hT more more')
  | _, _, _, .witness h more, .witness h' more' =>
    .witness (Witness.Like.trans hT h h') (Argument.LikeAll.trans hT more more')
end

namespace Search

/-! ## What relates two searches -/

/-- How the bindings of one search correspond to those of another, and, under the bindings of the other,
    the types in what they find. -/
structure Bond (frozen : VarSet) where
  substs : Subst → Subst → Prop
  types : Subst → Ty → Ty → Prop
  acyclic {s s' : Subst} (h : substs s s') : s.Acyclic ∧ s'.Acyclic
  opens {s s' : Subst} (h : substs s s') (t : Ty) :
    (∃ v, (s'.apply t).asVar? = some v ∧ v ∉ frozen) ↔ ∃ v, (s.apply t).asVar? = some v ∧ v ∉ frozen
  rendered {s s' : Subst} (h : substs s s') (t : Ty) : types s' (s.apply t) (s'.apply t)
  later {s s₁ : Subst} {t t' : Ty} (hs : s.Acyclic) (hs₁ : s₁.Acyclic) (hext : s₁.Extends s)
    (h : types s t t') : types s₁ t t'

theorem isOpen_iff {q : Search} {s : Subst} {p : Param} : q.isOpen s p = true ↔
    ∃ v, (s.apply p.asTy).asVar? = some v ∧ v ∉ q.frozen := by
  unfold isOpen
  cases (s.apply p.asTy).asVar? <;> simp

/-- The same parameters are open. -/
theorem Bond.isOpen {q : Search} (B : Bond q.frozen) {s s' : Subst} (h : B.substs s s') (p : Param) :
    q.isOpen s' p = q.isOpen s p := by
  rw [Bool.eq_iff_iff, isOpen_iff, isOpen_iff, B.opens h]

/-- What was found corresponds. -/
structure Bond.Solved {frozen : VarSet} (B : Bond frozen) (found found' : Search.Solved) : Prop where
  substs : B.substs found.subst found'.subst
  witness : Witness.Like (B.types found'.subst) found.witness found'.witness

/-- Two states correspond: the counters agree, and the same instances are in flight, for goals that `U`
    relates. -/
structure Corresponds (U : String → String → Prop) (st st' : State) : Prop where
  next : st'.next = st.next
  stack : List.Forall₂ (fun a a' : Attempt => a'.name = a.name ∧ U a.goal a'.goal) st.stack st'.stack

/-- `Separates U goal goal'`: the two goals are in flight together. -/
def Separates (U : String → String → Prop) (goal goal' : String) : Prop :=
  ∀ g g', U g g' → (g = goal ↔ g' = goal')

/-- Two answers: results that are there together, and states that correspond. -/
structure Parallel {ε α β : Type} (U : String → String → Prop) (E : ε → ε → Prop) (R : α → β → Prop)
    (x : Except ε α × State) (x' : Except ε β × State) : Prop where
  outcome : Together E R x.1 x'.1
  state : Corresponds U x.2 x'.2

/-- Failures that agree in everything but their goals. -/
abbrev SameFailure (e e' : SearchError) : Prop := e.bare = e'.bare

/-- At a call of the first solver, the second one, asked for the same under bindings that correspond,
    answers what corresponds. -/
def Follows {frozen : VarSet} (B : Bond frozen) (U : String → String → Prop) (solver solver' : Solver)
    (c : Request × State) : Prop :=
  ∀ s' st', B.substs c.1.context s' → Corresponds U c.2 st' →
    Parallel U SameFailure B.Solved (solver c.1 c.2) (solver' ⟨c.1.label, c.1.constraints, s'⟩ st')

section States

variable {U : String → String → Prop} {st st' : State}

theorem Corresponds.push (h : Corresponds U st st') {goal goal' : String} (hU : U goal goal')
    (name : String) :
    Corresponds U { st with stack := ⟨name, goal⟩ :: st.stack }
      { st' with stack := ⟨name, goal'⟩ :: st'.stack } where
  next := h.next
  stack := .cons ⟨rfl, hU⟩ h.stack

theorem Corresponds.pop (h : Corresponds U st st') :
    Corresponds U { st with stack := st.stack.tail } { st' with stack := st'.stack.tail } where
  next := h.next
  stack := by
    have hstack := h.stack
    generalize st.stack = as, st'.stack = as' at hstack
    cases hstack with
    | nil => exact .nil
    | cons _ more => exact more

theorem Corresponds.mono (h : Corresponds U st st') {U' : String → String → Prop}
    (hU : ∀ g g', U g g' → U' g g') : Corresponds U' st st' where
  next := h.next
  stack := h.stack.imp fun _ _ ha => ⟨ha.1, hU _ _ ha.2⟩

/-- Answers that give the stacks back leave them as they corresponded before. -/
theorem Parallel.of_stack {ε α β : Type} {U' : String → String → Prop} {E : ε → ε → Prop}
    {R : α → β → Prop} {x : Except ε α × State} {x' : Except ε β × State} (h : Parallel U' E R x x')
    (hx : x.2.stack = st.stack) (hx' : x'.2.stack = st'.stack) (hst : Corresponds U st st') :
    Parallel U E R x x' where
  outcome := h.outcome
  state := ⟨h.state.next, by rw [hx, hx']; exact hst.stack⟩

/-- **The cycle guard works the same way on both sides.** -/
theorem Corresponds.reentry (h : Corresponds U st st') {goal goal' : String}
    (hU : Separates U goal goal') :
    (reentry st.stack goal).isSome = (reentry st'.stack goal').isSome := by
  have hmem : ∀ {as as' : List Attempt},
      List.Forall₂ (fun a a' : Attempt => a'.name = a.name ∧ U a.goal a'.goal) as as' →
      (goal ∈ as.map Attempt.goal ↔ goal' ∈ as'.map Attempt.goal) := by
    intro as as' has
    induction has with
    | nil => exact ⟨fun h => (nomatch h), fun h => nomatch h⟩
    | cons ha _ ih =>
      rw [List.map_cons, List.map_cons, List.mem_cons, List.mem_cons, ih, eq_comm, hU _ _ ha.2, eq_comm]
  have hnone : Search.reentry st.stack goal = none ↔ Search.reentry st'.stack goal' = none := by
    rw [reentry_eq_none_iff, reentry_eq_none_iff, hmem h.stack]
  rw [Bool.eq_iff_iff, Option.isSome_iff_ne_none, Option.isSome_iff_ne_none, ne_eq, ne_eq, hnone]

end States

/-! ## Matching -/

/-- Candidates with the numbers that their new variables are counted from. -/
def numbered : List Candidate → VarId → List (Candidate × VarId)
  | [], _ => []
  | c :: cs, n => (c, n) :: numbered cs (n + c.params.length)

theorem mem_numbered {cs : List Candidate} {n : VarId} {e : Candidate × VarId}
    (h : e ∈ numbered cs n) : e.1 ∈ cs ∧ n ≤ e.2 := by
  induction cs generalizing n with
  | nil => cases h
  | cons c cs ih =>
    rcases List.mem_cons.1 h with rfl | h
    · exact ⟨List.mem_cons_self, Nat.le_refl n⟩
    · obtain ⟨hmem, hle⟩ := ih h
      exact ⟨List.mem_cons_of_mem c hmem, Nat.le_trans (Nat.le_add_right n c.params.length) hle⟩

/-- Two attempts to match: both fail, or both succeed with what `F` relates. -/
def MatchTogether (F : Matched → Matched → Prop) (o o' : Option Matched) : Prop :=
  (o = none ∧ o' = none) ∨ ∃ m m', o = some m ∧ o' = some m' ∧ F m m'

/-- The matches correspond if those of each candidate do. -/
theorem matchAll_together {q : Search} {F : Matched → Matched → Prop}
    {required required' : List Capability} {context context' : Subst} {cs : List Candidate} {n : VarId}
    (h : ∀ e ∈ numbered cs n, MatchTogether F (q.match? e.1 required context e.2)
      (q.match? e.1 required' context' e.2)) :
    List.Forall₂ F (q.matchAll required context cs n).1 (q.matchAll required' context' cs n).1 := by
  induction cs generalizing n with
  | nil => exact .nil
  | cons c cs ih =>
    rw [numbered, List.forall_mem_cons] at h
    rw [matchAll_cons, matchAll_cons]
    rcases h.1 with ⟨hm, hm'⟩ | ⟨m, m', hm, hm', hF⟩
    · rw [hm, hm']
      exact ih h.2
    · rw [hm, hm']
      exact .cons hF (ih h.2)

/-! ## Dependencies -/

section Dependencies

variable {q : Search} {B : Bond q.frozen} {U : String → String → Prop} {solver solver' : Solver}

/-- Chains of dependencies go in step. -/
theorem solveParams_together (hgrows : q.GrowsAt (fun _ => True) 0 solver') {ps : List Param}
    {s s' : Subst} {st st' : State} (hs : B.substs s s') (hst : Corresponds U st st')
    (h : ∀ c ∈ paramCalls solver ps s st, Follows B U solver solver' c) :
    Parallel U SameFailure (fun x x' : Subst × List Witness => B.substs x.1 x'.1 ∧ x'.1.Extends s' ∧
        List.Forall₂ (Witness.Like (B.types x'.1)) x.2 x'.2)
      (solveParams solver ps s st) (solveParams solver' ps s' st') := by
  induction ps generalizing s s' st st' with
  | nil => exact ⟨.ok ⟨hs, .refl s', .nil⟩, hst⟩
  | cons p ps ih =>
    rw [paramCalls, List.forall_mem_cons] at h
    obtain ⟨hfirst, hrest⟩ := h
    have hpar := hfirst s' st' hs hst
    dsimp only at hpar
    rcases hx : solver ⟨p.name, p.constraints, s⟩ st with ⟨x, st₁⟩
    rcases hx' : solver' ⟨p.name, p.constraints, s'⟩ st' with ⟨x', st₁'⟩
    rw [hx, hx'] at hpar
    obtain ⟨hout, hst₁⟩ := hpar
    cases hout with
    | error he =>
      rw [solveParams_of_error hx, solveParams_of_error hx']
      exact ⟨.error he, hst₁⟩
    | ok hfound =>
      rename_i found found'
      rw [hx] at hrest
      have hgrow := hgrows ⟨p.name, p.constraints, s'⟩ st' found' (Nat.zero_le _) (B.acyclic hs).2
        (fun _ _ => trivial) (fun _ _ _ _ => trivial) (by rw [hx'])
      have hmore := ih hfound.substs hst₁ hrest
      rcases hy : solveParams solver ps found.subst st₁ with ⟨y, st₂⟩
      rcases hy' : solveParams solver' ps found'.subst st₁' with ⟨y', st₂'⟩
      rw [hy, hy'] at hmore
      rw [solveParams_of_ok hx hy, solveParams_of_ok hx' hy']
      obtain ⟨hout, hst₂⟩ := hmore
      refine ⟨?_, hst₂⟩
      cases hout with
      | error he => exact .error he
      | ok hend =>
        obtain ⟨hsubsts, hext, hwitnesses⟩ := hend
        refine .ok ⟨hsubsts, hgrow.isExtension.trans hext, .cons ?_ hwitnesses⟩
        exact hfound.witness.mono fun _ _ => B.later hgrow.acyclic (B.acyclic hsubsts).2 hext

/-- The arguments of an instance correspond. -/
theorem arguments_like {s s' : Subst} (hs : B.substs s s') (opened : List VarId) (ps : List Param)
    {ws ws' : List Witness} (hws : List.Forall₂ (Witness.Like (B.types s')) ws ws') :
    Argument.LikeAll (B.types s') (arguments opened s ps ws) (arguments opened s' ps ws') := by
  induction ps generalizing ws ws' with
  | nil => exact .nil
  | cons p ps ih =>
    by_cases hp : opened.contains p.id = true
    · cases hws with
      | nil =>
        rw [arguments_of_spent hp, arguments_of_spent hp]
        exact .type (B.rendered hs p.asTy) (ih .nil)
      | cons hw hmore =>
        rw [arguments_of_open hp, arguments_of_open hp]
        exact .witness hw (ih hmore)
    · rw [arguments_of_closed hp, arguments_of_closed hp]
      exact .type (B.rendered hs p.asTy) (ih hws)

/-- Two matches of the same candidate at the same new variables, under bindings that correspond. -/
structure Fits {frozen : VarSet} (B : Bond frozen) (m m' : Matched) : Prop where
  candidate : m'.candidate = m.candidate
  params : m'.params = m.params
  substs : B.substs m.subst m'.subst

theorem Fits.openParams {m m' : Matched} (h : Fits B m m') : q.openParams m' = q.openParams m := by
  unfold Search.openParams
  rw [h.params]
  exact List.filter_congr fun p _ => by rw [B.isOpen h.substs p]

/-- Two survivors of two matches, for which what `W` says was found. -/
structure Survived (W : Solved → Solved → Prop) (m m' : Matched) (w w' : Survivor) : Prop where
  candidate : w'.candidate = w.candidate
  patterns : w.patterns = m.patterns
  patterns' : w'.patterns = m'.patterns
  solved : W ⟨w.witness, w.subst⟩ ⟨w'.witness, w'.subst⟩

/-- Rejections that count the same. -/
abbrev SameRejection (r r' : Rejection) : Prop := ∀ name, signs (name, r') = signs (name, r)

theorem sameSigns_of_bare {e e' : SearchError} (h : SameFailure e e') : SameSigns e e' := by
  intro name
  cases e <;> cases e' <;> simp [SameFailure, SearchError.bare] at h <;> rfl

/-- What becomes of two matches that fit. -/
theorem survive_together (hgrows : q.GrowsAt (fun _ => True) 0 solver') {goal goal' : String}
    (hU : U goal goal') {m m' : Matched} (hm : Fits B m m') {st st' : State}
    (hst : Corresponds U st st')
    (h : ∀ c ∈ q.surviveCalls solver goal m st, Follows B U solver solver' c) :
    Parallel U SameRejection (Survived B.Solved m m') (q.survive solver goal m st)
      (q.survive solver' goal' m' st') := by
  cases hc : m.candidate with
  | ambient p =>
    rw [survive_of_ambient hc, survive_of_ambient (hm.candidate.trans hc)]
    exact ⟨.ok ⟨hm.candidate, rfl, rfl, hm.substs, .ambient⟩, hst⟩
  | declared i =>
    have hc' : m'.candidate = .declared i := hm.candidate.trans hc
    have hrefuses : q.Refuses m' ↔ q.Refuses m := by
      unfold Refuses
      rw [hm.openParams]
    by_cases hpolicy : q.Refuses m
    · rw [survive_of_refused hc hpolicy, survive_of_refused hc' (hrefuses.2 hpolicy)]
      exact ⟨.error fun _ => rfl, hst⟩
    · have hcalls : ∀ c ∈ paramCalls solver (q.openParams m) m.subst
          { st with stack := ⟨i.name, goal⟩ :: st.stack }, Follows B U solver solver' c := by
        unfold surviveCalls at h
        rw [hc] at h
        rw [Refuses] at hpolicy
        dsimp only at h
        rw [if_neg hpolicy] at h
        exact h
      have hpar := solveParams_together hgrows hm.substs (hst.push hU i.name) hcalls
      rcases hx : solveParams solver (q.openParams m) m.subst
        { st with stack := ⟨i.name, goal⟩ :: st.stack } with ⟨x, st₁⟩
      rcases hx' : solveParams solver' (q.openParams m) m'.subst
        { st' with stack := ⟨i.name, goal'⟩ :: st'.stack } with ⟨x', st₁'⟩
      rw [hx, hx'] at hpar
      rw [survive_of_solved hc hpolicy st hx,
        survive_of_solved hc' (fun hp => hpolicy (hrefuses.1 hp)) st' (by rw [hm.openParams, hx'])]
      obtain ⟨hout, hst₁⟩ := hpar
      refine ⟨?_, hst₁.pop⟩
      cases hout with
      | error he => exact .error fun name => sameSigns_of_bare he name
      | ok hend =>
        obtain ⟨hsubsts, _, hwitnesses⟩ := hend
        refine .ok ⟨hm.candidate, rfl, rfl, hsubsts, .apply ?_⟩
        rw [hm.openParams, hm.params]
        exact arguments_like hsubsts _ _ hwitnesses

end Dependencies

/-! ## All matches -/

/-- Two accounts of what became of the matches: survivors that `R` relates, in the same order, and
    rejections that count the same. -/
structure Accounts (R : Survivor → Survivor → Prop)
    (xs xs' : List Survivor × List (String × Rejection)) : Prop where
  survivors : List.Forall₂ R xs.1 xs'.1
  rejected : xs'.2.map signs = xs.2.map signs

section All

variable {q : Search} {U : String → String → Prop} {solver solver' : Solver}

/-- What becomes of all matches, if each of them goes in step. -/
theorem surviveAll_together {goal goal' : String} {F : Matched → Matched → Prop}
    {R : Survivor → Survivor → Prop} {P : Request × State → Prop}
    (hF : ∀ m m', F m m' → m'.candidate = m.candidate)
    (hsurvive : ∀ m m' st st', F m m' → Corresponds U st st' →
      (∀ c ∈ q.surviveCalls solver goal m st, P c) →
      Parallel U SameRejection R (q.survive solver goal m st) (q.survive solver' goal' m' st'))
    {ms ms' : List Matched} (hms : List.Forall₂ F ms ms') {st st' : State}
    (hst : Corresponds U st st') (hcalls : ∀ c ∈ q.surviveAllCalls solver goal ms st, P c) :
    Accounts R (q.surviveAll solver goal ms st).1 (q.surviveAll solver' goal' ms' st').1 ∧
      Corresponds U (q.surviveAll solver goal ms st).2 (q.surviveAll solver' goal' ms' st').2 := by
  induction hms generalizing st st' with
  | nil => exact ⟨⟨.nil, rfl⟩, hst⟩
  | @cons m m' ms ms' hm _ ih =>
    rw [surviveAllCalls] at hcalls
    have hpar := hsurvive m m' st st' hm hst fun c hc => hcalls c (List.mem_append.2 (Or.inl hc))
    rcases hx : q.survive solver goal m st with ⟨x, st₁⟩
    rcases hx' : q.survive solver' goal' m' st' with ⟨x', st₁'⟩
    rw [hx] at hcalls
    rw [hx, hx'] at hpar
    obtain ⟨hout, hst₁⟩ := hpar
    obtain ⟨hrest, hst₂⟩ := ih hst₁ fun c hc => hcalls c (List.mem_append.2 (Or.inr hc))
    rw [surviveAll_cons hx rfl, surviveAll_cons hx' rfl]
    refine ⟨?_, hst₂⟩
    cases hout with
    | ok hw => exact ⟨.cons hw hrest.survivors, hrest.rejected⟩
    | error hr =>
      refine ⟨hrest.survivors, ?_⟩
      simp only [addSurvival, List.map_cons, hr, hF m m' hm, hrest.rejected]

/-! ## The choice -/

/-- A list that corresponds to one with a distinguished member has its counterpart. -/
theorem forall₂_split {α β : Type} {R : α → β → Prop} {before after : List α} {a : α} {bs : List β}
    (h : List.Forall₂ R (before ++ a :: after) bs) :
    ∃ before' b after', bs = before' ++ b :: after' ∧ List.Forall₂ R before before' ∧ R a b ∧
      List.Forall₂ R after after' := by
  induction before generalizing bs with
  | nil =>
    cases h with
    | cons hab hrest => exact ⟨[], _, _, rfl, .nil, hab, hrest⟩
  | cons x before ih =>
    cases h with
    | cons hx hrest =>
      obtain ⟨before', b, after', rfl, hbefore, hab, hafter⟩ := ih hrest
      exact ⟨_ :: before', b, after', rfl, .cons hx hbefore, hab, hafter⟩

/-- **The same survivor wins**, if the relation keeps which one beats which. -/
theorem mostSpecific_together {frozen : VarSet} {R : Survivor → Survivor → Prop}
    (hbeats : ∀ a a' b b', R a a' → R b b' → (Beats frozen a b ↔ Beats frozen a' b'))
    {ws ws' : List Survivor} (h : List.Forall₂ R ws ws') :
    (mostSpecific frozen ws = none ∧ mostSpecific frozen ws' = none) ∨
      ∃ w w', mostSpecific frozen ws = some w ∧ mostSpecific frozen ws' = some w' ∧ R w w' := by
  have hsome : ∀ {R : Survivor → Survivor → Prop} {ws ws' : List Survivor} {w : Survivor},
      (∀ a a' b b', R a a' → R b b' → (Beats frozen a b ↔ Beats frozen a' b')) →
      List.Forall₂ R ws ws' → mostSpecific frozen ws = some w →
      ∃ w', mostSpecific frozen ws' = some w' ∧ R w w' := by
    intro R ws ws' w hbeats h hw
    obtain ⟨before, after, rfl, hall⟩ := mostSpecific_eq_some_iff.1 hw
    obtain ⟨before', w', after', rfl, hbefore, hww, hafter⟩ := forall₂_split h
    refine ⟨w', mostSpecific_eq_some_iff.2 ⟨before', after', rfl, fun b' hb' => ?_⟩, hww⟩
    obtain ⟨b, hb, hbb⟩ : ∃ b ∈ before ++ after, R b b' := by
      have hothers : List.Forall₂ R (before ++ after) (before' ++ after') :=
        List.rel_append hbefore hafter
      obtain ⟨i, hi, rfl⟩ := List.getElem_of_mem hb'
      have hi' : i < (before ++ after).length := hothers.length_eq ▸ hi
      exact ⟨_, List.getElem_mem hi', hothers.get hi' hi⟩
    exact (hbeats w w' b b' hww hbb).1 (hall b hb)
  cases hw : mostSpecific frozen ws with
  | some w =>
    obtain ⟨w', hw', hww⟩ := hsome hbeats h hw
    exact Or.inr ⟨w, w', rfl, hw', hww⟩
  | none =>
    cases hw' : mostSpecific frozen ws' with
    | none => exact Or.inl ⟨rfl, rfl⟩
    | some w' =>
      obtain ⟨w, hw₁, _⟩ := hsome (R := flip R)
        (fun a a' b b' ha hb => (hbeats a' a b' b ha hb).symm) h.flip hw'
      rw [hw] at hw₁
      cases hw₁

/-- The same explanation, the goal aside. -/
theorem explain_together (q : Search) (label : String) (required required' : List Capability)
    {rejected rejected' : List (String × Rejection)} (h : rejected'.map signs = rejected.map signs) :
    SameFailure (q.explain label required rejected) (q.explain label required' rejected') := by
  have hlimit : (rejected.any fun r => r.2.isDepthLimit) = rejected'.any fun r => r.2.isDepthLimit := by
    have hany := congrArg (List.any · fun e : String × Bool × Bool => e.2.1) h
    simp only [List.any_map] at hany
    exact hany.symm
  have hcycle : (rejected.findSome? fun r => r.2.cycle?).isSome =
      (rejected'.findSome? fun r => r.2.cycle?).isSome := by
    have hany := congrArg (List.any · fun e : String × Bool × Bool => e.2.2) h
    simp only [List.any_map] at hany
    rw [List.isSome_findSome?, List.isSome_findSome?]
    exact hany.symm
  have hnames : rejected'.map Prod.fst = rejected.map Prod.fst := by
    have hmap := congrArg (List.map Prod.fst) h
    rw [List.map_map, List.map_map] at hmap
    exact hmap
  unfold explain SameFailure
  rw [hlimit]
  split
  · rfl
  · cases hpath : rejected.findSome? fun r => r.2.cycle? with
    | none =>
      rw [hpath] at hcycle
      rw [Option.isSome_eq_false_iff.1 hcycle.symm |> Option.isNone_iff_eq_none.1]
      simp only [SearchError.bare, hnames]
    | some path =>
      rw [hpath] at hcycle
      obtain ⟨path', hpath'⟩ := Option.isSome_iff_exists.1 hcycle.symm
      rw [hpath']
      rfl

/-- The same choice. -/
theorem choose_together {R : Survivor → Survivor → Prop} {W : Solved → Solved → Prop}
    (hbeats : ∀ a a' b b', R a a' → R b b' → (Beats q.frozen a b ↔ Beats q.frozen a' b'))
    (hcandidate : ∀ w w', R w w' → w'.candidate = w.candidate)
    (hsolved : ∀ w w', R w w' → W ⟨w.witness, w.subst⟩ ⟨w'.witness, w'.subst⟩)
    (label : String) (required required' : List Capability)
    {xs xs' : List Survivor × List (String × Rejection)} (h : Accounts R xs xs') :
    Together SameFailure W (q.choose label required xs.1 xs.2)
      (q.choose label required' xs'.1 xs'.2) := by
  have hempty : xs'.1.isEmpty = xs.1.isEmpty := by
    rw [Bool.eq_iff_iff, List.isEmpty_iff_length_eq_zero, List.isEmpty_iff_length_eq_zero,
      h.survivors.length_eq]
  have hnames : xs'.1.map (fun s => s.candidate.name) = xs.1.map fun s => s.candidate.name := by
    have hsurvivors := h.survivors
    generalize xs.1 = ws, xs'.1 = ws' at hsurvivors
    induction hsurvivors with
    | nil => rfl
    | cons hw _ ih => rw [List.map_cons, List.map_cons, ih, hcandidate _ _ hw]
  rw [choose_eq, choose_eq, hempty]
  split
  · exact .error (explain_together q label required required' h.rejected)
  · rcases mostSpecific_together hbeats h.survivors with ⟨hw, hw'⟩ | ⟨w, w', hw, hw', hww⟩
    · rw [hw, hw', hnames]
      exact .error rfl
    · rw [hw, hw']
      exact .ok (hsolved w w' hww)

end All

/-! ## One round -/

/-- The same search, where implied requirements are dropped or kept. -/
def minimizing (q : Search) (b : Bool) : Search := { q with config := { q.config with minimize := b } }

section Round

variable {q : Search} {b b' : Bool} {U : String → String → Prop} {solver solver' : Solver}

theorem matchAll_minimizing (required : List Capability) (context : Subst) (cs : List Candidate)
    (n : VarId) :
    (q.minimizing b).matchAll required context cs n = q.matchAll required context cs n := by
  refine matchAll_eq (fun _ _ => ?_) cs n
  rfl

theorem surviveAll_minimizing (goal : String) (ms : List Matched) (st : State) :
    (q.minimizing b).surviveAll solver goal ms st = q.surviveAll solver goal ms st := by
  refine surviveAll_eq (fun _ _ => ?_) ms st
  rfl

theorem surviveAllCalls_minimizing (goal : String) (ms : List Matched) (st : State) :
    (q.minimizing b).surviveAllCalls solver goal ms st = q.surviveAllCalls solver goal ms st := by
  induction ms generalizing st with
  | nil => rfl
  | cons m ms ih =>
    rw [surviveAllCalls, surviveAllCalls, ih]
    rfl

/-- The choice, whatever becomes of implied requirements. -/
theorem choose_minimizing (label : String) (required : List Capability) (survivors : List Survivor)
    (rejected : List (String × Rejection)) :
    (q.minimizing b).choose label required survivors rejected =
      q.choose label required survivors rejected := rfl

/-- The matches of a round are those of the search itself, and the counter is where all candidates leave
    it. -/
theorem matchAll_round (r : Request) (n : VarId) : (q.minimizing b).matchAll
    ((q.minimizing b).requirement r) r.context (q.minimizing b).candidates.values n =
    ((q.matchAll ((q.minimizing b).requirement r) r.context q.candidates.values n).1,
      n + drawnBy q.candidates.values) := by
  rw [matchAll_minimizing]
  exact Prod.ext rfl (matchAll_next q _ _ _ n)

/-- What a round asks for, if its goal is new. -/
theorem stepCalls_round {r : Request} {st : State}
    (h : reentry st.stack ((q.minimizing b).goal r) = none) :
    (q.minimizing b).stepCalls solver r st = q.surviveAllCalls solver ((q.minimizing b).goal r)
      (q.matchAll ((q.minimizing b).requirement r) r.context q.candidates.values st.next).1
      { st with next := st.next + drawnBy q.candidates.values } := by
  unfold stepCalls
  rw [h]
  dsimp only
  rw [matchAll_round, surviveAllCalls_minimizing]

/-- Survivors of matches that correspond. -/
def SurvivedBoth (F : Matched → Matched → Prop) (W : Solved → Solved → Prop) (w w' : Survivor) : Prop :=
  ∃ m m', F m m' ∧ Survived W m m' w w'

/-- Which survivor beats which is the same, if this is so for the patterns of their matches. -/
theorem beats_together {F : Matched → Matched → Prop} {W : Solved → Solved → Prop}
    (hspecific : ∀ m m' k k', F m m' → F k k' →
      ((m.patterns.zip k.patterns).all fun p => p.1.instanceOf p.2 q.frozen) =
        (m'.patterns.zip k'.patterns).all fun p => p.1.instanceOf p.2 q.frozen)
    (w w' x x' : Survivor) (hw : SurvivedBoth F W w w') (hx : SurvivedBoth F W x x') :
    Beats q.frozen w x ↔ Beats q.frozen w' x' := by
  have hleast : ∀ w w' x x', SurvivedBoth F W w w' → SurvivedBoth F W x x' →
      atLeastAsSpecific q.frozen w x = atLeastAsSpecific q.frozen w' x' := by
    rintro w w' x x' ⟨m, m', hm, hw⟩ ⟨k, k', hk, hx⟩
    unfold atLeastAsSpecific
    rw [hw.patterns, hw.patterns', hx.patterns, hx.patterns']
    exact hspecific m m' k k' hm hk
  have hcandidate : ∀ w w', SurvivedBoth F W w w' → w'.candidate = w.candidate :=
    fun _ _ ⟨_, _, _, hw⟩ => hw.candidate
  unfold Beats moreSpecific
  rw [hcandidate w w' hw, hcandidate x x' hx, hleast w w' x x' hw hx, hleast x x' w w' hx hw]

/-- **One round goes in step**, for two requests with one label, if the matches correspond (`F`), and so
    does what becomes of them (`W`), and if which candidate is the more specific one is the same. -/
theorem step_together {r r' : Request} (hlabel : r'.label = r.label) {st st' : State}
    (hst : Corresponds U st st')
    (hreentry : (reentry st.stack ((q.minimizing b).goal r)).isSome =
      (reentry st'.stack ((q.minimizing b').goal r')).isSome)
    {F : Matched → Matched → Prop} {W : Solved → Solved → Prop} {P : Request × State → Prop}
    (hmatch : ∀ e ∈ numbered q.candidates.values st.next,
      MatchTogether F (q.match? e.1 ((q.minimizing b).requirement r) r.context e.2)
        (q.match? e.1 ((q.minimizing b').requirement r') r'.context e.2))
    (hcandidate : ∀ m m', F m m' → m'.candidate = m.candidate)
    (hspecific : ∀ m m' k k', F m m' → F k k' →
      ((m.patterns.zip k.patterns).all fun p => p.1.instanceOf p.2 q.frozen) =
        (m'.patterns.zip k'.patterns).all fun p => p.1.instanceOf p.2 q.frozen)
    (hsurvive : ∀ m m' st st', F m m' → Corresponds U st st' →
      (∀ c ∈ q.surviveCalls solver ((q.minimizing b).goal r) m st, P c) →
      Parallel U SameRejection (Survived W m m') (q.survive solver ((q.minimizing b).goal r) m st)
        (q.survive solver' ((q.minimizing b').goal r') m' st'))
    (hcalls : ∀ c ∈ (q.minimizing b).stepCalls solver r st, P c) :
    Parallel U SameFailure W ((q.minimizing b).step solver r st)
      ((q.minimizing b').step solver' r' st') := by
  have hms := matchAll_together hmatch
  cases hre : reentry st.stack ((q.minimizing b).goal r) with
  | some path =>
    rw [hre, Option.isSome_some] at hreentry
    obtain ⟨path', hre'⟩ := Option.isSome_iff_exists.1 hreentry.symm
    rw [step_of_reentry hre, step_of_reentry hre']
    exact ⟨.error (by simp only [SameFailure, SearchError.bare, hlabel]), hst⟩
  | none =>
    rw [stepCalls_round hre] at hcalls
    rw [hre, Option.isSome_none] at hreentry
    have hre' : reentry st'.stack ((q.minimizing b').goal r') = none := by
      rw [← Option.not_isSome_iff_eq_none, ← hreentry]
      exact Bool.false_ne_true
    have hrun := matchAll_round (q := q) (b := b) r st.next
    have hrun' := matchAll_round (q := q) (b := b') r' st'.next
    rw [hst.next] at hrun'
    generalize (q.matchAll ((q.minimizing b).requirement r) r.context q.candidates.values st.next).1 =
      ms at hms hrun hcalls
    generalize (q.matchAll ((q.minimizing b').requirement r') r'.context q.candidates.values
      st.next).1 = ms' at hms hrun'
    rw [← hst.next] at hrun'
    have hdrawn : Corresponds U { st with next := st.next + drawnBy q.candidates.values }
        { st' with next := st'.next + drawnBy q.candidates.values } :=
      ⟨by rw [hst.next], hst.stack⟩
    have hempty : ms'.isEmpty = ms.isEmpty := by
      rw [Bool.eq_iff_iff, List.isEmpty_iff_length_eq_zero, List.isEmpty_iff_length_eq_zero,
        hms.length_eq]
    by_cases hnone : ms.isEmpty = true
    · rw [step_of_no_match hre hrun hnone, step_of_no_match hre' hrun' (hempty.trans hnone)]
      exact ⟨.error (by simp only [SameFailure, SearchError.bare, hlabel]), hdrawn⟩
    · have hnone' : ¬ ms'.isEmpty = true := by
        rw [hempty]
        exact hnone
      have hsurvivors : ∀ m m' st st', F m m' → Corresponds U st st' →
          (∀ c ∈ q.surviveCalls solver ((q.minimizing b).goal r) m st, P c) →
          Parallel U SameRejection (SurvivedBoth F W) (q.survive solver ((q.minimizing b).goal r) m st)
            (q.survive solver' ((q.minimizing b').goal r') m' st') := by
        intro m m' st st' hm hst hcalls
        have hpar := hsurvive m m' st st' hm hst hcalls
        exact ⟨hpar.outcome.imp fun w w' hw => ⟨m, m', hm, hw⟩, hpar.state⟩
      obtain ⟨haccounts, hst₁⟩ := surviveAll_together hcandidate hsurvivors hms hdrawn hcalls
      rw [step_of_matches hre hrun hnone (surviveAll_minimizing ..),
        step_of_matches hre' hrun' hnone' (surviveAll_minimizing ..), choose_minimizing,
        choose_minimizing, hlabel]
      exact ⟨choose_together (beats_together hspecific) (fun _ _ ⟨_, _, _, hw⟩ => hw.candidate)
        (fun _ _ ⟨_, _, _, hw⟩ => hw.solved) r.label _ _ haccounts, hst₁⟩

end Round

end Search

end InstanceSearch
