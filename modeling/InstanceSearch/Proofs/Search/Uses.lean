/-
  New variables are new.

  A round uses every candidate once, each at variables of its own, whether it matches or not.  `uses` lists
  the uses of a whole search in the order in which they are made: those of a round, then those of the calls
  that it makes.

  USES AND MATCHES
    The uses are those of all calls that are made (`usesWithin_eq`, `queryCalls_complete`), and the matches
    that the calls find are what the uses come to (`matchesOf_eq`), with their type parameters where the
    uses put them (`of_tryUse`).  So what is shown of uses holds of matches (`matches_apart`).

  WHY NO VARIABLE IS DRAWN TWICE
    The counter is handed from each part of a search to the next, through successes and failures alike.
    So what the parts draw one after the other are consecutive numbers (`Draws.append`), and this holds
    of a chain of dependencies, of a match, of a round, and of the search (`solve_draws`).

  WHY NONE IS IN USE
    The first number is the seed.  It is above the watermark of the catalog, which no variable of a
    declaration reaches (`Declared.lt_of_mem_vars`), and above the variables of the query.

  So an instance at its new variables is a renaming that is read in one step (`Renames`): what is put for
  a type parameter is a variable that no other parameter gets, in this use or in another one.
-/
import InstanceSearch.Proofs.Catalog.Watermark
import InstanceSearch.Proofs.Search.Lockstep
import InstanceSearch.Proofs.Search.NewVars
import InstanceSearch.Proofs.Search.Resolution

namespace InstanceSearch

/-! ## The variables of the candidates -/

/-- The type parameters of a candidate of a registry are below the watermark. -/
theorem Catalog.Declared.param_lt {cat : Catalog} (h : cat.Declared) {c : Candidate}
    (hc : cat.Offers c) : ∀ v ∈ c.params.map Param.id, v < cat.nextVar := by
  cases c with
  | ambient p => exact fun v hv => nomatch hv
  | declared i =>
    intro v hv
    obtain ⟨p, hp, rfl⟩ := List.mem_map.1 hv
    have hvars : p.id ∈ i.params.flatMap Param.vars := List.mem_flatMap.2 ⟨p, hp, List.mem_cons_self⟩
    exact h.regular.instanceVars i hc p.id (List.mem_append.2 (Or.inl hvars))

namespace Search

/-! ## Uses of candidates -/

/-- A candidate, and the number that its new variables are counted from. -/
abbrev Use := Candidate × VarId

namespace Use

/-- What is put for the type parameters. -/
def fresh (u : Use) : Subst := newVars u.1.params u.2

/-- The type parameters at their new variables. -/
def params (u : Use) : List Param := u.1.params.map fun p => p.rename (fresh u)

/-- The variables that are drawn: one for each type parameter. -/
def drawn (u : Use) : List VarId := (u.1.params.zipIdx u.2).map Prod.snd

theorem drawn_eq (u : Use) : drawn u = List.range' u.2 u.1.params.length := List.zipIdx_map_snd ..

/-- The use is a renaming of the type parameters, and is read in one step: nothing else is replaced,
    each parameter gets a drawn variable, different parameters get different ones, and no variable that
    was put in is replaced in turn. -/
structure Renames (u : Use) : Prop where
  others : ∀ v ∉ u.1.params.map Param.id, (fresh u).find? v = none
  params : ∀ v ∈ u.1.params.map Param.id, ∃ w ∈ drawn u, ∃ name, (fresh u).find? v = some (.var w name)
  injective : ∀ v v' w name name', (fresh u).find? v = some (.var w name) →
    (fresh u).find? v' = some (.var w name') → v = v'
  once : ∀ t, (fresh u).apply t = t.replaceVars (fresh u).pick

end Use

/-- The matches of candidates are those of their uses. -/
theorem matchAll_uses (q : Search) (required : List Capability) (context : Subst)
    (cs : List Candidate) (n : VarId) : (q.matchAll required context cs n).1 =
      (numbered cs n).filterMap fun u => q.match? u.1 required context u.2 := by
  induction cs generalizing n with
  | nil => rfl
  | cons c cs ih =>
    rw [matchAll, numbered, List.filterMap_cons]
    dsimp only
    cases q.match? c required context n <;> simp only [ih]

/-- The uses that answering a request makes, with so many levels left. -/
def usesWithin (q : Search) : Nat → Request → State → List Use
  | 0, _, _ => []
  | levels + 1, r, st =>
    match reentry st.stack (q.goal r) with
    | some _ => []
    | none => numbered q.candidates.values st.next ++
        (q.stepCalls (q.solve levels) r st).flatMap fun c => q.usesWithin levels c.1 c.2

/-- All uses that are made to resolve a parameter. -/
def uses (q : Search) (p : Param) (context : Subst) : List Use :=
  q.usesWithin (q.config.maxDepth + 1) (queryRequest p context) (q.queryState p context)

/-- The variables that are drawn to resolve a parameter. -/
def drawn (q : Search) (p : Param) (context : Subst) : List VarId :=
  (q.uses p context).flatMap Use.drawn

/-- `q.Tries c`: the call comes to try the candidates, because it is not too deep, and its goal is not in
    flight. -/
def Tries (q : Search) (c : Call) : Prop :=
  c.depth ≤ q.config.maxDepth ∧ q.goal c.request ∉ c.state.goals

instance (q : Search) (c : Call) : Decidable (q.Tries c) :=
  inferInstanceAs (Decidable (c.depth ≤ q.config.maxDepth ∧ q.goal c.request ∉ c.state.goals))

/-- The uses that a call makes itself. -/
def usesOf (q : Search) (c : Call) : List Use :=
  if q.Tries c then numbered q.candidates.values c.state.next else []

/-- The matches that a call finds itself. -/
def matchesOf (q : Search) (c : Call) : List Matched :=
  if q.Tries c then
    (q.matchAll (q.requirement c.request) c.request.context q.candidates.values c.state.next).1
  else []

/-- What a use comes to at a call: a match, or nothing. -/
def tryUse (q : Search) (c : Call) (u : Use) : Option Matched :=
  q.match? u.1 (q.requirement c.request) c.request.context u.2

theorem matchesOf_eq (q : Search) (c : Call) : q.matchesOf c = (q.usesOf c).filterMap (q.tryUse c) := by
  unfold matchesOf usesOf
  split
  · exact matchAll_uses ..
  · rfl

/-- A match is of the candidate that is used, with the type parameters at its new variables. -/
theorem of_tryUse {q : Search} {c : Call} {u : Use} {m : Matched} (h : q.tryUse c u = some m) :
    m.candidate = u.1 ∧ m.params = Use.params u :=
  ⟨(match?_ok h).1, (match?_ok h).2.1⟩

/-- The uses of a search are those of its calls. -/
theorem usesWithin_eq (q : Search) {levels depth : Nat} (hlevels : depth + levels = q.config.maxDepth + 1)
    (r : Request) (st : State) :
    q.usesWithin levels r st = (q.calls levels depth r st).flatMap q.usesOf := by
  induction levels generalizing depth r st with
  | zero =>
    have hdeep : ¬ q.Tries ⟨depth, r, st⟩ := fun htries => absurd htries.1 (by dsimp only; omega)
    rw [usesWithin, calls, List.flatMap_singleton, usesOf, if_neg hdeep]
  | succ levels ih =>
    rw [usesWithin, calls, List.flatMap_cons, List.flatMap_assoc]
    cases hre : reentry st.stack (q.goal r) with
    | some path =>
      have hin : ¬ q.Tries ⟨depth, r, st⟩ := by
        intro htries
        rw [reentry_eq_none_iff.2 htries.2] at hre
        cases hre
      rw [usesOf, if_neg hin]
      simp only [stepCalls, hre]
      rfl
    | none =>
      have htries : q.Tries ⟨depth, r, st⟩ := ⟨by dsimp only; omega, reentry_eq_none_iff.1 hre⟩
      rw [usesOf, if_pos htries]
      simp only [ih (by omega : depth + 1 + levels = q.config.maxDepth + 1)]

/-- What is used is a candidate. -/
theorem mem_candidates_of_mem_usesWithin {q : Search} {levels : Nat} {r : Request} {st : State} {u : Use}
    (h : u ∈ q.usesWithin levels r st) : u.1 ∈ q.candidates.values := by
  induction levels generalizing r st with
  | zero => cases h
  | succ levels ih =>
    rw [usesWithin] at h
    split at h
    · cases h
    · rcases List.mem_append.1 h with h | h
      · exact (mem_numbered h).1
      · obtain ⟨c, _, h⟩ := List.mem_flatMap.1 h
        exact ih h

/-! ## Consecutive numbers -/

/-- From the state `st` on the variables `vs` are drawn, which are consecutive numbers, and `st'` is the
    state after them. -/
structure Draws (st st' : State) (vs : List VarId) : Prop where
  consecutive : vs = List.range' st.next vs.length
  next : st'.next = st.next + vs.length

namespace Draws

theorem nil (st : State) : Draws st st [] := ⟨rfl, rfl⟩

/-- What is drawn first, and what is drawn then. -/
theorem append {st st₁ st₂ : State} {vs ws : List VarId} (h : Draws st st₁ vs)
    (h' : Draws st₁ st₂ ws) : Draws st st₂ (vs ++ ws) where
  consecutive := by
    rw [List.length_append, ← List.range'_append_1, ← h.consecutive, ← h.next, ← h'.consecutive]
  next := by rw [List.length_append, h'.next, h.next, Nat.add_assoc]

theorem nodup {st st' : State} {vs : List VarId} (h : Draws st st' vs) : vs.Nodup := by
  rw [h.consecutive]
  exact List.nodup_range'

theorem le_of_mem {st st' : State} {vs : List VarId} (h : Draws st st' vs) {v : VarId} (hv : v ∈ vs) :
    st.next ≤ v := by
  rw [h.consecutive] at hv
  exact (List.mem_range'_1.1 hv).1

end Draws

/-- Matching draws the variables of its uses. -/
theorem numbered_draws (cs : List Candidate) (st : State) :
    Draws st { st with next := st.next + drawnBy cs } ((numbered cs st.next).flatMap Use.drawn) := by
  induction cs generalizing st with
  | nil => exact .nil st
  | cons c cs ih =>
    have hfirst : Draws st { st with next := st.next + c.params.length } (Use.drawn (c, st.next)) := by
      refine ⟨?_, ?_⟩ <;> rw [Use.drawn_eq, List.length_range']
    have hall := hfirst.append (ih { st with next := st.next + c.params.length })
    rwa [Nat.add_assoc, ← drawnBy_cons] at hall

section Round

variable {q : Search} {solver : Solver} {vars : Request → State → List VarId}
  (h : ∀ r st, Draws st (solver r st).2 (vars r st))
include h

theorem solveParams_draws (ps : List Param) (s : Subst) (st : State) :
    Draws st (solveParams solver ps s st).2
      ((paramCalls solver ps s st).flatMap fun c => vars c.1 c.2) := by
  induction ps generalizing s st with
  | nil => exact .nil st
  | cons p ps ih =>
    have hfirst := h ⟨p.name, p.constraints, s⟩ st
    rw [paramCalls, List.flatMap_cons]
    rcases hout : solver ⟨p.name, p.constraints, s⟩ st with ⟨e | found, st₁⟩
    · rw [hout] at hfirst
      rw [solveParams_of_error hout]
      exact hfirst.append (.nil st₁)
    · rw [hout] at hfirst
      rw [solveParams_of_ok hout rfl]
      exact hfirst.append (ih found.subst st₁)

theorem survive_draws (goal : String) (m : Matched) (st : State) :
    Draws st (q.survive solver goal m st).2
      ((q.surviveCalls solver goal m st).flatMap fun c => vars c.1 c.2) := by
  unfold surviveCalls
  cases hm : m.candidate with
  | ambient p =>
    rw [survive_of_ambient hm]
    exact .nil st
  | declared i =>
    dsimp only
    by_cases hpolicy : q.Refuses m <;> rw [Refuses] at hpolicy
    · rw [survive_of_refused hm hpolicy, if_pos hpolicy]
      exact .nil st
    · rw [survive_of_solved hm hpolicy st rfl, if_neg hpolicy]
      -- putting the instance on the stack and taking it off leaves the counter alone
      have hparams := solveParams_draws h (q.openParams m) m.subst
        { st with stack := ⟨i.name, goal⟩ :: st.stack }
      exact ⟨hparams.consecutive, hparams.next⟩

theorem surviveAll_draws (goal : String) (ms : List Matched) (st : State) :
    Draws st (q.surviveAll solver goal ms st).2
      ((q.surviveAllCalls solver goal ms st).flatMap fun c => vars c.1 c.2) := by
  induction ms generalizing st with
  | nil => exact .nil st
  | cons m ms ih =>
    have hfirst := survive_draws (q := q) h goal m st
    rcases hx : q.survive solver goal m st with ⟨x, st₁⟩
    rw [hx] at hfirst
    rw [surviveAllCalls, List.flatMap_append, hx, surviveAll_cons hx rfl]
    exact hfirst.append (ih st₁)

/-- A round that is not refused draws for its candidates, and then for its calls. -/
theorem step_draws {r : Request} {st : State} (hnew : reentry st.stack (q.goal r) = none) :
    Draws st (q.step solver r st).2 ((numbered q.candidates.values st.next).flatMap Use.drawn ++
      (q.stepCalls solver r st).flatMap fun c => vars c.1 c.2) := by
  have hmatching := numbered_draws q.candidates.values st
  rw [← matchAll_next q (q.requirement r) r.context] at hmatching
  unfold stepCalls
  rw [hnew]
  dsimp only
  by_cases hempty : (q.matchAll (q.requirement r) r.context q.candidates.values st.next).1.isEmpty
  · rw [step_of_no_match hnew rfl hempty, List.isEmpty_iff.1 hempty]
    exact hmatching.append (.nil _)
  · rw [step_of_matches hnew rfl hempty rfl]
    exact hmatching.append (surviveAll_draws h _ _ _)

end Round

/-- **What a search draws are consecutive numbers**, and nothing else moves the counter. -/
theorem solve_draws (q : Search) (levels : Nat) (r : Request) (st : State) :
    Draws st (q.solve levels r st).2 ((q.usesWithin levels r st).flatMap Use.drawn) := by
  induction levels generalizing r st with
  | zero => exact .nil st
  | succ levels ih =>
    rw [solve, usesWithin]
    cases hre : reentry st.stack (q.goal r) with
    | some path =>
      rw [step_of_reentry hre]
      exact .nil st
    | none =>
      rw [List.flatMap_append, List.flatMap_assoc]
      exact step_draws ih hre

/-! ## One-step renamings -/

section Renaming

variable {u : Use}

/-- What is put for a type parameter was drawn for one with the same variable. -/
theorem Use.exists_of_find? {v : VarId} {t : Ty} (h : (Use.fresh u).find? v = some t) :
    ∃ e ∈ u.1.params.zipIdx u.2, e.1.id = v ∧ t = .var e.2 (some e.1.name) := by
  obtain ⟨e, he, heq⟩ := List.mem_map.1 (OrderedMap.mem_of_find?_ofList h)
  injection heq with hv ht
  exact ⟨e, he, hv, ht.symm⟩

/-- **A use above its parameters is a renaming.** -/
theorem Use.renames (hbelow : ∀ v ∈ u.1.params.map Param.id, v < u.2) : Use.Renames u where
  others v hv := by
    cases hfind : (Use.fresh u).find? v with
    | none => rfl
    | some t => exact absurd (newVars_range hfind).1 hv
  params v hv := by
    cases hfind : (Use.fresh u).find? v with
    | none =>
      rw [Use.fresh, newVars, OrderedMap.find?_ofList_reverse, OrderedMap.lookup_eq_none_iff,
        List.map_reverse, List.mem_reverse, newVars_keys] at hfind
      exact absurd hv hfind
    | some t =>
      obtain ⟨e, he, _, rfl⟩ := Use.exists_of_find? hfind
      exact ⟨e.2, List.mem_map_of_mem he, _, rfl⟩
  injective v v' w name name' h h' := by
    obtain ⟨⟨p, k⟩, he, hv, ht⟩ := Use.exists_of_find? h
    obtain ⟨⟨p', k'⟩, he', hv', ht'⟩ := Use.exists_of_find? h'
    injection ht with hk _
    injection ht' with hk' _
    -- a number stands for one place in the list of parameters
    have hnodup : ((u.1.params.zipIdx u.2).map Prod.snd).Nodup := by
      rw [List.zipIdx_map_snd]
      exact List.nodup_range'
    have hsame := eq_of_nodup_map hnodup he he' (hk.symm.trans hk')
    rw [← hv, ← hv', hsame]
  once := (newVars_flat hbelow).apply_eq

/-- The type parameters of a use stand at variables that it draws. -/
theorem Use.Renames.id_mem_drawn (h : Use.Renames u) : ∀ p ∈ Use.params u, p.id ∈ Use.drawn u := by
  intro p hp
  obtain ⟨declared, hdeclared, rfl⟩ := List.mem_map.1 hp
  obtain ⟨w, hw, name, hfind⟩ := h.params declared.id (List.mem_map_of_mem hdeclared)
  have hid : (declared.rename (Use.fresh u)).id = w := by
    unfold Param.rename
    dsimp only
    rw [h.once, Ty.replaceVars_var, Subst.pick, hfind]
    rfl
  rw [hid]
  exact hw

end Renaming

/-! ## Freshness -/

section Query

variable {q : Search} {p : Param} {context : Subst}

/-- What a query draws is above the watermark of the catalog, and above what is asked for. -/
theorem seed_le_of_mem_drawn {v : VarId} (hv : v ∈ q.drawn p context) : q.seed p context ≤ v :=
  (solve_draws q _ _ _).le_of_mem hv

/-- In a registry every use is a renaming. -/
theorem renames_of_mem_uses (hcat : q.catalog.Declared)
    (hoffers : ∀ c ∈ q.candidates.values, q.catalog.Offers c) {u : Use} (hu : u ∈ q.uses p context) :
    Use.Renames u := by
  refine Use.renames fun v hv => ?_
  have hparam := hcat.param_lt (hoffers u.1 (mem_candidates_of_mem_usesWithin hu)) v hv
  -- with a parameter to rename, the first variable of the use is one that was drawn
  have hpos : 0 < u.1.params.length := by
    obtain ⟨p', hp', _⟩ := List.mem_map.1 hv
    exact List.length_pos_of_mem hp'
  have hfirst : u.2 ∈ q.drawn p context := by
    refine List.mem_flatMap.2 ⟨u, hu, ?_⟩
    rw [Use.drawn_eq, List.mem_range'_1]
    omega
  calc v < q.catalog.nextVar := hparam
    _ ≤ q.seed p context := le_reserve _ _
    _ ≤ u.2 := seed_le_of_mem_drawn hfirst

/-- Renamings are apart if no variable is drawn twice. -/
theorem uses_apart {us : List Use} (hrenames : ∀ u ∈ us, Use.Renames u)
    (hnodup : (us.flatMap Use.drawn).Nodup) :
    us.Pairwise fun u u' => ∀ a ∈ Use.params u, ∀ b ∈ Use.params u', a.id ≠ b.id := by
  refine (List.nodup_flatMap.1 hnodup).2.imp_of_mem ?_
  intro u u' hu hu' hdisjoint a ha b hb heq
  have hb' := (hrenames u' hu').id_mem_drawn b hb
  exact hdisjoint ((hrenames u hu).id_mem_drawn a ha) (heq ▸ hb')

/-- Where uses are apart, so are the matches that they come to. -/
theorem matches_apart {cs : List Call}
    (h : (cs.flatMap q.usesOf).Pairwise fun u u' =>
      ∀ a ∈ Use.params u, ∀ b ∈ Use.params u', a.id ≠ b.id) :
    (cs.flatMap q.matchesOf).Pairwise fun m m' => ∀ a ∈ m.params, ∀ b ∈ m'.params, a.id ≠ b.id := by
  rw [List.pairwise_flatMap] at h ⊢
  obtain ⟨hwithin, hbetween⟩ := h
  constructor
  · intro c hc
    rw [matchesOf_eq]
    refine (hwithin c hc).filterMap _ ?_
    intro u u' hapart m hm m' hm'
    rw [(of_tryUse hm).2, (of_tryUse hm').2]
    exact hapart
  · refine hbetween.imp ?_
    intro c c' hapart m hm m' hm'
    rw [matchesOf_eq] at hm hm'
    obtain ⟨u, hu, hm⟩ := List.mem_filterMap.1 hm
    obtain ⟨u', hu', hm'⟩ := List.mem_filterMap.1 hm'
    rw [(of_tryUse hm).2, (of_tryUse hm').2]
    exact hapart u hu u' hu'

end Query

/-- The variables that a query draws are new, and its uses are apart. -/
structure DrawsFresh (q : Search) (p : Param) (context : Subst) : Prop where
  /-- nothing but the listed uses moves the counter -/
  complete : (q.solve (q.config.maxDepth + 1) (queryRequest p context) (q.queryState p context)).2.next =
    q.seed p context + (q.drawn p context).length
  calls : q.Complete p context (q.queryCalls p context)
  /-- the uses are those of the calls, -/
  uses : q.uses p context = (q.queryCalls p context).flatMap q.usesOf
  /-- the matches of a call are what its uses come to, -/
  matched : ∀ c ∈ q.queryCalls p context, q.matchesOf c = (q.usesOf c).filterMap (q.tryUse c)
  /-- and a match has its type parameters where its use put them -/
  params : ∀ c ∈ q.queryCalls p context, ∀ u ∈ q.usesOf c, ∀ m, q.tryUse c u = some m →
    m.candidate = u.1 ∧ m.params = Use.params u
  distinct : (q.drawn p context).Nodup
  undeclared : ∀ v ∈ q.drawn p context, v ∉ q.catalog.vars
  unasked : ∀ v ∈ q.drawn p context, v ∉ p.vars ∧ v ∉ context.vars ∧ v ∉ q.frozen
  /-- no two uses share a type parameter, -/
  apart : (q.uses p context).Pairwise fun u u' =>
    ∀ a ∈ Use.params u, ∀ b ∈ Use.params u', a.id ≠ b.id
  /-- and no two matches, at one call or at different ones -/
  rivals : ((q.queryCalls p context).flatMap q.matchesOf).Pairwise fun m m' =>
    ∀ a ∈ m.params, ∀ b ∈ m'.params, a.id ≠ b.id
  renames : ∀ u ∈ q.uses p context, Use.Renames u

/-- **The variables of a search are new.**  In every registry, from every scope and for every query, the
    variables that are drawn differ from each other and from all that is declared or asked for; so no two
    uses of instances share a type parameter, nor do the matches that they come to, and each use is a
    renaming that is read in one step. -/
theorem draws_fresh {cat : Catalog} (hcat : cat.Declared) {config : Config} {scope : ScopeId}
    {q : Search} (hq : cat.searchAt config scope = .ok q) (p : Param) (context : Subst) :
    q.DrawsFresh p context := by
  obtain ⟨hcatalog, _, hoffers⟩ := Catalog.searchAt_ok hq
  subst hcatalog
  have hdraws : Draws (q.queryState p context) _ (q.drawn p context) := solve_draws q _ _ _
  have huses : q.uses p context = (q.queryCalls p context).flatMap q.usesOf :=
    usesWithin_eq q (Nat.zero_add _) _ _
  have hrenames : ∀ u ∈ q.uses p context, Use.Renames u := fun _ => renames_of_mem_uses hcat hoffers
  have hapart := uses_apart hrenames hdraws.nodup
  exact {
    complete := hdraws.next
    calls := queryCalls_complete q p context
    uses := huses
    matched := fun c _ => matchesOf_eq q c
    params := fun _ _ _ _ _ => of_tryUse
    distinct := hdraws.nodup
    undeclared := by
      intro v hv hdeclared
      have hseed : q.catalog.nextVar ≤ q.seed p context := le_reserve _ _
      have hlt := hcat.lt_of_mem_vars hdeclared
      exact absurd (Nat.le_trans hseed (seed_le_of_mem_drawn hv)) (Nat.not_le.2 hlt)
    unasked := by
      intro v hv
      have hnew : v ∉ p.vars ++ context.vars ++ q.frozen.ids :=
        fun hm => absurd (seed_le_of_mem_drawn hv) (Nat.not_le.2 (lt_reserve hm))
      rw [List.mem_append, List.mem_append, not_or, not_or] at hnew
      exact ⟨hnew.1.1, hnew.1.2, hnew.2⟩
    apart := hapart
    rivals := matches_apart (huses ▸ hapart)
    renames := hrenames }

/-- To find `OrdList<Int, OrdInt>`, two rounds use each of two instances: four variables are drawn.  `OrdList`
    matches in both of them, in the second one as a rival of `OrdInt`. -/
theorem draws_fresh_ordering : ∃ (cat : Catalog) (q : Search), cat.Declared ∧
    cat.searchAt .default Catalog.root = .ok q ∧ q.DrawsFresh orderingQuery .empty ∧
    q.drawn orderingQuery .empty = [22, 23, 24, 25] ∧
    ((q.queryCalls orderingQuery .empty).flatMap q.matchesOf).map
      (fun m : Matched => (m.candidate.name, m.params.map Param.id)) =
        [("OrdList", [22, 23]), ("OrdInt", []), ("OrdList", [24, 25])] := by
  have h : okAnd ordering (fun cat => okAnd (cat.searchAt .default Catalog.root) fun q =>
      decide (q.drawn orderingQuery .empty = [22, 23, 24, 25] ∧
        ((q.queryCalls orderingQuery .empty).flatMap q.matchesOf).map
          (fun m : Matched => (m.candidate.name, m.params.map Param.id)) =
            [("OrdList", [22, 23]), ("OrdInt", []), ("OrdList", [24, 25])])) = true := by decide +kernel
  obtain ⟨cat, hcat, h⟩ := okAnd_eq_true h
  obtain ⟨q, hq, h⟩ := okAnd_eq_true h
  exact ⟨cat, q, ordering_declared hcat, hq, draws_fresh (ordering_declared hcat) hq orderingQuery .empty,
    of_decide_eq_true h⟩

end Search

end InstanceSearch
