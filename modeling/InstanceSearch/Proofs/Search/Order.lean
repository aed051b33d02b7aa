/-
  The order of the candidates does not matter.

  THE STATEMENT (`resolveWith_perm`)
    Two searches that differ in the order of their candidates have the same outcome.  If one finds a
    witness, so does the other, and a renaming of the variables that the search has invented takes the
    one witness, and the one substitution, to the other.  If one fails, the other fails for the same
    reason, with the same requirements; the names of candidates may come in another order.

  THE CRUX
    The counter is shared, so another order changes the numbers of all new variables, in every branch
    and at every depth.  Two things keep the searches together.
      (1) They draw EQUALLY MANY variables: candidates are counted whether they match or not, and every
          match has its dependencies solved whether the candidate is chosen in the end or not.
      (2) Neither sees the numbers (`solve_blind`).
    So after a dependency both counters agree again, and what was found agrees up to a renaming of the
    variables drawn in between (`Alike`).  The second search is then continued from the renamed outcome,
    which is the renamed continuation of the first.
-/
import InstanceSearch.Proofs.Search.Reorder

namespace InstanceSearch

/-! ## The same failure -/

/-- Two failures for the same reason: the label and what was required are the same, names are listed in
    any order, and the path of a cycle is left open. -/
inductive SearchError.Alike : SearchError → SearchError → Prop where
  | noInstance {label : String} {required : List Capability} {names names' : List String}
      (h : names.Perm names') :
      Alike (.noInstance label required names) (.noInstance label required names')
  | ambiguous {label : String} {required : List Capability} {names names' : List String}
      (h : names.Perm names') :
      Alike (.ambiguous label required names) (.ambiguous label required names')
  | cyclic {label : String} {path path' : List Attempt} :
      Alike (.cyclic label path) (.cyclic label path')
  | depthLimit {label : String} {limit : Nat} :
      Alike (.depthLimit label limit) (.depthLimit label limit)

namespace Search

/-- Two failures that count the same where a dependency fails with them. -/
def SameSigns (e e' : SearchError) : Prop :=
  ∀ name, signs (name, .dependency e') = signs (name, .dependency e)

theorem sameSigns_of_alike {e e' : SearchError} (h : e.Alike e') : SameSigns e e' := by
  cases h <;> exact fun _ => rfl

/-- Outcomes that agree: the same thing found up to the renaming, or failures that `E` relates. -/
inductive Alike {α : Type} (E : SearchError → SearchError → Prop) (f : Renaming → α → α)
    (π : Renaming) : Except SearchError α → Except SearchError α → Prop where
  | ok (x : α) : Alike E f π (.ok x) (.ok (f π x))
  | error {e e' : SearchError} (h : E e e') : Alike E f π (.error e) (.error e')

theorem Alike.ok_of_eq {α : Type} {E : SearchError → SearchError → Prop} {f : Renaming → α → α}
    {π : Renaming} {x y : α} (h : f π x = y) : Alike E f π (.ok x) (.ok y) := h ▸ .ok x

/-- Two tasks that draw equally many variables and have outcomes that agree. -/
def AgreeAt {α : Type} (E : SearchError → SearchError → Prop) (f : Renaming → α → α)
    (run run' : State → Except SearchError α × State) (n : Nat) (stack : List Attempt) : Prop :=
  ∃ k x x' π, run ⟨n, stack⟩ = (x, ⟨n + k, stack⟩) ∧ run' ⟨n, stack⟩ = (x', ⟨n + k, stack⟩) ∧
    Within π n k ∧ Alike E f π x x'

/-- Two solvers agree on every request whose variables are below the counter. -/
def Agree (q : Search) (solver solver' : Solver) : Prop :=
  ∀ r n stack, q.Clear n → Below Request.mapVars n r →
    AgreeAt SearchError.Alike Solved.mapVars (solver r) (solver' r) n stack

/-- A request is fixed where its constraints and its bindings are. -/
theorem below_request {label : String} {constraints : List Capability} {context : Subst} {n : VarId}
    (hc : ∀ c ∈ constraints, Below Capability.mapVars n c) (hs : Below Subst.mapVars n context) :
    Below Request.mapVars n ⟨label, constraints, context⟩ := by
  intro π hπ
  rw [Request.mapVars, map_eq_self fun c h => hc c h π hπ, hs π hπ]

/-! ## Dependencies -/

section Dependencies

variable {q : Search} {solver solver' : Solver} (hagree : q.Agree solver solver')
  (hblind : q.BlindSolver solver) (hblind' : q.BlindSolver solver')
include hagree hblind hblind'

omit hagree hblind hblind' in
/-- One more dependency in front: it stays under the renaming of the others, and they follow its own. -/
theorem Alike.prepend {π ρ : Renaming} {found : Solved} (hfound : found.mapVars ρ = found)
    {x x' : Except SearchError (Subst × List Witness)} (hx : Alike SameSigns mapChain ρ x x') :
    Alike SameSigns mapChain (ρ.trans π) (x.map fun e => (e.1, found.witness :: e.2))
      ((mapFound mapChain π x').map fun e => (e.1, (found.mapVars π).witness :: e.2)) := by
  cases hx with
  | error he => exact .error fun name => (signs_mapVars π name _).trans (he name)
  | ok e =>
    have hwitness : found.witness.mapVars (ρ.trans π) = found.witness.mapVars π := by
      rw [← Witness.mapVars_mapVars]
      exact congrArg (Witness.mapVars π) (congrArg Solved.witness hfound)
    refine .ok_of_eq ?_
    simp [mapChain, Solved.mapVars, Function.comp_def, Subst.mapVars_mapVars, Witness.mapVars_mapVars,
      hwitness]

/-- **Chains of dependencies agree.**  The second solver goes on from what it found itself, which is
    what the first one found up to a renaming; being blind, it goes on as from that. -/
theorem solveParams_agree {ps : List Param} {s : Subst} {n : Nat} (hclear : q.Clear n)
    (hps : ∀ p ∈ ps, Below Param.mapVars n p) (hs : Below Subst.mapVars n s)
    (stack : List Attempt) :
    AgreeAt SameSigns mapChain (solveParams solver ps s) (solveParams solver' ps s) n stack := by
  induction ps generalizing s n with
  | nil =>
    refine ⟨0, .ok (s, []), .ok (s, []), Equiv.refl VarId, rfl, rfl, .refl, ?_⟩
    have hsame : mapChain (Equiv.refl VarId) (s, []) = (s, []) := by
      rw [mapChain, Subst.mapVars_refl]
      rfl
    exact .ok_of_eq hsame
  | cons p ps ih =>
    have hle : ∀ k, n ≤ n + k := fun k => Nat.le_add_right n k
    have hrequest : Below Request.mapVars n ⟨p.name, p.constraints, s⟩ := by
      refine below_request (below_of_map fun π hπ => ?_) hs
      show p.constraints.map (Capability.mapVars π) = p.constraints
      rw [← Param.constraints_mapVars, hps p List.mem_cons_self π hπ]
    obtain ⟨k₁, x, x', π, hrun, hrun', hπ, hx⟩ :=
      hagree ⟨p.name, p.constraints, s⟩ n stack hclear hrequest
    cases hx with
    | error he =>
      exact ⟨k₁, _, _, π, solveParams_of_error hrun, solveParams_of_error hrun', hπ,
        .error (sameSigns_of_alike he)⟩
    | ok found =>
      have hfound : Below Solved.mapVars (n + k₁) found := fun ρ hρ =>
        Except.ok.inj ((hblind _).below hclear (fun ρ hρ => by rw [hrequest ρ hρ]) hrun ρ hρ)
      have hps' : ∀ p' ∈ ps, Below Param.mapVars (n + k₁) p' :=
        fun p' hp' => (hps p' (List.mem_cons_of_mem p hp')).mono (hle k₁)
      obtain ⟨k₂, y, y', ρ, hrest, hrest', hρ, hy⟩ := ih (s := found.subst) (hclear.mono (hle k₁)) hps'
        fun ρ hρ => congrArg Solved.subst (hfound ρ hρ)
      -- the second solver goes on from the renamed bindings
      have hsecond := (solveParams_blind hblind' ps found.subst).renamed hrest'
        (hclear.ignores hπ.below) (hπ.carries (Nat.le_refl _))
      rw [map_eq_self fun p' hp' => hps p' (List.mem_cons_of_mem p hp') π hπ.below] at hsecond
      rw [Nat.add_assoc] at hrest hsecond
      exact ⟨k₁ + k₂, _, _, ρ.trans π, solveParams_of_ok hrun hrest, solveParams_of_ok hrun' hsecond,
        (hρ.mono (hle k₁) (by omega)).trans (hπ.mono (Nat.le_refl n) (by omega)),
        hy.prepend (hfound ρ hρ.below)⟩

omit hagree hblind hblind' in
/-- Dependencies that agree make survivors that agree. -/
theorem Alike.finish {π : Renaming} (hπ : q.Ignores π) {m : Matched} (hm : m.mapVars π = m)
    (i : Instance) {x x' : Except SearchError (Subst × List Witness)}
    (hx : Alike SameSigns mapChain π x x') : SameFate π (q.finish m i x) (q.finish m i x') := by
  cases hx with
  | error he => exact .rejected he
  | ok e =>
    have hfinish := finish_mapVars hπ m i (.ok e)
    have hfate := SameFate.of_mapSurvival π (q.finish m i (.ok e))
    rw [hm] at hfinish
    rw [← hfinish] at hfate
    exact hfate

/-- What becomes of a match agrees. -/
theorem survive_agree {m : Matched} {n : Nat} (hclear : q.Clear n) (hm : Below Matched.mapVars n m)
    (goal : String) (stack : List Attempt) :
    ∃ k x x' π, q.survive solver goal m ⟨n, stack⟩ = (x, ⟨n + k, stack⟩) ∧
      q.survive solver' goal m ⟨n, stack⟩ = (x', ⟨n + k, stack⟩) ∧ Within π n k ∧ SameFate π x x' := by
  cases hcand : m.candidate with
  | ambient p =>
    have hrun : q.survive solver goal m ⟨n, stack⟩ =
        (.ok ⟨m.candidate, m.subst, m.patterns, .ambient p.id p.name⟩, ⟨n + 0, stack⟩) :=
      survive_of_ambient hcand
    have hfate := SameFate.of_mapSurvival (Equiv.refl VarId)
      (.ok ⟨m.candidate, m.subst, m.patterns, .ambient p.id p.name⟩)
    rw [survive_below hblind hclear hm hrun _ fun _ _ => rfl] at hfate
    exact ⟨0, _, _, _, hrun, survive_of_ambient hcand, .refl, hfate⟩
  | declared i =>
    by_cases hpolicy : q.Refuses m
    · exact ⟨0, _, _, Equiv.refl VarId, survive_of_refused hcand hpolicy,
        survive_of_refused hcand hpolicy, .refl, .rejected fun _ => rfl⟩
    · have hs : Below Subst.mapVars n m.subst := fun π hπ => congrArg Matched.subst (hm π hπ)
      have hparams : ∀ p ∈ m.params, Below Param.mapVars n p :=
        below_of_map fun π hπ => congrArg Matched.params (hm π hπ)
      have hopened : ∀ p ∈ q.openParams m, Below Param.mapVars n p :=
        fun p hp => hparams p (List.mem_filter.1 hp).1
      -- while its dependencies are solved the instance is in flight
      obtain ⟨k, x, x', π, hchain, hchain', hπ, hx⟩ :=
        solveParams_agree hagree hblind hblind' hclear hopened hs (⟨i.name, goal⟩ :: stack)
      exact ⟨k, _, _, π, survive_of_solved hcand hpolicy ⟨n, stack⟩ hchain,
        survive_of_solved hcand hpolicy ⟨n, stack⟩ hchain', hπ,
        hx.finish (hclear.ignores hπ.below) (hm π hπ.below) i⟩

/-- **The survivors agree**, and so do the rejections. -/
theorem surviveAll_agree {ms : List Matched} {n : Nat} (hclear : q.Clear n)
    (hms : ∀ m ∈ ms, Below Matched.mapVars n m) (goal : String) (stack : List Attempt) :
    ∃ k xs xs' π, q.surviveAll solver goal ms ⟨n, stack⟩ = (xs, ⟨n + k, stack⟩) ∧
      q.surviveAll solver' goal ms ⟨n, stack⟩ = (xs', ⟨n + k, stack⟩) ∧ Within π n k ∧
      Resembles π xs xs' := by
  induction ms generalizing n with
  | nil => exact ⟨0, ([], []), ([], []), Equiv.refl VarId, rfl, rfl, .refl, .refl _, .refl _⟩
  | cons m ms ih =>
    have hle : ∀ k, n ≤ n + k := fun k => Nat.le_add_right n k
    obtain ⟨k₁, x, x', π, hrun, hrun', hπ, hfate⟩ :=
      survive_agree hagree hblind hblind' hclear (hms m List.mem_cons_self) goal stack
    have hms' : ∀ m' ∈ ms, Below Matched.mapVars (n + k₁) m' :=
      fun m' hm' => (hms m' (List.mem_cons_of_mem m hm')).mono (hle k₁)
    obtain ⟨k₂, xs, xs', ρ, hxs, hxs', hρ, hsame⟩ := ih (hclear.mono (hle k₁)) hms'
    -- `π` moves nothing that the later matches see, and `ρ` nothing of the first outcome
    have hx' := survive_below hblind' hclear (hms m List.mem_cons_self) hrun'
    have hlater := SameFate.of_mapSurvival ρ x'
    rw [hx' ρ hρ.below] at hlater
    have hearlier : Resembles π xs xs := by
      have hmoved := (surviveAll_blind hblind goal ms).renamed hxs (hclear.ignores hπ.below)
        (hπ.carries (Nat.le_refl _))
      rw [map_eq_self fun m' hm' => hms m' (List.mem_cons_of_mem m hm') π hπ.below, hxs] at hmoved
      have hself := Resembles.of_mapSurvivals π xs
      rw [← (Prod.mk.inj hmoved).1] at hself
      exact hself
    rw [Nat.add_assoc] at hxs hxs'
    exact ⟨k₁ + k₂, _, _, π.trans ρ, surviveAll_cons hrun hxs, surviveAll_cons hrun' hxs',
      (hπ.mono (Nat.le_refl n) (by omega)).trans (hρ.mono (hle k₁) (by omega)),
      (hearlier.trans hsame).add (hfate.trans hlater)⟩

/-- **The survivors agree, whatever the order**, where the matches were moved by a renaming of the `k`
    variables that were drawn for them. -/
theorem surviveAll_agree_perm {ms ms' : List Matched} {π : Renaming} {n k : Nat}
    (hclear : q.Clear n) (hπ : Within π n k) (h : ms'.Perm (ms.map (Matched.mapVars π)))
    (hms : ∀ m ∈ ms, Below Matched.mapVars (n + k) m)
    (hms' : ∀ m ∈ ms', Below Matched.mapVars (n + k) m) (goal : String) (stack : List Attempt) :
    ∃ l xs xs' ρ, q.surviveAll solver goal ms ⟨n + k, stack⟩ = (xs, ⟨n + (k + l), stack⟩) ∧
      q.surviveAll solver' goal ms' ⟨n + k, stack⟩ = (xs', ⟨n + (k + l), stack⟩) ∧
      Within ρ n (k + l) ∧ Resembles ρ xs xs' := by
  have hle : n ≤ n + k := Nat.le_add_right n k
  have hclear' : q.Clear (n + k) := hclear.mono hle
  -- the other solver, for the same matches
  obtain ⟨l, xs, ys, ρ, hxs, hys, hρ, hsame⟩ :=
    surviveAll_agree hagree hblind hblind' hclear' hms goal stack
  -- then for the renamed matches
  have hmoved := (surviveAll_blind hblind' goal ms).renamed hys (hclear.ignores hπ.below)
    (hπ.carries (Nat.le_refl _))
  -- and then in the other order
  obtain ⟨l', zs, xs', σ, hzs, hxs', hσ, hsame'⟩ := surviveAll_perm hblind' h.symm hclear'
    (fun m hm => hms' m (h.mem_iff.2 hm)) goal stack
  obtain ⟨rfl, rfl⟩ := run_unique hmoved hzs
  rw [Nat.add_assoc] at hxs hxs'
  exact ⟨l, xs, xs', ρ.trans (π.trans σ), hxs, hxs',
    (hρ.mono hle (by omega)).trans
      ((hπ.mono (Nat.le_refl n) (by omega)).trans (hσ.mono hle (by omega))),
    hsame.trans ((Resembles.of_mapSurvivals π ys).trans hsame')⟩

end Dependencies

/-! ## The choice -/

theorem explain_alike (q : Search) (label : String) (required : List Capability)
    {rejected rejected' : List (String × Rejection)}
    (h : (rejected'.map signs).Perm (rejected.map signs)) :
    (q.explain label required rejected).Alike (q.explain label required rejected') := by
  have hlimit : (rejected.any fun r => r.2.isDepthLimit) = rejected'.any fun r => r.2.isDepthLimit := by
    have hany := h.any_eq (f := fun e : String × Bool × Bool => e.2.1)
    rw [List.any_map, List.any_map] at hany
    exact hany.symm
  have hcycle : (rejected.findSome? fun r => r.2.cycle?).isSome =
      (rejected'.findSome? fun r => r.2.cycle?).isSome := by
    have hany := h.any_eq (f := fun e : String × Bool × Bool => e.2.2)
    rw [List.any_map, List.any_map] at hany
    rw [List.isSome_findSome?, List.isSome_findSome?]
    exact hany.symm
  have hnames : (rejected.map Prod.fst).Perm (rejected'.map Prod.fst) := by
    have hmap := h.map Prod.fst
    rw [List.map_map, List.map_map] at hmap
    exact hmap.symm
  unfold explain
  rw [hlimit]
  split
  · exact .depthLimit
  · cases hpath : rejected.findSome? fun r => r.2.cycle? with
    | none =>
      rw [hpath] at hcycle
      rw [Option.isSome_eq_false_iff.1 hcycle.symm |> Option.isNone_iff_eq_none.1]
      exact .noInstance hnames
    | some path =>
      rw [hpath] at hcycle
      obtain ⟨path', hpath'⟩ := Option.isSome_iff_exists.1 hcycle.symm
      rw [hpath']
      exact .cyclic

/-- **The choice agrees** where the survivors and the rejections do. -/
theorem choose_alike {q : Search} {π : Renaming} (hπ : q.Ignores π) (label : String)
    (required : List Capability) {xs xs' : List Survivor × List (String × Rejection)}
    (h : Resembles π xs xs') :
    Alike SearchError.Alike Solved.mapVars π (q.choose label required xs.1 xs.2)
      (q.choose label required xs'.1 xs'.2) := by
  have hempty : xs'.1.isEmpty = xs.1.isEmpty := by
    rw [h.survivors.isEmpty_eq, List.isEmpty_map]
  have hnames : (xs.1.map fun s => s.candidate.name).Perm (xs'.1.map fun s => s.candidate.name) := by
    have hmap := h.survivors.map fun s => s.candidate.name
    rw [List.map_map] at hmap
    exact hmap.symm
  rw [choose_eq, choose_eq, hempty, mostSpecific_perm h.survivors, mostSpecific_mapVars hπ.frozen]
  split
  · exact .error (explain_alike q label required h.rejected)
  · cases mostSpecific q.frozen xs.1 with
    | none => exact .error (.ambiguous hnames)
    | some w => exact .ok _

/-! ## The search -/

/-- The same search with other candidates, or with the same ones in another order. -/
def withCandidates (q : Search) (candidates : CandidateSet) : Search :=
  { q with candidates := candidates }

section Rounds

variable {q : Search} {other : CandidateSet}

theorem matchAll_withCandidates (required : List Capability) (context : Subst)
    (cs : List Candidate) (n : VarId) :
    (q.withCandidates other).matchAll required context cs n =
      q.matchAll required context cs n := by
  refine matchAll_eq (fun _ _ => ?_) cs n
  rfl

theorem surviveAll_withCandidates (solver : Solver) (goal : String) (ms : List Matched) (st : State) :
    (q.withCandidates other).surviveAll solver goal ms st = q.surviveAll solver goal ms st := by
  refine surviveAll_eq (fun _ _ => ?_) ms st
  rfl

variable (hreg : q.catalog.Regular) (hoffers : ∀ c ∈ q.candidates.values, q.catalog.Offers c)
  (hperm : q.candidates.values.Perm other.values)
include hreg hoffers hperm

/-- **One round agrees**, if the solvers for its dependencies do. -/
theorem step_agree {solver solver' : Solver} (hagree : q.Agree solver solver')
    (hblind : q.BlindSolver solver) (hblind' : q.BlindSolver solver') :
    q.Agree (q.step solver) ((q.withCandidates other).step solver') := by
  intro r n stack hclear hr
  have hcontext : Below Subst.mapVars n r.context := fun π hπ => congrArg Request.context (hr π hπ)
  have hrequired : ∀ a ∈ q.requirement r, Below Capability.mapVars n a := by
    refine below_of_map fun π hπ => ?_
    show (q.requirement r).map (Capability.mapVars π) = q.requirement r
    rw [← requirement_mapVars hreg (hclear.ignores hπ), hr π hπ]
  cases hre : reentry stack (goalText q.frozen (q.requirement r)) with
  | some path =>
    have hstep' : (q.withCandidates other).step solver' r ⟨n, stack⟩ = _ := step_of_reentry hre
    exact ⟨0, _, _, Equiv.refl VarId, step_of_reentry hre, hstep', .refl, .error .cyclic⟩
  | none =>
    obtain ⟨π, hπ, hmatched⟩ := matchAll_perm hreg hperm hoffers hclear hrequired hcontext
    have hbelow := matchAll_below hreg hoffers hclear hrequired hcontext
    have hbelow' := matchAll_below hreg (fun c hc => hoffers c (hperm.mem_iff.2 hc)) hclear hrequired
      hcontext
    rw [← drawnBy_perm hperm] at hbelow'
    have hms : q.matchAll (q.requirement r) r.context q.candidates.values n =
        ((q.matchAll (q.requirement r) r.context q.candidates.values n).1,
          n + drawnBy q.candidates.values) := Prod.ext rfl (matchAll_next q _ _ _ n)
    have hms' : (q.withCandidates other).matchAll (q.requirement r) r.context other.values n =
        ((q.matchAll (q.requirement r) r.context other.values n).1,
          n + drawnBy q.candidates.values) := by
      rw [matchAll_withCandidates, drawnBy_perm hperm]
      exact Prod.ext rfl (matchAll_next q _ _ _ n)
    generalize (q.matchAll (q.requirement r) r.context q.candidates.values n).1 = ms
      at hms hmatched hbelow
    generalize (q.matchAll (q.requirement r) r.context other.values n).1 = ms'
      at hms' hmatched hbelow'
    generalize drawnBy q.candidates.values = k at hπ hbelow hbelow' hms hms'
    have hempty_eq : ms'.isEmpty = ms.isEmpty := by
      rw [hmatched.isEmpty_eq, List.isEmpty_map]
    by_cases hempty : ms.isEmpty = true
    · have hstep' : (q.withCandidates other).step solver' r ⟨n, stack⟩ = _ :=
        step_of_no_match hre hms' (hempty_eq.trans hempty)
      exact ⟨k, _, _, Equiv.refl VarId, step_of_no_match hre hms hempty, hstep', .refl,
        .error (.noInstance (.refl _))⟩
    · obtain ⟨l, xs, xs', ρ, hrun, hrun', hρ, hsame⟩ := surviveAll_agree_perm hagree hblind hblind'
        hclear hπ hmatched hbelow hbelow' (goalText q.frozen (q.requirement r)) stack
      have hempty' : ¬ ms'.isEmpty = true := by
        rw [hempty_eq]
        exact hempty
      rw [← surviveAll_withCandidates] at hrun'
      have hstep' : (q.withCandidates other).step solver' r ⟨n, stack⟩ = _ :=
        step_of_matches hre hms' hempty' hrun'
      exact ⟨k + l, _, _, ρ, step_of_matches hre hms hempty hrun, hstep', hρ,
        choose_alike (hclear.ignores hρ.below) r.label (q.requirement r) hsame⟩

/-- **Two searches that differ in the order of their candidates agree.** -/
theorem solve_agree (levels : Nat) :
    q.Agree (q.solve levels) ((q.withCandidates other).solve levels) := by
  induction levels with
  | zero =>
    intro r n stack _ _
    exact ⟨0, _, _, Equiv.refl VarId, rfl, rfl, .refl, .error .depthLimit⟩
  | succ levels ih =>
    have hoffers' : ∀ c ∈ other.values, q.catalog.Offers c :=
      fun c hc => hoffers c (hperm.mem_iff.2 hc)
    have hblind' : q.BlindSolver ((q.withCandidates other).solve levels) := by
      intro r n stack
      obtain ⟨k, x, hrun, hren⟩ :=
        solve_blind (q := q.withCandidates other) hreg hoffers' levels r n stack
      exact ⟨k, x, hrun, fun π n' hπ => hren π n' ⟨hπ.below, hπ.frozen⟩⟩
    exact step_agree hreg hoffers hperm ih (solve_blind hreg hoffers levels) hblind'

end Rounds

/-! ## The query -/

/-- What is learned from renamed bindings is renamed, on variables that are fixed. -/
theorem learn_mapVars {q : Search} {π : Renaming} (found : Subst) {vs : List VarId}
    (h : ∀ v ∈ vs, π v = v) (context : Subst) :
    q.learn (found.mapVars π) vs (context.mapVars π) = (q.learn found vs context).mapVars π := by
  induction vs generalizing context with
  | nil => rfl
  | cons v vs ih =>
    have hv : π v = v := h v List.mem_cons_self
    have hunresolved := Subst.isUnresolved_mapVars π found v
    have happly := Subst.apply_mapVars π found (.var v none)
    have hinsert := Subst.insert_mapVars π context v (found.apply (.var v none))
    rw [hv] at hunresolved hinsert
    rw [Ty.mapVars_var, hv] at happly
    unfold learn at ih ⊢
    rw [List.foldl_cons, List.foldl_cons, ← ih fun w hw => h w (List.mem_cons_of_mem v hw)]
    congr 1
    rw [hunresolved, happly, hinsert]
    split <;> rfl

/-- Everything that a query mentions is below the first variable of its search. -/
theorem lt_seed {q : Search} {p : Param} {context : Subst} {v : VarId}
    (h : v ∈ p.vars ++ context.vars ++ q.frozen.ids) : v < q.seed p context := lt_reserve h

theorem clear_seed (q : Search) (p : Param) (context : Subst) : q.Clear (q.seed p context) where
  catalog := le_reserve _ _
  frozen _ hv := lt_seed (List.mem_append.2 (Or.inr hv))

section Query

variable {q : Search} {p : Param} {context : Subst}

theorem resolveWith_of_error {e : SearchError} {st : State}
    (h : q.solve (q.config.maxDepth + 1) ⟨p.name, p.constraints, context⟩ ⟨q.seed p context, []⟩ =
      (.error e, st)) : q.resolveWith p context = .error e := by
  rw [resolveWith, h]

theorem resolveWith_of_ok {found : Solved} {st : State}
    (h : q.solve (q.config.maxDepth + 1) ⟨p.name, p.constraints, context⟩ ⟨q.seed p context, []⟩ =
      (.ok found, st)) : q.resolveWith p context =
        .ok ⟨found.witness, q.learn found.subst (queryVars p context) context⟩ := by
  rw [resolveWith, h]

variable {π : Renaming}
  (hπ : ∀ v < q.seed p context, π v = v)
include hπ

theorem constraints_fixed : ∀ c ∈ p.constraints, c.mapVars π = c := by
  intro c hc
  refine Capability.mapVars_of_fixed fun v hv => hπ v (lt_seed ?_)
  have hvars : v ∈ p.vars := List.mem_cons_of_mem _ (List.mem_flatMap.2 ⟨c, hc, hv⟩)
  exact List.mem_append.2 (Or.inl (List.mem_append.2 (Or.inl hvars)))

theorem context_fixed : context.mapVars π = context := by
  refine Subst.mapVars_of_fixed fun v hv => hπ v (lt_seed ?_)
  exact List.mem_append.2 (Or.inl (List.mem_append.2 (Or.inr hv)))

/-- The variables of the query are fixed too. -/
theorem queryVars_fixed : ∀ v ∈ queryVars p context, π v = v := by
  intro v hv
  obtain ⟨d, hd, hv⟩ := List.mem_flatMap.1 (FirstSeen.mem_ofList.1 hv)
  obtain ⟨c, hc, rfl⟩ := List.mem_map.1 hd
  refine hπ v (lt_seed (List.mem_append.2 (Or.inl ?_)))
  rcases Subst.mem_vars_applyTo hv with hv | hv
  · exact List.mem_append.2 (Or.inl (List.mem_cons_of_mem _ (List.mem_flatMap.2 ⟨c, hc, hv⟩)))
  · exact List.mem_append.2 (Or.inr hv)

end Query

end Search

/-! ## The theorem -/

/-- What a query returns, renamed. -/
def Resolution.mapVars (π : Renaming) (r : Resolution) : Resolution :=
  ⟨r.witness.mapVars π, r.subst.mapVars π⟩

namespace Search

/-- What a query returns goes along with a renaming that fixes what the query mentions. -/
theorem learned_mapVars {q : Search} {p : Param} {context : Subst} {π : Renaming}
    (hπ : ∀ v < q.seed p context, π v = v) (found : Solved) :
    Resolution.mapVars π ⟨found.witness, q.learn found.subst (queryVars p context) context⟩ =
      ⟨found.witness.mapVars π,
        q.learn (found.subst.mapVars π) (queryVars p context) context⟩ := by
  have hlearn := learn_mapVars (q := q) found.subst (queryVars_fixed hπ) context
  rw [context_fixed hπ] at hlearn
  rw [Resolution.mapVars, ← hlearn]

/-- Two outcomes of a query agree: both are found, up to a renaming that fixes all variables below `n`,
    or both fail for the same reason. -/
inductive SameOutcome (n : VarId) :
    Except SearchError Resolution → Except SearchError Resolution → Prop where
  | found {π : Renaming} (hπ : ∀ v < n, π v = v) (r : Resolution) :
      SameOutcome n (.ok r) (.ok (r.mapVars π))
  | failed {e e' : SearchError} (h : e.Alike e') : SameOutcome n (.error e) (.error e')

/-- **The order of the candidates does not matter.**  With the same candidates in another order, either
    both searches succeed, with the same witness and the same substitution up to a renaming of the
    variables that the search invents; or both fail, for the same reason. -/
theorem resolveWith_perm {q : Search} (hd : q.catalog.Declared)
    (hq : ∀ c ∈ q.candidates.values, q.catalog.Offers c) {other : CandidateSet}
    (hperm : q.candidates.values.Perm other.values) (p : Param) (context : Subst) :
    SameOutcome (q.seed p context) (q.resolveWith p context)
      ((q.withCandidates other).resolveWith p context) := by
  have hrequest : Below Request.mapVars (q.seed p context) ⟨p.name, p.constraints, context⟩ :=
    below_request (fun c hc π hπ => constraints_fixed hπ c hc) fun π hπ => context_fixed hπ
  obtain ⟨k, x, x', π, hrun, hrun', hπ, hx⟩ := solve_agree hd.regular hq hperm
    (q.config.maxDepth + 1) _ _ [] (clear_seed q p context) hrequest
  cases hx with
  | error he =>
    have hfail' : (q.withCandidates other).resolveWith p context = _ := resolveWith_of_error hrun'
    rw [resolveWith_of_error hrun, hfail']
    exact .failed he
  | ok found =>
    have hfound' : (q.withCandidates other).resolveWith p context = _ := resolveWith_of_ok hrun'
    rw [resolveWith_of_ok hrun, hfound']
    have hsame := SameOutcome.found hπ.below
      ⟨found.witness, q.learn found.subst (queryVars p context) context⟩
    rw [learned_mapVars hπ.below] at hsame
    exact hsame

/-! ## Two orders that invent different variables -/

/-- The concept `Show<T>`, an overlappable instance for every type, and one for lists. -/
def showing : Except DeclError Catalog := do
  let cat ← Catalog.empty.declareConcept ⟨"Show", [⟨0, "T", .ordinary⟩], [], []⟩
  let (_, cat) ← cat.declareInstance Catalog.root ⟨"ShowAny", [⟨2, "A", .ordinary⟩],
    [⟨"Show", [.var 2 (some "A")]⟩], true, false, none, []⟩
  let (_, cat) ← cat.declareInstance Catalog.root ⟨"ShowList", [⟨3, "A", .ordinary⟩],
    [⟨"Show", [Ty.con "List" [.var 3 (some "A")]]⟩], false, false, none, []⟩
  return cat

theorem showing_declared {cat : Catalog} (h : showing = .ok cat) : cat.Declared := by
  obtain ⟨_, h₁, h⟩ := bind_eq_ok h
  obtain ⟨⟨_, _⟩, h₂, h⟩ := bind_eq_ok h
  obtain ⟨⟨_, _⟩, h₃, h⟩ := bind_eq_ok h
  injection h with h
  exact h ▸ .instance (.instance (.concept .empty h₁) h₂) h₃

/-- The query for `Show` of something that is not known yet. -/
def showingQuery : Param := ⟨20, "W", .witness [⟨"Show", [.var 21 none]⟩]⟩

/-- The candidates in the opposite order. -/
def reversed (candidates : CandidateSet) : CandidateSet :=
  ⟨candidates.entries.reverse, by
    rw [List.map_reverse]
    exact (List.reverse_perm _).nodup_iff.2 candidates.nodup⟩

/-- Both orders answer `ShowList`, for lists of a variable that has two different numbers. -/
theorem resolveWith_perm_showing : ∃ (q : Search) (r r' : Resolution),
    q.resolveWith showingQuery .empty = .ok r ∧
    (q.withCandidates (reversed q.candidates)).resolveWith showingQuery .empty = .ok r' ∧
    r.witness.text = "ShowList<A>" ∧ r.subst.entries ≠ r'.subst.entries ∧
    ∃ π : Renaming, (∀ v < q.seed showingQuery .empty, π v = v) ∧ r' = r.mapVars π := by
  have h : okAnd showing (fun cat => okAnd (cat.searchAt .default Catalog.root) fun q =>
      okAnd (q.resolveWith showingQuery .empty) fun r =>
        okAnd ((q.withCandidates (reversed q.candidates)).resolveWith showingQuery .empty) fun r' =>
          decide (r.witness.text = "ShowList<A>" ∧ r.subst.entries ≠ r'.subst.entries)) = true := by
    decide +kernel
  obtain ⟨cat, hcat, h⟩ := okAnd_eq_true h
  obtain ⟨q, hq, h⟩ := okAnd_eq_true h
  obtain ⟨r, hr, h⟩ := okAnd_eq_true h
  obtain ⟨r', hr', h⟩ := okAnd_eq_true h
  obtain ⟨htext, hne⟩ := of_decide_eq_true h
  obtain ⟨hcatalog, _, hoffers⟩ := Catalog.searchAt_ok hq
  have hperm : q.candidates.values.Perm (reversed q.candidates).values :=
    (List.reverse_perm q.candidates.entries).symm.map Prod.snd
  have hsame := resolveWith_perm (hcatalog ▸ showing_declared hcat) (hcatalog ▸ hoffers) hperm
    showingQuery .empty
  rw [hr, hr'] at hsame
  cases hsame with
  | found hπ _ => exact ⟨q, r, _, hr, hr', htext, hne, _, hπ, rfl⟩

end Search

end InstanceSearch
