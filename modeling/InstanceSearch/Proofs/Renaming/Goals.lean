/-
  The text of a goal says which goal it is.

  THE SAME GOAL (`SameGoal`)
    Two lists of capabilities are the same goal if a renaming that leaves the frozen variables alone
    turns the one into the other, position by position.

  THE TEXT (`goalText_eq_iff`)
    Same goals have one text, because a renaming keeps the order in which variables appear.  Conversely
    a text is read back (`Capability.listText_inj`), and what is read is a goal with its variables at
    their places.  `unplace` takes a place back to a variable; with the variables of the other goal
    it sends every variable of the first to the one that stands where it stands (`moved`).  Both goals
    can be sent to one another, so this is one-to-one, and extends to a renaming.

  THE GUARD (`goals_in_flight`)
    What is in flight at a call are the goals of the calls around it.  So a call is refused exactly if
    one of those asks for the same goal.
-/
import InstanceSearch.Proofs.Ty.Readable
import InstanceSearch.Proofs.Search.Minimize

namespace InstanceSearch

/-! ## Sending variables to variables -/

/-- `t.send f` = `t` with `f v`, without a label, in the place of every variable `v`. -/
def Ty.send (f : VarId → VarId) (t : Ty) : Ty := t.replaceVars fun v _ => .var (f v) none

theorem Ty.vars_send (f : VarId → VarId) (t : Ty) : (t.send f).vars = t.vars.map f := by
  induction t using Ty.induction with
  | var v n => rfl
  | app k args ih =>
    rw [send, replaceVars_app, vars_app, vars_app, List.map_flatMap, List.flatMap_map]
    rw [List.flatMap, List.flatMap]
    exact congrArg List.flatten (List.map_congr_left ih)

namespace Capability

/-- `c.send f` = `c` with `f v`, without a label, in the place of every variable `v`. -/
def send (f : VarId → VarId) (c : Capability) : Capability := c.map (Ty.send f)

@[simp] theorem vars_send (f : VarId → VarId) (c : Capability) : (c.send f).vars = c.vars.map f := by
  simp [vars, send, List.map_flatMap, List.flatMap_map, Ty.vars_send]

theorem send_congr {f g : VarId → VarId} {c : Capability} (h : ∀ v ∈ c.vars, f v = g v) :
    c.send f = c.send g := by
  rw [send, send, map, map, List.map_congr_left]
  intro t ht
  exact Ty.replaceVars_congr fun v hv _ => by rw [h v (List.mem_flatMap.2 ⟨t, ht, hv⟩)]

/-- To send every variable to itself is to take the labels off. -/
theorem send_of_fixed {f : VarId → VarId} {c : Capability} (h : ∀ v ∈ c.vars, f v = v) :
    c.send f = c.anon := send_congr (g := id) h

theorem anon_mapVars (π : Renaming) (c : Capability) : (c.mapVars π).anon = c.send π := by
  rw [mapVars, anon, send, map, map, List.map_map]
  congr 1
  refine List.map_congr_left fun t _ => ?_
  exact Ty.replaceVars_replaceVars _ _ t

theorem beq_list_iff {cs ds : List Capability} : (cs == ds) = true ↔ cs.map anon = ds.map anon := by
  induction cs generalizing ds with
  | nil => cases ds <;> simp
  | cons c cs ih => cases ds <;> simp [ih]

end Capability

namespace Search

variable {frozen : VarSet} {cs ds : List Capability}

/-! ## The same goal -/

/-- `SameGoal frozen cs ds`: a renaming of the variables that are not frozen turns `cs` into `ds`. -/
def SameGoal (frozen : VarSet) (cs ds : List Capability) : Prop :=
  ∃ π : Renaming, (∀ v ∈ frozen, π v = v) ∧ (cs.map (Capability.mapVars π) == ds) = true

/-- The variables of a goal from left to right. -/
def goalVars (cs : List Capability) : List VarId := cs.flatMap Capability.vars

/-! ## From the text to the goal -/

/-- A goal with its variables at their places, as its text shows it. -/
def placed (frozen : VarSet) (cs : List Capability) : List Capability :=
  cs.map (Capability.map (Ty.replaceVars (place frozen (FirstSeen.ofList (goalVars cs)))))

theorem place_readable (order : List VarId) (v : VarId) (n : Option String) :
    (place frozen order v n).Readable := by
  unfold place
  split
  · exact .number v
  · exact .place _

/-- The text of a goal determines the goal with its variables at their places. -/
theorem placed_eq_of_goalText (hcs : ∀ c ∈ cs, c.WellNamed) (hds : ∀ d ∈ ds, d.WellNamed)
    (h : goalText frozen cs = goalText frozen ds) : placed frozen cs = placed frozen ds :=
  Capability.listText_inj
    (List.forall_mem_map.2 fun c hc => (hcs c hc).readable fun v n => place_readable _ v n)
    (List.forall_mem_map.2 fun d hd => (hds d hd).readable fun v n => place_readable _ v n) h

/-- `unplace order v n` = the variable that is written so: one with a number is itself, one with a place
    is the variable that has this place in `order`. -/
def unplace (order : List VarId) (v : VarId) : Option String → Ty
  | none => .var v none
  | some _ => .var (order.getD v v) none

/-- Where a variable goes that is placed by one list and taken back by another. -/
def moved (frozen : VarSet) (order order' : List VarId) (v : VarId) : VarId :=
  if v ∈ frozen then v else order'.getD (order.idxOf v) (order.idxOf v)

theorem moved_of_frozen {order order' : List VarId} {v : VarId} (h : v ∈ frozen) :
    moved frozen order order' v = v := if_pos h

/-- Placed and taken back by the same list, a variable is itself. -/
theorem moved_self {order : List VarId} {v : VarId} (h : v ∈ order) : moved frozen order order v = v := by
  unfold moved
  split
  · rfl
  · have hlt : order.idxOf v < order.length := List.idxOf_lt_length_iff.2 h
    rw [List.getD_eq_getElem?_getD, List.getElem?_eq_getElem hlt, Option.getD_some]
    exact List.getElem_idxOf hlt

theorem unplace_placed (order : List VarId) (cs : List Capability) :
    (placed frozen cs).map (Capability.map (Ty.replaceVars (unplace order))) =
      cs.map (Capability.send (moved frozen (FirstSeen.ofList (goalVars cs)) order)) := by
  rw [placed, List.map_map]
  refine List.map_congr_left fun c _ => ?_
  rw [Function.comp_apply, Capability.map_map]
  congr 1
  funext t
  rw [Ty.replaceVars_replaceVars]
  refine Ty.replaceVars_congr fun v _ n => ?_
  unfold place moved
  split <;> rfl

/-- **Goals with one text can be sent to one another**, each variable to the one at its place. -/
theorem send_of_placed (h : placed frozen cs = placed frozen ds) :
    cs.map (Capability.send
      (moved frozen (FirstSeen.ofList (goalVars cs)) (FirstSeen.ofList (goalVars ds)))) =
      ds.map Capability.anon := by
  rw [← unplace_placed, h, unplace_placed]
  refine List.map_congr_left fun d hd => Capability.send_of_fixed fun v hv => moved_self ?_
  rw [FirstSeen.mem_ofList]
  exact List.mem_flatMap.2 ⟨d, hd, hv⟩

theorem goalVars_send {f : VarId → VarId} (h : cs.map (Capability.send f) = ds.map Capability.anon) :
    (goalVars cs).map f = goalVars ds := by
  have hvars := congrArg goalVars h
  unfold goalVars at hvars ⊢
  rw [List.flatMap_map, List.flatMap_map] at hvars
  rw [List.map_flatMap]
  simpa [Capability.vars_eq_of_anon (Capability.anon_anon _)] using hvars

/-- Lists that can be sent to one another, frozen variables to themselves, are the same goal. -/
theorem sameGoal_of_send {f g : VarId → VarId} (hf : cs.map (Capability.send f) = ds.map Capability.anon)
    (hg : ds.map (Capability.send g) = cs.map Capability.anon) (hf_frozen : ∀ v ∈ frozen, f v = v)
    (hg_frozen : ∀ v ∈ frozen, g v = v) : SameGoal frozen cs ds := by
  have hfs : (goalVars cs).map f = goalVars ds := goalVars_send hf
  have hgs : (goalVars ds).map g = goalVars cs := goalVars_send hg
  have hmem : ∀ v ∈ goalVars cs, f v ∈ goalVars ds := fun v hv => hfs ▸ List.mem_map_of_mem hv
  have hback : ∀ v ∈ goalVars cs, g (f v) = v := by
    rw [← hfs, List.map_map] at hgs
    exact List.map_inj_left.1 (hgs.trans (List.map_id _).symm)
  -- a variable that may be renamed is not sent to a frozen one, which would be sent back to itself
  have hopen : ∀ v ∈ goalVars cs, v ∉ frozen → f v ∉ frozen := by
    intro v hv hopen hm
    have heq : v = f v := (hback v hv).symm.trans (hg_frozen _ hm)
    exact hopen (heq ▸ hm)
  let vs : Finset VarId := ((goalVars cs ++ goalVars ds).filter fun v => decide (v ∉ frozen)).toFinset
  have hvs : ∀ v, v ∈ vs ↔ (v ∈ goalVars cs ∨ v ∈ goalVars ds) ∧ v ∉ frozen := by
    intro v
    simp [vs, or_and_right]
  obtain ⟨π, hπ, hfixed⟩ : ∃ π : Renaming,
      (∀ v ∈ vs, v ∈ goalVars cs → π v = f v) ∧ ∀ v, v ∉ vs → π v = v :=
    Subst.exists_renaming_of_injOn
      (fun v hv hP => (hvs _).2 ⟨Or.inr (hmem v hP), hopen v hP ((hvs v).1 hv).2⟩)
      (fun v _ hv w _ hw heq => by rw [← hback v hv, heq, hback w hw])
  have hπ_frozen : ∀ v ∈ frozen, π v = v := fun v hv => hfixed v fun hm => ((hvs v).1 hm).2 hv
  refine ⟨π, hπ_frozen, Capability.beq_list_iff.2 ?_⟩
  rw [← hf, List.map_map]
  refine List.map_congr_left fun c hc => ?_
  rw [Function.comp_apply, Capability.anon_mapVars]
  refine Capability.send_congr fun v hv => ?_
  have hv' : v ∈ goalVars cs := List.mem_flatMap.2 ⟨c, hc, hv⟩
  by_cases hm : v ∈ frozen
  · rw [hπ_frozen v hm, hf_frozen v hm]
  · exact hπ v ((hvs v).2 ⟨Or.inl hv', hm⟩) hv'

/-! ## The text is the goal -/

/-- The same goal has one text, whatever its names. -/
theorem SameGoal.goalText_eq (h : SameGoal frozen cs ds) : goalText frozen cs = goalText frozen ds := by
  obtain ⟨π, hπ, heq⟩ := h
  rw [← goalText_mapVars hπ cs]
  exact goalText_congr (Capability.beq_list_iff.1 heq)

/-- **Two goals have one text exactly if they are the same goal.** -/
theorem goalText_eq_iff (hcs : ∀ c ∈ cs, c.WellNamed) (hds : ∀ d ∈ ds, d.WellNamed) :
    goalText frozen cs = goalText frozen ds ↔ SameGoal frozen cs ds := by
  refine ⟨fun h => ?_, SameGoal.goalText_eq⟩
  have hplaced := placed_eq_of_goalText hcs hds h
  exact sameGoal_of_send (send_of_placed hplaced) (send_of_placed hplaced.symm)
    (fun v hv => moved_of_frozen hv) (fun v hv => moved_of_frozen hv)

/-! ## What the guard sees -/

/-- **The goals in flight at a call are those of the calls around it**, in order. -/
theorem goals_of_mem_nestedCalls {q : Search} {levels : Nat} {above : List Request} {r : Request}
    {st : State} {c : NestedCall} (hst : st.goals = above.map q.goal)
    (hc : c ∈ q.nestedCalls levels above r st) : c.state.goals = c.above.map q.goal := by
  induction levels generalizing above r st with
  | zero =>
    rw [nestedCalls, List.mem_singleton] at hc
    rw [hc]
    exact hst
  | succ levels ih =>
    rw [nestedCalls, List.mem_cons, List.mem_flatMap] at hc
    rcases hc with hc | ⟨d, hd, hc⟩
    · rw [hc]
      exact hst
    · obtain ⟨_, name, hstack⟩ := stack_of_mem_stepCalls (q.solve_stack levels) hd
      refine ih ?_ hc
      rw [State.goals, hstack, List.map_cons, List.map_cons, ← hst]
      rfl

/-- Whatever a call is nested in is a call as well. -/
theorem exists_call_of_mem_above {q : Search} {levels : Nat} {above : List Request} {r : Request}
    {st : State} {c : NestedCall} (hc : c ∈ q.nestedCalls levels above r st) {a : Request}
    (ha : a ∈ c.above) : a ∈ above ∨ ∃ d ∈ q.nestedCalls levels above r st, d.request = a := by
  induction levels generalizing above r st with
  | zero =>
    rw [nestedCalls, List.mem_singleton] at hc
    rw [hc] at ha
    exact Or.inl ha
  | succ levels ih =>
    rw [nestedCalls, List.mem_cons, List.mem_flatMap] at hc
    rcases hc with hc | ⟨d, hd, hc⟩
    · rw [hc] at ha
      exact Or.inl ha
    · rw [nestedCalls]
      rcases ih hc with ha | ⟨e, he, heq⟩
      · rcases List.mem_cons.1 ha with rfl | ha
        · exact Or.inr ⟨_, List.mem_cons_self, rfl⟩
        · exact Or.inl ha
      · exact Or.inr ⟨e, List.mem_cons_of_mem _ (List.mem_flatMap.2 ⟨d, hd, he⟩), heq⟩

/-- **The identity of goals.**  Two goals have one text exactly if a renaming of the variables that are not
    frozen turns the one into the other.  So a call of a query is refused exactly if a call that it is
    nested in asks for the same goal. -/
theorem goal_identity :
    (∀ (frozen : VarSet) (cs ds : List Capability),
      (∀ c ∈ cs, c.WellNamed) → (∀ d ∈ ds, d.WellNamed) →
        (goalText frozen cs = goalText frozen ds ↔ SameGoal frozen cs ds)) ∧
    ∀ (q : Search) (p : Param) (context : Subst),
      (∀ c ∈ q.queryNestedCalls p context, ∀ d ∈ q.requirement c.request, d.WellNamed) →
        ∀ c ∈ q.queryNestedCalls p context,
          (reentry c.state.stack (q.goal c.request)).isSome ↔
            ∃ r ∈ c.above, SameGoal q.frozen (q.requirement r) (q.requirement c.request) := by
  refine ⟨fun frozen cs ds hcs hds => goalText_eq_iff hcs hds, ?_⟩
  intro q p context hnamed c hc
  have hgoals : c.state.goals = c.above.map q.goal := goals_of_mem_nestedCalls rfl hc
  have habove : ∀ r ∈ c.above, ∀ d ∈ q.requirement r, d.WellNamed := by
    intro r hr
    rcases exists_call_of_mem_above hc hr with hr | ⟨e, he, rfl⟩
    · cases hr
    · exact hnamed e he
  have hsome : (reentry c.state.stack (q.goal c.request)).isSome ↔ q.goal c.request ∈ c.state.goals := by
    rw [← not_iff_not, Bool.not_eq_true, Option.isSome_eq_false_iff, Option.isNone_iff_eq_none]
    exact reentry_eq_none_iff
  rw [hsome, hgoals, List.mem_map]
  constructor
  · rintro ⟨r, hr, heq⟩
    exact ⟨r, hr, (goalText_eq_iff (habove r hr) (hnamed c hc)).1 heq⟩
  · rintro ⟨r, hr, hsame⟩
    exact ⟨r, hr, hsame.goalText_eq⟩

/-- Equality and order, each derived from the other. -/
def circular : Except DeclError Catalog := do
  let eq := fun t : Ty => (⟨"Eq", [t]⟩ : Capability)
  let ord := fun t : Ty => (⟨"Ord", [t]⟩ : Capability)
  let cat ← Catalog.empty.declareConcept ⟨"Eq", [⟨0, "T", .ordinary⟩], [], []⟩
  let cat ← cat.declareConcept ⟨"Ord", [⟨1, "T", .ordinary⟩], [], []⟩
  let (_, cat) ← cat.declareInstance Catalog.root ⟨"EqByOrd",
    [⟨2, "T", .ordinary⟩, ⟨3, "W", .witness [ord (.var 2 (some "T"))]⟩], [eq (.var 2 (some "T"))],
    false, false, none, []⟩
  let (_, cat) ← cat.declareInstance Catalog.root ⟨"OrdByEq",
    [⟨4, "U", .ordinary⟩, ⟨5, "W", .witness [eq (.var 4 (some "U"))]⟩], [ord (.var 4 (some "U"))],
    false, false, none, []⟩
  return cat

/-- The query for equality of lists. -/
def circularQuery : Param := ⟨20, "W", .witness [⟨"Eq", [Ty.con "List" [.var 21 none]]⟩]⟩

/-- `Ord` of a pair of the given variables. -/
def ordPair (v w : VarId) : Capability := ⟨"Ord", [Ty.con "Pair" [.var v none, .var w none]]⟩

/-- Where `?1` is frozen, pairs that begin with different open variables are one goal, and to exchange the
    members makes another one.  In the circular catalog the goal comes back at new variables. -/
theorem goal_identity_circular :
    SameGoal (.ofList [1]) [ordPair 10 1] [ordPair 20 1] ∧
    ¬ SameGoal (.ofList [1]) [ordPair 10 1] [ordPair 1 10] ∧
    ∃ q : Search, ∃ c ∈ q.queryNestedCalls circularQuery .empty, ∃ r ∈ c.above,
      SameGoal q.frozen (q.requirement r) (q.requirement c.request) := by
  have h : okAnd circular (fun cat => okAnd (cat.searchAt .default Catalog.root) fun q =>
      decide ((∀ c ∈ q.queryNestedCalls circularQuery .empty,
          ∀ d ∈ q.requirement c.request, d.WellNamed) ∧
        ∃ c ∈ q.queryNestedCalls circularQuery .empty,
          (reentry c.state.stack (q.goal c.request)).isSome)) = true := by decide +kernel
  obtain ⟨_, _, h⟩ := okAnd_eq_true h
  obtain ⟨q, _, h⟩ := okAnd_eq_true h
  obtain ⟨hnamed, c, hc, hrefused⟩ := of_decide_eq_true h
  refine ⟨?_, ?_, q, c, hc, (goal_identity.2 q circularQuery .empty hnamed c hc).1 hrefused⟩
  · exact (goal_identity.1 _ _ _ (by decide +kernel) (by decide +kernel)).1 (by decide +kernel)
  · exact fun h => absurd ((goal_identity.1 _ _ _ (by decide +kernel) (by decide +kernel)).2 h)
      (by decide +kernel)

end Search

end InstanceSearch
