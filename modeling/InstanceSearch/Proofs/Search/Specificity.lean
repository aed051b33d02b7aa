/-
  What "at least as specific" says.

  TWO READINGS
    The patterns of a survivor share its type parameters: `Same<X>` that offers `C<X>` and `D<X>` covers
    `C<Int>` with `D<Int>`, and `C<Bool>` with `D<Bool>`, but not `C<Int>` with `D<Bool>`.  So one list of
    patterns applies to no more goals than another if ONE substitution turns the other list into it
    (`TurnsInto`).  The program compares requirement by requirement, each with a substitution of its own
    (`PlaceByPlace`).

  THE STATEMENT (`specificity_exact`)
    The two agree exactly where the substitutions of all places send the variables that they share to the
    same types (`Consistent`), as they do if there is one requirement or no variable is shared.  There
    the comparison says that whatever the first list covers, the second one covers, and a winner is
    really narrower than the others.  Otherwise it is not (`not_always_narrower`).

  THE CRUX (`turnsInto_iff`)
    What a matching puts for the variables of a pattern is determined by the two capabilities
    (`anon_eq_of_assign`).  So there is one candidate for the single substitution, and it is there if the
    places do not contradict each other.
-/
import InstanceSearch.Proofs.Search.Growth
import InstanceSearch.Proofs.Search.Choice
import InstanceSearch.Proofs.Search.Decided

namespace InstanceSearch

namespace Search

/-! ## One substitution, or one for each place -/

/-- `θ` leaves the variables `fixed` as they are. -/
def Leaves (fixed : VarId → Prop) (θ : VarId → Ty) : Prop :=
  ∀ v, fixed v → (θ v == .var v none) = true

/-- One substitution that leaves the variables `fixed` alone turns the whole list `general` into the list
    `specific`, position by position. -/
def TurnsInto (fixed : VarId → Prop) (general specific : List Capability) : Prop :=
  ∃ θ : VarId → Ty, Leaves fixed θ ∧
    List.Forall₂ (fun g s => (g.assign θ == s) = true) general specific

/-- At each position there is a substitution that turns the one capability into the other.  It leaves the
    frozen variables alone, and the variables of the capability that it arrives at. -/
def PlaceByPlace (frozen : VarSet) (general specific : List Capability) : Prop :=
  List.Forall₂ (fun g s => ∃ θ, Leaves (fun v => v ∈ frozen ∨ v ∈ s.vars) θ ∧ (g.assign θ == s) = true)
    general specific

/-- `Puts frozen p v t`: turning `p.1` into `p.2` puts `t` for the variable `v`. -/
def Puts (frozen : VarSet) (p : Capability × Capability) (v : VarId) (t : Ty) : Prop :=
  v ∈ p.1.vars ∧ ∃ θ, Leaves (· ∈ frozen) θ ∧ (p.1.assign θ == p.2) = true ∧ (t == θ v) = true

/-- No variable has to become one thing at one position and another thing at another. -/
def Consistent (frozen : VarSet) (general specific : List Capability) : Prop :=
  ∀ p ∈ general.zip specific, ∀ p' ∈ general.zip specific, ∀ v t t',
    Puts frozen p v t → Puts frozen p' v t' → (t == t') = true

section Lists

variable {fixed : VarId → Prop} {frozen : VarSet} {as bs cs : List Capability}

theorem Leaves.anon {θ : VarId → Ty} (h : Leaves fixed θ) {v : VarId} (hv : fixed v) :
    (θ v).anon = .var v none := Ty.beq_iff.1 (h v hv)

theorem TurnsInto.refl (fixed : VarId → Prop) (as : List Capability) : TurnsInto fixed as as := by
  refine ⟨fun v => .var v none, fun v _ => Ty.beq_iff.2 rfl, ?_⟩
  refine List.forall₂_same.2 ?_
  intro c _
  exact Capability.beq_iff.2 (Capability.anon_assign_of_fixed fun v _ => rfl)

theorem TurnsInto.trans (h : TurnsInto fixed as bs) (h' : TurnsInto fixed bs cs) :
    TurnsInto fixed as cs := by
  obtain ⟨θ, hθ, hab⟩ := h
  obtain ⟨θ', hθ', hbc⟩ := h'
  refine ⟨fun v => (θ v).assign θ', ?_, ?_⟩
  · intro v hv
    have hv' := Ty.anon_assign_congr (θ := θ') (Ty.beq_iff.1 (hθ v hv))
    exact Ty.beq_iff.2 (hv'.trans (hθ'.anon hv))
  · induction hab generalizing cs with
    | nil =>
      rw [List.forall₂_nil_left_iff.1 hbc]
      exact .nil
    | cons hg _ ih =>
      obtain ⟨c, cs', hc, hcs, rfl⟩ := List.forall₂_cons_left_iff.1 hbc
      refine .cons ?_ (ih hcs)
      rw [Capability.beq_iff] at hg hc ⊢
      rw [← Capability.assign_assign, Capability.anon_assign_congr hg, hc]

/-- **To turn into a list is to cover whatever it covers.** -/
theorem turnsInto_iff_covers :
    TurnsInto fixed bs as ↔ ∀ cs, TurnsInto fixed as cs → TurnsInto fixed bs cs :=
  ⟨fun h _ hcs => h.trans hcs, fun h => h as (.refl fixed as)⟩

theorem TurnsInto.mono {fixed' : VarId → Prop} (h : TurnsInto fixed as bs)
    (hfixed : ∀ v, fixed' v → fixed v) : TurnsInto fixed' as bs := by
  obtain ⟨θ, hθ, hab⟩ := h
  exact ⟨θ, fun v hv => hθ v (hfixed v hv), hab⟩

/-- What one substitution puts for a variable is what any matching at the position puts. -/
theorem Puts.eq_of_assign {p : Capability × Capability} {v : VarId} {t : Ty}
    (h : Puts frozen p v t) {θ : VarId → Ty} (hθ : (p.1.assign θ == p.2) = true) :
    t.anon = (θ v).anon := by
  obtain ⟨hv, θ', -, hp, ht⟩ := h
  rw [Capability.beq_iff] at hθ hp
  rw [Ty.beq_iff] at ht
  exact ht.trans (Capability.anon_eq_of_assign (hp.trans hθ.symm) v hv)

/-- **One substitution is enough exactly if the positions do not contradict each other.** -/
theorem turnsInto_iff (h : PlaceByPlace frozen bs as) :
    TurnsInto (· ∈ frozen) bs as ↔ Consistent frozen bs as := by
  constructor
  · rintro ⟨θ, -, hall⟩ p hp p' hp' v t t' ht ht'
    have hone : ∀ x ∈ bs.zip as, (x.1.assign θ == x.2) = true :=
      fun x hx => (List.forall₂_iff_zip.1 hall).2 hx
    rw [Ty.beq_iff, ht.eq_of_assign (hone p hp), ht'.eq_of_assign (hone p' hp')]
  · intro hconsistent
    have hplace : ∀ p ∈ bs.zip as, ∃ θ, Leaves (· ∈ frozen) θ ∧ (p.1.assign θ == p.2) = true := by
      intro p hp
      obtain ⟨θ, hθ, hassign⟩ := (List.forall₂_iff_zip.1 h).2 hp
      exact ⟨θ, fun v hv => hθ v (Or.inl hv), hassign⟩
    -- for each variable what some position puts for it
    have hchoice : ∀ v, ∃ u : Ty, ((∃ p ∈ bs.zip as, Puts frozen p v u) ∨ u = .var v none) ∧
        ∀ p ∈ bs.zip as, ∀ t, Puts frozen p v t → t.anon = u.anon := by
      intro v
      by_cases hv : ∃ p ∈ bs.zip as, ∃ t, Puts frozen p v t
      · obtain ⟨p, hp, u, hu⟩ := hv
        exact ⟨u, Or.inl ⟨p, hp, hu⟩,
          fun p' hp' t ht => Ty.beq_iff.1 (hconsistent p' hp' p hp v t u ht hu)⟩
      · exact ⟨.var v none, Or.inr rfl, fun p hp t ht => absurd ⟨p, hp, t, ht⟩ hv⟩
    choose θ hsome hall using hchoice
    refine ⟨θ, ?_, List.forall₂_iff_zip.2 ⟨List.Forall₂.length_eq h, ?_⟩⟩
    · intro v hv
      rcases hsome v with ⟨p, hp, -, θ', hθ', -, ht⟩ | hself
      · exact Ty.beq_iff.2 ((Ty.beq_iff.1 ht).trans (hθ'.anon hv))
      · rw [hself]
        exact Ty.beq_iff.2 rfl
    · intro g s hp
      obtain ⟨θ', hθ', hassign⟩ := hplace (g, s) hp
      have hsame : (g.assign θ).anon = (g.assign θ').anon := by
        refine Capability.anon_map_congr rfl ?_
        intro v hv _ _
        exact (hall v (g, s) hp (θ' v) ⟨hv, θ', hθ', hassign, Ty.beq_iff.2 rfl⟩).symm
      rw [Capability.beq_iff] at hassign ⊢
      exact hsame.trans hassign

/-- Positions that share no variable but frozen ones contradict nothing. -/
theorem consistent_of_unshared (h : ∀ p ∈ bs.zip as, ∀ p' ∈ bs.zip as, p ≠ p' →
    ∀ v ∈ p.1.vars, v ∈ p'.1.vars → v ∈ frozen) : Consistent frozen bs as := by
  rintro p hp p' hp' v t t' ht ht'
  by_cases he : p = p'
  · subst he
    obtain ⟨-, θ, -, hθ, hv⟩ := ht'
    rw [Ty.beq_iff] at hv ⊢
    exact (ht.eq_of_assign hθ).trans hv.symm
  · have hf := h p hp p' hp' he v ht.1 ht'.1
    obtain ⟨-, θ, hθ, -, hv⟩ := ht
    obtain ⟨-, θ', hθ', -, hv'⟩ := ht'
    rw [Ty.beq_iff] at hv hv' ⊢
    rw [hv, hv', hθ.anon hf, hθ'.anon hf]

/-- Nor does a single position. -/
theorem consistent_of_length_le_one (h : bs.length ≤ 1) : Consistent frozen bs as := by
  refine consistent_of_unshared ?_
  intro p hp p' hp' hne
  match bs, as, h with
  | [], _, _ => cases hp
  | [_], [], _ => cases hp
  | [b], a :: as, _ =>
    rw [List.zip_cons_cons, List.zip_nil_left, List.mem_singleton] at hp hp'
    exact absurd (hp.trans hp'.symm) hne
  | _ :: _ :: _, _, h =>
    simp only [List.length_cons] at h
    omega

/-- **The program compares position by position.** -/
theorem all_instanceOf_iff (h : as.length = bs.length) :
    ((as.zip bs).all fun p => p.1.instanceOf p.2 frozen) = true ↔ PlaceByPlace frozen bs as := by
  induction as generalizing bs with
  | nil =>
    cases bs with
    | nil => exact ⟨fun _ => .nil, fun _ => rfl⟩
    | cons b bs => cases h
  | cons a as ih =>
    cases bs with
    | nil => cases h
    | cons b bs =>
      have hhead : a.instanceOf b frozen = true ↔
          ∃ θ, Leaves (fun v => v ∈ frozen ∨ v ∈ a.vars) θ ∧ (b.assign θ == a) = true := by
        rw [Capability.instanceOf_iff]
        simp only [Leaves, Ty.beq_iff, Capability.beq_iff]
        rfl
      have hrest := ih (by simpa using h)
      rw [List.zip_cons_cons, List.all_cons, Bool.and_eq_true, hhead, hrest, PlaceByPlace,
        PlaceByPlace, List.forall₂_cons]

/-- A list of patterns that turns into another one, whose own variables it leaves alone, does so at every
    position. -/
theorem TurnsInto.placeByPlace {frozen : VarSet} {as bs : List Capability}
    (h : TurnsInto (fun v => v ∈ frozen ∨ v ∈ as.flatMap Capability.vars) bs as) :
    PlaceByPlace frozen bs as := by
  obtain ⟨θ, hθ, hall⟩ := h
  rw [List.forall₂_iff_zip] at hall
  refine List.forall₂_iff_zip.2 ⟨hall.1, ?_⟩
  intro g s hmem
  refine ⟨θ, ?_, hall.2 hmem⟩
  rintro v (hv | hv)
  · exact hθ v (Or.inl hv)
  · exact hθ v (Or.inr (List.mem_flatMap.2 ⟨s, (List.of_mem_zip hmem).2, hv⟩))

end Lists

/-! ## The survivors of a goal -/

/-- The survivors of a goal: the matches whose dependencies could be solved within `levels` levels. -/
def survivorsOf (q : Search) (levels : Nat) (r : Request) (st : State) : List Survivor :=
  let (matched, next) := q.matchAll (q.requirement r) r.context q.candidates.values st.next
  (q.surviveAll (q.solve levels) (goalText q.frozen (q.requirement r)) matched { st with next }).1.1

section Survivors

variable {q : Search} {levels : Nat} {r : Request} {st : State} {a b : Survivor}

/-- A cover has one pattern for each requirement. -/
theorem length_of_cover {frozen : VarSet} {offered required ps : List Capability} {s s₁ : Subst}
    (h : cover frozen offered required s = some (ps, s₁)) : ps.length = required.length := by
  induction required generalizing s ps with
  | nil =>
    injection h with h
    injection h with h
    rw [← h]
  | cons r rs ih =>
    obtain ⟨d, s', ds, -, hrest, rfl⟩ := cover_cons h
    rw [List.length_cons, List.length_cons, ih hrest]

theorem patterns_of_finish {m : Matched} {i : Instance} {x : Except SearchError (Subst × List Witness)}
    {w : Survivor} (h : q.finish m i x = .ok w) : w.patterns = m.patterns := by
  cases x with
  | error e => cases h
  | ok e =>
    injection h with h
    rw [← h]

/-- A survivor keeps the patterns of its match. -/
theorem patterns_of_survive {solver : Solver} {goal : String} {m : Matched} {st st' : State}
    {w : Survivor} (h : q.survive solver goal m st = (.ok w, st')) : w.patterns = m.patterns := by
  cases hm : m.candidate with
  | ambient p =>
    rw [survive_of_ambient hm] at h
    injection h with h
    injection h with h
    rw [← h]
  | declared i =>
    by_cases hpolicy : q.Refuses m
    · rw [survive_of_refused hm hpolicy] at h
      cases h
    · rw [survive_of_solved hm hpolicy st rfl] at h
      injection h with h
      exact patterns_of_finish h

theorem length_patterns (ha : a ∈ q.survivorsOf levels r st) :
    a.patterns.length = (q.requirement r).length := by
  obtain ⟨m, hm, st₁, st₂, -, hsurvive⟩ := mem_surviveAll (q.solve_next_le levels) ha
  obtain ⟨c, -, n, -, hmatch⟩ := mem_matchAll hm
  rw [patterns_of_survive hsurvive]
  exact length_of_cover (match?_ok hmatch).2.2

/-- `Compared frozen a b`: what it says that `a` was found to be at least as specific as `b`.  Position by
    position the patterns of `a` are instances of those of `b`.  They are as a whole, and what they
    cover the patterns of `b` cover, exactly if the positions do not contradict each other. -/
structure Compared (frozen : VarSet) (a b : Survivor) : Prop where
  places : PlaceByPlace frozen b.patterns a.patterns
  whole : TurnsInto (· ∈ frozen) b.patterns a.patterns ↔ Consistent frozen b.patterns a.patterns
  covers : (∀ cs, TurnsInto (· ∈ frozen) a.patterns cs → TurnsInto (· ∈ frozen) b.patterns cs) ↔
    Consistent frozen b.patterns a.patterns

theorem atLeastAsSpecific_iff {frozen : VarSet} (hlength : a.patterns.length = b.patterns.length) :
    atLeastAsSpecific frozen a b = true ↔ Compared frozen a b := by
  refine (all_instanceOf_iff hlength).trans ⟨fun hplaces => ?_, Compared.places⟩
  exact ⟨hplaces, turnsInto_iff hplaces, turnsInto_iff_covers.symm.trans (turnsInto_iff hplaces)⟩

/-- Whatever stands before or after a member of a list is in the list. -/
theorem mem_of_mem_others {before after : List Survivor} {w : Survivor} (h : b ∈ before ++ after) :
    b ∈ before ++ w :: after := by
  rcases List.mem_append.1 h with h | h
  · exact List.mem_append.2 (Or.inl h)
  · exact List.mem_append.2 (Or.inr (List.mem_cons_of_mem w h))

/-- What is solved is the winner among the survivors. -/
theorem exists_winner {found : Solved} (h : (q.solve (levels + 1) r st).1 = .ok found) :
    ∃ w, mostSpecific q.frozen (q.survivorsOf levels r st) = some w ∧
      found = ⟨w.witness, w.subst⟩ := step_winner h

/-- **What specificity says.**  Of two survivors of a goal one is at least as specific as the other exactly
    if it is so position by position.  That it covers no more than the other then holds exactly if no
    variable has to be two things at two positions, and none has to if there is one requirement.  The
    survivor that is returned is so against each other one, whose patterns are not to be had from its
    own. -/
theorem specificity_exact (q : Search) (levels : Nat) (r : Request) (st : State) :
    (∀ a ∈ q.survivorsOf levels r st, ∀ b ∈ q.survivorsOf levels r st,
      (atLeastAsSpecific q.frozen a b = true ↔ Compared q.frozen a b)) ∧
    (∀ b ∈ q.survivorsOf levels r st, (q.requirement r).length ≤ 1 →
      ∀ as, Consistent q.frozen b.patterns as) ∧
    ∀ found, (q.solve (levels + 1) r st).1 = .ok found →
      ∃ before w after, q.survivorsOf levels r st = before ++ w :: after ∧
        found = ⟨w.witness, w.subst⟩ ∧
        ∀ b ∈ before ++ after, Compared q.frozen w b ∧
          ¬ TurnsInto (fun v => v ∈ q.frozen ∨ v ∈ b.patterns.flatMap Capability.vars)
            w.patterns b.patterns := by
  have hlength : ∀ a ∈ q.survivorsOf levels r st, ∀ b ∈ q.survivorsOf levels r st,
      a.patterns.length = b.patterns.length :=
    fun a ha b hb => (length_patterns ha).trans (length_patterns hb).symm
  refine ⟨?_, ?_, ?_⟩
  · intro a ha b hb
    exact atLeastAsSpecific_iff (hlength a ha b hb)
  · intro b hb hone as
    exact consistent_of_length_le_one (by rw [length_patterns hb]; exact hone)
  · intro found hfound
    obtain ⟨w, hw, rfl⟩ := exists_winner hfound
    obtain ⟨before, after, hsplit, hbeats⟩ := mostSpecific_eq_some_iff.1 hw
    refine ⟨before, w, after, hsplit, rfl, ?_⟩
    intro b hb
    have hwmem : w ∈ q.survivorsOf levels r st := mem_of_mostSpecific hw
    have hbmem : b ∈ q.survivorsOf levels r st := by
      rw [hsplit]
      exact mem_of_mem_others hb
    have hmore := (hbeats b hb).1
    rw [moreSpecific, Bool.and_eq_true, Bool.not_eq_true'] at hmore
    refine ⟨(atLeastAsSpecific_iff (hlength w hwmem b hbmem)).1 hmore.1, ?_⟩
    intro hturns
    have hback := (all_instanceOf_iff (hlength b hbmem w hwmem)).2 hturns.placeByPlace
    rw [show atLeastAsSpecific q.frozen b w = true from hback] at hmore
    cases hmore.2

end Survivors

/-! ## Two positions that contradict each other -/

/-- `Fixed` provides `C<Int>` and `D<Bool>`; `Same<X>`, which may be overlapped, provides `C<X>` and
    `D<X>`. -/
def pairing : Except DeclError Catalog := do
  let elem : Ty := .var 20 (some "X")
  let cat ← Catalog.empty.declareConcept ⟨"C", [⟨0, "T", .ordinary⟩], [], []⟩
  let cat ← cat.declareConcept ⟨"D", [⟨2, "T", .ordinary⟩], [], []⟩
  let (_, cat) ← cat.declareInstance Catalog.root ⟨"Fixed", [],
    [⟨"C", [Ty.con "Int" []]⟩, ⟨"D", [Ty.con "Bool" []]⟩], false, false, none, []⟩
  let (_, cat) ← cat.declareInstance Catalog.root ⟨"Same", [⟨20, "X", .ordinary⟩],
    [⟨"C", [elem]⟩, ⟨"D", [elem]⟩], true, false, none, []⟩
  return cat

/-- The search in the root scope. -/
def pairingSearch : Except DeclError Search := do
  let cat ← pairing
  cat.searchAt .default Catalog.root

/-- The query for `C<?41>` and `D<?42>`. -/
def pairingQuery : Param :=
  ⟨40, "W", .witness [⟨"C", [.var 41 none]⟩, ⟨"D", [.var 42 none]⟩]⟩

/-- The query for `C<?41>` alone. -/
def singleQuery : Param := ⟨40, "W", .witness [⟨"C", [.var 41 none]⟩]⟩

/-- The survivors for a query of that search. -/
def pairingSurvivors (q : Search) (p : Param) : List Survivor :=
  q.survivorsOf q.config.maxDepth (queryRequest p .empty) (q.queryState p .empty)

/-- What `Fixed` covers the two requirements with. -/
def fixedPatterns : List Capability := [⟨"C", [Ty.con "Int" []]⟩, ⟨"D", [Ty.con "Bool" []]⟩]

/-- What `Same` covers them with, at its new variable. -/
def samePatterns : List Capability :=
  [⟨"C", [.var 43 (some "X")]⟩, ⟨"D", [.var 43 (some "X")]⟩]

/-- `?43` would have to be `Int` and `Bool`. -/
theorem same_not_turnsInto_fixed (fixed : VarId → Prop) :
    ¬ TurnsInto fixed samePatterns fixedPatterns := by
  rintro ⟨θ, -, hall⟩
  obtain ⟨hint, hall⟩ := List.forall₂_cons.1 hall
  obtain ⟨hbool, -⟩ := List.forall₂_cons.1 hall
  rw [Capability.beq_iff] at hint hbool
  have hboth : [(Ty.con "Int" []).anon] = [(Ty.con "Bool" []).anon] :=
    (Capability.anon_eq_iff.1 hint).2.symm.trans (Capability.anon_eq_iff.1 hbool).2
  revert hboth
  decide

/-- **A winner need not be narrower.**  `C<?41>` and `D<?42>` are answered by `Fixed`, which was found to be
    more specific than `Same`; but nothing that `X` may stand for turns `C<X>` and `D<X>` into `C<Int>` and
    `D<Bool>`. -/
theorem not_always_narrower : ∃ q found w b, pairingSearch = .ok q ∧
    (q.solve (q.config.maxDepth + 1) (queryRequest pairingQuery .empty)
      (q.queryState pairingQuery .empty)).1 = .ok found ∧
    pairingSurvivors q pairingQuery = [w, b] ∧ found = ⟨w.witness, w.subst⟩ ∧
    atLeastAsSpecific q.frozen w b = true ∧
    ¬ TurnsInto (· ∈ q.frozen) b.patterns w.patterns := by
  have h : okAnd pairingSearch (fun q =>
      okAnd (q.solve (q.config.maxDepth + 1) (queryRequest pairingQuery .empty)
        (q.queryState pairingQuery .empty)).1 fun _ =>
          decide ((pairingSurvivors q pairingQuery).map Survivor.patterns =
              [fixedPatterns, samePatterns] ∧
            (mostSpecific q.frozen (pairingSurvivors q pairingQuery)).map Survivor.patterns =
              some fixedPatterns ∧
            ((fixedPatterns.zip samePatterns).all fun p => p.1.instanceOf p.2 q.frozen) = true)) =
        true := by
    decide +kernel
  obtain ⟨q, hq, h⟩ := okAnd_eq_true h
  obtain ⟨found, hfound, h⟩ := okAnd_eq_true h
  obtain ⟨hpatterns, hwinner, hspecific⟩ := of_decide_eq_true h
  obtain ⟨v, hv, rfl⟩ := exists_winner hfound
  obtain ⟨w, ws, hws, hw, hrest⟩ := List.map_eq_cons_iff.1 hpatterns
  obtain ⟨b, ws', rfl, hb, hnil⟩ := List.map_eq_cons_iff.1 hrest
  rw [List.map_eq_nil_iff.1 hnil] at hws
  -- of the two survivors the winner is the one with the patterns of `Fixed`
  have hvw : v = w := by
    have hmem : v ∈ pairingSurvivors q pairingQuery := mem_of_mostSpecific hv
    rw [pairingSurvivors, hv] at hwinner
    rw [hws] at hmem
    rcases List.mem_cons.1 hmem with hvw | hmem
    · exact hvw
    · rw [List.mem_singleton.1 hmem, Option.map_some, hb] at hwinner
      exact absurd hwinner (by decide)
  subst hvw
  refine ⟨q, _, v, b, hq, hfound, hws, rfl, ?_, ?_⟩
  · rw [atLeastAsSpecific, hw, hb]
    exact hspecific
  · rw [hw, hb]
    exact same_not_turnsInto_fixed _

/-- Where only `C<?41>` is asked for, the winner is narrower than the other survivor: it was compared at
    the only position there is. -/
theorem specificity_exact_single : ∃ (q : Search) (found : Solved) (before : List Survivor)
    (w : Survivor) (after : List Survivor), pairingSearch = .ok q ∧
    (q.solve (q.config.maxDepth + 1) (queryRequest singleQuery .empty)
      (q.queryState singleQuery .empty)).1 = .ok found ∧
    pairingSurvivors q singleQuery = before ++ w :: after ∧ found = ⟨w.witness, w.subst⟩ ∧
    (before ++ after).length = 1 ∧
    ∀ b ∈ before ++ after, TurnsInto (· ∈ q.frozen) b.patterns w.patterns := by
  have h : okAnd pairingSearch (fun q =>
      okAnd (q.solve (q.config.maxDepth + 1) (queryRequest singleQuery .empty)
        (q.queryState singleQuery .empty)).1 fun _ =>
          decide ((pairingSurvivors q singleQuery).length = 2 ∧
            (q.requirement (queryRequest singleQuery .empty)).length ≤ 1)) = true := by
    decide +kernel
  obtain ⟨q, hq, h⟩ := okAnd_eq_true h
  obtain ⟨found, hfound, h⟩ := okAnd_eq_true h
  obtain ⟨htwo, hone⟩ := of_decide_eq_true h
  obtain ⟨-, hconsistent, hwinner⟩ := specificity_exact q q.config.maxDepth
    (queryRequest singleQuery .empty) (q.queryState singleQuery .empty)
  obtain ⟨before, w, after, hsplit, hfw, hothers⟩ := hwinner found hfound
  have hsurvivors : pairingSurvivors q singleQuery = before ++ w :: after := hsplit
  refine ⟨q, found, before, w, after, hq, hfound, hsplit, hfw, ?_, ?_⟩
  · rw [hsurvivors, List.length_append, List.length_cons] at htwo
    rw [List.length_append]
    omega
  · intro b hb
    have hbmem : b ∈ pairingSurvivors q singleQuery := hsurvivors ▸ mem_of_mem_others hb
    exact (hothers b hb).1.whole.2 (hconsistent b hbmem hone w.patterns)

end Search

end InstanceSearch
