/-
  Matching does not see which variables it works on.

  WHAT A RENAMING MAY DO
    A search treats two kinds of variables specially: those of the catalog, which stand in declarations,
    and the frozen ones.  It `Ignores` a renaming that fixes both.

  NEW VARIABLES
    An instance is used at variables counted from a given number on.  To rename the match is to match
    from another number on, provided the renaming sends the one block of numbers to the other
    (`Carries`).  A list of candidates draws one block after the other, so the block of the whole list
    splits into those of its members (`Carries.left`, `Carries.right`).

  THE TEXT OF A GOAL numbers the variables by first appearance.  It is the same for a renamed goal
  (`goalText_mapVars`), which is why the cycle guard works the same way under any choice of variables.
-/
import InstanceSearch.Proofs.Renaming.Catalog
import InstanceSearch.Proofs.Renaming.Records
import InstanceSearch.Proofs.Catalog.Visible
import InstanceSearch.Proofs.Search.Rounds

namespace InstanceSearch

/-! ## Blocks of variables -/

/-- `Carries π n n' k`: the `k` variables from `n` on go to those from `n'` on, in order. -/
def Carries (π : Renaming) (n n' k : Nat) : Prop := ∀ i < k, π (n + i) = n' + i

namespace Carries

variable {π : Renaming} {n n' j k : Nat}

theorem left (h : Carries π n n' (j + k)) : Carries π n n' j :=
  fun i hi => h i (Nat.lt_of_lt_of_le hi (Nat.le_add_right j k))

theorem right (h : Carries π n n' (j + k)) : Carries π (n + j) (n' + j) k := by
  intro i hi
  have hlt : j + i < j + k := Nat.add_lt_add_left hi j
  rw [Nat.add_assoc, Nat.add_assoc]
  exact h (j + i) hlt

/-- The first variable of the block. -/
theorem head (h : Carries π n n' (k + 1)) : π n = n' := h 0 (Nat.succ_pos k)

/-- A block of fixed variables stays where it is. -/
theorem of_fixed (h : ∀ v, n ≤ v → v < n + k → π v = v) : Carries π n n k :=
  fun i hi => h (n + i) (Nat.le_add_right n i) (Nat.add_lt_add_left hi n)

end Carries

/-! ## An instance at new variables -/

/-- Parameters that are numbered from the other place, as entries of the renaming. -/
theorem zipIdx_mapEntry {π : Renaming} {params : List Param} {n n' : Nat}
    (hids : ∀ p ∈ params, π p.id = p.id) (h : Carries π n n' params.length) :
    (params.zipIdx n').map (fun e => (e.1.id, Ty.var e.2 (some e.1.name))) =
      ((params.zipIdx n).map fun e => (e.1.id, Ty.var e.2 (some e.1.name))).map
        (Subst.mapEntry π) := by
  induction params generalizing n n' with
  | nil => rfl
  | cons p ps ih =>
    have hhead : π n = n' := h.head
    have htail : Carries π (n + 1) (n' + 1) ps.length := by
      refine Carries.right (j := 1) ?_
      rw [Nat.add_comm]
      exact h
    rw [List.zipIdx_cons, List.zipIdx_cons, List.map_cons, List.map_cons, List.map_cons,
      ih (fun p' hp' => hids p' (List.mem_cons_of_mem p hp')) htail]
    simp only [Subst.mapEntry, Ty.mapVars_var, hids p List.mem_cons_self, hhead]

/-- The new variables of one block go to those of the other. -/
theorem newVars_mapVars {π : Renaming} {params : List Param} {n n' : VarId}
    (hids : ∀ p ∈ params, π p.id = p.id) (h : Carries π n n' params.length) :
    newVars params n' = (newVars params n).mapVars π := by
  rw [newVars, newVars, zipIdx_mapEntry hids h, Subst.ofList_mapEntry]

/-- A parameter that is fixed, renamed by renamed choices. -/
theorem Param.rename_mapVars {π : Renaming} {p : Param} (h : p.mapVars π = p) (r : Subst) :
    p.rename (r.mapVars π) = (p.rename r).mapVars π := by
  have hid : π p.id = p.id := congrArg Param.id h
  have happly := Subst.apply_mapVars π r (.var p.id none)
  rw [Ty.mapVars_var, hid] at happly
  have hvar : ((r.apply (.var p.id none)).asVar?.map π).getD p.id =
      π ((r.apply (.var p.id none)).asVar?.getD p.id) := by
    cases (r.apply (.var p.id none)).asVar? with
    | none => exact hid.symm
    | some v => rfl
  have hkind : p.kind.mapVars π = p.kind := congrArg Param.kind h
  unfold rename mapVars
  rw [happly, Ty.asVar?_mapVars, hvar]
  cases hk : p.kind with
  | ordinary => rfl
  | witness cs =>
    rw [hk] at hkind
    have hcs : cs.map (Capability.mapVars π) = cs := Param.Kind.witness.inj hkind
    have hmap : cs.map (r.mapVars π).applyTo = (cs.map r.applyTo).map (Capability.mapVars π) := by
      rw [List.map_map]
      refine List.map_congr_left fun c hc => ?_
      have hfixed : c.mapVars π = c := List.map_inj_left.1 (hcs.trans (List.map_id cs).symm) c hc
      have happly := Subst.applyTo_mapVars π r c
      rw [hfixed] at happly
      exact happly
    show (⟨_, _, .witness (cs.map (r.mapVars π).applyTo)⟩ : Param) = ⟨_, _, .witness _⟩
    rw [hmap]

namespace Search

/-! ## The text of a goal -/

theorem idxOf_map_renaming (π : Renaming) (vs : List VarId) (v : VarId) :
    (vs.map π).idxOf (π v) = vs.idxOf v := by
  induction vs with
  | nil => rfl
  | cons w vs ih =>
    rw [List.map_cons, List.idxOf_cons, List.idxOf_cons, ih]
    by_cases h : w = v
    · simp [h]
    · have hne : ¬ π w = π v := fun he => h (π.injective he)
      simp [beq_eq_false_iff_ne.2 h, beq_eq_false_iff_ne.2 hne]

/-- **A goal and its renamings have one text.** -/
theorem goalText_mapVars {π : Renaming} {frozen : VarSet} (h : ∀ v ∈ frozen, π v = v)
    (required : List Capability) :
    goalText frozen (required.map (Capability.mapVars π)) = goalText frozen required := by
  -- the text numbers the variables by their first places, which a renaming keeps
  have horder : FirstSeen.ofList ((required.map (Capability.mapVars π)).flatMap Capability.vars) =
      (FirstSeen.ofList (required.flatMap Capability.vars)).map π := by
    rw [← FirstSeen.ofList_map (fun v w => by rw [Bool.eq_iff_iff]; simp), List.map_flatMap,
      List.flatMap_map]
    simp only [Capability.vars_mapVars]
  have hplace : ∀ (order : List VarId) (v : VarId) (n m : Option String),
      place frozen (order.map π) (π v) n = place frozen order v m := by
    intro order v n m
    unfold place
    by_cases hv : v ∈ frozen
    · rw [h v hv, if_pos hv, if_pos hv]
    · have hv' : ¬ π v ∈ frozen := fun hm => hv ((VarSet.mem_iff_of_fixed h v).1 hm)
      rw [if_neg hv, if_neg hv', idxOf_map_renaming]
  unfold goalText
  dsimp only
  rw [horder, List.map_map]
  congr 1
  refine List.map_congr_left fun c _ => ?_
  show Capability.map _ (c.mapVars π) = _
  rw [Capability.mapVars, Capability.map_map]
  congr 1
  funext t
  rw [Ty.mapVars, Ty.replaceVars_replaceVars]
  exact Ty.replaceVars_congr fun v _ n => hplace _ v n n

/-! ## Renamings that a search does not notice -/

/-- The renaming fixes the variables of the catalog and the frozen ones. -/
structure Ignores (q : Search) (π : Renaming) : Prop where
  below : ∀ v < q.catalog.nextVar, π v = v
  frozen : ∀ v ∈ q.frozen, π v = v

/-- The renaming changes nothing about a candidate. -/
structure Keeps (π : Renaming) (c : Candidate) : Prop where
  offers : ∀ d ∈ c.offers, d.mapVars π = d
  params : ∀ p ∈ c.params, p.mapVars π = p

/-- **A candidate from a declared registry has variables of the registry only.** -/
theorem Ignores.keeps {q : Search} {π : Renaming} (h : q.Ignores π) (hreg : q.catalog.Regular)
    {c : Candidate} (hc : q.catalog.Offers c) : Keeps π c := by
  cases c with
  | ambient p =>
    obtain ⟨s, hs, hp⟩ := hc
    have hvars : ∀ v ∈ p.vars, v < q.catalog.nextVar :=
      fun v hv => hreg.scopeVars s hs v (List.mem_flatMap.2 ⟨p, hp, hv⟩)
    constructor
    · intro d hd
      refine Capability.mapVars_of_fixed fun v hv => h.below v (hvars v ?_)
      exact List.mem_cons_of_mem _ (List.mem_flatMap.2 ⟨d, hd, hv⟩)
    · exact fun p hp => absurd hp List.not_mem_nil
  | declared i =>
    have hvars := hreg.instanceVars i hc
    constructor
    · intro d hd
      refine Capability.mapVars_of_fixed fun v hv => h.below v (hvars v ?_)
      exact List.mem_append.2 (Or.inr (List.mem_flatMap.2 ⟨d, hd, hv⟩))
    · intro p hp
      refine Param.mapVars_of_fixed fun v hv => h.below v (hvars v ?_)
      exact List.mem_append.2 (Or.inl (List.mem_flatMap.2 ⟨p, hp, hv⟩))

/-! ## Covering and matching -/

section Cover

variable {π : Renaming} {frozen : VarSet} (h : ∀ v ∈ frozen, π v = v)
include h

theorem firstCover_relabel (φ : Option String → Option String) (offered : List Capability)
    (c : Capability) (s : Subst) :
    firstCover frozen (offered.map (Capability.relabel π φ)) (c.relabel π φ) (s.relabel π φ) =
      (firstCover frozen offered c s).map fun e => (e.1.relabel π φ, e.2.relabel π φ) := by
  unfold firstCover
  induction offered with
  | nil => rfl
  | cons d offered ih =>
    rw [List.map_cons, List.findSome?_cons, List.findSome?_cons,
      tryUnifyCapabilities_relabel (VarSet.mem_iff_of_fixed h)]
    cases tryUnifyCapabilities frozen d c s with
    | ok s' => rfl
    | error e => exact ih

/-- **What covers a list of requirements covers the relabelled ones, relabelled.** -/
theorem cover_relabel (φ : Option String → Option String) (offered rs : List Capability) (s : Subst) :
    cover frozen (offered.map (Capability.relabel π φ)) (rs.map (Capability.relabel π φ))
        (s.relabel π φ) =
      (cover frozen offered rs s).map fun e =>
        (e.1.map (Capability.relabel π φ), e.2.relabel π φ) := by
  induction rs generalizing s with
  | nil => rfl
  | cons r rs ih =>
    rw [List.map_cons, cover, cover, firstCover_relabel h]
    cases firstCover frozen offered r s with
    | none => rfl
    | some e =>
      obtain ⟨c, s'⟩ := e
      simp only [Option.map_some, Option.bind_eq_bind, Option.bind_some, ih s']
      cases cover frozen offered rs s' with
      | none => rfl
      | some e => rfl

theorem cover_mapVars (offered rs : List Capability) (s : Subst) :
    cover frozen (offered.map (Capability.mapVars π)) (rs.map (Capability.mapVars π)) (s.mapVars π) =
      (cover frozen offered rs s).map fun e =>
        (e.1.map (Capability.mapVars π), e.2.mapVars π) := cover_relabel h id offered rs s

end Cover

section Match

variable {q : Search} {π : Renaming}

/-- **A candidate matches a renamed goal in the same way**, at the new variables of the other block. -/
theorem match?_mapVars (hπ : q.Ignores π) (hreg : q.catalog.Regular) {c : Candidate}
    (hc : q.catalog.Offers c) (required : List Capability) (context : Subst) {n n' : VarId}
    (h : Carries π n n' c.params.length) :
    q.match? c (required.map (Capability.mapVars π)) (context.mapVars π) n' =
      (q.match? c required context n).map (Matched.mapVars π) := by
  have hkeeps := hπ.keeps hreg hc
  have hfresh : newVars c.params n' = (newVars c.params n).mapVars π :=
    newVars_mapVars (fun p hp => congrArg Param.id (hkeeps.params p hp)) h
  have hoffers : c.offers.map (newVars c.params n').applyTo =
      (c.offers.map (newVars c.params n).applyTo).map (Capability.mapVars π) := by
    rw [hfresh, List.map_map]
    refine List.map_congr_left fun d hd => ?_
    have happly := Subst.applyTo_mapVars π (newVars c.params n) d
    rw [hkeeps.offers d hd] at happly
    exact happly
  have hparams : c.params.map (fun p => p.rename (newVars c.params n')) =
      (c.params.map fun p => p.rename (newVars c.params n)).map (Param.mapVars π) := by
    rw [hfresh, List.map_map]
    exact List.map_congr_left fun p hp => Param.rename_mapVars (hkeeps.params p hp) _
  unfold match?
  dsimp only
  rw [hoffers, Catalog.expand_mapVars (hreg.unmoved hπ.below), cover_mapVars hπ.frozen, hparams]
  cases cover q.frozen (q.catalog.expand (c.offers.map (newVars c.params n).applyTo))
    required context with
  | none => rfl
  | some e => rfl

/-- The same for a list of candidates, which draws one block after the other. -/
theorem matchAll_mapVars (hπ : q.Ignores π) (hreg : q.catalog.Regular)
    (required : List Capability) (context : Subst) {cs : List Candidate}
    (hcs : ∀ c ∈ cs, q.catalog.Offers c) {n n' : VarId} (h : Carries π n n' (drawnBy cs)) :
    (q.matchAll (required.map (Capability.mapVars π)) (context.mapVars π) cs n').1 =
      (q.matchAll required context cs n).1.map (Matched.mapVars π) := by
  induction cs generalizing n n' with
  | nil => rfl
  | cons c cs ih =>
    rw [drawnBy_cons] at h
    have hrest := ih (fun d hd => hcs d (List.mem_cons_of_mem c hd)) h.right
    rw [matchAll, matchAll]
    dsimp only
    rw [match?_mapVars hπ hreg (hcs c List.mem_cons_self) required context h.left]
    cases q.match? c required context n with
    | none => exact hrest
    | some m =>
      dsimp only [Option.map_some]
      rw [hrest, List.map_cons]

end Match

end Search

end InstanceSearch
