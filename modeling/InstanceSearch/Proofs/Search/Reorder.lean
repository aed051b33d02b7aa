/-
  Trying candidates in another order.

  All candidates draw their variables from one counter, and so do the dependencies of all matches.  In
  another order each of them draws another block of variables; the blocks have the same lengths, so
  that the counter ends where it did.  There is a renaming that takes each block to its new place.

  THE METHOD
    A permutation of a list is put together from swaps of neighbours.  For two neighbours the renaming is
    `blockSwap`.  What is not moved has to stay as it is under that renaming:
      * what was there before has only variables below the blocks (`Below`);
      * what comes after draws variables above the blocks (`Within`).
    "Only variables below `n`" is said without collecting variables: `x` is `Below n` if every renaming
    that fixes the variables below `n` fixes `x`.  Since the search is blind, an outcome is `Below` the
    counter at its end whenever the task is `Below` the counter at its start (`Blind.below`).
-/
import InstanceSearch.Proofs.Renaming.Search

namespace InstanceSearch

/-! ## Renamings that move one block -/

/-- The renaming moves nothing but the `k` variables from `n` on. -/
structure Within (π : Renaming) (n k : Nat) : Prop where
  below : ∀ v < n, π v = v
  above : ∀ v, n + k ≤ v → π v = v

namespace Within

variable {π ρ : Renaming} {n n' k k' : Nat}

theorem refl : Within (Equiv.refl VarId) n k := ⟨fun _ _ => rfl, fun _ _ => rfl⟩

theorem trans (h : Within π n k) (h' : Within ρ n k) : Within (π.trans ρ) n k where
  below v hv := by rw [Equiv.trans_apply, h.below v hv, h'.below v hv]
  above v hv := by rw [Equiv.trans_apply, h.above v hv, h'.above v hv]

theorem mono (h : Within π n k) (hn : n' ≤ n) (hk : n + k ≤ n' + k') : Within π n' k' where
  below v hv := h.below v (Nat.lt_of_lt_of_le hv hn)
  above v hv := h.above v (Nat.le_trans hk hv)

/-- Blocks above the one that is moved stay. -/
theorem carries (h : Within π n k) (hn : n + k ≤ n') : Carries π n' n' k' :=
  Carries.of_fixed fun v hv _ => h.above v (Nat.le_trans hn hv)

end Within

/-- Where `blockSwap n j k` takes a variable. -/
def swapAt (n j k v : Nat) : Nat :=
  if v < n then v
  else if v < n + j then v + k
  else if v < n + j + k then v - j
  else v

theorem swapAt_swapAt (n j k v : Nat) : swapAt n k j (swapAt n j k v) = v := by
  unfold swapAt
  by_cases h₁ : v < n
  · simp only [if_pos h₁]
  · by_cases h₂ : v < n + j
    · have hn : ¬ v + k < n := by omega
      have hk : ¬ v + k < n + k := by omega
      have hjk : v + k < n + k + j := by omega
      simp only [if_neg h₁, if_pos h₂, if_neg hn, if_neg hk, if_pos hjk]
      omega
    · by_cases h₃ : v < n + j + k
      · have hn : ¬ v - j < n := by omega
        have hk : v - j < n + k := by omega
        simp only [if_neg h₁, if_neg h₂, if_pos h₃, if_neg hn, if_pos hk]
        omega
      · have hk : ¬ v < n + k := by omega
        have hjk : ¬ v < n + k + j := by omega
        simp only [if_neg h₁, if_neg h₂, if_neg h₃, if_neg hk, if_neg hjk]

/-- `blockSwap n j k` exchanges the `j` variables from `n` on with the `k` variables after them. -/
def blockSwap (n j k : Nat) : Renaming where
  toFun := swapAt n j k
  invFun := swapAt n k j
  left_inv := swapAt_swapAt n j k
  right_inv := swapAt_swapAt n k j

theorem blockSwap_within (n j k : Nat) : Within (blockSwap n j k) n (j + k) where
  below v hv := if_pos hv
  above v hv := by
    show swapAt n j k v = v
    unfold swapAt
    rw [if_neg (by omega), if_neg (by omega), if_neg (by omega)]

/-- The first block goes behind the second one. -/
theorem blockSwap_first (n j k : Nat) : Carries (blockSwap n j k) n (n + k) j := by
  intro i hi
  show swapAt n j k (n + i) = n + k + i
  unfold swapAt
  rw [if_neg (by omega), if_pos (by omega)]
  omega

/-- The second block goes to the front. -/
theorem blockSwap_second (n j k : Nat) : Carries (blockSwap n j k) (n + j) n k := by
  intro i hi
  show swapAt n j k (n + j + i) = n + i
  unfold swapAt
  rw [if_neg (by omega), if_neg (by omega), if_pos (by omega)]
  omega

namespace Search

/-! ## What has only variables below a number -/

/-- The variables that the search treats specially are below `n`. -/
structure Clear (q : Search) (n : VarId) : Prop where
  catalog : q.catalog.nextVar ≤ n
  frozen : ∀ v ∈ q.frozen, v < n

theorem Clear.mono {q : Search} {n n' : VarId} (h : q.Clear n) (hn : n ≤ n') : q.Clear n' where
  catalog := Nat.le_trans h.catalog hn
  frozen v hv := Nat.lt_of_lt_of_le (h.frozen v hv) hn

theorem Clear.ignores {q : Search} {n : VarId} (h : q.Clear n) {π : Renaming}
    (hπ : ∀ v < n, π v = v) : q.Ignores π where
  below v hv := hπ v (Nat.lt_of_lt_of_le hv h.catalog)
  frozen v hv := hπ v (h.frozen v hv)

/-- A renaming, given by `f`, that fixes the variables below `n` changes nothing about `x`. -/
def Below {α : Type} (f : Renaming → α → α) (n : VarId) (x : α) : Prop :=
  ∀ π : Renaming, (∀ v < n, π v = v) → f π x = x

theorem Below.mono {α : Type} {f : Renaming → α → α} {n n' : VarId} {x : α} (h : Below f n x)
    (hn : n ≤ n') : Below f n' x := fun π hπ => h π fun v hv => hπ v (Nat.lt_of_lt_of_le hv hn)

/-- Where a list is left alone, all of its members are. -/
theorem below_of_map {α : Type} {f : Renaming → α → α} {n : VarId} {xs : List α}
    (h : Below (fun π => List.map (f π)) n xs) : ∀ x ∈ xs, Below f n x := by
  intro x hx π hπ
  exact List.map_inj_left.1 ((h π hπ).trans (List.map_id xs).symm) x hx

/-- **What a blind task finds has no variables but those below the counter at its end.** -/
theorem Blind.below {α : Type} {q : Search} {f : Renaming → α → α} {run : State → α × State}
    {renamed : Renaming → State → α × State} (h : q.Blind f run renamed) {n : VarId}
    (hclear : q.Clear n) (hrun : ∀ π : Renaming, (∀ v < n, π v = v) → renamed π = run)
    {stack : List Attempt} {k : Nat} {x : α} (hx : run ⟨n, stack⟩ = (x, ⟨n + k, stack⟩)) :
    Below f (n + k) x := by
  intro π hπ
  have hπ' : ∀ v < n, π v = v := fun v hv => hπ v (Nat.lt_of_lt_of_le hv (Nat.le_add_right n k))
  have hcarry : Carries π n n k := Carries.of_fixed fun v _ hv => hπ v hv
  have hsame := h.renamed hx (hclear.ignores hπ') hcarry
  rw [hrun π hπ', hx] at hsame
  exact (Prod.mk.inj hsame).1.symm

/-! ## Matching in another order -/

section Matching

variable {q : Search} {required : List Capability} {context : Subst}

theorem matchAll_cons (c : Candidate) (cs : List Candidate) (n : VarId) :
    (q.matchAll required context (c :: cs) n).1 =
      (q.match? c required context n).toList ++
        (q.matchAll required context cs (n + c.params.length)).1 := by
  rw [matchAll]
  dsimp only
  cases q.match? c required context n <;> rfl

/-- The matches have no variables but those below the counter after them. -/
theorem matchAll_below (hreg : q.catalog.Regular) {cs : List Candidate}
    (hcs : ∀ c ∈ cs, q.catalog.Offers c) {n : Nat} (hclear : q.Clear n)
    (hrequired : ∀ a ∈ required, Below Capability.mapVars n a)
    (hcontext : Below Subst.mapVars n context) :
    ∀ m ∈ (q.matchAll required context cs n).1, Below Matched.mapVars (n + drawnBy cs) m := by
  refine below_of_map fun π hπ => ?_
  have hbelow : ∀ v < n, π v = v :=
    fun v hv => hπ v (Nat.lt_of_lt_of_le hv (Nat.le_add_right n (drawnBy cs)))
  have hsame := matchAll_mapVars (hclear.ignores hbelow) hreg required context hcs
    (Carries.of_fixed fun v _ hv => hπ v hv)
  rw [map_eq_self fun a ha => hrequired a ha π hbelow, hcontext π hbelow] at hsame
  exact hsame.symm

theorem drawnBy_perm {cs cs' : List Candidate} (h : cs.Perm cs') : drawnBy cs = drawnBy cs' :=
  (h.flatMap_right Candidate.params).length_eq

theorem map_toList {α β : Type} (f : α → β) (o : Option α) : (o.map f).toList = o.toList.map f := by
  cases o <;> rfl

/-- **In another order the same candidates match in the same way**, each at its own block. -/
theorem matchAll_perm (hreg : q.catalog.Regular) {cs cs' : List Candidate} (h : cs.Perm cs')
    (hcs : ∀ c ∈ cs, q.catalog.Offers c) {n : Nat} (hclear : q.Clear n)
    (hrequired : ∀ a ∈ required, Below Capability.mapVars n a)
    (hcontext : Below Subst.mapVars n context) :
    ∃ π, Within π n (drawnBy cs) ∧ (q.matchAll required context cs' n).1.Perm
      ((q.matchAll required context cs n).1.map (Matched.mapVars π)) := by
  induction h generalizing n with
  | nil => exact ⟨Equiv.refl VarId, .refl, .nil⟩
  | cons c _ ih =>
    rename_i cs cs'
    have hle : n ≤ n + c.params.length := Nat.le_add_right _ _
    obtain ⟨π, hπ, hperm⟩ := ih (fun d hd => hcs d (List.mem_cons_of_mem c hd)) (hclear.mono hle)
      (fun a ha => (hrequired a ha).mono hle) (hcontext.mono hle)
    have hbelow : ∀ v < n, π v = v := fun v hv => hπ.below v (Nat.lt_of_lt_of_le hv hle)
    -- the first match stands before everything that the renaming moves
    have hfirst := match?_mapVars (hclear.ignores hbelow) hreg (hcs c List.mem_cons_self) required
      context (Carries.of_fixed fun v _ hv => hπ.below v hv)
    rw [map_eq_self fun a ha => hrequired a ha π hbelow, hcontext π hbelow] at hfirst
    refine ⟨π, hπ.mono hle (by rw [drawnBy_cons]; omega), ?_⟩
    rw [matchAll_cons, matchAll_cons, List.map_append, ← map_toList, ← hfirst]
    exact hperm.append_left _
  | swap c d cs =>
    have hπ := blockSwap_within n d.params.length c.params.length
    have hignores := hclear.ignores hπ.below
    have hd := match?_mapVars hignores hreg (hcs d List.mem_cons_self) required context
      (blockSwap_first n d.params.length c.params.length)
    have hc := match?_mapVars hignores hreg (hcs c (by simp)) required context
      (blockSwap_second n d.params.length c.params.length)
    have hend : n + d.params.length + c.params.length = n + c.params.length + d.params.length := by
      omega
    have hafter : Carries (blockSwap n d.params.length c.params.length)
        (n + c.params.length + d.params.length) (n + c.params.length + d.params.length)
        (drawnBy cs) := hπ.carries (by omega)
    have hrest := matchAll_mapVars hignores hreg required context
      (fun b hb => hcs b (List.mem_cons_of_mem _ (List.mem_cons_of_mem _ hb))) hafter
    rw [map_eq_self fun a ha => hrequired a ha _ hπ.below, hcontext _ hπ.below] at hd hc hrest
    refine ⟨_, hπ.mono (Nat.le_refl n) (by rw [drawnBy_cons, drawnBy_cons]; omega), ?_⟩
    rw [matchAll_cons, matchAll_cons, matchAll_cons, matchAll_cons, hend, hc, hd]
    rw [map_toList, map_toList, List.map_append, List.map_append, ← hrest]
    rw [← List.append_assoc, ← List.append_assoc]
    exact List.perm_append_comm.append_right _
  | trans h₁ _ ih₁ ih₂ =>
    obtain ⟨π, hπ, hperm⟩ := ih₁ hcs hclear hrequired hcontext
    obtain ⟨ρ, hρ, hperm'⟩ := ih₂ (fun c hc => hcs c (h₁.mem_iff.2 hc)) hclear hrequired hcontext
    rw [← drawnBy_perm h₁] at hρ
    refine ⟨π.trans ρ, hπ.trans hρ, hperm'.trans ?_⟩
    have hmap := hperm.map (Matched.mapVars ρ)
    rw [List.map_map] at hmap
    simpa only [Function.comp_def, Matched.mapVars_mapVars] using hmap

end Matching

/-! ## Two accounts of what became of the matches -/

/-- What counts of a rejection: the candidate, whether it went too deep, and whether it met a cycle. -/
def signs (e : String × Rejection) : String × Bool × Bool :=
  (e.1, e.2.isDepthLimit, e.2.cycle?.isSome)

/-- Two outcomes for a match agree: the survivors up to the renaming, rejections in what counts. -/
inductive SameFate (π : Renaming) : Except Rejection Survivor → Except Rejection Survivor → Prop where
  | survived (s : Survivor) : SameFate π (.ok s) (.ok (s.mapVars π))
  | rejected {r r' : Rejection} (hsigns : ∀ name, signs (name, r') = signs (name, r)) :
      SameFate π (.error r) (.error r')

/-- The outcomes of two lists of matches agree, up to a renaming and in any order. -/
structure Resembles (π : Renaming) (xs xs' : List Survivor × List (String × Rejection)) : Prop where
  survivors : xs'.1.Perm (xs.1.map (Survivor.mapVars π))
  rejected : (xs'.2.map signs).Perm (xs.2.map signs)

theorem signs_mapVars (π : Renaming) (name : String) (r : Rejection) :
    signs (name, r.mapVars π) = signs (name, r) := by
  simp [signs]

theorem SameFate.of_mapSurvival (π : Renaming) (x : Except Rejection Survivor) :
    SameFate π x (mapSurvival π x) := by
  cases x with
  | ok s => exact .survived s
  | error r => exact .rejected fun name => signs_mapVars π name r

theorem Resembles.of_mapSurvivals (π : Renaming) (xs : List Survivor × List (String × Rejection)) :
    Resembles π xs (mapSurvivals π xs) where
  survivors := .refl _
  rejected := by
    rw [mapSurvivals, List.map_map]
    refine List.Perm.of_eq (List.map_congr_left fun e _ => ?_)
    exact signs_mapVars π e.1 e.2

section Accounts

variable {π ρ : Renaming}

theorem SameFate.trans {x x' x'' : Except Rejection Survivor} (h : SameFate π x x')
    (h' : SameFate ρ x' x'') : SameFate (π.trans ρ) x x'' := by
  cases h with
  | survived s =>
    cases h' with
    | survived _ => exact Survivor.mapVars_mapVars π ρ s ▸ .survived s
  | rejected hsigns =>
    cases h' with
    | rejected hsigns' => exact .rejected fun name => (hsigns' name).trans (hsigns name)

variable {xs xs' xs'' : List Survivor × List (String × Rejection)}

theorem Resembles.trans (h : Resembles π xs xs') (h' : Resembles ρ xs' xs'') :
    Resembles (π.trans ρ) xs xs'' where
  survivors := by
    have hmap := h.survivors.map (Survivor.mapVars ρ)
    rw [List.map_map] at hmap
    have hcomp : Survivor.mapVars ρ ∘ Survivor.mapVars π = Survivor.mapVars (π.trans ρ) :=
      funext fun s => Survivor.mapVars_mapVars π ρ s
    rw [hcomp] at hmap
    exact h'.survivors.trans hmap
  rejected := h'.rejected.trans h.rejected

/-- One more match on both sides. -/
theorem Resembles.add {name : String} {x x' : Except Rejection Survivor} (hx : SameFate π x x')
    (h : Resembles π xs xs') : Resembles π (addSurvival name x xs) (addSurvival name x' xs') := by
  cases hx with
  | survived s => exact ⟨h.survivors.cons _, h.rejected⟩
  | rejected hsigns =>
    refine ⟨h.survivors, ?_⟩
    simp only [addSurvival, List.map_cons, hsigns]
    exact h.rejected.cons _

/-- Two matches in the other order leave the same survivors and the same rejections. -/
theorem addSurvival_perm (name name' : String) (x x' : Except Rejection Survivor) :
    (addSurvival name x (addSurvival name' x' xs)).1.Perm
        (addSurvival name' x' (addSurvival name x xs)).1 ∧
      (addSurvival name x (addSurvival name' x' xs)).2.Perm
        (addSurvival name' x' (addSurvival name x xs)).2 := by
  rcases x with r | s
  · rcases x' with r' | s'
    · exact ⟨.refl _, .swap _ _ _⟩
    · exact ⟨.refl _, .refl _⟩
  · rcases x' with r' | s'
    · exact ⟨.refl _, .refl _⟩
    · exact ⟨.swap _ _ _, .refl _⟩

theorem Resembles.swap {name name' : String} {x x' : Except Rejection Survivor}
    (h : Resembles π xs (addSurvival name' x' (addSurvival name x xs'))) :
    Resembles π xs (addSurvival name x (addSurvival name' x' xs')) where
  survivors := (addSurvival_perm name name' x x').1.trans h.survivors
  rejected := ((addSurvival_perm name name' x x').2.map signs).trans h.rejected

end Accounts

/-! ## Solving dependencies in another order -/

section Survivals

variable {q : Search} {solver : Solver} {goal : String}

/-- A match whose variables are below the counter leaves an outcome that a later renaming fixes. -/
theorem survive_below (hsolver : q.BlindSolver solver) {m : Matched} {n : Nat} (hclear : q.Clear n)
    (hm : Below Matched.mapVars n m) {stack : List Attempt} {k : Nat} {x : Except Rejection Survivor}
    (h : q.survive solver goal m ⟨n, stack⟩ = (x, ⟨n + k, stack⟩)) : Below mapSurvival (n + k) x :=
  (survive_blind hsolver goal m).below hclear (fun π hπ => by rw [hm π hπ]) h

/-- **The order in which dependencies are solved does not matter**: the same matches survive, at other
    variables, and the counter ends where it did. -/
theorem surviveAll_perm (hsolver : q.BlindSolver solver) {ms ms' : List Matched} (h : ms.Perm ms')
    {n : Nat} (hclear : q.Clear n) (hms : ∀ m ∈ ms, Below Matched.mapVars n m) (goal : String)
    (stack : List Attempt) :
    ∃ k xs xs' π, q.surviveAll solver goal ms ⟨n, stack⟩ = (xs, ⟨n + k, stack⟩) ∧
      q.surviveAll solver goal ms' ⟨n, stack⟩ = (xs', ⟨n + k, stack⟩) ∧
      Within π n k ∧ Resembles π xs xs' := by
  induction h generalizing n with
  | nil =>
    exact ⟨0, ([], []), ([], []), Equiv.refl VarId, rfl, rfl, .refl, .refl _, .refl _⟩
  | cons m _ ih =>
    obtain ⟨k₁, x, hrun, _⟩ := survive_blind hsolver goal m n stack
    have hle : n ≤ n + k₁ := Nat.le_add_right n k₁
    obtain ⟨k₂, xs, xs', π, hxs, hxs', hπ, hsame⟩ := ih (hclear.mono hle)
      fun m' hm' => (hms m' (List.mem_cons_of_mem m hm')).mono hle
    have hx := survive_below hsolver hclear (hms m List.mem_cons_self) hrun
    have hfate := SameFate.of_mapSurvival π x
    rw [hx π hπ.below] at hfate
    rw [Nat.add_assoc] at hxs hxs'
    exact ⟨k₁ + k₂, _, _, π, surviveAll_cons hrun hxs, surviveAll_cons hrun hxs',
      hπ.mono hle (by omega), hsame.add hfate⟩
  | swap m m' ms =>
    -- in the list `m' :: m :: ms` the block of `m'` comes first
    obtain ⟨j, x', hrun', hren'⟩ := survive_blind hsolver goal m' n stack
    obtain ⟨k, x, hrun, hren⟩ := survive_blind hsolver goal m (n + j) stack
    obtain ⟨l, xs, hxs, hrest⟩ := surviveAll_blind hsolver goal ms (n + j + k) stack
    have hπ := blockSwap_within n j k
    have hignores := hclear.ignores hπ.below
    have hm := hren _ n hignores (blockSwap_second n j k)
    have hm' := hren' _ (n + k) hignores (blockSwap_first n j k)
    have hms' := hrest _ (n + j + k) hignores (hπ.carries (by omega))
    dsimp only at hm hm' hms'
    rw [hms m (by simp) _ hπ.below] at hm
    rw [hms m' (by simp) _ hπ.below] at hm'
    rw [map_eq_self fun m' hm' => hms m' (by simp [hm']) _ hπ.below] at hms'
    have hend : n + k + j = n + j + k := by omega
    rw [hend] at hm'
    have hxs' : n + j + k + l = n + (j + k + l) := by omega
    rw [hxs'] at hxs hms'
    refine ⟨j + k + l, _, _, blockSwap n j k,
      surviveAll_cons hrun' (surviveAll_cons hrun hxs),
      surviveAll_cons hm (surviveAll_cons hm' hms'), hπ.mono (Nat.le_refl n) (by omega), ?_⟩
    exact .swap (.add (.of_mapSurvival _ x') (.add (.of_mapSurvival _ x) (.of_mapSurvivals _ xs)))
  | trans h₁ _ ih₁ ih₂ =>
    obtain ⟨k, xs, xs', π, hxs, hxs', hπ, hsame⟩ := ih₁ hclear hms
    obtain ⟨k', ys, ys', ρ, hys, hys', hρ, hsame'⟩ := ih₂ hclear fun m hm => hms m (h₁.mem_iff.2 hm)
    obtain ⟨rfl, rfl⟩ := run_unique hxs' hys
    exact ⟨k, xs, ys', π.trans ρ, hxs, hys', hπ.trans hρ, hsame.trans hsame'⟩

end Survivals

end Search

end InstanceSearch
