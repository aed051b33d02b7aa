/-
  The choice among survivors.

  THE WINNER
    A survivor wins if it is more specific than every other one and overlap allows it to win against each
    of them.  The program looks for the first place in the list whose survivor is more specific than
    those at all other places.  `mostSpecific_eq_some_iff` says the same without places: the winner stands
    somewhere in the list, and beats what stands before it and after it.

  ONE AT MOST.  `a` being more specific than `b` rules out the converse, so there is one place at most.

  Hence the order of the survivors does not matter (`mostSpecific_perm`).
-/
import InstanceSearch.Search.Solve

namespace InstanceSearch.Search

/-! ## Places in a list -/

/-- A relation holds between the member at a place and all members at other places exactly if it
    holds between that member and what stands before and after it. -/
theorem holdsAgainstOthers_iff (r : Survivor → Survivor → Bool) (before after : List Survivor)
    (a : Survivor) : holdsAgainstOthers r (before ++ a :: after) before.length a = true ↔
      ∀ b ∈ before ++ after, r a b = true := by
  unfold holdsAgainstOthers
  simp only [List.all_eq_true, Bool.or_eq_true, beq_iff_eq, Prod.forall]
  constructor
  · intro h b hb
    rcases List.mem_append.1 hb with hb | hb
    · obtain ⟨i, hi, rfl⟩ := List.getElem_of_mem hb
      have hget : (before ++ a :: after)[i]? = some before[i] := by
        rw [List.getElem?_append_left hi, List.getElem?_eq_getElem hi]
      rcases h _ i (List.mk_mem_zipIdx_iff_getElem?.2 hget) with he | hr
      · omega
      · exact hr
    · obtain ⟨i, hi, rfl⟩ := List.getElem_of_mem hb
      have hget : (before ++ a :: after)[before.length + (i + 1)]? = some after[i] := by
        rw [List.getElem?_append_right (by omega)]
        simp [hi]
      rcases h _ _ (List.mk_mem_zipIdx_iff_getElem?.2 hget) with he | hr
      · omega
      · exact hr
  · -- the place itself is exempt, and every other one is before it or after it
    intro h b i hm
    have hget := List.mk_mem_zipIdx_iff_getElem?.1 hm
    by_cases hlt : i < before.length
    · rw [List.getElem?_append_left hlt] at hget
      exact Or.inr (h b (List.mem_append.2 (Or.inl (List.mem_of_getElem? hget))))
    · by_cases heq : i = before.length
      · exact Or.inl heq
      · rw [List.getElem?_append_right (by omega)] at hget
        obtain ⟨j, hj⟩ : ∃ j, i - before.length = j + 1 := ⟨i - before.length - 1, by omega⟩
        rw [hj, List.getElem?_cons_succ] at hget
        exact Or.inr (h b (List.mem_append.2 (Or.inr (List.mem_of_getElem? hget))))

/-- The member at a place splits the list. -/
theorem exists_split_of_mem_zipIdx {ws : List Survivor} {w : Survivor} {i : Nat}
    (h : (w, i) ∈ ws.zipIdx) : ∃ before after, ws = before ++ w :: after ∧ before.length = i := by
  have hget := List.mk_mem_zipIdx_iff_getElem?.1 h
  obtain ⟨hlt, hw⟩ := List.getElem?_eq_some_iff.1 hget
  refine ⟨ws.take i, ws.drop (i + 1), ?_, List.length_take_of_le (Nat.le_of_lt hlt)⟩
  rw [← hw, ← List.drop_eq_getElem_cons hlt, List.take_append_drop]

/-! ## The winner -/

/-- `Beats frozen a b`: `a` is more specific than `b`, and one of the two may overlap. -/
def Beats (frozen : VarSet) (a b : Survivor) : Prop :=
  moreSpecific frozen a b = true ∧
    (b.candidate.isOverlappable || a.candidate.isOverlappable) = true

theorem moreSpecific_asymm {frozen : VarSet} {a b : Survivor} (h : moreSpecific frozen a b = true) :
    ¬ moreSpecific frozen b a = true := by
  unfold moreSpecific at h ⊢
  rw [Bool.and_eq_true, Bool.not_eq_true'] at h
  rw [Bool.and_eq_true, Bool.not_eq_true', h.1, h.2]
  exact fun hn => nomatch hn.1

/-- The search for a survivor that is more specific than all others stops at the one there is. -/
theorem find?_more_specific {frozen : VarSet} {before after : List Survivor} {w : Survivor}
    (hmore : holdsAgainstOthers (moreSpecific frozen) (before ++ w :: after) before.length w = true) :
    (before ++ w :: after).zipIdx.find? (fun e =>
      holdsAgainstOthers (moreSpecific frozen) (before ++ w :: after) e.2 e.1) =
        some (w, before.length) := by
  have hmem : (w, before.length) ∈ (before ++ w :: after).zipIdx := by
    rw [List.mk_mem_zipIdx_iff_getElem?, List.getElem?_append_right (Nat.le_refl _)]
    simp
  cases hf : (before ++ w :: after).zipIdx.find? fun e =>
      holdsAgainstOthers (moreSpecific frozen) (before ++ w :: after) e.2 e.1 with
  | none => exact absurd hmore (List.find?_eq_none.1 hf _ hmem)
  | some e =>
    obtain ⟨a, i⟩ := e
    have ha := List.find?_some hf
    have hmem' := List.mem_of_find?_eq_some hf
    by_cases hi : i = before.length
    · subst hi
      have hw := List.mk_mem_zipIdx_iff_getElem?.1 hmem
      rw [List.mk_mem_zipIdx_iff_getElem?.1 hmem'] at hw
      rw [Option.some.inj hw]
    · -- at two different places each would be more specific than the other
      unfold holdsAgainstOthers at ha hmore
      have haw := List.all_eq_true.1 ha _ hmem
      have hwa := List.all_eq_true.1 hmore _ hmem'
      have hne : ¬ before.length = i := fun he => hi he.symm
      simp only [Bool.or_eq_true, beq_iff_eq, hne, hi, false_or] at haw hwa
      exact absurd hwa (moreSpecific_asymm haw)

/-- **The winner is the survivor that beats all others.** -/
theorem mostSpecific_eq_some_iff {frozen : VarSet} {ws : List Survivor} {w : Survivor} :
    mostSpecific frozen ws = some w ↔
      ∃ before after, ws = before ++ w :: after ∧ ∀ b ∈ before ++ after, Beats frozen w b := by
  constructor
  · intro h
    unfold mostSpecific at h
    obtain ⟨⟨a, i⟩, hfind, h⟩ := Option.bind_eq_some_iff.1 h
    obtain ⟨before, after, rfl, rfl⟩ := exists_split_of_mem_zipIdx (List.mem_of_find?_eq_some hfind)
    have hmore := List.find?_some hfind
    dsimp only at h
    split at h
    · rename_i hoverlap
      injection h with h
      subst h
      refine ⟨before, after, rfl, fun b hb => ⟨?_, ?_⟩⟩
      · exact (holdsAgainstOthers_iff _ before after a).1 hmore b hb
      · exact (holdsAgainstOthers_iff _ before after a).1 hoverlap b hb
    · cases h
  · rintro ⟨before, after, rfl, h⟩
    have hmore : holdsAgainstOthers (moreSpecific frozen) (before ++ w :: after) before.length w =
        true := (holdsAgainstOthers_iff _ before after w).2 fun b hb => (h b hb).1
    have hoverlap : holdsAgainstOthers
        (fun a b : Survivor => b.candidate.isOverlappable || a.candidate.isOverlappable)
        (before ++ w :: after) before.length w = true :=
      (holdsAgainstOthers_iff _ before after w).2 fun b hb => (h b hb).2
    unfold mostSpecific
    rw [find?_more_specific hmore]
    simp only [Option.bind_eq_bind, Option.bind_some]
    rw [if_pos hoverlap]

/-- The winner is one of the survivors. -/
theorem mem_of_mostSpecific {frozen : VarSet} {ws : List Survivor} {w : Survivor}
    (h : mostSpecific frozen ws = some w) : w ∈ ws := by
  obtain ⟨before, after, rfl, -⟩ := mostSpecific_eq_some_iff.1 h
  exact List.mem_append.2 (Or.inr List.mem_cons_self)

/-- **The order of the survivors does not matter.** -/
theorem mostSpecific_perm {frozen : VarSet} {ws ws' : List Survivor} (h : ws.Perm ws') :
    mostSpecific frozen ws = mostSpecific frozen ws' := by
  have hsome : ∀ {ws ws' : List Survivor} {w : Survivor}, ws.Perm ws' →
      mostSpecific frozen ws = some w → mostSpecific frozen ws' = some w := by
    intro ws ws' w h hw
    obtain ⟨before, after, rfl, hbeats⟩ := mostSpecific_eq_some_iff.1 hw
    have hmem : w ∈ ws' := h.mem_iff.1 (List.mem_append.2 (Or.inr List.mem_cons_self))
    obtain ⟨before', after', rfl⟩ := List.append_of_mem hmem
    have hothers : (before ++ after).Perm (before' ++ after') :=
      ((List.perm_middle.symm.trans h).trans List.perm_middle).cons_inv
    exact mostSpecific_eq_some_iff.2
      ⟨before', after', rfl, fun b hb => hbeats b (hothers.mem_iff.2 hb)⟩
  cases hw : mostSpecific frozen ws with
  | some w => rw [hsome h hw]
  | none =>
    cases hw' : mostSpecific frozen ws' with
    | none => rfl
    | some w => exact absurd (hsome h.symm hw') (by rw [hw]; simp)

/-! ## Survivors that are changed alike -/

section Map

variable {f : Survivor → Survivor} {frozen : VarSet}

theorem holdsAgainstOthers_map {r : Survivor → Survivor → Bool} (h : ∀ a b, r (f a) (f b) = r a b)
    (ws : List Survivor) (i : Nat) (a : Survivor) :
    holdsAgainstOthers r (ws.map f) i (f a) = holdsAgainstOthers r ws i a := by
  unfold holdsAgainstOthers
  rw [List.zipIdx_map, List.all_map]
  congr 1
  funext e
  simp [h]

/-- **A change that no comparison sees** changes the winner and nothing else. -/
theorem mostSpecific_map
    (hspecific : ∀ a b, atLeastAsSpecific frozen (f a) (f b) = atLeastAsSpecific frozen a b)
    (hoverlap : ∀ a, (f a).candidate.isOverlappable = a.candidate.isOverlappable)
    (ws : List Survivor) : mostSpecific frozen (ws.map f) = (mostSpecific frozen ws).map f := by
  have hmore : ∀ a b, moreSpecific frozen (f a) (f b) = moreSpecific frozen a b := by
    intro a b
    rw [moreSpecific, moreSpecific, hspecific, hspecific]
  unfold mostSpecific
  rw [List.zipIdx_map, List.find?_map]
  have hfind : ((fun e => holdsAgainstOthers (moreSpecific frozen) (ws.map f) e.2 e.1) ∘
      Prod.map f id) =
      fun e : Survivor × Nat => holdsAgainstOthers (moreSpecific frozen) ws e.2 e.1 := by
    funext e
    exact holdsAgainstOthers_map hmore ws e.2 e.1
  rw [hfind]
  cases ws.zipIdx.find? fun e => holdsAgainstOthers (moreSpecific frozen) ws e.2 e.1 with
  | none => rfl
  | some e =>
    have hwins : holdsAgainstOthers
        (fun a b : Survivor => b.candidate.isOverlappable || a.candidate.isOverlappable)
        (ws.map f) e.2 (f e.1) =
          holdsAgainstOthers
            (fun a b : Survivor => b.candidate.isOverlappable || a.candidate.isOverlappable)
            ws e.2 e.1 := holdsAgainstOthers_map (fun a b => by rw [hoverlap, hoverlap]) ws e.2 e.1
    simp only [Option.map_some, Option.bind_eq_bind, Option.bind_some, Prod.map, id]
    rw [hwins]
    split <;> rfl

end Map

/-! ## The choice -/

/-- A survivor that is alone wins, so that there are two cases and not three. -/
theorem choose_eq (q : Search) (label : String) (required : List Capability)
    (survivors : List Survivor) (rejected : List (String × Rejection)) :
    q.choose label required survivors rejected =
      if survivors.isEmpty then .error (q.explain label required rejected)
      else match mostSpecific q.frozen survivors with
        | some s => .ok ⟨s.witness, s.subst⟩
        | none => .error (.ambiguous label required (survivors.map fun s => s.candidate.name)) := by
  match survivors with
  | [] => rfl
  | [s] =>
    have halone : mostSpecific q.frozen [s] = some s :=
      mostSpecific_eq_some_iff.2 ⟨[], [], rfl, fun _ hb => nomatch hb⟩
    rw [halone]
    rfl
  | _ :: _ :: _ => rfl

/-- No choice is made among no survivors, and among survivors of which none wins. -/
theorem choose_error {q : Search} {label : String} {required : List Capability}
    {survivors : List Survivor} {rejected : List (String × Rejection)} {e : SearchError}
    (h : q.choose label required survivors rejected = .error e) :
    e = q.explain label required rejected ∨ ∃ names, e = .ambiguous label required names := by
  rw [choose_eq] at h
  split at h
  · injection h with h
    exact .inl h.symm
  · split at h
    · cases h
    · injection h with h
      exact .inr ⟨_, h.symm⟩

/-- What is chosen is the winner. -/
theorem choose_winner {q : Search} {label : String} {required : List Capability}
    {survivors : List Survivor} {rejected : List (String × Rejection)} {found : Solved}
    (h : q.choose label required survivors rejected = .ok found) :
    ∃ w, mostSpecific q.frozen survivors = some w ∧ found = ⟨w.witness, w.subst⟩ := by
  rw [choose_eq] at h
  split at h
  · cases h
  · split at h
    · rename_i w hw
      injection h with h
      exact ⟨w, hw, h.symm⟩
    · cases h

end InstanceSearch.Search
