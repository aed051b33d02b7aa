/-
  One substitution after another.

  THE STATEMENT (`composition_exact`)
    `s.compose o` is "first `s`, then `o`": it has no cycle, and applying it is applying `s` and then `o`.
    It holds for acyclic `s` and `o` that are COMPOSABLE: no value of `o` mentions a variable that `s`
    binds, and no value of `s` mentions a variable that both bind.

  WHY THERE IS SOMETHING TO PROVE
    `compose` puts `o` into the values of `s` as they stand, and keeps the bindings of `o` for the rest
    (`find?_compose`).  Chains are followed later, and in another order: where a value of `s` mentions a
    variable that `s` binds itself, the composition comes to `o` before it has come to the end of `s`.

  THE CRUX
    The bindings of the composition go down in two layers.  A chain starts among the variables of `s`, and
    there it stays on the chain of `s`, since putting in `o` adds no variable that `s` binds
    (`mem_or_free_of_mem_apply`); once it has left them it is a chain of `o` and does not come back.  So the
    bindings of `s` rank above those of `o` (`acyclic`).  The law is shown for one variable at a time, first
    in the lower layer (`value_compose_of_none`), and then, by induction along the bindings of `s`, in the
    upper one (`value_compose`).
-/
import InstanceSearch.Proofs.Subst.Normal

namespace InstanceSearch.Subst

variable {s o : Subst}

/-! ## What the composition binds -/

/-- The composition binds what `s` binds, with `o` applied, and else what `o` binds. -/
theorem find?_compose (s o : Subst) (v : VarId) :
    (s.compose o).find? v = ((s.find? v).map o.apply).or (o.find? v) := by
  rw [compose, OrderedMap.find?_foldl_insertIfNew, OrderedMap.find?_mapValues]
  rfl

theorem find?_compose_of_some {v : VarId} {u : Ty} (h : s.find? v = some u) :
    (s.compose o).find? v = some (o.apply u) := by
  rw [find?_compose, h, Option.map_some, Option.some_or]

theorem find?_compose_of_none {v : VarId} (h : s.find? v = none) :
    (s.compose o).find? v = o.find? v := by
  rw [find?_compose, h, Option.map_none, Option.none_or]

/-! ## Substitutions that can be composed -/

/-- `s` and `o` can be applied one after the other in one substitution. -/
structure Composable (s o : Subst) : Prop where
  /-- no value of `o` mentions a variable that `s` binds -/
  apart : ∀ v u, o.find? v = some u → ∀ w ∈ u.vars, s.find? w = none
  /-- no value of `s` mentions a variable that both bind -/
  unshared : ∀ v u, s.find? v = some u → ∀ w ∈ u.vars, s.find? w = none ∨ o.find? w = none

/-- Whether two substitutions are composable is checked entry by entry. -/
theorem composable_iff : Composable s o ↔
    (∀ e ∈ o.entries, ∀ w ∈ e.2.vars, s.find? w = none) ∧
    ∀ e ∈ s.entries, ∀ w ∈ e.2.vars, s.find? w = none ∨ o.find? w = none := by
  have hapart := OrderedMap.forall_find?_iff (m := o) (P := fun _ u => ∀ w ∈ u.vars, s.find? w = none)
  have hunshared := OrderedMap.forall_find?_iff (m := s)
    (P := fun _ u => ∀ w ∈ u.vars, s.find? w = none ∨ o.find? w = none)
  rw [← hapart, ← hunshared]
  exact ⟨fun h => ⟨h.apart, h.unshared⟩, fun h => ⟨h.1, h.2⟩⟩

instance (s o : Subst) : Decidable (Composable s o) := decidable_of_iff _ composable_iff.symm

namespace Composable

variable (h : Composable s o)
include h

/-- **Applying `o` adds no variable that `s` binds**: what comes in is free in `s`. -/
theorem mem_or_free_of_mem_apply {t : Ty} {w : VarId} (hw : w ∈ (o.apply t).vars) :
    w ∈ t.vars ∨ s.find? w = none := by
  rcases mem_vars_follow o.size t hw with hw | ⟨e, he, hw⟩
  · exact Or.inl hw
  · exact Or.inr (h.apart e.1 e.2 (OrderedMap.find?_eq_some_iff.2 he) w hw)

/-! ## No cycle -/

/-- **A composition has no cycle**: the bindings of `s` rank above those of `o`. -/
theorem acyclic (hs : s.Acyclic) (ho : o.Acyclic) : (s.compose o).Acyclic := by
  obtain ⟨rank, hrank⟩ := hs
  obtain ⟨rank', hrank'⟩ := ho
  refine ⟨fun v => if s.find? v = none then o.height rank' v else o.size + 1 + rank v, ?_⟩
  intro v t hv w hw
  simp only
  cases hsv : s.find? v with
  | none =>
    -- the lower layer: the value is one of `o`, and mentions nothing that `s` binds
    rw [find?_compose_of_none hsv] at hv
    rw [if_pos rfl, if_pos (h.apart v t hv w hw)]
    exact hrank'.height v t hv w hw
  | some u =>
    rw [find?_compose_of_some hsv, Option.some.injEq] at hv
    subst hv
    rw [if_neg (Option.some_ne_none u)]
    split
    · -- from the upper layer to the lower one
      have := height_le_size o rank' w
      omega
    · -- within the upper layer `w` stands in the value of `s` already
      rename_i hsw
      have := hrank v u hsv w ((h.mem_or_free_of_mem_apply hw).resolve_right hsw)
      omega

/-! ## The law -/

variable (hs : s.Acyclic) (ho : o.Acyclic)
include hs ho

/-- In the lower layer the composition is `o`. -/
theorem value_compose_of_none {v : VarId} (hv : s.find? v = none) (name : Option String) :
    (s.compose o).value v name = o.value v name := by
  have hc := h.acyclic hs ho
  induction v using ho.induction generalizing name with
  | free v hov =>
    have hcv : (s.compose o).find? v = none := (find?_compose_of_none hv).trans hov
    rw [value_of_none hcv, value_of_none hov]
  | bound v u hov ih =>
    have hcv : (s.compose o).find? v = some u := (find?_compose_of_none hv).trans hov
    rw [value_of_some hcv, value_of_some hov, hc.apply_eq, ho.apply_eq]
    apply Ty.replaceVars_congr
    intro w hw n
    exact ih w hw (h.apart v u hov w hw) n

omit hs in
/-- What `o` puts in for a variable of the lower layer is final. -/
theorem apply_value_of_none {v : VarId} (hv : s.find? v = none) (name : Option String) :
    (s.compose o).apply (o.value v name) = o.value v name := by
  rw [← ho.apply_var]
  apply apply_of_free
  intro w hw
  have hsw : s.find? w = none := by
    rcases h.mem_or_free_of_mem_apply hw with hw | hsw
    · rw [Ty.vars_var, List.mem_singleton] at hw
      rw [hw, hv]
    · exact hsw
  rw [find?_compose_of_none hsw]
  exact ho.not_bound_of_mem_apply hw

/-- **What a variable stands for in the composition** is what it stands for in `s`, with `o` applied. -/
theorem value_compose (v : VarId) (name : Option String) :
    (s.compose o).value v name = o.apply (s.value v name) := by
  have hc := h.acyclic hs ho
  induction v using hs.induction generalizing name with
  | free v hv =>
    rw [h.value_compose_of_none hs ho hv, value_of_none hv, ho.apply_var]
  | bound v u hv ih =>
    rw [value_of_some (find?_compose_of_some hv), value_of_some hv, ho.apply_eq u, hc.apply_eq, hs.apply_eq,
      ho.apply_eq, Ty.replaceVars_replaceVars, Ty.replaceVars_replaceVars]
    apply Ty.replaceVars_congr
    intro w hw n
    rw [← hc.apply_eq, ← ho.apply_eq]
    -- what `u` mentions is bound in one of the two at most
    rcases h.unshared v u hv w hw with hsw | how
    · rw [h.apply_value_of_none ho hsw, value_of_none hsw, ho.apply_var]
    · rw [value_of_none how, hc.apply_var]
      exact ih w hw n

/-- **Applying a composition is applying the one and then the other.** -/
theorem apply_compose (t : Ty) : (s.compose o).apply t = o.apply (s.apply t) := by
  rw [(h.acyclic hs ho).apply_eq, hs.apply_eq, ho.apply_eq, Ty.replaceVars_replaceVars]
  apply Ty.replaceVars_congr
  intro v _ name
  rw [← ho.apply_eq]
  exact h.value_compose hs ho v name

end Composable

/-! ## Composition is exact -/

/-- **Composition is "first this, then that".**  Of two acyclic substitutions that are composable the
    composition has no cycle.  Applying it is applying the first and then the second, and by nested calls
    it ends with just that. -/
theorem composition_exact (hs : s.Acyclic) (ho : o.Acyclic) (h : Composable s o) :
    (s.compose o).Acyclic ∧
    ∀ t, (s.compose o).apply t = o.apply (s.apply t) ∧
      Settles (fun n => (s.compose o).applyWithin n t) (o.apply (s.apply t)) := by
  have hc := h.acyclic hs ho
  refine ⟨hc, ?_⟩
  intro t
  have happly := h.apply_compose hs ho t
  refine ⟨happly, ?_⟩
  rw [← happly]
  exact hc.applyWithin_settles t

/-- Bindings to be made after `listOfPairs`: `?2` is a list of `?4`, which is `Int`.  The binding of `?0`
    comes too late, since `listOfPairs` binds it already. -/
def intLists : Subst :=
  .ofList [(2, Ty.con "List" [.var 4 none]), (4, Ty.con "Int" []), (0, Ty.con "Bool" [])]

/-- `?0 := List<?1>, ?1 := (?2, ?3)` and then `?2 := List<?4>, ?4 := Int, ?0 := Bool`.  The value of `?0`
    mentions `?1`, so it is not finished when the second substitution is put into it. -/
theorem composition_exact_chains :
    listOfPairs.Acyclic ∧ intLists.Acyclic ∧ Composable listOfPairs intLists ∧
    (listOfPairs.compose intLists).text =
      "\x7b?0 := List<?1>, ?1 := (List<Int>, ?3), ?2 := List<?4>, ?4 := Int\x7d" ∧
    (listOfPairs.compose intLists).Acyclic ∧
    ∃ t : Ty, t = Ty.tuple [.var 0 none, .var 2 none] ∧
      ((listOfPairs.compose intLists).apply t).text = "(List<(List<Int>, ?3)>, List<Int>)" ∧
      (listOfPairs.compose intLists).apply t = intLists.apply (listOfPairs.apply t) ∧
      Settles (fun n => (listOfPairs.compose intLists).applyWithin n t)
        (intLists.apply (listOfPairs.apply t)) := by
  have hs : listOfPairs.Acyclic := ⟨fun v => 3 - v, by decide⟩
  have ho : intLists.Acyclic := ⟨fun v => 5 - v, by decide⟩
  have h : Composable listOfPairs intLists := by decide
  obtain ⟨hc, happly⟩ := composition_exact hs ho h
  exact ⟨hs, ho, h, by decide, hc, _, rfl, by decide, happly _⟩

/-- Neither condition can be left out: not after `?0 := Int` and then `?1 := ?0`, where the second mentions
    what the first binds, nor after `?0 := ?1, ?1 := Int` and then `?1 := Bool`, where both bind `?1`. -/
example :
    let int : Ty := .con "Int" []
    let first : Subst := .ofList [(0, int)]
    let second : Subst := .ofList [(1, .var 0 none)]
    let first' : Subst := .ofList [(0, .var 1 none), (1, int)]
    let second' : Subst := .ofList [(1, .con "Bool" [])]
    ((first.compose second).apply (.var 1 none)).text = "Int" ∧
      (second.apply (first.apply (.var 1 none))).text = "?0" ∧
      ((first'.compose second').apply (.var 0 none)).text = "Bool" ∧
      (second'.apply (first'.apply (.var 0 none))).text = "Int" := by
  decide

end InstanceSearch.Subst
