/-
  What applying a substitution comes to.

  THE STATEMENT (`application_normalizes`)
    Applying an acyclic substitution ends, with a type in which no variable is bound any more: applying
    the substitution once more changes nothing, and the variables that count as unresolved are those
    without a binding.  A later substitution that KEEPS the bindings makes the same of a type, whether or
    not the earlier one was applied to it first.

  KEEPING
    A binding is kept if its variable is bound to an equal type later on.  Neither the place among the
    entries nor the labels of variables count.  `Extends` is the special case in which the types are the
    same to the letter, and so are the results then (`apply_apply_of_extends`).

  THE CRUX (`anon_value_of_keeps`)
    The later substitution may bind what the earlier one left free, at any depth of a chain.  So the two
    sides are compared variable by variable, by induction along the bindings of the EARLIER one: where it
    stops, both sides read on in the later one; where it goes on, the later one goes the same way.
-/
import InstanceSearch.Proofs.Subst.Nested
import InstanceSearch.Proofs.Subst.Values

namespace InstanceSearch.Subst

variable {s s' : Subst}

/-! ## Keeping bindings -/

/-- `s'.Keeps s`: what `s` binds is bound in `s'`, to an equal type. -/
def Keeps (s' s : Subst) : Prop :=
  ∀ v t, s.find? v = some t → ∃ t', s'.find? v = some t' ∧ (t' == t) = true

theorem Extends.keeps (h : s'.Extends s) : s'.Keeps s := by
  intro v t hv
  exact ⟨t, h v t hv, BEq.rfl⟩

/-- Keeping is checked entry by entry. -/
theorem keeps_iff : s'.Keeps s ↔ ∀ e ∈ s.entries, (s'.find? e.1).any (· == e.2) = true := by
  simp only [Option.any_eq_true]
  exact OrderedMap.forall_find?_iff (m := s)
    (P := fun v t => ∃ t', s'.find? v = some t' ∧ (t' == t) = true)

instance (s' s : Subst) : Decidable (s'.Keeps s) := decidable_of_iff _ keeps_iff.symm

/-! ## Reading on in a later substitution -/

/-- What a variable stands for comes, in a later substitution, to what it stands for there. -/
theorem Acyclic.anon_value_of_keeps (hs : s.Acyclic) (hs' : s'.Acyclic) (hk : s'.Keeps s) (v : VarId)
    (n m : Option String) : ((s.value v n).replaceVars s'.value).anon = (s'.value v m).anon := by
  induction v using hs.induction generalizing n m with
  | free v hv =>
    rw [value_of_none hv, Ty.replaceVars_var]
    exact s'.anon_value v n m
  | bound v u hv ih =>
    obtain ⟨u', hv', hequal⟩ := hk v u hv
    rw [value_of_some hv, value_of_some hv', hs.apply_eq, hs'.apply_eq, Ty.replaceVars_replaceVars]
    -- the later binding differs from `u` by labels at most
    apply Ty.anon_replaceVars_congr (Ty.beq_iff.1 hequal).symm
    intro w hw n m
    exact ih w hw n m

/-- **Later substitutions respect what was applied before**, labels apart. -/
theorem Acyclic.apply_apply_of_keeps (hs : s.Acyclic) (hs' : s'.Acyclic) (hk : s'.Keeps s) (t : Ty) :
    (s'.apply (s.apply t) == s'.apply t) = true := by
  rw [Ty.beq_iff, hs.apply_eq, hs'.apply_eq, hs'.apply_eq, Ty.replaceVars_replaceVars]
  apply Ty.anon_replaceVars_congr rfl
  intro v _ n m
  exact hs.anon_value_of_keeps hs' hk v n m

/-! ## Application normalizes -/

/-- **Application reaches a normal form that later bindings respect.**  Applying an acyclic substitution
    by nested calls ends, with the type that `apply` gives.  No variable of it is bound, and applying again
    changes nothing.  The variables without a binding are the unresolved ones.  A substitution that keeps
    the bindings gives the same, whether or not this one was applied before. -/
theorem application_normalizes (hs : s.Acyclic) :
    (∀ t, Settles (fun n => s.applyWithin n t) (s.apply t) ∧
      (∀ v ∈ (s.apply t).vars, s.find? v = none) ∧
      s.apply (s.apply t) = s.apply t) ∧
    (∀ v, s.isUnresolved v = true ↔ s.find? v = none) ∧
    (∀ s' : Subst, s'.Acyclic → s'.Keeps s → ∀ t, (s'.apply (s.apply t) == s'.apply t) = true) := by
  refine ⟨?_, ?_, ?_⟩
  · intro t
    exact ⟨hs.applyWithin_settles t, fun v hv => hs.not_bound_of_mem_apply hv, hs.apply_apply t⟩
  · intro v
    exact hs.isUnresolved_iff
  · intro s' hs' hk t
    exact hs.apply_apply_of_keeps hs' hk t

/-- A chain of two bindings: `?0` is a list of `?1`, and `?1` a pair. -/
def listOfPairs : Subst :=
  .ofList [(0, Ty.con "List" [.var 1 none]), (1, Ty.tuple [.var 2 none, .var 3 none])]

/-- `listOfPairs` with one more binding, with the entries in another order and with a label on `?3`. -/
def listOfIntPairs : Subst :=
  .ofList [(2, Ty.con "Int" []), (1, Ty.tuple [.var 2 none, .var 3 (some "T")]),
    (0, Ty.con "List" [.var 1 none])]

/-- Under `?0 := List<?1>, ?1 := (?2, ?3)` the function type `(?0) -> ?1` comes to
    `(List<(?2, ?3)>) -> (?2, ?3)`; `?1` is resolved and `?2` is not.  When `?2` is bound as well, the
    results agree although one of them shows the label that the later binding carries. -/
theorem application_normalizes_chain :
    listOfPairs.Acyclic ∧ listOfIntPairs.Acyclic ∧ listOfIntPairs.Keeps listOfPairs ∧
    ∃ t : Ty, t = Ty.arrow [.var 0 none] (.var 1 none) ∧
      (listOfPairs.apply t).text = "(List<(?2, ?3)>) -> (?2, ?3)" ∧
      Settles (fun n => listOfPairs.applyWithin n t) (listOfPairs.apply t) ∧
      listOfPairs.apply (listOfPairs.apply t) = listOfPairs.apply t ∧
      (listOfPairs.isUnresolved 1 = false ∧ listOfPairs.isUnresolved 2 = true) ∧
      (listOfIntPairs.apply (listOfPairs.apply t)).text = "(List<(Int, ?3)>) -> (Int, ?3)" ∧
      (listOfIntPairs.apply t).text = "(List<(Int, T)>) -> (Int, T)" ∧
      (listOfIntPairs.apply (listOfPairs.apply t) == listOfIntPairs.apply t) = true := by
  have hs : listOfPairs.Acyclic := ⟨fun v => 3 - v, by decide⟩
  have hs' : listOfIntPairs.Acyclic := ⟨fun v => 3 - v, by decide⟩
  have hk : listOfIntPairs.Keeps listOfPairs := by decide
  obtain ⟨hends, hunresolved, hlater⟩ := application_normalizes hs
  refine ⟨hs, hs', hk, _, rfl, by decide, (hends _).1, (hends _).2.2, ⟨by decide, ?_⟩, by decide,
    by decide, hlater _ hs' hk _⟩
  exact (hunresolved 2).2 rfl

end InstanceSearch.Subst
