/-
  What a unification that says yes hands back.

  THE STATEMENT (`unification_sound`)
    Whichever form is called, on types or on capabilities, all at once or in place: if it succeeds on an
    acyclic substitution `s` and leaves `s'`, then `s'` makes the two sides equal, and it `Refines` `s`.
    An assignment that solves `s'` solves `s`, no frozen variable gets a binding, and one that had none
    stays what it is.

  THE CRUX
    The equality is about the LAST substitution, but the arguments are walked over one after the other.
    An equality that an early argument brought about is kept by every later binding, since the bindings
    of before are still there and are solved by what comes after (`solve_agree`).  What remains here is
    one reduction: two types unify as two capabilities with one argument do.
-/
import InstanceSearch.Proofs.Unify.Complete

namespace InstanceSearch

/-! ## What is kept -/

namespace Subst

/-- `θ` satisfies every binding of `s`. -/
def SolvedBy (s : Subst) (θ : VarId → Ty) : Prop :=
  ∀ v t, s.find? v = some t → (θ v == t.assign θ) = true

theorem SolvedBy.of_extends {s s' : Subst} {θ : VarId → Ty} (h : s'.SolvedBy θ)
    (hext : s'.Extends s) : s.SolvedBy θ :=
  fun v t hv => h v t (hext v t hv)

/-- `Refines frozen s s'`: whatever satisfies `s'` satisfies `s`, and `s'` captures no frozen variable. -/
structure Refines (frozen : VarSet) (s s' : Subst) : Prop where
  solutions : ∀ θ, s'.SolvedBy θ → s.SolvedBy θ
  new_keys : ∀ v ∈ s'.keys, v ∉ s.keys → v ∉ frozen
  kept : ∀ v ∈ frozen, s.find? v = none → ∀ name, s'.apply (.var v name) = .var v name

/-- A substitution that only grew refines the one it grew out of. -/
theorem Grows.refines {frozen : VarSet} {P : VarId → Prop} {s s' : Subst}
    (h : Grows frozen P s s') : Refines frozen s s' where
  solutions _ hθ := hθ.of_extends h.isExtension
  new_keys v hv hs hf := by
    have hfree := h.frozen_free hf (OrderedMap.find?_eq_none_iff.2 hs)
    exact OrderedMap.find?_eq_none_iff.1 hfree hv
  kept v hf hs name := apply_var_of_none (h.frozen_free hf hs) name

end Subst

/-! ## Types as capabilities with one argument -/

/-- The capability of no particular concept whose only argument is a type. -/
def Ty.alone (t : Ty) : Capability := ⟨"", [t]⟩

theorem unify_eq_alone (frozen : VarSet) (a b : Ty) (s : Subst) :
    unify frozen a b s = unifyCapabilities frozen a.alone b.alone s := by
  simp [unify, unifyCapabilities, Ty.alone]

theorem allOrNothing_ok {x : Except UnifyError Unit × Subst} {s' : Subst} :
    allOrNothing x = .ok s' ↔ x = (.ok (), s') := by
  obtain ⟨outcome, s⟩ := x
  cases outcome <;> simp [allOrNothing]

theorem unified_eq_true {frozen : VarSet} {a b : Ty} {s s' : Subst}
    (h : unified frozen a b s = (true, s')) : tryUnify frozen a b s = .ok s' := by
  unfold unified at h
  split at h
  · rename_i last hlast
    injection h with _ h
    rw [hlast, h]
  · cases h

/-! ## The statement -/

section Sound

variable {frozen : VarSet} {s s' : Subst}

/-- Two capabilities that unify are equal afterwards, under a substitution that refines the first. -/
theorem unifyCapabilities_refines (hs : s.Acyclic) {c d : Capability}
    (h : unifyCapabilities frozen c d s = (.ok (), s')) :
    (s'.applyTo c == s'.applyTo d) = true ∧ Subst.Refines frozen s s' := by
  obtain ⟨hgrow, hequal⟩ := tryUnifyCapabilities_sound hs (allOrNothing_ok.2 h)
  exact ⟨Capability.beq_iff.2 hequal, hgrow.refines⟩

/-- The same of two types. -/
theorem unify_refines (hs : s.Acyclic) {a b : Ty} (h : unify frozen a b s = (.ok (), s')) :
    (s'.apply a == s'.apply b) = true ∧ Subst.Refines frozen s s' := by
  rw [unify_eq_alone] at h
  obtain ⟨hequal, hrefines⟩ := unifyCapabilities_refines hs h
  refine ⟨?_, hrefines⟩
  rw [Capability.beq_iff, Capability.anon_eq_iff] at hequal
  rw [Ty.beq_iff]
  simpa [Ty.alone, Subst.applyTo] using hequal.2

/-- **Unification is sound.**  In each of its forms, a unification that succeeds under an acyclic
    substitution leaves one that makes the two sides equal, and that refines the first: it is solved only
    by what solves the first, and it binds no frozen variable. -/
theorem unification_sound (hs : s.Acyclic) :
    (∀ a b : Ty, unify frozen a b s = (.ok (), s') ∨ tryUnify frozen a b s = .ok s' ∨
        unified frozen a b s = (true, s') →
      (s'.apply a == s'.apply b) = true ∧ Subst.Refines frozen s s') ∧
    (∀ c d : Capability, unifyCapabilities frozen c d s = (.ok (), s') ∨
        tryUnifyCapabilities frozen c d s = .ok s' →
      (s'.applyTo c == s'.applyTo d) = true ∧ Subst.Refines frozen s s') := by
  constructor
  · rintro a b (h | h | h)
    · exact unify_refines hs h
    · exact unify_refines hs (allOrNothing_ok.1 h)
    · exact unify_refines hs (allOrNothing_ok.1 (unified_eq_true h))
  · rintro c d (h | h)
    · exact unifyCapabilities_refines hs h
    · exact unifyCapabilities_refines hs (allOrNothing_ok.1 h)

/-- Under `?1 := List<?2>` and with `?0` frozen, `?1 -> ?2` and `List<List<?3>> -> List<?0>` unify.  The
    result of the function is reached after its argument bound `?2`, and then it binds `?3`, since `?0`
    may not be bound. -/
theorem unification_sound_function :
    ∃ s' : Subst, listOfSecond.Acyclic ∧
      unify (VarSet.ofList [0]) (.app .arrow [.var 1 none, .var 2 none])
        (.app .arrow [Ty.con "List" [Ty.con "List" [.var 3 none]], Ty.con "List" [.var 0 none]])
        listOfSecond = (.ok (), s') ∧
      s'.text = "\x7b?1 := List<?2>, ?2 := List<?3>, ?3 := ?0\x7d" ∧
      s'.apply (.app .arrow [.var 1 none, .var 2 none]) =
        .app .arrow [Ty.con "List" [Ty.con "List" [.var 0 none]], Ty.con "List" [.var 0 none]] ∧
      (s'.apply (.app .arrow [.var 1 none, .var 2 none]) == s'.apply
        (.app .arrow [Ty.con "List" [Ty.con "List" [.var 3 none]], Ty.con "List" [.var 0 none]])) =
          true ∧
      Subst.Refines (VarSet.ofList [0]) listOfSecond s' := by
  have hacyclic : listOfSecond.Acyclic :=
    Subst.acyclic_empty.insert rfl (fun _ _ => rfl) (by decide)
  generalize ha : Ty.app .arrow [.var 1 none, .var 2 none] = a
  generalize hb : Ty.app .arrow [Ty.con "List" [Ty.con "List" [.var 3 none]],
    Ty.con "List" [.var 0 none]] = b
  have hok : (unify (VarSet.ofList [0]) a b listOfSecond).1.isOk = true := by
    subst ha hb
    decide +kernel
  have htext : (unify (VarSet.ofList [0]) a b listOfSecond).2.text =
      "\x7b?1 := List<?2>, ?2 := List<?3>, ?3 := ?0\x7d" := by
    subst ha hb
    decide +kernel
  have hvalue : (unify (VarSet.ofList [0]) a b listOfSecond).2.apply a =
      .app .arrow [Ty.con "List" [Ty.con "List" [.var 0 none]], Ty.con "List" [.var 0 none]] := by
    subst ha hb
    decide +kernel
  rcases hx : unify (VarSet.ofList [0]) a b listOfSecond with ⟨outcome, s'⟩
  rw [hx] at hok htext hvalue
  cases outcome with
  | error e => cases hok
  | ok u =>
    obtain ⟨hequal, hrefines⟩ := (unification_sound hacyclic).1 a b (Or.inl hx)
    exact ⟨s', hacyclic, rfl, htext, hvalue, hequal, hrefines⟩

end Sound

end InstanceSearch
