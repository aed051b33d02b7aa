/-
  How a substitution grows.

  Unification and the search only ever APPEND to a substitution: the old entries stay, unchanged and in
  order, and each new entry binds a variable that was not bound and may be bound.  `Grows frozen P s s'`
  says so, together with what keeps the next step going: the result is again without cycles, and the new
  entries stay within the variables `P`.
-/
import InstanceSearch.Proofs.Subst.Values
import InstanceSearch.VarSet

namespace InstanceSearch.Subst

/-- `Grows frozen P s s'`: from `s` to `s'` only entries were added, for variables that are not frozen
    and over the variables `P`, and `s'` has no cycle. -/
structure Grows (frozen : VarSet) (P : VarId → Prop) (s s' : Subst) : Prop where
  entries : ∃ new, s'.entries = s.entries ++ new ∧
    ∀ e ∈ new, e.1 ∉ frozen ∧ P e.1 ∧ ∀ w ∈ e.2.vars, P w
  acyclic : s'.Acyclic

theorem extends_of_append {s s' : Subst} {new : List (VarId × Ty)}
    (h : s'.entries = s.entries ++ new) : s'.Extends s := by
  intro v t hv
  rw [OrderedMap.find?_eq_some_iff] at hv ⊢
  rw [h]
  exact List.mem_append.2 (Or.inl hv)

namespace Grows

variable {frozen : VarSet} {P Q : VarId → Prop} {s s' s'' : Subst}

theorem refl (h : s.Acyclic) : Grows frozen P s s where
  entries := ⟨[], by simp, fun _ he => nomatch he⟩
  acyclic := h

theorem trans (h : Grows frozen P s s') (h' : Grows frozen P s' s'') : Grows frozen P s s'' where
  entries := by
    obtain ⟨new, hn, hP⟩ := h.entries
    obtain ⟨new', hn', hP'⟩ := h'.entries
    refine ⟨new ++ new', by rw [hn', hn, List.append_assoc], ?_⟩
    intro e he
    rcases List.mem_append.1 he with he | he
    · exact hP e he
    · exact hP' e he
  acyclic := h'.acyclic

theorem mono (h : Grows frozen P s s') (hPQ : ∀ v, P v → Q v) : Grows frozen Q s s' where
  entries := by
    obtain ⟨new, hn, hP⟩ := h.entries
    refine ⟨new, hn, ?_⟩
    intro e he
    obtain ⟨hf, hk, hv⟩ := hP e he
    exact ⟨hf, hPQ _ hk, fun w hw => hPQ w (hv w hw)⟩
  acyclic := h.acyclic

theorem isExtension (h : Grows frozen P s s') : s'.Extends s := by
  obtain ⟨new, hn, _⟩ := h.entries
  exact extends_of_append hn

/-- The old entries come first. -/
theorem isPrefix (h : Grows frozen P s s') : s.entries <+: s'.entries := by
  obtain ⟨new, hn, _⟩ := h.entries
  exact ⟨new, hn.symm⟩

/-- **A frozen variable that was not bound is not bound afterwards.** -/
theorem frozen_free (h : Grows frozen P s s') {v : VarId} (hv : v ∈ frozen)
    (hs : s.find? v = none) : s'.find? v = none := by
  obtain ⟨new, hn, hP⟩ := h.entries
  rw [OrderedMap.find?_eq_none_iff, OrderedMap.keys] at hs ⊢
  rw [hn, List.map_append, List.mem_append]
  rintro (hm | hm)
  · exact hs hm
  · obtain ⟨e, he, rfl⟩ := List.mem_map.1 hm
    exact (hP e he).1 hv

/-- **New entries are for variables that were not bound**, since no key stands twice. -/
theorem new_free (h : Grows frozen P s s') : ∃ new, s'.entries = s.entries ++ new ∧
    ∀ e ∈ new, s.find? e.1 = none ∧ e.1 ∉ frozen ∧ P e.1 ∧ ∀ w ∈ e.2.vars, P w := by
  obtain ⟨new, hn, hP⟩ := h.entries
  refine ⟨new, hn, ?_⟩
  intro e he
  refine ⟨?_, hP e he⟩
  have hnodup := s'.nodup
  rw [hn, List.map_append] at hnodup
  rw [OrderedMap.find?_eq_none_iff]
  intro hm
  exact (List.nodup_append.1 hnodup).2.2 e.1 hm e.1 (List.mem_map_of_mem he) rfl

/-- Nothing changes about which frozen variables are free. -/
theorem frozen_free_iff (h : Grows frozen P s s') {v : VarId} (hv : v ∈ frozen) :
    s'.find? v = none ↔ s.find? v = none := by
  refine ⟨fun hfree => ?_, h.frozen_free hv⟩
  cases hs : s.find? v with
  | none => rfl
  | some t =>
    rw [h.isExtension v t hs] at hfree
    cases hfree

/-- What holds of the variables of `s`, and of those that may be added, holds of all of `s'`. -/
theorem forall_vars (h : Grows frozen P s s') (hs : ∀ v ∈ s.vars, P v) : ∀ v ∈ s'.vars, P v := by
  obtain ⟨new, hn, hP⟩ := h.entries
  intro v hv
  rw [vars, hn, List.flatMap_append, List.mem_append] at hv
  rcases hv with hv | hv
  · exact hs v hv
  · obtain ⟨e, he, hv⟩ := List.mem_flatMap.1 hv
    rcases List.mem_cons.1 hv with hv | hv
    · exact hv ▸ (hP e he).2.1
    · exact (hP e he).2.2 v hv

end Grows

/-- A single new binding is growth. -/
theorem Acyclic.grows_insert {frozen : VarSet} {P : VarId → Prop} {s : Subst} (h : s.Acyclic)
    {v : VarId} {t : Ty} (hv : s.find? v = none) (ht : ∀ w ∈ t.vars, s.find? w = none)
    (hvt : v ∉ t.vars) (hf : v ∉ frozen) (hP : P v) (hPt : ∀ w ∈ t.vars, P w) :
    Grows frozen P s (s.insert v t) where
  entries := by
    refine ⟨[(v, t)], ?_, ?_⟩
    · exact OrderedMap.entries_insert_of_notMem t (OrderedMap.find?_eq_none_iff.1 hv)
    · intro e he
      rw [List.mem_singleton.1 he]
      exact ⟨hf, hP, hPt⟩
  acyclic := h.insert hv ht hvt

end InstanceSearch.Subst
