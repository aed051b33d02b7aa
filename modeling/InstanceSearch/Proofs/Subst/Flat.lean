/-
  Substitutions that are read in one step.

  A substitution is FLAT if what it binds mentions no bound variable.  The two that the program builds
  by itself are: the arguments put for the parameters of a concept, and the new variables put for those
  of an instance.  There no chain is longer than one binding, and `apply` is `replaceVars` by a look-up
  (`Flat.apply_eq`).  `find?_ofList` says what the look-up finds.
-/
import InstanceSearch.Proofs.Subst.Values

namespace InstanceSearch

namespace OrderedMap

variable {κ α β : Type} [DecidableEq κ]

theorem entries_foldl_insert {es : List (κ × α)} {m : OrderedMap κ α}
    (h : (m.keys ++ es.map Prod.fst).Nodup) :
    (es.foldl (fun m e => m.insert e.1 e.2) m).entries = m.entries ++ es := by
  induction es generalizing m with
  | nil => simp
  | cons e es ih =>
    have hnew : e.1 ∉ m.keys := by
      intro hm
      have hdisjoint := (List.nodup_append.1 h).2.2
      exact hdisjoint e.1 hm e.1 (by simp) rfl
    have hkeys : (m.insert e.1 e.2).keys = m.keys ++ [e.1] := by
      rw [keys_insert, if_neg hnew]
    have hnext := ih (m := m.insert e.1 e.2) (by rw [hkeys]; simpa using h)
    rw [List.foldl_cons, hnext, entries_insert_of_notMem _ hnew]
    simp

/-- Entries with different keys make up the map as they are. -/
theorem find?_ofList {es : List (κ × α)} (h : (es.map Prod.fst).Nodup) (k : κ) :
    (ofList es).find? k = es.lookup k := by
  have hentries : (ofList es).entries = es := by
    have hkeys : ((OrderedMap.empty : OrderedMap κ α).keys ++ es.map Prod.fst).Nodup := h
    have hall := entries_foldl_insert hkeys
    rw [ofList, hall]
    rfl
  rw [find?, hentries]

/-- Of several entries for a key, the last one counts. -/
theorem find?_ofList_reverse (es : List (κ × α)) (k : κ) :
    (ofList es).find? k = es.reverse.lookup k := by
  have hfold : ∀ m : OrderedMap κ α, (es.foldl (fun m e => m.insert e.1 e.2) m).find? k =
      (es.reverse.lookup k).or (m.find? k) := by
    induction es with
    | nil => exact fun m => (Option.none_or).symm
    | cons e es ih =>
      intro m
      rw [List.foldl_cons, ih, find?_insert, List.reverse_cons, List.lookup_append, Option.or_assoc]
      congr 1
      rw [List.lookup_cons, List.lookup_nil]
      by_cases hk : k = e.1
      · rw [if_pos hk, hk, beq_self_eq_true]
        rfl
      · rw [if_neg hk, beq_eq_false_iff_ne.2 hk]
        rfl
  exact (hfold empty).trans (Option.or_none)

/-- What is found after entries were inserted was there before or is one of them. -/
theorem find?_foldl_insert {es : List (κ × α)} {m : OrderedMap κ α} {k : κ} {v : α}
    (h : (es.foldl (fun m e => m.insert e.1 e.2) m).find? k = some v) :
    m.find? k = some v ∨ (k, v) ∈ es := by
  induction es generalizing m with
  | nil => exact Or.inl h
  | cons e es ih =>
    rcases ih h with hm | hm
    · rw [find?_insert] at hm
      split at hm
      · rename_i hk
        injection hm with hm
        exact Or.inr (by rw [hk, ← hm]; exact List.mem_cons_self ..)
      · exact Or.inl hm
    · exact Or.inr (List.mem_cons_of_mem _ hm)

/-- A map made from entries holds nothing but these. -/
theorem mem_of_find?_ofList {es : List (κ × α)} {k : κ} {v : α} (h : (ofList es).find? k = some v) :
    (k, v) ∈ es := by
  rcases find?_foldl_insert h with hm | hm
  · cases hm
  · exact hm

theorem mem_keys_ofList {es : List (κ × α)} {k : κ} (h : k ∈ (ofList es).keys) :
    k ∈ es.map Prod.fst := by
  obtain ⟨v, hv⟩ := Option.ne_none_iff_exists'.1 fun hn => find?_eq_none_iff.1 hn h
  exact List.mem_map_of_mem (f := Prod.fst) (mem_of_find?_ofList hv)

end OrderedMap

namespace Subst

/-- What is bound mentions no bound variable. -/
def Flat (s : Subst) : Prop := ∀ v t, s.find? v = some t → ∀ w ∈ t.vars, s.find? w = none

/-- `s.pick v name` = what `v` is bound to, or `v` itself. -/
def pick (s : Subst) (v : VarId) (name : Option String) : Ty := (s.find? v).getD (.var v name)

theorem Flat.acyclic {s : Subst} (h : s.Flat) : s.Acyclic := by
  refine ⟨fun v => if s.find? v = none then 0 else 1, ?_⟩
  intro v t hv w hw
  simp [h v t hv w hw, hv]

/-- **A flat substitution is read in one step.** -/
theorem Flat.apply_eq {s : Subst} (h : s.Flat) (t : Ty) : s.apply t = t.replaceVars s.pick := by
  rw [h.acyclic.apply_eq]
  apply Ty.replaceVars_congr
  intro v _ name
  unfold pick
  cases hv : s.find? v with
  | none => exact value_of_none hv name
  | some u =>
    rw [value_of_some hv]
    exact apply_of_free (h v u hv)

theorem Flat.applyTo_eq {s : Subst} (h : s.Flat) (c : Capability) :
    s.applyTo c = c.map (Ty.replaceVars s.pick) := by
  unfold applyTo
  congr 1
  funext t
  exact h.apply_eq t

end Subst

end InstanceSearch
