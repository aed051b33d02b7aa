/-
  Watermarks for variables.

  New variables are numbers counted upwards.  Variables that were chosen by hand are made safe by lifting
  the counter above them: `reserve next vs` is the least watermark that is at least `next` and above all
  of `vs`.  A catalog reserves the variables of each declaration, and a search reserves those of its query.

  There is always room above, since numbers are unbounded.  With numbers of 32 bits there is none above the
  largest of them; to reserve that one, or to draw beyond it, is left out.
-/
import InstanceSearch.Ty.Basic

namespace InstanceSearch

/-- `reserve next vs` = the least watermark from `next` on that is above all of `vs`. -/
def reserve (next : VarId) (vs : List VarId) : VarId := vs.foldl (fun n v => max n (v + 1)) next

theorem le_reserve (next : VarId) (vs : List VarId) : next ≤ reserve next vs := by
  induction vs generalizing next with
  | nil => exact Nat.le_refl _
  | cons v vs ih => exact Nat.le_trans (Nat.le_max_left _ _) (ih (max next (v + 1)))

/-- A reserved variable is below the watermark. -/
theorem lt_reserve {next v : VarId} {vs : List VarId} (h : v ∈ vs) : v < reserve next vs := by
  induction vs generalizing next with
  | nil => exact nomatch h
  | cons w vs ih =>
    rcases List.mem_cons.1 h with h | h
    · exact h ▸ Nat.lt_of_lt_of_le (Nat.le_max_right next (v + 1)) (le_reserve _ vs)
    · exact ih h

/-- The first variable above a list depends on what is in the list. -/
theorem reserve_le_iff {n k : VarId} {vs : List VarId} :
    reserve n vs ≤ k ↔ n ≤ k ∧ ∀ v ∈ vs, v < k := by
  constructor
  · exact fun h => ⟨Nat.le_trans (le_reserve n vs) h, fun v hv => Nat.lt_of_lt_of_le (lt_reserve hv) h⟩
  · intro h
    induction vs generalizing n with
    | nil => exact h.1
    | cons v vs ih =>
      refine ih ⟨Nat.max_le.2 ⟨h.1, h.2 v List.mem_cons_self⟩, ?_⟩
      exact fun w hw => h.2 w (List.mem_cons_of_mem v hw)

/-- What is below the new watermark was below the old one, or is no greater than a reserved variable. -/
theorem lt_reserve_iff {n k : VarId} {vs : List VarId} :
    k < reserve n vs ↔ k < n ∨ ∃ v ∈ vs, k ≤ v := by
  constructor
  · intro h
    by_cases hn : k < n
    · exact Or.inl hn
    · by_cases hv : ∃ v ∈ vs, k ≤ v
      · exact Or.inr hv
      · have hall : ∀ v ∈ vs, v < k := fun v hmem => Nat.lt_of_not_le fun hle => hv ⟨v, hmem, hle⟩
        exact absurd h (Nat.not_lt.2 (reserve_le_iff.2 ⟨Nat.le_of_not_lt hn, hall⟩))
  · rintro (h | ⟨v, hv, hle⟩)
    · exact Nat.lt_of_lt_of_le h (le_reserve n vs)
    · exact Nat.lt_of_le_of_lt hle (lt_reserve hv)

end InstanceSearch
