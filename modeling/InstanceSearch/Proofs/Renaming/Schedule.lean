/-
  Two searches that draw from their own counters.

  THE SITUATION
    The first search draws some variables.  The second one draws all of these too, in the same order, and
    others in between.  A `Schedule` says which: it has one entry for each variable that the second
    search draws, and the entry tells whether the first draws one as well.

  THE RENAMING that takes the variables of the first search to those of the second has to `Embed` the
  schedule.  There is always one (`exists_embeds`), as long as the second search starts no lower than the
  first: it moves nothing that was there before, so that it may be used for a whole search at once.

  Where both searches draw the same, a schedule has no gaps, and to embed it is to carry one block to the
  other (`embeds_replicate`).
-/
import Mathlib.Logic.Equiv.Basic
import InstanceSearch.Proofs.Renaming.Matching

namespace InstanceSearch

/-- For each variable that the second search draws: whether the first draws one too. -/
abbrev Schedule := List Bool

namespace Schedule

/-- How many variables both draw. -/
def shared (s : Schedule) : Nat := s.count true

/-- `Embeds π s n n'`: where the first search counts from `n` and the second from `n'`, the renaming
    takes each variable of the first to the one that the second draws at the same time. -/
def Embeds (π : Renaming) : Schedule → Nat → Nat → Prop
  | [], _, _ => True
  | true :: s, n, n' => π n = n' ∧ Embeds π s (n + 1) (n' + 1)
  | false :: s, n, n' => Embeds π s n (n' + 1)

@[simp] theorem shared_append (s t : Schedule) : (s ++ t).shared = s.shared + t.shared :=
  List.count_append

@[simp] theorem shared_replicate (k : Nat) (b : Bool) :
    shared (List.replicate k b) = if b then k else 0 := by
  cases b <;> simp [shared, List.count_replicate]

variable {π : Renaming} {s t : Schedule} {n n' : Nat}

/-- One schedule after the other. -/
theorem embeds_append : Embeds π (s ++ t) n n' ↔
    Embeds π s n n' ∧ Embeds π t (n + s.shared) (n' + s.length) := by
  induction s generalizing n n' with
  | nil => exact ⟨fun h => ⟨trivial, h⟩, fun h => h.2⟩
  | cons b s ih =>
    have hlength : n' + (b :: s).length = n' + 1 + s.length := by
      rw [List.length_cons]
      omega
    cases b with
    | false =>
      have hshared : shared (false :: s) = shared s := by simp [shared]
      rw [hshared, hlength]
      exact ih
    | true =>
      have hshared : n + shared (true :: s) = n + 1 + shared s := by
        rw [shared, List.count_cons_self, shared]
        omega
      rw [hshared, hlength, List.cons_append, Embeds, Embeds, ih, and_assoc]

/-- Where both draw all variables, one block goes to the other. -/
theorem embeds_replicate {k : Nat} : Embeds π (List.replicate k true) n n' ↔ Carries π n n' k := by
  induction k generalizing n n' with
  | zero => exact ⟨fun _ i hi => absurd hi (Nat.not_lt_zero i), fun _ => trivial⟩
  | succ k ih =>
    rw [List.replicate_succ, Embeds, ih]
    constructor
    · rintro ⟨hfirst, hrest⟩ i hi
      cases i with
      | zero => exact hfirst
      | succ i =>
        have hi' := hrest i (Nat.lt_of_succ_lt_succ hi)
        rw [Nat.add_assoc, Nat.add_comm 1 i, Nat.add_assoc, Nat.add_comm 1 i] at hi'
        exact hi'
    · intro h
      rw [Nat.add_comm] at h
      exact ⟨h 0 (by omega), h.right⟩

/-- What moves only variables below the second block may come after. -/
theorem Embeds.trans {σ : Renaming} (h : Embeds π s n n') (hσ : ∀ v, n' ≤ v → σ v = v) :
    Embeds (π.trans σ) s n n' := by
  induction s generalizing n n' with
  | nil => trivial
  | cons b s ih =>
    have hσ' : ∀ v, n' + 1 ≤ v → σ v = v := fun v hv => hσ v (Nat.le_of_succ_le hv)
    cases b with
    | false => exact ih h hσ'
    | true =>
      refine ⟨?_, ih h.2 hσ'⟩
      rw [Equiv.trans_apply, h.1]
      exact hσ n' (Nat.le_refl n')

/-- **Every schedule can be embedded**, by a renaming that fixes all variables below the first block. -/
theorem exists_embeds (s : Schedule) (h : n ≤ n') :
    ∃ π : Renaming, (∀ v < n, π v = v) ∧ Embeds π s n n' := by
  induction s generalizing n n' with
  | nil => exact ⟨Equiv.refl VarId, fun _ _ => rfl, trivial⟩
  | cons b s ih =>
    cases b with
    | false => exact ih (Nat.le_succ_of_le h)
    | true =>
      obtain ⟨ρ, hfixed, hρ⟩ := ih (Nat.succ_le_succ h)
      -- `ρ` leaves `n` where it is; the exchange takes it to `n'`, below everything that follows
      refine ⟨ρ.trans (Equiv.swap n n'), fun v hv => ?_, ?_, ?_⟩
      · rw [Equiv.trans_apply, hfixed v (Nat.lt_succ_of_lt hv)]
        exact Equiv.swap_apply_of_ne_of_ne (Nat.ne_of_lt hv) (Nat.ne_of_lt (Nat.lt_of_lt_of_le hv h))
      · rw [Equiv.trans_apply, hfixed n (Nat.lt_succ_self n)]
        exact Equiv.swap_apply_left n n'
      · refine hρ.trans fun v hv => Equiv.swap_apply_of_ne_of_ne ?_ (Nat.ne_of_gt hv)
        exact Nat.ne_of_gt (Nat.lt_of_le_of_lt h hv)

/-- Where there are no gaps, both draw the same. -/
theorem eq_replicate (h : false ∉ s) : s = List.replicate s.shared true := by
  have hall : s = List.replicate s.length true := by
    refine List.eq_replicate_iff.2 ⟨rfl, fun b hb => ?_⟩
    cases b with
    | false => exact absurd hb h
    | true => rfl
  rw [hall]
  simp

/-- Two schedules with gaps only where there may be any. -/
theorem gaps_append {gaps : Prop} (hs : false ∈ s → gaps) (ht : false ∈ t → gaps) :
    false ∈ s ++ t → gaps := fun h => (List.mem_append.1 h).elim hs ht

end Schedule

end InstanceSearch
