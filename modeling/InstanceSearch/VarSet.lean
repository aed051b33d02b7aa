/-
  Sets of variables.

  A `VarSet` is a strictly ascending list, so that each set has one representation and is shown in
  order.  The main use is the set of FROZEN variables of a query: those that belong to an enclosing
  generic scope and that no search may bind.  `mem_insert` and `mem_union` are all a reader needs.
-/
import InstanceSearch.Ty.Basic

namespace InstanceSearch

/-- A strictly ascending list of variables. -/
structure VarSet where
  ids : List VarId
  ascending : ids.Pairwise (· < ·)

namespace VarSet

/-- The set without members. -/
def empty : VarSet := ⟨[], List.Pairwise.nil⟩

instance : Inhabited VarSet := ⟨empty⟩

instance : Membership VarId VarSet := ⟨fun s v => v ∈ s.ids⟩

theorem mem_def {s : VarSet} {v : VarId} : v ∈ s ↔ v ∈ s.ids := Iff.rfl

instance (v : VarId) (s : VarSet) : Decidable (v ∈ s) := inferInstanceAs (Decidable (v ∈ s.ids))

@[simp] theorem not_mem_empty (v : VarId) : ¬ v ∈ empty := by simp [mem_def, empty]

def contains (s : VarSet) (v : VarId) : Bool := decide (v ∈ s)

@[simp] theorem contains_iff {s : VarSet} {v : VarId} : s.contains v = true ↔ v ∈ s := by
  simp [contains]

def size (s : VarSet) : Nat := s.ids.length

def isEmpty (s : VarSet) : Bool := s.ids.isEmpty

/-- `place v vs` = the ascending list `vs` with `v` at its place, unless it is there already. -/
def place (v : VarId) : List VarId → List VarId
  | [] => [v]
  | w :: vs => if v < w then v :: w :: vs else if v = w then w :: vs else w :: place v vs

theorem mem_place {v w : VarId} {vs : List VarId} : w ∈ place v vs ↔ w = v ∨ w ∈ vs := by
  induction vs with
  | nil => simp [place]
  | cons u vs ih =>
    unfold place
    split
    · simp
    · split
      · rename_i _ h
        subst h
        simp
      · simp only [List.mem_cons, ih]
        exact or_left_comm

theorem ascending_place {v : VarId} {vs : List VarId} (h : vs.Pairwise (· < ·)) :
    (place v vs).Pairwise (· < ·) := by
  induction vs with
  | nil => simp [place]
  | cons u vs ih =>
    rw [List.pairwise_cons] at h
    unfold place
    split
    · rename_i hlt
      refine List.pairwise_cons.2 ⟨fun w hw => ?_, List.pairwise_cons.2 h⟩
      rcases List.mem_cons.1 hw with hw | hw
      · exact hw ▸ hlt
      · exact Nat.lt_trans hlt (h.1 w hw)
    · rename_i hge
      split
      · exact List.pairwise_cons.2 h
      · rename_i hne
        refine List.pairwise_cons.2 ⟨fun w hw => ?_, ih h.2⟩
        rcases mem_place.1 hw with hw | hw
        · exact hw ▸ Nat.lt_of_le_of_ne (Nat.le_of_not_lt hge) (Ne.symm hne)
        · exact h.1 w hw

/-- `s.insert v` = `s` with the member `v`. -/
def insert (s : VarSet) (v : VarId) : VarSet := ⟨place v s.ids, ascending_place s.ascending⟩

@[simp] theorem mem_insert {s : VarSet} {v w : VarId} : w ∈ s.insert v ↔ w = v ∨ w ∈ s := mem_place

/-- `s.union vs` = `s` with all members of `vs`. -/
def union (s : VarSet) (vs : List VarId) : VarSet := vs.foldl insert s

@[simp] theorem mem_union {s : VarSet} {vs : List VarId} {w : VarId} :
    w ∈ s.union vs ↔ w ∈ s ∨ w ∈ vs := by
  induction vs generalizing s with
  | nil => simp [union]
  | cons v vs ih =>
    have h : s.union (v :: vs) = (s.insert v).union vs := rfl
    rw [h, ih, mem_insert, List.mem_cons]
    constructor
    · rintro ((h | h) | h)
      · exact Or.inr (Or.inl h)
      · exact Or.inl h
      · exact Or.inr (Or.inr h)
    · rintro (h | h | h)
      · exact Or.inl (Or.inr h)
      · exact Or.inl (Or.inl h)
      · exact Or.inr h

/-- The set of the members of a list. -/
def ofList (vs : List VarId) : VarSet := empty.union vs

@[simp] theorem mem_ofList {vs : List VarId} {w : VarId} : w ∈ ofList vs ↔ w ∈ vs := by
  simp [ofList]

end VarSet

end InstanceSearch
