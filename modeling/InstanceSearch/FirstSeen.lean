/-
  Lists without repetition, in order of first appearance.

  Much of the search gathers things along a walk: variables from left to right, capabilities from
  parent to parent, imports as they are declared.  Each time the first occurrence decides the place
  and a later one is ignored.  Equality is that of `==`, which on type expressions forgets the names
  of variables; so "the first occurrence" also decides which spelling is kept.

    * `add xs x`       appends `x` unless something `==` to it is present;
    * `addAll xs ys`   adds the members of `ys` one after the other;
    * `ofList ys`      starts from nothing.
-/

namespace InstanceSearch.FirstSeen

variable {α : Type} [BEq α]

/-- `add xs x` = `xs` with `x` at the end, or `xs` itself where an equal element is present. -/
def add (xs : List α) (x : α) : List α :=
  if xs.contains x then xs else xs ++ [x]

/-- `addAll xs ys` = `xs` followed by the members of `ys` that are new, each at its first place. -/
def addAll (xs ys : List α) : List α :=
  ys.foldl add xs

/-- `ofList ys` = the first occurrences in `ys`. -/
def ofList (ys : List α) : List α :=
  addAll [] ys

@[simp] theorem addAll_nil (xs : List α) : addAll xs [] = xs := rfl

@[simp] theorem addAll_cons (xs : List α) (y : α) (ys : List α) :
    addAll xs (y :: ys) = addAll (add xs y) ys := rfl

/-- Adding two lists in turn is adding their concatenation. -/
theorem addAll_append (xs ys zs : List α) : addAll xs (ys ++ zs) = addAll (addAll xs ys) zs := by
  simp [addAll, List.foldl_append]

/-! ## Membership, up to equality -/

/-- Nothing is invented. -/
theorem mem_of_mem_addAll {xs ys : List α} {x : α} (h : x ∈ addAll xs ys) : x ∈ xs ∨ x ∈ ys := by
  induction ys generalizing xs with
  | nil => exact Or.inl h
  | cons y ys ih =>
    rcases ih h with h | h
    · unfold add at h
      split at h
      · exact Or.inl h
      · rcases List.mem_append.1 h with h | h
        · exact Or.inl h
        · exact Or.inr (by simp [List.mem_singleton.1 h])
    · exact Or.inr (List.mem_cons_of_mem _ h)

theorem mem_of_mem_ofList {ys : List α} {x : α} (h : x ∈ ofList ys) : x ∈ ys := by
  rcases mem_of_mem_addAll h with h | h
  · exact nomatch h
  · exact h

theorem mem_addAll_of_mem {xs ys : List α} {x : α} (h : x ∈ xs) : x ∈ addAll xs ys := by
  induction ys generalizing xs with
  | nil => exact h
  | cons y ys ih =>
    apply ih
    unfold add
    split
    · exact h
    · exact List.mem_append.2 (Or.inl h)

/-- Additions come after what was there. -/
theorem isPrefix_addAll (xs ys : List α) : xs <+: addAll xs ys := by
  induction ys generalizing xs with
  | nil => exact List.prefix_refl xs
  | cons y ys ih =>
    refine List.IsPrefix.trans ?_ (ih (add xs y))
    unfold add
    split
    · exact List.prefix_refl xs
    · exact List.prefix_append xs [y]

/-- Of whatever is added, something equal is there. -/
theorem exists_mem_addAll [ReflBEq α] {xs ys : List α} {y : α} (h : y ∈ ys) :
    ∃ x ∈ addAll xs ys, y == x := by
  induction ys generalizing xs with
  | nil => exact nomatch h
  | cons z ys ih =>
    rcases List.mem_cons.1 h with h | h
    · subst h
      have hadd : ∃ x ∈ add xs y, y == x := by
        unfold add
        split
        · rename_i hc
          exact List.contains_iff_exists_mem_beq.1 hc
        · exact ⟨y, by simp, BEq.refl y⟩
      obtain ⟨x, hx, heq⟩ := hadd
      have hx' : x ∈ addAll (add xs y) ys := mem_addAll_of_mem hx
      exact ⟨x, hx', heq⟩
    · exact ih h

theorem exists_mem_ofList [ReflBEq α] {ys : List α} {y : α} (h : y ∈ ys) :
    ∃ x ∈ ofList ys, y == x := exists_mem_addAll h

/-- New elements are added at their first occurrences. -/
theorem addAll_eq_append (xs ys : List α) :
    addAll xs ys = xs ++ (ys.filter fun y => !xs.contains y).eraseDups := by
  induction ys generalizing xs with
  | nil => simp
  | cons y ys ih =>
    rw [addAll_cons, ih, add]
    by_cases hy : xs.contains y = true
    · rw [if_pos hy, List.filter_cons_of_neg (by simp [hy])]
    · have hmore : ∀ z, (!(xs ++ [y]).contains z) = (!z == y && !xs.contains z) := by
        intro z
        simp [List.contains_append, Bool.or_comm, Bool.not_or]
      rw [if_neg hy, List.filter_cons_of_pos (by simp [hy]), List.eraseDups_cons, List.filter_filter,
        List.append_assoc, List.singleton_append]
      simp only [hmore]

/-- **The first occurrences are what is left when repetitions are erased.** -/
theorem ofList_eq_eraseDups (ys : List α) : ofList ys = ys.eraseDups := by
  have hall : (ys.filter fun y => !List.contains [] y) = ys := List.filter_eq_self.2 fun _ _ => rfl
  rw [ofList, addAll_eq_append, List.nil_append, hall]

/-! ## Under a function that keeps and reflects equality -/

section Map

variable {β : Type} [BEq β] {f : α → β} (h : ∀ x y, (f x == f y) = (x == y))
include h

theorem contains_map (xs : List α) (x : α) : (xs.map f).contains (f x) = xs.contains x := by
  induction xs with
  | nil => rfl
  | cons y xs ih => rw [List.map_cons, List.contains_cons, List.contains_cons, h, ih]

theorem addAll_map (xs ys : List α) : addAll (xs.map f) (ys.map f) = (addAll xs ys).map f := by
  induction ys generalizing xs with
  | nil => rfl
  | cons y ys ih =>
    have hadd : add (xs.map f) (f y) = (add xs y).map f := by
      rw [add, add, contains_map h]
      split
      · rfl
      · rw [List.map_append, List.map_singleton]
    rw [List.map_cons, addAll_cons, addAll_cons, hadd, ih]

/-- The first occurrences are those of the same places. -/
theorem ofList_map (ys : List α) : ofList (ys.map f) = (ofList ys).map f := addAll_map h [] ys

end Map

/-! ## Membership, for an equality that is the real one -/

variable [LawfulBEq α]

/-- Adding one element adds that element and nothing else. -/
@[simp] theorem mem_add {xs : List α} {x y : α} : y ∈ add xs x ↔ y ∈ xs ∨ y = x := by
  unfold add
  split
  · rename_i h
    constructor
    · exact Or.inl
    · rintro (h' | rfl)
      · exact h'
      · simpa using h
  · simp

/-- **Nothing is lost and nothing invented**: the result holds the members of both lists. -/
@[simp] theorem mem_addAll {xs ys : List α} {y : α} : y ∈ addAll xs ys ↔ y ∈ xs ∨ y ∈ ys := by
  induction ys generalizing xs with
  | nil => simp
  | cons z ys ih => simp [ih, or_assoc]

@[simp] theorem mem_ofList {ys : List α} {y : α} : y ∈ ofList ys ↔ y ∈ ys := by
  simp [ofList]

/-- Adding keeps a list free of repetitions. -/
theorem nodup_add {xs : List α} {x : α} (h : xs.Nodup) : (add xs x).Nodup := by
  unfold add
  split
  · exact h
  · rename_i hx
    simp only [List.contains_eq_mem, decide_eq_true_eq] at hx
    exact List.nodup_append.2 ⟨h, by simp, fun a ha b hb => by
      rintro rfl
      exact hx (by simpa [List.mem_singleton.1 hb] using ha)⟩

theorem nodup_addAll {xs ys : List α} (h : xs.Nodup) : (addAll xs ys).Nodup := by
  induction ys generalizing xs with
  | nil => exact h
  | cons y ys ih => exact ih (nodup_add h)

/-- First occurrences hold no element twice. -/
theorem nodup_ofList (ys : List α) : (ofList ys).Nodup :=
  nodup_addAll List.nodup_nil

end InstanceSearch.FirstSeen
