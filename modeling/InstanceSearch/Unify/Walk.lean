/-
  Walking over two types side by side.

  THE PROGRAM
    `walk frozen a b` goes down two types from left to right as long as their formers agree, and stops
    at the first place where they differ.  Either there is none (`equal`), or nothing can be done about
    it (`clash`), or one side is a variable that may be bound (`binds v t rest`): then `v := t` makes
    this place agree, and `rest` are the equations that were not looked at yet.

  WHAT IT KEEPS (`Walk.Within`, proved in `walk_within` and `walkEquations_within`)
    (1) the binding and the rest mention variables of the two types only;
    (2) the variable does not occur in the type that it is bound to;
    (3) the variable is not frozen.
    (1) and (2) are why repeated walking ends: each binding removes one variable for good.
-/
import InstanceSearch.VarSet
import InstanceSearch.Unify.Error

namespace InstanceSearch.Unify

/-- A provided type that is to become equal to a required one. -/
abbrev Equation := Ty × Ty

/-- The variables of both sides of an equation. -/
def Equation.vars (e : Equation) : List VarId := e.1.vars ++ e.2.vars

/-- The variables of a list of equations. -/
def equationVars (eqs : List Equation) : List VarId := eqs.flatMap Equation.vars

/-- Where a walk over two types ends. -/
inductive Walk where
  /-- the types are equal -/
  | equal
  /-- the types cannot be made equal -/
  | clash (e : UnifyError)
  /-- the first difference goes away with `v := t`; the equations after it remain -/
  | binds (v : VarId) (t : Ty) (rest : List Equation)

/-! ## Two formers -/

/-- `clash? f as g bs` = why `f` at `as` can never equal `g` at `bs`, going by the formers and the
    numbers of arguments. -/
def clash? (f : Former) (as : List Ty) (g : Former) (bs : List Ty) : Option UnifyError :=
  if f = g then
    if as.length = bs.length then none
    else match f with
      | .con name => some (.arity name bs.length as.length)
      | .tuple | .arrow => some (.mismatch (.app g bs) (.app f as))
  else some (.mismatch (.app g bs) (.app f as))

theorem clash?_eq_none_iff {f g : Former} {as bs : List Ty} :
    clash? f as g bs = none ↔ f = g ∧ as.length = bs.length := by
  unfold clash?
  split
  · split
    · simp [*]
    · cases f <;> simp [*]
  · simp [*]

/-! ## A variable -/

/-- `bindVar v name t` = the binding `v := t`, unless `t` contains `v`. -/
def bindVar (v : VarId) (name : Option String) (t : Ty) : Walk :=
  if t.occurs v then .clash (.occurs (.var v name) t) else .binds v t []

/-! ## The walk -/

mutual
/-- The walk over a provided and a required type.  Of two variables the provided one is bound if it
    may be, else the required one. -/
def walk (frozen : VarSet) : Ty → Ty → Walk
  | .var v n, .var w m =>
    if v = w then .equal
    else if v ∉ frozen then bindVar v n (.var w m)
    else if w ∉ frozen then bindVar w m (.var v n)
    else .clash (.capture (.var v n) (.var w m))
  | .var v n, .app g bs =>
    if v ∉ frozen then bindVar v n (.app g bs) else .clash (.capture (.var v n) (.app g bs))
  | .app f as, .var w m =>
    if w ∉ frozen then bindVar w m (.app f as) else .clash (.capture (.var w m) (.app f as))
  | .app f as, .app g bs =>
    match clash? f as g bs with
    | some e => .clash e
    | none => walkAll frozen as bs

/-- The walk over two lists of types, member by member. -/
def walkAll (frozen : VarSet) : List Ty → List Ty → Walk
  | [], _ => .equal
  | _ :: _, [] => .equal
  | a :: as, b :: bs =>
    match walk frozen a b with
    | .equal => walkAll frozen as bs
    | .clash e => .clash e
    | .binds v t rest => .binds v t (rest ++ as.zip bs)
end

/-- The walk over a list of equations. -/
def walkEquations (frozen : VarSet) : List Equation → Walk
  | [] => .equal
  | (a, b) :: eqs =>
    match walk frozen a b with
    | .equal => walkEquations frozen eqs
    | .clash e => .clash e
    | .binds v t rest => .binds v t (rest ++ eqs)

/-- Walking over two lists is walking over their members paired up. -/
theorem walkAll_eq (frozen : VarSet) (as bs : List Ty) :
    walkAll frozen as bs = walkEquations frozen (as.zip bs) := by
  induction as generalizing bs with
  | nil => rw [walkAll]; rfl
  | cons a as ih =>
    cases bs with
    | nil => rw [walkAll]; rfl
    | cons b bs => rw [walkAll, List.zip_cons_cons, walkEquations, ih]

/-! ## What a walk keeps -/

/-- What one walk over types with the variables `vs` keeps: its binding and its rest stay within `vs`,
    and the variable that it binds is neither frozen nor part of the type that it is bound to. -/
structure Walk.Within (frozen : VarSet) (vs : List VarId) (v : VarId) (t : Ty)
    (rest : List Equation) : Prop where
  var_mem : v ∈ vs
  image_subset : ∀ w ∈ t.vars, w ∈ vs
  rest_subset : ∀ w ∈ equationVars rest, w ∈ vs
  not_occurs : v ∉ t.vars
  not_frozen : v ∉ frozen

theorem Walk.Within.mono {frozen : VarSet} {us vs : List VarId} {v : VarId} {t : Ty}
    {rest more : List Equation} (h : Walk.Within frozen us v t rest)
    (hv : ∀ w ∈ us, w ∈ vs) (hm : ∀ w ∈ equationVars more, w ∈ vs) :
    Walk.Within frozen vs v t (rest ++ more) where
  var_mem := hv v h.var_mem
  image_subset w hw := hv w (h.image_subset w hw)
  rest_subset w hw := by
    rw [equationVars, List.flatMap_append, List.mem_append] at hw
    rcases hw with hw | hw
    · exact hv w (h.rest_subset w hw)
    · exact hm w hw
  not_occurs := h.not_occurs
  not_frozen := h.not_frozen

theorem bindVar_within {frozen : VarSet} {v w : VarId} {name : Option String} {t u : Ty}
    {rest : List Equation} (hf : v ∉ frozen) (h : bindVar v name t = .binds w u rest) :
    Walk.Within frozen (v :: t.vars) w u rest := by
  unfold bindVar at h
  split at h
  · exact nomatch h
  · rename_i ho
    injection h with h₁ h₂ h₃
    subst h₁ h₂ h₃
    exact ⟨by simp, fun w hw => by simp [hw], by simp [equationVars], by simpa using ho, hf⟩

/-- The variables of paired lists are variables of the lists. -/
theorem equationVars_zip {as bs : List Ty} {w : VarId} (h : w ∈ equationVars (as.zip bs)) :
    w ∈ Ty.varsAll as ++ Ty.varsAll bs := by
  simp only [equationVars, List.mem_flatMap, Equation.vars, List.mem_append] at h
  obtain ⟨⟨a, b⟩, he, hw | hw⟩ := h
  · exact List.mem_append.2 (Or.inl (Ty.mem_varsAll.2 ⟨a, (List.of_mem_zip he).1, hw⟩))
  · exact List.mem_append.2 (Or.inr (Ty.mem_varsAll.2 ⟨b, (List.of_mem_zip he).2, hw⟩))

mutual
/-- **A walk stays within the variables of its two types**, and binds what may be bound. -/
theorem walk_within (frozen : VarSet) : ∀ (a b : Ty) (v : VarId) (t : Ty) (rest : List Equation),
    walk frozen a b = .binds v t rest → Walk.Within frozen (a.vars ++ b.vars) v t rest
  | .var x n, .var y m, v, t, rest, h => by
    rw [walk] at h
    split at h
    · exact nomatch h
    · split at h
      · rename_i hx
        exact (List.append_nil rest) ▸ (bindVar_within hx h).mono (by simp) (by simp [equationVars])
      · split at h
        · rename_i hy
          refine (List.append_nil rest) ▸ (bindVar_within hy h).mono ?_ (by simp [equationVars])
          intro w hw
          simpa [or_comm] using hw
        · exact nomatch h
  | .var x n, .app g bs, v, t, rest, h => by
    rw [walk] at h
    split at h
    · rename_i hx
      exact (List.append_nil rest) ▸ (bindVar_within hx h).mono (by simp) (by simp [equationVars])
    · exact nomatch h
  | .app f as, .var y m, v, t, rest, h => by
    rw [walk] at h
    split at h
    · rename_i hy
      refine (List.append_nil rest) ▸ (bindVar_within hy h).mono ?_ (by simp [equationVars])
      intro w hw
      simpa [or_comm] using hw
    · exact nomatch h
  | .app f as, .app g bs, v, t, rest, h => by
    rw [walk] at h
    split at h
    · exact nomatch h
    · exact walkAll_within frozen as bs v t rest h

theorem walkAll_within (frozen : VarSet) : ∀ (as bs : List Ty) (v : VarId) (t : Ty)
    (rest : List Equation), walkAll frozen as bs = .binds v t rest →
      Walk.Within frozen (Ty.varsAll as ++ Ty.varsAll bs) v t rest
  | [], _, v, t, rest, h => by
    rw [walkAll] at h
    exact nomatch h
  | _ :: _, [], v, t, rest, h => by
    rw [walkAll] at h
    exact nomatch h
  | a :: as, b :: bs, v, t, rest, h => by
    rw [walkAll] at h
    split at h
    · have hw := walkAll_within frozen as bs v t rest h
      refine (List.append_nil rest) ▸ hw.mono ?_ (by simp [equationVars])
      intro w
      simp only [Ty.varsAll_cons, List.mem_append]
      rintro (h | h) <;> simp [h]
    · exact nomatch h
    · rename_i v' t' rest' hab
      injection h with h₁ h₂ h₃
      subst h₁ h₂ h₃
      refine (walk_within frozen a b _ _ _ hab).mono ?_ ?_
      · intro w
        simp only [Ty.varsAll_cons, List.mem_append]
        rintro (h | h) <;> simp [h]
      · intro w hw
        have := equationVars_zip hw
        simp only [Ty.varsAll_cons, List.mem_append] at this ⊢
        rcases this with h | h <;> simp [h]
end

/-- The same for a list of equations. -/
theorem walkEquations_within {frozen : VarSet} {eqs : List Equation} {v : VarId} {t : Ty}
    {rest : List Equation} (h : walkEquations frozen eqs = .binds v t rest) :
    Walk.Within frozen (equationVars eqs) v t rest := by
  induction eqs with
  | nil => exact nomatch h
  | cons e eqs ih =>
    obtain ⟨a, b⟩ := e
    have htail : ∀ w ∈ equationVars eqs, w ∈ equationVars ((a, b) :: eqs) :=
      fun w hw => List.mem_append.2 (Or.inr hw)
    rw [walkEquations] at h
    split at h
    · exact (List.append_nil rest) ▸ (ih h).mono htail (by simp [equationVars])
    · exact nomatch h
    · rename_i v' t' rest' hab
      injection h with h₁ h₂ h₃
      subst h₁ h₂ h₃
      exact (walk_within frozen a b _ _ _ hab).mono
        (fun w hw => List.mem_append.2 (Or.inl hw)) htail

end InstanceSearch.Unify
