/-
  Type expressions.

  THE TYPE
    `Ty` is a term algebra: a variable, or a `Former` applied to a list of arguments.  Constructed
    types, tuples and functions differ in the former only, so that everything that walks over types
    (substitution, unification, collecting variables) has two cases.  A function keeps its result as
    the last argument: `arrow [a, b, r]` is `(a, b) -> r`.

  NAMES ARE LABELS
    A variable is its number.  It may carry a name, which is shown and never compared: `==` on types
    is `same`, and `same_iff` says that this is equality once the names are taken off (`anon`).

  NUMBERS ARE UNBOUNDED
    Any natural number is a variable, so there is always a next one.  With numbers of 32 bits all of this
    holds as long as no counter passes the largest of them; what happens then is left out.

  ONE VIEW FOR EACH WALK
    The recursions below come in pairs, one for a type and one for a list of types; the lemmas
    `replaceVars_app`, `vars_app`, … restate each pair by `List.map` or `List.flatMap`, and `induction`
    gives the matching induction principle.  After that nobody unfolds the pair.
-/

namespace InstanceSearch

/-- A variable is a number, and numbers are unbounded. -/
abbrev VarId := Nat

/-- What a type expression is built with, apart from its arguments. -/
inductive Former where
  /-- a named constructor, such as `Int` or `List` -/
  | con (name : String)
  | tuple
  /-- the function type whose last argument is the result -/
  | arrow
deriving DecidableEq, Repr, Inhabited

/-- A variable with an optional label, or a former with its arguments. -/
inductive Ty where
  | var (id : VarId) (name : Option String)
  | app (former : Former) (args : List Ty)
deriving Repr, Inhabited

namespace Ty

/-! ## Building and taking apart -/

/-- `con name args` = the constructor `name` at `args`. -/
def con (name : String) (args : List Ty) : Ty := .app (.con name) args

def tuple (members : List Ty) : Ty := .app .tuple members

/-- `arrow params result` = the function type from `params` to `result`. -/
def arrow (params : List Ty) (result : Ty) : Ty := .app .arrow (params ++ [result])

/-- The variable that a type is, if it is a bare variable. -/
def asVar? : Ty → Option VarId
  | .var v _ => some v
  | .app .. => none

theorem asVar?_eq_some_iff {t : Ty} {v : VarId} : t.asVar? = some v ↔ ∃ n, t = .var v n := by
  cases t <;> simp [asVar?, eq_comm]

mutual
/-- **Induction over types**: a property holds of all types if it holds of variables, and of an
    application whenever it holds of every argument. -/
@[elab_as_elim]
theorem induction {P : Ty → Prop} (var : ∀ v n, P (.var v n))
    (app : ∀ f args, (∀ t ∈ args, P t) → P (.app f args)) : ∀ t, P t
  | .var v n => var v n
  | .app f args => app f args (inductionAll var app args)

/-- The same for all members of a list. -/
theorem inductionAll {P : Ty → Prop} (var : ∀ v n, P (.var v n))
    (app : ∀ f args, (∀ t ∈ args, P t) → P (.app f args)) : ∀ ts : List Ty, ∀ t ∈ ts, P t
  | [], _, h => nomatch h
  | t :: ts, u, h => by
    rcases List.mem_cons.1 h with h | h
    · exact h ▸ induction var app t
    · exact inductionAll var app ts u h
end

/-! ## Replacing variables -/

mutual
/-- `replaceVars f t` = `t` with `f` in the place of every variable. -/
def replaceVars (f : VarId → Option String → Ty) : Ty → Ty
  | .var v n => f v n
  | .app g args => .app g (replaceVarsAll f args)

/-- `replaceVars` on every member of a list. -/
def replaceVarsAll (f : VarId → Option String → Ty) : List Ty → List Ty
  | [] => []
  | t :: ts => replaceVars f t :: replaceVarsAll f ts
end

@[simp] theorem replaceVarsAll_eq_map (f : VarId → Option String → Ty) (ts : List Ty) :
    replaceVarsAll f ts = ts.map (replaceVars f) := by
  induction ts with
  | nil => rfl
  | cons t ts ih => simp [replaceVarsAll, ih]

@[simp] theorem replaceVars_var (f : VarId → Option String → Ty) (v : VarId) (n : Option String) :
    (Ty.var v n).replaceVars f = f v n := rfl

@[simp] theorem replaceVars_app (f : VarId → Option String → Ty) (g : Former) (args : List Ty) :
    (Ty.app g args).replaceVars f = .app g (args.map (replaceVars f)) := by
  rw [replaceVars, replaceVarsAll_eq_map]

/-- Putting every variable in its own place changes nothing. -/
@[simp] theorem replaceVars_id (t : Ty) : t.replaceVars .var = t := by
  induction t using induction with
  | var v n => rfl
  | app f args ih => simpa using List.map_congr_left ih

/-- Replacing twice is replacing once by the replaced replacements. -/
theorem replaceVars_replaceVars (f g : VarId → Option String → Ty) (t : Ty) :
    (t.replaceVars f).replaceVars g = t.replaceVars fun v n => (f v n).replaceVars g := by
  induction t using induction with
  | var v n => rfl
  | app h args ih => simpa using ih

/-! ## The variables of a type -/

mutual
/-- The variables of a type from left to right, each as often as it occurs. -/
def vars : Ty → List VarId
  | .var v _ => [v]
  | .app _ args => varsAll args

/-- The variables of a list of types from left to right. -/
def varsAll : List Ty → List VarId
  | [] => []
  | t :: ts => vars t ++ varsAll ts
end

theorem varsAll_eq_flatMap (ts : List Ty) : varsAll ts = ts.flatMap vars := by
  induction ts with
  | nil => rfl
  | cons t ts ih => simp [varsAll, ih]

@[simp] theorem vars_var (v : VarId) (n : Option String) : (Ty.var v n).vars = [v] := rfl

@[simp] theorem vars_app (f : Former) (args : List Ty) :
    (Ty.app f args).vars = args.flatMap vars := by
  rw [vars, varsAll_eq_flatMap]

@[simp] theorem varsAll_nil : varsAll [] = [] := rfl

@[simp] theorem varsAll_cons (t : Ty) (ts : List Ty) : varsAll (t :: ts) = t.vars ++ varsAll ts := rfl

@[simp] theorem varsAll_append (ts us : List Ty) : varsAll (ts ++ us) = varsAll ts ++ varsAll us := by
  simp [varsAll_eq_flatMap]

theorem mem_varsAll {v : VarId} {ts : List Ty} : v ∈ varsAll ts ↔ ∃ t ∈ ts, v ∈ t.vars := by
  simp [varsAll_eq_flatMap]

/-- `t.occurs v`: the variable `v` stands somewhere in `t`. -/
def occurs (v : VarId) (t : Ty) : Bool := t.vars.contains v

@[simp] theorem occurs_iff {v : VarId} {t : Ty} : t.occurs v = true ↔ v ∈ t.vars := by
  simp [occurs]

/-- The result depends on what is put for the variables of the type only. -/
theorem replaceVars_congr {f g : VarId → Option String → Ty} {t : Ty}
    (h : ∀ v ∈ t.vars, ∀ n, f v n = g v n) : t.replaceVars f = t.replaceVars g := by
  induction t using induction with
  | var v n => exact h v (by simp) n
  | app k args ih =>
    simp only [replaceVars_app, app.injEq, true_and]
    refine List.map_congr_left fun t ht => ih t ht fun v hv n => h v ?_ n
    exact vars_app k args ▸ List.mem_flatMap.2 ⟨t, ht, hv⟩

/-- The variables after a replacement are those of what was put in. -/
theorem vars_replaceVars {f : VarId → Option String → Ty} {t : Ty} {v : VarId} :
    v ∈ (t.replaceVars f).vars → ∃ w ∈ t.vars, ∃ n, v ∈ (f w n).vars := by
  induction t using induction with
  | var w n => exact fun h => ⟨w, by simp, n, h⟩
  | app k args ih =>
    simp only [replaceVars_app, vars_app, List.mem_flatMap, List.mem_map]
    rintro ⟨u, ⟨t, ht, rfl⟩, hv⟩
    obtain ⟨w, hw, n, hn⟩ := ih t ht hv
    exact ⟨w, ⟨t, ht, hw⟩, n, hn⟩

/-! ## Comparing without names -/

/-- `anon t` = `t` with the labels of its variables taken off. -/
def anon (t : Ty) : Ty := t.replaceVars fun v _ => .var v none

@[simp] theorem anon_var (v : VarId) (n : Option String) : (Ty.var v n).anon = .var v none := rfl

@[simp] theorem anon_app (f : Former) (args : List Ty) :
    (Ty.app f args).anon = .app f (args.map anon) := by
  simp [anon]

mutual
/-- `same a b`: the two types are equal, the labels of their variables aside. -/
def same : Ty → Ty → Bool
  | .var v _, .var w _ => v == w
  | .app f as, .app g bs => f == g && sameAll as bs
  | .var .., .app .. => false
  | .app .., .var .. => false

/-- `same` member by member. -/
def sameAll : List Ty → List Ty → Bool
  | [], [] => true
  | a :: as, b :: bs => same a b && sameAll as bs
  | [], _ :: _ => false
  | _ :: _, [] => false
end

instance : BEq Ty := ⟨same⟩

mutual
/-- **Equality of types is equality without labels.** -/
theorem same_iff : ∀ a b : Ty, same a b = true ↔ a.anon = b.anon
  | .var v n, .var w m => by simp [same]
  | .app f as, .app g bs => by simp [same, sameAll_iff as bs]
  | .var .., .app .. => by simp [same]
  | .app .., .var .. => by simp [same]

theorem sameAll_iff : ∀ as bs : List Ty, sameAll as bs = true ↔ as.map anon = bs.map anon
  | [], [] => by simp [sameAll]
  | a :: as, b :: bs => by simp [sameAll, same_iff a b, sameAll_iff as bs]
  | [], _ :: _ => by simp [sameAll]
  | _ :: _, [] => by simp [sameAll]
end

@[simp] theorem beq_iff {a b : Ty} : (a == b) = true ↔ a.anon = b.anon := same_iff a b

instance : EquivBEq Ty where
  rfl := by simp
  symm h := by rw [beq_iff] at h ⊢; exact h.symm
  trans h h' := by simp only [beq_iff] at h h' ⊢; exact h.trans h'

/-- Lists of types are compared member by member. -/
@[simp] theorem beq_list_iff {as bs : List Ty} : (as == bs) = true ↔ as.map anon = bs.map anon := by
  induction as generalizing bs with
  | nil => cases bs <;> simp
  | cons a as ih => cases bs <;> simp [ih]

/-- Equal types have the same variables in the same places. -/
theorem vars_anon (t : Ty) : t.anon.vars = t.vars := by
  induction t using induction with
  | var v n => rfl
  | app f args ih =>
    simp only [anon_app, vars_app, List.flatMap_map]
    rw [List.flatMap, List.flatMap, List.map_congr_left ih]

/-! ## Deciding plain equality, labels included -/

mutual
def decEq : (a b : Ty) → Decidable (a = b)
  | .var v n, .var w m =>
    if h : v = w ∧ n = m then isTrue (by simp [h]) else isFalse (by simpa using h)
  | .app f as, .app g bs =>
    match decEqAll as bs with
    | isTrue h => if h' : f = g then isTrue (by simp [h, h']) else isFalse (by simp [h'])
    | isFalse h => isFalse (by simp [h])
  | .var .., .app .. => isFalse (by simp)
  | .app .., .var .. => isFalse (by simp)

def decEqAll : (as bs : List Ty) → Decidable (as = bs)
  | [], [] => isTrue rfl
  | a :: as, b :: bs =>
    match decEq a b, decEqAll as bs with
    | isTrue h, isTrue h' => isTrue (by simp [h, h'])
    | isFalse h, _ => isFalse (by simp [h])
    | _, isFalse h => isFalse (by simp [h])
  | [], _ :: _ => isFalse (by simp)
  | _ :: _, [] => isFalse (by simp)
end

instance : DecidableEq Ty := decEq

end Ty

end InstanceSearch
