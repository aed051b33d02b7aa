/-
  Renaming what a search works with.

  Parameters, matches, survivors, requests and errors are records over types and substitutions, and are
  renamed part by part.  Three things have no variables of the search in them and stay as they are: a
  CANDIDATE, whose variables are those of its declaration; the variable in an ambient WITNESS, which is
  the parameter of an enclosing scope; and the PATH of a cycle, which is made of texts.

  `mapVars_mapVars` puts two renamings one after the other.
-/
import InstanceSearch.Proofs.Renaming.Terms
import InstanceSearch.Proofs.Search.Rounds

namespace InstanceSearch

/-- A list is left as it is where each of its members is. -/
theorem map_eq_self {α : Type} {f : α → α} {xs : List α} (h : ∀ x ∈ xs, f x = x) : xs.map f = xs :=
  (List.map_congr_left h).trans (List.map_id' xs)

variable (π ρ : Renaming)

/-! ## Parameters -/

namespace Param

/-- The variables asked for, renamed. -/
def Kind.mapVars : Kind → Kind
  | .ordinary => .ordinary
  | .witness cs => .witness (cs.map (Capability.mapVars π))

/-- `p.mapVars π` = `p` with its variable and those of its constraints renamed. -/
def mapVars (p : Param) : Param := ⟨π p.id, p.name, p.kind.mapVars π⟩

@[simp] theorem id_mapVars (p : Param) : (p.mapVars π).id = π p.id := rfl

@[simp] theorem asTy_mapVars (p : Param) : (p.mapVars π).asTy = p.asTy.mapVars π := rfl

@[simp] theorem isWitness_mapVars (p : Param) : (p.mapVars π).isWitness = p.isWitness := by
  unfold isWitness mapVars
  cases p.kind <;> rfl

@[simp] theorem constraints_mapVars (p : Param) :
    (p.mapVars π).constraints = p.constraints.map (Capability.mapVars π) := by
  unfold constraints mapVars
  cases p.kind <;> rfl

theorem mapVars_mapVars (p : Param) : (p.mapVars π).mapVars ρ = p.mapVars (π.trans ρ) := by
  obtain ⟨id, name, kind⟩ := p
  cases kind with
  | ordinary => rfl
  | witness cs => simp [mapVars, Kind.mapVars, Function.comp_def, Capability.mapVars_mapVars]

/-- A renaming that fixes the variables of a parameter changes nothing about it. -/
theorem mapVars_of_fixed {π : Renaming} {p : Param} (h : ∀ v ∈ p.vars, π v = v) : p.mapVars π = p := by
  obtain ⟨id, name, kind⟩ := p
  have hid : π id = id := h id List.mem_cons_self
  cases kind with
  | ordinary => rw [mapVars, Kind.mapVars, hid]
  | witness cs =>
    have hcs : cs.map (Capability.mapVars π) = cs := by
      refine map_eq_self fun c hc => Capability.mapVars_of_fixed fun v hv => ?_
      exact h v (List.mem_cons_of_mem _ (List.mem_flatMap.2 ⟨c, hc, hv⟩))
    rw [mapVars, Kind.mapVars, hid, hcs]

end Param

/-! ## Witnesses -/

mutual
/-- The types in a witness term, renamed. -/
def Witness.mapVars (π : Renaming) : Witness → Witness
  | .ambient var name => .ambient var name
  | .apply id name args => .apply id name (Argument.mapVarsAll π args)

def Argument.mapVars (π : Renaming) : Argument → Argument
  | .type t => .type (t.mapVars π)
  | .witness w => .witness (w.mapVars π)

def Argument.mapVarsAll (π : Renaming) : List Argument → List Argument
  | [] => []
  | a :: as => a.mapVars π :: Argument.mapVarsAll π as
end

@[simp] theorem Argument.mapVarsAll_eq_map (as : List Argument) :
    Argument.mapVarsAll π as = as.map (Argument.mapVars π) := by
  induction as with
  | nil => rfl
  | cons a as ih => rw [Argument.mapVarsAll, List.map_cons, ih]

mutual
theorem Witness.mapVars_mapVars : ∀ w : Witness, (w.mapVars π).mapVars ρ = w.mapVars (π.trans ρ)
  | .ambient var name => rfl
  | .apply id name args => by
    rw [Witness.mapVars, Witness.mapVars, Witness.mapVars, Argument.mapVarsAll_mapVarsAll args]

theorem Argument.mapVars_mapVars : ∀ a : Argument, (a.mapVars π).mapVars ρ = a.mapVars (π.trans ρ)
  | .type t => by rw [Argument.mapVars, Argument.mapVars, Argument.mapVars, Ty.mapVars_mapVars]
  | .witness w => by
    rw [Argument.mapVars, Argument.mapVars, Argument.mapVars, Witness.mapVars_mapVars w]

theorem Argument.mapVarsAll_mapVarsAll : ∀ as : List Argument,
    Argument.mapVarsAll ρ (Argument.mapVarsAll π as) = Argument.mapVarsAll (π.trans ρ) as
  | [] => rfl
  | a :: as => by
    rw [Argument.mapVarsAll, Argument.mapVarsAll, Argument.mapVarsAll, Argument.mapVars_mapVars a,
      Argument.mapVarsAll_mapVarsAll as]
end

/-! ## Failures -/

/-- What was required, renamed; labels, names and texts stay. -/
def SearchError.mapVars : SearchError → SearchError
  | .noInstance label required rejected =>
    .noInstance label (required.map (Capability.mapVars π)) rejected
  | .ambiguous label required names =>
    .ambiguous label (required.map (Capability.mapVars π)) names
  | .cyclic label path => .cyclic label path
  | .depthLimit label limit => .depthLimit label limit

namespace Search

/-- A rejection, renamed. -/
def Rejection.mapVars : Rejection → Rejection
  | .dependency e => .dependency (e.mapVars π)
  | .unresolved => .unresolved

@[simp] theorem Rejection.isDepthLimit_mapVars (r : Rejection) :
    (r.mapVars π).isDepthLimit = r.isDepthLimit := by
  rcases r with e | _
  · cases e <;> rfl
  · rfl

@[simp] theorem Rejection.cycle?_mapVars (r : Rejection) : (r.mapVars π).cycle? = r.cycle? := by
  rcases r with e | _
  · cases e <;> rfl
  · rfl

/-! ## Matches, survivors, requests and answers -/

/-- A match, renamed; the candidate is the declaration and stays. -/
def Matched.mapVars (m : Matched) : Matched :=
  ⟨m.candidate, m.subst.mapVars π, m.patterns.map (Capability.mapVars π),
    m.params.map (Param.mapVars π)⟩

theorem Matched.mapVars_mapVars (m : Matched) : (m.mapVars π).mapVars ρ = m.mapVars (π.trans ρ) := by
  simp [mapVars, Function.comp_def, Subst.mapVars_mapVars, Capability.mapVars_mapVars,
    Param.mapVars_mapVars]

def Survivor.mapVars (s : Survivor) : Survivor :=
  ⟨s.candidate, s.subst.mapVars π, s.patterns.map (Capability.mapVars π), s.witness.mapVars π⟩

theorem Survivor.mapVars_mapVars (s : Survivor) :
    (s.mapVars π).mapVars ρ = s.mapVars (π.trans ρ) := by
  simp [mapVars, Function.comp_def, Subst.mapVars_mapVars, Capability.mapVars_mapVars,
    Witness.mapVars_mapVars]

def Request.mapVars (r : Request) : Request :=
  ⟨r.label, r.constraints.map (Capability.mapVars π), r.context.mapVars π⟩

def Solved.mapVars (s : Solved) : Solved := ⟨s.witness.mapVars π, s.subst.mapVars π⟩

/-- An outcome, renamed: by `f` what was found, or why nothing was. -/
def mapFound {α : Type} (f : Renaming → α → α) (π : Renaming) :
    Except SearchError α → Except SearchError α
  | .ok x => .ok (f π x)
  | .error e => .error (e.mapVars π)

/-- What a chain of dependencies leaves, renamed. -/
def mapChain (e : Subst × List Witness) : Subst × List Witness :=
  (e.1.mapVars π, e.2.map (Witness.mapVars π))

/-- What becomes of one match, renamed. -/
def mapSurvival : Except Rejection Survivor → Except Rejection Survivor
  | .ok s => .ok (s.mapVars π)
  | .error r => .error (r.mapVars π)

/-- What becomes of all matches, renamed; the names of the rejected ones stay. -/
def mapSurvivals (e : List Survivor × List (String × Rejection)) :
    List Survivor × List (String × Rejection) :=
  (e.1.map (Survivor.mapVars π), e.2.map fun r => (r.1, r.2.mapVars π))

theorem mapSurvivals_addSurvival (name : String) (x : Except Rejection Survivor)
    (rest : List Survivor × List (String × Rejection)) :
    mapSurvivals π (addSurvival name x rest) =
      addSurvival name (mapSurvival π x) (mapSurvivals π rest) := by
  cases x <;> rfl

end Search

end InstanceSearch
