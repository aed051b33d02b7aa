/-
  Taking the names away.

  Type variables may carry a label, and type parameters and instances have names.  They are there to be
  shown.  `x.nameless` is `x` with the empty text in the place of each of them.  The names of concepts,
  constructors, members and scopes say what is meant and stay.

  WHY THE EMPTY TEXT.  The search labels variables with the names of parameters.  With no label at all
  for a variable, but an empty name for a parameter, it would put labels where there were none.  With
  the empty text for both, every operation takes nameless things to nameless things, and what it gives
  is what it gave before, nameless.

  WHAT IS LEFT is everything that equality sees: two types are equal if they are the same nameless
  (`Ty.nameless_eq_iff`), and so are two capabilities.
-/
import InstanceSearch.Proofs.Renaming.Terms
import InstanceSearch.Proofs.Catalog.Labels
import InstanceSearch.Search.Resolve

namespace InstanceSearch

/-! ## Types, capabilities and substitutions -/

/-- `t.nameless` = `t` with the empty label at every variable. -/
def Ty.nameless (t : Ty) : Ty := t.relabel (Equiv.refl VarId) fun _ => some ""

def Capability.nameless (c : Capability) : Capability :=
  c.relabel (Equiv.refl VarId) fun _ => some ""

def Subst.nameless (s : Subst) : Subst := s.relabel (Equiv.refl VarId) fun _ => some ""

namespace Ty

@[simp] theorem nameless_var (v : VarId) (n : Option String) :
    (Ty.var v n).nameless = .var v (some "") := rfl

@[simp] theorem vars_nameless (t : Ty) : t.nameless.vars = t.vars :=
  (vars_relabel _ _ t).trans (List.map_id' t.vars)

@[simp] theorem anon_nameless (t : Ty) : t.nameless.anon = t.anon :=
  (anon_relabel _ _ t).trans (mapVars_refl t.anon)

@[simp] theorem asVar?_nameless (t : Ty) : t.nameless.asVar? = t.asVar? := by
  cases t <;> rfl

/-- **Types are equal if they are the same nameless.** -/
theorem nameless_eq_iff {t u : Ty} : t.nameless = u.nameless ↔ t.anon = u.anon := by
  have hanon : ∀ t : Ty, t.anon.nameless = t.nameless := by
    intro t
    rw [nameless, nameless, relabel, relabel, anon, replaceVars_replaceVars]
    rfl
  constructor
  · intro h
    rw [← anon_nameless t, h, anon_nameless]
  · intro h
    rw [← hanon t, h, hanon]

end Ty

namespace Capability

@[simp] theorem concept_nameless (c : Capability) : c.nameless.concept = c.concept := rfl

@[simp] theorem args_nameless (c : Capability) : c.nameless.args = c.args.map Ty.nameless := rfl

@[simp] theorem vars_nameless (c : Capability) : c.nameless.vars = c.vars :=
  (vars_relabel _ _ c).trans (List.map_id' c.vars)

@[simp] theorem anon_nameless (c : Capability) : c.nameless.anon = c.anon := by
  simp [anon]

/-- Equal lists of capabilities, from lists that are the same nameless. -/
theorem beq_of_nameless {cs ds : List Capability} (h : cs.map nameless = ds.map nameless) :
    (cs == ds) = true := by
  induction cs generalizing ds with
  | nil =>
    rw [List.map_nil, List.nil_eq, List.map_eq_nil_iff] at h
    rw [h]
    rfl
  | cons c cs ih =>
    obtain ⟨d, ds', rfl, hd, hds⟩ := List.map_eq_cons_iff.1 h.symm
    have hfirst : (c == d) = true := by
      rw [beq_iff, ← anon_nameless c, ← hd, anon_nameless]
    rw [List.cons_beq_cons, hfirst, ih hds.symm]
    rfl

end Capability

namespace Subst

@[simp] theorem apply_nameless (s : Subst) (t : Ty) :
    s.nameless.apply t.nameless = (s.apply t).nameless := apply_relabel _ _ s t

@[simp] theorem applyTo_nameless (s : Subst) (c : Capability) :
    s.nameless.applyTo c.nameless = (s.applyTo c).nameless := applyTo_relabel _ _ s c

@[simp] theorem isUnresolved_nameless (s : Subst) (v : VarId) :
    s.nameless.isUnresolved v = s.isUnresolved v := isUnresolved_relabel (Equiv.refl VarId) _ s v

/-- What a bound variable stands for does not depend on the label it is looked up with. -/
theorem apply_nameless_var {s : Subst} {v : VarId} (h : s.isUnresolved v = false) :
    s.nameless.apply (.var v none) = (s.apply (.var v none)).nameless := by
  have hlabel : ∀ {s : Subst} {u : Ty}, s.find? v = some u → ∀ n m,
      s.apply (.var v n) = s.apply (.var v m) := by
    intro s u hu n m
    unfold apply
    cases hsize : s.size with
    | zero =>
      have hnone : s.entries = [] := List.length_eq_zero_iff.1 hsize
      rw [OrderedMap.find?, hnone] at hu
      cases hu
    | succ k => rw [follow, follow, Ty.replaceVars_var, Ty.replaceVars_var, hu]
  cases hv : s.find? v with
  | none =>
    rw [isUnresolved_of_none hv] at h
    cases h
  | some u =>
    have hv' : OrderedMap.find? s.nameless v = some u.nameless := by
      have hfind : OrderedMap.find? s.nameless v = (s.find? v).map Ty.nameless :=
        find?_relabel (Equiv.refl VarId) _ s v
      rw [hfind, hv, Option.map_some]
    rw [hlabel hv' none (some ""), ← Ty.nameless_var v none, apply_nameless]

/-- The variables that are mentioned stay. -/
@[simp] theorem vars_nameless (s : Subst) : s.nameless.vars = s.vars := by
  show (s.entries.map _).flatMap _ = s.entries.flatMap _
  rw [List.flatMap_map]
  congr 1
  funext e
  exact congrArg (e.1 :: ·) e.2.vars_nameless

/-- **Substitutions are equal if they are the same nameless**: they bind the same variables in the same
    order, to equal types. -/
theorem same_of_nameless {s s' : Subst} (h : s.nameless = s'.nameless) :
    s.keys = s'.keys ∧ s.same s' = true := by
  have hentries : s.entries.map (relabelEntry (Equiv.refl VarId) fun _ => some "") =
      s'.entries.map (relabelEntry (Equiv.refl VarId) fun _ => some "") :=
    congrArg OrderedMap.entries h
  have hkeys : s.keys = s'.keys := by
    have hfst := congrArg (List.map Prod.fst) hentries
    rw [List.map_map, List.map_map] at hfst
    exact hfst
  refine ⟨hkeys, ?_⟩
  have hsize : s.size = s'.size := by
    rw [← OrderedMap.length_keys, hkeys, OrderedMap.length_keys]
  unfold OrderedMap.same
  rw [hsize, beq_self_eq_true, Bool.true_and, List.all_eq_true]
  rintro ⟨v, t⟩ he
  have hfind : ∀ s : Subst, OrderedMap.find? s.nameless v = (s.find? v).map Ty.nameless :=
    fun s => find?_relabel (Equiv.refl VarId) _ s v
  have hv := hfind s
  rw [h, hfind, OrderedMap.find?_eq_some_iff.2 he, Option.map_some, Option.map_eq_some_iff] at hv
  obtain ⟨t', ht', heq⟩ := hv
  rw [ht', Option.any_some, Ty.beq_iff]
  exact (Ty.nameless_eq_iff.1 heq).symm

end Subst

/-! ## Parameters -/

namespace Param

def Kind.nameless : Kind → Kind
  | .ordinary => .ordinary
  | .witness cs => .witness (cs.map Capability.nameless)

def nameless (p : Param) : Param := ⟨p.id, "", p.kind.nameless⟩

@[simp] theorem id_nameless (p : Param) : p.nameless.id = p.id := rfl

@[simp] theorem asTy_nameless (p : Param) : p.nameless.asTy = p.asTy.nameless := rfl

@[simp] theorem isWitness_nameless (p : Param) : p.nameless.isWitness = p.isWitness := by
  unfold isWitness nameless
  cases p.kind <;> rfl

@[simp] theorem constraints_nameless (p : Param) :
    p.nameless.constraints = p.constraints.map Capability.nameless := by
  unfold constraints nameless
  cases p.kind <;> rfl

@[simp] theorem vars_nameless (p : Param) : p.nameless.vars = p.vars := by
  simp [vars, List.flatMap_map]

end Param

/-! ## Catalogs -/

/-- A method keeps its name, which says what it is. -/
def Method.nameless (m : Method) : Method :=
  { m with params := m.params.map Ty.nameless, result := m.result.nameless }

def Fragment.nameless : Fragment → Fragment
  | .method m => .method m.nameless
  | .other text => .other text

def Concept.nameless (d : Concept) : Concept :=
  { d with
    params := d.params.map Param.nameless
    parents := d.parents.map Capability.nameless
    fragments := d.fragments.map Fragment.nameless }

def Scope.nameless (s : Scope) : Scope := { s with params := s.params.map Param.nameless }

def Instance.nameless (i : Instance) : Instance :=
  { i with
    name := ""
    params := i.params.map Param.nameless
    provides := i.provides.map Capability.nameless }

def Catalog.nameless (cat : Catalog) : Catalog :=
  { cat with
    concepts := cat.concepts.map Concept.nameless
    scopes := cat.scopes.map Scope.nameless
    instances := cat.instances.map Instance.nameless }

/-! ## Candidates and searches -/

namespace Candidate

def nameless : Candidate → Candidate
  | .ambient p => .ambient p.nameless
  | .declared i => .declared i.nameless

@[simp] theorem key_nameless (c : Candidate) : c.nameless.key = c.key := by
  cases c <;> rfl

@[simp] theorem name_nameless (c : Candidate) : c.nameless.name = "" := by
  cases c <;> rfl

@[simp] theorem isOverlappable_nameless (c : Candidate) :
    c.nameless.isOverlappable = c.isOverlappable := by
  cases c <;> rfl

@[simp] theorem offers_nameless (c : Candidate) :
    c.nameless.offers = c.offers.map Capability.nameless := by
  cases c with
  | ambient p => exact p.constraints_nameless
  | declared i => rfl

@[simp] theorem params_nameless (c : Candidate) :
    c.nameless.params = c.params.map Param.nameless := by
  cases c <;> rfl

end Candidate

def Attempt.nameless (a : Attempt) : Attempt := { a with name := "" }

namespace Search

def nameless (q : Search) : Search :=
  { q with
    catalog := q.catalog.nameless
    candidates := q.candidates.mapValues Candidate.nameless }

def State.nameless (st : State) : State := { st with stack := st.stack.map Attempt.nameless }

def Request.nameless (r : Request) : Request :=
  ⟨"", r.constraints.map Capability.nameless, r.context.nameless⟩

end Search

/-! ## Witnesses and failures -/

mutual
/-- A witness without the names of its parameters and instances; the numbers stay. -/
def Witness.nameless : Witness → Witness
  | .ambient var _ => .ambient var ""
  | .apply id _ args => .apply id "" (Argument.namelessAll args)

def Argument.nameless : Argument → Argument
  | .type t => .type t.nameless
  | .witness w => .witness w.nameless

def Argument.namelessAll : List Argument → List Argument
  | [] => []
  | a :: as => a.nameless :: Argument.namelessAll as
end

@[simp] theorem Argument.namelessAll_eq_map (as : List Argument) :
    Argument.namelessAll as = as.map Argument.nameless := by
  induction as with
  | nil => rfl
  | cons a as ih => rw [Argument.namelessAll, List.map_cons, ih]

/-- A failure without the label of what was asked for and without the names of candidates; the goals on
    the path of a cycle stay. -/
def SearchError.nameless : SearchError → SearchError
  | .noInstance _ required rejected =>
    .noInstance "" (required.map Capability.nameless) (rejected.map fun _ => "")
  | .ambiguous _ required candidates =>
    .ambiguous "" (required.map Capability.nameless) (candidates.map fun _ => "")
  | .cyclic _ path => .cyclic "" (path.map Attempt.nameless)
  | .depthLimit _ limit => .depthLimit "" limit

namespace Search

def Rejection.nameless : Rejection → Rejection
  | .dependency e => .dependency e.nameless
  | .unresolved => .unresolved

@[simp] theorem Rejection.isDepthLimit_nameless (r : Rejection) :
    r.nameless.isDepthLimit = r.isDepthLimit := by
  rcases r with e | _
  · cases e <;> rfl
  · rfl

@[simp] theorem Rejection.cycle?_nameless (r : Rejection) :
    r.nameless.cycle? = r.cycle?.map (List.map Attempt.nameless) := by
  rcases r with e | _
  · cases e <;> rfl
  · rfl

def Matched.nameless (m : Matched) : Matched :=
  ⟨m.candidate.nameless, m.subst.nameless, m.patterns.map Capability.nameless,
    m.params.map Param.nameless⟩

def Survivor.nameless (s : Survivor) : Survivor :=
  ⟨s.candidate.nameless, s.subst.nameless, s.patterns.map Capability.nameless, s.witness.nameless⟩

def Solved.nameless (s : Solved) : Solved := ⟨s.witness.nameless, s.subst.nameless⟩

end Search

def Resolution.nameless (r : Resolution) : Resolution := ⟨r.witness.nameless, r.subst.nameless⟩

end InstanceSearch
