/-
  What the watermark covers.

  VARIABLES ON RECORD
    A registry hands out variables in two places: a caller asks for a new one, and a new concept sets one
    aside for its default carrier.  `handedOut` lists them for a session, in the order in which they were
    handed out.  Other variables are written by hand, in the parameters of a scope, of an instance or of a
    concept, in the capabilities that an instance provides, in the parents of a concept, and in the types
    of its methods.

  HOW IT IS KEPT (`Ledger`)
    Each step raises the watermark over what it hands out, and hands out nothing below it.  Steps compose
    (`Ledger.append`), so the same holds of a session (`session_ledger`).

  WHAT IS LEFT OUT
    `declareConcept` reserves its parameters and its parents, but not the types of the methods.  These are
    covered only if their variables were below the watermark before, or are no greater than one that the
    concept reserves; and if they are not, the carrier's variable itself may be among them
    (`methodsReserved_iff`).
-/
import InstanceSearch.Proofs.Catalog.InPlace

namespace InstanceSearch

namespace Catalog

/-! ## The variables of the declarations -/

/-- The variables that concepts, scopes and instances mention, the types of methods aside. -/
def vars (cat : Catalog) : List VarId :=
  cat.concepts.flatMap (fun d => d.params.flatMap Param.vars ++ d.parents.flatMap Capability.vars) ++
    cat.scopes.flatMap (fun s => s.params.flatMap Param.vars) ++
      cat.instances.flatMap fun i => i.params.flatMap Param.vars ++ i.provides.flatMap Capability.vars

/-- **The watermark is above every variable of a declaration.** -/
theorem Declared.lt_of_mem_vars {cat : Catalog} (h : cat.Declared) {v : VarId}
    (hv : v ∈ cat.vars) : v < cat.nextVar := by
  rw [Catalog.vars, List.mem_append, List.mem_append] at hv
  rcases hv with (hv | hv) | hv
  · obtain ⟨d, hd, hv⟩ := List.mem_flatMap.1 hv
    exact h.regular.conceptVars d hd v hv
  · obtain ⟨s, hs, hv⟩ := List.mem_flatMap.1 hv
    exact h.regular.scopeVars s hs v hv
  · obtain ⟨i, hi, hv⟩ := List.mem_flatMap.1 hv
    exact h.regular.instanceVars i hi v hv

/-- The variable that a concept sets aside is above those of its parameters and parents. -/
theorem Declared.lt_carrierVar {cat : Catalog} (h : cat.Declared) : ∀ d ∈ cat.concepts,
    ∀ v ∈ d.params.flatMap Param.vars ++ d.parents.flatMap Capability.vars, v < d.carrierVar := by
  induction h with
  | empty => exact fun d hd => nomatch hd
  | freshVar _ ih => exact ih
  | scope _ hok ih =>
    obtain ⟨_, rfl⟩ := declareScope_ok hok
    exact ih
  | «import» _ hok ih =>
    rw [addImport_ok hok]
    exact ih
  | concept _ hok ih =>
    obtain ⟨_, _, carrierVar, _, hvar, _, rfl⟩ := declareConcept_ok hok
    exact List.forall_mem_cons.2 ⟨fun v hv => hvar ▸ lt_reserve hv, ih⟩
  | «instance» _ hok ih =>
    obtain ⟨_, rfl⟩ := declareInstance_ok hok
    exact ih

/-! ## Variables that are handed out -/

/-- The variable that a declaration hands out: the one that was asked for, or the one that a new concept
    sets aside for its default carrier. -/
def Declaration.handsOut? (cat : Catalog) : Declaration → Option VarId
  | .newVar => (freshVarInPlace cat).1.toOption
  | .newConcept decl =>
    match perform (.newConcept decl) cat with
    | (.ok _, cat') => (cat'.concept? decl.name).map Concept.carrierVar
    | (.error _, _) => none
  | .newScope .. | .newImport .. | .newInstance .. => none

/-- What declarations hand out, one after the other. -/
def handedOutFrom : Catalog → List Declaration → List VarId
  | _, [] => []
  | cat, d :: ds => (d.handsOut? cat).toList ++ handedOutFrom (perform d cat).2 ds

/-- What is handed out in a session. -/
def handedOut (ds : List Declaration) : List VarId := handedOutFrom .empty ds

/-- `Ledger cat cat' vs`: on the way from `cat` to `cat'` the watermark rose over `vs`, one variable after
    the other, and the concepts that were added have set aside theirs among them. -/
structure Ledger (cat cat' : Catalog) (vs : List VarId) : Prop where
  le : cat.nextVar ≤ cat'.nextVar
  ascending : vs.Pairwise (· < ·)
  new : ∀ v ∈ vs, cat.nextVar ≤ v
  lt : ∀ v ∈ vs, v < cat'.nextVar
  concepts : ∀ d ∈ cat'.concepts, d ∈ cat.concepts ∨ d.carrierVar ∈ vs

namespace Ledger

variable {cat cat' cat'' : Catalog} {vs vs' : List VarId}

/-- A step that hands out nothing and adds no concept. -/
theorem silent (hle : cat.nextVar ≤ cat'.nextVar) (hconcepts : cat'.concepts = cat.concepts) :
    Ledger cat cat' [] where
  le := hle
  ascending := .nil
  new _ hv := nomatch hv
  lt _ hv := nomatch hv
  concepts _ hd := .inl (hconcepts ▸ hd)

/-- What was handed out later is above what was handed out before. -/
theorem append (h : Ledger cat cat' vs) (h' : Ledger cat' cat'' vs') : Ledger cat cat'' (vs ++ vs') where
  le := Nat.le_trans h.le h'.le
  ascending := List.pairwise_append.2
    ⟨h.ascending, h'.ascending, fun v hv w hw => Nat.lt_of_lt_of_le (h.lt v hv) (h'.new w hw)⟩
  new v hv := by
    rcases List.mem_append.1 hv with hv | hv
    · exact h.new v hv
    · exact Nat.le_trans h.le (h'.new v hv)
  lt v hv := by
    rcases List.mem_append.1 hv with hv | hv
    · exact Nat.lt_of_lt_of_le (h.lt v hv) h'.le
    · exact h'.lt v hv
  concepts d hd := by
    rcases h'.concepts d hd with hd | hd
    · exact (h.concepts d hd).imp_right (List.mem_append_left _)
    · exact .inr (List.mem_append_right _ hd)

end Ledger

/-- **One declaration** hands out what is at the watermark or above, and raises the watermark over it. -/
theorem perform_ledger {cat : Catalog} (h : Declared cat) (d : Declaration) :
    Ledger cat (perform d cat).2 (d.handsOut? cat).toList := by
  rcases perform_cases h d with ⟨e, he⟩ | ⟨cat', hok, haccepted⟩
  · -- only a new variable is handed out without a check, and it is never refused
    have hnone : d.handsOut? cat = none := by
      cases d with
      | newVar => cases he
      | newConcept decl => rw [Declaration.handsOut?, he]
      | newScope | newImport | newInstance => rfl
    rw [he, hnone]
    exact .silent (Nat.le_refl _) rfl
  · rw [hok]
    cases d with
    | newVar =>
      obtain rfl := haccepted
      exact {
        le := Nat.le_succ _
        ascending := List.pairwise_singleton ..
        new := fun v hv => Nat.le_of_eq (List.mem_singleton.1 hv).symm
        lt := fun v hv => Nat.lt_succ_of_le (Nat.le_of_eq (List.mem_singleton.1 hv))
        concepts := fun _ hd => .inl hd }
    | newScope parent kind name params =>
      obtain ⟨id, haccepted⟩ := haccepted
      obtain ⟨_, rfl⟩ := declareScope_ok haccepted
      exact .silent (le_reserve _ _) rfl
    | newImport scope imported =>
      obtain rfl := addImport_ok haccepted
      exact .silent (Nat.le_refl _) rfl
    | newInstance scope decl =>
      obtain ⟨id, haccepted⟩ := haccepted
      obtain ⟨_, rfl⟩ := declareInstance_ok haccepted
      exact .silent (le_reserve _ _) rfl
    | newConcept decl =>
      obtain ⟨_, _, carrierVar, hierarchy, hvar, _, hcat'⟩ := declareConcept_ok haccepted
      have hset : Declaration.handsOut? cat (.newConcept decl) = some carrierVar := by
        rw [Declaration.handsOut?, hok, hcat']
        dsimp only
        rw [concept?, ← lookup, lookup_cons_self]
        rfl
      have hle : cat.nextVar ≤ carrierVar := hvar ▸ le_reserve _ _
      rw [hset, hcat']
      exact {
        le := Nat.le_succ_of_le hle
        ascending := List.pairwise_singleton ..
        new := fun v hv => List.mem_singleton.1 hv ▸ hle
        lt := fun v hv => Nat.lt_succ_of_le (Nat.le_of_eq (List.mem_singleton.1 hv))
        concepts := List.forall_mem_cons.2 ⟨.inr List.mem_cons_self, fun _ hd => .inl hd⟩ }

/-- **Declarations one after the other**, from any registry. -/
theorem foldl_ledger {cat : Catalog} (h : Declared cat) (ds : List Declaration) :
    Ledger cat (ds.foldl (fun cat d => (perform d cat).2) cat) (handedOutFrom cat ds) := by
  induction ds generalizing cat with
  | nil => exact .silent (Nat.le_refl _) rfl
  | cons d ds ih =>
    have hnext : Declared (perform d cat).2 := by
      rcases perform_cases h d with ⟨e, he⟩ | ⟨cat', hok, haccepted⟩
      · rw [he]
        exact h
      · rw [hok]
        exact haccepted.declared h
    exact (perform_ledger h d).append (ih hnext)

theorem session_ledger (ds : List Declaration) : Ledger .empty (session ds) (handedOut ds) :=
  foldl_ledger .empty ds

/-- What is below the watermark after a session. -/
structure Covered (ds : List Declaration) : Prop where
  /-- no variable was handed out twice -/
  ascending : (handedOut ds).Pairwise (· < ·)
  handedOut_lt : ∀ v ∈ handedOut ds, v < (session ds).nextVar
  declared_lt : ∀ v ∈ (session ds).vars, v < (session ds).nextVar
  /-- the variable of a default carrier was handed out, and the concept does not ask for it otherwise -/
  carriers : ∀ d ∈ (session ds).concepts, d.carrierVar ∈ handedOut ds ∧
    ∀ v ∈ d.params.flatMap Param.vars ++ d.parents.flatMap Capability.vars, v < d.carrierVar

theorem session_covered (ds : List Declaration) : Covered ds where
  ascending := (session_ledger ds).ascending
  handedOut_lt := (session_ledger ds).lt
  declared_lt _ := (session_declared ds).lt_of_mem_vars
  carriers d hd :=
    ⟨((session_ledger ds).concepts d hd).resolve_left (fun hnone => nomatch hnone),
      (session_declared ds).lt_carrierVar d hd⟩

/-- A variable that was written by hand moves what is handed out next; a refused concept takes none. -/
example : handedOut [.newVar, .newScope root .typeBody "Box" [⟨7, "T", .ordinary⟩],
    .newConcept ⟨"Show", [⟨8, "T", .ordinary⟩], [], []⟩, .newConcept ⟨"Show", [], [], []⟩, .newVar] =
      [0, 9, 10] := by decide

end Catalog

/-! ## The types of methods -/

namespace Concept

/-- The variables in the types of the methods. -/
def methodVars (d : Concept) : List VarId := d.methods.flatMap fun m => m.signature.vars

/-- The types of the methods were covered when the carrier's variable was set aside. -/
def MethodsReserved (d : Concept) : Prop := ∀ v ∈ d.methodVars, v < d.carrierVar

instance (d : Concept) : Decidable d.MethodsReserved :=
  inferInstanceAs (Decidable (∀ v ∈ d.methodVars, v < d.carrierVar))

end Concept

namespace Catalog

/-- **When the types of a new concept's methods are covered**: none reaches the new watermark or is the
    carrier's variable, which is so exactly if each was below the old watermark, or is no greater than a
    variable of the parameters or the parents. -/
theorem methodsReserved_iff {cat cat' : Catalog} {decl : ConceptDecl}
    (h : cat.declareConcept decl = .ok cat') :
    ∃ d, cat'.concept? decl.name = some d ∧ d.fragments = decl.fragments ∧
      (d.MethodsReserved ↔
        (∀ v ∈ d.methodVars, v < cat'.nextVar) ∧ d.carrierVar ∉ d.methodVars) ∧
      (d.MethodsReserved ↔ ∀ v ∈ d.methodVars, v < cat.nextVar ∨
        ∃ w ∈ decl.params.flatMap Param.vars ++ decl.parents.flatMap Capability.vars, v ≤ w) := by
  obtain ⟨_, _, carrierVar, hierarchy, hvar, _, rfl⟩ := declareConcept_ok h
  refine ⟨⟨decl.name, decl.params, decl.parents, decl.fragments, carrierVar⟩, ?_, rfl, ?_, ?_⟩
  · rw [concept?, ← lookup]
    exact lookup_cons_self _ _
  · constructor
    · intro hreserved
      exact ⟨fun v hv => Nat.lt_succ_of_lt (hreserved v hv), fun hmem => Nat.lt_irrefl _ (hreserved _ hmem)⟩
    · rintro ⟨hlt, hnot⟩ v hv
      have hne : v ≠ carrierVar := fun heq => hnot (heq ▸ hv)
      exact Nat.lt_of_le_of_ne (Nat.le_of_lt_succ (hlt v hv)) hne
  · subst hvar
    exact forall₂_congr fun _ _ => lt_reserve_iff

end Catalog

end InstanceSearch
