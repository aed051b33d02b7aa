/-
  Renaming the variables of types, capabilities and substitutions.

  THE OPERATION
    A `Renaming` is a bijection of the variables.  `x.mapVars π` is `x` with `π v` for every variable
    `v`: in a type and a capability everywhere, in a substitution in the keys as well as in the values.
    Labels stay, and so does the order of entries.

  WHAT TO PROVE ABOUT IT
    Nothing in the development looks at the number of a variable, except to compare it with another
    one.  So renaming the arguments of an operation renames its result, and each operation gets one
    lemma that says so: `f (x.mapVars π) = (f x).mapVars π`, as a `simp` lemma where the left side has
    that shape.  A result without variables, such as the outcome of `==`, does not change at all.

  LABELS AS WELL
    Nothing looks at a label either.  `x.relabel π φ` changes the labels too, by any function `φ`.  The
    lemmas are proved of `relabel`; those of `mapVars` are the case in which labels stay.
-/
import Mathlib.Logic.Equiv.Defs
import InstanceSearch.Subst

namespace InstanceSearch

/-- A bijection of the variables. -/
abbrev Renaming := Equiv.Perm VarId

variable (π ρ : Renaming)

/-! ## Types -/

namespace Ty

/-- `t.mapVars π` = `t` with `π v` in the place of every variable `v`. -/
def mapVars (t : Ty) : Ty := t.replaceVars fun v n => .var (π v) n

@[simp] theorem mapVars_var (v : VarId) (n : Option String) :
    (Ty.var v n).mapVars π = .var (π v) n := rfl

@[simp] theorem mapVars_app (f : Former) (args : List Ty) :
    (Ty.app f args).mapVars π = .app f (args.map (mapVars π)) := replaceVars_app _ f args

/-- Renaming looks at the variables of the type only. -/
theorem mapVars_congr {π ρ : Renaming} {t : Ty} (h : ∀ v ∈ t.vars, π v = ρ v) :
    t.mapVars π = t.mapVars ρ :=
  replaceVars_congr fun v hv n => by rw [h v hv]

@[simp] theorem mapVars_refl (t : Ty) : t.mapVars (Equiv.refl VarId) = t := replaceVars_id t

/-- **A type whose variables are all fixed is not changed.** -/
theorem mapVars_of_fixed {π : Renaming} {t : Ty} (h : ∀ v ∈ t.vars, π v = v) : t.mapVars π = t := by
  have hcongr : t.mapVars π = t.mapVars (Equiv.refl VarId) := mapVars_congr h
  rw [hcongr, mapVars_refl]

/-- Renaming twice is renaming by both, one after the other. -/
theorem mapVars_mapVars (t : Ty) : (t.mapVars π).mapVars ρ = t.mapVars (π.trans ρ) :=
  replaceVars_replaceVars _ _ t

theorem mapVars_injective : Function.Injective (mapVars π) := by
  intro t u h
  have hback := congrArg (mapVars π.symm) h
  rwa [mapVars_mapVars, mapVars_mapVars, Equiv.self_trans_symm, mapVars_refl, mapVars_refl] at hback

/-! ### New labels -/

variable (φ : Option String → Option String)

/-- `t.relabel π φ` = `t` with `π v` in the place of every variable `v`, and `φ n` for its label `n`. -/
def relabel (t : Ty) : Ty := t.replaceVars fun v n => .var (π v) (φ n)

@[simp] theorem relabel_var (v : VarId) (n : Option String) :
    (Ty.var v n).relabel π φ = .var (π v) (φ n) := rfl

@[simp] theorem relabel_app (f : Former) (args : List Ty) :
    (Ty.app f args).relabel π φ = .app f (args.map (relabel π φ)) := replaceVars_app _ f args

@[simp] theorem vars_relabel (t : Ty) : (t.relabel π φ).vars = t.vars.map π := by
  induction t using induction with
  | var v n => rfl
  | app f args ih =>
    rw [relabel_app, vars_app, vars_app, List.map_flatMap, List.flatMap_map]
    rw [List.flatMap, List.flatMap, List.map_congr_left ih]

/-- Without labels, changing the labels is lost. -/
@[simp] theorem anon_relabel (t : Ty) : (t.relabel π φ).anon = t.anon.mapVars π := by
  rw [anon, anon, relabel, mapVars, replaceVars_replaceVars, replaceVars_replaceVars]
  rfl

/-- **Equality of types is kept and reflected**: it sees neither numbers nor labels. -/
@[simp] theorem beq_relabel (t u : Ty) : (t.relabel π φ == u.relabel π φ) = (t == u) := by
  rw [Bool.eq_iff_iff, beq_iff, beq_iff, anon_relabel, anon_relabel]
  exact (mapVars_injective π).eq_iff

@[simp] theorem asVar?_relabel (t : Ty) : (t.relabel π φ).asVar? = t.asVar?.map π := by
  cases t <;> simp [asVar?]

/-- Replacing the variables of a relabelled type is relabelling the outcome, if what is put in agrees. -/
theorem replaceVars_relabel {π : Renaming} {φ : Option String → Option String}
    {f g : VarId → Option String → Ty} (h : ∀ v n, f (π v) (φ n) = (g v n).relabel π φ) (t : Ty) :
    (t.relabel π φ).replaceVars f = (t.replaceVars g).relabel π φ := by
  rw [relabel, relabel, replaceVars_replaceVars, replaceVars_replaceVars]
  exact replaceVars_congr fun v _ n => h v n

/-! ### Labels that stay -/

@[simp] theorem vars_mapVars (t : Ty) : (t.mapVars π).vars = t.vars.map π := vars_relabel π id t

@[simp] theorem anon_mapVars (t : Ty) : (t.mapVars π).anon = t.anon.mapVars π := anon_relabel π id t

/-- **Renaming keeps and reflects equality of types.** -/
@[simp] theorem beq_mapVars (t u : Ty) : (t.mapVars π == u.mapVars π) = (t == u) :=
  beq_relabel π id t u

@[simp] theorem asVar?_mapVars (t : Ty) : (t.mapVars π).asVar? = t.asVar?.map π := asVar?_relabel π id t

end Ty

/-! ## Capabilities -/

namespace Capability

/-- `c.mapVars π` = `c` with `π v` in the place of every variable `v` of its arguments. -/
def mapVars (c : Capability) : Capability := c.map (Ty.mapVars π)

@[simp] theorem concept_mapVars (c : Capability) : (c.mapVars π).concept = c.concept := rfl

@[simp] theorem args_mapVars (c : Capability) : (c.mapVars π).args = c.args.map (Ty.mapVars π) := rfl

theorem mapVars_of_fixed {π : Renaming} {c : Capability} (h : ∀ v ∈ c.vars, π v = v) :
    c.mapVars π = c := by
  have hargs : c.args.map (Ty.mapVars π) = c.args := by
    rw [List.map_congr_left (g := id), List.map_id]
    intro t ht
    exact Ty.mapVars_of_fixed fun v hv => h v (List.mem_flatMap.2 ⟨t, ht, hv⟩)
  rw [mapVars, map, hargs]

theorem mapVars_mapVars (c : Capability) : (c.mapVars π).mapVars ρ = c.mapVars (π.trans ρ) := by
  simp only [mapVars, map_map, Ty.mapVars_mapVars]

/-! ### New labels -/

variable (φ : Option String → Option String)

/-- `c.relabel π φ` = `c` with its arguments relabelled. -/
def relabel (c : Capability) : Capability := c.map (Ty.relabel π φ)

@[simp] theorem concept_relabel (c : Capability) : (c.relabel π φ).concept = c.concept := rfl

@[simp] theorem args_relabel (c : Capability) :
    (c.relabel π φ).args = c.args.map (Ty.relabel π φ) := rfl

@[simp] theorem vars_relabel (c : Capability) : (c.relabel π φ).vars = c.vars.map π := by
  simp [vars, List.map_flatMap, List.flatMap_map]

/-- **Equality of capabilities is kept and reflected.** -/
@[simp] theorem beq_relabel (c d : Capability) : (c.relabel π φ == d.relabel π φ) = (c == d) := by
  change same _ _ = same c d
  simp only [same, concept_relabel, args_relabel]
  congr 1
  rw [Bool.eq_iff_iff, Ty.beq_list_iff, Ty.beq_list_iff]
  have hanon : ∀ ts : List Ty,
      (ts.map (Ty.relabel π φ)).map Ty.anon = (ts.map Ty.anon).map (Ty.mapVars π) := by
    intro ts
    simp [Function.comp_def]
  rw [hanon, hanon]
  exact List.map_inj_right fun _ _ h => Ty.mapVars_injective π h

/-! ### Labels that stay -/

@[simp] theorem vars_mapVars (c : Capability) : (c.mapVars π).vars = c.vars.map π :=
  vars_relabel π id c

/-- **Renaming keeps and reflects equality of capabilities.** -/
@[simp] theorem beq_mapVars (c d : Capability) : (c.mapVars π == d.mapVars π) = (c == d) :=
  beq_relabel π id c d

end Capability

/-! ## Substitutions -/

namespace Subst

/-- A renamed entry: its variable and its type. -/
def mapEntry (e : VarId × Ty) : VarId × Ty := (π e.1, e.2.mapVars π)

/-- `s.mapVars π` = `s` with keys and values renamed; every entry keeps its place. -/
def mapVars (s : Subst) : Subst :=
  ⟨s.entries.map (mapEntry π), by
    have hkeys : (s.entries.map (mapEntry π)).map Prod.fst = s.keys.map π := by
      simp [OrderedMap.keys, mapEntry, Function.comp_def]
    rw [hkeys]
    exact List.Pairwise.map π (fun _ _ hne he => hne (π.injective he)) s.nodup⟩

/-! ### New labels -/

section Relabel

variable (φ : Option String → Option String)

/-- A relabelled entry: its variable and its type. -/
def relabelEntry (e : VarId × Ty) : VarId × Ty := (π e.1, e.2.relabel π φ)

/-- `s.relabel π φ` = `s` with keys renamed and values relabelled; every entry keeps its place. -/
def relabel (s : Subst) : Subst :=
  ⟨s.entries.map (relabelEntry π φ), by
    have hkeys : (s.entries.map (relabelEntry π φ)).map Prod.fst = s.keys.map π := by
      simp [OrderedMap.keys, relabelEntry, Function.comp_def]
    rw [hkeys]
    exact List.Pairwise.map π (fun _ _ hne he => hne (π.injective he)) s.nodup⟩

theorem lookup_map_relabelEntry (es : List (VarId × Ty)) (v : VarId) :
    (es.map (relabelEntry π φ)).lookup (π v) = (es.lookup v).map (Ty.relabel π φ) := by
  induction es with
  | nil => rfl
  | cons e es ih =>
    rw [List.map_cons, List.lookup_cons, List.lookup_cons]
    by_cases h : v = e.1
    · simp [relabelEntry, h]
    · have hne : π v ≠ π e.1 := fun he => h (π.injective he)
      simp [relabelEntry, beq_eq_false_iff_ne.2 h, beq_eq_false_iff_ne.2 hne, ih]

/-- What is found is relabelled. -/
@[simp] theorem find?_relabel (s : Subst) (v : VarId) :
    (s.relabel π φ).find? (π v) = (s.find? v).map (Ty.relabel π φ) :=
  lookup_map_relabelEntry π φ s.entries v

@[simp] theorem size_relabel (s : Subst) : (s.relabel π φ).size = s.size := List.length_map _

theorem follow_relabel (s : Subst) (n : Nat) (t : Ty) :
    (s.relabel π φ).follow n (t.relabel π φ) = (s.follow n t).relabel π φ := by
  induction n generalizing t with
  | zero => rfl
  | succ n ih =>
    rw [follow, follow]
    refine Ty.replaceVars_relabel (fun v name => ?_) t
    rw [find?_relabel]
    cases s.find? v with
    | none => rfl
    | some u => exact ih u

@[simp] theorem apply_relabel (s : Subst) (t : Ty) :
    (s.relabel π φ).apply (t.relabel π φ) = (s.apply t).relabel π φ := by
  rw [apply, size_relabel, follow_relabel, apply]

/-- **Applying a relabelled substitution to something relabelled relabels the outcome.** -/
@[simp] theorem applyTo_relabel (s : Subst) (c : Capability) :
    (s.relabel π φ).applyTo (c.relabel π φ) = (s.applyTo c).relabel π φ := by
  simp only [applyTo, Capability.relabel, Capability.map_map, apply_relabel]

/-- Whether a variable stands for a variable, and which, does not depend on the label it is looked up
    with. -/
theorem asVar?_apply_var (s : Subst) (v : VarId) (n m : Option String) :
    (s.apply (.var v n)).asVar? = (s.apply (.var v m)).asVar? := by
  unfold apply
  cases s.size with
  | zero => rfl
  | succ k =>
    rw [follow, follow, Ty.replaceVars_var, Ty.replaceVars_var]
    cases s.find? v <;> rfl

@[simp] theorem isUnresolved_relabel (s : Subst) (v : VarId) :
    (s.relabel π φ).isUnresolved (π v) = s.isUnresolved v := by
  have happly := apply_relabel π φ s (.var v none)
  rw [Ty.relabel_var] at happly
  rw [isUnresolved, isUnresolved, asVar?_apply_var _ (π v) none (φ none), happly, Ty.asVar?_relabel]
  cases (s.apply (.var v none)).asVar? <;> simp

theorem putEntry_relabelEntry (v : VarId) (t : Ty) (es : List (VarId × Ty)) :
    OrderedMap.putEntry (π v) (t.relabel π φ) (es.map (relabelEntry π φ)) =
      (OrderedMap.putEntry v t es).map (relabelEntry π φ) := by
  induction es with
  | nil => rfl
  | cons e es ih =>
    by_cases h : e.1 = v
    · simp [OrderedMap.putEntry, relabelEntry, h]
    · have hne : ¬ π e.1 = π v := fun he => h (π.injective he)
      simp [OrderedMap.putEntry, relabelEntry, h] at ih ⊢
      exact ih

theorem insert_relabel (s : Subst) (v : VarId) (t : Ty) :
    OrderedMap.insert (s.relabel π φ) (π v) (t.relabel π φ) = relabel π φ (s.insert v t) :=
  OrderedMap.ext_entries (putEntry_relabelEntry π φ v t s.entries)

theorem ofList_relabelEntry (es : List (VarId × Ty)) :
    OrderedMap.ofList (es.map (relabelEntry π φ)) = relabel π φ (OrderedMap.ofList es) := by
  have hfold : ∀ s : Subst,
      (es.map (relabelEntry π φ)).foldl (fun m e => m.insert e.1 e.2) (s.relabel π φ) =
        relabel π φ (es.foldl (fun m e => m.insert e.1 e.2) s) := by
    induction es with
    | nil => exact fun _ => rfl
    | cons e es ih =>
      intro s
      rw [List.map_cons, List.foldl_cons, List.foldl_cons, ← ih]
      have hstep := insert_relabel π φ s e.1 e.2
      rw [relabelEntry, hstep]
  exact hfold OrderedMap.empty

end Relabel

/-! ### Labels that stay -/

/-- What is found is renamed. -/
@[simp] theorem find?_mapVars (s : Subst) (v : VarId) :
    (s.mapVars π).find? (π v) = (s.find? v).map (Ty.mapVars π) := find?_relabel π id s v

@[simp] theorem size_mapVars (s : Subst) : (s.mapVars π).size = s.size := size_relabel π id s

@[simp] theorem apply_mapVars (s : Subst) (t : Ty) :
    (s.mapVars π).apply (t.mapVars π) = (s.apply t).mapVars π := apply_relabel π id s t

/-- **Applying a renamed substitution to something renamed renames the outcome.** -/
@[simp] theorem applyTo_mapVars (s : Subst) (c : Capability) :
    (s.mapVars π).applyTo (c.mapVars π) = (s.applyTo c).mapVars π := applyTo_relabel π id s c

@[simp] theorem isUnresolved_mapVars (s : Subst) (v : VarId) :
    (s.mapVars π).isUnresolved (π v) = s.isUnresolved v := isUnresolved_relabel π id s v

theorem insert_mapVars (s : Subst) (v : VarId) (t : Ty) :
    OrderedMap.insert (s.mapVars π) (π v) (t.mapVars π) = mapVars π (s.insert v t) :=
  insert_relabel π id s v t

theorem ofList_mapEntry (es : List (VarId × Ty)) :
    OrderedMap.ofList (es.map (mapEntry π)) = mapVars π (OrderedMap.ofList es) :=
  ofList_relabelEntry π id es

theorem mapVars_of_fixed {π : Renaming} {s : Subst} (h : ∀ v ∈ s.vars, π v = v) : s.mapVars π = s := by
  refine OrderedMap.ext_entries ?_
  have hid : ∀ e ∈ s.entries, mapEntry π e = id e := by
    intro e he
    have hmem : ∀ v ∈ e.1 :: e.2.vars, π v = v := fun v hv => h v (List.mem_flatMap.2 ⟨e, he, hv⟩)
    have ht : e.2.mapVars π = e.2 := Ty.mapVars_of_fixed fun v hv => hmem v (List.mem_cons_of_mem _ hv)
    rw [mapEntry, hmem e.1 List.mem_cons_self, ht, id]
  exact (List.map_congr_left hid).trans (List.map_id _)

@[simp] theorem mapVars_refl (s : Subst) : s.mapVars (Equiv.refl VarId) = s :=
  mapVars_of_fixed fun _ _ => rfl

theorem mapVars_mapVars (s : Subst) : (s.mapVars π).mapVars ρ = s.mapVars (π.trans ρ) := by
  refine OrderedMap.ext_entries ?_
  simp [mapVars, mapEntry, Function.comp_def, Ty.mapVars_mapVars]

end Subst

end InstanceSearch
