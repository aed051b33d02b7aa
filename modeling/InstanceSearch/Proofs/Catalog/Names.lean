/-
  Inheritance by names.

  Which concepts come with a capability depends on its concept only, not on its arguments: the walk over
  ancestors compares capabilities with their arguments, and so may meet a concept at several arguments,
  but the names that it meets are those that paths of parents lead to (`Descends`).  So a list of
  capabilities offers the same concepts under every choice of its variables (`names_expand_iff`).

  WHY THE WALK MISSES NO NAME
    It does not enter a capability that was found before.  What it keeps (`Walks`) is that the parents of
    everything that it has added are there, or will be by the time it returns; in the end the names are
    closed under parents.  Nothing is asked of the arguments, not even that the parameters of a concept
    differ: in contrast to `Walked`, which follows whole capabilities.

  A requirement that is dropped because another one implies it has a name that the other one leads to;
  so every required concept is one that something kept leads to (`exists_kept_name`).
-/
import InstanceSearch.Proofs.Catalog.Ancestors

namespace InstanceSearch

namespace Catalog

/-- `Descends table a b`: from the concept `a`, steps to parents lead to the concept `b`. -/
inductive Descends (table : List Concept) : String → String → Prop where
  | refl (a : String) : Descends table a a
  | step {a b : String} {d : Concept} {p : Capability} (hd : lookup table a = some d)
      (hp : p ∈ d.parents) (h : Descends table p.concept b) : Descends table a b

namespace Descends

variable {table : List Concept} {a b c : String}

theorem trans (h : Descends table a b) (h' : Descends table b c) : Descends table a c := by
  induction h with
  | refl _ => exact h'
  | step hd hp _ ih => exact .step hd hp (ih h')

/-- A concept of a new name does not hide the others. -/
theorem cons {d : Concept} (new : lookup table d.name = none) (h : Descends table a b) :
    Descends (d :: table) a b := by
  induction h with
  | refl a => exact .refl a
  | step hd hp _ ih => exact .step (lookup_cons_of_some new hd) hp ih

/-- Paths stay within what is declared. -/
theorem declared (ht : Ordered table) (h : Descends table a b) (ha : ∃ d, lookup table a = some d) :
    ∃ d, lookup table b = some d := by
  induction h with
  | refl _ => exact ha
  | step hd hp _ ih =>
    obtain ⟨e, he, _⟩ := fits_of_parent ht (mem_of_lookup hd) _ hp
    exact ih ⟨e, he⟩

end Descends

/-- The names of the parents are the same at all arguments. -/
theorem concepts_parentsAt (d : Concept) (args : List Ty) :
    (d.parentsAt args).map Capability.concept = d.parents.map Capability.concept := by
  rw [Concept.parentsAt, List.map_map]
  rfl

/-! ## The walk -/

/-- What the walk finds has a name that a path leads to. -/
theorem descends_of_mem_ancestorsInto {table : List Concept} (ht : Ordered table) {c x : Capability}
    {found : List Capability} (h : x ∈ ancestorsInto table c found) :
    x ∈ found ∨ Descends table c.concept x.concept := by
  induction ht generalizing c x found with
  | nil => exact Or.inl h
  | @cons d older new _ _ ih =>
    rw [ancestorsInto] at h
    by_cases hname : d.name = c.concept
    · rw [if_pos hname] at h
      have hstep : ∀ p ∈ d.parentsAt c.args, ∀ b, Descends older p.concept b →
          Descends (d :: older) c.concept b := by
        intro p hp b hb
        obtain ⟨p', hp', hpp⟩ := List.mem_map.1 (concepts_parentsAt d c.args ▸ List.mem_map_of_mem hp)
        exact .step (hname ▸ lookup_cons_self d older) hp' (hpp ▸ hb.cons new)
      refine mem_foldl_into (P := fun x => Descends (d :: older) c.concept x.concept) ?_ ?_ h
      · exact fun p hp => hstep p hp _ (.refl _)
      · intro p hp found y hy
        rcases ih hy with hy | hy
        · exact Or.inl hy
        · exact Or.inr (hstep p hp _ hy)
    · rw [if_neg hname] at h
      rcases ih h with h | h
      · exact Or.inl h
      · exact Or.inr (h.cons new)

/-- `Names cs a`: the concept `a` is that of a capability of the list. -/
def Names (cs : List Capability) (a : String) : Prop := ∃ c ∈ cs, c.concept = a

theorem Names.mono {xs ys : List Capability} {a : String} (h : Names xs a) (hsub : ∀ x ∈ xs, x ∈ ys) :
    Names ys a := by
  obtain ⟨x, hx, ha⟩ := h
  exact ⟨x, hsub x hx, ha⟩

/-- `Settled table all a`: the concept `a` is declared, and the list has all of its parents. -/
def Settled (table : List Concept) (all : List Capability) (a : String) : Prop :=
  ∃ d, lookup table a = some d ∧ ∀ p ∈ d.parents, Names all p.concept

theorem Settled.mono {table : List Concept} {xs ys : List Capability} {a : String}
    (h : Settled table xs a) (hsub : ∀ x ∈ xs, x ∈ ys) : Settled table ys a := by
  obtain ⟨d, hd, hparents⟩ := h
  exact ⟨d, hd, fun p hp => (hparents p hp).mono hsub⟩

/-- `Walks table names found all`: from `found` to `all` nothing was lost, all of `names` are there, and
    whatever was added is settled. -/
structure Walks (table : List Concept) (names : List String) (found all : List Capability) : Prop where
  keeps : ∀ x ∈ found, x ∈ all
  start : ∀ a ∈ names, Names all a
  settled : ∀ x ∈ all, x ∈ found ∨ Settled table all x.concept

theorem Walks.cons {d : Concept} {table : List Concept} (new : lookup table d.name = none)
    {names : List String} {found all : List Capability} (h : Walks table names found all) :
    Walks (d :: table) names found all where
  keeps := h.keeps
  start := h.start
  settled x hx := (h.settled x hx).imp id fun ⟨e, he, hparents⟩ =>
    ⟨e, lookup_cons_of_some new he, hparents⟩

/-- The walk over parents, one after the other, where each is walked from. -/
theorem walks_foldl {table : List Concept} {into : Capability → List Capability → List Capability}
    {ps : List Capability}
    (hinto : ∀ p ∈ ps, ∀ found, ∃ d, lookup table p.concept = some d ∧
      Walks table (d.parents.map Capability.concept) found (into p found))
    (found : List Capability) :
    Walks table (ps.map Capability.concept) found
      (ps.foldl (fun found p => if found.contains p then found else into p (found ++ [p])) found) := by
  induction ps generalizing found with
  | nil => exact ⟨fun x hx => hx, fun a ha => (nomatch ha), fun x hx => Or.inl hx⟩
  | cons p ps ih =>
    have hrest := ih fun p' hp' => hinto p' (List.mem_cons_of_mem _ hp')
    rw [List.foldl_cons, List.map_cons]
    by_cases hc : found.contains p = true
    · rw [if_pos hc]
      have hw := hrest found
      refine ⟨hw.keeps, List.forall_mem_cons.2 ⟨?_, hw.start⟩, hw.settled⟩
      obtain ⟨x, hx, heq⟩ := contains_iff_has.1 hc
      exact ⟨x, hw.keeps x hx, (Capability.anon_eq_iff.1 heq).1⟩
    · rw [if_neg hc]
      obtain ⟨d, hd, hfirst⟩ := hinto p List.mem_cons_self (found ++ [p])
      have hw := hrest (into p (found ++ [p]))
      have hp := hw.keeps p (hfirst.keeps p (List.mem_append.2 (Or.inr (List.mem_singleton.2 rfl))))
      refine ⟨fun x hx => hw.keeps x (hfirst.keeps x (List.mem_append.2 (Or.inl hx))),
        List.forall_mem_cons.2 ⟨⟨p, hp, rfl⟩, hw.start⟩, fun x hx => ?_⟩
      rcases hw.settled x hx with hx | hx
      · rcases hfirst.settled x hx with hx | hx
        · rcases List.mem_append.1 hx with hx | hx
          · exact Or.inl hx
          · -- the parents of `p` were walked over right after it was added
            rw [List.mem_singleton.1 hx]
            refine Or.inr ⟨d, hd, fun y hy => ?_⟩
            exact (hfirst.start _ (List.mem_map_of_mem hy)).mono hw.keeps
        · exact Or.inr (hx.mono hw.keeps)
      · exact Or.inr hx

/-- **The walk adds the names of the parents, and closes them under parents.** -/
theorem walks_ancestorsInto {table : List Concept} (ht : Ordered table) {c : Capability} {d : Concept}
    (hd : lookup table c.concept = some d) (found : List Capability) :
    Walks table (d.parents.map Capability.concept) found (ancestorsInto table c found) := by
  induction ht generalizing c d found with
  | nil => cases hd
  | @cons e older new hparents _ ih =>
    rw [ancestorsInto]
    by_cases hname : e.name = c.concept
    · have hde : e = d := by
        rw [← hname, lookup_cons_self] at hd
        injection hd
      subst hde
      rw [if_pos hname, ← concepts_parentsAt e c.args]
      apply walks_foldl
      intro p hp found
      obtain ⟨p', hp', hpp⟩ := List.mem_map.1 (concepts_parentsAt e c.args ▸ List.mem_map_of_mem hp)
      obtain ⟨e', he', _⟩ := hparents p' hp'
      rw [hpp] at he'
      exact ⟨e', lookup_cons_of_some new he', (ih he' found).cons new⟩
    · rw [if_neg hname]
      rw [lookup_cons_of_ne hname] at hd
      exact (ih hd found).cons new

/-! ## The names that come with a capability -/

section Names

variable {cat : Catalog} (ht : Ordered cat.concepts)
include ht

/-- An ancestor has a concept that a path leads to. -/
theorem descends_of_has {c d : Capability} (h : Has (cat.ancestors c) d) :
    Descends cat.concepts c.concept d.concept := by
  obtain ⟨x, hx, heq⟩ := h
  rw [← (Capability.anon_eq_iff.1 heq).1]
  exact (descends_of_mem_ancestorsInto ht hx).resolve_left (nomatch ·)

/-- **The names among a capability and its ancestors are those that paths lead to.** -/
theorem names_ancestors_iff {c : Capability} {a : String}
    (hc : ∃ d, lookup cat.concepts c.concept = some d) :
    Names (c :: cat.ancestors c) a ↔ Descends cat.concepts c.concept a := by
  constructor
  · rintro ⟨x, hx, rfl⟩
    rcases List.mem_cons.1 hx with rfl | hx
    · exact .refl _
    · exact descends_of_has ht ⟨x, hx, rfl⟩
  · intro h
    obtain ⟨d, hd⟩ := hc
    have hwalks := walks_ancestorsInto ht hd []
    have hsub : ∀ x ∈ cat.ancestors c, x ∈ c :: cat.ancestors c := fun x hx => List.mem_cons_of_mem _ hx
    have hsettled : ∀ x ∈ c :: cat.ancestors c,
        Settled cat.concepts (c :: cat.ancestors c) x.concept := by
      refine List.forall_mem_cons.2 ⟨⟨d, hd, fun p hp => ?_⟩, fun x hx => ?_⟩
      · exact (hwalks.start _ (List.mem_map_of_mem hp)).mono hsub
      · rcases hwalks.settled x hx with hx | hx
        · cases hx
        · exact hx.mono hsub
    -- follow the path from `c`, with the name that was reached on the list
    have hfollow : ∀ a b, Descends cat.concepts a b → Names (c :: cat.ancestors c) a →
        Names (c :: cat.ancestors c) b := by
      intro a b hab
      induction hab with
      | refl _ => exact fun hn => hn
      | step hd' hp _ ih =>
        rintro ⟨x, hx, rfl⟩
        obtain ⟨e, he, hparents⟩ := hsettled x hx
        rw [hd'] at he
        injection he with he
        exact ih (hparents _ (he ▸ hp))
    exact hfollow c.concept a h ⟨c, List.mem_cons_self, rfl⟩

/-- **What a list of capabilities offers, by name.** -/
theorem names_expand_iff {cs : List Capability} {a : String}
    (hcs : ∀ c ∈ cs, ∃ d, lookup cat.concepts c.concept = some d) :
    Names (cat.expand cs) a ↔ ∃ c ∈ cs, Descends cat.concepts c.concept a := by
  constructor
  · rintro ⟨x, hx, hxa⟩
    obtain ⟨c, hc, hxc⟩ := List.mem_flatMap.1 (FirstSeen.mem_of_mem_ofList hx)
    exact ⟨c, hc, (names_ancestors_iff ht (hcs c hc)).1 ⟨x, hxc, hxa⟩⟩
  · rintro ⟨c, hc, h⟩
    obtain ⟨x, hx, hxa⟩ := (names_ancestors_iff ht (hcs c hc)).2 h
    have hx' : x ∈ cs.flatMap fun c => c :: cat.ancestors c := List.mem_flatMap.2 ⟨c, hc, hx⟩
    obtain ⟨y, hy, hxy⟩ := FirstSeen.exists_mem_ofList hx'
    exact ⟨y, hy, (Capability.anon_eq_iff.1 (Capability.beq_iff.1 hxy)).1.symm.trans hxa⟩

/-- **Every required concept is one that something kept leads to**, whatever is required. -/
theorem exists_kept_name {required : List Capability} {c : Capability} (hc : c ∈ required) :
    ∃ d ∈ cat.minimize required, Descends cat.concepts d.concept c.concept := by
  have hall : ∀ c ∈ FirstSeen.ofList required,
      ∃ d ∈ cat.minimize required, Descends cat.concepts d.concept c.concept := by
    refine minimize_induction ht (fun c hc => ⟨c, hc, .refl _⟩) ?_
    rintro e c ⟨d, hd, hde⟩ himplies
    have hstep := descends_of_has ht (rank_lt_of_implies ht himplies).1
    exact ⟨d, hd, hde.trans hstep⟩
  obtain ⟨c', hc', heq⟩ := FirstSeen.exists_mem_ofList hc
  obtain ⟨d, hd, hin⟩ := hall c' hc'
  exact ⟨d, hd, (Capability.anon_eq_iff.1 (Capability.beq_iff.1 heq)).1 ▸ hin⟩

end Names

end Catalog

end InstanceSearch
