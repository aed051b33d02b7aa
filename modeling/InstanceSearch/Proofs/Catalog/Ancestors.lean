/-
  What the walk over ancestors finds.

  `ancestors` walks depth first and does not enter a capability twice.  Why does it still find all of
  them?  Because of what it keeps (`Walked`): whatever it has added is inherited, and all parents of
  what it has added are there, or will be by the time it returns.  So in the end the list is closed
  under parents, and `inherits_iff` follows: up to equality, a capability and its ancestors are what it
  inherits.

  The same holds of `expand` (`mem_expand_iff`).  `minimize` drops nothing that is not inherited from
  something it keeps (`exists_kept`): what implies a dropped capability has a younger concept, so
  looking for the one that implies it ends.
-/
import InstanceSearch.Proofs.Catalog.Parents

namespace InstanceSearch

namespace Catalog

/-! ## The walk -/

section Walk

variable {K : VarId → Prop} {table : List Concept} {c : Capability}

/-- A concept in an older part of an ordered table is the concept of that name. -/
theorem lookup_of_suffix {older : List Concept} (ht : Ordered table) (hs : older <:+ table)
    {name : String} {d : Concept} (h : lookup older name = some d) : lookup table name = some d := by
  obtain ⟨newer, rfl⟩ := hs
  induction newer with
  | nil => exact h
  | cons e newer ih =>
    cases ht with
    | cons new _ rest => exact lookup_cons_of_some new (ih rest)

/-- A part of an ordered table is ordered. -/
theorem Ordered.of_suffix {older : List Concept} (ht : Ordered table) (hs : older <:+ table) :
    Ordered older := by
  obtain ⟨newer, rfl⟩ := hs
  induction newer with
  | nil => exact ht
  | cons e newer ih =>
    cases ht with
    | cons _ _ rest => exact ih rest

/-- The parents of the first concept in a part of the table, and that they fit the rest of that part. -/
theorem parents_of_suffix {d : Concept} {older : List Concept} (ht : Ordered table)
    (hs : d :: older <:+ table) (hname : d.name = c.concept) :
    parents table c = d.parentsAt c.args ∧ ∀ p ∈ d.parentsAt c.args, Fits older p := by
  have hlookup : lookup (d :: older) c.concept = some d := hname ▸ lookup_cons_self d older
  refine ⟨parents_of_lookup (lookup_of_suffix ht hs hlookup), fun p hp => ?_⟩
  obtain ⟨p', hp', rfl⟩ := List.mem_map.1 hp
  cases ht.of_suffix hs with
  | cons _ hfit _ =>
    obtain ⟨e, he, hlength⟩ := hfit p' hp'
    refine ⟨e, he, ?_⟩
    rw [Subst.applyTo, Capability.args_map, List.length_map, hlength]

/-- What fits a table whose first concept has another name fits the rest. -/
theorem Fits.of_cons {d : Concept} {older : List Concept} (hname : d.name ≠ c.concept)
    (h : Fits (d :: older) c) : Fits older c := by
  obtain ⟨e, he, hlength⟩ := h
  rw [lookup_cons_of_ne hname] at he
  exact ⟨e, he, hlength⟩

/-- `Has found c`: something equal to `c` was found. -/
def Has (found : List Capability) (c : Capability) : Prop := ∃ x ∈ found, x.anon = c.anon

theorem Has.mono {xs ys : List Capability} (h : Has xs c) (hsub : ∀ x ∈ xs, x ∈ ys) : Has ys c := by
  obtain ⟨x, hx, heq⟩ := h
  exact ⟨x, hsub x hx, heq⟩

theorem contains_iff_has {found : List Capability} : found.contains c = true ↔ Has found c := by
  rw [List.contains_iff_exists_mem_beq]
  exact exists_congr fun x => and_congr_right fun _ => Capability.beq_iff.trans eq_comm

/-- `Walked table ps found all`: from `found` to `all`, capabilities were added that one of `ps` inherits;
    all of `ps` are there, and so are the parents of everything that was added. -/
structure Walked (table : List Concept) (ps found all : List Capability) : Prop where
  grown : ∃ new, all = found ++ new ∧ ∀ x ∈ new,
    (∃ p ∈ ps, Inherits table p x) ∧ ∀ y ∈ parents table x, Has all y
  start : ∀ p ∈ ps, Has all p

theorem Walked.subset {ps found all : List Capability} (h : Walked table ps found all) :
    ∀ x ∈ found, x ∈ all := by
  obtain ⟨new, rfl, _⟩ := h.grown
  exact fun x hx => List.mem_append.2 (Or.inl hx)

theorem walked_nil (found : List Capability) : Walked table [] found found where
  grown := ⟨[], by simp, fun x hx => nomatch hx⟩
  start := fun p hp => nomatch hp

/-- One parent after the other. -/
theorem Walked.cons {p : Capability} {ps found mid all : List Capability}
    (h : Walked table [p] found mid) (h' : Walked table ps mid all) :
    Walked table (p :: ps) found all where
  grown := by
    have hsub := h'.subset
    obtain ⟨new, rfl, hnew⟩ := h.grown
    obtain ⟨new', rfl, hnew'⟩ := h'.grown
    refine ⟨new ++ new', by rw [List.append_assoc], ?_⟩
    intro x hx
    rcases List.mem_append.1 hx with hx | hx
    · obtain ⟨⟨p', hp', hin⟩, hparents⟩ := hnew x hx
      rw [List.mem_singleton.1 hp'] at hin
      exact ⟨⟨p, List.mem_cons_self .., hin⟩, fun y hy => (hparents y hy).mono hsub⟩
    · obtain ⟨⟨p', hp', hin⟩, hparents⟩ := hnew' x hx
      exact ⟨⟨p', List.mem_cons_of_mem _ hp', hin⟩, hparents⟩
  start := by
    refine List.forall_mem_cons.2 ⟨?_, h'.start⟩
    exact (h.start p (by simp)).mono h'.subset

/-- A capability that is there is not entered; one that is not is added, followed by its ancestors. -/
theorem walked_enter {p : Capability} {found all : List Capability}
    (h : Walked table (parents table p) (found ++ [p]) all) : Walked table [p] found all where
  grown := by
    obtain ⟨new, rfl, hnew⟩ := h.grown
    refine ⟨p :: new, by simp, ?_⟩
    refine List.forall_mem_cons.2 ⟨?_, ?_⟩
    · exact ⟨⟨p, by simp, .refl rfl⟩, h.start⟩
    · intro x hx
      obtain ⟨⟨p', hp', hin⟩, hparents⟩ := hnew x hx
      exact ⟨⟨p, by simp, .step hp' hin⟩, hparents⟩
  start := by
    intro p' hp'
    rw [List.mem_singleton.1 hp']
    exact ⟨p, h.subset p (by simp), rfl⟩

theorem walked_skip {p : Capability} {found : List Capability} (h : found.contains p = true) :
    Walked table [p] found found where
  grown := ⟨[], by simp, fun x hx => nomatch hx⟩
  start := fun p' hp' => List.mem_singleton.1 hp' ▸ contains_iff_has.1 h

/-- The walk over parents, one after the other, where each is walked from. -/
theorem walked_foldl {into : Capability → List Capability → List Capability}
    {ps : List Capability}
    (hinto : ∀ p ∈ ps, ∀ found, Walked table (parents table p) found (into p found))
    (found : List Capability) :
    Walked table ps found
      (ps.foldl (fun found p => if found.contains p then found else into p (found ++ [p])) found) := by
  induction ps generalizing found with
  | nil => exact walked_nil found
  | cons p ps ih =>
    rw [List.foldl_cons]
    have hrest := ih fun p' hp' => hinto p' (List.mem_cons_of_mem _ hp')
    by_cases hc : found.contains p = true
    · rw [if_pos hc]
      exact (walked_skip hc).cons (hrest found)
    · rw [if_neg hc]
      exact (walked_enter (hinto p (List.mem_cons_self ..) _)).cons (hrest _)

/-- **The walk adds what is inherited, and all of it.** -/
theorem walked_ancestorsInto (ht : Proper K table) {older : List Concept} (hs : older <:+ table)
    (hc : Good K table c) (hfits : Fits older c) (found : List Capability) :
    Walked table (parents table c) found (ancestorsInto older c found) := by
  induction older generalizing c found with
  | nil =>
    obtain ⟨d, hd, _⟩ := hfits
    cases hd
  | cons d older ih =>
    have hs' : older <:+ table := (List.suffix_cons d older).trans hs
    rw [ancestorsInto]
    by_cases hname : d.name = c.concept
    · obtain ⟨hparents, hfit⟩ := parents_of_suffix ht.ordered hs hname
      rw [if_pos hname, hparents]
      refine walked_foldl (fun p hp found => ?_) found
      exact ih hs' (good_of_mem_parents ht hc (hparents ▸ hp)) (hfit p hp) found
    · rw [if_neg hname]
      exact ih hs' hc (hfits.of_cons hname) found

end Walk

/-! ## Ancestors -/

section Ancestors

variable {cat : Catalog} {K : VarId → Prop} {c d : Capability}

theorem walked_ancestors (ht : Proper K cat.concepts) (hc : Good K cat.concepts c) :
    Walked cat.concepts (parents cat.concepts c) [] (cat.ancestors c) :=
  walked_ancestorsInto ht (List.suffix_refl _) hc hc.fits []

/-- What is closed under parents holds whatever is inherited from its members. -/
theorem Has.of_inherits (ht : Proper K cat.concepts) {all : List Capability} {a : Capability}
    (hclosed : ∀ x ∈ all, ∀ y ∈ parents cat.concepts x, Has all y) (h : Inherits cat.concepts a d)
    (hgood : Good K cat.concepts a) (ha : Has all a) : Has all d := by
  induction h with
  | refl heq =>
    obtain ⟨x, hx, hxa⟩ := ha
    exact ⟨x, hx, hxa.trans heq⟩
  | step hp _ ih =>
    obtain ⟨x, hx, hxa⟩ := ha
    obtain ⟨p', hp', heq⟩ := exists_parent_of_equal ht hgood hxa.symm hp
    obtain ⟨y, hy, hyp⟩ := hclosed x hx p' hp'
    exact ih (good_of_mem_parents ht hgood hp) ⟨y, hy, hyp.trans heq.symm⟩

/-- **The ancestors are what is inherited from a parent**, up to equality. -/
theorem has_ancestors_iff_parent (ht : Proper K cat.concepts) (hc : Good K cat.concepts c) :
    Has (cat.ancestors c) d ↔ ∃ p ∈ parents cat.concepts c, Inherits cat.concepts p d := by
  have hwalked := walked_ancestors ht hc
  obtain ⟨new, hnew, hall⟩ := hwalked.grown
  rw [List.nil_append] at hnew
  constructor
  · rintro ⟨x, hx, heq⟩
    obtain ⟨⟨p, hp, hin⟩, _⟩ := hall x (hnew ▸ hx)
    exact ⟨p, hp, hin.congr_right heq⟩
  · rintro ⟨p, hp, hin⟩
    refine Has.of_inherits ht (fun x hx => ?_) hin (good_of_mem_parents ht hc hp) (hwalked.start p hp)
    exact (hall x (hnew ▸ hx)).2

/-- **A capability and its ancestors are what it inherits**, up to equality. -/
theorem has_ancestors_iff (ht : Proper K cat.concepts) (hc : Good K cat.concepts c) :
    Has (c :: cat.ancestors c) d ↔ Inherits cat.concepts c d := by
  have hcons : Has (c :: cat.ancestors c) d ↔ c.anon = d.anon ∨ Has (cat.ancestors c) d := by
    simp [Has]
  rw [hcons, has_ancestors_iff_parent ht hc]
  constructor
  · rintro (heq | ⟨p, hp, hin⟩)
    · exact .refl heq
    · exact .step hp hin
  · intro h
    cases h with
    | refl heq => exact Or.inl heq
    | step hp hin => exact Or.inr ⟨_, hp, hin⟩

/-- **What is offered is what is inherited from something that is provided.** -/
theorem has_expand_iff (ht : Proper K cat.concepts) {provides : List Capability}
    (hgood : ∀ c ∈ provides, Good K cat.concepts c) :
    Has (cat.expand provides) d ↔ ∃ c ∈ provides, Inherits cat.concepts c d := by
  constructor
  · rintro ⟨x, hx, heq⟩
    obtain ⟨c, hc, hxc⟩ := List.mem_flatMap.1 (FirstSeen.mem_of_mem_ofList hx)
    exact ⟨c, hc, (has_ancestors_iff ht (hgood c hc)).1 ⟨x, hxc, heq⟩⟩
  · rintro ⟨c, hc, hin⟩
    obtain ⟨x, hx, heq⟩ := (has_ancestors_iff ht (hgood c hc)).2 hin
    have hx' : x ∈ provides.flatMap fun c => c :: cat.ancestors c := List.mem_flatMap.2 ⟨c, hc, hx⟩
    obtain ⟨y, hy, hxy⟩ := FirstSeen.exists_mem_ofList hx'
    exact ⟨y, hy, (Capability.beq_iff.1 hxy).symm.trans heq⟩

/-- Everything that is offered is good. -/
theorem good_of_mem_expand (ht : Proper K cat.concepts) {provides : List Capability}
    (hgood : ∀ c ∈ provides, Good K cat.concepts c) (h : d ∈ cat.expand provides) :
    Good K cat.concepts d := by
  obtain ⟨c, hc, hin⟩ := (has_expand_iff ht hgood).1 ⟨d, h, rfl⟩
  exact hin.good ht (hgood c hc)

end Ancestors

/-! ## Implied requirements -/

/-- `rank table name` = the number of concepts from the one of that name on, which are those that it may
    inherit from. -/
def rank : List Concept → String → Nat
  | [], _ => 0
  | d :: older, name => if d.name = name then older.length + 1 else rank older name

theorem rank_le (table : List Concept) (name : String) : rank table name ≤ table.length := by
  induction table with
  | nil => exact Nat.le_refl _
  | cons d older ih =>
    rw [rank, List.length_cons]
    split <;> omega

theorem Fits.declared {table : List Concept} {c : Capability} (h : Fits table c) :
    lookup table c.concept ≠ none := by
  obtain ⟨d, hd, _⟩ := h
  rw [hd]
  exact Option.some_ne_none d

/-- A concept that is declared in the older part keeps its rank. -/
theorem rank_cons_of_declared {d : Concept} {older : List Concept} {name : String}
    (new : lookup older d.name = none) (h : lookup older name ≠ none) :
    lookup (d :: older) name ≠ none ∧ rank (d :: older) name = rank older name := by
  have hne : d.name ≠ name := fun he => h (he ▸ new)
  rw [lookup_cons_of_ne hne, rank, if_neg hne]
  exact ⟨h, rfl⟩

theorem mem_foldl_into {into : Capability → List Capability → List Capability}
    {P : Capability → Prop} {ps : List Capability} (hps : ∀ p ∈ ps, P p)
    (hinto : ∀ p ∈ ps, ∀ found, ∀ x ∈ into p found, x ∈ found ∨ P x) {found : List Capability}
    {x : Capability}
    (h : x ∈ ps.foldl (fun found p => if found.contains p then found else into p (found ++ [p]))
      found) : x ∈ found ∨ P x := by
  induction ps generalizing found with
  | nil => exact Or.inl h
  | cons p ps ih =>
    rw [List.forall_mem_cons] at hps hinto
    rcases ih hps.2 hinto.2 h with h | h
    · dsimp only at h
      split at h
      · exact Or.inl h
      · rcases hinto.1 _ x h with h | h
        · rcases List.mem_append.1 h with h | h
          · exact Or.inl h
          · exact Or.inr (List.mem_singleton.1 h ▸ hps.1)
        · exact Or.inr h
    · exact Or.inr h

/-- **Ancestors have older concepts**, whatever the arguments. -/
theorem rank_lt_of_mem_ancestorsInto {table : List Concept} (ht : Ordered table) {c x : Capability}
    {found : List Capability} (h : x ∈ ancestorsInto table c found) :
    x ∈ found ∨ lookup table x.concept ≠ none ∧ rank table x.concept < rank table c.concept := by
  induction ht generalizing c x found with
  | nil => exact Or.inl h
  | @cons d older new hparents _ ih =>
    rw [ancestorsInto] at h
    by_cases hname : d.name = c.concept
    · rw [if_pos hname] at h
      have hrank : rank (d :: older) c.concept = older.length + 1 := by
        rw [rank, if_pos hname]
      rw [hrank]
      have hold : ∀ {name}, lookup older name ≠ none →
          lookup (d :: older) name ≠ none ∧ rank (d :: older) name < older.length + 1 := by
        intro name hn
        have := rank_le older name
        obtain ⟨hsome, heq⟩ := rank_cons_of_declared new hn
        exact ⟨hsome, by omega⟩
      refine mem_foldl_into (P := fun x => lookup (d :: older) x.concept ≠ none ∧
        rank (d :: older) x.concept < older.length + 1) ?_ ?_ h
      · intro p hp
        obtain ⟨p', hp', rfl⟩ := List.mem_map.1 hp
        exact hold (hparents p' hp').declared
      · intro p _ found y hy
        rcases ih hy with hy | ⟨hsome, _⟩
        · exact Or.inl hy
        · exact Or.inr (hold hsome)
    · rw [if_neg hname] at h
      rcases ih h with h | ⟨hsome, hlt⟩
      · exact Or.inl h
      · obtain ⟨hsome', heq⟩ := rank_cons_of_declared new hsome
        refine Or.inr ⟨hsome', ?_⟩
        rw [heq, rank, if_neg hname]
        exact hlt

theorem rank_lt_of_has {cat : Catalog} (ht : Ordered cat.concepts) {c d : Capability}
    (h : Has (cat.ancestors d) c) : lookup cat.concepts c.concept ≠ none ∧
      rank cat.concepts c.concept < rank cat.concepts d.concept := by
  obtain ⟨x, hx, heq⟩ := h
  rw [← (Capability.anon_eq_iff.1 heq).1]
  exact (rank_lt_of_mem_ancestorsInto ht hx).resolve_left (nomatch ·)

/-- What is implied has an older concept. -/
theorem rank_lt_of_implies {cat : Catalog} (ht : Ordered cat.concepts) {c d : Capability}
    (h : cat.implies d c = true) :
    Has (cat.ancestors d) c ∧ rank cat.concepts c.concept < rank cat.concepts d.concept := by
  have hcontains : (cat.ancestors d).contains c = true := by
    unfold implies at h
    simp only [Bool.and_eq_true] at h
    exact h.2
  have hhas := contains_iff_has.1 hcontains
  exact ⟨hhas, (rank_lt_of_has ht hhas).2⟩

/-- **Induction over what is required.**  What holds of the capabilities that are kept, and passes from a
    capability to those that it implies, holds of all of them: looking for what implies a dropped one
    leads up the table, which ends. -/
theorem minimize_induction {cat : Catalog} (ht : Ordered cat.concepts) {required : List Capability}
    {P : Capability → Prop} (kept : ∀ c ∈ cat.minimize required, P c)
    (implied : ∀ d c, P d → cat.implies d c = true → P c) : ∀ c ∈ FirstSeen.ofList required, P c := by
  have hall : ∀ n, ∀ c ∈ FirstSeen.ofList required,
      cat.concepts.length - rank cat.concepts c.concept < n → P c := by
    intro n
    induction n with
    | zero => exact fun c _ hn => absurd hn (Nat.not_lt_zero _)
    | succ n ih =>
      intro c hc hn
      by_cases hkept : c ∈ cat.minimize required
      · exact kept c hkept
      · have hdropped : ∃ e ∈ FirstSeen.ofList required, cat.implies e c = true := by
          simp only [minimize, List.mem_filter, Bool.not_eq_true', not_and,
            Bool.not_eq_false, List.any_eq_true, Bool.and_eq_true] at hkept
          obtain ⟨e, he, _, himplies⟩ := hkept hc
          exact ⟨e, he, himplies⟩
        obtain ⟨e, he, himplies⟩ := hdropped
        have hlt := (rank_lt_of_implies ht himplies).2
        have hbound := rank_le cat.concepts e.concept
        exact implied e c (ih e he (by omega)) himplies
  exact fun c hc => hall _ c hc (Nat.lt_succ_self _)

/-- **Nothing is dropped that is not inherited from something that is kept.** -/
theorem exists_kept {cat : Catalog} {K : VarId → Prop} (ht : Proper K cat.concepts)
    {required : List Capability} {c : Capability} (hc : c ∈ required)
    (hgood : ∀ d ∈ cat.minimize required, Good K cat.concepts d) :
    ∃ d ∈ cat.minimize required, Inherits cat.concepts d c := by
  have hall : ∀ c ∈ FirstSeen.ofList required,
      ∃ d ∈ cat.minimize required, Inherits cat.concepts d c := by
    refine minimize_induction ht.ordered (fun c hc => ⟨c, hc, .refl rfl⟩) ?_
    rintro e c ⟨d, hd, hin⟩ himplies
    have he := hin.good ht (hgood d hd)
    obtain ⟨p, hp, hstep⟩ := (has_ancestors_iff_parent ht he).1 (rank_lt_of_implies ht.ordered himplies).1
    exact ⟨d, hd, hin.trans ht (.step hp hstep) (hgood d hd)⟩
  obtain ⟨c', hc', heq⟩ := FirstSeen.exists_mem_ofList hc
  obtain ⟨d, hd, hin⟩ := hall c' hc'
  exact ⟨d, hd, hin.congr_right (Capability.beq_iff.1 heq).symm⟩

end Catalog

end InstanceSearch
