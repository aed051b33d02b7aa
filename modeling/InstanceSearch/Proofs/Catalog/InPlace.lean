/-
  Declaring in place is declaring.

  A declaration that works in place leaves the catalog that the declaration gives, and where the
  declaration is refused it leaves the catalog as it was (`settle`).  So a session only ever meets
  catalogs that accepted declarations lead to (`session_declared`).

  THE ONE THAT TAKES BACK
    Only a concept is refused after something was written, namely its node and its edges.  To remove the
    node with all edges from and to it restores the graph, because the graph knew nothing of the concept:
    its nodes are the declared concepts and its edges lead between them.  For that the graph is DRAWN
    from the table (`Declared.hierarchy_eq`), whatever came before.
-/
import InstanceSearch.Catalog.InPlace
import InstanceSearch.Proofs.Catalog.Parents

namespace InstanceSearch

namespace Catalog

/-! ## The graph of a table -/

/-- `drawn table` = the graph of the concepts of a table, the oldest concept drawn first. -/
def drawn : List Concept → Hierarchy
  | [] => .empty
  | d :: older => (drawn older).add d.name (d.parents.map Capability.concept)

/-- **The graph shows the table.** -/
theorem Declared.hierarchy_eq {cat : Catalog} (h : Declared cat) :
    cat.hierarchy = drawn cat.concepts := by
  induction h with
  | empty => rfl
  | freshVar _ ih => exact ih
  | scope _ hok ih =>
    obtain ⟨_, rfl⟩ := declareScope_ok hok
    exact ih
  | «import» _ hok ih =>
    rw [addImport_ok hok]
    exact ih
  | concept _ hok ih =>
    obtain ⟨_, _, _, _, _, rfl, rfl⟩ := declareConcept_ok hok
    rw [ih]
    rfl
  | «instance» _ hok ih =>
    obtain ⟨_, rfl⟩ := declareInstance_ok hok
    exact ih

section Drawn

variable {table : List Concept}

theorem exists_of_mem_nodes {name : String} (h : name ∈ (drawn table).nodes) :
    ∃ d ∈ table, d.name = name := by
  induction table with
  | nil => cases h
  | cons d older ih =>
    rcases List.mem_append.1 h with h | h
    · obtain ⟨e, he, hname⟩ := ih h
      exact ⟨e, List.mem_cons_of_mem _ he, hname⟩
    · exact ⟨d, List.mem_cons_self .., (List.mem_singleton.1 h).symm⟩

/-- An edge leads from a concept to the concept of one of its parents. -/
theorem mem_edges_iff {e : String × String} :
    e ∈ (drawn table).edges ↔ ∃ d ∈ table, ∃ p ∈ d.parents, e = (d.name, p.concept) := by
  induction table with
  | nil =>
    constructor
    · exact fun h => nomatch h
    · rintro ⟨d, hd, _⟩
      cases hd
  | cons d older ih =>
    have hedges : (drawn (d :: older)).edges = (drawn older).edges ++
        (d.parents.map Capability.concept).map fun p => (d.name, p) := rfl
    have hown : (e ∈ (d.parents.map Capability.concept).map fun p => (d.name, p)) ↔
        ∃ p ∈ d.parents, e = (d.name, p.concept) := by
      rw [List.map_map, List.mem_map]
      exact exists_congr fun p => and_congr_right fun _ => eq_comm
    rw [hedges, List.mem_append, ih, hown, or_comm]
    simp only [List.mem_cons, exists_eq_or_imp]

/-- The names of a table are not among the undeclared ones. -/
theorem ne_of_undeclared {name : String} (h : lookup table name = none) {d : Concept}
    (hd : d ∈ table) : d.name ≠ name := by
  have hne := List.find?_eq_none.1 h d hd
  simpa using hne

/-- The graph knows nothing of an undeclared concept. -/
theorem drawn_unknown {name : String} (ht : Ordered table) (h : lookup table name = none) :
    name ∉ (drawn table).nodes ∧ ∀ e ∈ (drawn table).edges, e.1 ≠ name ∧ e.2 ≠ name := by
  constructor
  · intro hnode
    obtain ⟨d, hd, hname⟩ := exists_of_mem_nodes hnode
    exact ne_of_undeclared h hd hname
  · intro e he
    obtain ⟨d, hd, p, hp, rfl⟩ := mem_edges_iff.1 he
    obtain ⟨d', hd', _⟩ := fits_of_parent ht hd p hp
    have hto : p.concept ≠ name := by
      rw [← name_of_lookup hd']
      exact ne_of_undeclared h (mem_of_lookup hd')
    exact ⟨ne_of_undeclared h hd, hto⟩

end Drawn

/-! ## Program and declaration -/

/-- `settle cat r`: the outcome of a declaration on `cat`, and the catalog that then stands. -/
def settle {α : Type} (cat : Catalog) : Except DeclError (α × Catalog) → Except DeclError α × Catalog
  | .ok (a, cat') => (.ok a, cat')
  | .error e => (.error e, cat)

section Settle

variable {α β : Type} {cat : Catalog}

/-- A question first, on both sides. -/
theorem ask_settle {question : Catalog → Except DeclError α} {f : α → Update β}
    {g : α → Except DeclError (β × Catalog)} (h : ∀ a, f a cat = settle cat (g a)) :
    (Update.ask question >>= f) cat = settle cat (question cat >>= g) := by
  rw [Update.ask_bind_apply]
  cases question cat with
  | error e => rfl
  | ok a => exact h a

/-- A guard first, on both sides. -/
theorem guard_settle {c : Prop} [Decidable c] {e : DeclError} {f : Unit → Update β}
    {g : Unit → Except DeclError (β × Catalog)} (h : f () cat = settle cat (g ())) :
    (if c then Update.stop e >>= f else f ()) cat =
      settle cat (if c then throw e >>= g else g ()) := by
  by_cases hc : c
  · rw [if_pos hc, if_pos hc]
    rfl
  · rw [if_neg hc, if_neg hc]
    exact h

theorem declareScopeInPlace_eq (parent : ScopeId) (kind : ScopeKind) (name : String)
    (params : List Param) : declareScopeInPlace parent kind name params cat =
      settle cat (cat.declareScope parent kind name params) :=
  ask_settle fun _ => ask_settle fun _ => rfl

theorem addImportInPlace_eq (scope imported : ScopeId) : addImportInPlace scope imported cat =
    settle cat ((cat.addImport scope imported).map fun cat' => ((), cat')) := by
  unfold addImportInPlace addImport
  rw [Update.ask_bind_apply]
  cases cat.getScope imported with
  | error e => rfl
  | ok _ =>
    dsimp only
    rw [Update.ask_bind_apply]
    cases cat.getScope scope <;> rfl

theorem declareInstanceInPlace_eq (scope : ScopeId) (decl : InstanceDecl) :
    declareInstanceInPlace scope decl cat = settle cat (cat.declareInstance scope decl) := by
  refine ask_settle fun place => guard_settle ?_
  dsimp only
  cases decl.memberOf with
  | none => exact ask_settle fun _ => rfl
  | some container => exact ask_settle fun _ => ask_settle fun _ => rfl

/-- **A refused concept leaves no trace.** -/
theorem declareConceptInPlace_eq (h : Declared cat) (decl : ConceptDecl) :
    declareConceptInPlace decl cat =
      settle cat ((cat.declareConcept decl).map fun cat' => ((), cat')) := by
  unfold declareConceptInPlace declareConcept
  rw [Update.read_bind_apply]
  dsimp only
  by_cases hnew : (cat.concept? decl.name).isSome
  · rw [if_pos hnew, if_pos hnew]
    rfl
  · rw [if_neg hnew, if_neg hnew, Update.ask_bind_apply]
    cases cat.checkParents decl.name decl.parents with
    | error e => rfl
    | ok _ =>
      dsimp only
      rw [Update.write_bind_apply, Update.read_bind_apply]
      dsimp only
      by_cases hcyclic : (cat.hierarchy.add decl.name (decl.parents.map Capability.concept)).isCyclic
      · -- the node is there when the cycle is found, and is taken out again
        have hundeclared : lookup cat.concepts decl.name = none := by
          simpa [concept?, lookup] using hnew
        obtain ⟨hnode, hedges⟩ := drawn_unknown h.regular.ordered hundeclared
        rw [← h.hierarchy_eq] at hnode hedges
        have hback := Hierarchy.remove_add hnode hedges (decl.parents.map Capability.concept)
        rw [if_pos hcyclic, Update.write_bind_apply, Update.stop_bind_apply]
        dsimp only
        rw [hback]
        show _ = settle cat (Except.map _ (if _ then _ else _))
        rw [if_pos hcyclic]
        rfl
      · rw [if_neg hcyclic]
        show _ = settle cat (Except.map _ (if _ then _ else _))
        rw [if_neg hcyclic]
        rfl

/-- A settled program has failed and changed nothing, or has done what the declaration does. -/
theorem settle_cases {x : Update α} {r : Except DeclError (α × Catalog)}
    (hx : x cat = settle cat r) :
    (∃ e, (x >>= fun _ => pure ()) cat = (.error e, cat)) ∨
      ∃ cat', (x >>= fun _ => pure ()) cat = (.ok (), cat') ∧ ∃ a, r = .ok (a, cat') := by
  cases r with
  | error e => exact .inl ⟨e, Update.bind_of_error hx⟩
  | ok r => exact .inr ⟨r.2, Update.bind_of_ok hx, r.1, rfl⟩

end Settle

/-! ## Sessions -/

/-- `d.Accepted cat cat'`: the declaration takes `cat` to `cat'`. -/
def Declaration.Accepted (cat cat' : Catalog) : Declaration → Prop
  | .newVar => cat.freshVar.2 = cat'
  | .newScope parent kind name params =>
    ∃ id, cat.declareScope parent kind name params = .ok (id, cat')
  | .newImport scope imported => cat.addImport scope imported = .ok cat'
  | .newConcept decl => cat.declareConcept decl = .ok cat'
  | .newInstance scope decl => ∃ id, cat.declareInstance scope decl = .ok (id, cat')

theorem Declaration.Accepted.declared {cat cat' : Catalog} {d : Declaration} (h : d.Accepted cat cat')
    (hcat : Declared cat) : Declared cat' := by
  cases d with
  | newVar => exact h ▸ .freshVar hcat
  | newScope parent kind name params =>
    obtain ⟨id, hok⟩ := h
    exact .scope hcat hok
  | newImport scope imported => exact .import hcat h
  | newConcept decl => exact .concept hcat h
  | newInstance scope decl =>
    obtain ⟨id, hok⟩ := h
    exact .instance hcat hok

/-- **One declaration**: refused without a trace, or accepted. -/
theorem perform_cases {cat : Catalog} (h : Declared cat) (d : Declaration) :
    (∃ e, perform d cat = (.error e, cat)) ∨
      ∃ cat', perform d cat = (.ok (), cat') ∧ d.Accepted cat cat' := by
  cases d with
  | newVar => exact .inr ⟨cat.freshVar.2, rfl, rfl⟩
  | newScope parent kind name params =>
    exact settle_cases (declareScopeInPlace_eq parent kind name params)
  | newImport scope imported =>
    rw [perform, addImportInPlace_eq]
    cases hok : cat.addImport scope imported with
    | error e => exact .inl ⟨e, rfl⟩
    | ok cat' => exact .inr ⟨cat', rfl, hok⟩
  | newConcept decl =>
    rw [perform, declareConceptInPlace_eq h]
    cases hok : cat.declareConcept decl with
    | error e => exact .inl ⟨e, rfl⟩
    | ok cat' => exact .inr ⟨cat', rfl, hok⟩
  | newInstance scope decl => exact settle_cases (declareInstanceInPlace_eq scope decl)

/-- A declaration that fails changes nothing. -/
theorem perform_error {cat : Catalog} (h : Declared cat) {d : Declaration} {e : DeclError}
    (hfailed : (perform d cat).1 = .error e) : (perform d cat).2 = cat := by
  rcases perform_cases h d with ⟨e', he⟩ | ⟨cat', hok, _⟩
  · rw [he]
  · rw [hok] at hfailed
    cases hfailed

/-- **A session gives a registry**, whatever failed on the way. -/
theorem session_declared (ds : List Declaration) : Declared (session ds) := by
  refine List.foldlRecOn (motive := Declared) ds _ .empty fun cat h d _ => ?_
  rcases perform_cases h d with ⟨e, he⟩ | ⟨cat', hok, haccepted⟩
  · rw [he]
    exact h
  · rw [hok]
    exact haccepted.declared h

end Catalog

end InstanceSearch
