/-
  Members of a resolved witness can be looked up.

  Two parts of the program decide what an instance provides, each in its own way.  The search unifies
  what is required with the expansion of what the instance provides at new variables, after it dropped
  what is implied; the look-up of a member compares concept names in the expansion as it is written.

  WHY THEY AGREE
    Unification succeeds between capabilities of one concept only, and the names in an expansion are
    those that paths of parents lead to, at all arguments.  So what covers a requirement has its name in
    the expansion as it is written, and a requirement that was dropped has a name that one which was kept
    leads to (`solve_offers`).

  WHICH REQUIREMENTS A NODE HAS
    Every node of a witness answers one call of the search, for one parameter: the one of the query at the
    root, a witness parameter of the instance above it elsewhere.  An `Account` of a witness names the
    parameter at every node, and `Recounts` says that it does so rightly.
-/
import Mathlib.Data.List.Forall2
import InstanceSearch.Carrier.Lookup
import InstanceSearch.Proofs.Catalog.Names
import InstanceSearch.Proofs.Search.Resolution
import InstanceSearch.Proofs.Search.NewVars

namespace InstanceSearch

/-! ## Looking up -/

/-- A look-up that has an answer: a source of the member, or the news that nobody has it. -/
def Found (x : Except MemberError MemberSource) : Prop :=
  (∃ s, x = .ok s) ∨ ∃ member inst, x = .error (.missingMember member inst)

/-- `cat.Supplies w concept`: every look-up of a member of the concept on the witness has an answer. -/
def Catalog.Supplies (cat : Catalog) (w : Witness) (concept : String) : Prop :=
  ∀ (store : CarrierStore) (binder : Binder) (member : String),
    Found (store.lookup cat binder w concept member).1

theorem Catalog.supplies_ambient (cat : Catalog) (v : VarId) (name concept : String) :
    cat.Supplies (.ambient v name) concept := fun _ _ _ => Or.inl ⟨.ambient v, rfl⟩

/-- A default stands in, or is missing, if the concept was declared. -/
theorem CarrierStore.defaultFor_found {cat : Catalog} {concept : String} {d : Concept}
    (hd : cat.getConcept concept = .ok d) (store : CarrierStore) (binder : Binder) (i : Instance)
    (member : String) : Found (store.defaultFor cat binder i concept member).1 := by
  unfold defaultFor
  rcases hsynthesize : store.synthesize cat concept with ⟨e | _ | id, store'⟩
  · -- only an unknown concept has no answer
    unfold synthesize at hsynthesize
    rw [hd] at hsynthesize
    dsimp only at hsynthesize
    split at hsynthesize
    · split at hsynthesize <;> cases hsynthesize
    · cases hsynthesize
  · exact Or.inr ⟨member, i.name, rfl⟩
  · dsimp only
    split
    · exact Or.inl ⟨_, rfl⟩
    · exact Or.inr ⟨member, i.name, rfl⟩

/-- **A witness supplies every concept that its instance offers.** -/
theorem Catalog.Declared.supplies {cat : Catalog} (h : cat.Declared) {i : Instance}
    (hi : i ∈ cat.instances) {concept : String} (hoffers : Names (cat.expand i.provides) concept)
    (name : String) (args : List Argument) : cat.Supplies (.apply i.id name args) concept := by
  intro store binder member
  have hfits : ∀ c ∈ i.provides, ∃ d, lookup cat.concepts c.concept = some d := by
    intro c hc
    obtain ⟨d, hd, _⟩ := h.regular.instanceFits i hi c (List.mem_append.2 (Or.inl hc))
    exact ⟨d, hd⟩
  have hdeclared : ∃ d, cat.getConcept concept = .ok d := by
    obtain ⟨c, hc, hdescends⟩ := (names_expand_iff h.regular.ordered hfits).1 hoffers
    obtain ⟨d, hd⟩ := hdescends.declared h.regular.ordered (hfits c hc)
    exact ⟨d, getConcept_eq_ok_iff.2 hd⟩
  have hany : cat.offersConcept i.provides concept = true := by
    obtain ⟨x, hx, hname⟩ := hoffers
    exact List.any_eq_true.2 ⟨x, hx, beq_iff_eq.2 hname⟩
  unfold CarrierStore.lookup
  dsimp only
  rw [h.getInstance_id hi]
  dsimp only
  rw [if_pos hany]
  split
  · exact Or.inl ⟨_, rfl⟩
  · obtain ⟨d, hd⟩ := hdeclared
    exact store.defaultFor_found hd binder i member

/-! ## What the search requires is offered -/

namespace Search

open Catalog (Names Descends lookup)

variable {q : Search} (hcat : q.catalog.Declared)
  (hcand : ∀ i, Candidate.declared i ∈ q.candidates.values → i ∈ q.catalog.instances)
include hcat

/-- Every constraint of a request has a name that something required leads to. -/
theorem exists_required {r : Request} {c : Capability} (hc : c ∈ r.constraints) :
    ∃ d ∈ q.requirement r, Descends q.catalog.concepts d.concept c.concept := by
  have hm : r.context.applyTo c ∈ r.constraints.map r.context.applyTo := List.mem_map_of_mem hc
  have hkept := Catalog.exists_kept_name hcat.regular.ordered hm
  rw [Subst.concept_applyTo] at hkept
  unfold requirement
  dsimp only
  split
  · exact hkept
  · exact ⟨_, hm, .refl _⟩

/-- **An instance that matches offers every concept that was asked for**, as it is written. -/
theorem offers_of_match {i : Instance} (hi : i ∈ q.catalog.instances) {r : Request} {n : VarId}
    {m : Matched} (h : q.match? (.declared i) (q.requirement r) r.context n = some m) :
    ∀ c ∈ r.constraints, Names (q.catalog.expand i.provides) c.concept := by
  intro c hc
  have hordered := hcat.regular.ordered
  have hfits : ∀ c ∈ i.provides, ∃ d, lookup q.catalog.concepts c.concept = some d := by
    intro c hc
    obtain ⟨d, hd, _⟩ := hcat.regular.instanceFits i hi c (List.mem_append.2 (Or.inl hc))
    exact ⟨d, hd⟩
  obtain ⟨required, hrequired, hdescends⟩ := exists_required hcat hc
  have hcovered : Names _ required.concept := names_of_cover (match?_ok h).2.2 required hrequired
  -- the names are the same at the new variables and as written
  rw [Catalog.names_expand_iff hordered (by
    intro c hc
    obtain ⟨c', hc', rfl⟩ := List.mem_map.1 hc
    exact hfits c' hc')] at hcovered
  obtain ⟨_, hrenamed, hpath⟩ := hcovered
  obtain ⟨p, hp, rfl⟩ := List.mem_map.1 hrenamed
  exact (Catalog.names_expand_iff hordered hfits).2 ⟨p, hp, hpath.trans hdescends⟩

include hcand

/-- **The answer to a call supplies every concept that was asked for.** -/
theorem solve_supplies {levels : Nat} {r : Request} {st : State} {found : Solved}
    (h : (q.solve levels r st).1 = .ok found) :
    ∀ c ∈ r.constraints, q.catalog.Supplies found.witness c.concept := by
  intro c hc
  cases levels with
  | zero => cases h
  | succ levels =>
    obtain ⟨cand, hcandidate, n, m, _, hmatch, w, st₁, st₂, _, hsurvive, rfl⟩ :=
      step_ok (q.solve_next_le levels) h
    rcases survive_ok hsurvive with ⟨p, _, hw, _⟩ | ⟨i, found, st₃, hi, _, hw⟩
    · rw [hw]
      exact q.catalog.supplies_ambient _ _ _
    · have hdeclared : cand = .declared i := (match?_ok hmatch).1.symm.trans hi
      subst hdeclared
      have hinst := hcand i hcandidate
      rw [hw]
      exact hcat.supplies hinst (offers_of_match hcat hinst hmatch c hc) _ _

end Search

/-! ## The parameters of the nodes -/

/-- A witness, with the parameter that it was found for, and the same for each witness nested in it. -/
inductive Account where
  | node (param : Param) (witness : Witness) (parts : List Account)

namespace Account

def param : Account → Param
  | node p _ _ => p

def witness : Account → Witness
  | node _ w _ => w

def parts : Account → List Account
  | node _ _ parts => parts

/-- `a.Node b`: the account `b` stands somewhere in `a`. -/
inductive Node : Account → Account → Prop where
  | root (a : Account) : Node a a
  | part {a b c : Account} (h : b ∈ a.parts) (more : Node b c) : Node a c

end Account

namespace Search

/-- `q.Recounts levels r st a`: with so many levels left, the call for `r` in the state `st` is answered
    by the witness of `a`.  It is an ambient one; or one of an instance that matched, whose nested
    witnesses are those of the parts, each of which answers the call for its parameter: one of the
    witness parameters that were open, at its new variable. -/
def Recounts (q : Search) : Nat → Request → State → Account → Prop
  | 0, _, _, _ => False
  | levels + 1, r, st, a =>
    (∃ found, (q.solve (levels + 1) r st).1 = .ok found ∧ found.witness = a.witness) ∧
    ((∃ v name, a.witness = .ambient v name ∧ a.parts = []) ∨
      ∃ i n m st₁ args, q.match? (.declared i) (q.requirement r) r.context n = some m ∧
        a.witness = .apply i.id i.name args ∧
        a.witness.nested = a.parts.map Account.witness ∧
        (a.parts.map Account.param).Sublist (i.params.filter Param.isWitness) ∧
        q.openParams m = (a.parts.map Account.param).map (fun p => p.rename (newVars i.params n)) ∧
        List.Forall₂ (fun c b => q.Recounts levels c.1 c.2 b)
          (paramCalls (q.solve levels) (q.openParams m) m.subst st₁) a.parts)

/-- The open parameters of a match are some of the witness parameters of the instance, renamed. -/
theorem exists_opened {q : Search} {i : Instance} {required : List Capability} {context : Subst}
    {n : VarId} {m : Matched} (h : q.match? (.declared i) required context n = some m) :
    ∃ ps : List Param, ps.Sublist (i.params.filter Param.isWitness) ∧
      q.openParams m = ps.map fun p => p.rename (newVars i.params n) := by
  refine ⟨(i.params.filter Param.isWitness).filter fun p =>
    q.isOpen m.subst (p.rename (newVars i.params n)), List.filter_sublist, ?_⟩
  rw [openParams, (match?_ok h).2.1, List.filter_map, List.filter_filter]
  congr 1
  apply List.filter_congr
  intro p _
  rw [Function.comp_apply, isWitness_rename, Bool.and_comm]
  rfl

/-- The dependencies of a chain were found by the calls for its parameters, in order. -/
theorem Chain.forall₂_paramCalls {solver : Solver} {ps : List Param} {s s' : Subst} {st st' : State}
    {found : List Solved} (h : Chain solver ps s st found s' st') :
    List.Forall₂ (fun c f => (solver c.1 c.2).1 = .ok f) (paramCalls solver ps s st) found := by
  induction h with
  | nil => exact .nil
  | cons first more ih =>
    rw [paramCalls, first]
    exact .cons (by rw [first]) ih

/-- Dependencies that were found have accounts, if each of them has one for every parameter. -/
theorem exists_parts {S : Request × State → Solved → Prop} {R : Request × State → Account → Prop}
    (h : ∀ c f p, S c f → ∃ a, R c a ∧ a.param = p ∧ a.witness = f.witness)
    {cs : List (Request × State)} {found : List Solved} (hfound : List.Forall₂ S cs found)
    {ps : List Param} (hlength : cs.length = ps.length) :
    ∃ parts : List Account, parts.map Account.param = ps ∧
      parts.map Account.witness = found.map Solved.witness ∧ List.Forall₂ R cs parts := by
  induction hfound generalizing ps with
  | nil =>
    rw [List.length_eq_zero_iff.1 hlength.symm]
    exact ⟨[], rfl, rfl, .nil⟩
  | cons hfirst _ ih =>
    cases ps with
    | nil => cases hlength
    | cons p ps =>
      obtain ⟨b, hb, hbp, hbw⟩ := h _ _ p hfirst
      obtain ⟨parts, hp, hw, hall⟩ := ih (Nat.succ.inj hlength)
      refine ⟨b :: parts, ?_, ?_, .cons hb hall⟩
      · rw [List.map_cons, hbp, hp]
      · rw [List.map_cons, hbw, hw, List.map_cons]

/-- **Every success has an account**, for whatever parameter the call is made. -/
theorem exists_recounts {q : Search} {levels : Nat} {r : Request} {st : State} {found : Solved}
    (h : (q.solve levels r st).1 = .ok found) (p : Param) :
    ∃ a, q.Recounts levels r st a ∧ a.param = p ∧ a.witness = found.witness := by
  induction levels generalizing r st found p with
  | zero => cases h
  | succ levels ih =>
    obtain ⟨cand, hc, n, m, _, hmatch, w, st₁, st₂, _, hsurvive, rfl⟩ :=
      step_ok (q.solve_next_le levels) h
    rcases survive_ok hsurvive with ⟨a, _, hw, _⟩ | ⟨i, found, st₃, hi, hchain, hw⟩
    · exact ⟨.node p w.witness [], ⟨⟨_, h, rfl⟩, Or.inl ⟨a.id, a.name, hw, rfl⟩⟩, rfl, rfl⟩
    · have hdeclared : cand = .declared i := (match?_ok hmatch).1.symm.trans hi
      subst hdeclared
      obtain ⟨ps, hps, hopened⟩ := exists_opened hmatch
      have hcalls := hchain.forall₂_paramCalls
      have hcount : (q.openParams m).length = ps.length := by rw [hopened, List.length_map]
      have hlength := hcalls.length_eq.trans (hchain.length.trans hcount)
      obtain ⟨parts, hp, hws, hall⟩ := exists_parts (R := fun c b => q.Recounts levels c.1 c.2 b)
        (fun c f p hf => ih hf p) hcalls hlength
      have hnested : w.witness.nested = parts.map Account.witness := by
        rw [hws, hw]
        apply nested_arguments
        rw [List.length_map, hchain.length]
        exact length_openParams_le q m
      exact ⟨.node p w.witness parts, ⟨⟨_, h, rfl⟩, Or.inr ⟨i, n, m, _, _, hmatch, hw, hnested,
        hp.symm ▸ hps, hp.symm ▸ hopened, hall⟩⟩, rfl, rfl⟩

/-! ## Agreement -/

/-- The request names the concepts of the parameter's constraints. -/
def AsksFor (r : Request) (p : Param) : Prop :=
  r.constraints.map Capability.concept = p.constraints.map Capability.concept

theorem asksFor_rename {r : Request} {p : Param} {s : Subst} (h : r.constraints = (p.rename s).constraints) :
    AsksFor r p := by
  rw [AsksFor, h, constraints_rename, List.map_map]
  rfl

/-- Each call for parameters asks for what its parameter does. -/
theorem constraints_of_mem_paramCalls {solver : Solver} {ps : List Param} {s : Subst} {st : State} :
    ∀ e ∈ (paramCalls solver ps s st).zip ps, e.1.1.constraints = e.2.constraints := by
  induction ps generalizing s st with
  | nil =>
    intro e he
    cases he
  | cons p ps ih =>
    rw [paramCalls, List.zip_cons_cons]
    refine List.forall_mem_cons.2 ⟨rfl, ?_⟩
    rcases solver ⟨p.name, p.constraints, s⟩ st with ⟨e | found, st₁⟩
    · intro e he
      cases he
    · exact ih

/-- A part accounts for a call that asks for what its parameter does. -/
theorem Recounts.part {q : Search} {levels : Nat} {r : Request} {st : State} {a b : Account}
    (h : q.Recounts (levels + 1) r st a) (hb : b ∈ a.parts) :
    ∃ r' st', q.Recounts levels r' st' b ∧ AsksFor r' b.param := by
  obtain ⟨_, ⟨_, _, _, hnone⟩ | ⟨i, n, m, st₁, _, _, _, _, _, hopened, hall⟩⟩ := h
  · rw [hnone] at hb
    cases hb
  · obtain ⟨hlength, hzip⟩ := List.forall₂_iff_zip.1 hall
    rw [← List.map_snd_zip (Nat.le_of_eq hlength.symm), List.mem_map] at hb
    obtain ⟨⟨c, b⟩, hcb, rfl⟩ := hb
    refine ⟨c.1, c.2, hzip hcb, ?_⟩
    -- the call and its parameter stand at the same place of two lists
    have hparam : (c, b.param.rename (newVars i.params n)) ∈
        (paramCalls (q.solve levels) (q.openParams m) m.subst st₁).zip (q.openParams m) := by
      conv => arg 1; arg 2; rw [hopened]
      rw [List.map_map, List.zip_map_right]
      exact List.mem_map.2 ⟨(c, b), hcb, rfl⟩
    exact asksFor_rename (constraints_of_mem_paramCalls _ hparam)

/-- Every node accounts for a call that asks for what its parameter does. -/
theorem Recounts.node {q : Search} {levels : Nat} {r : Request} {st : State} {a b : Account}
    (h : q.Recounts levels r st a) (hp : AsksFor r a.param) (hb : a.Node b) :
    ∃ levels r st, q.Recounts levels r st b ∧ AsksFor r b.param := by
  induction hb generalizing levels r st with
  | root a => exact ⟨levels, r, st, h, hp⟩
  | part hpart _ ih =>
    cases levels with
    | zero => exact h.elim
    | succ levels =>
      obtain ⟨r', st', h', hp'⟩ := h.part hpart
      exact ih h' hp'

/-- What an account gives as the witness is the answer to the call. -/
theorem Recounts.solved {q : Search} {levels : Nat} {r : Request} {st : State} {a : Account}
    (h : q.Recounts levels r st a) :
    ∃ found, (q.solve levels r st).1 = .ok found ∧ found.witness = a.witness := by
  cases levels with
  | zero => exact h.elim
  | succ levels => exact h.1

/-- `q.AccountFor p context a`: `a` accounts for how the parameter was resolved. -/
def AccountFor (q : Search) (p : Param) (context : Subst) (a : Account) : Prop :=
  q.Recounts (q.config.maxDepth + 1) (queryRequest p context) (q.queryState p context) a ∧ a.param = p

/-- **Look-up agrees with resolution.**  A witness that is found from instances of a registry has an
    account; and every node of it supplies the concepts of all constraints of the parameter that the node
    was found for, those included that were dropped because others imply them. -/
theorem resolved_supplies {q : Search} (hcat : q.catalog.Declared)
    (hcand : ∀ i, Candidate.declared i ∈ q.candidates.values → i ∈ q.catalog.instances) {p : Param}
    {context : Subst} {res : Resolution} (h : q.resolveWith p context = .ok res) :
    (∃ a, q.AccountFor p context a ∧ a.witness = res.witness) ∧
    ∀ a, q.AccountFor p context a → a.witness = res.witness ∧
      ∀ b, a.Node b → ∀ c ∈ b.param.constraints, q.catalog.Supplies b.witness c.concept := by
  unfold resolveWith at h
  split at h
  · cases h
  · rename_i solved hsolved
    injection h with h
    subst h
    obtain ⟨a, ha, hp, hw⟩ := exists_recounts hsolved p
    refine ⟨⟨a, ⟨ha, hp⟩, hw⟩, ?_⟩
    rintro a ⟨ha, rfl⟩
    obtain ⟨found, hfound, hwitness⟩ := ha.solved
    refine ⟨?_, fun b hb c hc => ?_⟩
    · have hsame : found = solved := by
        injection hfound.symm.trans hsolved
      rw [← hwitness, hsame]
    · obtain ⟨levels, r, st, hnode, hasks⟩ := ha.node (b := b) rfl hb
      obtain ⟨found, hfound, hwitness⟩ := hnode.solved
      have hnamed : c.concept ∈ r.constraints.map Capability.concept := by
        rw [hasks]
        exact List.mem_map_of_mem hc
      obtain ⟨c', hc', hname⟩ := List.mem_map.1 hnamed
      rw [← hwitness, ← hname]
      exact solve_supplies hcat hcand hfound c' hc'

/-- `OrdList<Int, OrdInt>` is found for `Eq` and `Ord` of lists, where `Ord` implies `Eq`: it supplies
    both. -/
theorem resolved_supplies_ordering : ∃ (q : Search) (res : Resolution) (a : Account),
    q.resolveWith orderingQuery .empty = .ok res ∧ res.witness.text = "OrdList<Int, OrdInt>" ∧
    q.AccountFor orderingQuery .empty a ∧ a.witness = res.witness ∧
    q.catalog.Supplies res.witness "Eq" ∧ q.catalog.Supplies res.witness "Ord" := by
  have h : okAnd ordering (fun cat => okAnd (cat.searchAt .default Catalog.root) fun q =>
      okAnd (q.resolveWith orderingQuery .empty) fun r =>
        decide (r.witness.text = "OrdList<Int, OrdInt>")) = true := by decide +kernel
  obtain ⟨cat, hcat, h⟩ := okAnd_eq_true h
  obtain ⟨q, hq, h⟩ := okAnd_eq_true h
  obtain ⟨res, hres, h⟩ := okAnd_eq_true h
  obtain ⟨hcatalog, _, hoffers⟩ := Catalog.searchAt_ok hq
  obtain ⟨⟨a, ha, hw⟩, hall⟩ := resolved_supplies (hcatalog ▸ ordering_declared hcat)
    (fun i hi => hcatalog ▸ hoffers _ hi) hres
  have hroot := (hall a ha).2 a (.root a)
  rw [ha.2, hw] at hroot
  refine ⟨q, res, a, hres, of_decide_eq_true h, ha, hw, ?_, ?_⟩
  · exact hroot ⟨"Eq", [Ty.con "List" [.var 21 none]]⟩ List.mem_cons_self
  · exact hroot ⟨"Ord", [Ty.con "List" [.var 21 none]]⟩ (List.mem_cons_of_mem _ List.mem_cons_self)

end Search

end InstanceSearch
