/-
  The variable of a default carrier, and the types of its members.

  A carrier is generic over a variable that its concept set aside.  That is sound only if the variable is
  found nowhere else in the carrier: a member whose type happened to mention it would be taken for one
  that speaks of the witness.

  MEMBERS AND METHODS
    Each member was made by some binder out of a method with a default body (`yields_of_mem_bindAll`).  A
    binder that invents no variables (`KeepsVars`, as `asDeclared` does not) gives it the variables of the
    method, and no store ever holds a member with others (`after_typed`).

  STATEMENT (`watermark_covers`)
    The watermark is above all that was handed out or declared, except that the types of methods count only
    where `MethodsReserved` says so.  In that case the variable of the carrier is new to its members; the
    last clause says what the condition comes to when the concept is declared.  `covered` is a concept that
    meets it, and `uncovered` one that fails it, and both conclusions fail with it.
-/
import InstanceSearch.Proofs.Carrier.Sessions
import InstanceSearch.Proofs.Catalog.Integrity
import InstanceSearch.Proofs.Catalog.Watermark

namespace InstanceSearch

/-! ## Binders that invent no variables -/

/-- `Yields m b`: the binding `b` may end in the member `m`, depending on what its requests are answered. -/
inductive Binding.Yields (m : Member) : Binding → Prop where
  | done : Yields m (.done (.ok m))
  | request {concept : String} {next : Except DeclError (Option CarrierId) → Binding}
      (answer : Except DeclError (Option CarrierId)) (h : Yields m (next answer)) :
      Yields m (.request concept next)

/-- The types of members mention variables of their methods only. -/
def Binder.KeepsVars (binder : Binder) : Prop :=
  ∀ (shell : Shell) (method : Method) (m : Member), (binder shell method).Yields m →
    ∀ v ∈ m.signature.vars, v ∈ method.signature.vars

/-- The binder of a call, if it has one, invents no variables. -/
def Call.KeepsVars : Call → Prop
  | .carrier _ => True
  | .members binder _ | .member binder _ _ _ => binder.KeepsVars

theorem Binder.asDeclared_keepsVars : Binder.asDeclared.KeepsVars := by
  intro shell method m h v hv
  unfold Binder.asDeclared at h
  dsimp only at h
  split at h
  · cases h
  · cases h
    exact hv

namespace CarrierStore

variable {cat : Catalog} {store store' : CarrierStore} {binder : Binder} {m : Member}

/-! ## Where members come from -/

theorem yields_of_run {b : Binding} (h : (run cat b store).1 = .ok m) : b.Yields m := by
  induction b generalizing store with
  | done result =>
    rw [run_done] at h
    subst h
    exact .done
  | request concept next ih =>
    rw [run_request] at h
    exact .request _ (ih _ h)

theorem yields_of_mem_outcomes {shell : Shell} {methods : List Method}
    (h : m ∈ successes (outcomes cat binder shell methods store)) :
    ∃ method ∈ methods, (binder shell method).Yields m := by
  induction methods generalizing store with
  | nil => cases h
  | cons method rest ih =>
    obtain ⟨result, hresult, hm⟩ := List.mem_filterMap.1 h
    rcases List.mem_cons.1 hresult with hfirst | hlater
    · have hrun : (run cat (binder shell method) store).1 = .ok m := by
        rw [← hfirst]
        cases result with
        | error e => cases hm
        | ok m' =>
          injection hm with hm
          exact congrArg Except.ok hm
      exact ⟨method, List.mem_cons_self, yields_of_run hrun⟩
    · obtain ⟨method', hmethod', hyields⟩ := ih (List.mem_filterMap.2 ⟨result, hlater, hm⟩)
      exact ⟨method', List.mem_cons_of_mem method hmethod', hyields⟩

/-- **Every bound member was made out of a method.** -/
theorem yields_of_mem_bindAll {shell : Shell} {methods : List Method}
    (h : m ∈ (bindAll cat binder shell methods .empty store).1.bound.values) :
    ∃ method ∈ methods, (binder shell method).Yields m := by
  rw [bindAll_eq] at h
  obtain ⟨⟨name, m'⟩, hentry, rfl⟩ := List.mem_map.1 h
  have hfind := OrderedMap.find?_eq_some_iff.2 hentry
  rw [(Members.records_foldl _).first] at hfind
  exact yields_of_mem_outcomes (List.mem_of_find?_eq_some hfind)

/-! ## Stores of such members -/

/-- The types of bound members mention variables of the methods that the carrier defaults. -/
def Typed (store : CarrierStore) : Prop :=
  ∀ (id : CarrierId) (c : Carrier), store.carriers[id]? = some c → ∀ ms, c.members? = some ms →
    ∀ m ∈ ms.bound.values, ∃ method ∈ c.defaults, ∀ v ∈ m.signature.vars, v ∈ method.signature.vars

theorem Typed.appends (h : Typed store) (happends : Appends store store') : Typed store' := by
  obtain ⟨new, hnew, hbare⟩ := happends
  intro id c hc ms hms
  rw [hnew, List.getElem?_append] at hc
  split at hc
  · exact h id c hc ms hms
  · rw [hbare c (List.mem_of_getElem? hc)] at hms
    cases hms

theorem members_typed (h : Typed store) (hbinder : binder.KeepsVars) (id : CarrierId) :
    Typed (store.members cat binder id).2 := by
  rcases members_cases store cat binder id with ⟨hsame, _⟩ | ⟨c, hc, _, hbinds⟩
  · rw [hsame]
    exact h
  · have happends := bindAll_appends cat binder c.shell c.defaults .empty store
    rw [hbinds]
    intro j c' hc' ms hms m hm
    obtain ⟨e, he, rfl⟩ := exists_of_getElem?_modify hc'
    split at hms
    · -- the carrier whose members were entered is the one that was asked for
      rename_i hj
      subst hj
      rw [happends.getElem? hc] at he
      obtain rfl := Option.some.inj he
      obtain rfl := Option.some.inj hms
      obtain ⟨method, hmethod, hyields⟩ := yields_of_mem_bindAll hm
      refine ⟨method, ?_, hbinder c.shell method m hyields⟩
      rw [if_pos rfl]
      exact hmethod
    · rename_i hj
      rw [if_neg hj]
      exact h.appends happends j e he ms hms m hm

theorem keepsVars_of_asks {c : Call} {id : CarrierId} (hkeeps : c.KeepsVars)
    (h : c.asks cat store = some (binder, id, store')) : binder.KeepsVars := by
  cases c with
  | carrier concept => cases h
  | members binder' id' =>
    cases h
    exact hkeeps
  | member binder' w concept name =>
    rcases Call.asks_member_cases cat store binder' w concept name with
      ⟨_, _, _, _, _, hasks⟩ | ⟨hasks, _⟩
    · rw [hasks] at h
      cases h
      exact hkeeps
    · rw [hasks] at h
      cases h

theorem serve_typed (h : Typed store) {c : Call} (hkeeps : c.KeepsVars) :
    Typed (c.serve cat store).2 := by
  cases hasks : c.asks cat store with
  | none => exact h.appends (Call.serve_of_not_asks hasks).appends
  | some asked =>
    obtain ⟨binder, id, store'⟩ := asked
    obtain ⟨hrequested, hstore, _⟩ := Call.serve_of_asks hasks
    rw [hstore]
    exact members_typed (h.appends hrequested.appends) (keepsVars_of_asks hkeeps hasks) id

/-- **After any calls**, the types of members are made of the variables of methods. -/
theorem after_typed {calls : List Call} (hkeeps : ∀ c ∈ calls, c.KeepsVars) :
    Typed (empty.after cat calls) := by
  refine List.foldlRecOn (motive := Typed) calls _ ?_ fun store h c hc => serve_typed h (hkeeps c hc)
  exact fun id c hc => nomatch hc

/-- A carrier is made of its concept. -/
theorem Made.of_getConcept (h : Made cat store) {c : Carrier} (hc : c ∈ store.carriers) {d : Concept}
    (hd : cat.getConcept c.shell.concept = .ok d) :
    c.shell = (Carrier.ofConcept d).shell ∧ c.defaults = (Carrier.ofConcept d).defaults := by
  obtain ⟨d', hd', hshell, hdefaults⟩ := h.made c hc
  rw [hshell] at hd
  obtain rfl := Except.ok.inj (hd'.symm.trans hd)
  exact ⟨hshell, hdefaults⟩

end CarrierStore

namespace Catalog

/-- **The watermark covers the declarations**, and of the types of methods those that were reserved. -/
theorem watermark_covers (ds : List Declaration) :
    Covered ds ∧
    -- the types of methods, where they were reserved
    (∀ d ∈ (session ds).concepts, d.MethodsReserved → ∀ v ∈ d.methodVars, v < (session ds).nextVar) ∧
    -- the variable of a carrier is new to its members, on the same condition
    (∀ calls : List Call, (∀ c ∈ calls, c.KeepsVars) →
      ∀ c ∈ (CarrierStore.empty.after (session ds) calls).carriers, ∀ d,
        (session ds).getConcept c.shell.concept = .ok d →
        c.shell.witness.id = d.carrierVar ∧ (d.MethodsReserved → ∀ ms, c.members? = some ms →
          ∀ m ∈ ms.bound.values, c.shell.witness.id ∉ m.signature.vars)) ∧
    -- what the condition comes to for a concept that is accepted next
    ∀ decl, (perform (.newConcept decl) (session ds)).1 = .ok () →
      ∃ d, (session (ds ++ [.newConcept decl])).concept? decl.name = some d ∧
        d.fragments = decl.fragments ∧
        (d.MethodsReserved ↔ (∀ v ∈ d.methodVars, v < (session (ds ++ [.newConcept decl])).nextVar) ∧
          d.carrierVar ∉ d.methodVars) ∧
        (d.MethodsReserved ↔ ∀ v ∈ d.methodVars, v < (session ds).nextVar ∨
          ∃ w ∈ decl.params.flatMap Param.vars ++ decl.parents.flatMap Capability.vars, v ≤ w) := by
  have hcovered := session_covered ds
  refine ⟨hcovered, ?_, ?_, ?_⟩
  · intro d hd hreserved v hv
    exact Nat.lt_trans (hreserved v hv) (hcovered.handedOut_lt _ (hcovered.carriers d hd).1)
  · intro calls hkeeps c hc d hd
    have hmade := CarrierStore.after_made (CarrierStore.empty_made (session ds)) calls
    obtain ⟨hshell, hdefaults⟩ := hmade.of_getConcept hc hd
    have hid : c.shell.witness.id = d.carrierVar := by rw [hshell]; rfl
    refine ⟨hid, fun hreserved ms hms m hm hmem => ?_⟩
    obtain ⟨id, hindex⟩ := List.mem_iff_getElem?.1 hc
    obtain ⟨method, hmethod, hvars⟩ := CarrierStore.after_typed hkeeps id c hindex ms hms m hm
    rw [hdefaults] at hmethod
    have hmethodVars : c.shell.witness.id ∈ d.methodVars :=
      List.mem_flatMap.2 ⟨method, (List.mem_filter.1 hmethod).1, hvars _ hmem⟩
    exact Nat.lt_irrefl _ (hid ▸ hreserved _ hmethodVars)
  · intro decl hok
    rcases perform_cases (session_declared ds) (.newConcept decl) with ⟨e, he⟩ | ⟨cat', hcat', haccepted⟩
    · rw [he] at hok
      cases hok
    · have hnext : session (ds ++ [.newConcept decl]) = cat' := by
        rw [session, List.foldl_append, ← session]
        exact congrArg Prod.snd hcat'
      rw [hnext]
      exact methodsReserved_iff haccepted

/-- A concept with a method on its parameter. -/
def covered : ConceptDecl where
  name := "Show"
  params := [⟨0, "T", .ordinary⟩]
  parents := []
  fragments := [.method ⟨"show", [.var 0 none], .con "String" [], some "text"⟩]

/-- Its variable was reserved, so it is below the watermark, and the variable of the carrier is new to the
    member. -/
theorem watermark_covers_show :
    ∃ d ∈ (session [.newConcept covered]).concepts, d.MethodsReserved ∧ d.methodVars = [0] ∧
      (∀ v ∈ d.methodVars, v < (session [.newConcept covered]).nextVar) ∧
      ∃ c ∈ (CarrierStore.empty.after (session [.newConcept covered])
          [.carrier "Show", .members .asDeclared 0]).carriers,
        c.shell.witness.id = d.carrierVar ∧ ∃ ms, c.members? = some ms ∧ ms.bound.keys = ["show"] ∧
          ∀ m ∈ ms.bound.values, c.shell.witness.id ∉ m.signature.vars := by
  obtain ⟨_, hmethods, hcarriers, _⟩ := watermark_covers [.newConcept covered]
  have hkeeps : ∀ c ∈ [Call.carrier "Show", .members .asDeclared 0], c.KeepsVars := by
    simp [Call.KeepsVars, Binder.asDeclared_keepsVars]
  obtain ⟨hid, hnew⟩ := hcarriers _ hkeeps _ (.head _) _ rfl
  exact ⟨_, .head _, by decide, rfl, hmethods _ (.head _) (by decide), _, .head _, hid, _, rfl, rfl,
    hnew (by decide) _ rfl⟩

/-- A concept with a method on two variables that it does not mention otherwise: the first is the next one
    to be handed out. -/
def uncovered : ConceptDecl where
  name := "Show"
  params := [⟨0, "T", .ordinary⟩]
  parents := []
  fragments := [.method ⟨"show", [.var 1 none, .var 40 none], .con "String" [], some "text"⟩]

/-- So the watermark does not cover every type of a method, and the variable of a carrier may occur in the
    type of a member. -/
theorem not_always_covered :
    (∃ d ∈ (session [.newConcept uncovered]).concepts, ∃ v ∈ d.methodVars,
      (session [.newConcept uncovered]).nextVar ≤ v) ∧
    ∃ c ∈ (CarrierStore.empty.after (session [.newConcept uncovered])
        [.carrier "Show", .members .asDeclared 0]).carriers,
      ∃ ms, c.members? = some ms ∧ ∃ m ∈ ms.bound.values, c.shell.witness.id ∈ m.signature.vars :=
  ⟨⟨_, .head _, 40, by decide, by decide⟩, _, .head _, _, rfl, _, .head _, by decide⟩

end Catalog

end InstanceSearch
