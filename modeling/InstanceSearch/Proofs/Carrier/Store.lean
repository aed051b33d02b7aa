/-
  What a store of carriers keeps.

  TWO CHANGES
    A carrier is APPENDED, without members, when its concept is asked for the first time; that is all that
    a binder at work can bring about (`Appends`).  Or the members of a carrier that has none are ENTERED,
    when its binder is done (`enter`).  So a carrier is found under its number for ever, and its members,
    once entered, stay (`Later`).

  WHAT FOLLOWS
    * carriers are of different concepts, so a concept and its number determine each other
      (`Holds.eq_iff`), and whatever was told about carriers is held (`toldByMembers_holds`);
    * members are read where they are bound (`members_of_bound`), and bound only for the carrier that was
      asked for (`of_membersOf?_members`);
    * members that are bound record what the binder answered (`records_foldl`): the first of each name,
      and every error.
-/
import InstanceSearch.Carrier.Basic
import InstanceSearch.Proofs.Catalog.Declared

namespace InstanceSearch

namespace CarrierStore

variable {cat : Catalog} {store store' store'' : CarrierStore} {id : CarrierId} {concept : String}

/-! ## Stores that grow -/

/-- The members of a carrier, if they are bound. -/
def membersOf? (store : CarrierStore) (id : CarrierId) : Option Members :=
  store.carriers[id]?.bind Carrier.members?

theorem membersOf?_of_getElem? {c : Carrier} (hc : store.carriers[id]? = some c) :
    store.membersOf? id = c.members? := by
  rw [membersOf?, hc, Option.bind_some]

/-- Carriers without members were added. -/
def Appends (store store' : CarrierStore) : Prop :=
  ∃ new, store'.carriers = store.carriers ++ new ∧ ∀ c ∈ new, c.members? = none

namespace Appends

theorem refl (store : CarrierStore) : Appends store store :=
  ⟨[], (List.append_nil _).symm, fun _ h => nomatch h⟩

theorem trans (h : Appends store store') (h' : Appends store' store'') : Appends store store'' := by
  obtain ⟨new, hnew, hbare⟩ := h
  obtain ⟨new', hnew', hbare'⟩ := h'
  refine ⟨new ++ new', by rw [hnew', hnew, List.append_assoc], fun c hc => ?_⟩
  rcases List.mem_append.1 hc with hc | hc
  · exact hbare c hc
  · exact hbare' c hc

/-- A carrier is found where it was. -/
theorem getElem? (h : Appends store store') {c : Carrier} (hc : store.carriers[id]? = some c) :
    store'.carriers[id]? = some c := by
  obtain ⟨new, hnew, _⟩ := h
  rw [hnew, List.getElem?_append_left (List.getElem?_eq_some_iff.1 hc).1, hc]

/-- No members were entered. -/
theorem membersOf?_eq (h : Appends store store') (id : CarrierId) :
    store'.membersOf? id = store.membersOf? id := by
  obtain ⟨new, hnew, hbare⟩ := h
  unfold membersOf?
  rw [hnew, List.getElem?_append]
  split
  · rfl
  · rename_i hid
    rw [List.getElem?_eq_none (Nat.le_of_not_lt hid)]
    cases hc : new[id - store.carriers.length]? with
    | none => rfl
    | some c => exact hbare c (List.mem_of_getElem? hc)

end Appends

/-- What a request for the carrier of a concept comes to. -/
inductive Synthesis (cat : Catalog) (store : CarrierStore) (concept : String) :
    Except DeclError (Option CarrierId) × CarrierStore → Prop where
  | undeclared (e : DeclError) (h : cat.getConcept concept = .error e) :
    Synthesis cat store concept (.error e, store)
  | bare (d : Concept) (hd : cat.getConcept concept = .ok d) (h : ¬ d.hasDefaults) :
    Synthesis cat store concept (.ok none, store)
  | found (d : Concept) (hd : cat.getConcept concept = .ok d) (h : d.hasDefaults) (id : CarrierId)
    (hid : store.idOf? concept = some id) : Synthesis cat store concept (.ok (some id), store)
  | made (d : Concept) (hd : cat.getConcept concept = .ok d) (h : d.hasDefaults)
    (hid : store.idOf? concept = none) : Synthesis cat store concept
      (.ok (some store.carriers.length), ⟨store.carriers ++ [.ofConcept d]⟩)

theorem synthesize_spec (store : CarrierStore) (cat : Catalog) (concept : String) :
    Synthesis cat store concept (store.synthesize cat concept) := by
  unfold synthesize
  cases hd : cat.getConcept concept with
  | error e => exact .undeclared e hd
  | ok d =>
    have hname := Catalog.name_of_lookup (Catalog.getConcept_eq_ok_iff.1 hd)
    dsimp only
    rw [hname]
    split
    · rename_i hdefaults
      cases hid : store.idOf? concept with
      | some id => exact .found d hd hdefaults id hid
      | none => exact .made d hd hdefaults hid
    · rename_i hbare
      exact .bare d hd hbare

theorem synthesize_appends (store : CarrierStore) (cat : Catalog) (concept : String) :
    Appends store (store.synthesize cat concept).2 := by
  have h := store.synthesize_spec cat concept
  generalize store.synthesize cat concept = r at h ⊢
  cases h with
  | undeclared | bare | found => exact .refl store
  | made d => exact ⟨_, rfl, fun c hc => by rw [List.mem_singleton.1 hc]; rfl⟩

section Keeps

variable {P : CarrierStore → Prop}
  (hP : ∀ (store : CarrierStore) (concept : String), P store → P (store.synthesize cat concept).2)
include hP

/-- A binder at work keeps what a request for a carrier keeps. -/
theorem run_keeps (b : Binding) (h : P store) : P (run cat b store).2 := by
  induction b generalizing store with
  | done result => rwa [run_done]
  | request concept next ih =>
    rw [run_request]
    exact ih _ (hP store concept h)

theorem bindAll_keeps (binder : Binder) (shell : Shell) (methods : List Method) (ms : Members)
    (h : P store) : P (bindAll cat binder shell methods ms store).2 := by
  induction methods generalizing ms store with
  | nil => exact h
  | cons m rest ih => exact ih _ (run_keeps hP (binder shell m) h)

end Keeps

/-- **A binder adds carriers, and nothing else.** -/
theorem run_appends (cat : Catalog) (b : Binding) (store : CarrierStore) :
    Appends store (run cat b store).2 :=
  run_keeps (fun store' concept h => h.trans (synthesize_appends store' cat concept)) b (.refl store)

theorem bindAll_appends (cat : Catalog) (binder : Binder) (shell : Shell) (methods : List Method)
    (ms : Members) (store : CarrierStore) :
    Appends store (bindAll cat binder shell methods ms store).2 :=
  bindAll_keeps (fun store' concept h => h.trans (synthesize_appends store' cat concept)) binder shell
    methods ms (.refl store)

/-- Carriers stay what they are, and keep their members. -/
def Later (store store' : CarrierStore) : Prop :=
  ∀ (id : CarrierId) (c : Carrier), store.carriers[id]? = some c →
    ∃ c', store'.carriers[id]? = some c' ∧ c'.shell = c.shell ∧
      ∀ ms, c.members? = some ms → c'.members? = some ms

namespace Later

theorem refl (store : CarrierStore) : Later store store := fun _ c hc => ⟨c, hc, rfl, fun _ h => h⟩

theorem trans (h : Later store store') (h' : Later store' store'') : Later store store'' := by
  intro id c hc
  obtain ⟨c', hc', hshell, hms⟩ := h id c hc
  obtain ⟨c'', hc'', hshell', hms'⟩ := h' id c' hc'
  exact ⟨c'', hc'', hshell'.trans hshell, fun ms h => hms' ms (hms ms h)⟩

/-- Members that are bound stay. -/
theorem membersOf? (h : Later store store') {ms : Members} (hms : store.membersOf? id = some ms) :
    store'.membersOf? id = some ms := by
  obtain ⟨c, hc, hms⟩ := Option.bind_eq_some_iff.1 hms
  obtain ⟨c', hc', _, hkept⟩ := h id c hc
  rw [CarrierStore.membersOf?, hc']
  exact hkept ms hms

end Later

theorem Appends.later (h : Appends store store') : Later store store' :=
  fun _ c hc => ⟨c, h.getElem? hc, rfl, fun _ hms => hms⟩

/-! ## Members that are entered -/

/-- `store.enter id ms` = `store` with the members of a carrier. -/
def enter (store : CarrierStore) (id : CarrierId) (ms : Members) : CarrierStore :=
  ⟨store.carriers.modify id fun c => { c with members? := some ms }⟩

theorem membersOf?_enter {c : Carrier} (hc : store.carriers[id]? = some c) (ms : Members)
    (j : CarrierId) :
    (store.enter id ms).membersOf? j = if id = j then some ms else store.membersOf? j := by
  unfold membersOf? enter
  rw [List.getElem?_modify]
  by_cases hj : id = j
  · subst hj
    simp [hc]
  · cases store.carriers[j]? <;> simp [hj]

theorem enter_later (h : store.membersOf? id = none) (ms : Members) :
    Later store (store.enter id ms) := by
  intro j c hc
  refine ⟨_, by rw [enter, List.getElem?_modify, hc]; rfl, ?_, ?_⟩
  · split <;> rfl
  · intro ms' hms'
    split
    · -- the carrier had no members
      rename_i hj
      subst hj
      rw [membersOf?, hc] at h
      exact absurd (h.symm.trans hms') (by simp)
    · exact hms'

section Members

variable {binder : Binder} {ms : Members} {c : Carrier}

/-- Members that are bound are read. -/
theorem members_of_bound (h : store.membersOf? id = some ms) :
    store.members cat binder id = (ms, store) := by
  obtain ⟨c, hc, hms⟩ := Option.bind_eq_some_iff.1 h
  unfold members
  rw [hc]
  dsimp only
  rw [hms]

/-- A request for members leaves the store, where they are bound already; or it binds and enters them. -/
theorem members_cases (store : CarrierStore) (cat : Catalog) (binder : Binder) (id : CarrierId) :
    ((store.members cat binder id).2 = store ∧ ∀ c, store.carriers[id]? = some c →
      store.membersOf? id = some (store.members cat binder id).1) ∨
    ∃ c, store.carriers[id]? = some c ∧ c.members? = none ∧
      store.members cat binder id = ((bindAll cat binder c.shell c.defaults .empty store).1,
        (bindAll cat binder c.shell c.defaults .empty store).2.enter id
          (bindAll cat binder c.shell c.defaults .empty store).1) := by
  cases hc : store.carriers[id]? with
  | none =>
    refine .inl ⟨?_, fun c hc' => nomatch hc'⟩
    unfold members
    rw [hc]
  | some c =>
    cases hms : c.members? with
    | some ms =>
      have hbound := (membersOf?_of_getElem? hc).trans hms
      rw [members_of_bound hbound]
      exact .inl ⟨rfl, fun _ _ => hbound⟩
    | none =>
      refine .inr ⟨c, rfl, hms, ?_⟩
      unfold members
      rw [hc]
      dsimp only
      rw [hms]
      rfl

theorem members_later (store : CarrierStore) (cat : Catalog) (binder : Binder) (id : CarrierId) :
    Later store (store.members cat binder id).2 := by
  rcases members_cases store cat binder id with ⟨hsame, _⟩ | ⟨c, hc, hms, hbinds⟩
  · rw [hsame]
    exact .refl store
  · have happends := bindAll_appends cat binder c.shell c.defaults .empty store
    rw [hbinds]
    refine happends.later.trans (enter_later ?_ _)
    rw [happends.membersOf?_eq, membersOf?_of_getElem? hc, hms]

/-- Whoever asks for the members of a carrier leaves them bound. -/
theorem membersOf?_members (hc : store.carriers[id]? = some c) :
    (store.members cat binder id).2.membersOf? id = some (store.members cat binder id).1 := by
  rcases members_cases store cat binder id with ⟨hsame, hbound⟩ | ⟨c', hc', _, hbinds⟩
  · rw [hsame]
    exact hbound c hc
  · have happends := bindAll_appends cat binder c'.shell c'.defaults .empty store
    rw [hbinds, membersOf?_enter (happends.getElem? hc'), if_pos rfl]

/-- No members are entered but those of the carrier that is asked for, and only if it has none. -/
theorem of_membersOf?_members {j : CarrierId} (hnone : store.membersOf? j = none)
    (hsome : (store.members cat binder id).2.membersOf? j = some ms) :
    id = j ∧ (store.members cat binder id).1 = ms ∧ ∃ c, store.carriers[id]? = some c ∧
      ms = (bindAll cat binder c.shell c.defaults .empty store).1 := by
  rcases members_cases store cat binder id with ⟨hsame, _⟩ | ⟨c, hc, _, hbinds⟩
  · rw [hsame, hnone] at hsome
    cases hsome
  · have happends := bindAll_appends cat binder c.shell c.defaults .empty store
    rw [hbinds] at hsome ⊢
    rw [membersOf?_enter (happends.getElem? hc), happends.membersOf?_eq, hnone] at hsome
    split at hsome
    · rename_i hj
      injection hsome with hsome
      exact ⟨hj, hsome, c, hc, hsome.symm⟩
    · cases hsome

end Members

/-! ## One carrier for each concept -/

/-- Carriers are of different concepts, and each is that of its concept. -/
structure Made (cat : Catalog) (store : CarrierStore) : Prop where
  distinct : (store.carriers.map fun c => c.shell.concept).Nodup
  made : ∀ c ∈ store.carriers, ∃ d, cat.getConcept d.name = .ok d ∧
    c.shell = (Carrier.ofConcept d).shell ∧ c.defaults = (Carrier.ofConcept d).defaults

theorem empty_made (cat : Catalog) : Made cat empty := ⟨List.nodup_nil, fun _ h => nomatch h⟩

theorem synthesize_made (h : Made cat store) (concept : String) :
    Made cat (store.synthesize cat concept).2 := by
  have hspec := store.synthesize_spec cat concept
  generalize store.synthesize cat concept = r at hspec ⊢
  cases hspec with
  | undeclared | bare | found => exact h
  | made d hd _ hnew =>
    have hname := Catalog.name_of_lookup (Catalog.getConcept_eq_ok_iff.1 hd)
    constructor
    case distinct =>
      rw [List.map_append]
      refine OrderedMap.nodup_concat h.distinct fun hmem => ?_
      obtain ⟨c, hc, hconcept⟩ := List.mem_map.1 hmem
      have hne := List.findIdx?_eq_none_iff.1 hnew c hc
      rw [hconcept, ← hname] at hne
      simp [Carrier.ofConcept] at hne
    case made =>
      intro c hc
      rcases List.mem_append.1 hc with hc | hc
      · exact h.made c hc
      · rw [List.mem_singleton.1 hc]
        exact ⟨d, hname ▸ hd, rfl, rfl⟩

theorem bindAll_made (h : Made cat store) (binder : Binder) (shell : Shell) (methods : List Method)
    (ms : Members) : Made cat (bindAll cat binder shell methods ms store).2 :=
  bindAll_keeps (P := Made cat) (fun _ concept h => synthesize_made h concept) binder shell methods ms h

theorem enter_made (h : Made cat store) (id : CarrierId) (ms : Members) :
    Made cat (store.enter id ms) where
  distinct := by
    dsimp only [enter]
    rw [map_modify_of_eq]
    · exact h.distinct
    · exact fun _ => rfl
  made := forall_mem_modify h.made fun _ hc => hc

theorem members_made (h : Made cat store) (binder : Binder) (id : CarrierId) :
    Made cat (store.members cat binder id).2 := by
  rcases members_cases store cat binder id with ⟨hsame, _⟩ | ⟨c, _, _, hbinds⟩
  · rw [hsame]
    exact h
  · rw [hbinds]
    exact enter_made (bindAll_made h binder c.shell c.defaults .empty) id _

/-- `store.Holds concept id`: the carrier of that number is that of the concept. -/
def Holds (store : CarrierStore) (concept : String) (id : CarrierId) : Prop :=
  ∃ c, store.carriers[id]? = some c ∧ c.shell.concept = concept

theorem Holds.later (h : store.Holds concept id) (hlater : Later store store') :
    store'.Holds concept id := by
  obtain ⟨c, hc, hconcept⟩ := h
  obtain ⟨c', hc', hshell, _⟩ := hlater id c hc
  exact ⟨c', hc', by rw [hshell, hconcept]⟩

/-- **One carrier for each concept, and one concept for each carrier.** -/
theorem Holds.eq_iff (hmade : Made cat store) {concept' : String} {id' : CarrierId}
    (h : store.Holds concept id) (h' : store.Holds concept' id') : concept = concept' ↔ id = id' := by
  obtain ⟨c, hc, rfl⟩ := h
  obtain ⟨c', hc', rfl⟩ := h'
  have hid : id < (store.carriers.map fun c => c.shell.concept).length := by
    rw [List.length_map]
    exact (List.getElem?_eq_some_iff.1 hc).1
  have hinj := List.getElem?_inj hid hmade.distinct (j := id')
  rw [List.getElem?_map, List.getElem?_map, hc, hc'] at hinj
  simpa using hinj

/-- The carrier that a request is answered with is held. -/
theorem synthesize_holds (h : (store.synthesize cat concept).1 = .ok (some id)) :
    (store.synthesize cat concept).2.Holds concept id := by
  have hspec := store.synthesize_spec cat concept
  generalize store.synthesize cat concept = r at h hspec ⊢
  cases hspec with
  | undeclared => cases h
  | bare => cases h
  | found d _ _ id' hfound =>
    obtain rfl : id' = id := by simpa using h
    obtain ⟨hid, hconcept, _⟩ := List.findIdx?_eq_some_iff_getElem.1 hfound
    exact ⟨_, List.getElem?_eq_getElem hid, by simpa using hconcept⟩
  | made d hd =>
    obtain rfl : store.carriers.length = id := by simpa using h
    exact ⟨.ofConcept d, by simp, Catalog.name_of_lookup (Catalog.getConcept_eq_ok_iff.1 hd)⟩

theorem hasDefaults_iff {d : Concept} :
    d.hasDefaults = true ↔ ∃ m, Fragment.method m ∈ d.fragments ∧ m.default?.isSome := by
  rw [Concept.hasDefaults, List.any_eq_true]
  refine exists_congr fun m => and_congr_left fun _ => ?_
  rw [Concept.methods, List.mem_filterMap]
  constructor
  · rintro ⟨f, hf, hm⟩
    cases f with
    | method m' =>
      injection hm with hm
      exact hm ▸ hf
    | other text => cases hm
  · exact fun hm => ⟨_, hm, rfl⟩

/-- **A concept has a carrier exactly if some method of it has a default body.** -/
theorem exists_synthesize_iff :
    (∃ id, (store.synthesize cat concept).1 = .ok (some id)) ↔
      ∃ d, cat.getConcept concept = .ok d ∧
        ∃ m, Fragment.method m ∈ d.fragments ∧ m.default?.isSome := by
  simp only [← hasDefaults_iff]
  have hspec := store.synthesize_spec cat concept
  generalize store.synthesize cat concept = r at hspec ⊢
  constructor
  · rintro ⟨id, h⟩
    cases hspec with
    | undeclared => cases h
    | bare => cases h
    | found d hd hdefaults => exact ⟨d, hd, hdefaults⟩
    | made d hd hdefaults => exact ⟨d, hd, hdefaults⟩
  · rintro ⟨d, hd, hdefaults⟩
    cases hspec with
    | undeclared e h =>
      rw [hd] at h
      cases h
    | bare d' hd' hbare =>
      rw [hd] at hd'
      injection hd' with hd'
      exact absurd hdefaults (hd' ▸ hbare)
    | found _ _ _ id => exact ⟨id, rfl⟩
    | made => exact ⟨_, rfl⟩

/-! ## What is told about carriers -/

/-- The carrier that an answer names, with the concept that was asked for. -/
def told (concept : String) : Except DeclError (Option CarrierId) → List (String × CarrierId)
  | .ok (some id) => [(concept, id)]
  | _ => []

/-- What a binder is told before it answers. -/
def toldByRun (cat : Catalog) : Binding → CarrierStore → List (String × CarrierId)
  | .done _, _ => []
  | .request concept next, store =>
    let (answer, store) := store.synthesize cat concept
    told concept answer ++ toldByRun cat (next answer) store

/-- What a binder is told while it binds methods. -/
def toldByBindAll (cat : Catalog) (binder : Binder) (shell : Shell) :
    List Method → CarrierStore → List (String × CarrierId)
  | [], _ => []
  | m :: rest, store =>
    toldByRun cat (binder shell m) store ++
      toldByBindAll cat binder shell rest (run cat (binder shell m) store).2

/-- What a binder is told when members are asked for. -/
def toldByMembers (store : CarrierStore) (cat : Catalog) (binder : Binder) (id : CarrierId) :
    List (String × CarrierId) :=
  match store.carriers[id]? with
  | some ⟨shell, defaults, none⟩ => toldByBindAll cat binder shell defaults store
  | _ => []

theorem told_holds {e : String × CarrierId} (he : e ∈ told concept (store.synthesize cat concept).1) :
    (store.synthesize cat concept).2.Holds e.1 e.2 := by
  unfold told at he
  split at he
  · rename_i id h
    rw [List.mem_singleton.1 he]
    exact synthesize_holds h
  · cases he

theorem toldByRun_holds (b : Binding) (store : CarrierStore) :
    ∀ e ∈ toldByRun cat b store, (run cat b store).2.Holds e.1 e.2 := by
  induction b generalizing store with
  | done result => exact fun e he => nomatch he
  | request concept next ih =>
    intro e he
    rcases List.mem_append.1 he with he | he
    · exact (told_holds he).later (run_appends cat _ _).later
    · exact ih _ _ e he

theorem toldByBindAll_holds (binder : Binder) (shell : Shell) (methods : List Method) (ms : Members)
    (store : CarrierStore) : ∀ e ∈ toldByBindAll cat binder shell methods store,
      (bindAll cat binder shell methods ms store).2.Holds e.1 e.2 := by
  induction methods generalizing ms store with
  | nil => exact fun e he => nomatch he
  | cons m rest ih =>
    intro e he
    rcases List.mem_append.1 he with he | he
    · exact (toldByRun_holds _ _ e he).later (bindAll_appends cat binder shell rest _ _).later
    · exact ih _ _ e he

theorem toldByMembers_holds (binder : Binder) (id : CarrierId) :
    ∀ e ∈ store.toldByMembers cat binder id, (store.members cat binder id).2.Holds e.1 e.2 := by
  intro e he
  unfold toldByMembers at he
  split at he
  · rename_i shell defaults hc
    have hnone : store.membersOf? id = none := membersOf?_of_getElem? hc
    rcases members_cases store cat binder id with ⟨_, hbound⟩ | ⟨c, hc', _, hbinds⟩
    · rw [hbound _ hc] at hnone
      cases hnone
    · rw [hc] at hc'
      injection hc' with hc'
      subst hc'
      have happends := bindAll_appends cat binder shell defaults .empty store
      rw [hbinds]
      refine (toldByBindAll_holds binder shell defaults .empty store e he).later (enter_later ?_ _)
      rw [happends.membersOf?_eq, hnone]
  · cases he

/-! ## What the members are -/

/-- What a binder answers for methods, one after the other. -/
def outcomes (cat : Catalog) (binder : Binder) (shell : Shell) :
    List Method → CarrierStore → List (Except MemberError Member)
  | [], _ => []
  | m :: rest, store =>
    let (result, store) := run cat (binder shell m) store
    result :: outcomes cat binder shell rest store

theorem bindAll_eq (binder : Binder) (shell : Shell) (methods : List Method) (ms : Members)
    (store : CarrierStore) : (bindAll cat binder shell methods ms store).1 =
      (outcomes cat binder shell methods store).foldl Members.record ms := by
  induction methods generalizing ms store with
  | nil => rfl
  | cons m rest ih => exact ih _ _

end CarrierStore

/-- The members among what a binder answered. -/
def successes (results : List (Except MemberError Member)) : List Member :=
  results.filterMap fun
    | .ok m => some m
    | .error _ => none

/-- The errors among what a binder answered. -/
def failures (results : List (Except MemberError Member)) : List MemberError :=
  results.filterMap fun
    | .ok _ => none
    | .error e => some e

/-- `ms.Records results`: of each name the first member that was bound, in the order in which the names
    came up, no other member, and every error. -/
structure Members.Records (ms : Members) (results : List (Except MemberError Member)) : Prop where
  names : ms.bound.keys = FirstSeen.ofList ((successes results).map Member.name)
  first : ∀ name, ms.bound.find? name = (successes results).find? fun m => m.name == name
  diagnostics : ms.diagnostics = failures results

namespace Members

theorem Records.record {ms : Members} {results : List (Except MemberError Member)}
    (h : ms.Records results) (r : Except MemberError Member) :
    (ms.record r).Records (results ++ [r]) := by
  cases r with
  | error e =>
    have hs : successes (results ++ [.error e]) = successes results := by simp [successes]
    have hf : failures (results ++ [.error e]) = failures results ++ [e] := by simp [failures]
    constructor
    · rw [hs]
      exact h.names
    · rw [hs]
      exact h.first
    · rw [hf, ← h.diagnostics]
      rfl
  | ok m =>
    have hs : successes (results ++ [.ok m]) = successes results ++ [m] := by simp [successes]
    have hf : failures (results ++ [.ok m]) = failures results := by simp [failures]
    constructor
    · rw [hs, List.map_append, FirstSeen.ofList, FirstSeen.addAll_append, ← FirstSeen.ofList, ← h.names]
      show (ms.bound.insertIfNew m.name m).keys = FirstSeen.add ms.bound.keys m.name
      rw [OrderedMap.keys_insertIfNew, FirstSeen.add]
      simp only [List.contains_iff_mem]
    · intro name
      show (ms.bound.insertIfNew m.name m).find? name = _
      rw [OrderedMap.find?_insertIfNew, h.first, h.first, hs, List.find?_append]
      by_cases hname : name = m.name
      · subst hname
        cases (successes results).find? fun m' => m'.name == m.name <;> simp
      · have hne : (m.name == name) = false := by simpa using fun he => hname he.symm
        simp [hname, hne]
    · rw [hf]
      exact h.diagnostics

/-- **Recording keeps the first of each name.** -/
theorem records_foldl (results : List (Except MemberError Member)) :
    (results.foldl record .empty).Records results := by
  have hall : ∀ (more done : List (Except MemberError Member)) (ms : Members), ms.Records done →
      (more.foldl record ms).Records (done ++ more) := by
    intro more
    induction more with
    | nil =>
      intro done ms h
      rw [List.append_nil]
      exact h
    | cons r more ih =>
      intro done ms h
      rw [List.append_cons]
      exact ih _ _ (h.record r)
  exact hall results [] .empty ⟨rfl, fun _ => rfl, rfl⟩

end Members

end InstanceSearch
