/-
  Sessions with default carriers.

  A SESSION is a sequence of calls that ask for the carrier of a concept, for the members of a carrier, or
  for a member of a witness.  Each call may bring a binder of its own, which may fail, or ask for carriers.

  STATEMENT (`carriers_bound_once`)
    (1) whatever was told about carriers, in answers or to binders at work, names one carrier for each
        concept and one concept for each carrier;
    (2) a concept has a carrier exactly if some method of it has a default body;
    (3) whoever asks for the members of a carrier leaves them bound;
    (4) they are what the first binder gave that was asked for them, and whoever asks later, with whatever
        binder, is answered from the same list.

  THE CRUX (`serve_of_asks`)
    A call that asks for members does so once, in a store to which at most a carrier was appended before,
    and is answered from what it finds; any other call appends at most.  The rest is known of stores.
-/
import InstanceSearch.Carrier.Lookup
import InstanceSearch.Catalog.InPlace
import InstanceSearch.Proofs.Carrier.Store

namespace InstanceSearch

/-! ## Calls -/

/-- What can be asked for. -/
inductive Call where
  /-- the carrier of a concept -/
  | carrier (concept : String)
  /-- the members of a carrier -/
  | members (binder : Binder) (id : CarrierId)
  /-- a member of a concept for a witness -/
  | member (binder : Binder) (w : Witness) (concept name : String)

inductive Answer where
  | carrier (r : Except DeclError (Option CarrierId))
  | members (ms : Members)
  | member (r : Except MemberError MemberSource)

/-- The answer to a call, and the store after it. -/
def Call.serve (cat : Catalog) (store : CarrierStore) : Call → Answer × CarrierStore
  | .carrier concept =>
    let (r, store) := store.synthesize cat concept
    (.carrier r, store)
  | .members binder id =>
    let (ms, store) := store.members cat binder id
    (.members ms, store)
  | .member binder w concept name =>
    let (r, store) := store.lookup cat binder w concept name
    (.member r, store)

/-- The store after calls. -/
def CarrierStore.after (store : CarrierStore) (cat : Catalog) (calls : List Call) : CarrierStore :=
  calls.foldl (fun store c => (c.serve cat store).2) store

/-- The instance of a witness that offers a concept and leaves a member of it to the default. -/
def Catalog.defaulting? (cat : Catalog) (w : Witness) (concept name : String) : Option Instance :=
  match w with
  | .ambient .. => none
  | .apply id _ _ =>
    match cat.getInstance id with
    | .error _ => none
    | .ok i => if cat.offersConcept i.provides concept && !i.implements name then some i else none

/-- `c.asks cat store`: whose members the call asks for and with which binder, and the store at that
    time. -/
def Call.asks (cat : Catalog) (store : CarrierStore) : Call → Option (Binder × CarrierId × CarrierStore)
  | .carrier _ => none
  | .members binder id => some (binder, id, store)
  | .member binder w concept name =>
    match cat.defaulting? w concept name with
    | none => none
    | some _ =>
      match store.synthesize cat concept with
      | (.ok (some id), store) => some (binder, id, store)
      | _ => none

/-- The source of a member that an instance leaves to the default. -/
def Members.source (ms : Members) (id : CarrierId) (i : Instance) (name : String) :
    Except MemberError MemberSource :=
  match ms.bound.find? name with
  | some m => .ok (.default id m)
  | none => .error (.missingMember name i.name)

/-- What a call answers that found `ms` as the members of the carrier `id`. -/
def Call.answerFrom (cat : Catalog) (id : CarrierId) (ms : Members) : Call → Option Answer
  | .carrier _ => none
  | .members _ _ => some (.members ms)
  | .member _ w concept name =>
    (cat.defaulting? w concept name).map fun i => .member (ms.source id i name)

/-- What a source of a member says about carriers. -/
def toldBySource (concept : String) : Except MemberError MemberSource → List (String × CarrierId)
  | .ok (.default id _) => [(concept, id)]
  | _ => []

/-- What the answer to a call says about carriers. -/
def Call.toldByAnswer (cat : Catalog) (store : CarrierStore) : Call → List (String × CarrierId)
  | .carrier concept => CarrierStore.told concept (store.synthesize cat concept).1
  | .members _ _ => []
  | .member binder w concept name => toldBySource concept (store.lookup cat binder w concept name).1

/-- What is told about carriers during a call: in its answer, and to its binder. -/
def Call.tells (cat : Catalog) (store : CarrierStore) (c : Call) : List (String × CarrierId) :=
  c.toldByAnswer cat store ++
    match c.asks cat store with
    | some (binder, id, store) => store.toldByMembers cat binder id
    | none => []

/-- What is told during calls. -/
def CarrierStore.toldIn (cat : Catalog) : List Call → CarrierStore → List (String × CarrierId)
  | [], _ => []
  | c :: rest, store => c.tells cat store ++ toldIn cat rest (c.serve cat store).2

namespace Call

open CarrierStore

variable {cat : Catalog} {store store' : CarrierStore} {c : Call} {binder : Binder} {id : CarrierId}

/-! ## One call -/

/-- At most one carrier was asked for. -/
def Requested (cat : Catalog) (store store' : CarrierStore) : Prop :=
  store' = store ∨ ∃ concept, store' = (store.synthesize cat concept).2

theorem Requested.appends (h : Requested cat store store') : Appends store store' := by
  rcases h with rfl | ⟨concept, rfl⟩
  · exact .refl store'
  · exact synthesize_appends store cat concept

theorem Requested.made (h : Requested cat store store') (hmade : Made cat store) : Made cat store' := by
  rcases h with rfl | ⟨concept, rfl⟩
  · exact hmade
  · exact synthesize_made hmade concept

/-- A look-up that falls back on the default. -/
theorem lookup_of_defaulting {w : Witness} {concept name : String} {i : Instance}
    (h : cat.defaulting? w concept name = some i) :
    store.lookup cat binder w concept name = store.defaultFor cat binder i concept name := by
  unfold Catalog.defaulting? at h
  split at h
  · cases h
  · split at h
    · cases h
    · rename_i hget
      split at h
      · rename_i hleaves
        injection h with h
        subst h
        rw [Bool.and_eq_true, Bool.not_eq_true'] at hleaves
        unfold lookup
        dsimp only
        rw [hget]
        dsimp only
        rw [if_pos hleaves.1, hleaves.2]
        rfl
      · cases h

/-- One that does not tells of no carrier, and leaves the store. -/
theorem lookup_of_not_defaulting {w : Witness} {concept name : String}
    (h : cat.defaulting? w concept name = none) (store : CarrierStore) (binder : Binder) :
    toldBySource concept (store.lookup cat binder w concept name).1 = [] ∧
      (store.lookup cat binder w concept name).2 = store := by
  unfold Catalog.defaulting? at h
  unfold lookup
  cases w with
  | ambient v name => exact ⟨rfl, rfl⟩
  | apply id name args =>
    dsimp only at h ⊢
    cases hget : cat.getInstance id with
    | error e => exact ⟨rfl, rfl⟩
    | ok i =>
      rw [hget] at h
      dsimp only at h ⊢
      split
      · rename_i hoffers
        split
        · exact ⟨rfl, rfl⟩
        · rename_i himplements
          rw [if_pos (by simp [hoffers, himplements])] at h
          cases h
      · exact ⟨rfl, rfl⟩

/-- The default of a concept with a carrier. -/
theorem defaultFor_of_carrier {concept name : String} {i : Instance}
    (h : store.synthesize cat concept = (.ok (some id), store')) :
    store.defaultFor cat binder i concept name =
      ((store'.members cat binder id).1.source id i name, (store'.members cat binder id).2) := by
  unfold defaultFor
  rw [h]
  dsimp only
  unfold Members.source
  cases (store'.members cat binder id).1.bound.find? name <;> rfl

/-- Without a carrier there is no default. -/
theorem defaultFor_of_no_carrier {concept : String}
    (h : ∀ id, (store.synthesize cat concept).1 ≠ .ok (some id)) (binder : Binder) (i : Instance)
    (name : String) :
    toldBySource concept (store.defaultFor cat binder i concept name).1 = [] ∧
      (store.defaultFor cat binder i concept name).2 = (store.synthesize cat concept).2 := by
  unfold defaultFor
  rcases hcarrier : store.synthesize cat concept with ⟨e | _ | id, store'⟩
  · exact ⟨rfl, rfl⟩
  · exact ⟨rfl, rfl⟩
  · exact absurd (congrArg Prod.fst hcarrier) (h id)

/-- A look-up asks for members, in the store with the carrier of the concept; or it tells of no carrier,
    and asks for one at most. -/
theorem asks_member_cases (cat : Catalog) (store : CarrierStore) (binder : Binder) (w : Witness)
    (concept name : String) :
    (∃ i id store', cat.defaulting? w concept name = some i ∧
      store.synthesize cat concept = (.ok (some id), store') ∧
      (member binder w concept name).asks cat store = some (binder, id, store')) ∨
    ((member binder w concept name).asks cat store = none ∧
      toldBySource concept (store.lookup cat binder w concept name).1 = [] ∧
      Requested cat store (store.lookup cat binder w concept name).2) := by
  rw [asks]
  cases hi : cat.defaulting? w concept name with
  | none =>
    obtain ⟨htold, hstore⟩ := lookup_of_not_defaulting hi store binder
    exact .inr ⟨rfl, htold, .inl hstore⟩
  | some i =>
    by_cases hcarrier : ∃ id, (store.synthesize cat concept).1 = .ok (some id)
    · obtain ⟨id, hid⟩ := hcarrier
      refine .inl ⟨i, id, (store.synthesize cat concept).2, rfl, Prod.ext hid rfl, ?_⟩
      dsimp only
      rw [← Prod.eta (store.synthesize cat concept), hid]
    · have hnone : ∀ id, (store.synthesize cat concept).1 ≠ .ok (some id) :=
        fun id hid => hcarrier ⟨id, hid⟩
      obtain ⟨htold, hstore⟩ := defaultFor_of_no_carrier hnone binder i name
      rw [lookup_of_defaulting hi]
      refine .inr ⟨?_, htold, .inr ⟨concept, hstore⟩⟩
      dsimp only
      split
      · rename_i id store' h
        exact absurd (congrArg Prod.fst h) (hnone id)
      · rfl

/-- **A call that asks for members** is answered from what it finds, after it asked for a carrier at most. -/
theorem serve_of_asks (h : c.asks cat store = some (binder, id, store')) :
    Requested cat store store' ∧ (c.serve cat store).2 = (store'.members cat binder id).2 ∧
      some (c.serve cat store).1 = c.answerFrom cat id (store'.members cat binder id).1 := by
  cases c with
  | carrier concept => cases h
  | members binder' id' =>
    injection h with h
    injection h with hbinder h
    injection h with hid hstore
    subst hbinder hid hstore
    exact ⟨.inl rfl, rfl, rfl⟩
  | member binder' w concept name =>
    rcases asks_member_cases cat store binder' w concept name with
      ⟨i, id', store'', hi, hcarrier, hasks⟩ | ⟨hasks, _⟩
    · rw [hasks] at h
      injection h with h
      injection h with hbinder h
      injection h with hid hstore
      subst hbinder hid hstore
      have hlookup : store.lookup cat binder' w concept name =
          ((store''.members cat binder' id').1.source id' i name,
            (store''.members cat binder' id').2) := by
        rw [lookup_of_defaulting hi, defaultFor_of_carrier hcarrier]
      refine ⟨.inr ⟨concept, (congrArg Prod.snd hcarrier).symm⟩, congrArg Prod.snd hlookup, ?_⟩
      rw [answerFrom, hi]
      exact congrArg (fun r => some (Answer.member r.1)) hlookup
    · rw [hasks] at h
      cases h

/-- Any other call asks for a carrier at most. -/
theorem serve_of_not_asks (h : c.asks cat store = none) : Requested cat store (c.serve cat store).2 := by
  cases c with
  | carrier concept => exact .inr ⟨concept, rfl⟩
  | members binder' id' => cases h
  | member binder' w concept name =>
    rcases asks_member_cases cat store binder' w concept name with
      ⟨i, id', store'', _, _, hasks⟩ | ⟨_, _, hrequested⟩
    · rw [hasks] at h
      cases h
    · exact hrequested

theorem serve_later (cat : Catalog) (store : CarrierStore) (c : Call) :
    Later store (c.serve cat store).2 := by
  cases hasks : c.asks cat store with
  | none => exact (serve_of_not_asks hasks).appends.later
  | some asked =>
    obtain ⟨binder, id, store'⟩ := asked
    obtain ⟨hrequested, hstore, _⟩ := serve_of_asks hasks
    rw [hstore]
    exact hrequested.appends.later.trans (members_later store' cat binder id)

theorem serve_made (h : Made cat store) (c : Call) : Made cat (c.serve cat store).2 := by
  cases hasks : c.asks cat store with
  | none => exact (serve_of_not_asks hasks).made h
  | some asked =>
    obtain ⟨binder, id, store'⟩ := asked
    obtain ⟨hrequested, hstore, _⟩ := serve_of_asks hasks
    rw [hstore]
    exact members_made (hrequested.made h) binder id

theorem mem_toldBySource {ms : Members} {i : Instance} {concept name : String}
    {e : String × CarrierId} (he : e ∈ toldBySource concept (ms.source id i name)) :
    e = (concept, id) := by
  unfold Members.source at he
  cases hfind : ms.bound.find? name with
  | none =>
    rw [hfind] at he
    cases he
  | some m =>
    rw [hfind] at he
    exact List.mem_singleton.1 he

theorem toldByAnswer_holds :
    ∀ e ∈ c.toldByAnswer cat store, (c.serve cat store).2.Holds e.1 e.2 := by
  intro e he
  cases c with
  | carrier concept => exact told_holds he
  | members binder id => cases he
  | member binder w concept name =>
    rw [toldByAnswer] at he
    rcases asks_member_cases cat store binder w concept name with
      ⟨i, id, store', hi, hcarrier, _⟩ | ⟨_, hnone, _⟩
    · have hheld : store'.Holds concept id := by
        have hheld := synthesize_holds (congrArg Prod.fst hcarrier)
        rwa [hcarrier] at hheld
      show (store.lookup cat binder w concept name).2.Holds e.1 e.2
      rw [lookup_of_defaulting hi, defaultFor_of_carrier hcarrier] at he ⊢
      rw [mem_toldBySource he]
      exact hheld.later (members_later store' cat binder id)
    · rw [hnone] at he
      cases he

/-- What is told during a call is held after it. -/
theorem tells_holds : ∀ e ∈ c.tells cat store, (c.serve cat store).2.Holds e.1 e.2 := by
  intro e he
  rcases List.mem_append.1 he with he | he
  · exact toldByAnswer_holds e he
  · cases hasks : c.asks cat store with
    | none =>
      rw [hasks] at he
      cases he
    | some asked =>
      obtain ⟨binder, id, store'⟩ := asked
      rw [hasks] at he
      obtain ⟨_, hstore, _⟩ := serve_of_asks hasks
      rw [hstore]
      exact toldByMembers_holds binder id e he

/-- `c.Finds cat store id ms`: the call is answered from `ms` as the members of the carrier `id`. -/
def Finds (cat : Catalog) (store : CarrierStore) (c : Call) (id : CarrierId) (ms : Members) : Prop :=
  some (c.serve cat store).1 = c.answerFrom cat id ms

/-- `c.Gives cat store id ms`: `ms` is what the binder of the call answers, one after the other, for the
    methods with a default body of the concept whose carrier is `id`. -/
def Gives (cat : Catalog) (store : CarrierStore) (c : Call) (id : CarrierId) (ms : Members) : Prop :=
  ∃ binder store' d, c.asks cat store = some (binder, id, store') ∧
    (c.serve cat store).2.Holds d.name id ∧ cat.getConcept d.name = .ok d ∧
    ms.Records (outcomes cat binder (Carrier.ofConcept d).shell (d.methods.filter Method.hasDefault)
      store')

/-- **Members that are entered during a call** are what its binder gave, and what it finds. -/
theorem gives_of_entered {ms : Members} (hmade : Made cat store) (hnone : store.membersOf? id = none)
    (hsome : (c.serve cat store).2.membersOf? id = some ms) :
    c.Gives cat store id ms ∧ c.Finds cat store id ms := by
  cases hasks : c.asks cat store with
  | none =>
    rw [(serve_of_not_asks hasks).appends.membersOf?_eq, hnone] at hsome
    cases hsome
  | some asked =>
    obtain ⟨binder, id', store'⟩ := asked
    obtain ⟨hrequested, hstore, hanswer⟩ := serve_of_asks hasks
    have hnone' : store'.membersOf? id = none := by rw [hrequested.appends.membersOf?_eq, hnone]
    rw [hstore] at hsome
    obtain ⟨rfl, hfirst, c', hc', hbinds⟩ := of_membersOf?_members hnone' hsome
    obtain ⟨d, hd, hshell, hdefaults⟩ := (hrequested.made hmade).made c' (List.mem_of_getElem? hc')
    have hheld : store'.Holds d.name id' := ⟨c', hc', by rw [hshell]; rfl⟩
    refine ⟨⟨binder, store', d, hasks, ?_, hd, ?_⟩, ?_⟩
    · rw [hstore]
      exact hheld.later (members_later store' cat binder id')
    · rw [hbinds, bindAll_eq, hshell, hdefaults]
      exact Members.records_foldl _
    · rw [Finds, hanswer, hfirst]

/-- Members that are bound are what a call finds. -/
theorem finds_of_bound {ms : Members} (hbound : store.membersOf? id = some ms)
    (hasks : c.asks cat store = some (binder, id, store')) : c.Finds cat store id ms := by
  obtain ⟨hrequested, _, hanswer⟩ := serve_of_asks hasks
  have hbound' : store'.membersOf? id = some ms := by rw [hrequested.appends.membersOf?_eq, hbound]
  rw [Finds, hanswer, members_of_bound hbound']

/-- A call that asks for the members of a carrier leaves them bound. -/
theorem exists_bound (hasks : c.asks cat store = some (binder, id, store'))
    (hid : id < store'.carriers.length) : ∃ ms, (c.serve cat store).2.membersOf? id = some ms := by
  obtain ⟨_, hstore, _⟩ := serve_of_asks hasks
  rw [hstore]
  exact ⟨_, membersOf?_members (List.getElem?_eq_getElem hid)⟩

end Call

namespace CarrierStore

variable {cat : Catalog} {store : CarrierStore}

/-! ## Sessions -/

theorem after_later (store : CarrierStore) (cat : Catalog) (calls : List Call) :
    Later store (store.after cat calls) := by
  induction calls generalizing store with
  | nil => exact .refl store
  | cons c rest ih => exact (c.serve_later cat store).trans (ih _)

theorem after_made (h : Made cat store) (calls : List Call) : Made cat (store.after cat calls) := by
  induction calls generalizing store with
  | nil => exact h
  | cons c rest ih => exact ih (c.serve_made h)

theorem toldIn_holds (calls : List Call) (store : CarrierStore) :
    ∀ e ∈ toldIn cat calls store, (store.after cat calls).Holds e.1 e.2 := by
  induction calls generalizing store with
  | nil => exact fun e he => nomatch he
  | cons c rest ih =>
    intro e he
    rcases List.mem_append.1 he with he | he
    · exact (Call.tells_holds e he).later (after_later _ cat rest)
    · exact ih _ e he

theorem after_append (store : CarrierStore) (cat : Catalog) (calls : List Call) (c : Call)
    (later : List Call) : store.after cat (calls ++ c :: later) =
      (c.serve cat (store.after cat calls)).2.after cat later := by
  rw [after, List.foldl_append, List.foldl_cons]
  rfl

/-- **Default carriers are unique, and bound once.** -/
theorem carriers_bound_once (cat : Catalog) (calls : List Call) :
    -- the concept determines the carrier, and the carrier the concept
    (∀ e ∈ toldIn cat calls .empty, ∀ e' ∈ toldIn cat calls .empty, e.1 = e'.1 ↔ e.2 = e'.2) ∧
    -- there is a carrier where there is something to default
    (∀ concept, (∃ id, ((empty.after cat calls).synthesize cat concept).1 = .ok (some id)) ↔
      ∃ d, cat.getConcept concept = .ok d ∧
        ∃ m, Fragment.method m ∈ d.fragments ∧ m.default?.isSome) ∧
    -- members are bound at the first request
    (∀ (c : Call) (binder : Binder) (id : CarrierId) (store : CarrierStore),
      c.asks cat (empty.after cat calls) = some (binder, id, store) → id < store.carriers.length →
      ∃ ms, (c.serve cat (empty.after cat calls)).2.membersOf? id = some ms) ∧
    -- by its binder, and for all later requests
    ∀ (c : Call) (id : CarrierId) (ms : Members), (empty.after cat calls).membersOf? id = none →
      (c.serve cat (empty.after cat calls)).2.membersOf? id = some ms →
      c.Gives cat (empty.after cat calls) id ms ∧ c.Finds cat (empty.after cat calls) id ms ∧
      ∀ (later : List Call) (next : Call) (binder : Binder) (store : CarrierStore),
        next.asks cat (empty.after cat (calls ++ c :: later)) = some (binder, id, store) →
        next.Finds cat (empty.after cat (calls ++ c :: later)) id ms := by
  have hmade : Made cat (empty.after cat calls) := after_made (empty_made cat) calls
  refine ⟨?_, fun _ => exists_synthesize_iff, fun _ _ _ _ => Call.exists_bound, ?_⟩
  · intro e he e' he'
    exact (toldIn_holds calls .empty e he).eq_iff hmade (toldIn_holds calls .empty e' he')
  · intro c id ms hnone hsome
    obtain ⟨hgives, hfinds⟩ := Call.gives_of_entered hmade hnone hsome
    refine ⟨hgives, hfinds, ?_⟩
    intro later next binder store hasks
    rw [after_append] at hasks ⊢
    exact Call.finds_of_bound ((after_later _ cat later).membersOf? hsome) hasks

/-- A registry of one concept with two default bodies, the second of which is blank. -/
def halfBlank : Catalog := .session [.newConcept
  { name := "Eq"
    params := [⟨0, "T", .ordinary⟩]
    parents := []
    fragments := [.method ⟨"unequal", [.var 0 none, .var 0 none], .con "Bool" [], some "!equal"⟩,
      .method ⟨"hash", [.var 0 none], .con "Int" [], some " "⟩] }]

/-- A binder that asks for the carrier that it works for, and then takes the method as it is declared. -/
def inquiring : Binder := fun shell m => .request shell.concept fun _ => Binder.asDeclared shell m

/-- A binder that fails at every method. -/
def failing : Binder := fun _ m => .done (.error (.bindingFailed m.name "unknown name"))

/-- The first binder succeeds for `unequal` and fails for `hash`; the second one, which would fail for both,
    is not asked, and the same members are found. -/
theorem carriers_bound_once_half :
    ∃ ms, (empty.after halfBlank [.carrier "Eq", .members inquiring 0]).membersOf? 0 = some ms ∧
      ms.bound.keys = ["unequal"] ∧ ms.diagnostics = [.bindingFailed "hash" "default body is empty"] ∧
      Call.Gives halfBlank (empty.after halfBlank [.carrier "Eq"]) (.members inquiring 0) 0 ms ∧
      Call.Finds halfBlank (empty.after halfBlank [.carrier "Eq"]) (.members inquiring 0) 0 ms ∧
      Call.Finds halfBlank (empty.after halfBlank [.carrier "Eq", .members inquiring 0])
        (.members failing 0) 0 ms := by
  obtain ⟨_, _, _, hbound⟩ := carriers_bound_once halfBlank [.carrier "Eq"]
  obtain ⟨hgives, hfinds, hlater⟩ := hbound (.members inquiring 0) 0 _ rfl rfl
  exact ⟨_, rfl, rfl, rfl, hgives, hfinds, hlater [] (.members failing 0) failing _ rfl⟩

end CarrierStore

end InstanceSearch
