/-
  Default carriers.

  THE DOMAIN
    A concept may give default bodies to some of its methods.  Such a concept has one CARRIER: an
    implementation that is generic over a single witness parameter, constrained by the concept itself.
    Instances that leave out a method with a default use the carrier's member.

  TWO PHASES
    The SHELL of a carrier (its concept, its name, its witness parameter) is made at the first request.
    The MEMBERS are bound later, by the first binder that is asked for them, and never again.  A binder
    sees the shell and the method.  It may ask for carriers, of this concept or another, before it
    answers; it cannot ask for members.  `Binding` says just that: a result, or a request and what to
    do with the answer.

  THE STORE
    Carriers are numbered in the order in which they were made, and the number is their identity.
-/
import InstanceSearch.OrderedMap
import InstanceSearch.Catalog.Basic
import InstanceSearch.Carrier.Error
import InstanceSearch.Text.Blank

namespace InstanceSearch

/-- A carrier is a number. -/
abbrev CarrierId := Nat

/-- What is known of a carrier before any member is bound. -/
structure Shell where
  concept : String
  name : String
  /-- the single parameter, constrained by the concept that is defaulted -/
  witness : Param

/-- A default method as a member of a carrier. -/
structure Member where
  name : String
  /-- the name of the carrier -/
  owner : String
  signature : Ty
  body : String

/-- The members of a carrier by name, and what went wrong while they were bound. -/
structure Members where
  bound : OrderedMap String Member
  diagnostics : List MemberError

namespace Members

def empty : Members := ⟨.empty, []⟩

/-- A bound member counts if its name is new; an error is kept with the diagnostics. -/
def record (ms : Members) : Except MemberError Member → Members
  | .ok m => { ms with bound := ms.bound.insertIfNew m.name m }
  | .error e => { ms with diagnostics := ms.diagnostics ++ [e] }

end Members

structure Carrier where
  shell : Shell
  /-- the methods with a default body -/
  defaults : List Method
  /-- the members, once they are bound -/
  members? : Option Members

def Carrier.isMaterialized (c : Carrier) : Bool := c.members?.isSome

/-- The carrier of a concept before its members are bound. -/
def Carrier.ofConcept (d : Concept) : Carrier where
  shell :=
    ⟨d.name, d.name ++ ".Default", ⟨d.carrierVar, "__witness", .witness [d.selfReference]⟩⟩
  defaults := d.methods.filter Method.hasDefault
  members? := none

/-! ## Binders -/

/-- How a binder answers: at once, or after it asked for the carrier of a concept. -/
inductive Binding where
  | done (result : Except MemberError Member)
  | request (concept : String) (next : Except DeclError (Option CarrierId) → Binding)

/-- Turns a default method into a member. -/
abbrev Binder := Shell → Method → Binding

/-- The binder that takes a method as it is declared; a blank body cannot be bound. -/
def Binder.asDeclared : Binder := fun shell m =>
  let body := m.default?.getD ""
  .done <|
    if isBlank body then .error (.bindingFailed m.name "default body is empty")
    else .ok ⟨m.name, shell.name, m.signature, body⟩

/-! ## The store -/

/-- The carriers made so far, in order. -/
structure CarrierStore where
  carriers : List Carrier

namespace CarrierStore

def empty : CarrierStore := ⟨[]⟩

/-- The carrier that was made for a concept. -/
def idOf? (store : CarrierStore) (concept : String) : Option CarrierId :=
  store.carriers.findIdx? fun c => c.shell.concept == concept

/-- The carrier of a concept, made if it is asked for the first time; none without default bodies. -/
def synthesize (store : CarrierStore) (cat : Catalog) (concept : String) :
    Except DeclError (Option CarrierId) × CarrierStore :=
  match cat.getConcept concept with
  | .error e => (.error e, store)
  | .ok d =>
    if d.hasDefaults then
      match store.idOf? d.name with
      | some id => (.ok (some id), store)
      | none => (.ok (some store.carriers.length), ⟨store.carriers ++ [.ofConcept d]⟩)
    else (.ok none, store)

/-- Carries out what a binder asks for. -/
def run (cat : Catalog) : Binding → CarrierStore → Except MemberError Member × CarrierStore
  | .done result, store => (result, store)
  | .request concept next, store =>
    let (answer, store) := store.synthesize cat concept
    run cat (next answer) store

/-- A binding that is finished leaves the store alone. -/
@[simp] theorem run_done (cat : Catalog) (result : Except MemberError Member) (store : CarrierStore) :
    run cat (.done result) store = (result, store) := rfl

@[simp] theorem run_request (cat : Catalog) (concept : String)
    (next : Except DeclError (Option CarrierId) → Binding) (store : CarrierStore) :
    run cat (.request concept next) store =
      run cat (next (store.synthesize cat concept).1) (store.synthesize cat concept).2 := rfl

/-- Binds methods one after the other. -/
def bindAll (cat : Catalog) (binder : Binder) (shell : Shell) :
    List Method → Members → CarrierStore → Members × CarrierStore
  | [], ms, store => (ms, store)
  | m :: rest, ms, store =>
    let (result, store) := run cat (binder shell m) store
    bindAll cat binder shell rest (ms.record result) store

/-- The members of a carrier, bound now if nobody asked before. -/
def members (store : CarrierStore) (cat : Catalog) (binder : Binder) (id : CarrierId) :
    Members × CarrierStore :=
  match store.carriers[id]? with
  | none => (.empty, store)
  | some c =>
    match c.members? with
    | some ms => (ms, store)
    | none =>
      let (ms, store) := bindAll cat binder c.shell c.defaults .empty store
      (ms, ⟨store.carriers.modify id fun c => { c with members? := some ms }⟩)

end CarrierStore

end InstanceSearch
