/-
  Where a member of a witness comes from.

  The witness of an enclosing generic supplies its members when the program runs.  An instance supplies
  those that it implements, and for the others the default of the concept stands in, provided that the
  instance provides the concept at all.
-/
import InstanceSearch.Carrier.Basic
import InstanceSearch.Catalog.Inheritance
import InstanceSearch.Witness

namespace InstanceSearch

inductive MemberSource where
  /-- supplied by the caller's witness -/
  | ambient (var : VarId)
  /-- implemented by the instance -/
  | inst (id : InstanceId)
  /-- the default of the concept -/
  | default (carrier : CarrierId) (member : Member)

/-- Some capability among the offered ones and their ancestors is of the concept. -/
def Catalog.offersConcept (cat : Catalog) (provides : List Capability) (concept : String) : Bool :=
  (cat.expand provides).any fun c => c.concept == concept

namespace CarrierStore

/-- The default of a concept for a member that an instance leaves out. -/
def defaultFor (store : CarrierStore) (cat : Catalog) (binder : Binder) (i : Instance)
    (concept member : String) : Except MemberError MemberSource × CarrierStore :=
  match store.synthesize cat concept with
  | (.error e, store) => (.error (.declaration e), store)
  | (.ok none, store) => (.error (.missingMember member i.name), store)
  | (.ok (some id), store) =>
    let (ms, store) := store.members cat binder id
    match ms.bound.find? member with
    | some m => (.ok (.default id m), store)
    | none => (.error (.missingMember member i.name), store)

/-- The source of a concept's member for a witness. -/
def lookup (store : CarrierStore) (cat : Catalog) (binder : Binder) (w : Witness)
    (concept member : String) : Except MemberError MemberSource × CarrierStore :=
  match w with
  | .ambient v _ => (.ok (.ambient v), store)
  | .apply id _ _ =>
    match cat.getInstance id with
    | .error e => (.error (.declaration e), store)
    | .ok i =>
      if cat.offersConcept i.provides concept then
        if i.implements member then (.ok (.inst i.id), store)
        else store.defaultFor cat binder i concept member
      else (.error (.conceptNotProvided concept i.name), store)

end CarrierStore

end InstanceSearch
