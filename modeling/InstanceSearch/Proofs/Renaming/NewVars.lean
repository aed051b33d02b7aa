/-
  An instance at new variables is the instance, renamed.

  THE RENAMING
    `newRenaming` exchanges the parameters of an instance with the variables `n`, `n + 1`, … that it is
    used at, and fixes everything else.  On what lies below `n` it does what `newVars` does, labels apart
    (`anon_applyTo_newVars`); and being a bijection, it goes through everything that a catalog computes.

  THE STATEMENT (`anon_offeredAt`)
    What a candidate offers at new variables can be had in two ways: by renaming what it provides and
    then adding the ancestors, which is what the search does, or by adding the ancestors once and for all
    and renaming the result.  The two agree where no concept is written with a parameter of the candidate
    (`Separate`), and otherwise they need not.
-/
import InstanceSearch.Proofs.Search.Decided
import InstanceSearch.Proofs.Search.Reorder
import InstanceSearch.Proofs.Search.Soundness

namespace InstanceSearch

/-! ## Exchanging parameters and new variables -/

/-- Where `newRenaming` takes a variable: the parameter at place `i` to `n + i`, and back. -/
def newAt (ids : List Nat) (n v : Nat) : Nat :=
  if v ∈ ids then n + ids.idxOf v
  else if n ≤ v ∧ v < n + ids.length then ids.getD (v - n) v
  else v

section NewAt

variable {ids : List Nat} {n v : Nat}

theorem newAt_of_mem (h : v ∈ ids) : newAt ids n v = n + ids.idxOf v := if_pos h

theorem newAt_of_lt (h : v ∉ ids) (hv : v < n) : newAt ids n v = v := by
  rw [newAt, if_neg h, if_neg (by omega)]

theorem newAt_new (hbelow : ∀ w ∈ ids, w < n) {i : Nat} (hi : i < ids.length) :
    newAt ids n (n + i) = ids[i] := by
  have hnew : n + i ∉ ids := by
    intro hmem
    have hlt := hbelow _ hmem
    omega
  rw [newAt, if_neg hnew, if_pos (by omega), Nat.add_sub_cancel_left, List.getD_eq_getElem?_getD,
    List.getElem?_eq_getElem hi, Option.getD_some]

theorem newAt_newAt (hn : ids.Nodup) (hbelow : ∀ w ∈ ids, w < n) :
    newAt ids n (newAt ids n v) = v := by
  by_cases hv : v ∈ ids
  · have hlt := List.idxOf_lt_length_of_mem hv
    rw [newAt_of_mem hv, newAt_new hbelow hlt, List.getElem_idxOf]
  · by_cases hblock : n ≤ v ∧ v < n + ids.length
    · obtain ⟨i, rfl⟩ : ∃ i, v = n + i := ⟨v - n, by omega⟩
      have hi : i < ids.length := by omega
      rw [newAt_new hbelow hi, newAt_of_mem (List.getElem_mem hi), hn.idxOf_getElem]
    · have hself : newAt ids n v = v := by rw [newAt, if_neg hv, if_neg hblock]
      rw [hself, hself]

end NewAt

/-- The renaming that exchanges the parameters `ids`, in order, with the variables from `n` on. -/
def newRenaming (ids : List VarId) (n : VarId) (hn : ids.Nodup) (hbelow : ∀ w ∈ ids, w < n) :
    Renaming where
  toFun := newAt ids n
  invFun := newAt ids n
  left_inv _ := newAt_newAt hn hbelow
  right_inv _ := newAt_newAt hn hbelow

/-! ## New variables as a renaming -/

section Params

variable {params : List Param} {n : VarId} (hn : (params.map Param.id).Nodup)
  (hbelow : ∀ v ∈ params.map Param.id, v < n)
include hn hbelow

omit hbelow in
/-- What stands for a variable below `n` is its image. -/
theorem anon_pick_newVars {v : VarId} (hv : v < n) (name : Option String) :
    ((newVars params n).pick v name).anon = .var (newAt (params.map Param.id) n v) none := by
  by_cases hmem : v ∈ params.map Param.id
  · rw [newAt_of_mem hmem]
    obtain ⟨i, hi, rfl⟩ := List.mem_iff_getElem.1 hmem
    have hi' : i < params.length := by rwa [List.length_map] at hi
    have hzip : (params[i], n + i) ∈ params.zipIdx n :=
      List.mk_add_mem_zipIdx_iff_getElem?.2 (List.getElem?_eq_getElem hi')
    have hfind := find?_newVars hn hzip
    rw [hn.idxOf_getElem, Subst.pick, List.getElem_map, hfind]
    rfl
  · rw [newAt_of_lt hmem hv, (pick_newVars v name).1 hmem]
    rfl

/-- **Using new variables is renaming**, for what lies below them. -/
theorem anon_applyTo_newVars {c : Capability} (hc : ∀ v ∈ c.vars, v < n) :
    ((newVars params n).applyTo c).anon =
      (c.mapVars (newRenaming (params.map Param.id) n hn hbelow)).anon := by
  rw [(newVars_flat hbelow).applyTo_eq]
  refine Capability.anon_map_congr rfl ?_
  intro v hv name _
  exact anon_pick_newVars hn (hc v hv) name

end Params

/-! ## Inheritance and labels -/

namespace Catalog

variable {cat : Catalog}

/-- Equal capabilities bring equal ones along. -/
theorem expand_congr {cs cs' : List Capability} (h : cs.map Capability.anon = cs'.map Capability.anon) :
    (cat.expand cs).map Capability.anon = (cat.expand cs').map Capability.anon := by
  have hall : ∀ cs cs' : List Capability, cs.map Capability.anon = cs'.map Capability.anon →
      (cs.flatMap fun c => c :: cat.ancestors c).map Capability.anon =
        (cs'.flatMap fun c => c :: cat.ancestors c).map Capability.anon := by
    intro cs
    induction cs with
    | nil =>
      intro cs' h
      rw [List.map_nil, List.nil_eq, List.map_eq_nil_iff] at h
      rw [h]
    | cons c cs ih =>
      intro cs' h
      obtain ⟨c', ds, rfl, hc, hds⟩ := List.map_eq_cons_iff.1 h.symm
      have hancestors : (cat.ancestors c).map Capability.anon =
          (cat.ancestors c').map Capability.anon := ancestorsInto_congr hc.symm rfl
      rw [List.flatMap_cons, List.flatMap_cons, List.map_append, List.map_append, List.map_cons,
        List.map_cons, hancestors, ih ds hds.symm, hc]
  unfold expand
  rw [← FirstSeen.ofList_map Capability.beq_anon, ← FirstSeen.ofList_map Capability.beq_anon,
    hall cs cs' h]

/-! ## Parameters that no concept is written with -/

/-- `cat.Separate c`: the type parameters of the candidate differ, and no concept is written with one of
    them, neither as a parameter nor in the capabilities that it extends. -/
structure Separate (cat : Catalog) (c : Candidate) : Prop where
  distinct : (c.params.map Param.id).Nodup
  params : ∀ d ∈ cat.concepts, ∀ p ∈ d.params, p.id ∉ c.params.map Param.id
  parents : ∀ d ∈ cat.concepts, ∀ a ∈ d.parents, ∀ v ∈ a.vars, v ∉ c.params.map Param.id

/-- A registry whose type parameters are its own: those of all concepts differ, and those of each
    instance; and a parameter of a concept is used in that concept only. -/
structure OwnParams (cat : Catalog) : Prop where
  concepts : (cat.concepts.flatMap fun d => d.params.map Param.id).Nodup
  instances : ∀ i ∈ cat.instances, (i.params.map Param.id).Nodup
  parents : ∀ d ∈ cat.concepts, ∀ a ∈ d.parents, ∀ v ∈ a.vars, cat.Schematic v →
    v ∈ d.params.map Param.id
  instanceVars : ∀ i ∈ cat.instances,
    ∀ v ∈ i.params.flatMap Param.vars ++ i.provides.flatMap Capability.vars, ¬ cat.Schematic v
  scopeVars : ∀ s ∈ cat.scopes, ∀ v ∈ s.params.flatMap Param.vars, ¬ cat.Schematic v

instance (cat : Catalog) : Decidable cat.OwnParams :=
  decidable_of_iff ((cat.concepts.flatMap fun d => d.params.map Param.id).Nodup ∧
      (∀ i ∈ cat.instances, (i.params.map Param.id).Nodup) ∧
      (∀ d ∈ cat.concepts, ∀ a ∈ d.parents, ∀ v ∈ a.vars, cat.Schematic v →
        v ∈ d.params.map Param.id) ∧
      (∀ i ∈ cat.instances,
        ∀ v ∈ i.params.flatMap Param.vars ++ i.provides.flatMap Capability.vars,
          ¬ cat.Schematic v) ∧
      ∀ s ∈ cat.scopes, ∀ v ∈ s.params.flatMap Param.vars, ¬ cat.Schematic v)
    ⟨fun h => ⟨h.1, h.2.1, h.2.2.1, h.2.2.2.1, h.2.2.2.2⟩,
      fun h => ⟨h.concepts, h.instances, h.parents, h.instanceVars, h.scopeVars⟩⟩

/-- `cat.Spares c`: no concept extends another one at a type parameter of the candidate. -/
def Spares (cat : Catalog) (c : Candidate) : Prop :=
  ∀ d ∈ cat.concepts, ∀ a ∈ d.parents, ∀ v ∈ a.vars, v ∉ c.params.map Param.id

instance (cat : Catalog) (c : Candidate) : Decidable (cat.Spares c) :=
  inferInstanceAs (Decidable (∀ d ∈ cat.concepts, ∀ a ∈ d.parents, ∀ v ∈ a.vars,
    v ∉ c.params.map Param.id))

variable {c : Candidate}

theorem OwnParams.separate (hown : cat.OwnParams) (h : cat.Offers c) (hspares : cat.Spares c) :
    cat.Separate c where
  distinct := by
    cases c with
    | ambient p => exact List.nodup_nil
    | declared i => exact hown.instances i h
  params d hd p hp hmem := by
    cases c with
    | ambient p' => cases hmem
    | declared i =>
      obtain ⟨p', hp', heq⟩ := List.mem_map.1 hmem
      refine hown.instanceVars i h p.id (List.mem_append.2 (Or.inl ?_)) ⟨d, hd, p, hp, rfl⟩
      exact List.mem_flatMap.2 ⟨p', hp', heq ▸ List.mem_cons_self⟩
  parents := hspares

/-- What a candidate offers mentions variables below the watermark only. -/
theorem Offers.offers_below (hd : cat.Declared) (h : cat.Offers c) :
    ∀ o ∈ c.offers, ∀ v ∈ o.vars, v < cat.nextVar := by
  intro o ho v hv
  cases c with
  | ambient p =>
    obtain ⟨s, hs, hp⟩ := h
    refine hd.regular.scopeVars s hs v (List.mem_flatMap.2 ⟨p, hp, List.mem_cons_of_mem _ ?_⟩)
    exact List.mem_flatMap.2 ⟨o, ho, hv⟩
  | declared i =>
    refine hd.regular.instanceVars i h v (List.mem_append.2 (Or.inr ?_))
    exact List.mem_flatMap.2 ⟨o, ho, hv⟩

/-- Nor does what comes with it: a renaming of variables from the watermark on changes none of it. -/
theorem Offers.expand_below (hd : cat.Declared) (h : cat.Offers c) :
    ∀ d ∈ cat.expand c.offers, ∀ v ∈ d.vars, v < cat.nextVar := by
  have hfixed : ∀ d ∈ cat.expand c.offers, Search.Below Capability.mapVars cat.nextVar d := by
    refine Search.below_of_map fun π hπ => ?_
    have hoffers : c.offers.map (Capability.mapVars π) = c.offers := by
      refine (List.map_congr_left fun o ho => ?_).trans (List.map_id' c.offers)
      exact Capability.mapVars_of_fixed fun v hv => hπ v (h.offers_below hd o ho v hv)
    show (cat.expand c.offers).map (Capability.mapVars π) = cat.expand c.offers
    rw [← expand_mapVars (hd.regular.unmoved hπ), hoffers]
  intro d hdm v hv
  by_contra hlt
  -- exchanging `v` and the variable after it would change the capability
  have hswap : ∀ w < cat.nextVar, Equiv.swap v (v + 1) w = w := by
    intro w hw
    refine Equiv.swap_apply_of_ne_of_ne ?_ ?_
    · rintro rfl
      exact hlt hw
    · rintro rfl
      exact hlt (Nat.lt_of_succ_lt hw)
  have hvars := congrArg Capability.vars (hfixed d hdm _ hswap)
  rw [Capability.vars_mapVars] at hvars
  have hself := List.map_inj_left.1 (hvars.trans (List.map_id' d.vars).symm) v hv
  rw [Equiv.swap_apply_left] at hself
  exact absurd hself (Nat.succ_ne_self v)

/-- The renaming to new variables leaves the concepts alone. -/
theorem Separate.unmoved (hd : cat.Declared) (h : cat.Separate c) {n : VarId} (hn : cat.nextVar ≤ n)
    (hbelow : ∀ v ∈ c.params.map Param.id, v < n) :
    cat.Unmoved (newRenaming (c.params.map Param.id) n h.distinct hbelow) := by
  intro d hdm v hv
  show newAt (c.params.map Param.id) n v = v
  refine newAt_of_lt ?_ (Nat.lt_of_lt_of_le (hd.regular.written_below d hdm v hv) hn)
  rcases List.mem_append.1 hv with hv | hv
  · obtain ⟨p, hp, rfl⟩ := List.mem_map.1 hv
    exact h.params d hdm p hp
  · obtain ⟨a, ha, hv⟩ := List.mem_flatMap.1 hv
    exact h.parents d hdm a ha v hv

end Catalog

/-- **Ancestors may be added before an instance is used at new variables or after.** -/
theorem Search.anon_offeredAt {q : Search} {c : Candidate} {n : VarId} (hd : q.catalog.Declared)
    (hc : q.catalog.Offers c) (hsep : q.catalog.Separate c) (hn : q.catalog.nextVar ≤ n)
    (hbelow : ∀ v ∈ c.params.map Param.id, v < n) :
    (q.offeredAt c n).map Capability.anon = ((q.catalog.expand c.offers).map
      (Capability.mapVars (newRenaming (c.params.map Param.id) n hsep.distinct hbelow))).map
        Capability.anon := by
  rw [← Catalog.expand_mapVars (hsep.unmoved hd hn hbelow)]
  refine Catalog.expand_congr ?_
  rw [List.map_map, List.map_map]
  refine List.map_congr_left fun o ho => ?_
  exact anon_applyTo_newVars hsep.distinct hbelow fun v hv =>
    Nat.lt_of_lt_of_le (hc.offers_below hd o ho v hv) hn

end InstanceSearch
