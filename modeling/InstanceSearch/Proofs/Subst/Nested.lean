/-
  Where nested calls are enough.

  SETTLING
    A call that is nested at most `n` deep gives nothing if that is too little.  It SETTLES on a result
    if it gives this result at every depth from some depth on; a result is then the only one
    (`Settles.unique`).  Settling passes from parts to the whole: the next call (`Settles.bind`), a list
    of calls (`Settles.mapM`), and one more level (`Settles.succ`).

  THE STATEMENT (`acyclic_iff_settles`)
    Applying a substitution settles for every variable exactly if the substitution has no cycle, and
    then on what `apply` gives.  The depth at which a variable settles is a rank for the bindings.
-/
import Mathlib.Data.Nat.Find
import InstanceSearch.Proofs.Subst.Acyclic
import InstanceSearch.Unify.Nested

namespace InstanceSearch

/-! ## Settling -/

/-- From some depth on the calls `f` give `x`. -/
def Settles {α : Type} (f : Nat → Option α) (x : α) : Prop := ∃ n, ∀ m, n ≤ m → f m = some x

namespace Settles

variable {α β : Type} {f : Nat → Option α} {x y : α}

theorem const (h : ∀ n, f n = some x) : Settles f x := ⟨0, fun m _ => h m⟩

theorem unique (hx : Settles f x) (hy : Settles f y) : x = y := by
  obtain ⟨n, hn⟩ := hx
  obtain ⟨m, hm⟩ := hy
  have hboth := (hn (max n m) (by omega)).symm.trans (hm (max n m) (by omega))
  exact Option.some.inj hboth

/-- What settles one level down settles. -/
theorem succ (h : Settles (fun n => f (n + 1)) x) : Settles f x := by
  obtain ⟨n, hn⟩ := h
  refine ⟨n + 1, ?_⟩
  intro m hm
  obtain ⟨k, rfl⟩ : ∃ k, m = k + 1 := ⟨m - 1, by omega⟩
  exact hn k (by omega)

/-- A call, and the call that goes on with its result. -/
theorem bind {g : Nat → α → Option β} {z : β} (hx : Settles f x)
    (hz : Settles (fun n => g n x) z) : Settles (fun n => (f n).bind (g n)) z := by
  obtain ⟨n, hn⟩ := hx
  obtain ⟨m, hm⟩ := hz
  refine ⟨max n m, ?_⟩
  intro k hk
  show (f k).bind (g k) = some z
  rw [hn k (by omega)]
  exact hm k (by omega)

theorem map (h : Settles f x) (g : α → β) : Settles (fun n => (f n).map g) (g x) := by
  obtain ⟨n, hn⟩ := h
  refine ⟨n, ?_⟩
  intro m hm
  show (f m).map g = some (g x)
  rw [hn m hm, Option.map_some]

/-- Calls for all members of a list. -/
theorem mapM {F : Nat → β → Option α} {g : β → α} {ts : List β}
    (h : ∀ t ∈ ts, Settles (fun n => F n t) (g t)) :
    Settles (fun n => ts.mapM (F n)) (ts.map g) := by
  induction ts with
  | nil => exact const fun _ => rfl
  | cons t ts ih =>
    have htail := ih fun u hu => h u (List.mem_cons_of_mem t hu)
    simp only [List.mapM_cons, List.map_cons]
    exact (h t List.mem_cons_self).bind (htail.bind (const fun _ => rfl))

/-- A call for every member of a list, each with the result of the one before. -/
theorem foldlM {F : Nat → β → α → Option β} {g : β → α → β} {as : List α}
    (h : ∀ a ∈ as, ∀ b, Settles (fun n => F n b a) (g b a)) (b : β) :
    Settles (fun n => as.foldlM (F n) b) (as.foldl g b) := by
  induction as generalizing b with
  | nil => exact const fun _ => rfl
  | cons a as ih =>
    simp only [List.foldlM_cons, List.foldl_cons]
    exact (h a List.mem_cons_self b).bind (ih (fun x hx => h x (List.mem_cons_of_mem a hx)) (g b a))

end Settles

namespace Subst

variable {s : Subst}

/-! ## Applying ends where there is no cycle -/

/-- A type settles where its variables do. -/
theorem applyWithin_settles_of_vars {t : Ty}
    (h : ∀ v ∈ t.vars, ∀ name, Settles (fun n => s.applyWithin n (.var v name)) (s.apply (.var v name))) :
    Settles (fun n => s.applyWithin n t) (s.apply t) := by
  induction t using Ty.induction with
  | var v name => exact h v (by simp) name
  | app f args ih =>
    have hargs : ∀ t ∈ args, Settles (fun n => s.applyWithin n t) (s.apply t) := by
      intro t ht
      refine ih t ht ?_
      intro v hv
      exact h v (Ty.vars_app f args ▸ List.mem_flatMap.2 ⟨t, ht, hv⟩)
    have hall := (Settles.mapM hargs).map (Ty.app f)
    rw [apply_app]
    exact Settles.succ hall

/-- **Applying an acyclic substitution by nested calls ends**, with the type that `apply` gives. -/
theorem Acyclic.applyWithin_settles (hs : s.Acyclic) (t : Ty) :
    Settles (fun n => s.applyWithin n t) (s.apply t) := by
  have hvar : ∀ v name, Settles (fun n => s.applyWithin n (.var v name)) (s.apply (.var v name)) := by
    intro v
    induction v using hs.induction with
    | free v hv =>
      intro name
      rw [apply_var_of_none hv]
      refine Settles.succ (Settles.const ?_)
      intro n
      simp only [applyWithin, hv]
    | bound v u hv ih =>
      intro name
      rw [hs.apply_var_of_some hv]
      have hu := applyWithin_settles_of_vars ih
      refine Settles.succ ?_
      simpa only [applyWithin, hv] using hu
  exact applyWithin_settles_of_vars fun v _ name => hvar v name

/-! ## Only there -/

theorem isSome_mapM_iff {α β : Type} {f : α → Option β} {ts : List α} :
    (ts.mapM f).isSome = true ↔ ∀ t ∈ ts, (f t).isSome = true := by
  induction ts with
  | nil => simp
  | cons t ts ih =>
    rw [List.mapM_cons, List.forall_mem_cons, ← ih]
    cases f t with
    | none => simp
    | some x => cases ts.mapM f <;> simp

theorem applyWithin_app_isSome_iff {n : Nat} {f : Former} {args : List Ty} :
    (s.applyWithin (n + 1) (.app f args)).isSome = true ↔
      ∀ t ∈ args, (s.applyWithin n t).isSome = true := by
  rw [applyWithin, Option.isSome_map, isSome_mapM_iff]

/-- More is enough where less is. -/
theorem applyWithin_isSome_succ {n : Nat} {t : Ty} (h : (s.applyWithin n t).isSome = true) :
    (s.applyWithin (n + 1) t).isSome = true := by
  induction n generalizing t with
  | zero => cases h
  | succ n ih =>
    cases t with
    | var v name =>
      rw [applyWithin] at h ⊢
      cases hv : s.find? v with
      | none => rfl
      | some u =>
        rw [hv] at h
        exact ih h
    | app f args =>
      rw [applyWithin_app_isSome_iff] at h ⊢
      exact fun t ht => ih (h t ht)

/-- What is enough for a type is enough for its variables. -/
theorem applyWithin_isSome_of_mem {n : Nat} {t : Ty} {w : VarId} (hw : w ∈ t.vars)
    (h : (s.applyWithin n t).isSome = true) : (s.applyWithin n (.var w none)).isSome = true := by
  induction n generalizing t with
  | zero => cases h
  | succ n ih =>
    cases t with
    | var v name =>
      rw [Ty.vars_var, List.mem_singleton] at hw
      subst hw
      rw [applyWithin] at h ⊢
      cases hv : s.find? w with
      | none => rfl
      | some u =>
        rw [hv] at h
        exact h
    | app f args =>
      rw [Ty.vars_app, List.mem_flatMap] at hw
      obtain ⟨t, ht, hwt⟩ := hw
      exact applyWithin_isSome_succ (ih hwt (applyWithin_app_isSome_iff.1 h t ht))

/-- **A substitution has no cycle exactly if applying it ends**, for every variable; what it ends with is
    what `apply` gives. -/
theorem acyclic_iff_settles :
    s.Acyclic ↔ ∀ v, Settles (fun n => s.applyWithin n (.var v none)) (s.apply (.var v none)) := by
  constructor
  · intro hs v
    exact hs.applyWithin_settles (.var v none)
  · intro h
    have hends : ∀ v, ∃ n, (s.applyWithin n (.var v none)).isSome = true := by
      intro v
      obtain ⟨n, hn⟩ := h v
      have hlast : s.applyWithin n (.var v none) = some _ := hn n (Nat.le_refl n)
      exact ⟨n, by rw [hlast]; rfl⟩
    -- the rank of a variable is the least depth that is enough for it
    refine ⟨fun v => Nat.find (hends v), ?_⟩
    intro v t hv w hw
    show Nat.find (hends w) < Nat.find (hends v)
    have hspec := Nat.find_spec (hends v)
    cases hn : Nat.find (hends v) with
    | zero =>
      rw [hn] at hspec
      cases hspec
    | succ n =>
      rw [hn, applyWithin, hv] at hspec
      have hle : Nat.find (hends w) ≤ n := Nat.find_min' _ (applyWithin_isSome_of_mem hw hspec)
      omega

end Subst

end InstanceSearch
