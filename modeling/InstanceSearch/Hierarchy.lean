/-
  The graph of concepts.

  THE TYPE
    A `Hierarchy` has the declared concepts as nodes and an edge from a concept to each concept that it
    lists as a parent.  Arguments are left out: the graph knows that `Ord` inherits from `Eq`, not at
    which types.

  TWO QUESTIONS
    * `reaches a b`  some path, perhaps of no edge, leads from `a` to `b`;
    * `isCyclic`     some edge leads to a concept from which a path leads back.
    Both come from the set of concepts that are reachable from one, grown a step at a time until
    nothing is added.  Each step but the last adds a node or the target of an edge, which bounds the
    number of steps by the number of edges.
-/
import InstanceSearch.FirstSeen

namespace InstanceSearch

/-- Concepts, and edges from each to its parents. -/
structure Hierarchy where
  nodes : List String
  edges : List (String × String)
deriving Inhabited, DecidableEq

namespace Hierarchy

/-- The graph without concepts. -/
def empty : Hierarchy := ⟨[], []⟩

/-- `h.add name parents` = `h` with the node `name` and its edges. -/
def add (h : Hierarchy) (name : String) (parents : List String) : Hierarchy :=
  ⟨h.nodes ++ [name], h.edges ++ parents.map fun p => (name, p)⟩

/-- `h.remove name` = `h` without the node `name` and without the edges from and to it. -/
def remove (h : Hierarchy) (name : String) : Hierarchy :=
  ⟨h.nodes.filter fun a => a != name, h.edges.filter fun e => e.1 != name && e.2 != name⟩

/-- The targets of the edges that leave a node. -/
def parents (h : Hierarchy) (a : String) : List String :=
  (h.edges.filter fun e => e.1 == a).map Prod.snd

/-- `h.grow seen` = `seen` and everything one edge away from it. -/
def grow (h : Hierarchy) (seen : List String) : List String :=
  FirstSeen.addAll seen (seen.flatMap h.parents)

/-- `h.close n seen` = `seen` grown at most `n` times, and no further once it stops growing. -/
def close (h : Hierarchy) : Nat → List String → List String
  | 0, seen => seen
  | n + 1, seen =>
    let more := h.grow seen
    if more.length = seen.length then seen else h.close n more

/-- Everything that paths from `a` lead to, `a` itself first. -/
def reachable (h : Hierarchy) (a : String) : List String := h.close h.edges.length [a]

/-- `h.reaches a b`: a path leads from `a` to `b`. -/
def reaches (h : Hierarchy) (a b : String) : Bool := (h.reachable a).contains b

/-- Some edge can be followed back to where it starts. -/
def isCyclic (h : Hierarchy) : Bool := h.edges.any fun e => h.reaches e.2 e.1

@[simp] theorem mem_parents {h : Hierarchy} {a b : String} : b ∈ h.parents a ↔ (a, b) ∈ h.edges := by
  simp [parents]

/-- One step of growth adds the targets of edges and nothing else. -/
@[simp] theorem mem_grow {h : Hierarchy} {seen : List String} {b : String} :
    b ∈ h.grow seen ↔ b ∈ seen ∨ ∃ a ∈ seen, (a, b) ∈ h.edges := by
  simp [grow]

/-- **What was added can be taken back**, if the graph did not know the node before. -/
theorem remove_add {h : Hierarchy} {name : String} (hnodes : name ∉ h.nodes)
    (hedges : ∀ e ∈ h.edges, e.1 ≠ name ∧ e.2 ≠ name) (parents : List String) :
    (h.add name parents).remove name = h := by
  have hkept : h.nodes.filter (fun a => a != name) = h.nodes := by
    rw [List.filter_eq_self]
    intro a ha
    have hne : a ≠ name := fun he => hnodes (he ▸ ha)
    simpa using hne
  have hgone : [name].filter (fun a => a != name) = [] := by simp
  have hkeptEdges : h.edges.filter (fun e => e.1 != name && e.2 != name) = h.edges := by
    rw [List.filter_eq_self]
    intro e he
    simpa using hedges e he
  have hgoneEdges : (parents.map fun p => (name, p)).filter
      (fun e => e.1 != name && e.2 != name) = [] := by
    simp
  unfold add remove
  rw [List.filter_append, List.filter_append, hkept, hgone, hkeptEdges, hgoneEdges,
    List.append_nil, List.append_nil]

end Hierarchy

end InstanceSearch
