import Mathlib.Data.Prod.Lex
import Mathlib.Data.String.Basic
import RumaStateRes.Core.Event

/-! # The lexicographical topological sort

`lexicographical_topological_sort` is Kahn's algorithm over outdegrees: the nodes of the graph with
no outgoing edge go on a min-heap keyed by `TieBreaker` (negated power level, age, id); each node
popped is emitted and removed from the outdegree sets of the nodes pointing at it (found through
`reverse_graph`), and a node whose set becomes empty is pushed.

`BinaryHeap` is modelled by what `pop` returns: a least item of the heap, and the heap without it
(`heapPop`). The `while let` loop runs on fuel (`sortLoop`); `lexicographicalTopologicalSort` gives it
one more round than the graph has keys, which `TopoSort.Correct` shows is always enough. -/

namespace RumaStateRes.TopoSort.Model

open RumaStateRes.Core.Result RumaStateRes.Core.Collections RumaStateRes.Core.Event
open Outcome

/-- `TieBreaker`: the heap item of a node. -/
structure TieBreaker where
  invPowerLevel : Int
  age : Nat
  eventId : EventId
  deriving DecidableEq, Repr

namespace TieBreaker

/-- The fields in the order `#[derive(Ord)]` compares them. -/
def key (t : TieBreaker) : Int ×ₗ Nat ×ₗ EventId := toLex (t.invPowerLevel, toLex (t.age, t.eventId))

theorem key_injective : Function.Injective key := by
  rintro ⟨a, b, c⟩ ⟨a', b', c'⟩ h
  simp only [key, toLex_inj, Prod.mk.injEq] at h
  obtain ⟨rfl, rfl, rfl⟩ := h
  rfl

instance : LinearOrder TieBreaker := LinearOrder.lift' key key_injective

instance : Std.Antisymm (fun s t : TieBreaker => s ≤ t) := ⟨le_antisymm⟩

theorem le_iff (s t : TieBreaker) : s ≤ t ↔ s.invPowerLevel < t.invPowerLevel ∨
    s.invPowerLevel = t.invPowerLevel ∧ (s.age < t.age ∨ s.age = t.age ∧ s.eventId ≤ t.eventId) := by
  show s.key ≤ t.key ↔ _
  simp only [key, Prod.Lex.le_iff]

end TieBreaker

theorem min?_eq_some_iff {l : List TieBreaker} {t : TieBreaker} :
    l.min? = some t ↔ t ∈ l ∧ ∀ s ∈ l, t ≤ s :=
  List.min?_eq_some_iff le_refl (fun a b => min_choice a b) (fun _ _ _ => le_min_iff)

/-- Lists with the same items have the same least item. -/
theorem min?_congr {l₁ l₂ : List TieBreaker} (h : ∀ t, t ∈ l₁ ↔ t ∈ l₂) : l₁.min? = l₂.min? := by
  cases h₁ : l₁.min? with
  | some t =>
    rw [min?_eq_some_iff] at h₁
    exact (min?_eq_some_iff.mpr ⟨(h t).mp h₁.1, fun s hs => h₁.2 s ((h s).mpr hs)⟩).symm
  | none =>
    rw [List.min?_eq_none_iff] at h₁
    subst h₁
    rw [eq_comm, List.min?_eq_none_iff]
    exact List.eq_nil_iff_forall_not_mem.mpr fun t ht => by simpa using (h t).mpr ht

/-- `BinaryHeap::pop` on `Reverse` items: a least item, and the heap without it. -/
def heapPop (heap : List TieBreaker) : Option (TieBreaker × List TieBreaker) :=
  heap.min?.map fun t => (t, heap.erase t)

variable (H : HashOrder) (keyFn : EventId → Except Error (Int × Nat))

/-- The heap item of `node`, from its key. -/
def tieBreakerOf (node : EventId) : Outcome TieBreaker := do
  let (powerLevel, age) ← ofExcept (keyFn node)
  pure ⟨-powerLevel, age, node⟩

/-- `zero_outdegree` after `node`: its item is pushed when it has no edge. -/
def pushIfLeaf (zeroOutdegree : List TieBreaker) (entry : Σ _ : EventId, HSet EventId) :
    Outcome (List TieBreaker) :=
  if entry.2.elems.isEmpty then do
    let item ← tieBreakerOf keyFn entry.1
    pure (zeroOutdegree ++ [item])
  else pure zeroOutdegree

/-- One node of the first loop: a node without edges goes on the heap (`zero_outdegree`), and
every edge is recorded backwards in `reverse_graph`. -/
def addNode (acc : List TieBreaker × HMap EventId (HSet EventId)) (entry : Σ _ : EventId, HSet EventId) :
    Outcome (List TieBreaker × HMap EventId (HSet EventId)) := do
  let zeroOutdegree ← pushIfLeaf keyFn acc.1 entry
  pure (zeroOutdegree, (H.arrange entry.2.elems).foldl (fun rg edge => rg.modify edge ∅ (·.insert entry.1))
    (acc.2.modify entry.1 ∅ id))

/-- One parent of the node just popped: the edge to the node leaves its outdegree set, and the
parent is pushed once the set is empty. -/
def releaseParent (node : EventId) (acc : HMap EventId (HSet EventId) × List TieBreaker)
    (parent : EventId) : Outcome (HMap EventId (HSet EventId) × List TieBreaker) := do
  let out ← expect (acc.1.lookup parent)
  let out := out.erase node
  if out.elems.isEmpty then do
    let item ← tieBreakerOf keyFn parent
    pure (acc.1.insert parent out, acc.2 ++ [item])
  else pure (acc.1.insert parent out, acc.2)

/-- The `while let Some(..) = heap.pop()` loop, on fuel. -/
def sortLoop (reverseGraph : HMap EventId (HSet EventId)) :
    Nat → HMap EventId (HSet EventId) → List TieBreaker → List EventId → Outcome (List EventId)
  | 0, _, _, _ => diverge
  | fuel + 1, outdegreeMap, heap, sorted =>
    match heapPop heap with
    | none => ok sorted
    | some (item, heap) => do
      let parents ← expect (reverseGraph.lookup item.eventId)
      let (outdegreeMap, heap) ←
        (H.arrange parents.elems).foldlM (releaseParent keyFn item.eventId) (outdegreeMap, heap)
      sortLoop reverseGraph fuel outdegreeMap heap (sorted ++ [item.eventId])

/-- **`lexicographical_topological_sort`.** -/
def lexicographicalTopologicalSort (graph : HMap EventId (HSet EventId)) : Outcome (List EventId) := do
  let (zeroOutdegree, reverseGraph) ← (H.arrange graph.entries).foldlM (addNode H keyFn) ([], ∅)
  sortLoop H keyFn reverseGraph (graph.entries.length + 1) graph zeroOutdegree []

end RumaStateRes.TopoSort.Model
