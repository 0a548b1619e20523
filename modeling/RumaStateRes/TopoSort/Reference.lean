import Mathlib.Order.WellFoundedSet
import RumaStateRes.TopoSort.Model

/-! # The reference order of the topological sort

The order the sort must produce, stated without a heap: repeatedly emit, among the keys not yet
emitted all of whose successors have been emitted (`ready`), the one with the least `TieBreaker`,
until none is left (`lexOrder`). `Greedy` says of a list that every entry was such a least ready
key when it was emitted; it makes the list a topological order of the keys it holds (`Greedy.nodup`,
`Greedy.after`).

* `lexOrder_greedy`: the reference order is greedy and leaves no key ready;
* `mem_of_ready_eq_nil`: on an acyclic graph whose edge targets are keys, a list that is greedy and
  leaves no key ready holds every key;
* `lexOrder_congr`: graphs with the same keys and successors have the same reference order;
* `mem_lexOrderFrom_of_ready`: a key that is ever ready is emitted. -/

namespace RumaStateRes.TopoSort.Reference

open RumaStateRes.Core.Collections RumaStateRes.Core.Event RumaStateRes.TopoSort.Model

variable (graph : HMap EventId (HSet EventId)) (κ : EventId → Int × Nat)

/-- The successors of `x`; none when `x` is not a key. -/
def succs (x : EventId) : List EventId := ((graph.lookup x).map HSet.elems).getD []

/-- The keys not in `emitted` all of whose successors are in `emitted`. -/
def ready (emitted : List EventId) : List EventId :=
  graph.keys.filter fun x => x ∉ emitted ∧ ∀ y ∈ succs graph x, y ∈ emitted

/-- The heap item a node gets from a key function that succeeds with `κ`. -/
def tieBreaker (x : EventId) : TieBreaker := ⟨-(κ x).1, (κ x).2, x⟩

/-- The next node of the reference order: the ready one with the least item. -/
def nextReady (emitted : List EventId) : Option EventId :=
  ((ready graph emitted).map (tieBreaker κ)).min?.map TieBreaker.eventId

/-- The reference order continued from `emitted`, for at most `n` more nodes. -/
def lexOrderFrom : Nat → List EventId → List EventId
  | 0, emitted => emitted
  | n + 1, emitted =>
    match nextReady graph κ emitted with
    | none => emitted
    | some x => lexOrderFrom n (emitted ++ [x])

/-- **The reference order**: least ready key first, until no key is ready. -/
def lexOrder : List EventId := lexOrderFrom graph κ graph.entries.length []

theorem mem_ready {emitted : List EventId} {x : EventId} :
    x ∈ ready graph emitted ↔ x ∈ graph ∧ x ∉ emitted ∧ ∀ y ∈ succs graph x, y ∈ emitted := by
  simp [ready, AList.mem_keys]

theorem tieBreaker_injective : Function.Injective (tieBreaker κ) := fun _ _ h =>
  congrArg TieBreaker.eventId h

/-- Every entry of `l` was a ready key with the least item when it was emitted. -/
def Greedy (l : List EventId) : Prop :=
  ∀ pre x suf, l = pre ++ x :: suf →
    x ∈ ready graph pre ∧ ∀ y ∈ ready graph pre, tieBreaker κ x ≤ tieBreaker κ y

variable {graph κ}

theorem Greedy.nil : Greedy graph κ [] := fun pre x suf h => by simp at h

theorem Greedy.snoc {l : List EventId} {x : EventId} (hl : Greedy graph κ l)
    (hx : x ∈ ready graph l) (hmin : ∀ y ∈ ready graph l, tieBreaker κ x ≤ tieBreaker κ y) :
    Greedy graph κ (l ++ [x]) := by
  intro pre z suf h
  rcases List.eq_nil_or_concat suf with rfl | ⟨suf', w, rfl⟩
  · obtain ⟨rfl, hxz⟩ := List.append_inj' h rfl
    obtain rfl := List.singleton_inj.mp hxz
    exact ⟨hx, hmin⟩
  · have h' : l ++ [x] = (pre ++ z :: suf') ++ [w] := by simpa using h
    exact hl pre z suf' (List.append_inj' h' rfl).1

theorem Greedy.ready_of_eq {l : List EventId} (hl : Greedy graph κ l) {pre : List EventId} {x : EventId}
    {suf : List EventId} (h : l = pre ++ x :: suf) : x ∈ ready graph pre := (hl pre x suf h).1

theorem Greedy.keys {l : List EventId} (hl : Greedy graph κ l) {x : EventId} (hx : x ∈ l) :
    x ∈ graph := by
  obtain ⟨pre, suf, h⟩ := List.append_of_mem hx
  exact ((mem_ready graph).mp (hl.ready_of_eq h)).1

theorem Greedy.nodup {l : List EventId} (hl : Greedy graph κ l) : l.Nodup := by
  induction l using List.reverseRecOn with
  | nil => exact List.nodup_nil
  | append_singleton l x ih =>
    have hx := ((mem_ready graph).mp (hl.ready_of_eq (show l ++ [x] = l ++ x :: [] from rfl))).2.1
    refine List.nodup_append.mpr ⟨ih fun pre z suf h => hl pre z (suf ++ [x]) (by simp [h]),
      List.nodup_singleton x, fun a ha hb => ?_⟩
    rw [List.mem_singleton] at hb
    exact hx (hb ▸ ha)

/-- Every entry comes after all of its successors. -/
theorem Greedy.after {l : List EventId} (hl : Greedy graph κ l) {pre : List EventId} {x : EventId}
    {suf : List EventId} (h : l = pre ++ x :: suf) : ∀ y ∈ succs graph x, y ∈ pre :=
  ((mem_ready graph).mp (hl.ready_of_eq h)).2.2

/-- The successors of an entry are entries. -/
theorem Greedy.closed {l : List EventId} (hl : Greedy graph κ l) {x : EventId} (hx : x ∈ l) :
    ∀ y ∈ succs graph x, y ∈ l := fun y hy => by
  obtain ⟨pre, suf, h⟩ := List.append_of_mem hx
  exact h ▸ List.mem_append_left _ (hl.after h y hy)

theorem length_keys : graph.keys.length = graph.entries.length := by simp [AList.keys, List.keys]

theorem ready_eq_nil_of_length {l : List EventId} (hl : Greedy graph κ l)
    (hlen : graph.entries.length ≤ l.length) : ready graph l = [] := by
  refine List.eq_nil_iff_forall_not_mem.mpr fun x hx => ?_
  have hx' := (mem_ready graph).mp hx
  have hsub : (x :: l).Subperm graph.keys :=
    List.subperm_of_subset (List.nodup_cons.mpr ⟨hx'.2.1, hl.nodup⟩) fun y hy => by
      rcases List.mem_cons.mp hy with rfl | hy
      exacts [AList.mem_keys.mp hx'.1, AList.mem_keys.mp (hl.keys hy)]
  have := hsub.length_le
  rw [List.length_cons, length_keys] at this
  omega

theorem nextReady_eq_some {emitted : List EventId} {x : EventId}
    (h : nextReady graph κ emitted = some x) :
    x ∈ ready graph emitted ∧ ∀ y ∈ ready graph emitted, tieBreaker κ x ≤ tieBreaker κ y := by
  obtain ⟨t, ht, rfl⟩ := Option.map_eq_some'.mp h
  obtain ⟨htm, hmin⟩ := min?_eq_some_iff.mp ht
  obtain ⟨x, hx, rfl⟩ := List.mem_map.mp htm
  exact ⟨hx, fun y hy => hmin _ (List.mem_map_of_mem _ hy)⟩

theorem nextReady_eq_none {emitted : List EventId} (h : nextReady graph κ emitted = none) :
    ready graph emitted = [] := by
  simpa [nextReady] using h

/-- The reference order from a greedy prefix stays greedy, and with enough rounds no key is left
ready. -/
theorem lexOrderFrom_greedy : ∀ (n : Nat) {emitted : List EventId}, Greedy graph κ emitted →
    Greedy graph κ (lexOrderFrom graph κ n emitted) ∧
      (graph.entries.length ≤ n + emitted.length → ready graph (lexOrderFrom graph κ n emitted) = [])
  | 0, _, h => ⟨h, fun hlen => ready_eq_nil_of_length h (by simpa using hlen)⟩
  | n + 1, emitted, h => by
    unfold lexOrderFrom
    cases hx : nextReady graph κ emitted with
    | none => exact ⟨h, fun _ => nextReady_eq_none hx⟩
    | some x =>
      obtain ⟨hr, hmin⟩ := nextReady_eq_some hx
      refine (lexOrderFrom_greedy n (h.snoc hr hmin)).imp id fun h' hlen => h' ?_
      simp only [List.length_append, List.length_singleton]
      omega

theorem lexOrder_greedy : Greedy graph κ (lexOrder graph κ) ∧ ready graph (lexOrder graph κ) = [] :=
  (lexOrderFrom_greedy _ Greedy.nil).imp id fun h => h (by simp)

/-! ### Acyclic graphs -/

variable (graph)

/-- `x` has an edge to `y`. -/
def Edge (x y : EventId) : Prop := y ∈ succs graph x

/-- No node reaches itself along edges. -/
def Acyclic : Prop := ∀ x, ¬ Relation.TransGen (Edge graph) x x

/-- Every edge ends at a key. -/
def Closed : Prop := ∀ x, ∀ y ∈ succs graph x, y ∈ graph

variable {graph}

/-- On an acyclic graph whose edges end at keys, a list after which no key is ready holds every
key: a key missing from it with no missing key below it would be ready. -/
theorem mem_of_ready_eq_nil (hacyc : Acyclic graph) (hclosed : Closed graph) {l : List EventId}
    (hl : ready graph l = []) {x : EventId} (hx : x ∈ graph) : x ∈ l := by
  let r : EventId → EventId → Prop := fun z y => Relation.TransGen (Edge graph) y z
  haveI : IsStrictOrder EventId r :=
    { irrefl := fun a h => hacyc a h
      trans := fun _ _ _ h₁ h₂ => h₂.trans h₁ }
  have hfin : {z | z ∈ graph.keys}.Finite := graph.keys.finite_toSet
  refine (hfin.wellFoundedOn (r := r)).induction (AList.mem_keys.mp hx) fun y hy ih => ?_
  by_contra hyl
  have hready : y ∈ ready graph l := (mem_ready graph).mpr ⟨AList.mem_keys.mpr hy, hyl, fun z hz =>
    ih z (AList.mem_keys.mp (hclosed y z hz)) (Relation.TransGen.single hz)⟩
  simp [hl] at hready

/-! ### Graphs with the same nodes and edges -/

/-- The successors of `x` in a graph whose edges from each key are exactly those of `R`: none
when `x` is not a key. -/
theorem mem_succs_iff {R : EventId → EventId → Prop}
    (hedges : ∀ x es, graph.lookup x = some es → ∀ y, y ∈ es ↔ R x y) {x y : EventId} :
    y ∈ succs graph x ↔ x ∈ graph ∧ R x y := by
  unfold succs
  cases hx : graph.lookup x with
  | none => simp [AList.lookup_eq_none.mp hx]
  | some es =>
    have hmem : x ∈ graph := AList.lookup_isSome.mp (by rw [hx]; rfl)
    simp [hmem, ← hedges x es hx y, HSet.mem_def]

/-- **Two graphs with the same keys and the same successors have the same reference order**: it
reads a graph only through `ready`, and its bound through the number of keys. -/
theorem lexOrder_congr {graph' : HMap EventId (HSet EventId)} (hkeys : ∀ x, x ∈ graph ↔ x ∈ graph')
    (hsuccs : ∀ x y, y ∈ succs graph x ↔ y ∈ succs graph' x) : lexOrder graph κ = lexOrder graph' κ := by
  have hnext : ∀ emitted, nextReady graph κ emitted = nextReady graph' κ emitted := fun emitted => by
    have hitems : ∀ t, t ∈ (ready graph emitted).map (tieBreaker κ) ↔ t ∈ (ready graph' emitted).map (tieBreaker κ) :=
      fun t => by simp only [List.mem_map, mem_ready, hkeys, hsuccs]
    simp only [nextReady, min?_congr hitems]
  have hfrom : ∀ n emitted, lexOrderFrom graph κ n emitted = lexOrderFrom graph' κ n emitted := by
    intro n
    induction n with
    | zero => intro _; rfl
    | succ n ih =>
      intro emitted
      simp only [lexOrderFrom, hnext]
      cases nextReady graph' κ emitted with
      | none => rfl
      | some x => exact ih _
  have hlen : graph.entries.length = graph'.entries.length := by
    rw [← length_keys, ← length_keys]
    exact ((List.perm_ext_iff_of_nodup graph.keys_nodup graph'.keys_nodup).mpr fun x =>
      AList.mem_keys.trans ((hkeys x).trans AList.mem_keys.symm)).length_eq
  rw [lexOrder, lexOrder, hlen, hfrom]

/-! ### Every key that is ever ready is emitted -/

theorem subset_lexOrderFrom : ∀ (n : Nat) {emitted : List EventId} {x : EventId}, x ∈ emitted →
    x ∈ lexOrderFrom graph κ n emitted
  | 0, _, _, h => h
  | n + 1, emitted, _, h => by
    unfold lexOrderFrom
    cases nextReady graph κ emitted with
    | none => exact h
    | some _ => exact subset_lexOrderFrom n (List.mem_append_left _ h)

/-- A key ready after a greedy list stays ready until it is emitted, so the reference order
continued from the list, with a round for every key, emits it. -/
theorem mem_lexOrderFrom_of_ready {n : Nat} {emitted : List EventId} (h : Greedy graph κ emitted)
    (hlen : graph.entries.length ≤ n + emitted.length) {x : EventId} (hx : x ∈ ready graph emitted) :
    x ∈ lexOrderFrom graph κ n emitted := by
  obtain ⟨hxg, -, hxs⟩ := (mem_ready graph).mp hx
  by_contra hxl
  have hr : x ∈ ready graph (lexOrderFrom graph κ n emitted) :=
    (mem_ready graph).mpr ⟨hxg, hxl, fun y hy => subset_lexOrderFrom n (hxs y hy)⟩
  rw [(lexOrderFrom_greedy n h).2 hlen] at hr
  exact List.not_mem_nil x hr

end RumaStateRes.TopoSort.Reference
