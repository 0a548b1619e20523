import RumaStateRes.TopoSort.Reference

/-! # The sort computes the reference order

The loop of `lexicographical_topological_sort` keeps `LoopInv`: the emitted list is greedy, the
outdegree set of each key holds its successors not yet emitted, and the heap holds the items of
exactly the ready keys, each once. The first loop sets it up (`addNodes_settles`, with
`reverse_graph` recording every edge backwards: `ReverseOf`), and one round of the second keeps it
(`releaseParents_settles`). So each round pops the key the reference order emits next
(`heapPop_eq_some`), and the loop ends, after at most one round per key, with the reference order
(`sortLoop_settles`).

`lexicographicalTopologicalSort_spec`: the sort never panics and always ends; when it ends with a
list, the list is the reference order for the keys the key function gave (so it does not depend
on the iteration order of the graph); on an acyclic graph whose edges end at keys it is a
permutation of the keys with every node after its successors. -/

namespace RumaStateRes.TopoSort.Correct

open RumaStateRes.Core.Result RumaStateRes.Core.Collections RumaStateRes.Core.Event
open RumaStateRes.TopoSort.Model RumaStateRes.TopoSort.Reference
open Outcome

variable {graph : HMap EventId (HSet EventId)} {κ : EventId → Int × Nat}
  {keyFn : EventId → Except Error (Int × Nat)}

/-- The key function succeeds at `x`. -/
def KeyOk (keyFn : EventId → Except Error (Int × Nat)) (x : EventId) : Prop := ∃ p, keyFn x = .ok p

theorem tieBreakerOf_settles (hκ : ∀ x p, keyFn x = .ok p → κ x = p) (x : EventId) :
    Settles (tieBreakerOf keyFn x) fun t => t = tieBreaker κ x ∧ KeyOk keyFn x :=
  (settles_ofExcept (keyFn x)).bind fun p hp => settles_ok ⟨by simp [tieBreaker, hκ x p hp], p, hp⟩

/-! ### The reverse graph -/

/-- The parents recorded for `n` (`reverse_graph[n]`, or none). -/
def parentsOf (rg : HMap EventId (HSet EventId)) (n : EventId) : HSet EventId := (rg.lookup n).getD ∅

theorem insert_insert (s : HSet EventId) (p : EventId) : (s.insert p).insert p = s.insert p :=
  dif_pos (HSet.mem_insert.mpr (Or.inl rfl))

theorem lookup_foldl_addEdge (p : EventId) : ∀ (edges : List EventId) (rg : HMap EventId (HSet EventId))
    (n : EventId), (edges.foldl (fun rg edge => rg.modify edge ∅ (·.insert p)) rg).lookup n =
      if n ∈ edges then some ((parentsOf rg n).insert p) else rg.lookup n
  | [], _, _ => rfl
  | edge :: edges, rg, n => by
    rw [List.foldl_cons, lookup_foldl_addEdge p edges, parentsOf, HMap.lookup_modify]
    by_cases h : n = edge
    · subst h; simp [parentsOf, insert_insert]
    · simp [h, parentsOf, HMap.lookup_modify]

theorem parentsOf_modify_id (rg : HMap EventId (HSet EventId)) (x n : EventId) :
    parentsOf (rg.modify x ∅ id) n = parentsOf rg n := by
  simp only [parentsOf, HMap.lookup_modify]
  split_ifs with h
  · subst h; simp
  · rfl

theorem parentsOf_foldl_addEdge (p : EventId) (edges : List EventId) (rg : HMap EventId (HSet EventId))
    (n : EventId) : parentsOf (edges.foldl (fun rg edge => rg.modify edge ∅ (·.insert p)) rg) n =
      if n ∈ edges then (parentsOf rg n).insert p else parentsOf rg n := by
  simp only [parentsOf, lookup_foldl_addEdge]
  split_ifs <;> rfl

theorem mem_foldl_addEdge (p : EventId) (edges : List EventId) {rg : HMap EventId (HSet EventId)}
    {x : EventId} (hx : x ∈ rg) : x ∈ edges.foldl (fun rg edge => rg.modify edge ∅ (·.insert p)) rg := by
  rw [← AList.lookup_isSome, lookup_foldl_addEdge]
  split_ifs
  · rfl
  · exact AList.lookup_isSome.mpr hx

/-- `reverse_graph` records every edge of `graph` backwards and has an entry for every key. -/
structure ReverseOf (graph rg : HMap EventId (HSet EventId)) : Prop where
  keys : ∀ x ∈ graph, x ∈ rg
  parents : ∀ n p, p ∈ parentsOf rg n ↔ p ∈ graph ∧ n ∈ succs graph p

/-- The parents the reverse graph yields for `x`, in any order, are the keys with an edge to `x`. -/
theorem ReverseOf.mem_arrange {rg : HMap EventId (HSet EventId)} (hrg : ReverseOf graph rg) {x : EventId}
    {rs : HSet EventId} (hrs : rg.lookup x = some rs) (H : HashOrder) (p : EventId) :
    p ∈ H.arrange rs.elems ↔ p ∈ graph ∧ x ∈ succs graph p := by
  rw [HashOrder.mem_arrange, ← hrg.parents x p, parentsOf, hrs]
  rfl

/-- What the first loop has built after the entries `pre`. -/
structure InitInv (κ : EventId → Int × Nat) (keyFn : EventId → Except Error (Int × Nat))
    (pre : List (Σ _ : EventId, HSet EventId)) (zero : List TieBreaker) (rg : HMap EventId (HSet EventId)) :
    Prop where
  zero_mem : ∀ t, t ∈ zero ↔ ∃ e ∈ pre, e.2.elems = [] ∧ t = tieBreaker κ e.1
  zero_nodup : zero.Nodup
  zero_ok : ∀ t ∈ zero, KeyOk keyFn t.eventId
  keys : ∀ e ∈ pre, e.1 ∈ rg
  parents : ∀ n p, p ∈ parentsOf rg n ↔ ∃ e ∈ pre, e.1 = p ∧ n ∈ e.2

theorem addNode_settles (H : HashOrder) (hκ : ∀ x p, keyFn x = .ok p → κ x = p)
    {pre : List (Σ _ : EventId, HSet EventId)} {e : Σ _ : EventId, HSet EventId}
    (hfresh : e.1 ∉ pre.map Sigma.fst) {zero : List TieBreaker} {rg : HMap EventId (HSet EventId)}
    (hi : InitInv κ keyFn pre zero rg) :
    Settles (addNode H keyFn (zero, rg) e) fun acc => InitInv κ keyFn (pre ++ [e]) acc.1 acc.2 := by
  have hnew : tieBreaker κ e.1 ∉ zero := fun h => by
    obtain ⟨e', he', -, h'⟩ := (hi.zero_mem _).mp h
    exact hfresh (List.mem_map.mpr ⟨e', he', (tieBreaker_injective κ h').symm⟩)
  have hzero : Settles (pushIfLeaf keyFn zero e) fun z => (∀ t, t ∈ z ↔ ∃ e' ∈ pre ++ [e], e'.2.elems = [] ∧
        t = tieBreaker κ e'.1) ∧ z.Nodup ∧ ∀ t ∈ z, KeyOk keyFn t.eventId := by
    unfold pushIfLeaf
    split_ifs with h
    · refine (tieBreakerOf_settles hκ e.1).bind fun t ⟨ht, hok⟩ => settles_ok ⟨fun t' => ?_,
        hi.zero_nodup.append (List.nodup_singleton _) (List.disjoint_singleton.mpr (ht ▸ hnew)),
        List.forall_mem_append.mpr ⟨hi.zero_ok, List.forall_mem_singleton.mpr (ht ▸ hok)⟩⟩
      simp only [ht, List.mem_append, hi.zero_mem, Sigma.exists, List.mem_singleton, or_and_right, exists_or,
        exists_eq_left, List.isEmpty_iff.mp h, true_and]
    · have hne : e.2.elems ≠ [] := fun h' => h (List.isEmpty_iff.mpr h')
      exact settles_ok ⟨fun t => by simp only [hi.zero_mem, Sigma.exists, List.mem_append, List.mem_singleton,
        or_and_right, exists_or, exists_eq_left, hne, false_and, or_false], hi.zero_nodup, hi.zero_ok⟩
  unfold addNode
  refine hzero.bind fun z ⟨hz, hzn, hzok⟩ => settles_ok ⟨hz, hzn, hzok, fun e' he' => mem_foldl_addEdge _ _ ?_,
    fun n p => ?_⟩
  · rcases List.mem_append.mp he' with he' | he'
    · exact HMap.mem_modify.mpr (Or.inr (hi.keys e' he'))
    · exact HMap.mem_modify.mpr (Or.inl (by rw [List.mem_singleton.mp he']))
  · simp only [parentsOf_foldl_addEdge, HashOrder.mem_arrange, ← HSet.mem_def]
    by_cases hn : n ∈ e.2
    · rw [if_pos hn]
      simp only [parentsOf_modify_id, HSet.mem_insert, hi.parents, eq_comm, Sigma.exists, List.mem_append,
        List.mem_singleton, or_comm, or_and_right, exists_or, exists_eq_left', hn, and_true]
    · rw [if_neg hn]
      simp only [parentsOf_modify_id, hi.parents, eq_comm, Sigma.exists, List.mem_append, List.mem_singleton,
        or_comm, or_and_right, exists_or, exists_eq_left', hn, and_false, false_or]

theorem exists_entry_iff (H : HashOrder) (graph : HMap EventId (HSet EventId))
    (P : EventId → HSet EventId → Prop) :
    (∃ e ∈ H.arrange graph.entries, P e.1 e.2) ↔ ∃ x es, graph.lookup x = some es ∧ P x es := by
  simp only [HashOrder.mem_arrange]
  constructor
  · rintro ⟨⟨x, es⟩, he, hp⟩; exact ⟨x, es, AList.mem_lookup_iff.mpr he, hp⟩
  · rintro ⟨x, es, he, hp⟩; exact ⟨⟨x, es⟩, AList.mem_lookup_iff.mp he, hp⟩

theorem succs_of_lookup {x : EventId} {es : HSet EventId} (h : graph.lookup x = some es) :
    succs graph x = es.elems := by
  simp [succs, h]

theorem mem_of_lookup {x : EventId} {es : HSet EventId} (h : graph.lookup x = some es) : x ∈ graph :=
  AList.lookup_isSome.mp (by simp [h])

theorem exists_lookup_of_mem {x : EventId} (h : x ∈ graph) : ∃ es, graph.lookup x = some es :=
  Option.isSome_iff_exists.mp (AList.lookup_isSome.mpr h)

/-- The first loop leaves the items of the keys without edges on the heap, each once, and the
reverse graph. -/
theorem addNodes_settles (H : HashOrder) (hκ : ∀ x p, keyFn x = .ok p → κ x = p) :
    Settles ((H.arrange graph.entries).foldlM (addNode H keyFn) ([], ∅)) fun acc =>
      (∀ t, t ∈ acc.1 ↔ ∃ x ∈ ready graph [], t = tieBreaker κ x) ∧ acc.1.Nodup ∧
        (∀ t ∈ acc.1, KeyOk keyFn t.eventId) ∧ ReverseOf graph acc.2 := by
  have hnd : (H.arrange graph.entries).NodupKeys :=
    (List.perm_nodupKeys (H.perm _)).mpr graph.nodupKeys
  refine (foldlM_settles (addNode H keyFn) _ (fun pre acc => InitInv κ keyFn pre acc.1 acc.2)
    (fun pre c suf acc hl hi => addNode_settles H hκ ?_ hi) ([], ∅)
    ⟨by simp, List.nodup_nil, by simp, by simp, by simp [parentsOf]⟩).mono ?_
  · have := hl ▸ hnd
    rw [List.NodupKeys, List.keys, List.map_append, List.map_cons] at this
    exact fun h => (List.nodup_cons.mp (List.nodup_middle.mp this)).1 (List.mem_append_left _ h)
  · rintro ⟨zero, rg⟩ hi
    refine ⟨fun t => ?_, hi.zero_nodup, hi.zero_ok, ⟨fun x hx => ?_, fun n p => ?_⟩⟩
    · rw [hi.zero_mem, exists_entry_iff H graph fun x es => es.elems = [] ∧ t = tieBreaker κ x]
      constructor
      · rintro ⟨x, es, he, hes, rfl⟩
        exact ⟨x, (mem_ready graph).mpr ⟨mem_of_lookup he, List.not_mem_nil x, by
          simp [succs_of_lookup he, hes]⟩, rfl⟩
      · rintro ⟨x, hx, rfl⟩
        obtain ⟨hxg, -, hs⟩ := (mem_ready graph).mp hx
        obtain ⟨es, he⟩ := exists_lookup_of_mem hxg
        refine ⟨x, es, he, List.eq_nil_iff_forall_not_mem.mpr fun y hy => ?_, rfl⟩
        exact List.not_mem_nil y (hs y (by rw [succs_of_lookup he]; exact hy))
    · obtain ⟨es, he⟩ := exists_lookup_of_mem hx
      exact hi.keys ⟨x, es⟩ ((HashOrder.mem_arrange H).mpr (AList.mem_lookup_iff.mp he))
    · rw [hi.parents, exists_entry_iff H graph fun x es => x = p ∧ n ∈ es]
      constructor
      · rintro ⟨x, es, he, rfl, hn⟩
        exact ⟨mem_of_lookup he, by rw [succs_of_lookup he]; exact hn⟩
      · rintro ⟨hp, hn⟩
        obtain ⟨es, he⟩ := exists_lookup_of_mem hp
        exact ⟨p, es, he, rfl, by rw [succs_of_lookup he] at hn; exact hn⟩

/-! ### The heap loop -/

variable (graph κ keyFn) in
/-- The state of the heap loop after emitting `sorted`. -/
structure LoopInv (outdegree : HMap EventId (HSet EventId)) (heap : List TieBreaker)
    (sorted : List EventId) : Prop where
  greedy : Greedy graph κ sorted
  sorted_ok : ∀ x ∈ sorted, KeyOk keyFn x
  heap_ok : ∀ t ∈ heap, KeyOk keyFn t.eventId
  keys : ∀ z, z ∈ outdegree ↔ z ∈ graph
  out : ∀ z os, outdegree.lookup z = some os → ∀ y, y ∈ os ↔ y ∈ succs graph z ∧ y ∉ sorted
  heap_mem : ∀ t, t ∈ heap ↔ ∃ z ∈ ready graph sorted, t = tieBreaker κ z
  heap_nodup : heap.Nodup

variable (graph κ keyFn) in
/-- The state of the loop over the parents of the popped node `x`, after the parents `pre`. -/
structure ReleaseInv (x : EventId) (sorted pre : List EventId) (outdegree : HMap EventId (HSet EventId))
    (heap : List TieBreaker) : Prop where
  heap_ok : ∀ t ∈ heap, KeyOk keyFn t.eventId
  keys : ∀ z, z ∈ outdegree ↔ z ∈ graph
  out : ∀ z os, outdegree.lookup z = some os →
    ∀ y, y ∈ os ↔ y ∈ succs graph z ∧ y ∉ sorted ∧ (z ∈ pre → y ≠ x)
  heap_mem : ∀ t, t ∈ heap ↔ ∃ z, (z ∈ ready graph sorted ∧ z ≠ x ∨
    z ∈ pre ∧ ∀ y ∈ succs graph z, y ∈ sorted ∨ y = x) ∧ t = tieBreaker κ z
  heap_nodup : heap.Nodup

theorem releaseParent_settles (hκ : ∀ x p, keyFn x = .ok p → κ x = p) {x : EventId}
    {sorted pre : List EventId} (hx : x ∈ ready graph sorted) {p : EventId} (hp : p ∈ graph)
    (hpx : x ∈ succs graph p) (hfresh : p ∉ pre) {outdegree : HMap EventId (HSet EventId)}
    {heap : List TieBreaker} (hi : ReleaseInv graph κ keyFn x sorted pre outdegree heap) :
    Settles (releaseParent keyFn x (outdegree, heap) p)
      fun acc => ReleaseInv graph κ keyFn x sorted (pre ++ [p]) acc.1 acc.2 := by
  obtain ⟨os, hos⟩ := exists_lookup_of_mem ((hi.keys p).mpr hp)
  have hxs : x ∉ sorted := ((mem_ready graph).mp hx).2.1
  have hpr : p ∉ ready graph sorted := fun h => hxs (((mem_ready graph).mp h).2.2 x hpx)
  have hmem' : ∀ y, y ∈ os.erase x ↔ y ∈ succs graph p ∧ y ∉ sorted ∧ y ≠ x := fun y => by
    rw [HSet.mem_erase, hi.out p os hos y]
    simp only [hfresh, false_implies, and_true]
    exact and_comm.trans and_assoc
  have hall : (os.erase x).elems.isEmpty ↔ ∀ y ∈ succs graph p, y ∈ sorted ∨ y = x := by
    simp only [List.isEmpty_iff, HSet.elems_eq_nil_iff, hmem', ne_eq, not_and, Decidable.not_not,
      or_iff_not_imp_left]
  have hkeys : ∀ z, z ∈ outdegree.insert p (os.erase x) ↔ z ∈ graph := fun z => by
    rw [AList.mem_insert, hi.keys]
    exact ⟨fun h => h.elim (· ▸ hp) id, Or.inr⟩
  have hout : ∀ z os', (outdegree.insert p (os.erase x)).lookup z = some os' →
      ∀ y, y ∈ os' ↔ y ∈ succs graph z ∧ y ∉ sorted ∧ (z ∈ pre ++ [p] → y ≠ x) := by
    intro z os' hz y
    by_cases hzp : z = p
    · subst hzp
      rw [AList.lookup_insert] at hz
      cases hz
      simp [hmem']
    · rw [AList.lookup_insert_ne hzp] at hz
      simp [hi.out z os' hz, hzp]
  unfold releaseParent
  rw [hos]
  simp only [expect, ok_bind]
  split_ifs with hempty
  · refine (tieBreakerOf_settles hκ p).bind fun t ⟨ht, hok⟩ => settles_ok
      ⟨List.forall_mem_append.mpr ⟨hi.heap_ok, List.forall_mem_singleton.mpr (ht ▸ hok)⟩, hkeys, hout,
        fun t' => ?_, hi.heap_nodup.append (List.nodup_singleton _) (List.disjoint_singleton.mpr ?_)⟩
    · simp only [ht, List.mem_append, hi.heap_mem, ne_eq, or_and_right, and_assoc, exists_or, List.mem_singleton,
        or_assoc, exists_eq_left, and_iff_right (hall.mp hempty)]
    · rw [ht, hi.heap_mem]
      rintro ⟨z, hz, hzt⟩
      obtain rfl := tieBreaker_injective κ hzt
      rcases hz with hz | hz
      exacts [hpr hz.1, hfresh hz.1]
  · exact settles_ok ⟨hi.heap_ok, hkeys, hout,
      fun t => by simp only [hi.heap_mem, ne_eq, or_and_right, and_assoc, exists_or, List.mem_append,
        List.mem_singleton, exists_eq_left, ← hall, hempty, Bool.false_eq_true, false_and, or_false], hi.heap_nodup⟩

/-- One round of the heap loop: after the least ready key `x` is popped, the loop over its parents
restores the invariant with `x` emitted. -/
theorem releaseParents_settles (H : HashOrder) (hκ : ∀ x p, keyFn x = .ok p → κ x = p)
    {rg : HMap EventId (HSet EventId)} (hrg : ReverseOf graph rg) {outdegree : HMap EventId (HSet EventId)}
    {heap : List TieBreaker} {sorted : List EventId} (hi : LoopInv graph κ keyFn outdegree heap sorted)
    {x : EventId} (hx : x ∈ ready graph sorted) (hxok : KeyOk keyFn x)
    (hmin : ∀ y ∈ ready graph sorted, tieBreaker κ x ≤ tieBreaker κ y) {rs : HSet EventId}
    (hrs : rg.lookup x = some rs) :
    Settles ((H.arrange rs.elems).foldlM (releaseParent keyFn x) (outdegree, heap.erase (tieBreaker κ x)))
      fun acc => LoopInv graph κ keyFn acc.1 acc.2 (sorted ++ [x]) := by
  have hpar := hrg.mem_arrange hrs H
  obtain ⟨hxg, hxs, hxsucc⟩ := (mem_ready graph).mp hx
  have hinit : ReleaseInv graph κ keyFn x sorted [] outdegree (heap.erase (tieBreaker κ x)) :=
    ⟨fun t ht => hi.heap_ok t (List.mem_of_mem_erase ht), hi.keys, fun z os hz y => by simp [hi.out z os hz y], fun t => by
      rw [hi.heap_nodup.mem_erase_iff, hi.heap_mem]
      constructor
      · rintro ⟨hne, z, hz, rfl⟩
        exact ⟨z, Or.inl ⟨hz, fun e => hne (e ▸ rfl)⟩, rfl⟩
      · rintro ⟨z, hz | ⟨hz, -⟩, rfl⟩
        · exact ⟨fun e => hz.2 (tieBreaker_injective κ e), z, hz.1, rfl⟩
        · exact absurd hz (List.not_mem_nil z), hi.heap_nodup.erase _⟩
  refine (foldlM_settles (releaseParent keyFn x) _
    (fun pre acc => ReleaseInv graph κ keyFn x sorted pre acc.1 acc.2)
    (fun pre c suf acc hl hri => ?_) _ hinit).mono ?_
  · have hc := (hpar c).mp (by simp [hl])
    have hnd : (pre ++ c :: suf).Nodup := hl ▸ H.nodup_arrange rs.nodup
    exact releaseParent_settles hκ hx hc.1 hc.2
      (fun h => (List.nodup_cons.mp (List.nodup_middle.mp hnd)).1 (List.mem_append_left _ h)) hri
  · rintro ⟨outdegree', heap'⟩ hri
    have hsorted : ∀ z ∈ sorted, ∀ y ∈ succs graph z, y ∈ sorted := fun z hz y hy => by
      obtain ⟨pre, suf, h⟩ := List.append_of_mem hz
      exact h ▸ List.mem_append_left _ (hi.greedy.after h y hy)
    refine ⟨hi.greedy.snoc hx hmin, List.forall_mem_append.mpr ⟨hi.sorted_ok, List.forall_mem_singleton.mpr hxok⟩,
      hri.heap_ok, hri.keys, fun z os hz y => ?_, fun t => ?_, hri.heap_nodup⟩
    · rw [hri.out z os hz y, hpar, List.mem_append, List.mem_singleton]
      have hzg := (hri.keys z).mp (AList.lookup_isSome.mp (by simp [hz]))
      constructor
      · rintro ⟨hy, hys, hyx⟩
        refine ⟨hy, not_or.mpr ⟨hys, fun e => ?_⟩⟩
        subst e
        exact hyx ⟨hzg, hy⟩ rfl
      · rintro ⟨hy, hys⟩
        exact ⟨hy, fun h => hys (Or.inl h), fun _ e => hys (Or.inr e)⟩
    · rw [hri.heap_mem]
      refine exists_congr fun z => and_congr_left fun _ => ?_
      rw [mem_ready, mem_ready, hpar]
      simp only [List.mem_append, List.mem_singleton]
      constructor
      · rintro (⟨⟨hzg, hzs, hzsucc⟩, hzx⟩ | ⟨⟨hzg, hxz⟩, hzsucc⟩)
        · exact ⟨hzg, not_or.mpr ⟨hzs, hzx⟩, fun y hy => Or.inl (hzsucc y hy)⟩
        · refine ⟨hzg, not_or.mpr ⟨fun hzs => hxs (hsorted z hzs x hxz), fun e => ?_⟩, hzsucc⟩
          subst e
          exact hxs (hxsucc z hxz)
      · rintro ⟨hzg, hzn, hzsucc⟩
        obtain ⟨hzs, hzx⟩ := not_or.mp hzn
        by_cases hxz : x ∈ succs graph z
        · exact Or.inr ⟨⟨hzg, hxz⟩, hzsucc⟩
        · exact Or.inl ⟨⟨hzg, hzs, fun y hy => (hzsucc y hy).resolve_right fun e => hxz (e ▸ hy)⟩, hzx⟩

theorem lexOrderFrom_of_ready_eq_nil {emitted : List EventId} (h : ready graph emitted = []) (k : Nat) :
    lexOrderFrom graph κ k emitted = emitted := by
  cases k <;> simp [lexOrderFrom, nextReady, h]

/-- A pop of the heap of the loop takes the item of the key the reference order emits next. -/
theorem heapPop_eq_some {outdegree : HMap EventId (HSet EventId)} {heap : List TieBreaker}
    {sorted : List EventId} (hi : LoopInv graph κ keyFn outdegree heap sorted) {item : TieBreaker}
    {heap' : List TieBreaker} (h : heapPop heap = some (item, heap')) :
    ∃ x, item = tieBreaker κ x ∧ heap' = heap.erase item ∧ x ∈ ready graph sorted ∧
      (∀ y ∈ ready graph sorted, tieBreaker κ x ≤ tieBreaker κ y) ∧ nextReady graph κ sorted = some x := by
  obtain ⟨t, ht, he⟩ := Option.map_eq_some'.mp h
  cases he
  obtain ⟨hitem, hleast⟩ := min?_eq_some_iff.mp ht
  obtain ⟨x, hx, rfl⟩ := (hi.heap_mem _).mp hitem
  have hcongr : ((ready graph sorted).map (tieBreaker κ)).min? = heap.min? :=
    min?_congr fun t => by
      rw [hi.heap_mem, List.mem_map]
      exact exists_congr fun z => and_congr_right fun _ => eq_comm
  exact ⟨x, rfl, rfl, hx, fun y hy => hleast _ ((hi.heap_mem _).mpr ⟨y, hy, rfl⟩),
    by simp [nextReady, hcongr, ht, tieBreaker]⟩

/-- A key is ready only while the fuel has a round left for it, and one for each key after it. -/
theorem rounds_left {k : Nat} {sorted : List EventId} (hg : Greedy graph κ sorted)
    (hlen : graph.entries.length ≤ k + sorted.length) {x : EventId} (hx : x ∈ ready graph sorted) :
    ∃ k', k = k' + 1 ∧ graph.entries.length ≤ k' + (sorted ++ [x]).length := by
  cases k with
  | zero => exact absurd (ready_eq_nil_of_length hg (by simpa using hlen)) (List.ne_nil_of_mem hx)
  | succ k' => exact ⟨k', rfl, by rw [List.length_append, List.length_singleton]; omega⟩

/-- **The heap loop emits the reference order**, or stops at an `Error` of the key function; with
at least one round per key not yet emitted it never runs out of fuel. -/
theorem sortLoop_settles (H : HashOrder) (hκ : ∀ x p, keyFn x = .ok p → κ x = p)
    {rg : HMap EventId (HSet EventId)} (hrg : ReverseOf graph rg) :
    ∀ (k : Nat) {outdegree : HMap EventId (HSet EventId)} {heap : List TieBreaker}
      {sorted : List EventId}, LoopInv graph κ keyFn outdegree heap sorted →
      graph.entries.length ≤ k + sorted.length →
      Settles (sortLoop H keyFn rg (k + 1) outdegree heap sorted)
        fun l => l = lexOrderFrom graph κ k sorted ∧ ∀ x ∈ l, KeyOk keyFn x
  | k, outdegree, heap, sorted, hi, hlen => by
    unfold sortLoop
    cases hpop : heapPop heap with
    | none =>
      have hr : ready graph sorted = [] := List.eq_nil_iff_forall_not_mem.mpr fun z hz => by
        have hh : heap = [] := by simpa [heapPop] using hpop
        simpa [hh] using (hi.heap_mem (tieBreaker κ z)).mpr ⟨z, hz, rfl⟩
      exact settles_ok ⟨(lexOrderFrom_of_ready_eq_nil hr k).symm, hi.sorted_ok⟩
    | some p =>
      obtain ⟨item, heap'⟩ := p
      obtain ⟨x, rfl, rfl, hx, hxmin, hnext⟩ := heapPop_eq_some hi hpop
      obtain ⟨k', rfl, hlen'⟩ := rounds_left hi.greedy hlen hx
      obtain ⟨rs, hrs⟩ := exists_lookup_of_mem (hrg.keys x ((mem_ready graph).mp hx).1)
      dsimp only
      rw [show (tieBreaker κ x).eventId = x from rfl, hrs]
      simp only [expect, ok_bind]
      refine (releaseParents_settles H hκ hrg hi hx (hi.heap_ok _ ((hi.heap_mem _).mpr ⟨x, hx, rfl⟩)) hxmin
        hrs).bind fun acc hacc => ?_
      rw [lexOrderFrom, hnext]
      exact sortLoop_settles H hκ hrg k' hacc hlen'

/-! ### The whole sort -/

theorem lexicographicalTopologicalSort_settles (H : HashOrder) (hκ : ∀ x p, keyFn x = .ok p → κ x = p) :
    Settles (lexicographicalTopologicalSort H keyFn graph)
      fun l => l = lexOrder graph κ ∧ ∀ x ∈ l, KeyOk keyFn x := by
  unfold lexicographicalTopologicalSort
  refine (addNodes_settles H hκ).bind ?_
  rintro ⟨zero, rg⟩ ⟨hz, hzn, hzok, hrg⟩
  refine sortLoop_settles H hκ hrg _ ⟨Greedy.nil, by simp, hzok, fun z => Iff.rfl,
    fun z os hz y => ?_, hz, hzn⟩ (by simp)
  rw [succs_of_lookup hz, HSet.mem_def]
  simp

/-- A key function that agrees with `keyFn` wherever `keyFn` succeeds. -/
def keyOf (keyFn : EventId → Except Error (Int × Nat)) (x : EventId) : Int × Nat :=
  match keyFn x with
  | .ok p => p
  | .error _ => (0, 0)

theorem keyOf_agrees (x : EventId) (p : Int × Nat) (h : keyFn x = .ok p) : keyOf keyFn x = p := by
  simp [keyOf, h]

theorem lexicographicalTopologicalSort_spec (H : HashOrder) (graph : HMap EventId (HSet EventId))
    (keyFn : EventId → Except Error (Int × Nat)) :
    lexicographicalTopologicalSort H keyFn graph ≠ panic ∧
      lexicographicalTopologicalSort H keyFn graph ≠ diverge ∧
      ∀ l, lexicographicalTopologicalSort H keyFn graph = ok l →
        (∀ κ : EventId → Int × Nat, (∀ x p, keyFn x = .ok p → κ x = p) → l = lexOrder graph κ) ∧
        (∀ (H' : HashOrder) l', lexicographicalTopologicalSort H' keyFn graph = ok l' → l' = l) ∧
        (∀ x ∈ l, KeyOk keyFn x) ∧
        (Acyclic graph → Closed graph →
          l.Perm graph.keys ∧ ∀ pre x suf, l = pre ++ x :: suf → ∀ y ∈ succs graph x, y ∈ pre) := by
  have hs : Settles (lexicographicalTopologicalSort H keyFn graph)
      fun l => l = lexOrder graph (keyOf keyFn) ∧ ∀ x ∈ l, KeyOk keyFn x :=
    lexicographicalTopologicalSort_settles H keyOf_agrees
  refine ⟨hs.ne_panic, hs.ne_diverge, fun l hl => ⟨fun κ hκ =>
    ((lexicographicalTopologicalSort_settles H hκ).of_ok hl).1, fun H' l' hl' => ?_, (hs.of_ok hl).2,
    fun hacyc hclosed => ?_⟩⟩
  · rw [(hs.of_ok hl).1]
    exact ((lexicographicalTopologicalSort_settles H' keyOf_agrees).of_ok hl').1
  · obtain ⟨hgreedy, hready⟩ : Greedy graph (keyOf keyFn) (lexOrder graph (keyOf keyFn)) ∧ _ :=
      lexOrder_greedy
    rw [(hs.of_ok hl).1]
    refine ⟨(List.perm_ext_iff_of_nodup hgreedy.nodup graph.keys_nodup).mpr fun x => ?_,
      fun pre x suf h => hgreedy.after h⟩
    rw [← AList.mem_keys]
    exact ⟨hgreedy.keys, mem_of_ready_eq_nil hacyc hclosed hready⟩

/-- The chain `a → b`, sorted with a constant key: `b` first. -/
example : lexicographicalTopologicalSort .stored (fun _ => .ok (0, 0))
    ⟨[⟨"a", ⟨["b"], by decide⟩⟩, ⟨"b", ∅⟩], by unfold List.NodupKeys; decide⟩ = ok ["b", "a"] :=
  rfl

end RumaStateRes.TopoSort.Correct
