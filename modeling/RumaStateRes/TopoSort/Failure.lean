import RumaStateRes.TopoSort.Correct

/-! # Where the sort fails

`lexicographical_topological_sort` calls the key function on a node when it pushes the node on the
heap: in the first loop for every key without edges, in the heap loop for a parent whose last edge
has just been released. Either way the node is ready then, and a node that is ever ready is emitted
by the reference order (`mem_lexOrderFrom_of_ready`). So the sort fails only at a node of the
reference order, with the `Error` the key function returns there.

* `lexicographicalTopologicalSort_err`: an `Error` of the sort is the `Error` the key function
  returns at a node of the reference order;
* `lexicographicalTopologicalSort_eq_ok`: when the key function succeeds at every node of the
  reference order, the sort returns that order;
* `lexicographicalTopologicalSort_outcome`: the sort returns the reference order when the key
  function succeeds at every node of it, and otherwise the `Error` of the key function at one;
* `lexicographicalTopologicalSort_agree`: two sorts of graphs with the same keys and edges, by a
  key function with one `Error`, agree under any two hash orders. -/

namespace RumaStateRes.TopoSort.Failure

open RumaStateRes.Core.Result RumaStateRes.Core.Collections RumaStateRes.Core.Event
open RumaStateRes.TopoSort.Model RumaStateRes.TopoSort.Reference RumaStateRes.TopoSort.Correct
open Outcome

variable {graph : HMap EventId (HSet EventId)} {κ : EventId → Int × Nat}
  {keyFn : EventId → Except Error (Int × Nat)}

/-! ### The calls of the key function -/

theorem tieBreakerOf_err {x : EventId} {e : Error} (h : tieBreakerOf keyFn x = err e) :
    keyFn x = .error e := by
  unfold tieBreakerOf at h
  cases hk : keyFn x with
  | error e' => rw [hk] at h; cases h; rfl
  | ok p => obtain ⟨a, b⟩ := p; rw [hk] at h; cases h

theorem addNode_err (H : HashOrder) {acc : List TieBreaker × HMap EventId (HSet EventId)}
    {entry : Σ _ : EventId, HSet EventId} {e : Error} (h : addNode H keyFn acc entry = err e) :
    entry.2.elems = [] ∧ keyFn entry.1 = .error e := by
  refine bind_err (E := fun e => entry.2.elems = [] ∧ keyFn entry.1 = .error e) (fun e h => ?_)
    (fun _ _ _ h => by cases h) e h
  unfold pushIfLeaf at h
  split_ifs at h with hl
  exact ⟨List.isEmpty_iff.mp hl, bind_err (fun _ => tieBreakerOf_err) (fun _ _ _ h => by cases h) e h⟩

/-- A parent is pushed, and its key taken, only when its outdegree set loses its last edge. -/
theorem releaseParent_err {x p : EventId} {acc : HMap EventId (HSet EventId) × List TieBreaker}
    {e : Error} (h : releaseParent keyFn x acc p = err e) :
    ∃ out, acc.1.lookup p = some out ∧ (out.erase x).elems = [] ∧ keyFn p = .error e := by
  unfold releaseParent at h
  cases hp : acc.1.lookup p with
  | none => rw [hp] at h; cases h
  | some out =>
    simp only [hp, expect, ok_bind] at h
    split_ifs at h with hl
    exact ⟨out, rfl, List.isEmpty_iff.mp hl, bind_err (fun _ => tieBreakerOf_err) (fun _ _ _ h => by cases h) e h⟩

/-- A round over a parent changes the outdegree set of that parent only. -/
theorem lookup_releaseParent {x p : EventId} {acc acc' : HMap EventId (HSet EventId) × List TieBreaker}
    (h : releaseParent keyFn x acc p = ok acc') {q : EventId} (hq : q ≠ p) : acc'.1.lookup q = acc.1.lookup q := by
  obtain ⟨out, -, h⟩ := bind_eq_ok.mp h
  dsimp only at h
  split_ifs at h
  · obtain ⟨_, -, h⟩ := bind_eq_ok.mp h
    cases h
    exact AList.lookup_insert_ne hq
  · cases h
    exact AList.lookup_insert_ne hq

/-! ### The sort fails only at a node of the reference order -/

/-- The loop over the parents of the popped key `x` fails only at a key that is ready once `x` is
emitted: a parent is pushed only when its last edge, to `x`, is released, and the parents before
it left its outdegree set as the loop found it. -/
theorem releaseParents_err {outdegree : HMap EventId (HSet EventId)} {heap : List TieBreaker}
    {sorted : List EventId} (hi : LoopInv graph κ keyFn outdegree heap sorted) {x : EventId}
    (hx : x ∈ ready graph sorted) :
    ∀ (ps : List EventId), ps.Nodup → (∀ p ∈ ps, p ∈ graph ∧ x ∈ succs graph p) →
      ∀ (od : HMap EventId (HSet EventId)) (h : List TieBreaker), (∀ p ∈ ps, od.lookup p = outdegree.lookup p) →
        ∀ e, ps.foldlM (releaseParent keyFn x) (od, h) = err e →
          ∃ p ∈ ready graph (sorted ++ [x]), keyFn p = .error e
  | [], _, _, _, _, _ => nofun
  | p :: ps, hnd, hps, od, h, hod => by
    obtain ⟨hxg, hxs, hxsucc⟩ := (mem_ready graph).mp hx
    obtain ⟨hpg, hpx⟩ := hps p (List.mem_cons_self p ps)
    rw [List.foldlM_cons]
    refine bind_err (fun e he => ?_) fun ⟨od', h'⟩ hstep => releaseParents_err hi hx ps
      (List.nodup_cons.mp hnd).2 (fun q hq => hps q (List.mem_cons_of_mem p hq)) od' h' fun q hq => ?_
    · obtain ⟨out, hout, hempty, hkey⟩ := releaseParent_err he
      rw [hod p (List.mem_cons_self p ps)] at hout
      refine ⟨p, (mem_ready graph).mpr ⟨hpg, fun hp => ?_, fun y hy => ?_⟩, hkey⟩
      · rcases List.mem_append.mp hp with hp | hp
        · exact hxs (hi.greedy.closed hp x hpx)
        · rw [List.mem_singleton.mp hp] at hpx
          exact hxs (hxsucc x hpx)
      · by_contra hyn
        rw [List.mem_append, List.mem_singleton, not_or] at hyn
        have hye : y ∈ out.erase x := HSet.mem_erase.mpr ⟨hyn.2, (hi.out p out hout y).mpr ⟨hy, hyn.1⟩⟩
        rw [HSet.mem_def, hempty] at hye
        exact List.not_mem_nil y hye
    · have hqp : q ≠ p := fun e => (List.nodup_cons.mp hnd).1 (e ▸ hq)
      rw [lookup_releaseParent hstep hqp, hod q (List.mem_cons_of_mem p hq)]

/-- The heap loop fails only at a key the reference order emits from here on, with the `Error`
the key function returns there. -/
theorem sortLoop_err (H : HashOrder) (hκ : ∀ x p, keyFn x = .ok p → κ x = p)
    {rg : HMap EventId (HSet EventId)} (hrg : ReverseOf graph rg) :
    ∀ (k : Nat) {outdegree : HMap EventId (HSet EventId)} {heap : List TieBreaker} {sorted : List EventId},
      LoopInv graph κ keyFn outdegree heap sorted → graph.entries.length ≤ k + sorted.length →
      ∀ e, sortLoop H keyFn rg (k + 1) outdegree heap sorted = err e →
        ∃ x ∈ lexOrderFrom graph κ k sorted, keyFn x = .error e
  | k, outdegree, heap, sorted, hi, hlen => by
    unfold sortLoop
    cases hpop : heapPop heap with
    | none => nofun
    | some p =>
      obtain ⟨item, heap'⟩ := p
      obtain ⟨x, rfl, rfl, hx, hxmin, hnext⟩ := heapPop_eq_some hi hpop
      obtain ⟨k', rfl, hlen'⟩ := rounds_left hi.greedy hlen hx
      have hround : lexOrderFrom graph κ (k' + 1) sorted = lexOrderFrom graph κ k' (sorted ++ [x]) := by
        rw [lexOrderFrom, hnext]
      obtain ⟨rs, hrs⟩ := exists_lookup_of_mem (hrg.keys x ((mem_ready graph).mp hx).1)
      dsimp only
      rw [show (tieBreaker κ x).eventId = x from rfl, hrs, hround]
      simp only [expect, ok_bind]
      refine bind_err (fun e he => ?_) fun ⟨od, h⟩ hacc => sortLoop_err H hκ hrg k'
        ((releaseParents_settles H hκ hrg hi hx (hi.heap_ok _ ((hi.heap_mem _).mpr ⟨x, hx, rfl⟩)) hxmin
          hrs).of_ok hacc) hlen'
      obtain ⟨p, hp, hkey⟩ := releaseParents_err hi hx _ (H.nodup_arrange rs.nodup)
        (fun p => (hrg.mem_arrange hrs H p).mp) _ _ (fun _ _ => rfl) e he
      exact ⟨p, mem_lexOrderFrom_of_ready (hi.greedy.snoc hx hxmin) hlen' hp, hkey⟩

/-- **An `Error` of the sort is the `Error` of the key function at a node of the reference
order**: its `expect`s never fail, and it takes a key only from a node that is ready. -/
theorem lexicographicalTopologicalSort_err (H : HashOrder) (hκ : ∀ x p, keyFn x = .ok p → κ x = p)
    {e : Error} (h : lexicographicalTopologicalSort H keyFn graph = err e) :
    ∃ x ∈ lexOrder graph κ, keyFn x = .error e := by
  unfold lexicographicalTopologicalSort at h
  refine bind_err (E := fun e => ∃ x ∈ lexOrder graph κ, keyFn x = .error e)
    (foldlM_err (fun _ entry hentry e h => ?nodes) _) (fun acc h => ?loop) e h
  case nodes =>
    obtain ⟨x, es⟩ := entry
    obtain ⟨hempty, hkey⟩ : es.elems = [] ∧ keyFn x = .error e := addNode_err H h
    have hl : graph.lookup x = some es := AList.mem_lookup_iff.mpr ((HashOrder.mem_arrange H).mp hentry)
    exact ⟨x, mem_lexOrderFrom_of_ready Greedy.nil (by simp) ((mem_ready graph).mpr
      ⟨mem_of_lookup hl, List.not_mem_nil x, by simp [succs_of_lookup hl, hempty]⟩), hkey⟩
  case loop =>
    obtain ⟨zero, rg⟩ := acc
    obtain ⟨hz, hzn, hzok, hrg⟩ := (addNodes_settles H hκ).of_ok h
    refine sortLoop_err H hκ hrg _ ⟨Greedy.nil, by simp, hzok, fun z => Iff.rfl,
      fun z os hz y => ?_, hz, hzn⟩ (by simp)
    rw [succs_of_lookup hz, HSet.mem_def]
    simp

/-- When the key function succeeds at every node of the reference order, the sort returns that
order. -/
theorem lexicographicalTopologicalSort_eq_ok (H : HashOrder) (hκ : ∀ x p, keyFn x = .ok p → κ x = p)
    (hok : ∀ x ∈ lexOrder graph κ, KeyOk keyFn x) :
    lexicographicalTopologicalSort H keyFn graph = ok (lexOrder graph κ) := by
  obtain ⟨l, hl, rfl, -⟩ := (lexicographicalTopologicalSort_settles H hκ).exists_ok fun e he => by
    obtain ⟨x, hx, hkey⟩ := lexicographicalTopologicalSort_err H hκ he
    obtain ⟨v, hv⟩ := hok x hx
    rw [hv] at hkey
    cases hkey
  exact hl

/-- The sort settles with the reference order for the keys the key function gives. -/
theorem lexicographicalTopologicalSort_settles_keyOf (H : HashOrder) (graph : HMap EventId (HSet EventId))
    (keyFn : EventId → Except Error (Int × Nat)) :
    Settles (lexicographicalTopologicalSort H keyFn graph)
      fun l => l = lexOrder graph (keyOf keyFn) ∧ ∀ x ∈ l, KeyOk keyFn x :=
  lexicographicalTopologicalSort_settles H keyOf_agrees

/-- **Where the sort fails**: it returns the reference order when the key function succeeds at
every node of it, and an `Error` when it fails at one, whatever the iteration order of the graph;
that `Error` is the one the key function returns at a node of the reference order. -/
theorem lexicographicalTopologicalSort_outcome (H : HashOrder) (graph : HMap EventId (HSet EventId))
    (keyFn : EventId → Except Error (Int × Nat)) :
    ((∀ x ∈ lexOrder graph (keyOf keyFn), KeyOk keyFn x) →
        lexicographicalTopologicalSort H keyFn graph = ok (lexOrder graph (keyOf keyFn))) ∧
      ((∃ x ∈ lexOrder graph (keyOf keyFn), ¬ KeyOk keyFn x) →
        ∃ e, lexicographicalTopologicalSort H keyFn graph = err e) ∧
      ∀ e, lexicographicalTopologicalSort H keyFn graph = err e →
        ∃ x ∈ lexOrder graph (keyOf keyFn), keyFn x = .error e := by
  refine ⟨lexicographicalTopologicalSort_eq_ok H keyOf_agrees, fun ⟨x, hx, hnot⟩ => ?_,
    fun e he => lexicographicalTopologicalSort_err H keyOf_agrees he⟩
  rcases lexicographicalTopologicalSort_settles_keyOf H graph keyFn with ⟨_, -, rfl, hok⟩ | he
  · exact absurd (hok x hx) hnot
  · exact he

/-! ### Two runs -/

/-- An `Error` of one sort is that of every sort, by the same key function, of a graph with the
same reference order, when the key function has one `Error`. -/
theorem lexicographicalTopologicalSort_err_of_err {H H' : HashOrder} {graph graph' : HMap EventId (HSet EventId)}
    (horder : lexOrder graph (keyOf keyFn) = lexOrder graph' (keyOf keyFn))
    (hone : ∀ x x' e e', keyFn x = .error e → keyFn x' = .error e' → e = e') {e : Error}
    (he : lexicographicalTopologicalSort H keyFn graph = err e) :
    lexicographicalTopologicalSort H' keyFn graph' = err e := by
  rcases lexicographicalTopologicalSort_settles_keyOf H' graph' keyFn with
    ⟨_, -, rfl, hok⟩ | ⟨e', he'⟩
  · rw [lexicographicalTopologicalSort_eq_ok H keyOf_agrees (horder ▸ hok)] at he
    cases he
  · obtain ⟨x, -, hx⟩ := lexicographicalTopologicalSort_err H keyOf_agrees he
    obtain ⟨x', -, hx'⟩ := lexicographicalTopologicalSort_err H' keyOf_agrees he'
    rw [he', hone x' x e' e hx' hx]

/-- **Two sorts agree** on graphs with the same keys and edges, under any two hash orders, when
the key function has one `Error`. -/
theorem lexicographicalTopologicalSort_agree (H H' : HashOrder) {graph graph' : HMap EventId (HSet EventId)}
    (hkeys : ∀ x, x ∈ graph ↔ x ∈ graph') (hsuccs : ∀ x y, y ∈ succs graph x ↔ y ∈ succs graph' x)
    (hone : ∀ x x' e e', keyFn x = .error e → keyFn x' = .error e' → e = e') :
    Agree (fun l l' => l = l') (lexicographicalTopologicalSort H keyFn graph)
      (lexicographicalTopologicalSort H' keyFn graph') := by
  have horder : lexOrder graph (keyOf keyFn) = lexOrder graph' (keyOf keyFn) := lexOrder_congr hkeys hsuccs
  have hs := lexicographicalTopologicalSort_settles_keyOf H graph keyFn
  have hs' := lexicographicalTopologicalSort_settles_keyOf H' graph' keyFn
  refine Agree.intro hs.ne_panic hs'.ne_panic
    (fun _ he => .inl (lexicographicalTopologicalSort_err_of_err horder hone he))
    (fun _ he => .inl (lexicographicalTopologicalSort_err_of_err horder.symm hone he)) fun l l' hl hl' => ?_
  rw [(hs.of_ok hl).1, (hs'.of_ok hl').1, horder]

end RumaStateRes.TopoSort.Failure
