import RumaStateRes.PowerSort

/-! # The graph loop ends

`add_event_and_auth_chain_to_graph` pops an id, makes it a node, and pushes each of its auth events
in the diff that is not a node yet. It looks at the graph, not at the stack, before it pushes, so an
id can be stacked twice (listed twice, or cited by two events before it is popped), and a node
popped again walks its auth events again. The loop ends all the same, on every auth graph, cyclic
ones included: the stack is a depth-first frontier (`StackInv`: a stacked id that is already a
node has each of its in-diff auth events as a node or stacked above it), so a node popped again
pushes nothing, and each other pop adds a node. The stack length plus `M + 1` for each id not yet a
node therefore falls at every round, `M` bounding the auth lists (`graphLoop_terminates`).

* `foldlM_addAuthEdge_stack`: one round pushes the in-diff auth events that are not nodes, in order;
* `graphLoop_terminates`: with fuel for that measure the stack loop returns a graph;
* `buildGraph_spec`: for every fetch function, diff and list of seeds, the graph loop of the power
  sort ends, with one graph for all enough fuel; its keys are the in-diff auth closure of the seeds,
  the edges of a key are its in-diff auth events, every edge ends at a key, and every order of the
  seeds gives the same graph (`SameGraph`);
* `reverseTopologicalPowerSort_stabilizes`: the whole power sort ends from `graphFuel` on, and
  with any fuel it never panics (`reverseTopologicalPowerSort_ne_panic`); its graph loop never
  ends with an `Error` (`buildGraph_ne_err`). -/

namespace RumaStateRes.GraphTermination

open RumaStateRes.Core.Result RumaStateRes.Core.Collections RumaStateRes.Core.Event
open RumaStateRes.PowerSort RumaStateRes.TopoSort.Model RumaStateRes.TopoSort.Correct
open Outcome Relation

variable {fetch : EventId → Option Pdu} {authDiff : HSet EventId}

/-! ### One round -/

/-- The loop over the auth events of a node `eid` keeps the nodes, and pushes the auth events in
the diff that are not nodes, in order. -/
theorem foldlM_addAuthEdge_stack {eid : EventId} :
    ∀ {auths : List EventId} {g g' : HMap EventId (HSet EventId)} {st st' : List EventId}, eid ∈ g →
      auths.foldlM (addAuthEdge authDiff eid) (g, st) = ok (g', st') →
      (∀ x, x ∈ g' ↔ x ∈ g) ∧ st' = (auths.filter fun a => a ∈ authDiff ∧ a ∉ g).reverse ++ st
  | [], _, _, _, _, _, h => by cases h; exact ⟨fun _ => Iff.rfl, rfl⟩
  | aid :: rest, g, g', st, st', heid, h => by
    rw [List.foldlM_cons] at h
    obtain ⟨⟨g₁, st₁⟩, h₁, h⟩ := bind_eq_ok.mp h
    by_cases hd : aid ∈ authDiff
    · obtain ⟨es, hes⟩ := Option.isSome_iff_exists.mp (AList.lookup_isSome.mpr heid)
      simp only [addAuthEdge, hd, if_true, hes, expect, ok_bind, pure_eq, ok.injEq, Prod.mk.injEq] at h₁
      obtain ⟨rfl, rfl⟩ := h₁
      have hmem : ∀ x, x ∈ g.insert eid (es.insert aid) ↔ x ∈ g := fun x =>
        (AList.mem_insert _).trans (or_iff_right_of_imp (· ▸ heid))
      obtain ⟨hg', rfl⟩ := foldlM_addAuthEdge_stack ((hmem eid).mpr heid) h
      have hfilter : (rest.filter fun a => a ∈ authDiff ∧ a ∉ g.insert eid (es.insert aid)) =
          rest.filter fun a => a ∈ authDiff ∧ a ∉ g :=
        List.filter_congr fun x _ => by simp only [hmem x]
      refine ⟨fun x => (hg' x).trans (hmem x), ?_⟩
      rw [hfilter, List.filter_cons]
      by_cases hg : aid ∈ g <;> simp [hg, hd]
    · simp only [addAuthEdge, hd, if_false, pure_eq, ok.injEq, Prod.mk.injEq] at h₁
      obtain ⟨rfl, rfl⟩ := h₁
      obtain ⟨hg', rfl⟩ := foldlM_addAuthEdge_stack heid h
      exact ⟨hg', by rw [List.filter_cons]; simp [hd]⟩

variable (fetch authDiff) in
/-- **The stack is a depth-first frontier**: a stacked id that is already a node has each of its
in-diff auth events as a node, or stacked above it. -/
def StackInv (graph : HMap EventId (HSet EventId)) (stack : List EventId) : Prop :=
  ∀ pre y suf, stack = pre ++ y :: suf → y ∈ graph →
    ∀ a, DiffEdge fetch authDiff y a → a ∈ graph ∨ a ∈ pre

/-- **One round of the stack loop**: it returns, keeps the frontier, and adds the popped id as a
node; a node popped again pushes nothing, and a new one pushes at most its auth events, all in the
diff. -/
theorem round_ok {graph : HMap EventId (HSet EventId)} {eid : EventId} {st : List EventId}
    (hinv : StackInv fetch authDiff graph (eid :: st)) :
    ∃ g' st', (authEventsOf fetch eid).foldlM (addAuthEdge authDiff eid) (graph.modify eid ∅ id, st) =
        ok (g', st') ∧ StackInv fetch authDiff g' st' ∧ (∀ x, x ∈ g' ↔ x = eid ∨ x ∈ graph) ∧
      (eid ∈ graph → st' = st) ∧
      ∃ P, st' = P ++ st ∧ P.length ≤ (authEventsOf fetch eid).length ∧ ∀ y ∈ P, y ∈ authDiff := by
  set g₀ := graph.modify eid ∅ id
  have heid : eid ∈ g₀ := HMap.mem_modify.mpr (Or.inl rfl)
  obtain ⟨g', st', es', h, -⟩ := @foldlM_addAuthEdge authDiff eid (authEventsOf fetch eid) g₀ st ((graph.lookup eid).getD ∅)
    (by simp [g₀, HMap.lookup_modify])
  obtain ⟨hg', rfl⟩ := foldlM_addAuthEdge_stack heid h
  set P := ((authEventsOf fetch eid).filter fun a => a ∈ authDiff ∧ a ∉ g₀).reverse
  have hmem : ∀ x, x ∈ g' ↔ x = eid ∨ x ∈ graph := fun x => (hg' x).trans HMap.mem_modify
  have hP : ∀ a, a ∈ P ↔ DiffEdge fetch authDiff eid a ∧ a ∉ g₀ := fun a => by
    simp [P, diffEdge_iff, and_assoc]
  have hinv' : ∀ pre a', pre = P ++ a' → ∀ y suf, st = a' ++ y :: suf → y ∈ g' →
      ∀ a, DiffEdge fetch authDiff y a → a ∈ g' ∨ a ∈ pre := by
    rintro pre a' rfl y suf rfl hy a ha
    by_cases hyg : y ∈ graph
    · rcases hinv (eid :: a') y suf rfl hyg a ha with ha | ha
      · exact Or.inl ((hmem a).mpr (Or.inr ha))
      · rcases List.mem_cons.mp ha with rfl | ha
        · exact Or.inl ((hmem _).mpr (Or.inl rfl))
        · exact Or.inr (List.mem_append_right _ ha)
    · obtain rfl := ((hmem y).mp hy).resolve_right hyg
      by_cases ha₀ : a ∈ g₀
      · exact Or.inl ((hg' a).mpr ha₀)
      · exact Or.inr (List.mem_append_left _ ((hP a).mpr ⟨ha, ha₀⟩))
  refine ⟨g', _, h, fun pre y suf hs hy a ha => ?_, hmem, fun he => ?_,
    P, rfl, (List.length_reverse _).trans_le (List.length_filter_le _ _), fun y hy => ((hP y).mp hy).1.1⟩
  · rcases List.append_eq_append_iff.mp hs with ⟨a', rfl, hst⟩ | ⟨c', hc, hst⟩
    · exact hinv' _ a' rfl y suf hst hy a ha
    · cases c' with
      | nil => exact hinv' pre [] (by simpa using hc.symm) y suf hst.symm hy a ha
      | cons c c' =>
        obtain ⟨rfl, -⟩ := List.cons_eq_cons.mp hst
        have hyP : y ∈ P := hc ▸ List.mem_append_right _ (List.mem_cons_self _ _)
        exact absurd ((hg' y).mp hy) ((hP y).mp hyP).2
  · suffices hnil : P = [] by rw [hnil, List.nil_append]
    refine List.eq_nil_iff_forall_not_mem.mpr fun a ha => ((hP a).mp ha).2 ?_
    rcases hinv [] eid st rfl he a ((hP a).mp ha).1 with ha | ha
    exacts [HMap.mem_modify.mpr (Or.inr ha), absurd ha (List.not_mem_nil a)]

/-! ### The whole loop -/

/-- Making `eid` a node adds one key, unless it is a node already. -/
theorem length_keys_of_iff {g g' : HMap EventId (HSet EventId)} {eid : EventId}
    (h : ∀ x, x ∈ g' ↔ x = eid ∨ x ∈ g) : g'.keys.length = g.keys.length + if eid ∈ g then 0 else 1 := by
  have hperm : ∀ l : List EventId, l.Nodup → (∀ x, x ∈ g' ↔ x ∈ l) → g'.keys.length = l.length :=
    fun l hl hl' => ((List.perm_ext_iff_of_nodup g'.keys_nodup hl).mpr fun x =>
      AList.mem_keys.trans (hl' x)).length_eq
  split_ifs with he
  · exact hperm _ g.keys_nodup fun x => (h x).trans (by rw [AList.mem_keys]; exact ⟨fun h => h.elim (· ▸ he) id, Or.inr⟩)
  · exact hperm (eid :: g.keys) (List.nodup_cons.mpr ⟨mt AList.mem_keys.mp he, g.keys_nodup⟩)
      fun x => (h x).trans (by simp [AList.mem_keys])

section Measure

variable {U : List EventId} (hD : ∀ a ∈ authDiff, a ∈ U) {M : Nat}
  (hM : ∀ u ∈ U, (authEventsOf fetch u).length ≤ M)
include hD hM

/-- **The stack loop ends**: from a frontier whose nodes and stacked ids lie in `U`, with fuel for
the stack plus `M + 1` for each id of `U` not yet a node. -/
theorem graphLoop_terminates :
    ∀ (fuel : Nat) (graph : HMap EventId (HSet EventId)) (stack : List EventId),
      StackInv fetch authDiff graph stack → (∀ x ∈ graph, x ∈ U) → (∀ x ∈ stack, x ∈ U) →
      stack.length + (U.length - graph.keys.length) * (M + 1) ≤ fuel →
      ∃ g', graphLoop fetch authDiff graph stack fuel = ok g'
  | fuel, graph, [], _, _, _, _ => ⟨graph, by cases fuel <;> rfl⟩
  | 0, _, _ :: _, _, _, _, hfuel => absurd hfuel (by simp)
  | fuel + 1, graph, eid :: st, hinv, hg, hst, hfuel => by
    obtain ⟨g', st', h, hinv', hmem, hsame, P, rfl, hP, hPD⟩ := round_ok hinv
    have hU' : eid ∈ U := hst eid (List.mem_cons_self _ _)
    have hg' : ∀ x ∈ g', x ∈ U := fun x hx => ((hmem x).mp hx).elim (· ▸ hU') (hg x)
    have hk' : g'.keys.length ≤ U.length :=
      (List.subperm_of_subset g'.keys_nodup fun x hx => hg' x (AList.mem_keys.mp hx)).length_le
    have hbound : (P ++ st).length + (U.length - g'.keys.length) * (M + 1) ≤ fuel := by
      rw [length_keys_of_iff hmem] at hk' ⊢
      simp only [List.length_cons, List.length_append] at hfuel ⊢
      by_cases he : eid ∈ graph
      · rw [List.append_left_eq_self.mp (hsame he), if_pos he, Nat.add_zero]
        simp only [List.length_nil]
        omega
      · rw [if_neg he] at hk' ⊢
        have hsplit : U.length - graph.keys.length = U.length - (graph.keys.length + 1) + 1 := by omega
        rw [hsplit, Nat.succ_mul] at hfuel
        have := hP.trans (hM eid hU')
        omega
    obtain ⟨g'', hrun⟩ := graphLoop_terminates fuel g' (P ++ st) hinv' hg'
      (fun x hx => (List.mem_append.mp hx).elim (fun hx => hD x (hPD x hx))
        fun hx => hst x (List.mem_cons_of_mem _ hx)) hbound
    exact ⟨g'', by simp only [graphLoop, h, ok_bind, hrun]⟩

end Measure

/-- More fuel does not change a stack loop that returns. -/
theorem graphLoop_mono : ∀ (fuel : Nat) {fuel' : Nat} {graph r : HMap EventId (HSet EventId)}
    {stack : List EventId}, graphLoop fetch authDiff graph stack fuel = ok r → fuel ≤ fuel' →
      graphLoop fetch authDiff graph stack fuel' = ok r
  | fuel, fuel', graph, r, [], h, _ => by cases fuel <;> cases fuel' <;> exact h
  | 0, _, _, _, _ :: _, h, _ => nomatch h
  | _ + 1, 0, _, _, _ :: _, _, hle => absurd hle (by omega)
  | fuel + 1, fuel' + 1, _, _, _ :: _, h, hle => by
    obtain ⟨_, h₁, h⟩ := bind_eq_ok.mp h
    exact bind_eq_ok.mpr ⟨_, h₁, graphLoop_mono fuel h (by omega)⟩

/-! ### The graph loop of the power sort -/

variable (fetch authDiff) in
/-- Fuel for every walk of the graph loop over `seeds`: a walk meets only seeds and ids of the
diff, and each of them pushes at most its auth events. -/
def graphFuel (seeds : List EventId) : Nat :=
  let ids := seeds ++ authDiff.elems
  1 + ids.length * ((ids.flatMap (authEventsOf fetch)).length + 1)

/-- **The graph loop of the power sort ends** with `graphFuel` fuel: each walk starts from a graph
closed under in-diff auth edges, so its one-entry stack is a frontier. -/
theorem buildGraph_terminates (seeds : List EventId) {fuel : Nat}
    (hfuel : graphFuel fetch authDiff seeds ≤ fuel) : ∃ graph, buildGraph fetch fuel seeds authDiff = ok graph := by
  set U := seeds ++ authDiff.elems
  set M := (U.flatMap (authEventsOf fetch)).length
  have hU : ∀ x, x ∈ U ↔ x ∈ seeds ∨ x ∈ authDiff := fun x => by simp [U, HSet.mem_def]
  have hM : ∀ u ∈ U, (authEventsOf fetch u).length ≤ M := fun u hu =>
    (List.sublist_flatten_of_mem (List.mem_map_of_mem _ hu)).length_le
  have hbound : 1 + U.length * (M + 1) ≤ fuel := hfuel
  obtain ⟨graph, h, -⟩ := foldlM_ok_of_prefix
    (fun graph eventId => addEventAndAuthChainToGraph fetch fuel graph eventId authDiff) seeds
    (fun _ g => GraphInv fetch authDiff U g [])
    (fun pre c suf g hl hi => by
      have hc : c ∈ U := (hU c).mpr (Or.inl (by simp [hl]))
      have hi₀ : GraphInv fetch authDiff U g [c] :=
        ⟨hi.sound, fun x hx => ⟨x, List.mem_singleton.mp hx ▸ hc, ReflTransGen.refl⟩, hi.edges,
          fun x hx y hxy => (hi.closed x hx y hxy).imp_right nofun⟩
      have hkeys : ∀ x ∈ g, x ∈ U := fun x hx =>
        ((hi.sound x hx).mem_or).elim id fun h => (hU x).mpr (Or.inr h)
      obtain ⟨g', h'⟩ := graphLoop_terminates (fun a ha => (hU a).mpr (Or.inr ha))
        hM fuel g [c] (fun _ y _ _ hy a ha => Or.inl ((hi.closed y hy a ha).resolve_right nofun)) hkeys
        (fun x hx => List.mem_singleton.mp hx ▸ hc)
        ((Nat.add_le_add_left (Nat.mul_le_mul_right (M + 1) (Nat.sub_le _ _)) 1).trans hbound)
      exact ⟨g', h', (graphLoop_ok fuel hi₀ h').1⟩)
    ∅ ⟨by simp, by simp, by simp, by simp⟩
  exact ⟨graph, h⟩

/-- More fuel does not change a graph loop that returns. -/
theorem buildGraph_mono {fuel fuel' : Nat} (hle : fuel ≤ fuel') :
    ∀ {seeds : List EventId} {g r : HMap EventId (HSet EventId)},
      seeds.foldlM (fun graph eventId => addEventAndAuthChainToGraph fetch fuel graph eventId authDiff) g = ok r →
      seeds.foldlM (fun graph eventId => addEventAndAuthChainToGraph fetch fuel' graph eventId authDiff) g = ok r
  | [], _, _, h => h
  | _ :: _, _, _, h => by
    obtain ⟨_, h₁, h⟩ := bind_eq_ok.mp h
    exact bind_eq_ok.mpr ⟨_, graphLoop_mono fuel h₁ hle, buildGraph_mono hle h⟩

/-- Two graphs are the same `HashMap<Id, HashSet<Id>>`: the same keys, and at each key the same set
of edges. -/
def SameGraph (g g' : HMap EventId (HSet EventId)) : Prop :=
  ∀ x, (x ∈ g ↔ x ∈ g') ∧ ∀ es es', g.lookup x = some es → g'.lookup x = some es' → ∀ y, y ∈ es ↔ y ∈ es'

theorem buildGraph_spec (fetch : EventId → Option Pdu) (authDiff : HSet EventId) (seeds : List EventId) :
    ∃ N graph, (∀ fuel, N ≤ fuel → buildGraph fetch fuel seeds authDiff = ok graph) ∧
      (∀ x, x ∈ graph ↔ InClosure fetch authDiff seeds x) ∧
      (∀ x es, graph.lookup x = some es → ∀ y, y ∈ es ↔ y ∈ authEventsOf fetch x ∧ y ∈ authDiff) ∧
      (∀ x es y, graph.lookup x = some es → y ∈ es → y ∈ graph) ∧
      ∀ seeds' fuel graph', seeds'.Perm seeds → buildGraph fetch fuel seeds' authDiff = ok graph' →
        SameGraph graph graph' := by
  obtain ⟨graph, h⟩ := buildGraph_terminates seeds (le_refl (graphFuel fetch authDiff seeds))
  obtain ⟨hkeys, hedges⟩ := buildGraph_ok h
  refine ⟨_, graph, fun fuel hfuel => buildGraph_mono hfuel h, hkeys,
    fun x es hx y => (hedges x es hx y).trans diffEdge_iff, fun x es y hx hy => ?_,
    fun seeds' fuel graph' hp h' => fun x => ?_⟩
  · have hxg : x ∈ graph := AList.lookup_isSome.mp (by simp [hx])
    exact (hkeys y).mpr (((hkeys x).mp hxg).tail ((hedges x es hx y).mp hy))
  · obtain ⟨hkeys', hedges'⟩ := buildGraph_ok h'
    refine ⟨(hkeys x).trans (Iff.trans ?_ (hkeys' x).symm), fun es es' hx hx' y =>
      (hedges x es hx y).trans (hedges' x es' hx' y).symm⟩
    exact exists_congr fun s => and_congr_left fun _ => hp.mem_iff.symm

/-! ### The whole power sort -/

/-- The stack loop never panics: the id it pops is a node of the graph when its edges are
updated. -/
theorem graphLoop_ne_panic : ∀ (fuel : Nat) (graph : HMap EventId (HSet EventId)) (stack : List EventId),
    graphLoop fetch authDiff graph stack fuel ≠ panic
  | fuel, _, [] => by cases fuel <;> nofun
  | 0, _, _ :: _ => nofun
  | fuel + 1, graph, eid :: st => by
    obtain ⟨g', st', -, h, -⟩ := @foldlM_addAuthEdge authDiff eid (authEventsOf fetch eid)
      (graph.modify eid ∅ id) st ((graph.lookup eid).getD ∅) (by simp [HMap.lookup_modify])
    simp only [graphLoop, h, ok_bind]
    exact graphLoop_ne_panic fuel g' st'

theorem buildGraph_ne_panic (fuel : Nat) (seeds : List EventId) : buildGraph fetch fuel seeds authDiff ≠ panic :=
  foldlM_ne_panic (fun g _ _ => graphLoop_ne_panic fuel g _) ∅

theorem addAuthEdge_ne_err {eid aid : EventId} {acc : HMap EventId (HSet EventId) × List EventId} {e : Error}
    (h : addAuthEdge authDiff eid acc aid = err e) : False := by
  unfold addAuthEdge at h
  split_ifs at h <;>
    exact bind_err (E := fun _ => False) (fun e h => expect_ne_err _ e h) (fun _ _ _ h => by cases h) e h

/-- The stack loop never ends with an `Error`: it has no `?`. -/
theorem graphLoop_ne_err (fuel : Nat) : ∀ (graph : HMap EventId (HSet EventId)) (stack : List EventId) (e : Error),
    graphLoop fetch authDiff graph stack fuel = err e → False := by
  induction fuel with
  | zero => intro _ stack; cases stack <;> nofun
  | succ fuel ih =>
    rintro graph (_ | ⟨eid, st⟩)
    · nofun
    · exact bind_err (foldlM_err (fun _ _ _ _ h => addAuthEdge_ne_err h) _) fun ⟨g, s⟩ _ => ih g s

theorem buildGraph_ne_err (fuel : Nat) (seeds : List EventId) (e : Error) :
    buildGraph fetch fuel seeds authDiff = err e → False :=
  foldlM_err (fun g _ _ e h => graphLoop_ne_err fuel g _ e h) ∅ e

variable (co : Collaborators) (H : HashOrder)

variable (fetch) in
/-- What the power sort does once it has its graph: it never panics and never runs forever. -/
theorem sortGraph_settles (graph : HMap EventId (HSet EventId)) :
    Settles ((H.arrange graph.keys).foldlM (recordPowerLevel co fetch) ∅ >>= fun eventToPl =>
      lexicographicalTopologicalSort H (powerSortKey fetch eventToPl) graph) fun _ => True :=
  (foldlM_recordPowerLevel_settles co fetch _ ∅).bind fun _ _ =>
    (lexicographicalTopologicalSort_settles H keyOf_agrees).mono fun _ _ => trivial

/-- The power sort never panics, with any fuel. -/
theorem reverseTopologicalPowerSort_ne_panic (fuel : Nat) (controls : List EventId) :
    reverseTopologicalPowerSort co H fetch fuel controls authDiff ≠ panic :=
  bind_ne_panic (buildGraph_ne_panic fuel controls) fun graph _ => (sortGraph_settles fetch co H graph).ne_panic

/-- **The power sort ends** from `graphFuel` on, on every auth graph: with one sorted list or
`Error` for all more fuel. -/
theorem reverseTopologicalPowerSort_stabilizes (controls : List EventId) :
    Stabilizes fun fuel => reverseTopologicalPowerSort co H fetch fuel controls authDiff := by
  obtain ⟨graph, hg⟩ : ∃ graph, buildGraph fetch (graphFuel fetch authDiff controls) controls authDiff = ok graph :=
    buildGraph_terminates controls le_rfl
  refine ⟨graphFuel fetch authDiff controls, _, sortGraph_settles fetch co H graph, fun fuel => ?_⟩
  have hg' : buildGraph fetch (fuel + graphFuel fetch authDiff controls) controls authDiff = ok graph :=
    buildGraph_mono (Nat.le_add_left _ _) hg
  simp only [reverseTopologicalPowerSort, hg', ok_bind]

end RumaStateRes.GraphTermination
