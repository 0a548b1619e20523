import RumaStateRes.TopoSort.Correct

/-! # The reverse topological power sort

`reverse_topological_power_sort` builds the auth graph of the control events inside the full
conflicted set (`auth_diff`): `add_event_and_auth_chain_to_graph` walks the auth events of each
control event with a stack, following only those in the diff. It then looks up the power level of
the sender of every node (`get_power_level_for_sender`) and hands the graph to
`lexicographical_topological_sort`, keyed by that power level and the timestamp of the event.

The stack loop runs on fuel (`graphLoop`). `GraphInv` is its invariant: every node and every
stacked id lies in the in-diff auth closure of the seeds (`InClosure`), the edges of a node are
exactly its auth events in the diff (`DiffEdge`), and an edge target is a node or on the stack.

* `buildGraph_ok`: the graph built from the seeds has the in-diff auth closure as its keys and the
  in-diff auth events as its edges;
* `getPowerLevelForSender_ok_iff`: `get_power_level_for_sender` returns the level the contract
  names (`PowerLevelIs`): `users[sender]` of the first power-levels auth event that can be
  fetched, else its `users_default`, else `0`;
* `reverseTopologicalPowerSort_spec`: when the in-diff auth relation is acyclic, a sorted list
  holds each event of the closure once, after its in-diff auth events, and each entry has the
  least `powerOrderKey` among the events ready at its turn, read with the sender's level
  `PowerLevelIs` names;
* `buildGraph_congr`: control lists with the same ids give graphs with the same keys and edges;
* `foldlM_recordPowerLevel_ok`, `foldlM_recordPowerLevel_err`: the `event_to_pl` loop gives every
  key its power level, or fails with `SerdeError` at a key that has none. -/

namespace RumaStateRes.PowerSort

open RumaStateRes.Core.Result RumaStateRes.Core.Collections RumaStateRes.Core.Event
open RumaStateRes.TopoSort.Model RumaStateRes.TopoSort.Reference RumaStateRes.TopoSort.Correct
open Outcome Relation

variable (co : Collaborators) (H : HashOrder) (fetch : EventId → Option Pdu)

/-! ### The model -/

/-- One auth event `aid` of `eid`: in the diff, it becomes an edge of `eid`, and goes on the stack
when the graph does not have it yet. -/
def addAuthEdge (authDiff : HSet EventId) (eid : EventId)
    (acc : HMap EventId (HSet EventId) × List EventId) (aid : EventId) :
    Outcome (HMap EventId (HSet EventId) × List EventId) :=
  if aid ∈ authDiff then do
    let state := if aid ∈ acc.1 then acc.2 else aid :: acc.2
    let edges ← expect (acc.1.lookup eid)
    pure (acc.1.insert eid (edges.insert aid), state)
  else pure acc

/-- The auth events of `eid`, none when it cannot be fetched. -/
def authEventsOf (eid : EventId) : List EventId := ((fetch eid).map Pdu.authEvents).getD []

/-- The `while let Some(eid) = state.pop()` loop, on fuel; the top of the stack is the head of the
list. -/
def graphLoop (authDiff : HSet EventId) :
    HMap EventId (HSet EventId) → List EventId → Nat → Outcome (HMap EventId (HSet EventId))
  | graph, [], _ => ok graph
  | _, _ :: _, 0 => diverge
  | graph, eid :: state, fuel + 1 => do
    let (graph, state) ←
      (authEventsOf fetch eid).foldlM (addAuthEdge authDiff eid) (graph.modify eid ∅ id, state)
    graphLoop authDiff graph state fuel

/-- **`add_event_and_auth_chain_to_graph`**. -/
def addEventAndAuthChainToGraph (fuel : Nat) (graph : HMap EventId (HSet EventId)) (eventId : EventId)
    (authDiff : HSet EventId) : Outcome (HMap EventId (HSet EventId)) :=
  graphLoop fetch authDiff graph [eventId] fuel

/-- **`get_power_level_for_sender`**: the level of the sender in the first power-levels event
among the auth events that can be fetched; its `users_default` when the sender has no entry, and
`0` when there is no such event. -/
def getPowerLevelForSender (eventId : EventId) : Except Error Int :=
  let event := fetch eventId
  let pl := ((event.map Pdu.authEvents).getD []).findSome? fun aid =>
    (fetch aid).filter fun aev => isTypeAndKey aev .roomPowerLevels ""
  match pl with
  | none => .ok 0
  | some ev =>
    match co.powerLevelsContent ev.content with
    | none => .error .serdeError
    | some content =>
      match event.bind fun ev => content.users.lookup ev.sender with
      | some userLevel => .ok userLevel
      | none => .ok content.usersDefault

/-- The key function handed to the sort: the power level `event_to_pl` holds, and the timestamp. -/
def powerSortKey (eventToPl : HMap EventId Int) (eventId : EventId) : Except Error (Int × Nat) := do
  let pl ← match eventToPl.lookup eventId with
    | some pl => pure pl
    | none => throw (.notFound "")
  let ev ← match fetch eventId with
    | some ev => pure ev
    | none => throw (.notFound "")
  pure (pl, ev.originServerTs)

/-- One node of the `event_to_pl` loop. -/
def recordPowerLevel (eventToPl : HMap EventId Int) (eventId : EventId) : Outcome (HMap EventId Int) := do
  let pl ← ofExcept (getPowerLevelForSender co fetch eventId)
  pure (eventToPl.insert eventId pl)

/-- The graph loop of `reverse_topological_power_sort`: one walk per control event. -/
def buildGraph (fuel : Nat) (eventsToSort : List EventId) (authDiff : HSet EventId) :
    Outcome (HMap EventId (HSet EventId)) :=
  eventsToSort.foldlM (fun graph eventId => addEventAndAuthChainToGraph fetch fuel graph eventId authDiff) ∅

/-- **`reverse_topological_power_sort`**. -/
def reverseTopologicalPowerSort (fuel : Nat) (eventsToSort : List EventId) (authDiff : HSet EventId) :
    Outcome (List EventId) := do
  let graph ← buildGraph fetch fuel eventsToSort authDiff
  let eventToPl ← (H.arrange graph.keys).foldlM (recordPowerLevel co fetch) ∅
  lexicographicalTopologicalSort H (powerSortKey fetch eventToPl) graph

/-! ### The in-diff auth graph -/

variable (authDiff : HSet EventId)

/-- `y` is an auth event of `x` that lies in the diff. -/
def DiffEdge (x y : EventId) : Prop := y ∈ authDiff ∧ ∃ ev, fetch x = some ev ∧ y ∈ ev.authEvents

/-- `y` is a seed or an auth ancestor of one, reached inside the diff. -/
def InClosure (seeds : List EventId) (y : EventId) : Prop :=
  ∃ s ∈ seeds, ReflTransGen (DiffEdge fetch authDiff) s y

variable {fetch authDiff}

theorem diffEdge_iff {x y : EventId} : DiffEdge fetch authDiff x y ↔ y ∈ authEventsOf fetch x ∧ y ∈ authDiff := by
  unfold DiffEdge authEventsOf
  cases fetch x <;> simp [and_comm]

theorem InClosure.tail {seeds : List EventId} {x y : EventId} (hx : InClosure fetch authDiff seeds x)
    (hxy : DiffEdge fetch authDiff x y) : InClosure fetch authDiff seeds y :=
  let ⟨s, hs, hsx⟩ := hx
  ⟨s, hs, hsx.tail hxy⟩

/-- An event of the closure is a seed or lies in the diff. -/
theorem InClosure.mem_or {seeds : List EventId} {y : EventId} (hy : InClosure fetch authDiff seeds y) :
    y ∈ seeds ∨ y ∈ authDiff := by
  obtain ⟨s, hs, hsy⟩ := hy
  induction hsy with
  | refl => exact Or.inl hs
  | tail _ hyz _ => exact Or.inr hyz.1

/-- An auth relation along which a rank falls has no cycle. -/
theorem acyclic_of_rank (rank : EventId → Nat) (h : ∀ x y, DiffEdge fetch authDiff x y → rank y < rank x)
    (x : EventId) : ¬ TransGen (DiffEdge fetch authDiff) x x := fun hx => by
  have hlt : ∀ a b, TransGen (DiffEdge fetch authDiff) a b → rank b < rank a := fun a b hab => by
    induction hab with
    | single hab => exact h _ _ hab
    | tail _ hbc ih => exact (h _ _ hbc).trans ih
  exact lt_irrefl _ (hlt x x hx)

/-- The loop over the auth events of `eid`: the edges of `eid` gain its auth events in the diff,
no other node changes, and those not yet in the graph go on the stack. -/
theorem foldlM_addAuthEdge (eid : EventId) :
    ∀ (auths : List EventId) (g : HMap EventId (HSet EventId)) (st : List EventId) (es : HSet EventId),
      g.lookup eid = some es →
      ∃ g' st' es', auths.foldlM (addAuthEdge authDiff eid) (g, st) = ok (g', st') ∧
        g'.lookup eid = some es' ∧ (∀ y, y ∈ es' ↔ y ∈ es ∨ y ∈ auths ∧ y ∈ authDiff) ∧
        (∀ x, x ≠ eid → g'.lookup x = g.lookup x) ∧
        ∀ y, y ∈ st' ↔ y ∈ st ∨ y ∈ auths ∧ y ∈ authDiff ∧ y ∉ g
  | [], g, st, es, hes => ⟨g, st, es, rfl, hes, by simp, fun _ _ => rfl, by simp⟩
  | aid :: rest, g, st, es, hes => by
    by_cases hd : aid ∈ authDiff
    · have hmem : ∀ y, y ∈ g.insert eid (es.insert aid) ↔ y ∈ g := fun y => by
        rw [AList.mem_insert, or_iff_right_of_imp]
        rintro rfl
        exact AList.lookup_isSome.mp (by simp [hes])
      obtain ⟨g', st', es', h, hl, hes', hother, hst'⟩ := foldlM_addAuthEdge eid rest _
        (if aid ∈ g then st else aid :: st) (es.insert aid) (AList.lookup_insert _)
      refine ⟨g', st', es', by simpa [addAuthEdge, hd, hes] using h, hl, fun y => ?_,
        fun x hx => by rw [hother x hx, AList.lookup_insert_ne hx], fun y => ?_⟩
      · rw [hes', HSet.mem_insert]
        by_cases hy : y = aid <;> simp [hy, hd]
      · rw [hst', hmem]
        by_cases hg : aid ∈ g <;> by_cases hy : y = aid <;> simp [hg, hy, hd]
    · obtain ⟨g', st', es', h, hl, hes', hother, hst'⟩ := foldlM_addAuthEdge eid rest g st es hes
      refine ⟨g', st', es', by simpa [addAuthEdge, hd] using h, hl, fun y => ?_, hother, fun y => ?_⟩
      · rw [hes']
        by_cases hy : y = aid <;> simp [hy, hd]
      · rw [hst']
        by_cases hy : y = aid <;> simp [hy, hd]

variable (fetch authDiff) (seeds : List EventId)

/-- **The invariant of the stack loop.** -/
structure GraphInv (graph : HMap EventId (HSet EventId)) (stack : List EventId) : Prop where
  sound : ∀ x ∈ graph, InClosure fetch authDiff seeds x
  stack_sound : ∀ x ∈ stack, InClosure fetch authDiff seeds x
  edges : ∀ x es, graph.lookup x = some es → ∀ y, y ∈ es ↔ DiffEdge fetch authDiff x y
  closed : ∀ x ∈ graph, ∀ y, DiffEdge fetch authDiff x y → y ∈ graph ∨ y ∈ stack

variable {fetch authDiff seeds}

/-- One round of the stack loop keeps the invariant, and keeps every node. -/
theorem graphLoop_step {graph g' : HMap EventId (HSet EventId)} {eid : EventId} {st st' : List EventId}
    (hi : GraphInv fetch authDiff seeds graph (eid :: st))
    (h : (authEventsOf fetch eid).foldlM (addAuthEdge authDiff eid) (graph.modify eid ∅ id, st) =
      ok (g', st')) :
    GraphInv fetch authDiff seeds g' st' ∧ (∀ x, x ∈ g' ↔ x = eid ∨ x ∈ graph) ∧ ∀ x ∈ st, x ∈ st' := by
  have hl₁ : (graph.modify eid ∅ id).lookup eid = some ((graph.lookup eid).getD ∅) := by
    simp [HMap.lookup_modify]
  obtain ⟨g₂, st₂, es', h₂, hl, hes', hother, hst⟩ :=
    @foldlM_addAuthEdge authDiff eid (authEventsOf fetch eid) _ st _ hl₁
  obtain ⟨rfl, rfl⟩ : g' = g₂ ∧ st' = st₂ := by rw [h] at h₂; simpa using h₂
  have hother' : ∀ x, x ≠ eid → g'.lookup x = graph.lookup x := fun x hx => by
    rw [hother x hx, HMap.lookup_modify, if_neg hx]
  have hmem : ∀ x, x ∈ g' ↔ x = eid ∨ x ∈ graph := fun x => by
    by_cases hx : x = eid
    · subst hx; simp [← AList.lookup_isSome, hl]
    · simp [← AList.lookup_isSome, hother' x hx, hx]
  have hst₁ : ∀ y, y ∈ st' ↔ y ∈ st ∨ DiffEdge fetch authDiff eid y ∧ y ∉ graph.modify eid ∅ id :=
    fun y => by rw [hst, diffEdge_iff, and_assoc]
  have heid : InClosure fetch authDiff seeds eid := hi.stack_sound eid (List.mem_cons_self _ _)
  refine ⟨⟨fun x hx => ?_, fun y hy => ?_, fun x es hx y => ?_, fun x hx y hxy => ?_⟩, hmem,
    fun x hx => (hst₁ x).mpr (Or.inl hx)⟩
  · rcases (hmem x).mp hx with rfl | hx
    exacts [heid, hi.sound x hx]
  · rcases (hst₁ y).mp hy with hy | ⟨hy, -⟩
    exacts [hi.stack_sound y (List.mem_cons_of_mem _ hy), heid.tail hy]
  · by_cases hxe : x = eid
    · subst hxe
      obtain rfl : es = es' := Option.some.inj (hx.symm.trans hl)
      rw [hes', ← diffEdge_iff, or_iff_right_iff_imp]
      cases hg : graph.lookup x with
      | none => simp
      | some es₀ => exact (hi.edges x es₀ hg y).mp
    · exact hi.edges x es (by rw [← hother' x hxe, hx]) y
  · by_cases hxe : x = eid
    · subst hxe
      by_cases hy : y ∈ graph.modify x ∅ id
      · exact Or.inl ((hmem y).mpr (HMap.mem_modify.mp hy))
      · exact Or.inr ((hst₁ y).mpr (Or.inr ⟨hxy, hy⟩))
    · rcases hi.closed x (((hmem x).mp hx).resolve_left hxe) y hxy with hy | hy
      · exact Or.inl ((hmem y).mpr (Or.inr hy))
      · rcases List.mem_cons.mp hy with rfl | hy
        · exact Or.inl ((hmem _).mpr (Or.inl rfl))
        · exact Or.inr ((hst₁ y).mpr (Or.inl hy))

/-- A run of the stack loop that ends leaves the stack empty, the invariant, and every node and
stacked id in the graph. -/
theorem graphLoop_ok : ∀ (fuel : Nat) {graph g' : HMap EventId (HSet EventId)} {stack : List EventId},
    GraphInv fetch authDiff seeds graph stack → graphLoop fetch authDiff graph stack fuel = ok g' →
    GraphInv fetch authDiff seeds g' [] ∧ (∀ x ∈ graph, x ∈ g') ∧ ∀ x ∈ stack, x ∈ g'
  | _, _, _, [], hi, h => by simp only [graphLoop, ok.injEq] at h; subst h; exact ⟨hi, fun _ => id, by simp⟩
  | 0, _, _, _ :: _, _, h => nomatch h
  | fuel + 1, graph, g', eid :: st, hi, h => by
    obtain ⟨⟨g₂, st₂⟩, h₂, h⟩ := bind_eq_ok.mp h
    obtain ⟨hi₂, hmem, hst⟩ := graphLoop_step hi h₂
    obtain ⟨hi', hg, hs⟩ := graphLoop_ok fuel hi₂ h
    refine ⟨hi', fun x hx => hg x ((hmem x).mpr (Or.inr hx)), fun x hx => ?_⟩
    rcases List.mem_cons.mp hx with rfl | hx
    exacts [hg x ((hmem x).mpr (Or.inl rfl)), hs x (hst x hx)]

/-- The walks from the seeds `rest`, each one from the graph the last one left. -/
theorem foldlM_walk_ok {fuel : Nat} : ∀ (rest : List EventId) {g g' : HMap EventId (HSet EventId)},
    (∀ s ∈ rest, s ∈ seeds) → GraphInv fetch authDiff seeds g [] →
    rest.foldlM (fun graph eventId => addEventAndAuthChainToGraph fetch fuel graph eventId authDiff) g = ok g' →
    GraphInv fetch authDiff seeds g' [] ∧ (∀ x ∈ g, x ∈ g') ∧ ∀ s ∈ rest, s ∈ g'
  | [], _, _, _, hi, h => by cases h; exact ⟨hi, fun _ => id, by simp⟩
  | s :: rest, g, g', hs, hi, h => by
    obtain ⟨g₁, h₁, h⟩ := bind_eq_ok.mp h
    have hi₀ : GraphInv fetch authDiff seeds g [s] :=
      ⟨hi.sound, fun x hx => ⟨x, by rw [List.mem_singleton.mp hx]; exact hs s (List.mem_cons_self _ _),
        ReflTransGen.refl⟩, hi.edges, fun x hx y hxy => (hi.closed x hx y hxy).imp_right nofun⟩
    obtain ⟨hi₁, hg₁, hs₁⟩ := graphLoop_ok fuel hi₀ h₁
    obtain ⟨hi', hg', hs'⟩ := foldlM_walk_ok rest (fun x hx => hs x (List.mem_cons_of_mem _ hx)) hi₁ h
    refine ⟨hi', fun x hx => hg' x (hg₁ x hx), fun x hx => ?_⟩
    rcases List.mem_cons.mp hx with rfl | hx
    exacts [hg' x (hs₁ x (List.mem_singleton_self _)), hs' x hx]

/-- **The graph the seeds give**: its keys are the in-diff auth closure of the seeds, and the
edges of a key are its auth events in the diff. -/
theorem buildGraph_ok {fuel : Nat} {graph : HMap EventId (HSet EventId)}
    (h : buildGraph fetch fuel seeds authDiff = ok graph) :
    (∀ x, x ∈ graph ↔ InClosure fetch authDiff seeds x) ∧
      ∀ x es, graph.lookup x = some es → ∀ y, y ∈ es ↔ DiffEdge fetch authDiff x y := by
  obtain ⟨hi, -, hs⟩ := foldlM_walk_ok seeds (fun _ => id)
    ⟨by simp, by simp, by simp, by simp⟩ h
  refine ⟨fun x => ⟨hi.sound x, ?_⟩, hi.edges⟩
  rintro ⟨s, hs', hsx⟩
  induction hsx with
  | refl => exact hs s hs'
  | tail _ hyz ih => exact (hi.closed _ ih _ hyz).resolve_right nofun

/-! ### The sort -/

variable (fetch)

/-- **The sender's power level** of `ev`, as the contract of the power sort states it:
`users[sender]` in the first power-levels event among its auth events that can be fetched, else
that event's `users_default`, else `0`. -/
inductive PowerLevelIs (ev : Pdu) : Int → Prop
  | noPowerLevels :
      (∀ a ∈ ev.authEvents, ∀ aev, fetch a = some aev → isTypeAndKey aev .roomPowerLevels "" = false) →
      PowerLevelIs ev 0
  | first {pre suf : List EventId} {a : EventId} {pev : Pdu} {content : PowerLevelsContentFields} :
      ev.authEvents = pre ++ a :: suf →
      (∀ b ∈ pre, ∀ bev, fetch b = some bev → isTypeAndKey bev .roomPowerLevels "" = false) →
      fetch a = some pev → isTypeAndKey pev .roomPowerLevels "" = true →
      co.powerLevelsContent pev.content = some content →
      PowerLevelIs ev ((content.users.lookup ev.sender).getD content.usersDefault)

/-- The power level the sort reads for `x`: that of `get_power_level_for_sender`, `0` where it
fails. -/
def senderPowerLevel (x : EventId) : Int :=
  match getPowerLevelForSender co fetch x with
  | .ok pl => pl
  | .error _ => 0

/-- **The order of the power sort**: higher sender power level first, then the earlier timestamp,
then the smaller id. -/
def powerOrderKey (x : EventId) : TieBreaker :=
  ⟨-senderPowerLevel co fetch x, ((fetch x).map Pdu.originServerTs).getD 0, x⟩

/-- The key `get_power_level_for_sender` and the timestamp give `x`; `powerOrderKey` is its heap
item. -/
def powerKeyOf (x : EventId) : Int × Nat :=
  (senderPowerLevel co fetch x, ((fetch x).map Pdu.originServerTs).getD 0)

variable {co fetch}

theorem recordPowerLevel_ok {m m' : HMap EventId Int} {x : EventId}
    (hm : ∀ y pl, m.lookup y = some pl → getPowerLevelForSender co fetch y = .ok pl)
    (h : recordPowerLevel co fetch m x = ok m') :
    ∀ y pl, m'.lookup y = some pl → getPowerLevelForSender co fetch y = .ok pl := by
  obtain ⟨pl, hpl, h⟩ := bind_eq_ok.mp h
  cases h
  intro y pl' hy
  by_cases hyx : y = x
  · subst hyx
    rw [AList.lookup_insert] at hy
    cases hy
    exact ofExcept_eq_ok.mp hpl
  · exact hm y pl' (by rwa [AList.lookup_insert_ne hyx] at hy)

theorem powerSortKey_ok {eventToPl : HMap EventId Int} {x : EventId} {p : Int × Nat}
    (hm : ∀ y pl, eventToPl.lookup y = some pl → getPowerLevelForSender co fetch y = .ok pl)
    (h : powerSortKey fetch eventToPl x = .ok p) :
    (∃ ev, fetch x = some ev ∧ p.2 = ev.originServerTs) ∧ getPowerLevelForSender co fetch x = .ok p.1 := by
  unfold powerSortKey at h
  cases hl : eventToPl.lookup x with
  | none => simp [hl] at h; cases h
  | some pl =>
    cases hf : fetch x with
    | none => simp [hl, hf] at h; cases h
    | some ev =>
      simp only [hl, hf] at h
      cases h
      exact ⟨⟨ev, rfl, rfl⟩, hm x pl hl⟩

/-- `get_power_level_for_sender` fails only where power-levels content does not parse. -/
theorem getPowerLevelForSender_error {x : EventId} {e : Error}
    (h : getPowerLevelForSender co fetch x = .error e) : e = .serdeError := by
  unfold getPowerLevelForSender at h
  dsimp only at h
  split at h
  · cases h
  · split at h
    · cases h; rfl
    · split at h <;> cases h

/-- **What `get_power_level_for_sender` returns** for an event it can fetch: a level exactly when
it is the one `PowerLevelIs` names. -/
theorem getPowerLevelForSender_ok_iff {x : EventId} {ev : Pdu} (hx : fetch x = some ev) {pl : Int} :
    getPowerLevelForSender co fetch x = .ok pl ↔ PowerLevelIs co fetch ev pl := by
  have hnone : ∀ a, ((fetch a).filter fun aev => isTypeAndKey aev .roomPowerLevels "") = none ↔
      ∀ aev, fetch a = some aev → isTypeAndKey aev .roomPowerLevels "" = false := fun a => by
    cases fetch a <;> simp [Option.filter]
  have hsome : ∀ a pev, ((fetch a).filter fun aev => isTypeAndKey aev .roomPowerLevels "") = some pev ↔
      fetch a = some pev ∧ isTypeAndKey pev .roomPowerLevels "" = true := fun a pev => by
    rw [Option.filter_eq_some, Option.mem_def]
  unfold getPowerLevelForSender
  simp only [hx, Option.map_some', Option.getD_some, Option.some_bind]
  split
  · next hfind =>
    rw [List.findSome?_eq_none_iff] at hfind
    constructor
    · rintro ⟨⟩
      exact .noPowerLevels fun a ha => (hnone a).mp (hfind a ha)
    · rintro (_ | @⟨pre, suf, a, pev, content, hauth, -, ha, hpl, -⟩)
      · rfl
      · exact absurd (hfind a (by simp [hauth])) (by simp [(hsome a pev).mpr ⟨ha, hpl⟩])
  · next pev hfind =>
    obtain ⟨pre, a, suf, hauth, ha, hpre⟩ := List.findSome?_eq_some_iff.mp hfind
    obtain ⟨hfa, hpl⟩ := (hsome a pev).mp ha
    have hlevel : PowerLevelIs co fetch ev pl ↔ ∃ content, co.powerLevelsContent pev.content = some content ∧
        pl = (content.users.lookup ev.sender).getD content.usersDefault := by
      constructor
      · rintro (hno | ⟨hauth', hpre', ha', hpl', hc'⟩)
        · exact absurd (hno a (by simp [hauth]) pev hfa) (by simp [hpl])
        · have hfind' := List.findSome?_eq_some_iff.mpr ⟨_, _, _, hauth', (hsome _ _).mpr ⟨ha', hpl'⟩,
            fun b hb => (hnone b).mpr (hpre' b hb)⟩
          rw [hfind] at hfind'
          cases hfind'
          exact ⟨_, hc', rfl⟩
      · rintro ⟨content, hc, rfl⟩
        exact .first hauth (fun b hb => (hnone b).mp (hpre b hb)) hfa hpl hc
    rw [hlevel]
    cases co.powerLevelsContent pev.content with
    | none => simp
    | some content =>
      simp only [Option.some.injEq, exists_eq_left']
      split <;> next hu => simp [hu, eq_comm]

/-- The key function of the power sort fails only with `NotFound`. -/
theorem powerSortKey_error {eventToPl : HMap EventId Int} {x : EventId} {e : Error}
    (h : powerSortKey fetch eventToPl x = .error e) : e = .notFound "" := by
  unfold powerSortKey at h
  cases hl : eventToPl.lookup x <;> cases hf : fetch x <;> simp only [hl, hf] at h <;> cases h <;> rfl

variable (co fetch) in
theorem foldlM_recordPowerLevel_settles (l : List EventId) (m : HMap EventId Int) :
    Settles (l.foldlM (recordPowerLevel co fetch) m) fun _ => True :=
  foldlM_settles _ _ (fun _ _ => True) (fun _ _ _ _ _ _ =>
    (settles_ofExcept _).bind fun _ _ => settles_ok trivial) _ trivial

/-- **The `event_to_pl` loop with a value**: every key has a power level, and gets it. -/
theorem foldlM_recordPowerLevel_ok : ∀ {l : List EventId} {m₀ m : HMap EventId Int},
    l.foldlM (recordPowerLevel co fetch) m₀ = ok m →
      (∀ x ∈ l, ∃ pl, getPowerLevelForSender co fetch x = .ok pl) ∧
        ∀ x, m.lookup x = if x ∈ l then some (senderPowerLevel co fetch x) else m₀.lookup x
  | [], _, _, h => by cases h; exact ⟨by simp, fun _ => by simp⟩
  | c :: l, m₀, m, h => by
    obtain ⟨m₁, h₁, h⟩ := bind_eq_ok.mp h
    obtain ⟨pl, hpl, h₁⟩ := bind_eq_ok.mp h₁
    cases h₁
    have hc : getPowerLevelForSender co fetch c = .ok pl := ofExcept_eq_ok.mp hpl
    obtain ⟨hall, hlook⟩ := foldlM_recordPowerLevel_ok h
    refine ⟨List.forall_mem_cons.mpr ⟨⟨pl, hc⟩, hall⟩, fun x => ?_⟩
    rw [hlook x]
    by_cases hxl : x ∈ l
    · simp [hxl]
    · by_cases hxc : x = c
      · subst hxc
        simp [hxl, senderPowerLevel, hc]
      · simp [hxl, hxc, AList.lookup_insert_ne hxc]

/-- **The `event_to_pl` loop fails** only with `SerdeError`, at a key with no power level. -/
theorem foldlM_recordPowerLevel_err {l : List EventId} {m₀ : HMap EventId Int} {e : Error}
    (h : l.foldlM (recordPowerLevel co fetch) m₀ = err e) :
    e = .serdeError ∧ ∃ x ∈ l, ∀ pl, getPowerLevelForSender co fetch x ≠ .ok pl := by
  refine foldlM_err (E := fun e => e = .serdeError ∧ ∃ x ∈ l, ∀ pl, getPowerLevelForSender co fetch x ≠ .ok pl)
    (fun _ x hx e h => ?_) m₀ e h
  have hx' : getPowerLevelForSender co fetch x = .error e :=
    bind_err (fun _ h => ofExcept_eq_err.mp h) (fun _ _ _ h => by cases h) e h
  exact ⟨getPowerLevelForSender_error hx', x, hx, fun pl h => by rw [hx'] at h; cases h⟩

/-- **A sorted run** is the reference order of the graph built from the controls, for the key
`powerKeyOf`; every sorted event can be fetched and has a power level. -/
theorem reverseTopologicalPowerSort_ok {fuel : Nat} {controls l : List EventId}
    (h : reverseTopologicalPowerSort co H fetch fuel controls authDiff = ok l) :
    ∃ graph, buildGraph fetch fuel controls authDiff = ok graph ∧ l = lexOrder graph (powerKeyOf co fetch) ∧
      ∀ x ∈ l, (∃ ev, fetch x = some ev) ∧ ∃ pl, getPowerLevelForSender co fetch x = .ok pl := by
  obtain ⟨graph, hg, h⟩ := bind_eq_ok.mp h
  obtain ⟨eventToPl, hpl, h⟩ := bind_eq_ok.mp h
  have hm : ∀ y pl, eventToPl.lookup y = some pl → getPowerLevelForSender co fetch y = .ok pl :=
    foldlM_ok_induction _ _ (fun _ _ _ _ hm h => recordPowerLevel_ok hm h) (by simp) hpl
  have hκ : ∀ x p, powerSortKey fetch eventToPl x = .ok p → powerKeyOf co fetch x = p := fun x p hp => by
    obtain ⟨⟨ev, hev, hts⟩, hpl⟩ := powerSortKey_ok hm hp
    simp [powerKeyOf, senderPowerLevel, hpl, hev, ← hts]
  obtain ⟨rfl, hok⟩ := (lexicographicalTopologicalSort_settles H hκ).of_ok h
  refine ⟨graph, hg, rfl, fun x hx => ?_⟩
  obtain ⟨p, hp⟩ := hok x hx
  obtain ⟨⟨ev, hev, -⟩, hpl⟩ := powerSortKey_ok hm hp
  exact ⟨⟨ev, hev⟩, p.1, hpl⟩

theorem reverseTopologicalPowerSort_spec (fuel : Nat) (controls : List EventId)
    (hacyc : ∀ x, ¬ TransGen (DiffEdge fetch authDiff) x x) {l : List EventId}
    (h : reverseTopologicalPowerSort co H fetch fuel controls authDiff = ok l) :
    l.Nodup ∧ (∀ x, x ∈ l ↔ InClosure fetch authDiff controls x) ∧
      (∀ pre x suf, l = pre ++ x :: suf → ∀ y, DiffEdge fetch authDiff x y → y ∈ pre) ∧
      (∀ x ∈ l, ∃ ev, fetch x = some ev ∧ PowerLevelIs co fetch ev (senderPowerLevel co fetch x)) ∧
      ∀ pre x suf, l = pre ++ x :: suf → ∀ y, InClosure fetch authDiff controls y → y ∉ pre →
        (∀ z, DiffEdge fetch authDiff y z → z ∈ pre) → powerOrderKey co fetch x ≤ powerOrderKey co fetch y := by
  obtain ⟨graph, hg, rfl, hfetch⟩ := reverseTopologicalPowerSort_ok H h
  obtain ⟨hkeys, hedges⟩ := buildGraph_ok hg
  set κ := powerKeyOf co fetch
  obtain ⟨hgreedy, hready⟩ : Greedy graph κ (lexOrder graph κ) ∧ _ := lexOrder_greedy
  have hedge : ∀ x y, y ∈ succs graph x → x ∈ graph ∧ DiffEdge fetch authDiff x y := fun x y hxy => by
    unfold succs at hxy
    cases hx : graph.lookup x with
    | none => simp [hx] at hxy
    | some es => exact ⟨mem_of_lookup hx, (hedges x es hx y).mp (by simpa [hx] using hxy)⟩
  have hclosed : Closed graph := fun x y hy =>
    (hkeys y).mpr (((hkeys x).mp (hedge x y hy).1).tail (hedge x y hy).2)
  have hmem : ∀ x, x ∈ lexOrder graph κ ↔ x ∈ graph := fun x =>
    ⟨hgreedy.keys, mem_of_ready_eq_nil (fun x hx => hacyc x (hx.mono fun a b h => (hedge a b h).2))
      hclosed hready⟩
  have hsuccs : ∀ x ∈ graph, ∀ y, y ∈ succs graph x ↔ DiffEdge fetch authDiff x y := fun x hx y => by
    obtain ⟨es, hes⟩ := exists_lookup_of_mem hx
    rw [succs_of_lookup hes]
    exact hedges x es hes y
  refine ⟨hgreedy.nodup, fun x => (hmem x).trans (hkeys x), fun pre x suf hl y hxy => ?_,
    fun x hx => ?_, fun pre x suf hl y hy hyp hys => ?_⟩
  · exact hgreedy.after hl y ((hsuccs x ((hmem x).mp (hl ▸ by simp)) y).mpr hxy)
  · obtain ⟨⟨ev, hev⟩, pl, hpl⟩ := hfetch x hx
    refine ⟨ev, hev, ?_⟩
    simp only [senderPowerLevel, hpl]
    exact (getPowerLevelForSender_ok_iff hev).mp hpl
  · have hyg : y ∈ graph := (hkeys y).mpr hy
    exact (hgreedy pre x suf hl).2 y ((mem_ready graph).mpr
      ⟨hyg, hyp, fun z hz => hys z ((hsuccs y hyg z).mp hz)⟩)

/-- Collaborators that accept every event and parse no content. -/
def permissive : Collaborators where
  authCheck := fun _ _ _ _ => .ok true
  authTypesForEvent := fun _ _ _ _ => .ok []
  roomVersionNew := fun v => .ok ⟨v⟩
  memberContent := fun _ => none
  powerLevelsContent := fun _ => none

/-- A create event `$a`, a power-levels event `$p` citing it, and two join-rules events citing
both: `$x` by `@v`, and `$y`, later, by `@u`. -/
def ruledRoom : EventId → Option Pdu
  | "$a" => some ⟨"$a", .roomCreate, some "", "@u", "", [], 1⟩
  | "$p" => some ⟨"$p", .roomPowerLevels, some "", "@u", "u:100", ["$a"], 2⟩
  | "$x" => some ⟨"$x", .roomJoinRules, some "", "@v", "", ["$a", "$p"], 3⟩
  | "$y" => some ⟨"$y", .roomJoinRules, some "", "@u", "", ["$a", "$p"], 4⟩
  | _ => none

/-- The four events of `ruledRoom`, all in the diff. -/
def ruledDiff : HSet EventId := ⟨["$a", "$p", "$x", "$y"], by decide⟩

/-- Collaborators that accept every event and read the power levels `u:100` as `@u` at level
100 and everyone else at 0. -/
def levelsParsed : Collaborators where
  authCheck := fun _ _ _ _ => .ok true
  authTypesForEvent := fun _ _ _ _ => .ok []
  roomVersionNew := fun v => .ok ⟨v⟩
  memberContent := fun _ => none
  powerLevelsContent := fun c => if c = "u:100" then some ⟨[("@u", 100)], 0⟩ else none

theorem reverseTopologicalPowerSort_spec_levels :
    (∀ x, ¬ TransGen (DiffEdge ruledRoom ruledDiff) x x) ∧
      reverseTopologicalPowerSort levelsParsed .stored ruledRoom 8 ["$x", "$y"] ruledDiff =
        ok ["$a", "$p", "$y", "$x"] ∧
      ∃ ev, ruledRoom "$y" = some ev ∧
        PowerLevelIs levelsParsed ruledRoom ev (senderPowerLevel levelsParsed ruledRoom "$y") := by
  have hacyc : ∀ x, ¬ TransGen (DiffEdge ruledRoom ruledDiff) x x :=
    acyclic_of_rank (fun x => if x = "$a" then 0 else if x = "$p" then 1 else 2) fun x y ⟨_, ev, hev, hy⟩ => by
      unfold ruledRoom at hev
      split at hev <;> cases hev <;> simp at hy <;> rcases hy with rfl | rfl <;> decide
  have hrun : reverseTopologicalPowerSort levelsParsed .stored ruledRoom 8 ["$x", "$y"] ruledDiff =
      ok ["$a", "$p", "$y", "$x"] := rfl
  exact ⟨hacyc, hrun, (reverseTopologicalPowerSort_spec .stored 8 ["$x", "$y"] hacyc hrun).2.2.2.1 "$y" (by simp)⟩

/-! ### Two runs -/

/-- Two graphs built from control lists with the same ids, in diffs with the same ids, have the
same keys and the same edges, whatever the order and repeats of the controls and the fuel. -/
theorem buildGraph_congr {fuel fuel' : Nat} {controls controls' : List EventId} {authDiff' : HSet EventId}
    (hc : ∀ x, x ∈ controls ↔ x ∈ controls') (hd : ∀ x, x ∈ authDiff ↔ x ∈ authDiff')
    {g g' : HMap EventId (HSet EventId)} (hg : buildGraph fetch fuel controls authDiff = ok g)
    (hg' : buildGraph fetch fuel' controls' authDiff' = ok g') :
    (∀ x, x ∈ g ↔ x ∈ g') ∧ ∀ x y, y ∈ succs g x ↔ y ∈ succs g' x := by
  obtain ⟨hkeys, hedges⟩ := buildGraph_ok hg
  obtain ⟨hkeys', hedges'⟩ := buildGraph_ok hg'
  have hE : DiffEdge fetch authDiff = DiffEdge fetch authDiff' := by
    funext x y
    simp only [DiffEdge, hd]
  have hk : ∀ x, x ∈ g ↔ x ∈ g' := fun x => by
    rw [hkeys, hkeys', InClosure, InClosure, hE]
    simp only [hc]
  exact ⟨hk, fun x y => by rw [mem_succs_iff hedges, mem_succs_iff hedges', hk, hE]⟩

end RumaStateRes.PowerSort
