import Mathlib.Data.List.Sort
import Mathlib.Data.Prod.Lex
import Mathlib.Data.String.Basic
import Mathlib.Order.WithBot
import RumaStateRes.Core.Event

/-! # The mainline sort

`mainline_sort` orders the events left after the control pass. It first walks the mainline: from
the resolved power-levels event down, each step to the first power-levels auth event of the one
before. Each event to sort then gets its depth (`get_mainline_depth`): the index, in the reversed
mainline, of the first event on the mainline met by following power-levels auth events from it.
The events are sorted by `(depth, origin_server_ts, event_id)`.

Both walks read the auth events of an event in order, up to its first power-levels event
(`firstPowerLevels`); an auth event that cannot be fetched there is `NotFound`. Both are
`while` loops with no bound of their own and run on fuel here. An event that cannot be fetched,
or whose depth walk fails, gets no entry in `order_map` and is left out of the result
(`mainlineSort_drops_unfetchable_auth`).

The reference side follows power-levels parents (`plParent`): `Chain` is the chain from an event
to its end, and `DepthIs` the depth the chain of an event gives against a mainline, one number for
each event (`DepthIs.unique`).

* `mainlineLoop_ok`, `getMainlineDepth_ok`: with enough fuel, the mainline loop returns the chain
  of the tip, and the depth walk the depth `DepthIs` names;
* `mainlineSort_ok`: on events whose chains and scans are all fetchable, the result is the input
  sorted strictly by `sortKey`;
* `mainlineSort_spec`: when no power-levels chain is infinite, with enough fuel the result is a
  permutation of the input, sorted strictly by depth, timestamp and id, and the same for every
  order of the input and every hash order;
* `mainlineSort_tip_failures`: each hypothesis of that is needed: a tip whose scan reads an event
  that cannot be fetched ends in `NotFound`, a tip that cites itself never ends, and a store that
  serves one event under two ids sorts by the depth of the other id;
* `mainlineSort_congr`: two runs on inputs with the same ids that both return a list return the
  same list, whatever their fuel and hash orders;
* `mainlineSort_err`: the sort fails only in its mainline loop, with that loop's `Error`. -/

namespace RumaStateRes.Mainline

open RumaStateRes.Core.Result RumaStateRes.Core.Collections RumaStateRes.Core.Event
open Outcome Relation

variable (fetch : EventId → Option Pdu)

/-! ### The model -/

/-- The scan both walks make over `auth_events`: each auth event is fetched (a missing one is
`NotFound`), and the first power-levels event with state key `""` ends it. -/
def firstPowerLevels : List EventId → Outcome (Option (EventId × Pdu))
  | [] => ok none
  | aid :: rest => do
    let ev ← okOr (.notFound ("Failed to find " ++ aid)) (fetch aid)
    if isTypeAndKey ev .roomPowerLevels "" then pure (some (aid, ev)) else firstPowerLevels rest

/-- The mainline loop from `p` on, on fuel: `p` joins the mainline, and the loop goes on with the
first power-levels auth event of `p` while there is one. -/
def mainlineFrom : EventId → List EventId → Nat → Outcome (List EventId)
  | _, _, 0 => diverge
  | p, mainline, fuel + 1 => do
    let mainline := mainline ++ [p]
    let event ← okOr (.notFound ("Failed to find " ++ p)) (fetch p)
    match ← firstPowerLevels fetch event.authEvents with
    | some (aid, _) => mainlineFrom aid mainline fuel
    | none => pure mainline

/-- The `while let Some(p) = pl` loop building the mainline. -/
def mainlineLoop (pl : Option EventId) (fuel : Nat) : Outcome (List EventId) :=
  match pl with
  | none => ok []
  | some p => mainlineFrom fetch p [] fuel

/-- `mainline_map`: each mainline event at its index in the reversed mainline. -/
def mainlineMapOf (mainline : List EventId) : HMap EventId Nat :=
  mainline.reverse.enum.foldl (fun m e => m.insert e.2 e.1) ∅

/-- The loop of `get_mainline_depth` from `sortEv` on, on fuel. -/
def mainlineDepthFrom (mainlineMap : HMap EventId Nat) : Pdu → Nat → Outcome Nat
  | _, 0 => diverge
  | sortEv, fuel + 1 =>
    match mainlineMap.lookup sortEv.eventId with
    | some depth => ok depth
    | none => do
      match ← firstPowerLevels fetch sortEv.authEvents with
      | some (_, aev) => mainlineDepthFrom mainlineMap aev fuel
      | none => ok 0

/-- **`get_mainline_depth`**: `0` when there is no event to start from. -/
def getMainlineDepth (mainlineMap : HMap EventId Nat) (event : Option Pdu) (fuel : Nat) : Outcome Nat :=
  match event with
  | none => ok 0
  | some sortEv => mainlineDepthFrom fetch mainlineMap sortEv fuel

/-- The sort key of `mainline_sort`, `(depth, origin_server_ts, event_id)`, compared as a Rust
tuple (`None` below every timestamp). -/
abbrev OrderKey := Nat ×ₗ WithBot Nat ×ₗ EventId

/-- One id of the `order_map` loop: an event that cannot be fetched, or whose depth walk returns
an error, gets no entry. -/
def orderStep (mainlineMap : HMap EventId Nat) (fuel : Nat) (orderMap : HMap EventId OrderKey)
    (evId : EventId) : Outcome (HMap EventId OrderKey) :=
  match fetch evId with
  | none => ok orderMap
  | some event => do
    match ← (getMainlineDepth fetch mainlineMap (some event) fuel).result with
    | .ok depth =>
      pure (orderMap.insert evId (toLex (depth, toLex ((fetch evId).map Pdu.originServerTs, evId))))
    | .error _ => pure orderMap

/-- **`mainline_sort`**: `sort_by_key` reads the key of every id with
`order_map.get(..).unwrap()`. -/
def mainlineSort (H : HashOrder) (fuel : Nat) (toSort : List EventId) (resolvedPowerLevel : Option EventId) :
    Outcome (List EventId) :=
  if toSort.isEmpty then ok [] else do
    let mainline ← mainlineLoop fetch resolvedPowerLevel fuel
    let mainlineMap := mainlineMapOf mainline
    let orderMap ← toSort.foldlM (orderStep fetch mainlineMap fuel) ∅
    let keyed ← (H.arrange orderMap.keys).mapM fun sortId => do
      let key ← expect (orderMap.lookup sortId)
      pure (key, sortId)
    pure ((keyed.insertionSort fun a b => a.1 ≤ b.1).map Prod.snd)

/-- An event whose only auth event cannot be fetched. -/
def danglingAuth : EventId → Option Pdu
  | "$e" => some ⟨"$e", .roomMember, some "@u", "@u", "", ["$x"], 0⟩
  | _ => none

theorem mainlineSort_drops_unfetchable_auth (fuel : Nat) :
    mainlineSort danglingAuth .stored (fuel + 1) ["$e"] none = ok [] :=
  rfl

/-! ### Power-levels chains -/

/-- `aid` can be fetched and is a power-levels event with state key `""`. -/
def isPowerLevelsId (aid : EventId) : Bool :=
  (fetch aid).any fun ev => isTypeAndKey ev .roomPowerLevels ""

/-- `pl(x)`: the first power-levels event among the auth events of `x`. -/
def plParent (x : EventId) : Option EventId :=
  (((fetch x).map Pdu.authEvents).getD []).find? (isPowerLevelsId fetch)

/-- `y` is the power-levels parent of `x`. -/
def PlStep (x y : EventId) : Prop := plParent fetch x = some y

/-- The scan of `x` reads only events that can be fetched: `x`, and its auth events up to its
first power-levels one. -/
def scanFetchable (x : EventId) : Bool :=
  (fetch x).isSome &&
    ((((fetch x).map Pdu.authEvents).getD []).takeWhile fun a => !isPowerLevelsId fetch a).all
      fun a => (fetch a).isSome

/-- `ms` is the chain `p, pl(p), pl(pl(p)), …` to its end. -/
inductive Chain : Option EventId → List EventId → Prop
  | none : Chain none []
  | some {p : EventId} {ms : List EventId} : Chain (plParent fetch p) ms → Chain (some p) (p :: ms)

/-- **The depth of `e`** against the mainline `ms`: the index, in the reversed mainline, of the
first event of the chain of `e` that lies on the mainline; `0` when the chain ends first. -/
inductive DepthIs (ms : List EventId) : EventId → Nat → Prop
  | onMainline {e : EventId} : e ∈ ms → DepthIs ms e (ms.reverse.indexOf e)
  | parent {e p : EventId} {d : Nat} : e ∉ ms → plParent fetch e = some p → DepthIs ms p d → DepthIs ms e d
  | root {e : EventId} : e ∉ ms → plParent fetch e = none → DepthIs ms e 0

/-- The key the result is sorted by, for a depth function. -/
def sortKey (depth : EventId → Nat) (e : EventId) : OrderKey :=
  toLex (depth e, toLex ((fetch e).map Pdu.originServerTs, e))

/-- The events whose scans a run reads: the chains of the tip and of the events to sort. -/
def Reach (P : Option EventId) (toSort : List EventId) (x : EventId) : Prop :=
  ∃ s ∈ P.toList ++ toSort, ReflTransGen (PlStep fetch) s x

variable {fetch}

theorem sortKey_injective (depth : EventId → Nat) : Function.Injective (sortKey fetch depth) :=
  fun a b h => by simpa [sortKey] using congrArg (fun k => (ofLex (ofLex k).2).2) h

/-- The scan over a list whose entries up to the first power-levels event can be fetched returns
that event, as `find?` does. -/
theorem firstPowerLevels_ok : ∀ auths : List EventId,
    (∀ a ∈ auths.takeWhile (fun a => !isPowerLevelsId fetch a), (fetch a).isSome) →
    ∃ r, firstPowerLevels fetch auths = ok r ∧ r.map Prod.fst = auths.find? (isPowerLevelsId fetch) ∧
      ∀ a ev, r = some (a, ev) → fetch a = some ev
  | [], _ => ⟨none, rfl, rfl, by simp⟩
  | aid :: rest, h => by
    cases hf : fetch aid with
    | none =>
      have hid : isPowerLevelsId fetch aid = false := by simp [isPowerLevelsId, hf]
      simpa [hid, hf] using h aid
    | some ev =>
      by_cases hpl : isTypeAndKey ev .roomPowerLevels "" = true
      · have hid : isPowerLevelsId fetch aid = true := by simp [isPowerLevelsId, hf, hpl]
        exact ⟨some (aid, ev), by simp [firstPowerLevels, hf, okOr, hpl], by simp [hid],
          by simp [hf]⟩
      · have hid : isPowerLevelsId fetch aid = false := by simp [isPowerLevelsId, hf, hpl]
        obtain ⟨r, hr, hmap, hev⟩ := firstPowerLevels_ok rest fun a ha => h a (by simp [hid, ha])
        exact ⟨r, by simp [firstPowerLevels, hf, okOr, hpl, hr], by simp [hid, hmap], hev⟩

/-- **The scan of one event**: it can be fetched, and its scan returns its power-levels
parent. -/
theorem scan_ok {x : EventId} (h : scanFetchable fetch x = true) :
    ∃ ev r, fetch x = some ev ∧ firstPowerLevels fetch ev.authEvents = ok r ∧
      r.map Prod.fst = plParent fetch x ∧ ∀ a aev, r = some (a, aev) → fetch a = some aev := by
  unfold scanFetchable at h
  cases hx : fetch x with
  | none => simp [hx] at h
  | some ev =>
    simp only [hx, Option.isSome_some, Option.map_some', Option.getD_some, Bool.true_and,
      List.all_eq_true] at h
    obtain ⟨r, hr, hmap, hev⟩ := firstPowerLevels_ok ev.authEvents h
    exact ⟨ev, r, rfl, hr, by simp [plParent, hx, hmap], hev⟩

/-! ### The mainline -/

/-- The mainline loop from the first event of a chain returns the chain, with fuel for it. -/
theorem mainlineFrom_ok : ∀ (ms : List EventId) (p : EventId) (acc : List EventId) (fuel : Nat),
    Chain fetch (some p) ms → (∀ x ∈ ms, scanFetchable fetch x = true) → ms.length ≤ fuel →
    mainlineFrom fetch p acc fuel = ok (acc ++ ms)
  | [], _, _, _, h, _, _ => nomatch h
  | _ :: _, _, _, 0, _, _, hlen => absurd hlen (by simp)
  | _ :: ms, p, acc, fuel + 1, .some hc, hscan, hlen => by
    obtain ⟨ev, r, hev, hr, hmap, -⟩ := scan_ok (hscan p (List.mem_cons_self _ _))
    rw [← hmap] at hc
    cases r with
    | none => cases hc; simp [mainlineFrom, hev, okOr, hr]
    | some r =>
      have hrest := mainlineFrom_ok ms r.1 (acc ++ [p]) fuel hc
        (fun x hx => hscan x (List.mem_cons_of_mem _ hx)) (by simpa using hlen)
      simp [mainlineFrom, hev, okOr, hr, hrest]

/-- **The mainline**: with fuel for it, the loop returns the chain of the tip. -/
theorem mainlineLoop_ok {p : Option EventId} {ms : List EventId} (hc : Chain fetch p ms)
    (hscan : ∀ x ∈ ms, scanFetchable fetch x = true) {fuel : Nat} (hlen : ms.length ≤ fuel) :
    mainlineLoop fetch p fuel = ok ms := by
  cases p with
  | none => cases hc; rfl
  | some p => exact mainlineFrom_ok ms p [] fuel hc hscan hlen

theorem Chain.unique {p : Option EventId} {ms ms' : List EventId} (h : Chain fetch p ms)
    (h' : Chain fetch p ms') : ms = ms' := by
  induction h generalizing ms' with
  | none => cases h'; rfl
  | some _ ih => cases h' with
    | some h' => rw [ih h']

/-- Every event of the chain of `p` is reached from `p` by power-levels parents. -/
theorem Chain.reach {p : EventId} {ms : List EventId} (h : Chain fetch (.some p) ms) :
    ∀ x ∈ ms, ReflTransGen (PlStep fetch) p x := by
  generalize hp : Option.some p = q at h
  induction h generalizing p with
  | none => cases hp
  | @some q ms' hc ih =>
    injection hp with hp
    subst hp
    intro x hx
    rcases List.mem_cons.mp hx with rfl | hx
    · exact ReflTransGen.refl
    · cases hpl : plParent fetch p with
      | none => rw [hpl] at hc; cases hc; cases hx
      | some q => exact ReflTransGen.head hpl (ih hpl.symm x hx)

section WellFounded

variable (hwf : WellFounded fun y x => PlStep fetch x y)
include hwf

theorem exists_chain : ∀ p : Option EventId, ∃ ms, Chain fetch p ms
  | none => ⟨[], .none⟩
  | some x => hwf.induction x (C := fun x => ∃ ms, Chain fetch (some x) ms) fun x ih => by
    cases h : plParent fetch x with
    | none => exact ⟨[x], .some (h ▸ .none)⟩
    | some y =>
      obtain ⟨ms, hms⟩ := ih y h
      exact ⟨x :: ms, .some (h ▸ hms)⟩

theorem Chain.nodup {p : Option EventId} {ms : List EventId} (h : Chain fetch p ms) : ms.Nodup := by
  induction h with
  | none => exact List.nodup_nil
  | @some p ms hc ih =>
    refine List.nodup_cons.mpr ⟨fun hp => ?_, ih⟩
    cases hpl : plParent fetch p with
    | none => rw [hpl] at hc; cases hc; cases hp
    | some q =>
      rw [hpl] at hc
      have hcyc : TransGen (PlStep fetch) p p := TransGen.head' hpl (hc.reach p hp)
      exact hwf.transGen.isIrrefl.irrefl p (transGen_swap.mpr hcyc)

end WellFounded

/-- A rank that falls along every power-levels step leaves no infinite chain. -/
theorem wellFounded_of_rank (rank : EventId → Nat) (h : ∀ x y, PlStep fetch x y → rank y < rank x) :
    WellFounded fun y x => PlStep fetch x y :=
  Subrelation.wf (fun {y x} hxy => h x y hxy) (measure rank).wf

/-- `mainline_map` holds each event of a mainline without repeats at its index in the reversed
mainline. -/
theorem lookup_foldl_enumFrom : ∀ (l : List EventId) (n : Nat) (m : HMap EventId Nat), l.Nodup →
    ∀ e, ((l.enumFrom n).foldl (fun m p => m.insert p.2 p.1) m).lookup e =
      if e ∈ l then some (n + l.indexOf e) else m.lookup e
  | [], _, _, _, _ => rfl
  | a :: l, n, m, hnd, e => by
    rw [List.enumFrom_cons, List.foldl_cons, lookup_foldl_enumFrom l (n + 1) _ (List.nodup_cons.mp hnd).2]
    by_cases hea : e = a
    · subst hea
      simp [(List.nodup_cons.mp hnd).1, List.indexOf_cons_self]
    · by_cases hel : e ∈ l
      · simp [hel, List.indexOf_cons_ne _ (Ne.symm hea)]; omega
      · simp [hel, hea, AList.lookup_insert_ne hea]

theorem lookup_mainlineMapOf {ms : List EventId} (h : ms.Nodup) (e : EventId) :
    (mainlineMapOf ms).lookup e = if e ∈ ms then some (ms.reverse.indexOf e) else none := by
  unfold mainlineMapOf List.enum
  rw [lookup_foldl_enumFrom _ 0 _ (List.nodup_reverse.mpr h)]
  simp

/-! ### Depths -/

variable {ms : List EventId}

/-- The depth of an event against a mainline is one number. -/
theorem DepthIs.unique {e : EventId} {d d' : Nat} (h : DepthIs fetch ms e d) (h' : DepthIs fetch ms e d') :
    d = d' := by
  induction h generalizing d' with
  | onMainline he => cases h' with
    | onMainline _ => rfl
    | parent he' _ _ => exact absurd he he'
    | root he' _ => exact absurd he he'
  | parent he hp _ ih => cases h' with
    | onMainline he' => exact absurd he' he
    | parent _ hp' hd' =>
      obtain rfl := Option.some.inj (hp.symm.trans hp')
      exact ih hd'
    | root _ hp' => rw [hp] at hp'; cases hp'
  | root he hp => cases h' with
    | onMainline he' => exact absurd he' he
    | parent _ hp' _ => rw [hp] at hp'; cases hp'
    | root _ _ => rfl

/-- **The depth walk**: with fuel for the chain of `e`, it returns the depth `DepthIs` names. -/
theorem getMainlineDepth_ok (hid : ∀ x ev, fetch x = some ev → ev.eventId = x) (hms : ms.Nodup) :
    ∀ (cs : List EventId) (e : EventId), Chain fetch (some e) cs →
      (∀ x ∈ cs, scanFetchable fetch x = true) → ∀ fuel, cs.length ≤ fuel →
      ∃ d, getMainlineDepth fetch (mainlineMapOf ms) (fetch e) fuel = ok d ∧ DepthIs fetch ms e d
  | [], _, h, _, _, _ => nomatch h
  | _ :: _, _, _, _, 0, hlen => absurd hlen (by simp)
  | _ :: cs, e, .some hc, hscan, fuel + 1, hlen => by
    obtain ⟨ev, r, hev, hr, hmap, hrev⟩ := scan_ok (hscan e (List.mem_cons_self _ _))
    have hlook : (mainlineMapOf ms).lookup ev.eventId = if e ∈ ms then some (ms.reverse.indexOf e) else none := by
      rw [hid e ev hev]; exact lookup_mainlineMapOf hms e
    rw [hev]
    simp only [getMainlineDepth, mainlineDepthFrom]
    by_cases hem : e ∈ ms
    · exact ⟨_, by rw [hlook, if_pos hem], .onMainline hem⟩
    · rw [hlook, if_neg hem]
      cases r with
      | none => exact ⟨0, by simp [hr], .root hem hmap.symm⟩
      | some r =>
        obtain ⟨a, aev⟩ := r
        rw [← hmap] at hc
        obtain ⟨d, hd, hdep⟩ := getMainlineDepth_ok hid hms cs a hc
          (fun x hx => hscan x (List.mem_cons_of_mem _ hx)) fuel (by simpa using hlen)
        rw [hrev a aev rfl] at hd
        exact ⟨d, by simpa [hr, getMainlineDepth] using hd, .parent hem hmap.symm hdep⟩

/-! ### The sort -/

variable (fetch) in
/-- The depth `get_mainline_depth` returns for `e`, `0` where it returns no depth. -/
def depthOf (mainlineMap : HMap EventId Nat) (fuel : Nat) (e : EventId) : Nat :=
  match getMainlineDepth fetch mainlineMap (fetch e) fuel with
  | ok d => d
  | _ => 0

theorem orderStep_ok {mainlineMap : HMap EventId Nat} {fuel : Nat} {orderMap : HMap EventId OrderKey}
    {e : EventId} {ev : Pdu} {d : Nat} (hev : fetch e = some ev)
    (hd : getMainlineDepth fetch mainlineMap (fetch e) fuel = ok d) :
    orderStep fetch mainlineMap fuel orderMap e =
      ok (orderMap.insert e (sortKey fetch (depthOf fetch mainlineMap fuel) e)) := by
  rw [hev] at hd
  simp [orderStep, hev, hd, sortKey, depthOf]

theorem mem_of_orderStep {mainlineMap : HMap EventId Nat} {fuel : Nat} {om om' : HMap EventId OrderKey}
    {e x : EventId} (h : orderStep fetch mainlineMap fuel om e = ok om') (hx : x ∈ om') : x = e ∨ x ∈ om := by
  unfold orderStep at h
  split at h
  · cases h; exact Or.inr hx
  · obtain ⟨r, -, h⟩ := bind_eq_ok.mp h
    split at h <;> cases h
    · exact (AList.mem_insert _).mp hx
    · exact Or.inr hx

/-- **A sorted run returns distinct ids of the input.** -/
theorem mainlineSort_sub {H : HashOrder} {fuel : Nat} {toSort : List EventId} {P : Option EventId}
    {l : List EventId} (h : mainlineSort fetch H fuel toSort P = ok l) : l.Nodup ∧ ∀ x ∈ l, x ∈ toSort := by
  unfold mainlineSort at h
  split_ifs at h
  · cases h; simp
  · obtain ⟨mainline, -, h⟩ := bind_eq_ok.mp h
    obtain ⟨om, hom, h⟩ := bind_eq_ok.mp h
    obtain ⟨keyed, hkeyed, h⟩ := bind_eq_ok.mp h
    cases h
    have hsub : ∀ x ∈ om, x ∈ toSort := foldlM_ok_induction (fun om => ∀ x ∈ om, x ∈ toSort) toSort
      (fun _ e _ he hb h x hx => (mem_of_orderStep h hx).elim (· ▸ he) (hb x)) (by simp) hom
    have hids : keyed.map Prod.snd = H.arrange om.keys := map_of_mapM_ok (fun x b hb => by
      obtain ⟨k, -, hb⟩ := bind_eq_ok.mp hb
      cases hb; rfl) hkeyed
    have hperm : ((keyed.insertionSort fun a b => a.1 ≤ b.1).map Prod.snd).Perm om.keys :=
      (((List.perm_insertionSort _ keyed).map Prod.snd).trans (hids ▸ List.Perm.refl _)).trans (H.perm _)
    exact ⟨hperm.nodup_iff.mpr om.keys_nodup, fun x hx => hsub x (AList.mem_keys.mp (hperm.mem_iff.mp hx))⟩

/-- The `order_map` loop over events whose depth walks all return: each event gets its key. -/
theorem foldlM_orderStep_ok {mainlineMap : HMap EventId Nat} {fuel : Nat} {toSort : List EventId}
    (h : ∀ e ∈ toSort, (∃ ev, fetch e = some ev) ∧ ∃ d, getMainlineDepth fetch mainlineMap (fetch e) fuel = ok d) :
    ∃ orderMap, toSort.foldlM (orderStep fetch mainlineMap fuel) ∅ = ok orderMap ∧
      (∀ x, x ∈ orderMap ↔ x ∈ toSort) ∧
      ∀ x ∈ toSort, orderMap.lookup x = some (sortKey fetch (depthOf fetch mainlineMap fuel) x) := by
  obtain ⟨om, hom, hmem, hlook⟩ := foldlM_ok_of_prefix (orderStep fetch mainlineMap fuel) toSort
    (fun pre (om : HMap EventId OrderKey) => (∀ x, x ∈ om ↔ x ∈ pre) ∧
      ∀ x ∈ pre, om.lookup x = some (sortKey fetch (depthOf fetch mainlineMap fuel) x))
    (fun pre e suf om hl ⟨hmem, hlook⟩ => by
      obtain ⟨⟨ev, hev⟩, d, hd⟩ := h e (by simp [hl])
      refine ⟨_, orderStep_ok hev hd, fun x => by simp [AList.mem_insert, hmem, or_comm], fun x hx => ?_⟩
      by_cases hxe : x = e
      · subst hxe; exact AList.lookup_insert _
      · rw [AList.lookup_insert_ne hxe]
        exact hlook x (by simpa [hxe] using hx))
    ∅ ⟨by simp, by simp⟩
  exact ⟨om, hom, hmem, hlook⟩

/-- **The sort, given the mainline**: on distinct events whose chains are all fetchable, with fuel
for each chain, the result is the input sorted strictly by `sortKey`. -/
theorem mainlineSort_ok (hid : ∀ x ev, fetch x = some ev → ev.eventId = x) (H : HashOrder) {fuel : Nat} {P : Option EventId} {toSort : List EventId}
    (hnodup : toSort.Nodup) (hms : Chain fetch P ms) (hmsn : ms.Nodup)
    (hscan : ∀ x, Reach fetch P toSort x → scanFetchable fetch x = true)
    (hfuel : ms.length ≤ fuel ∧ ∀ e ∈ toSort, ∀ cs, Chain fetch (some e) cs → cs.length ≤ fuel)
    (hchains : ∀ e ∈ toSort, ∃ cs, Chain fetch (some e) cs) :
    ∃ l, mainlineSort fetch H fuel toSort P = ok l ∧ l.Perm toSort ∧
      (∀ e ∈ toSort, DepthIs fetch ms e (depthOf fetch (mainlineMapOf ms) fuel e)) ∧
      l.Sorted fun a b => sortKey fetch (depthOf fetch (mainlineMapOf ms) fuel) a <
        sortKey fetch (depthOf fetch (mainlineMapOf ms) fuel) b := by
  set K := sortKey fetch (depthOf fetch (mainlineMapOf ms) fuel)
  have hloop : mainlineLoop fetch P fuel = ok ms := by
    refine mainlineLoop_ok hms (fun x hx => ?_) hfuel.1
    cases P with
    | none => cases hms; cases hx
    | some p => exact hscan x ⟨p, by simp, hms.reach x hx⟩
  have hdepth : ∀ e ∈ toSort, (∃ ev, fetch e = some ev) ∧
      ∃ d, getMainlineDepth fetch (mainlineMapOf ms) (fetch e) fuel = ok d ∧ DepthIs fetch ms e d :=
    fun e he => by
    obtain ⟨cs, hcs⟩ := hchains e he
    have hsc : ∀ x ∈ cs, scanFetchable fetch x = true := fun x hx =>
      hscan x ⟨e, by simp [he], hcs.reach x hx⟩
    have hecs : e ∈ cs := by cases hcs; exact List.mem_cons_self _ _
    obtain ⟨ev, -, hev, -⟩ := scan_ok (hsc e hecs)
    exact ⟨⟨ev, hev⟩, getMainlineDepth_ok hid hmsn cs e hcs hsc fuel (hfuel.2 e he cs hcs)⟩
  obtain ⟨om, hom, hmem, hlook⟩ :=
    foldlM_orderStep_ok fun e he => (hdepth e he).imp_right fun ⟨d, hd, _⟩ => ⟨d, hd⟩
  set ids := H.arrange om.keys
  have hkeyed : ids.mapM (fun sortId => do
      let key ← expect (om.lookup sortId)
      pure (key, sortId)) = ok (ids.map fun x => (K x, x)) :=
    mapM_ok fun x hx => by
      have hx' : x ∈ toSort := (hmem x).mp (AList.mem_keys.mp ((H.mem_arrange).mp hx))
      simp [hlook x hx', expect, K]
  have hsort : ((ids.map fun x => (K x, x)).insertionSort fun a b => a.1 ≤ b.1).map Prod.snd =
      ids.insertionSort fun a b => K a ≤ K b := by
    rw [← List.map_insertionSort (fun a b : EventId => K a ≤ K b) (fun p q : OrderKey × EventId => p.1 ≤ q.1)
      (fun x => (K x, x)) ids fun a _ b _ => Iff.rfl, List.map_map]
    exact List.map_id _
  have hperm : (ids.insertionSort fun a b => K a ≤ K b).Perm toSort :=
    (List.perm_insertionSort _ ids).trans ((H.perm _).trans
      ((List.perm_ext_iff_of_nodup om.keys_nodup hnodup).mpr fun x => AList.mem_keys.trans (hmem x)))
  haveI : IsTotal EventId fun a b => K a ≤ K b := ⟨fun a b => le_total (K a) (K b)⟩
  haveI : IsTrans EventId fun a b => K a ≤ K b := ⟨fun _ _ _ => le_trans⟩
  refine ⟨_, ?_, hperm, fun e he => (hdepth e he).2.elim fun d ⟨hd, hdep⟩ => by simpa [depthOf, hd] using hdep,
    ((List.sorted_insertionSort _ ids).and (hperm.nodup_iff.mpr hnodup)).imp
      fun ⟨hle, hne⟩ => lt_of_le_of_ne hle fun h => hne (sortKey_injective _ h)⟩
  unfold mainlineSort
  split_ifs with hemp
  · rw [List.isEmpty_iff.mp hemp, List.perm_nil] at hperm
    rw [hperm]
  · simp only [hloop, hom, ok_bind]
    rw [hkeyed]
    simp only [ok_bind, pure_eq, hsort]


/-- One fuel bound covers the chains of all events of a list. -/
theorem exists_fuel_bound (hwf : WellFounded fun y x => PlStep fetch x y) :
    ∀ l : List EventId, ∃ N, ∀ e ∈ l, ∀ cs, Chain fetch (some e) cs → cs.length ≤ N
  | [] => ⟨0, by simp⟩
  | e :: l => by
    obtain ⟨cs₀, hcs₀⟩ := exists_chain hwf (some e)
    obtain ⟨N, hN⟩ := exists_fuel_bound hwf l
    refine ⟨max cs₀.length N, fun e' he' cs hcs => ?_⟩
    rcases List.mem_cons.mp he' with rfl | he'
    · rw [hcs.unique hcs₀]; exact le_max_left _ _
    · exact (hN e' he' cs hcs).trans (le_max_right _ _)

theorem mainlineSort_spec (H : HashOrder) (toSort : List EventId) (P : Option EventId)
    (hid : ∀ x ev, fetch x = some ev → ev.eventId = x) (hnodup : toSort.Nodup) (hwf : WellFounded fun y x => PlStep fetch x y)
    (hscan : ∀ x, Reach fetch P toSort x → scanFetchable fetch x = true) :
    ∃ ms N, Chain fetch P ms ∧ ∀ fuel, N ≤ fuel → ∃ l, mainlineSort fetch H fuel toSort P = ok l ∧
      l.Perm toSort ∧
      (∃ depth : EventId → Nat, (∀ e ∈ toSort, DepthIs fetch ms e (depth e)) ∧
        l.Sorted fun a b => sortKey fetch depth a < sortKey fetch depth b) ∧
      ∀ (H' : HashOrder) (toSort' : List EventId), toSort'.Perm toSort →
        mainlineSort fetch H' fuel toSort' P = ok l := by
  obtain ⟨ms, hms⟩ := exists_chain hwf P
  have hmsn := Chain.nodup hwf hms
  obtain ⟨N, hN⟩ := exists_fuel_bound hwf toSort
  refine ⟨ms, max ms.length N, hms, fun fuel hfuel => ?_⟩
  have hfuel' : ∀ e ∈ toSort, ∀ cs, Chain fetch (some e) cs → cs.length ≤ fuel :=
    fun e he cs hcs => (hN e he cs hcs).trans ((le_max_right _ _).trans hfuel)
  have hchains : ∀ e ∈ toSort, ∃ cs, Chain fetch (some e) cs := fun e _ => exists_chain hwf (some e)
  obtain ⟨l, hl, hperm, hdepth, hsorted⟩ := mainlineSort_ok hid H hnodup hms hmsn hscan
    ⟨(le_max_left _ _).trans hfuel, hfuel'⟩ hchains
  refine ⟨l, hl, hperm, ⟨_, hdepth, hsorted⟩, fun H' toSort' hp => ?_⟩
  have hmem : ∀ x, x ∈ toSort' ↔ x ∈ toSort := fun x => hp.mem_iff
  obtain ⟨l', hl', hperm', -, hsorted'⟩ := mainlineSort_ok hid H' (hp.nodup_iff.mpr hnodup) hms hmsn
    (fun x ⟨s, hs, hsx⟩ => hscan x ⟨s, by simpa [hmem] using hs, hsx⟩)
    ⟨(le_max_left _ _).trans hfuel, fun e he => hfuel' e ((hmem e).mp he)⟩
    (fun e he => hchains e ((hmem e).mp he))
  haveI : IsAntisymm EventId fun a b => sortKey fetch (depthOf fetch (mainlineMapOf ms) fuel) a <
      sortKey fetch (depthOf fetch (mainlineMapOf ms) fuel) b :=
    ⟨fun _ _ h₁ h₂ => absurd (h₁.trans h₂) (lt_irrefl _)⟩
  rw [hl', List.eq_of_perm_of_sorted ((hperm'.trans hp).trans hperm.symm) hsorted' hsorted]

/-- The mainline `$p1 ← $p2` of the tip `$p2`, and two member events: `$a` under `$p2`, and
`$b`, later and with a larger id, under `$p1`. -/
def twoDepths : EventId → Option Pdu
  | "$p1" => some ⟨"$p1", .roomPowerLevels, some "", "@u", "", [], 0⟩
  | "$p2" => some ⟨"$p2", .roomPowerLevels, some "", "@u", "", ["$p1"], 1⟩
  | "$a" => some ⟨"$a", .roomMember, some "@a", "@a", "", ["$p2"], 2⟩
  | "$b" => some ⟨"$b", .roomMember, some "@b", "@b", "", ["$p1"], 3⟩
  | _ => none

/-- The power-levels steps of `twoDepths`. -/
theorem plStep_twoDepths {x y : EventId} (h : PlStep twoDepths x y) :
    x = "$p2" ∧ y = "$p1" ∨ x = "$a" ∧ y = "$p2" ∨ x = "$b" ∧ y = "$p1" := by
  unfold PlStep plParent twoDepths at h
  split at h <;> simp [isPowerLevelsId, twoDepths, isTypeAndKey] at h <;> simp [h]

theorem mainlineSort_spec_twoDepths :
    (∀ x ev, twoDepths x = some ev → ev.eventId = x) ∧ (["$a", "$b"] : List EventId).Nodup ∧
      (WellFounded fun y x => PlStep twoDepths x y) ∧
      (∀ x, Reach twoDepths (some "$p2") ["$a", "$b"] x → scanFetchable twoDepths x = true) ∧
      ∃ N, ∀ fuel, N ≤ fuel → mainlineSort twoDepths .stored fuel ["$a", "$b"] (some "$p2") = ok ["$b", "$a"] := by
  have hid : ∀ x ev, twoDepths x = some ev → ev.eventId = x := fun x ev h => by
    unfold twoDepths at h
    split at h <;> cases h <;> rfl
  have hwf : WellFounded fun y x => PlStep twoDepths x y :=
    wellFounded_of_rank (fun x => if x = "$p1" then 0 else if x = "$p2" then 1 else 2) fun x y h => by
      rcases plStep_twoDepths h with ⟨rfl, rfl⟩ | ⟨rfl, rfl⟩ | ⟨rfl, rfl⟩ <;> decide
  have hscan : ∀ x, Reach twoDepths (some "$p2") ["$a", "$b"] x → scanFetchable twoDepths x = true := by
    rintro x ⟨s, hs, hsx⟩
    have hx : x = "$p2" ∨ x = "$a" ∨ x = "$b" ∨ x = "$p1" := by
      induction hsx with
      | refl =>
        simp only [Option.toList_some, List.singleton_append, List.mem_cons, List.mem_singleton,
          List.not_mem_nil, or_false] at hs
        rcases hs with rfl | rfl | rfl <;> simp
      | tail _ hyz _ => rcases plStep_twoDepths hyz with ⟨-, rfl⟩ | ⟨-, rfl⟩ | ⟨-, rfl⟩ <;> simp
    rcases hx with rfl | rfl | rfl | rfl <;> rfl
  have hnodup : (["$a", "$b"] : List EventId).Nodup := by decide
  obtain ⟨ms, N, hms, hrun⟩ := mainlineSort_spec .stored ["$a", "$b"] (some "$p2") hid hnodup hwf hscan
  obtain rfl : ms = ["$p2", "$p1"] := hms.unique (.some (.some .none))
  refine ⟨hid, hnodup, hwf, hscan, N, fun fuel hN => ?_⟩
  obtain ⟨l, hl, hperm, ⟨depth, hdepth, hsorted⟩, -⟩ := hrun fuel hN
  have ha : depth "$a" = 1 :=
    (hdepth "$a" (by simp)).unique (.parent (by decide) rfl (.onMainline (by decide)))
  have hb : depth "$b" = 0 :=
    (hdepth "$b" (by simp)).unique (.parent (by decide) rfl (.onMainline (by decide)))
  have hlt : sortKey twoDepths depth "$b" < sortKey twoDepths depth "$a" := by
    simp only [sortKey, ha, hb]
    exact (Prod.Lex.lt_iff _ _).mpr (Or.inl Nat.zero_lt_one)
  haveI : IsAntisymm EventId fun a b => sortKey twoDepths depth a < sortKey twoDepths depth b :=
    ⟨fun _ _ h₁ h₂ => absurd (h₁.trans h₂) (lt_irrefl _)⟩
  rw [hl, List.eq_of_perm_of_sorted (hperm.trans (List.Perm.swap "$b" "$a" [])) hsorted
    (List.sorted_cons.mpr ⟨by simpa using hlt, List.sorted_singleton _⟩)]

/-- A member event `$e` whose power-levels parent is the tip `$p`. -/
def memberUnderTip : EventId → Option Pdu
  | "$p" => some ⟨"$p", .roomPowerLevels, some "", "@u", "", [], 0⟩
  | "$e" => some ⟨"$e", .roomMember, some "@u", "@u", "", ["$p"], 1⟩
  | _ => none

/-- In `memberUnderTip` the one power-levels step is from `$e` to `$p`. -/
theorem plStep_memberUnderTip {x y : EventId} (h : PlStep memberUnderTip x y) : x = "$e" ∧ y = "$p" := by
  unfold PlStep plParent memberUnderTip at h
  split at h
  · simp at h
  · simp [isPowerLevelsId, memberUnderTip, isTypeAndKey] at h
    exact ⟨rfl, h.symm⟩
  · simp at h

theorem memberUnderTip_mem_store (x : EventId) (ev : Pdu) (h : memberUnderTip x = some ev) :
    x ∈ ["$p", "$e"] := by
  unfold memberUnderTip at h
  split at h <;> simp_all

theorem memberUnderTip_acyclic (x : EventId) : ¬ TransGen (PlStep memberUnderTip) x x := fun hx => by
  obtain ⟨b, hxb, -⟩ := TransGen.head'_iff.mp hx
  obtain ⟨c, -, hcx⟩ := TransGen.tail'_iff.mp hx
  exact absurd ((plStep_memberUnderTip hxb).1.symm.trans (plStep_memberUnderTip hcx).2) (by decide)

/-- A tip whose only auth event cannot be fetched. -/
def tipWithMissingAuth : EventId → Option Pdu
  | "$p" => some ⟨"$p", .roomPowerLevels, some "", "@u", "", ["$x"], 0⟩
  | "$e" => some ⟨"$e", .roomMember, some "@u", "@u", "", [], 1⟩
  | _ => none

/-- A power-levels tip that cites itself. -/
def selfCitedTip : EventId → Option Pdu
  | "$p" => some ⟨"$p", .roomPowerLevels, some "", "@u", "", ["$p"], 0⟩
  | "$e" => some ⟨"$e", .roomMember, some "@u", "@u", "", [], 1⟩
  | _ => none

/-- The mainline `$p1 ← $p2` of the tip `$p2`, a member event `$b`, and a store that serves the
event of `$p2` under the id `$a` too. -/
def aliasedTip : EventId → Option Pdu
  | "$p1" => some ⟨"$p1", .roomPowerLevels, some "", "@u", "", [], 0⟩
  | "$p2" => some ⟨"$p2", .roomPowerLevels, some "", "@u", "", ["$p1"], 1⟩
  | "$a" => some ⟨"$p2", .roomPowerLevels, some "", "@u", "", ["$p1"], 1⟩
  | "$b" => some ⟨"$b", .roomMember, some "@b", "@b", "", [], 2⟩
  | _ => none

theorem mainlineSort_tip_failures :
    (∀ fuel, mainlineSort tipWithMissingAuth .stored (fuel + 1) ["$e"] (some "$p") =
      err (.notFound "Failed to find $x")) ∧
      (∀ fuel, mainlineSort selfCitedTip .stored fuel ["$e"] (some "$p") = diverge) ∧
      (∀ fuel, mainlineSort aliasedTip .stored (fuel + 2) ["$a", "$b"] (some "$p2") = ok ["$b", "$a"]) ∧
      Chain aliasedTip (some "$p2") ["$p2", "$p1"] ∧ DepthIs aliasedTip ["$p2", "$p1"] "$a" 0 ∧
      DepthIs aliasedTip ["$p2", "$p1"] "$b" 0 ∧
      sortKey aliasedTip (fun _ => 0) "$a" < sortKey aliasedTip (fun _ => 0) "$b" := by
  have hloop : ∀ fuel acc, mainlineFrom selfCitedTip "$p" acc fuel = diverge := by
    intro fuel
    induction fuel with
    | zero => intro acc; rfl
    | succ n ih => intro acc; exact ih _
  refine ⟨fun fuel => rfl, fun fuel => ?_, fun fuel => rfl, .some (.some .none),
    .parent (by decide) rfl (.onMainline (by decide)), .root (by decide) rfl, by decide⟩
  show (mainlineFrom selfCitedTip "$p" [] fuel >>= _) = diverge
  rw [hloop]
  rfl

/-! ### Two runs -/

/-- Two runs of the mainline loop from one event that both end, whatever their fuel, end alike. -/
theorem mainlineFrom_eq_of_ne_diverge : ∀ (fuel fuel' : Nat) {p : EventId} {acc : List EventId},
    mainlineFrom fetch p acc fuel ≠ diverge → mainlineFrom fetch p acc fuel' ≠ diverge →
      mainlineFrom fetch p acc fuel = mainlineFrom fetch p acc fuel'
  | 0, _, _, _, h, _ => absurd rfl h
  | _ + 1, 0, _, _, _, h' => absurd rfl h'
  | fuel + 1, fuel' + 1, p, acc, h, h' => by
    revert h h'
    simp only [mainlineFrom]
    cases fetch p with
    | none => intro _ _; rfl
    | some ev =>
      simp only [okOr, ok_bind]
      cases firstPowerLevels fetch ev.authEvents with
      | ok r =>
        rcases r with _ | ⟨aid, aev⟩
        · intro _ _; rfl
        · exact mainlineFrom_eq_of_ne_diverge fuel fuel'
      | err e => intro _ _; rfl
      | panic => intro _ _; rfl
      | diverge => intro _ _; rfl

/-- Two runs of the depth walk from one event that both end, whatever their fuel, end alike. -/
theorem mainlineDepthFrom_eq_of_ne_diverge {mainlineMap : HMap EventId Nat} : ∀ (fuel fuel' : Nat) {ev : Pdu},
    mainlineDepthFrom fetch mainlineMap ev fuel ≠ diverge → mainlineDepthFrom fetch mainlineMap ev fuel' ≠ diverge →
      mainlineDepthFrom fetch mainlineMap ev fuel = mainlineDepthFrom fetch mainlineMap ev fuel'
  | 0, _, _, h, _ => absurd rfl h
  | _ + 1, 0, _, _, h' => absurd rfl h'
  | fuel + 1, fuel' + 1, ev, h, h' => by
    revert h h'
    simp only [mainlineDepthFrom]
    cases mainlineMap.lookup ev.eventId with
    | some d => intro _ _; rfl
    | none =>
      dsimp only
      cases firstPowerLevels fetch ev.authEvents with
      | ok r =>
        rcases r with _ | ⟨aid, aev⟩
        · intro _ _; rfl
        · exact mainlineDepthFrom_eq_of_ne_diverge fuel fuel'
      | err e => intro _ _; rfl
      | panic => intro _ _; rfl
      | diverge => intro _ _; rfl

/-- Two runs of the mainline loop from one tip that both end, whatever their fuel, end alike. -/
theorem mainlineLoop_eq_of_ne_diverge {P : Option EventId} {fuel fuel' : Nat}
    (h : mainlineLoop fetch P fuel ≠ diverge) (h' : mainlineLoop fetch P fuel' ≠ diverge) :
    mainlineLoop fetch P fuel = mainlineLoop fetch P fuel' := by
  cases P with
  | none => rfl
  | some p => exact mainlineFrom_eq_of_ne_diverge fuel fuel' h h'

/-- A step of the `order_map` loop never ends with an `Error`: an event whose depth walk fails
gets no entry. -/
theorem orderStep_ne_err {mainlineMap : HMap EventId Nat} {fuel : Nat} {om : HMap EventId OrderKey}
    {x : EventId} {e : Error} (h : orderStep fetch mainlineMap fuel om x = err e) : False := by
  unfold orderStep at h
  cases hf : fetch x with
  | none => rw [hf] at h; cases h
  | some ev =>
    rw [hf] at h
    refine bind_err (E := fun _ => False) (fun e h => result_ne_err _ e h) (fun r _ e h => ?_) e h
    cases r <;> cases h

/-- **The mainline sort fails only in its mainline loop**: the `order_map` loop drops the events it
cannot key, and every id the sort reads a key of has one. -/
theorem mainlineSort_err {H : HashOrder} {fuel : Nat} {toSort : List EventId} {P : Option EventId}
    {e : Error} (h : mainlineSort fetch H fuel toSort P = err e) :
    toSort ≠ [] ∧ mainlineLoop fetch P fuel = err e := by
  unfold mainlineSort at h
  split_ifs at h with hempty
  refine ⟨fun h₀ => hempty (by simp [h₀]), bind_err (fun _ h => h) (fun ms _ => ?_) e h⟩
  refine bind_err (fun e h => (foldlM_err (E := fun _ => False) (fun _ _ _ _ h => orderStep_ne_err h) _ e h).elim)
    fun om _ => bind_err (fun e h => (mapM_err (E := fun _ => False) (fun _ _ e h => ?_) e h).elim)
      fun _ _ _ h => by cases h
  exact bind_err (fun e h => expect_ne_err _ e h) (fun _ _ _ h => by cases h) e h

variable (fetch) in
/-- The entry `order_map` gets for `x`: its key, when `x` can be fetched and its depth walk returns
a depth. -/
def orderEntry (mainlineMap : HMap EventId Nat) (fuel : Nat) (x : EventId) : Option OrderKey :=
  match fetch x with
  | some ev =>
    match getMainlineDepth fetch mainlineMap (some ev) fuel with
    | ok depth => some (toLex (depth, toLex (some ev.originServerTs, x)))
    | _ => none
  | none => none

/-- An entry ends with the id it is the entry of. -/
theorem orderEntry_eq_some {mainlineMap : HMap EventId Nat} {fuel : Nat} {x : EventId} {v : OrderKey}
    (h : orderEntry fetch mainlineMap fuel x = some v) : (ofLex (ofLex v).2).2 = x := by
  unfold orderEntry at h
  split at h
  · split at h
    · cases h; rfl
    · cases h
  · cases h

/-- One step of the `order_map` loop sets the entry of its id, when it has one, and no other; its
depth walk ends. -/
theorem orderStep_eq_ok {mainlineMap : HMap EventId Nat} {fuel : Nat} {om om' : HMap EventId OrderKey}
    {e : EventId} (h : orderStep fetch mainlineMap fuel om e = ok om') :
    (∀ ev, fetch e = some ev → getMainlineDepth fetch mainlineMap (some ev) fuel ≠ diverge) ∧
      ∀ x, om'.lookup x = if x = e then (orderEntry fetch mainlineMap fuel e).or (om.lookup x) else om.lookup x := by
  unfold orderStep at h
  unfold orderEntry
  cases hf : fetch e with
  | none =>
    rw [hf] at h
    cases h
    refine ⟨nofun, fun x => ?_⟩
    split_ifs <;> rfl
  | some ev =>
    simp only [hf] at h ⊢
    cases hd : getMainlineDepth fetch mainlineMap (some ev) fuel with
    | ok d =>
      simp only [hd, result_ok, ok_bind, pure_eq, ok.injEq, Option.map_some'] at h
      subst h
      refine ⟨fun _ hev => by cases hev; simp [hd], fun x => ?_⟩
      split_ifs with hx
      · subst hx; simp
      · exact AList.lookup_insert_ne hx
    | err err =>
      simp only [hd, Outcome.result, ok_bind, pure_eq, ok.injEq] at h
      subst h
      refine ⟨fun _ hev => by cases hev; simp [hd], fun x => ?_⟩
      split_ifs <;> simp
    | panic => simp [hd, Outcome.result] at h
    | diverge => simp [hd, Outcome.result] at h

/-- **The `order_map` loop**: every id of the input has its entry, when it has one, and the depth
walk of every fetchable id ends. -/
theorem lookup_foldlM_orderStep {mainlineMap : HMap EventId Nat} {fuel : Nat} :
    ∀ {toSort : List EventId} {om₀ om : HMap EventId OrderKey},
      toSort.foldlM (orderStep fetch mainlineMap fuel) om₀ = ok om →
      (∀ x ∈ toSort, ∀ ev, fetch x = some ev → getMainlineDepth fetch mainlineMap (some ev) fuel ≠ diverge) ∧
        ∀ x, om.lookup x =
          if x ∈ toSort then (orderEntry fetch mainlineMap fuel x).or (om₀.lookup x) else om₀.lookup x
  | [], _, _, h => by cases h; exact ⟨by simp, fun _ => rfl⟩
  | e :: l, om₀, om, h => by
    obtain ⟨om₁, h₁, h⟩ := bind_eq_ok.mp h
    obtain ⟨hd₁, hl₁⟩ := orderStep_eq_ok h₁
    obtain ⟨hd, hl⟩ := lookup_foldlM_orderStep h
    refine ⟨List.forall_mem_cons.mpr ⟨hd₁, hd⟩, fun x => ?_⟩
    rw [hl, hl₁]
    by_cases hxe : x = e
    · subst hxe
      by_cases hxl : x ∈ l <;> simp [hxl, ← Option.or_assoc]
    · by_cases hxl : x ∈ l <;> simp [hxl, hxe]

/-- **A sorted run**, past its early return, is the ids of `order_map` in strictly ascending order
of their entries. -/
theorem mainlineSort_eq_ok {H : HashOrder} {fuel : Nat} {toSort : List EventId} {P : Option EventId}
    {l : List EventId} (h : mainlineSort fetch H fuel toSort P = ok l) (hne : toSort ≠ []) :
    ∃ (ms : List EventId) (om : HMap EventId OrderKey) (ps : List (OrderKey × EventId)),
      mainlineLoop fetch P fuel = ok ms ∧
      toSort.foldlM (orderStep fetch (mainlineMapOf ms) fuel) ∅ = ok om ∧ l = ps.map Prod.snd ∧
      ps.Sorted (fun a b => a.1 < b.1) ∧ ∀ p, p ∈ ps ↔ om.lookup p.2 = some p.1 := by
  unfold mainlineSort at h
  rw [if_neg (by simpa using hne)] at h
  obtain ⟨ms, hms, h⟩ := bind_eq_ok.mp h
  obtain ⟨om, hom, h⟩ := bind_eq_ok.mp h
  obtain ⟨keyed, hkeyed, h⟩ := bind_eq_ok.mp h
  cases h
  have hval : ∀ x v, om.lookup x = some v → (ofLex (ofLex v).2).2 = x := fun x v hv => by
    rw [(lookup_foldlM_orderStep hom).2 x] at hv
    split_ifs at hv
    · exact orderEntry_eq_some (by simpa using hv)
    · cases hv
  have hids : keyed.map Prod.snd = H.arrange om.keys := map_of_mapM_ok (fun x b hb => by
    obtain ⟨k, -, hb⟩ := bind_eq_ok.mp hb
    cases hb; rfl) hkeyed
  have hlook : ∀ p ∈ keyed, om.lookup p.2 = some p.1 := forall_mem_of_mapM_ok (fun x b hb => by
    obtain ⟨k, hk, hb⟩ := bind_eq_ok.mp hb
    cases hb
    exact expect_eq_ok.mp hk) hkeyed
  have hnd : keyed.Nodup := List.Nodup.of_map Prod.snd (hids ▸ H.nodup_arrange om.keys_nodup)
  have hmem : ∀ p, p ∈ keyed ↔ om.lookup p.2 = some p.1 := fun p => ⟨hlook p, fun hp => by
    have hx : p.2 ∈ keyed.map Prod.snd := by
      rw [hids, HashOrder.mem_arrange]
      exact AList.mem_keys.mpr (AList.lookup_isSome.mp (by simp [hp]))
    obtain ⟨q, hq, hqp⟩ := List.mem_map.mp hx
    have hq1 : q.1 = p.1 := Option.some.inj ((hlook q hq).symm.trans (hqp ▸ hp))
    exact (Prod.ext hq1 hqp) ▸ hq⟩
  haveI : IsTotal (OrderKey × EventId) fun a b => a.1 ≤ b.1 := ⟨fun a b => le_total a.1 b.1⟩
  haveI : IsTrans (OrderKey × EventId) fun a b => a.1 ≤ b.1 := ⟨fun _ _ _ => le_trans⟩
  have hperm := List.perm_insertionSort (fun a b : OrderKey × EventId => a.1 ≤ b.1) keyed
  have hps : ∀ p, p ∈ keyed.insertionSort (fun a b => a.1 ≤ b.1) ↔ om.lookup p.2 = some p.1 := fun p =>
    hperm.mem_iff.trans (hmem p)
  refine ⟨ms, om, _, hms, hom, rfl, List.Pairwise.imp_of_mem (fun {a b} ha hb ⟨hle, hne⟩ =>
    lt_of_le_of_ne hle fun h1 => hne (Prod.ext h1 ?_))
    ((List.sorted_insertionSort _ keyed).and (hperm.nodup_iff.mpr hnd)), hps⟩
  rw [← hval a.2 a.1 ((hps a).mp ha), ← hval b.2 b.1 ((hps b).mp hb), h1]

/-- **Two sorted runs agree** on inputs with the same ids, from one power-levels tip, whatever the
hash orders, the order and repeats of the inputs, and the fuel of each. -/
theorem mainlineSort_congr {H H' : HashOrder} {fuel fuel' : Nat} {toSort toSort' : List EventId}
    {P : Option EventId} {l l' : List EventId} (hmem : ∀ x, x ∈ toSort ↔ x ∈ toSort')
    (h : mainlineSort fetch H fuel toSort P = ok l) (h' : mainlineSort fetch H' fuel' toSort' P = ok l') :
    l = l' := by
  have hnil : toSort = [] ↔ toSort' = [] := by
    simp only [List.eq_nil_iff_forall_not_mem, hmem]
  by_cases hne : toSort = []
  · obtain rfl := hne
    obtain rfl := hnil.mp rfl
    cases h; cases h'; rfl
  obtain ⟨ms, om, ps, hms, hom, rfl, hsorted, hps⟩ := mainlineSort_eq_ok h hne
  obtain ⟨ms', om', ps', hms', hom', rfl, hsorted', hps'⟩ := mainlineSort_eq_ok h' (mt hnil.mpr hne)
  obtain rfl : ms = ms' := ok.inj (hms.symm.trans
    ((mainlineLoop_eq_of_ne_diverge (by rw [hms]; nofun) (by rw [hms']; nofun)).trans hms'))
  obtain ⟨hd, hlook⟩ := lookup_foldlM_orderStep hom
  obtain ⟨hd', hlook'⟩ := lookup_foldlM_orderStep hom'
  have hentry : ∀ x ∈ toSort, orderEntry fetch (mainlineMapOf ms) fuel x =
      orderEntry fetch (mainlineMapOf ms) fuel' x := fun x hx => by
    unfold orderEntry
    cases hf : fetch x with
    | none => rfl
    | some ev =>
      have hdepth : getMainlineDepth fetch (mainlineMapOf ms) (some ev) fuel =
          getMainlineDepth fetch (mainlineMapOf ms) (some ev) fuel' :=
        mainlineDepthFrom_eq_of_ne_diverge fuel fuel' (hd x hx ev hf) (hd' x ((hmem x).mp hx) ev hf)
      simp only [hdepth]
  have hsame : ∀ p, p ∈ ps ↔ p ∈ ps' := fun p => by
    rw [hps, hps', hlook, hlook']
    by_cases hx : p.2 ∈ toSort
    · rw [if_pos hx, if_pos ((hmem _).mp hx), hentry p.2 hx]
    · rw [if_neg hx, if_neg (mt (hmem _).mpr hx)]
  haveI : IsIrrefl (OrderKey × EventId) fun a b => a.1 < b.1 := ⟨fun a => lt_irrefl a.1⟩
  haveI : IsAntisymm (OrderKey × EventId) fun a b => a.1 < b.1 :=
    ⟨fun a b hab hba => absurd (hab.trans hba) (lt_irrefl _)⟩
  rw [List.eq_of_perm_of_sorted ((List.perm_ext_iff_of_nodup hsorted.nodup hsorted'.nodup).mpr hsame)
    hsorted hsorted']

end RumaStateRes.Mainline
