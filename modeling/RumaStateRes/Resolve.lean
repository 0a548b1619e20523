import RumaStateRes.AuthCheck
import RumaStateRes.Mainline
import RumaStateRes.PowerSort
import RumaStateRes.Separate

/-! # State resolution

`resolve` splits the state sets into unconflicted and conflicted state (`separate`) and returns the
unconflicted state at once when nothing conflicts. Otherwise it builds the full conflicted set (the
auth chain difference and the conflicted ids, keeping those `event_exists` holds of), sorts its
control events (`reverse_topological_power_sort`) and auth-checks them from the unconflicted state,
then sorts the remaining events along the mainline of the resolved power-levels event and
auth-checks them from there. The unconflicted state is put back over the result last.

* `resolveConflicted_ok`: the control events are sorted by the power sort, the other ids along the
  mainline of the power-levels event the control pass leaves; the two lists are distinct ids of
  the full conflicted set, and the result is the fold of `recordIfAccepted` over the first and then
  the second, from the unconflicted state, with the unconflicted state put back over it;
* `resolve_spec`: the same, read against the state sets: the conflicted keys and the full
  conflicted set are those the state sets give, unconflicted entries are kept, and every other
  entry is the one the fold leaves, an id of the full conflicted set accepted at its turn under
  its own type and state key; no id is checked twice;
* `resolve_of_forall_eq`: state sets that all hold one map resolve to it, whatever the other
  inputs;
* `resolve_thirdParty_order`: two hash orders of one input resolve to different states. -/

namespace RumaStateRes.Resolve

open RumaStateRes.Core.Result RumaStateRes.Core.Collections RumaStateRes.Core.Event
open RumaStateRes.Separate RumaStateRes.AuthCheck RumaStateRes.PowerSort RumaStateRes.Mainline
open RumaStateRes.TopoSort.Model RumaStateRes.TopoSort.Reference
open Outcome

variable (co : Collaborators) (H : HashOrder) (fetch : EventId → Option Pdu)

/-! ### The model -/

/-- `all_conflicted`: the auth chain difference and the conflicted ids, keeping those
`event_exists` holds of. -/
def fullConflictedSet (authChainSets : List (HSet EventId)) (conflicting : StateMap (List EventId))
    (eventExists : EventId → Bool) : HSet EventId :=
  HSet.ofList ((getAuthChainDiff H authChainSets ++ (H.arrange conflicting.entries).flatMap (·.2)).filter
    eventExists)

/-- `resolve` after the early return: the control pass and the mainline pass. -/
def resolveConflicted (fuel : Nat) (roomVersion : RoomVersionId) (authChainSets : List (HSet EventId))
    (eventExists : EventId → Bool) (clean : StateMap EventId) (conflicting : StateMap (List EventId)) :
    Outcome (StateMap EventId) := do
  let allConflicted := fullConflictedSet H authChainSets conflicting eventExists
  let controlEvents := (H.arrange allConflicted.elems).filter (isPowerEventId co fetch)
  let sortedControlLevels ← reverseTopologicalPowerSort co H fetch fuel controlEvents allConflicted
  let roomVersion ← ofExcept (co.roomVersionNew roomVersion)
  let resolvedControl ← iterativeAuthCheck co H fetch roomVersion sortedControlLevels clean
  let dedupedPowerEv := HSet.ofList sortedControlLevels
  let eventsToResolve := (H.arrange allConflicted.elems).filter fun id => id ∉ dedupedPowerEv
  let powerEvent := resolvedControl.lookup (.roomPowerLevels, "")
  let sortedLeftEvents ← mainlineSort fetch H fuel eventsToResolve powerEvent
  let resolvedState ← iterativeAuthCheck co H fetch roomVersion sortedLeftEvents resolvedControl
  pure (HMap.extend H resolvedState clean)

/-- **`resolve`**. -/
def resolve (fuel : Nat) (roomVersion : RoomVersionId) (stateSets : List (StateMap EventId))
    (authChainSets : List (HSet EventId)) (eventExists : EventId → Bool) : Outcome (StateMap EventId) := do
  let (clean, conflicting) ← separate H stateSets
  if conflicting.entries.isEmpty then pure clean
  else resolveConflicted co H fetch fuel roomVersion authChainSets eventExists clean conflicting

/-! ### The full conflicted set -/

variable {H}

theorem mem_fullConflictedSet {authChainSets : List (HSet EventId)} {C : StateMap (List EventId)}
    {eventExists : EventId → Bool} {x : EventId} :
    x ∈ fullConflictedSet H authChainSets C eventExists ↔ eventExists x = true ∧
      (x ∈ getAuthChainDiff H authChainSets ∨ ∃ k ids, C.lookup k = some ids ∧ x ∈ ids) := by
  simp only [fullConflictedSet, HSet.mem_ofList, List.mem_filter, List.mem_append, List.mem_flatMap,
    HashOrder.mem_arrange]
  constructor
  · rintro ⟨hx, he⟩
    refine ⟨he, hx.imp_right fun ⟨⟨k, ids⟩, hk, hx⟩ => ⟨k, ids, AList.mem_lookup_iff.mpr hk, hx⟩⟩
  · rintro ⟨he, hx⟩
    exact ⟨hx.imp_right fun ⟨k, ids, hk, hx⟩ => ⟨⟨k, ids⟩, AList.mem_lookup_iff.mp hk, hx⟩, he⟩

section Partition

variable {L : List (StateMap EventId)} {U : StateMap EventId} {C : StateMap (List EventId)}
  (hp : Partition L U C) (hL : L ≠ [])
include hp hL

/-- A key is conflicted when some state set holds it and the state sets do not all agree on it. -/
theorem mem_conflicted (k : StateKey) :
    k ∈ C ↔ ∃ s ∈ L, ∃ x, s.lookup k = some x ∧ ¬ ∃ v, ∀ s' ∈ L, s'.lookup k = some v := by
  have hU : k ∈ U ↔ ∃ v, ∀ s' ∈ L, s'.lookup k = some v := by
    rw [← AList.lookup_isSome, Option.isSome_iff_exists]
    exact exists_congr fun v => (hp.unconflicted k v).trans (and_iff_right hL)
  rw [hp.mem_conflicted_iff, hU]
  constructor
  · rintro ⟨⟨s, hs, hk⟩, hn⟩
    obtain ⟨x, hx⟩ := Option.isSome_iff_exists.mp (AList.lookup_isSome.mpr hk)
    exact ⟨s, hs, x, hx, hn⟩
  · rintro ⟨s, hs, x, hx, hn⟩
    exact ⟨⟨s, hs, AList.lookup_isSome.mp (by simp [hx])⟩, hn⟩

/-- The ids conflicted at a key are those some state set holds there, when they do not all
agree on it. -/
theorem conflicted_ids_iff (k : StateKey) (x : EventId) :
    (∃ ids, C.lookup k = some ids ∧ x ∈ ids) ↔ ∃ s ∈ L, s.lookup k = some x ∧ ¬ ∃ v, ∀ s' ∈ L, s'.lookup k = some v := by
  rw [hp.exists_ids_iff, mem_conflicted hp hL]
  constructor
  · rintro ⟨⟨-, -, -, -, hn⟩, s, hs, hx⟩
    exact ⟨s, hs, hx, hn⟩
  · rintro ⟨s, hs, hx, hn⟩
    exact ⟨⟨s, hs, x, hx, hn⟩, s, hs, hx⟩

/-- **The full conflicted set** holds the ids `event_exists` holds of that are in the auth chain
difference or held by some state set at a key the state sets do not all agree on. -/
theorem mem_fullConflictedSet_iff {authChainSets : List (HSet EventId)} {eventExists : EventId → Bool}
    (x : EventId) :
    x ∈ fullConflictedSet H authChainSets C eventExists ↔ eventExists x = true ∧
      (x ∈ getAuthChainDiff H authChainSets ∨
        ∃ s ∈ L, ∃ k, s.lookup k = some x ∧ ¬ ∃ v, ∀ s' ∈ L, s'.lookup k = some v) := by
  rw [mem_fullConflictedSet]
  refine and_congr_right fun _ => or_congr_right ⟨fun ⟨k, ids, hk, hx⟩ => ?_, fun ⟨s, hs, k, hsx, hn⟩ => ?_⟩
  · obtain ⟨s, hs, hsx, hn⟩ := (conflicted_ids_iff hp hL k x).mp ⟨ids, hk, hx⟩
    exact ⟨s, hs, k, hsx, hn⟩
  · obtain ⟨ids, hk, hx⟩ := (conflicted_ids_iff hp hL k x).mpr ⟨s, hs, hsx, hn⟩
    exact ⟨k, ids, hk, hx⟩

end Partition

/-! ### The two passes -/

variable {co fetch}

/-- **The two passes**: the control events of the full conflicted set are sorted by the power sort
and checked from the unconflicted state; the other ids are sorted along the mainline of the
power-levels event that pass leaves, and checked from its result. The two lists are distinct ids
of the full conflicted set, and the result is their fold of `recordIfAccepted`, with the
unconflicted state put back over it. -/
theorem resolveConflicted_ok {fuel : Nat} {roomVersion : RoomVersionId} {authChainSets : List (HSet EventId)}
    {eventExists : EventId → Bool} {U m : StateMap EventId} {C : StateMap (List EventId)}
    (h : resolveConflicted co H fetch fuel roomVersion authChainSets eventExists U C = ok m) :
    ∃ (rv : RoomVersion) (ctrl left : List EventId), co.roomVersionNew roomVersion = .ok rv ∧
      reverseTopologicalPowerSort co H fetch fuel
        ((H.arrange (fullConflictedSet H authChainSets C eventExists).elems).filter (isPowerEventId co fetch))
        (fullConflictedSet H authChainSets C eventExists) = ok ctrl ∧
      mainlineSort fetch H fuel
        ((H.arrange (fullConflictedSet H authChainSets C eventExists).elems).filter fun x => x ∉ HSet.ofList ctrl)
        ((ctrl.foldl (recordIfAccepted co H fetch rv) U).lookup (.roomPowerLevels, "")) = ok left ∧
      (ctrl ++ left).Nodup ∧ (∀ x ∈ ctrl ++ left, x ∈ fullConflictedSet H authChainSets C eventExists) ∧
      m = HMap.extend H ((ctrl ++ left).foldl (recordIfAccepted co H fetch rv) U) U := by
  unfold resolveConflicted at h
  obtain ⟨ctrl, hctrl, h⟩ := bind_eq_ok.mp h
  obtain ⟨rv, hrv, h⟩ := bind_eq_ok.mp h
  obtain ⟨rc, hrc, h⟩ := bind_eq_ok.mp h
  obtain ⟨left, hleft, h⟩ := bind_eq_ok.mp h
  obtain ⟨res, hres, h⟩ := bind_eq_ok.mp h
  cases h
  set all := fullConflictedSet H authChainSets C eventExists
  obtain ⟨graph, hg, hl, -⟩ := reverseTopologicalPowerSort_ok H hctrl
  obtain ⟨hkeys, -⟩ := buildGraph_ok hg
  have hgreedy : Greedy graph (powerKeyOf co fetch) ctrl := hl ▸ lexOrder_greedy.1
  have hctrl' : ∀ x ∈ ctrl, x ∈ all := fun x hx => by
    rcases ((hkeys x).mp (hgreedy.keys hx)).mem_or with hx | hx
    · exact (H.mem_arrange).mp (List.mem_filter.mp hx).1
    · exact hx
  obtain ⟨hleftNodup, hleftSub⟩ := mainlineSort_sub hleft
  have hleft' : ∀ x ∈ left, x ∈ all ∧ x ∉ ctrl := fun x hx => by
    obtain ⟨hx, hnot⟩ := List.mem_filter.mp (hleftSub x hx)
    simpa [HSet.mem_ofList] using And.intro ((H.mem_arrange).mp hx) hnot
  rw [eq_foldl_of_iterativeAuthCheck co H fetch rv hrc] at hleft hres
  refine ⟨rv, ctrl, left, ofExcept_eq_ok.mp hrv, hctrl, hleft,
    List.nodup_append.mpr ⟨hgreedy.nodup, hleftNodup, fun x hc hl => (hleft' x hl).2 hc⟩,
    fun x hx => (List.mem_append.mp hx).elim (hctrl' x) fun hx => (hleft' x hx).1, ?_⟩
  rw [eq_foldl_of_iterativeAuthCheck co H fetch rv hres, List.foldl_append]

/-- A state that is the unconflicted state over the fold of the checked ids keeps every
unconflicted entry, and holds elsewhere only ids accepted at their turn under their own type and
state key. -/
theorem resolved_entries {L : List (StateMap EventId)} {U m : StateMap EventId} {rv : RoomVersion}
    {checked : List EventId} (hU : ∀ k v, U.lookup k = some v ↔ ∀ s ∈ L, s.lookup k = some v)
    (hm : ∀ k, m.lookup k = (U.lookup k).or ((checked.foldl (recordIfAccepted co H fetch rv) U).lookup k)) :
    (∀ k v, (∀ s ∈ L, s.lookup k = some v) → m.lookup k = some v) ∧
      ∀ k x, m.lookup k = some x → (∀ s ∈ L, s.lookup k = some x) ∨
        ∃ pre suf ev, checked = pre ++ x :: suf ∧ fetch x = some ev ∧ ev.eventType = k.1 ∧
          ev.stateKey = some k.2 ∧ acceptedBy co H fetch rv (pre.foldl (recordIfAccepted co H fetch rv) U) ev k.2 = true := by
  refine ⟨fun k v hv => by rw [hm, (hU k v).mpr hv]; rfl, fun k x hx => ?_⟩
  rw [hm, Option.or_eq_some] at hx
  rcases hx with hx | ⟨-, hx⟩
  · exact .inl ((hU k x).mp hx)
  · exact (lookup_foldl_recordIfAccepted co H fetch rv checked U k x hx).imp_left (hU k x).mp

/-! ### What `resolve` returns -/

theorem resolve_spec (fuel : Nat) (roomVersion : RoomVersionId) (L : List (StateMap EventId))
    (authChainSets : List (HSet EventId)) (eventExists : EventId → Bool) (hL : L ≠ []) {m : StateMap EventId}
    (h : resolve co H fetch fuel roomVersion L authChainSets eventExists = ok m) :
    ∃ (U : StateMap EventId) (C : StateMap (List EventId)) (rv : RoomVersion) (ctrl left : List EventId),
      separate H L = ok (U, C) ∧
      (∀ k v, U.lookup k = some v ↔ ∀ s ∈ L, s.lookup k = some v) ∧
      (∀ k, k ∈ C ↔ ∃ s ∈ L, ∃ x, s.lookup k = some x ∧ ¬ ∃ v, ∀ s' ∈ L, s'.lookup k = some v) ∧
      (∀ x, x ∈ fullConflictedSet H authChainSets C eventExists ↔ eventExists x = true ∧
        (x ∈ getAuthChainDiff H authChainSets ∨
          ∃ s ∈ L, ∃ k, s.lookup k = some x ∧ ¬ ∃ v, ∀ s' ∈ L, s'.lookup k = some v)) ∧
      (C.entries = [] → ctrl = [] ∧ left = []) ∧
      (C.entries ≠ [] → co.roomVersionNew roomVersion = .ok rv ∧
        reverseTopologicalPowerSort co H fetch fuel
          ((H.arrange (fullConflictedSet H authChainSets C eventExists).elems).filter (isPowerEventId co fetch))
          (fullConflictedSet H authChainSets C eventExists) = ok ctrl ∧
        mainlineSort fetch H fuel
          ((H.arrange (fullConflictedSet H authChainSets C eventExists).elems).filter fun x => x ∉ HSet.ofList ctrl)
          ((ctrl.foldl (recordIfAccepted co H fetch rv) U).lookup (.roomPowerLevels, "")) = ok left) ∧
      (ctrl ++ left).Nodup ∧ (∀ x ∈ ctrl ++ left, x ∈ fullConflictedSet H authChainSets C eventExists) ∧
      (∀ k, m.lookup k = (U.lookup k).or (((ctrl ++ left).foldl (recordIfAccepted co H fetch rv) U).lookup k)) ∧
      (∀ k v, (∀ s ∈ L, s.lookup k = some v) → m.lookup k = some v) ∧
      ∀ k x, m.lookup k = some x → (∀ s ∈ L, s.lookup k = some x) ∨
        ∃ pre suf ev, ctrl ++ left = pre ++ x :: suf ∧ fetch x = some ev ∧ ev.eventType = k.1 ∧
          ev.stateKey = some k.2 ∧
          acceptedBy co H fetch rv (pre.foldl (recordIfAccepted co H fetch rv) U) ev k.2 = true := by
  obtain ⟨⟨U, C⟩, hsep, h⟩ := bind_eq_ok.mp h
  have hp : Partition L U C := by
    obtain ⟨U', C', hsep', hp⟩ := separate_ok L H
    cases hsep.symm.trans hsep'
    exact hp
  have hU : ∀ k v, U.lookup k = some v ↔ ∀ s ∈ L, s.lookup k = some v := fun k v =>
    (hp.unconflicted k v).trans (and_iff_right hL)
  by_cases hC : C.entries = []
  · simp only [hC, List.isEmpty_nil, if_true, pure_eq, ok.injEq] at h
    subst h
    have hm : ∀ k, U.lookup k =
        (U.lookup k).or ((([] ++ []).foldl (recordIfAccepted co H fetch ⟨roomVersion⟩) U).lookup k) :=
      fun k => by simp
    exact ⟨U, C, ⟨roomVersion⟩, [], [], hsep, hU, mem_conflicted hp hL, mem_fullConflictedSet_iff hp hL,
      fun _ => ⟨rfl, rfl⟩, fun h => absurd hC h, List.nodup_nil, by simp, hm, resolved_entries hU hm⟩
  · simp only [List.isEmpty_iff, hC, if_false] at h
    obtain ⟨rv, ctrl, left, hrv, hctrl, hleft, hnd, hsub, rfl⟩ := resolveConflicted_ok h
    have hm : ∀ k, (HMap.extend H ((ctrl ++ left).foldl (recordIfAccepted co H fetch rv) U) U).lookup k =
        (U.lookup k).or (((ctrl ++ left).foldl (recordIfAccepted co H fetch rv) U).lookup k) :=
      HMap.lookup_extend H _ U
    exact ⟨U, C, rv, ctrl, left, hsep, hU, mem_conflicted hp hL, mem_fullConflictedSet_iff hp hL,
      fun h => absurd h hC, fun _ => ⟨hrv, hctrl, hleft⟩, hnd, hsub, hm, resolved_entries hU hm⟩

/-- A power-levels event `$p`, and a member event `$m` citing it. -/
def powerAndMember : EventId → Option Pdu
  | "$p" => some ⟨"$p", .roomPowerLevels, some "", "@u", "", [], 0⟩
  | "$m" => some ⟨"$m", .roomMember, some "@u", "@u", "", ["$p"], 1⟩
  | _ => none

/-- The state holding `$p` and `$m`. -/
def powerAndMemberState : StateMap EventId :=
  ((∅ : StateMap EventId).insert (.roomPowerLevels, "") "$p").insert (.roomMember, "@u") "$m"

theorem resolve_spec_powerAndMember :
    [powerAndMemberState, ∅] ≠ [] ∧
      resolve permissive .stored powerAndMember 2 "10" [powerAndMemberState, ∅] [] (fun _ => true) =
        ok powerAndMemberState ∧
      ∀ k, powerAndMemberState.lookup k =
        (["$p", "$m"].foldl (recordIfAccepted permissive .stored powerAndMember ⟨"10"⟩) ∅).lookup k := by
  have hL : [powerAndMemberState, ∅] ≠ [] := List.cons_ne_nil _ _
  have hrun : resolve permissive .stored powerAndMember 2 "10" [powerAndMemberState, ∅] [] (fun _ => true) =
      ok powerAndMemberState := rfl
  obtain ⟨U, C, rv, ctrl, left, hsep, -, -, -, -, hpasses, -, -, hm, -⟩ := resolve_spec 2 "10" _ [] _ hL hrun
  cases hsep
  obtain ⟨hrv, hctrl, hleft⟩ := hpasses (List.cons_ne_nil _ _)
  cases hrv
  obtain rfl : ctrl = ["$p"] := ok.inj (hctrl.symm.trans (show _ = ok ["$p"] from rfl))
  obtain rfl : left = ["$m"] := ok.inj (hleft.symm.trans (show _ = ok ["$m"] from rfl))
  exact ⟨hL, hrun, fun k => by simpa using hm k⟩

/-- Two state sets, one holding the membership of `@u` through `$m` and one without it. -/
def memberOrNot : List (StateMap EventId) := [(∅ : StateMap EventId).insert (.roomMember, "@u") "$m", ∅]

/-- State sets that all hold `S` resolve to `S`, for every other input: nothing else is read. -/
theorem resolve_of_forall_eq (H : HashOrder) {L : List (StateMap EventId)} {S : StateMap EventId}
    (hL : L ≠ []) (hS : ∀ s ∈ L, ∀ k, s.lookup k = S.lookup k) :
    ∃ m, (∀ co fetch fuel roomVersion authChainSets eventExists,
      resolve co H fetch fuel roomVersion L authChainSets eventExists = ok m) ∧ ∀ k, m.lookup k = S.lookup k := by
  obtain ⟨U, C, hsep, hC, hU⟩ := separate_of_forall_eq L H hL hS
  exact ⟨U, fun co fetch fuel roomVersion authChainSets eventExists => by simp [resolve, hsep, hC], hU⟩

/-- The create event alone. -/
def createOnly : StateMap EventId := (∅ : StateMap EventId).insert (.roomCreate, "") "$c"

theorem resolve_of_forall_eq_createOnly :
    [createOnly, createOnly] ≠ [] ∧ (∀ s ∈ [createOnly, createOnly], ∀ k, s.lookup k = createOnly.lookup k) ∧
      ∃ m, (∀ co fetch fuel roomVersion authChainSets eventExists,
        resolve co .stored fetch fuel roomVersion [createOnly, createOnly] authChainSets eventExists = ok m) ∧
        ∀ k, m.lookup k = createOnly.lookup k :=
  have hS : ∀ s ∈ [createOnly, createOnly], ∀ k, s.lookup k = createOnly.lookup k := by simp
  ⟨by simp, hS, resolve_of_forall_eq .stored (by simp) hS⟩

theorem resolve_thirdParty_order (fuel : Nat) :
    resolve tokenRules .stored twoInvites (fuel + 1) "10" memberOrNot [] (fun _ => true) = ok ∅ ∧
      resolve tokenRules .reversed twoInvites (fuel + 1) "10" memberOrNot [] (fun _ => true) =
        ok ((∅ : StateMap EventId).insert (.roomMember, "@u") "$m") :=
  ⟨rfl, rfl⟩

end RumaStateRes.Resolve
