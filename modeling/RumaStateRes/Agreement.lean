import RumaStateRes.TopoSort.Failure
import RumaStateRes.Totality

/-! # Two runs of `resolve` agree

Every server resolves a fork with hash maps seeded at random. It may hold the state sets and the
auth chain sets in another order than its peers, or one of them twice, and give the walks of the
mainline sort more or less room. Two such runs agree (`Agree`): unless one of them runs out of
fuel, they end alike, with states that have the same entries or with one and the same `Error`;
and neither panics (`resolveConflicted_ne_panic`).

`resolve` reads its inputs only through what none of these change: the unconflicted state as a
lookup, the conflicted keys, the ids at each of them, and the ids of the auth chain difference
(`separate_congr`, `mem_getAuthChainDiff_congr`). From there every stage of the two runs agrees:

* the power sort (`reverseTopologicalPowerSort_agree`): its graph has the same keys and edges
  (`buildGraph_congr`), `event_to_pl` fails, with `SerdeError`, exactly when a key has no power
  level, and the heap sort fails, with `NotFound`, exactly when an event of the reference order
  cannot be fetched;
* the auth check, event by event (`iterativeAuthCheck_agree`);
* the mainline sort, which fails only in its mainline loop (`mainlineSort_agree`).

The one place a hash order reaches a result is the third-party invite `auth_check` is handed: the
first one the context map yields (`resolve_thirdParty_order`). Where the two orders agree on that
verdict, as one order does with itself and any two do when `auth_check` does not depend on which
invite it gets, the two runs agree (`resolve_agree`). -/

namespace RumaStateRes.Agreement

open RumaStateRes.Core.Result RumaStateRes.Core.Collections RumaStateRes.Core.Event
open RumaStateRes.Separate RumaStateRes.AuthCheck RumaStateRes.PowerSort RumaStateRes.Mainline
open RumaStateRes.GraphTermination RumaStateRes.MainlineTermination RumaStateRes.Resolve
open RumaStateRes.TopoSort.Reference RumaStateRes.TopoSort.Failure RumaStateRes.Totality
open Outcome

variable {co : Collaborators} {fetch : EventId → Option Pdu} {H H' : HashOrder}

/-! ### The power sort -/

/-- An `Error` of one `event_to_pl` loop is that of every loop over the same keys. -/
theorem recordPowerLevels_err_of_err {keys keys' : List EventId} (hk : ∀ x, x ∈ keys ↔ x ∈ keys')
    {e : Error} (he : (H.arrange keys).foldlM (recordPowerLevel co fetch) ∅ = err e) :
    (H'.arrange keys').foldlM (recordPowerLevel co fetch) ∅ = err e := by
  obtain ⟨rfl, x, hx, hpl⟩ := foldlM_recordPowerLevel_err he
  rcases foldlM_recordPowerLevel_settles co fetch (H'.arrange keys') ∅ with ⟨m, hm, -⟩ | ⟨e', he'⟩
  · obtain ⟨pl, hpl'⟩ := (foldlM_recordPowerLevel_ok hm).1 x (by simpa [hk] using hx)
    exact absurd hpl' (hpl pl)
  · rw [he', (foldlM_recordPowerLevel_err he').1]

/-- Two `event_to_pl` loops over the same keys agree, whatever the hash orders. -/
theorem recordPowerLevels_agree {keys keys' : List EventId} (hk : ∀ x, x ∈ keys ↔ x ∈ keys') :
    Agree (fun m m' : HMap EventId Int => ∀ x, m.lookup x = m'.lookup x)
      ((H.arrange keys).foldlM (recordPowerLevel co fetch) ∅)
      ((H'.arrange keys').foldlM (recordPowerLevel co fetch) ∅) := by
  refine Agree.intro (foldlM_recordPowerLevel_settles co fetch _ ∅).ne_panic
    (foldlM_recordPowerLevel_settles co fetch _ ∅).ne_panic
    (fun _ he => .inl (recordPowerLevels_err_of_err hk he))
    (fun _ he => .inl (recordPowerLevels_err_of_err (fun x => (hk x).symm) he)) fun m m' hm hm' x => ?_
  rw [(foldlM_recordPowerLevel_ok hm).2, (foldlM_recordPowerLevel_ok hm').2]
  simp only [HashOrder.mem_arrange, hk]

/-- **Two power sorts agree** on control lists with the same ids, in diffs with the same ids,
whatever the hash orders, the order and repeats of the controls, and the fuel. -/
theorem reverseTopologicalPowerSort_agree {fuel fuel' : Nat} {controls controls' : List EventId}
    {authDiff authDiff' : HSet EventId} (hc : ∀ x, x ∈ controls ↔ x ∈ controls')
    (hd : ∀ x, x ∈ authDiff ↔ x ∈ authDiff') :
    Agree (fun l l' => l = l') (reverseTopologicalPowerSort co H fetch fuel controls authDiff)
      (reverseTopologicalPowerSort co H' fetch fuel' controls' authDiff') := by
  have hgraph : Agree (fun g g' : HMap EventId (HSet EventId) =>
      (∀ x, x ∈ g ↔ x ∈ g') ∧ ∀ x y, y ∈ succs g x ↔ y ∈ succs g' x)
      (buildGraph fetch fuel controls authDiff) (buildGraph fetch fuel' controls' authDiff') :=
    Agree.intro (buildGraph_ne_panic fuel controls) (buildGraph_ne_panic fuel' controls')
      (fun e he => (buildGraph_ne_err fuel controls e he).elim)
      (fun e he => (buildGraph_ne_err fuel' controls' e he).elim) fun _ _ hg hg' => buildGraph_congr hc hd hg hg'
  unfold reverseTopologicalPowerSort
  refine hgraph.bind fun g g' _ _ ⟨hk, hs⟩ =>
    (recordPowerLevels_agree fun x => AList.mem_keys.trans ((hk x).trans AList.mem_keys.symm)).bind
      fun m m' _ _ hm => ?_
  have hkey : powerSortKey fetch m = powerSortKey fetch m' := funext fun x => by simp only [powerSortKey, hm x]
  rw [hkey]
  exact lexicographicalTopologicalSort_agree H H' hk hs fun _ _ _ _ h h' =>
    (powerSortKey_error h).trans (powerSortKey_error h').symm

/-! ### The mainline sort -/

/-- An `Error` of one mainline sort is that of every sort of the same ids from the same tip that
does not run out of fuel: it is an `Error` of the mainline loop. -/
theorem mainlineSort_err_of_err {fuel fuel' : Nat} {toSort toSort' : List EventId}
    (hmem : ∀ x, x ∈ toSort ↔ x ∈ toSort') {P : Option EventId} {e : Error}
    (he : mainlineSort fetch H fuel toSort P = err e) :
    mainlineSort fetch H' fuel' toSort' P = err e ∨ mainlineSort fetch H' fuel' toSort' P = diverge := by
  obtain ⟨hne, hloop⟩ := mainlineSort_err he
  obtain ⟨x, hx⟩ := List.exists_mem_of_ne_nil toSort hne
  unfold mainlineSort
  rw [if_neg (by simpa [List.isEmpty_iff] using List.ne_nil_of_mem ((hmem x).mp hx))]
  by_cases hd : mainlineLoop fetch P fuel' = diverge
  · exact .inr (by rw [hd]; rfl)
  · exact .inl (by rw [← mainlineLoop_eq_of_ne_diverge (by rw [hloop]; nofun) hd, hloop]; rfl)

/-- **Two mainline sorts agree** on lists with the same ids from one power-levels tip, whatever
the hash orders, the order and repeats of the lists, and the fuel. -/
theorem mainlineSort_agree {fuel fuel' : Nat} {toSort toSort' : List EventId}
    (hmem : ∀ x, x ∈ toSort ↔ x ∈ toSort') (P : Option EventId) :
    Agree (fun l l' => l = l') (mainlineSort fetch H fuel toSort P) (mainlineSort fetch H' fuel' toSort' P) :=
  Agree.intro (mainlineSort_ne_panic H fuel toSort P) (mainlineSort_ne_panic H' fuel' toSort' P)
    (fun _ he => mainlineSort_err_of_err hmem he)
    (fun _ he => mainlineSort_err_of_err (fun x => (hmem x).symm) he)
    fun _ _ hl hl' => mainlineSort_congr hmem hl hl'

/-! ### The whole resolution -/

/-- **The two passes agree** on unconflicted states with the same lookups, conflicted maps with
the same ids and auth chain sets that hold the same sets, when the two hash orders give
`auth_check` the same verdicts. -/
theorem resolveConflicted_agree
    (hv : ∀ rv ev (ctx : StateMap Pdu), co.authCheck rv ev (currentThirdParty H ctx) (fun k => ctx.lookup k) =
      co.authCheck rv ev (currentThirdParty H' ctx) (fun k => ctx.lookup k))
    {fuel fuel' : Nat} {roomVersion : RoomVersionId} {A A' : List (HSet EventId)}
    (hA : SameUpTo (fun s s' : HSet EventId => ∀ x, x ∈ s ↔ x ∈ s') A A') {eventExists : EventId → Bool}
    {U U' : StateMap EventId} (hU : ∀ k, U.lookup k = U'.lookup k) {C C' : StateMap (List EventId)}
    (hC : ∀ x, (∃ k ids, C.lookup k = some ids ∧ x ∈ ids) ↔ ∃ k ids, C'.lookup k = some ids ∧ x ∈ ids) :
    Agree (fun m m' : StateMap EventId => ∀ k, m.lookup k = m'.lookup k)
      (resolveConflicted co H fetch fuel roomVersion A eventExists U C)
      (resolveConflicted co H' fetch fuel' roomVersion A' eventExists U' C') := by
  have hall : ∀ x, x ∈ fullConflictedSet H A C eventExists ↔ x ∈ fullConflictedSet H' A' C' eventExists :=
    fun x => by rw [mem_fullConflictedSet, mem_fullConflictedSet, mem_getAuthChainDiff_congr hA, hC]
  unfold resolveConflicted
  refine (reverseTopologicalPowerSort_agree (fun x => by
    simp only [List.mem_filter, HashOrder.mem_arrange, ← HSet.mem_def, hall]) hall).bind
      fun sc _ _ _ hsc => ?_
  subst hsc
  refine Agree.bind_same fun rv _ => (iterativeAuthCheck_agree (hv rv) sc hU).bind fun rc rc' _ _ hrc => ?_
  rw [hrc (.roomPowerLevels, "")]
  refine (mainlineSort_agree (fun x => by
    simp only [List.mem_filter, HashOrder.mem_arrange, ← HSet.mem_def, hall]) _).bind fun left _ _ _ hleft => ?_
  subst hleft
  refine (iterativeAuthCheck_agree (hv rv) left hrc).bind fun res res' _ _ hres => .ok fun k => ?_
  rw [HMap.lookup_extend, HMap.lookup_extend, hU, hres]

/-- **Two runs of `resolve` agree**: on state sets that hold the same maps and auth chain sets
that hold the same sets, each in any order and any number of times, with one `fetch`,
`event_exists` and room version, two runs with any fuel end alike unless one of them runs out of
it, with states with the same entries or with one and the same `Error`, and neither panics; under
one hash order for every `auth_check`, and under any two when `auth_check` gives an event one
verdict whichever third-party invite of its context it is handed. -/
theorem resolve_agree (co : Collaborators) (fetch : EventId → Option Pdu) {H H' : HashOrder}
    (hH : H = H' ∨ InviteIndifferent co) (fuel fuel' : Nat) (roomVersion : RoomVersionId)
    {L L' : List (StateMap EventId)}
    (hL : SameUpTo (fun s s' : StateMap EventId => ∀ k, s.lookup k = s'.lookup k) L L')
    {A A' : List (HSet EventId)} (hA : SameUpTo (fun s s' : HSet EventId => ∀ x, x ∈ s ↔ x ∈ s') A A')
    (eventExists : EventId → Bool) :
    Agree (fun m m' : StateMap EventId => ∀ k, m.lookup k = m'.lookup k)
        (resolve co H fetch fuel roomVersion L A eventExists) (resolve co H' fetch fuel' roomVersion L' A' eventExists) ∧
      resolve co H fetch fuel roomVersion L A eventExists ≠ panic ∧
      resolve co H' fetch fuel' roomVersion L' A' eventExists ≠ panic := by
  have hv : ∀ rv ev (ctx : StateMap Pdu), co.authCheck rv ev (currentThirdParty H ctx) (fun k => ctx.lookup k) =
      co.authCheck rv ev (currentThirdParty H' ctx) (fun k => ctx.lookup k) := by
    rcases hH with rfl | hco
    exacts [fun _ _ _ => rfl, authCheck_currentThirdParty hco H H']
  obtain ⟨U, C, hsep, -⟩ := separate_ok (L := L) H
  obtain ⟨U', C', hsep', -⟩ := separate_ok (L := L') H'
  obtain ⟨hU, hCk, hCids⟩ := separate_congr hL hsep hsep'
  have hempty : C.entries.isEmpty = C'.entries.isEmpty := Bool.eq_iff_iff.mpr (by
    simp only [List.isEmpty_iff, HMap.entries_eq_nil_iff, hCk])
  simp only [resolve, hsep, hsep', ok_bind, ← hempty]
  split_ifs
  · exact ⟨.ok hU, nofun, nofun⟩
  · exact ⟨resolveConflicted_agree hv hA hU fun x => exists_congr fun k => hCids k x,
      resolveConflicted_ne_panic co H fetch fuel roomVersion A eventExists U C,
      resolveConflicted_ne_panic co H' fetch fuel' roomVersion A' eventExists U' C'⟩

theorem resolve_agree_memberOrNot :
    InviteIndifferent permissive ∧
      SameUpTo (fun s s' : StateMap EventId => ∀ k, s.lookup k = s'.lookup k) memberOrNot (∅ :: memberOrNot) ∧
      SameUpTo (fun s s' : HSet EventId => ∀ x, x ∈ s ↔ x ∈ s') [] [] ∧
      Agree (fun m m' : StateMap EventId => ∀ k, m.lookup k = m'.lookup k)
        (resolve permissive .stored twoInvites 2 "10" memberOrNot [] (fun _ => true))
        (resolve permissive .reversed twoInvites 3 "10" (∅ :: memberOrNot) [] (fun _ => true)) ∧
      resolve permissive .stored twoInvites 2 "10" memberOrNot [] (fun _ => true) ≠ panic ∧
      resolve permissive .reversed twoInvites 3 "10" (∅ :: memberOrNot) [] (fun _ => true) ≠ panic := by
  have hco : InviteIndifferent permissive := fun _ _ _ _ _ _ _ _ _ _ _ => rfl
  have hL : SameUpTo (fun s s' : StateMap EventId => ∀ k, s.lookup k = s'.lookup k) memberOrNot
      (∅ :: memberOrNot) :=
    ⟨fun s hs => ⟨s, List.mem_cons_of_mem _ hs, fun _ => rfl⟩, fun s hs => ⟨s, by
      rcases List.mem_cons.mp hs with rfl | hs
      exacts [by simp [memberOrNot], hs], fun _ => rfl⟩⟩
  have hA : SameUpTo (fun s s' : HSet EventId => ∀ x, x ∈ s ↔ x ∈ s') [] [] :=
    ⟨fun _ h => absurd h (List.not_mem_nil _), fun _ h => absurd h (List.not_mem_nil _)⟩
  exact ⟨hco, hL, hA, resolve_agree permissive twoInvites (.inr hco) 2 3 "10" hL hA _⟩

end RumaStateRes.Agreement
