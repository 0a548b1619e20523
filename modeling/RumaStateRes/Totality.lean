import RumaStateRes.GraphTermination
import RumaStateRes.MainlineTermination
import RumaStateRes.Resolve

/-! # `resolve` never panics, and it ends

Outside its tests `lib.rs` has six `unwrap`s and `expect`s: two in `separate`, two in
`lexicographical_topological_sort`, one in `add_event_and_auth_chain_to_graph` and one in
`mainline_sort`. None of them fails, for any input and any hash order. So `resolve` never panics,
with any fuel for its loops (`resolve_ne_panic`).

Its loops end on their own, except the two walks of the mainline sort, which follow power-levels
parents. The graph loop of the power sort ends on every auth graph, and the heap loop within as
many rounds as the graph has keys. Over a finite store whose power-levels parent relation has no
cycle, `resolve` therefore returns one state or one `Error` for all enough fuel
(`resolve_terminates`).

* `resolveConflicted_ne_panic`, `resolveConflicted_stabilizes`: the two passes, stage by stage;
* `resolve_ne_panic`: no input, hash order or fuel makes `resolve` panic;
* `resolve_terminates`: over a finite store with no power-levels cycle, `resolve` ends. -/

namespace RumaStateRes.Totality

open RumaStateRes.Core.Result RumaStateRes.Core.Collections RumaStateRes.Core.Event
open RumaStateRes.Separate RumaStateRes.AuthCheck RumaStateRes.PowerSort RumaStateRes.Mainline
open RumaStateRes.GraphTermination RumaStateRes.MainlineTermination RumaStateRes.Resolve
open Outcome Relation

variable (co : Collaborators) (H : HashOrder) (fetch : EventId → Option Pdu)

/-! ### No panic -/

theorem resolveConflicted_ne_panic (fuel : Nat) (roomVersion : RoomVersionId)
    (authChainSets : List (HSet EventId)) (eventExists : EventId → Bool) (clean : StateMap EventId)
    (conflicting : StateMap (List EventId)) :
    resolveConflicted co H fetch fuel roomVersion authChainSets eventExists clean conflicting ≠ panic :=
  bind_ne_panic (reverseTopologicalPowerSort_ne_panic co H fuel _) fun sc _ =>
    bind_ne_panic (settles_ofExcept _).ne_panic fun rv _ =>
      bind_ne_panic (iterativeAuthCheck_settles co H fetch rv sc clean).ne_panic fun rc _ =>
        bind_ne_panic (mainlineSort_ne_panic H fuel _ _) fun left _ =>
          bind_ne_panic (iterativeAuthCheck_settles co H fetch rv left rc).ne_panic fun _ _ => nofun

/-- **`resolve` never panics**: for every input, hash order and fuel, none of the `unwrap`s and
`expect`s of `lib.rs` fails. -/
theorem resolve_ne_panic (fuel : Nat) (roomVersion : RoomVersionId) (stateSets : List (StateMap EventId))
    (authChainSets : List (HSet EventId)) (eventExists : EventId → Bool) :
    resolve co H fetch fuel roomVersion stateSets authChainSets eventExists ≠ panic := by
  obtain ⟨U, C, hsep, -⟩ := separate_ok stateSets H
  simp only [resolve, hsep, ok_bind]
  split_ifs
  · nofun
  · exact resolveConflicted_ne_panic co H fetch fuel roomVersion authChainSets eventExists U C

/-! ### Termination -/

section WellFounded

variable (hwf : WellFounded fun y x => PlStep fetch x y)
include hwf

theorem resolveConflicted_stabilizes (roomVersion : RoomVersionId) (authChainSets : List (HSet EventId))
    (eventExists : EventId → Bool) (clean : StateMap EventId) (conflicting : StateMap (List EventId)) :
    Stabilizes fun fuel => resolveConflicted co H fetch fuel roomVersion authChainSets eventExists clean conflicting :=
  Stabilizes.bind (reverseTopologicalPowerSort_stabilizes co H _) fun sc =>
    Stabilizes.bind (Stabilizes.of_settles (settles_ofExcept _)) fun rv =>
      Stabilizes.bind (Stabilizes.of_settles (iterativeAuthCheck_settles co H fetch rv sc clean)) fun rc =>
        Stabilizes.bind (mainlineSort_stabilizes hwf H _ _) fun left =>
          Stabilizes.bind (Stabilizes.of_settles (iterativeAuthCheck_settles co H fetch rv left rc)) fun _ =>
            Stabilizes.of_settles (settles_ok (P := fun _ => True) trivial)

theorem resolve_stabilizes (roomVersion : RoomVersionId) (stateSets : List (StateMap EventId))
    (authChainSets : List (HSet EventId)) (eventExists : EventId → Bool) :
    Stabilizes fun fuel => resolve co H fetch fuel roomVersion stateSets authChainSets eventExists := by
  obtain ⟨U, C, hsep, -⟩ := separate_ok stateSets H
  by_cases hC : C.entries.isEmpty = true
  · exact (Stabilizes.of_settles (settles_ok (P := fun _ => True) (a := U) trivial)).of_eq fun fuel => by
      simp only [resolve, hsep, ok_bind, hC, if_true, pure_eq]
  · exact (resolveConflicted_stabilizes co H fetch hwf roomVersion authChainSets eventExists U C).of_eq
      fun fuel => by simp only [resolve, hsep, ok_bind, hC, Bool.false_eq_true, if_false]

end WellFounded

/-- **`resolve` ends** over a finite store whose power-levels parent relation has no cycle: for
every input and hash order there is a fuel from which it returns one state or one `Error`. -/
theorem resolve_terminates (store : List EventId) (hstore : ∀ x ev, fetch x = some ev → x ∈ store)
    (hacyc : ∀ x, ¬ TransGen (PlStep fetch) x x) (roomVersion : RoomVersionId)
    (stateSets : List (StateMap EventId)) (authChainSets : List (HSet EventId)) (eventExists : EventId → Bool) :
    ∃ N o, Settles o (fun _ => True) ∧
      ∀ fuel, N ≤ fuel → resolve co H fetch fuel roomVersion stateSets authChainSets eventExists = o :=
  (resolve_stabilizes co H fetch (wellFounded_plStep hstore hacyc) roomVersion stateSets authChainSets
    eventExists).exists_le

theorem resolve_terminates_memberUnderTip :
    (∀ x ev, memberUnderTip x = some ev → x ∈ ["$p", "$e"]) ∧ (∀ x, ¬ TransGen (PlStep memberUnderTip) x x) ∧
      ∃ N o, Settles o (fun _ => True) ∧ ∀ fuel, N ≤ fuel →
        resolve permissive .stored memberUnderTip fuel "10"
          [(∅ : StateMap EventId).insert (.roomMember, "@u") "$e", ∅] [] (fun _ => true) = o :=
  ⟨memberUnderTip_mem_store, memberUnderTip_acyclic, resolve_terminates permissive .stored memberUnderTip
    ["$p", "$e"] memberUnderTip_mem_store memberUnderTip_acyclic "10" _ [] _⟩

end RumaStateRes.Totality
