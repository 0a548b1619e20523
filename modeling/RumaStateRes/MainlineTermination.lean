import Mathlib.Data.Fintype.Card
import RumaStateRes.Mainline

/-! # The mainline walks end

The mainline loop of `mainline_sort` and the walk of `get_mainline_depth` follow power-levels
parents (`plParent`) and keep no record of the events they have passed: each ends only at an event
without a power-levels auth event, at an auth event that cannot be fetched (`NotFound`), or, for
the depth walk, at an event on the mainline. Under a parent relation with no infinite chain both
walks therefore end from every starting event, with one outcome for all enough fuel
(`mainlineFrom_settles`, `getMainlineDepth_settles`, each by well-founded induction on the
parent relation).

No cycle is not enough for that: a fetch function that serves a fresh power-levels event at every
id (`endlessChain`) has a parent relation with no cycle, and both walks run forever on it. Over a
store holding finitely many events, no cycle does make the relation well-founded
(`wellFounded_plStep`).

* `firstPowerLevels_settles`: the scan of the auth events never runs forever, and the event it
  stops at is the power-levels parent;
* `mainline_walks_terminate`: when the power-levels parent relation has no infinite chain, the
  mainline loop and the depth walk end from every starting event;
* `mainline_endless_chain`: a relation with no cycle can still have an infinite chain, over
  infinitely many events, and leave both walks running forever;
* `wellFounded_plStep`: over a finite store, no cycle means no infinite chain;
* `mainlineSort_ne_panic`, `mainlineSort_stabilizes`: the whole sort never panics, and when the
  parent relation has no infinite chain it ends with one outcome for all enough fuel. -/

namespace RumaStateRes.MainlineTermination

open RumaStateRes.Core.Result RumaStateRes.Core.Collections RumaStateRes.Core.Event
open RumaStateRes.Mainline
open Outcome Relation

variable {fetch : EventId → Option Pdu}

/-! ### One round -/

variable (fetch) in
/-- **The scan ends**, with an `Error` or with the power-levels parent it reads. -/
theorem firstPowerLevels_settles : ∀ auths : List EventId,
    Settles (firstPowerLevels fetch auths) fun r =>
      ∀ a aev, r = some (a, aev) → auths.find? (isPowerLevelsId fetch) = some a ∧ fetch a = some aev
  | [] => settles_ok (by simp)
  | aid :: rest => by
    cases hf : fetch aid with
    | none => simpa [firstPowerLevels, hf, okOr] using settles_err _
    | some ev =>
      by_cases hpl : isTypeAndKey ev .roomPowerLevels "" = true
      · have hid : isPowerLevelsId fetch aid = true := by simp [isPowerLevelsId, hf, hpl]
        simp only [firstPowerLevels, hf, okOr, ok_bind, hpl, if_true, pure_eq]
        exact settles_ok fun a aev h => by cases h; simp [hid, hf]
      · have hid : isPowerLevelsId fetch aid = false := by simp [isPowerLevelsId, hf, hpl]
        simp only [firstPowerLevels, hf, okOr, ok_bind, hpl, Bool.false_eq_true, if_false]
        exact (firstPowerLevels_settles rest).mono fun r hr a aev h => by simpa [hid] using hr a aev h

/-- One round of the mainline loop at `p`: when the loop ends from the parent its scan finds, it
ends from `p`. -/
theorem mainlineFrom_settles_of (p : EventId) (acc : List EventId)
    (h : ∀ a, plParent fetch p = some a →
      ∃ N o, Settles o (fun _ => True) ∧ ∀ fuel, mainlineFrom fetch a (acc ++ [p]) (fuel + N) = o) :
    ∃ N o, Settles o (fun _ => True) ∧ ∀ fuel, mainlineFrom fetch p acc (fuel + N) = o := by
  cases hev : fetch p with
  | none =>
    exact ⟨1, err (.notFound ("Failed to find " ++ p)), settles_err _, fun fuel => by
      simp [mainlineFrom, hev, okOr]⟩
  | some ev =>
    rcases firstPowerLevels_settles fetch ev.authEvents with ⟨r, hr, hfind⟩ | ⟨e, hr⟩
    · cases r with
      | none => exact ⟨1, ok (acc ++ [p]), settles_ok trivial, fun fuel => by simp [mainlineFrom, hev, okOr, hr]⟩
      | some r =>
        obtain ⟨a, aev⟩ := r
        obtain ⟨N, o, ho, hrun⟩ := h a (by simp [plParent, hev, (hfind a aev rfl).1])
        refine ⟨N + 1, o, ho, fun fuel => ?_⟩
        show mainlineFrom fetch p acc (fuel + N + 1) = o
        simp [mainlineFrom, hev, okOr, hr, hrun]
    · exact ⟨1, err e, settles_err e, fun fuel => by simp [mainlineFrom, hev, okOr, hr]⟩

/-- One round of the depth walk at `ev`: when the walk ends from the power-levels event its scan
finds, it ends from `ev`. -/
theorem mainlineDepthFrom_settles_of (mainlineMap : HMap EventId Nat) (ev : Pdu)
    (h : ∀ b bev, ev.authEvents.find? (isPowerLevelsId fetch) = some b → fetch b = some bev →
      ∃ N o, Settles o (fun _ => True) ∧ ∀ fuel, mainlineDepthFrom fetch mainlineMap bev (fuel + N) = o) :
    ∃ N o, Settles o (fun _ => True) ∧ ∀ fuel, mainlineDepthFrom fetch mainlineMap ev (fuel + N) = o := by
  cases hd : mainlineMap.lookup ev.eventId with
  | some d => exact ⟨1, ok d, settles_ok trivial, fun fuel => by simp [mainlineDepthFrom, hd]⟩
  | none =>
    rcases firstPowerLevels_settles fetch ev.authEvents with ⟨r, hr, hfind⟩ | ⟨e, hr⟩
    · cases r with
      | none => exact ⟨1, ok 0, settles_ok trivial, fun fuel => by simp [mainlineDepthFrom, hd, hr]⟩
      | some r =>
        obtain ⟨b, bev⟩ := r
        obtain ⟨N, o, ho, hrun⟩ := h b bev (hfind b bev rfl).1 (hfind b bev rfl).2
        refine ⟨N + 1, o, ho, fun fuel => ?_⟩
        show mainlineDepthFrom fetch mainlineMap ev (fuel + N + 1) = o
        simp [mainlineDepthFrom, hd, hr, hrun]
    · exact ⟨1, err e, settles_err e, fun fuel => by simp [mainlineDepthFrom, hd, hr]⟩

/-! ### Whole walks -/

section WellFounded

variable (hwf : WellFounded fun y x => PlStep fetch x y)
include hwf

/-- **The mainline loop ends** from every event, when power-levels chains are finite. -/
theorem mainlineFrom_settles (p : EventId) :
    ∀ acc, ∃ N o, Settles o (fun _ => True) ∧ ∀ fuel, mainlineFrom fetch p acc (fuel + N) = o :=
  hwf.induction p (C := fun p => ∀ acc, ∃ N o, Settles o (fun _ => True) ∧
    ∀ fuel, mainlineFrom fetch p acc (fuel + N) = o)
    fun p ih acc => mainlineFrom_settles_of p acc fun a ha => ih a ha (acc ++ [p])

/-- The depth walk ends from every event it can fetch, when power-levels chains are finite. -/
theorem mainlineDepthFrom_settles (mainlineMap : HMap EventId Nat) (a : EventId) :
    ∀ aev, fetch a = some aev →
      ∃ N o, Settles o (fun _ => True) ∧ ∀ fuel, mainlineDepthFrom fetch mainlineMap aev (fuel + N) = o :=
  hwf.induction a (C := fun a => ∀ aev, fetch a = some aev →
    ∃ N o, Settles o (fun _ => True) ∧ ∀ fuel, mainlineDepthFrom fetch mainlineMap aev (fuel + N) = o)
    fun a ih aev ha => mainlineDepthFrom_settles_of mainlineMap aev fun b bev hb hbev =>
      ih b (by simp [PlStep, plParent, ha, hb]) bev hbev

theorem mainlineLoop_settles (P : Option EventId) :
    ∃ N o, Settles o (fun _ => True) ∧ ∀ fuel, mainlineLoop fetch P (fuel + N) = o := by
  cases P with
  | none => exact ⟨0, ok [], settles_ok trivial, fun _ => rfl⟩
  | some p => exact mainlineFrom_settles hwf p []

/-- **The depth walk ends** from every starting event, when power-levels chains are finite. -/
theorem getMainlineDepth_settles (mainlineMap : HMap EventId Nat) (event : Option Pdu) :
    ∃ N o, Settles o (fun _ => True) ∧ ∀ fuel, getMainlineDepth fetch mainlineMap event (fuel + N) = o := by
  cases event with
  | none => exact ⟨0, ok 0, settles_ok trivial, fun _ => rfl⟩
  | some ev =>
    exact mainlineDepthFrom_settles_of mainlineMap ev fun b bev _ hbev =>
      mainlineDepthFrom_settles hwf mainlineMap b bev hbev

end WellFounded

theorem mainline_walks_terminate (fetch : EventId → Option Pdu) (hwf : WellFounded fun y x => PlStep fetch x y) :
    (∀ P : Option EventId, ∃ N o, Settles o (fun _ => True) ∧
      ∀ fuel, N ≤ fuel → mainlineLoop fetch P fuel = o) ∧
    ∀ (mainlineMap : HMap EventId Nat) (event : Option Pdu), ∃ N o, Settles o (fun _ => True) ∧
      ∀ fuel, N ≤ fuel → getMainlineDepth fetch mainlineMap event fuel = o := by
  refine ⟨fun P => ?_, fun mainlineMap event => ?_⟩
  · obtain ⟨N, o, ho, hrun⟩ := mainlineLoop_settles hwf P
    exact ⟨N, o, ho, fun fuel hN => Nat.sub_add_cancel hN ▸ hrun (fuel - N)⟩
  · obtain ⟨N, o, ho, hrun⟩ := getMainlineDepth_settles hwf mainlineMap event
    exact ⟨N, o, ho, fun fuel hN => Nat.sub_add_cancel hN ▸ hrun (fuel - N)⟩

theorem mainline_walks_terminate_memberUnderTip :
    (WellFounded fun y x => PlStep memberUnderTip x y) ∧
      ∃ N o, Settles o (fun _ => True) ∧ ∀ fuel, N ≤ fuel → mainlineLoop memberUnderTip (some "$e") fuel = o :=
  have hwf : WellFounded fun y x => PlStep memberUnderTip x y :=
    wellFounded_of_rank (fun x => if x = "$p" then 0 else 1) fun _ _ h => by
      obtain ⟨rfl, rfl⟩ := plStep_memberUnderTip h
      decide
  ⟨hwf, (mainline_walks_terminate memberUnderTip hwf).1 (some "$e")⟩

/-! ### Finite stores -/

/-- The power-levels parent of an event can be fetched. -/
theorem isSome_of_plStep {x y : EventId} (h : PlStep fetch x y) : (fetch y).isSome := by
  have hy := List.find?_some h
  cases hf : fetch y <;> simp_all [isPowerLevelsId]

/-- **Over a finite store, no cycle means no infinite chain**: the relation on the ids of the
store is well-founded as a finite acyclic relation, and an id outside the store has no parent. -/
theorem wellFounded_plStep {store : List EventId} (hstore : ∀ x ev, fetch x = some ev → x ∈ store)
    (hacyc : ∀ x, ¬ TransGen (PlStep fetch) x x) : WellFounded fun y x => PlStep fetch x y := by
  have hmem : ∀ x y, PlStep fetch x y → y ∈ store := fun x y h => by
    obtain ⟨ev, hev⟩ := Option.isSome_iff_exists.mp (isSome_of_plStep h)
    exact hstore y ev hev
  let r : {x // x ∈ store} → {x // x ∈ store} → Prop := fun b a => PlStep fetch a.1 b.1
  haveI : IsTrans _ (TransGen r) := ⟨fun _ _ _ => TransGen.trans⟩
  haveI : IsIrrefl _ (TransGen r) :=
    ⟨fun a h => hacyc a.1 (transGen_swap.mp (h.lift Subtype.val fun _ _ h => h))⟩
  have hwf : WellFounded r := Subrelation.wf TransGen.single (Finite.wellFounded_of_trans_of_irrefl _)
  have hacc : ∀ a, Acc r a → Acc (fun y x => PlStep fetch x y) a.1 := fun a ha => by
    induction ha with
    | intro a _ ih => exact ⟨_, fun y hy => ih ⟨y, hmem _ _ hy⟩ hy⟩
  exact ⟨fun x => ⟨x, fun y hy => hacc ⟨y, hmem x y hy⟩ (hwf.apply _)⟩⟩

/-! ### Infinitely many events -/

/-- A fetch function with an event at every id: the power-levels event `x`, citing `x ++ "+"`. -/
def endlessChain (x : EventId) : Option Pdu :=
  some ⟨x, .roomPowerLevels, some "", "@u", "", [x ++ "+"], 0⟩

theorem mainline_endless_chain :
    (∀ x, ¬ TransGen (PlStep endlessChain) x x) ∧
      (∀ fuel, mainlineLoop endlessChain (some "$p") fuel = diverge) ∧
      ∀ fuel, getMainlineDepth endlessChain ∅ (endlessChain "$p") fuel = diverge := by
  have hstep : ∀ x y, PlStep endlessChain x y → y.length = x.length + 1 := fun x y h => by
    simp [PlStep, plParent, endlessChain, isPowerLevelsId, isTypeAndKey] at h
    rw [← h, String.length_append]
    rfl
  have hgrow : ∀ x y, TransGen (PlStep endlessChain) x y → x.length < y.length := fun x y h => by
    induction h with
    | single h => rw [hstep _ _ h]; omega
    | tail _ h ih => rw [hstep _ _ h]; omega
  have hloop : ∀ fuel x acc, mainlineFrom endlessChain x acc fuel = diverge := by
    intro fuel
    induction fuel with
    | zero => intro _ _; rfl
    | succ n ih => intro x acc; exact ih (x ++ "+") (acc ++ [x])
  have hdepth : ∀ fuel x, mainlineDepthFrom endlessChain ∅
      ⟨x, .roomPowerLevels, some "", "@u", "", [x ++ "+"], 0⟩ fuel = diverge := by
    intro fuel
    induction fuel with
    | zero => intro _; rfl
    | succ n ih => intro x; exact ih (x ++ "+")
  exact ⟨fun x hx => lt_irrefl _ (hgrow x x hx), fun fuel => hloop fuel "$p" [],
    fun fuel => hdepth fuel "$p"⟩

/-! ### The whole mainline sort -/

/-- The mainline loop never panics, with any fuel. -/
theorem mainlineFrom_ne_panic : ∀ (fuel : Nat) (p : EventId) (acc : List EventId),
    mainlineFrom fetch p acc fuel ≠ panic
  | 0, _, _ => nofun
  | fuel + 1, p, acc => by
    simp only [mainlineFrom]
    refine bind_ne_panic (settles_okOr _ _).ne_panic fun ev _ =>
      bind_ne_panic (firstPowerLevels_settles fetch ev.authEvents).ne_panic fun r _ => ?_
    rcases r with _ | ⟨aid, aev⟩
    · nofun
    · exact mainlineFrom_ne_panic fuel aid _

/-- The depth walk never panics, with any fuel. -/
theorem mainlineDepthFrom_ne_panic (mainlineMap : HMap EventId Nat) :
    ∀ (fuel : Nat) (ev : Pdu), mainlineDepthFrom fetch mainlineMap ev fuel ≠ panic
  | 0, _ => nofun
  | fuel + 1, ev => by
    simp only [mainlineDepthFrom]
    cases mainlineMap.lookup ev.eventId with
    | some d => nofun
    | none =>
      refine bind_ne_panic (firstPowerLevels_settles fetch ev.authEvents).ne_panic fun r _ => ?_
      rcases r with _ | ⟨aid, aev⟩
      · nofun
      · exact mainlineDepthFrom_ne_panic mainlineMap fuel aev

theorem orderStep_ne_panic (mainlineMap : HMap EventId Nat) (fuel : Nat) (om : HMap EventId OrderKey)
    (e : EventId) : orderStep fetch mainlineMap fuel om e ≠ panic := by
  unfold orderStep
  cases fetch e with
  | none => nofun
  | some ev =>
    refine bind_ne_panic (result_ne_panic (mainlineDepthFrom_ne_panic mainlineMap fuel ev)) fun r _ => ?_
    cases r <;> nofun

/-- The keys of `order_map`, each read back with the `unwrap` of the sort, are all found. -/
theorem keyed_settles (H : HashOrder) (om : HMap EventId OrderKey) :
    Settles ((H.arrange om.keys).mapM fun sortId => do
      let key ← expect (om.lookup sortId)
      pure (key, sortId)) fun _ => True :=
  mapM_settles (P := fun _ => True) fun x hx => by
    obtain ⟨v, hv⟩ := Option.isSome_iff_exists.mp
      (AList.lookup_isSome.mpr (AList.mem_keys.mp ((H.mem_arrange).mp hx)))
    simp only [hv, expect, ok_bind, pure_eq]
    exact settles_ok trivial

/-- **The mainline sort never panics**, with any fuel: the `unwrap` on `order_map` always finds its
key. -/
theorem mainlineSort_ne_panic (H : HashOrder) (fuel : Nat) (toSort : List EventId) (P : Option EventId) :
    mainlineSort fetch H fuel toSort P ≠ panic := by
  unfold mainlineSort
  split_ifs
  · nofun
  · refine bind_ne_panic ?_ fun ms _ => bind_ne_panic (foldlM_ne_panic (fun om e _ =>
      orderStep_ne_panic _ fuel om e) ∅) fun om _ => bind_ne_panic (keyed_settles H om).ne_panic fun _ _ => nofun
    cases P
    · nofun
    · exact mainlineFrom_ne_panic fuel _ []

section WellFoundedSort

variable (hwf : WellFounded fun y x => PlStep fetch x y)
include hwf

theorem orderStep_stabilizes (mainlineMap : HMap EventId Nat) (om : HMap EventId OrderKey) (e : EventId) :
    Stabilizes fun fuel => orderStep fetch mainlineMap fuel om e := by
  unfold orderStep
  cases fetch e with
  | none => exact Stabilizes.of_settles (settles_ok (P := fun _ => True) trivial)
  | some ev =>
    obtain ⟨N, o, ho, hrun⟩ := getMainlineDepth_settles hwf mainlineMap (some ev)
    have hdepth : Stabilizes fun fuel => (getMainlineDepth fetch mainlineMap (some ev) fuel).result :=
      ⟨N, o.result, ho.result, fun fuel => by simp only [hrun]⟩
    refine (Stabilizes.bind hdepth fun r => Stabilizes.of_settles (P := fun _ => True) ?_).of_eq fun _ => rfl
    cases r <;> exact settles_ok trivial

/-- **The mainline sort ends**, when power-levels chains are finite: with one sorted list or
`Error` for all enough fuel. -/
theorem mainlineSort_stabilizes (H : HashOrder) (toSort : List EventId) (P : Option EventId) :
    Stabilizes fun fuel => mainlineSort fetch H fuel toSort P := by
  by_cases h : toSort.isEmpty = true
  · exact (Stabilizes.of_settles (settles_ok (P := fun _ => True) (a := ([] : List EventId)) trivial)).of_eq
      fun fuel => by simp [mainlineSort, h]
  · have hloop : Stabilizes (mainlineLoop fetch P) := mainlineLoop_settles hwf P
    simp only [mainlineSort, h, Bool.false_eq_true, if_false]
    exact Stabilizes.bind hloop fun ms => Stabilizes.bind
      (foldlM_stabilizes (fun om e _ => orderStep_stabilizes hwf _ om e) ∅) fun om =>
        Stabilizes.of_settles ((keyed_settles H om).bind fun _ _ => settles_ok (P := fun _ => True) trivial)

end WellFoundedSort

end RumaStateRes.MainlineTermination
