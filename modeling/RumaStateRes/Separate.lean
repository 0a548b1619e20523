import RumaStateRes.Core.Event

/-! # Separation of conflicted state

`separate` walks the keys of all state sets (each key once, `unique`) and sorts each into the
unconflicted map, when every state set holds the same id for it, or into the conflicted map, with
the ids that are present in input order (§4.1 of the spec).

The loop is `foldlM` over the keys of `separateStep`. `separateStep_ok` says what one step does to
the invariant `Separated` of the keys done so far; `separate_ok` reads the invariant off at the
end as a `Partition`: `separate` never panics, the two key sets partition the keys of the input,
the unconflicted map holds exactly the ids on which all (and at least one) state sets agree, and
the conflicted map holds the present ids in order.

* `separate_spec`: the partition, field by field;
* `separate_nil_unconflicted`: on the empty list of state sets both maps are empty, although every
  state set of the (empty) list agrees on every key;
* `separate_of_forall_eq`: state sets that all hold one map have no conflicted key;
* `separate_congr`: state sets that hold the same maps, in any order and any number of times,
  separate, under any two hash orders, into maps with the same lookups and the same conflicted ids.

`getAuthChainDiff` counts each id over the auth chain sets and keeps those some set lacks: as the
sets have no repeats, an id's count is the number of sets that hold it (`count_flatMap_arrange`).

* `getAuthChainDiff_spec`: the ids yielded are those of the union of the sets that are not in their
  intersection, each once, for every hash order. -/

namespace RumaStateRes.Separate

open RumaStateRes.Core.Result RumaStateRes.Core.Collections RumaStateRes.Core.Event
open Outcome

variable {α : Type} [DecidableEq α]

/-- `Itertools::unique`: each element at its first occurrence. -/
def unique : List α → List α
  | [] => []
  | a :: l => a :: (unique l).erase a

/-- `Itertools::all_equal`: every element equals the first; true of the empty list. -/
def allEqual : List α → Bool
  | [] => true
  | a :: l => l.all (a == ·)

theorem nodup_unique : ∀ l : List α, (unique l).Nodup
  | [] => List.nodup_nil
  | a :: l => List.nodup_cons.mpr ⟨(nodup_unique l).not_mem_erase, (nodup_unique l).erase a⟩

@[simp] theorem mem_unique {a : α} : ∀ {l : List α}, a ∈ unique l ↔ a ∈ l
  | [] => Iff.rfl
  | b :: l => by
    rw [unique, List.mem_cons, (nodup_unique l).mem_erase_iff, mem_unique, List.mem_cons]
    by_cases h : a = b <;> simp [h]

theorem allEqual_iff {l : List α} : allEqual l = true ↔ ∀ a ∈ l, ∀ b ∈ l, a = b := by
  cases l with
  | nil => simp [allEqual]
  | cons a l =>
    simp only [allEqual, List.all_eq_true, beq_iff_eq, List.mem_cons]
    exact ⟨fun h x hx y hy => by
      rcases hx with rfl | hx <;> rcases hy with rfl | hy
      exacts [rfl, h y hy, (h x hx).symm, (h x hx).symm.trans (h y hy)],
      fun h x hx => h a (Or.inl rfl) x (Or.inr hx)⟩

/-- The body of the loop of `separate`, for one key. -/
def separateStep (stateSets : List (StateMap EventId))
    (acc : StateMap EventId × StateMap (List EventId)) (key : StateKey) :
    Outcome (StateMap EventId × StateMap (List EventId)) :=
  let eventIds := stateSets.map (·.lookup key)
  if allEqual eventIds then do
    let id ← expect (← expect eventIds.getLast?)
    pure (acc.1.insert key id, acc.2)
  else pure (acc.1, acc.2.insert key (eventIds.filterMap id))

/-- **`separate`**: the unconflicted and the conflicted state of the state sets. -/
def separate (H : HashOrder) (stateSets : List (StateMap EventId)) :
    Outcome (StateMap EventId × StateMap (List EventId)) :=
  (unique (stateSets.flatMap fun m => H.arrange m.keys)).foldlM (separateStep stateSets) (∅, ∅)

/-! ### The invariant of the loop -/

variable (L : List (StateMap EventId))

/-- What `separate` has built after the keys `done`. -/
structure Separated (done : List StateKey) (U : StateMap EventId) (C : StateMap (List EventId)) :
    Prop where
  keys : ∀ k, k ∈ U ∨ k ∈ C ↔ k ∈ done
  disjoint : ∀ k, k ∈ U → k ∉ C
  unconflicted : ∀ k v, U.lookup k = some v ↔ k ∈ done ∧ L ≠ [] ∧ ∀ m ∈ L, m.lookup k = some v
  conflicted : ∀ k ∈ C, C.lookup k = some (L.filterMap (·.lookup k))

theorem separated_nil : Separated L [] ∅ ∅ :=
  ⟨by simp, by simp, by simp, by simp⟩

theorem lookup_eq_of_allEqual {key : StateKey} {m₀ : StateMap EventId} (hm₀ : m₀ ∈ L)
    (hk : key ∈ m₀) (h : allEqual (L.map (·.lookup key)) = true) :
    ∃ v, ∀ m ∈ L, m.lookup key = some v := by
  obtain ⟨v, hv⟩ := Option.isSome_iff_exists.mp (AList.lookup_isSome.mpr hk)
  refine ⟨v, fun m hm => ?_⟩
  rw [← hv]
  exact allEqual_iff.mp h _ (List.mem_map_of_mem _ hm) _ (List.mem_map_of_mem _ hm₀)

theorem separateStep_ok {done : List StateKey} {U : StateMap EventId} {C : StateMap (List EventId)}
    (hs : Separated L done U C) {key : StateKey} (hkey : ∃ m ∈ L, key ∈ m) (hfresh : key ∉ done) :
    ∃ U' C', separateStep L (U, C) key = ok (U', C') ∧ Separated L (done ++ [key]) U' C' := by
  obtain ⟨m₀, hm₀, hk₀⟩ := hkey
  have hU : key ∉ U := fun h => hfresh ((hs.keys key).mp (Or.inl h))
  have hC : key ∉ C := fun h => hfresh ((hs.keys key).mp (Or.inr h))
  have hL : L ≠ [] := List.ne_nil_of_mem hm₀
  simp only [separateStep]
  split_ifs with h
  · obtain ⟨v, hv⟩ := lookup_eq_of_allEqual L hm₀ hk₀ h
    have hlast : (L.map (·.lookup key)).getLast? = some (some v) := by
      have hne : L.map (·.lookup key) ≠ [] := by simpa using hL
      obtain ⟨m, hm, he⟩ := List.mem_map.mp (List.getLast_mem hne)
      rw [List.getLast?_eq_getLast _ hne, ← he, hv m hm]
    refine ⟨U.insert key v, C, by simp [hlast, expect], ⟨fun k => ?_, fun k hk => ?_, fun k w => ?_,
      hs.conflicted⟩⟩
    · simp only [AList.mem_insert, List.mem_append, List.mem_singleton, ← hs.keys k, or_comm, or_left_comm, or_assoc]
    · rcases (AList.mem_insert _).mp hk with rfl | hk
      exacts [hC, hs.disjoint k hk]
    · by_cases hkk : k = key
      · subst hkk
        simp only [AList.lookup_insert, Option.some.injEq, List.mem_append, List.mem_singleton,
          or_true, true_and, hL, ne_eq, not_false_eq_true]
        exact ⟨fun e => e ▸ hv, fun h' => Option.some.inj ((hv m₀ hm₀).symm.trans (h' m₀ hm₀))⟩
      · simp [AList.lookup_insert_ne hkk, hs.unconflicted, hkk]
  · refine ⟨U, C.insert key (L.filterMap (·.lookup key)), by simp, ⟨fun k => ?_, fun k hk => ?_,
      fun k w => ?_, fun k hk => ?_⟩⟩
    · simp only [AList.mem_insert, List.mem_append, List.mem_singleton, ← hs.keys k, or_comm, or_left_comm, or_assoc]
    · rw [AList.mem_insert, not_or]
      exact ⟨fun e => hU (e ▸ hk), hs.disjoint k hk⟩
    · by_cases hkk : k = key
      · subst hkk
        refine ⟨fun h' => absurd (AList.lookup_isSome.mp (by simp [h'])) hU, fun ⟨_, _, hall⟩ => ?_⟩
        refine absurd (allEqual_iff.mpr ?_) h
        intro a ha b hb
        obtain ⟨m, hm, rfl⟩ := List.mem_map.mp ha
        obtain ⟨m', hm', rfl⟩ := List.mem_map.mp hb
        rw [hall m hm, hall m' hm']
      · simp [hs.unconflicted, hkk]
    · by_cases hkk : k = key
      · subst hkk; exact AList.lookup_insert _
      · rw [AList.lookup_insert_ne hkk]
        exact hs.conflicted k (((AList.mem_insert _).mp hk).resolve_left hkk)

/-! ### What `separate` computes -/

/-- **The partition `separate` returns**: its key sets split the keys of the state sets, the
unconflicted map holds the ids on which all (and at least one) state sets agree, and the conflicted
map the present ids in order. -/
structure Partition (U : StateMap EventId) (C : StateMap (List EventId)) : Prop where
  disjoint : ∀ k, k ∈ U → k ∉ C
  keys : ∀ k, k ∈ U ∨ k ∈ C ↔ ∃ m ∈ L, k ∈ m
  unconflicted : ∀ k v, U.lookup k = some v ↔ L ≠ [] ∧ ∀ m ∈ L, m.lookup k = some v
  conflicted : ∀ k ∈ C, C.lookup k = some (L.filterMap (·.lookup k))

theorem separate_ok (H : HashOrder) : ∃ U C, separate H L = ok (U, C) ∧ Partition L U C := by
  set ks := unique (L.flatMap fun m => H.arrange m.keys)
  have hks : ∀ k, k ∈ ks ↔ ∃ m ∈ L, k ∈ m := by
    simp [ks, List.mem_flatMap, AList.mem_keys]
  obtain ⟨⟨U, C⟩, h, hs⟩ := foldlM_ok_of_prefix (separateStep L) ks
    (fun done (acc : StateMap EventId × StateMap (List EventId)) => Separated L done acc.1 acc.2)
    (fun pre c suf acc hl hp => by
      have hnd : (pre ++ c :: suf).Nodup := hl ▸ nodup_unique _
      obtain ⟨U', C', h', hs'⟩ := separateStep_ok L hp ((hks c).mp (by simp [hl]))
        fun hc => (List.nodup_cons.mp (List.nodup_middle.mp hnd)).1 (List.mem_append_left _ hc)
      exact ⟨(U', C'), h', hs'⟩) (∅, ∅) (separated_nil L)
  refine ⟨U, C, h, hs.disjoint, fun k => (hs.keys k).trans (hks k), fun k v => ?_, hs.conflicted⟩
  rw [hs.unconflicted]
  constructor
  · exact fun ⟨_, h⟩ => h
  · rintro ⟨hL, hall⟩
    obtain ⟨m, hm⟩ := List.exists_mem_of_ne_nil L hL
    exact ⟨(hks k).mpr ⟨m, hm, AList.lookup_isSome.mp (by simp [hall m hm])⟩, hL, hall⟩

theorem separate_spec (H : HashOrder) :
    ∃ U C, separate H L = ok (U, C) ∧
      (∀ k, k ∈ U → k ∉ C) ∧
      (∀ k, k ∈ U ∨ k ∈ C ↔ ∃ m ∈ L, k ∈ m) ∧
      (∀ k v, U.lookup k = some v ↔ L ≠ [] ∧ ∀ m ∈ L, m.lookup k = some v) ∧
      (∀ k ∈ C, C.lookup k = some (L.filterMap (·.lookup k))) := by
  obtain ⟨U, C, h, hp⟩ := separate_ok L H
  exact ⟨U, C, h, hp.disjoint, hp.keys, hp.unconflicted, hp.conflicted⟩

theorem separate_nil_unconflicted : ¬ ∃ U C, separate HashOrder.stored [] = ok (U, C) ∧
    ∀ k v, U.lookup k = some v ↔ ∀ m ∈ ([] : List (StateMap EventId)), m.lookup k = some v := by
  rintro ⟨U, C, h, hU⟩
  cases (show separate HashOrder.stored [] = ok (∅, ∅) from rfl).symm.trans h
  simpa using hU (.roomCreate, "") "$create"

/-- State sets that all hold the map `S` have no conflicted key, and `S` is their unconflicted
state. -/
theorem separate_of_forall_eq (H : HashOrder) {S : StateMap EventId} (hL : L ≠ [])
    (hS : ∀ m ∈ L, ∀ k, m.lookup k = S.lookup k) :
    ∃ U C, separate H L = ok (U, C) ∧ C.entries = [] ∧ ∀ k, U.lookup k = S.lookup k := by
  obtain ⟨U, C, h, ⟨hdis, hkeys, hU, -⟩⟩ := separate_ok L H
  obtain ⟨m₀, hm₀⟩ := List.exists_mem_of_ne_nil L hL
  have hagree : ∀ k v, S.lookup k = some v → U.lookup k = some v := fun k v hv =>
    (hU k v).mpr ⟨hL, fun m hm => (hS m hm k).trans hv⟩
  refine ⟨U, C, h, List.eq_nil_iff_forall_not_mem.mpr fun ⟨k, l⟩ hkl => ?_, fun k => ?_⟩
  · have hC : k ∈ C := AList.mem_keys.mpr (List.mem_map_of_mem Sigma.fst hkl)
    obtain ⟨m, hm, hkm⟩ := (hkeys k).mp (Or.inr hC)
    obtain ⟨v, hv⟩ := Option.isSome_iff_exists.mp (AList.lookup_isSome.mpr hkm)
    exact hdis k (AList.lookup_isSome.mp (by simp [hagree k v ((hS m hm k).symm.trans hv)])) hC
  · cases hSk : S.lookup k with
    | some v => exact hagree k v hSk
    | none =>
      cases hUk : U.lookup k with
      | none => rfl
      | some v => simpa [hS m₀ hm₀ k, hSk] using ((hU k v).mp hUk).2 m₀ hm₀

/-! ### The auth chain difference -/

/-- **`get_auth_chain_diff`**: the ids counted, over all auth chain sets, fewer times than there
are sets. -/
def getAuthChainDiff (H : HashOrder) (authChainSets : List (HSet EventId)) : List EventId :=
  let numSets := authChainSets.length
  let idCounts := (authChainSets.flatMap fun s => H.arrange s.elems).foldl
    (fun idCounts id => idCounts.modify id 0 (· + 1)) (∅ : HMap EventId Nat)
  (H.arrange idCounts.entries).filterMap fun e => if e.2 < numSets then some e.1 else none

/-- The count table after the ids `l`: an id of `l` gains its number of occurrences. -/
theorem lookup_foldl_count : ∀ (l : List EventId) (m : HMap EventId Nat) (x : EventId),
    (l.foldl (fun idCounts id => idCounts.modify id 0 (· + 1)) m).lookup x =
      if x ∈ l then some ((m.lookup x).getD 0 + l.count x) else m.lookup x
  | [], _, _ => rfl
  | a :: l, m, x => by
    rw [List.foldl_cons, lookup_foldl_count l, HMap.lookup_modify]
    by_cases hxa : x = a
    · subst hxa
      by_cases hxl : x ∈ l
      · simp [hxl, List.count_cons]; omega
      · simp [hxl, List.count_cons, List.count_eq_zero_of_not_mem hxl]
    · by_cases hxl : x ∈ l <;> simp [hxa, hxl, List.count_cons, Ne.symm hxa]

/-- Over sets without repeats, an id occurs in the flattened sets once per set that holds it. -/
theorem count_flatMap_arrange (H : HashOrder) (x : EventId) :
    ∀ sets : List (HSet EventId), (sets.flatMap fun s => H.arrange s.elems).count x = sets.countP (x ∈ ·)
  | [] => rfl
  | s :: sets => by
    rw [List.flatMap_cons, List.count_append, count_flatMap_arrange H x sets, (H.perm _).count_eq,
      List.countP_cons, Nat.add_comm]
    by_cases hx : x ∈ s
    · simp [List.count_eq_one_of_mem s.nodup hx, hx]
    · simp [List.count_eq_zero_of_not_mem hx, hx]

/-- Keeping the keys of some entries of a list without repeated keys gives no repeats. -/
theorem nodup_filterMap_key {β : Type} (p : β → Prop) [DecidablePred p] :
    ∀ {l : List (Σ _ : EventId, β)}, l.NodupKeys →
      (l.filterMap fun e => if p e.2 then some e.1 else none).Nodup
  | [], _ => List.nodup_nil
  | e :: l, h => by
    rw [List.nodupKeys_cons] at h
    by_cases hp : p e.2
    · rw [List.filterMap_cons, if_pos hp]
      refine List.nodup_cons.mpr ⟨fun hm => h.1 ?_, nodup_filterMap_key p h.2⟩
      obtain ⟨e', he', hfe⟩ := List.mem_filterMap.mp hm
      split_ifs at hfe
      exact Option.some.inj hfe ▸ List.mem_keys_of_mem he'
    · rw [List.filterMap_cons, if_neg hp]
      exact nodup_filterMap_key p h.2

/-- The keys of the entries a `filter_map` over a map keeps: those whose value passes. -/
theorem exists_entry_key_iff {β : Type} (p : β → Prop) [DecidablePred p] (m : HMap EventId β)
    (x : EventId) :
    (∃ e ∈ m.entries, (if p e.2 then some e.1 else none) = some x) ↔ ∃ c, m.lookup x = some c ∧ p c := by
  constructor
  · rintro ⟨⟨k, c⟩, he, hx⟩
    split_ifs at hx with hp
    cases hx
    exact ⟨c, AList.mem_lookup_iff.mpr he, hp⟩
  · rintro ⟨c, hc, hp⟩
    exact ⟨⟨x, c⟩, AList.mem_lookup_iff.mp hc, by simp [hp]⟩

/-- The ids `get_auth_chain_diff` yields: those some set holds and some set lacks. -/
theorem mem_getAuthChainDiff {H : HashOrder} {authChainSets : List (HSet EventId)} {x : EventId} :
    x ∈ getAuthChainDiff H authChainSets ↔ (∃ s ∈ authChainSets, x ∈ s) ∧ ¬ ∀ s ∈ authChainSets, x ∈ s := by
  have hmem : x ∈ (authChainSets.flatMap fun s => H.arrange s.elems) ↔ ∃ s ∈ authChainSets, x ∈ s := by
    simp [List.mem_flatMap, HSet.mem_def]
  have hlt : authChainSets.countP (x ∈ ·) < authChainSets.length ↔ ¬ ∀ s ∈ authChainSets, x ∈ s := by
    rw [(List.countP_le_length _).lt_iff_ne, Ne, List.countP_eq_length]
    simp
  simp only [getAuthChainDiff, List.mem_filterMap, HashOrder.mem_arrange]
  rw [exists_entry_key_iff (· < authChainSets.length), lookup_foldl_count, ← hmem]
  by_cases hx : x ∈ authChainSets.flatMap fun s => H.arrange s.elems
  · simp [hx, count_flatMap_arrange, hlt]
  · simp [hx]

theorem getAuthChainDiff_spec (H : HashOrder) (authChainSets : List (HSet EventId)) :
    (getAuthChainDiff H authChainSets).Nodup ∧
      ∀ x, x ∈ getAuthChainDiff H authChainSets ↔
        (∃ s ∈ authChainSets, x ∈ s) ∧ ¬ ∀ s ∈ authChainSets, x ∈ s :=
  ⟨nodup_filterMap_key (· < authChainSets.length) ((List.perm_nodupKeys (H.perm _)).mpr (AList.nodupKeys _)),
    fun _ => mem_getAuthChainDiff⟩

/-! ### Inputs up to order and repeats -/

/-- Auth chain sets that hold the same sets, in any order and any number of times, have the same
difference, for all hash orders. -/
theorem mem_getAuthChainDiff_congr {H H' : HashOrder} {A A' : List (HSet EventId)}
    (hA : SameUpTo (fun s s' : HSet EventId => ∀ x, x ∈ s ↔ x ∈ s') A A') (x : EventId) :
    x ∈ getAuthChainDiff H A ↔ x ∈ getAuthChainDiff H' A' := by
  rw [mem_getAuthChainDiff, mem_getAuthChainDiff, hA.exists_iff (x ∈ ·) fun s s' hs => hs x,
    hA.forall_iff (x ∈ ·) fun s s' hs => hs x]

/-- The conflicted keys are the keys of the state sets that the unconflicted state lacks. -/
theorem Partition.mem_conflicted_iff {L : List (StateMap EventId)} {U : StateMap EventId}
    {C : StateMap (List EventId)} (hp : Partition L U C) (k : StateKey) : k ∈ C ↔ (∃ m ∈ L, k ∈ m) ∧ k ∉ U :=
  ⟨fun hk => ⟨(hp.keys k).mp (Or.inr hk), fun hu => hp.disjoint k hu hk⟩,
    fun ⟨hk, hu⟩ => ((hp.keys k).mpr hk).resolve_left hu⟩

/-- An id is conflicted at a key when the key is conflicted and some state set holds the id
there. -/
theorem Partition.exists_ids_iff {L : List (StateMap EventId)} {U : StateMap EventId}
    {C : StateMap (List EventId)} (hp : Partition L U C) (k : StateKey) (x : EventId) :
    (∃ ids, C.lookup k = some ids ∧ x ∈ ids) ↔ k ∈ C ∧ ∃ m ∈ L, m.lookup k = some x := by
  constructor
  · rintro ⟨ids, hk, hx⟩
    have hkC : k ∈ C := AList.lookup_isSome.mp (by simp [hk])
    rw [hp.conflicted k hkC, Option.some.injEq] at hk
    subst hk
    exact ⟨hkC, List.mem_filterMap.mp hx⟩
  · rintro ⟨hkC, hx⟩
    exact ⟨_, hp.conflicted k hkC, List.mem_filterMap.mpr hx⟩

/-- **Separation up to order and repeats**: state sets that hold the same maps, in any order and
any number of times, give the same unconflicted state, the same conflicted keys and the same
conflicted ids at each key, for all hash orders. -/
theorem separate_congr {L L' : List (StateMap EventId)}
    (hL : SameUpTo (fun s s' : StateMap EventId => ∀ k, s.lookup k = s'.lookup k) L L') {H H' : HashOrder}
    {U U' : StateMap EventId} {C C' : StateMap (List EventId)} (h : separate H L = ok (U, C))
    (h' : separate H' L' = ok (U', C')) :
    (∀ k, U.lookup k = U'.lookup k) ∧ (∀ k, k ∈ C ↔ k ∈ C') ∧
      ∀ k x, (∃ ids, C.lookup k = some ids ∧ x ∈ ids) ↔ ∃ ids, C'.lookup k = some ids ∧ x ∈ ids := by
  obtain ⟨U₁, C₁, h₁, hp⟩ := separate_ok L H
  obtain ⟨U₁', C₁', h₁', hp'⟩ := separate_ok L' H'
  cases h.symm.trans h₁
  cases h'.symm.trans h₁'
  have hall : ∀ k v, (∀ m ∈ L, m.lookup k = some v) ↔ ∀ m ∈ L', m.lookup k = some v := fun k v =>
    hL.forall_iff (fun m => m.lookup k = some v) fun s s' hs => by simp only [hs]
  have hU : ∀ k, U.lookup k = U'.lookup k := fun k => Option.ext fun v => by
    rw [Option.mem_def, Option.mem_def, hp.unconflicted, hp'.unconflicted, hL.ne_nil_iff, hall]
  have hUmem : ∀ k, k ∈ U ↔ k ∈ U' := fun k => by
    simp only [← AList.lookup_isSome, hU]
  have hkeys : ∀ k, (∃ m ∈ L, k ∈ m) ↔ ∃ m ∈ L', k ∈ m := fun k =>
    hL.exists_iff (k ∈ ·) fun s s' hs => by simp only [← AList.lookup_isSome, hs]
  have hCk : ∀ k, k ∈ C ↔ k ∈ C' := fun k => by
    rw [hp.mem_conflicted_iff, hp'.mem_conflicted_iff, hkeys, hUmem]
  refine ⟨hU, hCk, fun k x => ?_⟩
  rw [hp.exists_ids_iff, hp'.exists_ids_iff, hCk,
    hL.exists_iff (fun m => m.lookup k = some x) fun s s' hs => by simp only [hs]]

end RumaStateRes.Separate
