import RumaStateRes.Core.Event

/-! # Iterative auth check

`iterative_auth_check` walks a list of event ids and, for each event, assembles its auth context
(`authContext`): the declared auth events it can fetch, keyed by their own type and state key, with
the events the state resolved so far holds overlaid at every key `auth_types_for_event` names. The
third-party invite handed to `auth_check` is the first one the context map yields
(`currentThirdParty`). Accepted events go into the resolved state under their own key.

* `lookup_authContext`: the context, as a lookup, is `contextLookup`: the resolved state's event
  where it holds a fetchable one at a key of `auth_types_for_event`, else the last fetchable
  declared auth event of that key;
* `recordIfAccepted_cases`: one event leaves the state as it is, or is accepted and recorded under
  its own type and state key;
* `iterativeAuthCheck_spec`: a run that ends with a map is the fold of `recordIfAccepted` over the
  list; seed keys are never removed, and every value that is not the seed's is an id accepted at its
  turn and stored under its own type and state key;
* `iterativeAuthCheck_thirdParty_order`: two hash orders of one context, with two third-party
  invites in it, hand `auth_check` different invites, and the run accepts under one order and
  rejects under the other;
* `iterativeAuthCheck_agree`: that is the only way a hash order reaches the run: under two orders
  that give `auth_check` the same verdicts, runs from seeds with the same lookups agree, event by
  event;
* `iterativeAuthCheck_settles`: a run never panics and never runs out of fuel;
* `iterativeAuthCheck_order_independent`: so, when `auth_check` does not depend on which invite of
  the context it is handed (`InviteIndifferent`), two runs under any two orders both end with
  states with the same lookups or both with one `Error`. -/

namespace RumaStateRes.AuthCheck

open RumaStateRes.Core.Result RumaStateRes.Core.Collections RumaStateRes.Core.Event
open Outcome

variable (co : Collaborators) (H : HashOrder) (fetch : EventId → Option Pdu)

/-- One declared auth event: inserted under its own type and state key if it can be fetched. -/
def insertAuthEvent (authEvents : StateMap Pdu) (aid : EventId) : Outcome (StateMap Pdu) :=
  match fetch aid with
  | some ev => do
    let stateKey ← okOr (.invalidPdu "State event had no state key") ev.stateKey
    pure (authEvents.insert (ev.eventType, stateKey) ev)
  | none => pure authEvents

/-- One key of `auth_types_for_event`: the event the resolved state holds there, if it can be
fetched, replaces the declared one. -/
def overlayResolved (resolvedState : StateMap EventId) (authEvents : StateMap Pdu) (key : StateKey) :
    StateMap Pdu :=
  match resolvedState.lookup key with
  | some evId =>
    match fetch evId with
    | some event => authEvents.insert key event
    | none => authEvents
  | none => authEvents

/-- The auth context of `event` (the `auth_events` map of the loop body). -/
def authContext (resolvedState : StateMap EventId) (event : Pdu) (stateKey : String) :
    Outcome (StateMap Pdu) := do
  let authEvents ← event.authEvents.foldlM (insertAuthEvent fetch) ∅
  let keys ← ofExcept (co.authTypesForEvent event.eventType event.sender (some stateKey) event.content)
  pure (keys.foldl (overlayResolved fetch resolvedState) authEvents)

/-- `current_third_party`: the first third-party invite the context map yields. -/
def currentThirdParty (authEvents : StateMap Pdu) : Option Pdu :=
  (H.arrange authEvents.entries).findSome? fun e =>
    if e.2.eventType = .roomThirdPartyInvite then some e.2 else none

/-- The body of the loop of `iterative_auth_check`, for one event id. -/
def authCheckStep (roomVersion : RoomVersion) (resolvedState : StateMap EventId) (eventId : EventId) :
    Outcome (StateMap EventId) := do
  let event ← okOr (.notFound ("Failed to find " ++ eventId)) (fetch eventId)
  let stateKey ← okOr (.invalidPdu "State event had no state key") event.stateKey
  let authEvents ← authContext co fetch resolvedState event stateKey
  let accepted ← ofExcept
    (co.authCheck roomVersion event (currentThirdParty H authEvents) fun k => authEvents.lookup k)
  pure (if accepted then resolvedState.insert (event.eventType, stateKey) eventId else resolvedState)

/-- **`iterative_auth_check`.** -/
def iterativeAuthCheck (roomVersion : RoomVersion) (eventsToCheck : List EventId)
    (unconflictedState : StateMap EventId) : Outcome (StateMap EventId) :=
  eventsToCheck.foldlM (authCheckStep co H fetch roomVersion) unconflictedState

/-! ### The context an event is checked against -/

/-- The declared auth event of `event` at key `k`: the last one that can be fetched and has that
type and state key. -/
def declaredAuthEvent (event : Pdu) (k : StateKey) : Option Pdu :=
  (event.authEvents.filterMap fetch).reverse.find? fun ev => ev.eventType = k.1 ∧ ev.stateKey = some k.2

/-- The context as a lookup: at a key of `auth_types_for_event` where the resolved state holds an
event that can be fetched, that event; everywhere else the declared auth event. -/
def contextLookup (resolvedState : StateMap EventId) (event : Pdu) (types : List StateKey)
    (k : StateKey) : Option Pdu :=
  if k ∈ types then ((resolvedState.lookup k).bind fetch).or (declaredAuthEvent fetch event k)
  else declaredAuthEvent fetch event k

theorem lookup_foldlM_insertAuthEvent :
    ∀ (l : List EventId) {A₀ A : StateMap Pdu}, l.foldlM (insertAuthEvent fetch) A₀ = ok A →
      ∀ k, A.lookup k = ((l.filterMap fetch).reverse.find? fun ev =>
        ev.eventType = k.1 ∧ ev.stateKey = some k.2).or (A₀.lookup k)
  | [], _, _, h, k => by cases h; rfl
  | a :: l, A₀, A, h, k => by
    obtain ⟨A₁, h₁, h⟩ := bind_eq_ok.mp h
    rw [lookup_foldlM_insertAuthEvent l h k]
    unfold insertAuthEvent at h₁
    cases hf : fetch a with
    | none => rw [hf] at h₁; cases h₁; simp [hf]
    | some ev =>
      rw [hf] at h₁
      obtain ⟨sk, hsk, h₁⟩ := bind_eq_ok.mp h₁
      cases h₁
      rw [okOr_eq_ok] at hsk
      by_cases hk : k = (ev.eventType, sk)
      · subst hk
        simp [hf, hsk, List.find?_append, AList.lookup_insert, Option.or_assoc]
      · have : ¬ (ev.eventType = k.1 ∧ ev.stateKey = some k.2) := by
          rintro ⟨h1, h2⟩; exact hk (Prod.ext h1.symm (by simpa [hsk] using h2.symm))
        simp [hf, List.find?_append, AList.lookup_insert_ne hk, this, Option.or_assoc]

theorem lookup_foldl_overlayResolved (resolvedState : StateMap EventId) :
    ∀ (keys : List StateKey) (A : StateMap Pdu) (k : StateKey),
      (keys.foldl (overlayResolved fetch resolvedState) A).lookup k =
        if k ∈ keys then ((resolvedState.lookup k).bind fetch).or (A.lookup k) else A.lookup k
  | [], _, _ => rfl
  | key :: keys, A, k => by
    rw [List.foldl_cons, lookup_foldl_overlayResolved resolvedState keys]
    have hA : (overlayResolved fetch resolvedState A key).lookup k =
        if k = key then ((resolvedState.lookup k).bind fetch).or (A.lookup k) else A.lookup k := by
      unfold overlayResolved
      split_ifs with hk
      · subst hk
        cases hr : resolvedState.lookup k with
        | none => rfl
        | some e => cases hf : fetch e <;> simp [hf, AList.lookup_insert]
      · cases hr : resolvedState.lookup key with
        | none => rfl
        | some e => cases hf : fetch e <;> simp [hf, AList.lookup_insert_ne hk]
    rw [hA]
    by_cases h2 : k = key
    · subst h2
      by_cases h1 : k ∈ keys
      · cases (resolvedState.lookup k).bind fetch <;> simp [h1]
      · simp [h1]
    · by_cases h1 : k ∈ keys <;> simp [h1, h2]

theorem lookup_authContext {resolvedState : StateMap EventId} {event : Pdu} {stateKey : String}
    {types : List StateKey}
    (htypes : co.authTypesForEvent event.eventType event.sender (some stateKey) event.content = .ok types)
    {ctx : StateMap Pdu} (h : authContext co fetch resolvedState event stateKey = ok ctx) (k : StateKey) :
    ctx.lookup k = contextLookup fetch resolvedState event types k := by
  obtain ⟨A, hA, h⟩ := bind_eq_ok.mp h
  rw [htypes] at h
  cases h
  rw [lookup_foldl_overlayResolved, lookup_foldlM_insertAuthEvent fetch _ hA]
  simp [contextLookup, declaredAuthEvent]

/-! ### What a run computes -/

variable (roomVersion : RoomVersion)

/-- Whether `auth_check` accepts `event`, with state key `stateKey`, against the state resolved so
far (its context, and the third-party invite the context yields first). -/
def acceptedBy (resolvedState : StateMap EventId) (event : Pdu) (stateKey : String) : Bool :=
  match authContext co fetch resolvedState event stateKey with
  | .ok authEvents =>
    match co.authCheck roomVersion event (currentThirdParty H authEvents) fun k => authEvents.lookup k with
    | .ok accepted => accepted
    | .error _ => false
  | _ => false

/-- One event, as §4.7 of the spec describes it: an accepted event is recorded under its own type
and state key, a rejected one leaves the state as it is. -/
def recordIfAccepted (resolvedState : StateMap EventId) (eventId : EventId) : StateMap EventId :=
  match fetch eventId with
  | some event =>
    match event.stateKey with
    | some stateKey =>
      if acceptedBy co H fetch roomVersion resolvedState event stateKey then
        resolvedState.insert (event.eventType, stateKey) eventId
      else resolvedState
    | none => resolvedState
  | none => resolvedState

theorem authCheckStep_ok {s s' : StateMap EventId} {e : EventId}
    (h : authCheckStep co H fetch roomVersion s e = ok s') :
    s' = recordIfAccepted co H fetch roomVersion s e := by
  obtain ⟨event, he, h⟩ := bind_eq_ok.mp h
  obtain ⟨sk, hsk, h⟩ := bind_eq_ok.mp h
  obtain ⟨ctx, hctx, h⟩ := bind_eq_ok.mp h
  obtain ⟨accepted, hacc, h⟩ := bind_eq_ok.mp h
  rw [okOr_eq_ok] at he hsk
  rw [ofExcept_eq_ok] at hacc
  cases h
  simp [recordIfAccepted, acceptedBy, he, hsk, hctx, hacc]

/-- What one event does to the state: nothing, or, accepted, it is recorded under its type and
state key. -/
theorem recordIfAccepted_cases (s : StateMap EventId) (e : EventId) :
    recordIfAccepted co H fetch roomVersion s e = s ∨
      ∃ ev sk, fetch e = some ev ∧ ev.stateKey = some sk ∧ acceptedBy co H fetch roomVersion s ev sk = true ∧
        recordIfAccepted co H fetch roomVersion s e = s.insert (ev.eventType, sk) e := by
  cases hev : fetch e with
  | none => exact Or.inl (by simp [recordIfAccepted, hev])
  | some ev =>
    cases hsk : ev.stateKey with
    | none => exact Or.inl (by simp [recordIfAccepted, hev, hsk])
    | some sk =>
      by_cases hacc : acceptedBy co H fetch roomVersion s ev sk = true
      · exact Or.inr ⟨ev, sk, rfl, hsk, hacc, by simp [recordIfAccepted, hev, hsk, hacc]⟩
      · exact Or.inl (by simp [recordIfAccepted, hev, hsk, hacc])

theorem foldl_recordIfAccepted_mem (seed : StateMap EventId) {k : StateKey} (hk : k ∈ seed) :
    ∀ l : List EventId, k ∈ l.foldl (recordIfAccepted co H fetch roomVersion) seed := by
  intro l
  induction l generalizing seed with
  | nil => exact hk
  | cons e l ih =>
    refine ih _ ?_
    rcases recordIfAccepted_cases co H fetch roomVersion seed e with h | ⟨_, _, _, _, _, h⟩ <;> rw [h]
    exacts [hk, (AList.mem_insert _).mpr (Or.inr hk)]

theorem lookup_foldl_recordIfAccepted :
    ∀ (l : List EventId) (seed : StateMap EventId) (k : StateKey) (v : EventId),
      (l.foldl (recordIfAccepted co H fetch roomVersion) seed).lookup k = some v →
        seed.lookup k = some v ∨ ∃ pre suf ev, l = pre ++ v :: suf ∧ fetch v = some ev ∧
          ev.eventType = k.1 ∧ ev.stateKey = some k.2 ∧
          acceptedBy co H fetch roomVersion (pre.foldl (recordIfAccepted co H fetch roomVersion) seed)
            ev k.2 = true
  | [], _, _, _, h => Or.inl h
  | e :: l, seed, k, v, h => by
    rcases lookup_foldl_recordIfAccepted l _ k v h with h | ⟨pre, suf, ev, rfl, hv⟩
    · rcases recordIfAccepted_cases co H fetch roomVersion seed e with he | ⟨ev, sk, hfe, hsk, hacc, he⟩ <;>
        rw [he] at h
      · exact Or.inl h
      · by_cases hkey : k = (ev.eventType, sk)
        · subst hkey
          rw [AList.lookup_insert] at h
          cases h
          exact Or.inr ⟨[], l, ev, rfl, hfe, rfl, hsk, hacc⟩
        · exact Or.inl (by rwa [AList.lookup_insert_ne hkey] at h)
    · exact Or.inr ⟨e :: pre, suf, ev, rfl, hv⟩

/-! ### Two third-party invites in one context -/

/-- A member event citing two third-party invites, with tokens `a` and `b`. -/
def twoInvites : EventId → Option Pdu
  | "$m" => some ⟨"$m", .roomMember, some "@u", "@u", "", ["$a", "$b"], 0⟩
  | "$a" => some ⟨"$a", .roomThirdPartyInvite, some "a", "@v", "", [], 0⟩
  | "$b" => some ⟨"$b", .roomThirdPartyInvite, some "b", "@v", "", [], 0⟩
  | _ => none

/-- Rules that accept an event exactly when the invite handed to them has token `a`, as the check
of a signed third-party token does. -/
def tokenRules : Collaborators where
  authCheck := fun _ _ invite _ => .ok (invite.bind (·.stateKey) == some "a")
  authTypesForEvent := fun _ _ _ _ => .ok []
  roomVersionNew := fun v => .ok ⟨v⟩
  memberContent := fun _ => none
  powerLevelsContent := fun _ => none

/-- A create event `$c`, and a member event `$m` that cites no auth event. -/
def createThenMember : EventId → Option Pdu
  | "$c" => some ⟨"$c", .roomCreate, some "", "@u", "", [], 0⟩
  | "$m" => some ⟨"$m", .roomMember, some "@u", "@u", "", [], 1⟩
  | _ => none

/-- Rules that accept a create event, and any other event only when its context holds a create
event, which they ask the resolved state for. -/
def createFirstRules : Collaborators where
  authCheck := fun _ ev _ ctx => .ok (ev.eventType == .roomCreate || (ctx (.roomCreate, "")).isSome)
  authTypesForEvent := fun _ _ _ _ => .ok [(.roomCreate, "")]
  roomVersionNew := fun v => .ok ⟨v⟩
  memberContent := fun _ => none
  powerLevelsContent := fun _ => none

/-- A run that ends with a map ends with the fold of `recordIfAccepted`. -/
theorem eq_foldl_of_iterativeAuthCheck {events : List EventId} {seed m : StateMap EventId}
    (h : iterativeAuthCheck co H fetch roomVersion events seed = ok m) :
    m = events.foldl (recordIfAccepted co H fetch roomVersion) seed := by
  induction events generalizing seed with
  | nil => cases h; rfl
  | cons e l ih =>
    obtain ⟨s₁, h₁, h⟩ := bind_eq_ok.mp h
    rw [List.foldl_cons, ← authCheckStep_ok co H fetch roomVersion h₁]
    exact ih h

theorem iterativeAuthCheck_spec (events : List EventId) (seed m : StateMap EventId)
    (h : iterativeAuthCheck co H fetch roomVersion events seed = ok m) :
    m = events.foldl (recordIfAccepted co H fetch roomVersion) seed ∧
      (∀ s ev sk types ctx,
        co.authTypesForEvent ev.eventType ev.sender (some sk) ev.content = .ok types →
        authContext co fetch s ev sk = ok ctx → ∀ k, ctx.lookup k = contextLookup fetch s ev types k) ∧
      (∀ k ∈ seed, k ∈ m) ∧
      ∀ k v, m.lookup k = some v → seed.lookup k = some v ∨
        ∃ pre suf ev, events = pre ++ v :: suf ∧ fetch v = some ev ∧ ev.eventType = k.1 ∧
          ev.stateKey = some k.2 ∧
          acceptedBy co H fetch roomVersion (pre.foldl (recordIfAccepted co H fetch roomVersion) seed)
            ev k.2 = true := by
  obtain rfl := eq_foldl_of_iterativeAuthCheck co H fetch roomVersion h
  exact ⟨rfl, fun s ev sk types ctx ht hc k => lookup_authContext co fetch ht hc k,
    fun k hk => foldl_recordIfAccepted_mem co H fetch roomVersion seed hk events,
    lookup_foldl_recordIfAccepted co H fetch roomVersion events seed⟩

theorem iterativeAuthCheck_spec_createThenMember :
    iterativeAuthCheck createFirstRules .stored createThenMember ⟨"10"⟩ ["$c", "$m"] ∅ =
        ok (((∅ : StateMap EventId).insert (.roomCreate, "") "$c").insert (.roomMember, "@u") "$m") ∧
      ((∅ : StateMap EventId).insert (.roomCreate, "") "$c").insert (.roomMember, "@u") "$m" =
        ["$c", "$m"].foldl (recordIfAccepted createFirstRules .stored createThenMember ⟨"10"⟩) ∅ ∧
      recordIfAccepted createFirstRules .stored createThenMember ⟨"10"⟩ ∅ "$m" = ∅ :=
  ⟨rfl, (iterativeAuthCheck_spec createFirstRules .stored createThenMember ⟨"10"⟩ ["$c", "$m"] ∅ _ rfl).1, rfl⟩

theorem iterativeAuthCheck_thirdParty_order :
    iterativeAuthCheck tokenRules .stored twoInvites ⟨"10"⟩ ["$m"] ∅ = ok ∅ ∧
      iterativeAuthCheck tokenRules .reversed twoInvites ⟨"10"⟩ ["$m"] ∅ =
        ok ((∅ : StateMap EventId).insert (.roomMember, "@u") "$m") :=
  ⟨rfl, rfl⟩

/-! ### Runs under two hash orders -/

/-- The context depends on the state resolved so far only through its lookups. -/
theorem authContext_congr {s s' : StateMap EventId} (hs : ∀ k, s.lookup k = s'.lookup k) (event : Pdu)
    (stateKey : String) : authContext co fetch s event stateKey = authContext co fetch s' event stateKey := by
  have hoverlay : overlayResolved fetch s = overlayResolved fetch s' := by
    funext authEvents key
    simp only [overlayResolved, hs]
  simp only [authContext, hoverlay]

/-- The invite `current_third_party` picks is a third-party invite of the context. -/
theorem currentThirdParty_eq_some {ctx : StateMap Pdu} {tp : Pdu} (h : currentThirdParty H ctx = some tp) :
    tp.eventType = .roomThirdPartyInvite ∧ ∃ k, ctx.lookup k = some tp := by
  obtain ⟨⟨k, ev⟩, he, hf⟩ := List.exists_of_findSome?_eq_some h
  split_ifs at hf with ht
  cases hf
  exact ⟨ht, k, AList.mem_lookup_iff.mpr ((H.mem_arrange).mp he)⟩

/-- `current_third_party` picks none exactly when the context holds no third-party invite, for
every hash order. -/
theorem currentThirdParty_eq_none {ctx : StateMap Pdu} :
    currentThirdParty H ctx = none ↔ ∀ k tp, ctx.lookup k = some tp → tp.eventType ≠ .roomThirdPartyInvite := by
  simp only [currentThirdParty, List.findSome?_eq_none_iff, HashOrder.mem_arrange]
  constructor
  · intro h k tp hk ht
    simpa [ht] using h ⟨k, tp⟩ (AList.mem_lookup_iff.mp hk)
  · rintro h ⟨k, tp⟩ he
    simp [h k tp (AList.mem_lookup_iff.mpr he)]

/-- `auth_check` gives an event one verdict whichever third-party invite of its context it is
handed, as it would if `current_third_party` were chosen by the token the event signs. -/
def InviteIndifferent (co : Collaborators) : Prop :=
  ∀ rv ev (ctx : StateMap Pdu) k k' tp tp', ctx.lookup k = some tp → ctx.lookup k' = some tp' →
    tp.eventType = .roomThirdPartyInvite → tp'.eventType = .roomThirdPartyInvite →
    co.authCheck rv ev (some tp) (fun k => ctx.lookup k) = co.authCheck rv ev (some tp') (fun k => ctx.lookup k)

/-- Under an invite-indifferent `auth_check`, two hash orders give every event in every context
the same verdict. -/
theorem authCheck_currentThirdParty {co : Collaborators} (hco : InviteIndifferent co) (H H' : HashOrder)
    (rv : RoomVersion) (ev : Pdu) (ctx : StateMap Pdu) :
    co.authCheck rv ev (currentThirdParty H ctx) (fun k => ctx.lookup k) =
      co.authCheck rv ev (currentThirdParty H' ctx) (fun k => ctx.lookup k) := by
  cases h : currentThirdParty H ctx with
  | none => rw [(currentThirdParty_eq_none H').mpr ((currentThirdParty_eq_none H).mp h)]
  | some tp =>
    obtain ⟨ht, k, hk⟩ := currentThirdParty_eq_some H h
    cases h' : currentThirdParty H' ctx with
    | none => exact absurd ht ((currentThirdParty_eq_none H').mp h' k tp hk)
    | some tp' =>
      obtain ⟨ht', k', hk'⟩ := currentThirdParty_eq_some H' h'
      exact hco rv ev ctx k k' tp tp' hk hk' ht ht'

section TwoOrders

variable {co H fetch roomVersion} {H' : HashOrder}
variable (hv : ∀ ev (ctx : StateMap Pdu),
  co.authCheck roomVersion ev (currentThirdParty H ctx) (fun k => ctx.lookup k) =
    co.authCheck roomVersion ev (currentThirdParty H' ctx) (fun k => ctx.lookup k))
include hv

/-- One event of two runs, from states with the same lookups: the same `Error`, or states with
the same lookups. -/
theorem authCheckStep_agree {s s' : StateMap EventId} (hs : ∀ k, s.lookup k = s'.lookup k)
    (eventId : EventId) :
    Agree (fun m m' : StateMap EventId => ∀ k, m.lookup k = m'.lookup k)
      (authCheckStep co H fetch roomVersion s eventId) (authCheckStep co H' fetch roomVersion s' eventId) := by
  simp only [authCheckStep, authContext_congr co fetch hs]
  refine Agree.bind_same fun event _ => Agree.bind_same fun sk _ => Agree.bind_same fun ctx _ => ?_
  rw [hv event ctx]
  refine Agree.bind_same fun accepted _ => .ok fun k => ?_
  split_ifs
  exacts [HMap.lookup_insert_congr hs _ _ k, hs k]

/-- **Two runs under hash orders that give the same verdicts**, from seeds with the same lookups,
agree: they end with the same `Error`, or with states with the same lookups. -/
theorem iterativeAuthCheck_agree (events : List EventId) {s s' : StateMap EventId}
    (hs : ∀ k, s.lookup k = s'.lookup k) :
    Agree (fun m m' : StateMap EventId => ∀ k, m.lookup k = m'.lookup k)
      (iterativeAuthCheck co H fetch roomVersion events s) (iterativeAuthCheck co H' fetch roomVersion events s') :=
  Agree.foldlM (fun _ _ x hs => authCheckStep_agree hv hs x) events hs

end TwoOrders

/-! ### Runs end -/

theorem authContext_settles (s : StateMap EventId) (event : Pdu) (stateKey : String) :
    Settles (authContext co fetch s event stateKey) fun _ => True := by
  refine (foldlM_settles _ _ (fun _ _ => True) (fun _ aid _ _ _ _ => ?_) _ trivial).bind fun _ _ =>
    (settles_ofExcept _).bind fun _ _ => settles_ok trivial
  unfold insertAuthEvent
  cases fetch aid
  · exact settles_ok trivial
  · exact (settles_okOr _ _).bind fun _ _ => settles_ok trivial

/-- **The auth check ends**, with a state or an `Error`: it has no `unwrap` and no unbounded loop. -/
theorem iterativeAuthCheck_settles (roomVersion : RoomVersion) (events : List EventId) (seed : StateMap EventId) :
    Settles (iterativeAuthCheck co H fetch roomVersion events seed) fun _ => True :=
  foldlM_settles _ _ (fun _ _ => True) (fun _ _ _ s _ _ =>
    (settles_okOr _ _).bind fun event _ => (settles_okOr _ _).bind fun sk _ =>
      (authContext_settles co fetch s event sk).bind fun _ _ => (settles_ofExcept _).bind fun _ _ =>
        settles_ok trivial) _ trivial

/-- Rules that accept an event exactly when a third-party invite, whichever, is handed to them. -/
def anyInviteRules : Collaborators where
  authCheck := fun _ _ invite _ => .ok invite.isSome
  authTypesForEvent := fun _ _ _ _ => .ok []
  roomVersionNew := fun v => .ok ⟨v⟩
  memberContent := fun _ => none
  powerLevelsContent := fun _ => none

/-- **Under an invite-indifferent `auth_check` the auth check does not depend on the hash
order**: two runs over one list of events, from seeds with the same lookups, under any two hash
orders, both end with states with the same lookups or both with the same `Error`. -/
theorem iterativeAuthCheck_order_independent {co : Collaborators} (hco : InviteIndifferent co)
    (H H' : HashOrder) (fetch : EventId → Option Pdu) (roomVersion : RoomVersion) (events : List EventId)
    {s s' : StateMap EventId} (hs : ∀ k, s.lookup k = s'.lookup k) :
    (∃ m m', iterativeAuthCheck co H fetch roomVersion events s = ok m ∧
        iterativeAuthCheck co H' fetch roomVersion events s' = ok m' ∧ ∀ k, m.lookup k = m'.lookup k) ∨
      ∃ e, iterativeAuthCheck co H fetch roomVersion events s = err e ∧
        iterativeAuthCheck co H' fetch roomVersion events s' = err e :=
  (iterativeAuthCheck_agree (authCheck_currentThirdParty hco H H' roomVersion) events hs).ok_or_err
    (iterativeAuthCheck_settles co H fetch roomVersion events s)
    (iterativeAuthCheck_settles co H' fetch roomVersion events s')

theorem iterativeAuthCheck_order_independent_anyInvite :
    InviteIndifferent anyInviteRules ∧
      ((∃ m m', iterativeAuthCheck anyInviteRules .stored twoInvites ⟨"10"⟩ ["$m"] ∅ = ok m ∧
          iterativeAuthCheck anyInviteRules .reversed twoInvites ⟨"10"⟩ ["$m"] ∅ = ok m' ∧
          ∀ k, m.lookup k = m'.lookup k) ∨
        ∃ e, iterativeAuthCheck anyInviteRules .stored twoInvites ⟨"10"⟩ ["$m"] ∅ = err e ∧
          iterativeAuthCheck anyInviteRules .reversed twoInvites ⟨"10"⟩ ["$m"] ∅ = err e) :=
  have hco : InviteIndifferent anyInviteRules := fun _ _ _ _ _ _ _ _ _ _ _ => rfl
  ⟨hco, iterativeAuthCheck_order_independent hco .stored .reversed twoInvites ⟨"10"⟩ ["$m"] fun _ => rfl⟩

end RumaStateRes.AuthCheck
