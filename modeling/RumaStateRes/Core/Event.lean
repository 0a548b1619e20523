import RumaStateRes.Core.Result
import RumaStateRes.Core.Collections

/-! # Events and the collaborators of the resolution core

The core sees an event only through the accessors of the `Event` trait: id, type, state key,
sender, raw content, auth events and timestamp. `Pdu` is a record of exactly these. Content is kept
as its raw JSON text; the two parsers `lib.rs` applies to it, the authorization rules of
`event_auth.rs` and the room-version table are not among the sources and are taken as given
(`Collaborators`).

The two classifications `lib.rs` defines on events are here: `isTypeAndKey` and the control-event
test `isPowerEvent` (§4.3 of the spec). -/

namespace RumaStateRes.Core.Event

open RumaStateRes.Core.Result RumaStateRes.Core.Collections

/-- Event ids, user ids and room version ids are strings. -/
abbrev EventId := String

abbrev UserId := String

abbrev RoomVersionId := String

/-- The event types `lib.rs` names (`TimelineEventType`); every other type is `custom`. A state
key's type (`StateEventType`) has the same name as the event's (`with_state_key` goes through
`to_string`), so the model uses one type for both. -/
inductive EventType where
  | roomCreate
  | roomJoinRules
  | roomMember
  | roomPowerLevels
  | roomThirdPartyInvite
  | custom (name : String)
  deriving DecidableEq, Repr

/-- `(StateEventType, String)`: a key of a state map. -/
abbrev StateKey := EventType × String

/-- `StateMap<T>`: a hash map from state keys. -/
abbrev StateMap (T : Type) := HMap StateKey T

inductive MembershipState where
  | ban
  | invite
  | join
  | knock
  | leave
  | custom (name : String)
  deriving DecidableEq, Repr

/-- The field of `RoomMemberEventContent` that `is_power_event` reads. -/
structure RoomMemberEventContent where
  membership : MembershipState

/-- Modelled from the spec: `PowerLevelsContentFields` of `power_levels.rs` (not among the
sources), with the two fields `get_power_level_for_sender` reads. -/
structure PowerLevelsContentFields where
  users : List (UserId × Int)
  usersDefault : Int

/-- An event, as the `Event` trait shows it. -/
structure Pdu where
  eventId : EventId
  eventType : EventType
  stateKey : Option String
  sender : UserId
  content : String
  authEvents : List EventId
  originServerTs : Nat
  deriving DecidableEq, Repr

/-- Modelled from the spec: the room-version record of `room_version.rs` (not among the sources).
Only `auth_check` reads its feature flags, so the record keeps the version it was built for. -/
structure RoomVersion where
  versionId : RoomVersionId

/-- **The collaborators** `lib.rs` calls and the sources do not contain: `auth_check` and
`auth_types_for_event` of `event_auth.rs`, `RoomVersion::new`, and the serde parsers of the two
content types `lib.rs` reads (`none` when the text does not parse). -/
structure Collaborators where
  authCheck : RoomVersion → Pdu → Option Pdu → (StateKey → Option Pdu) → Except Error Bool
  authTypesForEvent : EventType → UserId → Option String → String → Except Error (List StateKey)
  roomVersionNew : RoomVersionId → Except Error RoomVersion
  memberContent : String → Option RoomMemberEventContent
  powerLevelsContent : String → Option PowerLevelsContentFields

/-- `is_type_and_key`. -/
def isTypeAndKey (ev : Pdu) (evType : EventType) (stateKey : String) : Bool :=
  ev.eventType == evType && ev.stateKey == some stateKey

/-- `is_power_event`: create, power levels and join rules with state key `""`, and a leave or ban
whose sender is not its target. -/
def isPowerEvent (co : Collaborators) (event : Pdu) : Bool :=
  match event.eventType with
  | .roomPowerLevels | .roomJoinRules | .roomCreate => event.stateKey == some ""
  | .roomMember =>
    match co.memberContent event.content with
    | some content =>
      if content.membership ∈ [MembershipState.leave, .ban] then some event.sender != event.stateKey
      else false
    | none => false
  | _ => false

/-- `is_power_event_id`: an event that cannot be fetched is not a control event. -/
def isPowerEventId (co : Collaborators) (fetch : EventId → Option Pdu) (eventId : EventId) : Bool :=
  match fetch eventId with
  | some state => isPowerEvent co state
  | none => false

end RumaStateRes.Core.Event
