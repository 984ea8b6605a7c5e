import Mathlib.Data.List.Basic

/-! @esp event | name:ProfileEvent | scheme:data | source:src/Event.h, src/ESPConfig.h, src/Comms.h

    The records of a session and the sizes fixed in the configuration. An event is a header and a
    payload; a string reference is an index of the string table and the pointer it was drawn for.
    Pointers are a type `K`, and the bytes before the terminating NUL of the string at a pointer are
    given by a function of it. A union value is its 32 bits. -/

namespace Esp.Event

def espMaxThreadCount : ℕ := 64

def espMaxZoneRecursion : ℕ := 1024

def espMaxEventBuffer : ℕ := 512 * 1024

def espStringTableSize : ℕ := 1 <<< 14

def espWriteBufferSize : ℕ := 16 * 1024

def espWriteBufferThreshold : ℕ := 2048

def espWriteBufferThresholdPrecompute : ℕ := espWriteBufferSize - espWriteBufferThreshold

/-- The capacity in `StringReferenceQueue`. -/
def stringQueueCapacity : ℕ := 4096

/-! ### EventType -/

def EV_PROBE_UINT : UInt32 := 1

def EV_PROBE_FLOAT : UInt32 := 2

def EV_PROBE_INT : UInt32 := 3

def EV_ZONE_INTERVAL : UInt32 := 1000

def EV_NEW_STRING : UInt32 := 0xffffffff

structure ProfileEventHeader where
  eventType : UInt32
  id : UInt32
  deriving DecidableEq, Repr

structure ProfileEventData where
  threadID : UInt32
  parentEventRef : UInt32
  frameNumber : UInt32
  timestamp : Int64
  eventNameRef : UInt32
  value : UInt32
  deriving DecidableEq, Repr

structure ProfileEvent where
  header : ProfileEventHeader
  data : ProfileEventData
  deriving DecidableEq, Repr

structure RuntimeStringReference (K : Type) where
  id : UInt32
  ptr : K
  deriving DecidableEq, Repr

/-- A record of the session file. -/
inductive Record where
  | event (e : ProfileEvent)
  | string (id : UInt32) (text : List UInt8)
  deriving DecidableEq, Repr

/-- The event of an event record. -/
def Record.event? : Record → Option ProfileEvent
  | .event e => some e
  | .string _ _ => none

/-- The record, if it is a string record. -/
def Record.string? : Record → Option Record
  | .event _ => none
  | .string id text => some (.string id text)

/-- The events of a file, in order. -/
def eventsOf (file : List Record) : List ProfileEvent := file.filterMap Record.event?

/-- The string records of a file, in order. -/
def stringsOf (file : List Record) : List Record := file.filterMap Record.string?

@[simp] theorem eventsOf_append (f g : List Record) : eventsOf (f ++ g) = eventsOf f ++ eventsOf g :=
  List.filterMap_append ..

@[simp] theorem stringsOf_append (f g : List Record) :
    stringsOf (f ++ g) = stringsOf f ++ stringsOf g :=
  List.filterMap_append ..

@[simp] theorem eventsOf_map_event (es : List ProfileEvent) : eventsOf (es.map .event) = es := by
  induction es with
  | nil => rfl
  | cons e es ih => simpa [eventsOf, Record.event?] using ih

@[simp] theorem stringsOf_map_event (es : List ProfileEvent) : stringsOf (es.map .event) = [] := by
  induction es with
  | nil => rfl
  | cons e es ih => simp [stringsOf, Record.string?]

@[simp] theorem eventsOf_string (id : UInt32) (text : List UInt8) :
    eventsOf [.string id text] = [] := rfl

@[simp] theorem stringsOf_string (id : UInt32) (text : List UInt8) :
    stringsOf [.string id text] = [.string id text] := rfl

end Esp.Event
