import Powehi.Client.Records

/-!
# Envelopes the inbox cannot use, and the fetch cursor

Two small records. One lists the envelopes that could not be used when they were last seen, with
the time they were first seen and the number of failed attempts; an envelope is given up only after
a grace. The other is the position a run resumes its fetch from.
-/

namespace Powehi.Client

open Codec Server Semantics Program

variable {L : Libraries}

/-- Seconds an unusable envelope is kept before it is acknowledged. -/
def unknownGraceSecs : ℕ := 24 * 60 * 60

/-- Seconds an envelope of a later epoch may keep the cursor in place. -/
def aheadPinSecs : ℕ := 60 * 60

/-- Failed attempts before an envelope is given up. -/
def maxDecryptFailures : ℕ := 5

/-- Seconds after which an entry is forgotten. -/
def entryMaxAgeSecs : ℕ := 8 * 24 * 60 * 60

/-- Most envelopes tracked. -/
def maxTracked : ℕ := 512

/-- The tracked envelopes, and whether the record must be written. -/
structure Tracker where
  entries : List Entry := []
  dirty : Bool := false
deriving DecidableEq, Repr

namespace Tracker

/-- A missing or unreadable record is an empty list. -/
def load : Prog L Tracker := do
  match ← (get .inboxJunk : Prog L _).attempt with
  | .ok (some entries) => return { entries := entries.take maxTracked }
  | _ => return {}

def save (t : Tracker) : Prog L Unit :=
  if !t.dirty then return ()
  else if t.entries.isEmpty then remove .inboxJunk
  else put .inboxJunk t.entries

/-- Save, whether or not that works. -/
def trySave (t : Tracker) : Prog L Unit := do
  let _ ← t.save.attempt

/-- Keep the entries that satisfy a condition. -/
def retain (p : Entry → Bool) (t : Tracker) : Tracker where
  entries := t.entries.filter p
  dirty := t.dirty || (t.entries.filter p).length ≠ t.entries.length

/-- Forget the entries of envelopes the server has certainly expired. -/
def prune (t : Tracker) (now : ℕ) : Tracker :=
  t.retain fun e => now - e.firstSeen < entryMaxAgeSecs

/-- Drop the entry of an envelope. -/
def forget (t : Tracker) (id : EnvelopeId) : Tracker := t.retain fun e => e.id ≠ id

/-- The entry of an envelope, made at the first sight; `none` when the tracker is full. -/
def slot (t : Tracker) (id : EnvelopeId) (now : ℕ) : Tracker × Option Entry :=
  match t.entries.find? (·.id = id) with
  | some e => (t, some e)
  | none =>
    if maxTracked ≤ t.entries.length then (t, none)
    else (⟨t.entries ++ [⟨id, now, 0⟩], true⟩, some ⟨id, now, 0⟩)

/-- A sighting of an envelope nothing can be done with: its grace has run out. -/
def unknownExpired (t : Tracker) (id : EnvelopeId) (now : ℕ) : Tracker × Bool :=
  let (t, e) := t.slot id now
  (t, e.any fun e => unknownGraceSecs ≤ now - e.firstSeen)

/-- A sighting of an envelope held for a missing Commit: it still keeps the cursor in place. -/
def aheadPins (t : Tracker) (id : EnvelopeId) (now : ℕ) : Tracker × Bool :=
  let (t, e) := t.slot id now
  (t, e.any fun e => now - e.firstSeen < aheadPinSecs)

/-- Count a failure of the first entry of an envelope. -/
def countFailure (id : EnvelopeId) : List Entry → List Entry
  | [] => []
  | e :: rest =>
    if e.id = id then { e with fails := e.fails + 1 } :: rest else e :: countFailure id rest

/-- A failed attempt: the envelope is to be given up. -/
def failed (t : Tracker) (id : EnvelopeId) (now : ℕ) : Tracker × Bool :=
  match t.slot id now with
  | (t, none) => (t, false)
  | (t, some e) =>
    (⟨countFailure id t.entries, true⟩,
      maxDecryptFailures ≤ e.fails + 1 && unknownGraceSecs ≤ now - e.firstSeen)

end Tracker

/-- Runs that may resume from a cursor in a row. -/
def maxHops : ℕ := 4

/-- The saved cursor, unless it was used often enough. -/
def loadCursor : Prog L (Option (Cursor × ℕ)) := do
  match ← (get .inboxCursor : Prog L _).attempt with
  | .ok (some (c, hops)) => return if hops < maxHops then some (c, hops) else none
  | _ => return none

/-- Save or clear the cursor, whether or not that works. -/
def saveCursor (cursor : Option (Cursor × ℕ)) : Prog L Unit := do
  match cursor with
  | some c => let _ ← (put .inboxCursor c : Prog L Unit).attempt
  | none => let _ ← (remove .inboxCursor : Prog L Unit).attempt

end Powehi.Client
