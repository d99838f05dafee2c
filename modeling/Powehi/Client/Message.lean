import Powehi.Client.Records

/-!
# Reading messages

`read` lists the stored messages of a conversation, selects a window of them by receive time and
number, displays it, and removes what it displayed. A media message is parked under another name
before its record goes, so that the attachment can still be fetched. On a terminal's alternate
screen the removal waits until the reader has pressed Enter.

Logging in, resolving the conversation's name and the rendering of a message are left out.
-/

namespace Powehi.Client

open Codec Server Semantics Program

variable {L : Libraries}

/-- The order in which messages are shown. -/
def Pending.precedes (m m' : Pending) : Bool :=
  m.receivedAt < m'.receivedAt || m.receivedAt = m'.receivedAt && m.id ≤ m'.id

/-- A stored record as a message to show. -/
def Received.toPending (L : Libraries) (id : EnvelopeId) (r : Received) : Pending :=
  ⟨id, r.sender, r.senderKey, r.body, L.payloadMedia r.body, r.receivedAt⟩

/-- Collect the messages of a conversation among the given records. -/
def collect (g : GroupId) : List EnvelopeId → Prog L (List Pending)
  | [] => return []
  | id :: rest => do
    let here ← get (.rx id)
    let others ← collect g rest
    return match here with
      | some r => if r.groupId = g then r.toPending L id :: others else others
      | none => others

/-- Stored messages of one conversation, oldest first. -/
def pending (g : GroupId) : Prog L (List Pending) := do
  let all ← names
  let found ← collect g (all.filterMap fun n => match n with
    | .rx id => some id
    | _ => none)
  return found.mergeSort Pending.precedes

/-! ### Selection -/

/-- The messages received at or after a cutoff, of an oldest-first list. -/
def sinceCutoff (cutoff : Option ℕ) (msgs : List Pending) : List Pending :=
  match cutoff with
  | none => msgs
  | some t => msgs.dropWhile fun m => m.receivedAt < t

/-- The messages received strictly before a cutoff, of an oldest-first list. -/
def untilCutoff (cutoff : Option ℕ) (msgs : List Pending) : List Pending :=
  match cutoff with
  | none => msgs
  | some t => msgs.takeWhile fun m => m.receivedAt < t

/-- The newest messages of an oldest-first list. -/
def newest (last : Option ℕ) (msgs : List Pending) : List Pending :=
  match last with
  | none => msgs
  | some n => msgs.drop (msgs.length - n)

/-! ### Display and removal -/

/-- Most parked attachments. -/
def maxAttachments : ℕ := 256

/-- Nanoseconds after which a parked attachment is dropped. -/
def attachmentTtlNanos : ℕ := 30 * 24 * 3600 * 1000000000

/-- The parked records among the given ones, with their receive time, after dropping the old
ones. -/
def liveAttachments (now : ℕ) : List Uuid → Prog L (List (ℕ × Uuid))
  | [] => return []
  | a :: rest => do
    match ← get (.att a) with
    | none => liveAttachments now rest
    | some r =>
      if 0 < r.receivedAt ∧ attachmentTtlNanos < now - r.receivedAt then
        remove (.att a)
        liveAttachments now rest
      else
        let others ← liveAttachments now rest
        return (r.receivedAt, a) :: others

/-- The oldest parked records that must go so that a slot is free. -/
def overflow (kept : List (ℕ × Uuid)) : List (ℕ × Uuid) :=
  (kept.mergeSort fun x y => x.1 < y.1 || x.1 = y.1 && x.2 ≤ y.2).take
    (kept.length + 1 - maxAttachments)

/-- Drop old parked records, then the oldest ones until a slot is free. -/
def makeRoomForAttachment : Prog L Unit := do
  let now ← perform .clock
  let all ← names
  let kept ← liveAttachments now (all.filterMap fun n => match n with
    | .att a => some a
    | _ => none)
  (overflow kept).forM fun x => remove (.att x.2)

/-- Remove a message that has been shown. A media message is parked first. -/
def discard (msg : Pending) : Prog L Unit := do
  if msg.media.isSome then
    match ← get (.rx msg.id) with
    | none => .pure ()
    | some r =>
      makeRoomForAttachment
      let a ← perform .uuid
      put (.att a) r
  remove (.rx msg.id)

/-- Display each message and, unless they are kept, remove it right after it was written. -/
def showAll (keep : Bool) (msgs : List Pending) : Prog L Unit :=
  msgs.forM fun m => do
    request (.display m)
    if keep then .pure () else discard m

/-- The options of `read`. The number of messages is at least one. -/
structure ReadArgs where
  groupId : GroupId
  keep : Bool := false
  last : Option { n : ℕ // 0 < n } := none
  since : Option ℕ := none
  until_ : Option ℕ := none
  /-- The output is a terminal's alternate screen. -/
  altScreen : Bool := false

/-- The messages that are shown, of all messages of the conversation. -/
def ReadArgs.select (args : ReadArgs) (msgs : List Pending) : List Pending :=
  newest (args.last.map Subtype.val) (untilCutoff args.until_ (sinceCutoff args.since msgs))

/-- Show the stored messages of a conversation and remove what was shown. -/
def runRead (args : ReadArgs) : Prog L Unit := do
  let msgs ← pending args.groupId
  let shown := args.select msgs
  showAll (args.keep || args.altScreen) shown
  if args.altScreen then
    let seen ← perform .enter
    if seen && !args.keep then shown.forM discard

end Powehi.Client
