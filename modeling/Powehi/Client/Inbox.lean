import Powehi.Client.Junk
import Powehi.Client.Welcome

/-!
# The inbox

One run of the inbox drops expired requests, joins Welcomes, fetches a window of envelopes and
works through it. An Application envelope is decrypted with the group's MLS state; its message is
stored first, the advanced MLS state second, and only then is the envelope acknowledged. A Commit
moves its group to the next epoch. Envelopes of a later epoch are held and put back to the front of
the queue right after a Commit of their group. A run makes a bounded number of attempts, and a
bounded number for each conversation; what is left waits for the next run.

The counters of the run's report are kept as the source has them. Saturating counters and the
limits of their machine types are not modelled.
-/

namespace Powehi.Client

open Codec Server Semantics Program

variable {L : Libraries}

/-- Attempts per run. -/
def maxMessagesPerRun : ℕ := 64

/-- Attempts per conversation in one run. -/
def maxPerConversation : ℕ := 16

/-- Most stored messages that were not displayed yet. -/
def maxStoredMessages : ℕ := 2048

/-- Longest sender key that is stored. -/
def maxSenderKeyBytes : ℕ := 65

/-- Longest message body that is stored. -/
def maxBodyBytes : ℕ := (16 * 1024 * 1024 - 1024) / 2

/-- Payloads that are not messages. -/
def ephemeralTypes : List String :=
  ["pq_init", "typing_indicator", "presence", "read_receipt", "delivery_receipt"]

/-- A payload whose type is one of the `ephemeralTypes`. -/
def isEphemeral (L : Libraries) (plain : Bytes) : Bool :=
  (L.payloadType plain).any (· ∈ ephemeralTypes)

/-- The binding, if the payload is a `pq_init` that the stored key decapsulates. -/
def pqBinding (L : Libraries) (conv : Conversation) (plain : Bytes) (g : GroupId) :
    Option String := do
  let kind ← L.payloadType plain
  let ct ← L.payloadCiphertext plain
  if kind ≠ "pq_init" then none
  else L.deriveBinding (← L.decapsulate (← conv.pqDecapKey) ct) g

/-! ### Looking up the state of a conversation -/

/-- An own Commit of the group is unresolved. A store that cannot be read counts as such. -/
def pcsUnresolved (g : GroupId) : Prog L Bool := do
  let present (n : Name) : Prog L Bool := do
    match ← (get n : Prog L _).attempt with
    | .ok r => return r.isSome
    | .error _ => return true
  return (← present (.pcs g)) || (← present (.gadd g)) || (← present (.grem g))

/-- The group is a stored group conversation or has a pending request. -/
def isGroupConversation : Option GroupId → Prog L Bool
  | none => return false
  | some g => do
    match ← (Conversation.load g).attempt with
    | .ok (some c) => return c.kind = .group
    | .ok none =>
      match ← (Request.load g).attempt with
      | .ok r => return r.isSome
      | .error _ => return true
    | .error _ => return true

/-- The group is a stored pair and the sender is its peer. -/
def isPeerTraffic : Option GroupId → Option DeviceId → Prog L Bool
  | some g, some sender => do
    match ← (Conversation.load g).attempt with
    | .ok c => return c.any fun c => c.kind = .pair && c.peerDeviceId = sender
    | .error _ => return true
  | _, _ => return false

/-! ### Commits -/

/-- How an attempt to apply a Commit ended. -/
inductive CommitOutcome
  | applied
  | evicted
  | ahead
  | refused
  | forked
  | unresolved
  | unknown
deriving DecidableEq, Repr

/-- Apply a Commit of the peer to a pair. The conversation record goes before the MLS state. -/
def applyPairCommit (dev : Session) (g : GroupId) (sender : DeviceId) (commit : Bytes) :
    Prog L CommitOutcome := do
  match ← Conversation.load g with
  | none => return .unknown
  | some conv =>
    if conv.kind ≠ .pair ∨ conv.peerDeviceId ≠ sender then return .unknown
    let P ← loadProvider
    match P.groups g with
    | none => return .refused
    | some G =>
      if !conv.agreesWith L G then return .unknown
      match L.applyPairCommit G commit dev.signatureKey conv.peerSignatureKey
          conv.peerCredential with
      | .error .epochAhead => return .ahead
      | .error .pairCommitRefused => return .forked
      | .error _ => return .refused
      | .ok (peerKey, G') =>
        if conv.peerSignatureKey.isNone then
          match conv.pinPeerSignatureKey peerKey with
          | none => .throw .malformed
          | some pinned => pinned.save
        saveProvider (P.setGroup g (some G'))
        return .applied

/-- Apply a Commit of another member to a group, unless an own Commit is unresolved. A Commit that
removes this device deletes the group's state. -/
def applyGroupCommit (g : GroupId) (commit : Bytes) : Prog L CommitOutcome := do
  match ← Conversation.load g with
  | none => return .unknown
  | some conv =>
    if conv.kind ≠ .group then return .unknown
    if (← get (.gadd g)).isSome then return .unresolved
    if (← get (.grem g)).isSome then return .unresolved
    let P ← loadProvider
    match P.groups g with
    | none => return .refused
    | some G =>
      if !conv.agreesWith L G then return .unknown
      if L.pendingCommit G then return .unresolved
      if !L.isActive G then return .refused
      match L.applyGroupCommit G commit with
      | .error .epochAhead => return .ahead
      | .error .groupCommitRefused => return .forked
      | .error .persistence => .throw .mls
      | .error _ => return .refused
      | .ok (_, G') =>
        if L.isActive G' then
          saveProvider (P.setGroup g (some G'))
          return .applied
        else
          saveProvider (P.setGroup g none)
          return .evicted

/-! ### Application envelopes -/

/-- How an attempt to process an Application envelope ended. -/
inductive Outcome
  | stored
  | pqBound
  | skip
  | dropped
  | ignored
  | unknown
  | undecryptable
  | ahead
deriving DecidableEq, Repr

/-- Number of stored messages. -/
def storedCount : Prog L ℕ := do
  let all ← names
  return all.countP fun n => match n with
    | .rx _ => true
    | _ => false

/-- Write the record of a decrypted message, then the MLS state. A stored message is never
overwritten with another one. -/
def storeReceived (P : Provider L) (id : EnvelopeId) (g : GroupId) (sender : DeviceId)
    (plain : Bytes) (senderKey : Option Bytes) : Prog L Outcome := do
  let nanos ← perform .clock
  ensure (plain.length ≤ maxBodyBytes) .badResponse
  match ← get (.rx id) with
  | some old =>
    if !old.sameMessage plain g sender senderKey then return .skip
  | none => put (.rx id) ⟨g, sender, plain, nanos, senderKey⟩
  saveProvider P
  return .stored

/-- Keep the decrypted message of a group, whose sender is the authenticated one. -/
def keepGroupMessage (dev : Session) (P' : Provider L) (g : GroupId) (id : EnvelopeId)
    (sender : DeviceId) (msg : GroupMessage) : Prog L Outcome := do
  if maxSenderKeyBytes < msg.senderKey.length then return .undecryptable
  if msg.senderKey = dev.signatureKey then return .undecryptable
  if isEphemeral L msg.plaintext then
    saveProvider P'
    return .dropped
  storeReceived P' id g sender msg.plaintext (some msg.senderKey)

/-- An Application envelope of a group. -/
def processGroupOne (dev : Session) (conv : Conversation) (id : EnvelopeId) (sender : DeviceId)
    (ct : Bytes) : Prog L Outcome := do
  if maxStoredMessages ≤ (← storedCount) then return .skip
  let P ← loadProvider
  match P.groups conv.groupId with
  | none => return .skip
  | some G =>
    if !conv.agreesWith L G then return .skip
    match L.decryptGroupMessage G ct with
    | .error .epochAhead => return .ahead
    | .error _ => return .undecryptable
    | .ok (msg, G') =>
      keepGroupMessage dev (P.setGroup conv.groupId (some G')) conv.groupId id sender msg

/-- The binding a pair's message completes. Only the joiner holds a decapsulation key. -/
def pairBinding (L : Libraries) (conv : Conversation) (plain : Bytes) : Option String :=
  if conv.role = .joiner && conv.pqDecapKey.isSome then pqBinding L conv plain conv.groupId
  else none

/-- Keep the decrypted message of a pair: complete the key exchange, or store the message. -/
def keepPairMessage (P' : Provider L) (conv : Conversation) (id : EnvelopeId) (sender : DeviceId)
    (plain : Bytes) : Prog L Outcome := do
  match pairBinding L conv plain with
  | some b =>
    (conv.completePq b).save
    saveProvider P'
    return .pqBound
  | none =>
    if isEphemeral L plain then
      saveProvider P'
      return .dropped
    storeReceived P' id conv.groupId sender plain none

/-- An Application envelope of a pair. -/
def processPairOne (dev : Session) (conv : Conversation) (id : EnvelopeId) (sender : DeviceId)
    (ct : Bytes) : Prog L Outcome := do
  if conv.peerDeviceId ≠ sender then return .unknown
  if maxStoredMessages ≤ (← storedCount) then return .skip
  let P ← loadProvider
  match P.groups conv.groupId with
  | none => return .skip
  | some G =>
    if !conv.agreesWith L G then return .skip
    if !L.isPairWith G dev.signatureKey then return .skip
    match L.decryptMessage G ct with
    | .error .epochAhead => return .ahead
    | .error _ => return .undecryptable
    | .ok (plain, G') =>
      keepPairMessage (P.setGroup conv.groupId (some G')) conv id sender plain

/-- Decrypt and store one Application envelope. -/
def processOne (dev : Session) (id : EnvelopeId) (g : GroupId) (sender : DeviceId) (ct : Bytes) :
    Prog L Outcome := do
  match ← Conversation.load g with
  | none =>
    match ← (Request.load g).attempt with
    | .ok (some _) => return .ignored
    | _ => return .unknown
  | some conv =>
    match conv.kind with
    | .group => processGroupOne dev conv id sender ct
    | .pair => processPairOne dev conv id sender ct

/-! ### One run -/

/-- What a run reports. -/
structure InboxReport where
  joined : List GroupId := []
  requests : ℕ := 0
  stored : ℕ := 0
  pqBound : List GroupId := []
  commits : ℕ := 0
  forked : ℕ := 0
  skipped : ℕ := 0
deriving DecidableEq, Repr

/-- The state of the loop over the window. -/
structure Run where
  queue : List Envelope
  held : List Envelope := []
  blocked : List GroupId := []
  attempts : ℕ := 0
  perConv : GroupId → ℕ := fun _ => 0
  tracker : Tracker
  deferred : Bool := false
  aheadPinned : Bool := false
  report : InboxReport

namespace Run

def skip (r : Run) : Run := { r with report := { r.report with skipped := r.report.skipped + 1 } }

def attempt (r : Run) : Run := { r with attempts := r.attempts + 1 }

def defer (r : Run) : Run := { r with deferred := true }

def block (r : Run) (g : GroupId) : Run := { r with blocked := g :: r.blocked }

/-- Count an attempt of a conversation. -/
def use (r : Run) (g : GroupId) : Run :=
  { r with perConv := Function.update r.perConv g (r.perConv g + 1) }

def forget (r : Run) (id : EnvelopeId) : Run := { r with tracker := r.tracker.forget id }

/-- Put the held envelopes of a group back to the front of the queue, in their order. -/
def release (r : Run) (g : GroupId) : Run :=
  { r with
    queue := r.held.filter (·.groupId = some g) ++ r.queue
    held := r.held.filter (·.groupId ≠ some g) }

/-- What is left to do: it shrinks with every envelope that is taken up. -/
def measure (r : Run) : ℕ := r.queue.length + r.held.length + (maxMessagesPerRun - r.attempts)

end Run

/-- Run a program that may fail for good; the tracker is saved in that case. -/
def orSaveTracker {α : Type} (t : Tracker) (p : Prog L α) : Prog L α :=
  p.handle fun r => match r with
    | .ok a => .pure a
    | .error e => do
      t.trySave
      .throw e

/-- Acknowledge a given-up envelope and forget it. -/
def giveUp (t : Tracker × Bool) (id : EnvelopeId) : Prog L Tracker := do
  if t.2 then
    match ← (ack id : Prog L Unit).attempt with
    | .ok _ => return t.1.forget id
    | .error _ => return t.1
  else return t.1

/-- Whether a Commit was applied. -/
inductive Applied
  | yes (g : GroupId)
  | no
  | forked
deriving DecidableEq, Repr

/-- A Commit of a stored group. Nothing is acknowledged on a guess. -/
def handleGroupCommit (id : EnvelopeId) (g : GroupId) (ct : Bytes) (t : Tracker) (now : ℕ) :
    Prog L (Applied × Tracker) := do
  match ← (Conversation.load g).attempt with
  | .ok (some _) =>
    match ← applyGroupCommit g ct with
    | .applied | .evicted =>
      tryAck id
      return (.yes g, t.forget id)
    | .unresolved | .unknown => return (.no, t)
    | .refused => return (.no, ← giveUp (t.failed id now) id)
    | .forked => return (.forked, ← giveUp (t.failed id now) id)
    | .ahead => return (.no, ← giveUp (t.unknownExpired id now) id)
  | _ => return (.no, t)

/-- A Commit of a pair, or of a group that is not held. -/
def handlePairCommit (dev : Session) (id : EnvelopeId) (g : GroupId) (sender : DeviceId)
    (ct : Bytes) (t : Tracker) (now : ℕ) : Prog L (Applied × Tracker) := do
  let outcome : CommitOutcome ← if ← isPeerTraffic (some g) (some sender) then
      applyPairCommit dev g sender ct
    else .pure .unknown
  match outcome with
  | .applied | .evicted =>
    tryAck id
    return (.yes g, t.forget id)
  | .refused => return (.no, ← giveUp (t.failed id now) id)
  | .forked => return (.forked, ← giveUp (t.failed id now) id)
  | .ahead =>
    -- it may become readable once the own unresolved Commit is merged
    let (t, expired) := t.unknownExpired id now
    let hold ← pcsUnresolved g
    return (.no, ← giveUp (t, expired && !hold) id)
  | .unknown | .unresolved => return (.no, ← giveUp (t.unknownExpired id now) id)

/-- A Commit envelope. An own one is acknowledged at once. -/
def handleCommit (dev : Session) (env : Envelope) (t : Tracker) (now : ℕ) :
    Prog L (Applied × Tracker) := do
  match env.id, env.groupId, env.sender, env.ciphertext with
  | some id, some g, some sender, some ct =>
    if sender = dev.deviceId then
      tryAck id
      return (.no, t.forget id)
    if ← isGroupConversation (some g) then handleGroupCommit id g ct t now
    else handlePairCommit dev id g sender ct t now
  | _, _, _, _ => return (.no, t)

/-- Whether the loop goes on. -/
inductive Flow
  | next (r : Run)
  | stop (r : Run)

/-- The operations of the loop: those of the client, and marks in the trace. -/
inductive LoopOp (L : Libraries) : Type → Type 1
  | client {ω : Type} (o : Op L ω) : LoopOp L ω
  | mark (m : Mark) : LoopOp L Unit

def loopMachine (L : Libraries) : Machine (LoopOp L) (World L) (Choice L) where
  exec
  | .client o, c, w => (machine L).exec o c w
  | .mark m, _, w => ((), w.record (.marked m))

/-- A program of the loop. -/
abbrev LoopProg (L : Libraries) := Program (LoopOp L) Error

/-- A program of the client within the loop. It marks nothing. -/
def quietly {α : Type} (p : Prog L α) : LoopProg L α := p.embed (fun o => .client o) id id

def mark (m : Mark) : LoopProg L Unit := perform (.mark m)

/-- Take up a Commit: not while an envelope of its group waits for the next run. -/
def takeCommit (dev : Session) (now : ℕ) (r : Run) (env : Envelope) : LoopProg L Flow := do
  if env.groupId.any (· ∈ r.blocked) then return .next r.defer.skip
  mark (.committing env)
  let (applied, tracker) ← quietly (orSaveTracker r.tracker (handleCommit dev env r.tracker now))
  let r := { r with tracker := tracker }
  match applied with
  | .yes g =>
    mark (.applied env)
    return .next ({ r with report := { r.report with commits := r.report.commits + 1 } }.release g)
  | .forked =>
    return .next { r with report := { r.report with forked := r.report.forked + 1 } }.skip
  | .no => return .next r.skip

/-- A stand-alone proposal, or traffic of neither a group nor a pair's peer. -/
def isStray (env : Envelope) : Prog L Bool := do
  if env.messageType = .proposal then return true
  if ← isGroupConversation env.groupId then return false
  return !(← isPeerTraffic env.groupId env.sender)

/-- Take up an envelope that is neither a Welcome nor a Commit nor an Application message. -/
def takeStray (now : ℕ) (r : Run) (env : Envelope) : LoopProg L Flow := do
  match env.id with
  | none => return .next r.skip
  | some id =>
    let stray ← quietly (isStray env)
    if stray then
      let tracker ← quietly (giveUp (r.tracker.unknownExpired id now) id)
      return .next { r with tracker := tracker }.skip
    else return .next r.skip

/-- What follows from the outcome of an Application envelope. -/
def settle (now : ℕ) (r : Run) (env : Envelope) (id : EnvelopeId) (g : GroupId) :
    Outcome → LoopProg L Flow
  | .ignored => return .next r.skip
  | .unknown => do
    let tracker ← quietly (giveUp (r.tracker.unknownExpired id now) id)
    return .next { r with tracker := tracker }.skip
  | .undecryptable => do
    let tracker ← quietly (giveUp (r.tracker.failed id now) id)
    return .next { r with tracker := tracker }.attempt.skip
  | .ahead => do
    mark (.ahead env)
    let (tracker, pins) := r.tracker.aheadPins id now
    let unresolved ← quietly (pcsUnresolved g)
    let tracker ← if unresolved then .pure tracker
      else quietly (giveUp (tracker.unknownExpired id now) id)
    return .next { r with
      tracker := tracker
      aheadPinned := r.aheadPinned || pins
      held := if r.held.length < maxMessagesPerRun then r.held ++ [env] else r.held }.attempt.skip
  | .skip => do
    mark (.skipped env)
    return .next ((r.block g).defer.attempt.skip)
  | .dropped => do
    quietly (tryAck id)
    return .next (r.attempt.forget id)
  | .pqBound => do
    quietly (tryAck id)
    return .next
      (({ r with report := { r.report with pqBound := r.report.pqBound ++ [g] } }.attempt).forget
        id)
  | .stored => do
    quietly (tryAck id)
    return .next
      (({ r with report := { r.report with stored := r.report.stored + 1 } }.attempt).forget id)

/-- Take up an Application envelope. -/
def takeApplication (dev : Session) (now : ℕ) (r : Run) (env : Envelope) : LoopProg L Flow := do
  match env.id, env.groupId, env.sender, env.ciphertext with
  | some id, some g, some sender, some ct =>
    if sender = dev.deviceId then
      -- an own broadcast echoed back
      quietly (tryAck id)
      return .next (r.attempt.forget id)
    if maxPerConversation ≤ r.perConv g then
      mark (.putOff env false)
      return .next (r.block g).defer.skip
    mark (.processing env)
    let outcome ← quietly (orSaveTracker r.tracker (processOne dev id g sender ct))
    let r := if outcome = .ignored ∨ outcome = .unknown then r else r.use g
    settle now r env id g outcome
  | _, _, _, _ => return .next r.skip

/-- Take up one envelope. The run stops once its attempts are used up. -/
def takeUp (dev : Session) (now : ℕ) (r : Run) (env : Envelope) : LoopProg L Flow :=
  match env.messageType with
  | .welcome => return .next r
  | .commit =>
    if maxMessagesPerRun ≤ r.attempts then return .stop r.defer
    else takeCommit dev now r.attempt env
  | .application =>
    if maxMessagesPerRun ≤ r.attempts then do
      mark (.putOff env true)
      return .stop r.defer
    else takeApplication dev now r env
  | .proposal | .other => takeStray now r env

/-- The loop over the queue. Its first argument bounds the number of turns; `Run.measure` is
enough. -/
def drain (dev : Session) (now : ℕ) : ℕ → Run → LoopProg L Run
  | 0, r => return r
  | n + 1, r =>
    match r.queue with
    | [] => return r
    | env :: rest => do
      mark (.taken env)
      match ← takeUp dev now { r with queue := rest } env with
      | .next r => drain dev now n r
      | .stop r => return r

/-- Acknowledge the Welcomes that cannot be joined, after their grace. -/
def dropUnusable (now : ℕ) (ids : List EnvelopeId) (t : Tracker) : Prog L Tracker :=
  ids.foldlM (fun t id => giveUp (t.unknownExpired id now) id) t

/-- The window of a run. A cursor the server rejects must not block the inbox. -/
def fetchWindow (saved : Option (Cursor × ℕ)) : Prog L Window :=
  (fetchFrom (saved.map Prod.fst)).handle fun r => match r with
    | .ok w => .pure w
    | .error e => do
      if saved.isSome then saveCursor none
      .throw e

/-- The cursor after a run: behind the window if nothing was left to a later run, back at the head
at the end of the queue, and unchanged otherwise. -/
def moveCursor (hops : ℕ) (window : Window) (deferred : Bool) : Prog L Unit :=
  if window.more && !deferred then saveCursor (window.next.map (·, hops + 1))
  else if !window.more then saveCursor none
  else return ()

/-- Drop the expired requests and acknowledge their Welcomes. -/
def dropExpired (now : ℕ) : Prog L Unit := do
  match ← (Request.pruneExpired now).attempt with
  | .ok dropped => dropped.forM tryAck
  | .error _ => return ()

/-- One run of the inbox at a time in seconds. -/
def receiveAt (dev : Session) (now : ℕ) : LoopProg L InboxReport := do
  quietly (dropExpired now)
  let joined ← quietly (joinInvited dev)
  let saved ← quietly loadCursor
  let window ← quietly (fetchWindow saved)
  mark (.window window.items)
  let tracker ← quietly Tracker.load
  let tracker ← quietly (dropUnusable now joined.unusable (tracker.prune now))
  let start : Run :=
    { queue := window.items
      tracker := tracker
      report := { joined := joined.joined, requests := joined.requested } }
  let r ← drain dev now start.measure start
  quietly do
    r.tracker.trySave
    moveCursor ((saved.map Prod.snd).getD 0) window (r.deferred || r.aheadPinned)
    return r.report

end Powehi.Client
