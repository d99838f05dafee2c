import Powehi.Client.Records

/-!
# Fetching envelopes and joining conversations

A fetch follows the server's pages. A Welcome in it is joined if it consumes a KeyPackage of this
device: the conversation record is written first, then the MLS key store, then the decapsulation
key and the invite marker are deleted. Joins of the inbox take only Welcomes for invites; others
are kept as requests, which the user accepts or declines.
-/

namespace Powehi.Client

open Codec Server Semantics Program

variable {L : Libraries}

/-! ### Fetching -/

/-- Pages fetched per call. -/
def maxPages : ℕ := 4

/-- A longer page is refused. -/
def maxPageEnvelopes : ℕ := 128

/-- What one fetch saw: the envelopes, the cursor after the last one, and whether the server may
have more. -/
structure Window where
  items : List Envelope
  next : Option Cursor
  more : Bool
deriving DecidableEq, Repr

/-- Fetch up to the given number of further pages. A page that does not advance the cursor is the
last one. -/
def fetchPages : ℕ → List Envelope → Option Cursor → Prog L Window
  | 0, all, cursor => return ⟨all, cursor, true⟩
  | n + 1, all, cursor => do
    let page ← request (.poll cursor)
    ensure (page.length ≤ maxPageEnvelopes) .badResponse
    match page.getLast?.bind Envelope.cursor? with
    | none => return ⟨all ++ page, cursor, false⟩
    | some next =>
      if cursor = some next then return ⟨all ++ page, cursor, false⟩
      else fetchPages n (all ++ page) (some next)

/-- The envelopes behind a cursor. -/
def fetchFrom (start : Option Cursor) : Prog L Window := fetchPages maxPages [] start

/-- The envelopes at the head of the queue. -/
def fetchPending : Prog L (List Envelope) := do
  return (← fetchFrom none).items

/-- Acknowledge an envelope. -/
def ack (id : EnvelopeId) : Prog L Unit := request (.ack id)

/-- Acknowledge an envelope; whether that worked does not matter. -/
def tryAck (id : EnvelopeId) : Prog L Unit := do
  let _ ← (ack id).attempt

/-! ### Joining one Welcome -/

/-- Why a Welcome was not joined. -/
inductive JoinOutcome
  | skip
  | request (ref : KeyRef)
  | fatal (e : Error)
deriving DecidableEq, Repr

/-- A Welcome to join. -/
structure Joinable where
  groupId : GroupId
  sender : DeviceId
  ciphertext : Bytes
deriving DecidableEq, Repr

/-- Programs that join a Welcome. -/
abbrev JoinProg (L : Libraries) := Program (Op L) JoinOutcome

/-- A failure of the profile store ends the whole run. -/
def orFatal {α : Type} (p : Prog L α) : JoinProg L α := p.mapError .fatal

/-- The value, or the Welcome is skipped. -/
def orSkip {α : Type} : Option α → JoinProg L α
  | some a => .pure a
  | none => .throw .skip

/-- A malformed conversation record skips the Welcome, a failing store is fatal. -/
def loadOrSkip (g : GroupId) : JoinProg L (Option Conversation) :=
  (Conversation.load g).handle fun r => match r with
    | .ok c => .pure c
    | .error .store => .throw (.fatal .store)
    | .error _ => .throw .skip

/-- A Welcome for a group that is already held is never joined. A record without the group is an
interrupted join. -/
def checkGroupNotHeld (P : Provider L) (g : GroupId) : JoinProg L Unit := do
  let _ ← loadOrSkip g
  ensure (P.groups g).isNone .skip

/-- A leftover record may only be finished by a Welcome of the same kind, as joiner. -/
def ensureResumable (g : GroupId) (kind : Kind) : JoinProg L Unit := do
  match ← loadOrSkip g with
  | none => return ()
  | some c => ensure (c.kind = kind && c.role = .joiner) .skip

/-- The record of a joined conversation. -/
def joinedRecord (env : Joinable) (dk : Bytes) (binding : WelcomePqBinding) (credential : Bytes) :
    Kind → Conversation
  | .pair => (Conversation.new env.groupId env.sender .joiner
      (some (dk, binding.encapKey))).withPeerCredential credential
  | .group => (Conversation.new env.groupId env.sender .joiner none).intoGroup

section JoinedRecord

variable (env : Joinable) (dk : Bytes) (binding : WelcomePqBinding) (credential : Bytes)
  (kind : Kind)

@[simp] theorem groupId_joinedRecord :
    (joinedRecord env dk binding credential kind).groupId = env.groupId := by
  cases kind <;> rfl

@[simp] theorem kind_joinedRecord : (joinedRecord env dk binding credential kind).kind = kind := by
  cases kind <;> rfl

@[simp] theorem role_joinedRecord :
    (joinedRecord env dk binding credential kind).role = .joiner := by
  cases kind <;> rfl

end JoinedRecord

/-- What a pair or a group must look like to be joined. Being added to a group is not automatic. -/
def checkShape (dev : Session) (G : L.Group) (ref : KeyRef) (allowGroup : Bool) :
    Kind → JoinProg L Unit
  | .pair => ensure (L.isFreshPair G) .skip
  | .group => do
    ensure (L.hasGroupShape G dev.signatureKey) .skip
    ensure allowGroup (.request ref)

/-- The peer's credential, which only the record of a pair holds. -/
def joinCredential (dev : Session) (G : L.Group) : Kind → JoinProg L Bytes
  | .pair => orSkip (L.peerCredentialIdentity G dev.signatureKey)
  | .group => .pure []

/-- With `invitesOnly` the KeyPackage must have been made for an invite. -/
def checkInvite (invitesOnly : Bool) (ref : KeyRef) : JoinProg L Unit :=
  if invitesOnly then do
    let marker ← orFatal (get (.inviteKp ref))
    ensure marker.isSome (.request ref)
  else .pure ()

/-- The KeyPackage a Welcome consumes, with its decapsulation key. -/
def findKey (P : Provider L) (env : Joinable) (onlyRef : Option KeyRef) (invitesOnly : Bool) :
    JoinProg L (WelcomePqBinding × Bytes) := do
  let binding ← orSkip (P.welcomePqBinding env.ciphertext).toOption
  ensure (onlyRef.all (· = binding.keyPackageRef)) .skip
  let dk ← orFatal (pqKeyFor binding.keyPackageRef)
  let dk ← orSkip dk
  checkInvite invitesOnly binding.keyPackageRef
  ensure (L.validDecapKey dk binding.encapKey) .skip
  return (binding, dk)

/-- The group of a Welcome, the key store that holds it, its kind and the peer's credential. -/
def openWelcome (dev : Session) (P : Provider L) (env : Joinable) (ref : KeyRef)
    (allowGroup : Bool) : JoinProg L (L.Group × Provider L × Kind × Bytes) := do
  let (groupId, G, P') ← orSkip (P.joinGroup env.ciphertext).toOption
  let kind ← orSkip (L.kind G)
  -- the group id inside the Welcome is authoritative, the server only labels envelopes
  ensure (groupId = env.groupId) .skip
  checkShape dev G ref allowGroup kind
  ensureResumable groupId kind
  let credential ← joinCredential dev G kind
  return (G, P', kind, credential)

/-- Make a join durable: the record first, then the MLS state, in which the KeyPackage is consumed.
Only after that its decapsulation key and its invite marker are dropped. -/
def storeJoin (conv : Conversation) (P' : Provider L) (ref : KeyRef) : JoinProg L Unit := do
  orFatal conv.save
  orFatal (saveProvider P')
  orFatal (prunePqKey ref)
  let _ ← orFatal (remove (.inviteKp ref)).attempt

/-- Join one Welcome. With `onlyRef` only if it consumes that KeyPackage, with `invitesOnly` only
if that KeyPackage was made for an invite; a group is joined only with `allowGroup`. -/
def joinOne (dev : Session) (env : Joinable) (onlyRef : Option KeyRef)
    (invitesOnly allowGroup : Bool) : JoinProg L GroupId := do
  let P ← orFatal loadProvider
  checkGroupNotHeld P env.groupId
  let (binding, dk) ← findKey P env onlyRef invitesOnly
  let (_, P', kind, credential) ← openWelcome dev P env binding.keyPackageRef allowGroup
  storeJoin (joinedRecord env dk binding credential kind) P' binding.keyPackageRef
  return env.groupId

/-! ### Joining the Welcomes of a fetch -/

/-- Attempts at confirming a membership. -/
def acceptAttempts : ℕ := 3

/-- Tell the server that this device consents to its membership, several times if need be. -/
def confirmMembership (g : GroupId) : ℕ → Error → Prog L Unit
  | 0, last => .throw last
  | n + 1, _ => (request (.accept g) : Prog L Unit).handle fun r => match r with
    | .ok _ => .pure ()
    | .error e => confirmMembership g n e

def acceptMembership (g : GroupId) : Prog L Unit := confirmMembership g acceptAttempts .badResponse

/-- Welcomes joined per call. -/
def maxWelcomesPerRun : ℕ := 16

/-- Most unusable Welcomes a call reports. -/
def maxUnusable : ℕ := 512

structure JoinReport where
  joined : List GroupId := []
  skipped : ℕ := 0
  requested : ℕ := 0
  unusable : List EnvelopeId := []
deriving DecidableEq, Repr

namespace JoinReport

def skip (r : JoinReport) : JoinReport := { r with skipped := r.skipped + 1 }

/-- A Welcome that cannot be joined, to be acknowledged after the grace. -/
def addUnusable (r : JoinReport) (id : EnvelopeId) : JoinReport :=
  if r.unusable.length < maxUnusable then { r with unusable := r.unusable ++ [id] } else r

end JoinReport

/-- Keep a Welcome for a pool KeyPackage as a request. -/
def keepRequest (req : Request) (report : JoinReport) : Prog L JoinReport := do
  match ← (Request.saveNew req).attempt with
  | .ok true => return { report with requested := report.requested + 1 }
  | .error .store => .throw .store
  | .ok false | .error _ =>
    let stored ← (Request.load req.groupId).attempt
    let kept := match stored with
      | .ok (some r) => decide (r.envelopeId = req.envelopeId)
      | _ => false
    return if kept then report.skip else report.skip.addUnusable req.envelopeId

/-- Deal with one Welcome of a fetch. -/
def joinEnvelope (dev : Session) (onlyRef : Option KeyRef) (invitesOnly : Bool)
    (id : EnvelopeId) (env : Joinable) (report : JoinReport) : Prog L JoinReport :=
  (joinOne dev env onlyRef invitesOnly false).handle fun r => match r with
    | .ok g => do
      tryAck id
      -- joining is this device's consent, which the server waits for
      let _ ← (acceptMembership g).attempt
      return { report with joined := report.joined ++ [g] }
    | .error (.request ref) => do
      let nanos ← perform .clock
      keepRequest ⟨env.groupId, env.sender, id, nanos / 1000000000, ref, env.ciphertext⟩ report
    | .error .skip => return report.skip.addUnusable id
    | .error (.fatal e) => .throw e

/-- Deal with the Welcomes of a fetch, up to the number of joins a call may make. -/
def joinEach (dev : Session) (onlyRef : Option KeyRef) (invitesOnly : Bool) :
    List Envelope → JoinReport → Prog L JoinReport
  | [], report => return report
  | env :: rest, report =>
    if maxWelcomesPerRun ≤ report.joined.length then return report
    else do
      let report ← match env.id, env.groupId, env.sender, env.ciphertext with
        | some id, some g, some sender, some ct =>
          joinEnvelope dev onlyRef invitesOnly id ⟨g, sender, ct⟩ report
        | _, _, _, _ => .pure report.skip
      joinEach dev onlyRef invitesOnly rest report

def joinFiltered (dev : Session) (onlyRef : Option KeyRef) (invitesOnly : Bool) :
    Prog L JoinReport := do
  let items ← fetchPending
  joinEach dev onlyRef invitesOnly (items.filter (·.messageType = .welcome)) {}

/-- Join the Welcomes for KeyPackages made for an invite; others become requests. -/
def joinInvited (dev : Session) : Prog L JoinReport := joinFiltered dev none true

/-! ### Accepting and declining requests -/

namespace Request

/-- The conversation is stored with its MLS group. -/
def held (g : GroupId) : Prog L Bool := do
  match ← Conversation.load g with
  | none => return false
  | some _ =>
    let P ← loadProvider
    return (P.groups g).isSome

/-- Join the Welcome of a request, confirm the membership and drop the request. A second call after
a failed confirmation finds the group held and only confirms. -/
def accept (dev : Session) (g : GroupId) : Prog L Unit := do
  match ← load g with
  | none => .throw .noSuchRequest
  | some req =>
    let nanos ← perform .clock
    if req.isExpired (nanos / 1000000000) then
      ensure (← held g) .expired
    let joined : Except JoinOutcome GroupId ←
      (joinOne dev ⟨g, req.sender, req.welcome⟩ none false true).handle .pure
    match joined with
    | .ok _ => .pure ()
    | .error (.fatal e) => .throw e
    | .error _ => ensure (← held g) .unjoinable
    tryAck req.envelopeId
    acceptMembership g
    remove (.req g)

/-- Decline a request on the server. -/
def declineOnServer (g : GroupId) : Prog L Request := do
  match ← load g with
  | none => .throw .noSuchRequest
  | some req =>
    let joined ← held g
    ensure (!joined) .alreadyJoined
    request (.decline g)
    remove (.conv g)
    return req

/-- Drop a declined request with its keys. -/
def dropDeclined (g : GroupId) (req : Request) : Prog L Unit := do
  retireKeys req
  tryAck req.envelopeId
  remove (.req g)

def decline (g : GroupId) : Prog L Unit := declineOnServer g >>= dropDeclined g

end Request

end Powehi.Client
