import Powehi.Client.Profile

/-!
# Reading and writing the records

The functions of the client that load and save one kind of record: conversations, the MLS key
store, the decapsulation keys and the pending requests.
-/

namespace Powehi.Client

open Codec Server Semantics Program

variable {L : Libraries}

def get (n : Name) : Prog L (Option (n.Value L)) := request (.get n)

def put (n : Name) (v : n.Value L) : Prog L Unit := request (.put n v)

def remove (n : Name) : Prog L Unit := request (.remove n)

def names : Prog L (List Name) := request .names

/-- Go on only if a condition holds. -/
def ensure {ε : Type} (b : Bool) (e : ε) : Program (Op L) ε Unit :=
  if b then .pure () else .throw e

/-! ### Conversations -/

namespace Conversation

/-- Most conversations a profile holds. -/
def maxConversations : ℕ := 256

/-- Group ids of the stored conversations. -/
def list : Prog L (List GroupId) := do
  let all ← names
  return all.filterMap fun n => match n with
    | .conv g => some g
    | _ => none

def load (g : GroupId) : Prog L (Option Conversation) := do
  match ← get (.conv g) with
  | none => return none
  | some c =>
    ensure (c.check L && c.groupId = g) .malformed
    return some c

def save (c : Conversation) : Prog L Unit := do
  ensure (c.check L) .malformed
  let existing ← list
  ensure (c.groupId ∈ existing || existing.length < maxConversations) .tooMany
  put (.conv c.groupId) c

end Conversation

/-! ### The MLS key store -/

/-- The key store, or an empty one. -/
def loadProvider : Prog L (Provider L) := do
  return (← get .mlsProvider).getD ∅

def saveProvider (P : Provider L) : Prog L Unit := put .mlsProvider P

/-! ### Decapsulation keys -/

namespace PqKeys

/-- Most decapsulation keys held at once. -/
def maxPqKeys : ℕ := 400

def load : Prog L (List (KeyRef × Bytes)) := do
  return (← get .pqKeys).getD []

def save (keys : List (KeyRef × Bytes)) : Prog L Unit := do
  ensure (keys.length ≤ maxPqKeys) .tooManyLocalKeys
  put .pqKeys keys

end PqKeys

/-- The decapsulation key kept for a KeyPackage. -/
def pqKeyFor (ref : KeyRef) : Prog L (Option Bytes) := do
  let keys ← PqKeys.load
  return (keys.find? (·.1 = ref)).map Prod.snd

/-- Drop the decapsulation key of a consumed KeyPackage. -/
def prunePqKey (ref : KeyRef) : Prog L Unit := do
  let keys ← PqKeys.load
  let kept := keys.filter (·.1 ≠ ref)
  if kept.length ≠ keys.length then PqKeys.save kept else return ()

/-! ### Pending requests -/

namespace Request

/-- Most requests kept at once. -/
def maxRequests : ℕ := 32

/-- Longest Welcome kept. -/
def maxWelcomeLen : ℕ := 256 * 1024

/-- Seconds after which a request is dropped. -/
def requestTtlSecs : ℕ := 5 * 24 * 60 * 60

def groupIds : Prog L (List GroupId) := do
  let all ← names
  return all.filterMap fun n => match n with
    | .req g => some g
    | _ => none

def lengthOk (r : Request) : Bool := r.welcome ≠ [] && r.welcome.length ≤ maxWelcomeLen

def load (g : GroupId) : Prog L (Option Request) := do
  match ← get (.req g) with
  | none => return none
  | some r =>
    ensure (r.groupId = g && r.lengthOk) .malformed
    return some r

/-- The readable requests, oldest first. -/
def list : Prog L (List Request) := do
  let ids ← groupIds
  let all ← ids.foldlM (fun out id => do
    match ← (load id).attempt with
    | .ok (some r) => return out ++ [r]
    | .ok none => return out
    | .error .malformed => return out
    | .error e => .throw e) []
  return all.mergeSort fun r r' =>
    r.receivedAt < r'.receivedAt || r.receivedAt = r'.receivedAt && r.groupId ≤ r'.groupId

/-- Keep a new request, unless there is one for this group or this KeyPackage, too many are held or
the Welcome is too long. The answer says whether it is kept. -/
def saveNew (req : Request) : Prog L Bool := do
  if !req.lengthOk then return false
  let held ← groupIds
  if req.groupId ∈ held || maxRequests ≤ held.length then return false
  let all ← list
  if all.any (·.keyPackageRef = req.keyPackageRef) then return false
  put (.req req.groupId) req
  return true

/-- Delete the private halves of the KeyPackage a request's Welcome consumes. -/
def retireKeys (req : Request) : Prog L Unit := do
  let P ← loadProvider
  saveProvider (P.deleteKeyPackage req.keyPackageRef)
  prunePqKey req.keyPackageRef
  remove (.inviteKp req.keyPackageRef)

def isExpired (req : Request) (now : ℕ) : Bool := requestTtlSecs < now - req.receivedAt

/-- What `pruneExpired` does with a request: an expired one goes with its keys, an unreadable one
goes as it is. A request whose keys cannot be retired stays. -/
def pruneLoaded (now : ℕ) (envelopes : List EnvelopeId) (id : GroupId) :
    Except Error (Option Request) → Prog L (List EnvelopeId)
  | .ok (some r) => do
    if r.isExpired now then
      match ← (retireKeys r).attempt with
      | .ok _ =>
        remove (.req id)
        return envelopes ++ [r.envelopeId]
      | .error _ => return envelopes
    else return envelopes
  | .ok none => return envelopes
  | .error .malformed => do
    remove (.req id)
    return envelopes
  | .error e => .throw e

def pruneOne (now : ℕ) (envelopes : List EnvelopeId) (id : GroupId) :
    Prog L (List EnvelopeId) := do
  pruneLoaded now envelopes id (← (load id).attempt)

/-- Drop the requests that are too old; the answer names the envelopes of their Welcomes. -/
def pruneExpired (now : ℕ) : Prog L (List EnvelopeId) := do
  let ids ← groupIds
  ids.foldlM (pruneOne now) []

end Request

end Powehi.Client
