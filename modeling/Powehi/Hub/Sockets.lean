import Mathlib.Data.Finset.Basic
import Mathlib.Data.Finset.Dedup
import Powehi.Semantics.Obligation
import Powehi.Server.References

/-!
# The WebSocket hub

Events of the services are translated into notifications and sent through one broadcast channel. A
connection subscribes, reads the groups of its device once, and from then on filters what arrives
by the set of groups it keeps in memory. Notifications about members are meant to keep the set up to
date.

The services publish an event after they stored an envelope and after they advanced an epoch. They
publish nothing when a membership changes.
-/

namespace Powehi.Hub

open Codec Semantics Server

/-! ### Events and notifications -/

/-- What the services can publish. -/
inductive DomainEvent
  | userRegistered (userId : UserId)
  | deviceRegistered (deviceId : DeviceId) (userId : UserId)
  | deviceRevoked (deviceId : DeviceId)
  | envelopeReceived (envelopeId : EnvelopeId) (groupId : GroupId)
  | epochAdvanced (groupId : GroupId) (newEpoch : Epoch)
  | memberAdded (groupId : GroupId) (deviceId : DeviceId) (epoch : Epoch)
  | memberRemoved (groupId : GroupId) (deviceId : DeviceId) (epoch : Epoch)
  | removalRequired (groupId : GroupId) (deviceId : DeviceId)
deriving DecidableEq

/-- What is pushed to a connection. -/
inductive WsNotification
  | envelopeReceived (groupId : GroupId) (envelopeId : EnvelopeId)
  | epochAdvanced (groupId : GroupId) (newEpoch : Epoch)
  | memberAdded (groupId : GroupId) (deviceId : DeviceId)
  | memberRemoved (groupId : GroupId) (deviceId : DeviceId)
  | removalRequired (groupId : GroupId) (deviceId : DeviceId)
deriving DecidableEq

/-- The group a notification is about. -/
def WsNotification.groupId : WsNotification → GroupId
  | .envelopeReceived g _ => g
  | .epochAdvanced g _ => g
  | .memberAdded g _ => g
  | .memberRemoved g _ => g
  | .removalRequired g _ => g

/-- The notification an event becomes. Events about accounts become none. -/
def notification : DomainEvent → Option WsNotification
  | .envelopeReceived id g => some (.envelopeReceived g id)
  | .epochAdvanced g n => some (.epochAdvanced g n)
  | .memberAdded g d _ => some (.memberAdded g d)
  | .memberRemoved g d _ => some (.memberRemoved g d)
  | .removalRequired g d => some (.removalRequired g d)
  | .userRegistered _ => none
  | .deviceRegistered _ _ => none
  | .deviceRevoked _ => none

/-- Whether a notification is forwarded to a device, and the set of its groups afterwards. -/
def filterNotification (myGroups : Finset GroupId) (n : WsNotification) (deviceId : DeviceId) :
    Bool × Finset GroupId :=
  match n with
  | .memberAdded g d =>
    -- the device itself was added: it is told, and gets what follows
    if d = deviceId then (true, insert g myGroups) else (decide (g ∈ myGroups), myGroups)
  | .memberRemoved g d =>
    if d = deviceId then (decide (g ∈ myGroups), myGroups.erase g)
    else (decide (g ∈ myGroups), myGroups)
  | .envelopeReceived g _ => (decide (g ∈ myGroups), myGroups)
  | .epochAdvanced g _ => (decide (g ∈ myGroups), myGroups)
  | .removalRequired g d =>
    -- a device is not warned of its own revocation
    if d = deviceId then (false, myGroups) else (decide (g ∈ myGroups), myGroups)

/-! ### Connections -/

/-- Notifications the channel keeps for a receiver that falls behind. -/
def hubCapacity : ℕ := 512

/-- One end of the channel: what is waiting, and how many notifications were dropped since it was
last told so. -/
structure Receiver where
  queue : List WsNotification
  missed : ℕ

/-- A notification arrives; when the buffer is full, the oldest one is dropped. -/
def Receiver.push (r : Receiver) (n : WsNotification) : Receiver :=
  if r.queue.length < hubCapacity then ⟨r.queue ++ [n], r.missed⟩
  else ⟨r.queue.tail ++ [n], r.missed + 1⟩

/-- A connection. The groups are unknown until they were read. The last three fields are history:
whether it was told that it lagged, what it was sent and in which state of the database, and what
was published about a group of its device while it was connected. -/
structure Socket where
  device : DeviceId
  receiver : Receiver
  myGroups : Option (Finset GroupId)
  isOpen : Bool
  toldLagged : Bool
  sent : List (WsNotification × Db)
  due : List WsNotification

/-- A connection that has subscribed. -/
def Socket.subscribed (d : DeviceId) : Socket := ⟨d, ⟨[], 0⟩, none, true, false, [], []⟩

/-- The notification is broadcast. -/
def Socket.receive (db : Db) (n : WsNotification) (s : Socket) : Socket :=
  if s.isOpen then
    { s with
      receiver := s.receiver.push n
      due := if db.isMember n.groupId s.device then s.due ++ [n] else s.due }
  else s

/-- The connection reads the groups of its device. If that fails, it has none. -/
def Socket.load (db : Db) (fails : Bool) (s : Socket) : Socket :=
  { s with myGroups := some (if fails then ∅ else (db.listGroupsForDevice s.device).toFinset) }

/-- The next notification is filtered and sent. A connection on which sending fails is closed. -/
def Socket.forward (db : Db) (delivered : Bool) (groups : Finset GroupId) (n : WsNotification)
    (rest : List WsNotification) (s : Socket) : Socket :=
  let (forwarded, myGroups) := filterNotification groups n s.device
  let s := { s with receiver.queue := rest, myGroups := some myGroups }
  if forwarded then
    if delivered then { s with sent := s.sent ++ [(n, db)] } else { s with isOpen := false }
  else s

/-- The connection takes the next item from the channel: a notification, or the information that it
lagged, which it ignores. -/
def Socket.recv? (db : Db) (delivered : Bool) (s : Socket) : Option Socket :=
  match s.myGroups with
  | none => none
  | some groups =>
    if s.receiver.missed ≠ 0 then some { s with receiver.missed := 0, toldLagged := true }
    else
      match s.receiver.queue with
      | [] => none
      | n :: rest => some (s.forward db delivered groups n rest)

/-! ### The services with their events -/

/-- The tables and the connections. -/
structure World where
  server : Server.World
  sockets : List Socket

/-- Broadcast an event. -/
def World.dispatch (w : World) (e : DomainEvent) : World :=
  match notification e with
  | none => w
  | some n => { w with sockets := w.sockets.map (Socket.receive w.server.db n) }

/-- What a service asks for: an operation on the tables, or that an event is published. -/
inductive Op : Type → Type 1
  | server {ω : Type} (o : Server.Op ω) : Op ω
  | publish (e : DomainEvent) : Op Unit

def machine : Machine Op World Choice where
  exec
    | .server o, c, w =>
      let out := Server.machine.exec o c w.server
      (out.1, { w with server := out.2 })
    | .publish e, _, w => ((), w.dispatch e)

/-- The event that is published right after an operation: an envelope was stored, or an epoch was
advanced. Nothing else is published. -/
def announced : {ω : Type} → Server.Op ω → ω → Option DomainEvent
  | _, .sql (.saveEnvelope e) => fun
    | .ok _ => some (.envelopeReceived e.id e.groupId)
    | .error _ => none
  | _, .sql (.commitEpochAndSave g _ _) => fun
    | .ok (some n) => some (.epochAdvanced g n)
    | .ok none => none
    | .error _ => none
  | _, _ => fun _ => none

/-- A program of the services with the events it publishes. The outcome of publishing is ignored. -/
def announcing {α : Type} : Server.Serve α → Program Op Failure α
  | .pure a => .pure a
  | .throw e => .throw e
  | .op o next => .op (.server o) fun b =>
    match announced o b with
    | some e => .op (.publish e) fun _ => announcing (next b)
    | none => announcing (next b)

/-- The program that serves a request. -/
def serve (cfg : Config) (i : Request) : Program Op Failure Response :=
  announcing (Server.serve cfg i)

/-- The calls of the services, on the tables and the connections. -/
abbrev HubPool := Pool Request Op Failure Response World

/-- What can happen: a call is started or performs its next operation; a device connects; a
connection reads the groups of its device, takes the next item from the channel, or is closed. -/
inductive Turn
  | call (turn : Semantics.Turn Request Choice)
  | connect (deviceId : DeviceId)
  | load (socket : ℕ) (fails : Bool)
  | recv (socket : ℕ) (delivered : Bool)
  | close (socket : ℕ)

/-- Change one connection. -/
def setSocket (p : HubPool) (k : ℕ) (s : Socket) : HubPool :=
  { p with shared.sockets := p.shared.sockets.set k s }

/-- The state after a turn, if the turn is possible. -/
def step? (cfg : Config) (p : HubPool) : Turn → Option HubPool
  | .call turn => Pool.next? machine (serve cfg) p turn
  | .connect d => some { p with shared.sockets := p.shared.sockets ++ [.subscribed d] }
  | .load k fails =>
    match p.shared.sockets[k]? with
    | none => none
    | some s =>
      if s.isOpen ∧ s.myGroups = none then some (setSocket p k (s.load p.shared.server.db fails))
      else none
  | .recv k delivered =>
    match p.shared.sockets[k]? with
    | none => none
    | some s =>
      if s.isOpen then (s.recv? p.shared.server.db delivered).map (setSocket p k) else none
  | .close k =>
    match p.shared.sockets[k]? with
    | none => none
    | some s => if s.isOpen then some (setSocket p k { s with isOpen := false }) else none

/-- One turn. -/
def Step (cfg : Config) (p : HubPool) (e : Turn) (p' : HubPool) : Prop := step? cfg p e = some p'

end Powehi.Hub
