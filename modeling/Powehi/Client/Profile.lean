import Mathlib.Data.List.Nodup
import Mathlib.Data.List.Sort
import Powehi.Client.Libraries
import Powehi.Semantics.Triple

/-!
# The profile store and the server, as the client sees them

The encrypted profile is a set of named records; each name has its own type of value. A single
write or removal is atomic and durable, and any of them can fail. The development of the store
itself is `Powehi.Store`; here a failed write may or may not have taken effect.

The server is what it keeps for this device: the envelopes that arrived, in the order of their
arrival, those that are gone again because the device acknowledged them or the server expired them,
the device's memberships, and the KeyPackages that were sent to it. The environment chooses which
requests reach the server and which answers come back.

A world also carries a trace of what the client did. No operation reads it.
-/

namespace Powehi.Client

open Codec Server Semantics List

/-- The names of the records of a profile. -/
inductive Name
  | rx (id : EnvelopeId)
  | att (id : Uuid)
  | conv (g : GroupId)
  | req (g : GroupId)
  | inviteKp (ref : KeyRef)
  | mlsProvider
  | pqKeys
  | kpBatches
  | inboxJunk
  | inboxCursor
  | pcs (g : GroupId)
  | gadd (g : GroupId)
  | grem (g : GroupId)
deriving DecidableEq, Repr

/-- What the record of a name holds. The three records of an unresolved own Commit are only looked
up here, never read. -/
@[reducible] def Name.Value (L : Libraries) : Name → Type
  | .rx _ => Received
  | .att _ => Received
  | .conv _ => Conversation
  | .req _ => Request
  | .inviteKp _ => Unit
  | .mlsProvider => Provider L
  | .pqKeys => List (KeyRef × Bytes)
  | .kpBatches => List Batch
  | .inboxJunk => List Entry
  | .inboxCursor => Cursor × ℕ
  | .pcs _ => Bytes
  | .gadd _ => Bytes
  | .grem _ => Bytes

/-- Records by name, with the list of the names in use. -/
structure Profile (L : Libraries) where
  records : (n : Name) → Option (n.Value L)
  names : List Name
  nodup : names.Nodup
  mem_names : ∀ n, n ∈ names ↔ (records n).isSome

namespace Profile

variable {L : Libraries}

@[ext] theorem ext {P P' : Profile L} (hr : P.records = P'.records) (hn : P.names = P'.names) :
    P = P' := by
  cases P
  cases P'
  congr

instance : EmptyCollection (Profile L) :=
  ⟨⟨fun _ => none, [], nodup_nil, by simp⟩⟩

/-- Write a record. -/
def put (P : Profile L) (n : Name) (v : n.Value L) : Profile L where
  records := Function.update P.records n (some v)
  names := if n ∈ P.names then P.names else P.names ++ [n]
  nodup := by
    split
    · exact P.nodup
    · next h => exact nodup_append.mpr ⟨P.nodup, by simp, by
        rintro a ha b hb rfl
        exact h (by simpa using (mem_singleton.mp hb) ▸ ha)⟩
  mem_names := by
    intro m
    by_cases hm : m = n
    · subst hm
      rw [Function.update_self]
      split <;> simp_all
    · rw [Function.update_of_ne hm, ← P.mem_names]
      split <;> simp [hm]

/-- Remove a record. Removing a missing one is no error. -/
def remove (P : Profile L) (n : Name) : Profile L where
  records := Function.update P.records n none
  names := P.names.filter (· ≠ n)
  nodup := P.nodup.filter _
  mem_names := by
    intro m
    by_cases hm : m = n
    · subst hm
      simp
    · rw [Function.update_of_ne hm, ← P.mem_names]
      simp [hm]

section Records

variable {P : Profile L} {n m : Name}

@[simp] theorem records_put_self {v : n.Value L} : (P.put n v).records n = some v :=
  Function.update_self ..

theorem records_put_ne {v : n.Value L} (h : m ≠ n) : (P.put n v).records m = P.records m :=
  Function.update_of_ne h ..

@[simp] theorem records_remove_self : (P.remove n).records n = none := Function.update_self ..

theorem records_remove_ne (h : m ≠ n) : (P.remove n).records m = P.records m :=
  Function.update_of_ne h ..

end Records

end Profile

/-! ### Operations -/

/-- A new KeyPackage, named by its reference, and its two private halves: the decapsulation key and
the MLS bundle. -/
structure PqKeyPackage (L : Libraries) where
  keyPackageRef : KeyRef
  decapKey : Bytes
  bundle : L.Bundle

/-- A stored message as `read` shows it. -/
structure Pending where
  id : EnvelopeId
  sender : DeviceId
  senderKey : Option Bytes
  body : Bytes
  media : Option Uuid
  receivedAt : ℕ
deriving DecidableEq, Repr

/-- Points of a run the trace marks. -/
inductive Mark
  /-- The envelopes of the run's window. -/
  | window (items : List Envelope)
  /-- An envelope is taken off the queue. -/
  | taken (env : Envelope)
  /-- An attempt to decrypt an Application envelope is made. -/
  | processing (env : Envelope)
  /-- An Application envelope is left to a later run because a cap is reached, that of the run or
  that of the conversation. -/
  | putOff (env : Envelope) (runCap : Bool)
  /-- An attempt left an Application envelope to a later run. -/
  | skipped (env : Envelope)
  /-- An Application envelope is of a later epoch than the group's. -/
  | ahead (env : Envelope)
  /-- An attempt to apply a Commit is made. -/
  | committing (env : Envelope)
  /-- A Commit was applied. -/
  | applied (env : Envelope)
deriving DecidableEq, Repr

/-- The operations of the client. -/
inductive Op (L : Libraries) : Type → Type
  | get (n : Name) : Op L (Except Error (Option (n.Value L)))
  | put (n : Name) (v : n.Value L) : Op L (Except Error Unit)
  | remove (n : Name) : Op L (Except Error Unit)
  | names : Op L (Except Error (List Name))
  | clock : Op L ℕ
  | uuid : Op L Uuid
  | generate : Op L (Except Error (PqKeyPackage L))
  | poll (after : Option Cursor) : Op L (Except Error (List Envelope))
  | ack (id : EnvelopeId) : Op L (Except Error Unit)
  | accept (g : GroupId) : Op L (Except Error Unit)
  | decline (g : GroupId) : Op L (Except Error Unit)
  | count : Op L (Except Error ℕ)
  | upload (now : ℕ) (packages : List KeyRef) : Op L (Except Error ℕ)
  | display (msg : Pending) : Op L (Except Error Unit)
  | enter : Op L Bool

/-! ### Worlds -/

/-- Whether the server counts the device as a member of a group. -/
inductive Membership
  | pending
  | active
deriving DecidableEq, Repr

/-- What the trace of a run records. -/
inductive Event (L : Libraries)
  | stored (id : EnvelopeId) (r : Received)
  | removed (id : EnvelopeId)
  | displayed (msg : Pending)
  | acked (id : EnvelopeId)
  | generated (ref : KeyRef)
  | uploaded (now : ℕ) (packages : List KeyRef)
  | marked (m : Mark)

/-- The profile, the server's part for this device, and the trace of what the client did. -/
structure World (L : Libraries) where
  profile : Profile L
  mail : List Envelope
  gone : List EnvelopeId
  memberships : GroupId → Option Membership
  trace : List (Event L)

/-- How one write of the store ends. -/
inductive Fault
  | none
  | failed
  | doneButFailed
deriving DecidableEq, Repr

/-- One choice of the environment. Each operation uses the part that concerns it. -/
structure Choice (L : Libraries) where
  store : Fault := .none
  clock : ℕ := 0
  uuid : Uuid := 0
  package : Except Error (PqKeyPackage L) := .error .mls
  /-- The request reaches the server. -/
  reached : Bool := true
  /-- What the client gets instead of the server's answer. -/
  failure : Option Error := none
  arrivals : List Envelope := []
  invited : List GroupId := []
  expired : List EnvelopeId := []
  count : ℕ := 0
  written : Bool := true
  entered : Bool := true

namespace World

variable {L : Libraries}

/-- A profile for which nothing has arrived yet. -/
def new (P : Profile L) : World L := ⟨P, [], [], fun _ => none, []⟩

/-- Envelopes the server still keeps for the device, in the order of their arrival. -/
def pending (w : World L) : List Envelope := w.mail.filter fun e => e.id.all (· ∉ w.gone)

/-- The order in which the server hands envelopes out. -/
def precedes (e e' : Envelope) : Bool :=
  match e.cursor?, e'.cursor? with
  | some c, some c' => c.since < c'.since ∨ c.since = c'.since ∧ c.sinceId ≤ c'.sinceId
  | none, _ => true
  | some _, none => false

/-- An envelope is behind a cursor. -/
def isAfter (after : Option Cursor) (e : Envelope) : Bool :=
  match after, e.cursor? with
  | none, _ => true
  | some _, none => false
  | some c, some c' => c.since < c'.since ∨ c.since = c'.since ∧ c.sinceId < c'.sinceId

/-- Envelopes on one page. -/
def pageSize : ℕ := 64

/-- The page of pending envelopes behind a cursor. -/
def page (w : World L) (after : Option Cursor) : List Envelope :=
  ((w.pending.insertionSort (precedes · ·)).filter (isAfter after)).take pageSize

def record (w : World L) (e : Event L) : World L := { w with trace := w.trace ++ [e] }

/-- The references of the KeyPackages made so far. -/
def generated (w : World L) : List KeyRef :=
  w.trace.filterMap fun e => match e with
    | .generated ref => some ref
    | _ => none

/-- What a write of a record puts into the trace. -/
def noteWrite (w : World L) : (n : Name) → n.Value L → World L
  | .rx id, r => w.record (.stored id r)
  | _, _ => w

/-- What a removal of a record puts into the trace. -/
def noteRemove (w : World L) : Name → World L
  | .rx id => w.record (.removed id)
  | _ => w

def write (w : World L) (n : Name) (v : n.Value L) : World L :=
  { w.noteWrite n v with profile := w.profile.put n v }

def erase (w : World L) (n : Name) : World L :=
  { w.noteRemove n with profile := w.profile.remove n }

/-- New envelopes and memberships arrive, and the server drops what it expired. -/
def arrive (w : World L) (c : Choice L) : World L :=
  { w with
    mail := w.mail ++ c.arrivals
    gone := w.gone ++ c.expired
    memberships := fun g => if g ∈ c.invited ∧ w.memberships g = none then some .pending
      else w.memberships g }

end World

/-- A store operation under a fault: whether it takes effect and what the client is told. -/
def Fault.apply {σ : Type} (f : Fault) (done : σ → σ) (s : σ) : Except Error Unit × σ :=
  match f with
  | .none => (.ok (), done s)
  | .failed => (.error .store, s)
  | .doneButFailed => (.error .store, done s)

/-- A request to the server: `serve` is what the server does and answers once the request reaches
it. -/
def Choice.send {L : Libraries} {α : Type} (c : Choice L)
    (serve : World L → Except Error α × World L) (w : World L) : Except Error α × World L :=
  if c.reached then
    let (r, w') := serve w
    (match c.failure with
      | some e => .error e
      | none => r, w')
  else (.error (c.failure.getD .unreachable), w)

/-- The meaning of the operations. -/
def machine (L : Libraries) : Machine (Op L) (World L) (Choice L) where
  exec
  | .get n, c, w =>
    (if c.store = .none then .ok (w.profile.records n) else .error .store, w)
  | .put n v, c, w => c.store.apply (·.write n v) w
  | .remove n, c, w => c.store.apply (·.erase n) w
  | .names, c, w => (if c.store = .none then .ok w.profile.names else .error .store, w)
  | .clock, c, w => (c.clock, w)
  | .uuid, c, w => (c.uuid, w)
  | .generate, c, w =>
    match c.package with
    | .error e => (.error e, w)
    | .ok package =>
      -- a reference is a hash of fresh keys, so none is ever made twice
      if package.keyPackageRef ∈ w.generated then (.error .mls, w)
      else (.ok package, w.record (.generated package.keyPackageRef))
  | .poll after, c, w =>
    c.send (fun w => (.ok (w.page after), w)) (w.arrive c)
  | .ack id, c, w =>
    c.send (fun w => (.ok (), { w with gone := w.gone ++ [id] })) (w.record (.acked id))
  | .accept g, c, w =>
    c.send (fun w =>
      match w.memberships g with
      | none => (.error (.httpStatus 401), w)
      | some _ => (.ok (), { w with
          memberships := Function.update w.memberships g (some .active) })) w
  | .decline g, c, w =>
    c.send (fun w =>
      match w.memberships g with
      | some .pending => (.ok (), { w with
          memberships := Function.update w.memberships g none })
      | _ => (.ok (), w)) w
  | .count, c, w => c.send (fun w => (.ok c.count, w)) w
  | .upload now packages, c, w =>
    c.send (fun w => (.ok c.count, w)) (w.record (.uploaded now packages))
  | .display msg, c, w =>
    if c.written then (.ok (), w.record (.displayed msg)) else (.error .output, w)
  | .enter, c, w => (c.entered, w)

/-- A program of the client. -/
abbrev Prog (L : Libraries) := Program (Op L) Error

end Powehi.Client
