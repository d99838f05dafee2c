import Powehi.Semantics.Pool
import Powehi.Server.Database

/-!
# The repositories as operations

A service talks to the database through repositories. Every repository method is one transaction,
hence one operation of the program that serves a request; between two of them other requests run.
An operation can fail before it took effect, or after: then the transaction is committed and the
caller is told of an internal error all the same.
-/

namespace Powehi.Server

open Codec Semantics

/-- A repository method, by the type of its answer. -/
inductive Query : Type → Type
  | createWithCreator (group : Group) (creator : GroupMember) : Query Bool
  | findGroup (id : GroupId) : Query (Option Group)
  | getEpochIfMember (groupId : GroupId) (deviceId : DeviceId) : Query (Option Group)
  | listMembers (groupId : GroupId) : Query (List GroupMember)
  | listGroupsForDevice (deviceId : DeviceId) : Query (List GroupId)
  | addPending (m : GroupMember) : Query Unit
  | acceptPending (groupId : GroupId) (deviceId : DeviceId) : Query Bool
  | declinePending (groupId : GroupId) (deviceId : DeviceId) : Query Bool
  | removeMember (groupId : GroupId) (deviceId : DeviceId) : Query Unit
  | upsertMembers (group : Group) (members : List GroupMember) : Query Unit
  | createPendingRemoval (groupId : GroupId) (deviceId : DeviceId) : Query Unit
  | deletePendingRemoval (groupId : GroupId) (deviceId : DeviceId) : Query Unit
  | saveEnvelope (e : Envelope) : Query Unit
  | findEnvelope (id : EnvelopeId) : Query (Option Envelope)
  | findPending (deviceId : DeviceId) (since : Option Time) (sinceId : Option EnvelopeId) :
      Query (List Envelope)
  | deleteEnvelope (id : EnvelopeId) : Query Unit
  | deleteExpired : Query ℕ
  | ackBroadcast (id : EnvelopeId) (deviceId : DeviceId) (memberIds : List DeviceId) : Query Unit
  | commitEpochAndSave (groupId : GroupId) (expected : Epoch) (e : Envelope) :
      Query (Option Epoch)
  | saveUser (u : User) : Query Unit
  | findUser (id : UserId) : Query (Option User)
  | findUserByHandle (handleHash : Bytes) : Query (Option User)
  | saveDevice (d : Device) : Query Unit
  | findDevice (id : DeviceId) : Query (Option Device)
  | findDevicesByUser (userId : UserId) : Query (List Device)
  | deleteDevice (id : DeviceId) : Query Unit
  | saveKeyPackage (kp : KeyPackage) : Query Unit
  | fetchOne (deviceId : DeviceId) : Query (Option KeyPackage)
  | deleteKeyPackagesByDevice (deviceId : DeviceId) : Query ℕ

/-- The transaction a repository method runs. -/
def Query.run {β : Type} : Query β → Db → Except DomainError (β × Db)
  | .createWithCreator group creator, db => db.createWithCreator group creator
  | .findGroup id, db => .ok (db.findGroup id, db)
  | .getEpochIfMember g d, db => .ok (db.getEpochIfMember g d, db)
  | .listMembers g, db => .ok (db.listMembers g, db)
  | .listGroupsForDevice d, db => .ok (db.listGroupsForDevice d, db)
  | .addPending m, db => db.addPending m
  | .acceptPending g d, db => .ok (db.acceptPending g d)
  | .declinePending g d, db => .ok (db.declinePending g d)
  | .removeMember g d, db => .ok ((), db.removeMember g d)
  | .upsertMembers group members, db => db.upsertMembers group members
  | .createPendingRemoval g d, db => .ok ((), db.createPendingRemoval g d)
  | .deletePendingRemoval g d, db => .ok ((), db.deletePendingRemoval g d)
  | .saveEnvelope e, db => .ok ((), db.saveEnvelope e)
  | .findEnvelope id, db => .ok (db.findEnvelope id, db)
  | .findPending d since sinceId, db => .ok (db.findPending d since sinceId, db)
  | .deleteEnvelope id, db => .ok ((), db.deleteEnvelope id)
  | .deleteExpired, db => .ok db.deleteExpired
  | .ackBroadcast id d ms, db => db.ackBroadcast id d ms
  | .commitEpochAndSave g expected e, db => db.commitEpochAndSave g expected e
  | .saveUser u, db => db.saveUser u
  | .findUser id, db => .ok (db.findUser id, db)
  | .findUserByHandle h, db => .ok (db.findUserByHandle h, db)
  | .saveDevice d, db => db.saveDevice d
  | .findDevice id, db => .ok (db.findDevice id, db)
  | .findDevicesByUser u, db => .ok (db.findDevicesByUser u, db)
  | .deleteDevice id, db => .ok ((), db.deleteDevice id)
  | .saveKeyPackage kp, db => .ok ((), db.saveKeyPackage kp)
  | .fetchOne d, db => .ok (db.fetchOne d)
  | .deleteKeyPackagesByDevice d, db => .ok (db.deleteKeyPackagesByDevice d)

/-! ### The machine -/

/-- The database, and the history of its envelopes: every row that was ever inserted. -/
structure World where
  db : Db
  stored : List Envelope
deriving DecidableEq

namespace World

def empty : World := ⟨.empty, []⟩

/-- Time passes in the database. -/
def tick (w : World) (elapsed : Time) : World := { w with db.now := w.db.now + elapsed }

/-- A transaction is committed; envelope rows that are new are added to the history. -/
def store (w : World) (db : Db) : World where
  db := db
  stored := w.stored ++ db.envelopes.rows.filter fun e => (w.db.envelopes.find? e.id).isNone

end World

/-- What a service asks for: a repository call, a fresh UUID, the time on its own clock. -/
inductive Op : Type → Type 1
  | sql {β : Type} (q : Query β) : Op (Except DomainError β)
  | newUuid : Op Uuid
  | utcNow : Op Time

/-- A repository call that reports a failure took no effect, or took it all the same. -/
inductive Fault
  | before
  | after
deriving DecidableEq

/-- What the environment decides about one operation. -/
structure Choice where
  fault : Option Fault
  message : String
  elapsed : Time
  uuid : Uuid
  clock : Time
deriving DecidableEq

/-- Nothing fails, no time passes. -/
def Choice.plain : Choice := ⟨none, "", 0, 0, 0⟩

/-- One repository call. -/
def transact {β : Type} (q : Query β) (c : Choice) (w : World) : Except DomainError β × World :=
  let w := w.tick c.elapsed
  if c.fault = some .before then (.error (.internal c.message), w)
  else
    match q.run w.db with
    | .error e => (.error e, w)
    | .ok (b, db) =>
      (if c.fault = some .after then .error (.internal c.message) else .ok b, w.store db)

/-- What each operation does. -/
def machine : Machine Op World Choice where
  exec
    | .sql q, c, w => transact q c w
    | .newUuid, c, w => (c.uuid, w)
    | .utcNow, c, w => (c.clock, w)

/-- What one repository call can do: nothing but let time pass, and then it fails with an internal
error or with the transaction's own; or commit, and then it answers or reports an internal error. -/
theorem transact_cases {β : Type} (q : Query β) (c : Choice) (w : World) :
    ((transact q c w).2 = w.tick c.elapsed ∧ ∃ e, (transact q c w).1 = .error e ∧
      (e.isInternal = true ∨ q.run (w.tick c.elapsed).db = .error e)) ∨
    ∃ b db, q.run (w.tick c.elapsed).db = .ok (b, db) ∧
      (transact q c w).2 = (w.tick c.elapsed).store db ∧
      ((transact q c w).1 = .ok b ∨
        ∃ e, (transact q c w).1 = .error e ∧ e.isInternal = true) := by
  unfold transact
  by_cases hbefore : c.fault = some .before
  · left
    simp [hbefore, DomainError.isInternal]
  · simp only [hbefore, if_false]
    cases hrun : q.run (w.tick c.elapsed).db with
    | error e =>
      left
      exact ⟨rfl, e, rfl, .inr rfl⟩
    | ok out =>
      obtain ⟨b, db⟩ := out
      refine .inr ⟨b, db, rfl, rfl, ?_⟩
      dsimp only
      split
      · exact .inr ⟨_, rfl, rfl⟩
      · exact .inl rfl

/-- A relation between the states before and after an operation that does not see time pass holds
of every operation if it holds of every transaction that commits. -/
theorem exec_rel {R : World → World → Prop} {K : {ω : Type} → Op ω → Prop} (refl : ∀ w, R w w)
    (tick : ∀ w elapsed w', R (w.tick elapsed) w' → R w w')
    (commit : ∀ {β : Type} (q : Query β) (w : World) b db, K (.sql q) →
      q.run w.db = .ok (b, db) → R w (w.store db))
    {ω : Type} {o : Op ω} (ho : K o) (c : Choice) (w : World) : R w (machine.exec o c w).2 := by
  cases o with
  | newUuid | utcNow => exact refl w
  | sql q =>
    change R w (transact q c w).2
    rcases transact_cases q c w with ⟨hw, -⟩ | ⟨b, db, hrun, hw, -⟩
    · rw [hw]
      exact tick w c.elapsed _ (refl _)
    · rw [hw]
      exact tick w c.elapsed _ (commit q _ b db ho hrun)

end Powehi.Server
