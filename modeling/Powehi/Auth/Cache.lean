import Powehi.Semantics.Expiring
import Powehi.Server.Repository

/-!
# The cache, and the operations of the auth services

Registrations in progress, login nonces, sessions and invites live in the cache, and so do the
indexes of a device's sessions and invites. Most entries have a time to live.

The auth services act on the cache and on the database. Each call is one operation; it can fail
before it took effect, or after.
-/

namespace Powehi.Auth

open Codec Semantics Server

/-- The text of a UUID that names a session. -/
abbrev Token := Uuid

/-- The text of a UUID that names a login in progress. -/
abbrev Nonce := Uuid

/-- A key of a plain value. The text of a key starts with the name of its family. -/
inductive Key
  /-- `reg:` the handle of a registration in progress. -/
  | reg (userId : UserId)
  /-- `regdone:` the fingerprint of a completed registration. -/
  | regDone (userId : UserId)
  /-- `login_nonce:` the user who logs in. -/
  | loginNonce (nonce : Nonce)
  /-- `session:` the device of a session. -/
  | session (token : Token)
  /-- `invite:` the inviting device and its key package, by the hash of the code. -/
  | invite (hash : Bytes)
deriving DecidableEq

/-- A key of a set. -/
inductive SetKey
  /-- `device_sessions:` the sessions of a device. -/
  | deviceSessions (deviceId : DeviceId)
  /-- `invite:device:` the outstanding invites of a device. -/
  | deviceInvites (deviceId : DeviceId)
deriving DecidableEq

/-- A stored value, by what its bytes are made of. -/
inductive Value
  | bytes (b : Bytes)
  /-- The bytes of a UUID. -/
  | uuid (u : Uuid)
  /-- The bytes of a UUID, followed by others. -/
  | uuidAnd (u : Uuid) (rest : Bytes)
deriving DecidableEq

/-- The cache, and what its clock shows. A member of a set stands for the key it leads to; for a
session the text of the member is the token alone. -/
structure Cache where
  entries : Expiring Key Value
  sets : Expiring SetKey (List Key)
  now : Time

def Cache.empty : Cache := ⟨∅, ∅, 0⟩

/-- A call to the cache, by the type of its answer. -/
inductive CacheQuery : Type → Type
  | get (k : Key) : CacheQuery (Option Value)
  | set (k : Key) (v : Value) (ttl : Option Time) : CacheQuery Unit
  | delete (k : Key) : CacheQuery Unit
  | getDel (k : Key) : CacheQuery (Option Value)
  | setAdd (k : SetKey) (member : Key) : CacheQuery Unit
  | setRemove (k : SetKey) (member : Key) : CacheQuery Unit
  | setExpire (k : SetKey) (ttl : Time) : CacheQuery Unit
  | setMembers (k : SetKey) : CacheQuery (List Key)
  | deleteSet (k : SetKey) : CacheQuery Unit

/-- A time to live is at least one second. -/
def atLeastOneSecond (ttl : Time) : Time := max ttl (seconds 1)

/-- What the cache answers, and the cache afterwards. -/
def CacheQuery.run {β : Type} : CacheQuery β → Cache → β × Cache
  | .get k, c => (c.entries.get? c.now k, c)
  | .set k v ttl, c =>
    ((), { c with entries := c.entries.set k v (ttl.map fun t => c.now + atLeastOneSecond t) })
  | .delete k, c => ((), { c with entries := c.entries.delete k })
  | .getDel k, c => (c.entries.get? c.now k, { c with entries := c.entries.delete k })
  | .setAdd k x, c => ((), { c with sets := c.sets.add c.now k x })
  | .setRemove k x, c => ((), { c with sets := c.sets.remove c.now k x })
  | .setExpire k ttl, c =>
    ((), { c with sets := c.sets.expire c.now k (c.now + atLeastOneSecond ttl) })
  | .setMembers k, c => (c.sets.members c.now k, c)
  | .deleteSet k, c => ((), { c with sets := c.sets.delete k })

/-! ### The machine -/

/-- The database, the cache, and the history of the device rows that were asked to be saved. -/
structure World where
  db : Db
  cache : Cache
  saved : List Device

namespace World

/-- Time passes in the database and in the cache. -/
def tick (w : World) (elapsed : Time) : World :=
  { w with db.now := w.db.now + elapsed, cache.now := w.cache.now + elapsed }

/-- What is stored at a key. -/
def entry (w : World) (k : Key) : Option Value := w.cache.entries.get? w.cache.now k

/-- The keys in a set. -/
def index (w : World) (k : SetKey) : List Key := w.cache.sets.members w.cache.now k

/-- The row of a device. -/
def device (w : World) (d : DeviceId) : Option Device := w.db.findDevice d

end World

/-- The functions of the OPAQUE library the services call. -/
inductive OpaqueCall
  | registrationStart (request : Bytes) (identity : UserId)
  | registrationFinish (upload : Bytes)
  | loginStart (passwordFile : Option Bytes) (ke1 : Bytes) (identity : UserId) (nonce : Nonce)
  | loginFinish (nonce : Nonce) (ke3 : Bytes)

/-- What an auth service asks for. -/
inductive Op : Type → Type 1
  | sql {β : Type} (q : Query β) : Op (Except DomainError β)
  | cache {β : Type} (q : CacheQuery β) : Op (Except DomainError β)
  | opaqueKe (call : OpaqueCall) : Op (Except DomainError Bytes)
  | newUuid : Op Uuid

/-- What the environment decides about one operation. -/
structure Choice where
  fault : Option Fault
  message : String
  elapsed : Time
  uuid : Uuid
  opaqueKe : Except DomainError Bytes

/-- Nothing fails, no time passes. -/
def Choice.plain : Choice := ⟨none, "", 0, 0, .ok []⟩

/-- A call that can fail before or after it took effect. -/
def attempted {β : Type} (run : World → Except DomainError (β × World)) (c : Choice) (w : World) :
    Except DomainError β × World :=
  let w := w.tick c.elapsed
  if c.fault = some .before then (.error (.internal c.message), w)
  else
    match run w with
    | .error e => (.error e, w)
    | .ok (b, w') =>
      (if c.fault = some .after then .error (.internal c.message) else .ok b, w')

/-- The device row a repository call asks to be saved. -/
def savedBy {β : Type} : Query β → List Device
  | .saveDevice d => [d]
  | _ => []

/-- A repository call on the world. -/
def runSql {β : Type} (q : Query β) (w : World) : Except DomainError (β × World) :=
  match q.run w.db with
  | .error e => .error e
  | .ok (b, db) => .ok (b, { w with db, saved := w.saved ++ savedBy q })

/-- A cache call on the world. -/
def runCache {β : Type} (q : CacheQuery β) (w : World) : Except DomainError (β × World) :=
  .ok ((q.run w.cache).1, { w with cache := (q.run w.cache).2 })

/-- What each operation does. The OPAQUE library answers as the environment decides. -/
def machine : Machine Op World Choice where
  exec
    | .sql q, c, w => attempted (runSql q) c w
    | .cache q, c, w => attempted (runCache q) c w
    | .opaqueKe _, c, w => (c.opaqueKe, w.tick c.elapsed)
    | .newUuid, c, w => (c.uuid, w.tick c.elapsed)

/-- What one call can do: nothing but let time pass, and then it fails; or take effect, and then it
answers, or reports a failure that the environment brought about. -/
theorem attempted_cases {β : Type} (run : World → Except DomainError (β × World)) (c : Choice)
    (w : World) :
    ((attempted run c w).2 = w.tick c.elapsed ∧ ∃ e, (attempted run c w).1 = .error e ∧
      (c.fault = some .before ∨ run (w.tick c.elapsed) = .error e)) ∨
    ∃ b w', run (w.tick c.elapsed) = .ok (b, w') ∧ (attempted run c w).2 = w' ∧
      ((attempted run c w).1 = .ok b ∨
        c.fault = some .after ∧ ∃ e, (attempted run c w).1 = .error e) := by
  unfold attempted
  by_cases hbefore : c.fault = some .before
  · left
    simp [hbefore]
  · simp only [hbefore, if_false, false_or]
    cases hrun : run (w.tick c.elapsed) with
    | error e =>
      left
      exact ⟨rfl, e, rfl, rfl⟩
    | ok out =>
      obtain ⟨b, w'⟩ := out
      refine .inr ⟨b, w', rfl, rfl, ?_⟩
      dsimp only
      split
      · next hafter => exact .inr ⟨hafter, _, rfl⟩
      · exact .inl rfl

end Powehi.Auth
