import Powehi.Auth.Retries
import Powehi.Server.References

/-!
# One backend

The auth services and the messaging and group services run in one server, on one database. Here
their machines and their requests are put together, so that calls of either kind interleave.
-/

namespace Powehi.Backend

open Codec Semantics Server Program

/-- The database, the cache, and the histories of both machines. -/
structure World where
  db : Db
  cache : Auth.Cache
  saved : List Device
  stored : List Envelope

namespace World

/-- What the auth services see. -/
def auth (w : World) : Auth.World := ⟨w.db, w.cache, w.saved⟩

/-- What the messaging and group services see. -/
def server (w : World) : Server.World := ⟨w.db, w.stored⟩

def afterAuth (w : World) (a : Auth.World) : World :=
  { w with db := a.db, cache := a.cache, saved := a.saved }

/-- Time that passes in the database passes in the cache. -/
def afterServer (w : World) (s : Server.World) : World :=
  { w with
    db := s.db
    cache.now := w.cache.now + (s.db.now - w.db.now)
    stored := s.stored }

end World

/-- An operation of either kind. -/
inductive Op : Type → Type 1
  | auth {ω : Type} (o : Auth.Op ω) : Op ω
  | server {ω : Type} (o : Server.Op ω) : Op ω

/-- What the environment decides about one operation. -/
structure Choice where
  auth : Auth.Choice
  server : Server.Choice

/-- Nothing fails, no time passes. -/
def Choice.plain : Choice := ⟨.plain, .plain⟩

def machine : Machine Op World Choice where
  exec
    | .auth o, c, w =>
      let out := Auth.machine.exec o c.auth w.auth
      (out.1, w.afterAuth out.2)
    | .server o, c, w =>
      let out := Server.machine.exec o c.server w.server
      (out.1, w.afterServer out.2)

inductive Request
  | auth (i : Auth.Request)
  | server (i : Server.Request)
deriving DecidableEq

inductive Response
  | auth (r : Auth.Response)
  | server (r : Server.Response)
deriving DecidableEq

/-- A program that serves a request. -/
abbrev Serve (α : Type) := Program Op Failure α

/-- A program of the auth services. -/
def ofAuth (p : Auth.Serve Auth.Response) : Serve Response :=
  p.embed (fun o => .auth o) .domain .auth

/-- A program of the messaging and group services. -/
def ofServer (p : Server.Serve Server.Response) : Serve Response :=
  p.embed (fun o => .server o) id .server

/-- The program that serves a request. -/
def serve (P : Auth.Primitives) (cfg : Config) : Request → Serve Response
  | .auth i => ofAuth (Auth.serve P i)
  | .server i => ofServer (Server.serve cfg i)

/-- The calls of a backend. -/
abbrev BackendPool := Pool Request Op Failure Response World

/-- An embedded program that performs an operation. -/
theorem eq_op_of_ofAuth {p : Auth.Serve Auth.Response} {ω : Type} {o : Op ω}
    {next : ω → Serve Response} (h : .op o next = ofAuth p) :
    ∃ (o' : Auth.Op ω) (next' : ω → Auth.Serve Auth.Response),
      p = .op o' next' ∧ o = .auth o' ∧ next = fun b => ofAuth (next' b) := by
  cases p with
  | pure _ | throw _ => cases h
  | op o' next' =>
    cases h
    exact ⟨o', next', rfl, rfl, rfl⟩

/-! ### What an operation does to the database -/

/-- The transaction of an operation. -/
inductive Op.Runs : {ω : Type} → Op ω → {β : Type} → Query β → Prop
  | auth {β : Type} (q : Query β) : Runs (.auth (.sql q)) q
  | server {β : Type} (q : Query β) : Runs (.server (.sql q)) q

/-- The operation can make the device a member of the group. -/
def Op.Seats (g : GroupId) (d : DeviceId) : {ω : Type} → Op ω → Prop
  | _, .auth (.sql q) => q.Seats g d
  | _, .server (.sql q) => q.Seats g d
  | _, _ => False

section

variable {ω : Type} {o : Op ω} {c : Choice} {w : World} {g : GroupId} {d : DeviceId}

/-- An operation lets time pass, or commits one transaction after that. -/
theorem exec_db (o : Op ω) (c : Choice) (w : World) : ∃ e,
    (machine.exec o c w).2.db = { w.db with now := w.db.now + e } ∨
    ∃ (β : Type) (q : Query β) (b : β), o.Runs q ∧
      q.run { w.db with now := w.db.now + e } = .ok (b, (machine.exec o c w).2.db) := by
  cases o with
  | auth o =>
    refine ⟨c.auth.elapsed, ?_⟩
    cases o with
    | newUuid | opaqueKe _ => exact .inl rfl
    | cache q =>
      left
      rcases Auth.exec_cache q c.auth w.auth with hw | ⟨hw, -⟩
      · exact congrArg Auth.World.db hw
      · exact congrArg Auth.World.db hw
    | sql q =>
      rcases Auth.exec_sql_db q c.auth w.auth with hw | ⟨b, db, hrun, hw⟩
      · exact .inl (congrArg Auth.World.db hw)
      · refine .inr ⟨_, q, b, .auth q, ?_⟩
        have hdb := congrArg Auth.World.db hw
        exact hrun.trans (congrArg (fun db => Except.ok (b, db)) hdb.symm)
  | server o =>
    cases o with
    | newUuid | utcNow => exact ⟨0, .inl rfl⟩
    | sql q =>
      refine ⟨c.server.elapsed, ?_⟩
      rcases transact_cases q c.server w.server with ⟨hw, -⟩ | ⟨b, db, hrun, hw, -⟩
      · exact .inl (congrArg Server.World.db hw)
      · refine .inr ⟨_, q, b, .server q, ?_⟩
        have hdb := congrArg Server.World.db hw
        exact hrun.trans (congrArg (fun db => Except.ok (b, db)) hdb.symm)

/-- A member was one before, or the operation is one that seats it. -/
theorem isMember_exec (h : (machine.exec o c w).2.db.isMember g d = true) :
    w.db.isMember g d = true ∨ o.Seats g d := by
  obtain ⟨e, hdb | ⟨β, q, b, hq, hrun⟩⟩ := exec_db o c w
  · rw [hdb] at h
    exact .inl h
  · rcases Query.isMember_of_run hrun h with hold | hseats
    · exact .inl hold
    · right
      cases hq with
      | auth | server => exact hseats

theorem referential_exec (h : w.db.Referential) : (machine.exec o c w).2.db.Referential := by
  obtain ⟨e, hdb | ⟨β, q, b, -, hrun⟩⟩ := exec_db o c w
  · rw [hdb]
    exact ⟨h.members, h.pending⟩
  · exact Query.referential hrun ⟨h.members, h.pending⟩

end

end Powehi.Backend
