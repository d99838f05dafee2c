import Powehi.Auth.Services
import Powehi.Semantics.Obligation

/-!
# The requests of the auth services

Every request with the program that serves it. `Request.May` lists the operations a request can
come to perform, with what is known about their arguments; `Follows` says what the program goes on
with after the operations that sessions and revocations turn on. The programs themselves are read
only here.
-/

namespace Powehi.Auth

open Codec Semantics Server Program

inductive Request
  | registerInit (req : RegistrationInitRequest)
  | registerFinish (req : RegistrationFinishRequest)
  | loginInit (req : LoginInitRequest)
  | loginFinish (req : LoginFinishRequest)
  | registerDevice (userId : UserId) (mlsCredential : Bytes)
  | listDevices (userId : UserId)
  | revokeDevice (userId : UserId) (deviceId : DeviceId)
  | createInvite (deviceId : DeviceId) (keyPackage : Bytes)
  | redeemInvite (code : Bytes)
  | authenticate (bearer : Option Token)
  | revokeSession (bearer : Option Token)
deriving DecidableEq

inductive Response
  | registration (userId : UserId) (ke2 : Bytes)
  | registered (resp : RegistrationFinishResponse)
  | login (resp : LoginInitResponse)
  | session (token : Token)
  | device (deviceId : DeviceId)
  | devices (deviceIds : List DeviceId)
  | invite (code : Bytes)
  | redeemed (deviceId : DeviceId) (keyPackage : Bytes)
  | done
deriving DecidableEq

/-- The program that serves a request. -/
def serve (P : Primitives) : Request → Serve Response
  | .registerInit req => (fun r => .registration r.1 r.2) <$> registerInit req
  | .registerFinish req => .registered <$> registerFinish P req
  | .loginInit req => .login <$> loginInit P req
  | .loginFinish req => .session <$> loginFinish P req
  | .registerDevice userId credential => .device <$> registerDevice userId credential
  | .listDevices userId => .devices <$> listDevices userId
  | .revokeDevice userId deviceId => (fun _ => .done) <$> revokeDevice userId deviceId
  | .createInvite deviceId keyPackage => .invite <$> createInvite P deviceId keyPackage
  | .redeemInvite code => (fun r => .redeemed r.1 r.2) <$> redeemInvite P code
  | .authenticate bearer => .device <$> authenticate bearer
  | .revokeSession bearer => (fun _ => .done) <$> revokeSession bearer

/-- The request logs a device in. -/
def Request.LogsIn (i : Request) (d : DeviceId) : Prop :=
  ∃ req, i = .loginFinish req ∧ req.deviceId = d

/-- The request revokes a device. -/
def Request.Revokes (i : Request) (d : DeviceId) : Prop := ∃ u, i = .revokeDevice u d

instance (i : Request) (d : DeviceId) : Decidable (i.LogsIn d) :=
  match i with
  | .loginFinish req => decidable_of_iff (req.deviceId = d) (by simp [Request.LogsIn])
  | .registerInit _ | .registerFinish _ | .loginInit _ | .registerDevice _ _ | .listDevices _
  | .revokeDevice _ _ | .createInvite _ _ | .redeemInvite _ | .authenticate _ | .revokeSession _ =>
    .isFalse (by simp [Request.LogsIn])

instance (i : Request) (d : DeviceId) : Decidable (i.Revokes d) :=
  match i with
  | .revokeDevice _ d' => decidable_of_iff (d' = d) (by simp [Request.Revokes])
  | .registerInit _ | .registerFinish _ | .loginInit _ | .loginFinish _ | .registerDevice _ _
  | .listDevices _ | .createInvite _ _ | .redeemInvite _ | .authenticate _ | .revokeSession _ =>
    .isFalse (by simp [Request.Revokes])

/-- The device rows a request can save. -/
def Request.MaySave (i : Request) (d : Device) : Prop :=
  match i with
  | .registerFinish req => d.userId = req.userId
  | .loginFinish req => d.id = req.deviceId ∧ req.recoveryProof.isSome = true
  | .registerDevice userId _ => d.userId = userId
  | _ => False

/-- The operations a request can come to perform. Reads are not restricted. -/
def Request.May (i : Request) : {ω : Type} → Op ω → Prop
  | _, .sql (.findUser _) => True
  | _, .sql (.findUserByHandle _) => True
  | _, .sql (.findDevice _) => True
  | _, .sql (.findDevicesByUser _) => True
  | _, .sql (.listGroupsForDevice _) => True
  | _, .sql (.saveUser u) => ∃ req, i = .registerFinish req ∧ u.id = req.userId
  | _, .sql (.saveDevice d) => i.MaySave d
  | _, .sql (.deleteDevice d) => i.Revokes d
  | _, .sql (.deleteKeyPackagesByDevice d) => i.Revokes d
  | _, .sql (.createPendingRemoval _ d) => i.Revokes d
  | _, .sql _ => False
  | _, .cache (.set (.session _) v _) => ∃ d, v = .uuid d ∧ i.LogsIn d
  | _, .cache (.set (.reg _) _ _) => ∃ req, i = .registerInit req
  | _, .cache (.set (.regDone u) _ _) => ∃ req, i = .registerFinish req ∧ u = req.userId
  | _, .cache (.set (.loginNonce _) _ _) => ∃ req, i = .loginInit req
  | _, .cache (.set (.invite _) _ _) => ∃ d kp, i = .createInvite d kp
  | _, .cache (.setAdd (.deviceSessions d) _) => i.LogsIn d
  | _, .cache (.setAdd (.deviceInvites d) _) => ∃ kp, i = .createInvite d kp
  | _, .cache (.setExpire (.deviceSessions d) _) => i.LogsIn d
  | _, .cache (.setExpire (.deviceInvites d) _) => ∃ kp, i = .createInvite d kp
  | _, .cache (.setMembers (.deviceSessions d)) => i.Revokes d
  | _, .cache (.setRemove (.deviceSessions _) _) => False
  | _, .cache (.setRemove (.deviceInvites _) _) => ∃ code, i = .redeemInvite code
  | _, .cache (.deleteSet (.deviceSessions d)) => i.LogsIn d ∨ i.Revokes d
  | _, .cache (.deleteSet (.deviceInvites d)) => i.Revokes d
  | _, _ => True

/-- A login that has written its session and is about to enter it into the index. -/
def tracking (d : DeviceId) (t : Token) : Serve Response := .session <$> trackSession d t

/-- A revocation that has deleted the device and is about to read the index. -/
def invalidating (d : DeviceId) : Serve Response := (fun _ => .done) <$> invalidateSessions d

/-- What follows on an operation. -/
def Follows (i : Request) : {ω : Type} → Op ω → (ω → Serve Response) → Prop
  | _, .cache (.set (.session t) v _), next => ∀ d, v = .uuid d → next (.ok ()) = tracking d t
  | _, .cache (.setMembers (.deviceSessions d)), next =>
    .op (.cache (.setMembers (.deviceSessions d))) next = invalidating d
  | _, .cache (.deleteSet (.deviceSessions d)), next => i.Revokes d → ∀ r, next r = .pure .done
  | _, .sql (.deleteDevice d), next =>
    next (.ok ()) = invalidating d ∧ ∀ e, next (.error e) = .throw e
  | _, _, _ => True

/-- An operation about which there is nothing to say. -/
def Unremarkable : {ω : Type} → Op ω → Prop
  | _, .cache (.set (.session _) _ _) => False
  | _, .cache (.setMembers (.deviceSessions _)) => False
  | _, .cache (.deleteSet (.deviceSessions _)) => False
  | _, .sql (.deleteDevice _) => False
  | _, _ => True

/-- The operation is one of the request's, and goes on as it should. -/
def Request.Node (i : Request) {ω : Type} (o : Op ω) (next : ω → Serve Response) : Prop :=
  i.May o ∧ Follows i o next

/-- An operation of the request after which nothing in particular follows. -/
def Request.Plain (i : Request) {ω : Type} (o : Op ω) : Prop := i.May o ∧ Unremarkable o

theorem Request.Plain.node {i : Request} {ω : Type} {o : Op ω} (next : ω → Serve Response)
    (h : i.Plain o) : i.Node o next := by
  refine ⟨h.1, ?_⟩
  have hplain := h.2
  cases o with
  | newUuid | opaqueKe _ => exact trivial
  | sql q => cases q <;> first | exact trivial | exact hplain.elim
  | cache q =>
    cases q with
    | set k v ttl | setMembers k | deleteSet k =>
      cases k <;> first | exact trivial | exact hplain.elim
    | _ => exact trivial

/-! ### The programs -/

section

variable {α β : Type} {i : Request}

theorem plain_sql {q : Query β} (h : i.Plain (.sql q)) : (sql q).Uses i.Plain := by
  refine ⟨h, fun r => ?_⟩
  cases r <;> exact trivial

theorem plain_cache {q : CacheQuery β} (h : i.Plain (.cache q)) : (cache q).Uses i.Plain := by
  refine ⟨h, fun r => ?_⟩
  cases r <;> exact trivial

theorem plain_cacheOrUnauthorized {q : CacheQuery β} (h : i.Plain (.cache q)) :
    (cacheOrUnauthorized q).Uses i.Plain := by
  refine ⟨h, fun r => ?_⟩
  cases r <;> exact trivial

theorem plain_tryCache {q : CacheQuery β} (h : i.Plain (.cache q)) :
    (tryCache q).Uses i.Plain := ⟨h, fun _ => trivial⟩

theorem plain_opaqueKe (call : OpaqueCall) : (opaqueKe call).Uses i.Plain := by
  refine ⟨⟨trivial, trivial⟩, fun r => ?_⟩
  cases r <;> exact trivial

theorem plain_newUuid : newUuid.Uses i.Plain := ⟨⟨trivial, trivial⟩, fun _ => trivial⟩

/-- A request none of whose operations is remarkable. -/
theorem nodes_of_plain {p : Serve α} {f : α → Response} (h : p.Uses i.Plain) :
    (f <$> p).Everywhere i.Node :=
  everywhere_of_uses (fun _ next ho => ho.node next) (uses_map h)

/-- A request that begins with a program none of whose operations is remarkable. -/
theorem nodes_bind {p : Serve α} {k : α → Serve β} {f : β → Response} (hp : p.Uses i.Plain)
    (hk : ∀ a, (f <$> k a).Everywhere i.Node) : (f <$> (p >>= k)).Everywhere i.Node := by
  rw [map_bind]
  exact everywhere_uses_bind (fun _ next ho => ho.node next) hp hk

theorem plain_registerInit (req : RegistrationInitRequest) :
    (registerInit req).Uses (Request.registerInit req).Plain := by
  refine uses_bind plain_newUuid fun u => uses_bind (plain_opaqueKe _) fun ke2 => ?_
  exact uses_bind (plain_cache ⟨⟨req, rfl⟩, trivial⟩) fun _ => trivial

theorem plain_replayRegister (fp : Option Bytes) (req : RegistrationFinishRequest) :
    (replayRegister fp req).Uses i.Plain := by
  cases fp with
  | none => exact trivial
  | some fp =>
    refine uses_bind (plain_cache ⟨trivial, trivial⟩) fun stored => ?_
    cases stored with
    | none => exact trivial
    | some stored =>
      cases req.deviceId with
      | none => exact trivial
      | some d =>
        dsimp only
        split <;> exact trivial

theorem plain_enroll (req : RegistrationFinishRequest) (fp : Option Bytes) (h f : Bytes) :
    (enroll req fp h f).Uses (Request.registerFinish req).Plain := by
  refine uses_bind ?_ fun _ => uses_bind ?_ fun d => ?_
  · unfold checkEnrollment
    split
    · exact trivial
    · split <;> exact trivial
  · unfold firstDeviceId
    split
    · exact plain_newUuid
    · refine uses_bind (plain_sql ⟨trivial, trivial⟩) fun row => ?_
      cases row <;> exact trivial
  refine uses_bind (plain_sql ⟨⟨req, rfl, rfl⟩, trivial⟩) fun _ => ?_
  have hsave : (Request.registerFinish req).MaySave ⟨d, req.userId, req.mlsCredential⟩ := rfl
  refine uses_bind (plain_sql ⟨hsave, trivial⟩) fun _ => uses_bind ?_ fun _ => trivial
  cases fp with
  | none => exact trivial
  | some fp => exact plain_cache ⟨⟨req, rfl, rfl⟩, trivial⟩

theorem plain_registerFinish (P : Primitives) (req : RegistrationFinishRequest) :
    (registerFinish P req).Uses (Request.registerFinish req).Plain := by
  refine uses_bind (plain_replayRegister _ req) fun resp => ?_
  cases resp with
  | some resp => exact trivial
  | none =>
    refine uses_bind (plain_opaqueKe _) fun file => ?_
    refine uses_bind (plain_cache ⟨trivial, trivial⟩) fun handle => ?_
    split
    · exact plain_enroll req _ _ _
    · refine uses_bind (plain_replayRegister _ req) fun resp => ?_
      cases resp <;> exact trivial

theorem plain_loginInit (P : Primitives) (req : LoginInitRequest) :
    (loginInit P req).Uses (Request.loginInit req).Plain := by
  refine uses_bind (plain_sql ⟨trivial, trivial⟩) fun user => uses_bind plain_newUuid fun n => ?_
  refine uses_bind (plain_opaqueKe _) fun ke2 => ?_
  exact uses_bind (plain_cache ⟨⟨req, rfl⟩, trivial⟩) fun _ => trivial

theorem plain_registerDevice (u : UserId) (credential : Bytes) :
    (registerDevice u credential).Uses (Request.registerDevice u credential).Plain := by
  refine uses_bind (plain_sql ⟨trivial, trivial⟩) fun existing => ?_
  split
  · exact trivial
  split
  · exact trivial
  refine uses_bind plain_newUuid fun d => ?_
  have hsave : (Request.registerDevice u credential).MaySave ⟨d, u, credential⟩ := rfl
  exact uses_bind (plain_sql ⟨hsave, trivial⟩) fun _ => trivial

theorem plain_createInvite (P : Primitives) (d : DeviceId) (kp : Bytes) :
    (createInvite P d kp).Uses (Request.createInvite d kp).Plain := by
  unfold createInvite
  split
  · exact trivial
  split
  · exact trivial
  refine uses_bind (plain_cache ⟨trivial, trivial⟩) fun outstanding => ?_
  split
  · exact trivial
  refine uses_bind plain_newUuid fun uuid => ?_
  refine uses_bind (plain_cache ⟨⟨d, kp, rfl⟩, trivial⟩) fun _ => ?_
  refine uses_bind (plain_cache ⟨⟨kp, rfl⟩, trivial⟩) fun _ => ?_
  exact uses_bind (plain_cache ⟨⟨kp, rfl⟩, trivial⟩) fun _ => trivial

theorem plain_redeemInvite (P : Primitives) (code : Bytes) :
    (redeemInvite P code).Uses (Request.redeemInvite code).Plain := by
  refine uses_bind (plain_cache ⟨trivial, trivial⟩) fun v => ?_
  split
  · exact trivial
  · exact uses_bind (plain_tryCache ⟨⟨code, rfl⟩, trivial⟩) fun _ => trivial
  · exact trivial

theorem plain_authenticate (bearer : Option Token) : (authenticate bearer).Uses i.Plain := by
  cases bearer with
  | none => exact trivial
  | some t =>
    refine uses_bind (plain_cache ⟨trivial, trivial⟩) fun v => ?_
    split <;> exact trivial

theorem plain_revokeSession (bearer : Option Token) : (revokeSession bearer).Uses i.Plain := by
  cases bearer with
  | none => exact trivial
  | some t => exact plain_cache ⟨trivial, trivial⟩

/-! ### Login -/

variable {req : LoginFinishRequest}

theorem plain_verifyLogin : (verifyLogin req).Uses i.Plain := by
  refine ⟨⟨trivial, trivial⟩, fun r => ?_⟩
  cases r <;> exact trivial

theorem plain_loginDevice (P : Primitives) (u : UserId) :
    (loginDevice P u req).Uses (Request.loginFinish req).Plain := by
  refine uses_bind (plain_sql ⟨trivial, trivial⟩) fun row => ?_
  cases row with
  | some device => exact trivial
  | none =>
    cases hproof : req.recoveryProof with
    | none => exact trivial
    | some proof =>
      refine uses_bind (plain_sql ⟨trivial, trivial⟩) fun user => ?_
      cases user with
      | none => exact trivial
      | some user =>
        dsimp only
        split
        · refine uses_bind (plain_sql ⟨trivial, trivial⟩) fun existing => ?_
          split
          · exact trivial
          split
          · exact trivial
          have hsave : (Request.loginFinish req).MaySave ⟨req.deviceId, u, proof.mlsCredential⟩ :=
            ⟨rfl, by simp [hproof]⟩
          exact uses_bind (plain_sql ⟨hsave, trivial⟩) fun _ => trivial
        · exact trivial

/-- A login from the moment its session is written. -/
theorem nodes_tracking (t : Token) :
    (tracking req.deviceId t).Everywhere (Request.loginFinish req).Node := by
  have hin : (Request.loginFinish req).LogsIn req.deviceId := ⟨req, rfl, rfl⟩
  have hnot : ¬(Request.loginFinish req).Revokes req.deviceId := by simp [Request.Revokes]
  unfold tracking trackSession
  refine nodes_bind (plain_tryCache ⟨hin, trivial⟩) fun r => ?_
  cases r with
  | error e =>
    exact nodes_of_plain (uses_bind (plain_tryCache ⟨trivial, trivial⟩) fun _ => trivial)
  | ok u =>
    refine nodes_bind (plain_tryCache ⟨hin, trivial⟩) fun _ => ?_
    unfold recheckDevice
    refine nodes_bind (plain_sql ⟨trivial, trivial⟩) fun row => ?_
    cases row with
    | some device => exact trivial
    | none =>
      refine nodes_bind (plain_tryCache ⟨trivial, trivial⟩) fun _ => ?_
      exact ⟨⟨.inl hin, fun h => absurd h hnot⟩, fun _ => trivial⟩

theorem nodes_loginFinish (P : Primitives) :
    (Response.session <$> loginFinish P req).Everywhere (Request.loginFinish req).Node := by
  unfold loginFinish
  refine nodes_bind plain_verifyLogin fun _ => ?_
  refine nodes_bind (plain_cacheOrUnauthorized ⟨trivial, trivial⟩) fun v => ?_
  split
  · next u =>
    refine nodes_bind (plain_loginDevice P u) fun device => ?_
    split
    · exact trivial
    · unfold issueSession
      refine nodes_bind plain_newUuid fun t => ?_
      refine ⟨⟨⟨_, rfl, req, rfl, rfl⟩, ?_⟩, fun r => ?_⟩
      · rintro d hd
        obtain rfl := Value.uuid.inj hd
        rfl
      · cases r with
        | ok _ => exact nodes_tracking t
        | error e => exact trivial
  · exact trivial

/-! ### Revocation -/

theorem nodes_invalidating {u : UserId} {d : DeviceId} :
    (invalidating d).Everywhere (Request.revokeDevice u d).Node := by
  have hrevokes : (Request.revokeDevice u d).Revokes d := ⟨u, rfl⟩
  refine ⟨⟨hrevokes, rfl⟩, fun r => ?_⟩
  cases r with
  | error e => exact trivial
  | ok keys =>
    change (((fun _ => Response.done) <$> (keys.forM _ >>= _ : Serve Unit)) :
      Serve Response).Everywhere _
    refine nodes_bind (uses_forM keys fun k _ =>
      uses_bind (plain_tryCache ⟨trivial, trivial⟩) fun _ => trivial) fun _ => ?_
    exact ⟨⟨.inr hrevokes, fun _ _ => rfl⟩, fun _ => trivial⟩

theorem plain_revokeInvites {u : UserId} {d : DeviceId} :
    (revokeInvitesForDevice d).Uses (Request.revokeDevice u d).Plain := by
  refine uses_bind (plain_cache ⟨trivial, trivial⟩) fun keys => ?_
  refine uses_bind (uses_forM keys fun k _ => plain_cache ⟨trivial, trivial⟩) fun _ => ?_
  exact plain_cache ⟨⟨u, rfl⟩, trivial⟩

theorem nodes_revokeDevice (u : UserId) (d : DeviceId) :
    ((fun _ => Response.done) <$> revokeDevice u d).Everywhere (Request.revokeDevice u d).Node := by
  have hrevokes : (Request.revokeDevice u d).Revokes d := ⟨u, rfl⟩
  unfold revokeDevice
  refine nodes_bind (plain_sql ⟨trivial, trivial⟩) fun row => ?_
  cases row with
  | none => exact trivial
  | some device =>
    dsimp only
    split
    · exact trivial
    refine nodes_bind plain_revokeInvites fun _ => ?_
    refine nodes_bind (plain_sql ⟨trivial, trivial⟩) fun groups => ?_
    refine nodes_bind (uses_forM groups fun g _ => plain_sql ⟨hrevokes, trivial⟩) fun _ => ?_
    refine nodes_bind (plain_sql ⟨hrevokes, trivial⟩) fun _ => ?_
    refine ⟨⟨hrevokes, rfl, fun _ => rfl⟩, fun r => ?_⟩
    cases r with
    | error e => exact trivial
    | ok _ => exact nodes_invalidating

end

/-- The program of a request performs only what the request may, and goes on as it should. -/
theorem serve_nodes (P : Primitives) (i : Request) : (serve P i).Everywhere i.Node := by
  cases i with
  | registerInit req => exact nodes_of_plain (plain_registerInit req)
  | registerFinish req => exact nodes_of_plain (plain_registerFinish P req)
  | loginInit req => exact nodes_of_plain (plain_loginInit P req)
  | loginFinish req => exact nodes_loginFinish P
  | registerDevice u credential => exact nodes_of_plain (plain_registerDevice u credential)
  | listDevices u =>
    exact nodes_of_plain (uses_bind (plain_sql ⟨trivial, trivial⟩) fun _ => trivial)
  | revokeDevice u d => exact nodes_revokeDevice u d
  | createInvite d kp => exact nodes_of_plain (plain_createInvite P d kp)
  | redeemInvite code => exact nodes_of_plain (plain_redeemInvite P code)
  | authenticate bearer => exact nodes_of_plain (plain_authenticate bearer)
  | revokeSession bearer => exact nodes_of_plain (plain_revokeSession bearer)

end Powehi.Auth
