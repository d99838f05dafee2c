import Powehi.Auth.Revocation
import Powehi.Semantics.Past

/-!
# Who owns a device

A device id can be chosen by the client. A registration and a recovery login look whether the id is
free and save the row in a second step; the save is an upsert, which keeps the owner of a row that
is there and replaces its credential. What comes between the two steps decides whether the row
belongs to the user who saves it.
-/

namespace Powehi.Auth

open Codec Semantics Server Program List Sample

variable {i : Request} {own : List (World × World)} {u : UserId} {d : DeviceId}

/-! ### Owners -/

/-- There is a row for the device, and it belongs to the user. -/
def Owned (devices : Table Device.id) (u : UserId) (d : DeviceId) : Prop :=
  ∃ row ∈ devices, row.id = d ∧ row.userId = u

def World.Owns (w : World) (u : UserId) (d : DeviceId) : Prop := Owned w.db.devices u d

/-- The user a call acts for: the one a registration is for, or the one whose login nonce the call
has consumed in its second operation. -/
def Request.ActsFor (i : Request) (own : List (World × World)) (u : UserId) : Prop :=
  match i with
  | .registerFinish req => u = req.userId
  | .registerDevice userId _ => u = userId
  | .loginFinish req =>
    ∃ st, own[1]? = some st ∧ st.1.entry (.loginNonce req.loginNonce) = some (.uuid u)
  | _ => False

theorem Request.ActsFor.append (h : i.ActsFor own u) (more : List (World × World)) :
    i.ActsFor (own ++ more) u := by
  cases i with
  | loginFinish req =>
    obtain ⟨st, hst, hentry⟩ := h
    have hlt := (List.getElem?_eq_some_iff.mp hst).1
    exact ⟨st, by rw [List.getElem?_append_left hlt, hst], hentry⟩
  | _ => exact h

/-- The call has seen that the device belongs to the user, or that it was saved for the user. -/
def Evidence (own : List (World × World)) (u : UserId) (d : DeviceId) : Prop :=
  ∃ st ∈ own, st.2.Owns u d ∨ ∃ r ∈ st.2.saved, r.id = d ∧ r.userId = u

theorem Evidence.append (h : Evidence own u d) (more : List (World × World)) :
    Evidence (own ++ more) u d := by
  obtain ⟨st, hst, hev⟩ := h
  exact ⟨st, mem_append_left _ hst, hev⟩

/-- A device is saved for the user the call acts for, and a session is issued for a device the call
has evidence for. -/
def Entitled (i : Request) (own : List (World × World)) : {ω : Type} → Op ω → Prop
  | _, .sql (.saveDevice r) => i.ActsFor own r.userId
  | _, .cache (.set (.session _) v _) => ∀ d, v = .uuid d → ∃ u, i.ActsFor own u ∧ Evidence own u d
  | _, _ => True

/-- The operation neither saves a device nor issues a session. -/
def Unentitled : {ω : Type} → Op ω → Prop
  | _, .sql (.saveDevice _) => False
  | _, .cache (.set (.session _) _ _) => False
  | _, _ => True

theorem Unentitled.entitled {ω : Type} {o : Op ω} (h : Unentitled o) : Entitled i own o := by
  cases o with
  | newUuid | opaqueKe _ => exact trivial
  | sql q => cases q <;> first | exact trivial | exact h.elim
  | cache q =>
    cases q with
    | set k v ttl => cases k <;> first | exact trivial | exact h.elim
    | _ => exact trivial

/-! ### The programs -/

section

variable {own : List (World × World)} {req : LoginFinishRequest} {u : UserId} {P : Primitives}

theorem unentitled_trackSession (d : DeviceId) (t : Token) :
    (trackSession d t).Uses Unentitled := by
  refine uses_bind ⟨trivial, fun _ => trivial⟩ fun r => ?_
  cases r with
  | error e => exact uses_bind ⟨trivial, fun _ => trivial⟩ fun _ => trivial
  | ok _ =>
    refine uses_bind ⟨trivial, fun _ => trivial⟩ fun _ => ?_
    refine ⟨trivial, fun r => ?_⟩
    cases r with
    | error e => exact trivial
    | ok row =>
      cases row with
      | some device => exact trivial
      | none => exact ⟨trivial, fun _ => ⟨trivial, fun _ => trivial⟩⟩

/-- What a login knows about the device it goes on with. -/
def DeviceShown (d : DeviceId) (own : List (World × World)) (r : Except DomainError Device) :
    Prop :=
  match r with
  | .ok device => Evidence own device.userId d
  | .error _ => True

/-- The device that is created was saved for the user. -/
theorem wpPast_mintRecoveryDevice (proof : RecoveryProof)
    (hacts : (Request.loginFinish req).ActsFor own u) :
    wpPast machine (Entitled (.loginFinish req)) (mintRecoveryDevice P u req proof)
      (DeviceShown req.deviceId) own := by
  refine wpPast_request_bind trivial (fun s c user _ => ?_) fun _ _ _ _ => trivial
  cases user with
  | none => exact trivial
  | some user =>
    dsimp only
    split
    · refine wpPast_request_bind trivial (fun s c existing _ => ?_) fun _ _ _ _ => trivial
      split
      · exact trivial
      split
      · exact trivial
      refine wpPast_request_bind ((hacts.append _).append _) (fun s c _ hsaved => ?_)
        fun _ _ _ _ => trivial
      refine ⟨_, mem_append_right _ (mem_singleton_self _), .inr ?_⟩
      obtain ⟨db, -, hw⟩ := exec_sql_eq hsaved
      rw [hw]
      exact ⟨_, mem_append_right _ (mem_singleton_self _), rfl, rfl⟩
    · exact trivial

theorem wpPast_loginDevice (hacts : (Request.loginFinish req).ActsFor own u) :
    wpPast machine (Entitled (.loginFinish req)) (loginDevice P u req)
      (DeviceShown req.deviceId) own := by
  refine wpPast_request_bind trivial (fun s c row hrow => ?_) fun _ _ _ _ => trivial
  cases row with
  | some device =>
    refine ⟨_, mem_append_right _ (mem_singleton_self _), .inl ?_⟩
    obtain ⟨db, hrun, hw⟩ := exec_sql_eq hrow
    obtain ⟨hfound, rfl⟩ := Prod.mk.inj (Except.ok.inj hrun)
    obtain ⟨hmem, hid⟩ := Table.find?_eq_some.mp hfound
    rw [hw]
    exact ⟨device, hmem, hid, rfl⟩
  | none =>
    cases req.recoveryProof with
    | none => exact trivial
    | some proof => exact wpPast_mintRecoveryDevice proof (hacts.append _)

theorem wpPast_loginFinish :
    wpPast machine (Entitled (.loginFinish req)) (serve P (.loginFinish req)) (fun _ _ => True)
      [] := by
  refine wpPast_map ⟨trivial, fun s c => ?_⟩
  cases (machine.exec (.opaqueKe (.loginFinish req.loginNonce req.opaqueKe3)) c s).1 with
  | error e => exact trivial
  | ok ke =>
    refine ⟨trivial, fun s' c' => ?_⟩
    cases hget : (machine.exec (.cache (.getDel (.loginNonce req.loginNonce))) c' s').1 with
    | error e => exact trivial
    | ok v =>
      match v with
      | none => exact trivial
      | some (.bytes b) => exact trivial
      | some (.uuidAnd d kp) => exact trivial
      | some (.uuid u) =>
        have hacts : ∀ w w', (Request.loginFinish req).ActsFor [(s, w), (s', w')] u :=
          fun _ _ => ⟨_, rfl, World.entry_of_tick (exec_cache_eq hget).1.symm⟩
        change wpPast _ _ (loginDevice P u req >>= fun device =>
          if device.userId ≠ u then reject .unauthorized else issueSession req.deviceId) _ _
        refine wpPast_bind (wpPast_mono (fun own r hr => ?_)
          (wpPast_grows (wpPast_loginDevice (hacts _ _))))
        obtain ⟨hshown, more, rfl⟩ := hr
        cases r with
        | error e => exact trivial
        | ok device =>
          dsimp only
          split
          · exact trivial
          next howner =>
          obtain rfl : device.userId = u := not_not.mp howner
          refine ⟨trivial, fun s c => ⟨?_, fun s' c' => ?_⟩⟩
          · rintro d hd
            obtain rfl := Value.uuid.inj hd
            exact ⟨_, ((hacts _ _).append more).append _, hshown.append _⟩
          · cases (machine.exec (.cache (.set (.session (machine.exec .newUuid c s).1)
              (.uuid req.deviceId) (some sessionTtl))) c' s').1 with
            | error e => exact trivial
            | ok _ =>
              exact wpPast_uses (unentitled_trackSession _ _) fun own _ o ho => ho.entitled

end

/-- A request other than a login is entitled to all it may do. -/
theorem entitled_of_may (hlogin : ∀ req, i ≠ .loginFinish req) (own : List (World × World))
    {ω : Type} (o : Op ω) (h : i.May o) : Entitled i own o := by
  cases o with
  | newUuid | opaqueKe _ => exact trivial
  | sql q =>
    cases q with
    | saveDevice r =>
      cases i with
      | registerFinish _ | registerDevice _ _ => exact h
      | loginFinish req => exact absurd rfl (hlogin req)
      | _ => exact h.elim
    | _ => exact trivial
  | cache q =>
    cases q with
    | set k v ttl =>
      cases k with
      | session t =>
        obtain ⟨d, -, req, hreq, -⟩ := h
        exact absurd hreq (hlogin req)
      | _ => exact trivial
    | _ => exact trivial

/-- What the operations of a request are known to meet. -/
def Rightful (i : Request) (own : List (World × World)) {ω : Type} (o : Op ω) : Prop :=
  Entitled i own o ∧ i.May o

theorem serve_rightful (P : Primitives) (i : Request) :
    wpPast machine (Rightful i) (serve P i) (fun _ _ => True) [] := by
  have hmay : (serve P i).Uses i.May := uses_of_everywhere (fun _ _ h => h.1) (serve_nodes P i)
  refine wpPast_and ?_ (wpPast_uses hmay fun _ _ _ ho => ho)
  by_cases hlogin : ∃ req, i = .loginFinish req
  · obtain ⟨req, rfl⟩ := hlogin
    exact wpPast_loginFinish
  · exact wpPast_uses hmay fun own _ o ho =>
      entitled_of_may (fun req hreq => hlogin ⟨req, hreq⟩) own o ho

/-! ### What an operation does to device rows -/

/-- The operation saves the device. -/
def Saves (r : Device) : {ω : Type} → Op ω → Prop
  | _, .sql (.saveDevice r') => r' = r
  | _, _ => False

section

variable {db db' : Db} {r : Device}

/-- The rows after an upsert. -/
theorem saveDevice_cases (h : db.saveDevice r = .ok ((), db')) :
    (∀ row, row ∈ db'.devices ↔ ∃ old ∈ db.devices,
      (if old.id = r.id then { old with mlsCredential := r.mlsCredential } else old) = row) ∧
        db.devices.find? r.id ≠ none ∨
    (∀ row, row ∈ db'.devices ↔ row ∈ db.devices ∨ row = r) ∧ db.devices.find? r.id = none := by
  unfold Db.saveDevice at h
  split at h
  · next hsome =>
    obtain rfl := state_of_ok h
    refine .inl ⟨fun row => ?_, Option.isSome_iff_ne_none.mp hsome⟩
    rw [Table.mem_update]
    simp only [decide_eq_true_eq]
  · next hnone =>
    rw [Option.not_isSome_iff_eq_none] at hnone
    split at h
    · obtain rfl := state_of_ok h
      refine .inr ⟨fun row => ?_, hnone⟩
      simp [hnone]
    · cases h

/-- An upsert leaves the other rows as they are. -/
theorem mem_of_saveDevice (h : db.saveDevice r = .ok ((), db')) {row : Device}
    (hrow : row ∈ db.devices) (hid : row.id ≠ r.id) : row ∈ db'.devices := by
  rcases saveDevice_cases h with ⟨hrows, -⟩ | ⟨hrows, -⟩
  · exact (hrows row).mpr ⟨row, hrow, if_neg hid⟩
  · exact (hrows row).mpr (.inl hrow)

/-- An upsert changes no owner, and creates a row for the user who saves it. -/
theorem owned_saveDevice (h : db.saveDevice r = .ok ((), db')) :
    Owned db'.devices u d ↔
      Owned db.devices u d ∨ db.devices.find? r.id = none ∧ d = r.id ∧ u = r.userId := by
  rcases saveDevice_cases h with ⟨hrows, hsome⟩ | ⟨hrows, hnone⟩
  · simp only [hsome, false_and, or_false]
    constructor
    · rintro ⟨row, hrow, rfl, rfl⟩
      obtain ⟨old, hold, rfl⟩ := (hrows row).mp hrow
      refine ⟨old, hold, ?_⟩
      split <;> exact ⟨rfl, rfl⟩
    · rintro ⟨old, hold, rfl, rfl⟩
      refine ⟨_, (hrows _).mpr ⟨old, hold, rfl⟩, ?_⟩
      split <;> exact ⟨rfl, rfl⟩
  · simp only [hnone, true_and]
    constructor
    · rintro ⟨row, hrow, rfl, rfl⟩
      rcases (hrows row).mp hrow with hold | rfl
      · exact .inl ⟨row, hold, rfl, rfl⟩
      · exact .inr ⟨rfl, rfl⟩
    · rintro (⟨row, hold, hid, howner⟩ | ⟨rfl, rfl⟩)
      · exact ⟨row, (hrows row).mpr (.inl hold), hid, howner⟩
      · exact ⟨r, (hrows r).mpr (.inr rfl), rfl, rfl⟩

end

section

variable {i : Request} {ω : Type} {o : Op ω} {c : Choice} {w w' w'' : World}

/-- A transaction of a request that revokes nothing saves a device or leaves the devices alone. -/
theorem devices_of_run {β : Type} {q : Query β} {b : β} {db db' : Db}
    (hrevokes : ∀ d, ¬i.Revokes d) (hmay : i.May (.sql q)) (hrun : q.run db = .ok (b, db')) :
    db'.devices = db.devices ∧ savedBy q = [] ∨
      ∃ r, Saves r (.sql q) ∧ savedBy q = [r] ∧ db.saveDevice r = .ok ((), db') := by
  cases q with
  | saveUser u =>
    left
    change db.saveUser u = _ at hrun
    unfold Db.saveUser at hrun
    split at hrun
    · cases hrun
    · split at hrun
      · obtain rfl := state_of_ok hrun
        exact ⟨rfl, rfl⟩
      · obtain rfl := state_of_ok hrun
        exact ⟨rfl, rfl⟩
  | saveDevice r => exact .inr ⟨r, rfl, rfl, hrun⟩
  | findUser _ | findUserByHandle _ | findDevice _ | findDevicesByUser _ | listGroupsForDevice _ =>
    left
    obtain rfl := state_of_ok hrun
    exact ⟨rfl, rfl⟩
  | deleteDevice d | deleteKeyPackagesByDevice d | createPendingRemoval g d =>
    exact absurd hmay (hrevokes d)
  | _ => exact False.elim hmay

/-- What an operation does to the devices and to their history. -/
theorem devices_exec (hrevokes : ∀ d, ¬i.Revokes d) (hmay : i.May o) :
    (machine.exec o c w).2.db.devices = w.db.devices ∧ (machine.exec o c w).2.saved = w.saved ∨
    ∃ r db', Saves r o ∧ (w.tick c.elapsed).db.saveDevice r = .ok ((), db') ∧
      (machine.exec o c w).2.db.devices = db'.devices ∧
      (machine.exec o c w).2.saved = w.saved ++ [r] := by
  cases o with
  | newUuid | opaqueKe _ => exact .inl ⟨rfl, rfl⟩
  | cache q =>
    left
    rcases exec_cache q c w with hw | ⟨hw, -⟩
    · rw [hw]
      exact ⟨rfl, rfl⟩
    · rw [hw]
      exact ⟨rfl, rfl⟩
  | sql q =>
    rcases exec_sql_db q c w with hw | ⟨b, db, hrun, hw⟩
    · left
      rw [hw]
      exact ⟨rfl, rfl⟩
    · rcases devices_of_run hrevokes hmay hrun with ⟨hsame, hsaved⟩ | ⟨r, hsaves, hsaved, hrun'⟩
      · left
        rw [hw, hsaved]
        exact ⟨hsame, append_nil _⟩
      · right
        rw [hw, hsaved]
        exact ⟨r, db, hsaves, hrun', rfl, rfl⟩

/-! ### Owners along a run -/

/-- Devices keep their owners; a device that has appeared since was saved for its owner. -/
structure World.KeepsOwners (w w' : World) : Prop where
  owners : ∀ u d, w.Owns u d → w'.Owns u d
  history : ∃ more, w'.saved = w.saved ++ more ∧
    ∀ u d, w'.Owns u d → w.Owns u d ∨ ∃ r ∈ more, r.id = d ∧ r.userId = u

namespace World.KeepsOwners

theorem refl (w : World) : w.KeepsOwners w :=
  ⟨fun _ _ h => h, [], (append_nil _).symm, fun _ _ h => .inl h⟩

theorem trans (h : w.KeepsOwners w') (h' : w'.KeepsOwners w'') : w.KeepsOwners w'' := by
  obtain ⟨more, hsaved, hnew⟩ := h.history
  obtain ⟨more', hsaved', hnew'⟩ := h'.history
  refine ⟨fun u d hd => h'.owners u d (h.owners u d hd), more ++ more', ?_, fun u d hd => ?_⟩
  · rw [hsaved', hsaved, append_assoc]
  · rcases hnew' u d hd with hd | ⟨r, hr, hof⟩
    · rcases hnew u d hd with hd | ⟨r, hr, hof⟩
      · exact .inl hd
      · exact .inr ⟨r, mem_append_left _ hr, hof⟩
    · exact .inr ⟨r, mem_append_right _ hr, hof⟩

end World.KeepsOwners

theorem keepsOwners_exec (hrevokes : ∀ d, ¬i.Revokes d) (hmay : i.May o) :
    w.KeepsOwners (machine.exec o c w).2 := by
  rcases devices_exec hrevokes hmay with
    ⟨hdevices, hsaved⟩ | ⟨r, db, -, hrun, hdevices, hsaved⟩
  · constructor
    · intro u d hd
      rw [World.Owns, hdevices]
      exact hd
    · refine ⟨[], by rw [hsaved, append_nil], fun u d hd => .inl ?_⟩
      rw [World.Owns, hdevices] at hd
      exact hd
  · constructor
    · intro u d hd
      rw [World.Owns, hdevices]
      exact (owned_saveDevice hrun).mpr (.inl hd)
    · refine ⟨[r], hsaved, fun u d hd => ?_⟩
      rw [World.Owns, hdevices] at hd
      rcases (owned_saveDevice hrun).mp hd with hd | ⟨-, rfl, rfl⟩
      · exact .inl hd
      · exact .inr ⟨r, mem_singleton_self _, rfl, rfl⟩

/-- Every device that was saved belongs to the user it was saved for. -/
def Stored (w : World) : Prop := ∀ r ∈ w.saved, w.Owns r.userId r.id

/-- A device is saved only if it is new or belongs to the same user. -/
def Respects (w : World) (_ : Choice) (w' : World) : Prop :=
  ∀ r, w'.saved = w.saved ++ [r] → ∀ u, w.Owns u r.id → u = r.userId

theorem stored_exec (hrevokes : ∀ d, ¬i.Revokes d) (hmay : i.May o)
    (hA : Respects w c (machine.exec o c w).2) (hw : Stored w) : Stored (machine.exec o c w).2 := by
  intro r hr
  have hkeeps : w.KeepsOwners (machine.exec o c w).2 := keepsOwners_exec hrevokes hmay
  rcases devices_exec hrevokes hmay with
    ⟨-, hsaved⟩ | ⟨r', db, -, hrun, hdevices, hsaved⟩
  · rw [hsaved] at hr
    exact hkeeps.owners _ _ (hw r hr)
  · rw [hsaved] at hr
    rcases mem_append.mp hr with hr | hr
    · exact hkeeps.owners _ _ (hw r hr)
    · obtain rfl := mem_singleton.mp hr
      cases hfind : w.db.devices.find? r.id with
      | none =>
        rw [World.Owns, hdevices]
        exact (owned_saveDevice hrun).mpr (.inr ⟨hfind, rfl, rfl⟩)
      | some row =>
        obtain ⟨hrow, hid⟩ := Table.find?_eq_some.mp hfind
        have howner := hA r hsaved row.userId ⟨row, hrow, hid, rfl⟩
        exact hkeeps.owners _ _ ⟨row, hrow, hid, howner⟩

end

/-! ### The condition on a run -/

/-- When a call saves a device, it has been the case at some moment of the call that the id was
free, and nobody else has saved a device with this id since. -/
def Uncontested (p : AuthPool) (e : Turn Request Choice) : Prop :=
  ∀ n c call r, e = .act n c → p.calls[n]? = some call →
    (∃ next, call.rest = .op (.sql (.saveDevice r)) next) →
    ∃ st ∈ call.own, st.2.Gone r.id ∧
      ∀ r' ∈ p.shared.saved.drop st.2.saved.length, r'.id = r.id → r'.userId = r.userId

/-- One turn of a run that keeps to the condition. -/
def UncontestedStep (P : Primitives) (p : AuthPool) (e : Turn Request Choice) (p' : AuthPool) :
    Prop :=
  Pool.Step machine Pool.Unrestricted (serve P) p e p' ∧ Uncontested p e

/-- A request that revokes no device. -/
def Request.KeepsDevices (i : Request) : Prop := ∀ d, ¬i.Revokes d

/-- What is known of a pool in which no device is revoked. -/
abbrev Owning (p : AuthPool) : Prop :=
  Pool.Knows machine Rightful (fun _ _ _ => True) Request.KeepsDevices World.KeepsOwners Stored p

section

variable {P : Primitives} {p p' : AuthPool} {n : ℕ} {ch : Choice} {i : Request} {ω : Type}
  {o : Op ω} {next : ω → Serve Response} {own : List (World × World)}

theorem owning_run {es : List (Turn Request Choice)}
    (hrun : Steps (Pool.Step machine Respects (serve P)) p es p')
    (hes : ∀ e ∈ es, e.Starts Request.KeepsDevices) (h : Owning p) : Owning p' :=
  Pool.invariant_past (B := fun _ _ _ => True) World.KeepsOwners.refl (fun _ _ _ => .trans)
    (fun _ _ _ _ _ _ hkeeps hrightful _ => keepsOwners_exec hkeeps hrightful.2)
    (fun i _ => serve_rightful P i)
    (fun _ _ _ _ _ _ hkeeps hrightful _ _ hA _ hw => stored_exec hkeeps hrightful.2 hA hw)
    hrun hes (fun _ _ _ _ _ _ => trivial) h

/-- A device that nobody else has saved since it was free is new or belongs to the same user. -/
theorem respects_act (h : Owning p) (call : p.calls[n]? = some ⟨i, .op o next, own⟩)
    (huncontested : Uncontested p (.act n ch)) :
    Respects p.shared ch (machine.exec o ch p.shared).2 := by
  intro r hsaved u hu
  have hmem := mem_of_getElem? call
  rcases devices_exec (h.asked _ hmem) (h.goes _ hmem).1.2 with
    ⟨-, hsame⟩ | ⟨r', db, hsaves, -, -, hsaved'⟩
  · rw [hsame] at hsaved
    exact absurd (congrArg List.length hsaved) (by simp)
  · obtain rfl : r = r' := by
      have heq := hsaved.symm.trans hsaved'
      simpa using heq
    have hop : ∃ next', (op o next) = .op (.sql (.saveDevice r)) next' := by
      cases o with
      | sql q =>
        cases q with
        | saveDevice r' =>
          obtain rfl : r' = r := hsaves
          exact ⟨next, rfl⟩
        | _ => exact hsaves.elim
      | _ => exact hsaves.elim
    obtain ⟨st, hst, hgone, hothers⟩ := huncontested n ch _ r rfl call hop
    obtain ⟨more, hmore, hnew⟩ := (h.saw _ hmem st hst).2.history
    rw [hmore, drop_left] at hothers
    rcases hnew u r.id hu with ⟨row, hrow, hid, -⟩ | ⟨r', hr', hid, howner⟩
    · exact absurd hid (Table.find?_eq_none.mp hgone row hrow)
    · exact howner.symm.trans (hothers r' hr' hid)

theorem respects_step {e : Turn Request Choice} (h : Owning p) (hstep : UncontestedStep P p e p') :
    Pool.Step machine Respects (serve P) p e p' := by
  obtain ⟨hstep, huncontested⟩ := hstep
  cases hstep with
  | start i => exact .start i
  | act call _ => exact .act call (respects_act h call huncontested)

theorem owning_uncontested {es : List (Turn Request Choice)}
    (hrun : Steps (UncontestedStep P) p es p') (hes : ∀ e ∈ es, e.Starts Request.KeepsDevices)
    (h : Owning p) : Owning p' := by
  induction hrun with
  | nil => exact h
  | cons head tail ih =>
    refine ih (fun e he => hes e (mem_cons_of_mem _ he)) ?_
    exact owning_run (.cons (respects_step h head) .nil) (by simpa using hes _ mem_cons_self) h

/-- A row that an operation changes belongs to the user the call acts for. -/
theorem mem_devices_exec (h : Owning p) (call : p.calls[n]? = some ⟨i, .op o next, own⟩)
    (hA : Respects p.shared ch (machine.exec o ch p.shared).2) {row : Device}
    (hrow : row ∈ p.shared.db.devices) (hother : ¬i.ActsFor own row.userId) :
    row ∈ (machine.exec o ch p.shared).2.db.devices := by
  have hmem := mem_of_getElem? call
  have hgoes := (h.goes _ hmem).1
  rcases devices_exec (h.asked _ hmem) hgoes.2 with
    ⟨hsame, -⟩ | ⟨r, db, hsaves, hrun, hdevices, hsaved⟩
  · rw [hsame]
    exact hrow
  · rw [hdevices]
    refine mem_of_saveDevice hrun hrow fun hid => hother ?_
    have howner := hA r hsaved row.userId ⟨row, hrow, hid, rfl⟩
    rw [howner]
    cases o with
    | sql q =>
      cases q with
      | saveDevice r' =>
        obtain rfl : r' = r := hsaves
        exact hgoes.1
      | _ => exact hsaves.elim
    | _ => exact hsaves.elim

/-- A session that is issued is for a device of the user the call acts for. -/
theorem owns_of_issued (h : Owning p) (call : p.calls[n]? = some ⟨i, .op o next, own⟩) {t : Token}
    (hafter : (machine.exec o ch p.shared).2.Alive t d) (hbefore : ¬p.shared.Alive t d) :
    ∃ u, i.ActsFor own u ∧ (machine.exec o ch p.shared).2.Owns u d := by
  have hmem := mem_of_getElem? call
  have hgoes := (h.goes _ hmem).1
  have hkeeps := keepsOwners_exec (c := ch) (w := p.shared) (h.asked _ hmem) hgoes.2
  rcases entry_of_exec hafter with hold | hstores
  · exact absurd (World.entry_of_tick hold) hbefore
  · cases o with
    | newUuid | opaqueKe _ | sql _ => exact hstores.elim
    | cache q =>
      cases q with
      | set k v ttl =>
        obtain ⟨rfl, rfl⟩ := hstores
        obtain ⟨u, hacts, st, hst, hevidence⟩ := hgoes.1 d rfl
        obtain ⟨hstored, hsince⟩ := h.saw _ hmem st hst
        refine ⟨u, hacts, hkeeps.owners u d (hsince.owners u d ?_)⟩
        rcases hevidence with howns | ⟨r, hr, rfl, rfl⟩
        · exact howns
        · exact hstored r hr
      | _ => exact hstores.elim

end

/-- Along every run in which no two users save one device id at the same time: an operation changes
only devices of the user its call acts for, and issues sessions only for devices that belong to this
user at that moment. -/
theorem devices_keep_owners {P : Primitives} {w₀ : World} {es : List (Turn Request Choice)}
    {p p' : AuthPool} {n : ℕ} {ch : Choice} {call : Call Request Op DomainError Response World}
    (hstart : w₀.saved = []) (hrun : Steps (UncontestedStep P) ⟨w₀, []⟩ es p)
    (hes : ∀ e ∈ es, e.Starts Request.KeepsDevices) (hstep : UncontestedStep P p (.act n ch) p')
    (hcall : p.calls[n]? = some call) :
    (∀ row ∈ p.shared.db.devices, ¬call.request.ActsFor call.own row.userId →
      row ∈ p'.shared.db.devices) ∧
    ∀ t d, p'.shared.Alive t d → ¬p.shared.Alive t d →
      ∃ u, call.request.ActsFor call.own u ∧ p'.shared.Owns u d := by
  have hstored : Stored w₀ := by
    intro r hr
    rw [hstart] at hr
    cases hr
  have howning := owning_uncontested hrun hes (Pool.knows_initial hstored)
  obtain ⟨hstep, huncontested⟩ := hstep
  cases hstep with
  | act acting _ =>
    obtain rfl := Option.some.inj (hcall.symm.trans acting)
    have hA := respects_act howning acting huncontested
    exact ⟨fun row hrow hother => mem_devices_exec howning acting hA hrow hother,
      fun t d hafter hbefore => owns_of_issued howning acting hafter hbefore⟩

/-! ### Concrete runs -/

instance (u : UserId) (d : DeviceId) (w : World) : Decidable (w.Owns u d) :=
  inferInstanceAs (Decidable (∃ row ∈ w.db.devices.rows, row.id = d ∧ row.userId = u))

instance (i : Request) (own : List (World × World)) (u : UserId) : Decidable (i.ActsFor own u) :=
  match i with
  | .registerFinish req => inferInstanceAs (Decidable (u = req.userId))
  | .registerDevice userId _ => inferInstanceAs (Decidable (u = userId))
  | .loginFinish req =>
    decidable_of_iff ((own[1]?).any (fun st =>
        decide (st.1.entry (.loginNonce req.loginNonce) = some (.uuid u))) = true)
      (by simp [Request.ActsFor, Option.any_eq_true])
  | .registerInit _ | .loginInit _ | .listDevices _ | .revokeDevice _ _ | .createInvite _ _
  | .redeemInvite _ | .authenticate _ | .revokeSession _ => .isFalse id

/-- User 2 is enrolled in recovery and about to log in; user 1 is about to finish a registration. -/
def Sample.racing : World where
  db := { Db.empty with
    users := Table.insertNew ⟨2, [2], [], some (List.replicate 32 0)⟩ ∅ }
  cache := { Cache.empty with
    entries := Expiring.set (Expiring.set ∅ (.loginNonce 51) (.uuid 2) none)
      (.reg 1) (.bytes [1]) none }
  saved := []

/-- A login of user 2 that creates device 9. -/
def Sample.recovery : Request :=
  .loginFinish ⟨[], 51, 9, some ⟨[22], List.replicate 64 0⟩⟩

/-- The registration of user 1 with a device. -/
def Sample.registration (d : DeviceId) : Request := .registerFinish ⟨1, [], [11], none, some d⟩

/-- The login sees that id 9 is free; the registration takes it; the login is about to save it. -/
def Sample.raced : List (Turn Request Choice) :=
  [.start recovery] ++ acts 0 3 ++ [.start (registration 9)] ++ acts 1 7 ++ acts 0 2

/-- The save of the login replaces the credential of the device of user 1, and the session it then
issues is for that device. -/
theorem raced_device_taken_over :
    (∃ p p' : AuthPool, ∃ call,
      Steps (Pool.Step machine (fun _ c _ => c.fault = none) (serve primitives))
        ⟨racing, []⟩ raced p ∧
      Pool.Step machine (fun _ c _ => c.fault = none) (serve primitives) p (.act 0 .plain) p' ∧
      p.calls[0]? = some call ∧ call.request = recovery ∧
      ⟨9, 1, [11]⟩ ∈ p.shared.db.devices ∧ ¬call.request.ActsFor call.own 1 ∧
      ⟨9, 1, [11]⟩ ∉ p'.shared.db.devices) ∧
    ∃ p p' : AuthPool, ∃ call,
      Steps (Pool.Step machine (fun _ c _ => c.fault = none) (serve primitives))
        ⟨racing, []⟩ (raced ++ acts 0 2) p ∧
      Pool.Step machine (fun _ c _ => c.fault = none) (serve primitives) p (.act 0 .plain) p' ∧
      p.calls[0]? = some call ∧ call.request = recovery ∧
      ¬p.shared.Alive 0 9 ∧ p'.shared.Alive 0 9 ∧ call.request.ActsFor call.own 2 ∧
      p'.shared.Owns 1 9 := by
  constructor
  · exact Pool.exists_last_of_playIf (fun _ _ _ => Pool.step_of_allows) (by decide +kernel)
  · exact Pool.exists_last_of_playIf (fun _ _ _ => Pool.step_of_allows) (by decide +kernel)

/-- The device a call is about to save. -/
def saving? : Serve Response → Option Device
  | .op (.sql (.saveDevice r)) _ => some r
  | _ => none

theorem saving?_saveDevice (r : Device) (next : Except DomainError Unit → Serve Response) :
    saving? (.op (.sql (.saveDevice r)) next) = some r := rfl

/-- The turn keeps to the condition. -/
def uncontested (p : AuthPool) (e : Turn Request Choice) (_ : AuthPool) : Bool :=
  match e with
  | .start _ => true
  | .act n _ => (p.calls[n]?).all fun call => (saving? call.rest).all fun r =>
      call.own.any fun st => decide (st.2.Gone r.id ∧
        ∀ r' ∈ p.shared.saved.drop st.2.saved.length, r'.id = r.id → r'.userId = r.userId)

theorem uncontestedStep {P : Primitives} {p p' : AuthPool} {e : Turn Request Choice}
    (h : Pool.Step machine Pool.Unrestricted (serve P) p e p' ∧ uncontested p e p' = true) :
    UncontestedStep P p e p' := by
  refine ⟨h.1, fun n c call r he hcall hrest => ?_⟩
  subst he
  obtain ⟨next, hrest⟩ := hrest
  have htest := h.2
  simp only [uncontested, hcall, Option.all_some, hrest, saving?_saveDevice, any_eq_true,
    decide_eq_true_eq] at htest
  exact htest

/-- The same calls for different devices, up to the point where the login issues its session. -/
def Sample.apart : List (Turn Request Choice) :=
  [.start recovery] ++ acts 0 3 ++ [.start (registration 8)] ++ acts 1 7 ++ acts 0 4

theorem devices_keep_owners_sample : ∃ p p' : AuthPool,
    Steps (UncontestedStep primitives) ⟨racing, []⟩ apart p ∧
    UncontestedStep primitives p (.act 0 .plain) p' ∧
    ⟨8, 1, [11]⟩ ∈ p.shared.db.devices ∧ ⟨8, 1, [11]⟩ ∈ p'.shared.db.devices ∧
    ¬p.shared.Alive 0 9 ∧ p'.shared.Alive 0 9 ∧
    ∃ call u, p.calls[0]? = some call ∧ call.request.ActsFor call.own u ∧ p'.shared.Owns u 9 := by
  obtain ⟨p, p', call, hrun, hlast, hcall, hrow, hother, hbefore, hafter⟩ : ∃ p p' call,
      Steps (UncontestedStep primitives) ⟨racing, []⟩ apart p ∧
      UncontestedStep primitives p (.act 0 .plain) p' ∧ p.calls[0]? = some call ∧
      ⟨8, 1, [11]⟩ ∈ p.shared.db.devices ∧ ¬call.request.ActsFor call.own 1 ∧
      ¬p.shared.Alive 0 9 ∧ p'.shared.Alive 0 9 :=
    Pool.exists_last_of_playIf (fun _ _ _ => uncontestedStep) (by decide +kernel)
  have hkeeps : ∀ e ∈ apart, e.Starts Request.KeepsDevices := by
    simp [apart, acts, Turn.Starts, Request.KeepsDevices, Request.Revokes,
      recovery, registration]
  obtain ⟨hrows, hissued⟩ := devices_keep_owners rfl hrun hkeeps hlast hcall
  obtain ⟨u, hacts, howns⟩ := hissued 0 9 hafter hbefore
  exact ⟨p, p', hrun, hlast, hrow, hrows _ hrow hother, hbefore, hafter, call, u, hcall, hacts,
    howns⟩

end Powehi.Auth
