import Powehi.Auth.Revocation
import Powehi.Semantics.Past

/-!
# Retrying a failed revocation

A revocation deletes the invites and the key packages of the device, then the device, then its
sessions. A call that fails early leaves the device in place, so that the next one finds everything
that is still to be done. Once the device is gone, a retry finds nothing to do.
-/

namespace Powehi.Auth

open Codec Semantics Server Program List Sample Expiring Option

variable {d : DeviceId}
variable {k : Key} {v : Value} {own : List (World × World)} {P : Primitives}
  {e : Turn Request Choice} {w : World}

/-! ### What the operations of a revocation do -/

/-- There is no key package of the device. -/
def World.NoKeyPackages (w : World) (d : DeviceId) : Prop :=
  ∀ kp ∈ w.db.keyPackages, kp.deviceId ≠ d

section

variable {i : Request} {ω : Type} {o : Op ω} {c : Choice} {w : World}

/-- What a transaction of a revocation does to the tables. -/
theorem tables_of_run {β : Type} {q : Query β} {b : β} {db db' : Db} (hrevokes : i.Revokes d)
    (hmay : i.May (.sql q)) (hrun : q.run db = .ok (b, db')) :
    (∀ kp ∈ db'.keyPackages, kp ∈ db.keyPackages) ∧
      (db'.devices = db.devices ∨
        DeletesDevice d (.sql q) ∧ db'.devices = db.devices.deleteWhere (·.id = d)) := by
  obtain ⟨u, rfl⟩ := hrevokes
  cases q with
  | findUser _ | findUserByHandle _ | findDevice _ | findDevicesByUser _ | listGroupsForDevice _ =>
    obtain rfl := state_of_ok hrun
    exact ⟨fun kp h => h, .inl rfl⟩
  | saveUser _ =>
    obtain ⟨req, hreq, -⟩ := hmay
    cases hreq
  | saveDevice _ => exact False.elim hmay
  | deleteDevice d' =>
    obtain ⟨u', hu'⟩ := hmay
    obtain ⟨-, rfl⟩ := Request.revokeDevice.inj hu'
    obtain rfl := state_of_ok hrun
    exact ⟨fun kp h => h, .inr ⟨rfl, rfl⟩⟩
  | deleteKeyPackagesByDevice d' =>
    obtain rfl := state_of_ok hrun
    exact ⟨fun kp h => (Table.mem_deleteWhere.mp h).1, .inl rfl⟩
  | createPendingRemoval g d' =>
    obtain rfl := state_of_ok hrun
    unfold Db.createPendingRemoval
    split
    · exact ⟨fun kp h => h, .inl rfl⟩
    · exact ⟨fun kp h => h, .inl rfl⟩
  | _ => exact False.elim hmay

/-- What an operation of a revocation does to the tables: key packages only disappear, and devices
stay as they are unless the device is deleted. -/
theorem tables_of_exec (hrevokes : i.Revokes d) (hmay : i.May o) :
    (∀ kp ∈ (machine.exec o c w).2.db.keyPackages, kp ∈ w.db.keyPackages) ∧
      ((machine.exec o c w).2.db.devices = w.db.devices ∨ DeletesDevice d o ∧
        (machine.exec o c w).2.db.devices = w.db.devices.deleteWhere (·.id = d)) := by
  cases o with
  | newUuid | opaqueKe _ => exact ⟨fun kp h => h, .inl rfl⟩
  | cache q =>
    rcases exec_cache q c w with hw | ⟨hw, -⟩
    · rw [hw]
      exact ⟨fun kp h => h, .inl rfl⟩
    · rw [hw]
      exact ⟨fun kp h => h, .inl rfl⟩
  | sql q =>
    rcases exec_sql_db q c w with hw | ⟨b, db, hrun, hw⟩
    · rw [hw]
      exact ⟨fun kp h => h, .inl rfl⟩
    · have htables := tables_of_run hrevokes hmay hrun
      rw [hw]
      exact htables

/-- What an operation of a revocation does to the cache: it only deletes. -/
theorem cache_of_exec (hrevokes : i.Revokes d) (hmay : i.May o) :
    (machine.exec o c w).2.cache.now = w.cache.now + c.elapsed ∧
      (machine.exec o c w).2.cache.entries.Sub w.cache.entries ∧
      (machine.exec o c w).2.cache.sets.Sub w.cache.sets := by
  cases o with
  | newUuid | opaqueKe _ => exact ⟨rfl, .refl _, .refl _⟩
  | sql q =>
    rw [exec_sql_cache]
    exact ⟨rfl, .refl _, .refl _⟩
  | cache q =>
    rcases exec_cache q c w with hw | ⟨hw, -⟩
    · rw [hw]
      obtain ⟨u, rfl⟩ := hrevokes
      cases q with
      | set k v ttl => cases k <;> simp [Request.May, Request.LogsIn] at hmay
      | setAdd s x => cases s <;> simp [Request.May, Request.LogsIn] at hmay
      | setRemove s x => cases s <;> simp [Request.May] at hmay
      | setExpire s ttl => cases s <;> simp [Request.May, Request.LogsIn] at hmay
      | get _ | setMembers _ => exact ⟨rfl, .refl _, .refl _⟩
      | delete k | getDel k => exact ⟨rfl, .delete _ k, .refl _⟩
      | deleteSet s => exact ⟨rfl, .refl _, .delete _ s⟩
    · rw [hw]
      exact ⟨rfl, .refl _, .refl _⟩

/-- The device disappears only when it is deleted. -/
theorem gone_of_exec (hrevokes : i.Revokes d) (hmay : i.May o)
    (h : (machine.exec o c w).2.Gone d) : w.Gone d ∨ DeletesDevice d o := by
  rcases (tables_of_exec hrevokes hmay).2 with hsame | ⟨hdeletes, -⟩
  · left
    change w.db.devices.find? d = none
    rw [← hsame]
    exact h
  · exact .inr hdeletes

/-- Time has passed, and nothing has happened but deletions. -/
structure World.Wanes (w w' : World) : Prop where
  time : w.cache.now ≤ w'.cache.now
  entries : w'.cache.entries.Sub w.cache.entries
  sets : w'.cache.sets.Sub w.cache.sets
  keyPackages : ∀ kp ∈ w'.db.keyPackages, kp ∈ w.db.keyPackages
  devices : ∀ row ∈ w'.db.devices, row ∈ w.db.devices

theorem wanes_exec (hrevokes : i.Revokes d) (hmay : i.May o) : w.Wanes (machine.exec o c w).2 := by
  obtain ⟨htime, hentries, hsets⟩ := cache_of_exec hrevokes hmay
  obtain ⟨hkps, hdevices⟩ := tables_of_exec hrevokes hmay
  refine ⟨htime ▸ Nat.le_add_right _ _, hentries, hsets, hkps, fun row hrow => ?_⟩
  rcases hdevices with hsame | ⟨-, hdeleted⟩
  · rwa [hsame] at hrow
  · rw [hdeleted] at hrow
    exact (Table.mem_deleteWhere.mp hrow).1

end

/-- Whatever a set lists stays listed for as long as it is alive. -/
def World.Outlives (w : World) (s : SetKey) : Prop :=
  ∀ k ∈ w.index s, ∀ e, (w.tick e).entry k ≠ none → k ∈ (w.tick e).index s

namespace World.Wanes

variable {w w' w'' : World}

theorem refl (w : World) : w.Wanes w :=
  ⟨le_rfl, .refl _, .refl _, fun _ h => h, fun _ h => h⟩

theorem trans (h : w.Wanes w') (h' : w'.Wanes w'') : w.Wanes w'' :=
  ⟨h.time.trans h'.time, h'.entries.trans h.entries, h'.sets.trans h.sets,
    fun kp hkp => h.keyPackages kp (h'.keyPackages kp hkp),
    fun row hrow => h.devices row (h'.devices row hrow)⟩

theorem entry (h : w.Wanes w') (hk : w'.entry k = some v) : w.entry k = some v := by
  have hold : w.cache.entries.get? w'.cache.now k = some v := by
    rw [← h.entries.get?_eq hk]
    exact hk
  exact get?_of_le h.time hold

theorem gone (h : w.Wanes w') (hgone : w.Gone d) : w'.Gone d := by
  have hnone := Table.find?_eq_none.mp hgone
  exact Table.find?_eq_none.mpr fun row hrow => hnone row (h.devices row hrow)

theorem noKeyPackages (h : w.Wanes w') (hnone : w.NoKeyPackages d) : w'.NoKeyPackages d :=
  fun kp hkp => hnone kp (h.keyPackages kp hkp)

/-- Neither the set nor what it still lists has got a new deadline. -/
theorem outlives (h : w.Wanes w') {s : SetKey} (hs : w.Outlives s) : w'.Outlives s := by
  intro k hk e hentry
  obtain ⟨v, hv⟩ := ne_none_iff_exists'.mp hentry
  have hbefore : k ∈ w.index s := by
    refine members_of_le h.time ?_
    rw [← h.sets.members_eq hk]
    exact hk
  -- the same moment, counted from the earlier state
  have hlater : w.cache.now + (w'.cache.now - w.cache.now + e) = w'.cache.now + e :=
    (Nat.add_assoc _ _ _).symm.trans (congrArg (· + e) (Nat.add_sub_of_le h.time))
  have hold : (w.tick (w'.cache.now - w.cache.now + e)).entry k = some v := by
    change w.cache.entries.get? (w.cache.now + _) k = some v
    rw [hlater, ← h.entries.get?_eq hv]
    exact hv
  have hlisted := hs k hbefore _ (ne_none_iff_exists'.mpr ⟨v, hold⟩)
  change k ∈ w.cache.sets.members (w.cache.now + _) s at hlisted
  rw [hlater, ← h.sets.members_eq hk] at hlisted
  exact hlisted

end World.Wanes

/-! ### What a revocation has seen to -/

/-- An invite of the device. -/
def World.Invites (w : World) (d : DeviceId) (h : Bytes) : Prop :=
  ∃ kp, w.entry (.invite h) = some (.uuidAnd d kp)

/-- The call has read the index of invites, and has deleted every one it found. -/
def Cleared (d : DeviceId) (own : List (World × World)) : Prop :=
  ∃ st ∈ own, ∀ k ∈ st.2.index (.deviceInvites d), ∃ st' ∈ own, st'.2.entry k = none

theorem Cleared.append (h : Cleared d own) (more : List (World × World)) :
    Cleared d (own ++ more) := by
  obtain ⟨st, hst, hall⟩ := h
  refine ⟨st, mem_append_left _ hst, fun k hk => ?_⟩
  obtain ⟨st', hst', hnone⟩ := hall k hk
  exact ⟨st', mem_append_left _ hst', hnone⟩

/-- The index of invites is deleted after its invites, and the device after its invites and its key
packages. -/
def Cleans (d : DeviceId) (own : List (World × World)) : {ω : Type} → Op ω → Prop
  | _, .cache (.deleteSet s) => s = .deviceInvites d → Cleared d own
  | _, .sql (.deleteDevice d') => d' = d →
    Cleared d own ∧ ∃ st ∈ own, st.2.NoKeyPackages d
  | _, _ => True

/-- The call has seen the device gone. -/
def SawGone (d : DeviceId) (own : List (World × World)) : Prop := ∃ st ∈ own, st.2.Gone d

theorem SawGone.append (h : SawGone d own) (more : List (World × World)) :
    SawGone d (own ++ more) := by
  obtain ⟨st, hst, hgone⟩ := h
  exact ⟨st, mem_append_left _ hst, hgone⟩

/-- A call that succeeds, or reports that there is no such device, has seen the device gone. -/
def Tells {α : Type} (d : DeviceId) (own : List (World × World)) : Except DomainError α → Prop
  | .ok _ => SawGone d own
  | .error e => e = .notFound "device" → SawGone d own

theorem tells_internal {α : Type} {e : DomainError} {message : String}
    (he : e = .internal message) :
    Tells d own (.error e : Except DomainError α) := by
  subst he
  exact nofun

section

variable {own : List (World × World)}

/-- The invites of the device are deleted, and then their index. -/
theorem wpPast_revokeInvites :
    wpPast machine (Cleans d) (revokeInvitesForDevice d) (fun own r => match r with
      | .ok _ => Cleared d own
      | .error e => ∃ message, e = .internal message) own := by
  refine wpPast_request_bind trivial (fun s c keys hkeys => ?_)
    fun s c e he => ⟨_, exec_cache_error he⟩
  obtain ⟨rfl, hw⟩ := exec_cache_eq hkeys
  rw [hw]
  -- of the keys the index had, those still to be done or deleted already
  refine wpPast_bind (wpPast_forM (fun left own' =>
    ∃ st ∈ own', ∀ k ∈ st.2.index (.deviceInvites d), k ∈ left ∨ ∃ st' ∈ own', st'.2.entry k = none)
    (fun key left own' hown => ?_) (fun own' hown => ?_) ?_)
  · obtain ⟨st, hst, hall⟩ := hown
    refine ⟨trivial, fun s' c' => ?_⟩
    cases hr : (machine.exec (.cache (.delete key)) c' s').1 with
    | error e => exact ⟨_, exec_cache_error hr⟩
    | ok u =>
      refine ⟨st, mem_append_left _ hst, fun k hk => ?_⟩
      rcases hall k hk with hk | ⟨st', hst', hnone⟩
      · rcases mem_cons.mp hk with rfl | hk
        · refine .inr ⟨_, mem_append_right _ (mem_singleton_self _), ?_⟩
          rw [(exec_cache_eq hr).2]
          exact get?_delete_self
        · exact .inl hk
      · exact .inr ⟨st', mem_append_left _ hst', hnone⟩
  · obtain ⟨st, hst, hall⟩ := hown
    have hcleared : Cleared d own' := ⟨st, hst, fun k hk => (hall k hk).resolve_left not_mem_nil⟩
    refine ⟨fun _ => hcleared, fun s' c' => ?_⟩
    cases hr : (machine.exec (.cache (.deleteSet (.deviceInvites d))) c' s').1 with
    | error e => exact ⟨_, exec_cache_error hr⟩
    | ok u => exact hcleared.append _
  · exact ⟨_, mem_append_right _ (mem_singleton_self _), fun k hk => .inl hk⟩

/-- The sessions come last, and need no preparation. -/
theorem wpPast_invalidateSessions (hgone : SawGone d own) :
    wpPast machine (Cleans d) (invalidateSessions d) (Tells d) own := by
  refine wpPast_request_bind trivial (fun s c keys _ => ?_)
    fun s c e he => tells_internal (exec_cache_error he)
  refine wpPast_bind (wpPast_forM (fun _ own' => SawGone d own') (fun key left own' h => ?_)
    (fun own' h => ?_) (hgone.append _))
  · exact ⟨trivial, fun _ _ => h.append _⟩
  · exact ⟨nofun, fun _ _ => h.append _⟩

theorem wpPast_revokeDevice (P : Primitives) (u : UserId) :
    wpPast machine (Cleans d) (serve P (.revokeDevice u d)) (Tells d) [] := by
  refine wpPast_map (wpPast_mono (fun own r (hr : Tells d own r) => ?_) ?_)
  · cases r with
    | ok _ | error _ => exact hr
  refine wpPast_request_bind trivial (fun s c row hrow => ?_)
    fun s c e he => tells_internal (exec_sql_error rfl he)
  -- without a row the call has seen that the device is gone; else it goes through all the steps
  cases row with
  | none =>
    intro _
    refine ⟨_, mem_append_right _ (mem_singleton_self _), ?_⟩
    obtain ⟨db, hrun, hw⟩ := exec_sql_eq hrow
    obtain ⟨hnone, rfl⟩ := Prod.mk.inj (Except.ok.inj hrun)
    rw [hw]
    exact hnone
  | some device =>
    dsimp only
    split
    · exact nofun
    refine wpPast_bind (wpPast_mono (fun own r hr => ?_) wpPast_revokeInvites)
    cases r with
    | error e =>
      obtain ⟨message, he⟩ := hr
      exact tells_internal he
    | ok _ =>
      have hcleared : Cleared d own := hr
      refine wpPast_request_bind trivial (fun s c groups _ => ?_)
        fun s c e he => tells_internal (exec_sql_error rfl he)
      refine wpPast_bind (wpPast_forM (fun _ own => Cleared d own) (fun g left own' h => ?_)
        (fun own' h => ?_) (hcleared.append _))
      · refine ⟨trivial, fun s c => ?_⟩
        cases hr : (machine.exec (.sql (.createPendingRemoval g d)) c s).1 with
        | error e => exact tells_internal (α := Unit) (exec_sql_error rfl hr)
        | ok _ => exact h.append _
      · refine wpPast_request_bind trivial (fun s c n hn => ?_)
          fun s c e he => tells_internal (exec_sql_error rfl he)
        have hkps : (machine.exec (.sql (.deleteKeyPackagesByDevice d)) c s).2.NoKeyPackages d := by
          obtain ⟨db, hrun, hw⟩ := exec_sql_eq hn
          obtain rfl := state_of_ok hrun
          rw [hw]
          intro kp hkp
          simpa using (Table.mem_deleteWhere.mp hkp).2
        refine wpPast_request_bind (fun _ => ⟨h.append _, _, mem_append_right _
          (mem_singleton_self _), hkps⟩) (fun s' c' _ hdeleted => ?_)
          fun s c e he => tells_internal (exec_sql_error rfl he)
        refine wpPast_invalidateSessions ⟨_, mem_append_right _ (mem_singleton_self _), ?_⟩
        obtain ⟨db, hrun, hw⟩ := exec_sql_eq hdeleted
        obtain rfl := state_of_ok hrun
        rw [hw]
        exact Table.find?_eq_none.mpr fun row hrow hid => by
          have hkept := (Table.mem_deleteWhere.mp hrow).2
          simp [hid] at hkept

end

/-! ### Invites and key packages -/

/-- What the operations of a revocation are known to meet. -/
def Careful (d : DeviceId) (i : Request) (own : List (World × World)) {ω : Type}
    (o : Op ω) : Prop :=
  Cleans d own o ∧ i.May o

theorem serve_careful (P : Primitives) (i : Request) (h : i.Revokes d) :
    wpPast machine (Careful d i) (serve P i) (Tells d) [] := by
  have hmay : (serve P i).Uses i.May := uses_of_everywhere (fun _ _ h => h.1) (serve_nodes P i)
  obtain ⟨u, rfl⟩ := h
  exact wpPast_and (wpPast_revokeDevice P u) (wpPast_uses hmay fun _ _ _ ho => ho)

/-- The indexes last. The invites of the device are in theirs; a device that is gone has left
neither invites nor key packages behind. -/
structure LeavesNothing (d : DeviceId) (w : World) : Prop where
  sessionsLast : w.Outlives (.deviceSessions d)
  invitesLast : w.Outlives (.deviceInvites d)
  indexed : ∀ h, w.Invites d h → .invite h ∈ w.index (.deviceInvites d)
  gone : w.Gone d → (∀ h, ¬w.Invites d h) ∧ w.NoKeyPackages d

section

variable {i : Request} {ω : Type} {o : Op ω} {c : Choice} {w w' : World}
  {own : List (World × World)}

theorem World.Wanes.invites (h : w.Wanes w') {code : Bytes} (hinvites : w'.Invites d code) :
    w.Invites d code := by
  obtain ⟨kp, hkp⟩ := hinvites
  exact ⟨kp, h.entry hkp⟩

/-- A call that has cleared the index has left no invite. -/
theorem Cleared.no_invites (hcleared : Cleared d own)
    (hown : ∀ st ∈ own, LeavesNothing d st.2 ∧ st.2.Wanes w) (h : Bytes) : ¬w.Invites d h := by
  intro hinvites
  obtain ⟨st, hst, hall⟩ := hcleared
  obtain ⟨hleaves, hwanes⟩ := hown st hst
  obtain ⟨st', hst', hnone⟩ := hall _ (hleaves.indexed h (hwanes.invites hinvites))
  obtain ⟨kp, hkp⟩ := (hown st' hst').2.invites hinvites
  exact absurd (hkp.symm.trans hnone) (by simp)

theorem leavesNothing_exec (hrevokes : i.Revokes d) (hcareful : Careful d i own o)
    (hown : ∀ st ∈ own, LeavesNothing d st.2 ∧ st.2.Wanes w) (hw : LeavesNothing d w) :
    LeavesNothing d (machine.exec o c w).2 := by
  obtain ⟨hcleans, hmay⟩ := hcareful
  have hwanes : w.Wanes (machine.exec o c w).2 := wanes_exec hrevokes hmay
  refine ⟨hwanes.outlives hw.sessionsLast, hwanes.outlives hw.invitesLast, fun h hinvites => ?_,
    fun hgone => ?_⟩
  · obtain ⟨htime, hentries, -⟩ := cache_of_exec hrevokes hmay
    obtain ⟨kp, hkp⟩ := hinvites
    have hentry : (w.tick c.elapsed).entry (.invite h) = some (.uuidAnd d kp) := by
      change w.cache.entries.get? (w.cache.now + c.elapsed) _ = _
      rw [← htime, ← hentries.get?_eq hkp]
      exact hkp
    have hlisted := hw.invitesLast _ (hw.indexed h (hwanes.invites ⟨kp, hkp⟩)) c.elapsed
      (by simp [hentry])
    rcases index_exec hlisted with hafter | hshrinks
    · exact hafter
    -- the index is deleted: then there is no invite left
    · exfalso
      cases o with
      | newUuid | opaqueKe _ | sql _ => exact hshrinks
      | cache q =>
        cases q with
        | setRemove s k =>
          obtain rfl : s = .deviceInvites d := hshrinks
          obtain ⟨code, rfl⟩ := hmay
          obtain ⟨u, hu⟩ := hrevokes
          cases hu
        | deleteSet s =>
          obtain rfl : s = .deviceInvites d := hshrinks
          exact (hcleans rfl).no_invites hown h (hwanes.invites ⟨kp, hkp⟩)
        | _ => exact hshrinks
  · rcases gone_of_exec hrevokes hmay hgone with hold | hdeletes
    · obtain ⟨hnone, hkps⟩ := hw.gone hold
      exact ⟨fun h hinvites => hnone h (hwanes.invites hinvites), hwanes.noKeyPackages hkps⟩
    · cases o with
      | newUuid | opaqueKe _ | cache _ => exact hdeletes.elim
      | sql q =>
        cases q with
        | deleteDevice d' =>
          obtain ⟨hcleared, st, hst, hkps⟩ := hcleans hdeletes
          exact ⟨fun h hinvites => hcleared.no_invites hown h (hwanes.invites hinvites),
            hwanes.noKeyPackages ((hown st hst).2.noKeyPackages hkps)⟩
        | _ => exact hdeletes.elim

end

/-- What is known of a pool of revocations of the device. -/
abbrev Revoking (d : DeviceId) (p : AuthPool) : Prop :=
  Pool.Knows machine (Careful d) (fun _ => Tells d) (·.Revokes d) World.Wanes (LeavesNothing d) p

theorem Revoking.run {A : World → Choice → World → Prop} {p p' : AuthPool}
    {es : List (Turn Request Choice)} (hrun : Steps (Pool.Step machine A (serve P)) p es p')
    (hes : ∀ e ∈ es, e.Starts (·.Revokes d)) (h : Revoking d p) : Revoking d p' :=
  Pool.invariant_past (B := fun _ _ _ => True) World.Wanes.refl (fun _ _ _ => .trans)
    (fun _ _ _ _ _ _ hrevokes hcareful _ => wanes_exec hrevokes hcareful.2)
    (serve_careful P)
    (fun _ _ _ _ _ _ hrevokes hcareful hown _ _ _ hw =>
      leavesNothing_exec hrevokes hcareful hown hw)
    hrun hes (fun _ _ _ _ _ _ => trivial) h

/-! ### Sessions -/

/-- One turn of a run in which the failures that matter leave the device in place. -/
def RetriableStep (P : Primitives) (d : DeviceId) (p : AuthPool) (e : Turn Request Choice)
    (p' : AuthPool) : Prop :=
  Pool.Step machine Pool.Unrestricted (serve P) p e p' ∧ p.Acting e (Retriable d p'.shared)

/-- As soon as the device is gone, a revocation is on its way to success. -/
structure Finishing (d : DeviceId) (p : AuthPool) : Prop where
  revoking : Revoking d p
  accounted : Accounted d p
  finishing : p.shared.Gone d →
    ∃ c ∈ p.calls, c.request.Revokes d ∧ (c.rest = invalidating d ∨ EndsWell c.rest)

namespace Finishing

variable {P : Primitives} {p p' : AuthPool}

/-- The conditions under which sessions are accounted for hold of every turn. -/
theorem orderlyStep (h : Finishing d p) (hstep : RetriableStep P d p e p') :
    OrderlyStep P d p e p' := by
  obtain ⟨hstep, hretry⟩ := hstep
  cases hstep with
  | start i => exact ⟨.start i, trivial, trivial⟩
  | @act n ch i ω o next own call hA =>
    have hmem := mem_of_getElem? call
    have hrevokes : i.Revokes d := h.revoking.asked _ hmem
    have hmay : i.May o := (h.revoking.goes _ hmem).1.2
    refine ⟨.act call ⟨(wanes_exec hrevokes hmay).gone, fun k hk hentry => ?_⟩,
      fun acting hacting hin => ?_, hretry⟩
    · exact h.revoking.now.sessionsLast k hk _ (by simp [hentry])
    · obtain rfl := some.inj (hacting.symm.trans call)
      exact absurd hrevokes hin.not_revokes

/-- A call that deletes the device goes on to read the index, and what it does then cannot fail. -/
theorem finishing_act {n : ℕ} {ch : Choice} {i : Request} {ω : Type} {o : Op ω}
    {next : ω → Serve Response} (h : Finishing d p) (call : p.calls[n]? = some ⟨i, .op o next, own⟩)
    (hretry : Retriable d (machine.exec o ch p.shared).2 ⟨i, .op o next, own⟩ ch)
    (hgone : (machine.exec o ch p.shared).2.Gone d) :
    ∃ c ∈ p.calls.set n ⟨i, next (machine.exec o ch p.shared).1,
        own ++ [(p.shared, (machine.exec o ch p.shared).2)]⟩,
      c.request.Revokes d ∧ (c.rest = invalidating d ∨ EndsWell c.rest) := by
  have hmem := mem_of_getElem? call
  have hlt := (List.getElem?_eq_some_iff.mp call).1
  have hnew := mem_set hlt (⟨i, next (machine.exec o ch p.shared).1,
    own ++ [(p.shared, (machine.exec o ch p.shared).2)]⟩ : Call _ _ _ _ _)
  have hrevokes : i.Revokes d := h.revoking.asked _ hmem
  have hnode := (h.accounted.nodes _ hmem).1
  have hfault : Matters d (.op o next) = true → ch.fault = none := by
    intro hmatters
    by_contra hfault
    exact hretry hrevokes hmatters hfault hgone
  rcases gone_of_exec hrevokes hnode.1 hgone with hold | hdeletes
  · obtain ⟨c, hc, hof, hends⟩ := h.finishing hold
    rcases Pool.mem_set_calls call hc _ with rfl | hc
    · refine ⟨_, hnew, hof, .inr ?_⟩
      rcases hends with hrest | hends
      · obtain ⟨next', hinv, hok, -⟩ := invalidating_eq
        have hsame : op o next = .op _ next' := hrest.trans hinv
        cases hsame
        rw [exec_cache_ok _ (hfault (decide_eq_true rfl)), hok]
        exact endsWell_dropping _
      · exact hends.act id trivial
    · exact ⟨c, hc, hof, hends⟩
  · cases o with
    | newUuid | opaqueKe _ | cache _ => exact hdeletes.elim
    | sql q =>
      cases q with
      | deleteDevice d' =>
        obtain rfl : d' = d := hdeletes
        refine ⟨_, hnew, hrevokes, .inl ?_⟩
        rw [exec_sql_ok (hfault (decide_eq_true rfl)) rfl, hnode.2.1]
      | _ => exact hdeletes.elim

theorem step (h : Finishing d p) (hstep : RetriableStep P d p e p')
    (he : e.Starts (·.Revokes d)) : Finishing d p' := by
  refine ⟨.run (.cons hstep.1 .nil) (by simpa using he) h.revoking,
    Accounted.step (h.orderlyStep hstep) h.accounted, fun hgone => ?_⟩
  obtain ⟨hstep, hretry⟩ := hstep
  cases hstep with
  | start i =>
    obtain ⟨c, hc, hof, hends⟩ := h.finishing hgone
    exact ⟨c, mem_append_left _ hc, hof, hends⟩
  | act call hA => exact h.finishing_act call (hretry _ call) hgone

theorem run {es : List (Turn Request Choice)} (h : Finishing d p)
    (hrun : Steps (RetriableStep P d) p es p')
    (hes : ∀ e ∈ es, e.Starts (·.Revokes d)) : Finishing d p' := by
  induction hrun with
  | nil => exact h
  | cons head tail ih =>
    exact ih (h.step head (hes _ mem_cons_self)) fun e he => hes e (mem_cons_of_mem _ he)

/-- When the device is gone and all calls have returned, no token stands for the device. -/
theorem not_alive (h : Finishing d p) (hgone : p.shared.Gone d)
    (hreturned : ∀ c ∈ p.calls, ∃ r, c.rest = .ofExcept r) (t : Token) : ¬p.shared.Alive t d := by
  obtain ⟨c, hc, hrevokes, hends⟩ := h.finishing hgone
  obtain ⟨r, hr⟩ := hreturned c hc
  have hdone : c.rest = .pure .done := by
    rw [hr] at hends
    cases r with
    | ok a =>
      rcases hends with hrest | hends
      · cases hrest
      · obtain rfl := Except.ok.inj hends
        exact hr
    | error e => rcases hends with hends | hends <;> cases hends
  exact h.accounted.not_alive hc hrevokes hdone (fun c hc _ => hreturned c hc) t

end Finishing

/-! ### A revocation that was retried -/

/-- The sessions and the invites of the device are in its indexes, and the indexes last. -/
structure World.Tidy (w : World) (d : DeviceId) : Prop where
  sessions : ∀ t, w.Alive t d → w.Listed t d
  invites : ∀ h, w.Invites d h → .invite h ∈ w.index (.deviceInvites d)
  sessionsLast : w.Outlives (.deviceSessions d)
  invitesLast : w.Outlives (.deviceInvites d)

theorem World.Tidy.revoking (h : w.Tidy d) (hdevice : ¬w.Gone d) : Revoking d ⟨w, []⟩ :=
  Pool.knows_initial ⟨h.sessionsLast, h.invitesLast, h.invites, fun hgone => absurd hgone hdevice⟩

/-- A device without invites has none redeemed. -/
theorem redeemInvite_ne (h : ∀ code, ¬w.Invites d code) (code : Bytes) (kp : Bytes)
    (f : ℕ → Choice) :
    ((redeemInvite P code).run machine f w).1 ≠ .ok (d, kp) := by
  refine wp_run (A := fun _ => True) (Q := fun r _ => r ≠ .ok (d, kp)) (C := fun _ => True) ?_
    fun _ => trivial
  change wp _ _ (cache (.getDel (.invite (P.sha256 code))) >>= _) _ _ _
  rw [wp_bind, cache, wp_request]
  refine ⟨trivial, fun c _ => ⟨trivial, ?_⟩⟩
  cases hget : (machine.exec (.cache (.getDel (.invite (P.sha256 code)))) c w).1 with
  | error e => exact fun h => by cases h
  | ok v =>
    rw [andThen_ok]
    split
    · exact ⟨trivial, fun h => by cases h⟩
    · next d' kp' =>
      have hentry := World.entry_of_tick (exec_cache_eq hget).1.symm
      refine ⟨trivial, fun c' _ => ⟨trivial, fun heq => ?_⟩⟩
      obtain ⟨rfl, rfl⟩ := Prod.mk.inj (Except.ok.inj heq)
      exact h _ ⟨_, hentry⟩
    · exact ⟨trivial, fun h => by cases h⟩

theorem fetchOne_eq_none (h : w.NoKeyPackages d) : (w.db.fetchOne d).1 = none := by
  have hfilter : w.db.keyPackages.rows.filter (fun k =>
      k.deviceId = d && !k.consumed &&
        decide (w.db.now < k.uploadedAt + Db.keyPackageServe)) = [] := by
    refine filter_eq_nil_iff.mpr fun kp hkp => ?_
    simp [h kp hkp]
  have hserved : w.db.servedKeyPackage d = none := by
    rw [Db.servedKeyPackage, hfilter]
    rfl
  rw [Db.fetchOne, hserved]

/-- Revocations of a device that fail in any way and are retried, until one succeeds or finds no
device: no invite of the device can be redeemed and no key package of it fetched. If the failures of
a deletion of the device, a read of the index or a deletion of a session left the device in place,
no token stands for the device either. -/
theorem retried_revocation_completes {P : Primitives} {d : DeviceId} {w₀ : World}
    {es : List (Turn Request Choice)} {p : AuthPool}
    {c : Call Request Op DomainError Response World}
    (hdevice : ¬w₀.Gone d) (htidy : w₀.Tidy d)
    (hrun : Steps (Pool.Step machine Pool.Unrestricted (serve P)) ⟨w₀, []⟩ es p)
    (hes : ∀ e ∈ es, e.Starts (·.Revokes d)) (hc : c ∈ p.calls)
    (hresult : c.rest = .pure .done ∨ c.rest = .throw (.notFound "device"))
    (hreturned : ∀ c ∈ p.calls, ∃ r, c.rest = .ofExcept r) :
    (∀ code kp f, ((redeemInvite P code).run machine f p.shared).1 ≠ .ok (d, kp)) ∧
      (p.shared.db.fetchOne d).1 = none ∧
      (Steps (RetriableStep P d) ⟨w₀, []⟩ es p →
        ∀ bearer f, ((authenticate bearer).run machine f p.shared).1 ≠ .ok d) := by
  have hrevoking := Revoking.run hrun hes (htidy.revoking hdevice)
  have hgone : p.shared.Gone d := by
    obtain ⟨st, hst, hgone⟩ : SawGone d c.own := by
      have htells := hrevoking.goes c hc
      rcases hresult with hrest | hrest
      · rw [hrest] at htells
        exact htells
      · rw [hrest] at htells
        exact htells rfl
    exact (hrevoking.saw c hc st hst).2.gone hgone
  obtain ⟨hinvites, hkps⟩ := hrevoking.now.gone hgone
  refine ⟨redeemInvite_ne hinvites, fetchOne_eq_none hkps, fun hretriable => ?_⟩
  have hfinishing : Finishing d ⟨w₀, []⟩ :=
    ⟨htidy.revoking hdevice, .initial htidy.sessions, fun hgone => absurd hgone hdevice⟩
  exact authenticate_ne ((hfinishing.run hretriable hes).not_alive hgone hreturned)

/-! ### Concrete runs -/

/-- User 1 with device 7, which has a session, an invite and a key package. -/
def Sample.loggedIn : World where
  db := { accounts.db with
    keyPackages := Table.insertNew ⟨20, 7, [4], 0, false⟩ ∅ }
  cache := { Cache.empty with
    entries := Expiring.set (Expiring.set ∅ (.session 100) (.uuid 7) (some sessionTtl))
      (.invite [3]) (.uuidAnd 7 [5]) (some inviteTtl)
    sets := Expiring.set (Expiring.set ∅ (.deviceSessions 7) [.session 100]
      (some deviceSessionsTtl))
      (.deviceInvites 7) [.invite [3]] (some inviteTtl) }
  saved := []

/-- The only session and the only invite. -/
theorem Sample.entry_loggedIn (h : loggedIn.entry k = some v) :
    k = .session 100 ∨ k = .invite [3] := by
  by_contra hne
  push Not at hne
  have hnone : loggedIn.entry k = none := by
    rw [World.entry, loggedIn, get?_set_ne hne.2, get?_set_ne hne.1]
    rfl
  cases h.symm.trans hnone

/-- A set with one member, which is not seen for longer than the set. -/
theorem Sample.outlives_loggedIn {s : SetKey} {ttl ttl' : Time}
    (hs : loggedIn.cache.sets s = some ⟨[k], some ttl⟩)
    (hk : loggedIn.cache.entries k = some ⟨v, some ttl'⟩) (hle : ttl' ≤ ttl) :
    loggedIn.Outlives s := by
  have hmembers : ∀ e, loggedIn.cache.sets.members e s = if e < ttl then [k] else [] := by
    intro e
    by_cases he : e < ttl
    · simp [Expiring.members, Expiring.get?, Expiring.lookup, hs, filter_some,
      Timed.live, he]
    · simp [Expiring.members, Expiring.get?, Expiring.lookup, hs, filter_some,
      Timed.live, he]
  intro k' hk' e hentry
  obtain rfl : k' = k := by
    rw [World.index, hmembers] at hk'
    split at hk'
    · exact mem_singleton.mp hk'
    · cases hk'
  have hlive : (loggedIn.tick e).cache.now < ttl' := by
    by_contra hlate
    refine hentry ?_
    change Expiring.get? loggedIn.cache.entries _ _ = none
    simp only [Expiring.get?, Expiring.lookup, hk, filter_some, Timed.live, hlate]
    rfl
  change k' ∈ Expiring.members loggedIn.cache.sets _ s
  rw [hmembers, if_pos (Nat.lt_of_lt_of_le hlive hle)]
  exact mem_singleton_self _

theorem Sample.tidy_loggedIn : loggedIn.Tidy 7 where
  sessions t ht := by
    rcases entry_loggedIn ht with hk | hk
    · rw [World.Listed, hk]
      decide +kernel
    · cases hk
  invites h hinvites := by
    obtain ⟨kp, hkp⟩ := hinvites
    rcases entry_loggedIn hkp with hk | hk
    · cases hk
    · rw [hk]
      decide +kernel
  sessionsLast := outlives_loggedIn rfl rfl (by decide)
  invitesLast := outlives_loggedIn rfl rfl (by decide)

/-- The first revocation cannot delete the session and says so in the log only; the device is gone
by then, so that the second one finds nothing to do. -/
def Sample.tokenKept : List (Turn Request Choice) :=
  revoke 0 ++ acts 0 2 ++ [.act 0 { Choice.plain with fault := some .before }] ++ acts 0 1 ++
    [.start (.revokeDevice 1 7)] ++ acts 1 1

theorem retry_keeps_session : ∃ p : AuthPool,
    Steps (Pool.Step machine Pool.Unrestricted (serve primitives)) ⟨loggedIn, []⟩
      tokenKept p ∧
    ¬loggedIn.Gone 7 ∧ loggedIn.Tidy 7 ∧
    (∀ e ∈ tokenKept, e.Starts (·.Revokes 7)) ∧
    (∃ c ∈ p.calls, c.rest = .throw (.notFound "device")) ∧
    (∀ c ∈ p.calls, ∃ r, c.rest = .ofExcept r) ∧
    ((authenticate (some 100)).run machine (fun _ => .plain) p.shared).1 = .ok 7 := by
  obtain ⟨p, hrun, hgoal⟩ :=
    Pool.exists_steps_of_play machine (serve primitives) ⟨loggedIn, []⟩ tokenKept fun p =>
      (∃ c ∈ p.calls, c.rest = .throw (.notFound "device")) ∧
      (∀ c ∈ p.calls, ∃ r, c.rest = .ofExcept r) ∧
      ((authenticate (some 100)).run machine (fun _ => .plain) p.shared).1 = .ok 7
  exact ⟨p, hrun, by decide +kernel, tidy_loggedIn, by decide, hgoal⟩

/-- The first revocation fails when it comes to the key packages. The second one succeeds, although
it cannot delete the index of sessions. A third one cannot look for the device. -/
def Sample.retried : List (Turn Request Choice) :=
  [.start (.revokeDevice 1 7)] ++ acts 0 5 ++
    [.act 0 { Choice.plain with fault := some .before }] ++
    [.start (.revokeDevice 1 7)] ++ acts 1 8 ++
    [.act 1 { Choice.plain with fault := some .before }] ++
    [.start (.revokeDevice 1 7), .act 2 { Choice.plain with fault := some .before }]

theorem retried_revocation_completes_sample : ∃ p : AuthPool,
    Steps (RetriableStep primitives 7) ⟨loggedIn, []⟩ retried p ∧
    (∃ c ∈ p.calls, c.rest = .pure .done) ∧
    (∀ code kp f,
      ((redeemInvite primitives code).run machine f p.shared).1 ≠ .ok (7, kp)) ∧
    (p.shared.db.fetchOne 7).1 = none ∧
    ∀ bearer f, ((authenticate bearer).run machine f p.shared).1 ≠ .ok 7 := by
  have hplay : (Pool.playIf machine (serve primitives)
      (fun p e p' => decide (p.Acting e (Retriable 7 p'.shared))) ⟨loggedIn, []⟩ retried).any
        (fun p => (∃ c ∈ p.calls, c.rest = .pure .done) ∧
          ∀ c ∈ p.calls, ∃ r, c.rest = .ofExcept r) = true := by
    decide +kernel
  obtain ⟨p, hrun, ⟨c, hc, hdone⟩, hended⟩ := Pool.exists_steps_of_playIf
    (R := RetriableStep primitives 7) (fun _ _ _ h => ⟨h.1, of_decide_eq_true h.2⟩) hplay
  obtain ⟨hinvites, hkps, hsessions⟩ := retried_revocation_completes (by decide +kernel)
    tidy_loggedIn (hrun.mono fun _ _ _ h => h.1) (by decide) hc (.inl hdone) hended
  exact ⟨p, hrun, ⟨c, hc, hdone⟩, hinvites, hkps, hsessions hrun⟩

end Powehi.Auth
