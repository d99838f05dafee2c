import Powehi.Backend.System

/-!
# Groups that owe a removal

A revocation reads the groups of the device, notes a pending removal for each of them, and deletes
the device, and with it its memberships, two transactions later. A membership that is added after
the read is deleted with the others, but nothing is noted for its group.

The condition on a run is that no operation seats the device in a group while a revocation of the
device is between the read and the deletion.
-/

namespace Powehi.Backend

open Codec Semantics Server Program List

variable {u : UserId} {d : DeviceId}
variable {g : GroupId} {gs : List GroupId} {e : Turn Request Choice}

/-! ### The program of a revocation -/

/-- A revocation that has read the groups of the device and has these still to be noted. -/
def recording (d : DeviceId) (gs : List GroupId) : Auth.Serve Auth.Response :=
  (fun _ => Auth.Response.done) <$> (do
    gs.forM fun g => Auth.sql (.createPendingRemoval g d)
    let _ ← Auth.sql (.deleteKeyPackagesByDevice d)
    Auth.sql (.deleteDevice d)
    Auth.invalidateSessions d : Auth.Serve Unit)

/-- A revocation that is about to delete the device. -/
def deleting (d : DeviceId) : Auth.Serve Auth.Response :=
  (fun _ => Auth.Response.done) <$> (do
    Auth.sql (.deleteDevice d)
    Auth.invalidateSessions d : Auth.Serve Unit)

/-- What follows on the answer of a fallible operation whose errors are passed on. -/
def orFail {β : Type} (k : β → Auth.Serve Auth.Response) :
    Except DomainError β → Auth.Serve Auth.Response
  | .ok b => k b
  | .error e => .throw e

theorem recording_cons (g : GroupId) (gs : List GroupId) :
    recording d (g :: gs) =
      .op (.sql (.createPendingRemoval g d)) (orFail fun _ => recording d gs) := by
  change op _ _ = _
  congr 1
  funext r
  cases r <;> rfl

/-- An operation of the revocation that does not delete the device. -/
def Spares (u : UserId) (d : DeviceId) {ω : Type} (o : Auth.Op ω) : Prop :=
  (Auth.Request.revokeDevice u d).May o ∧ ¬Auth.DeletesDevice d o

/-- The operation reads the groups of the device, which are then noted one by one. -/
def Captures (d : DeviceId) : {ω : Type} → Auth.Op ω → (ω → Auth.Serve Auth.Response) → Prop
  | _, .sql (.listGroupsForDevice d'), next => d' = d ∧ next = orFail (recording d)
  | _, _, _ => False

theorem spares_of_plain {ω : Type} (o : Auth.Op ω)
    (h : (Auth.Request.revokeDevice u d).Plain o) : Spares u d o := by
  refine ⟨h.1, fun hdeletes => ?_⟩
  cases o with
  | sql q =>
    cases q with
    | deleteDevice _ => exact h.2
    | _ => exact hdeletes
  | _ => exact hdeletes

/-- A revocation deletes nothing but invites before it reads the groups. -/
theorem until_revokeDevice (P : Auth.Primitives) :
    (Auth.serve P (.revokeDevice u d)).Until (Spares u d) (Captures d) := by
  have hspares : ∀ {β : Type} {p : Auth.Serve β}, p.Uses (Auth.Request.revokeDevice u d).Plain →
      p.Uses (Spares u d) := fun hp => uses_mono (fun o ho => spares_of_plain o ho) hp
  change ((fun _ => Auth.Response.done) <$> Auth.revokeDevice u d : Auth.Serve _).Until _ _
  unfold Auth.revokeDevice
  rw [map_bind]
  refine until_uses_bind (hspares (Auth.plain_sql ⟨trivial, trivial⟩)) fun row => ?_
  cases row with
  | none => exact trivial
  | some device =>
    dsimp only
    split
    · exact trivial
    rw [map_bind]
    refine until_uses_bind (hspares Auth.plain_revokeInvites) fun _ => ?_
    refine .inl ⟨rfl, ?_⟩
    funext r
    cases r <;> rfl

/-- What comes after the deletion deletes only sessions. -/
theorem uses_invalidating : (Auth.invalidating d).Uses (Spares u d) := by
  refine uses_map (uses_bind ⟨⟨⟨u, rfl⟩, nofun⟩, fun r => ?_⟩ fun keys => ?_)
  · cases r <;> exact trivial
  refine uses_bind (uses_forM keys fun k _ => ⟨⟨trivial, nofun⟩, fun _ => trivial⟩) fun _ => ?_
  exact ⟨⟨.inr ⟨u, rfl⟩, nofun⟩, fun _ => trivial⟩

/-! ### The condition on a run -/

/-- The call is a revocation of the device that has read its groups and has not deleted it yet. -/
def Capturing (d : DeviceId) (c : Call Request Op Failure Response World) : Prop :=
  (∃ gs, c.rest = ofAuth (recording d gs)) ∨ c.rest = ofAuth (deleting d)

/-- The device is seated in a group it is not in only while no revocation of it is between the read
and the deletion. -/
def Undisturbed (d : DeviceId) (p : BackendPool) (e : Turn Request Choice) : Prop :=
  ∀ n ch i (ω : Type) (o : Op ω) next own, e = .act n ch →
    p.calls[n]? = some ⟨i, .op o next, own⟩ →
    ∀ g, o.Seats g d → p.shared.db.isMember g d = false → ∀ c ∈ p.calls, ¬Capturing d c

/-- One turn of a run that keeps to the condition. -/
def UndisturbedStep (P : Auth.Primitives) (cfg : Config) (d : DeviceId) (p : BackendPool)
    (e : Turn Request Choice) (p' : BackendPool) : Prop :=
  Pool.Step machine Pool.Unrestricted (serve P cfg) p e p' ∧ Undisturbed d p e

/-! ### How far a revocation has come -/

/-- There is a pending removal of the device for the group. -/
def World.Reminds (w : World) (g : GroupId) (d : DeviceId) : Prop :=
  (w.db.pendingRemovals.find? (g, d)).isSome = true

/-- Every group of the device is still to be noted, or the call has seen its pending removal. -/
def Covered (d : DeviceId) (w : World) (own : List (World × World)) (gs : List GroupId) : Prop :=
  ∀ g, w.db.isMember g d = true → g ∈ gs ∨ ∃ st ∈ own, st.2.Reminds g d

/-- How far a revocation has come: before the read, between the read and the deletion, or past the
deletion. -/
def Stage (u : UserId) (d : DeviceId) (w : World) (own : List (World × World))
    (p : Auth.Serve Auth.Response) : Prop :=
  p.Until (Spares u d) (Captures d) ∨
  (∃ gs, p = recording d gs ∧ Covered d w own gs) ∨
  (p = deleting d ∧ Covered d w own []) ∨
  p.Uses (Spares u d)

section

variable {w : World} {own : List (World × World)} {c : Choice} {ω : Type}

/-- The groups of a device are those it is a member of. -/
theorem mem_listGroupsForDevice {db : Db} (h : db.isMember g d = true) :
    g ∈ db.listGroupsForDevice d := by
  obtain ⟨m, hm, rfl, hd⟩ := Db.isMember_iff.mp h
  exact mem_map.mpr ⟨m, mem_filter.mpr ⟨hm, decide_eq_true hd⟩, rfl⟩

/-- A pending removal of a stored group is there once it was noted. -/
theorem reminds_createPendingRemoval {db : Db} (h : db.HasGroup g) :
    ((db.createPendingRemoval g d).pendingRemovals.find? (g, d)).isSome = true := by
  obtain ⟨row, hrow⟩ := Option.isSome_iff_exists.mp (Db.hasGroup_iff.mp h)
  unfold Db.createPendingRemoval
  rw [hrow]
  cases hfind : db.pendingRemovals.find? (g, d) with
  | none =>
    refine Option.isSome_iff_exists.mpr ⟨⟨g, d, row.epoch⟩, Table.find?_eq_some.mpr ⟨?_, rfl⟩⟩
    exact Table.mem_insertNew.mpr (.inr ⟨rfl, hfind⟩)
  | some r =>
    obtain ⟨hr, hkey⟩ := Table.find?_eq_some.mp hfind
    refine Option.isSome_iff_exists.mpr ⟨r, Table.find?_eq_some.mpr ⟨?_, hkey⟩⟩
    exact Table.mem_insertNew.mpr (.inl hr)

theorem Covered.mono {w' : World} (h : Covered d w own gs)
    (hw : ∀ g, w'.db.isMember g d = true → w.db.isMember g d = true) (more : List (World × World)) :
    Covered d w' (own ++ more) gs := by
  intro g hg
  rcases h g (hw g hg) with hgs | ⟨st, hst, hreminds⟩
  · exact .inl hgs
  · exact .inr ⟨st, mem_append_left _ hst, hreminds⟩

/-- An operation that seats nobody keeps what is covered. -/
theorem Covered.exec {o : Op ω} (h : Covered d w own gs) (hseats : ∀ g, ¬o.Seats g d) :
    Covered d (machine.exec o c w).2 (own ++ [(w, (machine.exec o c w).2)]) gs :=
  h.mono (fun g hg => (isMember_exec hg).resolve_right (hseats g)) _

/-- An operation of another call. -/
theorem Stage.other {p : Auth.Serve Auth.Response} {o : Op ω} (h : Stage u d w own p)
    (hundisturbed : ((∃ gs, p = recording d gs) ∨ p = deleting d) →
      ∀ g, o.Seats g d → w.db.isMember g d = true) : Stage u d (machine.exec o c w).2 own p := by
  have hkept : ((∃ gs, p = recording d gs) ∨ p = deleting d) → ∀ {gs}, Covered d w own gs →
      Covered d (machine.exec o c w).2 own gs := by
    intro hp gs hgs
    have hmembers : ∀ g, (machine.exec o c w).2.db.isMember g d = true →
        w.db.isMember g d = true := by
      intro g hg
      rcases isMember_exec hg with hold | hseats
      · exact hold
      · exact hundisturbed hp g hseats
    have hcovered := hgs.mono hmembers []
    rwa [append_nil] at hcovered
  rcases h with h | ⟨gs, hp, hgs⟩ | ⟨hp, hgs⟩ | h
  · exact .inl h
  · exact .inr (.inl ⟨gs, hp, hkept (.inl ⟨gs, hp⟩) hgs⟩)
  · exact .inr (.inr (.inl ⟨hp, hkept (.inr hp) hgs⟩))
  · exact .inr (.inr (.inr h))

/-- The read finds every group of the device. -/
theorem Stage.captures {own : List (World × World)} :
    Stage u d (machine.exec (.auth (.sql (.listGroupsForDevice d))) c w).2
      (own ++ [(w, (machine.exec (.auth (.sql (.listGroupsForDevice d))) c w).2)])
      (orFail (recording d) (machine.exec (.auth (.sql (.listGroupsForDevice d))) c w).1) := by
  cases hr : (machine.exec (.auth (.sql (.listGroupsForDevice d))) c w).1 with
  | error e => exact .inr (.inr (.inr trivial))
  | ok gs =>
    refine .inr (.inl ⟨gs, rfl, fun g hg => .inl ?_⟩)
    obtain ⟨db, hrun, -⟩ := Auth.exec_sql_eq hr
    obtain ⟨hgs, -⟩ := Prod.mk.inj (Except.ok.inj hrun)
    have hold : w.db.isMember g d = true := (isMember_exec hg).resolve_right id
    rw [← hgs]
    exact mem_listGroupsForDevice hold

/-- A pending removal is noted. -/
theorem Stage.records (hrefs : w.db.Referential) (h : Covered d w own (g :: gs)) :
    Stage u d (machine.exec (.auth (.sql (.createPendingRemoval g d))) c w).2
      (own ++ [(w, (machine.exec (.auth (.sql (.createPendingRemoval g d))) c w).2)])
      (orFail (fun _ => recording d gs)
        (machine.exec (.auth (.sql (.createPendingRemoval g d))) c w).1) := by
  cases hr : (machine.exec (.auth (.sql (.createPendingRemoval g d))) c w).1 with
  | error e => exact .inr (.inr (.inr trivial))
  | ok _ =>
    refine .inr (.inl ⟨gs, rfl, fun g' hg' => ?_⟩)
    have hold : w.db.isMember g' d = true := (isMember_exec hg').resolve_right id
    rcases h.exec (fun _ => id) g' hg' with hgs | hseen
    · rcases mem_cons.mp hgs with rfl | hgs
      · right
        refine ⟨_, mem_append_right _ (mem_singleton_self _), ?_⟩
        obtain ⟨db, hrun, hw⟩ := Auth.exec_sql_eq hr
        obtain rfl := state_of_ok hrun
        have hdb := congrArg Auth.World.db hw
        change ((Auth.machine.exec _ c.auth w.auth).2.db.pendingRemovals.find?
          (g', d)).isSome = true
        rw [hdb]
        have hgroup := hrefs.hasGroup hold
        exact reminds_createPendingRemoval hgroup
      · exact .inl hgs
    · exact .inr hseen

/-- An operation of the revocation itself. -/
theorem Stage.act {o : Auth.Op ω} {next : ω → Auth.Serve Auth.Response} (hrefs : w.db.Referential)
    (h : Stage u d w own (.op o next)) :
    Stage u d (machine.exec (.auth o) c w).2 (own ++ [(w, (machine.exec (.auth o) c w).2)])
      (next (machine.exec (.auth o) c w).1) := by
  rcases h with h | ⟨gs, hp, hgs⟩ | ⟨hp, hgs⟩ | h
  · rcases h with hcaptures | ⟨-, hnext⟩
    · cases o with
      | sql q =>
        cases q with
        | listGroupsForDevice d' =>
          obtain ⟨rfl, rfl⟩ := hcaptures
          exact Stage.captures
        | _ => exact hcaptures.elim
      | _ => exact hcaptures.elim
    · exact .inl (hnext _)
  · cases gs with
    | nil =>
      cases hp
      have hcovered := hgs.exec (c := c) (o := .auth (.sql (.deleteKeyPackagesByDevice d)))
        fun _ => id
      cases (machine.exec (.auth (.sql (.deleteKeyPackagesByDevice d))) c w).1 with
      | error e => exact .inr (.inr (.inr trivial))
      | ok n => exact .inr (.inr (.inl ⟨rfl, hcovered⟩))
    | cons g gs =>
      rw [recording_cons] at hp
      cases hp
      exact Stage.records hrefs hgs
  · cases hp
    right; right; right
    cases (machine.exec (.auth (.sql (.deleteDevice d))) c w).1 with
    | error e => exact trivial
    | ok _ => exact uses_invalidating
  · exact .inr (.inr (.inr (h.2 _)))

/-- A revocation that comes to delete the device has noted every group. -/
theorem Stage.covered_of_deletes {o : Auth.Op ω} {next : ω → Auth.Serve Auth.Response}
    (h : Stage u d w own (.op o next)) :
    (Auth.Request.revokeDevice u d).May o ∧ (Auth.DeletesDevice d o → Covered d w own []) := by
  rcases h with h | ⟨gs, hp, -⟩ | ⟨hp, hgs⟩ | h
  · rcases h with hcaptures | ⟨hspares, -⟩
    · cases o with
      | sql q =>
        cases q with
        | listGroupsForDevice d' => exact ⟨trivial, nofun⟩
        | _ => exact hcaptures.elim
      | _ => exact hcaptures.elim
    · exact ⟨hspares.1, fun ho => absurd ho hspares.2⟩
  · cases gs with
    | nil =>
      cases hp
      exact ⟨⟨u, rfl⟩, nofun⟩
    | cons g gs =>
      cases hp
      exact ⟨⟨u, rfl⟩, nofun⟩
  · cases hp
    exact ⟨⟨u, rfl⟩, fun _ => hgs⟩
  · exact ⟨h.1.1, fun ho => absurd ho h.1.2⟩

end

/-! ### Every run -/

/-- The references hold, and every revocation of the device is at some stage. -/
structure Staged (d : DeviceId) (p : BackendPool) : Prop where
  refs : p.shared.db.Referential
  calls : ∀ c ∈ p.calls, ∀ u, c.request = .auth (.revokeDevice u d) →
    ∃ q, c.rest = ofAuth q ∧ Stage u d p.shared c.own q

section

variable {P : Auth.Primitives} {cfg : Config} {p p' : BackendPool}

/-- One turn. -/
theorem Staged.step (h : Staged d p) (hstep : UndisturbedStep P cfg d p e p') : Staged d p' := by
  obtain ⟨hstep, hundisturbed⟩ := hstep
  cases hstep with
  | start i =>
    refine ⟨h.refs, fun c hc u hrequest => ?_⟩
    rcases mem_append.mp hc with hc | hc
    · exact h.calls c hc u hrequest
    · obtain rfl := mem_singleton.mp hc
      obtain rfl : i = .auth (.revokeDevice u d) := hrequest
      exact ⟨_, rfl, .inl (until_revokeDevice P)⟩
  | @act n ch i ω o next own call _ =>
    have hmem := mem_of_getElem? call
    refine ⟨referential_exec h.refs, fun c hc u hrequest => ?_⟩
    rcases mem_or_eq_of_mem_set hc with hc | rfl
    · obtain ⟨q, hq, hstage⟩ := h.calls c hc u hrequest
      refine ⟨q, hq, hstage.other fun hcapturing g hseats => ?_⟩
      -- while the call is between the read and the deletion nobody seats the device anew
      by_contra hnot
      refine hundisturbed n ch i ω o next own rfl call g hseats (Bool.eq_false_iff.mpr hnot) c hc ?_
      rcases hcapturing with ⟨gs, rfl⟩ | rfl
      · exact .inl ⟨gs, hq⟩
      · exact .inr hq
    · obtain ⟨q, hq, hstage⟩ := h.calls _ hmem u hrequest
      obtain ⟨o', next', rfl, rfl, rfl⟩ := eq_op_of_ofAuth hq
      exact ⟨_, rfl, hstage.act h.refs⟩

/-- A whole run. -/
theorem Staged.run {es : List (Turn Request Choice)} (h : Staged d p)
    (hrun : Steps (UndisturbedStep P cfg d) p es p') : Staged d p' := by
  induction hrun with
  | nil => exact h
  | cons head tail ih => exact ih (h.step head)

end

/-- Along every run in which the device is seated in no group while a revocation of it is between
the read and the deletion: when a revocation deletes the device, it has seen a pending removal for
every group the device is a member of at that moment. -/
theorem revocation_reports_groups {P : Auth.Primitives} {cfg : Config} {u : UserId} {d : DeviceId}
    {w₀ : World} {es : List (Turn Request Choice)} {p p' : BackendPool} {n : ℕ} {ch : Choice}
    {call : Call Request Op Failure Response World} (hrefs : w₀.db.Referential)
    (hrun : Steps (UndisturbedStep P cfg d) ⟨w₀, []⟩ es p)
    (hstep : Pool.Step machine Pool.Unrestricted (serve P cfg) p (.act n ch) p')
    (hcall : p.calls[n]? = some call) (hrequest : call.request = .auth (.revokeDevice u d))
    (hbefore : p.shared.db.findDevice d ≠ none) (hafter : p'.shared.db.findDevice d = none)
    (g : GroupId) (hmember : p.shared.db.isMember g d = true) :
    ∃ st ∈ call.own, st.2.Reminds g d := by
  have hstaged : Staged d p := Staged.run ⟨hrefs, fun c hc => by cases hc⟩ hrun
  obtain ⟨q, hq, hstage⟩ := hstaged.calls call (mem_of_getElem? hcall) u hrequest
  cases hstep with
  | @act n ch i ω o next own acting _ =>
    obtain rfl := Option.some.inj (hcall.symm.trans acting)
    obtain ⟨o', next', rfl, rfl, rfl⟩ := eq_op_of_ofAuth hq
    obtain ⟨hmay, hcovered⟩ := hstage.covered_of_deletes
    have hdeletes : Auth.DeletesDevice d o' :=
      (Auth.gone_of_exec ⟨u, rfl⟩ hmay hafter).resolve_left hbefore
    exact (hcovered hdeletes g hmember).resolve_left not_mem_nil

/-! ### Concrete runs -/

/-- Device 7 of user 1 has a pending membership in group 5; device 8 of user 2 is a member. -/
def Sample.invited : World where
  db := { Db.empty with
    users := Table.insertNew ⟨2, [2], [], none⟩ (Table.insertNew ⟨1, [1], [], none⟩ ∅)
    devices := Table.insertNew ⟨8, 2, []⟩ (Table.insertNew ⟨7, 1, []⟩ ∅)
    groups := Table.insertNew ⟨5, "us", 0, 0⟩ ∅
    members := Table.insertNew ⟨5, 8, 0⟩ ∅
    pendingMemberships := Table.insertNew ⟨5, 7, 0, 0⟩ ∅ }
  cache := .empty
  saved := []
  stored := []

theorem Sample.referential_invited : invited.db.Referential := by
  have hmembers : ∀ m ∈ invited.db.members.rows,
      ∃ row ∈ invited.db.groups.rows, row.id = m.groupId := by decide +kernel
  have hpending : ∀ m ∈ invited.db.pendingMemberships.rows,
      ∃ row ∈ invited.db.groups.rows, row.id = m.groupId := by decide +kernel
  exact ⟨hmembers, hpending⟩

/-- A call performs its next operations, and nothing fails. -/
def Sample.acts (n k : ℕ) : List (Turn Request Choice) := List.replicate k (.act n .plain)

/-- The revocation reads the groups of device 7, then the device accepts its membership. -/
def Sample.lateAccept : List (Turn Request Choice) :=
  [.start (.auth (.revokeDevice 1 7))] ++ acts 0 4 ++ [.start (.server (.acceptMembership 7 5))] ++
    acts 1 1 ++ acts 0 4

/-- No operation fails. -/
def FaultFree (_ : World) (c : Choice) (_ : World) : Prop :=
  c.auth.fault = none ∧ c.server.fault = none

instance (w : World) (c : Choice) (w' : World) : Decidable (FaultFree w c w') :=
  inferInstanceAs (Decidable (_ ∧ _))

instance (w : World) (g : GroupId) (d : DeviceId) : Decidable (w.Reminds g d) :=
  inferInstanceAs (Decidable (_ = _))

open Sample

theorem late_accept_unreported : ∃ p : BackendPool,
    Steps (Pool.Step machine FaultFree (serve Auth.Sample.primitives Server.Sample.config))
      ⟨invited, []⟩ lateAccept p ∧
    (∃ c ∈ p.calls, c.request = .auth (.revokeDevice 1 7) ∧ c.rest = .pure (.auth .done) ∧
      ∃ st ∈ c.own, st.1.db.findDevice 7 ≠ none ∧ st.2.db.findDevice 7 = none ∧
        st.1.db.isMember 5 7 = true) ∧
    (∀ c ∈ p.calls, ∀ st ∈ c.own, ¬st.1.Reminds 5 7 ∧ ¬st.2.Reminds 5 7) := by
  exact Pool.exists_steps_of_playIf (fun _ _ _ => Pool.step_of_allows) (by decide +kernel)

/-- The next operation can make some device a member. -/
def seating : Serve Response → Bool
  | .op (.auth (.sql q)) _ => q.insertsMember
  | .op (.server (.sql q)) _ => q.insertsMember
  | _ => false

/-- The next operation is one between the read and the deletion. -/
def capturing : Serve Response → Bool
  | .op (.auth (.sql (.createPendingRemoval _ _))) _ => true
  | .op (.auth (.sql (.deleteKeyPackagesByDevice _))) _ => true
  | .op (.auth (.sql (.deleteDevice _))) _ => true
  | _ => false

theorem insertsMember_of_seats {β : Type} {q : Query β} (h : q.Seats g d) :
    q.insertsMember = true := by
  cases q with
  | createWithCreator _ _ | acceptPending _ _ | upsertMembers _ _ => rfl
  | _ => exact h.elim

theorem seating_of_seats {ω : Type} {o : Op ω} {next : ω → Serve Response} (h : o.Seats g d) :
    seating (.op o next) = true := by
  cases o with
  | auth o =>
    cases o with
    | sql q => exact insertsMember_of_seats h
    | _ => exact h.elim
  | server o =>
    cases o with
    | sql q => exact insertsMember_of_seats h
    | _ => exact h.elim

theorem capturing_of_capturing {c : Call Request Op Failure Response World}
    (h : Capturing d c) : capturing c.rest = true := by
  rcases h with ⟨gs, hrest⟩ | hrest
  · rw [hrest]
    cases gs with
    | nil =>
      rfl
    | cons g gs =>
      rfl
  · rw [hrest]
    rfl

/-- The turn keeps to the condition, for every device. -/
def undisturbed (p : BackendPool) (e : Turn Request Choice) (_ : BackendPool) : Bool :=
  match e with
  | .start _ => true
  | .act n _ => (p.calls[n]?).all fun call =>
      !seating call.rest || p.calls.all fun c => !capturing c.rest

theorem undisturbedStep {P : Auth.Primitives} {cfg : Config} {p p' : BackendPool}
    (h : Pool.Step machine Pool.Unrestricted (serve P cfg) p e p' ∧ undisturbed p e p' = true) :
    UndisturbedStep P cfg d p e p' := by
  refine ⟨h.1, fun n ch i ω o next own he hcall g hseats _ c hc hcapturing => ?_⟩
  subst he
  have htest := h.2
  simp only [undisturbed, hcall, Option.all_some, seating_of_seats hseats, Bool.not_true,
    Bool.false_or, all_eq_true] at htest
  simpa [capturing_of_capturing hcapturing] using htest c hc

/-- The membership is accepted before the device is revoked; the device is about to be deleted. -/
def Sample.earlyAccept : List (Turn Request Choice) :=
  [.start (.server (.acceptMembership 7 5))] ++ acts 0 1 ++ [.start (.auth (.revokeDevice 1 7))] ++
    acts 1 6

theorem revocation_reports_groups_sample : ∃ p p' : BackendPool, ∃ call,
    Steps (UndisturbedStep Auth.Sample.primitives Server.Sample.config 7) ⟨invited, []⟩
      earlyAccept p ∧
    Pool.Step machine Pool.Unrestricted (serve Auth.Sample.primitives Server.Sample.config) p
      (.act 1 .plain) p' ∧
    p.calls[1]? = some call ∧ p.shared.db.isMember 5 7 = true ∧
    p'.shared.db.findDevice 7 = none ∧ ∃ st ∈ call.own, st.2.Reminds 5 7 := by
  obtain ⟨p, p', call, hrun, hlast, hcall, hrequest, hbefore, hafter, hmember⟩ :
      ∃ p p' call, Steps (UndisturbedStep Auth.Sample.primitives Server.Sample.config 7)
        ⟨invited, []⟩ earlyAccept p ∧
      UndisturbedStep Auth.Sample.primitives Server.Sample.config 7 p (.act 1 .plain) p' ∧
      p.calls[1]? = some call ∧ call.request = .auth (.revokeDevice 1 7) ∧
      p.shared.db.findDevice 7 ≠ none ∧ p'.shared.db.findDevice 7 = none ∧
      p.shared.db.isMember 5 7 = true :=
    Pool.exists_last_of_playIf (fun _ _ _ => undisturbedStep) (by decide +kernel)
  exact ⟨p, p', call, hrun, hlast.1, hcall, hmember, hafter,
    revocation_reports_groups referential_invited hrun hlast.1 hcall hrequest hbefore hafter
      5 hmember⟩

end Powehi.Backend
