import Powehi.Server.Membership

/-!
# Memberships and the groups they refer to

Which transactions can make a device a member of a group, or end its membership. A membership, and a
pending one, refer to a stored group; groups are never deleted, and every transaction keeps it so.
-/

namespace Powehi.Server

open Codec Semantics Table Db

variable {β : Type}

/-! ### Transactions that change a membership -/

namespace Query

/-- The method can make the device a member of the group. -/
def Seats (q : Query β) (g : GroupId) (d : DeviceId) : Prop :=
  match q with
  | .createWithCreator group creator => group.id = g ∧ creator.deviceId = d
  | .acceptPending g' d' => g' = g ∧ d' = d
  | .upsertMembers _ ms => ∃ m ∈ ms, m.groupId = g ∧ m.deviceId = d
  | _ => False

/-- The method can end the membership of the device in the group. -/
def Unseats (q : Query β) (g : GroupId) (d : DeviceId) : Prop :=
  match q with
  | .removeMember g' d' => g' = g ∧ d' = d
  | .deleteDevice d' => d' = d
  | _ => False

variable {q : Query β} {b : β} {db db' : Db} {g : GroupId} {d : DeviceId}

/-- A member was one before, or the transaction is one that seats it. -/
theorem isMember_of_run (hrun : q.run db = .ok (b, db')) (hnew : db'.isMember g d = true) :
    db.isMember g d = true ∨ q.Seats g d := by
  by_cases hold : db.isMember g d = true
  · exact .inl hold
  · right
    replace hold := Bool.eq_false_iff.mpr hold
    cases hq : q.insertsMember with
    | false =>
      obtain ⟨m, hm, hgd⟩ := isMember_iff.mp hnew
      have hmember := isMember_iff.mpr ⟨m, (frame hrun).members hq m hm, hgd⟩
      exact absurd (hold.symm.trans hmember) (by decide)
    | true =>
      cases q with
      | createWithCreator group creator =>
        obtain ⟨hg, hd, -⟩ := createWithCreator_isMember hrun hold hnew
        exact ⟨hg, hd⟩
      | acceptPending g' d' =>
        obtain rfl : (db.acceptPending g' d').2 = db' := state_of_ok hrun
        obtain ⟨hg, hd, -⟩ := acceptPending_isMember hold hnew
        exact ⟨hg, hd⟩
      | upsertMembers group ms => exact upsertMembers_isMember hrun hold hnew
      | _ => exact absurd hq (by simp [insertsMember])

/-- A member stays one, unless the transaction is one that unseats it. -/
theorem isMember_run (hrun : q.run db = .ok (b, db')) (hold : db.isMember g d = true) :
    db'.isMember g d = true ∨ q.Unseats g d := by
  obtain ⟨m, hm, hg, hd⟩ := isMember_iff.mp hold
  have hkept : m ∈ db'.members → db'.isMember g d = true ∨ q.Unseats g d :=
    fun hm => .inl (isMember_iff.mpr ⟨m, hm, hg, hd⟩)
  cases hq : q.dropsMember with
  | false => exact hkept ((frames hrun).2.kept hq m hm)
  | true =>
    cases q with
    | removeMember g' d' =>
      obtain rfl := state_of_ok hrun
      by_cases hkey : m.key = (g', d')
      · exact .inr ⟨(congrArg Prod.fst hkey).symm.trans hg, (congrArg Prod.snd hkey).symm.trans hd⟩
      · exact hkept (mem_deleteWhere.mpr ⟨hm, decide_eq_false hkey⟩)
    | deleteDevice d' =>
      obtain rfl := state_of_ok hrun
      by_cases hdevice : m.deviceId = d'
      · exact .inr (hdevice.symm.trans hd)
      · exact hkept (mem_deleteWhere.mpr ⟨hm, decide_eq_false hdevice⟩)
    | _ => exact absurd hq (by simp [dropsMember])

end Query

variable {q : Query β} {b : β} {db db' : Db} {g : GroupId} {d : DeviceId}

/-! ### References to groups -/

namespace Db

/-- The group is stored. -/
def HasGroup (db : Db) (g : GroupId) : Prop := ∃ row ∈ db.groups, row.id = g

/-- Memberships, active and pending, are of stored groups. -/
structure Referential (db : Db) : Prop where
  members : ∀ m ∈ db.members, db.HasGroup m.groupId
  pending : ∀ p ∈ db.pendingMemberships, db.HasGroup p.groupId

theorem Referential.hasGroup (h : db.Referential) (hmember : db.isMember g d = true) :
    db.HasGroup g := by
  obtain ⟨m, hm, rfl, -⟩ := isMember_iff.mp hmember
  exact h.members m hm

theorem hasGroup_iff : db.HasGroup g ↔ (db.groups.find? g).isSome = true := by
  rw [HasGroup, Option.isSome_iff_exists]
  simp only [find?_eq_some]

/-- A group that is stored, or that a sync brings along, is stored after it. -/
theorem hasGroup_insertNew {group : Group} (h : db.HasGroup g ∨ group.id = g) :
    ∃ row ∈ db.groups.insertNew group, row.id = g := by
  rcases h with ⟨row, hrow, hid⟩ | rfl
  · exact ⟨row, mem_insertNew.mpr (.inl hrow), hid⟩
  · cases hfind : db.groups.find? group.id with
    | none => exact ⟨group, mem_insertNew.mpr (.inr ⟨rfl, hfind⟩), rfl⟩
    | some row =>
      obtain ⟨hrow, hid⟩ := find?_eq_some.mp hfind
      exact ⟨row, mem_insertNew.mpr (.inl hrow), hid⟩

/-- A membership that is inserted is of a stored group. -/
theorem insertMember_hasGroup {m x : GroupMember} (h : db.insertMember m = .ok db')
    (hx : x ∈ db'.members) : x ∈ db.members ∨ db.HasGroup x.groupId := by
  unfold insertMember at h
  split at h
  · obtain rfl := Except.ok.inj h
    exact .inl hx
  · split at h
    · next hkeys =>
      obtain rfl := Except.ok.inj h
      rcases mem_insertNew.mp hx with hx | ⟨rfl, -⟩
      · exact .inl hx
      · exact .inr (hasGroup_iff.mpr (Bool.and_eq_true_iff.mp hkeys).1)
    · cases h

/-- The loop of a sync keeps the references of memberships. -/
theorem foldlM_insertMember_hasGroup {ms : List GroupMember}
    (h : ms.foldlM (fun db m => insertMember m db) db = .ok db')
    (hdb : ∀ m ∈ db.members, db.HasGroup m.groupId) :
    ∀ m ∈ db'.members, db'.HasGroup m.groupId := by
  induction ms generalizing db with
  | nil =>
    obtain rfl := Except.ok.inj h
    exact hdb
  | cons m ms ih =>
    obtain ⟨db₁, hins, h⟩ := bind_eq_ok h
    refine ih h fun x hx => ?_
    have hgroups : db₁.groups = db.groups := by rw [insertMember_ok hins]
    unfold HasGroup
    rw [hgroups]
    rcases insertMember_hasGroup hins hx with hx | hgroup
    · exact hdb x hx
    · exact hgroup

/-- A pending membership that is added is of a stored group. -/
theorem addPending_hasGroup {m : GroupMember} {u : Unit} {p : PendingMembership}
    (h : db.addPending m = .ok (u, db')) (hp : p ∈ db'.pendingMemberships) :
    p ∈ db.pendingMemberships ∨ db.HasGroup p.groupId := by
  unfold addPending at h
  dsimp only at h
  split at h
  · obtain rfl := state_of_ok h
    exact .inl hp
  · split at h
    · cases h
    · split at h
      · next hkeys =>
        obtain rfl := state_of_ok h
        rcases mem_insertNew.mp hp with hp | ⟨rfl, -⟩
        · left
          exact (mem_deleteWhere.mp (mem_deleteWhere.mp hp).1).1
        · exact .inr (hasGroup_iff.mpr (Bool.and_eq_true_iff.mp hkeys).1)
      · cases h

end Db

namespace Query

/-- Groups are never deleted. -/
theorem hasGroup (hrun : q.run db = .ok (b, db')) (h : db.HasGroup g) : db'.HasGroup g := by
  obtain ⟨row, hrow, hid⟩ := h
  cases hq : q.advancesEpoch with
  | false => exact ⟨row, (frame hrun).groups hq row hrow, hid⟩
  | true =>
    cases q with
    | commitEpochAndSave g' expected e =>
      obtain ⟨-, rfl⟩ | ⟨-, -, -, rfl⟩ := commitEpochAndSave_ok hrun
      · exact ⟨row, hrow, hid⟩
      · refine ⟨_, mem_setEpoch.mpr ⟨row, hrow, rfl⟩, ?_⟩
        split <;> exact hid
    | _ => exact absurd hq (by simp [advancesEpoch])

/-- A pending membership was there before, or is of a stored group. -/
theorem pending_hasGroup {p : PendingMembership} (hrun : q.run db = .ok (b, db'))
    (hp : p ∈ db'.pendingMemberships) : p ∈ db.pendingMemberships ∨ db.HasGroup p.groupId := by
  cases hq : q.addsPending with
  | false => exact .inl ((frames hrun).2.pending hq p hp)
  | true =>
    cases q with
    | addPending m => exact addPending_hasGroup hrun hp
    | _ => exact absurd hq (by simp [addsPending])

/-- Every transaction keeps the references to groups. -/
theorem referential (hrun : q.run db = .ok (b, db')) (h : db.Referential) : db'.Referential := by
  have hkept : ∀ {g}, db.HasGroup g → db'.HasGroup g := fun hg => hasGroup hrun hg
  constructor
  · intro m hm
    cases hq : q.insertsMember with
    | false => exact hkept (h.members m ((frame hrun).members hq m hm))
    | true =>
      cases q with
      | createWithCreator group creator =>
        obtain ⟨-, rfl, -⟩ | ⟨-, -, rfl⟩ := createWithCreator_ok hrun
        · exact h.members m hm
        · rcases mem_insertNew.mp hm with hm | ⟨rfl, -⟩
          · exact hkept (h.members m hm)
          · exact hasGroup_insertNew (.inr rfl)
      | acceptPending g' d' =>
        obtain rfl : (db.acceptPending g' d').2 = db' := state_of_ok hrun
        by_cases hold : m ∈ db.members
        · exact hkept (h.members m hold)
        · have hgroup : db.HasGroup m.groupId := by
            unfold Db.acceptPending at hm
            split at hm
            · exact absurd hm hold
            · next p hp =>
              split at hm
              · exact absurd hm hold
              · rcases mem_insertNew.mp hm with hm | ⟨rfl, -⟩
                · exact absurd hm hold
                · obtain ⟨hpending, hkey⟩ := find?_eq_some.mp hp
                  obtain rfl : p.groupId = g' := congrArg Prod.fst hkey
                  exact h.pending p hpending
          exact hkept hgroup
      | upsertMembers group ms =>
        obtain ⟨db₁, hfold, hdb⟩ := bind_eq_ok hrun
        obtain rfl := state_of_ok hdb
        refine foldlM_insertMember_hasGroup hfold (fun x hx => ?_) m hm
        exact hasGroup_insertNew (.inl (h.members x hx))
      | _ => exact absurd hq (by simp [insertsMember])
  · intro p hp
    by_cases hold : p ∈ db.pendingMemberships
    · exact hkept (h.pending p hold)
    · exact hkept ((pending_hasGroup hrun hp).resolve_left hold)

end Query

end Powehi.Server
