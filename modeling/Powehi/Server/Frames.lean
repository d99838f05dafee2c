import Powehi.Server.Repository
import Powehi.Semantics.Fallible

/-!
# What a transaction changes

One lemma per transaction that can fail: the tables it leaves behind when it commits. From these
follow the frame conditions, each stated once for all repository methods: which of them can insert
an envelope, a member or an ack, and which can change the row of a group.
-/

namespace Powehi.Server

open Codec Semantics List Table

namespace Db

variable {db db' : Db}

/-! ### Inversion -/

theorem isMember_iff {g : GroupId} {d : DeviceId} :
    db.isMember g d = true ↔ ∃ m ∈ db.members, m.groupId = g ∧ m.deviceId = d := by
  rw [isMember, Option.isSome_iff_exists]
  simp only [find?_eq_some, GroupMember.key, Prod.mk.injEq]

theorem insertMember_ok {m : GroupMember} (h : db.insertMember m = .ok db') :
    db' = { db with members := db.members.insertNew m } := by
  unfold insertMember at h
  split at h
  · next hm =>
    have hsome : (db.members.find? m.key).isSome := hm
    cases h
    simp [insertNew, hsome]
  · split at h
    · exact (Except.ok.inj h).symm
    · cases h

theorem createWithCreator_ok {group : Group} {creator : GroupMember} {b : Bool}
    (h : db.createWithCreator group creator = .ok (b, db')) :
    (b = false ∧ db' = db ∧ (db.groups.find? group.id).isSome) ∨
    (b = true ∧ db.groups.find? group.id = none ∧
      db' = { db with
        groups := db.groups.insertNew group
        members := db.members.insertNew ⟨group.id, creator.deviceId, creator.joinedAtEpoch⟩ }) := by
  unfold createWithCreator at h
  split at h
  · next hsome =>
    obtain ⟨rfl, rfl⟩ := Prod.mk.inj (Except.ok.inj h)
    exact .inl ⟨rfl, rfl, hsome⟩
  · next hnone =>
    obtain ⟨db₁, hins, h⟩ := bind_eq_ok h
    obtain ⟨rfl, rfl⟩ := Prod.mk.inj (Except.ok.inj h)
    exact .inr ⟨rfl, Option.not_isSome_iff_eq_none.mp hnone, insertMember_ok hins⟩

theorem addPending_ok {m : GroupMember} {u : Unit} (h : db.addPending m = .ok (u, db')) :
    ∃ pendingMemberships, db' = { db with pendingMemberships } := by
  unfold addPending at h
  dsimp only at h
  split at h
  · cases h
    exact ⟨_, rfl⟩
  · split at h
    · cases h
    · split at h
      · cases h
        exact ⟨_, rfl⟩
      · cases h

/-- A sync inserts the listed memberships, and the group row if there is none. -/
theorem upsertMembers_ok {group : Group} {ms : List GroupMember} {u : Unit}
    (h : db.upsertMembers group ms = .ok (u, db')) :
    ∃ members, db' = { db with groups := db.groups.insertNew group, members } ∧
      (∀ m ∈ db.members, m ∈ members) ∧ ∀ m ∈ members, m ∈ db.members ∨ m ∈ ms := by
  -- the loop only changes the members, row by row
  have hloop : ∀ (ms : List GroupMember) (d d' : Db),
      ms.foldlM (fun d m => Db.insertMember m d) d = .ok d' →
      ∃ members, d' = { d with members } ∧ (∀ m ∈ d.members, m ∈ members) ∧
        ∀ m ∈ members, m ∈ d.members ∨ m ∈ ms := by
    intro ms
    induction ms with
    | nil =>
      intro d d' hd
      obtain rfl := Except.ok.inj hd
      exact ⟨d.members, rfl, fun m hm => hm, fun m hm => .inl hm⟩
    | cons m ms ih =>
      intro d d' hd
      obtain ⟨d₁, hins, hd⟩ := bind_eq_ok hd
      obtain ⟨members, rfl, hkept, hnew⟩ := ih d₁ d' hd
      obtain rfl := insertMember_ok hins
      refine ⟨members, rfl, fun x hx => hkept x (mem_insertNew.mpr (.inl hx)), ?_⟩
      intro x hx
      rcases hnew x hx with hx | hx
      · rcases mem_insertNew.mp hx with hx | ⟨rfl, -⟩
        · exact .inl hx
        · exact .inr mem_cons_self
      · exact .inr (mem_cons_of_mem _ hx)
  unfold upsertMembers at h
  obtain ⟨db₁, hfold, h⟩ := bind_eq_ok h
  obtain rfl := state_of_ok h
  exact hloop ms _ _ hfold

theorem commitEpochAndSave_ok {g : GroupId} {expected : Epoch} {e : Envelope} {r : Option Epoch}
    (h : db.commitEpochAndSave g expected e = .ok (r, db')) :
    (r = none ∧ db' = db) ∨
    (r = some (expected + 1) ∧ db.envelopes.find? e.id = none ∧
      (∃ row ∈ db.groups, row.id = g ∧ row.epoch = expected) ∧
      db' = (db.setEpoch g (expected + 1)).saveEnvelope
        { e with epoch := some (expected + 1) }) := by
  unfold commitEpochAndSave at h
  split at h
  · cases h
  · split at h
    · cases h
      exact .inl ⟨rfl, rfl⟩
    · next row hrow =>
      split at h
      · cases h
        exact .inl ⟨rfl, rfl⟩
      · next hepoch =>
        obtain rfl : row.epoch = expected := not_not.mp hepoch
        split at h
        · cases h
        · split at h
          · cases h
          · next hfree =>
            obtain ⟨rfl, rfl⟩ := Prod.mk.inj (Except.ok.inj h)
            obtain ⟨hmem, hid⟩ := find?_eq_some.mp hrow
            exact .inr ⟨rfl, Option.not_isSome_iff_eq_none.mp hfree, ⟨row, hmem, hid, rfl⟩, rfl⟩

theorem mem_setEpoch {g : GroupId} {n : Epoch} {row : Group} :
    row ∈ (db.setEpoch g n).groups ↔
      ∃ r ∈ db.groups, (if r.id = g then { r with epoch := n } else r) = row := by
  unfold setEpoch
  simp only [mem_update, decide_eq_true_eq]

theorem insertAck_ok {a : EnvelopeAck} (h : db.insertAck a = .ok db') :
    db' = { db with acks := db.acks.insertNew a } := by
  unfold insertAck at h
  split at h
  · next hsome =>
    cases h
    simp [insertNew, hsome]
  · split at h
    · exact (Except.ok.inj h).symm
    · cases h

/-- An ack is recorded; the envelope goes only if every listed device has acked it by then. -/
theorem ackBroadcast_ok {id : EnvelopeId} {d : DeviceId} {ms : List DeviceId} {u : Unit}
    (h : db.ackBroadcast id d ms = .ok (u, db')) :
    ∃ db₁ : Db, db₁ = { db with acks := db.acks.insertNew ⟨id, d⟩ } ∧
      (db' = db₁ ∨ (db' = db₁.deleteEnvelope id ∧ db₁.ackedByAll id ms = true)) := by
  obtain ⟨db₁, hack, h⟩ := bind_eq_ok h
  refine ⟨db₁, insertAck_ok hack, ?_⟩
  split at h
  · next hall =>
    cases h
    exact .inr ⟨rfl, hall⟩
  · cases h
    exact .inl rfl

theorem saveUser_ok {x : User} {u : Unit} (h : db.saveUser x = .ok (u, db')) :
    ∃ users, db' = { db with users } := by
  unfold saveUser at h
  split at h
  · cases h
  · split at h <;>
    · cases h
      exact ⟨_, rfl⟩

theorem saveDevice_ok {x : Device} {u : Unit} (h : db.saveDevice x = .ok (u, db')) :
    ∃ devices, db' = { db with devices } := by
  unfold saveDevice at h
  split at h
  · cases h
    exact ⟨_, rfl⟩
  · split at h
    · cases h
      exact ⟨_, rfl⟩
    · cases h

end Db

/-! ### Frame conditions -/

namespace Query

variable {β : Type}

/-- The method can insert an envelope. -/
def insertsEnvelope : Query β → Bool
  | .saveEnvelope _ => true
  | .commitEpochAndSave _ _ _ => true
  | _ => false

/-- The method can delete an envelope. -/
def dropsEnvelope : Query β → Bool
  | .deleteEnvelope _ => true
  | .deleteExpired => true
  | .ackBroadcast _ _ _ => true
  | _ => false

/-- The method can change the row of a group. -/
def advancesEpoch : Query β → Bool
  | .commitEpochAndSave _ _ _ => true
  | _ => false

/-- The method can make a device a member. -/
def insertsMember : Query β → Bool
  | .createWithCreator _ _ => true
  | .acceptPending _ _ => true
  | .upsertMembers _ _ => true
  | _ => false

/-- The method can end a membership. -/
def dropsMember : Query β → Bool
  | .removeMember _ _ => true
  | .deleteDevice _ => true
  | _ => false

/-- The method can add a pending membership. -/
def addsPending : Query β → Bool
  | .addPending _ => true
  | _ => false

/-- The method can record an ack. -/
def insertsAck : Query β → Bool
  | .ackBroadcast _ _ _ => true
  | _ => false

/-- What a transaction leaves alone, unless it is one of the few methods meant to change it. -/
structure Frame (q : Query β) (db db' : Db) : Prop where
  now : db'.now = db.now
  groups : q.advancesEpoch = false → ∀ r ∈ db.groups, r ∈ db'.groups
  inserted : q.insertsEnvelope = false → ∀ e ∈ db'.envelopes, e ∈ db.envelopes
  kept : q.dropsEnvelope = false → ∀ e ∈ db.envelopes, e ∈ db'.envelopes
  members : q.insertsMember = false → ∀ m ∈ db'.members, m ∈ db.members
  acks : q.insertsAck = false → ∀ a ∈ db'.acks, a ∈ db.acks

/-- The same for the seats in a group. -/
structure SeatFrame (q : Query β) (db db' : Db) : Prop where
  kept : q.dropsMember = false → ∀ m ∈ db.members, m ∈ db'.members
  pending : q.addsPending = false → ∀ p ∈ db'.pendingMemberships, p ∈ db.pendingMemberships

theorem frames_refl (q : Query β) (db : Db) : Frame q db db ∧ SeatFrame q db db :=
  ⟨⟨rfl, fun _ _ h => h, fun _ _ h => h, fun _ _ h => h, fun _ _ h => h, fun _ _ h => h⟩,
    ⟨fun _ _ h => h, fun _ _ h => h⟩⟩

theorem frames {q : Query β} {db db' : Db} {b : β} (h : q.run db = .ok (b, db')) :
    Frame q db db' ∧ SeatFrame q db db' := by
  cases q with
  | createWithCreator group creator =>
    obtain ⟨-, rfl, -⟩ | ⟨-, -, rfl⟩ := Db.createWithCreator_ok h
    · exact frames_refl _ _
    · constructor <;> constructor <;> simp +contextual [insertsMember]
  | addPending m =>
    obtain ⟨pending, rfl⟩ := Db.addPending_ok h
    constructor <;> constructor <;> simp [addsPending]
  | upsertMembers group ms =>
    obtain ⟨members, rfl, hkept, -⟩ := Db.upsertMembers_ok h
    constructor <;> constructor <;> simp +contextual [insertsMember, hkept]
  | ackBroadcast id d ms =>
    obtain ⟨db₁, rfl, rfl | ⟨rfl, -⟩⟩ := Db.ackBroadcast_ok h
    · constructor <;> constructor <;> simp [insertsAck]
    · constructor <;> constructor <;> simp +contextual
      [insertsAck, dropsEnvelope, Db.deleteEnvelope,
        Db.dropEnvelopes]
  | commitEpochAndSave g expected e =>
    obtain ⟨-, rfl⟩ | ⟨-, -, -, rfl⟩ := Db.commitEpochAndSave_ok h
    · exact frames_refl _ _
    · constructor <;> constructor <;> simp +contextual [advancesEpoch, insertsEnvelope, Db.setEpoch,
        Db.saveEnvelope]
  | saveUser u =>
    obtain ⟨users, rfl⟩ := Db.saveUser_ok h
    constructor <;> constructor <;> simp
  | saveDevice d =>
    obtain ⟨devices, rfl⟩ := Db.saveDevice_ok h
    constructor <;> constructor <;> simp
  | acceptPending g d =>
    obtain rfl := congrArg Prod.snd (Except.ok.inj h)
    unfold Db.acceptPending
    split
    · exact frames_refl _ _
    · split
      · exact frames_refl _ _
      · constructor <;> constructor <;> simp +contextual [insertsMember]
  | createPendingRemoval g d =>
    obtain rfl := state_of_ok h
    unfold Db.createPendingRemoval
    split <;> constructor <;> constructor <;> simp
  | deletePendingRemoval g d =>
    obtain rfl := state_of_ok h
    unfold Db.deletePendingRemoval
    split <;> constructor <;> constructor <;> simp
  | fetchOne d =>
    obtain rfl := congrArg Prod.snd (Except.ok.inj h)
    unfold Db.fetchOne
    split <;> constructor <;> constructor <;> simp
  | _ =>
    -- the remaining methods cannot fail, and say outright which tables they leave behind
    obtain rfl := state_of_ok h
    constructor <;> constructor <;> simp +contextual [insertsEnvelope, dropsEnvelope, dropsMember,
      Db.removeMember, Db.saveEnvelope, Db.deleteEnvelope, Db.dropEnvelopes, Db.deleteDevice,
      Db.saveKeyPackage]

theorem frame {q : Query β} {db db' : Db} {b : β} (h : q.run db = .ok (b, db')) :
    Frame q db db' := (frames h).1

end Query

/-! ### The history of envelopes -/

namespace World

variable {w : World} {db : Db}

@[simp] theorem stored_tick (w : World) (elapsed : Time) : (w.tick elapsed).stored = w.stored := rfl

@[simp] theorem db_store (w : World) (db : Db) : (w.store db).db = db := rfl

/-- The rows a transaction added to the history. -/
theorem mem_stored_store {e : Envelope} :
    e ∈ (w.store db).stored ↔
      e ∈ w.stored ∨ (e ∈ db.envelopes ∧ w.db.envelopes.find? e.id = none) := by
  simp [store, mem_append, mem_filter, mem_rows]

/-- A transaction that inserts no envelope adds nothing to the history. -/
theorem stored_store_quiet (h : ∀ e ∈ db.envelopes, e ∈ w.db.envelopes) :
    (w.store db).stored = w.stored := by
  have hnone : (db.envelopes.rows.filter fun e => (w.db.envelopes.find? e.id).isNone) = [] := by
    rw [filter_eq_nil_iff]
    intro e he
    rw [find?_eq_some.mpr ⟨h e he, rfl⟩]
    exact Bool.false_ne_true
  rw [store, hnone, append_nil]

/-- An envelope whose id is free is added to the history. -/
theorem stored_store_insert {e : Envelope} (hdb : db.envelopes = w.db.envelopes.insertNew e)
    (hfree : w.db.envelopes.find? e.id = none) : (w.store db).stored = w.stored ++ [e] := by
  have hrows : db.envelopes.rows = w.db.envelopes.rows ++ [e] := by
    rw [hdb, insertNew, dif_neg (by rw [hfree]; exact Bool.false_ne_true)]
  have hold : (w.db.envelopes.rows.filter fun x => (w.db.envelopes.find? x.id).isNone) = [] := by
    rw [filter_eq_nil_iff]
    intro x hx
    rw [find?_eq_some.mpr ⟨hx, rfl⟩]
    exact Bool.false_ne_true
  rw [store, hrows, filter_append, hold]
  simp [hfree]

/-- The Commit of a won epoch is added to the history under that epoch. -/
theorem stored_store_commit {g : GroupId} {n : Epoch} {e : Envelope}
    (hfree : w.db.envelopes.find? e.id = none) :
    (w.store ((w.db.setEpoch g n).saveEnvelope { e with epoch := some n })).stored =
      w.stored ++ [{ e with epoch := some n }] := stored_store_insert rfl hfree

/-- An envelope is stored, unless its id is taken. -/
theorem stored_store_saveEnvelope (w : World) (e : Envelope) :
    (w.store (w.db.saveEnvelope e)).stored = w.stored ∨
      (w.db.envelopes.find? e.id = none ∧
        (w.store (w.db.saveEnvelope e)).stored = w.stored ++ [e]) := by
  cases hfree : w.db.envelopes.find? e.id with
  | none => exact .inr ⟨rfl, stored_store_insert rfl hfree⟩
  | some x =>
    left
    apply stored_store_quiet
    intro y hy
    rcases mem_insertNew.mp hy with hy | ⟨-, hnone⟩
    · exact hy
    · exact absurd (hfree.symm.trans hnone) (by simp)

end World

end Powehi.Server
