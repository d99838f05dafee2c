import Powehi.Semantics.Trace
import Powehi.Semantics.Fallible
import Powehi.Server.Database

/-!
# Pending memberships

An added device waits in the table of pending memberships until it accepts. Expired rows are purged
in bounded batches by later additions, and a device that has too many rows loses the oldest ones.
So no run of additions, acceptances, refusals and removals fills the table beyond its caps.

Whether a device is already pending is asked without regard to expiry. If the purge left the
device's own row behind, the addition reports success, and the row can no longer be accepted.
-/

namespace Powehi.Server

open List Semantics Db

/-- A call on the tables of active and pending members. -/
inductive PendingCall
  | add (m : GroupMember)
  | accept (groupId : GroupId) (deviceId : DeviceId)
  | decline (groupId : GroupId) (deviceId : DeviceId)
  | remove (groupId : GroupId) (deviceId : DeviceId)

/-- What a call leaves behind. One that fails changes nothing. -/
def PendingCall.run (db : Db) : PendingCall → Db
  | .add m => match db.addPending m with
    | .ok r => r.2
    | .error _ => db
  | .accept g d => (db.acceptPending g d).2
  | .decline g d => (db.declinePending g d).2
  | .remove g d => db.removeMember g d

/-- The tables at a later time. -/
def Db.atTime (t : Time) (db : Db) : Db := { db with now := t }

/-- A call at its time, which is never before that of an earlier call. -/
def PendingStep (db : Db) (e : Time × PendingCall) (db' : Db) : Prop :=
  db.now ≤ e.1 ∧ db' = e.2.run (db.atTime e.1)

/-! ### The caps -/

/-- The pending rows of a device, expired ones included. -/
def Db.pendingOf (db : Db) (d : DeviceId) : List PendingMembership :=
  db.pendingMemberships.rows.filter (·.deviceId = d)

/-- The pending rows of a group that can still be accepted. -/
def Db.unexpiredIn (db : Db) (g : GroupId) : List PendingMembership :=
  db.pendingMemberships.rows.filter fun p => p.groupId = g && !db.expired p

/-- The pending rows that can no longer be accepted. -/
def Db.expiredRows (db : Db) : List PendingMembership :=
  db.pendingMemberships.rows.filter db.expired

structure Db.PendingBounded (db : Db) : Prop where
  device : ∀ d, (db.pendingOf d).length ≤ Db.pendingMembershipMaxPerDevice
  group : ∀ g, (db.unexpiredIn g).length ≤ Db.pendingMembershipMaxPerGroup

variable {db db' : Db} {m : GroupMember}

/-- Rows that go and time that passes lower the counts. -/
theorem Db.PendingBounded.of_sublist (h : db.PendingBounded)
    (hrows : db'.pendingMemberships.rows <+ db.pendingMemberships.rows) (hnow : db.now ≤ db'.now) :
    db'.PendingBounded where
  device d := (hrows.filter _).length_le.trans (h.device d)
  group g := by
    refine le_trans ?_ (h.group g)
    calc (db'.unexpiredIn g).length
        ≤ (db'.pendingMemberships.rows.filter fun p => p.groupId = g && !db.expired p).length := by
          refine (monotone_filter_right _ fun p hp => ?_).length_le
          simp only [Bool.and_eq_true, Bool.not_eq_true', expired, decide_eq_false_iff_not,
            not_lt] at hp ⊢
          exact ⟨hp.1, hnow.trans hp.2⟩
      _ ≤ (db.unexpiredIn g).length := (hrows.filter _).length_le

/-- Without the rows from the `n`-th on, at most `n` are left. -/
theorem length_filter_not_mem_drop {α : Type} [DecidableEq α] (l : List α) (n : ℕ) :
    (l.filter fun x => !decide (x ∈ l.drop n)).length ≤ n := by
  have hdrop : (l.drop n).filter (fun x => !decide (x ∈ l.drop n)) = [] := by
    rw [filter_eq_nil_iff]
    intro x hx
    simp [hx]
  calc (l.filter fun x => !decide (x ∈ l.drop n)).length
      = ((l.take n ++ l.drop n).filter fun x => !decide (x ∈ l.drop n)).length := by
        rw [take_append_drop]
    _ = ((l.take n).filter fun x => !decide (x ∈ l.drop n)).length := by
        rw [filter_append, hdrop, append_nil]
    _ ≤ n := (length_filter_le _ _).trans (length_take_le _ _)

/-- An eviction makes room for one more row of the device. -/
theorem length_pendingOf_evictPending (db : Db) (d : DeviceId) :
    ((db.evictPending d).pendingOf d).length < pendingMembershipMaxPerDevice := by
  let rows := (db.pendingOf d).insertionSort (·.createdAt ≥ ·.createdAt)
  have hperm : rows.Perm (db.pendingOf d) := perm_insertionSort _ _
  have hleft : (db.evictPending d).pendingOf d = (db.pendingOf d).filter fun p =>
      !decide (p ∈ rows.drop (pendingMembershipMaxPerDevice - 1)) := by
    change filter _ (filter _ _) = filter _ (filter _ _)
    rw [filter_comm]
    rfl
  rw [hleft, ← (hperm.filter _).length_eq]
  have := length_filter_not_mem_drop rows (pendingMembershipMaxPerDevice - 1)
  exact Nat.lt_of_le_of_lt this (by decide)

theorem rows_insertNew_sublist {ρ κ : Type} {key : ρ → κ} [DecidableEq κ] (t : Table key) (r : ρ) :
    (t.insertNew r).rows <+ t.rows ++ [r] := by
  unfold Table.insertNew
  split
  · exact sublist_append_left _ _
  · exact .refl _

/-- What an addition does when it succeeds. -/
theorem addPending_cases (h : db.addPending m = .ok ((), db')) :
    ((db.isMember m.groupId m.deviceId = true ∨
        ∃ p ∈ db.purgePending.pendingMemberships, p.key = (m.groupId, m.deviceId)) ∧ db' = db) ∨
      (db.purgePending.pendingMemberships.find? (m.groupId, m.deviceId) = none ∧
        (db.purgePending.unexpiredIn m.groupId).length < pendingMembershipMaxPerGroup ∧
        db' = { db.purgePending.evictPending m.deviceId with
          pendingMemberships :=
            (db.purgePending.evictPending m.deviceId).pendingMemberships.insertNew
            ⟨m.groupId, m.deviceId, m.joinedAtEpoch, db.now⟩ }) := by
  unfold addPending at h
  dsimp only at h
  split at h
  · next hearly =>
    obtain rfl := state_of_ok h
    refine .inl ⟨?_, rfl⟩
    rw [Bool.or_eq_true, Option.isSome_iff_exists] at hearly
    exact hearly.imp_right (.imp fun _ => Table.find?_eq_some.mp)
  · next hnew =>
    rw [Bool.not_eq_true, Bool.or_eq_false_iff, Option.isSome_eq_false_iff,
      Option.isNone_iff_eq_none] at hnew
    split at h
    · cases h
    · next hroom =>
      split at h
      · exact .inr ⟨hnew.2, not_le.mp hroom, (state_of_ok h).symm⟩
      · cases h

theorem purgePending_sublist (db : Db) :
    db.purgePending.pendingMemberships.rows <+ db.pendingMemberships.rows := filter_sublist

theorem addPending_bounded (hb : db.PendingBounded) (h : db.addPending m = .ok ((), db')) :
    db'.PendingBounded := by
  obtain ⟨-, rfl⟩ | ⟨-, hroom, rfl⟩ := addPending_cases h
  · exact hb
  · have hevicted : ((db.purgePending.evictPending m.deviceId)).PendingBounded :=
      hb.of_sublist (filter_sublist.trans (purgePending_sublist db)) le_rfl
    have hrows := rows_insertNew_sublist
      (db.purgePending.evictPending m.deviceId).pendingMemberships
      ⟨m.groupId, m.deviceId, m.joinedAtEpoch, db.now⟩
    constructor
    · intro d
      refine (hrows.filter _).length_le.trans ?_
      rw [filter_append, length_append]
      by_cases hd : m.deviceId = d
      · subst hd
        rw [filter_cons_of_pos (by simp), filter_nil]
        exact length_pendingOf_evictPending _ _
      · rw [filter_cons_of_neg (by simpa using hd), filter_nil]
        exact hevicted.device d
    · intro g
      refine (hrows.filter _).length_le.trans ?_
      rw [filter_append, length_append]
      by_cases hg : m.groupId = g
      · subst hg
        have hkept : ((db.purgePending.evictPending m.deviceId).unexpiredIn m.groupId).length ≤
            (db.purgePending.unexpiredIn m.groupId).length :=
          (filter_sublist.filter _).length_le
        have hone := length_filter_le (fun p : PendingMembership => p.groupId = m.groupId &&
          !(db.purgePending.evictPending m.deviceId).expired p)
          [⟨m.groupId, m.deviceId, m.joinedAtEpoch, db.now⟩]
        exact (Nat.add_le_add hkept hone).trans hroom
      · rw [filter_cons_of_neg (by simp [hg]), filter_nil]
        exact hevicted.group g

theorem pendingStep_bounded {e : Time × PendingCall} (h : PendingStep db e db')
    (hb : db.PendingBounded) : db'.PendingBounded := by
  obtain ⟨hnow, rfl⟩ := h
  have hlater : (db.atTime e.1).PendingBounded := hb.of_sublist (.refl _) hnow
  cases e.2 with
  | add m =>
    rw [PendingCall.run]
    split
    · next r hr => exact addPending_bounded hlater hr
    · exact hlater
  | accept g d =>
    rw [PendingCall.run, acceptPending]
    split
    · exact hlater
    · split
      · exact hlater
      · exact hlater.of_sublist filter_sublist le_rfl
  | decline _ _ | remove _ _ => exact hlater.of_sublist filter_sublist le_rfl

/-! ### What success means -/

/-- A small number of expired rows is purged completely. -/
theorem expired_of_mem_purgePending {p : PendingMembership}
    (hfew : db.expiredRows.length ≤ pendingMembershipPurgeBatch)
    (hp : p ∈ db.purgePending.pendingMemberships) :
    p ∈ db.pendingMemberships ∧ db.expired p = false := by
  obtain ⟨hmem, hkept⟩ := Table.mem_deleteWhere.mp hp
  refine ⟨hmem, Bool.eq_false_iff.mpr fun hexp => ?_⟩
  rw [decide_eq_false_iff_not] at hkept
  have hall : db.expiredRows.take pendingMembershipPurgeBatch = db.expiredRows :=
    take_of_length_le hfew
  exact hkept (hall ▸ mem_filter.mpr ⟨hmem, hexp⟩)

/-- A pending row that is not expired is accepted, unless the device is a member already. -/
theorem acceptPending_of_mem {p : PendingMembership} {g : GroupId} {d : DeviceId}
    (hp : p ∈ db.pendingMemberships) (hkey : p.key = (g, d)) (hfresh : db.expired p = false) :
    db.isMember g d = true ∨ (db.acceptPending g d).1 = true := by
  unfold acceptPending
  rw [Table.find?_eq_some.mpr ⟨hp, hkey⟩]
  cases db.isMember g d <;> simp [hfresh]

theorem addPending_works (hfew : db.expiredRows.length ≤ pendingMembershipPurgeBatch)
    (h : db.addPending m = .ok ((), db')) : db'.isMember m.groupId m.deviceId = true ∨
      (db'.acceptPending m.groupId m.deviceId).1 = true := by
  obtain ⟨hmember | ⟨p, hp, hkey⟩, rfl⟩ | ⟨hnone, -, rfl⟩ := addPending_cases h
  · exact .inl hmember
  · obtain ⟨hmem, hfresh⟩ := expired_of_mem_purgePending hfew hp
    exact acceptPending_of_mem hmem hkey hfresh
  · have hgone : (db.purgePending.evictPending m.deviceId).pendingMemberships.find?
        (m.groupId, m.deviceId) = none :=
      Table.find?_eq_none.mpr fun r hr =>
        Table.find?_eq_none.mp hnone r (Table.mem_deleteWhere.mp hr).1
    refine acceptPending_of_mem (Table.mem_insertNew.mpr (.inr ⟨rfl, hgone⟩)) rfl ?_
    exact decide_eq_false (not_lt.mpr (Nat.le_add_right _ _))

/-- The tables stay within their caps at all times, and an addition that succeeds while at most one
batch of rows is expired leaves the device a member, or with a row it can accept. -/
theorem pending_bounded_and_acceptable {db₀ : Db} {es : List (Time × PendingCall)}
    (hpending : db₀.pendingMemberships = ∅) (hrun : Steps PendingStep db₀ es db) {t : Time}
    (ht : db.now ≤ t) :
    (∀ d, ((db.atTime t).pendingOf d).length ≤ Db.pendingMembershipMaxPerDevice) ∧
      (∀ g, ((db.atTime t).unexpiredIn g).length ≤ Db.pendingMembershipMaxPerGroup) ∧
      ((db.atTime t).expiredRows.length ≤ Db.pendingMembershipPurgeBatch → ∀ m db',
        (db.atTime t).addPending m = .ok ((), db') →
        db'.isMember m.groupId m.deviceId = true ∨
          (db'.acceptPending m.groupId m.deviceId).1 = true) := by
  have hempty : db₀.PendingBounded := by
    constructor <;> intro _ <;>
      simp [Db.pendingOf, Db.unexpiredIn, hpending, EmptyCollection.emptyCollection]
  have hb : db.PendingBounded :=
    hrun.invariant (fun _ _ _ hstep hb => pendingStep_bounded hstep hb) hempty
  have hlater : (db.atTime t).PendingBounded := hb.of_sublist (.refl _) ht
  exact ⟨hlater.device, hlater.group, fun hfew m db' hadd => addPending_works hfew hadd⟩

/-! ### More expired rows than one batch -/

/-- The step a call takes, if time allows it. -/
def PendingCall.next? (db : Db) (e : Time × PendingCall) : Option Db :=
  if db.now ≤ e.1 then some (e.2.run (db.atTime e.1)) else none

theorem PendingCall.step_of_next? {e : Time × PendingCall} (h : next? db e = some db') :
    PendingStep db e db' := by
  unfold next? at h
  split at h
  · next hnow => exact ⟨hnow, (Option.some.inj h).symm⟩
  · cases h

/-- A computed run, and what one more addition answers after it. -/
theorem PendingCall.exists_added (db : Db) (es : List (Time × PendingCall)) (t : Time)
    (m : GroupMember) (goal : Db → Db → Bool)
    (h : (playIf next? (fun _ _ _ => true) db es).any (fun u => u.now ≤ t ∧
      ∃ r ∈ ((u.atTime t).addPending m).toOption, goal u r.2) = true) :
    ∃ u u', Steps PendingStep db es u ∧ u.now ≤ t ∧ (u.atTime t).addPending m = .ok ((), u') ∧
      goal u u' = true := by
  have hsound : ∀ s e s', next? s e = some s' → true = true → PendingStep s e s' :=
    fun _ _ _ hnext _ => step_of_next? hnext
  obtain ⟨u, hrun, hnow, r, hadd, hgoal⟩ := exists_steps_of_playIf hsound h
  exact ⟨u, r.2, hrun, hnow, eq_ok_of_toOption hadd, hgoal⟩

/-- A group and the devices `0` to `n - 1`. -/
def Sample.crowd (n : ℕ) : Db :=
  { Db.empty with
    groups := (∅ : Table Group.id).insertNew (.new 1 "eu" 0)
    devices := (range n).foldl (fun t d => t.insertNew ⟨d, 1, []⟩) ∅ }

/-- Every device is added to the group. -/
def Sample.additions (n : ℕ) : List (Time × PendingCall) :=
  (range n).map fun d => (0, .add ⟨1, d, 0⟩)

open Sample

/-- A device is added again after its row expired. -/
theorem pending_bounded_and_acceptable_sample : ∃ db db' : Db,
    Steps PendingStep (crowd 2) (additions 2) db ∧
      (db.atTime (days 8)).expiredRows.length = 2 ∧
      (db.atTime (days 8)).addPending ⟨1, 0, 0⟩ = .ok ((), db') ∧
      (db'.isMember 1 0 = true ∨ (db'.acceptPending 1 0).1 = true) := by
  obtain ⟨db, db', hrun, hnow, hadd, hgoal⟩ := PendingCall.exists_added
    (crowd 2) (additions 2) (days 8) ⟨1, 0, 0⟩
    (fun u _ => (u.atTime (days 8)).expiredRows.length == 2) (by decide +kernel)
  have hlen := eq_of_beq hgoal
  exact ⟨db, db', hrun, hlen, hadd, (pending_bounded_and_acceptable rfl hrun hnow).2.2
    (by rw [hlen]; decide) _ _ hadd⟩

/-- One row more than a batch, so that one survives whichever rows are purged. Here it is that of
the last device, which is added again after its row expired: the call succeeds without leaving
anything the device can accept. -/
theorem expired_row_survives_purge : ∃ db db' : Db,
    (crowd 101).members = ∅ ∧ (crowd 101).pendingMemberships = ∅ ∧
      Steps PendingStep (crowd 101) (additions 101) db ∧ db.now ≤ days 8 ∧
      (∀ batch : List PendingMembership, batch.length ≤ Db.pendingMembershipPurgeBatch →
        ∃ p ∈ (db.atTime (days 8)).expiredRows, p ∉ batch) ∧
      (db.atTime (days 8)).addPending ⟨1, 100, 0⟩ = .ok ((), db') ∧
      db'.isMember 1 100 = false ∧ (db'.acceptPending 1 100).1 = false := by
  obtain ⟨db, db', hrun, hnow, hadd, hgoal⟩ := PendingCall.exists_added
    (crowd 101) (additions 101) (days 8) ⟨1, 100, 0⟩
    (fun db u => decide ((db.atTime (days 8)).expiredRows.length = 101) && !u.isMember 1 100 &&
      !(u.acceptPending 1 100).1) (by decide +kernel)
  simp only [Bool.and_eq_true, Bool.not_eq_true', decide_eq_true_eq] at hgoal
  obtain ⟨⟨hlength, hmember⟩, haccept⟩ := hgoal
  refine ⟨db, db', rfl, rfl, hrun, hnow, fun batch hbatch => ?_, hadd, hmember, haccept⟩
  by_contra hall
  push Not at hall
  have hnodup : (db.atTime (days 8)).expiredRows.Nodup :=
    (Nodup.of_map _ (db.atTime (days 8)).pendingMemberships.unique).filter _
  have := (hnodup.subperm hall).length_le
  rw [hlength] at this
  exact absurd (this.trans hbatch) (by decide)

end Powehi.Server
