import Powehi.Server.CommitOrder

/-!
# Who becomes a member

A membership row is inserted by three transactions: the creation of a group, the acceptance of a
pending membership, and a membership sync. The first two are bound to the device itself. A sync
is bound to the home region its request claims; the row of a group that is already stored keeps its
home region, and nobody compares the two.

So any peer region can make any device a member of any group, by claiming to be its home. If every
sync of a stored group claims the stored home, a device becomes a member only by its own doing or
by the group's home region.
-/

namespace Powehi.Server

open Codec Semantics Program Sample Db

variable {group : Group} {g : GroupId} {d : DeviceId} {cfg : Config}

/-- The request was entitled to make `d` a member of `g` when it took the tables from `w` to `w'`:
it created the group, or accepted a pending membership that was not expired, or it was a sync by
the region whose certificate names the home region stored for the group, be it by this sync. -/
def Justified (g : GroupId) (d : DeviceId) (w w' : World) : Request → Prop
  | .createGroup creator g' => creator = d ∧ g' = g ∧ ∀ row ∈ w.db.groups, row.id ≠ g
  | .acceptMembership caller g' => caller = d ∧ g' = g ∧
      ∃ p ∈ w.db.pendingMemberships, p.key = (g, d) ∧ w'.db.expired p = false
  | .syncGroupMembership (.certificate (some names)) req => req.groupId = some g ∧
      (∀ row ∈ w.db.groups, row.id = g → namesMatch names row.homeRegion = true) ∧
      ∃ row ∈ w'.db.groups, row.id = g ∧ namesMatch names row.homeRegion = true
  | _ => False

/-- A sync claims the home region that is stored for the group, if the group is stored. -/
def ClaimsStoredHome (w : World) : Request → Prop
  | .syncGroupMembership _ req =>
    ∀ row ∈ w.db.groups, req.groupId = some row.id → row.homeRegion = req.homeRegion
  | _ => True

/-- A sync comes from a peer with a certificate. -/
def Request.Certified : Request → Prop
  | .syncGroupMembership peer _ => ∃ names, peer = .certificate names
  | _ => True

/-! ### One operation -/

theorem acceptPending_isMember {db : Db} {g g' : GroupId} {d d' : DeviceId}
    (hold : db.isMember g d = false) (hnew : (db.acceptPending g' d').2.isMember g d = true) :
    g' = g ∧ d' = d ∧ ∃ p ∈ db.pendingMemberships, p.key = (g, d) ∧ db.expired p = false := by
  unfold acceptPending at hnew
  split at hnew
  · exact absurd (hold.symm.trans hnew) (by decide)
  · next p hp =>
    split at hnew
    · exact absurd (hold.symm.trans hnew) (by decide)
    · next hfresh =>
      obtain ⟨m, hm, hg, hd⟩ := isMember_iff.mp hnew
      rcases Table.mem_insertNew.mp hm with hm | ⟨rfl, -⟩
      · have hmember := isMember_iff.mpr ⟨m, hm, hg, hd⟩
        exact absurd (hold.symm.trans hmember) (by decide)
      · obtain ⟨hp, hkey⟩ := Table.find?_eq_some.mp hp
        obtain rfl : g' = g := hg
        obtain rfl : d' = d := hd
        exact ⟨rfl, rfl, p, hp, hkey, Bool.eq_false_iff.mpr hfresh⟩

theorem createWithCreator_isMember {db db' : Db} {creator : GroupMember} {b : Bool}
    (h : db.createWithCreator group creator = .ok (b, db')) (hold : db.isMember g d = false)
    (hnew : db'.isMember g d = true) :
    group.id = g ∧ creator.deviceId = d ∧ ∀ row ∈ db.groups, row.id ≠ g := by
  obtain ⟨-, rfl, -⟩ | ⟨-, hfree, rfl⟩ := createWithCreator_ok h
  · exact absurd (hold.symm.trans hnew) (by decide)
  · obtain ⟨m, hm, hg, hd⟩ := isMember_iff.mp hnew
    rcases Table.mem_insertNew.mp hm with hm | ⟨rfl, -⟩
    · have hmember := isMember_iff.mpr ⟨m, hm, hg, hd⟩
      exact absurd (hold.symm.trans hmember) (by decide)
    · obtain rfl : group.id = g := hg
      exact ⟨rfl, hd, Table.find?_eq_none.mp hfree⟩

theorem upsertMembers_isMember {db db' : Db} {ms : List GroupMember} {u : Unit}
    (h : db.upsertMembers group ms = .ok (u, db')) (hold : db.isMember g d = false)
    (hnew : db'.isMember g d = true) : ∃ m ∈ ms, m.groupId = g ∧ m.deviceId = d := by
  obtain ⟨members, rfl, -, hms⟩ := upsertMembers_ok h
  obtain ⟨m, hm, hg, hd⟩ := isMember_iff.mp hnew
  rcases hms m hm with hm | hm
  · have hmember := isMember_iff.mpr ⟨m, hm, hg, hd⟩
    exact absurd (hold.symm.trans hmember) (by decide)
  · exact ⟨m, hm, hg, hd⟩

/-- A peer with a certificate that passes the check is named by it. -/
theorem namesMatch_of_verify {names : Option (List String)} {region : RegionId}
    (h : verifyPeerRegion cfg (.certificate names) region = .ok ()) :
    ∃ ns, names = some ns ∧ namesMatch ns region = true := by
  cases names with
  | none => cases h
  | some ns =>
    refine ⟨ns, rfl, ?_⟩
    unfold verifyPeerRegion at h
    dsimp only at h
    split at h
    · assumption
    · cases h

theorem justified_sync {i : Request} {w w' : World} {ms : List GroupMember} {m : GroupMember}
    (ho : i.MaySync cfg group ms) (hi : i.Certified) (hhome : ClaimsStoredHome w i) (hm : m ∈ ms)
    (hg : m.groupId = g) (hgroups : w'.db.groups = w.db.groups.insertNew group) :
    Justified g d w w' i := by
  cases i with
  | syncGroupMembership peer req =>
    obtain ⟨hverify, hid, hregion, -, hms⟩ := ho
    obtain ⟨names, rfl⟩ := hi
    obtain ⟨ns, rfl, hmatch⟩ := namesMatch_of_verify hverify
    obtain rfl : g = group.id := hg ▸ (hms m hm).1
    have hstored : ∀ row ∈ w.db.groups, row.id = group.id →
        namesMatch ns row.homeRegion = true := by
      intro row hrow hrid
      rw [hhome row hrow (hrid ▸ hid)]
      exact hmatch
    refine ⟨hid, hstored, ?_⟩
    rw [hgroups]
    cases hfind : w.db.groups.find? group.id with
    | none => exact ⟨group, Table.mem_insertNew.mpr (.inr ⟨rfl, hfind⟩), rfl, hregion ▸ hmatch⟩
    | some row =>
      obtain ⟨hrow, hrid⟩ := Table.find?_eq_some.mp hfind
      exact ⟨row, Table.mem_insertNew.mpr (.inl hrow), hrid, hstored row hrow hrid⟩
  | _ => exact ho.elim

/-- A device that one operation makes a member is made one by a request that is entitled to it,
provided a sync claims the stored home. -/
theorem justified_exec {i : Request} {ω : Type} {o : Op ω} {c : Choice} {w : World}
    (ho : Request.May cfg i o) (hi : i.Certified) (hhome : ClaimsStoredHome w i)
    (hold : w.db.isMember g d = false) (hnew : (machine.exec o c w).2.db.isMember g d = true) :
    Justified g d w (machine.exec o c w).2 i := by
  cases o with
  | newUuid | utcNow => exact absurd (hold.symm.trans hnew) (by decide)
  | sql q =>
    change (transact q c w).2.db.isMember g d = true at hnew
    change Justified g d w (transact q c w).2 i
    rcases transact_cases q c w with ⟨hw, -⟩ | ⟨b, db, hrun, hw, -⟩
    · rw [hw] at hnew
      exact absurd (hold.symm.trans hnew) (by decide)
    · rw [hw] at hnew
      rw [hw]
      cases hq : q.insertsMember with
      | false =>
        obtain ⟨m, hm, hgd⟩ := isMember_iff.mp hnew
        have hmember := isMember_iff.mpr ⟨m, (Query.frame hrun).members hq m hm, hgd⟩
        exact absurd (hold.symm.trans hmember) (by decide)
      | true =>
        cases q with
        | createWithCreator group creator =>
          obtain ⟨d', g', now, rfl, rfl, rfl⟩ := ho
          obtain ⟨hg, hd, hfree⟩ := createWithCreator_isMember hrun hold hnew
          exact ⟨hd, hg, hfree⟩
        | acceptPending g' d' =>
          obtain rfl : i = .acceptMembership d' g' := ho
          obtain rfl : ((w.tick c.elapsed).db.acceptPending g' d').2 = db := state_of_ok hrun
          replace hold : (w.tick c.elapsed).db.isMember g d = false := hold
          obtain ⟨hg, hd, p, hp, hkey, hfresh⟩ := acceptPending_isMember hold hnew
          refine ⟨hd, hg, p, hp, hkey, ?_⟩
          rw [World.db_store, expired, (Query.frame hrun).now]
          exact hfresh
        | upsertMembers group ms =>
          obtain ⟨m, hm, hg, -⟩ := upsertMembers_isMember hrun hold hnew
          obtain ⟨_, rfl, -, -⟩ := upsertMembers_ok hrun
          exact justified_sync ho hi hhome hm hg rfl
        | _ => exact absurd hq (by simp [Query.insertsMember])

/-! ### Every run -/

/-- Serve any requests in any interleaving and with any failures of the database, where syncs come
from peers with a certificate. If no sync of a stored group claims another home region than the
stored one, then every device that was not a member at the start and is one at the end was made
one by some operation, and every operation that makes a device a member is entitled to it. -/
theorem membership_justified {cfg : Config} {w₀ : World} {es : List (Turn Request Choice)}
    {p : Pool Request Op Failure Response World}
    (hrun : Steps (Pool.Step machine Pool.Unrestricted (serve cfg)) ⟨w₀, []⟩ es p)
    (hes : ∀ e ∈ es, e.Starts Request.Certified)
    (hhome : ∀ c ∈ p.calls, ∀ st ∈ c.own, ClaimsStoredHome st.1 c.request)
    (g : GroupId) (d : DeviceId) :
    (∀ c ∈ p.calls, ∀ st ∈ c.own, st.1.db.isMember g d = false → st.2.db.isMember g d = true →
      Justified g d st.1 st.2 c.request) ∧
    (w₀.db.isMember g d = false → p.shared.db.isMember g d = true →
      ∃ c ∈ p.calls, ∃ st ∈ c.own, st.1.db.isMember g d = false ∧
        st.2.db.isMember g d = true) := by
  constructor
  · intro c hc st hst hold hnew
    obtain ⟨ω, o, ch, ho, -, hexec⟩ := Pool.own_uses (fun i _ => serve_uses cfg i) hrun
      (Pool.starts_true es) (by simp) (by simp) c hc st hst
    have hi := Pool.request_run hrun hes (by simp) c hc
    rw [hexec] at hnew ⊢
    exact justified_exec ho hi (hhome c hc st hst) hold hnew
  · intro hold hnew
    obtain ⟨c, hc, st, hst, hbefore, hafter⟩ := Pool.exists_own_of_change
      (P := fun w : World => w.db.isMember g d = true) hrun hnew (by simp [hold])
    exact ⟨c, hc, st, hst, Bool.eq_false_iff.mpr hbefore, hafter⟩

/-! ### A foreign region -/

/-- A peer that shows the certificate of a region, and claims it as the home of the group. -/
def Sample.sync (region : RegionId) : Request :=
  .syncGroupMembership (.certificate (some [region])) ⟨some 1, region, [some 7]⟩

/-- The member leaves the group, whose home is `us`. Then a region syncs it. -/
def Sample.leaveAndSync (region : RegionId) : List (Turn Request Choice) :=
  .start (.removeMember 7 1 7) :: List.replicate 3 (.act 0 .plain) ++
  .start (sync region) :: List.replicate 2 (.act 1 .plain)

/-- The operation makes device 7 a member of the group, which is stored with the home `us`. -/
def Sample.restores (st : World × World) : Bool :=
  !st.1.db.isMember 1 7 && st.2.db.isMember 1 7 &&
    decide (st.1.db.groups.rows = [⟨1, "us", 0, 0⟩])

/-- The region `ap` makes the device a member again, although the home of the group is `us`. -/
theorem foreign_sync_restores_member : ∃ p,
    Steps (Pool.Step machine Pool.Unrestricted (serve config)) ⟨world, []⟩
      (leaveAndSync "ap") p ∧
    ∃ c ∈ p.calls, ∃ st ∈ c.own, st.1.db.isMember 1 7 = false ∧ st.2.db.isMember 1 7 = true ∧
      ¬Justified 1 7 st.1 st.2 c.request := by
  obtain ⟨p, hrun, c, hc, hrequest, st, hst, htest⟩ :=
    Pool.exists_steps_of_play machine (serve config) ⟨world, []⟩ (leaveAndSync "ap") fun p =>
      ∃ c ∈ p.calls, c.request = sync "ap" ∧ ∃ st ∈ c.own, restores st = true
  simp only [restores, Bool.and_eq_true, Bool.not_eq_true', decide_eq_true_eq] at htest
  obtain ⟨⟨hold, hnew⟩, hrows⟩ := htest
  refine ⟨p, hrun, c, hc, st, hst, hold, hnew, fun hjust => ?_⟩
  rw [hrequest] at hjust
  have hmatch := hjust.2.1 ⟨1, "us", 0, 0⟩ (Table.mem_rows.mp (by simp [hrows])) rfl
  exact absurd hmatch (by decide)

theorem membership_justified_sample : ∃ p,
    Steps (Pool.Step machine Pool.Unrestricted (serve config)) ⟨world, []⟩
      (leaveAndSync "us") p ∧
    (∃ c ∈ p.calls, ∃ st ∈ c.own, restores st = true) ∧
    ∀ c ∈ p.calls, ∀ st ∈ c.own, st.1.db.isMember 1 7 = false → st.2.db.isMember 1 7 = true →
      Justified 1 7 st.1 st.2 c.request := by
  obtain ⟨p, hrun, hrestores, hrows⟩ :=
    Pool.exists_steps_of_play machine (serve config) ⟨world, []⟩ (leaveAndSync "us") fun p =>
      (∃ c ∈ p.calls, ∃ st ∈ c.own, restores st = true) ∧
      ∀ c ∈ p.calls, ∀ st ∈ c.own, ∀ row ∈ st.1.db.groups, row.homeRegion = "us"
  have hstarts : ∀ e ∈ leaveAndSync "us",
      e.Starts fun i => i = .removeMember 7 1 7 ∨ i = sync "us" := by
    simp [leaveAndSync, Turn.Starts]
  have hrequest := Pool.request_run hrun hstarts (by simp)
  refine ⟨p, hrun, hrestores, (membership_justified hrun ?_ ?_ 1 7).1⟩
  · simp [leaveAndSync, Turn.Starts, Request.Certified, sync]
  · intro c hc st hst
    rcases hrequest c hc with heq | heq
    · rw [heq]
      exact trivial
    · rw [heq]
      exact fun row hrow _ => hrows c hc st hst row hrow

end Powehi.Server
