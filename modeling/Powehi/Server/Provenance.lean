import Powehi.Server.Broadcasts
import Powehi.Server.References

/-!
# Every change has its request

Whatever requests are served, in whatever interleaving and with whatever failures of the database,
between any two moments of a run each new envelope, each new ack and each end of a membership goes
back to a request that asked for it, and a group that is stored stays stored: its home region never
changes and its epoch never falls, whatever other regions claim.
-/

namespace Powehi.Server

open Semantics Sample

variable {cfg : Config} {w₀ : World} {es es' : List (Turn Request Choice)}
  {p p' : Pool Request Op Failure Response World}

/-- A run of the server. -/
abbrev Served (cfg : Config) (p : Pool Request Op Failure Response World)
    (es : List (Turn Request Choice)) (p' : Pool Request Op Failure Response World) : Prop :=
  Steps (Pool.Step machine Pool.Unrestricted (serve cfg)) p es p'

/-- What holds later and not before was brought about by a transaction, unless it was time. -/
theorem exists_transaction {P : World → Prop} (tick : ∀ w elapsed, P (w.tick elapsed) → P w)
    (hrun : Served cfg ⟨w₀, []⟩ es p) (hmore : Served cfg p es' p') (hold : ¬P p.shared)
    (hnew : P p'.shared) :
    ∃ c ∈ p'.calls, ∃ (β : Type) (q : Query β) (w : World) (b : β) (db : Db),
      c.request.May cfg (.sql q) ∧ q.run w.db = .ok (b, db) ∧ ¬P w ∧ P (w.store db) := by
  obtain ⟨c, hc, st, hst, hbefore, hafter⟩ := Pool.exists_own_of_change hmore hnew hold
  obtain ⟨ω, o, ch, ho, -, hexec⟩ := Pool.own_uses (fun i _ => serve_uses cfg i)
    (hrun.append hmore) (Pool.starts_true _) (by simp) (by simp) c hc st hst
  rw [hexec] at hafter
  cases o with
  | newUuid | utcNow => exact absurd hafter hbefore
  | sql q =>
    change P (transact q ch st.1).2 at hafter
    rcases transact_cases q ch st.1 with ⟨hw, -⟩ | ⟨b, db, hq, hw, -⟩
    · rw [hw] at hafter
      exact absurd (tick _ _ hafter) hbefore
    · rw [hw] at hafter
      exact ⟨c, hc, _, q, _, b, db, ho, hq, fun h => hbefore (tick _ _ h), hafter⟩

/-- From any moment of a run on, a stored group stays stored, its home region never changes and its
epoch never falls. -/
theorem stored_group_stays {row : Group} (hrun : Served cfg ⟨w₀, []⟩ es p)
    (hrow : row ∈ p.shared.db.groups) (hmore : Served cfg p es' p') :
    ∃ row' ∈ p'.shared.db.groups, row'.id = row.id ∧ row'.homeRegion = row.homeRegion ∧
      row.epoch ≤ row'.epoch := by
  -- the transaction that first breaks this would leave no such row
  by_contra hnew
  obtain ⟨c, hc, β, q, w, b, db, ho, hq, hbefore, hafter⟩ := exists_transaction (P := fun w =>
      ¬∃ row' ∈ w.db.groups, row'.id = row.id ∧ row'.homeRegion = row.homeRegion ∧
        row.epoch ≤ row'.epoch)
    (fun _ _ h => h) hrun hmore (not_not.2 ⟨row, hrow, rfl, rfl, le_rfl⟩) hnew
  obtain ⟨row', hrow', hkept⟩ := not_not.1 hbefore
  apply hafter
  cases records_of_run ho hq with
  | quiet _ hgroups => exact ⟨row', hgroups row' hrow', hkept⟩
  | saved _ _ _ hgroups => exact ⟨row', hgroups ▸ hrow', hkept⟩
  | won g x e _ hwon _ hgroups =>
    obtain ⟨old, hold, rfl, rfl⟩ := hwon
    rw [World.db_store, hgroups]
    by_cases hg : row'.id = old.id
    · obtain rfl := Table.eq_of_key hrow' hold hg
      exact ⟨_, Db.mem_setEpoch.mpr ⟨row', hrow', if_pos rfl⟩, hkept.1, hkept.2.1,
        hkept.2.2.trans (Nat.le_succ _)⟩
    · exact ⟨row', Db.mem_setEpoch.mpr ⟨row', hrow', if_neg hg⟩, hkept⟩

/-- A region syncs group 2 and claims it. -/
def Sample.syncTurns (n : ℕ) (region : RegionId) : List (Turn Request Choice) :=
  .start (.syncGroupMembership (.certificate (some [region])) ⟨some 2, region, [some 7]⟩) ::
    List.replicate 2 (.act n .plain)

/-- A group stored by a sync keeps the home it was stored with when another region claims it. -/
theorem stored_group_stays_sample : ∃ p p', Served config ⟨world, []⟩ (syncTurns 0 "ap") p ∧
    Served config p (syncTurns 1 "us") p' ∧
    ∃ row ∈ p'.shared.db.groups, row.id = 2 ∧ row.homeRegion = "ap" ∧ 0 ≤ row.epoch := by
  obtain ⟨p, hrun, hstored, hplay⟩ := Pool.exists_steps_of_play machine (serve config) ⟨world, []⟩
    (syncTurns 0 "ap") fun p => (⟨2, "ap", 0, 0⟩ : Group) ∈ p.shared.db.groups ∧
      (Pool.playIf machine (serve config) (fun _ _ _ => true) p (syncTurns 1 "us")).any
        (fun _ => True) = true
  obtain ⟨p', hmore, -⟩ := Pool.exists_steps_of_play _ _ _ _ _ hplay
  exact ⟨p, p', hrun, hmore, stored_group_stays hrun hstored hmore⟩

end Powehi.Server
