import Powehi.Semantics.Obligation
import Powehi.Server.CommitOrder

/-!
# Regions

Every region runs its own server on its own database. A group has a home region; another region
knows it by a stub row that a membership sync left there, with an epoch counter of its own. Calls
between regions are requests like any other: a peer may send them late, twice or not at all.

The ledger of one region gives each epoch to one Commit. Nothing compares the ledgers of two
regions: a member that commits in a region that only has the stub row wins an epoch there which
another member wins at home. If every Commit of the group is posted at its home, no epoch is won
twice.
-/

namespace Powehi.Server

open Codec Semantics Sample List

/-- The server of each region, with the calls it is serving. -/
abbrev Regions := RegionId → Pool Request Op Failure Response World

/-- One region takes a turn. -/
def RegionStep (tlsRequired : RegionId → Bool) :
    Regions → RegionId × Turn Request Choice → Regions → Prop :=
  ComponentStep fun r => Pool.Step machine Pool.Unrestricted (serve ⟨r, tlsRequired r⟩)

/-- Databases on which nothing was asked yet. -/
def Regions.initial (worlds : RegionId → World) : Regions := fun r => ⟨worlds r, []⟩

/-- The `k`-th call in the region `r` was to commit to the group, and returned the epoch. -/
def Regions.Committed (rs : Regions) (g : GroupId) (r : RegionId) (k : ℕ) (n : Epoch) : Prop :=
  ∃ c, (rs r).calls[k]? = some c ∧ c.request.CommitsTo g ∧ c.rest = .pure (.epoch n)

/-- Let any requests be served in any regions, in any interleaving and with any failures of the
databases. If every request to commit to the group is made in one region, its home, then at most
one call returns a given epoch. -/
theorem home_commits_distinct {tlsRequired : RegionId → Bool} {worlds : RegionId → World}
    {g : GroupId} {home : RegionId} {es : List (RegionId × Turn Request Choice)} {rs : Regions}
    (hrun : Steps (RegionStep tlsRequired) (Regions.initial worlds) es rs)
    (hhome : ∀ r e, (r, e) ∈ es → e.Starts fun i => i.CommitsTo g → r = home) (n : Epoch) :
    {call : RegionId × ℕ | rs.Committed g call.1 call.2 n}.Subsingleton := by
  rintro ⟨r, k⟩ ⟨c, hk, hi, hn⟩ ⟨r', k'⟩ ⟨c', hk', hi', hn'⟩
  -- both calls were made at home
  have hat : ∀ r, ∀ c ∈ (rs r).calls, c.request.CommitsTo g → r = home := fun r =>
    Pool.request_run (hrun.component r)
      (fun e he => hhome r e (mem_labelsOf.mp he)) (by simp [Regions.initial])
  obtain rfl : r = home := hat r c (mem_of_getElem? hk) hi
  obtain rfl : r' = r := hat r' c' (mem_of_getElem? hk') hi'
  by_contra hne
  have hkk : k ≠ k' := fun heq => hne (congrArg _ heq)
  exact returned_epochs_distinct (hrun.component r') hkk hk hk' hi hi' hn hn'

/-! ### Two regions -/

/-- A group with one member, in its home region `eu`. -/
def Sample.homeWorld : World where
  db := { Db.empty with
    users := Table.insertNew ⟨1, [], [], none⟩ ∅
    devices := Table.insertNew ⟨7, 1, []⟩ ∅
    groups := Table.insertNew ⟨1, "eu", 0, 0⟩ ∅
    members := Table.insertNew ⟨1, 7, 0⟩ ∅ }
  stored := []

/-- The region `us`, with a device that is not in any group yet. -/
def Sample.stubWorld : World where
  db := { Db.empty with
    users := Table.insertNew ⟨2, [1], [], none⟩ ∅
    devices := Table.insertNew ⟨8, 2, []⟩ ∅ }
  stored := []

def Sample.worlds (r : RegionId) : World :=
  if r = "eu" then homeWorld else if r = "us" then stubWorld else .empty

/-- The member commits at home. -/
def Sample.homeTurns : List (Turn Request Choice) :=
  .start (.sendCommit 7 1 [1] 0) :: replicate 5 (.act 0 .plain)

/-- The home region syncs the membership of the other device, which then commits where it is. -/
def Sample.stubTurns : List (Turn Request Choice) :=
  .start (.syncGroupMembership (.certificate (some ["eu"])) ⟨some 1, "eu", [some 8]⟩) ::
    replicate 2 (.act 0 .plain) ++
  .start (.sendCommit 8 1 [2] 0) :: replicate 5 (.act 1 .plain)

/-- Both regions give away the epoch 1 of the group. -/
theorem stub_commit_wins_twice : ∃ es rs,
    Steps (RegionStep fun _ => true) (Regions.initial worlds) es rs ∧
    rs.Committed 1 "eu" 0 1 ∧ rs.Committed 1 "us" 1 1 := by
  obtain ⟨p, hp, c, hc, hrequest, hn⟩ :=
    Pool.exists_steps_of_play machine (serve ⟨"eu", true⟩) ⟨homeWorld, []⟩ homeTurns fun p =>
      ∃ c ∈ p.calls[0]?, c.request = .sendCommit 7 1 [1] 0 ∧ c.rest = .pure (.epoch 1)
  obtain ⟨q, hq, c', hc', hrequest', hn'⟩ :=
    Pool.exists_steps_of_play machine (serve ⟨"us", true⟩) ⟨stubWorld, []⟩ stubTurns fun p =>
      ∃ c ∈ p.calls[1]?, c.request = .sendCommit 8 1 [2] 0 ∧ c.rest = .pure (.epoch 1)
  have hfirst : Steps (RegionStep fun _ => true) (Regions.initial worlds) _
    (Function.update (Regions.initial worlds) "eu" p) := Steps.ofComponent hp
  have hsecond : Steps (RegionStep fun _ => true)
      (Function.update (Regions.initial worlds) "eu" p) _
      (Function.update (Function.update (Regions.initial worlds) "eu" p) "us" q) :=
    Steps.ofComponent hq
  refine ⟨_, _, hfirst.append hsecond, ?_, ?_⟩
  · exact ⟨c, hc, hrequest ▸ rfl, hn⟩
  · exact ⟨c', hc', hrequest' ▸ rfl, hn'⟩

/-- The member commits twice at home, and the second time asks for an epoch that is taken. -/
def Sample.retryTurns : List (Turn Request Choice) :=
  homeTurns ++
  .start (.sendCommit 7 1 [3] 0) :: replicate 5 (.act 1 { Choice.plain with uuid := 2 }) ++
  .start (.sendCommit 7 1 [4] 1) :: replicate 5 (.act 2 { Choice.plain with uuid := 3 })

theorem home_commits_distinct_sample : ∃ rs,
    Steps (RegionStep fun _ => true) (Regions.initial worlds)
      (retryTurns.map ("eu", ·)) rs ∧
    rs.Committed 1 "eu" 0 1 ∧ rs.Committed 1 "eu" 2 2 ∧
    ∀ n, {call : RegionId × ℕ | rs.Committed 1 call.1 call.2 n}.Subsingleton := by
  obtain ⟨p, hp, ⟨c, hc, hrequest, hn⟩, c', hc', hrequest', hn'⟩ :=
    Pool.exists_steps_of_play machine (serve ⟨"eu", true⟩) ⟨homeWorld, []⟩ retryTurns fun p =>
      (∃ c ∈ p.calls[0]?, c.request = .sendCommit 7 1 [1] 0 ∧ c.rest = .pure (.epoch 1)) ∧
      ∃ c ∈ p.calls[2]?, c.request = .sendCommit 7 1 [4] 1 ∧ c.rest = .pure (.epoch 2)
  have hrun : Steps (RegionStep fun _ => true) (Regions.initial worlds)
      (retryTurns.map ("eu", ·))
      (Function.update (Regions.initial worlds) "eu" p) := Steps.ofComponent hp
  have hhome : ∀ r e, (r, e) ∈ retryTurns.map ("eu", ·) →
      e.Starts fun i => i.CommitsTo 1 → r = "eu" := by
    intro r e he
    obtain ⟨e', -, heq⟩ := mem_map.mp he
    obtain ⟨rfl, rfl⟩ := Prod.mk.inj heq
    cases e' with
    | start i => exact fun _ => rfl
    | act k c => exact trivial
  exact ⟨_, hrun, ⟨c, hc, hrequest ▸ rfl, hn⟩, ⟨c', hc', hrequest' ▸ rfl, hn'⟩,
    home_commits_distinct hrun hhome⟩

end Powehi.Server
