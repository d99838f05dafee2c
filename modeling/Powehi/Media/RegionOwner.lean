import Powehi.Codec.Uuid
import Powehi.Semantics.Obligation
import Powehi.Semantics.Pool
import Powehi.Server.Types

/-!
# The owner of a media prefix

The sweep of orphaned objects deletes under the prefix of its region only if its environment owns
the prefix. Environments that share a bucket race for one sentinel object there, with a put that is
refused if the object exists, and whoever reads its own id back is the owner. So for each prefix
there is at most one, whatever fails and however the runs interleave.
-/

namespace Powehi.Media

open Codec Semantics List
open Server (DomainError RegionId)

abbrev OwnerId := Block 16

/-- What the database or the object store reports. -/
structure ServiceError where
  code : Option String
  message : String
deriving DecidableEq

/-- The owner ids in the database of each environment, and the bucket all of them use. -/
structure Bucket where
  owners : ℕ × RegionId → Option OwnerId
  objects : String → Option Bytes

namespace Bucket

/-- Write what is not there yet. -/
def putAbsent {κ β : Type} [DecidableEq κ] (f : κ → Option β) (k : κ) (b : β) : κ → Option β :=
  if (f k).isSome then f else Function.update f k (some b)

/-- Rows and objects that exist stay what they are. -/
structure Extends (w w' : Bucket) : Prop where
  owners : ∀ {k id}, w.owners k = some id → w'.owners k = some id
  objects : ∀ {key body}, w.objects key = some body → w'.objects key = some body

variable {w w' w'' : Bucket}

theorem Extends.refl (w : Bucket) : Extends w w := ⟨id, id⟩

theorem Extends.trans (h : Extends w w') (h' : Extends w' w'') : Extends w w'' :=
  ⟨fun hid => h'.owners (h.owners hid), fun hbody => h'.objects (h.objects hbody)⟩

theorem putAbsent_of_some {κ β : Type} [DecidableEq κ] {f : κ → Option β} {k k' : κ} {b b' : β}
    (h : f k' = some b') : putAbsent f k b k' = some b' := by
  unfold putAbsent
  split
  · exact h
  · have hne : k' ≠ k := by
      rintro rfl
      simp_all
    rw [Function.update_of_ne hne, h]

theorem putAbsent_self {κ β : Type} [DecidableEq κ] (f : κ → Option β) (k : κ) (b : β) :
    putAbsent f k b k = some ((f k).getD b) := by
  unfold putAbsent
  cases hk : f k <;> simp [hk]

end Bucket

inductive OwnerOp : Type → Type
  | upsertOwner (env : ℕ) (region : RegionId) : OwnerOp (Except ServiceError OwnerId)
  | getObject (key : String) : OwnerOp (Except ServiceError Bytes)
  | putIfNoneMatch (key : String) (body : Bytes) : OwnerOp (Except ServiceError Unit)

/-- What the environment decides about one operation: the random id, and whether it fails although
nothing is wrong, with its effect lost or not. -/
structure OwnerChoice where
  uuid : OwnerId
  failure : Option ServiceError
  applied : Bool

/-- The answer and effect of an operation, unless it fails. -/
def OwnerChoice.answer {β : Type} (c : OwnerChoice) (w : Bucket) (r : Except ServiceError β)
    (w' : Bucket) : Except ServiceError β × Bucket :=
  match c.failure with
  | none => (r, w')
  | some e => (.error e, if c.applied then w' else w)

def ownerMachine : Machine OwnerOp Bucket OwnerChoice where
  exec
    | .upsertOwner env region, c, w =>
      c.answer w (.ok ((w.owners (env, region)).getD c.uuid))
        { w with owners := Bucket.putAbsent w.owners (env, region) c.uuid }
    | .getObject key, c, w =>
      c.answer w ((w.objects key).elim (.error ⟨some "NoSuchKey", ""⟩) .ok) w
    | .putIfNoneMatch key body, c, w =>
      c.answer w (if (w.objects key).isSome then .error ⟨some "PreconditionFailed", ""⟩ else .ok ())
        { w with objects := Bucket.putAbsent w.objects key body }

section

variable {β : Type} {c : OwnerChoice} {w w' : Bucket} {r : Except ServiceError β}

theorem OwnerChoice.extends_answer (h : w.Extends w') : w.Extends (c.answer w r w').2 := by
  unfold answer
  split
  · exact h
  · by_cases happlied : c.applied = true
    · simpa [happlied] using h
    · simpa [happlied] using Bucket.Extends.refl w

/-- An operation that answers did what it is for. -/
theorem OwnerChoice.answer_ok {b : β} (h : (c.answer w r w').1 = .ok b) :
    r = .ok b ∧ (c.answer w r w').2 = w' := by
  unfold answer at h ⊢
  cases hf : c.failure <;> simp_all

end

theorem extends_exec {ω : Type} (o : OwnerOp ω) (c : OwnerChoice) (w : Bucket) :
    w.Extends (ownerMachine.exec o c w).2 := by
  cases o with
  | upsertOwner env region => exact OwnerChoice.extends_answer ⟨Bucket.putAbsent_of_some, id⟩
  | getObject key => exact OwnerChoice.extends_answer (.refl w)
  | putIfNoneMatch key body => exact OwnerChoice.extends_answer ⟨id, Bucket.putAbsent_of_some⟩

/-! ### The protocol -/

abbrev Verify := Program OwnerOp DomainError

def mapR2 (e : ServiceError) : DomainError := .internal ("S3 error: " ++ e.message)

def ownerSentinelKeySuffix : String := ".owner"

def ownerKey (regionPrefix : String) : String := regionPrefix ++ ownerSentinelKeySuffix

def ownerMatches (localOwnerId remoteOwnerId : OwnerId) : Bool := localOwnerId = remoteOwnerId

/-- An environment, known by its database, the region it is configured for, and the prefix. -/
structure OwnerRequest where
  env : ℕ
  regionId : RegionId
  regionPrefix : String

section Protocol

-- how the content of an object reads as a UUID, if it does
variable (readUuid : Bytes → Option OwnerId)

def readOwnerSentinel (ownerKey : String) : Verify (Option OwnerId) :=
  .op (.getObject ownerKey) fun
    | .ok bytes => .pure (readUuid bytes)
    | .error e => if e.code = some "NoSuchKey" then .pure none else .throw (mapR2 e)

/-- Compare with what the sentinel names; go on if it names nobody. -/
def compareOr (ownerKey : String) (localOwnerId : OwnerId)
    (absent : Verify Bool) : Verify Bool := do
  match ← readOwnerSentinel readUuid ownerKey with
  | some remoteOwnerId => return ownerMatches localOwnerId remoteOwnerId
  | none => absent

def verifyRegionOwnershipWithLocalId (regionPrefix : String) (localOwnerId : OwnerId) :
    Verify Bool :=
  let ownerKey := ownerKey regionPrefix
  -- the object just written may be gone, and one that was refused unreadable: both fail closed
  let readBack := compareOr readUuid ownerKey localOwnerId (.pure false)
  compareOr readUuid ownerKey localOwnerId <|
    .op (.putIfNoneMatch ownerKey (Uuid.hyphenated localOwnerId)) fun
      | .ok _ => readBack
      | .error e =>
        if e.code = some "PreconditionFailed" ∨ e.code = some "ConditionalRequestConflict" then
          readBack
        else .throw (mapR2 e)

def verifyRegionOwnership (req : OwnerRequest) : Verify Bool :=
  .op (.upsertOwner req.env req.regionId) fun
    | .ok localOwnerId => verifyRegionOwnershipWithLocalId readUuid req.regionPrefix localOwnerId
    | .error e => .throw (.internal e.message)

end Protocol

/-! ### At most one owner -/

open Program

variable {readUuid : Bytes → Option OwnerId}

/-- The sentinel names an owner. -/
def Bucket.Names (readUuid : Bytes → Option OwnerId) (key : String) (id : OwnerId) (w : Bucket) :
    Prop :=
  ∃ body, w.objects key = some body ∧ readUuid body = some id

/-- If the program returns true, the sentinel named the id after one of its operations. -/
def Sees (readUuid : Bytes → Option OwnerId) (key : String) (id : OwnerId) (p : Verify Bool) :
    Prop :=
  wpOwn ownerMachine Pool.Unrestricted p fun own r =>
    r = .ok true → ∃ st ∈ own, st.2.Names readUuid key id

variable {key : String} {id : OwnerId}

/-- So it does if more operations come before. -/
theorem Sees.after {p : Verify Bool} (h : Sees readUuid key id p)
    (before : List (Bucket × Bucket)) : wpOwn ownerMachine Pool.Unrestricted p fun own r =>
      r = .ok true → ∃ st ∈ before ++ own, st.2.Names readUuid key id := by
  refine wpOwn_mono (fun own r hown htrue => ?_) h
  obtain ⟨st, hst, hnames⟩ := hown htrue
  exact ⟨st, mem_append_right before hst, hnames⟩

theorem wpOwn_readOwnerSentinel :
    wpOwn ownerMachine Pool.Unrestricted (readOwnerSentinel readUuid key) fun own r =>
      ∀ id, r = .ok (some id) → ∃ st ∈ own, st.2.Names readUuid key id := by
  intro w c _
  cases hget : (ownerMachine.exec (.getObject key) c w).1 with
  | ok body =>
    intro id hid
    obtain ⟨hbody, hw⟩ := OwnerChoice.answer_ok hget
    refine ⟨_, mem_singleton_self _, body, ?_, by simpa using hid⟩
    change (OwnerChoice.answer _ _ _ _).2.objects key = _
    rw [hw]
    cases hobj : w.objects key <;> simp_all
  | error e =>
    dsimp only
    split <;> simp [wpOwn]

theorem sees_compareOr {absent : Verify Bool} (h : Sees readUuid key id absent) :
    Sees readUuid key id (compareOr readUuid key id absent) := by
  refine wpOwn_bind wpOwn_readOwnerSentinel ?_ fun own e _ htrue => by cases htrue
  rintro own (_ | remote) hread
  · exact h.after own
  · intro htrue
    obtain rfl : id = remote := by simpa [ownerMatches] using htrue
    simpa using hread id rfl

theorem sees_verifyRegionOwnershipWithLocalId (regionPrefix : String) :
    Sees readUuid (ownerKey regionPrefix) id
      (verifyRegionOwnershipWithLocalId readUuid regionPrefix id) := by
  refine sees_compareOr fun w c _ => ?_
  have hback : Sees readUuid (ownerKey regionPrefix) id
      (compareOr readUuid (ownerKey regionPrefix) id (.pure false)) :=
    sees_compareOr (by rintro ⟨⟩)
  dsimp only
  split
  · exact hback.after [_]
  · split
    · exact hback.after [_]
    · rintro ⟨⟩

/-- A run that returns true has seen its environment's own id in the sentinel. -/
theorem wpOwn_verifyRegionOwnership (req : OwnerRequest) :
    wpOwn ownerMachine Pool.Unrestricted (verifyRegionOwnership readUuid req) fun own r =>
      r = .ok true → ∃ id, (∃ st ∈ own, st.2.owners (req.env, req.regionId) = some id) ∧
        ∃ st ∈ own, st.2.Names readUuid (ownerKey req.regionPrefix) id := by
  intro w c _
  cases hupsert : (ownerMachine.exec (.upsertOwner req.env req.regionId) c w).1 with
  | ok id =>
    obtain ⟨hid, hw⟩ := OwnerChoice.answer_ok hupsert
    refine wpOwn_mono (fun own r h htrue => ⟨id, ⟨_, mem_cons_self, ?_⟩, h htrue⟩)
      ((sees_verifyRegionOwnershipWithLocalId req.regionPrefix).after [_])
    change (OwnerChoice.answer _ _ _ _).2.owners _ = _
    rw [hw]
    refine (Bucket.putAbsent_self ..).trans ?_
    simpa using hid
  | error e => rintro ⟨⟩

/-- Two runs that return true for one prefix, in whatever environments, have the same owner id. -/
theorem prefix_has_one_owner {w : Bucket} {es : List (Turn OwnerRequest OwnerChoice)}
    {p : Pool OwnerRequest OwnerOp DomainError Bool Bucket}
    (hrun : Steps (Pool.Step ownerMachine Pool.Unrestricted (verifyRegionOwnership readUuid))
      ⟨w, []⟩ es p) {c d : Call OwnerRequest OwnerOp DomainError Bool Bucket}
    (hc : c ∈ p.calls) (hd : d ∈ p.calls) (hctrue : c.rest = .pure true)
    (hdtrue : d.rest = .pure true) (hsame : c.request.regionPrefix = d.request.regionPrefix) :
    ∃ id, p.shared.owners (c.request.env, c.request.regionId) = some id ∧
      p.shared.owners (d.request.env, d.request.regionId) = some id := by
  have hpast := Pool.own_past Bucket.Extends.refl (fun _ _ _ => Bucket.Extends.trans)
    (fun o ch s _ => extends_exec o ch s) hrun (by simp)
  -- what a run saw is still there
  have hseen : ∀ c ∈ p.calls, c.rest = .pure true →
      ∃ id, p.shared.owners (c.request.env, c.request.regionId) = some id ∧
        p.shared.Names readUuid (ownerKey c.request.regionPrefix) id := by
    intro c hc htrue
    obtain ⟨id, ⟨st, hst, hid⟩, st', hst', body, hbody, hread⟩ :=
      Pool.own_returned hrun hc (r := .ok true) htrue (wpOwn_verifyRegionOwnership c.request) rfl
    exact ⟨id, (hpast c hc st hst).owners hid, body, (hpast c hc st' hst').objects hbody, hread⟩
  obtain ⟨id, hid, body, hbody, hread⟩ := hseen c hc hctrue
  obtain ⟨id', hid', body', hbody', hread'⟩ := hseen d hd hdtrue
  rw [hsame] at hbody
  obtain rfl : body = body' := Option.some.inj (hbody.symm.trans hbody')
  obtain rfl : id = id' := Option.some.inj (hread.symm.trans hread')
  exact ⟨id, hid, hid'⟩

/-- A run of the second environment interleaved with one of the first, which runs again. -/
def Sample.race : List (Turn OwnerRequest OwnerChoice) :=
  let turn n := .act n ⟨⟨replicate 16 (UInt8.ofNat n), by simp⟩, none, true⟩
  [.start ⟨0, "eu", "media/eu/"⟩, .start ⟨1, "eu", "media/eu/"⟩] ++
    [0, 1, 0, 1, 0, 1, 0, 1].map turn ++ .start ⟨0, "eu", "media/eu/"⟩ :: [2, 2].map turn

theorem prefix_has_one_owner_sample : ∃ p,
    Steps (Pool.Step ownerMachine Pool.Unrestricted (verifyRegionOwnership Uuid.parseStr))
      ⟨⟨fun _ => none, fun _ => none⟩, []⟩ Sample.race p ∧
    ∃ c ∈ p.calls[0]?, ∃ d ∈ p.calls[2]?,
      ∃ id, p.shared.owners (c.request.env, c.request.regionId) = some id ∧
        p.shared.owners (d.request.env, d.request.regionId) = some id := by
  obtain ⟨p, hrun, c, hc, d, hd, hctrue, hdtrue, hsame⟩ :=
    Pool.exists_steps_of_play ownerMachine (verifyRegionOwnership Uuid.parseStr)
      ⟨⟨fun _ => none, fun _ => none⟩, []⟩ Sample.race fun p =>
      ∃ c ∈ p.calls[0]?, ∃ d ∈ p.calls[2]?, c.rest = .pure true ∧ d.rest = .pure true ∧
        c.request.regionPrefix = d.request.regionPrefix
  exact ⟨p, hrun, c, hc, d, hd, prefix_has_one_owner hrun (mem_of_getElem? hc)
    (mem_of_getElem? hd) hctrue hdtrue hsame⟩

end Powehi.Media
