import Powehi.Client.Records

/-!
# The pool of KeyPackages

The device keeps a pool of KeyPackages on the server. A top-up writes down which packages it is
about to make, stores their private halves, and then uploads them batch by batch. A batch is marked
as sent before its request leaves and as confirmed when the server has answered. A pruning pass
deletes the private halves of batches that were never sent and of those whose retention has run
out, and forgets the packages that were consumed.

A KeyPackage is identified with its reference; its public bytes are not modelled.
-/

namespace Powehi.Client

open Codec Server Semantics Program

variable {L : Libraries}

/-- A top-up is made below this count. -/
def lowWatermark : ℕ := 10

/-- The count a top-up aims at. -/
def targetCount : ℕ := 50

/-- KeyPackages per upload request. -/
def uploadBatch : ℕ := 10

/-- Seconds for which the private halves of a sent batch are kept: the lifetime of a KeyPackage on
the server and some slack. -/
def retentionSecs : ℕ := (84 + 14) * 24 * 60 * 60

/-- A batch is due for deletion when it never left, or when its retention has run out. -/
def Batch.isDue (b : Batch) (now : ℕ) : Bool :=
  match b.state with
  | .prepared => true
  | .sent | .confirmed => b.since + retentionSecs ≤ now

/-- Split into chunks of at most `n`. -/
def chunks {α : Type} (n : ℕ) : ℕ → List α → List (List α)
  | 0, _ => []
  | _ + 1, [] => []
  | fuel + 1, xs => xs.take n :: chunks n fuel (xs.drop n)

/-- The batches that the upload of some packages is made of. -/
def uploadChunks (refs : List KeyRef) : List (List KeyRef) := chunks uploadBatch refs.length refs

namespace Batches

def load : Prog L (List Batch) := do
  return (← get .kpBatches).getD []

def save (list : List Batch) : Prog L Unit := do
  ensure ((list.map (·.refs.length)).sum ≤ PqKeys.maxPqKeys) .tooManyLocalKeys
  if list.isEmpty then remove .kpBatches else put .kpBatches list

/-- Write down the packages that are about to be made. -/
def recordPrepared (refs : List KeyRef) : Prog L Unit := do
  let list ← load
  save (list ++ (uploadChunks refs).map fun chunk => ⟨.prepared, 0, chunk⟩)

/-- Change the first batch that starts with a reference. -/
def advance (first : KeyRef) (state : BatchState) (now : ℕ) : List Batch → Option (List Batch)
  | [] => none
  | b :: rest =>
    if b.refs.head? = some first then some ({ b with state := state, since := now } :: rest)
    else (advance first state now rest).map (b :: ·)

/-- Move the batch that starts with a reference to a state. -/
def setState (first : KeyRef) (state : BatchState) (now : ℕ) : Prog L Unit := do
  let list ← load
  match advance first state now list with
  | none => .throw .badKeyRecord
  | some list => save list

/-- The references without a decapsulation key. -/
def orphans (keys : List (KeyRef × Bytes)) (list : List Batch) : List KeyRef :=
  list.flatMap fun b => b.refs.filter fun r => !keys.any (·.1 = r)

/-- The batches without those references, and without batches that become empty. -/
def kept (keys : List (KeyRef × Bytes)) (list : List Batch) : List Batch :=
  (list.map fun b => { b with refs := b.refs.filter fun r => keys.any (·.1 = r) }).filter
    (!·.refs.isEmpty)

/-- The references of the due batches. -/
def due (now : ℕ) (list : List Batch) : List KeyRef :=
  (list.filter (·.isDue now)).flatMap Batch.refs

/-- Delete the private halves of the given KeyPackages, if there are any: the bundles first, then
the keys. -/
def deleteKeys (doomed : List KeyRef) (keys : List (KeyRef × Bytes)) : Prog L Unit :=
  if doomed.isEmpty then .pure ()
  else do
    let P ← loadProvider
    saveProvider (doomed.foldl Provider.deleteKeyPackage P)
    PqKeys.save (keys.filter (·.1 ∉ doomed))

/-- The KeyPackages a pruning pass deletes. -/
def doomed (now : ℕ) (keys : List (KeyRef × Bytes)) (list : List Batch) : List KeyRef :=
  orphans keys list ++ due now (kept keys list)

/-- The batches a pruning pass leaves. -/
def left (now : ℕ) (keys : List (KeyRef × Bytes)) (list : List Batch) : List Batch :=
  if (doomed now keys list).isEmpty then kept keys list
  else (kept keys list).filter (!·.isDue now)

/-- Save the batches if they changed. -/
def saveChanged (before list : List Batch) : Prog L Unit :=
  if list ≠ before then save list else .pure ()

/-- Delete the private halves of the due batches and forget consumed packages. The answer is the
number of packages deleted. -/
def prune (now : ℕ) : Prog L ℕ := do
  let before ← load
  if before.isEmpty then return 0
  let keys ← PqKeys.load
  deleteKeys (doomed now keys before) keys
  saveChanged before (left now keys before)
  return (doomed now keys before).length - (orphans keys before).length

end Batches

/-- Make new KeyPackages. The key store that holds their bundles is not saved here. -/
def generate : ℕ → Provider L → List (KeyRef × Bytes) →
    Prog L (Provider L × List (KeyRef × Bytes))
  | 0, P, made => return (P, made)
  | n + 1, P, made => do
    let package ← request .generate
    generate n (P.addKeyPackage package.keyPackageRef package.bundle)
      (made ++ [(package.keyPackageRef, package.decapKey)])

/-- Write new KeyPackages down, if they are for the pool. -/
def trackPrepared (track : Bool) (refs : List KeyRef) : Prog L Unit :=
  if track then Batches.recordPrepared refs else .pure ()

/-- Make new KeyPackages and store their private halves; with `track` they are written down first.
The answer is their references. -/
def generateInner (P : Provider L) (n : ℕ) (track : Bool) : Prog L (List KeyRef) := do
  let keys ← PqKeys.load
  ensure (keys.length + n ≤ PqKeys.maxPqKeys) .tooManyLocalKeys
  let (P', made) ← generate n P []
  trackPrepared track (made.map Prod.fst)
  saveProvider P'
  PqKeys.save (keys ++ made)
  return made.map Prod.fst

/-- Upload one batch. It is marked as sent before the request leaves. -/
def uploadOne (now : ℕ) (refs : List KeyRef) : Prog L Unit := do
  match refs with
  | [] => return ()
  | first :: _ =>
    Batches.setState first .sent now
    let ids ← request (.upload now refs)
    ensure (ids = refs.length) .badResponse
    Batches.setState first .confirmed now

/-- Top the pool up, after a pruning pass. -/
def ensureKeyPackagesAt (now : ℕ) : Prog L ℕ := do
  let _ ← Batches.prune now
  let have_ ← request .count
  if lowWatermark ≤ have_ then return 0
  let P ← loadProvider
  let refs ← generateInner P (targetCount - have_) true
  (uploadChunks refs).forM (uploadOne now)
  return refs.length

end Powehi.Client
