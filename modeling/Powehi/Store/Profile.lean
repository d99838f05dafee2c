import Mathlib.Data.List.Sort
import Powehi.Store.Keys
import Powehi.Store.Manifest

/-!
# The encrypted profile store

The operations of an open profile store: reading and writing records under the manifest, and
loading a store when it is opened.

Every mutation runs in three visible steps: the manifest with the new state and a `pending`
entry, then the record itself, then the manifest without `pending` (`mutate`).
-/

namespace Powehi.Store

open Codec Semantics

/-- Handle to one profile directory plus its key bundle. What the source keeps behind locks is
the `Mem` of its location. -/
structure ProfileStore where
  loc : Loc
  profile : Bytes
  bundle : Bundle
  /-- The keys are the export-key-derived ones of an upgraded store. -/
  derivedKeys : Bool := false
  /-- Opened with the recovery phrase. -/
  byRecovery : Bool := false
deriving DecidableEq

/-! ### Control flow -/

/-- Fail unless a condition holds. -/
def require (b : Bool) (e : StoreError) : StoreM Unit := if b then .pure () else .throw e

/-- Run a program only under a condition. -/
def onlyIf (b : Bool) (p : StoreM Unit) : StoreM Unit := if b then p else .pure ()

/-- A missing file is `none`; any other error is passed on. -/
def ifPresent {α : Type} (p : StoreM α) : StoreM (Option α) := do
  match ← p.attempt with
  | .ok a => return some a
  | .error (.io .notFound) => return none
  | .error e => .throw e

/-- Add the record file to an error. -/
def named {α : Type} (tag : Bytes) (p : StoreM α) : StoreM α := do
  match ← p.attempt with
  | .ok a => return a
  | .error e => .throw (.record tag e)

/-! ### Files -/

/-- Read a private regular file of at most `max` bytes; a longer one is `tooBig`. -/
def readPrivateFile (l : Loc) (f : FileName) (max : ℕ) (tooBig : StoreError) : StoreM Bytes := do
  match ← call (.read l f) with
  | .file bytes true => if bytes.length > max then .throw tooBig else return bytes
  | _ => .throw .insecurePath

def readKeyfile (l : Loc) : StoreM (Option KeyFile) := do
  match ← ifPresent (readPrivateFile l .keyfile keyfileMaxLen .keyfileCorrupt) with
  | some bytes => return some (← Program.ofExcept (KeyFile.decode bytes))
  | none => return none

def writeKeyfile (l : Loc) (kf : KeyFile) : StoreM Unit := do
  call (.replace l .keyfile kf.encode)
  call (.syncDir l)

def readManifestBlob (l : Loc) : StoreM Bytes :=
  readPrivateFile l .manifest Manifest.maxBlobLen .manifestCorrupt

/-- The stem of a record file that carries a tag. -/
def tagStem : FileName → Option Bytes
  | .record stem => if isTag stem then some stem else none
  | _ => none

/-- The stem of a legacy file that carries a record name. -/
def legacyStem : FileName → Option Bytes
  | .legacy stem => if validRecordName stem then some stem else none
  | _ => none

/-- File-name tags of the records present. -/
def tags (l : Loc) : StoreM (List Bytes) := do
  let files ← call (.readDir l)
  require ((files.filterMap tagStem).length ≤ maxRecords + 2) .tooManyRecords
  return files.filterMap tagStem

/-- Whether the directory holds anything a store would. -/
def hasStoreFiles (l : Loc) : StoreM Bool := do
  let files ← call (.readDir l)
  return files.any fun f => (tagStem f).isSome || (legacyStem f).isSome || f == .manifest

section Handle

variable (cr : Crypto) (st : ProfileStore)

/-- Open a private file and decrypt it with `label` in the AAD; also the hash of its bytes. -/
def readBlob (f : FileName) (magic label : Bytes) : StoreM (Bytes × Digest) := do
  match ← call (.read st.loc f) with
  | .file blob true =>
    if blob.length > maxBlobLen then .throw .corrupt
    else do
      let plain ← Program.ofExcept (openBlob cr st.bundle.record st.profile magic label blob)
      return (plain, cr.sha256 blob)
  | _ => .throw .insecurePath

/-- SHA-256 of the record file at `tag`, `none` if absent. -/
def fileHash (tag : Bytes) : StoreM (Option Digest) := do
  match ← ifPresent (call (.read st.loc (.record tag))) with
  | none => return none
  | some (.file bytes _) =>
    if bytes.length > maxBlobLen then .throw .insecurePath else return some (cr.sha256 bytes)
  | some _ => .throw .insecurePath

/-! ### Mutations -/

/-- Atomically replace the manifest file, then adopt `next` in memory. -/
def commitManifest (next : Manifest) (durable : Bool) : StoreM Unit := do
  let blob ← next.sealBlob st.bundle.manifest st.profile
  call (.replace st.loc .manifest blob)
  onlyIf durable (call (.syncDir st.loc))
  modifyMem st.loc fun m => { m with manifest := next }

/-- The manifest of a mutation in flight: the new state of `tag`, with its old one pending. -/
def Manifest.mutating (m : Manifest) (tag : Bytes) (new : Option Digest) : Manifest where
  generation := nextGeneration m.generation
  entries := m.entries.update tag new
  pending := some ⟨tag, m.entries[tag]?⟩

/-- The manifest after a mutation left `tag` as `actual`. -/
def Manifest.settled (m : Manifest) (tag : Bytes) (actual : Option Digest) : Manifest where
  generation := nextGeneration m.generation
  entries := m.entries.update tag actual
  pending := none

/-- `applied.err().unwrap_or(e)`. -/
def firstError (applied : Except StoreError Unit) (e : StoreError) : StoreError :=
  match applied with
  | .error e' => e'
  | .ok _ => e

/-- Refuse all further writes, and fail. -/
def poison (e : StoreError) : StoreM Unit := do
  modifyMem st.loc fun m => { m with poisoned := true }
  .throw e

/-- Record the state the mutation left behind. If the settled manifest cannot be written the
disk keeps the pending one, which `open` accepts; memory already holds the truth. -/
def settle (tag name : Bytes) (next : Manifest) (actual : Option Digest)
    (applied : Except StoreError Unit) : StoreM Unit := do
  modifyMem st.loc fun m =>
    { m with index := if actual.isSome then m.index.insert name else m.index.erase name }
  match ← (commitManifest st (next.settled tag actual) false).attempt with
  | .ok _ => Program.ofExcept applied
  | .error e => do
    modifyMem st.loc fun m => { m with manifest := next.settled tag actual }
    Program.ofExcept (applied.bind fun _ => .error e)

/-- Look at what the change left behind: `new`, or `old` if it failed, is settled; anything else
poisons the handle. -/
def conclude (tag name : Bytes) (old new : Option Digest) (next : Manifest)
    (applied : Except StoreError Unit) : StoreM Unit := do
  match ← (fileHash cr st tag).attempt with
  | .error e => poison st (firstError applied e)
  | .ok actual =>
    if actual == new || (!applied.isOk && actual == old) then
      settle st tag name next actual applied
    else poison st (.recordStale tag)

/-- Run `apply`, which must leave the record at `tag` as `new` or fail, between the pending
manifest and the settled one. -/
def mutate (tag name : Bytes) (new : Option Digest) (apply : StoreM Unit) : StoreM Unit := do
  let mem ← getMem st.loc
  require (!mem.poisoned) .corrupt
  let next := mem.manifest.mutating tag new
  commitManifest st next true
  let applied ← apply.attempt
  conclude cr st tag name mem.manifest.entries[tag]? new next applied

/-- Once the rename has landed the record exists, so it enters the index before the final
directory sync. -/
def writeAtomic (tag blob name : Bytes) : StoreM Unit := do
  call (.replace st.loc (.record tag) blob)
  modifyMem st.loc fun m => { m with index := m.index.insert name }
  call (.syncDir st.loc)

/-- Write a record's file between the manifests of its mutation. -/
def writeWithManifest (tag blob name : Bytes) : StoreM Unit :=
  mutate cr st tag name (some (cr.sha256 blob)) (writeAtomic st tag blob name)

/-- User-visible records in an index. -/
def userRecords (index : Names) : ℕ := index.size - (index.toList.filter isInternal).length

/-- Encrypt a record and write its file. -/
def writeRecord (name plaintext : Bytes) : StoreM Unit := do
  require (name.length ≤ 255) .badName
  let nonce ← call .fillNonce
  let tag := tagOf cr st.bundle.name name
  let ct ← call (.encrypt .corrupt st.bundle.record nonce (aad magic st.profile tag)
    (inner name plaintext))
  writeWithManifest cr st tag (magic ++ nonce.1 ++ ct) name

/-- Check the limits and write a record; `mark` runs in between, with whether the store has its
marker. -/
def putRecordWith (name plaintext : Bytes) (mark : Bool → StoreM Unit) : StoreM Unit := do
  require (plaintext.length ≤ maxRecordLen) .tooLarge
  call (.checkPrivateDir st.loc)
  let mem ← getMem st.loc
  -- internal records do not count against the user-visible limit
  require (mem.index.contains name || isInternal name || userRecords mem.index < maxRecords)
    .tooManyRecords
  mark (mem.index.contains marker)
  writeRecord cr st name plaintext

/-- `latch`: write the marker first when the store has none. -/
def putRecord (name plaintext : Bytes) : (latch : Bool) → StoreM Unit
  | false => putRecordWith cr st name plaintext fun _ => .pure ()
  | true => putRecordWith cr st name plaintext fun hasMarker =>
    onlyIf (!hasMarker) (putRecordWith cr st marker [] fun _ => .pure ())

/-- Encrypt and atomically write a record. -/
def put (name plaintext : Bytes) : StoreM Unit := do
  Program.ofExcept (validateRecordName name)
  require (!isInternal name) .badName
  putRecord cr st name plaintext true

/-- Unlink a record's file; an absent one is not an error. -/
def unlinkRecord (tag : Bytes) : StoreM Unit := do
  let _ ← ifPresent (call (.removeFile st.loc (.record tag)))
  call (.syncDir st.loc)

/-- Delete a record; an absent one is not an error. -/
def remove (name : Bytes) : StoreM Unit := do
  Program.ofExcept (validateRecordName name)
  require (!isInternal name) .badName
  call (.checkPrivateDir st.loc)
  let mem ← getMem st.loc
  require (!mem.poisoned) .corrupt
  let tag := tagOf cr st.bundle.name name
  onlyIf (mem.manifest.entries.contains tag) (mutate cr st tag name none (unlinkRecord st tag))

/-! ### Reading -/

/-- Read and decrypt a record; `none` if it does not exist. -/
def get (name : Bytes) : StoreM (Option Bytes) := do
  Program.ofExcept (validateRecordName name)
  require (!isInternal name) .badName
  call (.checkPrivateDir st.loc)
  let tag := tagOf cr st.bundle.name name
  let mem ← getMem st.loc
  match ← (readBlob cr st (.record tag) magic tag).attempt, mem.manifest.entries[tag]? with
  | .ok (plain, hash), some want =>
    if hash = want then do
      let (_, payload) ← Program.ofExcept (splitInner cr st.bundle.name plain tag)
      return some payload
    else .throw (.recordStale tag)
  | .ok _, none => .throw (.recordUnlisted tag)
  | .error (.io .notFound), some _ => .throw (.recordMissing tag)
  | .error (.io .notFound), none => return none
  | .error e, _ => .throw e

/-- Sorted record names currently present; internal ones are hidden. -/
def names : StoreM (List Bytes) := do
  call (.checkPrivateDir st.loc)
  let mem ← getMem st.loc
  return mem.index.toList.filter fun n => !isInternal n

/-! ### Loading -/

/-- Authenticate one record file and add it to the names and hashes found so far. -/
def loadRecord (acc : Names × Map Digest) (tag : Bytes) : StoreM (Names × Map Digest) := do
  let (plain, hash) ← named tag (readBlob cr st (.record tag) magic tag)
  let (name, _) ← named tag (Program.ofExcept (splitInner cr st.bundle.name plain tag))
  return (acc.1.insert name, acc.2.insert tag hash)

/-- Authenticate every record and build the name index; returns the hash of each file. -/
def loadIndex : StoreM (Map Digest) := do
  call (.checkPrivateDir st.loc)
  let found ← tags st.loc
  let (index, hashes) ← found.foldlM (loadRecord cr st) (∅, ∅)
  modifyMem st.loc fun m => { m with index }
  return hashes

/-- Complete a pending delete whose file is still there. -/
def finishDelete (loaded : Manifest) (p : Pending) (found : Map Digest) :
    StoreM (Map Digest) :=
  if !loaded.entries.contains p.tag && found.contains p.tag then do
    call (.removeFile st.loc (.record p.tag))
    modifyMem st.loc fun m =>
      { m with index := m.index.filter fun n => tagOf cr st.bundle.name n != p.tag }
    call (.syncDir st.loc)
    return found.erase p.tag
  else return found

/-- Finish an interrupted mutation: rewrite the manifest to match the files, without `pending`. -/
def settlePending (loaded : Manifest) (p : Pending) (found : Map Digest) : StoreM Unit := do
  let entries ← finishDelete cr st loaded p found
  commitManifest st { generation := nextGeneration loaded.generation, entries } true

/-- Write the latch unless the index shows it. -/
def restoreLatch : StoreM Unit := do
  let mem ← getMem st.loc
  onlyIf (!mem.index.contains manifestLatch) (putRecord cr st manifestLatch [] false)

/-- The first manifest of a store that has none yet. -/
def adoptManifest (found : Map Digest) (mayAdopt : Bool) : StoreM Unit := do
  let mem ← getMem st.loc
  require (!(mem.index.contains manifestLatch || (!found.isEmpty && !mayAdopt))) .manifestMissing
  commitManifest st { generation := 1, entries := found } true
  putRecord cr st manifestLatch [] false

/-- Adopt a verified manifest, finishing the mutation it may have in flight. -/
def adoptLoaded (loaded : Manifest) (found : Map Digest) : StoreM Unit :=
  match loaded.pending with
  | some p => settlePending cr st loaded p found
  | none => modifyMem st.loc fun m => { m with manifest := loaded }

/-- Read the manifest and verify it against the record files found. A store without one is
adopted unless it holds the latch, which proves a manifest was deleted. -/
def loadManifest (found : Map Digest) (mayAdopt : Bool) : StoreM Unit := do
  match ← ifPresent (readManifestBlob st.loc) with
  | none => adoptManifest cr st found mayAdopt
  | some blob => do
    let loaded ← Program.ofExcept (Manifest.openBlob cr st.bundle.manifest st.profile blob)
    Program.ofExcept (loaded.verify found)
    adoptLoaded cr st loaded found
    -- a crash during adoption can leave a manifest without its latch
    restoreLatch cr st

/-! ### Legacy files -/

/-- The smaller of two stems in byte order. -/
def firstStem (first : Option Bytes) (stem : Bytes) : Option Bytes :=
  match first with
  | none => some stem
  | some f => if compare stem f = .lt then some stem else some f

/-- Authenticate the first legacy record, so that a wrong key cannot start an upgrade. -/
def authenticateFirstLegacy : StoreM Unit := do
  match ← (call (.read st.loc .manifest)).attempt with
  | .ok _ => return ()
  | .error _ => do
    let files ← call (.readDir st.loc)
    match (files.filterMap legacyStem).foldl firstStem none with
    | none => return ()
    | some name => do
      let _ ← readBlob cr st (.legacy name) legacyMagic name
      return ()

/-- Sweep one listed file: temporaries go, legacy names are collected. -/
def sweepLegacy (legacy : List Bytes) (f : FileName) : StoreM (List Bytes) :=
  match f with
  | .legacyTmp stem => do
    onlyIf (validRecordName stem) (call (.removeFile st.loc (.legacyTmp stem)))
    return legacy
  | .legacy stem =>
    if validRecordName stem then do
      require (legacy.length < maxRecords) .tooManyRecords
      return legacy ++ [stem]
    else return legacy
  | _ => return legacy

/-- Import one legacy record unless a new-format record of its name exists. -/
def importLegacy (name : Bytes) : StoreM Unit := do
  let mem ← getMem st.loc
  onlyIf (!mem.index.contains name) do
    let tag := tagOf cr st.bundle.name name
    let present ← ifPresent (call (.read st.loc (.record tag)))
    -- present but not in the index: refuse rather than overwrite
    require present.isNone .corrupt
    let (plain, _) ← readBlob cr st (.legacy name) legacyMagic name
    require (plain.length ≤ maxRecordLen) .corrupt
    putRecord cr st name plain false

/-- Import (unless the window is closed) and delete one legacy file. -/
def migrateOne (closed imported : Bool) (name : Bytes) : StoreM Bool := do
  onlyIf (!closed) (importLegacy cr st name)
  call (.removeFile st.loc (.legacy name))
  call (.syncDir st.loc)
  return imported || !closed

/-- Re-encrypt every legacy record, then delete its file. Once the store holds the marker, stray
legacy files are deleted unread. -/
def migrateLegacy (mayImport : Bool) : StoreM Unit := do
  let files ← call (.readDir st.loc)
  let legacy ← files.foldlM (sweepLegacy st) []
  let mem ← getMem st.loc
  let closed := !mayImport || mem.index.contains marker
  let sorted := legacy.insertionSort fun a b => (compare a b).isLE
  let imported ← sorted.foldlM (migrateOne cr st closed) false
  onlyIf imported (putRecord cr st marker [] false)

/-! ### Starting -/

/-- What `start` still has to do after the key bundle is known. -/
inductive Flow
  /-- The key file already holds the bundle. -/
  | keyed
  /-- A new store: write the key file before anything else. -/
  | fresh (pw : PasswordKek)
  /-- A pre-`PHS3` store: adopt, then write the key file once every record has authenticated. -/
  | upgrade (pw : PasswordKek)

def Flow.upgrading : Flow → Bool
  | .upgrade _ => true
  | _ => false

/-- Seal the bundle under a password key into a new key file. -/
def createKeyfile (pw : PasswordKek) : StoreM Unit := do
  writeKeyfile st.loc (← KeyFile.new st.profile st.bundle pw none)

/-- A fresh store gets its key file before anything else. -/
def beforeLoad : Flow → StoreM Unit
  | .fresh pw => createKeyfile st pw
  | _ => .pure ()

/-- An upgraded store gets its key file last, so a wrong password never leaves one behind. -/
def afterLoad : Flow → StoreM Unit
  | .upgrade pw => createKeyfile st pw
  | _ => .pure ()

/-- Load and authenticate the store. -/
def start (flow : Flow) : StoreM ProfileStore := do
  beforeLoad st flow
  let found ← loadIndex cr st
  onlyIf (flow.upgrading && found.isEmpty) (authenticateFirstLegacy cr st)
  loadManifest cr st found flow.upgrading
  migrateLegacy cr st flow.upgrading
  afterLoad st flow
  return st

/-- A handle starts out with nothing in memory. -/
def build : StoreM ProfileStore := do
  modifyMem st.loc fun _ => {}
  return st

end Handle

end Powehi.Store
