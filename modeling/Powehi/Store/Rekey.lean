import Powehi.Store.Open

/-!
# Rekey

Moves an upgraded store off its export-key-derived keys onto a fresh random bundle: every
record is re-encrypted into the staging directory, the journal commits, and reopening the
store rolls the switch forward.
-/

namespace Powehi.Store

open Codec Semantics

section

variable (cr : Crypto) (st : ProfileStore)

/-- Read a record and write it into the staged store. -/
def restage (fresh : ProfileStore) (name : Bytes) : StoreM Unit := do
  match ← get cr st name with
  | some payload => putRecord cr fresh name payload true
  | none => .throw .corrupt

/-- Add the recovery slot if the phrase was entered. -/
def wrapIfGiven (fresh : ProfileStore) : Option RecoveryKek → StoreM Unit
  | some rc => addRecoveryWrap fresh rc
  | none => .pure ()

/-- Byte order of the tags two names have under a name key. -/
def tagLE (nameKey : Key) (a b : Bytes) : Bool :=
  (compare (tagOf cr nameKey a) (tagOf cr nameKey b)).isLE

/-- Build the staging store and return the tags of its records. -/
def stage (exportKey : Bytes) (recovery : Option RecoveryKek) : StoreM (List Bytes) := do
  removeStaging
  call .createStaging
  call (.checkPrivateDir .staging)
  let bundle ← call .fillBundle
  let fresh ← build { loc := .staging, profile := st.profile, bundle }
  let pw ← Program.ofExcept (PasswordKek.new cr exportKey)
  let fresh ← start cr fresh (.fresh pw)
  wrapIfGiven fresh recovery
  let mem ← getMem st.loc
  onlyIf (mem.index.contains marker) (putRecord cr fresh marker [] false)
  let records ← names st
  -- new-tag order, so that the files' order leaks nothing about the names
  (records.insertionSort fun a b => tagLE cr fresh.bundle.name a b).forM (restage cr st fresh)
  let staged ← tags .staging
  call (.syncDir .staging)
  return staged

/-- A staged record, for its journal line. -/
def journalEntry (tag : Bytes) : StoreM (Bytes × Bytes) := do
  return (tag, ← fileHashHex cr .staging (.record tag))

/-- The commit point: after this the switch is rolled forward by every `open`. -/
def writeJournal (staged old : List Bytes) (pw : PasswordKek) : StoreM Unit := do
  let new ← staged.mapM (journalEntry cr)
  let hash ← fileHashHex cr .staging .manifest
  let body := journalBody new hash old
  require (body.length ≤ journalBodyMax) .tooManyRecords
  let bytes ← readPrivateFile .staging .keyfile keyfileMaxLen .keyfileCorrupt
  let keys ← Program.ofExcept (KeyFile.decode bytes)
  let bundle ← Program.ofExcept (keys.unlockPassword cr st.profile pw)
  let sealed ← sealJournal bundle st.profile body
  call (.replace .home .journal sealed)
  call (.syncDir .home)

/-- If the key file has a recovery slot, the phrase's key is required and must open it to the
store's bundle. -/
def checkRecovery (recovery : Option RecoveryKek) : StoreM Unit := do
  let current ← currentKeyfile st
  match current.hasRecovery, recovery with
  | false, _ => return ()
  | true, none => .throw .recoveryPhraseRequired
  | true, some rc => do
    let bundle ← Program.ofExcept (current.unlockRecovery cr st.profile rc)
    require (bundle.sameKeys st.bundle) .authentication

/-- Stage the new store; a failure discards what was staged. -/
def stageOrDiscard (exportKey : Bytes) (recovery : Option RecoveryKek) : StoreM (List Bytes) := do
  match ← (stage cr st exportKey recovery).attempt with
  | .ok staged => return staged
  | .error e => do
    let _ ← removeStaging.attempt
    .throw e

/-- Re-encrypt a store that still uses derived keys under a fresh random bundle and reopen it;
any other store is returned as it is. -/
def rekey (exportKey : Bytes) (recovery : Option RecoveryKek) : StoreM ProfileStore := do
  require (!st.byRecovery) .rekeyRequired
  if !st.derivedKeys then return st
  else do
    require (st.loc == .home) .insecurePath
    let mem ← getMem st.loc
    require (!mem.poisoned) .corrupt
    let derived ← Program.ofExcept (Bundle.derived cr exportKey)
    require (derived.sameKeys st.bundle) .authentication
    call (.checkPrivateDir st.loc)
    checkRecovery cr st recovery
    let old ← tags st.loc
    let staged ← stageOrDiscard cr st exportKey recovery
    let pw ← Program.ofExcept (PasswordKek.new cr exportKey)
    writeJournal cr st staged old pw
    openStore cr st.profile exportKey

end

end Powehi.Store
