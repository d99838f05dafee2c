import Powehi.Store.Recover

/-!
# Opening a profile

`open`, `open_upgrading` and `open_with_recovery`, and the operations that rewrite the key
file of an open store.
-/

namespace Powehi.Store

open Codec Semantics

/-- How the caller proves that it may read the store. -/
inductive Unlock
  | password (exportKey : Bytes)
  | recovery (rc : RecoveryKek)

/-- An `Unlock` with its password key derived. -/
inductive Unlocker
  | password (exportKey : Bytes) (pw : PasswordKek)
  | recovery (rc : RecoveryKek)

section

variable (cr : Crypto)

/-- Derive the password key, which fails for an export key of the wrong length. -/
def Unlock.derive : Unlock → Except StoreError Unlocker
  | .password ek => (PasswordKek.new cr ek).map (.password ek)
  | .recovery rc => .ok (.recovery rc)

/-- Open the slot of a key file that the caller's key belongs to. -/
def Unlocker.unlock (u : Unlocker) (profile : Bytes) (kf : KeyFile) : Except StoreError Bundle :=
  match u with
  | .password _ pw => kf.unlockPassword cr profile pw
  | .recovery rc => kf.unlockRecovery cr profile rc

def Unlocker.byRecovery : Unlocker → Bool
  | .password _ _ => false
  | .recovery _ => true

/-- Validate a profile name (`profile::validate_name`). -/
def validProfileName (name : Bytes) : Bool :=
  name.length ≤ 64 && name.all isNameByte &&
    match name with
    | [] => false
    | b :: _ => b != 45 && b != 95

/-- Check the directory, validate the profile name and take the profile lock. -/
def prepare (profile : Bytes) : StoreM Unit := do
  call (.checkPrivateDir .home)
  require (validProfileName profile) .insecurePath
  call .lock

/-- The bundle, whether it is derived from the export key, and what is left to do. -/
structure Keys where
  bundle : Bundle
  derivedKeys : Bool
  flow : Flow

/-- Find the key bundle: in the key file, derived for an upgrade, or fresh for a new store. -/
def findKeys (profile : Bytes) (u : Unlocker) (upgrade : Bool) (keyfile : Option KeyFile)
    (hasFiles : Bool) : StoreM Keys :=
  match keyfile, u with
  | some kf, .password ek pw => do
    let bundle ← Program.ofExcept (kf.unlockPassword cr profile pw)
    let derived ← Program.ofExcept (Bundle.derived cr ek)
    return ⟨bundle, bundle.sameKeys derived, .keyed⟩
  | some kf, .recovery rc => do
    let bundle ← Program.ofExcept (kf.unlockRecovery cr profile rc)
    return ⟨bundle, false, .keyed⟩
  | none, .recovery _ => .throw .keyfileMissing
  | none, .password ek pw =>
    if hasFiles then
      if upgrade then do
        let bundle ← Program.ofExcept (Bundle.derived cr ek)
        return ⟨bundle, true, .upgrade pw⟩
      else .throw .upgradeRequired
    else do
      let bundle ← call .fillBundle
      return ⟨bundle, false, .fresh pw⟩

def openAs (profile : Bytes) (unlock : Unlock) (upgrade : Bool) : StoreM ProfileStore := do
  let u ← Program.ofExcept (unlock.derive cr)
  prepare profile
  recover cr profile (u.unlock cr profile)
  let keyfile ← readKeyfile .home
  let hasFiles ← hasStoreFiles .home
  let keys ← findKeys cr profile u upgrade keyfile hasFiles
  let st ← build
    { loc := .home, profile, bundle := keys.bundle, derivedKeys := keys.derivedKeys,
      byRecovery := u.byRecovery }
  start cr st keys.flow

/-- Open a store with its password key, creating it if the directory is empty. -/
def openStore (profile exportKey : Bytes) : StoreM ProfileStore :=
  openAs cr profile (.password exportKey) false

/-- Like `openStore`, but converts a pre-`PHS3` store. -/
def openUpgrading (profile exportKey : Bytes) : StoreM ProfileStore :=
  openAs cr profile (.password exportKey) true

/-- Open with the recovery-phrase key. -/
def openWithRecovery (profile : Bytes) (rc : RecoveryKek) : StoreM ProfileStore :=
  openAs cr profile (.recovery rc) false

/-! ### Rewriting the key file -/

variable (st : ProfileStore)

/-- The key file of an open store. -/
def currentKeyfile : StoreM KeyFile := do
  match ← readKeyfile st.loc with
  | some kf => return kf
  | none => .throw .keyfileMissing

/-- Reseal the bundle under the key of a new password, keeping the recovery slot. A store whose
keys may still derive from an export key is refused: resealing would only look like a rotation. -/
def rewrapPassword (newExportKey : Bytes) : StoreM Unit := do
  require (!(st.derivedKeys || st.byRecovery)) .rekeyRequired
  let pw ← Program.ofExcept (PasswordKek.new cr newExportKey)
  call (.checkPrivateDir st.loc)
  let current ← currentKeyfile st
  let next ← current.withPassword st.profile st.bundle pw
  writeKeyfile st.loc next

/-- Add or replace the recovery-phrase slot. -/
def addRecoveryWrap (rc : RecoveryKek) : StoreM Unit := do
  call (.checkPrivateDir st.loc)
  let current ← currentKeyfile st
  let next ← current.withRecovery st.profile st.bundle rc
  writeKeyfile st.loc next

end

end Powehi.Store
