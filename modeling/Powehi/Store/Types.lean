import Powehi.Codec.ByteMap
import Powehi.Store.Crypto

/-!
# Data of the profile store

Errors, limits and the records the store keeps in memory: the key bundle, the manifest and
the decoded key file. `BTreeMap<String, _>` and `BTreeSet<String>` are `Map` and `Names`.
-/

namespace Powehi.Store

open Codec

/-! ### Limits -/

def nonceLen : ℕ := 12
def keyLen : ℕ := 32
def hashLen : ℕ := 32
def exportKeyLen : ℕ := 32
def recoverySeedLen : ℕ := 64
/-- Hex characters in a file-name tag. -/
def tagHexLen : ℕ := 32
def rawTagLen : ℕ := tagHexLen / 2
/-- Upper bound on one record's plaintext. -/
def maxRecordLen : ℕ := 16 * 1024 * 1024
/-- Longest record name, in bytes. -/
def maxNameLen : ℕ := 64
/-- Largest on-disk plaintext: one length byte, the name, then the payload. -/
def maxInnerLen : ℕ := 1 + maxNameLen + maxRecordLen
/-- Upper bound on user records per profile (the internal ones are extra). -/
def maxRecords : ℕ := 4096
/-- Largest manifest plaintext: header, every record entry, the pending entry. -/
def maxManifestLen : ℕ := 8 + 4 + (maxRecords + 2) * (rawTagLen + hashLen) + 2 + 48

/-! ### Errors -/

/-- The kinds of I/O error the store tells apart (`std::io::ErrorKind`). -/
inductive ErrorKind
  | notFound
  | other
deriving DecidableEq, Repr

/-- `StoreError`. -/
inductive StoreError
  | badKeyLength
  | badName
  | tooLarge
  | tooManyRecords
  | insecurePath
  | corrupt
  | authentication
  | manifestMissing
  | manifestCorrupt
  | upgradeRequired
  | keyfileMissing
  | keyfileCorrupt
  | rekeyRequired
  | recoveryPhraseRequired
  | rekeyJournalCorrupt
  | noRecoveryWrap
  | recordMissing (tag : Bytes)
  | recordUnlisted (tag : Bytes)
  | recordStale (tag : Bytes)
  | locked
  | io (kind : ErrorKind)
  /-- `open` failed on one record file; `tag` is its file stem. -/
  | record (tag : Bytes) (cause : StoreError)
deriving DecidableEq, Repr

/-! ### Keys -/

/-- The record, name-tag and manifest keys of one store. -/
structure Bundle where
  record : Key
  name : Key
  manifest : Key
deriving DecidableEq, Inhabited

/-- Decoded `keys.wk3`: the password slot and the optional recovery slot. A slot is a nonce
followed by the sealed bundle. -/
structure KeyFile where
  password : Bytes
  recovery : Option Bytes
deriving DecidableEq

/-! ### Manifest -/

/-- An interrupted mutation: the record at `tag` is either `old` or the manifest's entry. -/
structure Pending where
  tag : Bytes
  old : Option Digest
deriving DecidableEq

/-- Decoded manifest: a monotonic generation and the SHA-256 of every record file. -/
structure Manifest where
  generation : UInt64 := 0
  entries : Map Digest := ∅
  pending : Option Pending := none
deriving DecidableEq, Inhabited

/-- `u64::saturating_add(1)`. -/
def nextGeneration (g : UInt64) : UInt64 := if g = UInt64.ofNat (2 ^ 64 - 1) then g else g + 1

end Powehi.Store
