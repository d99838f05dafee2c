import Powehi.Store.Profile

/-!
# Finishing an interrupted rekey

A rekey stages a complete store in `rekey.new` and commits by writing the journal `rekey.go`,
sealed under the new bundle. The journal lists the staged files with their hashes and the old
record tags to delete. `recover` runs at every `open`: it rolls a committed switch forward and
discards an uncommitted one.
-/

namespace Powehi.Store

open Codec Semantics

/-! ### The journal -/

/-- Journal file magic. -/
def journalMagic : Bytes := ascii "PHJ1"

/-- Largest journal body: a line per staged record, the manifest line, a line per old record. -/
def journalBodyMax : ℕ :=
  (maxRecords + 2) * (4 + tagHexLen + 2 * hashLen + 4 + tagHexLen) + 4 + 2 * hashLen

def journalMaxLen : ℕ := 4 + nonceLen + journalBodyMax + tagLen

/-- What the sealed journal says: staged record hashes, the manifest hash, old tags to delete.
Hashes are hexadecimal text. -/
structure Journal where
  new : Map Bytes := ∅
  manifest : Bytes := []
  old : Names := ∅
deriving DecidableEq

def isHashHex (h : Bytes) : Bool := h.length == 2 * hashLen && h.all isLowerHex

/-- The line separator. -/
def newline : UInt8 := 10

/-- The field separator. -/
def space : UInt8 := 32

/-- The lines of a journal: `n <tag> <hash>` per staged record, `m <hash>`, `d <tag>` per old
record. -/
def newLine (tag hash : Bytes) : Bytes := ascii "n " ++ tag ++ space :: hash
def manifestLine (hash : Bytes) : Bytes := ascii "m " ++ hash
def oldLine (tag : Bytes) : Bytes := ascii "d " ++ tag

/-- The text of a journal: each line ends in a newline. -/
def journalBody (new : List (Bytes × Bytes)) (hash : Bytes) (old : List Bytes) : Bytes :=
  (new.flatMap fun e => newLine e.1 e.2 ++ [newline]) ++ (manifestLine hash ++ [newline]) ++
    old.flatMap fun tag => oldLine tag ++ [newline]

/-- Read one line into the journal. -/
def Journal.readLine (j : Journal) (line : Bytes) : Option Journal :=
  match line.splitOn space with
  | [kind, tag, hash] =>
    if kind = ascii "n" ∧ isTag tag ∧ isHashHex hash ∧ tag ∉ j.new then
      some { j with new := j.new.insert tag hash }
    else none
  | [kind, field] =>
    if kind = ascii "m" ∧ isHashHex field ∧ j.manifest = [] then some { j with manifest := field }
    else if kind = ascii "d" ∧ isTag field ∧ field ∉ j.old then
      some { j with old := j.old.insert field }
    else none
  | _ => none

/-- A journal lists a manifest, stays within the limits, and deletes nothing it adds. -/
def Journal.complete (j : Journal) : Bool :=
  j.manifest != [] && j.new.size ≤ maxRecords + 2 && j.old.size ≤ maxRecords + 2 &&
    j.new.keys.all fun tag => !j.old.contains tag

/-- The body without its final newline, if it has one. -/
def stripNewline (b : Bytes) : Option Bytes :=
  if b.getLast? = some newline then some b.dropLast else none

/-- Parse a journal body. Text that is not UTF-8 has no line of an accepted form. -/
def parseJournal (bytes : Bytes) : Except StoreError Journal :=
  match (stripNewline bytes).bind fun body => (body.splitOn newline).foldlM Journal.readLine {} with
  | some j => if j.complete then .ok j else .error .rekeyJournalCorrupt
  | none => .error .rekeyJournalCorrupt

def journalAad (profile : Bytes) : Bytes := journalMagic ++ profile

/-- Seal a journal body under the manifest key of the new bundle. -/
def sealJournal (bundle : Bundle) (profile body : Bytes) : StoreM Bytes := do
  let nonce ← call .fillNonce
  let ct ← call (.encrypt .rekeyJournalCorrupt bundle.manifest nonce (journalAad profile) body)
  return journalMagic ++ nonce.1 ++ ct

/-- Authenticate the journal under the new bundle and parse it. -/
def openJournal (cr : Crypto) (bundle : Bundle) (profile bytes : Bytes) :
    Except StoreError Journal :=
  if bytes.length < journalMagic.length + nonceLen + tagLen ||
      bytes.take journalMagic.length != journalMagic then
    .error .rekeyJournalCorrupt
  else
    match readBlock 12 (bytes.drop journalMagic.length) with
    | none => .error .rekeyJournalCorrupt
    | some (nonce, ct) =>
      match cr.decrypt bundle.manifest nonce (journalAad profile) ct with
      | none => .error .rekeyJournalCorrupt
      | some body => parseJournal body

/-! ### The staging directory -/

/-- Remove the directory `rekey.new` with its contents. -/
def removeStagingAll : StoreM Unit := do
  call .clearStaging
  call .removeStagingDir

/-- Remove whatever is at `rekey.new`. -/
def removeStaging : StoreM Unit := do
  match ← ifPresent (call .statStaging) with
  | none => return ()
  | some true => removeStagingAll
  | some false => call .removeStagingFile

section Recover

variable (cr : Crypto) (profile : Bytes) (unlock : KeyFile → Except StoreError Bundle)

/-- Lower-case hex SHA-256 of a private regular file. -/
def fileHashHex (l : Loc) (f : FileName) : StoreM Bytes := do
  let bytes ← readPrivateFile l f maxBlobLen .rekeyJournalCorrupt
  return toHex (cr.sha256 bytes).1

/-- Where a file of the new store is now: staged, or moved already. -/
def locate (f : FileName) : StoreM Loc := do
  let staged ← pathExists .staging f
  return if staged then .staging else .home

/-- `f` must hash to `want`, staged or moved already. -/
def verifyFile (f : FileName) (want : Bytes) : StoreM Unit := do
  let l ← locate f
  let hash ← fileHashHex cr l f
  require (hash == want) .rekeyJournalCorrupt

/-- Move a staged regular file into the profile directory; a missing one was moved by an earlier
pass. -/
def moveFile (f : FileName) : StoreM Unit := do
  match ← ifPresent (call (.read .staging f)) with
  | none => return ()
  | some (.file _ _) => call (.moveIn f)
  | some _ => .throw .insecurePath

/-- Everything that is checked before a file moves or goes: the staged key file opens with the
caller's key, the journal authenticates under its bundle, and every file the journal lists is
exactly what was sealed. -/
def checkSwitch (sealed : Bytes) : StoreM Journal := do
  call (.checkPrivateDir .staging)
  -- the key file moves last: once it has, the profile's own copy is the staged one
  let l ← locate .keyfile
  let bytes ← readPrivateFile l .keyfile keyfileMaxLen .keyfileCorrupt
  let keys ← Program.ofExcept (KeyFile.decode bytes)
  let bundle ← Program.ofExcept (unlock keys)
  let journal ← Program.ofExcept (openJournal cr bundle profile sealed)
  journal.new.toList.forM fun e => verifyFile cr (.record e.1) e.2
  verifyFile cr .manifest journal.manifest
  return journal

/-- Move the staged records, then the manifest, then the key file. -/
def moveFiles (journal : Journal) : StoreM Unit := do
  journal.new.keys.forM fun tag => moveFile (.record tag)
  moveFile .manifest
  moveFile .keyfile

/-- Delete the records the journal lists as old; anything else is left alone. -/
def dropOldRecords (old : Names) : StoreM Unit :=
  old.toList.forM fun tag => do
    let _ ← ifPresent (call (.removeFile .home (.record tag)))

/-- Check, then switch to the staged store. -/
def finishSwitch (sealed : Bytes) : StoreM Unit := do
  let journal ← checkSwitch cr profile unlock sealed
  moveFiles journal
  -- the deletes rely on the moves having reached the disk first
  call (.syncDir .home)
  dropOldRecords journal.old
  -- a missing staging directory means the switch finished
  call (.syncDir .home)
  removeStagingAll

/-- Whether the staging directory is there; anything else under its name is refused. -/
def stagingPresent : StoreM Bool := do
  match ← ifPresent (call .statStaging) with
  | none => return false
  | some true => return true
  | some false => .throw .insecurePath

/-- Finish or discard an interrupted rekey. -/
def recover : StoreM Unit := do
  match ← ifPresent (readPrivateFile .home .journal journalMaxLen .rekeyJournalCorrupt) with
  | none => removeStaging
  | some sealed => do
    let staged ← stagingPresent
    onlyIf staged (finishSwitch cr profile unlock sealed)
    call (.syncDir .home)
    call (.removeFile .home .journal)
    call (.syncDir .home)

end Recover

end Powehi.Store
