import Powehi.Semantics.Triple
import Powehi.Store.Directory

/-!
# The device the store runs on

The operations the store performs on its environment — file-system calls, the random
generator, sealing, and the shared state of an open handle — and the machine that executes
them. Every call can fail, with or without its effect having taken place; a single rename
or unlink is atomic and calls take effect in program order.

A temporary file is written, synced and renamed onto its target by one call, `replace`:
nothing ever reads a temporary, so only the rename is visible. A failing call never claims
that an existing file is absent (`ErrorKind.notFound`).
-/

namespace Powehi.Store

open Codec Semantics

/-! ### State -/

/-- What an open `ProfileStore` keeps behind its locks. -/
structure Mem where
  manifest : Manifest := {}
  index : Names := ∅
  poisoned : Bool := false

/-- One use of the AEAD, as a ghost record. -/
structure Seal where
  key : Key
  nonce : Nonce
  aad : Bytes
  msg : Bytes
deriving DecidableEq

/-- The state of the machine. A crash loses `mem`; `seals` is a ghost log. -/
structure World where
  disk : Disk
  mem : Loc → Mem := fun _ => {}
  seals : List Seal := []

namespace World

/-- Replace the contents of an existing directory. -/
def setDir (s : World) (l : Loc) (d : Dir) : World := { s with disk := s.disk.setDir l d }

/-- Replace the memory of the handle on a directory. -/
def setMem (s : World) (l : Loc) (m : Mem) : World := { s with mem := Function.update s.mem l m }

@[simp] theorem setDir_disk (s : World) (l : Loc) (d : Dir) :
    (s.setDir l d).disk = s.disk.setDir l d := rfl

@[simp] theorem setDir_mem (s : World) (l : Loc) (d : Dir) : (s.setDir l d).mem = s.mem := rfl

@[simp] theorem setMem_disk (s : World) (l : Loc) (m : Mem) : (s.setMem l m).disk = s.disk := rfl

@[simp] theorem setMem_mem_self (s : World) (l : Loc) (m : Mem) : (s.setMem l m).mem l = m := by
  simp [setMem]

theorem setMem_mem_of_ne (s : World) {l l' : Loc} (m : Mem) (h : l' ≠ l) :
    (s.setMem l m).mem l' = s.mem l' := by
  simp [setMem, h]

end World

/-! ### Operations -/

/-- Calls that can fail. -/
inductive Call : Type → Type
  /-- Take the profile lock. -/
  | lock : Call Unit
  /-- Draw a nonce from the operating system. -/
  | fillNonce : Call Nonce
  /-- Draw a key bundle from the operating system. -/
  | fillBundle : Call Bundle
  /-- AES-256-GCM encryption; `err` is the error it is reported as. -/
  | encrypt (err : StoreError) (key : Key) (nonce : Nonce) (aad msg : Bytes) : Call Bytes
  | checkPrivateDir (l : Loc) : Call Unit
  | readDir (l : Loc) : Call (List FileName)
  /-- Look a path up without following a symbolic link, and read it if it is a file. -/
  | read (l : Loc) (f : FileName) : Call Entry
  /-- Write a temporary file with mode 0600, sync it and rename it onto the target. -/
  | replace (l : Loc) (f : FileName) (bytes : Bytes) : Call Unit
  | removeFile (l : Loc) (f : FileName) : Call Unit
  /-- Sync the directory. -/
  | syncDir (l : Loc) : Call Unit
  /-- Rename a staged file onto its name in the profile directory. -/
  | moveIn (f : FileName) : Call Unit
  /-- Whether `rekey.new` is a directory. -/
  | statStaging : Call Bool
  /-- Create `rekey.new` with mode 0700; an existing path is not an error. -/
  | createStaging : Call Unit
  | removeStagingFile : Call Unit
  /-- Some of the unlinks inside `rekey.new` that removing the directory begins with. -/
  | clearStaging : Call Unit
  /-- The rest of removing the directory `rekey.new`. -/
  | removeStagingDir : Call Unit

/-- The operations of a store program. -/
inductive StoreOp : Type → Type 1
  | call {β : Type} (o : Call β) : StoreOp (Except StoreError β)
  /-- `Path::exists`, which follows symbolic links and answers `false` on any error. -/
  | exists (l : Loc) (f : FileName) : StoreOp Bool
  | getMem (l : Loc) : StoreOp Mem
  | setMem (l : Loc) (m : Mem) : StoreOp Unit

/-- What the environment decides at one operation. -/
structure Choice where
  /-- `none` when a call succeeds, else whether its effect took place all the same. -/
  fault : Option Bool
  nonce : Nonce
  bundle : Bundle
  /-- The order in which a directory is listed. -/
  order : List FileName → List FileName
  /-- The files an interrupted removal of the staging directory leaves. -/
  keep : FileName → Bool
  /-- `Path::exists` runs into an error. -/
  blind : Bool

/-! ### Semantics -/

/-- The error a failing call reports. -/
def Call.error {β : Type} : Call β → StoreError
  | .lock => .locked
  | .encrypt err _ _ _ _ => err
  | _ => .io .other

/-- `l` in the order the environment lists it. -/
def Choice.arrange (c : Choice) (l : List FileName) : List FileName :=
  if (c.order l).isPerm l then c.order l else l

theorem Choice.arrange_perm (c : Choice) (l : List FileName) : (c.arrange l).Perm l := by
  unfold arrange
  split
  · exact List.isPerm_iff.mp ‹_›
  · exact .refl l

/-- A directory at `l`, or the error of addressing a missing one. -/
def World.withDir {β : Type} (s : World) (l : Loc) (k : Dir → Except StoreError β × World) :
    Except StoreError β × World :=
  match s.disk.dir? l with
  | some d => k d
  | none => (.error (.io .notFound), s)

/-- The result and effect of a call that does not fail at the device. -/
def Call.effect (cr : Crypto) {β : Type} (o : Call β) (c : Choice) (s : World) :
    Except StoreError β × World :=
  match o with
  | .lock => (.ok (), s)
  | .fillNonce => (.ok c.nonce, s)
  | .fillBundle => (.ok c.bundle, s)
  | .encrypt _ k n a m => (.ok (cr.encrypt k n a m), { s with seals := ⟨k, n, a, m⟩ :: s.seals })
  | .checkPrivateDir .home => (.ok (), s)
  | .checkPrivateDir .staging =>
    match s.disk.staging with
    | .absent => (.error (.io .notFound), s)
    | .notDir | .dir false _ => (.error .insecurePath, s)
    | .dir true _ => (.ok (), s)
  | .readDir l => s.withDir l fun d => (.ok (c.arrange d.listing), s)
  | .read l f => s.withDir l fun d =>
    match d.get f with
    | some e => (.ok e, s)
    | none => (.error (.io .notFound), s)
  | .replace l f b => s.withDir l fun d =>
    -- a rename does not replace a directory by a file
    if d.get f = some .dir then (.error (.io .other), s)
    else (.ok (), s.setDir l (d.set f (some (privateFile b))))
  | .removeFile l f => s.withDir l fun d =>
    match d.get f with
    | none => (.error (.io .notFound), s)
    | some .dir => (.error (.io .other), s)
    | some _ => (.ok (), s.setDir l (d.set f none))
  | .syncDir l => s.withDir l fun _ => (.ok (), s)
  | .moveIn f => s.withDir .staging fun d =>
    match d.get f with
    | none => (.error (.io .notFound), s)
    | some e =>
      if s.disk.home.get f = some .dir then (.error (.io .other), s)
      else (.ok (), (s.setDir .staging (d.set f none)).setDir .home (s.disk.home.set f (some e)))
  | .statStaging =>
    match s.disk.staging with
    | .absent => (.error (.io .notFound), s)
    | .notDir => (.ok false, s)
    | .dir _ _ => (.ok true, s)
  | .createStaging =>
    match s.disk.staging with
    | .absent => (.ok (), { s with disk := { s.disk with staging := .dir true {} } })
    | _ => (.ok (), s)
  | .removeStagingFile =>
    match s.disk.staging with
    | .absent => (.error (.io .notFound), s)
    | .notDir => (.ok (), { s with disk := { s.disk with staging := .absent } })
    | .dir _ _ => (.error (.io .other), s)
  | .clearStaging => s.withDir .staging fun d => (.ok (), s.setDir .staging (d.filter c.keep))
  | .removeStagingDir => s.withDir .staging fun _ =>
    (.ok (), { s with disk := { s.disk with staging := .absent } })

/-- Execute a call under the environment's decision whether it fails. -/
def Call.exec (cr : Crypto) {β : Type} (o : Call β) (c : Choice) (s : World) :
    Except StoreError β × World :=
  match c.fault with
  | none => o.effect cr c s
  | some false => (.error o.error, s)
  | some true => (.error o.error, (o.effect cr c s).2)

/-- Whether `Path::exists` finds something. -/
def World.exists (s : World) (l : Loc) (f : FileName) : Bool :=
  match (s.disk.dir? l).bind (·.get f) with
  | none | some (.symlink true) => false
  | some _ => true

/-- The semantics of the store's operations. -/
def machine (cr : Crypto) : Machine StoreOp World Choice where
  exec o c s :=
    match o with
    | .call o => o.exec cr c s
    | .exists l f => (!c.blind && s.exists l f, s)
    | .getMem l => (s.mem l, s)
    | .setMem l m => ((), s.setMem l m)

/-! ### Programs -/

/-- Programs of the store. -/
abbrev StoreM := Program StoreOp StoreError

/-- Perform a call; its error ends the program. -/
def call {β : Type} (o : Call β) : StoreM β := Program.request (.call o)

/-- `Path::exists`. -/
def pathExists (l : Loc) (f : FileName) : StoreM Bool := Program.perform (.exists l f)

/-- Read the memory of the handle on `l`. -/
def getMem (l : Loc) : StoreM Mem := Program.perform (.getMem l)

/-- Update the memory of the handle on `l`. -/
def modifyMem (l : Loc) (f : Mem → Mem) : StoreM Unit := do
  let m ← getMem l
  Program.perform (.setMem l (f m))

end Powehi.Store
