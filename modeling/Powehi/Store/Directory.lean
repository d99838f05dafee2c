import Mathlib.Data.List.Nodup
import Powehi.Store.Types

/-!
# The profile directory

What a profile directory can hold, as far as the store ever looks at it: the key file, the
manifest, the rekey journal, record files `<stem>.rc2`, and legacy files `<stem>.rec` with
their temporaries. Any of these names can also be taken by a symbolic link, a directory or
a special file. Next to it stands the staging directory of a rekey.
-/

namespace Powehi.Store

open Codec Std.ExtTreeMap

/-- What a path can name. -/
inductive Entry
  /-- A regular file; `priv` when no group or other permission bit is set. -/
  | file (bytes : Bytes) (priv : Bool)
  | symlink (dangling : Bool)
  | dir
  /-- A FIFO, socket or device. -/
  | special
deriving DecidableEq

/-- A private regular file, as the store itself writes them (mode 0600). -/
def privateFile (b : Bytes) : Entry := .file b true

/-- The file names the store reads or writes inside a profile directory. -/
inductive FileName
  | keyfile
  | manifest
  | journal
  /-- `<stem>.rc2` -/
  | record (stem : Bytes)
  /-- `<stem>.rec` -/
  | legacy (stem : Bytes)
  /-- `<stem>.rec.tmp` -/
  | legacyTmp (stem : Bytes)
deriving DecidableEq

/-- The contents of one directory. -/
structure Dir where
  keyfile : Option Entry := none
  manifest : Option Entry := none
  journal : Option Entry := none
  records : Map Entry := ∅
  legacy : Map Entry := ∅
  legacyTmp : Map Entry := ∅
deriving DecidableEq

namespace Dir

/-- The entry under a file name. -/
def get (d : Dir) : FileName → Option Entry
  | .keyfile => d.keyfile
  | .manifest => d.manifest
  | .journal => d.journal
  | .record stem => d.records[stem]?
  | .legacy stem => d.legacy[stem]?
  | .legacyTmp stem => d.legacyTmp[stem]?

/-- Replace the entry under a file name; `none` removes it. -/
def set (d : Dir) (f : FileName) (e : Option Entry) : Dir :=
  match f with
  | .keyfile => { d with keyfile := e }
  | .manifest => { d with manifest := e }
  | .journal => { d with journal := e }
  | .record stem => { d with records := d.records.update stem e }
  | .legacy stem => { d with legacy := d.legacy.update stem e }
  | .legacyTmp stem => { d with legacyTmp := d.legacyTmp.update stem e }

theorem get_set (d : Dir) (f g : FileName) (e : Option Entry) :
    (d.set f e).get g = if g = f then e else d.get g := by
  cases f <;> cases g <;> simp [set, get, Map.getElem?_update]

@[simp] theorem get_set_self (d : Dir) (f : FileName) (e : Option Entry) :
    (d.set f e).get f = e := by
  rw [get_set, if_pos rfl]

theorem get_set_of_ne (d : Dir) {f g : FileName} (e : Option Entry) (h : g ≠ f := by simp) :
    (d.set f e).get g = d.get g := by
  rw [get_set, if_neg h]

/-- The names present, in no particular order. -/
def listing (d : Dir) : List FileName :=
  (if d.keyfile.isSome then [.keyfile] else []) ++
  (if d.manifest.isSome then [.manifest] else []) ++
  (if d.journal.isSome then [.journal] else []) ++
  d.records.keys.map .record ++ d.legacy.keys.map .legacy ++ d.legacyTmp.keys.map .legacyTmp

theorem mem_listing (d : Dir) (f : FileName) : f ∈ d.listing ↔ (d.get f).isSome := by
  cases f <;> simp [listing, get]

theorem nodup_listing (d : Dir) : d.listing.Nodup := by
  have hmap : ∀ (m : Map Entry) (f : Bytes → FileName), Function.Injective f →
      (m.keys.map f).Nodup := fun m f hf => List.Nodup.map hf m.nodup_keys
  have hrecords := hmap d.records .record fun _ _ h => by injection h
  have hlegacy := hmap d.legacy .legacy fun _ _ h => by injection h
  have htmp := hmap d.legacyTmp .legacyTmp fun _ _ h => by injection h
  have hone : ∀ (b : Bool) (f : FileName), (if b then [f] else []).Nodup := by
    intro b f
    cases b <;> simp
  refine (((((hone _ _).append (hone _ _) ?_).append (hone _ _) ?_).append hrecords ?_).append
    hlegacy ?_).append htmp ?_
  all_goals
    intro f hf hf'
    cases f <;> simp at hf hf'

/-- Keep only the names that `keep` selects. -/
def filter (d : Dir) (keep : FileName → Bool) : Dir where
  keyfile := if keep .keyfile then d.keyfile else none
  manifest := if keep .manifest then d.manifest else none
  journal := if keep .journal then d.journal else none
  records := d.records.filterMap fun stem e => if keep (.record stem) then some e else none
  legacy := d.legacy.filterMap fun stem e => if keep (.legacy stem) then some e else none
  legacyTmp := d.legacyTmp.filterMap fun stem e => if keep (.legacyTmp stem) then some e else none

theorem get_filter (d : Dir) (keep : FileName → Bool) (f : FileName) :
    (d.filter keep).get f = if keep f then d.get f else none := by
  cases f with
  | keyfile | manifest | journal => rfl
  | record stem =>
    simp only [filter, get, getElem?_filterMap']
    cases d.records[stem]? <;> simp
  | legacy stem =>
    simp only [filter, get, getElem?_filterMap']
    cases d.legacy[stem]? <;> simp
  | legacyTmp stem =>
    simp only [filter, get, getElem?_filterMap']
    cases d.legacyTmp[stem]? <;> simp

end Dir

/-! ### The disk -/

/-- The profile directory, or the staging directory `rekey.new` inside it. -/
inductive Loc
  | home
  | staging
deriving DecidableEq

/-- What the path `rekey.new` names. -/
inductive Staging
  | absent
  | notDir
  | dir (priv : Bool) (d : Dir)
deriving DecidableEq

/-- The persistent state of one profile. -/
structure Disk where
  home : Dir := {}
  staging : Staging := .absent
deriving DecidableEq

namespace Disk

/-- The directory at a location, if there is one. -/
def dir? (k : Disk) : Loc → Option Dir
  | .home => some k.home
  | .staging =>
    match k.staging with
    | .dir _ d => some d
    | _ => none

/-- Replace the contents of an existing directory. -/
def setDir (k : Disk) (l : Loc) (d : Dir) : Disk :=
  match l with
  | .home => { k with home := d }
  | .staging =>
    match k.staging with
    | .dir priv _ => { k with staging := .dir priv d }
    | _ => k

@[simp] theorem dir?_home (k : Disk) : k.dir? .home = some k.home := rfl

@[simp] theorem setDir_home (k : Disk) (d : Dir) : k.setDir .home d = { k with home := d } := rfl

theorem dir?_setDir {k : Disk} {l : Loc} {d : Dir} (h : k.dir? l = some d) (d' : Dir) :
    (k.setDir l d').dir? l = some d' := by
  obtain ⟨home, staging⟩ := k
  cases l with
  | home => rfl
  | staging => cases staging <;> simp_all [dir?, setDir]

@[simp] theorem setDir_setDir (k : Disk) (l : Loc) (d d' : Dir) :
    (k.setDir l d).setDir l d' = k.setDir l d' := by
  obtain ⟨home, staging⟩ := k
  cases l <;> cases staging <;> rfl

theorem setDir_dir? {k : Disk} {l : Loc} {d : Dir} (h : k.dir? l = some d) : k.setDir l d = k := by
  obtain ⟨home, staging⟩ := k
  cases l <;> cases staging <;> simp_all [dir?, setDir]

end Disk

end Powehi.Store
