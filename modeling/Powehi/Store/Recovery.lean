import Powehi.Store.WrongSecret
import Powehi.Store.RekeyAtomicity

/-!
# What recovery destroys

`recover` first reads, unlocks, authenticates and verifies (`inspect`), and only then moves and
deletes (`Verdict.act`). An error of the first part leaves the disk as it was. A record is deleted
only when the key file that counts opens a journal that lists the record as old, and the whole store
this journal lists is in the profile directory.
-/

namespace Powehi.Store

open Codec Semantics Program

section

/-! ### The two parts of `recover` -/

/-- What the first part of `recover` decides. -/
inductive Verdict
  /-- There is no journal: whatever is staged is discarded. -/
  | discard
  /-- There is nothing staged: the switch was finished, and only the journal is left. -/
  | finished
  | switch (journal : Journal)
deriving DecidableEq

/-- Everything `recover` does before it changes something: read, unlock, authenticate, verify. -/
def inspect (cr : Crypto) (profile : Bytes) (unlock : KeyFile → Except StoreError Bundle) :
    StoreM Verdict := do
  match ← ifPresent (readPrivateFile .home .journal journalMaxLen .rekeyJournalCorrupt) with
  | none => return .discard
  | some sealed => do
    let staged ← stagingPresent
    if staged then do
      let journal ← checkSwitch cr profile unlock sealed
      return .switch journal
    else return .finished

/-- The journal goes last. -/
def dropJournal : StoreM Unit := do
  call (.syncDir .home)
  call (.removeFile .home .journal)
  call (.syncDir .home)

/-- Everything `recover` changes. -/
def Verdict.act : Verdict → StoreM Unit
  | .discard => removeStaging
  | .finished => dropJournal
  | .switch journal => do
    moveFiles journal
    call (.syncDir .home)
    dropOldRecords journal.old
    call (.syncDir .home)
    removeStagingAll
    dropJournal

variable {cr : Crypto} {profile : Bytes} {unlock : KeyFile → Except StoreError Bundle}
  {A : Choice → Prop} {C : World → Prop} {s : World}

theorem recover_eq (cr : Crypto) (profile : Bytes) (unlock : KeyFile → Except StoreError Bundle) :
    recover cr profile unlock = inspect cr profile unlock >>= Verdict.act := by
  rw [recover, inspect, bind_assoc]
  congr 1
  funext found
  cases found with
  | none => rfl
  | some sealed =>
    simp only [bind_assoc]
    congr 1
    funext staged
    cases staged with
    | false => rfl
    | true => simp [onlyIf, finishSwitch, Verdict.act, dropJournal, bind_assoc]

/-- Nothing has changed when the first part ends. -/
theorem wp_inspect (hA : Sighted A) :
    wp (machine cr) A (inspect cr profile unlock) (fun _ t => t = s) (fun t => t = s) s := by
  rw [inspect, wp_bind]
  refine wp_ifPresent (wp_readPrivateFile_any (Disk.dir?_home _) nofun rfl
    (fun sealed _ _ => ⟨rfl, ?_⟩) (fun _ => ⟨rfl, rfl, rfl⟩) fun e he _ => ⟨rfl, ?_⟩)
  · rw [absentAsNone, andThen_ok]
    rw [wp_bind]
    refine wp_stagingPresent_any rfl (fun d _ => ?_) (fun _ => ⟨rfl, rfl⟩) fun _ => rfl
    rw [andThen_ok, if_pos rfl, wp_bind]
    exact wp_checkSwitch hA rfl (fun _ _ _ => ⟨rfl, rfl⟩) fun _ _ => rfl
  · rw [absentAsNone_error he, andThen_error]

/-! ### What is deleted -/

/-- The file under `f` is private and hashes to `want`. -/
def Dir.HasHash (cr : Crypto) (d : Dir) (f : FileName) (want : Bytes) : Prop :=
  ∃ b, d.get f = some (privateFile b) ∧ toHex (cr.sha256 b).1 = want

/-- The record `tag` may go: the directory's key file opens to a bundle that authenticates the
sealed journal, the journal lists the record as old and not as new, and everything the journal
lists as new is in the directory with the hash it gives. -/
def Sanctioned (cr : Crypto) (profile : Bytes) (unlock : KeyFile → Except StoreError Bundle)
    (sealed : Bytes) (d : Dir) (tag : Bytes) : Prop :=
  ∃ b kf bundle j, d.get .keyfile = some (privateFile b) ∧ KeyFile.decode b = .ok kf ∧
    unlock kf = .ok bundle ∧ openJournal cr bundle profile sealed = .ok j ∧
    tag ∈ j.old ∧ tag ∉ j.new ∧
    (∀ new want, j.new[new]? = some want → d.HasHash cr (.record new) want) ∧
    d.HasHash cr .manifest j.manifest

variable {sealed tag : Bytes} {bundle : Bundle} {j : Journal} {k₀ k₁ k : Disk} {d d' : Dir}

theorem Dir.HasHash.congr {f : FileName} {want : Bytes} (h : d.HasHash cr f want)
    (hsame : d'.get f = d.get f) : d'.HasHash cr f want := by
  obtain ⟨b, hget, hhash⟩ := h
  exact ⟨b, hsame.trans hget, hhash⟩

/-- The journal file itself has no part in it. -/
theorem Sanctioned.set_journal (h : Sanctioned cr profile unlock sealed d tag)
    (e : Option Entry) : Sanctioned cr profile unlock sealed (d.set .journal e) tag := by
  obtain ⟨b, kf, bundle, j, hkey, hdec, hunlock, hj, hold, hnew, hrecords, hmanifest⟩ := h
  refine ⟨b, kf, bundle, j, (d.get_set_of_ne e (by simp)).trans hkey, hdec, hunlock, hj, hold, hnew,
    fun new want hwant => ?_, hmanifest.congr (d.get_set_of_ne e (by simp))⟩
  exact (hrecords new want hwant).congr (d.get_set_of_ne e (by simp))

/-- A file that counted before the moves is in the profile directory after them. -/
theorem Moved.hasHash {fs : List FileName} {f : FileName} {want : Bytes} (h : Moved fs k₀ k)
    (hf : f ∈ fs) (hc : k₀.Carries cr f want) : k.home.HasHash cr f want := by
  obtain ⟨b, hcur, -, hhash⟩ := hc
  exact ⟨b, (h.current hf).trans hcur, hhash⟩

/-- While old records go, the new store is in place. -/
theorem Checked.sanctioned (hc : Checked cr profile unlock sealed k₀ bundle j)
    (h₁ : Moved j.files k₀ k₁) (h : Dropping j.old k₁ k) (htag : tag ∈ j.old) :
    Sanctioned cr profile unlock sealed k.home tag := by
  have hdisjoint : ∀ new ∈ j.new, new ∉ j.old := fun new hnew =>
    openJournal_disjoint hc.journal hnew
  obtain ⟨b, kf, hkey, -, hdec, hunlock⟩ := hc.keyfile
  refine ⟨b, kf, bundle, j, ?_, hdec, hunlock, hc.journal, htag,
    fun hnew => hdisjoint tag hnew htag, fun new want hwant => ?_, ?_⟩
  · rw [h.other (f := .keyfile) (by simp), h₁.current (by simp [Journal.files]), hkey]
  · have hnew : new ∈ j.new := Std.ExtTreeMap.mem_iff_isSome_getElem?.mpr (by rw [hwant]; rfl)
    have hhome := h₁.hasHash (Journal.record_mem_files.mpr hnew) (hc.records new want hwant)
    refine hhome.congr (h.other fun old hold heq => ?_)
    cases heq
    exact hdisjoint new hnew hold
  · exact (h₁.hasHash (by simp [Journal.files]) hc.manifest).congr (h.other (by simp))

/-- Every record of the directory that is gone was allowed to go by the directory's journal. -/
def Spared (cr : Crypto) (profile : Bytes) (unlock : KeyFile → Except StoreError Bundle)
    (d₀ d : Dir) : Prop :=
  ∀ tag, d₀.get (.record tag) ≠ none → d.get (.record tag) = none → ∃ sealed,
    d₀.get .journal = some (privateFile sealed) ∧ Sanctioned cr profile unlock sealed d tag

theorem Spared.refl (d : Dir) : Spared cr profile unlock d d :=
  fun _ hthere hgone => absurd hgone hthere

theorem Spared.drop_journal (h : Spared cr profile unlock d' d) :
    Spared cr profile unlock d' (d.set .journal none) := by
  intro tag hthere hgone
  obtain ⟨sealed, hj, hs⟩ := h tag hthere hgone
  exact ⟨sealed, hj, hs.set_journal none⟩

/-- Moving files deletes none. -/
theorem Moving.get_ne_none {fs : List FileName} {f : FileName} (h : Moving fs k₀ k)
    (hthere : k₀.home.get f ≠ none) : k.home.get f ≠ none := by
  rcases h.file f with ⟨-, hhome⟩ | ⟨-, -, b, priv, -, hto⟩
  · rwa [hhome]
  · rw [hto]
    exact nofun

section Stages

variable (hj : k₀.home.get .journal = some (privateFile sealed))
  (hc : Checked cr profile unlock sealed k₀ bundle j)

include hj hc

theorem Checked.spared_dropping (h₁ : Moved j.files k₀ k₁) (h : Dropping j.old k₁ k) :
    Spared cr profile unlock k₀.home k.home := by
  intro tag hthere hgone
  rcases h.file (.record tag) with hsame | ⟨-, old, hold, heq⟩
  · exact absurd (hsame.symm.trans hgone) (h₁.get_ne_none hthere)
  · cases heq
    exact ⟨sealed, hj, hc.sanctioned h₁ h hold⟩

/-- At every stage of a switch, only sanctioned records are gone. -/
theorem SwitchStage.spared (h : SwitchStage j k₀ k) : Spared cr profile unlock k₀.home k.home := by
  cases h with
  | moving h => exact fun tag hthere hgone => absurd hgone (h.get_ne_none hthere)
  | dropping h₁ h => exact hc.spared_dropping hj h₁ h
  | clearing h₁ h₂ _ =>
    -- only the staging directory differs from the disk after the deletes
    have hdropped := hc.spared_dropping hj h₁ h₂.toDropping
    exact hdropped

end Stages

/-- Wherever `recover` is cut off, only records that the journal on disk allows to go are gone. -/
theorem wp_recover_spared (hA : Sighted A) :
    wp (machine cr) A (recover cr profile unlock) (fun _ _ => True)
      (fun t => Spared cr profile unlock s.disk.home t.disk.home) s := by
  by_cases habs : s.disk.home.get .journal = none
  · -- no journal: only the staging directory changes
    exact wp_recover_none (K := fun k => Spared cr profile unlock s.disk.home k.home) habs
      (fun stg => .refl _) trivial fun _ _ _ => trivial
  by_cases hread : ∃ sealed, s.disk.home.get .journal = some (privateFile sealed) ∧
      sealed.length ≤ journalMaxLen
  · obtain ⟨sealed, hj, hlen⟩ := hread
    refine wp_recover_some hA hj hlen
      (.refl _) (fun bundle j k hc hk => hk.spared hj hc) (fun k hk => ?_)
      (fun _ _ _ _ => trivial) fun _ _ _ _ => trivial
    apply Spared.drop_journal
    rcases hk with ⟨-, rfl⟩ | ⟨bundle, j, hc, hsw⟩
    · exact .refl _
    · exact hsw.stage.spared hj hc
  · -- a journal that cannot be read is an error
    rw [recover, wp_bind]
    refine wp_ifPresent (wp_readPrivateFile_any (Disk.dir?_home _) (by simp) (.refl _)
      (fun sealed hget hlen => absurd ⟨sealed, hget, hlen⟩ hread) (fun hnone => absurd hnone habs)
      fun e he _ => ⟨.refl _, ?_⟩)
    rw [absentAsNone_error he]
    trivial

/-- Whatever is in the profile directory and in the staging directory: an error of reading,
unlocking, authenticating or verifying ends `recover` with everything as it was; and at every
moment of its run, a record that is gone was listed as old, and not as new, by the journal that
authenticates under the key file in place, with the whole new store in place too. Any call may fail;
that `Path::exists` sees what is there is assumed. -/
theorem recovery_destroys_authenticated (cr : Crypto) (profile : Bytes)
    (unlock : KeyFile → Except StoreError Bundle) (s : World) (f : ℕ → Choice)
    (hf : ∀ n, (f n).blind = false) :
    (∀ e, ((inspect cr profile unlock).run (machine cr) f s).1 = .error e →
      (recover cr profile unlock).run (machine cr) f s = (.error e, s)) ∧
    ∀ t ∈ (recover cr profile unlock).crashStates (machine cr) f s,
      Spared cr profile unlock s.disk.home t.disk.home := by
  have hA : Sighted fun c => c.blind = false := fun _ h => h
  refine ⟨fun e he => ?_, wp_crashStates (wp_recover_spared hA) hf⟩
  have hsame : ((inspect cr profile unlock).run (machine cr) f s).2 = s := wp_run (wp_inspect hA) hf
  rw [recover_eq]
  exact run_bind_error _ (Prod.ext he hsame)

end

/-! ### A concrete recovery -/

open Sample

/-- The sample's rekey, cut off when the journal is in place and two of three records have moved. -/
def Sample.halfMoved : World := rekeyStates[133]?.getD .blank

/-- The sample's password opens a key file. -/
def Sample.opens (kf : KeyFile) : Except StoreError Bundle :=
  kf.unlockPassword Crypto.toy profile ⟨Crypto.toy.hkdf exportKey kekPwInfo⟩

/-- The file of the sample's record under the old bundle. -/
def Sample.oldTag : Bytes := tagOf Crypto.toy derivedBundle.name (ascii "a")

/-- Recovery after the cut rekey deletes the old record, by leave of the journal; without the
password it fails and changes nothing. -/
theorem recovery_destroys_authenticated_sample :
    Spared Crypto.toy profile opens halfMoved.disk.home
      ((recover Crypto.toy profile opens).run (machine Crypto.toy) (fun _ => .plain)
        halfMoved).2.disk.home ∧
    halfMoved.disk.home.get (.record oldTag) ≠ none ∧
    ((recover Crypto.toy profile opens).run (machine Crypto.toy) (fun _ => .plain)
      halfMoved).2.disk.home.get (.record oldTag) = none ∧
    (recover Crypto.toy profile fun _ => .error .authentication).run (machine Crypto.toy)
      (fun _ => .plain) halfMoved = (.error .authentication, halfMoved) := by
  refine ⟨?_, by decide +kernel, by decide +kernel, ?_⟩
  · exact (recovery_destroys_authenticated _ _ _ _ _ fun _ => rfl).2 _ (run_mem_crashStates ..)
  · apply (recovery_destroys_authenticated _ _ _ _ _ fun _ => rfl).1
    decide +kernel

end Powehi.Store
