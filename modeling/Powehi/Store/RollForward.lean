import Powehi.Store.Stored
import Powehi.Store.Switch

/-!
# Rolling a committed rekey forward

Once the journal is in place, the staged store and the journal say what the profile will be
(`Commitment`). Whatever prefix of the switch has happened, every file of the new store is
either still staged or already moved (`MidSwitch`), so `open` can start over and finish.
-/

namespace Powehi.Store

open Codec Semantics Program Disk Journal

variable {cr : Crypto} {A : Choice → Prop} {K : Disk → Prop} {N : Set Bytes} {s : World}
  {profile sealed : Bytes} {u : Unlocker} {bundle : Bundle} {m : Map Bytes} {e₀ : Dir}
  {j : Journal} {k k' : Disk}

/-! ### What has been fixed -/

/-- The staged directory `e₀` is a store of the records `m` under `bundle`, and the sealed journal
lists its files. -/
structure Commitment (cr : Crypto) (profile : Bytes) (u : Unlocker) (N : Set Bytes)
    (bundle : Bundle) (m : Map Bytes) (e₀ : Dir) (j : Journal) (sealed : Bytes) : Prop where
  journal : openJournal cr bundle profile sealed = .ok j
  length : sealed.length ≤ journalMaxLen
  locked : Locked cr profile u bundle e₀
  records : ∀ tag want, j.new[tag]? = some want → ∃ b, e₀.get (.record tag) = some (privateFile b) ∧
    b.length ≤ maxBlobLen ∧ toHex (cr.sha256 b).1 = want
  manifest : ∃ b, e₀.get .manifest = some (privateFile b) ∧ b.length ≤ maxBlobLen ∧
    toHex (cr.sha256 b).1 = j.manifest
  listed : ∀ stem, isTag stem = true → (e₀.get (.record stem)).isSome → stem ∈ j.new
  tags : TagInjOn cr (handle profile bundle) N
  openable : ∃ F, Openable cr (handle profile bundle) N e₀ F ∧ visible F = m

/-- The switch to the staged store `e₀` has begun: every file of it is staged or has moved, and
the profile directory holds no record besides the new and the old ones. -/
structure MidSwitch (e₀ : Dir) (j : Journal) (sealed : Bytes) (k : Disk) : Prop where
  journal : k.home.get .journal = some (privateFile sealed)
  noLegacy : NoLegacy k.home
  placed : ∀ f ∈ j.files, k.current f = e₀.get f
  movable : ∀ f ∈ j.files, Movable k f
  oldFree : ∀ tag ∈ j.old, k.home.get (.record tag) ≠ some .dir
  others : ∀ stem, isTag stem = true → stem ∉ j.new → stem ∉ j.old →
    k.home.get (.record stem) = none
  /-- A missing staging directory means that everything has moved and the old records are gone. -/
  staging : (∃ e, k.staging = .dir true e) ∨
    k.staging = .absent ∧ ∀ tag ∈ j.old, k.home.get (.record tag) = none

theorem MidSwitch.unobstructed (h : MidSwitch e₀ j sealed k) : Unobstructed j k :=
  ⟨h.movable, h.oldFree⟩

/-- A file that is not staged counts where it is. -/
theorem Disk.current_of_staged_none {f : FileName} (h : k.staged f = none) :
    k.current f = k.home.get f := by
  rw [current, h]

theorem Disk.carries_of_current {f : FileName} {want : Bytes} (hcur : k.current f = e₀.get f)
    (hf : ∃ b, e₀.get f = some (privateFile b) ∧ b.length ≤ maxBlobLen ∧
      toHex (cr.sha256 b).1 = want) : k.Carries cr f want := by
  obtain ⟨b, hb, hlen, hhash⟩ := hf
  exact ⟨b, hcur.trans hb, hlen, hhash⟩

/-- The check passes wherever the files are. -/
theorem MidSwitch.checked (h : MidSwitch e₀ j sealed k)
    (hc : Commitment cr profile u N bundle m e₀ j sealed) (hstg : ∃ e, k.staging = .dir true e) :
    Checked cr profile (u.unlock cr profile) sealed k bundle j where
  staging := hstg
  keyfile := by
    obtain ⟨kf, hget, hwf, hunlock⟩ := hc.locked
    refine ⟨kf.encode, kf, ?_, KeyFile.length_encode_le hwf, KeyFile.decode_encode hwf, hunlock⟩
    rw [h.placed _ (by simp [files]), hget]
  journal := hc.journal
  records tag want htag := by
    have hmem : tag ∈ j.new := by
      rw [Std.ExtTreeMap.mem_iff_isSome_getElem?, htag]
      rfl
    exact carries_of_current (h.placed _ (record_mem_files.mpr hmem))
      (hc.records tag want htag)
  manifest := carries_of_current (h.placed _ (by simp [files])) hc.manifest

/-! ### Every point of a switch -/

/-- Moving files does not change which entry counts. -/
theorem Moving.current_eq {fs : List FileName} (h : Moving fs k k') (f : FileName) :
    k'.current f = k.current f := by
  rcases h.file f with ⟨hs, hh⟩ | ⟨-, hnone, b, priv, hfrom, hto⟩
  · rw [current, current, hs, hh]
  · rw [current_of_staged_none hnone, hto, current, hfrom]

/-- Moving files keeps the switch going. -/
theorem MidSwitch.moving (h : MidSwitch e₀ j sealed k) (hm : Moving j.files k k')
    (hstg : ∃ e, k.staging = .dir true e) : MidSwitch e₀ j sealed k' where
  journal := by
    rw [hm.other (by simp [files])]
    exact h.journal
  noLegacy stem hstem := by
    rw [hm.other (by simp [files]), hm.other (by simp [files])]
    exact h.noLegacy stem hstem
  placed f hf := by
    rw [hm.current_eq]
    exact h.placed f hf
  movable f hf := hm.movable (h.movable f hf)
  oldFree tag htag := by
    rcases hm.file (.record tag) with ⟨-, hh⟩ | ⟨-, -, b, priv, -, hto⟩
    · rw [hh]
      exact h.oldFree tag htag
    · simp [hto]
  others stem hstem hnew hold := by
    rw [hm.other (fun hmem => hnew (record_mem_files.mp hmem))]
    exact h.others stem hstem hnew hold
  staging := by
    obtain ⟨e, he⟩ := hstg
    exact .inl (hm.isDir true e he)

/-- A switch whose moves are done, at a disk that has lost old records and staged files only. -/
theorem MidSwitch.moved {k₁ : Disk} (h : MidSwitch e₀ j sealed k₁)
    (hall : ∀ f ∈ j.files, k₁.staged f = none) (hall' : ∀ f ∈ j.files, k'.staged f = none)
    (hdisjoint : ∀ tag ∈ j.new, tag ∉ j.old) (hfile : ∀ f, k'.home.get f = k₁.home.get f ∨
      k'.home.get f = none ∧ ∃ tag ∈ j.old, f = .record tag)
    (hstg : (∃ e, k'.staging = .dir true e) ∨
      k'.staging = .absent ∧ ∀ tag ∈ j.old, k'.home.get (.record tag) = none) :
    MidSwitch e₀ j sealed k' := by
  have hkeep : ∀ f, (∀ tag ∈ j.old, f ≠ .record tag) → k'.home.get f = k₁.home.get f := by
    intro f hf
    rcases hfile f with hsame | ⟨-, tag, htag, heq⟩
    · exact hsame
    · exact absurd heq (hf tag htag)
  have hfiles : ∀ f ∈ j.files, ∀ tag ∈ j.old, f ≠ .record tag := by
    rintro f hf tag htag rfl
    exact hdisjoint tag (record_mem_files.mp hf) htag
  refine ⟨?_, fun stem hstem => ?_, fun f hf => ?_, fun f hf => ⟨fun x hx => ?_, ?_⟩,
    fun tag htag => ?_, fun stem hstem hnew hold => ?_, hstg⟩
  · rw [hkeep _ (by simp)]
    exact h.journal
  · rw [hkeep _ (by simp), hkeep _ (by simp)]
    exact h.noLegacy stem hstem
  · rw [current_of_staged_none (hall' f hf), hkeep f (hfiles f hf),
      ← current_of_staged_none (hall f hf)]
    exact h.placed f hf
  · rw [hall' f hf] at hx
    cases hx
  · rw [hkeep f (hfiles f hf)]
    exact (h.movable f hf).free
  · rcases hfile (.record tag) with hsame | ⟨hnone, -⟩
    · rw [hsame]
      exact h.oldFree tag htag
    · rw [hnone]
      exact nofun
  · rcases hfile (.record stem) with hsame | ⟨hnone, -⟩
    · rw [hsame]
      exact h.others stem hstem hnew hold
    · exact hnone

/-- Every point of a switch is again one from which it can be finished. -/
theorem MidSwitch.stage (h : MidSwitch e₀ j sealed k) (hstg : ∃ e, k.staging = .dir true e)
    (hdisjoint : ∀ tag ∈ j.new, tag ∉ j.old) (hs : SwitchStage j k k') :
    MidSwitch e₀ j sealed k' := by
  cases hs with
  | moving hm => exact h.moving hm hstg
  | @dropping k₁ _ h₁ hd =>
    have hk₁ := h.moving h₁.toMoving hstg
    have hsame : ∀ f, k'.staged f = k₁.staged f := fun f => by
      simp only [staged, dir?, hd.staging]
    refine hk₁.moved h₁.all (fun f hf => (hsame f).trans (h₁.all f hf)) hdisjoint hd.file (.inl ?_)
    obtain ⟨e, he⟩ := hstg
    rw [hd.staging]
    exact h₁.isDir true e he
  | @clearing k₁ k₂ stg h₁ h₂ hshrunk =>
    have hk₁ := h.moving h₁.toMoving hstg
    have hnone : ∀ f ∈ j.files, k₂.staged f = none := fun f hf => by
      have := h₁.all f hf
      simpa only [staged, dir?, h₂.staging] using this
    refine hk₁.moved h₁.all (fun f hf => ?_) hdisjoint h₂.file ?_
    · rcases hshrunk with rfl | ⟨priv, d, keep, hd, rfl⟩
      · simp [staged, dir?]
      · -- a file that is gone stays gone when others go
        have := hnone f hf
        simp only [staged, dir?, hd, Option.bind_some] at this ⊢
        rw [Dir.get_filter, this, ite_self]
    · rcases hshrunk with rfl | ⟨priv, d, keep, hd, rfl⟩
      · exact .inr ⟨rfl, h₂.all⟩
      · obtain ⟨e, he⟩ := hstg
        obtain ⟨e₁, he₁⟩ := h₁.isDir true e he
        rw [h₂.staging, he₁] at hd
        cases hd
        exact .inl ⟨_, rfl⟩

/-! ### The finished switch -/

/-- A directory with the same records and manifest opens as the same map. -/
theorem Openable.congr {st : ProfileStore} {d d' : Dir} {F : Map Bytes}
    (h : Openable cr st N d F) (hman : d'.get .manifest = d.get .manifest)
    (hrec : ∀ stem, isTag stem = true → d'.get (.record stem) = d.get (.record stem)) :
    Openable cr st N d' F := by
  have hhash : hashes cr d' = hashes cr d := by
    apply Std.ExtTreeMap.ext_getElem?
    intro tag
    rw [getElem?_hashes, getElem?_hashes]
    split
    · rename_i htag
      rw [hrec tag htag]
    · rfl
  rcases h with ⟨F₀, M, hM, hB, hN, hF⟩ | ⟨habs, hholds, hF⟩
  · refine .inl ⟨F₀, M, ⟨hM.holds.congr hrec, ?_, ?_⟩, hB, hN, hF⟩
    · obtain ⟨blob, hget, hblob⟩ := hM.manifest
      exact ⟨blob, hman.trans hget, hblob⟩
    · rw [hhash]
      exact hM.verified
  · exact .inr ⟨hman.trans habs, hholds.congr hrec, hF⟩

/-- With everything moved and the old records gone, the profile directory is the staged store. -/
theorem MidSwitch.storedUnder (h : MidSwitch e₀ j sealed k)
    (hc : Commitment cr profile u N bundle m e₀ j sealed) (habs : k.staging = .absent) :
    StoredUnder cr profile u N bundle (k.home.set .journal none) m ∧
      (k.home.set .journal none).get .keyfile = e₀.get .keyfile := by
  have hstaged : ∀ f, k.staged f = none := fun f => by simp [staged, dir?, habs]
  have hplaced : ∀ f ∈ j.files, k.home.get f = e₀.get f := fun f hf => by
    rw [← current_of_staged_none (hstaged f)]
    exact h.placed f hf
  have hold : ∀ tag ∈ j.old, k.home.get (.record tag) = none := by
    rcases h.staging with ⟨e, he⟩ | ⟨-, hgone⟩
    · rw [habs] at he
      cases he
    · exact hgone
  have hset : ∀ f, f ≠ .journal → (k.home.set .journal none).get f = k.home.get f := fun f hf =>
    Dir.get_set_of_ne _ _ hf
  have hrec : ∀ stem, isTag stem = true →
      (k.home.set .journal none).get (.record stem) = e₀.get (.record stem) := by
    intro stem hstem
    by_cases hnew : stem ∈ j.new
    · exact hplaced _ (record_mem_files.mpr hnew)
    · have hnone : e₀.get (.record stem) = none := by
        by_contra hne
        exact hnew (hc.listed stem hstem (Option.isSome_iff_ne_none.mpr hne))
      rw [hnone]
      by_cases hin : stem ∈ j.old
      · exact hold stem hin
      · exact h.others stem hstem hnew hin
  have hkey : (k.home.set .journal none).get .keyfile = e₀.get .keyfile := by
    rw [hset _ (by simp)]
    exact hplaced _ (by simp [files])
  have hman : (k.home.set .journal none).get .manifest = e₀.get .manifest := by
    rw [hset _ (by simp)]
    exact hplaced _ (by simp [files])
  refine ⟨⟨Dir.get_set_self .., fun stem hstem => ?_, ?_, hc.tags, ?_⟩, hkey⟩
  · exact h.noLegacy stem hstem
  · obtain ⟨kf, hget, hrest⟩ := hc.locked
    exact ⟨kf, hkey.trans hget, hrest⟩
  · obtain ⟨F, ho, hF⟩ := hc.openable
    exact ⟨F, ho.congr hman hrec, hF⟩

/-! ### Opening -/

/-- The next `open` finds the records of `m` under `bundle`, with the key file `kf`: they are
stored, or a committed rekey is to be finished first. -/
def Rekeyed (cr : Crypto) (profile : Bytes) (u : Unlocker) (N : Set Bytes) (bundle : Bundle)
    (kf : KeyFile) (m : Map Bytes) (k : Disk) : Prop :=
  StoredUnder cr profile u N bundle k.home m ∧
      k.home.get .keyfile = some (privateFile kf.encode) ∨
    ∃ e₀ j sealed, Commitment cr profile u N bundle m e₀ j sealed ∧ MidSwitch e₀ j sealed k ∧
      e₀.get .keyfile = some (privateFile kf.encode)

section Open

variable {kf : KeyFile} {unlock : Unlock} {upgrade : Bool}

/-- `recover` finishes a committed rekey, or discards what an uncommitted one has staged. -/
theorem wp_recover_rekeyed {Q : Post Unit} (hA : Sighted A)
    (h : Rekeyed cr profile u N bundle kf m s.disk)
    (hK : ∀ k, Rekeyed cr profile u N bundle kf m k → K k)
    (ok : ∀ t, StoredUnder cr profile u N bundle t.disk.home m →
      t.disk.home.get .keyfile = some (privateFile kf.encode) → t.disk.staging = .absent →
      Q (.ok ()) t) (failed : Faults A Q) :
    wp (machine cr) A (recover cr profile (u.unlock cr profile)) Q (fun t => K t.disk) s := by
  rcases h with ⟨hst, hkf⟩ | ⟨e₀, j, sealed, hc, hmid, hkf⟩
  · exact wp_recover_none hst.journal (fun stg => hK _ (.inl ⟨hst, hkf⟩)) (ok _ hst hkf rfl)
      fun hA e _ => failed hA e _
  · have hdisjoint : ∀ tag ∈ j.new, tag ∉ j.old := fun tag htag =>
      openJournal_disjoint hc.journal htag
    -- the check finds the journal that was committed
    have hsame : ∀ bundle' j', Checked cr profile (u.unlock cr profile) sealed s.disk bundle' j' →
        j' = j := fun bundle' j' h =>
      ((h.bundle_eq (hmid.checked hc h.staging)).2)
    have hstage : ∀ bundle' j' k, Checked cr profile (u.unlock cr profile) sealed s.disk
      bundle' j' →
        SwitchStage j' s.disk k → MidSwitch e₀ j sealed k := by
      intro bundle' j' k h hs
      obtain rfl := hsame bundle' j' h
      exact hmid.stage h.staging hdisjoint hs
    have hfinal : ∀ k, (s.disk.staging = .absent ∧ k = s.disk ∨ ∃ bundle' j',
        Checked cr profile (u.unlock cr profile) sealed s.disk bundle' j' ∧ Switched j' s.disk k) →
        MidSwitch e₀ j sealed k ∧ k.staging = .absent := by
      rintro k (⟨habs, rfl⟩ | ⟨bundle', j', h, hsw⟩)
      · exact ⟨hmid, habs⟩
      · refine ⟨hstage bundle' j' k h hsw.stage, ?_⟩
        obtain ⟨k₁, k₂, -, -, rfl⟩ := hsw
        rfl
    refine wp_recover_some hA hmid.journal hc.length (hK _ (.inr ⟨e₀, j, sealed, hc, hmid, hkf⟩))
      (fun bundle' j' k h hs => hK _ (.inr ⟨e₀, j, sealed, hc, hstage bundle' j' k h hs, hkf⟩))
      (fun k hk => ?_) (fun k t hk ht => ?_) fun e t _ hreason => failed (fun hA' => ?_) e t
    · obtain ⟨hk', habs⟩ := hfinal k hk
      obtain ⟨hst, hkey⟩ := hk'.storedUnder hc habs
      exact hK _ (.inl ⟨hst, hkey.trans hkf⟩)
    · obtain ⟨hk', habs⟩ := hfinal k hk
      obtain ⟨hst, hkey⟩ := hk'.storedUnder hc habs
      refine ok t ?_ ?_ ?_
      · rw [ht]
        exact hst
      · rw [ht]
        exact hkey.trans hkf
      · rw [ht]
        exact habs
    · obtain ⟨hpresent, hno⟩ := hreason hA'
      rcases hmid.staging with hstg | ⟨habs, -⟩
      · exact hno bundle j (hmid.checked hc hstg) hmid.unobstructed
      · exact hpresent habs

/-- `open` finishes a committed rekey and finds the records; at every point at which it can be cut
off, the next `open` finds them too. -/
theorem wp_openAs_rekeyed (hA : Sighted A) (hu : unlock.derive cr = .ok u)
    (hvalid : validProfileName profile = true) (hI : InternalIn N)
    (h : Rekeyed cr profile u N bundle kf m s.disk) :
    wp (machine cr) A (openAs cr profile unlock upgrade)
      (fun r t => (∀ st, r = .ok st → OpenedAs cr profile u bundle st ∧
          Live cr profile u N st t m ∧ t.disk.staging = .absent ∧
          t.disk.home.get .keyfile = some (privateFile kf.encode)) ∧
        (FaultFree A → ∃ st, r = .ok st))
      (fun t => Rekeyed cr profile u N bundle kf m t.disk) s := by
  refine wp_openAs_of_recover (K := Rekeyed cr profile u N bundle kf m) hu hvalid h ?_
    fun hA' e t => ⟨nofun, fun h => absurd h hA'⟩
  refine wp_recover_rekeyed hA h (fun _ hk => hk) (fun t hst hkf habs => ?_)
    fun hA' e t => ⟨nofun, fun h => absurd h hA'⟩
  obtain ⟨F, hopen, rfl⟩ := hst.openable
  refine wp_openRecovered_keyed (K := Rekeyed cr profile u N bundle kf (visible F)) ⟨unlock, hu⟩
    hst.noLegacy hst.locked hopen hst.tags hI (fun d' G hs hG ho => ?_)
    (fun st t' d' hopened hl => ⟨?_, fun _ => ⟨st, rfl⟩⟩)
    fun hA' e t => ⟨nofun, fun h => absurd h hA'⟩
  · refine .inl ⟨hst.change hs ⟨G, ho, ?_⟩, ?_⟩
    · rcases hG with rfl | rfl
      · rfl
      · exact visible_latched F
    · exact (hs.get _).trans hkf
  · rintro _ ⟨⟩
    have hdisk : t'.disk = t.disk.setDir .home d' := by
      have := hl.disk
      rwa [hopened.loc] at this
    refine ⟨hopened, ?_, ?_, ?_⟩
    · obtain ⟨hloc, hp, rfl, -, -⟩ := hopened
      rw [← visible_latched F]
      exact OpenUnder.of_settled hloc hp hst hl.rest hl.settled
    · rw [hdisk]
      exact habs
    · rw [hdisk]
      exact (hl.rest.get _).trans hkf

end Open

end Powehi.Store
