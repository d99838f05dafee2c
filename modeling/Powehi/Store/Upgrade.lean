import Powehi.Store.CrashConsistency
import Powehi.Store.Legacy

/-!
# Upgrading a store

A store without a key file, with records of the pre-tag format, records of the tag format or both,
is converted by `open_upgrading`: it is given a manifest and a latch, every legacy record without
a newer one of its name is imported and its file deleted, the marker closes the import window, and
the key file comes last. At every point at which an upgrade can be cut off, the two sets of records
still make up the same map (`upgraded`), so the next upgrade ends with that map.
-/

namespace Powehi.Store

open Codec Semantics Program List Std.ExtTreeMap Option

variable {cr : Crypto} {A : Choice → Prop} {st : ProfileStore} {N : Set Bytes} {s : World}
  {d d' : Dir} {F L : Map Bytes} {name payload : Bytes}
variable {u : Unlocker} {Q : Post ProfileStore}

/-! ### The records of an upgraded store -/

/-- The user records of a store with the records of `F` and the legacy records of `L`. A record wins
over a legacy record of its name; if the store holds the marker, legacy records do not count. -/
def upgraded (F L : Map Bytes) : Map Bytes := visible (if marker ∈ F then F else L ∪ F)

theorem getElem?_upgraded (F L : Map Bytes) (n : Bytes) :
    (upgraded F L)[n]? =
      if isInternal n then none else F[n]?.or (if marker ∈ F then none else L[n]?) := by
  rw [upgraded, getElem?_visible]
  split
  · rfl
  · split
    · rw [or_none]
    · exact getElem?_union

theorem upgraded_of_marker (h : marker ∈ F) (L : Map Bytes) : upgraded F L = visible F := by
  rw [upgraded, if_pos h]

theorem upgraded_empty (F : Map Bytes) : upgraded F ∅ = visible F := by
  apply Std.ExtTreeMap.ext_getElem?
  intro n
  rw [getElem?_upgraded, getElem?_visible]
  simp

/-- Internal records make no difference, the marker apart. -/
theorem upgraded_update_internal (hint : isInternal name = true) (hne : name ≠ marker)
    (v : Option Bytes) (L : Map Bytes) : upgraded (F.update name v) L = upgraded F L := by
  have hmarker : marker ∈ F.update name v ↔ marker ∈ F := by
    rw [mem_iff_isSome_getElem?, mem_iff_isSome_getElem?, Map.getElem?_update, if_neg hne.symm]
  apply Std.ExtTreeMap.ext_getElem?
  intro n
  rw [getElem?_upgraded, getElem?_upgraded]
  by_cases hn : n = name
  · rw [hn, hint, if_pos rfl, if_pos rfl]
  · simp only [hmarker, Map.getElem?_update, if_neg hn]

theorem manifestLatch_ne_marker : manifestLatch ≠ marker := by decide

theorem upgraded_latched (F L : Map Bytes) : upgraded (latched F) L = upgraded F L := by
  rw [latched]
  split
  · rfl
  · exact upgraded_update_internal isInternal_manifestLatch manifestLatch_ne_marker _ L

/-- Importing a legacy record makes no difference. -/
theorem upgraded_import (hmarker : marker ∉ F) (hp : L[name]? = some payload) (hout : name ∉ F)
    (hint : isInternal name = false) :
    upgraded (F.update name (some payload)) L = upgraded F L := by
  have hne : marker ≠ name := by
    rintro rfl
    cases hint
  have hmarker' : marker ∉ F.update name (some payload) := by
    rw [mem_iff_isSome_getElem?, Map.getElem?_update, if_neg hne, ← mem_iff_isSome_getElem?]
    exact hmarker
  apply Std.ExtTreeMap.ext_getElem?
  intro n
  rw [getElem?_upgraded, getElem?_upgraded, if_neg hmarker, if_neg hmarker', Map.getElem?_update]
  by_cases hn : n = name
  · subst hn
    rw [if_pos rfl, getElem?_eq_none hout, hp]
    rfl
  · rw [if_neg hn]

/-- A legacy record that has been imported is not needed any more. -/
theorem upgraded_erase (hin : name ∈ F) (L : Map Bytes) :
    upgraded F (L.erase name) = upgraded F L := by
  obtain ⟨v, hv⟩ := isSome_iff_exists.mp (mem_iff_isSome_getElem?.mp hin)
  apply Std.ExtTreeMap.ext_getElem?
  intro n
  rw [getElem?_upgraded, getElem?_upgraded]
  by_cases hn : n = name
  · subst hn
    rw [hv]
    simp
  · have hcmp : compare name n ≠ .eq := fun h => hn (Std.compare_eq_iff_eq.mp h).symm
    rw [getElem?_erase, if_neg hcmp]

/-- There is room for a legacy record if there is room for all of them. -/
theorem room_of_upgraded (hmarker : marker ∉ F) (hin : name ∈ L) (hint : isInternal name = false)
    (hroom : (upgraded F L).size ≤ maxRecords) (hout : name ∉ F) : Room F name := by
  refine .inr (.inr ?_)
  have hmem : ∀ n, isInternal n = false → (n ∈ F ∨ n ∈ L) → n ∈ upgraded F L := by
    intro n hn hFL
    rw [mem_iff_isSome_getElem?, mem_iff_isSome_getElem?] at hFL
    rw [mem_iff_isSome_getElem?, getElem?_upgraded, hn, if_neg hmarker,
      if_neg Bool.false_ne_true, isSome_or, Bool.or_eq_true]
    exact hFL
  have hnodup : (name :: userNames F).Nodup := by
    refine nodup_cons.mpr ⟨fun h => hout ?_, nodup_userNames F⟩
    exact (mem_userNames.mp h).1
  -- the records and the new name are among the records of the upgraded store
  have hlen : (name :: userNames F).length ≤ (upgraded F L).keys.length := by
    refine (hnodup.subperm fun n hn => ?_).length_le
    rw [Std.ExtTreeMap.mem_keys]
    rcases mem_cons.mp hn with rfl | hn
    · exact hmem n hint (.inr hin)
    · obtain ⟨hF, hn'⟩ := mem_userNames.mp hn
      exact hmem n hn' (.inl hF)
  rw [length_keys, length_cons] at hlen
  omega

/-! ### Between the formats -/

/-- A profile that an upgrade accepts: no key file and no rekey journal, the records of `F` with or
without a manifest, and the legacy records of `L`. -/
structure Upgradable (cr : Crypto) (st : ProfileStore) (N : Set Bytes) (d : Dir)
    (F L : Map Bytes) : Prop where
  journal : d.get .journal = none
  keyfile : d.get .keyfile = none
  records : Loadable cr st N true d F
  legacy : LegacyHolds cr st N d L
  /-- A directory without any file of a store has no temporaries of one either. -/
  found : HasStoreFile d ∨ NoLegacy d

/-- The handle an upgrade works with. -/
def upgradeHandle (profile : Bytes) (derived : Bundle) : ProfileStore :=
  { handle profile derived with derivedKeys := true }

/-- The upgrade to the user records of `m` has not reached the key file. -/
def Upgrading (cr : Crypto) (st : ProfileStore) (N : Set Bytes) (d : Dir) (m : Map Bytes) : Prop :=
  HasStoreFile d ∧ ∃ F L, Upgradable cr st N d F L ∧ upgraded F L = m

/-- The upgrade to the user records of `m` can go on, or is over. -/
def Resumable (cr : Crypto) (profile : Bytes) (u : Unlocker) (derived : Bundle) (N : Set Bytes)
    (m : Map Bytes) (k : Disk) : Prop :=
  Upgrading cr (upgradeHandle profile derived) N k.home m ∨ Stored cr profile u N k m

theorem Recovers.hasStoreFile (h : Recovers cr st N d F) : HasStoreFile d := by
  obtain ⟨F₀, M, hM, -⟩ := h
  exact ⟨.manifest, isSome_iff_ne_none.mpr hM.manifest_ne_none, .inr (.inr rfl)⟩

/-- With a manifest, the records are all that has to be looked at. -/
theorem upgrading_of_recovers {m : Map Bytes} (hj : d.get .journal = none)
    (hk : d.get .keyfile = none) (hrec : Recovers cr st N d F) (hL : LegacyHolds cr st N d L)
    (hm : upgraded F L = m) : Upgrading cr st N d m :=
  ⟨hrec.hasStoreFile, F, L, ⟨hj, hk, .inl hrec, hL, .inl hrec.hasStoreFile⟩, hm⟩

/-- Without any file of a store, there is nothing to upgrade. -/
theorem Upgradable.blank (h : Upgradable cr st N d F L) (hno : ¬HasStoreFile d) :
    Blank d ∧ upgraded F L = ∅ := by
  have habs : ∀ f, (tagStem f).isSome ∨ (legacyStem f).isSome ∨ f = .manifest → d.get f = none := by
    intro f hf
    by_contra hsome
    exact hno ⟨f, isSome_iff_ne_none.mpr hsome, hf⟩
  have hman : d.get .manifest = none := habs _ (.inr (.inr rfl))
  have hrecords : ∀ stem, isTag stem = true → d.get (.record stem) = none := by
    intro stem hstem
    refine habs _ (.inl ?_)
    rw [mem_tagStem.mpr ⟨rfl, hstem⟩]
    rfl
  refine ⟨⟨h.keyfile, h.journal, hman, hrecords, h.found.resolve_left hno⟩, ?_⟩
  have hF : F = ∅ := by
    rcases h.records with hrec | ⟨-, hholds, -⟩
    · exact absurd hrec.hasStoreFile hno
    · exact hholds.unique (holds_empty hrecords)
  have hL : L = ∅ := by
    rw [eq_empty_iff_forall_not_mem]
    intro n hn
    obtain ⟨hvalid, -, -⟩ := h.legacy.usable n hn
    have hsome := (h.legacy.mem_iff hvalid).mpr hn
    rw [((h.found.resolve_left hno) n hvalid).1] at hsome
    cases hsome
  rw [hF, hL, upgraded_empty, visible_empty]

/-- A store that an upgrade accepts is one from which the upgrade can go on. -/
theorem Upgradable.resumable {profile : Bytes} {derived : Bundle} {k : Disk}
    (h : Upgradable cr (upgradeHandle profile derived) N k.home F L) :
    Resumable cr profile u derived N (upgraded F L) k := by
  by_cases hfile : HasStoreFile k.home
  · exact .inl ⟨hfile, F, L, h, rfl⟩
  · obtain ⟨hblank, hm⟩ := h.blank hfile
    exact .inr (.inl ⟨hblank, hm⟩)

/-! ### Importing the legacy records -/

/-- An upgrade that loaded the store and swept it: what is left are the legacy records of `L`. -/
structure Importing (cr : Crypto) (st : ProfileStore) (N : Set Bytes) (s : World) (d : Dir)
    (F L : Map Bytes) : Prop where
  settled : Settled cr st N s d F
  legacy : LegacyHolds cr st N d L
  journal : d.get .journal = none
  keyfile : d.get .keyfile = none
  swept : ∀ stem, validRecordName stem = true → d.get (.legacyTmp stem) = none

namespace Importing

variable {t : World} {v : Option Bytes}

/-- At every point of a write, one of the two maps is the next upgrade's. -/
theorem upgrading {m G : Map Bytes} (h : Importing cr st N s d F L) (hs : SameRest d d')
    (hrec : Recovers cr st N d' G) (hm : upgraded G L = m) : Upgrading cr st N d' m := by
  refine upgrading_of_recovers ?_ ?_ hrec (h.legacy.sameRest hs) hm
  · rw [hs.get _, h.journal]
  · rw [hs.get _, h.keyfile]

theorem written (h : Importing cr st N s d F L) (hw : Written cr st N name v s d F t d') :
    Importing cr st N t d' (F.update name v) L where
  settled := hw.toSettled
  legacy := h.legacy.sameRest hw.same.sameRest
  journal := by rw [hw.same.sameRest.get _, h.journal]
  keyfile := by rw [hw.same.sameRest.get _, h.keyfile]
  swept stem hvalid := by
    rw [hw.same.sameRest.get _]
    exact h.swept stem hvalid

/-- Legacy files were deleted. -/
theorem pruned {L' : Map Bytes} (h : Importing cr st N s d F L) (hp : Pruned d d')
    (hL : LegacyHolds cr st N d' L') : Importing cr st N (s.setDir st.loc d') d' F L' where
  settled := h.settled.of_sameFiles hp.sameFiles (Disk.dir?_setDir h.settled.dir _)
    (h.settled.isPrivate.setDir _) rfl
  legacy := hL
  journal := by rw [hp.rest _ rfl, h.journal]
  keyfile := by rw [hp.rest _ rfl, h.keyfile]
  swept stem hvalid := by
    rcases hp.gone (.legacyTmp stem) with heq | hnone
    · rw [heq]
      exact h.swept stem hvalid
    · exact hnone

end Importing

section Upgrade

variable {profile exportKey : Bytes} {pw : PasswordKek} {derived : Bundle} {m : Map Bytes}

/-- The disk under a handle on the profile directory. -/
theorem Importing.resumable (h : Importing cr (upgradeHandle profile derived) N s d F L)
    (hm : upgraded F L = m) : Resumable cr profile u derived N m s.disk := by
  have hd : s.disk.home = d := some.inj h.settled.dir
  subst hd
  exact .inl (h.upgrading (.refl _) h.settled.recovers hm)

/-- One legacy record is imported, if it has to be, and its file deleted. -/
theorem wp_migrateOne {b : Bool} {Q : Post Bool}
    (h : Importing cr (upgradeHandle profile derived) N s d F L)
    (hN : TagInjOn cr (upgradeHandle profile derived) N) (hmarker : marker ∉ F)
    (hp : L[name]? = some payload) (hm : upgraded F L = m) (hroom : m.size ≤ maxRecords)
    (ok : ∀ t d' F', Importing cr (upgradeHandle profile derived) N t d' F' (L.erase name) →
      marker ∉ F' → upgraded F' (L.erase name) = m → Q (.ok true) t) (failed : Faults A Q) :
    wp (machine cr) A (migrateOne cr (upgradeHandle profile derived) false b name) Q
      (fun t => Resumable cr profile u derived N m t.disk) s := by
  have hin : name ∈ L := by
    rw [mem_iff_isSome_getElem?, hp]
    rfl
  obtain ⟨-, hint, -⟩ := h.legacy.usable name hin
  -- the rest, once the record is there
  have hdelete : ∀ t d₁ F₁, Importing cr (upgradeHandle profile derived) N t d₁ F₁ L →
      marker ∉ F₁ → name ∈ F₁ → upgraded F₁ L = m →
      wp (machine cr) A (call (.removeFile .home (.legacy name)) >>= fun _ =>
        call (.syncDir .home) >>= fun _ => .pure (b || !false)) Q
        (fun t => Resumable cr profile u derived N m t.disk) t := by
    intro t d₁ F₁ h₁ hmarker₁ hin₁ hm₁
    obtain ⟨-, blob, hget, -⟩ := h₁.legacy.file name payload hp
    have hK : Resumable cr profile u derived N m t.disk := h₁.resumable hm₁
    have h₂ := h₁.pruned (.set_none d₁ rfl) (h₁.legacy.delete name)
    have hm₂ : upgraded F₁ (L.erase name) = m := (upgraded_erase hin₁ L).trans hm₁
    have hK' := h₂.resumable (u := u) hm₂
    rw [wp_bind]
    refine wp_removeFile h₁.settled.dir hget (by simp [privateFile]) hK hK' ?_
      failed.here failed.here
    rw [andThen_bind]
    refine wp_syncDir h₂.settled.dir hK' ?_ failed.here
    rw [Bool.not_false, Bool.or_true]
    exact ⟨hK', ok _ _ F₁ h₂ hmarker₁ hm₂⟩
  rw [migrateOne, wp_bind]
  refine wp_onlyIf (fun _ => ?_) (by simp)
  refine wp_importLegacy h.settled hN h.legacy hp
    (fun hout => room_of_upgraded hmarker hin hint (hm ▸ hroom) hout) (h.resumable hm)
    (fun d' G hs hG hrec => .inl (h.upgrading hs hrec ?_)) (fun hinF => ?_) (fun hout t d' hw => ?_)
    failed
  · rcases hG with rfl | ⟨hout, rfl⟩
    · exact hm
    · exact (upgraded_import hmarker hp hout hint).trans hm
  · exact hdelete s d F h hmarker hinF hm
  · refine hdelete t d' _ (h.written hw) (fun hin' => ?_) ?_
      ((upgraded_import hmarker hp hout hint).trans hm)
    · rw [mem_iff_isSome_getElem?, Map.getElem?_update] at hin'
      split at hin'
      · rename_i heq
        rw [← heq] at hint
        cases hint
      · exact hmarker (mem_iff_isSome_getElem?.mpr hin')
    · rw [mem_iff_isSome_getElem?, Map.getElem?_update_self]
      rfl

/-- All legacy records are imported, and then the marker closes the import window. -/
theorem wp_importAll {names : List Bytes} {Q : Post Unit}
    (h : Importing cr (upgradeHandle profile derived) N s d F L)
    (hN : TagInjOn cr (upgradeHandle profile derived) N) (hI : InternalIn N) (hmarker : marker ∉ F)
    (hnodup : names.Nodup) (hmem : ∀ n, n ∈ names ↔ n ∈ L) (hm : upgraded F L = m)
    (hroom : m.size ≤ maxRecords)
    (ok : ∀ t d' F', Importing cr (upgradeHandle profile derived) N t d' F' ∅ → visible F' = m →
      Q (.ok ()) t) (failed : Faults A Q) :
    wp (machine cr) A (names.foldlM (migrateOne cr (upgradeHandle profile derived) false) false
      >>= fun imported =>
        onlyIf imported (putRecord cr (upgradeHandle profile derived) marker [] false))
      Q (fun t => Resumable cr profile u derived N m t.disk) s := by
  rw [wp_bind]
  refine wp_foldlM (fun _ rest t => rest.Nodup ∧ ∃ d F L,
    Importing cr (upgradeHandle profile derived) N t d F L ∧ marker ∉ F ∧ upgraded F L = m ∧
      ∀ n, n ∈ rest ↔ n ∈ L) ?_ ?_ ⟨hnodup, d, F, L, h, hmarker, hm, hmem⟩
  · rintro b name rest t ⟨hnodup, d, F, L, h, hmarker, hm, hmem⟩
    obtain ⟨hfresh, hnodup'⟩ := nodup_cons.mp hnodup
    have hin : name ∈ L := (hmem name).mp mem_cons_self
    refine wp_migrateOne h hN hmarker (getElem?_eq_some_getElem hin) hm hroom
      (fun t d' F' h' hmarker' hm' => ⟨hnodup', d', F', _, h', hmarker', hm', fun n => ?_⟩) failed
    rw [mem_erase, ← hmem n, mem_cons]
    constructor
    · intro hn
      refine ⟨fun heq => hfresh ?_, .inr hn⟩
      rwa [Std.compare_eq_iff_eq.mp heq]
    · rintro ⟨hne, rfl | hn⟩
      · exact absurd Std.ReflCmp.compare_self hne
      · exact hn
  · rintro b t ⟨-, d, F, L, h, hmarker, hm, hmem⟩
    obtain rfl : L = ∅ := by
      rw [eq_empty_iff_forall_not_mem]
      intro n hn
      exact not_mem_nil ((hmem n).mpr hn)
    have hvis : visible F = m := (upgraded_empty F).symm.trans hm
    have hvis' : visible (F.update marker (some [])) = m := by
      rw [visible_update, if_pos isInternal_marker, hvis]
    have hK : Resumable cr profile u derived N m t.disk := h.resumable hm
    refine ⟨hK, ?_⟩
    refine wp_onlyIf (fun _ => ?_) fun _ => ⟨hK, ok t d F h hvis⟩
    refine wp_putRecord_internal h.settled.toReady hN hI.1
      isInternal_marker validRecordName_marker hK (fun d' hsame hrec => ?_)
      (fun t' d' hw => ok t' d' _ (h.written hw) hvis') fun hA e t _ => failed hA e t
    rcases hrec with hrec | hrec
    · exact .inl (h.upgrading hsame.sameRest hrec hm)
    · exact .inl (h.upgrading hsame.sameRest hrec ((upgraded_empty _).trans hvis'))

section Finish

variable (ok : ∀ nonce t, t.disk.home.get .keyfile =
      some (privateFile (newKeyfile cr (upgradeHandle profile derived) pw nonce).encode) →
    Live cr profile (.password exportKey pw) N (upgradeHandle profile derived) t m →
    Q (.ok (upgradeHandle profile derived)) t) (failed : Faults A Q)
include ok failed

/-- The key file completes the upgrade. -/
theorem wp_finishUpgrade (h : Importing cr (upgradeHandle profile derived) N s d F ∅)
    (hvis : visible F = m) (hN : TagInjOn cr (upgradeHandle profile derived) N) :
    wp (machine cr) A (createKeyfile (upgradeHandle profile derived) pw >>= fun _ =>
      .pure (upgradeHandle profile derived)) Q
      (fun t => Resumable cr profile (.password exportKey pw) derived N m t.disk) s := by
  set st := upgradeHandle profile derived
  have hK : Resumable cr profile (.password exportKey pw) derived N m s.disk :=
    h.resumable ((upgraded_empty F).trans hvis)
  -- with the key file, the directory is a store
  have hlive : ∀ nonce t, t.disk = s.disk.setDir .home
      (d.withKeyfile cr st pw nonce) → t.mem = s.mem →
      Live cr profile (.password exportKey pw) N st t m := by
    intro nonce t ht hmem
    have hfiles : SameFiles d (d.withKeyfile cr st pw nonce) :=
      ⟨Dir.get_set_of_ne _ _, fun _ => Dir.get_set_of_ne _ _⟩
    have hset := h.settled.of_sameFiles hfiles (by rw [ht]; rfl) trivial (by rw [hmem])
    have hhome : t.disk.home = d.withKeyfile cr st pw nonce := by
      rw [ht]
      rfl
    refine ⟨rfl, rfl, ⟨?_, ?_, ?_, hN.of_keys rfl, F, ?_, hvis⟩, F, hhome ▸ hset, hvis⟩
    · rw [hhome]
      exact (Dir.get_set_of_ne _ _).trans h.journal
    · intro stem hvalid
      rw [hhome, Dir.withKeyfile, Dir.get_set_of_ne _ _]
      exact h.legacy.noLegacy h.swept stem hvalid
    · rw [hhome]
      exact locked_withKeyfile ..
    · rw [hhome]
      exact Openable.of_keys (.inl hset.recovers) rfl rfl
  rw [wp_bind]
  refine wp_createKeyfile
    h.settled.dir (by simp [h.keyfile]) hK (fun nonce => .inr ?_) (fun nonce x _ => ?_)
    failed
  · exact (hlive nonce { s with disk := _ } rfl rfl).toStored
  · have hdone := hlive nonce ((s.log x).setDir .home _) rfl rfl
    have hkey : (d.withKeyfile cr st pw nonce).get .keyfile =
        some (privateFile (newKeyfile cr st pw nonce).encode) :=
      Dir.get_set_self ..
    exact ⟨.inr hdone.toStored, ok nonce _ hkey hdone⟩

/-! ### The upgrade -/

/-- An upgrade of a store without a key file. -/
theorem wp_start_upgrade (h : Upgrading cr (upgradeHandle profile derived) N s.disk.home m)
    (hmem : (s.mem .home).poisoned = false) (hroom : m.size ≤ maxRecords)
    (hN : TagInjOn cr (upgradeHandle profile derived) N) (hI : InternalIn N) :
    wp (machine cr) A (start cr (upgradeHandle profile derived) (.upgrade pw)) Q
      (fun t => Resumable cr profile (.password exportKey pw) derived N m t.disk) s := by
  set st := upgradeHandle profile derived
  have hK : Resumable cr profile (.password exportKey pw) derived N m s.disk := .inl h
  obtain ⟨-, F, L, hup, hm⟩ := h
  have hm' : upgraded (latched F) L = m := (upgraded_latched F L).trans hm
  rw [start, wp_bind]
  refine ⟨hK, ?_⟩
  refine wp_load (Disk.dir?_home _) trivial hmem hup.records hN hI
    (fun _ t R ht hR hfail => ?_) hK (fun d' G hs hG hrec => .inl ?_)
    (fun t d' ht hrest hset _ _ _ hKt => ?_) failed
  · -- the first legacy record is authentic
    have hd : t.disk.dir? st.loc = some s.disk.home := by
      rw [ht]
      rfl
    exact wp_authenticateFirstLegacy hd hup.legacy (by rwa [ht]) hR hfail
  · refine upgrading_of_recovers ?_ ?_ hrec (hup.legacy.sameRest hs) ?_
    · exact (hs.get .journal).trans hup.journal
    · exact (hs.get .keyfile).trans hup.keyfile
    · rcases hG with rfl | rfl
      · exact hm
      · exact hm'
  · have hlegacy : LegacyHolds cr st N d' L := hup.legacy.sameRest hrest
    have hj : d'.get .journal = none := by rw [hrest.get _, hup.journal]
    have hk : d'.get .keyfile = none := by rw [hrest.get _, hup.keyfile]
    have hswept : ∀ d'', Swept d' d'' →
        LegacyHolds cr st N d'' L := fun d'' hs =>
      hlegacy.congr hs.legacy (hlegacy.unlinkable.pruned hs.toPruned)
    rw [wp_bind]
    refine wp_migrateLegacy
      hset.dir hlegacy.unlinkable (fun d'' hs => .inl ?_) (fun names d'' hnames hs htmp => ?_)
      (fun names d'' hnames hmany _ => ?_) failed
    · refine upgrading_of_recovers ?_ ?_ (hs.sameFiles.recovers hset.recovers) (hswept d'' hs) hm'
      · exact (hs.rest .journal rfl).trans hj
      · exact (hs.rest .keyfile rfl).trans hk
    · -- what is to be done with the names depends on the marker
      have himp : Importing cr st N
          (t.setDir st.loc d'') d'' (latched F) L :=
        { settled := hset.of_sameFiles hs.sameFiles (Disk.dir?_setDir hset.dir _)
            (hset.isPrivate.setDir _) rfl
          legacy := hswept d'' hs
          journal := (hs.rest .journal rfl).trans hj
          keyfile := (hs.rest .keyfile rfl).trans hk
          swept := htmp }
      have hfinish : ∀ u d₁ F₁, Importing cr st N u d₁ F₁ ∅ →
          visible F₁ = m → wp (machine cr) A
            (createKeyfile st pw >>= fun _ =>
              .pure st) Q
            (fun t => Resumable cr profile (.password exportKey pw) derived N m t.disk) u :=
        fun u d₁ F₁ h₁ hvis => wp_finishUpgrade ok failed h₁ hvis hN
      have hindex : (t.mem st.loc).index.contains marker = true ↔
          marker ∈ latched F := by
        rw [Std.ExtTreeSet.contains_iff_mem, hset.mem.index]
      have hmem' : ∀ n, n ∈ names ↔ n ∈ L := hlegacy.mem_names hnames
      by_cases hmarker : marker ∈ latched F
      · -- closed: the legacy files are deleted unread
        have hvis : visible (latched F) = m := (upgraded_of_marker hmarker L).symm.trans hm'
        rw [hindex.mpr hmarker, wp_bind]
        refine wp_deleteLegacy
          himp.settled.dir himp.legacy.unlinkable hnames.nodup
          (fun n hn => ((hnames.mem n).mp hn).1) (fun n hn => ?_) (fun d₁ hp => ?_)
          (fun d₁ hp hgone => ?_) failed
        · obtain ⟨-, hsome⟩ := (hnames.mem n).mp hn
          rw [hs.legacy]
          exact isSome_iff_ne_none.mp hsome
        · exact (himp.pruned hp (himp.legacy.pruned hp)).resumable
            ((upgraded_of_marker hmarker _).trans hvis)
        · have himp' := himp.pruned hp (himp.legacy.pruned hp)
          have hempty : (L.filter fun n _ => (d₁.get (.legacy n)).isSome) = ∅ := by
            rw [eq_empty_iff_forall_not_mem]
            intro n hn
            have hsome := (himp'.legacy.mem_iff (himp'.legacy.usable n hn).1).mpr hn
            rw [hgone n ((hmem' n).mpr (mem_of_mem_filter hn))] at hsome
            cases hsome
          rw [hempty] at himp'
          refine wp_onlyIf (by simp) fun _ => ⟨himp'.resumable ((upgraded_empty _).trans hvis), ?_⟩
          exact hfinish _ d₁ _ himp' hvis
      · have hopen : ((t.mem st.loc).index.contains marker) = false := by
          rw [Bool.eq_false_iff]
          exact fun hin => hmarker (hindex.mp hin)
        rw [hopen]
        refine wp_importAll himp hN hI hmarker hnames.nodup hmem' hm' hroom
          (fun u d₁ F₁ h₁ hvis => ?_) failed
        exact hfinish u d₁ F₁ h₁ hvis
    · -- there are not too many legacy records
      exact absurd (hlegacy.length_names hnames) (Nat.not_le.mpr hmany)

/-- Opening a store without a key file for an upgrade converts it. -/
theorem wp_openAs_upgrading (hu : Derives cr exportKey pw)
    (hderived : Bundle.derived cr exportKey = .ok derived)
    (hvalid : validProfileName profile = true) (hI : InternalIn N)
    (hN : TagInjOn cr (handle profile derived) N) (hroom : m.size ≤ maxRecords)
    (h : Upgrading cr (upgradeHandle profile derived) N s.disk.home m) :
    wp (machine cr) A (openAs cr profile (.password exportKey) true) Q
      (fun t => Resumable cr profile (.password exportKey pw) derived N m t.disk) s := by
  obtain ⟨F, L, hup, hm⟩ := h.2
  have hK : ∀ stg, Resumable cr profile (.password exportKey pw) derived N m
      (s.setStaging stg).disk := fun _ => .inl h
  refine wp_openAs_of_openRecovered hu hvalid hup.journal hK ?_ failed
  rw [openRecovered, wp_bind]
  refine wp_readKeyfile_none (Disk.dir?_home _) hup.keyfile (hK _) ?_ failed
  rw [andThen_bind]
  refine wp_hasStoreFiles (Disk.dir?_home _) (hK _) (fun b hb => ?_) fun hA e => failed hA e _
  obtain rfl : b = true := hb.mpr h.1
  rw [andThen_bind]
  simp only [findKeys, if_true]
  rw [wp_bind, hderived]
  refine ⟨hK _, ?_⟩
  refine ⟨hK _, ?_⟩
  rw [andThen_bind, build, wp_bind]
  refine wp_modifyMem (hK _) (hK _) ?_
  refine ⟨hK _, ?_⟩
  exact wp_start_upgrade ok failed h (by simp) hroom (hN.of_keys rfl) hI

end Finish

/-- An upgrade ends with the records that were there before it, wherever earlier ones were cut
off. -/
theorem wp_openUpgrading (hu : Derives cr exportKey pw)
    (hderived : Bundle.derived cr exportKey = .ok derived)
    (hvalid : validProfileName profile = true) (hI : InternalIn N)
    (hN : TagInjOn cr (handle profile derived) N) (hroom : m.size ≤ maxRecords)
    (h : Resumable cr profile (.password exportKey pw) derived N m s.disk) :
    wp (machine cr) (Reliable cr profile N) (openUpgrading cr profile exportKey)
      (fun r t => ∃ st, r = .ok st ∧ Live cr profile (.password exportKey pw) N st t m)
      (fun t => Resumable cr profile (.password exportKey pw) derived N m t.disk) s := by
  have hA : FaultFree (Reliable cr profile N) := Reliable.faultFree
  rcases h with h | h
  · exact wp_openAs_upgrading (fun _ _ _ ht => ⟨_, rfl, ht⟩) (fun hA' => absurd hA hA') hu hderived
      hvalid hI hN hroom h
  · -- the key file is there
    refine wp_mono (fun r t hr => ?_) (fun _ ht => .inr ht)
      (wp_openAs hu hvalid hI (fun c hc => hc.2) h)
    obtain ⟨st, hst⟩ := hr.2 hA rfl
    exact ⟨st, hst, hr.1 st hst⟩

end Upgrade

end Powehi.Store
