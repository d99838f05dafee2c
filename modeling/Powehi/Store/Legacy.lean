import Powehi.Store.Stored
import Powehi.Store.WrongSecret

/-!
# Legacy files

The files of the pre-tag format, `<name>.rec`, and what the store does with them when it is
opened: leftover temporaries are removed, and the records are imported or, once the import window
is closed, deleted unread. None of this touches the files of the store itself.
-/

namespace Powehi.Store

open Codec Semantics Program List Std.ExtTreeMap World Dir Option

variable {cr : Crypto} {A : Choice → Prop} {K : Disk → Prop} {st : ProfileStore} {N : Set Bytes}
  {s : World} {d d' d'' : Dir} {F L : Map Bytes}
variable {f : FileName} {Q : Post Unit} {names : List Bytes}

/-! ### The files of the store -/

/-- Manifest and record files are the same. -/
structure SameFiles (d d' : Dir) : Prop where
  manifest : d'.get .manifest = d.get .manifest
  record : ∀ stem, d'.get (.record stem) = d.get (.record stem)

theorem SameFiles.holds (h : SameFiles d d') (hd : Holds cr st d F) : Holds cr st d' F :=
  hd.congr fun stem _ => h.record stem

theorem SameFiles.onDisk {M : Manifest} (h : SameFiles d d') (hM : OnDisk cr st d F M) :
    OnDisk cr st d' F M := by
  refine ⟨h.holds hM.holds, ?_, ?_⟩
  · rw [ManifestOn, h.manifest]
    exact hM.manifest
  · rw [hashes_congr h.record]
    exact hM.verified

theorem SameFiles.recovers (h : SameFiles d d') (hd : Recovers cr st N d F) :
    Recovers cr st N d' F := by
  obtain ⟨F₀, M, hM, hrest⟩ := hd
  exact ⟨F₀, M, h.onDisk hM, hrest⟩

theorem SameFiles.openable (h : SameFiles d d') (hd : Openable cr st N d F) :
    Openable cr st N d' F := by
  rcases hd with hrec | ⟨habs, hholds, hF⟩
  · exact .inl (h.recovers hrec)
  · exact .inr ⟨h.manifest.trans habs, h.holds hholds, hF⟩

/-- A settled handle does not notice a change elsewhere in its directory. -/
theorem Settled.of_sameFiles {t : World} (h : Settled cr st N s d F) (hs : SameFiles d d')
    (hd : t.disk.dir? st.loc = some d') (hpriv : t.disk.Private st.loc)
    (hmem : t.mem st.loc = s.mem st.loc) : Settled cr st N t d' F where
  dir := hd
  isPrivate := hpriv
  onDisk := by
    obtain ⟨M, hM⟩ := h.onDisk
    exact ⟨M, hs.onDisk hM⟩
  mem := by
    rw [hmem]
    exact ⟨by rw [h.mem.entries, hashes_congr hs.record], h.mem.index⟩
  healthy := by
    rw [hmem]
    exact h.healthy
  bounded := h.bounded
  names := h.names
  manifest := by
    rw [hmem]
    exact hs.onDisk h.manifest
  pending := by
    rw [hmem]
    exact h.pending

/-! ### Removing legacy files -/

/-- The name is one of the pre-tag format. -/
def FileName.isLegacy : FileName → Bool
  | .legacy _ | .legacyTmp _ => true
  | _ => false

/-- Some legacy files and temporaries are gone; nothing else changed. -/
structure Pruned (d d' : Dir) : Prop where
  rest : ∀ f, f.isLegacy = false → d'.get f = d.get f
  gone : ∀ f, d'.get f = d.get f ∨ d'.get f = none

namespace Pruned

theorem refl (d : Dir) : Pruned d d := ⟨fun _ _ => rfl, fun _ => .inl rfl⟩

theorem trans (h : Pruned d d') (h' : Pruned d' d'') : Pruned d d'' where
  rest f hf := (h'.rest f hf).trans (h.rest f hf)
  gone f := by
    rcases h'.gone f with heq | hnone
    · rw [heq]
      exact h.gone f
    · exact .inr hnone

theorem set_none (d : Dir) (hf : f.isLegacy = true) : Pruned d (d.set f none) where
  rest g hg := by
    refine get_set_of_ne _ _ ?_
    rintro rfl
    rw [hf] at hg
    cases hg
  gone g := by
    by_cases hg : g = f
    · subst hg
      exact .inr (get_set_self ..)
    · exact .inl (get_set_of_ne _ _ hg)

theorem sameFiles (h : Pruned d d') : SameFiles d d' :=
  ⟨h.rest _ rfl, fun _ => h.rest _ rfl⟩

/-- What is still there is what was there. -/
theorem get_eq (h : Pruned d d') (hf : d'.get f ≠ none) : d'.get f = d.get f :=
  (h.gone f).resolve_right hf

end Pruned

/-- Some temporaries are gone; nothing else changed. -/
structure Swept (d d' : Dir) : Prop extends Pruned d d' where
  legacy : ∀ stem, d'.get (.legacy stem) = d.get (.legacy stem)

theorem Unlinkable.pruned (h : Unlinkable d) (hp : Pruned d d') : Unlinkable d' := by
  have hkept : ∀ f, d.get f ≠ some .dir → d'.get f ≠ some .dir := by
    intro f hf hdir
    rw [hp.get_eq (by rw [hdir]; exact nofun)] at hdir
    exact hf hdir
  intro stem hvalid
  exact ⟨hkept _ (h stem hvalid).1, hkept _ (h stem hvalid).2⟩

theorem NoLegacy.unlinkable (h : NoLegacy d) : Unlinkable d := by
  intro stem hvalid
  rw [(h stem hvalid).1, (h stem hvalid).2]
  exact ⟨nofun, nofun⟩

theorem legacyStem_eq_some {n : Bytes} :
    legacyStem f = some n ↔ f = .legacy n ∧ validRecordName n = true := by
  cases f with
  | legacy stem =>
    rw [legacyStem]
    split
    · rename_i hvalid
      constructor
      · rintro ⟨⟩
        exact ⟨rfl, hvalid⟩
      · rintro ⟨⟨⟩, -⟩
        rfl
    · rename_i hbad
      refine ⟨by simp, ?_⟩
      rintro ⟨⟨⟩, hvalid⟩
      exact absurd hvalid hbad
  | _ => simp [legacyStem]

/-- The legacy names of a directory, each once. -/
structure LegacyNames (d : Dir) (names : List Bytes) : Prop where
  nodup : names.Nodup
  mem : ∀ n, n ∈ names ↔ validRecordName n = true ∧ (d.get (.legacy n)).isSome

theorem legacyNames_of_perm {fs : List FileName} (h : fs.Perm d.listing) :
    LegacyNames d (fs.filterMap legacyStem) where
  nodup := by
    refine List.Nodup.filterMap ?_ (h.nodup_iff.mpr d.nodup_listing)
    intro f g n hf hg
    rw [(legacyStem_eq_some.mp hf).1, (legacyStem_eq_some.mp hg).1]
  mem n := by
    simp only [mem_filterMap, legacyStem_eq_some, h.mem_iff, d.mem_listing]
    constructor
    · rintro ⟨_, hsome, rfl, hvalid⟩
      exact ⟨hvalid, hsome⟩
    · rintro ⟨hvalid, hsome⟩
      exact ⟨_, hsome, rfl, hvalid⟩

/-! ### The sweep -/

/-- The directory while it is swept: the temporaries not seen yet are still in place. -/
structure Sweeping (d : Dir) (seen unseen : List FileName) (d' : Dir) : Prop
    extends Swept d d' where
  left : ∀ stem, .legacyTmp stem ∈ unseen → d'.get (.legacyTmp stem) = d.get (.legacyTmp stem)
  cleared : ∀ stem, validRecordName stem = true → .legacyTmp stem ∈ seen →
    d'.get (.legacyTmp stem) = none

theorem Sweeping.pass {swept rest : List FileName} {f : FileName}
    (h : Sweeping d swept (f :: rest) d')
    (hf : ∀ stem, f = .legacyTmp stem → validRecordName stem = false) :
    Sweeping d (swept ++ [f]) rest d' := by
  refine ⟨h.toSwept, fun stem hin => h.left stem (mem_cons_of_mem _ hin), fun stem hvalid hin => ?_⟩
  rcases mem_append.mp hin with hin | hin
  · exact h.cleared stem hvalid hin
  · rw [hf stem (mem_singleton.mp hin).symm] at hvalid
    cases hvalid

/-- The sweep collects the legacy names and removes the temporaries. It stops at too many names. -/
theorem wp_sweep {fs : List FileName} {Q : Post (List Bytes)} (hd : s.disk.dir? st.loc = some d)
    (hperm : fs.Perm d.listing) (hun : Unlinkable d)
    (hmid : ∀ d', Swept d d' → K (s.disk.setDir st.loc d')) (hQ : ∀ d', Swept d d' →
      (∀ stem, validRecordName stem = true → d'.get (.legacyTmp stem) = none) →
      Q (.ok (fs.filterMap legacyStem)) (s.setDir st.loc d'))
    (many : maxRecords < (fs.filterMap legacyStem).length → ∀ d', Swept d d' →
      Q (.error .tooManyRecords) (s.setDir st.loc d')) (failed : Faults A Q) :
    wp (machine cr) A (fs.foldlM (sweepLegacy st) []) Q (fun t => K t.disk) s := by
  have hnodup : fs.Nodup := hperm.nodup_iff.mpr d.nodup_listing
  refine wp_foldlM (fun acc rest t => ∃ swept d', fs = swept ++ rest ∧
    t = s.setDir st.loc d' ∧ acc = swept.filterMap legacyStem ∧ Sweeping d swept rest d') ?_ ?_ ?_
  · rintro _ f rest _ ⟨swept, d', hfs, rfl, rfl, h⟩
    have hKt : K (s.disk.setDir st.loc d') := hmid d' h.toSwept
    have hfs' : fs = (swept ++ [f]) ++ rest := by simp [hfs]
    cases f with
    | legacyTmp stem =>
      rw [sweepLegacy, wp_bind]
      refine wp_onlyIf (fun hvalid => ?_) fun hbad =>
        ⟨hKt, ⟨hKt, _, d', hfs', rfl, by simp [legacyStem], h.pass ?_⟩⟩
      · -- the temporary is still there, and goes
        have hget : d'.get (.legacyTmp stem) = d.get (.legacyTmp stem) := h.left stem mem_cons_self
        obtain ⟨e, he⟩ := isSome_iff_exists.mp ((d.mem_listing (.legacyTmp stem)).mp
          (hperm.mem_iff.mp (by rw [hfs]; simp)))
        have hp' : Swept d (d'.set (.legacyTmp stem) none) := by
          refine ⟨h.toPruned.trans (.set_none _ rfl), fun stem' => ?_⟩
          rw [get_set_of_ne _ _]
          exact h.legacy stem'
        have hK' : K ((s.setDir st.loc d').setDir st.loc (d'.set (.legacyTmp stem) none)).disk := by
          rw [setDir_disk, setDir_disk, Disk.setDir_setDir]
          exact hmid _ hp'
        refine wp_removeFile (s := s.setDir st.loc d') (Disk.dir?_setDir hd _)
          (hget.trans he) ?_ hKt
          hK' ?_ failed.here failed.here
        · rintro rfl
          exact (hun stem hvalid).2 he
        · rw [andThen_ok]
          refine ⟨hK', _, d'.set (.legacyTmp stem) none, hfs', by simp [setDir],
            by simp [legacyStem], hp', fun stem' hin => ?_, fun stem' hvalid' hin => ?_⟩
          · rw [get_set_of_ne _ _ ?_]
            · exact h.left stem' (mem_cons_of_mem _ hin)
            · -- the listing has no name twice
              intro heq
              rw [heq] at hin
              rw [hfs] at hnodup
              exact (nodup_cons.mp hnodup.of_append_right).1 hin
          · rw [get_set]
            split
            · rfl
            · rename_i hne
              rcases mem_append.mp hin with hin | hin
              · exact h.cleared stem' hvalid' hin
              · exact absurd (mem_singleton.mp hin) hne
      · rintro stem' ⟨⟩
        simpa using hbad
    | legacy stem =>
      rw [sweepLegacy]
      split
      · rename_i hvalid
        have hstem : legacyStem (.legacy stem) = some stem := legacyStem_eq_some.mpr ⟨rfl, hvalid⟩
        rw [wp_bind]
        refine wp_require hKt (fun _ => ?_) fun hfull => many ?_ d' h.toSwept
        · rw [andThen_ok]
          exact ⟨hKt, _, d', hfs', rfl, by simp [hstem], h.pass (by simp)⟩
        · rw [hfs]
          simp only [decide_eq_false_iff_not, Nat.not_lt] at hfull
          simp only [filterMap_append, filterMap_cons, hstem, length_append, length_cons]
          omega
      · rename_i hbad
        exact ⟨hKt, _, d', hfs', rfl, by simp [legacyStem, hbad], h.pass (by simp)⟩
    | keyfile | manifest | journal | record _ =>
      exact ⟨hKt, _, d', hfs', rfl, by simp [legacyStem], h.pass (by simp)⟩
  · rintro _ _ ⟨swept, d', hfs, rfl, rfl, h⟩
    rw [append_nil] at hfs
    subst hfs
    refine ⟨hmid d' h.toSwept, hQ d' h.toSwept fun stem hvalid => ?_⟩
    by_contra hsome
    -- a temporary that is there was listed, and so removed
    have hin : FileName.legacyTmp stem ∈ fs := by
      rw [hperm.mem_iff, d.mem_listing, ← h.get_eq hsome]
      exact isSome_iff_ne_none.mpr hsome
    exact hsome (h.cleared stem hvalid hin)
  · refine ⟨[], d, rfl, ?_, rfl, ⟨.refl d, fun _ => rfl⟩, fun _ _ => rfl, by simp⟩
    rw [setDir, Disk.setDir_dir? hd]

/-- The sweep, and then whatever is done to the names it collected. -/
theorem wp_migrateLegacy {mayImport : Bool} (hd : s.disk.dir? st.loc = some d) (hun : Unlinkable d)
    (hmid : ∀ d', Swept d d' → K (s.disk.setDir st.loc d'))
    (next : ∀ names d', LegacyNames d names → Swept d d' →
      (∀ stem, validRecordName stem = true → d'.get (.legacyTmp stem) = none) →
      wp (machine cr) A
        (names.foldlM (migrateOne cr st (!mayImport || (s.mem st.loc).index.contains marker)) false
          >>= fun imported => onlyIf imported (putRecord cr st marker [] false))
        Q (fun t => K t.disk) (s.setDir st.loc d'))
    (many : ∀ names d', LegacyNames d names → maxRecords < names.length → Swept d d' →
      Q (.error .tooManyRecords) (s.setDir st.loc d')) (failed : Faults A Q) :
    wp (machine cr) A (migrateLegacy cr st mayImport) Q (fun t => K t.disk) s := by
  have hK : K s.disk := by
    rw [← Disk.setDir_dir? hd]
    exact hmid d ⟨.refl d, fun _ => rfl⟩
  rw [migrateLegacy, wp_bind]
  refine wp_readDir hd hK (fun fs hperm => ?_) failed.here
  have hnames := legacyNames_of_perm hperm
  rw [andThen_bind]
  refine wp_sweep hd hperm hun hmid (fun d' hp htmp => ?_)
    (fun hmany d' hp => many _ d' hnames hmany hp) failed
  rw [andThen_bind]
  refine wp_getMem (hmid d' hp) ?_
  rw [andThen_ok]
  refine next _ d' ⟨?_, fun n => ?_⟩ hp htmp
  · exact (perm_insertionSort _ _).nodup_iff.mpr hnames.nodup
  · rw [(perm_insertionSort _ _).mem_iff]
    exact hnames.mem n

/-! ### Deleting unread -/

/-- Once the import window is closed, legacy files are deleted unread. -/
theorem wp_deleteLegacy {b : Bool} {Q : Post Bool}
    (hd : s.disk.dir? st.loc = some d) (hun : Unlinkable d) (hnodup : names.Nodup)
    (hvalid : ∀ n ∈ names, validRecordName n = true) (hfile : ∀ n ∈ names, d.get (.legacy n) ≠ none)
    (hmid : ∀ d', Pruned d d' → K (s.disk.setDir st.loc d'))
    (hQ : ∀ d', Pruned d d' → (∀ n ∈ names, d'.get (.legacy n) = none) →
      Q (.ok b) (s.setDir st.loc d')) (failed : Faults A Q) :
    wp (machine cr) A (names.foldlM (migrateOne cr st true) b) Q (fun t => K t.disk) s := by
  -- the invariant: the files of `gone` are deleted, those of `rest` are as they were
  refine wp_foldlM (fun acc rest t => ∃ gone d', names = gone ++ rest ∧ acc = b ∧
    t = s.setDir st.loc d' ∧ Pruned d d' ∧ (∀ n ∈ gone, d'.get (.legacy n) = none) ∧
    ∀ n ∈ rest, d'.get (.legacy n) = d.get (.legacy n)) ?_ ?_ ?_
  · rintro _ n rest _ ⟨gone, d', hnames, rfl, rfl, hp, hgone, hleft⟩
    have hKt : K (s.disk.setDir st.loc d') := hmid d' hp
    obtain ⟨e, he⟩ := ne_none_iff_exists'.mp (hfile n (by rw [hnames]; simp))
    have hp' : Pruned d (d'.set (.legacy n) none) := hp.trans (.set_none _ rfl)
    have hK' : K ((s.setDir st.loc d').setDir st.loc (d'.set (.legacy n) none)).disk := by
      rw [setDir_disk, setDir_disk, Disk.setDir_setDir]
      exact hmid _ hp'
    have hrest : n ∉ rest := by
      have hdup := hnodup
      rw [hnames] at hdup
      exact (nodup_cons.mp hdup.of_append_right).1
    rw [migrateOne, wp_bind]
    refine wp_onlyIf (by simp) fun _ => ⟨hKt, ?_⟩
    rw [andThen_bind]
    refine wp_removeFile (s := s.setDir st.loc d') (Disk.dir?_setDir hd _)
      ((hleft n mem_cons_self).trans he) ?_ hKt hK' ?_ failed.here
      failed.here
    · rintro rfl
      exact (hun n (hvalid n (by rw [hnames]; simp))).1 he
    rw [andThen_bind]
    refine wp_syncDir (Disk.dir?_setDir (Disk.dir?_setDir hd _) _) hK' ?_ failed.here
    rw [andThen_ok]
    refine ⟨hK', gone ++ [n], d'.set (.legacy n) none, by simp [hnames], by simp, ?_, hp', ?_, ?_⟩
    · simp [setDir]
    · intro m hm
      rw [get_set]
      split
      · rfl
      · rename_i hne
        rcases mem_append.mp hm with hm | hm
        · exact hgone m hm
        · exact absurd (by rw [mem_singleton.mp hm]) hne
    · intro m hm
      rw [get_set_of_ne _ _ ?_]
      · exact hleft m (mem_cons_of_mem _ hm)
      · rintro ⟨⟩
        exact hrest hm
  · rintro _ _ ⟨gone, d', hnames, rfl, rfl, hp, hgone, -⟩
    rw [append_nil] at hnames
    subst hnames
    exact ⟨hmid d' hp, hQ d' hp hgone⟩
  · refine ⟨[], d, rfl, rfl, ?_, .refl d, by simp, fun _ _ => rfl⟩
    rw [setDir, Disk.setDir_dir? hd]

/-! ### Importing -/

/-- The legacy files of the directory are the records of `L`, in the old format under the handle's
keys. Their names are in use, and none of them is reserved. -/
structure LegacyHolds (cr : Crypto) (st : ProfileStore) (N : Set Bytes) (d : Dir) (L : Map Bytes) :
    Prop where
  file : ∀ name payload, L[name]? = some payload → payload.length ≤ maxRecordLen ∧
    ∃ blob, d.get (.legacy name) = some (privateFile blob) ∧ blob.length ≤ maxBlobLen ∧
      openBlob cr st.bundle.record st.profile legacyMagic name blob = .ok payload
  name : ∀ stem, validRecordName stem = true → (d.get (.legacy stem)).isSome → stem ∈ L
  usable : ∀ n ∈ L, validRecordName n = true ∧ isInternal n = false ∧ n ∈ N
  few : L.size ≤ maxRecords
  unlinkable : Unlinkable d

namespace LegacyHolds

theorem mem_iff (h : LegacyHolds cr st N d L) {n : Bytes} (hvalid : validRecordName n = true) :
    (d.get (.legacy n)).isSome ↔ n ∈ L := by
  refine ⟨h.name n hvalid, fun hn => ?_⟩
  obtain ⟨-, blob, hget, -⟩ := h.file n _ (getElem?_eq_some_getElem hn)
  rw [hget]
  rfl

/-- The names that a sweep collects are those of the map. -/
theorem mem_names (h : LegacyHolds cr st N d L) (hnames : LegacyNames d names) (n : Bytes) :
    n ∈ names ↔ n ∈ L := by
  rw [hnames.mem]
  constructor
  · rintro ⟨hvalid, hsome⟩
    exact h.name n hvalid hsome
  · intro hn
    exact ⟨(h.usable n hn).1, (h.mem_iff (h.usable n hn).1).mpr hn⟩

theorem length_names (h : LegacyHolds cr st N d L) (hnames : LegacyNames d names) :
    names.length ≤ maxRecords := by
  refine le_trans ?_ h.few
  rw [← length_keys]
  refine (hnames.nodup.subperm fun n hn => ?_).length_le
  exact mem_keys.mpr ((h.mem_names hnames n).mp hn)

theorem congr (h : LegacyHolds cr st N d L)
    (hd : ∀ stem, d'.get (.legacy stem) = d.get (.legacy stem)) (hun : Unlinkable d') :
    LegacyHolds cr st N d' L where
  file name payload hp := by
    rw [hd]
    exact h.file name payload hp
  name stem hvalid hsome := by
    rw [hd] at hsome
    exact h.name stem hvalid hsome
  usable := h.usable
  few := h.few
  unlinkable := hun

theorem sameRest (h : LegacyHolds cr st N d L) (hs : SameRest d d') : LegacyHolds cr st N d' L :=
  h.congr (fun stem => hs.get _) (h.unlinkable.sameRest hs)

/-- Of the legacy records, those whose files are still there. -/
theorem pruned (h : LegacyHolds cr st N d L) (hp : Pruned d d') :
    LegacyHolds cr st N d' (L.filter fun n _ => (d'.get (.legacy n)).isSome) where
  file name payload hL := by
    rw [getElem?_filter'] at hL
    obtain ⟨hL, hsome⟩ := filter_eq_some_iff.mp hL
    rw [hp.get_eq (isSome_iff_ne_none.mp hsome)]
    exact h.file name payload hL
  name stem hvalid hsome := by
    have hget := hp.get_eq (isSome_iff_ne_none.mp hsome)
    rw [mem_iff_isSome_getElem?, getElem?_filter']
    have hin := h.name stem hvalid (by rwa [← hget])
    obtain ⟨payload, hL⟩ := isSome_iff_exists.mp (mem_iff_isSome_getElem?.mp hin)
    simp [hL, hsome]
  usable n hn := h.usable n (mem_of_mem_filter hn)
  few := le_trans (size_filter_le_size) h.few
  unlinkable := h.unlinkable.pruned hp

/-- The file of one legacy record was deleted. -/
theorem delete (h : LegacyHolds cr st N d L) (name : Bytes) :
    LegacyHolds cr st N (d.set (.legacy name) none) (L.erase name) where
  file n payload hL := by
    rw [getElem?_erase] at hL
    split at hL
    · cases hL
    · rename_i hne
      rw [get_set_of_ne _ _ ?_]
      · exact h.file n payload hL
      · rintro ⟨⟩
        exact hne Std.ReflCmp.compare_self
  name stem hvalid hsome := by
    rw [get_set] at hsome
    split at hsome
    · cases hsome
    · rename_i hne
      rw [mem_erase]
      refine ⟨fun heq => hne ?_, h.name stem hvalid hsome⟩
      rw [Std.compare_eq_iff_eq.mp heq]
  usable n hn := h.usable n (mem_of_mem_erase hn)
  few := le_trans size_erase_le h.few
  unlinkable := h.unlinkable.pruned (.set_none _ rfl)

/-- Without legacy records and temporaries nothing of the old format is left. -/
theorem noLegacy (h : LegacyHolds cr st N d ∅)
    (htmp : ∀ stem, validRecordName stem = true → d.get (.legacyTmp stem) = none) : NoLegacy d := by
  intro stem hvalid
  refine ⟨?_, htmp stem hvalid⟩
  by_contra hsome
  have := h.name stem hvalid (isSome_iff_ne_none.mpr hsome)
  simp at this

end LegacyHolds

/-- The first legacy record authenticates. -/
theorem wp_authenticateFirstLegacy (hd : s.disk.dir? st.loc = some d) (hL : LegacyHolds cr st N d L)
    (hK : K s.disk) (hQ : Q (.ok ()) s) (failed : Faults A Q) :
    wp (machine cr) A (authenticateFirstLegacy cr st) Q (fun t => K t.disk) s := by
  rw [authenticateFirstLegacy, wp_bind, wp_attempt]
  rcases hman : d.get .manifest with _ | entry
  on_goal 1 => refine wp_read_absent hd hman hK ?_ fun _ => ?_
  on_goal 3 => refine wp_read hd hman hK ⟨hK, hQ⟩ fun _ => ?_
  all_goals
    simp only [andThen_ok, wp_bind]
    refine wp_readDir hd hK (fun fs hperm => ?_) failed.here
    rw [andThen_ok]
    obtain ⟨hsome, -⟩ := foldl_firstStem (fs.filterMap legacyStem) none
    cases hfirst : (fs.filterMap legacyStem).foldl firstStem none with
    | none => exact ⟨hK, hQ⟩
    | some name =>
      -- the name is one of the map, so its file is authentic
      have hin : name ∈ L := by
        rcases hsome name hfirst with hmem | hno
        · exact (hL.mem_names (legacyNames_of_perm hperm) name).mp hmem
        · cases hno
      obtain ⟨-, blob, hget, hlen, hopen⟩ :=
        hL.file name _ (getElem?_eq_some_getElem hin)
      rw [wp_bind]
      refine wp_readBlob hd hK (fun _ _ _ _ _ => ⟨hK, hQ⟩) fun e hbad => failed (fun hA => ?_) e _
      rw [hbad hA blob hget hlen] at hopen
      cases hopen

/-- A legacy record is imported unless there is a record of its name. -/
theorem wp_importLegacy {name payload : Bytes} (h : Settled cr st N s d F) (hN : TagInjOn cr st N)
    (hL : LegacyHolds cr st N d L) (hp : L[name]? = some payload) (hroom : name ∉ F → Room F name)
    (hK : K s.disk)
    (hmid : ∀ d' G, SameRest d d' → G = F ∨ name ∉ F ∧ G = F.update name (some payload) →
      Recovers cr st N d' G → K (s.disk.setDir st.loc d')) (skip : name ∈ F → Q (.ok ()) s)
    (ok : name ∉ F → ∀ t d', Written cr st N name (some payload) s d F t d' → Q (.ok ()) t)
    (failed : Faults A Q) :
    wp (machine cr) A (importLegacy cr st name) Q (fun t => K t.disk) s := by
  obtain ⟨hlen, blob, hget, hblob, hopen⟩ := hL.file name payload hp
  obtain ⟨hvalid, -, hname⟩ := hL.usable name (mem_iff_isSome_getElem?.mpr (by rw [hp]; rfl))
  have hindex : (!(s.mem st.loc).index.contains name) = true ↔ name ∉ F := by
    rw [Bool.not_eq_true', Bool.eq_false_iff, ne_eq, Std.ExtTreeSet.contains_iff_mem, h.mem.index]
  rw [importLegacy, wp_bind]
  refine wp_getMem hK ?_
  rw [andThen_ok]
  refine wp_onlyIf (fun hout => ?_) fun hin => ⟨hK, skip ?_⟩
  swap
  · by_contra hout
    rw [hindex.mpr hout] at hin
    cases hin
  have hout : name ∉ F := hindex.mp hout
  rw [wp_bind]
  refine wp_ifPresent (wp_read_absent h.dir (h.toReady.record_absent hN hname hout) hK ⟨hK, ?_⟩
    fun hA => ⟨hK, failed hA _ _⟩)
  rw [absentAsNone, andThen_bind]
  refine wp_require hK (fun _ => ?_) (by simp)
  rw [andThen_bind]
  refine wp_readBlob h.dir hK (fun blob' plain hget' _ hopen' => ?_)
    fun e hbad => failed (fun hA => ?_) e _
  swap
  · rw [hbad hA blob hget hblob] at hopen
    cases hopen
  obtain rfl : plain = payload := by
    rw [hget] at hget'
    cases hget'
    rw [hopen] at hopen'
    cases hopen'
    rfl
  rw [andThen_bind]
  refine wp_require hK (fun _ => ?_) fun hlong => absurd hlen (by simpa using hlong)
  rw [andThen_ok, putRecord]
  refine wp_putRecordWith h.toReady hK (fun e hno => absurd ⟨hlen, hroom hout⟩ hno)
    failed.here fun _ hfits => ?_
  refine wp_writeRecord h.toReady hN hname hvalid hlen (hfits.bounded_update h.bounded _) hK
    (fun d' hsame hrec => ?_) (ok hout) fun hA e t _ => failed hA e t
  rcases hrec with hrec | hrec
  · exact hmid d' F hsame.sameRest (.inl rfl) hrec
  · exact hmid d' _ hsame.sameRest (.inr ⟨hout, rfl⟩) hrec

end Powehi.Store
