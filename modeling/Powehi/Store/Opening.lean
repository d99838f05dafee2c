import Powehi.Store.Loading
import Powehi.Store.Rekey

/-!
# Opening a store

What `open` does to a profile directory without a rekey journal: a directory with a key file
is loaded under the bundle the key file holds, an empty one becomes a new store. At every
point at which `open` can be cut off, the directory is one the next `open` accepts with the
same records.
-/

namespace Powehi.Store

open Codec Semantics Program Disk PasswordKek ProfileStore

variable {cr : Crypto} {A : Choice → Prop} {K : Disk → Prop} {C : World → Prop}
  {st : ProfileStore} {N : Set Bytes} {s : World} {d d' : Dir} {F : Map Bytes}
variable {Q : Post ProfileStore} {profile : Bytes} {u : Unlocker}
  {bundle : Bundle} {pw : PasswordKek} {l : Loc} {exportKey : Bytes} {unlock : Unlock}
  {upgrade : Bool}

/-! ### Legacy files -/

/-- There are no files of the pre-tag format. -/
def NoLegacy (d : Dir) : Prop :=
  ∀ stem, validRecordName stem = true →
    d.get (.legacy stem) = none ∧ d.get (.legacyTmp stem) = none

theorem NoLegacy.sameRest (h : NoLegacy d) (hs : SameRest d d') : NoLegacy d' := by
  intro stem hstem
  rw [hs.get _, hs.get _]
  exact h stem hstem

/-- No legacy file or temporary of a record is a directory, so each can be unlinked. -/
def Unlinkable (d : Dir) : Prop :=
  ∀ stem, validRecordName stem = true →
    d.get (.legacy stem) ≠ some .dir ∧ d.get (.legacyTmp stem) ≠ some .dir

theorem Unlinkable.sameRest (h : Unlinkable d) (hs : SameRest d d') : Unlinkable d' := by
  intro stem hvalid
  rw [hs.get _, hs.get _]
  exact h stem hvalid

/-- Without legacy files the sweep passes over every name. -/
theorem sweepLegacy_eq_pure {f : FileName} (h : NoLegacy d) (hf : (d.get f).isSome)
    (legacy : List Bytes) : sweepLegacy st legacy f = .pure legacy := by
  cases f with
  | legacy stem =>
    by_cases hstem : validRecordName stem = true
    · rw [(h stem hstem).1] at hf
      cases hf
    · simp only [sweepLegacy, if_neg hstem]
      rfl
  | legacyTmp stem =>
    by_cases hstem : validRecordName stem = true
    · rw [(h stem hstem).2] at hf
      cases hf
    · have hfalse : validRecordName stem = false := by simpa using hstem
      simp only [sweepLegacy, onlyIf, hfalse]
      rfl
  | _ => rfl

theorem wp_migrateLegacy_none {mayImport : Bool} {Q : Post Unit} (hd : s.disk.dir? st.loc = some d)
    (hno : NoLegacy d) (hs : C s) (hQ : Q (.ok ()) s) (failed : Faults A Q) :
    wp (machine cr) A (migrateLegacy cr st mayImport) Q C s := by
  rw [migrateLegacy, wp_bind]
  refine wp_readDir hd hs (fun fs hperm => ?_) failed.here
  rw [andThen_bind]
  refine wp_foldlM (fun acc rest t => acc = [] ∧ t = s ∧ ∀ f ∈ rest, (d.get f).isSome)
    ?_ ?_ ⟨rfl, rfl, fun f hf => (d.mem_listing f).mp (hperm.mem_iff.mp hf)⟩
  · rintro _ f rest _ ⟨rfl, rfl, hrest⟩
    rw [sweepLegacy_eq_pure hno (hrest f List.mem_cons_self)]
    exact ⟨hs, rfl, rfl, fun g hg => hrest g (List.mem_cons_of_mem _ hg)⟩
  · rintro _ _ ⟨rfl, rfl, -⟩
    refine ⟨hs, ?_⟩
    rw [andThen_bind]
    refine wp_getMem hs ?_
    rw [andThen_bind]
    refine ⟨hs, ?_⟩
    exact ⟨hs, hQ⟩

/-! ### Starting -/

/-- The directory can be loaded as `F`: it recovers to `F`, or it has no manifest yet and may be
given one. -/
def Loadable (cr : Crypto) (st : ProfileStore) (N : Set Bytes) (mayAdopt : Bool) (d : Dir)
    (F : Map Bytes) : Prop :=
  Recovers cr st N d F ∨ d.get .manifest = none ∧ Holds cr st d F ∧ Bounded F ∧
    (∀ n ∈ F, n ∈ N) ∧ manifestLatch ∉ F ∧ (F = ∅ ∨ mayAdopt = true)

theorem Openable.loadable (h : Openable cr st N d F) : Loadable cr st N false d F := by
  rcases h with hrec | ⟨habs, hholds, rfl⟩
  · exact .inl hrec
  · exact .inr ⟨habs, hholds, .empty, by simp, by simp, .inl rfl⟩

theorem Loadable.holds {mayAdopt : Bool} (h : Loadable cr st N mayAdopt d F) :
    ∃ F₀, Holds cr st d F₀ ∧ Bounded F₀ ∧ ∀ n ∈ F₀, n ∈ N := by
  rcases h with ⟨F₀, M, hM, hB, hN, -⟩ | ⟨-, hholds, hB, hN, -⟩
  · exact ⟨F₀, hM.holds, hB, hN⟩
  · exact ⟨F, hholds, hB, hN⟩

/-- Loading takes a directory that can be loaded as `F` to a settled one with the latch. Where
manifests may be adopted, the first legacy record has to authenticate. -/
theorem wp_load {mayAdopt : Bool} {k : StoreM ProfileStore} (hd : s.disk.dir? st.loc = some d)
    (hpriv : s.disk.Private st.loc) (hmem : (s.mem st.loc).poisoned = false)
    (hload : Loadable cr st N mayAdopt d F) (hN : TagInjOn cr st N) (hI : InternalIn N)
    (hfirst : mayAdopt = true → ∀ (t : World) (R : Except StoreError Unit → World → Prop),
      t.disk = s.disk → R (.ok ()) t → (¬FaultFree A → ∀ e t, R (.error e) t) →
      wp (machine cr) A (authenticateFirstLegacy cr st) R (fun t => K t.disk) t) (hK : K s.disk)
    (hmid : ∀ d' G, SameRest d d' → G = F ∨ G = latched F → Recovers cr st N d' G →
      K (s.disk.setDir st.loc d'))
    (next : ∀ t d', t.disk = s.disk.setDir st.loc d' → SameRest d d' →
      Settled cr st N t d' (latched F) → (∀ l ≠ st.loc, t.mem l = s.mem l) →
      (d.get .manifest = none → ∃ x blob s₁,
        SealsManifest cr st { generation := 1, entries := hashes cr d } x blob ∧
        s₁.seals = x :: s.seals ∧
        (s₁.mem st.loc).manifest = { generation := 1, entries := hashes cr d } ∧
        Written cr st N manifestLatch (some []) s₁ (d.withManifest blob) F
          t d') →
      (∀ M, OnDisk cr st d F M → M.pending = none → manifestLatch ∈ F →
        d' = d ∧ t.seals = s.seals) →
      K t.disk → wp (machine cr) A k Q (fun t => K t.disk) t) (failed : Faults A Q) :
    wp (machine cr) A (loadIndex cr st >>= fun found =>
      onlyIf (mayAdopt && found.isEmpty) (authenticateFirstLegacy cr st) >>= fun _ =>
      loadManifest cr st found mayAdopt >>= fun _ => k) Q (fun t => K t.disk) s := by
  obtain ⟨F₀, hholds, hB, hnames⟩ := hload.holds
  rw [wp_bind]
  refine wp_loadIndex hd hpriv hK (fun G index hG hindex _ => ?_)
    fun e hbad => failed (fun hA => ?_) _ _
  swap
  · exact hbad hA F₀ hholds hB
  obtain rfl : F₀ = G := hholds.unique hG
  have hidx : Indexed cr st N (s.setMem st.loc { s.mem st.loc with index }) d F₀ :=
    ⟨hd, hpriv, hholds, by simpa using hindex, by simpa using hmem, hB, hnames⟩
  have hKl : ∀ t d', t.disk = s.disk.setDir st.loc d' → SameRest d d' →
      Settled cr st N t d' (latched F) → K t.disk := by
    intro t d' ht hrest hset
    rw [ht]
    exact hmid d' _ hrest (.inr rfl) (hset.manifest.recovers hset.bounded hset.names hset.pending)
  -- the manifest and what comes after it
  have hmanifest : wp (machine cr) A (loadManifest cr st (hashes cr d) mayAdopt >>= fun _ => k) Q
      (fun t => K t.disk) (s.setMem st.loc { s.mem st.loc with index }) := by
    rw [wp_bind]
    refine wp_loadManifest hd hholds hK
      (fun habs => ?_) (fun M hM => ?_) fun e hbad => failed (fun hA => ?_) _ _
    · -- no manifest yet
      obtain ⟨hF, hlatch, hmay⟩ : Holds cr st d F ∧ manifestLatch ∉ F ∧
        (F = ∅ ∨ mayAdopt = true) := by
        rcases hload with ⟨F₁, M, hM, -⟩ | ⟨-, hF, -, -, hlatch, hmay⟩
        · exact absurd habs hM.manifest_ne_none
        · exact ⟨hF, hlatch, hmay⟩
      obtain rfl : F₀ = F := hholds.unique hF
      refine wp_adoptManifest hidx habs hlatch hmay hN hI hK hmid
        (fun x blob t d' hseal hw => ?_) failed
      have ht : t.disk = s.disk.setDir st.loc d' := by
        rw [hw.disk, World.committed_disk, World.setMem_disk, setDir_setDir]
      have hrest : SameRest d d' :=
        SameRest.trans (fun f hf _ => Dir.get_set_of_ne _ _ hf) hw.same.sameRest
      have hset : Settled cr st N t d' (latched F₀) := by
        rw [latched, if_neg hlatch]
        exact hw.toSettled
      refine next t d' ht hrest hset (fun l hl => ?_)
        (fun _ => ⟨x, blob, _, hseal, rfl, by simp, hw⟩)
        (fun M hM => absurd habs hM.manifest_ne_none) (hKl t d' ht hrest hset)
      rw [hw.others l hl, World.committed_mem_of_ne _ _ _ _ _ _ hl, World.setMem_mem_of_ne _ _ hl]
    · have hF : F = completed cr st M F₀ := by
        rcases hload with ⟨F₁, M₁, hM₁, -, -, hF⟩ | ⟨habs, -⟩
        · obtain rfl : F₀ = F₁ := hholds.unique hM₁.holds
          obtain rfl : M = M₁ := hM.manifest.unique hM₁.manifest
          exact hF
        · exact absurd habs hM.manifest_ne_none
      rw [wp_bind]
      refine wp_adoptLoaded hidx hM hK (fun d' hs hrec => ?_)
        (fun t d₁ ht hrest hset ho hq => ?_) failed
      · exact hmid d' F hs (.inl rfl) (hF ▸ hrec)
      · rw [← hF] at hset
        rw [World.setMem_disk] at ht
        have hKt : K t.disk := by
          rw [ht]
          exact hmid d₁ F hrest (.inl rfl)
            (hset.manifest.recovers hset.bounded hset.names hset.pending)
        refine wp_restoreLatch hset hN hI hKt (fun d' G hs hG hrec => ?_) (fun u d₂ hl => ?_) failed
        · rw [ht, setDir_setDir]
          exact hmid d' G (hrest.trans hs) hG hrec
        · have hu : u.disk = s.disk.setDir st.loc d₂ := by
            rw [hl.disk, ht, setDir_setDir]
          refine next u d₂ hu (hrest.trans hl.rest) hl.settled (fun l hne => ?_)
            (fun habs => absurd habs hM.manifest_ne_none) (fun M' hM' hp hin => ?_)
            (hKl u d₂ hu (hrest.trans hl.rest) hl.settled)
          · rw [hl.others l hne, ho l hne, World.setMem_mem_of_ne _ _ hne]
          · obtain rfl : M' = M := hM'.manifest.unique hM.manifest
            obtain ⟨rfl, hseals⟩ := hq hp
            obtain ⟨hd₂, hseals'⟩ := hl.quiet _ hset.manifest hset.pending hin
            exact ⟨hd₂, hseals'.trans hseals⟩
    · obtain ⟨hpres, hnone⟩ := hbad hA
      rcases hload with ⟨F₁, M₁, hM₁, -⟩ | ⟨habs, -⟩
      · obtain rfl : F₀ = F₁ := hholds.unique hM₁.holds
        exact hnone M₁ hM₁
      · exact hpres habs
  rw [andThen_bind]
  refine wp_onlyIf (fun hcond => ?_) fun _ => ⟨hK, hmanifest⟩
  rw [Bool.and_eq_true] at hcond
  exact hfirst hcond.1 _ _ rfl hmanifest failed

/-- Loading a store whose key file holds the bundle. -/
theorem wp_start_keyed (hd : s.disk.dir? st.loc = some d) (hpriv : s.disk.Private st.loc)
    (hmem : (s.mem st.loc).poisoned = false) (hopen : Openable cr st N d F) (hno : NoLegacy d)
    (hN : TagInjOn cr st N) (hI : InternalIn N)
    (hmid : ∀ d' G, SameRest d d' → G = F ∨ G = latched F → Openable cr st N d' G →
      K (s.disk.setDir st.loc d')) (ok : ∀ t d', Loaded cr st N F s d t d' → Q (.ok st) t)
    (failed : Faults A Q) : wp (machine cr) A (start cr st .keyed) Q (fun t => K t.disk) s := by
  have hK : K s.disk := by
    rw [← setDir_dir? hd]
    exact hmid d F (.refl d) (.inl rfl) hopen
  rw [start, wp_bind]
  refine ⟨hK, ?_⟩
  refine wp_load hd hpriv hmem hopen.loadable hN hI nofun hK
    (fun d' G hs hG hrec => hmid d' G hs hG (.inl hrec))
    (fun t d' ht hrest hset ho hadopt hquiet hKt => ?_) failed
  have hl : Loaded cr st N F s d t d' := by
    refine ⟨ht, hrest, hset, ho, fun habs => ?_, hquiet⟩
    rcases hopen with ⟨F₁, M, hM, -⟩ | ⟨-, -, rfl⟩
    · exact absurd habs hM.manifest_ne_none
    · exact hadopt habs
  rw [wp_bind]
  refine wp_migrateLegacy_none hset.dir (hno.sameRest hrest) hKt ?_ failed
  rw [andThen_bind]
  exact ⟨hKt, hKt, ok t d' hl⟩

/-- A directory without records holds the empty map. -/
theorem holds_empty (h : ∀ stem, isTag stem = true → d.get (.record stem) = none) :
    Holds cr st d ∅ where
  file name payload hp := by simp at hp
  name stem hstem hsome := by
    rw [h stem hstem] at hsome
    cases hsome

/-- A directory that cannot be opened is refused. -/
theorem wp_start_unopenable (hd : s.disk.dir? st.loc = some d) (hpriv : s.disk.Private st.loc)
    (hsound : ∀ G M, OnDisk cr st d G M → Bounded G ∧ ∀ n ∈ G, n ∈ N)
    (hnone : ∀ F, ¬Openable cr st N d F) (failed : ∀ e t, Q (.error e) t) :
    wp (machine cr) A (start cr st .keyed) Q (fun _ => True) s := by
  rw [start, wp_bind]
  refine ⟨trivial, ?_⟩
  rw [andThen_bind]
  refine wp_loadIndex (K := fun _ => True) hd hpriv trivial (fun G index hG hindex _ => ?_)
    fun e _ => failed e _
  rw [andThen_bind]
  refine ⟨trivial, ?_⟩
  rw [andThen_bind]
  refine wp_loadManifest (K := fun _ => True) hd
    hG trivial (fun habs => ?_) (fun M hM => ?_) fun e _ => failed e _
  · -- without a manifest, only an empty store may be adopted
    rw [adoptManifest, wp_bind]
    refine wp_getMem trivial ?_
    rw [andThen_bind]
    refine wp_require trivial (fun hempty => ?_) fun _ => failed _ _
    have hnil : (hashes cr d).isEmpty = true := by
      simp only [Flow.upgrading, Bool.not_false, Bool.and_true, Bool.not_eq_true',
        Bool.or_eq_false_iff] at hempty
      simpa using hempty.2
    have hempty : Holds cr st d ∅ := holds_empty fun stem hstem => ?_
    · exact absurd (.inr ⟨habs, hempty, rfl⟩) (hnone ∅)
    · cases hget : d.get (.record stem) with
      | none => rfl
      | some x =>
        obtain ⟨n, hn, rfl⟩ := hG.name stem hstem (by rw [hget]; rfl)
        have := hG.tag_mem_hashes hn
        rw [Std.ExtTreeMap.isEmpty_iff.mp hnil] at this
        simp at this
  · obtain ⟨hB, hnames⟩ := hsound G M hM
    exact absurd (.inl ⟨G, M, hM, hB, hnames, rfl⟩) (hnone (completed cr st M G))

/-! ### Creating a store -/

/-- The key file opens to `bundle` with the caller's key. -/
def Locked (cr : Crypto) (profile : Bytes) (u : Unlocker) (bundle : Bundle) (d : Dir) : Prop :=
  ∃ kf : KeyFile, d.get .keyfile = some (privateFile kf.encode) ∧ kf.WellFormed ∧
    u.unlock cr profile kf = .ok bundle

theorem Locked.sameRest (h : Locked cr profile u bundle d) (hs : SameRest d d') :
    Locked cr profile u bundle d' := by
  obtain ⟨kf, hget, hrest⟩ := h
  exact ⟨kf, by rw [hs.get _, hget], hrest⟩

/-- A directory without any file of a store. -/
structure Blank (d : Dir) : Prop where
  keyfile : d.get .keyfile = none
  journal : d.get .journal = none
  manifest : d.get .manifest = none
  records : ∀ stem, isTag stem = true → d.get (.record stem) = none
  noLegacy : NoLegacy d

/-- The key file of a new store. -/
def newKeyfile (cr : Crypto) (st : ProfileStore) (pw : PasswordKek) (nonce : Nonce) : KeyFile :=
  ⟨slot cr pw.key st.profile .password st.bundle nonce, none⟩

theorem newKeyfile_wellFormed (pw : PasswordKek) (nonce : Nonce) :
    (newKeyfile cr st pw nonce).WellFormed :=
  ⟨length_slot .., nofun⟩

/-- The directory after the key file of a new store was written. -/
def Dir.withKeyfile (d : Dir) (cr : Crypto) (st : ProfileStore) (pw : PasswordKek)
    (nonce : Nonce) : Dir :=
  d.set .keyfile (some (privateFile (newKeyfile cr st pw nonce).encode))

theorem locked_withKeyfile (d : Dir) (exportKey : Bytes) (pw : PasswordKek) (nonce : Nonce) :
    Locked cr st.profile (.password exportKey pw) st.bundle (d.withKeyfile cr st pw nonce) :=
  ⟨_, Dir.get_set_self .., newKeyfile_wellFormed pw nonce, unsealSlot_slot ..⟩

theorem wp_createKeyfile {Q : Post Unit} (hd : s.disk.dir? st.loc = some d)
    (hdir : d.get .keyfile ≠ some .dir) (hK : K s.disk)
    (hK' : ∀ nonce, K (s.disk.setDir st.loc (d.withKeyfile cr st pw nonce)))
    (ok : ∀ nonce x, x.aad = slotAad st.profile .password →
      Q (.ok ()) ((s.log x).setDir st.loc (d.withKeyfile cr st pw nonce))) (failed : Faults A Q) :
    wp (machine cr) A (createKeyfile st pw) Q (fun t => K t.disk) s := by
  rw [createKeyfile, wp_bind, KeyFile.new, wp_bind]
  refine wp_sealSlot hK (fun _ => hK) (fun nonce => ?_) fun hA e t _ => failed hA e t
  refine ⟨hK, ?_⟩
  rw [andThen_ok, writeKeyfile, wp_bind]
  refine wp_replace hd hdir hK (hK' nonce) ?_ failed.here failed.here
  rw [andThen_ok]
  exact wp_syncDir (dir?_setDir hd _) (hK' nonce) (ok nonce _ rfl) failed.here

/-- Creating a store is writing the key file and loading what is there. -/
theorem start_fresh (cr : Crypto) (st : ProfileStore) (pw : PasswordKek) :
    start cr st (.fresh pw) = createKeyfile st pw >>= fun _ => start cr st .keyed := rfl

theorem wp_start_fresh (hd : s.disk.dir? st.loc = some d) (hpriv : s.disk.Private st.loc)
    (hmem : (s.mem st.loc).poisoned = false) (hblank : Blank d) (hN : TagInjOn cr st N)
    (hI : InternalIn N) (hK : K s.disk)
    (hmid : ∀ nonce d' G, SameRest (d.withKeyfile cr st pw nonce) d' → visible G = ∅ →
      Openable cr st N d' G → K (s.disk.setDir st.loc d'))
    (ok : ∀ nonce x t d', x.aad = slotAad st.profile .password →
      Loaded cr st N ∅ ((s.log x).setDir st.loc (d.withKeyfile cr st pw nonce))
        (d.withKeyfile cr st pw nonce) t d' → Q (.ok st) t) (failed : Faults A Q) :
    wp (machine cr) A (start cr st (.fresh pw)) Q (fun t => K t.disk) s := by
  have hvis := visible_empty
  have hopen : ∀ nonce, Openable cr st N (d.withKeyfile cr st pw nonce) ∅ := by
    intro nonce
    refine .inr ⟨?_, holds_empty fun stem hstem => ?_, rfl⟩
    · exact (Dir.get_set_of_ne _ _).trans hblank.manifest
    · exact (Dir.get_set_of_ne _ _).trans (hblank.records stem hstem)
  have hno : ∀ nonce, NoLegacy (d.withKeyfile cr st pw nonce) := by
    intro nonce stem hstem
    exact hblank.noLegacy stem hstem
  rw [start_fresh, wp_bind]
  refine wp_createKeyfile hd (by rw [hblank.keyfile]; exact nofun) hK
    (fun nonce => hmid nonce _ ∅ (.refl _) hvis (hopen nonce)) (fun nonce x hx => ?_) failed
  refine wp_start_keyed (dir?_setDir hd _) (hpriv.setDir _) hmem (hopen nonce) (hno nonce)
    hN hI (fun d' G hs hG ho => ?_) (fun t d' hl => ok nonce x t d' hx hl) failed
  rw [World.setDir_disk, setDir_setDir]
  refine hmid nonce d' G hs ?_ ho
  rcases hG with rfl | rfl
  · exact hvis
  · rw [visible_latched, hvis]

/-! ### Opening -/

/-- Replace whatever is at `rekey.new`. -/
def World.setStaging (s : World) (stg : Staging) : World :=
  { s with disk := { s.disk with staging := stg } }

theorem World.setStaging_self (s : World) : s.setStaging s.disk.staging = s := rfl

theorem wp_removeStaging {Q : Post Unit}
    (hK : ∀ stg, K (s.setStaging stg).disk) (ok : Q (.ok ()) (s.setStaging .absent))
    (failed : ¬FaultFree A → ∀ e stg, Q (.error e) (s.setStaging stg)) :
    wp (machine cr) A removeStaging Q (fun t => K t.disk) s := by
  have hKs : K s.disk := hK s.disk.staging
  rw [removeStaging, wp_bind]
  refine wp_statStaging hKs (fun hstg => ?_) (fun hstg => ?_) (fun priv d hstg => ?_)
    fun hA e => failed hA e s.disk.staging
  · have hsame : s.setStaging .absent = s := by
      rw [← hstg, World.setStaging_self]
    rw [hsame] at ok
    exact ⟨hKs, ok⟩
  · have hunlink : ∀ c, Call.effect cr .removeStagingFile c s =
        (.ok (), s.setStaging .absent) := by
      simp [Call.effect, hstg, World.setStaging]
    rw [andThen_ok]
    exact wp_call_step hunlink hKs (hK .absent) ok (fun hA => failed hA _ s.disk.staging)
      fun hA => failed hA _ _
  · have hclear : ∀ c, Call.effect cr .clearStaging c s =
        (.ok (), s.setStaging (.dir priv (d.filter c.keep))) := by
      simp [Call.effect, World.withDir, dir?, World.setDir, setDir, hstg,
        World.setStaging]
    have hrmdir : ∀ c d', Call.effect cr .removeStagingDir c (s.setStaging (.dir priv d')) =
        (.ok (), s.setStaging .absent) := by
      simp [Call.effect, World.withDir, dir?, World.setStaging]
    -- some files go first, in any order, then the directory
    rw [andThen_ok, removeStagingAll, wp_bind]
    refine wp_call hKs (fun c _ => ?_) (fun hA => failed hA _ s.disk.staging) fun hA c _ => ?_
    swap
    · rw [hclear c]
      exact failed hA _ _
    rw [hclear c]
    refine ⟨hK _, ?_⟩
    rw [andThen_ok]
    exact wp_call_step (fun c' => hrmdir c' _) (hK _) (hK .absent) ok (fun hA => failed hA _ _)
      fun hA => failed hA _ _

theorem wp_prepare {Q : Post Unit} (hvalid : validProfileName profile = true) (hs : C s)
    (hQ : Q (.ok ()) s) (failed : Faults A Q) : wp (machine cr) A (prepare profile) Q C s := by
  rw [prepare, wp_bind]
  refine wp_checkHome hs ?_ failed.here
  rw [andThen_bind]
  refine wp_require hs (fun _ => ?_) fun hbad => by simp [hvalid] at hbad
  exact wp_lock hs hQ failed.here

/-- Without a journal, `recover` discards whatever was staged. -/
theorem wp_recover_none {unlock : KeyFile → Except StoreError Bundle}
    {Q : Post Unit} (hj : s.disk.home.get .journal = none)
    (hK : ∀ stg, K (s.setStaging stg).disk) (ok : Q (.ok ()) (s.setStaging .absent))
    (failed : ¬FaultFree A → ∀ e stg, Q (.error e) (s.setStaging stg)) :
    wp (machine cr) A (recover cr profile unlock) Q (fun t => K t.disk) s := by
  have hKs : K s.disk := hK s.disk.staging
  rw [recover, wp_bind]
  refine wp_ifPresent (wp_readPrivateFile_absent (dir?_home _) hj hKs ⟨hKs, ?_⟩
    fun hA => ⟨hKs, failed hA _ s.disk.staging⟩)
  exact wp_removeStaging hK ok failed

theorem wp_readKeyfile_some {kf : KeyFile} {Q : Post (Option KeyFile)} (hd : s.disk.dir? l = some d)
    (hf : d.get .keyfile = some (privateFile kf.encode)) (hkf : kf.WellFormed) (hs : C s)
    (hQ : Q (.ok (some kf)) s) (failed : Faults A Q) : wp (machine cr) A (readKeyfile l) Q C s := by
  rw [readKeyfile, wp_bind]
  refine wp_ifPresent (wp_readPrivateFile hd hf (KeyFile.length_encode_le hkf) hs ⟨hs, ?_⟩
    fun hA => ⟨hs, failed hA _ _⟩)
  rw [absentAsNone, andThen_ok]
  rw [wp_bind, KeyFile.decode_encode hkf]
  exact ⟨hs, hs, hQ⟩

theorem wp_readKeyfile_none {Q : Post (Option KeyFile)}
    (hd : s.disk.dir? l = some d) (hf : d.get .keyfile = none) (hs : C s) (hQ : Q (.ok none) s)
    (failed : Faults A Q) : wp (machine cr) A (readKeyfile l) Q C s := by
  rw [readKeyfile, wp_bind]
  exact wp_ifPresent (wp_readPrivateFile_absent hd hf hs ⟨hs, hs, hQ⟩ fun hA => ⟨hs, failed hA _ _⟩)

/-- The directory has a file that only a store has. -/
def HasStoreFile (d : Dir) : Prop :=
  ∃ f, (d.get f).isSome ∧ ((tagStem f).isSome ∨ (legacyStem f).isSome ∨ f = .manifest)

theorem Blank.not_hasStoreFile (h : Blank d) : ¬HasStoreFile d := by
  rintro ⟨f, hsome, hkind⟩
  cases f with
  | keyfile | journal | legacyTmp _ => simp [tagStem, legacyStem] at hkind
  | manifest =>
    rw [h.manifest] at hsome
    cases hsome
  | record stem =>
    have hstem : isTag stem = true := by simpa [tagStem, legacyStem] using hkind
    rw [h.records stem hstem] at hsome
    cases hsome
  | legacy stem =>
    have hstem : validRecordName stem = true := by simpa [tagStem, legacyStem] using hkind
    rw [(h.noLegacy stem hstem).1] at hsome
    cases hsome

theorem wp_hasStoreFiles {Q : Post Bool} (hd : s.disk.dir? l = some d)
    (hs : C s) (hQ : ∀ b, (b = true ↔ HasStoreFile d) → Q (.ok b) s)
    (failed : ¬FaultFree A → ∀ e, Q (.error e) s) : wp (machine cr) A (hasStoreFiles l) Q C s := by
  rw [hasStoreFiles, wp_bind]
  refine wp_readDir hd hs (fun fs hperm => ⟨hs, hQ _ ?_⟩) fun hA => failed hA _
  rw [List.any_eq_true]
  refine exists_congr fun f => and_congr ?_ (by simp [or_assoc])
  rw [hperm.mem_iff, d.mem_listing]

/-! ### Handles with the same keys -/

/-- The plain handle on the profile directory with the given keys. -/
def handle (profile : Bytes) (bundle : Bundle) : ProfileStore := { loc := .home, profile, bundle }

section SameKeys

variable {st' : ProfileStore} {M : Manifest}

theorem Holds.of_keys (h : Holds cr st d F) (hp : st'.profile = st.profile)
    (hb : st'.bundle = st.bundle) : Holds cr st' d F := by
  constructor
  · intro name payload hF
    have := h.file name payload hF
    rwa [tag, IsEntry, tag, hp, hb]
  · intro stem hstem hsome
    obtain ⟨name, hname, htag⟩ := h.name stem hstem hsome
    exact ⟨name, hname, by rw [← htag, tag, tag, hb]⟩

theorem OnDisk.of_keys (h : OnDisk cr st d F M) (hp : st'.profile = st.profile)
    (hb : st'.bundle = st.bundle) : OnDisk cr st' d F M := by
  refine ⟨h.holds.of_keys hp hb, ?_, h.verified⟩
  have := h.manifest
  rwa [ManifestOn, hp, hb]

theorem completed_of_keys (hb : st'.bundle = st.bundle) :
    completed cr st' M F = completed cr st M F := by
  simp only [completed, tag, hb]

theorem Openable.of_keys (h : Openable cr st N d F) (hp : st'.profile = st.profile)
    (hb : st'.bundle = st.bundle) : Openable cr st' N d F := by
  rcases h with ⟨F₀, M, hM, hB, hN, hF⟩ | ⟨habs, hholds, hF⟩
  · exact .inl ⟨F₀, M, hM.of_keys hp hb, hB, hN, by rw [hF, completed_of_keys hb]⟩
  · exact .inr ⟨habs, hholds.of_keys hp hb, hF⟩

theorem TagInjOn.of_keys (h : TagInjOn cr st N) (hb : st'.bundle = st.bundle) :
    TagInjOn cr st' N := by
  intro a ha b hb' htag
  refine h a ha b hb' ?_
  simpa only [tag, hb] using htag

end SameKeys

/-! ### `open` -/

/-- The flag an opened handle carries about where its keys come from. -/
def Unlocker.derivedKeys (cr : Crypto) (u : Unlocker) (bundle : Bundle) (flag : Bool) : Prop :=
  match u with
  | .password exportKey _ => ∃ derived, Bundle.derived cr exportKey = .ok derived ∧
      flag = bundle.sameKeys derived
  | .recovery _ => flag = false

/-- The handle is one on the profile directory, with the caller's keys. -/
structure OpenedAs (cr : Crypto) (profile : Bytes) (u : Unlocker) (bundle : Bundle)
    (st : ProfileStore) : Prop where
  loc : st.loc = .home
  sameProfile : st.profile = profile
  sameBundle : st.bundle = bundle
  derived : u.derivedKeys cr bundle st.derivedKeys
  byRecovery : st.byRecovery = u.byRecovery

/-- The export key derives the password key. -/
abbrev Derives (cr : Crypto) (exportKey : Bytes) (pw : PasswordKek) : Prop :=
  Unlock.derive cr (.password exportKey) = .ok (.password exportKey pw)

theorem derive_of_new (h : new cr exportKey = .ok pw) : Derives cr exportKey pw := by
  rw [Derives, Unlock.derive, h]
  rfl

/-- An export key of the accepted length unlocks. -/
theorem derive_password (hkey : exportKey.length = exportKeyLen) :
    Derives cr exportKey ⟨cr.hkdf exportKey kekPwInfo⟩ :=
  derive_of_new (new_of_length hkey)

/-- A password unlocker comes from an export key of the accepted length. -/
theorem eq_password_of_derive (h : unlock.derive cr = .ok (.password exportKey pw)) :
    unlock = .password exportKey ∧ new cr exportKey = .ok pw := by
  cases unlock with
  | recovery rc => cases h
  | password ek =>
    cases hpw : new cr ek <;> rw [Unlock.derive, hpw] at h <;> cases h
    exact ⟨rfl, hpw⟩

/-- A password derives an unlocker of its own kind. -/
theorem exists_of_derive (h : Unlock.derive cr (.password exportKey) = .ok u) :
    ∃ pw, u = .password exportKey pw ∧ new cr exportKey = .ok pw := by
  cases hpw : new cr exportKey <;> rw [Unlock.derive, hpw] at h <;> cases h
  exact ⟨_, rfl, rfl⟩

theorem derived_of_derive (h : unlock.derive cr = .ok (.password exportKey pw)) :
    ∃ derived, Bundle.derived cr exportKey = .ok derived :=
  ⟨_, Bundle.derived_of_length (length_of_new (eq_password_of_derive h).2)⟩

/-- What `open` does once an interrupted rekey is out of the way. -/
def openRecovered (cr : Crypto) (profile : Bytes) (u : Unlocker) (upgrade : Bool) :
    StoreM ProfileStore := do
  let keyfile ← readKeyfile .home
  let hasFiles ← hasStoreFiles .home
  let keys ← findKeys cr profile u upgrade keyfile hasFiles
  let st ← build
    { loc := .home, profile, bundle := keys.bundle, derivedKeys := keys.derivedKeys,
      byRecovery := u.byRecovery }
  start cr st keys.flow

/-- With a key file there is no choice of keys: the rest is loading. -/
theorem wp_openRecovered_of_start (hu : ∃ unlock : Unlock, unlock.derive cr = .ok u)
    (hlock : Locked cr profile u bundle s.disk.home) (hK : K s.disk)
    (h : ∀ st, OpenedAs cr profile u bundle st →
      wp (machine cr) A (start cr st .keyed) Q (fun t => K t.disk) (s.setMem .home {}))
    (failed : Faults A Q) :
    wp (machine cr) A (openRecovered cr profile u upgrade) Q (fun t => K t.disk) s := by
  obtain ⟨kf, hkf, hwf, hunlock⟩ := hlock
  rw [openRecovered, wp_bind]
  refine wp_readKeyfile_some (dir?_home _) hkf hwf hK ?_ failed
  rw [andThen_bind]
  refine wp_hasStoreFiles (dir?_home _) hK (fun b _ => ?_) fun hA e => failed hA e _
  rw [andThen_bind]
  have hrest : ∀ flag, u.derivedKeys cr bundle flag →
      wp (machine cr) A (build ⟨.home, profile, bundle, flag, u.byRecovery⟩ >>= fun st =>
        start cr st .keyed) Q (fun t => K t.disk) s := by
    intro flag hflag
    rw [wp_bind, build, wp_bind]
    refine wp_modifyMem hK hK ?_
    refine ⟨hK, ?_⟩
    exact h _ ⟨rfl, rfl, rfl, hflag, rfl⟩
  cases u with
  | password exportKey pw =>
    obtain ⟨unlock, hu⟩ := hu
    obtain ⟨derived, hderived⟩ := derived_of_derive hu
    have hkeys : kf.unlockPassword cr profile pw = .ok bundle := hunlock
    simp only [findKeys]
    rw [wp_bind, hkeys]
    refine ⟨hK, ?_⟩
    rw [andThen_bind, hderived]
    exact ⟨hK, hK, hrest _ ⟨derived, hderived, rfl⟩⟩
  | recovery rc =>
    have hkeys : kf.unlockRecovery cr profile rc = .ok bundle := hunlock
    simp only [findKeys]
    rw [wp_bind, hkeys]
    exact ⟨hK, hK, hrest _ rfl⟩

/-- Opening a directory that holds a key file loads its records. -/
theorem wp_openRecovered_keyed (hu : ∃ unlock : Unlock, unlock.derive cr = .ok u)
    (hno : NoLegacy s.disk.home) (hlock : Locked cr profile u bundle s.disk.home)
    (hopen : Openable cr (handle profile bundle) N s.disk.home F)
    (hN : TagInjOn cr (handle profile bundle) N) (hI : InternalIn N)
    (hmid : ∀ d' G, SameRest s.disk.home d' → G = F ∨ G = latched F →
      Openable cr (handle profile bundle) N d' G → K (s.disk.setDir .home d'))
    (ok : ∀ st t d', OpenedAs cr profile u bundle st →
      Loaded cr st N F (s.setMem .home {}) s.disk.home t d' → Q (.ok st) t) (failed : Faults A Q) :
    wp (machine cr) A (openRecovered cr profile u upgrade) Q (fun t => K t.disk) s := by
  have hK : K s.disk := hmid s.disk.home F (.refl _) (.inl rfl) hopen
  refine wp_openRecovered_of_start hu hlock hK (fun st hst => ?_) failed
  obtain ⟨hloc, hp, hb⟩ : st.loc = .home ∧ st.profile = profile ∧ st.bundle = bundle :=
    ⟨hst.loc, hst.sameProfile, hst.sameBundle⟩
  refine wp_start_keyed ?_ ?_ ?_ (hopen.of_keys hp hb) hno
    (hN.of_keys hb) hI (fun d' G hs hG ho => ?_) (fun t d' hl => ok st t d' hst hl) failed
  · rw [hloc]
    rfl
  · rw [hloc]
    trivial
  · rw [hloc]
    simp
  · rw [hloc]
    exact hmid d' G hs hG (ho.of_keys hp.symm hb.symm)

section

variable (hu : unlock.derive cr = .ok u) (hvalid : validProfileName profile = true)
include hu hvalid

/-- `open` is recovering, then opening what is there. -/
theorem wp_openAs_of_recover (hK : K s.disk)
    (h : wp (machine cr) A (recover cr profile (u.unlock cr profile))
      (andThen (fun _ t => wp (machine cr) A (openRecovered cr profile u upgrade) Q
        (fun t => K t.disk) t) Q) (fun t => K t.disk) s) (failed : Faults A Q) :
    wp (machine cr) A (openAs cr profile unlock upgrade) Q (fun t => K t.disk) s := by
  rw [openAs, wp_bind, hu]
  refine ⟨hK, ?_⟩
  rw [andThen_bind]
  refine wp_prepare hvalid hK ?_ failed
  rw [andThen_bind]
  exact h

/-- Without a journal, whatever was staged is discarded first. -/
theorem wp_openAs_of_openRecovered (hj : s.disk.home.get .journal = none)
    (hK : ∀ stg, K (s.setStaging stg).disk)
    (h : wp (machine cr) A (openRecovered cr profile u upgrade) Q (fun t => K t.disk)
      (s.setStaging .absent)) (failed : Faults A Q) :
    wp (machine cr) A (openAs cr profile unlock upgrade) Q (fun t => K t.disk) s :=
  wp_openAs_of_recover hu hvalid (hK s.disk.staging)
    (wp_recover_none hj hK h fun hA e _ => failed hA e _) failed

/-- Opening a directory that cannot be opened under the bundle in its key file fails. -/
theorem wp_openAs_unopenable (hj : s.disk.home.get .journal = none)
    (hlock : Locked cr profile u bundle s.disk.home)
    (hsound : ∀ G M, OnDisk cr (handle profile bundle) s.disk.home G M → Bounded G ∧ ∀ n ∈ G, n ∈ N)
    (hnone : ∀ F, ¬Openable cr (handle profile bundle) N s.disk.home F)
    (failed : ∀ e t, Q (.error e) t) :
    wp (machine cr) A (openAs cr profile unlock upgrade) Q (fun _ => True) s := by
  refine wp_openAs_of_openRecovered (K := fun _ => True) hu hvalid hj (fun _ => trivial) ?_
    fun _ => failed
  refine wp_openRecovered_of_start (K := fun _ => True) ⟨unlock, hu⟩ hlock trivial
    (fun st hst => ?_) fun _ => failed
  obtain ⟨hloc, hp, hb⟩ : st.loc = .home ∧ st.profile = profile ∧ st.bundle = bundle :=
    ⟨hst.loc, hst.sameProfile, hst.sameBundle⟩
  refine wp_start_unopenable ?_ ?_ (fun G M hM => ?_)
    (fun F hF => hnone F (hF.of_keys hp.symm hb.symm)) failed
  · rw [hloc]
    rfl
  · rw [hloc]
    trivial
  · exact hsound G M (hM.of_keys hp.symm hb.symm)

/-- Opening a directory that holds a key file and no journal loads its records. -/
theorem wp_openAs_keyed (hj : s.disk.home.get .journal = none) (hno : NoLegacy s.disk.home)
    (hlock : Locked cr profile u bundle s.disk.home)
    (hopen : Openable cr (handle profile bundle) N s.disk.home F)
    (hN : TagInjOn cr (handle profile bundle) N) (hI : InternalIn N)
    (hmid : ∀ d' stg G, SameRest s.disk.home d' → G = F ∨ G = latched F →
      Openable cr (handle profile bundle) N d' G → K ⟨d', stg⟩)
    (ok : ∀ st t d', OpenedAs cr profile u bundle st →
      Loaded cr st N F ((s.setStaging .absent).setMem .home {}) s.disk.home t d' → Q (.ok st) t)
    (failed : Faults A Q) :
    wp (machine cr) A (openAs cr profile unlock upgrade) Q (fun t => K t.disk) s := by
  have hK : ∀ stg, K (s.setStaging stg).disk := fun stg =>
    hmid s.disk.home stg F (.refl _) (.inl rfl) hopen
  refine wp_openAs_of_openRecovered hu hvalid hj hK ?_ failed
  exact wp_openRecovered_keyed ⟨unlock, hu⟩ hno hlock hopen hN hI
    (fun d' G hs hG ho => hmid d' _ G hs hG ho) ok failed

end

/-- Opening an empty directory with a password creates a store. -/
theorem wp_openStore_blank {profile exportKey : Bytes} (hu : Derives cr exportKey pw)
    (hvalid : validProfileName profile = true) (hblank : Blank s.disk.home)
    (hN : ∀ c, A c → TagInjOn cr (handle profile c.bundle) N) (hI : InternalIn N)
    (hblankK : ∀ stg, K (s.setStaging stg).disk)
    (hmid : ∀ c d' G, A c → d'.get .journal = none → NoLegacy d' →
      Locked cr profile (.password exportKey pw) c.bundle d' → visible G = ∅ →
      Openable cr (handle profile c.bundle) N d' G → K ⟨d', .absent⟩)
    (ok : ∀ c nonce x t d', A c → x.aad = slotAad profile .password →
      Loaded cr (handle profile c.bundle) N ∅
        (((((s.setStaging .absent).setMem .home {})).log x).setDir .home
          (s.disk.home.withKeyfile cr (handle profile c.bundle) pw nonce))
        (s.disk.home.withKeyfile cr (handle profile c.bundle) pw nonce) t d' →
      Q (.ok (handle profile c.bundle)) t) (failed : Faults A Q) :
    wp (machine cr) A (openAs cr profile (.password exportKey) upgrade)
      Q (fun t => K t.disk) s := by
  refine wp_openAs_of_openRecovered hu hvalid hblank.journal hblankK ?_ failed
  rw [openRecovered, wp_bind]
  refine wp_readKeyfile_none (dir?_home _) hblank.keyfile (hblankK _) ?_ failed
  rw [andThen_bind]
  refine wp_hasStoreFiles (dir?_home _) (hblankK _) (fun b hb => ?_) fun hA e => failed hA e _
  obtain rfl : b = false := Bool.eq_false_iff.mpr fun h => hblank.not_hasStoreFile (hb.mp h)
  rw [andThen_bind]
  simp only [findKeys, Bool.false_eq_true, if_false]
  rw [wp_bind]
  refine wp_fillBundle (hblankK _) (fun c hc => ?_) failed.here
  refine ⟨hblankK _, ?_⟩
  rw [andThen_bind, build, wp_bind]
  refine wp_modifyMem (hblankK _) (hblankK _) ?_
  refine ⟨hblankK _, ?_⟩
  refine wp_start_fresh (dir?_home _) trivial (by simp)
    hblank (hN c hc) hI (hblankK _) (fun nonce d' G hs hvis ho => ?_)
    (fun nonce x t d' hx hl => ok c nonce x t d' hc hx hl) failed
  have hlocked : Locked cr profile (.password exportKey pw) c.bundle d' :=
    Locked.sameRest (locked_withKeyfile s.disk.home exportKey pw nonce) hs
  refine hmid c d' G hc ?_ ?_ hlocked hvis ho
  · rw [hs.get _, Dir.withKeyfile]
    exact hblank.journal
  · refine NoLegacy.sameRest (fun stem hstem => ?_) hs
    exact hblank.noLegacy stem hstem

/-- A recovery phrase cannot create a store. -/
theorem wp_openAs_blank_recovery {rc : RecoveryKek} (hvalid : validProfileName profile = true)
    (hblank : Blank s.disk.home) (hK : ∀ stg, K (s.setStaging stg).disk)
    (failed : ∀ e t, Q (.error e) t) :
    wp (machine cr) A (openAs cr profile (.recovery rc) upgrade) Q (fun t => K t.disk) s := by
  refine wp_openAs_of_openRecovered rfl hvalid hblank.journal hK ?_ fun _ => failed
  rw [openRecovered, wp_bind]
  refine wp_readKeyfile_none (dir?_home _) hblank.keyfile (hK _) ?_ fun _ => failed
  rw [andThen_bind]
  refine wp_hasStoreFiles (dir?_home _) (hK _) (fun b _ => ?_) fun _ e => failed e _
  exact ⟨hK _, failed _ _⟩

end Powehi.Store
