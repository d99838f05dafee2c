import Powehi.Semantics.CommitPoint
import Powehi.Store.RollForward
import Powehi.Store.Staging

/-!
# Atomicity of a rekey

Renaming the journal into place is the commit point of a rekey. Before it the profile
directory is untouched; from then on every `open` rolls the switch forward, however often it
is cut off.
-/

namespace Powehi.Store

open Codec Semantics Program List Std.ExtTreeMap Crypto Journal

section

variable {cr : Crypto} {A : Choice → Prop} {C : World → Prop} {st fresh : ProfileStore}
  {N : Set Bytes} {s t : World} {d e : Dir} {F G m : Map Bytes} {profile exportKey : Bytes}
  {pw : PasswordKek} {rc : Option RecoveryKek} {bundle : Bundle} {staged old : List Bytes}

/-- Under the two bundles, no two names in `N` have the same tag. -/
def Apart (cr : Crypto) (N : Set Bytes) (b b' : Bundle) : Prop :=
  ∀ x ∈ N, ∀ y ∈ N, tagOf cr b.name x ≠ tagOf cr b'.name y

/-- Bundles that are apart are different, for the latch always has a tag. -/
theorem Apart.ne {b b' : Bundle} (h : Apart cr N b b') (hI : InternalIn N) : b ≠ b' := by
  rintro rfl
  exact h _ hI.2 _ hI.2 rfl

/-! ### What the journal lists -/

/-- The hash of a file as the journal lists it. -/
def Dir.hashHex (cr : Crypto) (d : Dir) (f : FileName) : Bytes :=
  match d.get f with
  | some (.file b _) => toHex (cr.sha256 b).1
  | _ => []

theorem Dir.hashHex_eq {f : FileName} {b : Bytes} (h : d.get f = some (privateFile b)) :
    d.hashHex cr f = toHex (cr.sha256 b).1 := by
  simp [hashHex, h, privateFile]

/-- The lines for the staged records. -/
def listed (cr : Crypto) (e : Dir) (staged : List Bytes) : List (Bytes × Bytes) :=
  staged.map fun tag => (tag, e.hashHex cr (.record tag))

/-- The journal of a staged directory. -/
def stagedJournal (cr : Crypto) (e : Dir) (staged old : List Bytes) : Journal :=
  Journal.listing (listed cr e staged) (e.hashHex cr .manifest) old

theorem map_fst_listed (e : Dir) (staged : List Bytes) :
    (listed cr e staged).map Prod.fst = staged := by
  simp [listed, Function.comp_def]

theorem mem_stagedJournal_new {tag : Bytes} :
    tag ∈ (stagedJournal cr e staged old).new ↔ tag ∈ staged := by
  rw [stagedJournal, mem_listing_new, map_fst_listed]

theorem getElem?_stagedJournal_new (hscan : Scanned e staged) {tag : Bytes} (htag : tag ∈ staged) :
    (stagedJournal cr e staged old).new[tag]? = some (e.hashHex cr (.record tag)) := by
  have hnodup : ((listed cr e staged).map Prod.fst).Nodup := by
    rw [map_fst_listed]
    exact hscan.nodup
  have hmem : (tag, e.hashHex cr (.record tag)) ∈ listed cr e staged := mem_map.mpr ⟨tag, htag, rfl⟩
  exact getElem?_listing_new hnodup hmem

/-! ### The staged store -/

/-- A staged record is a private file. -/
theorem StagedStore.record (hS : StagedStore cr fresh pw rc N s e G) (hscan : Scanned e staged)
    {tag : Bytes} (htag : tag ∈ staged) :
    ∃ b, e.get (.record tag) = some (privateFile b) ∧ b.length ≤ maxBlobLen := by
  obtain ⟨hist, hsome⟩ := (hscan.mem tag).mp htag
  obtain ⟨x, hx⟩ := Option.isSome_iff_exists.mp hsome
  obtain ⟨b, rfl, hlen⟩ := hS.settled.manifest.holds.plain hist x hx
  exact ⟨b, hx, hlen⟩

/-- So is the staged manifest. -/
theorem StagedStore.manifestFile (hS : StagedStore cr fresh pw rc N s e G) :
    ∃ b, e.get .manifest = some (privateFile b) ∧ b.length ≤ maxBlobLen := by
  obtain ⟨b, hget, hlen, -⟩ := hS.settled.manifest.manifest
  have hle : Manifest.maxBlobLen ≤ maxBlobLen := by decide
  exact ⟨b, hget, hlen.trans hle⟩

/-- A staged record belongs to one of the names in use. -/
theorem StagedStore.tag (hS : StagedStore cr fresh pw rc N s e G) (hscan : Scanned e staged)
    {tag : Bytes} (htag : tag ∈ staged) : ∃ n ∈ N, tagOf cr fresh.bundle.name n = tag := by
  obtain ⟨hist, hsome⟩ := (hscan.mem tag).mp htag
  obtain ⟨n, hn, rfl⟩ := hS.settled.manifest.holds.name tag hist hsome
  exact ⟨n, hS.settled.names n hn, rfl⟩

/-- The old store, as `rekey` finds it before it writes the journal. -/
structure OldStore (cr : Crypto) (st : ProfileStore) (N : Set Bytes) (d : Dir) (F : Map Bytes)
    (old : List Bytes) : Prop where
  holds : Holds cr st d F
  bounded : Bounded F
  names : ∀ n ∈ F, n ∈ N
  scanned : Scanned d old

theorem OldStore.tag (h : OldStore cr st N d F old) {stem : Bytes} (hist : isTag stem = true)
    (hsome : (d.get (.record stem)).isSome) : ∃ n ∈ N, tagOf cr st.bundle.name n = stem := by
  obtain ⟨n, hn, rfl⟩ := h.holds.name stem hist hsome
  exact ⟨n, h.names n hn, rfl⟩

/-- The journal can be written and read back. -/
theorem StagedStore.journalInput (hS : StagedStore cr fresh pw rc N s e G)
    (hscan : Scanned e staged) (hold : OldStore cr st N d F old)
    (happ : Apart cr N fresh.bundle st.bundle) :
    JournalInput (listed cr e staged) (e.hashHex cr .manifest) old where
  newTags x hx := by
    obtain ⟨tag, htag, rfl⟩ := mem_map.mp hx
    obtain ⟨b, hget, -⟩ := hS.record hscan htag
    refine ⟨((hscan.mem tag).mp htag).1, ?_⟩
    rw [Dir.hashHex_eq hget]
    exact isHashHex_toHex _
  newNodup := by
    rw [map_fst_listed]
    exact hscan.nodup
  manifest := by
    obtain ⟨b, hget, -⟩ := hS.manifestFile
    rw [Dir.hashHex_eq hget]
    exact isHashHex_toHex _
  oldTags tag htag := ((hold.scanned.mem tag).mp htag).1
  oldNodup := hold.scanned.nodup
  disjoint x hx hin := by
    obtain ⟨tag, htag, rfl⟩ := mem_map.mp hx
    obtain ⟨n, hn, hnew⟩ := hS.tag hscan htag
    obtain ⟨hist, hsome⟩ := (hold.scanned.mem tag).mp hin
    obtain ⟨n', hn', holdtag⟩ := hold.tag hist hsome
    exact happ n hn n' hn' (hnew.trans holdtag.symm)
  newLength := by
    rw [listed, length_map]
    exact hscan.length_le hS.settled.manifest.holds hS.settled.bounded
  oldLength := hold.scanned.length_le hold.holds hold.bounded

/-- What the sealed journal and the staged directory fix. -/
theorem StagedStore.commitment (hS : StagedStore cr fresh pw rc N s e G)
    (hscan : Scanned e staged) (hold : OldStore cr st N d F old)
    (happ : Apart cr N fresh.bundle st.bundle)
    (hN : TagInjOn cr (handle fresh.profile fresh.bundle) N) {nonce : Nonce}
    (hlen : (journalBody (listed cr e staged) (e.hashHex cr .manifest) old).length ≤
      journalBodyMax) :
    Commitment cr fresh.profile (.password exportKey pw) N fresh.bundle (visible G) e
      (stagedJournal cr e staged old) (sealedJournal cr fresh.bundle fresh.profile nonce
        (journalBody (listed cr e staged) (e.hashHex cr .manifest) old)) where
  journal := openJournal_sealed (hS.journalInput hscan hold happ)
  length := length_sealedJournal_le hlen
  locked := by
    obtain ⟨kf, hget, hslots⟩ := hS.keyfile
    exact ⟨kf, hget, hslots.wellFormed, hslots.unlockPassword⟩
  records tag want hwant := by
    have hmem : tag ∈ (stagedJournal cr e staged old).new := by
      rw [mem_iff_isSome_getElem?, hwant]
      rfl
    have htag := mem_stagedJournal_new.mp hmem
    obtain ⟨b, hget, hlen⟩ := hS.record hscan htag
    rw [getElem?_stagedJournal_new hscan htag] at hwant
    cases hwant
    exact ⟨b, hget, hlen, (Dir.hashHex_eq hget).symm⟩
  manifest := by
    obtain ⟨b, hget, hlen⟩ := hS.manifestFile
    exact ⟨b, hget, hlen, (Dir.hashHex_eq hget).symm⟩
  listed stem hist hsome := mem_stagedJournal_new.mpr ((hscan.mem stem).mpr ⟨hist, hsome⟩)
  tags := hN
  openable := by
    have hset := hS.settled
    have hrec := hset.manifest.recovers hset.bounded hset.names hset.pending
    exact ⟨G, Openable.of_keys (.inl hrec) rfl rfl, rfl⟩

/-- Right after the journal is in place, nothing has moved yet. -/
theorem StagedStore.midSwitch {sealed : Bytes} (hS : StagedStore cr fresh pw rc N s e G)
    (hscan : Scanned e staged) (hold : OldStore cr st N s.disk.home F old)
    (hno : NoLegacy s.disk.home)
    (hman : s.disk.home.get .manifest ≠ some .dir) (hkey : s.disk.home.get .keyfile ≠ some .dir) :
    MidSwitch e (stagedJournal cr e staged old) sealed
      (s.disk.setDir .home (s.disk.home.set .journal (some (privateFile sealed)))) := by
  have hstg : ∃ e', s.disk.staging = .dir true e' := by
    have := hS.settled.isPrivate
    rw [hS.loc] at this
    exact this
  have hdir : s.disk.dir? .staging = some e := by
    have := hS.settled.dir
    rwa [hS.loc] at this
  -- every file of the new store is staged
  have hfile : ∀ f ∈ (stagedJournal cr e staged old).files, ∃ b, e.get f = some
    (privateFile b) := by
    intro f hf
    rw [files, mem_append, List.mem_map] at hf
    rcases hf with ⟨tag, htag, rfl⟩ | hf
    · rw [Std.ExtTreeMap.mem_keys, mem_stagedJournal_new] at htag
      obtain ⟨b, hget, -⟩ := hS.record hscan htag
      exact ⟨b, hget⟩
    · simp only [mem_cons, not_mem_nil, or_false] at hf
      rcases hf with rfl | rfl
      · obtain ⟨b, hget, -⟩ := hS.manifestFile
        exact ⟨b, hget⟩
      · obtain ⟨kf, hget, -⟩ := hS.keyfile
        exact ⟨kf.encode, hget⟩
  have hstaged : ∀ f, (s.disk.setDir .home (s.disk.home.set .journal
      (some (privateFile sealed)))).staged f = e.get f := fun f => by
    change (s.disk.dir? .staging).bind (·.get f) = e.get f
    rw [hdir, Option.bind_some]
  have hplain : ∀ stem, isTag stem = true → s.disk.home.get (.record stem) ≠ some .dir := by
    intro stem hist hbad
    obtain ⟨b, hb, -⟩ := hold.holds.plain hist _ hbad
    cases hb
  refine ⟨?_, fun stem hstem => ?_, fun f hf => ?_, fun f hf => ⟨fun x hx => ?_, ?_⟩,
    fun tag htag => ?_, fun stem hist hnew hin => ?_, .inl hstg⟩
  · change (s.disk.home.set .journal (some (privateFile sealed))).get .journal = _
    rw [Dir.get_set_self]
  · exact hno stem hstem
  · obtain ⟨b, hb⟩ := hfile f hf
    rw [Disk.current, hstaged, hb]
    rfl
  · obtain ⟨b, hb⟩ := hfile f hf
    rw [hstaged, hb] at hx
    cases hx
    exact ⟨b, true, rfl⟩
  · rw [files, mem_append, List.mem_map] at hf
    rcases hf with ⟨tag, htag, rfl⟩ | hf
    · rw [Std.ExtTreeMap.mem_keys, mem_stagedJournal_new] at htag
      exact hplain tag ((hscan.mem tag).mp htag).1
    · simp only [mem_cons, not_mem_nil, or_false] at hf
      rcases hf with rfl | rfl
      · exact hman
      · exact hkey
  · rw [stagedJournal, mem_listing_old] at htag
    exact hplain tag ((hold.scanned.mem tag).mp htag).1
  · by_contra hne
    refine hin (mem_listing_old.mpr ((hold.scanned.mem stem).mpr ⟨hist, ?_⟩))
    exact Option.isSome_iff_ne_none.mpr hne

/-! ### Writing the journal -/

section Writing

variable {l : Loc} {f : FileName} {b : Bytes}

theorem wp_fileHashHex {Q : Post Bytes} (hd : s.disk.dir? l = some d)
    (hf : d.get f = some (privateFile b)) (hlen : b.length ≤ maxBlobLen) (hs : C s)
    (hQ : Q (.ok (d.hashHex cr f)) s) (failed : ¬FaultFree A → Q (.error (.io .other)) s) :
    wp (machine cr) A (fileHashHex cr l f) Q C s := by
  rw [fileHashHex, wp_bind]
  refine wp_readPrivateFile hd hf hlen hs ?_ failed
  rw [Dir.hashHex_eq hf] at hQ
  exact ⟨hs, hQ⟩

/-- The lines for the staged records, in the order of the list. -/
theorem wp_journalEntries {Q : Post (List (Bytes × Bytes))} (hA : FaultFree A)
    (hd : s.disk.dir? .staging = some e)
    (hplain : ∀ tag ∈ staged, ∃ b, e.get (.record tag) = some (privateFile b) ∧
      b.length ≤ maxBlobLen) (hs : C s)
    (hQ : Q (.ok (listed cr e staged)) s) :
    wp (machine cr) A (staged.mapM (journalEntry cr)) Q C s := by
  refine wp_mapM (fun done rest t => t = s ∧ ∃ before, staged = before ++ rest ∧
    done = listed cr e before) ?_ ?_ ⟨rfl, [], rfl, rfl⟩
  · rintro _ tag rest _ ⟨rfl, before, hsplit, rfl⟩
    obtain ⟨b, hget, hlen⟩ := hplain tag (by simp [hsplit])
    rw [journalEntry, wp_bind]
    refine wp_fileHashHex hd hget hlen hs ?_ fun hA' => absurd hA hA'
    exact ⟨hs, rfl, before ++ [tag], by simp [hsplit], by simp [listed]⟩
  · rintro _ _ ⟨rfl, before, hsplit, rfl⟩
    rw [append_nil] at hsplit
    subst hsplit
    exact ⟨hs, hQ⟩

/-- Renaming a file into place as the commit point. -/
theorem wpCommit_replace {β : Type} {next : Unit → StoreM β} {Q : Post β} {G D : World → Prop}
    (hA : FaultFree A) (hd : s.disk.dir? l = some d) (hf : d.get f ≠ some .dir) (hs : C s)
    (hG : G (s.setDir l (d.set f (some (privateFile b)))))
    (h : wp (machine cr) A (next ()) Q D (s.setDir l (d.set f (some (privateFile b))))) :
    wpCommit (machine cr) A (call (.replace l f b) >>= next) Q C G D s := by
  refine ⟨hs, fun c hc => .inr ?_⟩
  have hexec : (machine cr).exec (.call (.replace l f b)) c s =
      (.ok (), s.setDir l (d.set f (some (privateFile b)))) := by
    simp [machine, Call.exec, hA c hc, Call.effect, World.withDir, hd, hf]
  rw [hexec]
  exact ⟨hG, h⟩

end Writing

/-! ### The two halves of a rekey -/

section Rekey

variable {recovery : Option RecoveryKek} {Q : Post ProfileStore}

/-- What a rekey that went through leaves behind. -/
structure RekeyedTo (cr : Crypto) (profile : Bytes) (exportKey : Bytes) (pw : PasswordKek)
    (recovery : Option RecoveryKek) (N : Set Bytes) (m : Map Bytes) (bundle : Bundle)
    (st : ProfileStore) (t : World) : Prop where
  opened : OpenedAs cr profile (.password exportKey pw) bundle st
  live : Live cr profile (.password exportKey pw) N st t m
  staging : t.disk.staging = .absent
  keyfile : ∃ kf : KeyFile, t.disk.home.get .keyfile = some (privateFile kf.encode) ∧
    Slots cr profile bundle pw recovery kf

variable (hA : FaultFree A)
include hA

/-- The recovery phrase is checked against the key file; nothing changes. -/
theorem wp_checkRecovery {kf : KeyFile} {Q : Post Unit}
    (hd : s.disk.dir? st.loc = some d) (hkf : d.get .keyfile = some (privateFile kf.encode))
    (hwf : kf.WellFormed) (hs : C s) (ok : Q (.ok ()) s) (refused : ∀ e, Q (.error e) s) :
    wp (machine cr) A (checkRecovery cr st recovery) Q C s := by
  rw [checkRecovery, wp_bind]
  refine wp_currentKeyfile hd hkf hwf hs ?_ fun hA' => absurd hA hA'
  rw [andThen_ok]
  split
  · exact ⟨hs, ok⟩
  · exact ⟨hs, refused _⟩
  · rename_i key _
    rw [wp_bind, wp_ofExcept]
    refine ⟨hs, ?_⟩
    cases kf.unlockRecovery cr st.profile key with
    | ok bundle => exact wp_require hs (fun _ => ok) fun _ => refused _
    | error e => exact refused e

/-- A failed staging is discarded. -/
theorem wp_stageOrDiscard {Q : Post (List Bytes)}
    (hN' : ∀ c, A c → TagInjOn cr (handle st.profile c.bundle) N) (hI : InternalIn N)
    (hst : Ready cr st N s d F) (hloc : st.loc = .home) (hN : TagInjOn cr st N)
    (hpw : PasswordKek.new cr exportKey = .ok pw) (ok : ∀ c t e G staged, A c →
      StagedStore cr (stagingHandle st c.bundle) pw recovery N t e G → visible G = visible F →
      Scanned e staged → HomeKept s t → Q (.ok staged) t)
    (refused : ∀ err t, HomeKept s t → Q (.error err) t) :
    wp (machine cr) A (stageOrDiscard cr st exportKey recovery) Q
      (fun t => t.disk.home = s.disk.home) s := by
  rw [stageOrDiscard, wp_bind, wp_attempt]
  refine wp_stage hA hN' hI hst hloc hN hpw (fun c t e G staged hc hS hvis hscan hk => ?_)
    fun err t hk => ?_
  · exact ⟨hk.disk, ok c t e G staged hc hS hvis hscan hk⟩
  · rw [andThen_ok, wp_bind, wp_attempt]
    refine wp_removeStaging (K := fun k => k.home = s.disk.home) (fun _ => hk.disk) ?_
      fun hA' => absurd hA hA'
    exact ⟨hk.disk, refused err _ ⟨hk.disk, hk.mem⟩⟩

variable (hsight : Sighted A) (hu : Derives cr exportKey pw)
  (hvalid : validProfileName profile = true) (hI : InternalIn N)
include hsight hu hvalid hI

/-- The second half: the journal commits the staged store, and `open` switches to it. -/
theorem wpCommit_writeJournal (hp : st.profile = profile) {c : Choice} (hc : A c)
    (hN : TagInjOn cr (handle profile c.bundle) N) (happ : Apart cr N c.bundle st.bundle)
    (hst : StoredUnder cr profile (.password exportKey pw) N st.bundle s.disk.home m)
    (hman : s.disk.home.get .manifest ≠ some .dir) (hold : OldStore cr st N s.disk.home F old)
    (hS : StagedStore cr (stagingHandle st c.bundle) pw recovery N s e G) (hG : visible G = m)
    (hscan : Scanned e staged) (refused : ∀ err, Q (.error err) s)
    (ok : ∀ st' t, RekeyedTo cr profile exportKey pw recovery N m c.bundle st' t → Q (.ok st') t) :
    wpCommit (machine cr) A
      (writeJournal cr st staged old pw >>= fun _ => openStore cr st.profile exportKey) Q
      (fun t => t.disk.home = s.disk.home) (fun t => (t.disk.home.get .journal).isSome)
      (fun t => ∃ c kf, A c ∧
        Rekeyed cr profile (.password exportKey pw) N c.bundle kf m t.disk) s := by
  subst hG hp
  have hno : ∀ {P : Prop}, ¬FaultFree A → P := fun hA' => absurd hA hA'
  have hd : s.disk.dir? .staging = some e := hS.settled.dir
  obtain ⟨kf, hkf, hslots⟩ := hS.keyfile
  change Slots cr st.profile c.bundle pw recovery kf at hslots
  obtain ⟨bm, hbm, hbmlen⟩ := hS.manifestFile
  simp only [writeJournal, bind_assoc]
  refine wpCommit_bind (wp_journalEntries hA hd (fun tag => hS.record hscan) rfl ?_)
  refine wpCommit_bind (wp_fileHashHex hd hbm hbmlen rfl ?_ fun hA' => hno hA')
  rw [andThen_ok]
  refine wpCommit_bind (wp_require rfl (fun hlen => ?_) fun _ => refused _)
  refine wpCommit_bind
    (wp_readPrivateFile hd hkf (KeyFile.length_encode_le hslots.wellFormed) rfl ?_
    fun hA' => hno hA')
  rw [andThen_ok, KeyFile.decode_encode hslots.wellFormed, ofExcept_ok, pure_bind',
    hslots.unlockPassword, ofExcept_ok, pure_bind']
  simp only [sealJournal, bind_assoc]
  refine wpCommit_bind (wp_fillNonce rfl (fun nonce => ?_) fun hA' => hno hA')
  refine wpCommit_bind (wp_encrypt rfl rfl ?_ (fun hA' => hno hA') fun hA' => hno hA')
  rw [andThen_ok]
  -- the staged store and the journal that is about to be renamed fit together
  obtain ⟨sealed, hsealed⟩ : ∃ sealed, sealedJournal cr c.bundle st.profile nonce
    (journalBody (listed cr e staged) (e.hashHex cr .manifest) old) = sealed := ⟨_, rfl⟩
  have hcommit : Commitment cr st.profile (.password exportKey pw) N c.bundle (visible G) e
      (stagedJournal cr e staged old) sealed := by
    rw [← hsealed]
    exact hS.commitment hscan hold happ hN (by simpa using hlen)
  have hkeydir : s.disk.home.get .keyfile ≠ some .dir := by
    obtain ⟨kf', hget, -⟩ := hst.locked
    simp [hget, privateFile]
  have hre : Rekeyed cr st.profile (.password exportKey pw) N c.bundle kf (visible G)
      (s.disk.setDir .home (s.disk.home.set .journal (some (privateFile sealed)))) :=
    .inr ⟨e, _, sealed, hcommit, hS.midSwitch hscan hold hst.noLegacy hman hkeydir, hkf⟩
  rw [← sealedJournal, hsealed]
  refine wpCommit_replace hA (Disk.dir?_home _) (by simp [hst.journal])
    rfl ?_ ?_
  · change ((s.disk.home.set .journal _).get .journal).isSome = true
    rfl
  rw [wp_bind]
  refine wp_syncDir (Disk.dir?_home _) ⟨c, kf, hc, hre⟩ ?_ fun hA' => hno hA'
  refine wp_mono (fun r t hr => ?_) (fun t ht => ⟨c, kf, hc, ht⟩)
    (wp_openAs_rekeyed hsight hu hvalid hI hre)
  obtain ⟨st', rfl⟩ := hr.2 hA
  obtain ⟨hopened, hlive, habs, hkey⟩ := hr.1 st' rfl
  exact ok st' t ⟨hopened, hlive, habs, kf, hkey, hslots⟩

/-- A rekey leaves the profile directory alone until the journal is in place; from then on the disk
is on its way to the new bundle. -/
theorem wpCommit_rekey (hN : ∀ c, A c → TagInjOn cr (handle profile c.bundle) N)
    (happ : ∀ c, A c → Apart cr N c.bundle st.bundle)
    (hlive : Live cr profile (.password exportKey pw) N st s m)
    (refused : ∀ err t, HomeKept s t → Q (.error err) t)
    (unchanged : st.derivedKeys = false → Q (.ok st) s)
    (ok : ∀ c st' t, A c → RekeyedTo cr profile exportKey pw recovery N m c.bundle st' t →
      Q (.ok st') t) :
    wpCommit (machine cr) A (rekey cr st exportKey recovery) Q
      (fun t => t.disk.home = s.disk.home) (fun t => (t.disk.home.get .journal).isSome)
      (fun t => ∃ c kf, A c ∧
        Rekeyed cr profile (.password exportKey pw) N c.bundle kf m t.disk) s := by
  obtain ⟨hloc, rfl, hstored, F, hset, rfl⟩ := hlive
  have hno : ∀ {P : Prop}, ¬FaultFree A → P := fun hA' => absurd hA hA'
  have hpw : PasswordKek.new cr exportKey = .ok pw := (eq_password_of_derive hu).2
  have hst := hset.toReady
  have hNst : TagInjOn cr st N := hstored.tags.of_keys rfl
  have hkept : ∀ err, Q (.error err) s := fun err => refused err s (.refl s)
  have hd : s.disk.dir? st.loc = some s.disk.home := hset.dir
  refine wpCommit_bind (wp_require rfl (fun _ => ?_) fun _ => hkept _)
  split
  · rename_i hderived
    exact ⟨rfl, unchanged (by simpa using hderived)⟩
  refine wpCommit_bind (wp_require rfl (fun _ => ?_) fun _ => hkept _)
  refine wpCommit_bind (wp_getMem rfl ?_)
  refine wpCommit_bind (wp_require rfl (fun _ => ?_) fun _ => hkept _)
  refine wpCommit_bind (wp_ofExcept.mpr ⟨rfl, ?_⟩)
  cases hder : Bundle.derived cr exportKey with
  | error err => exact hkept err
  | ok derived =>
    refine wpCommit_bind (wp_require rfl (fun _ => ?_) fun _ => hkept _)
    refine wpCommit_bind (wp_checkPrivateDir hset.isPrivate rfl ?_ fun hA' => hno hA')
    obtain ⟨kf, hkf, hwf, -⟩ := hstored.locked
    refine wpCommit_bind (wp_checkRecovery hA hd hkf hwf rfl ?_ hkept)
    refine wpCommit_bind (wp_tags hd rfl (fun old hscan _ => ?_) fun err _ => hkept err)
    refine wpCommit_bind (wp_stageOrDiscard hA hN hI hst hloc hNst hpw
      (fun c t e G staged hc hS hvis hscan' hk => ?_) refused)
    -- the staged store is complete, and the profile directory is still the old one
    rw [andThen_ok, hpw, ofExcept_ok]
    have hold : OldStore cr st N t.disk.home F old := by
      rw [hk.disk]
      exact ⟨hset.manifest.holds, hset.bounded, hset.names, hscan⟩
    have hstored' : StoredUnder cr st.profile (.password exportKey pw) N st.bundle t.disk.home
        (visible F) := by
      rw [hk.disk]
      exact hstored
    have hman : t.disk.home.get .manifest ≠ some .dir := by
      rw [hk.disk]
      exact hset.manifest.manifest.ne_dir
    rw [← hk.disk]
    exact wpCommit_writeJournal hA hsight hu hvalid hI rfl hc (hN c hc)
      (happ c hc) hstored' hman hold
      hS hvis hscan' (fun err => refused err t hk) fun st' t' h => ok c st' t' hc h

end Rekey

/-! ### Crashes -/

/-- An `open` with the export key that ended in a crash. Its calls may also have failed; a crash
loses the memory, so only the disk is passed on. -/
def CutOpen (cr : Crypto) (profile exportKey : Bytes) (k k' : Disk) : Prop :=
  ∃ (w : World) (f : ℕ → Choice) (upgrade : Bool), w.disk = k ∧ (∀ n, (f n).blind = false) ∧
    ∃ t ∈ (openAs cr profile (.password exportKey) upgrade).crashStates (machine cr) f w,
      t.disk = k'

/-- No name in `N` has a record file under `bundle`. -/
def NoRecordUnder (cr : Crypto) (N : Set Bytes) (bundle : Bundle) (d : Dir) : Prop :=
  ∀ n ∈ N, d.get (.record (tagOf cr bundle.name n)) = none

section Crashes

variable {kf : KeyFile} {k k' : Disk} {u : Unlocker}

/-- A live store has no record under a bundle with other tags. -/
theorem OpenUnder.noRecordUnder (h : Live cr profile u N st s m) {other : Bundle}
    (happ : Apart cr N other st.bundle) : NoRecordUnder cr N other s.disk.home := by
  intro n hn
  obtain ⟨F, hset, -⟩ := h.settled
  by_contra hne
  obtain ⟨n', hn', htag⟩ := hset.manifest.holds.name _ (isTag_tagOf cr other.name n)
    (Option.isSome_iff_ne_none.mpr hne)
  exact happ n hn n' (hset.names n' hn') htag.symm

theorem Apart.symm {b b' : Bundle} (h : Apart cr N b b') : Apart cr N b' b :=
  fun x hx y hy heq => h y hy x hx heq.symm

section Reopen

variable (hu : Unlock.derive cr (.password exportKey) = .ok u)
  (hvalid : validProfileName profile = true) (hI : InternalIn N)
include hu hvalid hI

/-- However an `open` was cut off, the switch can still be finished. -/
theorem CutOpen.rekeyed (h : CutOpen cr profile exportKey k k')
    (hk : Rekeyed cr profile u N bundle kf m k) : Rekeyed cr profile u N bundle kf m k' := by
  obtain ⟨w, f, upgrade, rfl, hf, t, ht, rfl⟩ := h
  have hsight : Sighted fun c => c.blind = false := fun _ hc => hc
  exact wp_crashStates (wp_openAs_rekeyed hsight hu hvalid hI hk) hf t ht

/-- However many `open`s were cut off one after the other. -/
theorem Rekeyed.cutOpens (hk : Rekeyed cr profile u N bundle kf m k)
    (hcuts : Relation.ReflTransGen (CutOpen cr profile exportKey) k k') :
    Rekeyed cr profile u N bundle kf m k' := by
  induction hcuts with
  | refl => exact hk
  | tail _ hcut ih => exact hcut.rekeyed hu hvalid hI ih

/-- The first `open` that is not cut off finishes the switch. -/
theorem open_rekeyed {w : World} {g : ℕ → Choice}
    (hg : ∀ n, (g n).fault = none ∧ (g n).blind = false)
    (hk : Rekeyed cr profile u N bundle kf m w.disk) :
    ∃ st' t, (openStore cr profile exportKey).run (machine cr) g w = (.ok st', t) ∧
      Live cr profile u N st' t m ∧ t.disk.staging = .absent ∧ st'.bundle = bundle := by
  have hsight : Sighted fun c => c.fault = none ∧ c.blind = false := fun _ hc => hc.2
  have hfree : FaultFree fun c => c.fault = none ∧ c.blind = false := fun _ hc => hc.1
  obtain ⟨hok, hsome⟩ := wp_run (wp_openAs_rekeyed hsight hu hvalid hI hk) hg
  obtain ⟨st', hst'⟩ := hsome hfree
  obtain ⟨hopened, hlive, habs, -⟩ := hok st' hst'
  exact ⟨st', _, Prod.ext hst' rfl, hlive, habs, hopened.sameBundle⟩

end Reopen

/-- A rekey is atomic. Wherever it was cut off, and however many later `open`s were cut off too,
the next one succeeds with the same export key and exposes the records from before: under the old
bundle if no state up to the crash had the journal in place, under the new one if some state had
it. It leaves no staging directory, no journal and no record of the other bundle. -/
theorem rekey_atomic (hkey : exportKey.length = exportKeyLen)
    (hvalid : validProfileName profile = true) (hI : InternalIn N)
    (hlive : Live cr profile (.password exportKey ⟨cr.hkdf exportKey kekPwInfo⟩) N st s m)
    {recovery : Option RecoveryKek} {f : ℕ → Choice}
    (hf : ∀ n, Reliable cr profile N (f n) ∧ (f n).blind = false ∧
      Apart cr N (f n).bundle st.bundle) {i : ℕ} {t : World}
    (ht : ((rekey cr st exportKey recovery).crashStates (machine cr) f s)[i]? = some t) {w : World}
    (hcuts : Relation.ReflTransGen (CutOpen cr profile exportKey) t.disk w.disk) {g : ℕ → Choice}
    (hg : ∀ n, (g n).fault = none ∧ (g n).blind = false) :
    ∃ st' v, (openStore cr profile exportKey).run (machine cr) g w = (.ok st', v) ∧
      Shows cr (fun c => c.fault = none) N st' v m ∧
      v.disk.staging = .absent ∧ v.disk.home.get .journal = none ∧
      ((∀ x ∈ ((rekey cr st exportKey recovery).crashStates (machine cr) f s).take (i + 1),
          x.disk.home.get .journal = none) →
        st'.bundle = st.bundle ∧ ∀ n, NoRecordUnder cr N (f n).bundle v.disk.home) ∧
      ((∃ x ∈ ((rekey cr st exportKey recovery).crashStates (machine cr) f s).take (i + 1),
          (x.disk.home.get .journal).isSome) →
        st'.bundle ≠ st.bundle ∧ (∃ n, st'.bundle = (f n).bundle) ∧
          NoRecordUnder cr N st.bundle v.disk.home) := by
  have hu : Derives cr exportKey ⟨cr.hkdf exportKey kekPwInfo⟩ := derive_password hkey
  -- only the choices of this run matter
  have hwp : wpCommit (machine cr) (fun c => ∃ n, c = f n) (rekey cr st exportKey recovery)
      (fun _ _ => True) (fun t => t.disk.home = s.disk.home)
      (fun t => (t.disk.home.get .journal).isSome)
      (fun t => ∃ c kf, (∃ n, c = f n) ∧ Rekeyed cr profile
        (.password exportKey ⟨cr.hkdf exportKey kekPwInfo⟩) N c.bundle kf m t.disk) s := by
    refine wpCommit_rekey ?_ ?_ hu hvalid hI ?_ ?_ hlive (fun _ _ _ => trivial)
      (fun _ => trivial) fun _ _ _ _ _ => trivial
    · rintro _ ⟨n, rfl⟩
      exact (hf n).1.1
    · rintro _ ⟨n, rfl⟩
      exact (hf n).2.1
    · rintro _ ⟨n, rfl⟩
      exact (hf n).1.2
    · rintro _ ⟨n, rfl⟩
      exact (hf n).2.2
  rcases wpCommit_crashStates hwp (fun n => ⟨n, rfl⟩) ht with hbefore |
    ⟨hjournal, c, kf, ⟨n, rfl⟩, hD⟩
  · -- the profile directory was not touched
    have hnone : ∀ x ∈ ((rekey cr st exportKey recovery).crashStates (machine cr) f s).take (i + 1),
        x.disk.home.get .journal = none := fun x hx => by
      rw [hbefore x hx]
      exact hlive.stored.journal
    have ht' : t.disk.home = s.disk.home := hbefore t (mem_take_succ ht le_rfl)
    obtain ⟨kf, hkf, -⟩ := hlive.stored.locked
    obtain ⟨st', v, hrun, hlive', habs, hb⟩ := open_rekeyed hu hvalid hI hg
      (.cutOpens hu hvalid hI (.inl ⟨ht' ▸ hlive.stored, ht' ▸ hkf⟩) hcuts)
    refine ⟨st', v, hrun, hlive'.shows fun _ hc => hc, habs, hlive'.stored.journal,
      fun _ => ⟨hb, fun n => ?_⟩, ?_⟩
    · exact hlive'.noRecordUnder (hb ▸ (hf n).2.2)
    · rintro ⟨x, hx, hsome⟩
      rw [hnone x hx] at hsome
      cases hsome
  · obtain ⟨st', v, hrun, hlive', habs, hb⟩ := open_rekeyed hu hvalid hI hg
      (hD.cutOpens hu hvalid hI hcuts)
    refine ⟨st', v, hrun, hlive'.shows fun _ hc => hc, habs, hlive'.stored.journal, fun hnone => ?_,
      fun _ => ⟨?_, ⟨n, hb⟩, ?_⟩⟩
    · obtain ⟨x, hx, hsome⟩ := hjournal
      rw [hnone x hx] at hsome
      cases hsome
    · rw [hb]
      exact (hf n).2.2.ne hI
    · refine hlive'.noRecordUnder ?_
      rw [hb]
      exact (hf n).2.2.symm

end Crashes

end

/-! ### A concrete rekey -/

open Sample

/-- The bundle derived from the sample's export key. -/
def Sample.derivedBundle : Bundle :=
  (Bundle.derived Crypto.toy exportKey).toOption.getD Choice.plain.bundle

/-- An environment that draws the derived bundle. -/
def Sample.derivedChoice : Choice := { Choice.plain with bundle := derivedBundle }

theorem Sample.derivedReliable : Reliable toy profile {n | n ∈ names} derivedChoice := by
  have h : ∀ a ∈ names, ∀ b ∈ names,
      tagOf toy derivedBundle.name a = tagOf toy derivedBundle.name b →
        a = b := by
    decide +kernel
  exact ⟨rfl, h⟩

theorem Sample.apart : Apart toy {n | n ∈ names} Choice.plain.bundle derivedBundle := by
  have h : ∀ a ∈ names, ∀ b ∈ names,
      tagOf toy Choice.plain.bundle.name a ≠ tagOf toy derivedBundle.name b := by
    decide +kernel
  exact h

/-- A store under the derived bundle, with one record. -/
def Sample.derivedStore : World :=
  ((openStore Crypto.toy profile exportKey >>= fun st =>
    put Crypto.toy st (ascii "a") [1]).run (machine Crypto.toy)
    (fun _ => derivedChoice) .blank).2

theorem Sample.run_derivedStore : (openStore toy profile exportKey >>= fun st =>
    put toy st (ascii "a") [1]).run (machine toy)
    (fun _ => derivedChoice) .blank = (.ok (), derivedStore) :=
  Prod.ext (by decide +kernel) (by rw [derivedStore])

/-- The handle that `open` returns for it. -/
def Sample.derivedHandle : ProfileStore :=
  { Store.handle profile derivedBundle with derivedKeys := true }

/-- The store after it was opened again. -/
def Sample.upgraded : World :=
  ((openStore Crypto.toy profile exportKey).run (machine Crypto.toy)
    (fun _ => derivedChoice) derivedStore).2

theorem Sample.run_upgraded : (openStore toy profile exportKey).run
    (machine toy) (fun _ => derivedChoice) derivedStore =
      (.ok derivedHandle, upgraded) :=
  Prod.ext (by decide +kernel) (by rw [upgraded])

/-- The handle on the upgraded store is live. -/
theorem Sample.live : Live toy profile
    (.password exportKey ⟨toy.hkdf exportKey kekPwInfo⟩)
    {n | n ∈ names} derivedHandle upgraded
    ((∅ : Map Bytes).update (ascii "a") (some [1])) := by
  have hu : Derives toy exportKey ⟨toy.hkdf exportKey kekPwInfo⟩ :=
    derive_password length_exportKey
  -- a new store, then one record
  have hput : wp (machine toy) (Reliable toy profile {n | n ∈ names})
      (openStore toy profile exportKey >>= fun st =>
        put toy st (ascii "a") [1])
      (fun r t => r = .ok () → Stored toy profile (.password exportKey
        ⟨toy.hkdf exportKey kekPwInfo⟩) {n | n ∈ names} t.disk
          ((∅ : Map Bytes).update (ascii "a") (some [1]))) (fun _ => True) .blank := by
    rw [wp_bind]
    refine wp_mono (fun r t hr => ?_) (fun _ _ => trivial)
      (wp_openStore hu validProfileName internalIn (.inl ⟨blank_empty, rfl⟩))
    obtain ⟨st, rfl, hlive⟩ := hr
    refine wp_mono (fun r' t' hr' hok => ?_) (fun _ _ => trivial)
      (wp_put_open [1] Reliable.faultFree internalIn (by simp [names]) hlive)
    subst hok
    exact hr'.toStored
  have hrun := run_derivedStore
  have hrun' := run_upgraded
  -- the worlds are arbitrary from here on, so that the computed ones are never unfolded
  generalize derivedStore = w, upgraded = w' at *
  have hstored := wp_outcome hput (fun _ => derivedReliable) hrun rfl
  obtain ⟨st, hst, hlive⟩ := wp_outcome
    (wp_openStore hu validProfileName internalIn hstored)
    (fun _ => derivedReliable) hrun'
  cases hst
  exact hlive

/-- The states of the sample's rekey. -/
def Sample.rekeyStates : List World :=
  (rekey Crypto.toy derivedHandle exportKey none).crashStates (machine Crypto.toy)
    (fun _ => .plain) upgraded

/-- A rekey is cut off when the journal is in place and two of three records have moved; the next
`open` is cut off too; the one after it finds the record under the new bundle. -/
theorem rekey_atomic_sample : ∃ t w : World, rekeyStates[133]? = some t ∧
    t.disk.home.records.size = 5 ∧
    CutOpen Crypto.toy profile exportKey t.disk w.disk ∧
    ∃ st' v, (openStore Crypto.toy profile exportKey).run (machine Crypto.toy)
        (fun _ => .plain) w = (.ok st', v) ∧
      Shows Crypto.toy (fun c => c.fault = none) {n | n ∈ Sample.names} st' v
        ((∅ : Map Bytes).update (ascii "a") (some [1])) ∧
      st'.bundle ≠ derivedBundle := by
  have hsome : rekeyStates[133]?.isSome = true := by decide +kernel
  have hsize : ∀ t ∈ rekeyStates[133]?, t.disk.home.records.size = 5 ∧
      (t.disk.home.get .journal).isSome := by decide +kernel
  obtain ⟨t, ht⟩ := Option.isSome_iff_exists.mp hsome
  obtain ⟨hfive, hjournal⟩ := hsize t ht
  have hcut : CutOpen Crypto.toy profile exportKey t.disk t.disk :=
    ⟨t, fun _ => .plain, false, rfl, fun _ => rfl, t, mem_of_getElem? (crashStates_zero ..), rfl⟩
  obtain ⟨st', v, hrun, hshows, -, -, -, hnew⟩ := rekey_atomic length_exportKey
    Sample.validProfileName internalIn live
    (f := fun _ => .plain) (g := fun _ => .plain)
    (fun _ => ⟨reliable, rfl, apart⟩) ht (.single hcut) fun _ => ⟨rfl, rfl⟩
  exact ⟨t, t, ht, hfive, hcut, st', v, hrun, hshows,
    (hnew ⟨t, mem_take_succ ht le_rfl, hjournal⟩).1⟩

end Powehi.Store
