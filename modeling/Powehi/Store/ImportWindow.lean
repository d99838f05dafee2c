import Powehi.Store.RekeyAtomicity
import Powehi.Store.Upgrade

/-!
# The import window

Legacy records are imported only while a store has no key file. This module follows a profile from
the first upgrade on: however often the upgrade is cut off, the next one completes it with the same
records and closes the window; from then on legacy files can be placed in the directory at any
time, and the records only change by what is put and removed.
-/

namespace Powehi.Store

open Codec Semantics Program Std.ExtTreeMap

section

variable {cr : Crypto} {A : Choice → Prop} {st : ProfileStore} {N : Set Bytes} {s : World}
  {profile exportKey : Bytes} {pw : PasswordKek} {u : Unlocker} {m : Map Bytes} {name : Bytes}

/-! ### Stores with a key file -/

/-- The same, with any legacy files. -/
abbrev KeyedUnder := RecordsUnder .any

abbrev Held := OpenUnder .any

/-- The store on the disk has its key file. -/
def Kept (cr : Crypto) (profile : Bytes) (u : Unlocker) (N : Set Bytes) (m : Map Bytes) (k : Disk) :
    Prop :=
  ∃ bundle, KeyedUnder cr profile u N bundle k.home m

section

variable {bundle : Bundle} {d d' : Dir}

theorem RecordsUnder.keyed (h : StoredUnder cr profile u N bundle d m) :
    KeyedUnder cr profile u N bundle d m :=
  ⟨h.journal, h.noLegacy.unlinkable, h.locked, h.tags, h.openable⟩

theorem RecordsUnder.unlinkable (h : KeyedUnder cr profile u N bundle d m) : Unlinkable d :=
  h.legacy

theorem OpenUnder.held (h : Live cr profile u N st s m) : Held cr profile u N st s m :=
  ⟨h.loc, h.sameProfile, h.stored.keyed, h.settled⟩

theorem OpenUnder.kept (h : Held cr profile u N st s m) : Kept cr profile u N m s.disk :=
  ⟨st.bundle, h.stored⟩

/-- A directory that changed in its legacy files only. -/
theorem RecordsUnder.placed (h : KeyedUnder cr profile u N bundle d m)
    (hs : ∀ f, f.isLegacy = false → d'.get f = d.get f) (hun : Unlinkable d') :
    KeyedUnder cr profile u N bundle d' m where
  journal := (hs .journal rfl).trans h.journal
  legacy := hun
  locked := by
    obtain ⟨kf, hget, hrest⟩ := h.locked
    exact ⟨kf, (hs .keyfile rfl).trans hget, hrest⟩
  tags := h.tags
  openable := by
    obtain ⟨F, ho, hF⟩ := h.openable
    exact ⟨F, SameFiles.openable ⟨hs _ rfl, fun _ => hs _ rfl⟩ ho, hF⟩

end

/-! ### Calls on a store with a key file -/

theorem OpenedAs.eq {bundle : Bundle} (h : OpenedAs cr profile u bundle st) :
    ∃ derivedKeys byRecovery, st = ⟨.home, profile, bundle, derivedKeys, byRecovery⟩ := by
  obtain ⟨loc, profile', bundle', derivedKeys, byRecovery⟩ := st
  obtain ⟨rfl, rfl, rfl, -, -⟩ := h
  exact ⟨derivedKeys, byRecovery, rfl⟩

/-- Opening a store with a key file deletes the legacy files unread. -/
theorem wp_openAs_kept {unlock : Unlock} {upgrade : Bool} (hu : unlock.derive cr = .ok u)
    (hvalid : validProfileName profile = true) (hI : InternalIn N) (hA : FaultFree A)
    (h : Kept cr profile u N m s.disk) :
    wp (machine cr) A (openAs cr profile unlock upgrade)
      (fun r t => Kept cr profile u N m t.disk ∧ ∀ st, r = .ok st → Held cr profile u N st t m)
      (fun t => Kept cr profile u N m t.disk) s := by
  have hfail : ∀ {P : Prop}, ¬FaultFree A → P := fun hA' => absurd hA hA'
  obtain ⟨bundle, h⟩ := h
  obtain ⟨F, hopen, hF⟩ := h.openable
  have hK : ∀ stg, Kept cr profile u N m (s.setStaging stg).disk := fun _ => ⟨bundle, h⟩
  refine wp_openAs_of_openRecovered hu hvalid h.journal hK ?_ fun hA' => hfail hA'
  refine wp_openRecovered_of_start ⟨unlock, hu⟩ h.locked (hK _)
    (fun st hst => ?_) fun hA' => hfail hA'
  -- the key file is there, so the store is loaded and not upgraded
  obtain ⟨derivedKeys, byRecovery, rfl⟩ := hst.eq
  have hload : Loadable cr ⟨.home, profile, bundle, derivedKeys, byRecovery⟩ N false
      s.disk.home F :=
    Openable.loadable (hopen.of_keys rfl rfl)
  rw [start, wp_bind]
  refine ⟨hK .absent, ?_⟩
  rw [andThen_ok]
  refine wp_load rfl trivial (by simp) hload (h.tags.of_keys rfl) hI (by simp [Flow.upgrading])
    (hK .absent)
    (fun d' G hs hG hrec => ⟨bundle, h.change hs ⟨G, ?_, ?_⟩⟩)
    (fun t d' ht hrest hset _ _ _ hKt => ?_) fun hA' => hfail hA'
  · exact Openable.of_keys (.inl hrec) rfl rfl
  · rcases hG with rfl | rfl
    · exact hF
    · rw [visible_latched, hF]
  · -- only legacy files change from here on
    have hvis : visible (latched F) = m := by rw [visible_latched, hF]
    have hkeyed : KeyedUnder cr profile u N bundle d' m :=
      h.change hrest ⟨_, Openable.of_keys (.inl hset.recovers) rfl rfl, hvis⟩
    have hpruned : ∀ d'', Pruned d' d'' → KeyedUnder cr profile u N bundle d'' m := fun d'' hp =>
      hkeyed.placed hp.rest (hkeyed.unlinkable.pruned hp)
    rw [wp_bind]
    refine wp_migrateLegacy hset.dir hkeyed.unlinkable
      (fun d'' hs => ⟨bundle, hpruned d'' hs.toPruned⟩) (fun names d'' hnames hs _ => ?_)
      (fun names d'' _ _ hs => ⟨⟨bundle, hpruned d'' hs.toPruned⟩, by simp⟩) fun hA' => hfail hA'
    rw [wp_bind]
    have hset' : Settled cr ⟨.home, profile, bundle, derivedKeys, byRecovery⟩ N
        (t.setDir .home d'') d'' (latched F) :=
      hset.of_sameFiles hs.sameFiles rfl trivial rfl
    refine wp_deleteLegacy hset'.dir
      (hkeyed.unlinkable.pruned hs.toPruned) hnames.nodup (fun n hn => ((hnames.mem n).mp hn).1)
      (fun n hn => ?_) (fun d₁ hp => ⟨bundle, hpruned d₁ (hs.toPruned.trans hp)⟩)
      (fun d₁ hp _ => ?_) fun hA' => hfail hA'
    · rw [hs.legacy]
      exact Option.isSome_iff_ne_none.mp ((hnames.mem n).mp hn).2
    · have hkept : Kept cr profile u N m ((t.setDir .home d'').setDir .home d₁).disk :=
        ⟨bundle, hpruned d₁ (hs.toPruned.trans hp)⟩
      rw [andThen_ok]
      refine wp_onlyIf (by simp) fun _ => ⟨hkept, ?_⟩
      rw [andThen_bind]
      refine ⟨hkept, hkept, hkept, ?_⟩
      rintro _ ⟨⟩
      exact ⟨rfl, rfl, hpruned d₁ (hs.toPruned.trans hp), _,
        hset'.of_sameFiles hp.sameFiles rfl trivial rfl, hvis⟩

/-! ### Every run -/

/-- An upgrade that was cut off in the given environment. -/
def UpgradeCut (cr : Crypto) (profile exportKey : Bytes) (A : Choice → Prop) (s : World)
    (f : ℕ → Choice) (t : World) : Prop :=
  (∀ n, A (f n)) ∧ t ∈ (openUpgrading cr profile exportKey).crashStates (machine cr) f s

/-- What can happen to a profile later: a call or a crash, another upgrade, an `open` that fails, or
legacy files placed in the directory. Only the first of these is an event of the specification. -/
inductive LaterStep (cr : Crypto) (profile exportKey : Bytes) (A : Choice → Prop) :
    Session → Option Event → Session → Prop
  | call {a b : Session} {e : Event} (h : Step cr profile exportKey A a e b) :
      LaterStep cr profile exportKey A a (some e) b
  | placed {a : Session} {d' : Dir}
      (rest : ∀ f, (∀ stem, f ≠ .legacy stem) → d'.get f = a.world.disk.home.get f)
      (file : ∀ stem, d'.get (.legacy stem) ≠ some .dir) :
      LaterStep cr profile exportKey A a none ⟨a.world.setDir .home d', a.handle⟩
  | upgraded {a : Session} {f : ℕ → Choice} {st : ProfileStore} {t : World} (hf : ∀ n, A (f n))
      (h : (openUpgrading cr profile exportKey).run (machine cr) f a.world = (.ok st, t)) :
      LaterStep cr profile exportKey A a none ⟨t, some st⟩
  | upgradeCut {a : Session} {f : ℕ → Choice} {t : World}
      (h : UpgradeCut cr profile exportKey A a.world f t) :
      LaterStep cr profile exportKey A a none ⟨t, none⟩
  | refused {a : Session} {f : ℕ → Choice} {upgrade : Bool} {e : StoreError} {t : World}
      (hf : ∀ n, A (f n))
      (h : (openAs cr profile (.password exportKey) upgrade).run (machine cr) f a.world =
        (.error e, t)) :
      LaterStep cr profile exportKey A a none ⟨t, none⟩

/-- Only events of the specification change the records. -/
def laterAllows (m : Map Bytes) (e : Option Event) (m' : Map Bytes) : Prop :=
  match e with
  | none => m' = m
  | some e => e.Allows m m'

/-- The session holds the records of `m`, on disk and in the handle if there is one. -/
structure SessionKeeps (cr : Crypto) (profile : Bytes) (u : Unlocker) (N : Set Bytes)
    (a : Session) (m : Map Bytes) : Prop where
  kept : Kept cr profile u N m a.world.disk
  held : ∀ st, a.handle = some st → Held cr profile u N st a.world m

theorem OpenUnder.sessionKeeps (h : Held cr profile u N st s m) :
    SessionKeeps cr profile u N ⟨s, some st⟩ m := by
  refine ⟨h.kept, ?_⟩
  rintro _ ⟨⟩
  exact h

theorem Kept.sessionKeeps (h : Kept cr profile u N m s.disk) :
    SessionKeeps cr profile u N ⟨s, none⟩ m :=
  ⟨h, nofun⟩

/-- Legacy files placed in the directory change nothing. -/
theorem SessionKeeps.placed {a : Session} {d' : Dir} (h : SessionKeeps cr profile u N a m)
    (hrest : ∀ f, (∀ stem, f ≠ .legacy stem) → d'.get f = a.world.disk.home.get f)
    (hfile : ∀ stem, d'.get (.legacy stem) ≠ some .dir) :
    SessionKeeps cr profile u N ⟨a.world.setDir .home d', a.handle⟩ m := by
  have hsame : ∀ f, f.isLegacy = false → d'.get f = a.world.disk.home.get f := by
    intro f hf
    refine hrest f ?_
    rintro stem rfl
    cases hf
  have hun : Unlinkable a.world.disk.home → Unlinkable d' := by
    intro hun stem hvalid
    rw [hrest (.legacyTmp stem) (by simp)]
    exact ⟨hfile stem, (hun stem hvalid).2⟩
  have hkeyed : ∀ bundle, KeyedUnder cr profile u N bundle a.world.disk.home m →
      KeyedUnder cr profile u N bundle d' m := fun bundle h' =>
    h'.placed hsame (hun h'.unlinkable)
  constructor
  · obtain ⟨bundle, h'⟩ := h.kept
    exact ⟨bundle, hkeyed bundle h'⟩
  · intro st hst
    have hheld := h.held st hst
    obtain ⟨F, hset, hF⟩ := hheld.settled
    refine ⟨hheld.loc, hheld.sameProfile, hkeyed _ hheld.stored, F, ?_, hF⟩
    refine hset.of_sameFiles ⟨hsame _ rfl, fun _ => hsame _ rfl⟩ ?_ ?_ rfl
    · rw [hheld.loc]
      rfl
    · rw [hheld.loc]
      trivial

/-- Every later step is one the specification allows. -/
theorem LaterStep.matched (hu : Derives cr exportKey pw) (hvalid : validProfileName profile = true)
    (hI : InternalIn N) {a b : Session} {e : Option Event} (hname : ∀ ev ∈ e, ∀ n ∈ ev.name?, n ∈ N)
    (hstep : LaterStep cr profile exportKey (Reliable cr profile N) a e b)
    (h : SessionKeeps cr profile (.password exportKey pw) N a m) :
    ∃ m', laterAllows m e m' ∧ SessionKeeps cr profile (.password exportKey pw) N b m' := by
  have hA : FaultFree (Reliable cr profile N) := Reliable.faultFree
  have hopen : ∀ upgrade, wp (machine cr) (Reliable cr profile N)
      (openAs cr profile (.password exportKey) upgrade)
      (fun r t => Kept cr profile (.password exportKey pw) N m t.disk ∧
        ∀ st, r = .ok st → Held cr profile (.password exportKey pw) N st t m)
      (fun t => Kept cr profile (.password exportKey pw) N m t.disk) a.world :=
    fun upgrade => wp_openAs_kept hu hvalid hI hA h.kept
  cases hstep with
  | placed hrest hfile => exact ⟨m, rfl, h.placed hrest hfile⟩
  | upgraded hf hrun =>
    have hheld := (wp_outcome (hopen true) hf hrun).2 _ rfl
    exact ⟨m, rfl, hheld.sessionKeeps⟩
  | upgradeCut hcut => exact ⟨m, rfl, (wp_crashStates (hopen true) hcut.1 _ hcut.2).sessionKeeps⟩
  | refused hf hrun => exact ⟨m, rfl, (wp_outcome (hopen _) hf hrun).1.sessionKeeps⟩
  | call hstep =>
    have hname' := hname _ rfl
    cases hstep with
    | opened hf hrun =>
      have hheld := (wp_outcome (hopen false) hf hrun).2 _ rfl
      exact ⟨m, rfl, hheld.sessionKeeps⟩
    | openCut hf hcut => exact ⟨m, rfl, (wp_crashStates (hopen false) hf _ hcut).sessionKeeps⟩
    | put hst hf hrun =>
      have hheld := wp_outcome (wp_put_open _ hA hI (hname' _ rfl) (h.held _ hst)) hf hrun
      exact ⟨_, rfl, hheld.sessionKeeps⟩
    | putCut hst hf hcut =>
      rcases wp_crashStates (wp_put_open _ hA hI (hname' _ rfl) (h.held _ hst)) hf _ hcut with
        hkept | hkept
      · exact ⟨m, .inl rfl, Kept.sessionKeeps hkept⟩
      · exact ⟨_, .inr rfl, Kept.sessionKeeps hkept⟩
    | removed hst hf hrun =>
      have hheld := wp_outcome (wp_remove_open hA (hname' _ rfl) (h.held _ hst)) hf hrun
      exact ⟨_, rfl, hheld.sessionKeeps⟩
    | removeCut hst hf hcut =>
      rcases wp_crashStates (wp_remove_open hA (hname' _ rfl) (h.held _ hst)) hf _ hcut with
        hkept | hkept
      · exact ⟨m, .inl rfl, Kept.sessionKeeps hkept⟩
      · exact ⟨_, .inr rfl, Kept.sessionKeeps hkept⟩

/-- The upgrade to the user records of `m` is over: the handle exposes them, no legacy file is left,
and none is imported later. -/
structure UpgradedTo (cr : Crypto) (profile exportKey : Bytes) (N : Set Bytes) (m : Map Bytes)
    (st : ProfileStore) (t : World) : Prop where
  shows : Shows cr (Reliable cr profile N) N st t m
  noLegacy : NoLegacy t.disk.home
  closed : ∀ (es : List (Option Event)) (b : Session),
    Steps (LaterStep cr profile exportKey (Reliable cr profile N)) ⟨t, some st⟩ es b →
    (∀ e ∈ es, ∀ ev ∈ e, ∀ n ∈ ev.name?, n ∈ N) → ∃ m', Steps laterAllows m es m' ∧
      ∀ st', b.handle = some st' → Shows cr (Reliable cr profile N) N st' b.world m'

theorem OpenUnder.upgradedTo (hu : Derives cr exportKey pw)
    (hvalid : validProfileName profile = true) (hI : InternalIn N)
    (h : Live cr profile (.password exportKey pw) N st s m) :
    UpgradedTo cr profile exportKey N m st s where
  shows := h.shows Reliable.faultFree
  noLegacy := h.stored.noLegacy
  closed es b hrun hnames := by
    obtain ⟨m', hspec, hkeeps⟩ := Steps.simulation
      (fun a e c m he hstep hm => hstep.matched hu hvalid hI he hm) hrun hnames h.held.sessionKeeps
    exact ⟨m', hspec, fun st' hst => (hkeeps.held st' hst).shows Reliable.faultFree⟩

/-- After any number of upgrades that were cut off, the next one succeeds and ends with the records
that were there in the beginning; so does `open`, once there is a key file. No legacy file is left,
and whatever legacy files are placed in the directory later, only puts and removes change the
records. -/
theorem upgrade_resumable {derived : Bundle} {F L : Map Bytes} {s₀ : World} {fs : List (ℕ → Choice)}
    (hkey : exportKey.length = exportKeyLen) (hderived : Bundle.derived cr exportKey = .ok derived)
    (hvalid : validProfileName profile = true) (hI : InternalIn N)
    (hN : TagInjOn cr (handle profile derived) N)
    (hold : Upgradable cr (upgradeHandle profile derived) N s₀.disk.home F L)
    (hroom : (upgraded F L).size ≤ maxRecords)
    (hcuts : Steps (UpgradeCut cr profile exportKey (Reliable cr profile N)) s₀ fs s) :
    (∀ f : ℕ → Choice, (∀ n, Reliable cr profile N (f n)) → ∃ st t,
      (openUpgrading cr profile exportKey).run (machine cr) f s = (.ok st, t) ∧
      UpgradedTo cr profile exportKey N (upgraded F L) st t) ∧
    (s.disk.home.get .keyfile ≠ none →
      ∀ f : ℕ → Choice, (∀ n, Reliable cr profile N (f n)) → ∃ st t,
        (openStore cr profile exportKey).run (machine cr) f s = (.ok st, t) ∧
        UpgradedTo cr profile exportKey N (upgraded F L) st t) := by
  have hu : Derives cr exportKey ⟨cr.hkdf exportKey kekPwInfo⟩ := derive_password hkey
  -- every cut leaves a store from which the upgrade can go on
  have hs : Resumable cr profile (.password exportKey ⟨cr.hkdf exportKey kekPwInfo⟩) derived N
      (upgraded F L) s.disk := by
    refine hcuts.invariant (I := fun w => Resumable cr profile (.password exportKey
      ⟨cr.hkdf exportKey kekPwInfo⟩) derived N (upgraded F L) w.disk) (fun a f b hcut ha => ?_)
      hold.resumable
    exact wp_crashStates (wp_openUpgrading hu hderived hvalid hI hN hroom ha) hcut.1 _ hcut.2
  constructor
  · intro f hf
    obtain ⟨st, hok, hlive⟩ := wp_run (wp_openUpgrading hu hderived hvalid hI hN hroom hs) hf
    exact ⟨st, _, Prod.ext hok rfl, hlive.upgradedTo hu hvalid hI⟩
  · intro hkeyfile f hf
    rcases hs with ⟨-, F', L', hup, -⟩ | hstored
    · exact absurd hup.keyfile hkeyfile
    · obtain ⟨st, hok, hlive⟩ := wp_run (wp_openStore hu hvalid hI hstored) hf
      exact ⟨st, _, Prod.ext hok rfl, hlive.upgradedTo hu hvalid hI⟩

/-- A directory without legacy files. -/
theorem LegacyHolds.empty {d : Dir} (h : NoLegacy d) : LegacyHolds cr st N d ∅ where
  file name payload hp := by simp at hp
  name stem hvalid hsome := by
    rw [(h stem hvalid).1] at hsome
    cases hsome
  usable n hn := by simp at hn
  few := by simp
  unlinkable := h.unlinkable

/-- A legacy file is added. -/
theorem LegacyHolds.add {d : Dir} {L : Map Bytes} {payload blob : Bytes}
    (h : LegacyHolds cr st N d L)
    (hname : validRecordName name = true ∧ isInternal name = false ∧ name ∈ N)
    (hlen : payload.length ≤ maxRecordLen) (hblob : blob.length ≤ maxBlobLen)
    (hopen : openBlob cr st.bundle.record st.profile legacyMagic name blob = .ok payload)
    (hfew : (L.update name (some payload)).size ≤ maxRecords) :
    LegacyHolds cr st N (d.set (.legacy name) (some (privateFile blob)))
      (L.update name (some payload)) where
  file n p hp := by
    rw [Map.getElem?_update] at hp
    split at hp
    · rename_i heq
      cases hp
      subst heq
      exact ⟨hlen, blob, Dir.get_set_self .., hblob, hopen⟩
    · rename_i hne
      rw [Dir.get_set_of_ne _ _ (by simpa using hne)]
      exact h.file n p hp
  name stem hvalid hsome := by
    rw [mem_iff_isSome_getElem?, Map.getElem?_update]
    split
    · rfl
    · rename_i hne
      rw [Dir.get_set_of_ne _ _ (by simpa using hne)] at hsome
      exact mem_iff_isSome_getElem?.mp (h.name stem hvalid hsome)
  usable n hn := by
    rw [mem_iff_isSome_getElem?, Map.getElem?_update] at hn
    split at hn
    · rename_i heq
      rwa [heq]
    · exact h.usable n (mem_iff_isSome_getElem?.mpr hn)
  few := hfew
  unlinkable stem hvalid := by
    rw [Dir.get_set, Dir.get_set_of_ne _ _]
    refine ⟨?_, (h.unlinkable stem hvalid).2⟩
    split
    · exact nofun
    · exact (h.unlinkable stem hvalid).1

end

/-! ### Concrete upgrades -/

open Sample

/-- A legacy file of the sample's profile. -/
def Sample.legacyBlob (name payload : Bytes) : Bytes :=
  legacyMagic ++ Choice.plain.nonce.1 ++ Crypto.toy.encrypt derivedBundle.record
    Choice.plain.nonce (aad legacyMagic profile name) payload

/-- The handle an upgrade of the sample works with. -/
def Sample.upgradeHandle : ProfileStore := Store.upgradeHandle profile derivedBundle

/-- The two records of the sample's legacy store. -/
def Sample.legacyRecords : Map Bytes :=
  ((∅ : Map Bytes).update (ascii "a") (some [1])).update (ascii "b") (some [2])

/-- A profile with two legacy records and nothing else. -/
def Sample.legacyDir : Dir :=
  (({} : Dir).set (.legacy (ascii "a")) (some (privateFile (legacyBlob (ascii "a") [1])))).set
    (.legacy (ascii "b")) (some (privateFile (legacyBlob (ascii "b") [2])))

theorem Sample.legacyDir_upgradable :
    Upgradable Crypto.toy upgradeHandle {n | n ∈ names} legacyDir ∅
      legacyRecords where
  journal := rfl
  keyfile := rfl
  records := by
    refine .inr ⟨rfl, holds_empty fun stem _ => ?_, .empty, by simp, by simp, .inl rfl⟩
    rw [legacyDir, Dir.get_set_of_ne _ _, Dir.get_set_of_ne _ _]
    simp [Dir.get]
  legacy := by
    refine LegacyHolds.add
      (LegacyHolds.add (.empty blank_empty.noLegacy) ?_ ?_ ?_ ?_ ?_) ?_ ?_ ?_ ?_
      ?_
    all_goals decide +kernel
  found := .inl ⟨.legacy (ascii "a"), by decide +kernel, by decide +kernel⟩

theorem Sample.derived_eq : Bundle.derived Crypto.toy exportKey = .ok derivedBundle := by
  decide +kernel

/-- The machine on which the legacy store lies. -/
def Sample.legacyWorld : World := { World.blank with disk := { home := legacyDir } }

/-- The upgrade of the legacy store is cut off when the first record is imported and its file still
there; the next upgrade ends with both records. -/
theorem upgrade_resumable_sample : ∃ s : World,
    Steps (UpgradeCut Crypto.toy profile exportKey
      (Reliable Crypto.toy profile {n | n ∈ Sample.names}))
      legacyWorld [fun _ => .plain] s ∧
    ∀ f : ℕ → Choice, (∀ n, Reliable Crypto.toy profile {n | n ∈ Sample.names} (f n)) →
      ∃ st t, (openUpgrading Crypto.toy profile exportKey).run (machine Crypto.toy) f s =
        (.ok st, t) ∧
      UpgradedTo Crypto.toy profile exportKey {n | n ∈ Sample.names}
        (upgraded ∅ legacyRecords) st t := by
  have hlen : 74 < ((openUpgrading Crypto.toy profile exportKey).crashStates
      (machine Crypto.toy) (fun _ => .plain) legacyWorld).length := by decide +kernel
  have hcut : ∀ t ∈ (openUpgrading Crypto.toy profile exportKey).crashStates
      (machine Crypto.toy) (fun _ => .plain) legacyWorld,
      Steps (UpgradeCut Crypto.toy profile exportKey
        (Reliable Crypto.toy profile {n | n ∈ Sample.names}))
        legacyWorld [fun _ => .plain] t :=
    fun t ht => .cons ⟨fun _ => reliable, ht⟩ .nil
  have hsteps := hcut _ (List.getElem_mem hlen)
  have hold : Upgradable Crypto.toy (upgradeHandle profile derivedBundle)
      {n | n ∈ Sample.names} legacyWorld.disk.home ∅ legacyRecords :=
    legacyDir_upgradable
  exact ⟨_, hsteps, (upgrade_resumable length_exportKey derived_eq
    Sample.validProfileName internalIn derivedReliable.2 hold (by decide +kernel)
    hsteps).1⟩

/-- A store of the tag format, with its marker and one record. -/
def Sample.markedRecords : Map Bytes :=
  ((∅ : Map Bytes).update marker (some [])).update (ascii "a") (some [1])

/-- Its directory, without a manifest, and with one legacy record. -/
def Sample.markedDir : Dir :=
  ((({} : Dir).set (.record (upgradeHandle.tag Crypto.toy marker))
    (some (privateFile (recordBlob Crypto.toy profile derivedBundle Choice.plain.nonce
      marker [])))).set (.record (upgradeHandle.tag Crypto.toy (ascii "a")))
    (some (privateFile (recordBlob Crypto.toy profile derivedBundle Choice.plain.nonce
      (ascii "a") [1])))).set
    (.legacy (ascii "b")) (some (privateFile (legacyBlob (ascii "b") [2])))

/-- The directory is one that an upgrade accepts. -/
theorem Sample.markedDir_upgradable :
    Upgradable Crypto.toy upgradeHandle {n | n ∈ names} markedDir
      markedRecords ((∅ : Map Bytes).update (ascii "b") (some [2])) where
  journal := rfl
  keyfile := rfl
  records := by
    refine .inr ⟨rfl, ?_, by unfold Bounded; decide +kernel, ?_, by decide +kernel, .inr rfl⟩
    · refine Holds.set_of_ne ?_ _ (by simp)
      refine Holds.update (Holds.update (holds_empty fun stem _ => by simp [Dir.get]) ?_ ?_) ?_ ?_
      · intro n hn
        simp at hn
      · exact isEntry_recordBlob _ (by decide) (by decide)
      · intro n hn htag
        rw [mem_iff_isSome_getElem?, Map.getElem?_update] at hn
        split at hn
        · rename_i heq
          subst heq
          exact derivedReliable.2 marker (by simp [names]) (ascii "a") (by simp [names]) htag
        · simp at hn
      · exact isEntry_recordBlob _ (by decide) (by decide)
    · intro n hn
      rw [mem_iff_isSome_getElem?, markedRecords, Map.getElem?_update, Map.getElem?_update] at hn
      split at hn
      · rename_i heq
        simp [names, heq]
      · split at hn
        · rename_i heq
          simp [names, heq]
        · simp at hn
  legacy := by
    refine LegacyHolds.add (.empty fun stem _ => ?_) ⟨by decide, by decide, by simp [names]⟩
      ?_ ?_ ?_ ?_
    · rw [Dir.get_set_of_ne _ _, Dir.get_set_of_ne _ _,
        Dir.get_set_of_ne _ _, Dir.get_set_of_ne _ _]
      simp [Dir.get]
    all_goals decide +kernel
  found := .inl ⟨.legacy (ascii "b"), by decide +kernel, by decide +kernel⟩

/-- Where the store holds the marker, a legacy record without a newer one is not imported: the
upgrade succeeds and exposes the records of the tag format only. -/
theorem marked_store_drops_legacy :
    Upgradable Crypto.toy Sample.upgradeHandle {n | n ∈ Sample.names} markedDir
      markedRecords ((∅ : Map Bytes).update (ascii "b") (some [2])) ∧
    ascii "b" ∉ markedRecords ∧
    ((openUpgrading Crypto.toy profile exportKey >>= names).run (machine Crypto.toy)
      (fun _ => .plain) { World.blank with disk := { home := markedDir } }).1 =
        .ok [ascii "a"] :=
  ⟨markedDir_upgradable, by decide +kernel, by decide +kernel⟩

end Powehi.Store
