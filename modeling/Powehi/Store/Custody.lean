import Powehi.Store.KeySlots
import Powehi.Store.RekeyAtomicity
import Powehi.Store.Upgrade

/-!
# Who can open a store

The key file seals one bundle for a password and, once a phrase was set up, for its recovery key.
Opening, upgrading, rewrapping, adding a recovery slot and rekeying each rewrite a part of the key
file or of the records. Between two calls the two slots always open the same bundle, and the records
and the manifest are sealed under it. A bundle that an export key derives is locked under that key,
so rewrapping the password of such a store, which would leave it readable for the old key, has to
be refused; a rewrap that goes through therefore retires every other export key.

The keys in use are the export keys of a set `E` and the recovery keys of a set `R`. That no key
opens what another one sealed is a hypothesis, `IdealKeys`.
-/

namespace Powehi.Store

open Codec Semantics Program Sample List Crypto Store.Bundle

variable {pw : PasswordKek} {u : Unlocker} {t : World}

/-! ### Calls -/

/-- A call on a profile. -/
inductive KeyCall
  | opening (secret : Unlock) (upgrade : Bool)
  | rewrapping (exportKey : Bytes)
  | wrapping (rc : RecoveryKek)
  | rekeying (exportKey : Bytes) (recovery : Option RecoveryKek)
  | putting (name payload : Bytes)
  | removing (name : Bytes)

/-- The call uses keys of `E` and `R` and names of `N`. -/
def KeyCall.Within (N E : Set Bytes) (R : Set RecoveryKek) : KeyCall → Prop
  | .opening (.password exportKey) _ => exportKey ∈ E
  | .opening (.recovery rc) _ => rc ∈ R
  | .rewrapping exportKey => exportKey ∈ E
  | .wrapping rc => rc ∈ R
  | .rekeying exportKey recovery => exportKey ∈ E ∧ ∀ rc ∈ recovery, rc ∈ R
  | .putting name _ | .removing name => name ∈ N

/-- One call and whether it succeeded. A profile is opened after an earlier handle was dropped, and
a rekey consumes the handle. -/
inductive KeyStep (cr : Crypto) (profile : Bytes) (A : Choice → Prop) :
    Session → KeyCall × Bool → Session → Prop
  | opening {s : Session} {f : ℕ → Choice} {secret : Unlock} {upgrade : Bool}
      {r : Except StoreError ProfileStore} {t : World} (hf : ∀ n, A (f n))
      (h : (openAs cr profile secret upgrade).run (machine cr) f s.world = (r, t)) :
      KeyStep cr profile A s (.opening secret upgrade, r.isOk) ⟨t, r.toOption⟩
  | rewrapping {s : Session} {f : ℕ → Choice} {st : ProfileStore} {exportKey : Bytes}
      {r : Except StoreError Unit} {t : World} (hst : s.handle = some st) (hf : ∀ n, A (f n))
      (h : (rewrapPassword cr st exportKey).run (machine cr) f s.world = (r, t)) :
      KeyStep cr profile A s (.rewrapping exportKey, r.isOk) ⟨t, some st⟩
  | wrapping {s : Session} {f : ℕ → Choice} {st : ProfileStore} {rc : RecoveryKek}
      {r : Except StoreError Unit} {t : World} (hst : s.handle = some st) (hf : ∀ n, A (f n))
      (h : (addRecoveryWrap st rc).run (machine cr) f s.world = (r, t)) :
      KeyStep cr profile A s (.wrapping rc, r.isOk) ⟨t, some st⟩
  | rekeying {s : Session} {f : ℕ → Choice} {st : ProfileStore} {exportKey : Bytes}
      {recovery : Option RecoveryKek} {r : Except StoreError ProfileStore} {t : World}
      (hst : s.handle = some st) (hf : ∀ n, A (f n))
      (h : (rekey cr st exportKey recovery).run (machine cr) f s.world = (r, t)) :
      KeyStep cr profile A s (.rekeying exportKey recovery, r.isOk) ⟨t, r.toOption⟩
  | putting {s : Session} {f : ℕ → Choice} {st : ProfileStore} {name payload : Bytes}
      {r : Except StoreError Unit} {t : World} (hst : s.handle = some st) (hf : ∀ n, A (f n))
      (h : (put cr st name payload).run (machine cr) f s.world = (r, t)) :
      KeyStep cr profile A s (.putting name payload, r.isOk) ⟨t, some st⟩
  | removing {s : Session} {f : ℕ → Choice} {st : ProfileStore} {name : Bytes}
      {r : Except StoreError Unit} {t : World} (hst : s.handle = some st) (hf : ∀ n, A (f n))
      (h : (remove cr st name).run (machine cr) f s.world = (r, t)) :
      KeyStep cr profile A s (.removing name, r.isOk) ⟨t, some st⟩

/-! ### Ideal keys -/

/-- No key in use opens a slot that another one sealed, and no two export keys derive the same
bundle. -/
structure IdealKeys (cr : Crypto) (profile : Bytes) (E : Set Bytes) (R : Set RecoveryKek) :
    Prop where
  password : ∀ e ∈ E, ∀ e' ∈ E, e' ≠ e → ∀ pw pw', PasswordKek.new cr e = .ok pw →
    PasswordKek.new cr e' = .ok pw' → ∀ bundle n bundle',
      unsealSlot cr pw'.key profile .password (slot cr pw.key profile .password bundle n) ≠
        .ok bundle'
  recovery : ∀ rc ∈ R, ∀ rc' ∈ R, rc' ≠ rc → ∀ bundle n bundle',
    unsealSlot cr rc'.key profile .recovery (slot cr rc.key profile .recovery bundle n) ≠
      .ok bundle'
  derived : ∀ e ∈ E, ∀ e' ∈ E, ∀ bundle, Bundle.derived cr e = .ok bundle →
    Bundle.derived cr e' = .ok bundle → e' = e

/-- No call fails, and a bundle that is drawn is not one that an export key in use derives. -/
def Drawn (cr : Crypto) (profile : Bytes) (N E : Set Bytes) (c : Choice) : Prop :=
  Reliable cr profile N c ∧ c.blind = false ∧
    ∀ e ∈ E, ∀ bundle, Bundle.derived cr e = .ok bundle → Apart cr N c.bundle bundle

section Drawn

variable {cr : Crypto} {profile : Bytes} {N E : Set Bytes}

theorem Drawn.faultFree : FaultFree (Drawn cr profile N E) := fun _ h => h.1.1

theorem Drawn.sighted : Sighted (Drawn cr profile N E) := fun _ h => h.2.1

theorem Drawn.tags {c : Choice} (h : Drawn cr profile N E c) :
    TagInjOn cr (handle profile c.bundle) N := h.1.2

/-- A bundle that was drawn is nobody's. -/
theorem Drawn.not_derived {c : Choice} (h : Drawn cr profile N E c) (hI : InternalIn N) {e : Bytes}
    (he : e ∈ E) : derived cr e ≠ .ok c.bundle := by
  intro hder
  exact (h.2.2 e he _ hder).ne hI rfl

end Drawn

/-! ### Keyrings -/

/-- The keys of a profile: the bundle, and what it is locked under. -/
structure Keyring where
  bundle : Bundle
  exportKey : Bytes
  kek : PasswordKek
  recovery : Option RecoveryKek
  keyfile : KeyFile

/-- The keyring of a key file that was just written for a handle. -/
def Keyring.new (cr : Crypto) (st : ProfileStore) (exportKey : Bytes) (pw : PasswordKek)
    (nonce : Nonce) : Keyring :=
  ⟨st.bundle, exportKey, pw, none, newKeyfile cr st pw nonce⟩

/-- Some export key in use derives the bundle. -/
def Keyring.IsDerived (cr : Crypto) (E : Set Bytes) (κ : Keyring) : Prop :=
  ∃ e ∈ E, Bundle.derived cr e = .ok κ.bundle

/-- The key file of the keyring has its slots, and only its own export key may derive its bundle. -/
structure Keyring.Sound (cr : Crypto) (profile : Bytes) (E : Set Bytes) (R : Set RecoveryKek)
    (κ : Keyring) : Prop where
  used : κ.exportKey ∈ E
  known : ∀ rc ∈ κ.recovery, rc ∈ R
  kek : PasswordKek.new cr κ.exportKey = .ok κ.kek
  slots : Slots cr profile κ.bundle κ.kek κ.recovery κ.keyfile
  origin : ∀ e ∈ E, Bundle.derived cr e = .ok κ.bundle → e = κ.exportKey

/-- The directory is locked with the keyring: it has the key file, and its records are sealed under
the bundle. -/
structure Keyring.Guards (cr : Crypto) (profile : Bytes) (N E : Set Bytes) (R : Set RecoveryKek)
    (κ : Keyring) (d : Dir) (m : Map Bytes) : Prop extends Keyring.Sound cr profile E R κ where
  keyfile : d.get .keyfile = some (privateFile κ.keyfile.encode)
  stored : StoredUnder cr profile (.password κ.exportKey κ.kek) N κ.bundle d m

/-- The handle works with the keyring's bundle. Unless it came from the phrase, it knows whether an
export key derives the bundle. -/
structure Keyring.Opens (cr : Crypto) (profile : Bytes) (N E : Set Bytes) (κ : Keyring)
    (st : ProfileStore) (s : World) (m : Map Bytes) : Prop where
  live : Live cr profile (.password κ.exportKey κ.kek) N st s m
  sameBundle : st.bundle = κ.bundle
  flags : st.byRecovery = true ∨ (st.derivedKeys = true ↔ κ.IsDerived cr E)

/-- A store from before key files, sealed under the bundle of one export key and foreign to the
others. -/
structure LegacyStore (cr : Crypto) (profile : Bytes) (N E : Set Bytes) (d : Dir) (e : Bytes)
    (derived : Bundle) (m : Map Bytes) : Prop where
  used : e ∈ E
  derives : Bundle.derived cr e = .ok derived
  tags : TagInjOn cr (handle profile derived) N
  room : m.size ≤ maxRecords
  upgrading : Upgrading cr (upgradeHandle profile derived) N d m
  foreign : ∀ e' ∈ E, e' ≠ e → ∀ other, Bundle.derived cr e' = .ok other →
    Foreign cr other.record d ∧ Foreign cr other.manifest d

/-- The invariant: nothing was stored yet, or the store awaits its upgrade, or a keyring guards it
and opens the handle. -/
inductive InCustody (cr : Crypto) (profile : Bytes) (N E : Set Bytes) (R : Set RecoveryKek)
    (s : Session) : Prop
  | blank (home : Blank s.world.disk.home) (closed : s.handle = none)
  | legacy {e : Bytes} {derived : Bundle} {m : Map Bytes}
      (store : LegacyStore cr profile N E s.world.disk.home e derived m) (closed : s.handle = none)
  | keyed {m : Map Bytes} (κ : Keyring) (guards : κ.Guards cr profile N E R s.world.disk.home m)
      (opens : ∀ st, s.handle = some st → ∃ m', κ.Opens cr profile N E st s.world m')

/-- A call that opens the profile, or fails, keeps the invariant. -/
abbrev KeepsCustody (cr : Crypto) (profile : Bytes) (N E : Set Bytes) (R : Set RecoveryKek)
    (p : StoreM ProfileStore) (s : World) : Prop :=
  wp (machine cr) (Drawn cr profile N E) p (fun r t => InCustody cr profile N E R ⟨t, r.toOption⟩)
    (fun _ => True) s

section Custody

variable {cr : Crypto} {profile : Bytes} {N E : Set Bytes} {R : Set RecoveryKek} {κ : Keyring}
  {A : Choice → Prop} {s : World} {d d' : Dir} {st : ProfileStore} {m : Map Bytes}
  {exportKey : Bytes} {rc : RecoveryKek}

/-! ### What a keyring opens -/

theorem Keyring.Opens.inCustody {m' : Map Bytes} (h : κ.Opens cr profile N E st s m')
    (hguards : κ.Guards cr profile N E R s.disk.home m) :
    InCustody cr profile N E R ⟨s, some st⟩ := by
  refine .keyed κ hguards ?_
  rintro _ ⟨⟩
  exact ⟨m', h⟩

namespace Keyring.Sound

variable (h : κ.Sound cr profile E R)
include h

theorem wellFormed : κ.keyfile.WellFormed := h.slots.wellFormed

theorem unlock_own :
    κ.keyfile.unlockPassword cr profile κ.kek = .ok κ.bundle := h.slots.unlockPassword

theorem unlock_ownRecovery (hrc : κ.recovery = some rc) :
    κ.keyfile.unlockRecovery cr profile rc = .ok κ.bundle := by
  have hslots : Slots cr profile κ.bundle κ.kek (some rc) κ.keyfile := hrc ▸ h.slots
  exact hslots.unlockRecovery

/-- Another export key does not open the key file. -/
theorem unlock_other (hideal : IdealKeys cr profile E R) (he : exportKey ∈ E)
    (hne : exportKey ≠ κ.exportKey)
    (hpw : PasswordKek.new cr exportKey = .ok pw) (bundle : Bundle) :
    κ.keyfile.unlockPassword cr profile pw ≠ .ok bundle := by
  obtain ⟨n, hslot⟩ := h.slots.password
  rw [KeyFile.unlockPassword, hslot]
  exact hideal.password _ h.used _ he hne _ _ h.kek hpw _ _ _

/-- Neither does another recovery key. -/
theorem unlock_otherRecovery (hideal : IdealKeys cr profile E R) (hrc : rc ∈ R)
    (hne : κ.recovery ≠ some rc) (bundle : Bundle) :
    κ.keyfile.unlockRecovery cr profile rc ≠ .ok bundle := by
  obtain ⟨n, hslot⟩ := h.slots.recovery
  rw [KeyFile.unlockRecovery, hslot]
  cases hown : κ.recovery with
  | none => simp
  | some own =>
    apply hideal.recovery own (h.known own hown) rc hrc
    rintro rfl
    exact hne hown

/-- A bundle that an export key derives is derived by the keyring's own. -/
theorem isDerived_iff : κ.IsDerived cr E ↔ derived cr κ.exportKey = .ok κ.bundle := by
  constructor
  · rintro ⟨e, he, hder⟩
    rwa [h.origin e he hder] at hder
  · intro hder
    exact ⟨_, h.used, hder⟩

/-- A directory with the key file can be unlocked with the password. -/
theorem locked (hkf : d.get .keyfile = some (privateFile κ.keyfile.encode)) :
    Locked cr profile (.password κ.exportKey κ.kek) κ.bundle d :=
  ⟨κ.keyfile, hkf, h.wellFormed, h.unlock_own⟩

variable (hlive : Live cr profile u N st s m) (hb : st.bundle = κ.bundle)
  (hkf : s.disk.home.get .keyfile = some (privateFile κ.keyfile.encode))
  (hflags : st.byRecovery = true ∨ (st.derivedKeys = true ↔ κ.IsDerived cr E))
include hlive hb hkf hflags

/-- A handle on a directory with the key file is in custody, whoever opened it. -/
theorem opened : κ.Guards cr profile N E R s.disk.home m ∧ κ.Opens cr profile N E st s m := by
  have hlock : Locked cr profile (.password κ.exportKey κ.kek) st.bundle s.disk.home := by
    rw [hb]
    exact h.locked hkf
  have hstored := { hlive.stored with locked := hlock }
  refine ⟨⟨h, hkf, hb ▸ hstored⟩, ⟨?_, hb, hflags⟩⟩
  exact ⟨hlive.loc, hlive.sameProfile, hstored, hlive.settled⟩

/-- So is a profile after a call that returned such a handle. -/
theorem inCustody : InCustody cr profile N E R ⟨s, some st⟩ := by
  obtain ⟨hguards, hopens⟩ := h.opened hlive hb hkf hflags
  exact hopens.inCustody hguards

end Keyring.Sound

theorem Keyring.new_sound (hp : st.profile = profile) (he : exportKey ∈ E)
    (hpw : PasswordKek.new cr exportKey = .ok pw) (nonce : Nonce)
    (horigin : ∀ e ∈ E, derived cr e = .ok st.bundle → e = exportKey) :
    (Keyring.new cr st exportKey pw nonce).Sound cr profile E R :=
  ⟨he, nofun, hpw, hp ▸ slots_newKeyfile pw nonce, horigin⟩

/-- Without a handle, only the directory counts. -/
theorem Keyring.Guards.inCustody (h : κ.Guards cr profile N E R d m) (hd : s.disk.home = d) :
    InCustody cr profile N E R ⟨s, none⟩ := by
  subst hd
  exact .keyed κ h nofun

/-! ### Opening -/

/-- A call that fails and leaves the profile directory alone keeps the invariant. -/
theorem InCustody.failed {handle : Option ProfileStore} {e : StoreError}
    (h : InCustody cr profile N E R ⟨s, handle⟩) (ht : t.disk.home = s.disk.home) :
    InCustody cr profile N E R ⟨t, (Except.error e : Except StoreError ProfileStore).toOption⟩ := by
  cases h with
  | blank home _ => exact .blank (show Blank t.disk.home by rwa [ht]) rfl
  | @legacy e derived m store _ => exact .legacy (ht ▸ store) rfl
  | keyed κ guards _ => exact guards.inCustody ht

variable (hideal : IdealKeys cr profile E R) (hvalid : validProfileName profile = true)
  (hI : InternalIn N)

section Opening

variable {secret : Unlock} {u : Unlocker} {upgrade : Bool} {Q : Post ProfileStore}
include hvalid

/-- A secret that does not open the key file is refused. -/
theorem wp_openAs_locked {kf : KeyFile} (hu : secret.derive cr = .ok u)
    (hj : s.disk.home.get .journal = none)
    (hkf : s.disk.home.get .keyfile = some (privateFile kf.encode)) (hwf : kf.WellFormed)
    (hno : ∀ bundle, u.unlock cr profile kf ≠ .ok bundle) (failed : ∀ e t, Q (.error e) t) :
    wp (machine cr) A (openAs cr profile secret upgrade) Q
      (fun t => t.disk.home = s.disk.home) s := by
  refine wp_openAs_of_openRecovered (K := fun k => k.home = s.disk.home) hu hvalid hj (fun _ => rfl)
    ?_ fun _ => failed
  rw [openRecovered, wp_bind]
  refine wp_readKeyfile_some (Disk.dir?_home _) hkf hwf rfl ?_ fun _ => failed
  rw [andThen_bind]
  refine wp_hasStoreFiles (Disk.dir?_home _) rfl (fun b _ => ?_) fun _ e => failed e _
  rw [andThen_bind]
  -- the slot of the key file is opened before anything else
  cases hopen : u.unlock cr profile kf with
  | ok bundle => exact absurd hopen (hno bundle)
  | error e =>
    cases u <;> rw [Unlocker.unlock] at hopen <;> rw [findKeys, wp_bind, wp_ofExcept, hopen] <;>
      exact ⟨rfl, failed e _⟩

/-- A store without a key file is opened for an upgrade only, with the export key it was made
with. -/
theorem wp_openAs_keyless (hu : secret.derive cr = .ok u) (hj : s.disk.home.get .journal = none)
    (hkf : s.disk.home.get .keyfile = none) (hfile : HasStoreFile s.disk.home)
    (hforeign : upgrade = true → ∀ exportKey pw other, u = .password exportKey pw →
      derived cr exportKey = .ok other →
      Foreign cr other.record s.disk.home ∧ Foreign cr other.manifest s.disk.home)
    (failed : ∀ e t, Q (.error e) t) :
    wp (machine cr) A (openAs cr profile secret upgrade) Q
      (fun t => t.disk.home = s.disk.home) s := by
  refine wp_openAs_of_openRecovered (K := fun k => k.home = s.disk.home) hu hvalid hj (fun _ => rfl)
    ?_ fun _ => failed
  rw [openRecovered, wp_bind]
  refine wp_readKeyfile_none (Disk.dir?_home _) hkf rfl ?_ fun _ => failed
  rw [andThen_bind]
  refine wp_hasStoreFiles (Disk.dir?_home _) rfl (fun b hb => ?_) fun _ e => failed e _
  obtain rfl : b = true := hb.mpr hfile
  rw [andThen_bind]
  cases u with
  | recovery rc => exact ⟨rfl, failed _ _⟩
  | password exportKey pw =>
    cases upgrade with
    | false => exact ⟨rfl, failed _ _⟩
    | true =>
      simp only [findKeys, if_true]
      rw [wp_bind, wp_ofExcept]
      refine ⟨rfl, ?_⟩
      cases hder : derived cr exportKey with
      | error e => exact failed e _
      | ok other =>
        obtain ⟨hrecord, hmanifest⟩ := hforeign rfl exportKey pw other rfl hder
        refine ⟨rfl, ?_⟩
        rw [andThen_bind, build, wp_bind]
        refine wp_modifyMem rfl rfl ?_
        refine ⟨rfl, ?_⟩
        exact wp_start_refused (K := fun k => k.home = s.disk.home) (Disk.dir?_home _) trivial
          hrecord hmanifest hfile rfl fun e t _ => failed e t

include hI

/-- Opening an empty directory with a password makes a keyring with a bundle of its own. -/
theorem wp_openAs_blank_custody (he : exportKey ∈ E) (hu : Derives cr exportKey pw)
    (hblank : Blank s.disk.home) :
    KeepsCustody cr profile N E R (openAs cr profile (.password exportKey) upgrade) s := by
  refine wp_openStore_blank (K := fun _ => True) hu hvalid hblank (fun c hc => hc.tags) hI
    (fun _ => trivial) (fun _ _ _ _ _ _ _ _ _ => trivial) (fun c nonce x t d' hc _ hl => ?_)
    fun hA => absurd Drawn.faultFree hA
  have hhome : t.disk.home = d' := congrArg Disk.home hl.disk
  have hsound : (Keyring.new cr (handle profile c.bundle) exportKey pw nonce).Sound
      cr profile E R :=
    Keyring.new_sound (by rfl) he (eq_password_of_derive hu).2 nonce fun e he hder =>
      absurd hder (hc.not_derived hI he)
  have hlive : Live cr profile (.password exportKey pw) N (handle profile c.bundle) t _ :=
    OpenUnder.of_settled rfl rfl (hblank.storedUnder hc.tags exportKey pw nonce) hl.rest hl.settled
  refine hsound.inCustody hlive rfl ?_ (.inr ?_)
  · rw [hhome]
    exact (hl.rest.get _).trans (Dir.get_set_self ..)
  · -- nobody derives a bundle that was drawn
    refine ⟨nofun, ?_⟩
    rintro ⟨e, he, hder⟩
    exact absurd hder (hc.not_derived hI he)

/-- Opening the store with a secret of the keyring returns a handle in custody. -/
theorem wp_openAs_guarded (hu : secret.derive cr = .ok u)
    (hguards : κ.Guards cr profile N E R s.disk.home m)
    (hlock : Locked cr profile u κ.bundle s.disk.home)
    (hown : ∀ e pw, u = .password e pw → e = κ.exportKey) :
    KeepsCustody cr profile N E R (openAs cr profile secret upgrade) s := by
  have hre : Rekeyed cr profile u N κ.bundle κ.keyfile m s.disk :=
    .inl ⟨{ hguards.stored with locked := hlock }, hguards.keyfile⟩
  refine wp_mono (fun r t hr => ?_) (fun _ _ => trivial)
    (wp_openAs_rekeyed Drawn.sighted hu hvalid hI hre)
  obtain ⟨st, rfl⟩ := hr.2 Drawn.faultFree
  obtain ⟨hopened, hlive, -, hkf⟩ := hr.1 st rfl
  refine hguards.toSound.inCustody hlive hopened.sameBundle hkf ?_
  have hderived := hopened.derived
  cases u with
  | recovery rc => exact .inl hopened.byRecovery
  | password e pw =>
    obtain rfl := hown e pw rfl
    obtain ⟨derived, hder, hflag⟩ := hderived
    right
    rw [hguards.isDerived_iff, hder, hflag, sameKeys, beq_iff_eq, Except.ok.injEq]
    exact eq_comm

include hideal

/-- Upgrading a store with its own export key makes a keyring with the derived bundle. -/
theorem wp_openAs_upgrade_custody {derived : Bundle} (hu : Derives cr exportKey pw)
    (h : LegacyStore cr profile N E s.disk.home exportKey derived m) :
    KeepsCustody cr profile N E R (openAs cr profile (.password exportKey) true) s := by
  refine wp_mono (fun _ _ hr => hr) (fun _ _ => trivial)
    (wp_openAs_upgrading (fun nonce t hkf hlive => ?_) (fun hA => absurd Drawn.faultFree hA)
      hu h.derives hvalid hI h.tags h.room h.upgrading)
  have hsound : (Keyring.new cr (upgradeHandle profile derived) exportKey pw nonce).Sound
      cr profile E R :=
    Keyring.new_sound (by rfl) h.used (eq_password_of_derive hu).2 nonce fun e he hder =>
      hideal.derived _ h.used e he _ h.derives hder
  refine hsound.inCustody hlive rfl hkf (.inr ⟨fun _ => ?_, fun _ => rfl⟩)
  exact ⟨exportKey, h.used, h.derives⟩

/-- Opening keeps the invariant, whatever the secret. -/
theorem wp_openAs_custody {handle : Option ProfileStore}
    (hin : (KeyCall.opening secret upgrade).Within N E R)
    (h : InCustody cr profile N E R ⟨s, handle⟩) :
    KeepsCustody cr profile N E R (openAs cr profile secret upgrade) s := by
  -- a program that only fails and leaves the directory alone
  have hrefused : wp (machine cr) (Drawn cr profile N E) (openAs cr profile secret upgrade)
      (fun r _ => ∃ e, r = .error e) (fun t => t.disk.home = s.disk.home) s →
      KeepsCustody cr profile N E R (openAs cr profile secret upgrade) s := by
    intro hwp
    refine wp_mono (fun r t hr => ?_) (fun _ _ => trivial) (wp_final hwp)
    obtain ⟨ht, e, rfl⟩ := hr
    exact h.failed ht
  cases hu : secret.derive cr with
  | error e =>
    apply hrefused
    rw [openAs, wp_bind, hu]
    exact ⟨rfl, e, rfl⟩
  | ok u =>
    cases h with
    | blank home closed =>
      cases secret with
      | recovery rc =>
        exact hrefused (wp_openAs_blank_recovery (K := fun k => k.home = s.disk.home) hvalid home
          (fun _ => rfl) fun e _ => ⟨e, rfl⟩)
      | password exportKey =>
        obtain ⟨pw, rfl, -⟩ := exists_of_derive hu
        exact wp_openAs_blank_custody hvalid hI hin hu home
    | @legacy e derived m store closed =>
      obtain ⟨F, L, hup, -⟩ := store.upgrading.2
      by_cases hown : upgrade = true ∧ ∃ pw, u = .password e pw
      · obtain ⟨rfl, pw, rfl⟩ := hown
        obtain rfl := (eq_password_of_derive hu).1
        exact wp_openAs_upgrade_custody hideal hvalid hI hu store
      · refine hrefused (wp_openAs_keyless hvalid hu hup.journal hup.keyfile store.upgrading.1
          (fun hupgrade e' pw other heq hother => ?_) fun e _ => ⟨e, rfl⟩)
        subst heq
        obtain rfl := (eq_password_of_derive hu).1
        refine store.foreign e' hin ?_ other hother
        rintro rfl
        exact hown ⟨hupgrade, pw, rfl⟩
    | @keyed m κ guards _ =>
      have hlocked : (∀ bundle, u.unlock cr profile κ.keyfile ≠ .ok bundle) →
          KeepsCustody cr profile N E R (openAs cr profile secret upgrade) s := by
        intro hno
        exact hrefused (wp_openAs_locked hvalid hu guards.stored.journal guards.keyfile
          guards.wellFormed hno fun e _ => ⟨e, rfl⟩)
      cases secret with
      | recovery rc =>
        cases hu
        by_cases hown : κ.recovery = some rc
        · refine wp_openAs_guarded hvalid hI rfl guards
            ⟨κ.keyfile, guards.keyfile, guards.wellFormed, guards.unlock_ownRecovery hown⟩
            (by simp)
        · exact hlocked (guards.unlock_otherRecovery hideal hin hown)
      | password exportKey =>
        obtain ⟨pw, rfl, hpw⟩ := exists_of_derive hu
        by_cases hown : exportKey = κ.exportKey
        · subst hown
          obtain rfl : κ.kek = pw := Except.ok.inj (guards.kek.symm.trans hpw)
          refine wp_openAs_guarded hvalid hI hu guards guards.stored.locked ?_
          rintro _ _ ⟨⟩
          rfl
        · exact hlocked (guards.unlock_other hideal hin hown hpw)

end Opening

/-! ### Calls on a handle -/

section Handle

variable {m' : Map Bytes}

/-- A directory whose key file changes is sealed as before. -/
theorem RecordsUnder.set_keyfile {u u' : Unlocker} {bundle : Bundle} {e : Option Entry}
    (h : StoredUnder cr profile u N bundle d m)
    (hlock : Locked cr profile u' bundle (d.set .keyfile e)) :
    StoredUnder cr profile u' N bundle (d.set .keyfile e) m where
  journal := (Dir.get_set_of_ne _ _).trans h.journal
  legacy stem hstem := by
    exact h.noLegacy stem hstem
  locked := hlock
  tags := h.tags
  openable := by
    obtain ⟨F, ho, hF⟩ := h.openable
    refine ⟨F, ho.congr ?_ fun stem _ => ?_, hF⟩
    · exact Dir.get_set_of_ne _ _
    · exact Dir.get_set_of_ne _ _

/-- Writing the key file of another keyring with the same bundle hands the store over to it. -/
theorem Keyring.Opens.handOver {κ' : Keyring} (x : Seal) (h : κ.Opens cr profile N E st s m)
    (hsound : κ'.Sound cr profile E R) (hb : κ'.bundle = κ.bundle) (ht : t = (s.log x).setDir st.loc
      (s.disk.home.set .keyfile (some (privateFile κ'.keyfile.encode)))) :
    κ'.Guards cr profile N E R t.disk.home m ∧ κ'.Opens cr profile N E st t m := by
  have hhome : t.disk.home =
      s.disk.home.set .keyfile (some (privateFile κ'.keyfile.encode)) := by
    rw [ht, h.live.loc]
    rfl
  have hkf : t.disk.home.get .keyfile = some (privateFile κ'.keyfile.encode) := by
    rw [hhome]
    exact Dir.get_set_self ..
  have hbundle : st.bundle = κ'.bundle := h.sameBundle.trans hb.symm
  have hlock : Locked cr profile (.password κ'.exportKey κ'.kek) st.bundle t.disk.home := by
    rw [hbundle]
    exact hsound.locked hkf
  obtain ⟨F, hset, hF⟩ := h.live.settled
  have hlive : Live cr profile (.password κ'.exportKey κ'.kek) N st t m := by
    refine ⟨h.live.loc, h.live.sameProfile, ?_, F, ?_, hF⟩
    · rw [hhome] at hlock ⊢
      exact h.live.stored.set_keyfile hlock
    · rw [hhome, ht]
      exact hset.set_keyfile x _
  refine hsound.opened hlive hbundle hkf ?_
  unfold IsDerived
  rw [hb]
  exact h.flags

/-- The store was handed over to an export key, under a bundle that nobody derives. -/
def HandedTo (cr : Crypto) (profile : Bytes) (N E : Set Bytes) (R : Set RecoveryKek)
    (exportKey : Bytes) (d : Dir) : Prop :=
  ∃ κ : Keyring, ∃ m, κ.Guards cr profile N E R d m ∧ κ.exportKey = exportKey ∧ ¬κ.IsDerived cr E

/-- A rekey is refused unless the export key derives the handle's bundle. -/
theorem wp_rekey_refused {recovery : Option RecoveryKek} {C : World → Prop} {Q : Post ProfileStore}
    (hs : C s) (hother : st.derivedKeys = true → derived cr exportKey ≠ .ok st.bundle)
    (unchanged : st.byRecovery = false → st.derivedKeys = false → Q (.ok st) s)
    (refused : ∀ e, Q (.error e) s) : wp (machine cr) A (rekey cr st exportKey recovery) Q C s := by
  rw [rekey, wp_bind]
  refine wp_require hs (fun hphrase => ?_) fun _ => refused _
  rw [andThen_ok]
  split
  · rename_i hflag
    exact ⟨hs, unchanged (by simpa using hphrase) (by simpa using hflag)⟩
  · rename_i hflag
    have hflag : st.derivedKeys = true := by simpa using hflag
    rw [wp_bind]
    refine wp_require hs (fun _ => ?_) fun _ => refused _
    rw [andThen_bind]
    refine wp_getMem hs ?_
    rw [andThen_bind]
    refine wp_require hs (fun _ => ?_) fun _ => refused _
    rw [andThen_bind, wp_ofExcept]
    refine ⟨hs, ?_⟩
    cases hder : derived cr exportKey with
    | error e => exact refused e
    | ok derived =>
      rw [andThen_bind]
      refine wp_require hs (fun hsame => ?_) fun _ => refused _
      rw [sameKeys, beq_iff_eq] at hsame
      exact absurd (hsame ▸ hder) (hother hflag)

variable (hguards : κ.Guards cr profile N E R s.disk.home m)
    (hopens : κ.Opens cr profile N E st s m')
include hguards hopens

/-- Rewrapping the password hands the store over. It is refused for a bundle that an export key
derives. -/
theorem wp_rewrapPassword_custody (he : exportKey ∈ E) :
    wp (machine cr) (Drawn cr profile N E) (rewrapPassword cr st exportKey)
      (fun r t => InCustody cr profile N E R ⟨t, some st⟩ ∧
        (r.isOk = true → HandedTo cr profile N E R exportKey t.disk.home)) (fun _ => True) s := by
  obtain ⟨F, hset, -⟩ := hopens.live.settled
  refine wp_rewrapPassword (K := fun _ => True) hset.dir hset.isPrivate hguards.keyfile
    hguards.wellFormed trivial (fun _ _ _ => trivial)
    (fun e => ⟨hopens.inCustody hguards, nofun⟩) (fun pw n x hderived hphrase hpw _ => ?_)
    fun hA => absurd Drawn.faultFree hA
  have hnot : ¬κ.IsDerived cr E := by
    rcases hopens.flags with hby | hflag
    · rw [hphrase] at hby
      cases hby
    · rw [← hflag, hderived]
      exact nofun
  have hslots : Slots cr profile κ.bundle pw κ.recovery
      ⟨slot cr pw.key st.profile .password st.bundle n, κ.keyfile.recovery⟩ := by
    rw [hopens.sameBundle, hopens.live.sameProfile]
    exact hguards.slots.withPassword n
  have hsound : (Keyring.mk κ.bundle exportKey pw κ.recovery _).Sound cr profile E R :=
    { used := he
      known := hguards.known
      kek := hpw
      slots := hslots
      origin := fun e he hder => absurd ⟨e, he, hder⟩ hnot }
  obtain ⟨hguards', hopens'⟩ := hopens.handOver x hsound rfl rfl
  exact ⟨hopens'.inCustody hguards', fun _ => ⟨_, _, hguards', rfl, hnot⟩⟩

/-- Adding a recovery slot keeps the bundle and the password. -/
theorem wp_addRecoveryWrap_custody (hrc : rc ∈ R) :
    wp (machine cr) (Drawn cr profile N E) (addRecoveryWrap st rc)
      (fun _ t => InCustody cr profile N E R ⟨t, some st⟩) (fun _ => True) s := by
  obtain ⟨F, hset, -⟩ := hopens.live.settled
  refine wp_addRecoveryWrap (K := fun _ => True) hset.dir hset.isPrivate hguards.keyfile
    hguards.wellFormed trivial (fun _ => trivial) (fun n x _ => ?_)
    fun hA => absurd Drawn.faultFree hA
  have hslots : Slots cr profile κ.bundle κ.kek (some rc)
      ⟨κ.keyfile.password, some (slot cr rc.key st.profile .recovery st.bundle n)⟩ := by
    rw [hopens.sameBundle, hopens.live.sameProfile]
    exact hguards.slots.withRecovery rc n
  have hsound : (Keyring.mk κ.bundle κ.exportKey κ.kek (some rc) _).Sound cr profile E R :=
    { hguards.toSound with
      known := by
        rintro _ ⟨⟩
        exact hrc
      slots := hslots }
  obtain ⟨hguards', hopens'⟩ := hopens.handOver x hsound rfl rfl
  exact hopens'.inCustody hguards'

include hvalid hI in
/-- A rekey leaves the store as it is, or moves it under a bundle of its own. -/
theorem wp_rekey_custody {recovery : Option RecoveryKek} (he : exportKey ∈ E)
    (hrc : ∀ rc ∈ recovery, rc ∈ R) :
    KeepsCustody cr profile N E R (rekey cr st exportKey recovery) s := by
  have hin : InCustody cr profile N E R ⟨s, some st⟩ := hopens.inCustody hguards
  by_cases hder : derived cr exportKey = .ok κ.bundle
  · -- only the keyring's own export key derives the bundle
    obtain rfl := hguards.origin exportKey he hder
    refine wp_mono (fun _ _ hr => hr) (fun _ _ => trivial) (wp_of_wpCommit (wpCommit_rekey
      Drawn.faultFree Drawn.sighted (derive_of_new hguards.kek) hvalid hI (fun c hc => hc.tags)
      (fun c hc => ?_) hopens.live (fun e t hk => hin.failed hk.disk) (fun _ => hin)
      fun c st' t hc hre => ?_))
    · rw [hopens.sameBundle]
      exact hc.2.2 _ he _ hder
    · obtain ⟨hopened, hlive, -, kf, hkf, hslots⟩ := hre
      have hsound : (Keyring.mk c.bundle κ.exportKey κ.kek recovery kf).Sound cr profile E R :=
        { used := he
          known := hrc
          kek := hguards.kek
          slots := hslots
          origin := fun e he hder => absurd hder (hc.not_derived hI he) }
      refine hsound.inCustody hlive hopened.sameBundle hkf (.inr ?_)
      obtain ⟨derived, hder', hflag⟩ := hopened.derived
      rw [hsound.isDerived_iff, hder', hflag, sameKeys, beq_iff_eq, Except.ok.injEq]
      exact eq_comm
  · refine wp_rekey_refused trivial (fun _ => ?_) (fun _ _ => hin) fun e => hin.failed rfl
    rw [hopens.sameBundle]
    exact hder

/-- A call that changes records and manifest only keeps the keyring. -/
theorem Keyring.Guards.records {F : Map Bytes} (hs : SameRest s.disk.home d')
    (hset : Settled cr st N t d' F) : InCustody cr profile N E R ⟨t, some st⟩ := by
  have hlive := OpenUnder.of_settled hopens.live.loc hopens.live.sameProfile hopens.live.stored
    hs hset
  have hhome : t.disk.home = d' := by
    have hdir := hset.dir
    rw [hopens.live.loc] at hdir
    exact Option.some.inj hdir
  refine hguards.toSound.inCustody hlive hopens.sameBundle ?_ hopens.flags
  rw [hhome, hs.get _]
  exact hguards.keyfile

theorem wp_put_custody {name payload : Bytes} (hI : InternalIn N) (hname : name ∈ N) :
    wp (machine cr) (Drawn cr profile N E) (put cr st name payload)
      (fun _ t => InCustody cr profile N E R ⟨t, some st⟩) (fun _ => True) s := by
  obtain ⟨F, hset, -⟩ := hopens.live.settled
  refine wp_mono (fun r t hr => ?_) (fun _ ht => ht) (wp_put_settled (K := fun _ => True) payload
    Drawn.faultFree hI hname hopens.live.tags hset trivial fun _ _ _ _ _ => trivial)
  obtain ⟨d', G, hset', hs, -⟩ := hr
  exact hguards.records hopens hs hset'

theorem wp_remove_custody {name : Bytes} (hname : name ∈ N) :
    wp (machine cr) (Drawn cr profile N E) (remove cr st name)
      (fun _ t => InCustody cr profile N E R ⟨t, some st⟩) (fun _ => True) s := by
  obtain ⟨F, hset, -⟩ := hopens.live.settled
  refine wp_mono (fun r t hr => ?_) (fun _ ht => ht) (wp_remove_settled (K := fun _ => True)
    Drawn.faultFree hname hopens.live.tags hset trivial fun _ _ _ _ _ => trivial)
  obtain ⟨d', G, hset', hs, -⟩ := hr
  exact hguards.records hopens hs hset'

end Handle

/-! ### Sequences of calls -/

/-- A handle is open only on a guarded store. -/
theorem InCustody.keyring {s : Session} (h : InCustody cr profile N E R s)
    (hst : s.handle = some st) : ∃ κ : Keyring, ∃ m m',
      κ.Guards cr profile N E R s.world.disk.home m ∧ κ.Opens cr profile N E st s.world m' := by
  cases h with
  | blank _ closed | legacy _ closed =>
    rw [closed] at hst
    cases hst
  | @keyed m κ guards opens =>
    obtain ⟨m', hopens⟩ := opens st hst
    exact ⟨κ, m, m', guards, hopens⟩

include hideal hvalid hI in
/-- Every call keeps the invariant, and a rewrap that goes through hands the store over. -/
theorem InCustody.step {s t : Session} {call : KeyCall} {ok : Bool} (hin : call.Within N E R)
    (hstep : KeyStep cr profile (Drawn cr profile N E) s (call, ok) t)
    (h : InCustody cr profile N E R s) :
    InCustody cr profile N E R t ∧ ∀ exportKey, call = .rewrapping exportKey → ok = true →
      HandedTo cr profile N E R exportKey t.world.disk.home := by
  cases hstep with
  | opening hf hrun =>
    exact ⟨wp_outcome (wp_openAs_custody hideal hvalid hI hin h) hf hrun, nofun⟩
  | rewrapping hst hf hrun =>
    obtain ⟨κ, m, m', hguards, hopens⟩ := h.keyring hst
    obtain ⟨hnext, hhanded⟩ := wp_outcome (wp_rewrapPassword_custody hguards hopens hin) hf hrun
    refine ⟨hnext, ?_⟩
    rintro _ ⟨⟩ hok
    exact hhanded hok
  | wrapping hst hf hrun =>
    obtain ⟨κ, m, m', hguards, hopens⟩ := h.keyring hst
    exact ⟨wp_outcome (wp_addRecoveryWrap_custody hguards hopens hin) hf hrun, nofun⟩
  | rekeying hst hf hrun =>
    obtain ⟨κ, m, m', hguards, hopens⟩ := h.keyring hst
    exact ⟨wp_outcome (wp_rekey_custody hvalid hI hguards hopens hin.1 hin.2) hf hrun, nofun⟩
  | putting hst hf hrun =>
    obtain ⟨κ, m, m', hguards, hopens⟩ := h.keyring hst
    exact ⟨wp_outcome (wp_put_custody hguards hopens hI hin) hf hrun, nofun⟩
  | removing hst hf hrun =>
    obtain ⟨κ, m, m', hguards, hopens⟩ := h.keyring hst
    exact ⟨wp_outcome (wp_remove_custody hguards hopens hin) hf hrun, nofun⟩

/-! ### The two slots and the current bundle -/

/-- Every record file and the manifest of the directory are sealed under the bundle. -/
structure SealedUnder (cr : Crypto) (profile : Bytes) (bundle : Bundle) (d : Dir) : Prop where
  record : ∀ tag e, isTag tag = true → d.get (.record tag) = some e → ∃ blob name payload,
    e = privateFile blob ∧ decodeRecord cr profile bundle tag blob = .ok (name, payload)
  manifest : ∀ e, d.get .manifest = some e → ∃ blob M,
    e = privateFile blob ∧ Manifest.openBlob cr bundle.manifest profile blob = .ok M

theorem Holds.sealed {F : Map Bytes} (h : Holds cr st d F) {tag : Bytes} {e : Entry}
    (htag : isTag tag = true) (he : d.get (.record tag) = some e) : ∃ blob name payload,
      e = privateFile blob ∧
        decodeRecord cr st.profile st.bundle tag blob = .ok (name, payload) := by
  obtain ⟨name, hname, rfl⟩ := h.name tag htag (by rw [he]; rfl)
  obtain ⟨payload, hpayload⟩ :=
    Option.isSome_iff_exists.mp (Std.ExtTreeMap.mem_iff_isSome_getElem?.mp hname)
  obtain ⟨blob, hblob, -, hdec⟩ := h.file name payload hpayload
  rw [he] at hblob
  exact ⟨blob, name, payload, Option.some.inj hblob, hdec⟩

theorem RecordsUnder.sealed {bundle : Bundle} (h : StoredUnder cr profile u N bundle d m) :
    SealedUnder cr profile bundle d := by
  obtain ⟨F, hopen, -⟩ := h.openable
  rcases hopen with ⟨F₀, M, hM, -⟩ | ⟨habs, hholds, -⟩
  · refine ⟨fun tag e htag he => hM.holds.sealed htag he, fun e he => ?_⟩
    obtain ⟨blob, hget, -, hM⟩ := hM.manifest
    rw [he] at hget
    exact ⟨blob, M, Option.some.inj hget, hM⟩
  · refine ⟨fun tag e htag he => hholds.sealed htag he, fun e he => ?_⟩
    rw [habs] at he
    cases he

/-- Both slots of the key file open the keyring's bundle, the records and the manifest are sealed
under it, only the keyring's own export key may derive it, and no other export key opens the
store. -/
structure Keyring.Opening (cr : Crypto) (profile : Bytes) (E : Set Bytes) (κ : Keyring) (k : Disk) :
    Prop where
  keyfile : k.home.get .keyfile = some (privateFile κ.keyfile.encode)
  decodes : KeyFile.decode κ.keyfile.encode = .ok κ.keyfile
  kek : PasswordKek.new cr κ.exportKey = .ok κ.kek
  password : κ.keyfile.unlockPassword cr profile κ.kek = .ok κ.bundle
  hasRecovery : κ.keyfile.hasRecovery = κ.recovery.isSome
  recovery : ∀ rc ∈ κ.recovery, κ.keyfile.unlockRecovery cr profile rc = .ok κ.bundle
  records : SealedUnder cr profile κ.bundle k.home
  origin : ∀ e ∈ E, Bundle.derived cr e = .ok κ.bundle → e = κ.exportKey
  lockedOut : ∀ e ∈ E, e ≠ κ.exportKey → ∀ upgrade (f : ℕ → Choice) w, w.disk = k →
    ∃ err, ((openAs cr profile (.password e) upgrade).run (machine cr) f w).1 = .error err

include hideal hvalid

/-- Another export key is refused. -/
theorem Keyring.Guards.lockedOut (h : κ.Guards cr profile N E R s.disk.home m)
    (he : exportKey ∈ E) (hne : exportKey ≠ κ.exportKey) (upgrade : Bool) (f : ℕ → Choice) :
    ∃ err, ((openAs cr profile (.password exportKey) upgrade).run (machine cr) f s).1 =
      .error err := by
  have hwp : wp (machine cr) (fun _ => True) (openAs cr profile (.password exportKey) upgrade)
      (fun r _ => ∃ err, r = .error err) (fun t => t.disk.home = s.disk.home) s := by
    cases hu : Unlock.derive cr (.password exportKey) with
    | error e =>
      rw [openAs, wp_bind, hu]
      exact ⟨rfl, e, rfl⟩
    | ok u =>
      obtain ⟨pw, rfl, hpw⟩ := exists_of_derive hu
      exact wp_openAs_locked hvalid hu h.stored.journal h.keyfile h.wellFormed
        (h.unlock_other hideal he hne hpw) fun e _ => ⟨e, rfl⟩
  exact wp_run hwp fun _ => trivial

theorem Keyring.Guards.opening {k : Disk} (h : κ.Guards cr profile N E R k.home m) :
    κ.Opening cr profile E k where
  keyfile := h.keyfile
  decodes := KeyFile.decode_encode h.wellFormed
  kek := h.kek
  password := h.unlock_own
  hasRecovery := h.slots.hasRecovery
  recovery rc hrc := h.unlock_ownRecovery hrc
  records := h.stored.sealed
  origin := h.origin
  lockedOut e he hne upgrade f w hw := by
    subst hw
    exact h.lockedOut hideal hvalid he hne upgrade f

/-- A key file belongs to a keyring. -/
theorem InCustody.opening {s : Session} (h : InCustody cr profile N E R s)
    (hkf : s.world.disk.home.get .keyfile ≠ none) :
    ∃ κ : Keyring, κ.Opening cr profile E s.world.disk := by
  cases h with
  | blank home _ => exact absurd home.keyfile hkf
  | legacy store _ =>
    obtain ⟨F, L, hup, -⟩ := store.upgrading.2
    exact absurd hup.keyfile hkf
  | keyed κ guards _ => exact ⟨κ, guards.opening hideal hvalid⟩

include hI

end Custody

/-! ### A password that was changed -/

/-- A recovery key. -/
def Sample.phrase : RecoveryKek := ⟨⟨replicate 32 2, rfl⟩⟩

end Powehi.Store
