import Powehi.Store.Opening

/-!
# Rewriting the key file

A key file seals one bundle under a password key and, if there is a recovery slot, under a
recovery key as well (`Slots`). Rewriting one slot leaves the other as it is.
-/

namespace Powehi.Store

open Codec Semantics Program KeyFile

variable {cr : Crypto} {A : Choice → Prop} {K : Disk → Prop} {C : World → Prop}
  {st : ProfileStore} {N : Set Bytes} {s : World} {d : Dir} {F : Map Bytes} {kf : KeyFile}

/-! ### Slots -/

/-- The key file seals `bundle` under `pw`, and under the recovery key if there is one. -/
structure Slots (cr : Crypto) (profile : Bytes) (bundle : Bundle) (pw : PasswordKek)
    (rc : Option RecoveryKek) (kf : KeyFile) : Prop where
  password : ∃ n, kf.password = slot cr pw.key profile .password bundle n
  recovery : ∃ n, kf.recovery = rc.map fun rc => slot cr rc.key profile .recovery bundle n

section Slots

variable {profile : Bytes} {bundle : Bundle} {pw pw' : PasswordKek} {rc : Option RecoveryKek}

theorem Slots.wellFormed (h : Slots cr profile bundle pw rc kf) : kf.WellFormed := by
  obtain ⟨n, hpw⟩ := h.password
  obtain ⟨n', hrc⟩ := h.recovery
  refine ⟨by rw [hpw, length_slot], fun sealed hs => ?_⟩
  rw [hrc, Option.mem_def, Option.map_eq_some_iff] at hs
  obtain ⟨rc, -, rfl⟩ := hs
  exact length_slot ..

theorem Slots.unlockPassword (h : Slots cr profile bundle pw rc kf) :
    kf.unlockPassword cr profile pw = .ok bundle := by
  obtain ⟨n, hpw⟩ := h.password
  rw [KeyFile.unlockPassword, hpw, unsealSlot_slot]

theorem Slots.unlockRecovery {key : RecoveryKek} (h : Slots cr profile bundle pw (some key) kf) :
    kf.unlockRecovery cr profile key = .ok bundle := by
  obtain ⟨n, hrc⟩ := h.recovery
  simp only [KeyFile.unlockRecovery, hrc, Option.map_some, unsealSlot_slot]

theorem Slots.hasRecovery (h : Slots cr profile bundle pw rc kf) : kf.hasRecovery = rc.isSome := by
  obtain ⟨n, hrc⟩ := h.recovery
  rw [KeyFile.hasRecovery, hrc, Option.isSome_map]

/-- The key file of a new store. -/
theorem slots_newKeyfile (pw : PasswordKek) (n : Nonce) :
    Slots cr st.profile st.bundle pw none (newKeyfile cr st pw n) :=
  ⟨⟨n, rfl⟩, ⟨n, rfl⟩⟩

theorem Slots.withRecovery (h : Slots cr profile bundle pw rc kf) (key : RecoveryKek) (n : Nonce) :
    Slots cr profile bundle pw (some key)
      { kf with recovery := some (slot cr key.key profile .recovery bundle n) } :=
  ⟨h.password, n, rfl⟩

theorem Slots.withPassword (h : Slots cr profile bundle pw rc kf) (n : Nonce) :
    Slots cr profile bundle pw' rc
      { kf with password := slot cr pw'.key profile .password bundle n } :=
  ⟨⟨n, rfl⟩, h.recovery⟩

end Slots

/-! ### Directories whose key file changes -/

/-- The records do not depend on the key file. -/
theorem OnDisk.set_keyfile {M : Manifest} (h : OnDisk cr st d F M) (e : Option Entry) :
    OnDisk cr st (d.set .keyfile e) F M :=
  ⟨h.holds.set_of_ne e (by simp), h.manifest.set_of_ne e (by simp), by
    exact h.verified⟩

theorem Settled.set_keyfile (h : Settled cr st N s d F) (x : Seal) (e : Option Entry) :
    Settled cr st N ((s.log x).setDir st.loc (d.set .keyfile e)) (d.set .keyfile e) F where
  dir := Disk.dir?_setDir h.dir _
  isPrivate := h.isPrivate.setDir _
  onDisk := by
    obtain ⟨M, hM⟩ := h.onDisk
    exact ⟨M, hM.set_keyfile e⟩
  mem := by
    refine ⟨?_, h.mem.index⟩
    exact h.mem.entries
  healthy := h.healthy
  bounded := h.bounded
  names := h.names
  manifest := h.manifest.set_keyfile e
  pending := h.pending

/-! ### Operations -/

section Operations

variable {Q : Post Unit}

theorem wp_currentKeyfile {Q : Post KeyFile} (hd : s.disk.dir? st.loc = some d)
    (hkf : d.get .keyfile = some (privateFile kf.encode)) (hwf : kf.WellFormed) (hs : C s)
    (hQ : Q (.ok kf) s) (failed : Faults A Q) : wp (machine cr) A (currentKeyfile st) Q C s := by
  rw [currentKeyfile, wp_bind]
  refine wp_readKeyfile_some hd hkf hwf hs ?_ failed
  exact ⟨hs, hQ⟩

theorem wp_writeKeyfile {l : Loc} (hd : s.disk.dir? l = some d) (hdir : d.get .keyfile ≠ some .dir)
    (hK : K s.disk) (hK' : K (s.disk.setDir l (d.set .keyfile (some (privateFile kf.encode)))))
    (hQ : Q (.ok ()) (s.setDir l (d.set .keyfile (some (privateFile kf.encode)))))
    (failed : Faults A Q) : wp (machine cr) A (writeKeyfile l kf) Q (fun t => K t.disk) s := by
  rw [writeKeyfile, wp_bind]
  refine wp_replace hd hdir hK hK' ?_ failed.here failed.here
  rw [andThen_ok]
  exact wp_syncDir (Disk.dir?_setDir hd _) hK' hQ failed.here

/-- Adding a recovery slot rewrites the key file and nothing else. -/
theorem wp_addRecoveryWrap {rc : RecoveryKek} (hd : s.disk.dir? st.loc = some d)
    (hpriv : s.disk.Private st.loc) (hkf : d.get .keyfile = some (privateFile kf.encode))
    (hwf : kf.WellFormed) (hK : K s.disk)
    (hK' : ∀ n, K (s.disk.setDir st.loc (d.set .keyfile (some (privateFile
      (mk kf.password (some (slot cr rc.key st.profile .recovery st.bundle n))).encode)))))
    (ok : ∀ n x, x.aad = slotAad st.profile .recovery → Q (.ok ()) ((s.log x).setDir st.loc
      (d.set .keyfile (some (privateFile (mk kf.password
        (some (slot cr rc.key st.profile .recovery st.bundle n))).encode)))))
    (failed : Faults A Q) :
    wp (machine cr) A (addRecoveryWrap st rc) Q (fun t => K t.disk) s := by
  rw [addRecoveryWrap, wp_bind]
  refine wp_checkPrivateDir hpriv hK ?_ failed.here
  rw [andThen_bind]
  refine wp_currentKeyfile hd hkf hwf hK ?_ failed
  rw [andThen_bind, withRecovery, wp_bind]
  refine wp_sealSlot hK (fun _ => hK) (fun n => ?_) fun hA e t _ => failed hA e t
  refine ⟨hK, ?_⟩
  exact wp_writeKeyfile hd (by rw [hkf]; exact nofun) hK (hK' n) (ok n _ rfl) failed

/-- Rewrapping the password is refused for keys that may derive from an export key; else it
rewrites the password slot and nothing else. -/
theorem wp_rewrapPassword {exportKey : Bytes} (hd : s.disk.dir? st.loc = some d)
    (hpriv : s.disk.Private st.loc) (hkf : d.get .keyfile = some (privateFile kf.encode))
    (hwf : kf.WellFormed) (hK : K s.disk) (hK' : ∀ pw n, PasswordKek.new cr exportKey = .ok pw →
      K (s.disk.setDir st.loc (d.set .keyfile (some (privateFile
        (mk (slot cr pw.key st.profile .password st.bundle n) kf.recovery).encode)))))
    (refused : ∀ e, Q (.error e) s) (ok : ∀ pw n x, st.derivedKeys = false → st.byRecovery = false →
      PasswordKek.new cr exportKey = .ok pw → x.aad = slotAad st.profile .password →
      Q (.ok ()) ((s.log x).setDir st.loc (d.set .keyfile (some (privateFile
        (mk (slot cr pw.key st.profile .password st.bundle n) kf.recovery).encode)))))
    (failed : Faults A Q) :
    wp (machine cr) A (rewrapPassword cr st exportKey) Q (fun t => K t.disk) s := by
  rw [rewrapPassword, wp_bind]
  refine wp_require hK (fun hflags => ?_) fun _ => refused _
  simp only [Bool.not_eq_true', Bool.or_eq_false_iff] at hflags
  rw [andThen_bind, wp_ofExcept]
  refine ⟨hK, ?_⟩
  cases hpw : PasswordKek.new cr exportKey with
  | error e => exact refused e
  | ok pw =>
    rw [andThen_bind]
    refine wp_checkPrivateDir hpriv hK ?_ failed.here
    rw [andThen_bind]
    refine wp_currentKeyfile hd hkf hwf hK ?_ failed
    rw [andThen_bind, withPassword, wp_bind]
    refine wp_sealSlot hK (fun _ => hK) (fun n => ?_) fun hA e t _ => failed hA e t
    refine ⟨hK, ?_⟩
    exact wp_writeKeyfile hd (by rw [hkf]; exact nofun) hK (hK' pw n hpw)
      (ok pw n _ hflags.1 hflags.2 hpw rfl) failed

end Operations

end Powehi.Store
