import Powehi.Store.Stored

/-!
# No partial rollback

The manifest binds all records of a store together. Whoever can replace the files of a profile
directory but has no key can at most present the files of one earlier moment: a manifest that
opens was sealed by the store, and the records it accepts are those of the moment it was sealed
at.

The argument is about the log of everything the store ever sealed. `Archive` says what each
sealed manifest accepts; every call of the store keeps it.
-/

namespace Powehi.Store

open Codec Semantics Program List Std.ExtTreeMap Crypto Manifest

section

variable {cr : Crypto} {A : Choice → Prop} {st st' : ProfileStore} {N : Set Bytes} {s t : World}
  {d d' : Dir} {F G : Map Bytes} {M : Manifest} {profile exportKey name : Bytes} {v : Option Bytes}
  {seals new : List Seal} {P P' : Set (Map Bytes)} {u : Unlocker} {b : Bytes}

/-! ### Associated data -/

/-- The kinds of associated data differ in their magic. -/
theorem aad_ne_manifestAad (profile tag : Bytes) : aad magic profile tag ≠ manifestAad profile := by
  intro h
  have hmagic : magic = manifestMagic := append_inj_left h (by decide)
  exact absurd hmagic (by decide)

theorem slotAad_ne_manifestAad (profile : Bytes) (kind : SlotKind) :
    slotAad profile kind ≠ manifestAad profile := by
  intro h
  have hmagic : keyfileMagic = manifestMagic := append_inj_left h (by decide)
  exact absurd hmagic (by decide)

/-! ### The archive -/

/-- The bytes `b` were written as a record file. -/
def Filed (cr : Crypto) (profile : Bytes) (seals : List Seal) (b : Bytes) : Prop :=
  ∃ x ∈ seals, ∃ tag, x.aad = aad magic profile tag ∧ b = x.blob cr

/-- A directory of the store at some moment, with record files that were written. -/
structure Snapshot (cr : Crypto) (st : ProfileStore) (N : Set Bytes) (seals : List Seal) (d : Dir)
    (F : Map Bytes) : Prop where
  holds : Holds cr st d F
  filed : ∀ stem b, isTag stem = true → d.get (.record stem) = some (privateFile b) →
    Filed cr st.profile seals b
  bounded : Bounded F
  names : ∀ n ∈ F, n ∈ N

/-- The manifest accepts the files of some moment only, and the records of that moment are in
`P`. -/
def Attests (cr : Crypto) (st : ProfileStore) (N : Set Bytes) (seals : List Seal)
    (P : Set (Map Bytes)) (M : Manifest) : Prop :=
  ∀ found, M.verify found = .ok () → ∃ d F, Snapshot cr st N seals d F ∧ hashes cr d = found ∧
    visible (completed cr st M F) ∈ P

/-- Every manifest that was sealed accepts the files of some moment only. -/
def Archive (cr : Crypto) (st : ProfileStore) (N : Set Bytes) (seals : List Seal)
    (P : Set (Map Bytes)) : Prop :=
  ∀ x ∈ seals, x.aad = manifestAad st.profile → ∀ M, Manifest.decode x.msg = .ok M →
    Attests cr st N seals P M

theorem Filed.mono (h : Filed cr profile seals b) : Filed cr profile (new ++ seals) b := by
  obtain ⟨x, hx, hrest⟩ := h
  exact ⟨x, mem_append_right _ hx, hrest⟩

theorem Snapshot.mono (h : Snapshot cr st N seals d F) : Snapshot cr st N (new ++ seals) d F :=
  ⟨h.holds, fun stem b hist hget => (h.filed stem b hist hget).mono, h.bounded, h.names⟩

theorem Attests.mono (h : Attests cr st N seals P M) (hP : P ⊆ P') :
    Attests cr st N (new ++ seals) P' M := by
  intro found hver
  obtain ⟨d, F, hsnap, hfound, hmem⟩ := h found hver
  exact ⟨d, F, hsnap.mono, hfound, hP hmem⟩

/-- The log grew. -/
theorem Archive.extend (h : Archive cr st N seals P) (hP : P ⊆ P')
    (hnew : ∀ x ∈ new, x.aad = manifestAad st.profile → ∀ M, decode x.msg = .ok M →
      Attests cr st N (new ++ seals) P' M) : Archive cr st N (new ++ seals) P' := by
  intro x hx haad M hdec
  rcases mem_append.mp hx with hx | hx
  · exact hnew x hx haad M hdec
  · exact (h x hx haad M hdec).mono hP

/-- A handle with the same keys has the same archive. -/
theorem Archive.of_keys (h : Archive cr st N seals P) (hp : st'.profile = st.profile)
    (hb : st'.bundle = st.bundle) : Archive cr st' N seals P := by
  intro x hx haad M hdec found hver
  rw [hp] at haad
  obtain ⟨d, F, hsnap, hfound, hmem⟩ := h x hx haad M hdec found hver
  refine ⟨d, F, ⟨hsnap.holds.of_keys hp hb, ?_, hsnap.bounded, hsnap.names⟩, hfound, ?_⟩
  · rw [hp]
    exact hsnap.filed
  · rwa [completed_of_keys hb]

/-- Only one manifest is in a seal. -/
theorem SealsManifest.decode_eq {x : Seal} {blob : Bytes} {M' : Manifest}
    (h : SealsManifest cr st M x blob) (hwf : M.WellFormed)
    (hdec : decode x.msg = .ok M') : M' = M := by
  obtain ⟨plain, nonce, hplain, rfl, -⟩ := h
  obtain ⟨b, hb, -, hdec'⟩ := decode_encode hwf
  rw [hplain] at hb
  cases hb
  rw [hdec] at hdec'
  cases hdec'
  rfl

/-- A settled manifest attests the moment it lists. -/
theorem Snapshot.attests_settled (h : Snapshot cr st N seals d F) (hM : M.entries = hashes cr d)
    (hp : M.pending = none) (hF : visible F ∈ P) : Attests cr st N seals P M := by
  intro found hver
  refine ⟨d, F, h, hM ▸ entries_eq_of_verify hver hp, ?_⟩
  rwa [completed_of_none hp]

/-- A pending manifest attests the moments before and after the mutation. -/
theorem attests_mutating (hold : Snapshot cr st N seals d F)
    (hnew : Snapshot cr st N seals d' (F.update name v)) (hM : M.entries = hashes cr d)
    (hsame : SameBut (st.tag cr name) d d')
    (hentry : IsEntry cr st name v (d'.get (.record (st.tag cr name))))
    (hfree : TagFree cr st F name) (hF : visible F ∈ P) (hF' : visible (F.update name v) ∈ P) :
    Attests cr st N seals P
      (M.mutating (st.tag cr name) (entryHash cr (d'.get (.record (st.tag cr name))))) := by
  have hhash : hashes cr d' = M.entries.update (st.tag cr name)
      (entryHash cr (d'.get (.record (st.tag cr name)))) := by
    apply Std.ExtTreeMap.ext_getElem?
    intro tag
    rw [hM, Map.getElem?_update, getElem?_hashes]
    by_cases htag : tag = st.tag cr name
    · rw [if_pos htag, htag, if_pos (isTag_tagOf ..)]
    · rw [if_neg htag, getElem?_hashes, hsame _ (by simp) (by simpa using htag)]
  intro found hver
  rcases eq_of_verify_mutating hver with rfl | rfl
  · refine ⟨d', _, hnew, hhash, ?_⟩
    rwa [completed_mutating_update hfree hentry.isSome_entryHash]
  · refine ⟨d, F, hold, hM.symm, ?_⟩
    rcases completed_mutating hfree hentry.isSome_entryHash with h | h
    · rwa [h]
    · rwa [h]

/-! ### The store at work -/

/-- A handle on a settled store whose log is an archive of the moments in `P`. -/
structure Chronicled (cr : Crypto) (profile : Bytes) (u : Unlocker) (N : Set Bytes)
    (st : ProfileStore) (s : World) (F : Map Bytes) (P : Set (Map Bytes)) : Prop where
  loc : st.loc = .home
  sameProfile : st.profile = profile
  stored : StoredUnder cr profile u N st.bundle s.disk.home (visible F)
  settled : Settled cr st N s s.disk.home F
  latch : manifestLatch ∈ F
  filed : ∀ stem b, isTag stem = true → s.disk.home.get (.record stem) = some (privateFile b) →
    Filed cr st.profile s.seals b
  archive : Archive cr st N s.seals P
  now : visible F ∈ P

theorem Chronicled.snapshot (h : Chronicled cr profile u N st s F P) :
    Snapshot cr st N s.seals s.disk.home F :=
  ⟨h.settled.manifest.holds, h.filed, h.settled.bounded, h.settled.names⟩

/-- One mutation keeps the archive. -/
theorem Archive.written (harch : Archive cr st N s.seals P)
    (hsnap : Snapshot cr st N s.seals d F)
    (hentries : (s.mem st.loc).manifest.entries = hashes cr d) (hN : TagInjOn cr st N)
    (hname : name ∈ N) (hw : Written cr st N name v s d F t d')
    (hP : P ⊆ P') (hF : visible F ∈ P') (hF' : visible (F.update name v) ∈ P') :
    Snapshot cr st N t.seals d' (F.update name v) ∧ Archive cr st N t.seals P' := by
  obtain ⟨x₁, x₂, b₁, b₂, rec, hseals, hx₁, hx₂, hrec, hblob⟩ := hw.seals
  have hfree : TagFree cr st F name := fun n hn htag => hN n (hsnap.names n hn) name hname htag
  have hlog : t.seals = (x₂ :: x₁ :: rec) ++ s.seals := hseals
  rw [hlog]
  have hsnap' : Snapshot cr st N ((x₂ :: x₁ :: rec) ++ s.seals) d' (F.update name v) := by
    refine ⟨hw.manifest.holds, fun stem b hist hget => ?_, hw.ready.bounded, hw.ready.names⟩
    by_cases hstem : stem = st.tag cr name
    · -- the record that was just written
      subst hstem
      obtain ⟨y, hy, rfl⟩ := hblob b hget
      exact ⟨y, by simp [hy], _, hrec y hy, rfl⟩
    · rw [hw.same _ (by simp) (by simpa using hstem)] at hget
      exact (hsnap.filed stem b hist hget).mono
  refine ⟨hsnap', harch.extend hP fun x hx haad M hdec => ?_⟩
  simp only [mem_cons] at hx
  rcases hx with rfl | rfl | hx
  · have hentries' := hw.ready.mem.entries
    have hwf := hw.manifest.holds.wellFormed hw.ready.bounded hentries'
      (by rw [hw.settled]; exact nofun)
    rw [hx₂.decode_eq hwf hdec]
    exact hsnap'.attests_settled hentries' hw.settled hF'
  · have hwf := hsnap.holds.wellFormed_mutating hentries hw.ready.bounded hfree hw.entry
    rw [hx₁.decode_eq hwf hdec]
    exact attests_mutating hsnap.mono hsnap' hentries hw.same hw.entry hfree hF hF'
  · rw [hrec x hx] at haad
    exact absurd haad (aad_ne_manifestAad _ _)

/-- One mutation of an open store. -/
theorem Chronicled.written (h : Chronicled cr profile u N st s F P) (hname : name ∈ N)
    (hlatch : name ≠ manifestLatch) (hw : Written cr st N name v s s.disk.home F t d') (hP : P ⊆ P')
    (hF' : visible (F.update name v) ∈ P') : Chronicled cr profile u N st t
    (F.update name v) P' := by
  obtain ⟨hsnap, harch⟩ :=
    h.archive.written h.snapshot h.settled.mem.entries (h.stored.tags.of_keys rfl) hname hw
    hP (hP h.now) hF'
  have hd' : t.disk.home = d' := by
    rw [hw.disk, h.loc]
    rfl
  have hlive := OpenUnder.of_settled h.loc h.sameProfile h.stored hw.same.sameRest hw.toSettled
  subst hd'
  refine ⟨h.loc, h.sameProfile, hlive.stored, hw.toSettled, ?_, hsnap.filed, harch, hF'⟩
  rw [mem_iff_isSome_getElem?, Map.getElem?_update, if_neg hlatch.symm, ← mem_iff_isSome_getElem?]
  exact h.latch

theorem Chronicled.mono (h : Chronicled cr profile u N st s F P) (hP : P ⊆ P') :
    Chronicled cr profile u N st s F P' := by
  have harch : Archive cr st N ([] ++ s.seals) P' := h.archive.extend hP nofun
  exact { h with archive := harch, now := hP h.now }

section Calls

variable {payload : Bytes}

theorem wp_put_chronicled (hA : FaultFree A) (hI : InternalIn N) (hname : name ∈ N)
    (h : Chronicled cr profile u N st s F P) :
    wp (machine cr) A (put cr st name payload)
      (fun r t => ∀ P', P ⊆ P' → (r.isOk = true → (visible F).update name (some payload) ∈ P') →
        ∃ G, Chronicled cr profile u N st t G P' ∧
          visible G = if r.isOk then (visible F).update name (some payload) else visible F)
      (fun _ => True) s := by
  refine wp_put (K := fun _ => True) h.settled.toReady (h.stored.tags.of_keys rfl) hI hname trivial
    (fun _ _ _ _ _ => trivial) (fun e P' hP _ => ⟨F, h.mono hP, rfl⟩)
    (fun t d' G hint hw P' hP hnext => ?_) fun hA' => absurd hA hA'
  have hnext := hnext rfl
  have hlatch : name ≠ manifestLatch := by
    rintro rfl
    cases hint
  have hvis : visible (F.update name (some payload)) = (visible F).update name (some payload) := by
    rw [visible_update, hint]
    rfl
  rcases hw with hw | hw
  · obtain - | ⟨hw, hnil⟩ := hw
    cases hnil
    exact ⟨_, h.written hname hlatch hw hP (hvis ▸ hnext), hvis⟩
  · -- the marker was written first
    cases hw with
    | @cons _ _ _ _ t₁ _ _ d₁ _ _ _ hw₁ hrest =>
      obtain - | ⟨hw₂, hnil⟩ := hrest
      cases hnil
      have hmark : visible (F.update marker (some [])) = visible F := by
        rw [visible_update, isInternal_marker, if_pos rfl]
      have hvis₂ : visible ((F.update marker (some [])).update name (some payload)) =
          (visible F).update name (some payload) := by
        rw [visible_update, hint, hmark]
        rfl
      have h₁ := h.written hI.1 (by decide) hw₁ subset_rfl (hmark.symm ▸ h.now)
      have hd₁ : t₁.disk.home = d₁ := by
        rw [hw₁.disk, h.loc]
        rfl
      subst hd₁
      exact ⟨_, h₁.written hname hlatch hw₂ hP (by rwa [hvis₂]), hvis₂⟩

theorem wp_remove_chronicled (hA : FaultFree A) (hname : name ∈ N)
    (h : Chronicled cr profile u N st s F P) :
    wp (machine cr) A (remove cr st name)
      (fun r t => ∀ P', P ⊆ P' → (r.isOk = true → (visible F).update name none ∈ P') →
        ∃ G, Chronicled cr profile u N st t G P' ∧
          visible G = if r.isOk then (visible F).update name none else visible F)
      (fun _ => True) s := by
  refine wp_remove (K := fun _ => True) h.settled.toReady (h.stored.tags.of_keys rfl) hname trivial
    (fun _ _ _ _ _ => trivial) (fun e P' hP _ => ⟨F, h.mono hP, rfl⟩)
    (fun hint hout P' hP _ => ?_) (fun t d' hint hw P' hP hnext => ?_) fun hA' => absurd hA hA'
  · -- deleting what is not there changes nothing
    refine ⟨F, h.mono hP, ?_⟩
    change visible F = (visible F).update name none
    have hnone : (visible F)[name]? = none := by
      rw [getElem?_visible, hint, getElem?_eq_none hout]
      rfl
    rw [← hnone, Map.update_getElem?]
  · have hlatch : name ≠ manifestLatch := by
      rintro rfl
      cases hint
    have hvis : visible (F.update name none) = (visible F).update name none := by
      rw [visible_update, hint]
      rfl
    exact ⟨_, h.written hname hlatch hw hP (hvis ▸ hnext rfl), hvis⟩

/-- Opening a settled store again only reads it. -/
theorem wp_openAs_chronicled {unlock : Unlock} {upgrade : Bool} (hA : FaultFree A)
    (hu : unlock.derive cr = .ok u) (hvalid : validProfileName profile = true) (hI : InternalIn N)
    (h : Chronicled cr profile u N st s F P) :
    wp (machine cr) A (openAs cr profile unlock upgrade)
      (fun r t => ∀ st', r = .ok st' → Chronicled cr profile u N st' t F P ∧
        st'.bundle = st.bundle)
      (fun _ => True) s := by
  have hM := h.settled.manifest
  have hopen : Openable cr (handle profile st.bundle) N s.disk.home F := by
    refine Openable.of_keys (.inl ?_) h.sameProfile.symm rfl
    exact hM.recovers h.settled.bounded h.settled.names h.settled.pending
  refine wp_openAs_keyed (K := fun _ => True) hu hvalid h.stored.journal h.stored.noLegacy
    h.stored.locked hopen h.stored.tags hI (fun _ _ _ _ _ _ => trivial) (fun st' t d' hst hl => ?_)
    fun hA' => absurd hA hA'
  rintro _ ⟨⟩
  have hp : st'.profile = st.profile := hst.sameProfile.trans h.sameProfile.symm
  have hb : st'.bundle = st.bundle := hst.sameBundle
  obtain ⟨rfl, hseals⟩ := hl.quiet _ (hM.of_keys hp hb) h.settled.pending h.latch
  have hset := hl.settled
  rw [latched, if_pos h.latch] at hset
  have hd : t.disk.home = s.disk.home := by
    rw [hl.disk, hst.loc]
    rfl
  refine ⟨⟨hst.loc, hst.sameProfile, ?_, ?_, h.latch, ?_, ?_, h.now⟩, hb⟩
  · rw [hd, hb]
    exact h.stored
  · rwa [hd]
  · rw [hd, hseals, hp]
    exact h.filed
  · rw [hseals]
    exact h.archive.of_keys hp hb

/-- A new store begins with the empty moment. -/
theorem wp_openStore_chronicled {pw : PasswordKek} (hu : Derives cr exportKey pw)
    (hvalid : validProfileName profile = true) (hI : InternalIn N) (hblank : Blank s.disk.home)
    (hlog : s.seals = []) :
    wp (machine cr) (Reliable cr profile N) (openStore cr profile exportKey)
      (fun r t => ∀ st, r = .ok st → ∃ F, visible F = ∅ ∧
        Chronicled cr profile (.password exportKey pw) N st t F {∅})
      (fun _ => True) s := by
  refine wp_openStore_blank (K := fun _ => True) hu hvalid hblank (fun c hc => hc.2) hI
    (fun _ => trivial) (fun _ _ _ _ _ _ _ _ _ => trivial) (fun c nonce x t d' hc hx hl => ?_)
    fun hA' => absurd Reliable.faultFree hA'
  rintro _ ⟨⟩
  have hstored := hblank.storedUnder hc.2 exportKey pw nonce
  have hd : t.disk.home = d' := by
    rw [hl.disk]
    rfl
  -- the directory with its key file has no records yet
  have habs : (s.disk.home.withKeyfile cr (handle profile c.bundle) pw nonce).get
    .manifest = none :=
    (Dir.get_set_of_ne _ _).trans hblank.manifest
  have hnone : ∀ stem, isTag stem = true →
      (s.disk.home.withKeyfile cr (handle profile c.bundle) pw nonce).get (.record stem) = none :=
    fun stem hist => (Dir.get_set_of_ne _ _).trans (hblank.records stem hist)
  generalize s.disk.home.withKeyfile cr (handle profile c.bundle) pw nonce = d
    at hl hstored habs hnone
  obtain ⟨x', blob, s₁, hseal, hseals, hman, hw⟩ := hl.adopted habs
  have hempty : visible (∅ : Map Bytes) ∈ ({∅} : Set (Map Bytes)) := visible_empty
  have hsnap : ∀ d₀ seals, (∀ stem, isTag stem = true → d₀.get (.record stem) = none) →
      Snapshot cr (handle profile c.bundle) N seals d₀ ∅ := by
    intro d₀ seals h₀
    refine ⟨holds_empty h₀, fun stem b hist hget => ?_, .empty, by simp⟩
    rw [h₀ stem hist] at hget
    cases hget
  -- the key slot and the first manifest
  have harch : Archive cr (handle profile c.bundle) N s₁.seals {∅} := by
    have hlog₁ : s₁.seals = [x', x] ++ [] := by
      rw [hseals]
      change [x', x] ++ s.seals = _
      rw [hlog]
    rw [hlog₁]
    refine Archive.extend nofun subset_rfl fun y hy haad M hdec => ?_
    simp only [mem_cons, not_mem_nil, or_false] at hy
    rcases hy with rfl | rfl
    · have hwf : WellFormed { generation := 1, entries := hashes cr d } :=
        (hsnap d [] hnone).holds.wellFormed .empty rfl nofun
      rw [hseal.decode_eq hwf hdec]
      exact (hsnap d _ hnone).attests_settled rfl rfl hempty
    · rw [hx] at haad
      exact absurd haad (slotAad_ne_manifestAad _ _)
  have hlatched : visible ((∅ : Map Bytes).update manifestLatch (some [])) = ∅ := by
    rw [visible_update, isInternal_manifestLatch, if_pos rfl, visible_empty]
  obtain ⟨hsnap', harch'⟩ := harch.written
    (hsnap (d.withManifest blob) s₁.seals fun stem hist =>
      (Dir.get_set_of_ne _ _).trans (hnone stem hist))
    (by rw [hman, hashes_set_manifest]) hc.2 hI.2 hw subset_rfl hempty hlatched
  have hlive := OpenUnder.of_settled rfl rfl hstored hl.rest hw.toSettled
  subst hd
  refine ⟨_, hlatched, rfl, rfl, hlive.stored, hw.toSettled, ?_, hsnap'.filed, harch', hlatched⟩
  rfl

end Calls

/-! ### The files an adversary presents -/

/-- The AEAD accepts a ciphertext under a key only if it was made with it. -/
def Authentic (cr : Crypto) (seals : List Seal) (key : Key) (nonce : Nonce) (aad ct : Bytes) :
    Prop :=
  ∀ msg, cr.decrypt key nonce aad ct = some msg →
    ⟨key, nonce, aad, msg⟩ ∈ seals ∧ cr.encrypt key nonce aad msg = ct

/-- No record file and no manifest of the directory is a forgery under the store's keys. -/
structure Unforged (cr : Crypto) (profile : Bytes) (bundle : Bundle) (seals : List Seal) (d : Dir) :
    Prop where
  record : ∀ stem b nonce ct, isTag stem = true → d.get (.record stem) = some (privateFile b) →
    b = magic ++ nonce.1 ++ ct →
    Authentic cr seals bundle.record nonce (aad magic profile stem) ct
  manifest : ∀ b nonce ct, d.get .manifest = some (privateFile b) →
    b = manifestMagic ++ nonce.1 ++ ct →
    Authentic cr seals bundle.manifest nonce (manifestAad profile) ct

/-- Among the record files that were written, the hash has no collisions. -/
def CollisionFree (cr : Crypto) (profile : Bytes) (seals : List Seal) : Prop :=
  ∀ b b', Filed cr profile seals b → Filed cr profile seals b' → cr.sha256 b = cr.sha256 b' → b = b'

/-- A record file that decodes was written by the store. -/
theorem Unforged.filed (h : Unforged cr st.profile st.bundle seals d) (hd : Holds cr st d F)
    {stem : Bytes} (hist : isTag stem = true) (hget : d.get (.record stem) = some (privateFile b)) :
    Filed cr st.profile seals b := by
  obtain ⟨n, hn, rfl⟩ := hd.name stem hist (by rw [hget]; rfl)
  obtain ⟨blob, hblob, -, hdec⟩ := hd.file n _ (getElem?_eq_some_getElem hn)
  rw [hget] at hblob
  cases hblob
  obtain ⟨plain, hopen, -⟩ := decodeRecord_ok hdec
  obtain ⟨nonce, ct, rfl, hplain⟩ := openBlob_ok hopen
  obtain ⟨hmem, hct⟩ := h.record _ _ nonce ct hist hget rfl plain hplain
  refine ⟨_, hmem, _, rfl, ?_⟩
  rw [Seal.blob, hct]

/-- Directories with the same hashes hold the same records. -/
theorem Holds.eq_of_hashes (h : Holds cr st d F) (h' : Holds cr st d' G)
    (hfiled : ∀ stem b, isTag stem = true → d.get (.record stem) = some (privateFile b) →
      Filed cr st.profile seals b)
    (hfiled' : ∀ stem b, isTag stem = true → d'.get (.record stem) = some (privateFile b) →
      Filed cr st.profile seals b)
    (hsha : CollisionFree cr st.profile seals) (heq : hashes cr d = hashes cr d') : F = G := by
  refine h.unique (h'.congr fun stem hist => ?_)
  have hstem := congrArg (fun m : Map Digest => m[stem]?) heq
  simp only [getElem?_hashes, if_pos hist] at hstem
  cases hget : d.get (.record stem) with
  | none =>
    cases hget' : d'.get (.record stem) with
    | none => rfl
    | some x =>
      obtain ⟨b, rfl, -⟩ := h'.plain hist x hget'
      rw [hget, hget'] at hstem
      cases hstem
  | some x =>
    obtain ⟨b, rfl, -⟩ := h.plain hist x hget
    cases hget' : d'.get (.record stem) with
    | none =>
      rw [hget, hget'] at hstem
      cases hstem
    | some x' =>
      obtain ⟨b', rfl, -⟩ := h'.plain hist x' hget'
      rw [hget, hget'] at hstem
      have hb : b = b' := hsha b b' (hfiled stem b hist hget) (hfiled' stem b' hist hget')
        (Option.some.inj hstem)
      rw [hb]

/-- A directory that the store accepts is one of its moments. -/
theorem Archive.accepts (harch : Archive cr st N seals P)
    (hun : Unforged cr st.profile st.bundle seals d) (hsha : CollisionFree cr st.profile seals)
    (hM : OnDisk cr st d F M) :
    Bounded F ∧ (∀ n ∈ F, n ∈ N) ∧ visible (completed cr st M F) ∈ P := by
  obtain ⟨blob, hget, -, hopen⟩ := hM.manifest
  obtain ⟨nonce, ct, plain, rfl, hplain, hdec⟩ := Manifest.openBlob_ok hopen
  -- the manifest was sealed by the store, so it attests the moments around one mutation
  obtain ⟨hmem, -⟩ := hun.manifest _ nonce ct hget rfl plain hplain
  obtain ⟨d₀, F₀, hsnap, hhash, hvis⟩ := harch _ hmem rfl M hdec _ hM.verified
  obtain rfl : F₀ = F := hsnap.holds.eq_of_hashes hM.holds hsnap.filed
    (fun stem b hist hget => hun.filed hM.holds hist hget) hsha hhash
  exact ⟨hsnap.bounded, hsnap.names, hvis⟩

/-- If `open` succeeds on the files presented to it, it exposes one of the moments. -/
theorem wp_openAs_presented {unlock : Unlock} {upgrade : Bool} {bundle : Bundle}
    (hu : unlock.derive cr = .ok u) (hvalid : validProfileName profile = true) (hI : InternalIn N)
    (hj : s.disk.home.get .journal = none) (hno : NoLegacy s.disk.home)
    (hlock : Locked cr profile u bundle s.disk.home) (hN : TagInjOn cr (handle profile bundle) N)
    (harch : Archive cr (handle profile bundle) N seals P) (hempty : ∅ ∈ P)
    (hun : Unforged cr profile bundle seals s.disk.home) (hsha : CollisionFree cr profile seals) :
    wp (machine cr) A (openAs cr profile unlock upgrade)
      (fun r t => ∀ st', r = .ok st' → ∃ m ∈ P, Shows cr (fun c => c.fault = none) N st' t m)
      (fun _ => True) s := by
  by_cases hopenable : ∃ F, Openable cr (handle profile bundle) N s.disk.home F
  · obtain ⟨F, hF⟩ := hopenable
    have hmoment : visible F ∈ P := by
      rcases hF with ⟨F₀, M, hM, -, -, rfl⟩ | ⟨-, -, rfl⟩
      · exact (harch.accepts hun hsha hM).2.2
      · rwa [visible_empty]
    refine wp_openAs_keyed (K := fun _ => True) hu hvalid hj hno hlock hF hN hI
      (fun _ _ _ _ _ _ => trivial) (fun st' t d' hst hl => ?_) fun _ e t => nofun
    rintro _ ⟨⟩
    have hshows := hl.settled.toReady.shows (hN.of_keys hst.sameBundle) fun _ hc => hc
    rw [visible_latched] at hshows
    exact ⟨visible F, hmoment, hshows⟩
  · refine wp_openAs_unopenable hu hvalid hj hlock (fun G M hM => ?_)
      (fun F hF => hopenable ⟨F, hF⟩) fun e t => nofun
    obtain ⟨hB, hnames, -⟩ := harch.accepts hun hsha hM
    exact ⟨hB, hnames⟩

/-! ### Every run -/

/-- The call was cut off. -/
def Event.cut : Event → Bool
  | .openCut | .putCut _ _ | .removeCut _ => true
  | _ => false

/-- The maps a store has had after some prefix of the events. -/
def moments (es : List Event) : Set (Map Bytes) :=
  {m | ∃ before after, es = before ++ after ∧ Steps Event.Allows ∅ before m}

theorem moments_append (es : List Event) (e : Event) : moments es ⊆ moments (es ++ [e]) := by
  rintro m ⟨before, after, rfl, hsteps⟩
  exact ⟨before, after ++ [e], by simp, hsteps⟩

/-- The session's handle has an archive of every moment so far, and shows the last one. -/
def Recorded (cr : Crypto) (profile : Bytes) (u : Unlocker) (N : Set Bytes) (done : List Event)
    (a : Session) : Prop :=
  ∃ st F, a.handle = some st ∧ Chronicled cr profile u N st a.world F (moments done) ∧
    Steps Event.Allows ∅ done (visible F)

/-- One complete call. -/
theorem Step.recorded {pw : PasswordKek} (hu : Derives cr exportKey pw)
    (hvalid : validProfileName profile = true) (hI : InternalIn N) {a b : Session} {e : Event}
    {done : List Event} (hcut : e.cut = false) (hname : ∀ n ∈ e.name?, n ∈ N)
    (hstep : Step cr profile exportKey (Reliable cr profile N) a e b)
    (h : Recorded cr profile (.password exportKey pw) N done a) :
    Recorded cr profile (.password exportKey pw) N (done ++ [e]) b := by
  obtain ⟨st, F, hst, hchron, hsteps⟩ := h
  have hsub := moments_append done e
  cases hstep with
  | opened hf hrun =>
    obtain ⟨hchron', -⟩ := wp_outcome
      (wp_openAs_chronicled Reliable.faultFree hu hvalid hI hchron) hf hrun _ rfl
    exact ⟨_, F, rfl, hchron'.mono hsub, hsteps.snoc rfl⟩
  | openCut => cases hcut
  | @put f st' t name payload r hst' hf hrun =>
    obtain rfl : st = st' := Option.some.inj (hst.symm.trans hst')
    have hlast : Steps Event.Allows ∅ (done ++ [.put name payload r.isOk])
        (if r.isOk then (visible F).update name (some payload) else visible F) := hsteps.snoc rfl
    obtain ⟨G, hG, hvis⟩ := wp_outcome
      (wp_put_chronicled Reliable.faultFree hI (hname _ rfl) hchron) hf hrun _ hsub fun hok =>
        ⟨_, [], (append_nil _).symm, by simpa only [if_pos hok] using hlast⟩
    exact ⟨st, G, rfl, hG, hvis ▸ hlast⟩
  | putCut => cases hcut
  | @removed f st' t name r hst' hf hrun =>
    obtain rfl : st = st' := Option.some.inj (hst.symm.trans hst')
    have hlast : Steps Event.Allows ∅ (done ++ [.removed name r.isOk])
        (if r.isOk then (visible F).update name none else visible F) := hsteps.snoc rfl
    obtain ⟨G, hG, hvis⟩ := wp_outcome
      (wp_remove_chronicled Reliable.faultFree (hname _ rfl) hchron) hf hrun _ hsub fun hok =>
        ⟨_, [], (append_nil _).symm, by simpa only [if_pos hok] using hlast⟩
    exact ⟨st, G, rfl, hG, hvis ▸ hlast⟩
  | removeCut => cases hcut

/-- No partial rollback. A store is created and used; then its record files and its manifest are
replaced by any files, none of which is a forgery. If the next `open` succeeds, whatever fails
during it, it exposes the records the store had at one moment of its run. -/
theorem no_partial_rollback (hkey : exportKey.length = exportKeyLen)
    (hvalid : validProfileName profile = true) (hI : InternalIn N) {s₀ : World}
    (hblank : Blank s₀.disk.home) (hlog : s₀.seals = []) {es : List Event}
    (hcomplete : ∀ e ∈ es, e.cut = false) (hnames : ∀ e ∈ es, ∀ n ∈ e.name?, n ∈ N) {a : Session}
    {st : ProfileStore}
    (hrun : Steps (Step cr profile exportKey (Reliable cr profile N)) ⟨s₀, none⟩ (.opened :: es) a)
    (hst : a.handle = some st) {w : World} (hrest : SameRest a.world.disk.home w.disk.home)
    (hun : Unforged cr profile st.bundle a.world.seals w.disk.home)
    (hsha : CollisionFree cr profile a.world.seals) {g : ℕ → Choice}
    {st' : ProfileStore} {v : World}
    (hopen : (openStore cr profile exportKey).run (machine cr) g w = (.ok st', v)) :
    ∃ before after m, es = before ++ after ∧ Steps Event.Allows ∅ before m ∧
      Shows cr (fun c => c.fault = none) N st' v m := by
  have hu : Derives cr exportKey ⟨cr.hkdf exportKey kekPwInfo⟩ := derive_password hkey
  cases hrun with
  | cons head tail =>
    cases head with
    | @opened f st₀ t hf hrun₀ =>
      -- the store is new
      obtain ⟨F₀, hF₀, hchron₀⟩ := wp_outcome
        (wp_openStore_chronicled hu hvalid hI hblank hlog) hf hrun₀ st₀ rfl
      have hstart : Recorded cr profile (.password exportKey ⟨cr.hkdf exportKey kekPwInfo⟩) N []
          ⟨t, some st₀⟩ := by
        refine ⟨st₀, F₀, rfl, hchron₀.mono ?_, hF₀ ▸ .nil⟩
        rintro m rfl
        exact ⟨[], [], rfl, .nil⟩
      obtain ⟨st₁, F, hst₁, hchron, -⟩ := Steps.history
        (P := fun e => e.cut = false ∧ ∀ n ∈ e.name?, n ∈ N)
        (fun done a e b he hstep h => hstep.recorded hu hvalid hI he.1 he.2 h) tail
        (fun e he => ⟨hcomplete e he, hnames e he⟩) hstart
      obtain rfl : st = st₁ := Option.some.inj (hst.symm.trans hst₁)
      have hstored := hchron.stored
      have harch : Archive cr (handle profile st.bundle) N a.world.seals (moments ([] ++ es)) :=
        hchron.archive.of_keys hchron.sameProfile.symm rfl
      have hj : w.disk.home.get .journal = none := (hrest.get _).trans hstored.journal
      obtain ⟨m, ⟨before, after, hsplit, hm⟩, hshows⟩ := wp_outcome
        (wp_openAs_presented (A := fun _ => True) hu hvalid hI hj (hstored.noLegacy.sameRest hrest)
          (hstored.locked.sameRest hrest) hstored.tags harch ⟨[], es, rfl, .nil⟩ hun hsha)
        (fun _ => trivial) hopen st' rfl
      exact ⟨before, after, m, hsplit, hm, hshows⟩

end

/-! ### A concrete rollback -/

open Sample

/-- The ciphertext in a file is one of the seals, if it opens at all. -/
def Sample.genuine (seals : List Seal) (key : Key) (aad : Bytes) : Entry → Bool
  | .file b _ =>
    match readBlock 12 (b.drop 4) with
    | none => true
    | some (nonce, ct) =>
      match Crypto.toy.decrypt key nonce aad ct with
      | none => true
      | some msg => decide (⟨key, nonce, aad, msg⟩ ∈ seals)
  | _ => true

/-- In the transparent instance the tag determines the ciphertext. -/
theorem encrypt_of_decrypt_toy {key : Key} {nonce : Nonce} {aad ct msg : Bytes}
    (h : toy.decrypt key nonce aad ct = some msg) :
    toy.encrypt key nonce aad msg = ct := by
  simp only [toy] at h ⊢
  split at h
  · rename_i tag m hread
    split at h
    · rename_i htag
      cases h
      rw [← htag, ← readBlock_eq_some hread]
    · cases h
  · cases h

theorem Sample.authentic {key : Key} {nonce : Nonce} {head aad ct : Bytes} (hhead : head.length = 4)
    (h : genuine seals key aad (privateFile (head ++ nonce.1 ++ ct)) = true) :
    Authentic toy seals key nonce aad ct := by
  intro msg hmsg
  have hdrop : (head ++ nonce.1 ++ ct).drop 4 = nonce.1 ++ ct := by
    rw [append_assoc, ← hhead, drop_left]
  simp only [genuine, privateFile, hdrop, readBlock_append, hmsg, decide_eq_true_eq] at h
  exact ⟨h, encrypt_of_decrypt_toy hmsg⟩

theorem Sample.unforged {bundle : Bundle}
    (hrec : ∀ e ∈ d.records.toList, genuine seals bundle.record (aad magic profile e.1) e.2 = true)
    (hman : ∀ e ∈ d.manifest, genuine seals bundle.manifest (manifestAad profile) e = true) :
    Unforged toy profile bundle seals d where
  record stem b nonce ct hist hget hb := by
    subst hb
    have hmem : (stem, privateFile (magic ++ nonce.1 ++ ct)) ∈ d.records.toList :=
      mem_toList_iff_getElem?_eq_some.mpr hget
    exact authentic rfl (hrec _ hmem)
  manifest b nonce ct hget hb := by
    subst hb
    exact authentic rfl (hman _ hget)

/-- The small store after its record was changed. -/
def Sample.rewritten : World :=
  ((put Crypto.toy handle (ascii "a") [2]).run (machine Crypto.toy)
    (fun _ => .plain) withRecord).2

theorem Sample.run_rewrite : (put toy handle (ascii "a") [2]).run (machine toy)
    (fun _ => .plain) withRecord = (.ok (), rewritten) :=
  Prod.ext (by decide +kernel) (by rw [rewritten])

theorem Sample.sameRest : SameRest rewritten.disk.home withRecord.disk.home := by
  have hother : withRecord.disk.home.keyfile = rewritten.disk.home.keyfile ∧
      withRecord.disk.home.journal = rewritten.disk.home.journal ∧
      withRecord.disk.home.legacy = rewritten.disk.home.legacy ∧
      withRecord.disk.home.legacyTmp = rewritten.disk.home.legacyTmp := by
    decide +kernel
  generalize withRecord = w, rewritten = w' at hother
  intro f hman hrec
  cases f with
  | manifest => exact absurd rfl hman
  | record stem => exact absurd rfl (hrec stem)
  | keyfile => exact hother.1
  | journal => exact hother.2.1
  | legacy stem => exact congrArg (·[stem]?) hother.2.2.1
  | legacyTmp stem => exact congrArg (·[stem]?) hother.2.2.2

theorem Sample.presented : Unforged toy profile handle.bundle
    rewritten.seals withRecord.disk.home :=
  unforged (by decide +kernel) (by decide +kernel)

theorem Sample.collisionFree : CollisionFree toy profile rewritten.seals := by
  have hsha : ∀ x ∈ rewritten.seals, ∀ y ∈ rewritten.seals,
      toy.sha256 (x.blob toy) = toy.sha256 (y.blob toy) →
      x.blob toy = y.blob toy := by decide +kernel
  rintro b b' ⟨x, hx, -, -, rfl⟩ ⟨y, hy, -, -, rfl⟩ heq
  exact hsha x hx y hy heq

/-- The small store after the earlier files were opened again. -/
def Sample.reopened : World :=
  ((openStore Crypto.toy profile exportKey).run (machine Crypto.toy)
    (fun _ => .plain) withRecord).2

theorem Sample.run_reopen : (openStore toy profile exportKey).run
    (machine toy) (fun _ => .plain) withRecord = (.ok handle, reopened) :=
  Prod.ext (by decide +kernel) (by rw [reopened])

theorem Sample.steps_rewrite {w w' w'' : World}
    (hopened : (openStore toy profile exportKey).run (machine toy)
      (fun _ => .plain) .blank = (.ok handle, w))
    (hput : (put toy handle (ascii "a") [1]).run (machine toy)
      (fun _ => .plain) w = (.ok (), w'))
    (hput' : (put toy handle (ascii "a") [2]).run (machine toy)
      (fun _ => .plain) w' = (.ok (), w'')) :
    Steps (Step toy profile exportKey
      (Reliable toy profile {n | n ∈ names})) ⟨.blank, none⟩
      [.opened, .put (ascii "a") [1] true, .put (ascii "a") [2] true]
      ⟨w'', some handle⟩ := by
  apply Steps.cons
  · exact .opened (fun _ => reliable) hopened
  apply Steps.cons
  · exact .put (s := ⟨w, some handle⟩) rfl (fun _ => reliable) hput
  apply Steps.cons
  · exact .put (s := ⟨w', some handle⟩) rfl (fun _ => reliable) hput'
  · exact .nil

/-- A record is written twice; then the files from between the two writes are put back. The next
`open` accepts them, as one moment of the run. -/
theorem no_partial_rollback_sample :
    (openStore Crypto.toy profile exportKey).run (machine Crypto.toy)
      (fun _ => .plain) withRecord = (.ok Sample.handle, reopened) ∧
    ∃ before after m,
      [Event.put (ascii "a") [1] true, .put (ascii "a") [2] true] = before ++ after ∧
      Steps Event.Allows ∅ before m ∧
      Shows Crypto.toy (fun c => c.fault = none) {n | n ∈ Sample.names} Sample.handle
        reopened m := by
  have hsteps := steps_rewrite run_openStore run_put run_rewrite
  have hrest := sameRest
  have hun := presented
  have hsha := collisionFree
  have hopen := run_reopen
  -- the theorem is applied to arbitrary worlds, so that the computed ones are never unfolded
  generalize rewritten = w, withRecord = w', reopened = v at *
  have hall : ∀ e ∈ [Event.put (ascii "a") [1] true, .put (ascii "a") [2] true],
      e.cut = false ∧ ∀ n ∈ e.name?, n ∈ Sample.names := by decide +kernel
  exact ⟨hopen, no_partial_rollback length_exportKey Sample.validProfileName
    internalIn blank_empty rfl (fun e he => (hall e he).1) (fun e he => (hall e he).2)
    hsteps rfl hrest hun hsha hopen⟩

end Powehi.Store
