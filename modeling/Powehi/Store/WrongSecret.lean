import Powehi.Store.Sessions
import Powehi.Store.Switch

/-!
# Opening with a wrong secret

Opening a store finishes an interrupted rekey, adopts, settles and migrates before it returns. With
a secret that nothing on disk was made with it fails, and it fails before the first of these: every
way through `open_as` reads something that has to authenticate under the secret before it writes.

Two clean-ups need no secret. Without a journal the staging directory is discarded, and without a
staging directory the journal is.

That authenticated encryption refuses a wrong key is a hypothesis, `Foreign`: no piece of a file
decrypts under the key.
-/

namespace Powehi.Store

open Codec Semantics Program List Disk KeyFile Crypto Option

section

variable {cr : Crypto} {A : Choice → Prop} {C : World → Prop} {K : Disk → Prop} {s : World}
  {d : Dir} {st : ProfileStore} {profile : Bytes}

/-! ### Keys that open nothing -/

/-- No piece of a file of the directory, the journal apart, decrypts under the key. -/
def Foreign (cr : Crypto) (key : Key) (d : Dir) : Prop :=
  ∀ f ≠ .journal, ∀ bytes priv, d.get f = some (.file bytes priv) →
    ∀ (head : Bytes) (nonce : Nonce) (ct tail : Bytes), bytes = head ++ (nonce.1 ++ (ct ++ tail)) →
      ∀ aad, cr.decrypt key nonce aad ct = none

section Foreign

variable {key : Key}

theorem Foreign.openBlob {f : FileName} {blob magic label plain : Bytes} {priv : Bool}
    (h : Foreign cr key d) (hf : f ≠ .journal) (hget : d.get f = some (.file blob priv)) :
    openBlob cr key profile magic label blob ≠ .ok plain := by
  intro hopen
  obtain ⟨nonce, ct, hblob, hdec⟩ := openBlob_ok hopen
  rw [h f hf blob priv hget magic nonce ct [] (by simp [hblob])] at hdec
  cases hdec

theorem Foreign.manifest {M : Manifest} (h : Foreign cr st.bundle.manifest d) :
    ¬ManifestOn cr st d M := by
  rintro ⟨blob, hget, -, hopen⟩
  obtain ⟨nonce, ct, plain, hblob, hdec, -⟩ := Manifest.openBlob_ok hopen
  rw [h .manifest (by simp) blob true hget manifestMagic nonce ct [] (by simp [hblob])] at hdec
  cases hdec

/-- A slot that opens decrypts under the key. -/
theorem unsealSlot_ok {kek : Key} {kind : SlotKind} {sealed : Bytes} {bundle : Bundle}
    (h : unsealSlot cr kek profile kind sealed = .ok bundle) :
    ∃ nonce ct aad plain, sealed = nonce.1 ++ ct ∧ cr.decrypt kek nonce aad ct = some plain := by
  unfold unsealSlot at h
  split at h
  · cases h
  · split at h
    · cases h
    · rename_i nonce ct hread
      split at h
      · cases h
      · rename_i plain hdec
        exact ⟨nonce, ct, _, plain, readBlock_eq_some hread, hdec⟩

/-- The slots of a key file are pieces of it. -/
theorem KeyFile.decode_pieces {bytes : Bytes} {kf : KeyFile} (h : decode bytes = .ok kf) :
    (∃ head tail, bytes = head ++ (kf.password ++ tail)) ∧
      ∀ sealed ∈ kf.recovery, ∃ head, bytes = head ++ sealed := by
  -- the magic, the password slot, and what is behind it
  have hsplit : ∀ m n, bytes = bytes.take m ++
    ((bytes.take (m + n)).drop m ++ bytes.drop (m + n)) := by
    intro m n
    rw [drop_take, Nat.add_sub_cancel_left, ← drop_drop, take_append_drop, take_append_drop]
  simp only [decode] at h
  split at h
  · cases h
  · split at h
    · cases h
    · rename_i flag rest hrest
      split at h
      · cases h
        exact ⟨⟨_, _, hsplit _ _⟩, by simp⟩
      · split at h
        · cases h
          refine ⟨⟨_, _, hsplit _ _⟩, ?_⟩
          rintro sealed ⟨⟩
          refine ⟨bytes.take (keyfileMagic.length + slotLen) ++ [flag], ?_⟩
          rw [append_assoc, singleton_append, ← hrest, take_append_drop]
        · cases h

end Foreign

/-- Nothing on disk was made with the secret: no slot of a key file, and in the case of a password,
no file under the keys derived from it. -/
def WrongSecret (cr : Crypto) (u : Unlocker) (k : Disk) : Prop :=
  match u with
  | .password ek pw => (∀ l d, k.dir? l = some d → Foreign cr pw.key d) ∧
      ∀ B, Bundle.derived cr ek = .ok B → Foreign cr B.record k.home ∧ Foreign cr B.manifest k.home
  | .recovery rc => ∀ l d, k.dir? l = some d → Foreign cr rc.key d

theorem WrongSecret.unlock {u : Unlocker} {k : Disk} {l : Loc} {bytes : Bytes} {priv : Bool}
    {kf : KeyFile} {bundle : Bundle} (h : WrongSecret cr u k) (hd : k.dir? l = some d)
    (hget : d.get .keyfile = some (.file bytes priv)) (hdec : decode bytes = .ok kf) :
    u.unlock cr profile kf ≠ .ok bundle := by
  intro hopen
  obtain ⟨⟨head, tail, hpassword⟩, hrecovery⟩ := decode_pieces hdec
  cases u with
  | password ek pw =>
    obtain ⟨nonce, ct, aad, plain, hslot, hplain⟩ := unsealSlot_ok hopen
    rw [h.1 l d hd .keyfile (by simp) bytes priv hget head nonce ct tail
      (by rw [hpassword, hslot, append_assoc])] at hplain
    cases hplain
  | recovery rc =>
    simp only [Unlocker.unlock, unlockRecovery] at hopen
    split at hopen
    · cases hopen
    · rename_i sealed hsealed
      obtain ⟨head, hhead⟩ := hrecovery sealed hsealed
      obtain ⟨nonce, ct, aad, plain, hslot, hplain⟩ := unsealSlot_ok hopen
      rw [h l d hd .keyfile (by simp) bytes priv hget head nonce ct []
        (by rw [hhead, hslot, append_nil])] at hplain
      cases hplain

/-! ### Files that stay -/

/-- Every file of the profile directory is as before, the journal if there is anything staged; and
the staging directory is as before if there is a journal. -/
structure Untouched (k k' : Disk) : Prop where
  home : ∀ f ≠ .journal, k'.home.get f = k.home.get f
  journal : k.staging ≠ .absent → k'.home.get .journal = k.home.get .journal
  staging : (k.home.get .journal).isSome → k'.staging = k.staging

theorem Untouched.refl (k : Disk) : Untouched k k := ⟨fun _ _ => rfl, fun _ => rfl, fun _ => rfl⟩

/-- The directory holds a store: a key file, or one of its other files. -/
def HoldsStore (d : Dir) : Prop := (d.get .keyfile).isSome ∨ HasStoreFile d

section Untouched

variable {k k' : Disk}

theorem Untouched.foreign {key : Key} (h : Untouched k k') (hforeign : Foreign cr key k.home) :
    Foreign cr key k'.home := by
  intro f hf bytes priv hget
  rw [h.home f hf] at hget
  exact hforeign f hf bytes priv hget

theorem Untouched.hasStoreFile (h : Untouched k k') (hfile : HasStoreFile k.home) :
    HasStoreFile k'.home := by
  obtain ⟨f, hsome, hkind⟩ := hfile
  have hf : f ≠ .journal := by
    rintro rfl
    simp [tagStem, legacyStem] at hkind
  exact ⟨f, by rwa [h.home f hf], hkind⟩

end Untouched

/-! ### Reading whatever is there -/

theorem wp_readKeyfile_any {l : Loc} {Q : Post (Option KeyFile)} (hd : s.disk.dir? l = some d)
    (hs : C s)
    (found : ∀ bytes kf, d.get .keyfile = some (privateFile bytes) → decode bytes = .ok kf →
      Q (.ok (some kf)) s) (absent : d.get .keyfile = none → Q (.ok none) s)
    (failed : ∀ e, Q (.error e) s) : wp (machine cr) A (readKeyfile l) Q C s := by
  rw [readKeyfile, wp_bind]
  refine wp_ifPresent (wp_readPrivateFile_any hd (by simp) hs (fun bytes hget _ => ⟨hs, ?_⟩)
    (fun hget => ⟨hs, hs, absent hget⟩) fun e he _ => ⟨hs, ?_⟩)
  · rw [absentAsNone, andThen_ok]
    rw [wp_bind, wp_ofExcept]
    refine ⟨hs, ?_⟩
    cases hdec : decode bytes with
    | ok kf => exact ⟨hs, found bytes kf hget hdec⟩
    | error e => exact failed e
  · rw [absentAsNone_error he]
    exact failed e

/-! ### Recovery -/

theorem wp_stagingPresent_any {Q : Post Bool} (hs : C s)
    (present : ∀ d, s.disk.dir? .staging = some d → Q (.ok true) s)
    (absent : s.disk.staging = .absent → Q (.ok false) s) (failed : ∀ e, Q (.error e) s) :
    wp (machine cr) A stagingPresent Q C s := by
  rw [stagingPresent, wp_bind]
  refine wp_statStaging hs (fun hstg => ⟨hs, absent hstg⟩) (fun _ => ⟨hs, failed _⟩)
    (fun priv d hstg => ⟨hs, present d ?_⟩) fun _ => failed
  simp [dir?, hstg]

/-- No key file that is found opens with the caller's key. -/
def Refuses (unlock : KeyFile → Except StoreError Bundle) (k : Disk) : Prop :=
  ∀ l d bytes kf, k.dir? l = some d → d.get .keyfile = some (privateFile bytes) →
    KeyFile.decode bytes = .ok kf → ∀ bundle, unlock kf ≠ .ok bundle

variable {unlock : KeyFile → Except StoreError Bundle}

/-- The check before a switch fails, and only reads. -/
theorem wp_checkSwitch_refused {sealed : Bytes} {Q : Post Journal}
    {staged : Dir} (hstaged : s.disk.dir? .staging = some staged) (hrefuse : Refuses unlock s.disk)
    (hs : C s) (failed : ∀ e, Q (.error e) s) :
    wp (machine cr) A (checkSwitch cr profile unlock sealed) Q C s := by
  rw [checkSwitch, wp_bind]
  have hlook : ∀ c, Call.effect cr (.checkPrivateDir .staging) c s = (.ok (), s) ∨
      Call.effect cr (.checkPrivateDir .staging) c s = (.error .insecurePath, s) := by
    intro c
    cases hstg : s.disk.staging with
    | absent | notDir => simp [dir?, hstg] at hstaged
    | dir priv d => cases priv <;> simp [Call.effect, hstg]
  -- everything up to the key file is read only
  have hrest : wp (machine cr) A (locate .keyfile >>= fun l =>
      readPrivateFile l .keyfile keyfileMaxLen .keyfileCorrupt >>= fun bytes =>
      ofExcept (decode bytes) >>= fun keys =>
      ofExcept (unlock keys) >>= fun bundle =>
      ofExcept (openJournal cr bundle profile sealed) >>= fun journal =>
      journal.new.toList.forM (fun e => verifyFile cr (.record e.1) e.2) >>= fun _ =>
      verifyFile cr .manifest journal.manifest >>= fun _ => .pure journal) Q C s := by
    rw [wp_bind, locate, wp_bind]
    refine wp_pathExists hs fun c _ => ⟨hs, ?_⟩
    rw [andThen_bind]
    obtain ⟨d, hd⟩ : ∃ d, s.disk.dir? (if !c.blind && s.exists .staging .keyfile then .staging
        else .home) = some d := by
      split
      · exact ⟨staged, hstaged⟩
      · exact ⟨_, dir?_home _⟩
    refine wp_readPrivateFile_any hd (by simp) hs (fun bytes hget _ => ?_) (fun _ => failed _)
      fun e _ _ => failed e
    rw [andThen_bind, wp_ofExcept]
    refine ⟨hs, ?_⟩
    cases hdec : decode bytes with
    | error e => exact failed e
    | ok kf =>
      rw [andThen_bind, wp_ofExcept]
      refine ⟨hs, ?_⟩
      cases hopen : unlock kf with
      | error e => exact failed e
      | ok bundle => exact absurd hopen (hrefuse _ d bytes kf hd hget hdec bundle)
  refine wp_call hs (fun c _ => ?_) (fun _ => failed _) fun _ c _ => ?_
  · rcases hlook c with heff | heff
    · rw [heff]
      exact ⟨hs, hrest⟩
    · rw [heff]
      exact ⟨hs, failed _⟩
  · rcases hlook c with heff | heff
    · rw [heff]
      exact failed _
    · rw [heff]
      exact failed _

/-- With a wrong key, recovery at most discards what no secret is needed for. -/
theorem wp_recover_refused {Q : Post Unit} (hrefuse : Refuses unlock s.disk)
    (hQ : ∀ r t, Untouched s.disk t.disk → t.mem = s.mem → Q r t) :
    wp (machine cr) A (recover cr profile unlock) Q (fun t => Untouched s.disk t.disk) s := by
  have hkept : Untouched s.disk s.disk := .refl _
  cases hj : s.disk.home.get .journal with
  | none =>
    have hstg : ∀ stg, Untouched s.disk (s.setStaging stg).disk := fun stg =>
      ⟨fun _ _ => rfl, fun _ => rfl, fun hsome => by rw [hj] at hsome; cases hsome⟩
    exact wp_recover_none hj hstg (hQ _ _ (hstg _) rfl) fun _ e stg => hQ _ _ (hstg stg) rfl
  | some entry =>
    have hfail : ∀ e, Q (.error e) s := fun e => hQ _ _ hkept rfl
    rw [recover, wp_bind]
    refine wp_ifPresent (wp_readPrivateFile_any (dir?_home _) (by simp) hkept
      (fun sealed _ _ => ⟨hkept, ?_⟩) (fun habs => ?_) fun e he _ => ⟨hkept, ?_⟩)
    · rw [absentAsNone, andThen_ok]
      rw [wp_bind]
      refine wp_stagingPresent_any hkept (fun d hd => ?_) (fun habs => ?_) hfail
      · -- a switch to finish: it is checked first
        rw [andThen_bind]
        refine wp_onlyIf (fun _ => ?_) (by simp)
        rw [finishSwitch, wp_bind]
        exact wp_checkSwitch_refused hd hrefuse hkept hfail
      · -- the switch was finished before
        have hgone : Untouched s.disk (s.setDir .home (s.disk.home.set .journal none)).disk :=
          ⟨fun f hf => s.disk.home.get_set_of_ne _ hf, fun hne => absurd habs hne, fun _ => rfl⟩
        rw [andThen_bind]
        refine wp_onlyIf (by simp) fun _ => ⟨hkept, ?_⟩
        rw [andThen_bind]
        refine wp_syncDir (dir?_home _) hkept ?_ fun _ => hfail _
        rw [andThen_bind]
        by_cases hdir : entry = .dir
        · subst hdir
          have hrm : ∀ c, Call.effect cr (.removeFile .home .journal) c s =
            (.error (.io .other), s) := by
            simp [Call.effect, World.withDir, hj]
          exact wp_call_look hrm hkept (hfail _) fun _ => hfail _
        · refine wp_removeFile (dir?_home _) hj hdir hkept hgone ?_ (fun _ => hfail _)
            fun _ => hQ _ _ hgone rfl
          rw [andThen_ok]
          exact wp_syncDir (dir?_home _) hgone (hQ _ _ hgone rfl) fun _ => hQ _ _ hgone rfl
    · rw [hj] at habs
      cases habs
    · rw [absentAsNone_error he]
      exact hfail e

/-! ### Upgrades -/

/-- The first stem is one of the stems, and there is one if there are any. -/
theorem foldl_firstStem (stems : List Bytes) (first : Option Bytes) :
    (∀ stem, stems.foldl firstStem first = some stem → stem ∈ stems ∨ first = some stem) ∧
      (stems.foldl firstStem first = none → stems = [] ∧ first = none) := by
  induction stems generalizing first with
  | nil => exact ⟨fun _ h => .inr h, fun h => ⟨rfl, h⟩⟩
  | cons x stems ih =>
    obtain ⟨hsome, hnone⟩ := ih (firstStem first x)
    have hfirst : firstStem first x = some x ∨ firstStem first x = first ∧ first ≠ none := by
      unfold firstStem
      split
      · exact .inl rfl
      · split
        · exact .inl rfl
        · exact .inr ⟨rfl, nofun⟩
    constructor
    · intro stem hstem
      rcases hsome stem hstem with hmem | heq
      · exact .inl (mem_cons_of_mem _ hmem)
      · rcases hfirst with hx | ⟨hx, -⟩
        · rw [hx] at heq
          cases heq
          exact .inl mem_cons_self
        · exact .inr (hx ▸ heq)
    · intro h
      obtain ⟨-, hnil⟩ := hnone h
      rcases hfirst with hx | ⟨hx, hne⟩
      · rw [hx] at hnil
        cases hnil
      · exact absurd (hx ▸ hnil) hne

/-- Under a foreign key the first legacy record does not authenticate; the check passes only where a
manifest has to authenticate later, or where there is no legacy record. -/
theorem wp_authenticateFirstLegacy_refused {Q : Post Unit} (hd : s.disk.dir? st.loc = some d)
    (hforeign : Foreign cr st.bundle.record d) (hs : C s)
    (hQ : (d.get .manifest = none → ∀ stem, validRecordName stem = true →
      d.get (.legacy stem) = none) → Q (.ok ()) s) (failed : ∀ e, Q (.error e) s) :
    wp (machine cr) A (authenticateFirstLegacy cr st) Q C s := by
  rw [authenticateFirstLegacy, wp_bind, wp_attempt]
  rcases hman : d.get .manifest with _ | entry
  on_goal 1 => refine wp_read_absent hd hman hs ?_ fun _ => ?_
  on_goal 3 => refine wp_read hd hman hs ⟨hs, hQ fun habs => by simp [hman] at habs⟩ fun _ => ?_
  all_goals
    simp only [andThen_ok, wp_bind]
    refine wp_readDir hd hs (fun fs hperm => ?_) fun _ => failed _
    rw [andThen_ok]
    obtain ⟨-, hnone⟩ := foldl_firstStem (fs.filterMap legacyStem) none
    cases hfirst : (fs.filterMap legacyStem).foldl firstStem none with
    | none =>
      refine ⟨hs, hQ fun _ stem hvalid => ?_⟩
      by_contra hsome
      -- a valid legacy name would have been listed
      have hmem : stem ∈ fs.filterMap legacyStem := by
        refine mem_filterMap.mpr ⟨.legacy stem, hperm.mem_iff.mpr ?_, ?_⟩
        · exact (d.mem_listing _).mpr (isSome_iff_ne_none.mpr hsome)
        · rw [legacyStem, if_pos hvalid]
      rw [(hnone hfirst).1] at hmem
      cases hmem
    | some name =>
      rw [wp_bind]
      refine wp_readBlob hd hs (fun blob plain hget _ hopen => ?_) fun e _ => failed e
      exact absurd hopen (hforeign.openBlob (by simp) hget)

/-- Under foreign keys no record is loaded. -/
theorem Holds.eq_empty {G : Map Bytes} (h : Holds cr st d G)
    (hforeign : Foreign cr st.bundle.record d) :
    hashes cr d = ∅ ∧ ∀ tag, isTag tag = true → d.get (.record tag) = none := by
  have hnone : ∀ n, n ∉ G := by
    intro n hn
    obtain ⟨blob, hget, -, hdec⟩ := h.file n _ (Std.ExtTreeMap.getElem?_eq_some_getElem hn)
    obtain ⟨plain, hopen, -⟩ := decodeRecord_ok hdec
    exact hforeign.openBlob (by simp) hget hopen
  constructor
  · apply Std.ExtTreeMap.ext_getElem?
    intro tag
    rw [Std.ExtTreeMap.getElem?_eq_none, Std.ExtTreeMap.getElem?_eq_none (by simp)]
    intro htag
    obtain ⟨n, hn, -⟩ := h.name_of_mem_hashes htag
    exact hnone n hn
  · intro tag htag
    by_contra hsome
    obtain ⟨n, hn, -⟩ := h.name tag htag (isSome_iff_ne_none.mpr hsome)
    exact hnone n hn

/-- An upgrade under foreign keys fails before its first write. -/
theorem wp_start_refused {pw : PasswordKek} {Q : Post ProfileStore}
    (hd : s.disk.dir? st.loc = some d) (hpriv : s.disk.Private st.loc)
    (hrecord : Foreign cr st.bundle.record d) (hmanifest : Foreign cr st.bundle.manifest d)
    (hfiles : HasStoreFile d) (hK : K s.disk) (failed : ∀ e t, t.disk = s.disk → Q (.error e) t) :
    wp (machine cr) A (start cr st (.upgrade pw)) Q (fun t => K t.disk) s := by
  rw [start, wp_bind]
  refine ⟨hK, ?_⟩
  rw [andThen_bind]
  refine wp_loadIndex hd hpriv hK (fun G index hG _ _ => ?_) fun e _ => failed e s rfl
  obtain ⟨hempty, hrecords⟩ := hG.eq_empty hrecord
  have hfail : ∀ e, Q (.error e) (s.setMem st.loc { s.mem st.loc with index }) :=
    fun e => failed e _ rfl
  rw [andThen_bind]
  refine wp_onlyIf (fun _ => ?_) fun hskip => ?_
  · refine wp_authenticateFirstLegacy_refused hd hrecord hK (fun hlegacy => ?_) hfail
    rw [andThen_bind]
    refine wp_loadManifest hd hG hK
      (fun habs => ?_) (fun M hM => absurd hM.manifest hmanifest.manifest) fun e _ => hfail e
    -- neither manifest nor record nor legacy file: not a store
    obtain ⟨f, hsome, hkind⟩ := hfiles
    exfalso
    rcases hkind with htag | hstem | rfl
    · obtain ⟨tag, htag⟩ := isSome_iff_exists.mp htag
      obtain ⟨rfl, hist⟩ := mem_tagStem.mp htag
      rw [hrecords tag hist] at hsome
      cases hsome
    · cases f with
      | legacy stem =>
        simp only [legacyStem, isSome_ite] at hstem
        rw [hlegacy habs stem hstem] at hsome
        cases hsome
      | _ => simp [legacyStem] at hstem
    · rw [habs] at hsome
      cases hsome
  · simp [Flow.upgrading, hempty] at hskip

/-! ### Opening -/

/-- With a wrong secret every way of opening a store fails, wherever it is cut off the files are as
they were, and so they are in the end. -/
theorem wp_openAs_refused {secret : Unlock} {u : Unlocker} {upgrade : Bool} {Q : Post ProfileStore}
    (hu : secret.derive cr = .ok u) (hholds : HoldsStore s.disk.home)
    (hwrong : WrongSecret cr u s.disk) (hQ : ∀ e t, Untouched s.disk t.disk → Q (.error e) t) :
    wp (machine cr) A (openAs cr profile secret upgrade)
      Q (fun t => Untouched s.disk t.disk) s := by
  have hkept : Untouched s.disk s.disk := .refl _
  have hfail : ∀ e, Q (.error e) s := fun e => hQ e s hkept
  rw [openAs, wp_bind, hu]
  refine ⟨hkept, ?_⟩
  rw [andThen_bind, prepare, wp_bind]
  refine wp_checkHome hkept ?_ fun _ => hfail _
  rw [andThen_bind]
  refine wp_require hkept (fun _ => ?_) fun _ => hfail _
  rw [andThen_ok]
  refine wp_lock hkept ?_ fun _ => hfail _
  rw [andThen_bind]
  refine wp_recover_refused (fun l d bytes kf hd hget hdec bundle => hwrong.unlock hd hget hdec)
    fun r t ht _ => ?_
  cases r with
  | error e => exact hQ e t ht
  | ok _ =>
    -- what recovery left is read with the same wrong secret
    have hfail' : ∀ e, Q (.error e) t := fun e => hQ e t ht
    rw [andThen_bind]
    refine wp_readKeyfile_any (dir?_home _) ht (fun bytes kf hget hdec => ?_) (fun hget => ?_)
      hfail'
    · rw [andThen_bind]
      refine wp_hasStoreFiles (dir?_home _) ht (fun b _ => ?_) fun _ => hfail'
      rw [ht.home .keyfile (by simp)] at hget
      rw [andThen_bind]
      cases u with
      | password ek pw =>
        rw [findKeys, wp_bind, wp_ofExcept]
        refine ⟨ht, ?_⟩
        cases hopen : kf.unlockPassword cr profile pw with
        | error e => exact hfail' e
        | ok bundle => exact absurd hopen (hwrong.unlock (dir?_home _) hget hdec)
      | recovery rc =>
        rw [findKeys, wp_bind, wp_ofExcept]
        refine ⟨ht, ?_⟩
        cases hopen : kf.unlockRecovery cr profile rc with
        | error e => exact hfail' e
        | ok bundle => exact absurd hopen (hwrong.unlock (dir?_home _) hget hdec)
    · -- without a key file there are other files of the store
      have hfile : HasStoreFile t.disk.home := by
        rw [ht.home .keyfile (by simp)] at hget
        rcases hholds with hkey | hfile
        · rw [hget] at hkey
          cases hkey
        · exact ht.hasStoreFile hfile
      rw [andThen_bind]
      refine wp_hasStoreFiles (dir?_home _) ht (fun b hb => ?_) fun _ => hfail'
      obtain rfl := hb.mpr hfile
      rw [andThen_bind]
      cases u with
      | recovery rc => exact ⟨ht, hfail' _⟩
      | password ek pw =>
        cases upgrade with
        | false => exact ⟨ht, hfail' _⟩
        | true =>
          change wp (machine cr) A (ofExcept (Bundle.derived cr ek) >>= fun bundle =>
            .pure (⟨bundle, true, .upgrade pw⟩ : Keys)) _ _ t
          rw [wp_bind, wp_ofExcept]
          refine ⟨ht, ?_⟩
          cases hB : Bundle.derived cr ek with
          | error e => exact hfail' e
          | ok B =>
            obtain ⟨hrecord, hmanifest⟩ := hwrong.2 B hB
            refine ⟨ht, ?_⟩
            rw [andThen_bind, build, wp_bind]
            refine wp_modifyMem ht ht ?_
            refine ⟨ht, ?_⟩
            refine wp_start_refused (dir?_home _) trivial (ht.foreign hrecord)
              (ht.foreign hmanifest) hfile ht fun e t' ht' => hQ e t' ?_
            rw [ht']
            exact ht

/-- In a directory that holds a store, opening with a secret that nothing on disk was made with
returns an error. Records, legacy files, manifest and key file are as before, at every point at
which the attempt can be cut off and in the end; so are the journal, unless nothing is staged, and
the staging directory, unless there is no journal. -/
theorem wrong_secret_refused (cr : Crypto) (profile : Bytes) (secret : Unlock) (upgrade : Bool)
    (f : ℕ → Choice) (s : World) (hholds : HoldsStore s.disk.home)
    (hwrong : ∀ u, secret.derive cr = .ok u → WrongSecret cr u s.disk) :
    (∃ e, ((openAs cr profile secret upgrade).run (machine cr) f s).1 = .error e) ∧
      Untouched s.disk ((openAs cr profile secret upgrade).run (machine cr) f s).2.disk ∧
      ∀ t ∈ (openAs cr profile secret upgrade).crashStates (machine cr) f s,
        Untouched s.disk t.disk := by
  have hopen : wp (machine cr) (fun _ => True) (openAs cr profile secret upgrade)
      (fun r t => (∃ e, r = .error e) ∧ Untouched s.disk t.disk)
      (fun t => Untouched s.disk t.disk) s := by
    cases hu : secret.derive cr with
    | error e =>
      rw [openAs, wp_bind, hu]
      exact ⟨.refl _, ⟨e, rfl⟩, .refl _⟩
    | ok u => exact wp_openAs_refused hu hholds (hwrong u hu) fun e t ht => ⟨⟨e, rfl⟩, ht⟩
  obtain ⟨herror, hkept⟩ := wp_run hopen fun n => trivial
  exact ⟨herror, hkept, wp_crashStates hopen fun n => trivial⟩

end

/-! ### A wrong password for the small store -/

open Sample

/-- A password key of which no byte occurs in the files of the small store. -/
def Sample.wrongKey : Bytes := List.replicate 32 238

/-- No file of the directory has the byte. -/
def Sample.lacks (b : UInt8) (d : Dir) : Bool :=
  d.listing.all fun f =>
    match d.get f with
    | some (.file bytes _) => !bytes.contains b
    | _ => true

/-- In the transparent instance a ciphertext shows a byte of its key. -/
theorem Sample.foreign {b : UInt8} {key : Key} {d : Dir} (hkey : key.1[1]? = some b)
    (hlacks : lacks b d = true) : Foreign toy key d := by
  intro f _ bytes priv hget head nonce ct tail hbytes aad
  have hnot : b ∉ bytes := by
    have hmem : f ∈ d.listing := (d.mem_listing f).mpr (by rw [hget]; rfl)
    have := all_eq_true.mp hlacks f hmem
    simpa [hget] using this
  by_contra hdec
  apply hnot
  have hct : b ∈ ct := by
    simp only [toy] at hdec
    split at hdec
    · rename_i tag m hread
      split at hdec
      · rename_i htag
        rw [readBlock_eq_some hread]
        refine mem_append_left _ ?_
        rw [htag]
        have hlen : 1 < key.1.length := by
          rw [key.2]
          decide
        refine mem_of_getElem? (i := 2) ?_
        rw [toyTag, fit, getElem?_take_of_lt (by decide), cons_append,
          getElem?_cons_succ, getElem?_append_left hlen, hkey]
      · exact absurd rfl hdec
    · exact absurd rfl hdec
  rw [hbytes]
  simp [hct]

/-- The small store with a rekey that was cut off before its journal was written. -/
def Sample.staged : World :=
  withRecord.setStaging (.dir true { manifest := some (privateFile [1]) })

theorem Sample.holdsStore : HoldsStore staged.disk.home := by
  have hkey : (staged.disk.home.get .keyfile).isSome = true := by decide +kernel
  exact .inl hkey

theorem Sample.wrong : ∀ u, (Unlock.password wrongKey).derive toy = .ok u →
    WrongSecret toy u staged.disk := by
  have hhome : lacks 238 staged.disk.home = true := by decide +kernel
  have hstaged : lacks 238 { manifest := some (privateFile [1]) } = true := by decide +kernel
  have hkey : ∀ info : Bytes, (toy.hkdf wrongKey info).1[1]? = some 238 := fun _ => rfl
  intro u hu
  cases hu
  refine ⟨?_, ?_⟩
  · intro l d hd
    cases l with
    | home =>
      rw [dir?_home, some.injEq] at hd
      exact foreign (hkey _) (hd ▸ hhome)
    | staging =>
      have hdir : staged.disk.dir? .staging = some { manifest := some (privateFile [1]) } := rfl
      rw [hdir, some.injEq] at hd
      exact foreign (hkey _) (hd ▸ hstaged)
  · intro B hB
    cases hB
    exact ⟨foreign (hkey _) hhome, foreign (hkey _) hhome⟩

theorem staged_wrong_secret_refused :
    (∃ e, ((openAs Crypto.toy profile (.password wrongKey) true).run
      (machine Crypto.toy) (fun _ => .plain) staged).1 = .error e) ∧
    Untouched staged.disk ((openAs Crypto.toy profile (.password wrongKey)
      true).run (machine Crypto.toy) (fun _ => .plain) staged).2.disk ∧
    ∀ t ∈ (openAs Crypto.toy profile (.password wrongKey) true).crashStates
      (machine Crypto.toy) (fun _ => .plain) staged, Untouched staged.disk t.disk :=
  wrong_secret_refused Crypto.toy profile (.password wrongKey) true
    (fun _ => .plain) staged holdsStore wrong

/-- A staging directory without a journal is discarded before the secret is checked. -/
theorem staging_discarded_unauthenticated :
    HoldsStore staged.disk.home ∧
    (∀ u, (Unlock.password wrongKey).derive Crypto.toy = .ok u →
      WrongSecret Crypto.toy u staged.disk) ∧
    staged.disk.staging ≠ .absent ∧
    ((openStore Crypto.toy profile wrongKey).run (machine Crypto.toy)
      (fun _ => .plain) staged).2.disk.staging = .absent :=
  ⟨holdsStore, wrong, by decide +kernel, by decide +kernel⟩

end Powehi.Store
