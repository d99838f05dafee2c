import Powehi.Store.KeySlots
import Powehi.Store.Sessions

/-!
# Staging a new store

`stage` builds a second store in `rekey.new` with the records of the open one. The profile
directory and the memory of its handle are only read (`HomeKept`); at the end the staged store
is settled and shows the same records (`StagedStore`).
-/

namespace Powehi.Store

open Codec Semantics Program Disk Std.ExtTreeMap

variable {cr : Crypto} {A : Choice → Prop} {st fresh : ProfileStore} {N : Set Bytes}
  {s t : World} {d e : Dir} {F G : Map Bytes} {pw : PasswordKek} {rc : Option RecoveryKek}
variable {h₀ : Dir} {Q : Post Unit}

/-! ### Two stores on one disk -/

/-- The profile directory and the memory of its handle are as they were. -/
structure HomeKept (s t : World) : Prop where
  disk : t.disk.home = s.disk.home
  mem : t.mem .home = s.mem .home

theorem HomeKept.refl (s : World) : HomeKept s s := ⟨rfl, rfl⟩

theorem HomeKept.trans {r : World} (h : HomeKept r s) (h' : HomeKept s t) : HomeKept r t :=
  ⟨h'.disk.trans h.disk, h'.mem.trans h.mem⟩

theorem Disk.setDir_staging_home (k : Disk) (d : Dir) : (k.setDir .staging d).home = k.home := by
  obtain ⟨home, staging⟩ := k
  cases staging <;> rfl

/-- What happens elsewhere does not concern the handle on the profile directory. -/
theorem Ready.kept (h : Ready cr st N s d F) (hloc : st.loc = .home) (hk : HomeKept s t) :
    Ready cr st N t d F := by
  have hdir := h.dir
  have hmem := h.mem
  have hhealthy := h.healthy
  rw [hloc] at hdir hmem hhealthy
  refine ⟨?_, ?_, h.onDisk, ?_, ?_, h.bounded, h.names⟩
  · rw [hloc, dir?_home, hk.disk]
    exact hdir
  · rw [hloc]
    trivial
  · rw [hloc, hk.mem]
    exact hmem
  · rw [hloc, hk.mem]
    exact hhealthy

/-- A settled store in the staging directory, with its key file. -/
structure StagedStore (cr : Crypto) (fresh : ProfileStore) (pw : PasswordKek)
    (rc : Option RecoveryKek) (N : Set Bytes) (s : World) (e : Dir) (G : Map Bytes) : Prop where
  loc : fresh.loc = .staging
  settled : Settled cr fresh N s e G
  keyfile : ∃ kf : KeyFile, e.get .keyfile = some (privateFile kf.encode) ∧
    Slots cr fresh.profile fresh.bundle pw rc kf

/-- A mutation of the staged store. -/
theorem StagedStore.written {name : Bytes} {v : Option Bytes} {e' : Dir}
    (h : StagedStore cr fresh pw rc N s e G) (hw : Written cr fresh N name v s e G t e') :
    StagedStore cr fresh pw rc N t e' (G.update name v) ∧ HomeKept s t := by
  obtain ⟨kf, hget, hslots⟩ := h.keyfile
  have hkf := hw.same.sameRest.get .keyfile
  refine ⟨⟨h.loc, hw.toSettled, kf, hkf.trans hget, hslots⟩, ?_, ?_⟩
  · rw [hw.disk, h.loc, setDir_staging_home]
  · exact hw.others .home (by rw [h.loc]; exact nofun)

/-! ### Copying one record -/

theorem wp_restage {name : Bytes} (hA : FaultFree A) (hst : Ready cr st N s d F)
    (hS : StagedStore cr fresh pw rc N s e G) (hN : TagInjOn cr st N) (hN' : TagInjOn cr fresh N)
    (hI : InternalIn N) (hname : name ∈ visible F) (hs : s.disk.home = h₀)
    (ok : ∀ t e' G', StagedStore cr fresh pw rc N t e' G' → HomeKept s t →
      visible G' = (visible G).update name (visible F)[name]? → Q (.ok ()) t)
    (refused : ∀ err, Q (.error err) s) :
    wp (machine cr) A (restage cr st fresh name) Q (fun t => t.disk.home = h₀) s := by
  obtain ⟨M, hM⟩ := hst.onDisk
  obtain ⟨hin, hint⟩ := mem_visible.mp hname
  have hvalid := hM.holds.valid hin
  have hnameN := hst.names name hin
  obtain ⟨payload, hp⟩ := Option.isSome_iff_exists.mp
    (mem_iff_isSome_getElem?.mp hname)
  rw [restage, wp_bind]
  refine wp_get hst hN hnameN hvalid hint hs ?_ fun hA' => absurd hA hA'
  rw [hp]
  refine wp_putRecord_marked (K := fun k => k.home = h₀) hS.settled.toReady hN' hI hnameN hvalid hs
    (fun d' G' _ _ _ => ?_) refused (fun t e' G' hw => ?_) fun hA' => absurd hA hA'
  · rw [hS.loc, setDir_staging_home]
    exact hs
  · rcases hw with hw | hw
    · obtain - | ⟨hw, hnil⟩ := hw
      cases hnil
      obtain ⟨hS', hk⟩ := hS.written hw
      refine ok t e' _ hS' hk ?_
      rw [visible_update, hint, hp]
      rfl
    · -- the marker was written first
      obtain - | ⟨hw₁, hrest⟩ := hw
      obtain - | ⟨hw₂, hnil⟩ := hrest
      cases hnil
      obtain ⟨hS₁, hk₁⟩ := hS.written hw₁
      obtain ⟨hS₂, hk₂⟩ := hS₁.written hw₂
      refine ok t e' _ hS₂ (hk₁.trans hk₂) ?_
      rw [visible_update, hint, visible_update, isInternal_marker, hp]
      rfl

/-! ### Copying all of them -/

/-- The copy loop: the records `done` have been copied. -/
theorem wp_restageAll {l : List Bytes} (hA : FaultFree A) (hst : Ready cr st N s d F)
    (hloc : st.loc = .home) (hS : StagedStore cr fresh pw rc N s e G) (hN : TagInjOn cr st N)
    (hN' : TagInjOn cr fresh N) (hI : InternalIn N) (hl : ∀ n, n ∈ l ↔ n ∈ visible F)
    (hG : visible G = ∅) (hs : s.disk.home = h₀)
    (ok : ∀ t e' G', StagedStore cr fresh pw rc N t e' G' → HomeKept s t →
      visible G' = visible F → Q (.ok ()) t) (refused : ∀ err t, HomeKept s t → Q (.error err) t) :
    wp (machine cr) A (l.forM (restage cr st fresh)) Q (fun t => t.disk.home = h₀) s := by
  refine wp_forM (fun rest t => ∃ done e' G', l = done ++ rest ∧
    StagedStore cr fresh pw rc N t e' G' ∧ HomeKept s t ∧
    ∀ n, (visible G')[n]? = if n ∈ done then (visible F)[n]? else none) ?_ ?_
    ⟨[], e, G, rfl, hS, .refl s, fun n => by simp [hG]⟩
  · rintro name rest t ⟨done, e', G', hsplit, hS', hk, hdone⟩
    have hmem : name ∈ visible F := (hl name).mp (by simp [hsplit])
    refine wp_restage hA (hst.kept hloc hk) hS' hN hN' hI hmem (hk.disk.trans hs)
      (fun u e'' G'' hS'' hk' hvis => ?_) fun err => refused err t hk
    refine ⟨done ++ [name], e'', G'', by simpa using hsplit, hS'', hk.trans hk', fun n => ?_⟩
    rw [hvis, Map.getElem?_update, hdone n]
    by_cases hn : n = name
    · simp [hn]
    · simp [hn]
  · rintro t ⟨done, e', G', hsplit, hS', hk, hdone⟩
    rw [List.append_nil] at hsplit
    subst hsplit
    refine ⟨hk.disk.trans hs, ok t e' G' hS' hk ?_⟩
    apply ext_getElem?
    intro n
    rw [hdone n]
    split
    · rfl
    · rename_i hout
      rw [hl n] at hout
      rw [getElem?_eq_none hout]

/-- The handle `stage` opens on the staging directory. -/
def stagingHandle (st : ProfileStore) (bundle : Bundle) : ProfileStore :=
  { loc := .staging, profile := st.profile, bundle }

theorem wp_createStaging {C : World → Prop} (habs : s.disk.staging = .absent) (hs : C s)
    (ht : C (s.setStaging (.dir true {}))) (hQ : Q (.ok ()) (s.setStaging (.dir true {})))
    (failed : Faults A Q) : wp (machine cr) A (call .createStaging) Q C s := by
  have heff : ∀ c, Call.effect cr .createStaging c s = (.ok (), s.setStaging (.dir true {})) := by
    simp [Call.effect, habs, World.setStaging]
  exact wp_call_step heff hs ht hQ failed.here failed.here

/-- A recovery slot is added to the staged store if the phrase was entered. -/
theorem wp_wrapIfGiven {recovery : Option RecoveryKek} (hA : FaultFree A)
    (hS : StagedStore cr fresh pw none N s e G) (hs : s.disk.home = h₀)
    (ok : ∀ t e', StagedStore cr fresh pw recovery N t e' G → HomeKept s t → Q (.ok ()) t) :
    wp (machine cr) A (wrapIfGiven fresh recovery) Q (fun t => t.disk.home = h₀) s := by
  cases recovery with
  | none => exact ⟨hs, ok s e hS (.refl s)⟩
  | some key =>
    obtain ⟨kf, hget, hslots⟩ := hS.keyfile
    have hhome : ∀ d', (s.disk.setDir fresh.loc d').home = h₀ := fun d' => by
      rw [hS.loc, setDir_staging_home]
      exact hs
    refine wp_addRecoveryWrap (K := fun k => k.home = h₀) hS.settled.dir hS.settled.isPrivate hget
      hslots.wellFormed hs (fun n => hhome _) (fun n x _ => ?_) fun hA' => absurd hA hA'
    refine ok _ _ ⟨hS.loc, hS.settled.set_keyfile x _, _, Dir.get_set_self .., ?_⟩
      ⟨(hhome _).trans hs.symm, rfl⟩
    exact hslots.withRecovery key n

/-- Staging leaves the profile directory alone; if it succeeds, the staged store is complete. -/
theorem wp_stage {exportKey : Bytes} {recovery : Option RecoveryKek} {Q : Post (List Bytes)}
    (hA : FaultFree A) (hN' : ∀ c, A c → TagInjOn cr (handle st.profile c.bundle) N)
    (hI : InternalIn N) (hst : Ready cr st N s d F) (hloc : st.loc = .home) (hN : TagInjOn cr st N)
    (hpw : PasswordKek.new cr exportKey = .ok pw) (ok : ∀ c t e G staged, A c →
      StagedStore cr (stagingHandle st c.bundle) pw recovery N t e G → visible G = visible F →
      Scanned e staged → HomeKept s t → Q (.ok staged) t)
    (refused : ∀ err t, HomeKept s t → Q (.error err) t) :
    wp (machine cr) A (stage cr st exportKey recovery)
      Q (fun t => t.disk.home = s.disk.home) s := by
  have hno : ∀ {P : Prop}, ¬FaultFree A → P := fun hA' => absurd hA hA'
  rw [stage, wp_bind]
  refine wp_removeStaging (K := fun k => k.home = s.disk.home) (fun _ => rfl) ?_ fun hA' => hno hA'
  rw [andThen_bind]
  refine wp_createStaging rfl rfl rfl ?_ fun hA' => hno hA'
  rw [andThen_bind]
  refine wp_checkPrivateDir ⟨{}, rfl⟩ rfl ?_ fun hA' => hno hA'
  rw [andThen_bind]
  refine wp_fillBundle rfl (fun c hc => ?_) fun hA' => hno hA'
  rw [andThen_bind, build, wp_bind]
  refine wp_modifyMem rfl rfl ?_
  refine ⟨rfl, ?_⟩
  rw [andThen_bind, hpw]
  refine ⟨rfl, ?_⟩
  rw [andThen_bind]
  change wp (machine cr) A (start cr (stagingHandle st c.bundle) (.fresh pw)) _ _
    ((s.setStaging (.dir true {})).setMem .staging {})
  have hNf : TagInjOn cr (stagingHandle st c.bundle) N := (hN' c hc).of_keys rfl
  refine wp_start_fresh (K := fun k => k.home = s.disk.home) rfl ⟨{}, rfl⟩
    (by simp [stagingHandle]) blank_empty hNf hI rfl
    (fun nonce d' G _ _ _ => setDir_staging_home _ _) (fun nonce x t₁ e₁ _ hl => ?_)
    fun hA' => hno hA'
  -- the staged store exists; from here on it only grows
  have hS₁ : StagedStore cr (stagingHandle st c.bundle) pw none N t₁ e₁ (latched ∅) := by
    refine ⟨rfl, hl.settled, newKeyfile cr (stagingHandle st c.bundle) pw nonce, ?_,
      slots_newKeyfile pw nonce⟩
    rw [hl.rest.get _, Dir.withKeyfile, Dir.get_set_self]
  have hk₁ : HomeKept s t₁ := by
    refine ⟨?_, ?_⟩
    · rw [hl.disk]
      exact (setDir_staging_home _ _).trans (setDir_staging_home _ _)
    · rw [hl.others .home (by simp [stagingHandle])]
      have hne : Loc.home ≠ .staging := by simp
      exact World.setMem_mem_of_ne (s.setStaging (.dir true {})) {} hne
  rw [andThen_bind]
  refine wp_wrapIfGiven hA hS₁ hk₁.disk fun t₂ e₂ hS₂ hk₂ => ?_
  have hk₂ := hk₁.trans hk₂
  rw [andThen_bind]
  refine wp_getMem hk₂.disk ?_
  -- what is left after the marker
  have hcopy : ∀ t₃ e₃ G₃, StagedStore cr (stagingHandle st c.bundle) pw recovery N t₃ e₃ G₃ →
      HomeKept s t₃ → visible G₃ = ∅ →
      wp (machine cr) A (names st >>= fun records =>
        (records.insertionSort fun a b => tagLE cr (stagingHandle st c.bundle).bundle.name a b).forM
          (restage cr st (stagingHandle st c.bundle)) >>= fun _ =>
        tags .staging >>= fun staged => call (.syncDir .staging) >>= fun _ => .pure staged) Q
        (fun t => t.disk.home = s.disk.home) t₃ := by
    intro t₃ e₃ G₃ hS₃ hk₃ hG₃
    rw [wp_bind]
    refine wp_names (hst.kept hloc hk₃) hk₃.disk (fun l hmem => ?_) fun hA' => hno hA'
    rw [andThen_bind]
    refine wp_restageAll hA (hst.kept hloc hk₃) hloc hS₃ hN hNf hI
      (fun n => (List.mem_insertionSort _).trans (hmem n)) hG₃ hk₃.disk
      (fun t₄ e₄ G₄ hS₄ hk₄ hvis => ?_) fun err t hk => refused err t (hk₃.trans hk)
    have hk₄ := hk₃.trans hk₄
    have hd₄ : t₄.disk.dir? .staging = some e₄ := hS₄.settled.dir
    rw [andThen_bind]
    refine wp_tags hd₄ hk₄.disk (fun staged hscan _ => ?_) fun err _ => refused err t₄ hk₄
    rw [andThen_bind]
    refine wp_syncDir hd₄ hk₄.disk ?_ fun hA' => hno hA'
    exact ⟨hk₄.disk, ok c t₄ e₄ G₄ staged hc hS₄ hvis hscan hk₄⟩
  have hempty : visible (latched ∅) = ∅ := by
    rw [visible_latched, visible_empty]
  rw [andThen_bind]
  refine wp_onlyIf (fun _ => ?_) fun _ => ⟨hk₂.disk, hcopy t₂ e₂ _ hS₂ hk₂ hempty⟩
  refine wp_putRecord_internal (K := fun k => k.home = s.disk.home) hS₂.settled.toReady hNf hI.1
    isInternal_marker validRecordName_marker hk₂.disk
    (fun d' _ _ => (setDir_staging_home _ _).trans hk₂.disk) (fun t₃ e₃ hw => ?_)
    fun hA' => hno hA'
  obtain ⟨hS₃, hk₃⟩ := hS₂.written hw
  refine hcopy t₃ e₃ _ hS₃ (hk₂.trans hk₃) ?_
  rw [visible_update, isInternal_marker]
  exact hempty

end Powehi.Store
