import Powehi.Store.ManifestFormat
import Powehi.Store.Sessions

/-!
# Settling a mutation in flight

Verification leaves one freedom: the record that a mutation in flight was changing may be in its
old or in its new state. When a store is opened in that state, the manifest is rewritten to list
the files as they are, after a delete in flight was completed.
-/

namespace Powehi.Store

open Codec Semantics Program Std.ExtTreeMap Sample

variable {cr : Crypto} {st : ProfileStore} {A : Choice → Prop} {s : World} {d : Dir}
  {M : Manifest} {p : Pending}

/-- The files are those listed, or those listed with the record in flight in its old state. -/
theorem Manifest.verify_ok_iff_update {found : Map Digest} :
    M.verify found = .ok () ↔ found = M.entries ∨
      ∃ p, M.pending = some p ∧ found = M.entries.update p.tag p.old := by
  rw [Manifest.verify_ok_iff]
  constructor
  · intro h
    by_cases hall : ∀ tag : Bytes, found[tag]? = M.entries[tag]?
    · exact .inl (ext_getElem? fun {tag} => hall tag)
    · -- the tag that differs is the one in flight
      push Not at hall
      obtain ⟨tag, hne⟩ := hall
      have hp := (h tag).resolve_left hne
      refine .inr ⟨_, hp, ?_⟩
      apply ext_getElem?
      intro k
      rw [Map.getElem?_update]
      split
      · rename_i hk
        rw [hk]
      · rename_i hk
        refine (h k).resolve_right ?_
        intro hp'
        rw [hp] at hp'
        cases hp'
        exact hk rfl
  · rintro (rfl | ⟨p, hp, rfl⟩) tag
    · exact .inl rfl
    · rw [Map.getElem?_update]
      split
      · rename_i htag
        rw [htag]
        exact .inr hp
      · exact .inl rfl

/-- A manifest read from a file is well formed. -/
theorem ManifestOn.wellFormed (h : ManifestOn cr st d M) : M.WellFormed := by
  obtain ⟨blob, -, -, hopen⟩ := h
  obtain ⟨nonce, ct, plain, -, -, hdec⟩ := Manifest.openBlob_ok hopen
  exact Manifest.decode_wellFormed hdec

/-- From the directory `d`, with `M` on disk and `p` in flight, the handle came to a manifest that
lists the record files and has nothing in flight. A delete in flight is complete, and all other
files but the manifest are as before. -/
structure Settles (cr : Crypto) (st : ProfileStore) (M : Manifest) (p : Pending) (d : Dir)
    (t : World) (d' : Dir) : Prop where
  dir : t.disk.dir? st.loc = some d'
  pending : (t.mem st.loc).manifest.pending = none
  entries : (t.mem st.loc).manifest.entries = hashes cr d'
  manifest : ManifestOn cr st d' (t.mem st.loc).manifest
  deleted : p.tag ∉ M.entries → d'.get (.record p.tag) = none
  kept : ∀ f ≠ .manifest, (f = .record p.tag → p.tag ∈ M.entries) → d'.get f = d.get f

/-- Writing the manifest of a directory in which nothing is left to delete. -/
theorem wp_commitListed {generation : UInt64} {d₁ : Dir} {Q : Post Unit}
    (hd : s.disk.dir? st.loc = some d₁) (hdir : d₁.get .manifest ≠ some .dir)
    (hsize : (hashes cr d₁).size ≤ maxRecords + 2)
    (hdeleted : p.tag ∉ M.entries → d₁.get (.record p.tag) = none)
    (hkept : ∀ f ≠ .manifest, (f = .record p.tag → p.tag ∈ M.entries) → d₁.get f = d.get f)
    (ok : ∀ t d', Settles cr st M p d t d' → Q (.ok ()) t) (failed : Faults A Q) :
    wp (machine cr) A (commitManifest st { generation, entries := hashes cr d₁ } true) Q
      (fun _ => True) s := by
  have hwf : Manifest.WellFormed { generation, entries := hashes cr d₁ } :=
    ⟨fun tag htag => isTag_of_mem_hashes htag, nofun, hsize⟩
  refine wp_commitManifest (K := fun _ => True) hd hdir hwf trivial (fun _ _ => trivial) ?_
    fun hA e t _ _ => failed hA e t
  intro x blob hseal
  apply ok _ (d₁.withManifest blob)
  have hother : ∀ f ≠ .manifest, (d₁.withManifest blob).get f = d₁.get f :=
    fun f hf => d₁.get_set_of_ne _ hf
  constructor
  · exact Disk.dir?_setDir hd _
  · rw [World.committed_mem]
  · rw [World.committed_mem, hashes_set_of_ne _ _ (by simp)]
  · rw [World.committed_mem]
    exact .of_blob hseal.isBlob hwf d₁
  · intro hout
    rw [hother _ (by simp), hdeleted hout]
  · intro f hf hkeep
    rw [hother f hf, hkept f hf hkeep]

/-- Settling ends with the manifest of the files on disk, and fails only with a call. -/
theorem wp_settlePending {G : Map Bytes} {Q : Post Unit} (hd : s.disk.dir? st.loc = some d)
    (hM : ManifestOn cr st d M) (hp : M.pending = some p) (hG : Holds cr st d G)
    (hsize : (hashes cr d).size ≤ maxRecords + 2)
    (ok : ∀ t d', Settles cr st M p d t d' → Q (.ok ()) t) (failed : Faults A Q) :
    wp (machine cr) A (settlePending cr st M p (hashes cr d)) Q (fun _ => True) s := by
  have hist : isTag p.tag = true := hM.wellFormed.pending p hp
  rw [settlePending, wp_bind, finishDelete]
  split
  · -- a delete in flight whose file is still there
    rename_i hdel
    simp only [Bool.and_eq_true, Bool.not_eq_true', ← Bool.not_eq_true, contains_iff_mem] at hdel
    obtain ⟨hout, hin⟩ := hdel
    obtain ⟨n, hn, htag⟩ := hG.name_of_mem_hashes hin
    obtain ⟨blob, hget, -, -⟩ := hG.file n _ (getElem?_eq_some_getElem hn)
    rw [htag] at hget
    have herase : (hashes cr d).erase p.tag = hashes cr (d.set (.record p.tag) none) := by
      rw [hashes_set_record d none hist]
      rfl
    rw [wp_bind]
    refine wp_removeFile hd hget (by simp [privateFile]) trivial trivial ?_ failed.here failed.here
    rw [andThen_bind]
    refine wp_modifyMem trivial trivial ?_
    rw [andThen_bind]
    refine wp_syncDir (Disk.dir?_setDir hd _) trivial ?_ failed.here
    refine ⟨trivial, ?_⟩
    rw [herase]
    refine wp_commitListed (Disk.dir?_setDir hd _) ?_ ?_ ?_ ?_ ok failed
    · exact hM.ne_dir
    · rw [← herase]
      exact size_erase_le.trans hsize
    · intro _
      exact d.get_set_self _ _
    · intro f _ hkeep
      refine d.get_set_of_ne _ ?_
      intro hf
      exact hout (hkeep hf)
  · -- nothing is left to delete
    rename_i hdel
    simp only [Bool.and_eq_true, Bool.not_eq_true', ← Bool.not_eq_true,
      contains_iff_mem, not_and] at hdel
    refine ⟨trivial, ?_⟩
    refine wp_commitListed hd hM.ne_dir hsize ?_ (fun _ _ _ => rfl) ok failed
    intro hout
    by_contra hsome
    obtain ⟨n, hn, htag⟩ := hG.name p.tag hist (Option.isSome_iff_ne_none.mpr hsome)
    exact hdel hout (htag ▸ hG.tag_mem_hashes hn)

/-- Verification accepts exactly the two states of the mutation in flight. From the files as they
were loaded, settling succeeds unless a call fails, and ends with a manifest that has nothing in
flight and lists the record files then on disk; a delete in flight is complete. -/
theorem pending_settled :
    (∀ (M : Manifest) (found : Map Digest), M.verify found = .ok () ↔
      found = M.entries ∨ ∃ p, M.pending = some p ∧ found = M.entries.update p.tag p.old) ∧
    ∀ (cr : Crypto) (st : ProfileStore) (s s₁ t : World) (d : Dir) (found : Map Digest)
      (M : Manifest) (p : Pending) (f g : ℕ → Choice) (r : Except StoreError Unit),
      s.disk.dir? st.loc = some d → s.disk.Private st.loc →
      (loadIndex cr st).run (machine cr) f s = (.ok found, s₁) →
      ManifestOn cr st d M → M.verify found = .ok () → M.pending = some p →
      (settlePending cr st M p found).run (machine cr) g s₁ = (r, t) →
      (r = .ok () → ∃ d', Settles cr st M p d t d') ∧
        ((∀ n, (g n).fault = none) → r = .ok ()) := by
  refine ⟨fun M found => Manifest.verify_ok_iff_update, ?_⟩
  intro cr st s s₁ t d found M p f g r hd hpriv hload hM _ hp hsettle
  -- what loading found is what the directory holds
  obtain ⟨hfound, hd₁, G, hG, hsize⟩ : found = hashes cr d ∧ s₁.disk.dir? st.loc = some d ∧
      ∃ G, Holds cr st d G ∧ (hashes cr d).size ≤ maxRecords + 2 := by
    have hpost := wp_outcome (A := fun _ => True)
      (wp_loadIndex (K := fun _ => True)
        (Q := fun r t => r = .ok found → found = hashes cr d ∧ t.disk.dir? st.loc = some d ∧
          ∃ G, Holds cr st d G ∧ (hashes cr d).size ≤ maxRecords + 2) hd hpriv trivial
        (fun G index hG _ hsize hr => ⟨(Except.ok.inj hr).symm, hd, G, hG, hsize⟩)
        fun e _ => nofun) (fun _ => trivial) hload
    exact hpost rfl
  subst hfound
  constructor
  · have hpost := wp_outcome (A := fun _ => True)
      (wp_settlePending (Q := fun r t => r = .ok () → ∃ d', Settles cr st M p d t d') hd₁ hM hp hG
        hsize (fun t d' ht _ => ⟨d', ht⟩) fun _ e t => nofun) (fun _ => trivial) hsettle
    exact hpost
  · intro hg
    have hA : FaultFree fun c : Choice => c.fault = none := fun c hc => hc
    have hpost := wp_outcome
      (wp_settlePending (Q := fun r _ => r = .ok ()) hd₁ hM hp hG hsize (fun _ _ _ => rfl)
        fun hbad => absurd hA hbad) hg hsettle
    exact hpost

/-- The small store, cut off while it deletes a record: the manifest says so, and the file is still
there. -/
def Sample.removing : World :=
  (((remove Crypto.toy handle (ascii "a")).crashStates (machine Crypto.toy)
    (fun _ => .plain) withRecord)[8]?).getD .blank

/-- The manifest file of the small store at that point. -/
def Sample.removingBlob : Bytes :=
  match removing.disk.home.get .manifest with
  | some (.file b _) => b
  | _ => []

/-- What the manifest file opens to. -/
def Sample.removingManifest : Manifest :=
  (Manifest.openBlob Crypto.toy handle.bundle.manifest handle.profile
    removingBlob).toOption.getD default

/-- The deletion that was cut off is completed. -/
theorem removal_settled : ∃ p t d', removingManifest.pending = some p ∧
    p.tag ∉ removingManifest.entries ∧
    Settles Crypto.toy Sample.handle Sample.removingManifest p Sample.removing.disk.home t d' := by
  have hfile : removing.disk.home.get .manifest = some (privateFile removingBlob) ∧
      removingBlob.length ≤ Manifest.maxBlobLen := by decide +kernel
  have hopen : Manifest.openBlob Crypto.toy Sample.handle.bundle.manifest Sample.handle.profile
      removingBlob = .ok removingManifest := by decide +kernel
  have hload : ((loadIndex Crypto.toy Sample.handle).run (machine Crypto.toy) (fun _ => .plain)
      removing).1 = .ok (hashes Crypto.toy removing.disk.home) := by decide +kernel
  have hverify : removingManifest.verify (hashes Crypto.toy removing.disk.home) =
      .ok () := by decide +kernel
  have hpending : ∃ p ∈ removingManifest.pending, p.tag ∉ removingManifest.entries := by
    decide +kernel
  obtain ⟨p, hp, hout⟩ := hpending
  -- stated for any world, so that the sample is not evaluated again
  have hsettled : ∀ (w : World) (M : Manifest), ManifestOn Crypto.toy Sample.handle w.disk.home M →
      ((loadIndex Crypto.toy Sample.handle).run (machine Crypto.toy) (fun _ => .plain) w).1 =
        .ok (hashes Crypto.toy w.disk.home) →
      M.verify (hashes Crypto.toy w.disk.home) = .ok () → M.pending = some p →
      ∃ t d', Settles Crypto.toy Sample.handle M p w.disk.home t d' := by
    intro w M hM hload hverify hp
    obtain ⟨hset, hok⟩ := pending_settled.2 Crypto.toy Sample.handle w _ _ w.disk.home _ M p
      (fun _ => .plain) (fun _ => .plain) _ rfl trivial (Prod.ext hload rfl) hM hverify hp rfl
    obtain ⟨d', hd'⟩ := hset (hok fun _ => rfl)
    exact ⟨_, d', hd'⟩
  obtain ⟨t, d', ht⟩ := hsettled removing removingManifest
    ⟨_, hfile.1, hfile.2, hopen⟩ hload hverify hp
  exact ⟨p, t, d', hp, hout, ht⟩

end Powehi.Store
