import Powehi.Store.Contents

/-!
# Control flow and single file operations

Weakest-precondition rules for the control flow of store programs, and for the operations
that touch one file: committing a manifest, hashing a record, reading the key file.

Crash conditions here are about the disk alone: `K` holds of the disk at every point at
which the program can be cut off.
-/

namespace Powehi.Store

open Codec Semantics Program

variable {cr : Crypto} {A : Choice → Prop} {α : Type}
variable {Q : Post Unit} {st : ProfileStore}
variable {C : World → Prop} {s : World}

/-! ### Control flow -/

theorem wp_require {b : Bool} {e : StoreError} (hs : C s) (ok : b = true → Q (.ok ()) s)
    (refused : b = false → Q (.error e) s) : wp (machine cr) A (require b e) Q C s := by
  cases b with
  | true => exact ⟨hs, ok rfl⟩
  | false => exact ⟨hs, refused rfl⟩

theorem wp_onlyIf {b : Bool} {p : StoreM Unit} (run : b = true → wp (machine cr) A p Q C s)
    (skip : b = false → C s ∧ Q (.ok ()) s) : wp (machine cr) A (onlyIf b p) Q C s := by
  cases b with
  | true => exact run rfl
  | false => exact skip rfl

/-- A missing file counts as a success without a value. -/
def absentAsNone : Except StoreError α → Except StoreError (Option α)
  | .ok a => .ok (some a)
  | .error (.io .notFound) => .ok none
  | .error e => .error e

theorem absentAsNone_error {e : StoreError} (h : e ≠ .io .notFound) :
    (absentAsNone (.error e) : Except StoreError (Option α)) = .error e := by
  unfold absentAsNone
  split
  · rename_i heq
    cases heq
  · rename_i heq
    cases heq
    exact absurd rfl h
  · rename_i heq
    cases heq
    rfl

theorem wp_ifPresent {p : StoreM α} {Q : Post (Option α)}
    (h : wp (machine cr) A p (fun r t => C t ∧ Q (absentAsNone r) t) C s) :
    wp (machine cr) A (ifPresent p) Q C s := by
  rw [ifPresent, wp_bind, wp_attempt]
  refine wp_mono (fun r t hr => ?_) (fun _ ht => ht) h
  unfold absentAsNone at hr
  split at hr <;> simp_all

/-- Where the staging directory is looked up, it is found as it is. -/
theorem wp_statStaging {Q : Post (Option Bool)} (hs : C s)
    (absent : s.disk.staging = .absent → Q (.ok none) s)
    (notDir : s.disk.staging = .notDir → Q (.ok (some false)) s)
    (dir : ∀ priv d, s.disk.staging = .dir priv d → Q (.ok (some true)) s)
    (failed : ¬FaultFree A → ∀ e, Q (.error e) s) :
    wp (machine cr) A (ifPresent (call .statStaging)) Q C s := by
  refine wp_ifPresent ?_
  cases hstg : s.disk.staging with
  | absent =>
    have hstat : ∀ c, Call.effect cr .statStaging c s = (.error (.io .notFound), s) := by
      simp [Call.effect, hstg]
    exact wp_call_look hstat hs ⟨hs, absent hstg⟩ fun hA => ⟨hs, failed hA _⟩
  | notDir =>
    have hstat : ∀ c, Call.effect cr .statStaging c s = (.ok false, s) := by
      simp [Call.effect, hstg]
    exact wp_call_look hstat hs ⟨hs, notDir hstg⟩ fun hA => ⟨hs, failed hA _⟩
  | dir priv d =>
    have hstat : ∀ c, Call.effect cr .statStaging c s = (.ok true, s) := by
      simp [Call.effect, hstg]
    exact wp_call_look hstat hs ⟨hs, dir priv d hstg⟩ fun hA => ⟨hs, failed hA _⟩

theorem wp_named {tag : Bytes} {p : StoreM α} {Q : Post α}
    (h : wp (machine cr) A p (fun r t => C t ∧ Q (r.mapError (.record tag)) t) C s) :
    wp (machine cr) A (named tag p) Q C s := by
  rw [named, wp_bind, wp_attempt]
  refine wp_mono (fun r t hr => ?_) (fun _ ht => ht) h
  cases r with
  | ok _ | error _ => exact hr

/-! ### Reading files -/

section Reading

variable {K : Disk → Prop} {l : Loc} {d : Dir} {f : FileName} {b : Bytes}

theorem wp_readPrivateFile {max : ℕ} {tooBig : StoreError} {Q : Post Bytes}
    (hd : s.disk.dir? l = some d) (hf : d.get f = some (privateFile b)) (hmax : b.length ≤ max)
    (hs : C s) (hQ : Q (.ok b) s) (failed : ¬FaultFree A → Q (.error (.io .other)) s) :
    wp (machine cr) A (readPrivateFile l f max tooBig) Q C s := by
  rw [readPrivateFile, wp_bind]
  refine wp_read hd hf hs ?_ failed
  simp only [andThen_ok, privateFile, Nat.not_lt.mpr hmax, gt_iff_lt, if_false]
  exact ⟨hs, hQ⟩

/-- A file that is not there. -/
theorem wp_readPrivateFile_absent {max : ℕ} {tooBig : StoreError} {Q : Post Bytes}
    (hd : s.disk.dir? l = some d) (hf : d.get f = none) (hs : C s)
    (hQ : Q (.error (.io .notFound)) s) (failed : ¬FaultFree A → Q (.error (.io .other)) s) :
    wp (machine cr) A (readPrivateFile l f max tooBig) Q C s := by
  rw [readPrivateFile, wp_bind]
  exact wp_read_absent hd hf hs hQ failed

theorem wp_fileHash {tag : Bytes} {Q : Post (Option Digest)}
    (hd : s.disk.dir? st.loc = some d) (hplain : Plain (d.get (.record tag))) (hs : C s)
    (hQ : Q (.ok (entryHash cr (d.get (.record tag)))) s)
    (failed : ¬FaultFree A → Q (.error (.io .other)) s) :
    wp (machine cr) A (fileHash cr st tag) Q C s := by
  rw [fileHash, wp_bind]
  refine wp_ifPresent ?_
  cases hget : d.get (.record tag) with
  | none =>
    rw [hget] at hQ
    exact wp_read_absent hd hget hs ⟨hs, hs, hQ⟩ fun hA => ⟨hs, failed hA⟩
  | some e =>
    obtain ⟨b, rfl, hlen⟩ := hplain e hget
    rw [hget] at hQ
    refine wp_read hd hget hs ⟨hs, ?_⟩ fun hA => ⟨hs, failed hA⟩
    simp only [absentAsNone, andThen_ok, privateFile, Nat.not_lt.mpr hlen, gt_iff_lt, if_false]
    exact ⟨hs, hQ⟩

end Reading

/-! ### Committing a manifest -/

/-- `x` is the use of the AEAD that sealed `M` into `blob`. -/
def SealsManifest (cr : Crypto) (st : ProfileStore) (M : Manifest) (x : Seal) (blob : Bytes) :
    Prop :=
  ∃ plain nonce, M.encode = .ok plain ∧
    x = ⟨st.bundle.manifest, nonce, manifestAad st.profile, plain⟩ ∧
    blob = manifestMagic ++ nonce.1 ++
      cr.encrypt st.bundle.manifest nonce (manifestAad st.profile) plain

theorem SealsManifest.isBlob {M : Manifest} {x : Seal} {blob : Bytes}
    (h : SealsManifest cr st M x blob) : M.IsBlob cr st.bundle.manifest st.profile blob := by
  obtain ⟨plain, nonce, hplain, -, hblob⟩ := h
  exact ⟨plain, nonce, hplain, hblob⟩

/-- The world after a manifest was sealed and written, and adopted in memory. -/
def World.committed (s : World) (st : ProfileStore) (d : Dir) (next : Manifest) (x : Seal)
    (blob : Bytes) : World :=
  ((s.log x).setDir st.loc (d.set .manifest (some (privateFile blob)))).setMem st.loc
    { s.mem st.loc with manifest := next }

section Committed

variable (s : World) (st : ProfileStore) (d : Dir) (next : Manifest) (x : Seal) (blob : Bytes)

@[simp] theorem World.committed_disk : (s.committed st d next x blob).disk =
    s.disk.setDir st.loc (d.withManifest blob) := rfl

@[simp] theorem World.committed_mem : (s.committed st d next x blob).mem st.loc =
    { s.mem st.loc with manifest := next } := by
  simp [committed]

theorem World.committed_mem_of_ne {l : Loc} (h : l ≠ st.loc) :
    (s.committed st d next x blob).mem l = s.mem l := by
  simp [committed, World.setMem_mem_of_ne _ _ h]

end Committed

theorem wp_commitManifest {K : Disk → Prop} {d : Dir} {next : Manifest} {durable : Bool}
    (hd : s.disk.dir? st.loc = some d) (hdir : d.get .manifest ≠ some .dir) (hwf : next.WellFormed)
    (hK : K s.disk) (hK' : ∀ blob, next.IsBlob cr st.bundle.manifest st.profile blob →
      K (s.disk.setDir st.loc (d.withManifest blob)))
    (hQ : ∀ x blob, SealsManifest cr st next x blob → Q (.ok ()) (s.committed st d next x blob))
    (failed : ¬FaultFree A → ∀ e t, t.mem = s.mem →
      (t.disk = s.disk ∨ ∃ blob, next.IsBlob cr st.bundle.manifest st.profile blob ∧
        t.disk = s.disk.setDir st.loc (d.withManifest blob)) →
      Q (.error e) t) :
    wp (machine cr) A (commitManifest st next durable) Q (fun t => K t.disk) s := by
  obtain ⟨plain, hplain, -, -⟩ := Manifest.decode_encode hwf
  rw [commitManifest, wp_bind, Manifest.sealBlob, wp_bind, hplain]
  refine ⟨hK, ?_⟩
  rw [andThen_bind]
  refine wp_fillNonce hK (fun nonce => ?_) fun hA => failed hA _ _ rfl (.inl rfl)
  rw [andThen_bind]
  refine wp_encrypt hK hK ?_ (fun hA => failed hA _ _ rfl (.inl rfl))
    fun hA => failed hA _ _ rfl (.inl rfl)
  have hseal : SealsManifest cr st next ⟨st.bundle.manifest, nonce, manifestAad st.profile, plain⟩
      (manifestMagic ++ nonce.1 ++
        cr.encrypt st.bundle.manifest nonce (manifestAad st.profile) plain) :=
    ⟨plain, nonce, hplain, rfl, rfl⟩
  refine ⟨hK, ?_⟩
  rw [andThen_bind]
  -- from here on the manifest file has been sealed
  generalize manifestMagic ++ nonce.1 ++
    cr.encrypt st.bundle.manifest nonce (manifestAad st.profile) plain = blob at hseal ⊢
  have hafter := hK' blob hseal.isBlob
  refine wp_replace hd hdir hK hafter ?_ (fun hA => failed hA _ _ rfl (.inl rfl))
    fun hA => failed hA _ _ rfl (.inr ⟨blob, hseal.isBlob, rfl⟩)
  have hd' : (s.disk.setDir st.loc (d.withManifest blob)).dir? st.loc =
      some (d.withManifest blob) := Disk.dir?_setDir hd _
  rw [andThen_bind]
  refine wp_onlyIf (fun _ => ?_) fun _ => ⟨hafter, ?_⟩
  · refine wp_syncDir hd' hafter ?_ fun hA => failed hA _ _ rfl (.inr ⟨blob, hseal.isBlob, rfl⟩)
    rw [andThen_ok]
    exact wp_modifyMem hafter hafter (hQ _ blob hseal)
  · rw [andThen_ok]
    exact wp_modifyMem hafter hafter (hQ _ blob hseal)

end Powehi.Store
