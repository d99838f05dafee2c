import Powehi.Semantics.Trace
import Powehi.Store.Opening

/-!
# Sessions

A profile over time: `open`, `put` and `remove` calls, each of which runs to its end or is cut
off between two operations. A crash loses the handle; the disk stays.

The specification is a map of user-visible records on which a completed call acts at once and
a call that was cut off acts or does not act.
-/

namespace Powehi.Store

open Codec Semantics Program List Crypto

variable {cr : Crypto} {A : Choice → Prop} {C : World → Prop} {st : ProfileStore} {N : Set Bytes}
  {s : World} {d : Dir} {F : Map Bytes} {name : Bytes}

/-! ### Reading -/

theorem mem_visible {n : Bytes} : n ∈ visible F ↔ n ∈ F ∧ isInternal n = false := by
  rw [Std.ExtTreeMap.mem_iff_isSome_getElem?, getElem?_visible]
  cases isInternal n <;> simp

theorem wp_names {Q : Post (List Bytes)} (h : Ready cr st N s d F) (hs : C s)
    (hQ : ∀ l : List Bytes, (∀ n, n ∈ l ↔ n ∈ visible F) → Q (.ok l) s)
    (failed : ¬FaultFree A → ∀ e, Q (.error e) s) : wp (machine cr) A (names st) Q C s := by
  rw [names, wp_bind]
  refine wp_checkPrivateDir h.isPrivate hs ?_ fun hA => failed hA _
  rw [andThen_bind]
  refine wp_getMem hs ⟨hs, hQ _ fun n => ?_⟩
  rw [mem_filter, Std.ExtTreeSet.mem_toList, h.mem.index, mem_visible]
  simp

theorem wp_readBlob_absent {f : FileName} {magic label : Bytes} {Q : Post (Bytes × Digest)}
    (hd : s.disk.dir? st.loc = some d) (hf : d.get f = none) (hs : C s)
    (hQ : Q (.error (.io .notFound)) s) (failed : ¬FaultFree A → Q (.error (.io .other)) s) :
    wp (machine cr) A (readBlob cr st f magic label) Q C s := by
  rw [readBlob, wp_bind]
  exact wp_read_absent hd hf hs hQ failed

/-- The file of a name that is not there is not there. -/
theorem Ready.record_absent (h : Ready cr st N s d F) (hN : TagInjOn cr st N) (hname : name ∈ N)
    (hout : name ∉ F) : d.get (.record (st.tag cr name)) = none := by
  obtain ⟨M, hM⟩ := h.onDisk
  cases hget : d.get (.record (st.tag cr name)) with
  | none => rfl
  | some e =>
    obtain ⟨n, hn, htag⟩ := hM.holds.name _ (isTag_tagOf ..) (by rw [hget]; rfl)
    rw [hN n (h.names n hn) name hname htag] at hn
    exact absurd hn hout

theorem wp_get {Q : Post (Option Bytes)} (h : Ready cr st N s d F) (hN : TagInjOn cr st N)
    (hname : name ∈ N) (hvalid : validRecordName name = true) (hint : isInternal name = false)
    (hs : C s) (hQ : Q (.ok (visible F)[name]?) s) (failed : ¬FaultFree A → ∀ e, Q (.error e) s) :
    wp (machine cr) A (get cr st name) Q C s := by
  obtain ⟨M, hM⟩ := h.onDisk
  have hvis : (visible F)[name]? = F[name]? := by
    rw [getElem?_visible, hint]
    rfl
  rw [hvis] at hQ
  rw [get, wp_bind, validateRecordName, if_pos hvalid]
  refine ⟨hs, ?_⟩
  rw [andThen_bind]
  refine wp_require hs (fun _ => ?_) fun hbad => by simp [hint] at hbad
  rw [andThen_bind]
  refine wp_checkPrivateDir h.isPrivate hs ?_ fun hA => failed hA _
  rw [andThen_bind]
  refine wp_getMem hs ?_
  rw [andThen_bind, wp_attempt]
  have hentries : (s.mem st.loc).manifest.entries[st.tag cr name]? =
      entryHash cr (d.get (.record (st.tag cr name))) := by
    rw [h.mem.entries, getElem?_hashes, if_pos (isTag_tagOf ..)]
  -- a file that is missing must not be listed, and one that is there must have the listed hash
  cases hF : F[name]? with
  | none =>
    have hout : name ∉ F := by
      simp [Std.ExtTreeMap.mem_iff_isSome_getElem?, hF]
    have habs := h.record_absent hN hname hout
    rw [habs] at hentries
    refine wp_readBlob_absent h.dir habs hs ?_ fun hA => ?_
    · simp only [andThen_ok, hentries, entryHash]
      rw [hF] at hQ
      exact ⟨hs, hQ⟩
    · exact ⟨hs, failed hA _⟩
  | some payload =>
    obtain ⟨blob, hget, hlen, hdec⟩ := hM.holds.file name payload hF
    obtain ⟨plain, hopen, hsplit⟩ := decodeRecord_ok hdec
    rw [hget] at hentries
    refine wp_readBlob h.dir hs (fun b p hb _ hp => ?_) fun e hbad => ?_
    · rw [hget] at hb
      cases hb
      rw [hopen] at hp
      cases hp
      simp only [andThen_ok, hentries, entryHash, privateFile, if_true]
      rw [wp_bind, hsplit]
      rw [hF] at hQ
      exact ⟨hs, hs, hQ⟩
    · have hA : ¬FaultFree A := by
        intro hA
        rw [hbad hA blob hget hlen] at hopen
        cases hopen
      simp only [andThen_ok, hentries, entryHash, privateFile]
      split
      next h _ => cases h
      next h _ => cases h
      next => exact ⟨hs, failed hA _⟩
      next h => cases h
      next => exact ⟨hs, failed hA _⟩

/-! ### The specification -/

/-- What happens to a profile; a call that was `cut` ended in a crash. -/
inductive Event
  | opened
  | openCut
  | put (name payload : Bytes) (ok : Bool)
  | putCut (name payload : Bytes)
  | removed (name : Bytes) (ok : Bool)
  | removeCut (name : Bytes)
deriving DecidableEq

/-- The record an event is about. -/
def Event.name? : Event → Option Bytes
  | .opened | .openCut => none
  | .put name _ _ | .putCut name _ | .removed name _ | .removeCut name => some name

/-- The specification: a call that succeeded has its effect, one that failed has none, and one
that was cut off has all of it or none. -/
def Event.Allows (m : Map Bytes) (e : Event) (m' : Map Bytes) : Prop :=
  match e with
  | .opened | .openCut => m' = m
  | .put name payload ok => m' = if ok then m.update name (some payload) else m
  | .putCut name payload => m' = m ∨ m' = m.update name (some payload)
  | .removed name ok => m' = if ok then m.update name none else m
  | .removeCut name => m' = m ∨ m' = m.update name none

/-! ### Runs of the store -/

/-- A profile and, while it is open, the handle on it. -/
structure Session where
  world : World
  handle : Option ProfileStore

/-- One call or one crash, under environments whose choices satisfy `A`. -/
inductive Step (cr : Crypto) (profile exportKey : Bytes) (A : Choice → Prop) :
    Session → Event → Session → Prop
  | opened {s : Session} {f : ℕ → Choice} {st : ProfileStore} {t : World} (hf : ∀ n, A (f n))
      (h : (openStore cr profile exportKey).run (machine cr) f s.world = (.ok st, t)) :
      Step cr profile exportKey A s .opened ⟨t, some st⟩
  | openCut {s : Session} {f : ℕ → Choice} {t : World} (hf : ∀ n, A (f n))
      (h : t ∈ (openStore cr profile exportKey).crashStates (machine cr) f s.world) :
      Step cr profile exportKey A s .openCut ⟨t, none⟩
  | put {s : Session} {f : ℕ → Choice} {st : ProfileStore} {t : World} {name payload : Bytes}
      {r : Except StoreError Unit} (hst : s.handle = some st) (hf : ∀ n, A (f n))
      (h : (Store.put cr st name payload).run (machine cr) f s.world = (r, t)) :
      Step cr profile exportKey A s (.put name payload r.isOk) ⟨t, some st⟩
  | putCut {s : Session} {f : ℕ → Choice} {st : ProfileStore} {t : World} {name payload : Bytes}
      (hst : s.handle = some st) (hf : ∀ n, A (f n))
      (h : t ∈ (Store.put cr st name payload).crashStates (machine cr) f s.world) :
      Step cr profile exportKey A s (.putCut name payload) ⟨t, none⟩
  | removed {s : Session} {f : ℕ → Choice} {st : ProfileStore} {t : World} {name : Bytes}
      {r : Except StoreError Unit} (hst : s.handle = some st) (hf : ∀ n, A (f n))
      (h : (remove cr st name).run (machine cr) f s.world = (r, t)) :
      Step cr profile exportKey A s (.removed name r.isOk) ⟨t, some st⟩
  | removeCut {s : Session} {f : ℕ → Choice} {st : ProfileStore} {t : World} {name : Bytes}
      (hst : s.handle = some st) (hf : ∀ n, A (f n))
      (h : t ∈ (remove cr st name).crashStates (machine cr) f s.world) :
      Step cr profile exportKey A s (.removeCut name) ⟨t, none⟩

/-- No call fails, and the name keys that are drawn give the names in use distinct tags. -/
def Reliable (cr : Crypto) (profile : Bytes) (N : Set Bytes) (c : Choice) : Prop :=
  c.fault = none ∧ TagInjOn cr (handle profile c.bundle) N

theorem Reliable.faultFree {profile : Bytes} : FaultFree (Reliable cr profile N) :=
  fun _ h => h.1

/-- Through `names` and `get`, the handle exposes exactly the records of `m`. -/
structure Shows (cr : Crypto) (A : Choice → Prop) (N : Set Bytes) (st : ProfileStore) (s : World)
    (m : Map Bytes) : Prop where
  names : ∀ f : ℕ → Choice, (∀ n, A (f n)) → ∃ l : List Bytes,
    ((Store.names st).run (machine cr) f s).1 = .ok l ∧ ∀ n, n ∈ l ↔ n ∈ m
  get : ∀ (f : ℕ → Choice) (name : Bytes), (∀ n, A (f n)) → name ∈ N →
    validRecordName name = true → isInternal name = false →
    ((Store.get cr st name).run (machine cr) f s).1 = .ok m[name]?

theorem Ready.shows (h : Ready cr st N s d F) (hN : TagInjOn cr st N) (hA : FaultFree A) :
    Shows cr A N st s (visible F) where
  names f hf := by
    have hwp : wp (machine cr) A (Store.names st)
        (fun r _ => ∃ l : List Bytes, r = .ok l ∧ ∀ n, n ∈ l ↔ n ∈ visible F)
        (fun _ => True) s :=
      wp_names h trivial (fun l hl => ⟨l, rfl, hl⟩) fun hA' => absurd hA hA'
    exact wp_run hwp hf
  get f name hf hname hvalid hint := by
    have hwp : wp (machine cr) A (get cr st name)
        (fun r _ => r = .ok (visible F)[name]?) (fun _ => True) s :=
      wp_get h hN hname hvalid hint trivial rfl fun hA' => absurd hA hA'
    exact wp_run hwp hf

/-! ### A concrete environment -/

/-- An environment in which nothing fails and every random value is zero. -/
def Choice.plain : Choice where
  fault := none
  nonce := ⟨replicate 12 0, rfl⟩
  bundle := ⟨⟨replicate 32 0, rfl⟩, ⟨replicate 32 0, rfl⟩, ⟨replicate 32 0, rfl⟩⟩
  order := id
  keep _ := true
  blind := false

/-- A machine with an empty disk. -/
def World.blank : World := { disk := {}, mem := fun _ => {}, seals := [] }

theorem blank_empty : Blank {} :=
  ⟨rfl, rfl, rfl, fun stem _ => by simp [Dir.get], fun stem _ => by simp [Dir.get]⟩

/-- The names a small store uses. -/
def Sample.names : List Bytes := [marker, manifestLatch, ascii "a", ascii "b"]

def Sample.profile : Bytes := ascii "p"

def Sample.exportKey : Bytes := replicate 32 0

theorem Sample.length_exportKey : exportKey.length = exportKeyLen := rfl

theorem Sample.validProfileName : validProfileName profile = true := by
  decide +kernel

theorem Sample.internalIn : InternalIn {n | n ∈ names} := by
  simp [InternalIn, names]

/-- The handle on the store that the plain environment creates. -/
def Sample.handle : ProfileStore := Store.handle profile Choice.plain.bundle

theorem Sample.tagInjOn : TagInjOn toy handle {n | n ∈ names} := by
  have h : ∀ a ∈ names, ∀ b ∈ names,
      handle.tag toy a = handle.tag toy b → a = b := by
    decide +kernel
  exact h

theorem Sample.reliable : Reliable toy profile {n | n ∈ names} .plain :=
  ⟨rfl, tagInjOn⟩

/-- The small store after it was created. -/
def Sample.opened : World :=
  ((openStore Crypto.toy profile exportKey).run (machine Crypto.toy)
    (fun _ => .plain) .blank).2

/-- The small store with one record. -/
def Sample.withRecord : World :=
  ((put Crypto.toy handle (ascii "a") [1]).run (machine Crypto.toy)
    (fun _ => .plain) opened).2

theorem Sample.run_openStore : (openStore toy profile exportKey).run
    (machine toy) (fun _ => .plain) .blank = (.ok handle, opened) :=
  Prod.ext (by decide +kernel) (by rw [opened])

theorem Sample.run_put : (put toy handle (ascii "a") [1]).run (machine toy)
    (fun _ => .plain) opened = (.ok (), withRecord) :=
  Prod.ext (by decide +kernel) (by rw [withRecord])

end Powehi.Store
