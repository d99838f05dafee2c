import Powehi.Store.Mutation

/-!
# Record operations

Specifications of `put` and `remove` on a handle whose memory agrees with the disk (`Ready`).
A successful operation is a short sequence of completed mutations (`Writes`): the record's
own, preceded by the marker's when the store has none. Whatever fails, and wherever the
operation is cut off, the user-visible records are those before or after it (`Close`).
-/

namespace Powehi.Store

open Codec Semantics Program Std.ExtTreeMap Disk

/-! ### States between operations -/

/-- The tags of the names in use do not collide. -/
def TagInjOn (cr : Crypto) (st : ProfileStore) (N : Set Bytes) : Prop :=
  ∀ a ∈ N, ∀ b ∈ N, st.tag cr a = st.tag cr b → a = b

/-- The location is a private directory. -/
def Disk.Private (k : Disk) : Loc → Prop
  | .home => True
  | .staging => ∃ d, k.staging = .dir true d

/-- The handle's memory and the manifest on disk both describe the records of `F`. -/
structure Ready (cr : Crypto) (st : ProfileStore) (N : Set Bytes) (s : World) (d : Dir)
    (F : Map Bytes) : Prop where
  dir : s.disk.dir? st.loc = some d
  isPrivate : s.disk.Private st.loc
  onDisk : ∃ M, OnDisk cr st d F M
  mem : InStep cr (s.mem st.loc) d F
  healthy : (s.mem st.loc).poisoned = false
  bounded : Bounded F
  names : ∀ n ∈ F, n ∈ N

/-- The file a use of the record key was made for. -/
def Seal.blob (cr : Crypto) (x : Seal) : Bytes :=
  magic ++ x.nonce.1 ++ cr.encrypt x.key x.nonce x.aad x.msg

/-- One completed mutation of the record `name` to `v`, from the directory `d` to `d'`. -/
structure Written (cr : Crypto) (st : ProfileStore) (N : Set Bytes) (name : Bytes)
    (v : Option Bytes) (s : World) (d : Dir) (F : Map Bytes) (t : World) (d' : Dir) : Prop where
  disk : t.disk = s.disk.setDir st.loc d'
  same : SameBut (st.tag cr name) d d'
  entry : IsEntry cr st name v (d'.get (.record (st.tag cr name)))
  ready : Ready cr st N t d' (F.update name v)
  manifest : OnDisk cr st d' (F.update name v) (t.mem st.loc).manifest
  settled : (t.mem st.loc).manifest.pending = none
  others : ∀ l ≠ st.loc, t.mem l = s.mem l
  /-- The pending and the settled manifest were sealed, and the record if there is one. -/
  seals : ∃ x₁ x₂ b₁ b₂ rec, t.seals = x₂ :: x₁ :: (rec ++ s.seals) ∧
    SealsManifest cr st ((s.mem st.loc).manifest.mutating (st.tag cr name)
      (entryHash cr (d'.get (.record (st.tag cr name))))) x₁ b₁ ∧
    SealsManifest cr st (t.mem st.loc).manifest x₂ b₂ ∧
    (∀ y ∈ rec, y.aad = aad magic st.profile (st.tag cr name)) ∧
    ∀ b, d'.get (.record (st.tag cr name)) = some (privateFile b) → ∃ y ∈ rec, b = y.blob cr

/-- A sequence of completed mutations. -/
inductive Writes (cr : Crypto) (st : ProfileStore) (N : Set Bytes) :
    List (Bytes × Option Bytes) → World → Dir → Map Bytes → World → Dir → Map Bytes → Prop
  | nil {s : World} {d : Dir} {F : Map Bytes} : Writes cr st N [] s d F s d F
  | cons {name : Bytes} {v : Option Bytes} {ws : List (Bytes × Option Bytes)} {s t u : World}
      {d d₁ d₂ : Dir} {F G : Map Bytes} (step : Written cr st N name v s d F t d₁)
      (rest : Writes cr st N ws t d₁ (F.update name v) u d₂ G) :
      Writes cr st N ((name, v) :: ws) s d F u d₂ G

/-- The user-visible records. -/
def visible (F : Map Bytes) : Map Bytes :=
  F.filterMap fun n v => if isInternal n then none else some v

/-- The map is that before or after changing `name` to `v`, as far as users can see. -/
structure Close (N : Set Bytes) (name : Bytes) (v : Option Bytes) (F G : Map Bytes) : Prop where
  visible : visible G = visible F ∨ visible G = (visible F).update name v
  bounded : Bounded G
  names : ∀ n ∈ G, n ∈ N

/-- Only the manifest and record files differ. -/
def SameRest (d d' : Dir) : Prop :=
  ∀ f, f ≠ .manifest → (∀ stem, f ≠ .record stem) → d'.get f = d.get f

theorem SameRest.get {d d' : Dir} (h : SameRest d d') (f : FileName) (hf : f ≠ .manifest := by simp)
    (hrec : ∀ stem, f ≠ .record stem := by simp) : d'.get f = d.get f := h f hf hrec

section

variable {cr : Crypto} {st : ProfileStore} {N : Set Bytes} {s : World} {d d' d'' : Dir}
  {F : Map Bytes} {name : Bytes} {v : Option Bytes}

theorem SameRest.refl (d : Dir) : SameRest d d := fun _ _ _ => rfl

theorem SameRest.trans (h : SameRest d d') (h' : SameRest d' d'') : SameRest d d'' :=
  fun f hf hf' => (h' f hf hf').trans (h f hf hf')

theorem SameBut.sameRest {tag : Bytes} (h : SameBut tag d d') : SameRest d d' :=
  fun f hf hf' => h f hf (hf' tag)

theorem getElem?_visible (F : Map Bytes) (n : Bytes) :
    (visible F)[n]? = if isInternal n then none else F[n]? := by
  simp only [visible, getElem?_filterMap']
  cases F[n]? <;> simp

theorem visible_update (F : Map Bytes) (name : Bytes) (v : Option Bytes) :
    visible (F.update name v) =
      if isInternal name then visible F else (visible F).update name v := by
  apply ext_getElem?
  intro n
  by_cases hint : isInternal name = true
  · by_cases hn : n = name
    · simp [getElem?_visible, hn, hint]
    · simp [getElem?_visible, Map.getElem?_update, hn, hint]
  · by_cases hn : n = name
    · simp [getElem?_visible, hn, hint]
    · simp [getElem?_visible, Map.getElem?_update, hn, hint]

theorem visible_empty : visible ∅ = ∅ := by
  apply ext_getElem?
  intro n
  simp [getElem?_visible]

theorem isInternal_marker : isInternal marker = true := by decide

theorem isInternal_manifestLatch : isInternal manifestLatch = true := by decide

theorem Disk.Private.setDir {k : Disk} {l : Loc} (h : k.Private l) (d : Dir) :
    (k.setDir l d).Private l := by
  cases l with
  | home => trivial
  | staging =>
    obtain ⟨d₀, hd₀⟩ := h
    exact ⟨d, by simp [Disk.setDir, hd₀]⟩

theorem wp_checkPrivateDir {A : Choice → Prop} {C : World → Prop} {l : Loc}
    {Q : Post Unit} (h : s.disk.Private l) (hs : C s)
    (hQ : Q (.ok ()) s) (failed : ¬FaultFree A → Q (.error (.io .other)) s) :
    wp (machine cr) A (call (.checkPrivateDir l)) Q C s := by
  cases l with
  | home => exact wp_checkHome hs hQ failed
  | staging =>
    obtain ⟨d, hd⟩ := h
    exact wp_call_look (fun c => by simp [Call.effect, hd]) hs hQ failed

theorem Ready.tagFree (h : Ready cr st N s d F) (hN : TagInjOn cr st N) (hname : name ∈ N) :
    TagFree cr st F name :=
  fun n hn htag => hN n (h.names n hn) name hname htag

theorem Ready.accounted (h : Ready cr st N s d F) : Accounted cr st F d (s.mem st.loc) := by
  obtain ⟨M, hM⟩ := h.onDisk
  exact ⟨M, hM, .inr ⟨h.healthy, h.mem⟩⟩

/-- The state after a successful mutation is ready again. -/
theorem MutateOk.ready {e : Option Entry} {M₁ : Manifest} {t : World}
    (h : MutateOk cr st (st.tag cr name) e (F.update name v) M₁ s d t d') (hs : Ready cr st N s d F)
    (hF : Bounded (F.update name v)) (hname : name ∈ N) : Ready cr st N t d' (F.update name v) where
  dir := by
    rw [h.disk]
    exact dir?_setDir hs.dir _
  isPrivate := by
    rw [h.disk]
    exact hs.isPrivate.setDir _
  onDisk := ⟨_, h.onDisk⟩
  mem := h.mem
  healthy := h.healthy
  bounded := hF
  names := names_update hs.names hname v

theorem Close.refl (h : Ready cr st N s d F) : Close N name v F F :=
  ⟨.inl rfl, h.bounded, h.names⟩

end

/-! ### Writing one record -/

variable {cr : Crypto} {A : Choice → Prop} {K : Disk → Prop} {st : ProfileStore} {N : Set Bytes}
  {s : World} {d : Dir} {F : Map Bytes} {name pt : Bytes}
  {Q : Post Unit}

/-- A failure before the mutation started. -/
theorem Ready.mutateErr (h : Ready cr st N s d F) (tag : Bytes) (F' : Map Bytes) {t : World}
    (hdisk : t.disk = s.disk) (hmem : t.mem = s.mem) : MutateErr cr st tag d F F' s t := by
  refine ⟨d, F, ?_, .refl _ _, .inl rfl, ?_⟩
  · rw [hdisk, setDir_dir? h.dir]
  · rw [hmem]
    exact h.accounted

theorem Ready.log (h : Ready cr st N s d F) (x : Seal) : Ready cr st N (s.log x) d F :=
  ⟨h.dir, h.isPrivate, h.onDisk, h.mem, h.healthy, h.bounded, h.names⟩

theorem isEntry_recordBlob (nonce : Nonce) (hvalid : validRecordName name = true)
    (hpt : pt.length ≤ maxRecordLen) :
    IsEntry cr st name (some pt)
      (some (privateFile (recordBlob cr st.profile st.bundle nonce name pt))) :=
  ⟨_, rfl, length_recordBlob_le cr _ _ _ hvalid hpt, decodeRecord_recordBlob cr _ _ _ _ hvalid⟩

theorem wp_writeRecord (h : Ready cr st N s d F) (hN : TagInjOn cr st N) (hname : name ∈ N)
    (hvalid : validRecordName name = true) (hpt : pt.length ≤ maxRecordLen)
    (hF' : Bounded (F.update name (some pt))) (hK : K s.disk)
    (hmid : ∀ d', SameBut (st.tag cr name) d d' →
      Recovers cr st N d' F ∨ Recovers cr st N d' (F.update name (some pt)) →
      K (s.disk.setDir st.loc d'))
    (ok : ∀ t d', Written cr st N name (some pt) s d F t d' → Q (.ok ()) t)
    (failed : ¬FaultFree A → ∀ e t,
      MutateErr cr st (st.tag cr name) d F (F.update name (some pt)) s t → Q (.error e) t) :
    wp (machine cr) A (writeRecord cr st name pt) Q (fun t => K t.disk) s := by
  obtain ⟨M, hM⟩ := h.onDisk
  have hlen : name.length ≤ 255 := by
    have := length_le_of_validRecordName hvalid
    simp only [maxNameLen] at this
    omega
  rw [writeRecord, wp_bind]
  refine wp_require hK (fun _ => ?_) fun hbad => absurd hlen (by simpa using hbad)
  rw [andThen_bind]
  refine wp_fillNonce hK (fun nonce => ?_) fun hA => failed hA _ _ (h.mutateErr _ _ rfl rfl)
  rw [andThen_bind]
  refine wp_encrypt hK hK ?_ (fun hA => failed hA _ _ (h.mutateErr _ _ rfl rfl))
    fun hA => failed hA _ _ (h.mutateErr _ _ rfl rfl)
  have hentry : IsEntry cr st name (some pt)
      (some (privateFile (recordBlob cr st.profile st.bundle nonce name pt))) :=
    isEntry_recordBlob nonce hvalid hpt
  have hdir : d.get (.record (st.tag cr name)) ≠ some .dir := by
    intro hget
    obtain ⟨b, hb, -⟩ := hM.holds.plain (isTag_tagOf ..) _ hget
    cases hb
  refine wp_mutate (e := some (privateFile (recordBlob cr st.profile st.bundle nonce name pt)))
    h.dir hM h.mem h.healthy h.bounded hF' (h.tagFree hN hname) h.names hname hentry hK hmid
    (fun t d₁ hd₁ hsame hKt hKt' => wp_writeAtomic hd₁ (by rwa [hsame]) hKt hKt')
    (fun t d' ht => ok t d' ?_) failed
  obtain ⟨x₁, x₂, b₁, b₂, hseals, hx₁, hx₂⟩ := ht.seals
  refine ⟨ht.disk, ht.same, ?_, ht.ready (h.log _) hF' hname, ht.onDisk, ht.settled, ht.others,
    x₁, x₂, b₁, b₂, [_], hseals, ?_, hx₂, ?_, ?_⟩
  · rw [ht.entry]
    exact hentry
  · rw [ht.entry]
    exact hx₁
  · rintro y hy
    rw [List.mem_singleton.mp hy]
  · intro b hb
    rw [ht.entry] at hb
    cases hb
    exact ⟨_, List.mem_singleton_self _, rfl⟩

/-- Deleting one record. -/
theorem wp_deleteRecord (h : Ready cr st N s d F) (hN : TagInjOn cr st N) (hname : name ∈ N)
    (hin : st.tag cr name ∈ hashes cr d) (hK : K s.disk)
    (hmid : ∀ d', SameBut (st.tag cr name) d d' →
      Recovers cr st N d' F ∨ Recovers cr st N d' (F.update name none) →
        K (s.disk.setDir st.loc d'))
    (ok : ∀ t d', Written cr st N name none s d F t d' → Q (.ok ()) t)
    (failed : ¬FaultFree A → ∀ e t,
      MutateErr cr st (st.tag cr name) d F (F.update name none) s t → Q (.error e) t) :
    wp (machine cr) A (mutate cr st (st.tag cr name) name none (unlinkRecord st (st.tag cr name)))
      Q (fun t => K t.disk) s := by
  obtain ⟨M, hM⟩ := h.onDisk
  have hF' : Bounded (F.update name none) := h.bounded.update (.inl rfl)
  -- the tag is listed, so its file is there
  obtain ⟨n, hn, htag⟩ := hM.holds.name_of_mem_hashes hin
  obtain rfl : n = name := hN n (h.names n hn) name hname htag
  obtain ⟨payload, hp⟩ := Option.isSome_iff_exists.mp (mem_iff_isSome_getElem?.mp hn)
  obtain ⟨blob, hget, -, -⟩ := hM.holds.file n payload hp
  refine wp_mutate (e := none) h.dir hM h.mem h.healthy h.bounded hF' (h.tagFree hN hname) h.names
    hname rfl hK hmid (fun t d₁ hd₁ hsame hKt hKt' =>
      wp_unlinkRecord hd₁ (hsame.trans hget) nofun hKt hKt')
    (fun t d' ht => ok t d' ?_) failed
  obtain ⟨x₁, x₂, b₁, b₂, hseals, hx₁, hx₂⟩ := ht.seals
  refine ⟨ht.disk, ht.same, ht.entry, ht.ready h hF' hname, ht.onDisk, ht.settled, ht.others,
    x₁, x₂, b₁, b₂, [], hseals, ?_, hx₂, nofun, ?_⟩
  · rw [ht.entry]
    exact hx₁
  · intro b hb
    rw [ht.entry] at hb
    cases hb

/-! ### The operations -/

/-- An operation on `name` failed: the directory holds the user-visible records from before or
after it, and memory agrees unless the handle is poisoned. -/
def OpErr (cr : Crypto) (st : ProfileStore) (N : Set Bytes) (name : Bytes) (v : Option Bytes)
    (d : Dir) (F : Map Bytes) (s t : World) : Prop :=
  ∃ d' G, t.disk = s.disk.setDir st.loc d' ∧ SameRest d d' ∧ Close N name v F G ∧
    Accounted cr st G d' (t.mem st.loc)

section

variable {v w : Option Bytes} {m : Bytes} {t u : World} {d₁ : Dir}

theorem Ready.opErr (h : Ready cr st N s d F) (hdisk : t.disk = s.disk) (hmem : t.mem = s.mem) :
    OpErr cr st N name v d F s t := by
  refine ⟨d, F, ?_, .refl d, .refl h, ?_⟩
  · rw [hdisk, setDir_dir? h.dir]
  · rw [hmem]
    exact h.accounted

/-- One mutation of an operation on `name`: of `name` itself, or of an internal record. -/
theorem Ready.close_update (h : Ready cr st N s d F) (hm : m ∈ N) (hF' : Bounded (F.update m w))
    (hop : isInternal m = true ∨ m = name ∧ w = v) : Close N name v F (F.update m w) := by
  refine ⟨?_, hF', names_update h.names hm w⟩
  rw [visible_update]
  by_cases hint : isInternal m = true
  · exact .inl (if_pos hint)
  · rcases hop with hm' | ⟨rfl, rfl⟩
    · exact absurd hm' hint
    · exact .inr (if_neg hint)

theorem MutateErr.opErr (herr : MutateErr cr st (st.tag cr m) d F (F.update m w) s t)
    (h : Ready cr st N s d F) (hm : m ∈ N) (hF' : Bounded (F.update m w))
    (hop : isInternal m = true ∨ m = name ∧ w = v) : OpErr cr st N name v d F s t := by
  obtain ⟨d', G, hdisk, hsame, hG, hacc⟩ := herr
  refine ⟨d', G, hdisk, hsame.sameRest, ?_, hacc⟩
  rcases hG with rfl | rfl
  · exact .refl h
  · exact h.close_update hm hF' hop

/-- What is close after a change nobody sees was close before it. -/
theorem Close.of_internal {G : Map Bytes} (hm : isInternal m = true)
    (h : Close N name v (F.update m w) G) : Close N name v F G := by
  have hvis : Store.visible (F.update m w) = Store.visible F := by
    rw [visible_update, if_pos hm]
  refine ⟨?_, h.bounded, h.names⟩
  have := h.visible
  rwa [hvis] at this

theorem OpErr.of_internal (hm : isInternal m = true) (hw : Written cr st N m w s d F t d₁)
    (h : OpErr cr st N name v d₁ (F.update m w) t u) : OpErr cr st N name v d F s u := by
  obtain ⟨d', G, hdisk, hsame, hclose, hacc⟩ := h
  refine ⟨d', G, ?_, hw.same.sameRest.trans hsame, hclose.of_internal hm, hacc⟩
  rw [hdisk, hw.disk, setDir_setDir]

end

/-- The record limit admits a record called `name`. -/
def Room (F : Map Bytes) (name : Bytes) : Prop :=
  name ∈ F ∨ isInternal name = true ∨ (userNames F).length < maxRecords

theorem Room.bounded_update (h : Room F name) (hF : Bounded F) (v : Option Bytes) :
    Bounded (F.update name v) :=
  hF.update (.inr h)

/-- Internal records take no room. -/
theorem Room.update_internal {m : Bytes} (h : Room F name) (hm : isInternal m = true)
    (b : Bytes) : Room (F.update m (some b)) name := by
  have hmem : ∀ n ≠ m, n ∈ F.update m (some b) ↔ n ∈ F := by
    intro n hn
    rw [mem_iff_isSome_getElem?, mem_iff_isSome_getElem?, Map.getElem?_update, if_neg hn]
  rcases h with hin | hint | hlt
  · by_cases hname : name = m
    · exact .inr (.inl (hname ▸ hm))
    · exact .inl ((hmem name hname).mpr hin)
  · exact .inr (.inl hint)
  · refine .inr (.inr (lt_of_le_of_lt ?_ hlt))
    refine ((nodup_userNames _).subperm fun n hn => ?_).length_le
    obtain ⟨hin, hint⟩ := mem_userNames.mp hn
    have hne : n ≠ m := by
      rintro rfl
      rw [hm] at hint
      cases hint
    exact mem_userNames.mpr ⟨(hmem n hne).mp hin, hint⟩

theorem wp_putRecordWith {mark : Bool → StoreM Unit} (h : Ready cr st N s d F) (hK : K s.disk)
    (refused : ∀ e, ¬(pt.length ≤ maxRecordLen ∧ Room F name) → Q (.error e) s)
    (failed : ¬FaultFree A → Q (.error (.io .other)) s)
    (write : pt.length ≤ maxRecordLen → Room F name →
      wp (machine cr) A (mark ((s.mem st.loc).index.contains marker) >>= fun _ =>
        writeRecord cr st name pt) Q (fun t => K t.disk) s) :
    wp (machine cr) A (putRecordWith cr st name pt mark) Q (fun t => K t.disk) s := by
  have hroom : ((s.mem st.loc).index.contains name || isInternal name ||
      decide (userRecords (s.mem st.loc).index < maxRecords)) = true ↔ Room F name := by
    rw [userRecords_eq h.mem.index]
    simp only [Room, Bool.or_eq_true, decide_eq_true_eq, Std.ExtTreeSet.contains_iff_mem,
      h.mem.index, or_assoc]
  rw [putRecordWith, wp_bind]
  refine wp_require hK (fun hpt => ?_) fun hpt => refused _ fun hok => ?_
  · rw [andThen_bind]
    refine wp_checkPrivateDir h.isPrivate hK ?_ failed
    rw [andThen_bind]
    refine wp_getMem hK ?_
    rw [andThen_bind]
    refine wp_require hK (fun hr => ?_) fun hr => refused _ fun hok => ?_
    · exact write (by simpa using hpt) (hroom.mp hr)
    · rw [hroom.mpr hok.2] at hr
      cases hr
  · simp [hok.1] at hpt

/-- Writing an internal record needs no marker and is never refused. -/
theorem wp_putRecord_internal (h : Ready cr st N s d F) (hN : TagInjOn cr st N) (hname : name ∈ N)
    (hint : isInternal name = true) (hvalid : validRecordName name = true) (hK : K s.disk)
    (hmid : ∀ d', SameBut (st.tag cr name) d d' →
      Recovers cr st N d' F ∨ Recovers cr st N d' (F.update name (some [])) →
      K (s.disk.setDir st.loc d'))
    (ok : ∀ t d', Written cr st N name (some []) s d F t d' → Q (.ok ()) t)
    (failed : ¬FaultFree A → ∀ e t,
      MutateErr cr st (st.tag cr name) d F (F.update name (some [])) s t → Q (.error e) t) :
    wp (machine cr) A (putRecord cr st name [] false) Q (fun t => K t.disk) s := by
  have hroom : Room F name := .inr (.inl hint)
  rw [putRecord]
  refine wp_putRecordWith h hK (fun e hno => absurd ⟨Nat.zero_le _, hroom⟩ hno)
    (fun hA => failed hA _ _ (h.mutateErr _ _ rfl rfl)) fun hpt _ => ?_
  exact wp_writeRecord h hN hname hvalid hpt (hroom.bounded_update h.bounded _) hK hmid ok failed

/-- The names the store itself uses. -/
def InternalIn (N : Set Bytes) : Prop := marker ∈ N ∧ manifestLatch ∈ N

/-- Writing a user record, after the marker if the store has none. -/
theorem wp_putRecord_marked (h : Ready cr st N s d F) (hN : TagInjOn cr st N) (hI : InternalIn N)
    (hname : name ∈ N) (hvalid : validRecordName name = true) (hK : K s.disk)
    (hmid : ∀ d' G, SameRest d d' → Close N name (some pt) F G → Recovers cr st N d' G →
      K (s.disk.setDir st.loc d')) (refused : ∀ e, Q (.error e) s)
    (ok : ∀ t d' G, (Writes cr st N [(name, some pt)] s d F t d' G ∨
      Writes cr st N [(marker, some []), (name, some pt)] s d F t d' G) → Q (.ok ()) t)
    (failed : ¬FaultFree A → ∀ e t, OpErr cr st N name (some pt) d F s t → Q (.error e) t) :
    wp (machine cr) A (putRecord cr st name pt true) Q (fun t => K t.disk) s := by
  rw [putRecord]
  refine wp_putRecordWith h hK (fun e _ => refused e)
    (fun hA => failed hA _ _ (h.opErr rfl rfl)) fun hpt hroom => ?_
  rw [wp_bind]
  refine wp_onlyIf (fun _ => ?_) fun _ => ⟨hK, ?_⟩
  · -- the marker comes first
    have hFm : Bounded (F.update marker (some [])) :=
      h.bounded.update (.inr (.inr (.inl isInternal_marker)))
    refine wp_putRecord_internal h hN hI.1 isInternal_marker validRecordName_marker hK
      (fun d' hsame hrec => ?_) (fun t d₁ hw => ?_)
      fun hA e t herr => failed hA e t (herr.opErr h hI.1 hFm (.inl isInternal_marker))
    · rcases hrec with hrec | hrec
      · exact hmid d' _ hsame.sameRest (.refl h) hrec
      · exact hmid d' _ hsame.sameRest (h.close_update hI.1 hFm (.inl isInternal_marker)) hrec
    · have hF' := (hroom.update_internal isInternal_marker []).bounded_update hFm (some pt)
      have hKt : ∀ d', s.disk.setDir st.loc d' = t.disk.setDir st.loc d' := by
        intro d'
        rw [hw.disk, setDir_setDir]
      have hback : ∀ d' G, SameRest d₁ d' → Close N name (some pt) (F.update marker (some [])) G →
          Recovers cr st N d' G → K (t.disk.setDir st.loc d') := by
        intro d' G hsame hclose hrec
        rw [← hKt]
        exact hmid d' G (hw.same.sameRest.trans hsame) (hclose.of_internal isInternal_marker) hrec
      have hKnow : K t.disk := by
        rw [← setDir_dir? hw.ready.dir]
        exact hback d₁ _ (.refl d₁) (.refl hw.ready)
          (hw.manifest.recovers hFm hw.ready.names hw.settled)
      refine wp_writeRecord hw.ready hN hname hvalid hpt hF' hKnow (fun d' hsame hrec => ?_)
        (fun u d₂ hw₂ => ok u d₂ _ (.inr (.cons hw (.cons hw₂ .nil))))
        fun hA e u herr => failed hA e u
          ((herr.opErr hw.ready hname hF' (.inr ⟨rfl, rfl⟩)).of_internal isInternal_marker hw)
      rcases hrec with hrec | hrec
      · exact hback d' _ hsame.sameRest (.refl hw.ready) hrec
      · exact hback d' _ hsame.sameRest (hw.ready.close_update hname hF' (.inr ⟨rfl, rfl⟩)) hrec
  · have hF' := hroom.bounded_update h.bounded (some pt)
    refine wp_writeRecord h hN hname hvalid hpt hF' hK (fun d' hsame hrec => ?_)
      (fun t d' hw => ok t d' _ (.inl (.cons hw .nil)))
      fun hA e t herr => failed hA e t (herr.opErr h hname hF' (.inr ⟨rfl, rfl⟩))
    rcases hrec with hrec | hrec
    · exact hmid d' _ hsame.sameRest (.refl h) hrec
    · exact hmid d' _ hsame.sameRest (h.close_update hname hF' (.inr ⟨rfl, rfl⟩)) hrec

/-- `put` is refused without effect, or it writes the record, after the marker if the store has
none. -/
theorem wp_put (h : Ready cr st N s d F) (hN : TagInjOn cr st N) (hI : InternalIn N)
    (hname : name ∈ N) (hK : K s.disk)
    (hmid : ∀ d' G, SameRest d d' → Close N name (some pt) F G → Recovers cr st N d' G →
      K (s.disk.setDir st.loc d')) (refused : ∀ e, Q (.error e) s)
    (ok : ∀ t d' G, isInternal name = false →
      (Writes cr st N [(name, some pt)] s d F t d' G ∨
        Writes cr st N [(marker, some []), (name, some pt)] s d F t d' G) → Q (.ok ()) t)
    (failed : ¬FaultFree A → ∀ e t, OpErr cr st N name (some pt) d F s t → Q (.error e) t) :
    wp (machine cr) A (put cr st name pt) Q (fun t => K t.disk) s := by
  rw [put, wp_bind, validateRecordName]
  by_cases hvalid : validRecordName name = true
  swap
  · rw [if_neg hvalid]
    exact ⟨hK, refused _⟩
  rw [if_pos hvalid]
  refine ⟨hK, ?_⟩
  rw [andThen_bind]
  refine wp_require hK (fun hint => ?_) fun _ => refused _
  have hint : isInternal name = false := by simpa using hint
  exact wp_putRecord_marked h hN hI hname hvalid hK hmid refused
    (fun t d' G hw => ok t d' G hint hw) failed

/-- `remove` is refused without effect, finds nothing to delete, or deletes the record. -/
theorem wp_remove (h : Ready cr st N s d F) (hN : TagInjOn cr st N) (hname : name ∈ N)
    (hK : K s.disk) (hmid : ∀ d' G, SameRest d d' → Close N name none F G → Recovers cr st N d' G →
      K (s.disk.setDir st.loc d')) (refused : ∀ e, Q (.error e) s)
    (absent : isInternal name = false → name ∉ F → Q (.ok ()) s)
    (ok : ∀ t d', isInternal name = false → Written cr st N name none s d F t d' → Q (.ok ()) t)
    (failed : ¬FaultFree A → ∀ e t, OpErr cr st N name none d F s t → Q (.error e) t) :
    wp (machine cr) A (remove cr st name) Q (fun t => K t.disk) s := by
  obtain ⟨M, hM⟩ := h.onDisk
  have hlisted : st.tag cr name ∈ (s.mem st.loc).manifest.entries ↔ name ∈ F := by
    rw [h.mem.entries]
    exact (hM.holds.mem_iff (h.tagFree hN hname)).symm
  rw [remove, wp_bind, validateRecordName]
  by_cases hvalid : validRecordName name = true
  swap
  · rw [if_neg hvalid]
    exact ⟨hK, refused _⟩
  rw [if_pos hvalid]
  refine ⟨hK, ?_⟩
  rw [andThen_bind]
  refine wp_require hK (fun hint => ?_) fun _ => refused _
  have hint : isInternal name = false := by simpa using hint
  rw [andThen_bind]
  refine wp_checkPrivateDir h.isPrivate hK ?_ fun hA => failed hA _ _ (h.opErr rfl rfl)
  rw [andThen_bind]
  refine wp_getMem hK ?_
  rw [andThen_bind]
  refine wp_require hK (fun _ => ?_) fun _ => refused _
  refine wp_onlyIf (fun hin => ?_) fun hout => ⟨hK, absent hint fun hin => ?_⟩
  · have hF' : Bounded (F.update name none) := h.bounded.update (.inl rfl)
    rw [h.mem.entries] at hin
    refine wp_deleteRecord h hN hname hin hK (fun d' hsame hrec => ?_)
      (fun t d' hw => ok t d' hint hw)
      fun hA e t herr => failed hA e t (herr.opErr h hname hF' (.inr ⟨rfl, rfl⟩))
    rcases hrec with hrec | hrec
    · exact hmid d' _ hsame.sameRest (.refl h) hrec
    · exact hmid d' _ hsame.sameRest (h.close_update hname hF' (.inr ⟨rfl, rfl⟩)) hrec
  · have := contains_iff_mem.mpr (hlisted.mpr hin)
    rw [this] at hout
    cases hout

end Powehi.Store
