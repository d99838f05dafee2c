import Powehi.Store.Commit

/-!
# Mutations

The manifest-first mutation and the record operations built on it. A mutation passes through
four directories: the one it starts from, the same with the pending manifest, that with the
record changed, and that with the settled manifest. Each of them recovers to the map before
or the map after the mutation (`Recovers`), whatever call fails on the way.
-/

namespace Powehi.Store

open Codec Semantics Program Std.ExtTreeMap World Map Manifest Disk

variable {tag : Bytes} {name : Bytes} {v : Option Bytes} {new : Option Digest} {tag name : Bytes}
  {Q : Post Unit}

/-! ### What a directory recovers to -/

/-- What the next `open` makes of the records under a manifest: a delete in flight is
completed. -/
def completed (cr : Crypto) (st : ProfileStore) (M : Manifest) (F : Map Bytes) : Map Bytes :=
  match M.pending with
  | none => F
  | some p =>
    if p.tag ∈ M.entries then F
    else F.filterMap fun n v => if st.tag cr n = p.tag then none else some v

/-- The next `open` of the directory finds the records of `F`. The names in the directory are
among `N`; a record whose delete is in flight is one of them. -/
def Recovers (cr : Crypto) (st : ProfileStore) (N : Set Bytes) (d : Dir) (F : Map Bytes) : Prop :=
  ∃ F₀ M, OnDisk cr st d F₀ M ∧ Bounded F₀ ∧ (∀ n ∈ F₀, n ∈ N) ∧ F = completed cr st M F₀

/-- The directories differ at most in the manifest and the record of one tag. -/
def SameBut (tag : Bytes) (d d' : Dir) : Prop :=
  ∀ f, f ≠ .manifest → f ≠ .record tag → d'.get f = d.get f

section

variable {cr : Crypto} {st : ProfileStore} {N : Set Bytes} {d : Dir} {F : Map Bytes}
  {M : Manifest}

theorem SameBut.refl (tag : Bytes) (d : Dir) : SameBut tag d d := fun _ _ _ => rfl

theorem SameBut.set_manifest {d d' : Dir} (h : SameBut tag d d') (e : Option Entry) :
    SameBut tag d (d'.set .manifest e) := by
  intro f hf hf'
  rw [Dir.get_set_of_ne _ _ hf]
  exact h f hf hf'

theorem SameBut.set_record {d d' : Dir} (h : SameBut tag d d') (e : Option Entry) :
    SameBut tag d (d'.set (.record tag) e) := by
  intro f hf hf'
  rw [Dir.get_set_of_ne _ _ hf']
  exact h f hf hf'

theorem completed_of_none (h : M.pending = none) : completed cr st M F = F := by
  rw [completed, h]

theorem OnDisk.recovers (h : OnDisk cr st d F M) (hF : Bounded F) (hN : ∀ n ∈ F, n ∈ N)
    (hM : M.pending = none) : Recovers cr st N d F :=
  ⟨F, M, h, hF, hN, (completed_of_none hM).symm⟩

/-- Names of an updated map. -/
theorem names_update (hF : ∀ n ∈ F, n ∈ N) (hname : name ∈ N) (v : Option Bytes) :
    ∀ n ∈ F.update name v, n ∈ N := by
  intro n hn
  rw [mem_iff_isSome_getElem?, getElem?_update] at hn
  split at hn
  · rename_i heq
    exact heq ▸ hname
  · exact hF n (mem_iff_isSome_getElem?.mpr hn)

/-- With the record still in its old state, the pending manifest completes a delete and
abandons a write. -/
theorem completed_mutating (hfree : TagFree cr st F name) (hnew : v.isSome = new.isSome) :
    completed cr st (M.mutating (st.tag cr name) new) F = F ∨
      completed cr st (M.mutating (st.tag cr name) new) F = F.update name v := by
  have hmem : st.tag cr name ∈ M.entries.update (st.tag cr name) new ↔ new.isSome = true := by
    rw [mem_iff_isSome_getElem?, getElem?_update_self]
  simp only [completed, mutating, hmem]
  cases new with
  | some h => exact .inl (if_pos rfl)
  | none =>
    obtain rfl : v = none := by simpa using hnew
    refine .inr ?_
    rw [if_neg (by simp)]
    apply ext_getElem?
    intro n
    rw [getElem?_filterMap', getElem?_update]
    by_cases hn : n = name
    · simp [hn]
    · rw [if_neg hn]
      cases hp : F[n]? with
      | none => rfl
      | some payload =>
        have hin : n ∈ F := by
          rw [mem_iff_isSome_getElem?, hp]
          rfl
        have htag : st.tag cr n ≠ st.tag cr name := fun h => hn (hfree n hin h)
        simp [htag]

/-- With the record in its new state, there is nothing left to complete. -/
theorem completed_mutating_update (hfree : TagFree cr st F name) (hnew : v.isSome = new.isSome) :
    completed cr st (M.mutating (st.tag cr name) new) (F.update name v) = F.update name v := by
  have hfree' : TagFree cr st (F.update name v) name := by
    intro n hn htag
    rw [mem_iff_isSome_getElem?, getElem?_update] at hn
    split at hn
    · assumption
    · exact hfree n (mem_iff_isSome_getElem?.mpr hn) htag
  rcases completed_mutating (M := M) hfree' hnew with h | h
  · exact h
  · rw [h, update_update]

/-- A record is there exactly if its tag has a file. -/
theorem Holds.mem_iff (h : Holds cr st d F) (hfree : TagFree cr st F name) :
    name ∈ F ↔ st.tag cr name ∈ hashes cr d := by
  refine ⟨h.tag_mem_hashes, fun htag => ?_⟩
  obtain ⟨n, hn, heq⟩ := h.name_of_mem_hashes htag
  rwa [← hfree n hn heq]

/-- A manifest that lists the hashes of a bounded directory can be written. -/
theorem Holds.wellFormed (h : Holds cr st d F) (hF : Bounded F) (hM : M.entries = hashes cr d)
    (hpending : ∀ p ∈ M.pending, isTag p.tag = true) : M.WellFormed := by
  have htags : ∀ tag ∈ M.entries, ∃ name ∈ F, st.tag cr name = tag := by
    intro tag htag
    rw [hM] at htag
    exact h.name_of_mem_hashes htag
  exact wellFormed_of_tags hF htags hpending

end

/-! ### Changing the record -/

variable {cr : Crypto} {A : Choice → Prop} {K : Disk → Prop} {s : World} {st : ProfileStore}
  {N : Set Bytes} {d : Dir}

/-- How the record change in the middle of a mutation can end: done, or failed without effect;
the index may have changed at the record's name only. -/
structure Applied (A : Choice → Prop) (l : Loc) (after : Disk) (name : Bytes) (t : World)
    (r : Except StoreError Unit) (u : World) : Prop where
  seals : u.seals = t.seals
  others : ∀ l' ≠ l, u.mem l' = t.mem l'
  manifest : (u.mem l).manifest = (t.mem l).manifest
  poisoned : (u.mem l).poisoned = (t.mem l).poisoned
  index : ∀ n ≠ name, n ∈ (u.mem l).index ↔ n ∈ (t.mem l).index
  disk : u.disk = after ∨ (u.disk = t.disk ∧ r.isOk = false)
  succeeds : FaultFree A → r = .ok ()

theorem wp_writeAtomic {tag blob name : Bytes} (hd : s.disk.dir? st.loc = some d)
    (hdir : d.get (.record tag) ≠ some .dir) (hK : K s.disk)
    (hK' : K (s.disk.setDir st.loc (d.set (.record tag) (some (privateFile blob))))) :
    wp (machine cr) A (writeAtomic st tag blob name)
      (Applied A st.loc (s.disk.setDir st.loc (d.set (.record tag) (some (privateFile blob))))
        name s) (fun t => K t.disk) s := by
  have hindex : ∀ (i : Names), ∀ n ≠ name, n ∈ i.insert name ↔ n ∈ i := by
    intro i n hn
    simp [hn.symm]
  rw [writeAtomic, wp_bind]
  refine wp_replace hd hdir hK hK' ?_ (fun hA => ?_) fun hA => ?_
  · rw [andThen_bind]
    refine wp_modifyMem hK' hK' ?_
    rw [andThen_ok]
    refine wp_syncDir (dir?_setDir hd _) hK' ?_ fun hA => ?_
    · exact ⟨rfl, fun l' h => setMem_mem_of_ne _ _ h, by simp, by simp,
        fun n hn => by simpa using hindex _ n hn, .inl rfl, fun _ => rfl⟩
    · exact ⟨rfl, fun l' h => setMem_mem_of_ne _ _ h, by simp, by simp,
        fun n hn => by simpa using hindex _ n hn, .inl rfl, fun h => absurd h hA⟩
  · exact ⟨rfl, fun _ _ => rfl, rfl, rfl, fun _ _ => Iff.rfl, .inr ⟨rfl, rfl⟩, fun h => absurd h hA⟩
  · exact ⟨rfl, fun _ _ => rfl, rfl, rfl, fun _ _ => Iff.rfl, .inl rfl, fun h => absurd h hA⟩

theorem wp_unlinkRecord {e : Entry} (hd : s.disk.dir? st.loc = some d)
    (he : d.get (.record tag) = some e) (hdir : e ≠ .dir) (hK : K s.disk)
    (hK' : K (s.disk.setDir st.loc (d.set (.record tag) none))) :
    wp (machine cr) A (unlinkRecord st tag)
      (Applied A st.loc (s.disk.setDir st.loc (d.set (.record tag) none)) name s)
      (fun t => K t.disk) s := by
  rw [unlinkRecord, wp_bind]
  refine wp_ifPresent (wp_removeFile hd he hdir hK hK' ⟨hK', ?_⟩ (fun hA => ⟨hK, ?_⟩)
    fun hA => ⟨hK', ?_⟩)
  · rw [absentAsNone, andThen_ok]
    refine wp_syncDir (dir?_setDir hd _) hK' ?_ fun hA => ?_
    · exact ⟨rfl, fun _ _ => rfl, rfl, rfl, fun _ _ => Iff.rfl, .inl rfl, fun _ => rfl⟩
    · exact ⟨rfl, fun _ _ => rfl, rfl, rfl, fun _ _ => Iff.rfl, .inl rfl, fun h => absurd h hA⟩
  · exact ⟨rfl, fun _ _ => rfl, rfl, rfl, fun _ _ => Iff.rfl, .inr ⟨rfl, rfl⟩, fun h => absurd h hA⟩
  · exact ⟨rfl, fun _ _ => rfl, rfl, rfl, fun _ _ => Iff.rfl, .inl rfl, fun h => absurd h hA⟩

/-! ### Settling -/

/-- The memory after a mutation left `tag` as `actual`. -/
def Mem.settled (m : Mem) (name : Bytes) (M : Manifest) (actual : Option Digest) : Mem :=
  { m with
    manifest := M
    index := if actual.isSome then m.index.insert name else m.index.erase name }

theorem wp_settle {next : Manifest} {actual : Option Digest} {applied : Except StoreError Unit}
    (hd : s.disk.dir? st.loc = some d) (hdir : d.get .manifest ≠ some .dir)
    (hwf : (next.settled tag actual).WellFormed) (hK : K s.disk)
    (hK' : ∀ blob, (next.settled tag actual).IsBlob cr st.bundle.manifest st.profile blob →
      K (s.disk.setDir st.loc (d.withManifest blob)))
    (hQ : ∀ x blob t, SealsManifest cr st (next.settled tag actual) x blob →
      t.mem st.loc = (s.mem st.loc).settled name (next.settled tag actual) actual →
      (∀ l ≠ st.loc, t.mem l = s.mem l) → t.seals = x :: s.seals →
      t.disk = s.disk.setDir st.loc (d.withManifest blob) → Q applied t)
    (failed : ¬FaultFree A → ∀ e t,
      t.mem st.loc = (s.mem st.loc).settled name (next.settled tag actual) actual →
      (∀ l ≠ st.loc, t.mem l = s.mem l) →
      (t.disk = s.disk ∨ ∃ blob,
        (next.settled tag actual).IsBlob cr st.bundle.manifest st.profile blob ∧
        t.disk = s.disk.setDir st.loc (d.withManifest blob)) →
      Q (.error e) t) :
    wp (machine cr) A (settle st tag name next actual applied) Q (fun t => K t.disk) s := by
  rw [settle, wp_bind]
  refine wp_modifyMem hK hK ?_
  rw [andThen_bind, wp_attempt]
  refine wp_commitManifest hd hdir hwf hK hK' (fun x blob hseal => ?_) fun hA e t hmem hdisk => ?_
  · rw [andThen_ok, wp_ofExcept]
    refine ⟨hK' blob hseal.isBlob, hQ x blob _ hseal ?_ ?_ rfl rfl⟩
    · simp [Mem.settled]
    · intro l hl
      rw [committed_mem_of_ne _ _ _ _ _ _ hl, setMem_mem_of_ne _ _ hl]
  · -- the settled manifest could not be written; memory adopts it all the same
    have hKt : K t.disk := by
      rcases hdisk with h | ⟨blob, hblob, h⟩
      · rw [h]
        exact hK
      · rw [h]
        exact hK' blob hblob
    have hmem' : (t.setMem st.loc { t.mem st.loc with manifest := next.settled tag actual }).mem
        st.loc = (s.mem st.loc).settled name (next.settled tag actual) actual := by
      simp [hmem, Mem.settled]
    have hothers : ∀ l ≠ st.loc,
        (t.setMem st.loc { t.mem st.loc with manifest := next.settled tag actual }).mem l =
          s.mem l := by
      intro l hl
      rw [setMem_mem_of_ne _ _ hl, hmem, setMem_mem_of_ne _ _ hl]
    rw [andThen_ok, wp_bind]
    refine wp_modifyMem hKt hKt ?_
    rw [andThen_ok, wp_ofExcept]
    refine ⟨hKt, ?_⟩
    cases applied with
    | ok _ => exact failed hA e _ hmem' hothers hdisk
    | error e' => exact failed hA e' _ hmem' hothers hdisk

/-- The directory holds the records of `F`, and the memory on it is up to date or poisoned. -/
def Accounted (cr : Crypto) (st : ProfileStore) (F : Map Bytes) (d : Dir) (m : Mem) : Prop :=
  ∃ M, OnDisk cr st d F M ∧ (m.poisoned = true ∨ m.poisoned = false ∧ InStep cr m d F)

theorem wp_poison {e : StoreError} (hK : K s.disk)
    (hQ : Q (.error e) (s.setMem st.loc { s.mem st.loc with poisoned := true })) :
    wp (machine cr) A (poison st e) Q (fun t => K t.disk) s := by
  rw [poison, wp_bind]
  refine wp_modifyMem hK hK ?_
  exact ⟨hK, hQ⟩

/-- The end of a mutation that began in `s₀` with the directory `d₀`. -/
theorem wp_conclude {old new actual : Option Digest} {next : Manifest}
    {applied : Except StoreError Unit} {F : Map Bytes} {s₀ : World} {d₀ : Dir}
    (hd₀ : s₀.disk.dir? st.loc = some d₀) (hs : s.disk = s₀.disk.setDir st.loc d)
    (hsame : SameBut tag d₀ d) (hdisk : OnDisk cr st d F next) (hF : Bounded F)
    (htag : isTag tag = true)
    (hactual : entryHash cr (d.get (.record tag)) = actual)
    (hentries : next.entries.update tag actual = hashes cr d)
    (hallowed : actual = new ∨ applied.isOk = false ∧ actual = old)
    (hname : name ∈ F ↔ actual.isSome) (hindex : ∀ n ≠ name, n ∈ (s.mem st.loc).index ↔ n ∈ F)
    (hp : (s.mem st.loc).poisoned = false) (hnames : ∀ n ∈ F, n ∈ N) (hK : K s.disk)
    (hK' : ∀ d', SameBut tag d₀ d' → Recovers cr st N d' F → K (s₀.disk.setDir st.loc d'))
    (hQ : ∀ t M x blob, (∀ l ≠ st.loc, t.mem l = s.mem l) → (t.mem st.loc).poisoned = false →
      t.disk = s₀.disk.setDir st.loc (d.withManifest blob) →
      SameBut tag d₀ (d.withManifest blob) → OnDisk cr st (d.withManifest blob) F M →
        M.pending = none →
      InStep cr (t.mem st.loc) (d.withManifest blob) F →
      (t.mem st.loc).manifest = M → t.seals = x :: s.seals → SealsManifest cr st M x blob →
      Q applied t) (failed : ¬FaultFree A → ∀ e t d', t.disk = s₀.disk.setDir st.loc d' →
      SameBut tag d₀ d' → Accounted cr st F d' (t.mem st.loc) → Q (.error e) t) :
    wp (machine cr) A (conclude cr st tag name old new next applied) Q (fun t => K t.disk) s := by
  have hd : s.disk.dir? st.loc = some d := hs ▸ dir?_setDir hd₀ d
  have hsets : ∀ d', s.disk.setDir st.loc d' = s₀.disk.setDir st.loc d' := fun d' => by
    rw [hs, setDir_setDir]
  have hset : ∀ b, hashes cr (d.withManifest b) = hashes cr d := fun b =>
    hashes_set_of_ne d _ (by simp)
  have hwf : (next.settled tag actual).WellFormed := hdisk.holds.wellFormed hF hentries nofun
  -- the settled manifest lists exactly the files
  have hsettled : ∀ b, (next.settled tag actual).IsBlob cr st.bundle.manifest st.profile b →
      OnDisk cr st (d.withManifest b) F (next.settled tag actual) := by
    intro b hb
    refine ⟨hdisk.holds.set_of_ne _ (by simp), .of_blob hb hwf d, ?_⟩
    rw [hset, ← hentries]
    exact verify_self _
  have hinStep : ∀ b m, m = (s.mem st.loc).settled name (next.settled tag actual) actual →
      InStep cr m d F ∧ InStep cr m (d.withManifest b) F := by
    rintro b m rfl
    have hidx : ∀ n, n ∈ ((s.mem st.loc).settled name (next.settled tag actual) actual).index ↔
        n ∈ F := by
      intro n
      by_cases hn : n = name
      · subst hn
        rw [hname, Mem.settled]
        cases actual <;> simp
      · rw [← hindex n hn, Mem.settled]
        split
        · simp [Std.ExtTreeSet.mem_insert, Ne.symm hn]
        · simp [Std.ExtTreeSet.mem_erase, Ne.symm hn]
    refine ⟨⟨hentries, hidx⟩, ⟨?_, hidx⟩⟩
    exact hentries
  have hafter : ∀ b, (next.settled tag actual).IsBlob cr st.bundle.manifest st.profile b →
      K (s.disk.setDir st.loc (d.withManifest b)) := by
    intro b hb
    rw [hsets]
    exact hK' _ (hsame.set_manifest _) ((hsettled b hb).recovers hF hnames rfl)
  rw [conclude, wp_bind, wp_attempt]
  refine wp_fileHash hd (hdisk.holds.plain htag) hK ?_ fun hA => ?_
  · have hcond : (actual == new || (!applied.isOk && actual == old)) = true := by
      rcases hallowed with h | ⟨h, h'⟩
      · simp [h]
      · simp [h, h']
    simp only [andThen_ok, hactual, hcond, if_true]
    refine wp_settle hd hdisk.manifest.ne_dir hwf hK hafter
      (fun x blob t hseal hmem hothers hseals htdisk => ?_)
      fun hA e t hmem hothers htdisk => ?_
    · refine hQ t _ x blob hothers ?_ (htdisk.trans (hsets _)) (hsame.set_manifest _)
        (hsettled blob hseal.isBlob) rfl ?_ ?_ hseals hseal
      · rw [hmem]
        exact hp
      · exact (hinStep blob _ hmem).2
      · rw [hmem]
        rfl
    · have hpt : (t.mem st.loc).poisoned = false := by
        rw [hmem]
        exact hp
      rcases htdisk with h | ⟨blob, hblob, h⟩
      · exact failed hA e t d (h.trans hs) hsame
          ⟨next, hdisk, .inr ⟨hpt, (hinStep [] _ hmem).1⟩⟩
      · exact failed hA e t _ (h.trans (hsets _)) (hsame.set_manifest _)
          ⟨_, hsettled blob hblob, .inr ⟨hpt, (hinStep blob _ hmem).2⟩⟩
  · exact wp_poison hK (failed hA _ _ d hs hsame ⟨next, hdisk, .inl (by simp)⟩)

/-! ### The mutation -/

/-- A mutation succeeded and left the directory `d'`: it holds the records of `F` under a settled
manifest that memory agrees with, and the file of `tag` is `e`. `M₁` is the pending manifest
that was sealed on the way. -/
structure MutateOk (cr : Crypto) (st : ProfileStore) (tag : Bytes) (e : Option Entry)
    (F : Map Bytes) (M₁ : Manifest) (s : World) (d : Dir) (t : World) (d' : Dir) : Prop where
  disk : t.disk = s.disk.setDir st.loc d'
  same : SameBut tag d d'
  entry : d'.get (.record tag) = e
  onDisk : OnDisk cr st d' F (t.mem st.loc).manifest
  settled : (t.mem st.loc).manifest.pending = none
  mem : InStep cr (t.mem st.loc) d' F
  healthy : (t.mem st.loc).poisoned = false
  others : ∀ l ≠ st.loc, t.mem l = s.mem l
  seals : ∃ x₁ x₂ b₁ b₂, t.seals = x₂ :: x₁ :: s.seals ∧ SealsManifest cr st M₁ x₁ b₁ ∧
    SealsManifest cr st (t.mem st.loc).manifest x₂ b₂

/-- A mutation failed: the directory holds the records from before or after it, and memory
agrees unless the handle is poisoned. -/
def MutateErr (cr : Crypto) (st : ProfileStore) (tag : Bytes) (d : Dir) (F F' : Map Bytes)
    (s t : World) : Prop :=
  ∃ d' F'', t.disk = s.disk.setDir st.loc d' ∧ SameBut tag d d' ∧ (F'' = F ∨ F'' = F') ∧
    Accounted cr st F'' d' (t.mem st.loc)

section Pending

variable {F : Map Bytes} {M M₀ : Manifest} {name : Bytes} {v : Option Bytes} {e : Option Entry}
  {b : Bytes}

theorem hashes_set_manifest (d : Dir) (x : Option Entry) :
    hashes cr (d.set .manifest x) = hashes cr d :=
  hashes_set_of_ne d _ (by simp)

theorem IsEntry.isSome_entryHash (h : IsEntry cr st name v e) :
    v.isSome = (entryHash cr e).isSome := by
  cases v with
  | none =>
    obtain rfl : e = none := h
    rfl
  | some payload =>
    obtain ⟨blob, rfl, -⟩ := h
    rfl

/-- The pending manifest can be written. -/
theorem Holds.wellFormed_mutating (h : Holds cr st d F) (hM₀ : M₀.entries = hashes cr d)
    (hF' : Bounded (F.update name v)) (hfree : TagFree cr st F name) (he : IsEntry cr st name v e) :
    (M₀.mutating (st.tag cr name) (entryHash cr e)).WellFormed := by
  refine (h.update hfree he).wellFormed hF' ?_ ?_
  · rw [hashes_set_record _ _ (isTag_tagOf ..), ← hM₀]
    rfl
  · rintro p ⟨⟩
    exact isTag_tagOf ..

/-- The pending manifest over the record's old state. -/
theorem Holds.pending_old (h : Holds cr st d F) (hM₀ : M₀.entries = hashes cr d)
    (hb : (M₀.mutating tag new).IsBlob cr st.bundle.manifest st.profile b)
    (hwf : (M₀.mutating tag new).WellFormed) :
    OnDisk cr st (d.withManifest b) F (M₀.mutating tag new) where
  holds := h.set_of_ne _ (by simp)
  manifest := .of_blob hb hwf d
  verified := by
    rw [hashes_set_manifest, ← hM₀]
    exact verify_mutating_old ..

/-- The pending manifest over the record's new state. -/
theorem Holds.pending_new (h : Holds cr st d F) (hM₀ : M₀.entries = hashes cr d)
    (hfree : TagFree cr st F name) (he : IsEntry cr st name v e)
    (hb : (M₀.mutating (st.tag cr name) (entryHash cr e)).IsBlob cr st.bundle.manifest st.profile b)
    (hwf : (M₀.mutating (st.tag cr name) (entryHash cr e)).WellFormed) :
    OnDisk cr st ((d.withManifest b).set (.record (st.tag cr name)) e)
      (F.update name v) (M₀.mutating (st.tag cr name) (entryHash cr e)) where
  holds := (h.set_of_ne _ (by simp)).update hfree he
  manifest := (ManifestOn.of_blob hb hwf d).set_of_ne _ (by simp)
  verified := by
    rw [hashes_set_record _ _ (isTag_tagOf ..), hashes_set_manifest, ← hM₀]
    exact verify_mutating_new ..

end Pending

/-- Mutating the record of `name` to `v`, whose file is `e`. At every point the directory
recovers to the map before or after the change. -/
theorem wp_mutate {e : Option Entry} {F : Map Bytes} {M : Manifest} {apply : StoreM Unit}
    (hd : s.disk.dir? st.loc = some d) (hdisk : OnDisk cr st d F M)
    (hmem : InStep cr (s.mem st.loc) d F) (hp : (s.mem st.loc).poisoned = false) (hF : Bounded F)
    (hF' : Bounded (F.update name v)) (hfree : TagFree cr st F name) (hnames : ∀ n ∈ F, n ∈ N)
    (hname : name ∈ N) (he : IsEntry cr st name v e) (hK : K s.disk)
    (hmid : ∀ d', SameBut (st.tag cr name) d d' →
      Recovers cr st N d' F ∨ Recovers cr st N d' (F.update name v) → K (s.disk.setDir st.loc d'))
    (happly : ∀ (t : World) (d₁ : Dir), t.disk.dir? st.loc = some d₁ →
      d₁.get (.record (st.tag cr name)) = d.get (.record (st.tag cr name)) → K t.disk →
      K (t.disk.setDir st.loc (d₁.set (.record (st.tag cr name)) e)) →
      wp (machine cr) A apply
        (Applied A st.loc (t.disk.setDir st.loc (d₁.set (.record (st.tag cr name)) e)) name t)
        (fun u => K u.disk) t) (ok : ∀ t d', MutateOk cr st (st.tag cr name) e (F.update name v)
      ((s.mem st.loc).manifest.mutating (st.tag cr name) (entryHash cr e)) s d t d' →
      Q (.ok ()) t) (failed : ¬FaultFree A → ∀ e t,
      MutateErr cr st (st.tag cr name) d F (F.update name v) s t → Q (.error e) t) :
    wp (machine cr) A (mutate cr st (st.tag cr name) name (entryHash cr e) apply) Q
      (fun t => K t.disk) s := by
  have htag : isTag (st.tag cr name) = true := isTag_tagOf ..
  have hnew := he.isSome_entryHash
  have hsame : s.disk.setDir st.loc d = s.disk := setDir_dir? hd
  have hentries := hmem.entries
  have hnames' := names_update hnames hname v
  have hwf := hdisk.holds.wellFormed_mutating hentries hF' hfree he
  have hK₁ : ∀ b, ((s.mem st.loc).manifest.mutating (st.tag cr name) (entryHash cr e)).IsBlob cr
      st.bundle.manifest st.profile b →
      K (s.disk.setDir st.loc (d.withManifest b)) := by
    intro b hb
    refine hmid _ ((SameBut.refl _ _).set_manifest _) ?_
    have hon := hdisk.holds.pending_old hentries hb hwf
    rcases completed_mutating (M := (s.mem st.loc).manifest) hfree hnew with h | h
    · exact .inl ⟨F, _, hon, hF, hnames, h.symm⟩
    · exact .inr ⟨F, _, hon, hF, hnames, h.symm⟩
  -- the pending manifest goes first; if that fails, the records are as they were
  rw [mutate, wp_bind]
  refine wp_getMem hK ?_
  rw [andThen_bind]
  refine wp_require hK (fun _ => ?_) fun h => by simp [hp] at h
  rw [andThen_bind]
  refine wp_commitManifest hd hdisk.manifest.ne_dir hwf hK hK₁ (fun x₁ b₁ hseal₁ => ?_)
    fun hA err t htmem htdisk => ?_
  · have hold := hdisk.holds.pending_old hentries hseal₁.isBlob hwf
    have hnewDisk := hdisk.holds.pending_new hentries hfree he hseal₁.isBlob hwf
    have hsame₁ : SameBut (st.tag cr name) d (d.withManifest b₁) :=
      (SameBut.refl _ _).set_manifest _
    have hK₂ := hmid _ (hsame₁.set_record e)
      (.inr ⟨_, _, hnewDisk, hF', hnames', (completed_mutating_update hfree hnew).symm⟩)
    rw [andThen_bind, wp_attempt]
    refine wp_mono (fun r u hu => ?_) (fun _ h => h)
      (happly _ (d.withManifest b₁) (dir?_setDir hd _)
        (Dir.get_set_of_ne _ _) (hK₁ b₁ hseal₁.isBlob) (by simpa using hK₂))
    have hpu : (u.mem st.loc).poisoned = false := by
      rw [hu.poisoned]
      simpa using hp
    have hindexu : ∀ n ≠ name, n ∈ (u.mem st.loc).index ↔ n ∈ F := by
      intro n hn
      rw [hu.index n hn]
      simpa using hmem.index n
    have hothers : ∀ l ≠ st.loc, u.mem l = s.mem l := by
      intro l hl
      rw [hu.others l hl, committed_mem_of_ne _ _ _ _ _ _ hl]
    have hseals : u.seals = x₁ :: s.seals := hu.seals
    rcases hu.disk with hdu | ⟨hdu, hr⟩
    · -- the record changed
      rw [committed_disk, setDir_setDir] at hdu
      refine wp_conclude hd hdu (hsame₁.set_record e) hnewDisk hF' htag
        (congrArg _ (Dir.get_set_self ..)) ?_ (.inl rfl) ?_ (fun n hn => ?_) hpu hnames'
        (by rw [hdu]; exact hK₂) (fun d' hd' hrec => hmid d' hd' (.inr hrec)) ?_
        fun hA err t d' htd hd' hacc => failed hA err t ⟨d', _, htd, hd', .inr rfl, hacc⟩
      · rw [hashes_set_record _ _ htag, hashes_set_manifest, ← hentries]
        exact update_update ..
      · rw [mem_iff_isSome_getElem?, getElem?_update_self, hnew]
      · rw [hindexu n hn, mem_iff_isSome_getElem?,
          mem_iff_isSome_getElem?, getElem?_update, if_neg hn]
      · intro t M' x b hot hpt htd hst hon hpend hin hman hsealst hseal
        cases r with
        | ok _ =>
          subst hman
          refine ok t _ ⟨htd, hst, ?_, hon, hpend, hin, hpt,
            fun l hl => (hot l hl).trans (hothers l hl), x₁, x, b₁, b, ?_, hseal₁, hseal⟩
          · rw [Dir.get_set_of_ne _ _, Dir.get_set_self]
          · rw [hsealst, hseals]
        | error err =>
          exact failed (fun hA => nomatch hu.succeeds hA) err t ⟨_, _, htd, hst, .inr rfl, M', hon,
            .inr ⟨hpt, hin⟩⟩
    · -- the change failed and left the record alone
      rw [committed_disk] at hdu
      have hAf : ¬FaultFree A := by
        intro hA
        rw [hu.succeeds hA] at hr
        cases hr
      have hactual : entryHash cr ((d.withManifest b₁).get
          (.record (st.tag cr name))) = (s.mem st.loc).manifest.entries[st.tag cr name]? := by
        rw [Dir.get_set_of_ne _ _, hentries, getElem?_hashes, if_pos htag]
      refine wp_conclude hd hdu hsame₁ hold hF htag hactual ?_ (.inr ⟨hr, rfl⟩) ?_ hindexu hpu
        hnames (by rw [hdu]; exact hK₁ b₁ hseal₁.isBlob)
        (fun d' hd' hrec => hmid d' hd' (.inl hrec)) ?_
        fun hA err t d' htd hd' hacc => failed hA err t ⟨d', F, htd, hd', .inl rfl, hacc⟩
      · rw [hashes_set_manifest, ← hentries]
        exact (update_update ..).trans (update_getElem? ..)
      · rw [hentries, ← mem_iff_isSome_getElem?]
        exact hdisk.holds.mem_iff hfree
      · intro t M' x b hot hpt htd hst hon hpend hin hman hsealst hseal
        cases r with
        | ok _ => cases hr
        | error err =>
          exact failed hAf err t ⟨_, F, htd, hst, .inl rfl, M', hon, .inr ⟨hpt, hin⟩⟩
  · refine failed hA err t ?_
    have hmemt : (t.mem st.loc).poisoned = false ∧ InStep cr (t.mem st.loc) d F := by
      rw [htmem]
      exact ⟨hp, hmem⟩
    rcases htdisk with h | ⟨b, hb, h⟩
    · exact ⟨d, F, h.trans hsame.symm, .refl _ _, .inl rfl, M, hdisk, .inr hmemt⟩
    · refine ⟨_, F, h, (SameBut.refl _ _).set_manifest _, .inl rfl, _,
        hdisk.holds.pending_old hentries hb hwf, .inr ⟨hmemt.1, ?_, hmemt.2.index⟩⟩
      exact hmemt.2.entries

end Powehi.Store
