import Powehi.Store.Operations

/-!
# Loading a store

What `start` does to a directory: authenticate every record (`loadIndex`), verify the
manifest and finish the mutation it may have in flight (`loadManifest`), and write the latch
if it is missing. A directory that recovers to `F` is loaded as `F`; a directory that has
neither manifest nor records is adopted as the empty store.
-/

namespace Powehi.Store

open Codec Semantics Program List Std.ExtTreeMap World Manifest Disk

variable {cr : Crypto} {A : Choice → Prop} {K : Disk → Prop} {C : World → Prop}
  {st : ProfileStore} {N : Set Bytes} {s : World} {d : Dir} {F : Map Bytes}
variable {acc : Names × Map Digest} {G : Map Bytes} {name : Bytes}
  {Q : Post Unit}

/-! ### Scanning the directory -/

/-- `found` lists the tags of the record files of `d`, each once. -/
structure Scanned (d : Dir) (found : List Bytes) : Prop where
  mem : ∀ tag, tag ∈ found ↔ isTag tag = true ∧ (d.get (.record tag)).isSome
  nodup : found.Nodup

theorem mem_tagStem {f : FileName} {tag : Bytes} :
    tag ∈ tagStem f ↔ f = .record tag ∧ isTag tag = true := by
  cases f with
  | record stem =>
    by_cases hstem : isTag stem = true
    · simp only [tagStem, if_pos hstem, Option.mem_def, Option.some.injEq, FileName.record.injEq]
      exact ⟨fun h => ⟨h, h ▸ hstem⟩, And.left⟩
    · simp only [tagStem, if_neg hstem, FileName.record.injEq]
      refine ⟨nofun, fun h => absurd ?_ hstem⟩
      rw [h.1]
      exact h.2
  | _ => simp [tagStem]

theorem scanned_of_perm {fs : List FileName} (h : fs.Perm d.listing) :
    Scanned d (fs.filterMap tagStem) where
  mem tag := by
    simp only [mem_filterMap, ← Option.mem_def, mem_tagStem, h.mem_iff, Dir.mem_listing]
    constructor
    · rintro ⟨f, hf, rfl, htag⟩
      exact ⟨htag, hf⟩
    · rintro ⟨htag, hf⟩
      exact ⟨_, hf, rfl, htag⟩
  nodup := by
    refine (h.nodup_iff.mpr d.nodup_listing).filterMap fun f f' tag hf hf' => ?_
    rw [(mem_tagStem.mp hf).1, (mem_tagStem.mp hf').1]

/-- Records have distinct tags, so there are no more record files than records. -/
theorem Scanned.length_le {found : List Bytes} (h : Scanned d found) (hd : Holds cr st d F)
    (hF : Bounded F) : found.length ≤ maxRecords + 2 := by
  have hsub : ∀ tag ∈ found, tag ∈ F.keys.map (st.tag cr) := by
    intro tag htag
    obtain ⟨hist, hsome⟩ := (h.mem tag).mp htag
    obtain ⟨name, hname, rfl⟩ := hd.name tag hist hsome
    exact mem_map_of_mem (mem_keys.mpr hname)
  have hle := (h.nodup.subperm hsub).length_le
  rw [length_map, length_keys] at hle
  exact hle.trans hF.size_le

theorem wp_tags {Q : Post (List Bytes)} {l : Loc} (hd : s.disk.dir? l = some d) (hs : C s)
    (hQ : ∀ found, Scanned d found → found.length ≤ maxRecords + 2 → Q (.ok found) s)
    (failed : ∀ e, (FaultFree A → ∃ found, Scanned d found ∧ maxRecords + 2 < found.length) →
      Q (.error e) s) : wp (machine cr) A (tags l) Q C s := by
  rw [tags, wp_bind]
  refine wp_readDir hd hs (fun fs hperm => ?_) fun hA => failed _ fun h => absurd h hA
  have hscan := scanned_of_perm hperm
  rw [andThen_bind]
  refine wp_require hs (fun hfew => ?_) fun hbad =>
    failed _ fun _ => ⟨_, hscan, by simpa using hbad⟩
  exact ⟨hs, hQ _ hscan (by simpa using hfew)⟩

/-- The file decodes to a record with the given name. -/
def IsRecord (cr : Crypto) (st : ProfileStore) (d : Dir) (name payload : Bytes) : Prop :=
  IsEntry cr st name (some payload) (d.get (.record (st.tag cr name)))

/-- Reading a private file of a record's size and opening it. -/
theorem wp_readBlob {f : FileName} {magic label : Bytes} {Q : Post (Bytes × Digest)}
    (hd : s.disk.dir? st.loc = some d) (hs : C s)
    (hQ : ∀ blob plain, d.get f = some (privateFile blob) → blob.length ≤ maxBlobLen →
      openBlob cr st.bundle.record st.profile magic label blob = .ok plain →
      Q (.ok (plain, cr.sha256 blob)) s)
    (failed : ∀ e, (FaultFree A → ∀ blob, d.get f = some (privateFile blob) →
      blob.length ≤ maxBlobLen →
      openBlob cr st.bundle.record st.profile magic label blob = .error e) → Q (.error e) s) :
    wp (machine cr) A (readBlob cr st f magic label) Q C s := by
  rw [readBlob, wp_bind]
  cases hget : d.get f with
  | none =>
    exact wp_read_absent hd hget hs (failed _ fun _ b hb => by rw [hget] at hb; cases hb)
      fun hA => failed _ fun h => absurd h hA
  | some entry =>
    refine wp_read hd hget hs ?_ fun hA => failed _ fun h => absurd h hA
    rw [andThen_ok]
    split
    · rename_i blob
      split
      · rename_i hlong
        refine ⟨hs, failed _ fun _ b hb hlen => ?_⟩
        rw [hget] at hb
        cases hb
        exact absurd hlen (Nat.not_le.mpr hlong)
      · rename_i hshort
        have hlen : blob.length ≤ maxBlobLen := Nat.not_lt.mp hshort
        rw [wp_bind, wp_ofExcept]
        refine ⟨hs, ?_⟩
        cases hopen : openBlob cr st.bundle.record st.profile magic label blob with
        | ok plain => exact ⟨hs, hQ blob plain hget hlen hopen⟩
        | error e =>
          refine failed e fun _ b hb _ => ?_
          rw [hget] at hb
          cases hb
          exact hopen
    · rename_i hne
      refine ⟨hs, failed _ fun _ b hb => ?_⟩
      rw [hget] at hb
      cases hb
      exact absurd rfl (hne b)

/-- A record file is added under the name it decodes to; otherwise loading it fails. -/
theorem wp_loadRecord {tag : Bytes} {Q : Post (Names × Map Digest)}
    (hd : s.disk.dir? st.loc = some d) (hs : C s)
    (hQ : ∀ name payload blob, st.tag cr name = tag → IsRecord cr st d name payload →
      d.get (.record tag) = some (privateFile blob) →
      Q (.ok (acc.1.insert name, acc.2.insert tag (cr.sha256 blob))) s)
    (failed : ∀ e, (FaultFree A → ∀ name payload, st.tag cr name = tag →
      ¬IsRecord cr st d name payload) → Q (.error e) s) :
    wp (machine cr) A (loadRecord cr st acc tag) Q C s := by
  rw [loadRecord, wp_bind]
  refine wp_named (wp_readBlob hd hs (fun blob plain hget hlen hopen => ⟨hs, ?_⟩)
    fun e hbad => ⟨hs, failed _ fun hA name payload htag hrec => ?_⟩)
  · change wp (machine cr) A _ Q C s
    rw [wp_bind]
    refine wp_named (wp_ofExcept.mpr ⟨hs, hs, ?_⟩)
    cases hsplit : splitInner cr st.bundle.name plain tag with
    | ok r =>
      obtain ⟨name, payload⟩ := r
      obtain ⟨-, htag⟩ := splitInner_ok hsplit
      have hdec : decodeRecord cr st.profile st.bundle tag blob = .ok (name, payload) := by
        rw [decodeRecord, hopen]
        exact hsplit
      refine ⟨hs, hQ name payload blob htag ?_ hget⟩
      subst htag
      exact ⟨blob, hget, hlen, hdec⟩
    | error e =>
      refine failed _ fun _ name payload htag hrec => ?_
      subst htag
      obtain ⟨b, hb, -, hdec⟩ := hrec
      rw [hget] at hb
      cases hb
      obtain ⟨plain', hopen', hsplit'⟩ := decodeRecord_ok hdec
      rw [hopen] at hopen'
      cases hopen'
      rw [hsplit] at hsplit'
      cases hsplit'
  · subst htag
    obtain ⟨b, hb, hlen, hdec⟩ := hrec
    obtain ⟨plain, hopen, -⟩ := decodeRecord_ok hdec
    rw [hbad hA b hb hlen] at hopen
    cases hopen

/-! ### The index -/

/-- The records of `G` are those found under the tags `seen`. -/
structure Gathered (cr : Crypto) (st : ProfileStore) (d : Dir) (seen : List Bytes)
    (G : Map Bytes) (acc : Names × Map Digest) : Prop where
  record : ∀ name payload, G[name]? = some payload →
    IsRecord cr st d name payload ∧ st.tag cr name ∈ seen
  name : ∀ tag ∈ seen, ∃ name ∈ G, st.tag cr name = tag
  index : ∀ n, n ∈ acc.1 ↔ n ∈ G
  hashes : ∀ tag, acc.2[tag]? = if tag ∈ seen then (hashes cr d)[tag]? else none

theorem Gathered.step {seen : List Bytes} {name payload blob : Bytes}
    (h : Gathered cr st d seen G acc) (hrec : IsRecord cr st d name payload)
    (hf : d.get (.record (st.tag cr name)) = some (privateFile blob)) :
    Gathered cr st d (seen ++ [st.tag cr name]) (G.update name (some payload))
      (acc.1.insert name, acc.2.insert (st.tag cr name) (cr.sha256 blob)) where
  record n p hp := by
    rw [Map.getElem?_update] at hp
    by_cases hn : n = name
    · rw [if_pos hn] at hp
      cases hp
      subst hn
      exact ⟨hrec, by simp⟩
    · rw [if_neg hn] at hp
      obtain ⟨hr, hseen⟩ := h.record n p hp
      exact ⟨hr, mem_append_left _ hseen⟩
  name tag htag := by
    have hmem : ∀ n, n ∈ G.update name (some payload) ↔ name = n ∨ n ∈ G := by
      intro n
      change n ∈ G.insert name payload ↔ _
      rw [mem_insert, Std.compare_eq_iff_eq]
    rcases mem_append.mp htag with hseen | hlast
    · obtain ⟨n, hn, heq⟩ := h.name tag hseen
      exact ⟨n, (hmem n).mpr (.inr hn), heq⟩
    · exact ⟨name, (hmem name).mpr (.inl rfl), (mem_singleton.mp hlast).symm⟩
  index n := by
    change _ ↔ n ∈ G.insert name payload
    rw [Std.ExtTreeSet.mem_insert, mem_insert, h.index n]
  hashes tag := by
    change (acc.2.update (st.tag cr name) (some (cr.sha256 blob)))[tag]? = _
    rw [Map.getElem?_update, h.hashes tag]
    by_cases htag : tag = st.tag cr name
    · subst htag
      rw [if_pos rfl, if_pos (by simp), getElem?_hashes, if_pos (isTag_tagOf ..), hf]
      rfl
    · simp only [htag, if_false, mem_append, mem_singleton, or_false]

/-- With every record file seen, the directory holds what was gathered. -/
theorem Gathered.all {found : List Bytes} (h : Gathered cr st d found G acc)
    (hscan : Scanned d found) : Holds cr st d G ∧ acc.2 = Store.hashes cr d := by
  have hholds : Holds cr st d G :=
    ⟨fun name payload hp => (h.record name payload hp).1,
      fun stem hstem hsome => h.name stem ((hscan.mem stem).mpr ⟨hstem, hsome⟩)⟩
  refine ⟨hholds, ext_getElem? fun {tag} => ?_⟩
  rw [h.hashes tag]
  by_cases htag : tag ∈ Store.hashes cr d
  · obtain ⟨n, hn, rfl⟩ := hholds.name_of_mem_hashes htag
    obtain ⟨-, hseen⟩ := h.record n _ (Std.ExtTreeMap.getElem?_eq_some_getElem hn)
    rw [if_pos hseen]
  · rw [getElem?_eq_none htag, ite_self]

/-- A directory holds one map only. -/
theorem Holds.unique (h : Holds cr st d F) (h' : Holds cr st d G) : F = G := by
  have half : ∀ {F G : Map Bytes}, Holds cr st d F → Holds cr st d G → ∀ n p : Bytes,
      F[n]? = some p → G[n]? = some p := by
    intro F G h h' n p hp
    obtain ⟨blob, hget, -, hdec⟩ := h.file n p hp
    obtain ⟨m, hm, htag⟩ := h'.name _ (isTag_tagOf ..) (by rw [hget]; rfl)
    obtain ⟨blob', hget', -, hdec'⟩ := h'.file m _ (Std.ExtTreeMap.getElem?_eq_some_getElem hm)
    -- the file found under the tag decodes to one name and payload
    rw [htag, hget] at hget'
    cases hget'
    rw [htag, hdec] at hdec'
    cases hdec'
    exact Std.ExtTreeMap.getElem?_eq_some_getElem hm
  apply Std.ExtTreeMap.ext_getElem?
  intro n
  cases hF : F[n]? with
  | some p => exact (half h h' n p hF).symm
  | none =>
    cases hG : G[n]? with
    | none => rfl
    | some p =>
      rw [half h' h n p hG] at hF
      cases hF

/-- Loading the index succeeds only on a directory that holds some map, and finds that map. -/
theorem wp_loadIndex {Q : Post (Map Digest)}
    (hd : s.disk.dir? st.loc = some d) (hpriv : s.disk.Private st.loc) (hK : K s.disk)
    (hQ : ∀ G index, Holds cr st d G → (∀ n, n ∈ index ↔ n ∈ G) →
      (hashes cr d).size ≤ maxRecords + 2 →
      Q (.ok (hashes cr d)) (s.setMem st.loc { s.mem st.loc with index }))
    (failed : ∀ e, (FaultFree A → ∀ G, Holds cr st d G → ¬Bounded G) → Q (.error e) s) :
    wp (machine cr) A (loadIndex cr st) Q (fun t => K t.disk) s := by
  rw [loadIndex, wp_bind]
  refine wp_checkPrivateDir hpriv hK ?_ fun hA => failed _ fun h => absurd h hA
  rw [andThen_bind]
  refine wp_tags hd hK (fun found hscan hfew => ?_) fun e hmany => failed e fun hA G hG hB => ?_
  · rw [andThen_bind]
    -- the tags seen so far, then those still to be scanned
    refine wp_foldlM (fun acc rest t => t = s ∧ ∃ seen G, found = seen ++ rest ∧
      Gathered cr st d seen G acc) ?_ ?_ ⟨rfl, [], ∅, rfl, ?_⟩
    · rintro acc tag rest _ ⟨rfl, seen, G, hfound, hgath⟩
      refine wp_loadRecord hd hK (fun name payload blob htag hrec hget => ?_)
        fun e hnone => failed e fun hA G hG _ => ?_
      · subst htag
        exact ⟨rfl, seen ++ [st.tag cr name], _, by simpa using hfound, hgath.step hrec hget⟩
      · have htag : tag ∈ found := by simp [hfound]
        obtain ⟨hist, hsome⟩ := (hscan.mem tag).mp htag
        obtain ⟨name, hname, heq⟩ := hG.name tag hist hsome
        exact hnone hA name _ heq (hG.file name _ (Std.ExtTreeMap.getElem?_eq_some_getElem hname))
    · rintro acc _ ⟨rfl, seen, G, hfound, hgath⟩
      rw [append_nil] at hfound
      subst hfound
      obtain ⟨hholds, hhashes⟩ := hgath.all hscan
      refine ⟨hK, ?_⟩
      rw [andThen_bind]
      refine wp_modifyMem hK hK ?_
      rw [hhashes]
      refine ⟨hK, hQ G acc.1 hholds hgath.index (le_trans (Map.size_le_length ?_) hfew)⟩
      intro tag htag
      exact (hscan.mem tag).mpr ⟨isTag_of_mem_hashes htag, isSome_of_mem_hashes htag⟩
    · exact ⟨by simp, by simp, by simp, by simp⟩
  · obtain ⟨found, hscan, hlen⟩ := hmany hA
    exact absurd (hscan.length_le hG hB) (Nat.not_le.mpr hlen)

/-! ### Finishing a mutation in flight -/

/-- A handle on a directory whose manifest has nothing in flight. -/
structure Settled (cr : Crypto) (st : ProfileStore) (N : Set Bytes) (s : World) (d : Dir)
    (F : Map Bytes) : Prop extends Ready cr st N s d F where
  manifest : OnDisk cr st d F (s.mem st.loc).manifest
  pending : (s.mem st.loc).manifest.pending = none

theorem Written.toSettled {v : Option Bytes} {t : World} {d' : Dir}
    (h : Written cr st N name v s d F t d') : Settled cr st N t d' (F.update name v) :=
  ⟨h.ready, h.manifest, h.settled⟩

section Completed

variable {M : Manifest} {p : Pending}

/-- Nothing is left to delete. -/
theorem Holds.completed_eq_self (h : Holds cr st d F) (hp : M.pending = some p)
    (hkeep : p.tag ∈ M.entries ∨ p.tag ∉ hashes cr d) : completed cr st M F = F := by
  simp only [completed, hp]
  by_cases hin : p.tag ∈ M.entries
  · exact if_pos hin
  · have hout := hkeep.resolve_left hin
    rw [if_neg hin]
    apply Std.ExtTreeMap.ext_getElem?
    intro n
    rw [getElem?_filterMap']
    cases hF : F[n]? with
    | none => rfl
    | some payload =>
      have hn : n ∈ F := by
        rw [mem_iff_isSome_getElem?, hF]
        rfl
      have htag : st.tag cr n ≠ p.tag := fun heq => hout (heq ▸ h.tag_mem_hashes hn)
      simp [htag]

/-- The delete in flight takes away one record. -/
theorem Holds.completed_eq_update (h : Holds cr st d F) (hp : M.pending = some p)
    (hout : p.tag ∉ M.entries) (hname : name ∈ F) (htag : st.tag cr name = p.tag) :
    completed cr st M F = F.update name none := by
  simp only [completed, hp, if_neg hout]
  apply Std.ExtTreeMap.ext_getElem?
  intro n
  rw [getElem?_filterMap', Map.getElem?_update]
  by_cases hn : n = name
  · subst hn
    cases F[n]? <;> simp [htag]
  · rw [if_neg hn]
    cases hF : F[n]? with
    | none => rfl
    | some payload =>
      have hmem : n ∈ F := by
        rw [mem_iff_isSome_getElem?, hF]
        rfl
      have hne : st.tag cr n ≠ p.tag := fun heq => hn (h.tagFree hname n hmem (heq.trans htag.symm))
      simp [hne]

/-- A settled manifest lists exactly the files it accepts. -/
theorem Manifest.entries_eq_of_verify {found : Map Digest} (h : M.verify found = .ok ())
    (hp : M.pending = none) : M.entries = found := by
  apply Std.ExtTreeMap.ext_getElem?
  intro tag
  rcases verify_ok_iff.mp h tag with heq | hpend
  · exact heq.symm
  · rw [hp] at hpend
    cases hpend

/-- With the file of a delete in flight gone, the pending manifest still accepts the rest. -/
theorem OnDisk.delete (h : OnDisk cr st d F M) (hp : M.pending = some p) (hout : p.tag ∉ M.entries)
    (hname : name ∈ F) (htag : st.tag cr name = p.tag) :
    OnDisk cr st (d.set (.record p.tag) none) (F.update name none) M where
  holds := by
    rw [← htag]
    exact h.holds.update (h.holds.tagFree hname) rfl
  manifest := h.manifest.set_of_ne _ (by simp)
  verified := by
    have hist : isTag p.tag = true := htag ▸ isTag_tagOf ..
    rw [hashes_set_record _ _ hist, verify_ok_iff]
    intro tag
    rw [Map.getElem?_update]
    by_cases heq : tag = p.tag
    · subst heq
      exact .inl (by rw [if_pos rfl, getElem?_eq_none hout]; rfl)
    · rw [if_neg heq]
      rcases verify_ok_iff.mp h.verified tag with hsame | hpend
      · exact .inl hsame
      · rw [hp] at hpend
        cases hpend
        exact absurd rfl heq

end Completed

/-- Writing a settled manifest over a directory that already holds `F`. -/
theorem wp_commitSettled {generation : UInt64} (hd : s.disk.dir? st.loc = some d)
    (hpriv : s.disk.Private st.loc) (hdir : d.get .manifest ≠ some .dir) (hholds : Holds cr st d F)
    (hF : Bounded F) (hindex : ∀ n, n ∈ (s.mem st.loc).index ↔ n ∈ F)
    (hp : (s.mem st.loc).poisoned = false) (hnames : ∀ n ∈ F, n ∈ N) (hK : K s.disk)
    (hmid : ∀ d', SameRest d d' → Recovers cr st N d' F → K (s.disk.setDir st.loc d'))
    (ok : ∀ x blob d', SealsManifest cr st { generation, entries := hashes cr d } x blob →
      d' = d.withManifest blob →
      Settled cr st N (s.committed st d { generation, entries := hashes cr d } x blob) d' F →
      Q (.ok ()) (s.committed st d { generation, entries := hashes cr d } x blob))
    (failed : Faults A Q) :
    wp (machine cr) A (commitManifest st { generation, entries := hashes cr d } true) Q
      (fun t => K t.disk) s := by
  have hwf : WellFormed { generation, entries := hashes cr d } :=
    hholds.wellFormed hF rfl nofun
  have hon : ∀ b, IsBlob cr st.bundle.manifest st.profile
      { generation, entries := hashes cr d } b →
      OnDisk cr st (d.withManifest b) F
        { generation, entries := hashes cr d } := by
    intro b hb
    refine ⟨hholds.set_of_ne _ (by simp), .of_blob hb hwf d, ?_⟩
    exact verify_self _
  have hrest : ∀ e, SameRest d (d.set .manifest e) := fun e f hf _ => Dir.get_set_of_ne _ _ hf
  refine wp_commitManifest hd hdir hwf hK
    (fun b hb => hmid _ (hrest _) ((hon b hb).recovers hF hnames rfl))
    (fun x blob hseal => ok x blob _ hseal rfl ?_) fun hA e t _ _ => failed hA e t
  have honDisk := hon blob hseal.isBlob
  exact
    { dir := dir?_setDir hd _
      isPrivate := hpriv.setDir _
      onDisk := ⟨_, honDisk⟩
      mem := ⟨by rw [committed_mem, hashes_set_manifest], by simpa using hindex⟩
      healthy := by simpa using hp
      bounded := hF
      names := hnames
      manifest := by simpa using honDisk
      pending := by simp }

/-- A handle that has authenticated the records but not yet adopted a manifest. -/
structure Indexed (cr : Crypto) (st : ProfileStore) (N : Set Bytes) (s : World) (d : Dir)
    (F : Map Bytes) : Prop where
  dir : s.disk.dir? st.loc = some d
  isPrivate : s.disk.Private st.loc
  holds : Holds cr st d F
  index : ∀ n, n ∈ (s.mem st.loc).index ↔ n ∈ F
  healthy : (s.mem st.loc).poisoned = false
  bounded : Bounded F
  names : ∀ n ∈ F, n ∈ N

theorem wp_adoptLoaded {M : Manifest} (h : Indexed cr st N s d F) (hM : OnDisk cr st d F M)
    (hK : K s.disk) (hmid : ∀ d', SameRest d d' → Recovers cr st N d' (completed cr st M F) →
      K (s.disk.setDir st.loc d')) (ok : ∀ t d', t.disk = s.disk.setDir st.loc d' → SameRest d d' →
      Settled cr st N t d' (completed cr st M F) → (∀ l ≠ st.loc, t.mem l = s.mem l) →
      (M.pending = none → d' = d ∧ t.seals = s.seals) → Q (.ok ()) t) (failed : Faults A Q) :
    wp (machine cr) A (adoptLoaded cr st M (hashes cr d)) Q (fun t => K t.disk) s := by
  have hsame : s.disk.setDir st.loc d = s.disk := setDir_dir? h.dir
  cases hp : M.pending with
  | none =>
    have hF : completed cr st M F = F := completed_of_none hp
    simp only [adoptLoaded, hp]
    refine wp_modifyMem hK hK (ok _ d hsame.symm (.refl d) ?_
      (fun l hl => setMem_mem_of_ne _ _ hl) fun _ => ⟨rfl, rfl⟩)
    rw [hF]
    exact
      { dir := h.dir
        isPrivate := h.isPrivate
        onDisk := ⟨M, hM⟩
        mem := ⟨by simpa using entries_eq_of_verify hM.verified hp,
          by simpa using h.index⟩
        healthy := by simpa using h.healthy
        bounded := h.bounded
        names := h.names
        manifest := by simpa using hM
        pending := by simpa using hp }
  | some p =>
    have hpend : M.pending ≠ none := by
      rw [hp]
      exact nofun
    have hcontains : (!M.entries.contains p.tag && (hashes cr d).contains p.tag) = true ↔
        p.tag ∉ M.entries ∧ p.tag ∈ hashes cr d := by
      rw [Bool.and_eq_true, Bool.not_eq_true', Bool.eq_false_iff, ne_eq,
        Std.ExtTreeMap.contains_iff_mem, Std.ExtTreeMap.contains_iff_mem]
    simp only [adoptLoaded, hp, settlePending]
    rw [wp_bind, finishDelete]
    by_cases hdel : p.tag ∉ M.entries ∧ p.tag ∈ hashes cr d
    · -- a delete in flight whose file is still there
      obtain ⟨hout, hin⟩ := hdel
      obtain ⟨name, hname, htag⟩ := h.holds.name_of_mem_hashes hin
      obtain ⟨blob, hget, -, -⟩ :=
        h.holds.file name _ (Std.ExtTreeMap.getElem?_eq_some_getElem hname)
      rw [htag] at hget
      have hF := h.holds.completed_eq_update hp hout hname htag
      rw [hF] at hmid ok
      have hon := hM.delete hp hout hname htag
      have hB : Bounded (F.update name none) := h.bounded.update (.inl rfl)
      have hist : isTag p.tag = true := htag ▸ isTag_tagOf ..
      have hrest : SameRest d (d.set (.record p.tag) none) := fun f _ hf =>
        Dir.get_set_of_ne _ _ (hf p.tag)
      have hcomp : completed cr st M (F.update name none) = F.update name none := by
        refine hon.holds.completed_eq_self hp (.inr ?_)
        rw [mem_iff_isSome_getElem?, hashes_set_record _ _ hist, Map.getElem?_update_self]
        exact nofun
      have hK₁ : K (s.disk.setDir st.loc (d.set (.record p.tag) none)) :=
        hmid _ hrest ⟨_, M, hon, hB, names_update h.names (h.names name hname) none, hcomp.symm⟩
      rw [if_pos (hcontains.mpr ⟨hout, hin⟩), wp_bind]
      refine wp_removeFile h.dir hget nofun hK hK₁ ?_ failed.here failed.here
      rw [andThen_bind]
      refine wp_modifyMem hK₁ hK₁ ?_
      rw [andThen_bind]
      refine wp_syncDir (dir?_setDir h.dir _) hK₁ ?_ failed.here
      refine ⟨hK₁, ?_⟩
      have herase : (hashes cr d).erase p.tag = hashes cr (d.set (.record p.tag) none) :=
        (hashes_set_record d none hist).symm
      have hmemF : ∀ n, n ∈ F.update name none ↔ n ∈ F ∧ st.tag cr n ≠ p.tag := by
        intro n
        rw [mem_iff_isSome_getElem?, Map.getElem?_update]
        by_cases hn : n = name
        · subst hn
          simp [htag]
        · rw [if_neg hn, ← mem_iff_isSome_getElem?]
          refine ⟨fun hn' => ⟨hn', fun heq => hn ?_⟩, And.left⟩
          exact h.holds.tagFree hname n hn' (heq.trans htag.symm)
      rw [herase]
      refine wp_commitSettled (N := N) (dir?_setDir h.dir _) (h.isPrivate.setDir _)
        hon.manifest.ne_dir hon.holds hB ?_ (by simpa using h.healthy) ?_ hK₁ ?_ ?_ failed
      · intro n
        rw [hmemF n, ← h.index n]
        simp [Std.ExtTreeSet.mem_filter]
      · exact fun n hn => h.names n ((hmemF n).mp hn).1
      · intro d' hs hrec
        rw [setMem_disk, setDir_disk, setDir_setDir]
        exact hmid d' (hrest.trans hs) hrec
      · intro x b d' _ hd' hset
        refine ok _ d' ?_ (hrest.trans ?_) hset (fun l hl => ?_) fun hn => absurd hn hpend
        · rw [committed_disk, setMem_disk, setDir_disk, setDir_setDir, hd']
        · rw [hd']
          exact fun f hf _ => Dir.get_set_of_ne _ _ hf
        · rw [committed_mem_of_ne _ _ _ _ _ _ hl, setMem_mem_of_ne _ _ hl]
          rfl
    · -- nothing to delete: the files already are what the manifest will list
      have hF : completed cr st M F = F := h.holds.completed_eq_self hp (by tauto)
      rw [hF] at hmid ok
      rw [if_neg fun hcond => hdel (hcontains.mp hcond)]
      refine ⟨hK, ?_⟩
      refine wp_commitSettled h.dir h.isPrivate hM.manifest.ne_dir h.holds h.bounded h.index
        h.healthy h.names hK hmid (fun x b d' _ hd' hset => ok _ d' ?_ ?_ hset
          (fun l hl => committed_mem_of_ne _ _ _ _ _ _ hl) fun hn => absurd hn hpend) failed
      · rw [committed_disk, hd']
      · rw [hd']
        exact fun f hf _ => Dir.get_set_of_ne _ _ hf

/-! ### The latch -/

/-- The records after the latch was restored. -/
def latched (F : Map Bytes) : Map Bytes :=
  if manifestLatch ∈ F then F else F.update manifestLatch (some [])

theorem visible_latched (F : Map Bytes) : visible (latched F) = visible F := by
  rw [latched]
  split
  · rfl
  · rw [visible_update, if_pos isInternal_manifestLatch]

/-- A store without a manifest was given its first one, and then the latch. -/
def Adopted (cr : Crypto) (st : ProfileStore) (N : Set Bytes) (s : World) (d : Dir) (t : World)
    (d' : Dir) : Prop :=
  ∃ x blob s₁, SealsManifest cr st { generation := 1, entries := hashes cr d } x blob ∧
    s₁.seals = x :: s.seals ∧
    (s₁.mem st.loc).manifest = { generation := 1, entries := hashes cr d } ∧
    Written cr st N manifestLatch (some []) s₁ (d.set .manifest (some (privateFile blob))) ∅ t d'

/-- Loading took the directory `d` to `d'`, which holds the records of `F` and the latch. -/
structure Loaded (cr : Crypto) (st : ProfileStore) (N : Set Bytes) (F : Map Bytes) (s : World)
    (d : Dir) (t : World) (d' : Dir) : Prop where
  disk : t.disk = s.disk.setDir st.loc d'
  rest : SameRest d d'
  settled : Settled cr st N t d' (latched F)
  others : ∀ l ≠ st.loc, t.mem l = s.mem l
  adopted : d.get .manifest = none → Adopted cr st N s d t d'
  /-- A settled store with its latch is only read. -/
  quiet : ∀ M, OnDisk cr st d F M → M.pending = none → manifestLatch ∈ F →
    d' = d ∧ t.seals = s.seals

theorem OnDisk.manifest_ne_none {M : Manifest} (h : OnDisk cr st d F M) :
    d.get .manifest ≠ none := by
  obtain ⟨blob, hget, -⟩ := h.manifest
  rw [hget]
  exact nofun

theorem wp_restoreLatch (h : Settled cr st N s d F) (hN : TagInjOn cr st N) (hI : InternalIn N)
    (hK : K s.disk) (hmid : ∀ d' G, SameRest d d' → G = F ∨ G = latched F → Recovers cr st N d' G →
      K (s.disk.setDir st.loc d')) (ok : ∀ t d', Loaded cr st N F s d t d' → Q (.ok ()) t)
    (failed : Faults A Q) : wp (machine cr) A (restoreLatch cr st) Q (fun t => K t.disk) s := by
  rw [restoreLatch, wp_bind]
  refine wp_getMem hK ?_
  refine wp_onlyIf (fun hout => ?_) fun hin => ⟨hK, ?_⟩
  · have hout : manifestLatch ∉ F := by
      intro hin
      rw [← h.mem.index, ← Std.ExtTreeSet.contains_iff_mem] at hin
      simp [hin] at hout
    have hF : latched F = F.update manifestLatch (some []) := if_neg hout
    rw [hF] at hmid
    refine wp_putRecord_internal h.toReady hN hI.2 isInternal_manifestLatch
      validRecordName_manifestLatch hK (fun d' hsame hrec => ?_) (fun t d' hw => ?_)
      fun hA e t _ => failed hA e t
    · rcases hrec with hrec | hrec
      · exact hmid d' _ hsame.sameRest (.inl rfl) hrec
      · exact hmid d' _ hsame.sameRest (.inr rfl) hrec
    · refine ok t d' ⟨hw.disk, hw.same.sameRest, ?_, hw.others,
        fun habs => absurd habs h.manifest.manifest_ne_none, fun _ _ _ hin => absurd hin hout⟩
      rw [hF]
      exact hw.toSettled
  · have hin : manifestLatch ∈ F := by
      rw [← h.mem.index]
      simpa using hin
    refine ok s d ⟨(setDir_dir? h.dir).symm, .refl d, ?_, fun _ _ => rfl,
      fun habs => absurd habs h.manifest.manifest_ne_none, fun _ _ _ _ => ⟨rfl, rfl⟩⟩
    rw [latched, if_pos hin]
    exact h

/-! ### The manifest -/

/-- The directory can be opened as `F`: it recovers to `F`, or nothing was ever stored in it. -/
def Openable (cr : Crypto) (st : ProfileStore) (N : Set Bytes) (d : Dir) (F : Map Bytes) : Prop :=
  Recovers cr st N d F ∨ d.get .manifest = none ∧ Holds cr st d ∅ ∧ F = ∅

theorem Bounded.empty : Bounded ∅ := by
  have hkeys : (∅ : Map Bytes).keys = [] := keys_eq_nil_iff.mpr rfl
  simp [Bounded, userNames, hkeys]

/-- The first manifest of a store, and its latch. -/
theorem wp_adoptManifest {mayAdopt : Bool} (h : Indexed cr st N s d F)
    (habs : d.get .manifest = none) (hlatch : manifestLatch ∉ F) (hmay : F = ∅ ∨ mayAdopt = true)
    (hN : TagInjOn cr st N) (hI : InternalIn N) (hK : K s.disk)
    (hmid : ∀ d' G, SameRest d d' → G = F ∨ G = latched F → Recovers cr st N d' G →
      K (s.disk.setDir st.loc d'))
    (ok : ∀ x blob t d', SealsManifest cr st { generation := 1, entries := hashes cr d } x blob →
      Written cr st N manifestLatch (some [])
        (s.committed st d { generation := 1, entries := hashes cr d } x blob)
        (d.withManifest blob) F t d' → Q (.ok ()) t) (failed : Faults A Q) :
    wp (machine cr) A (adoptManifest cr st (hashes cr d) mayAdopt) Q (fun t => K t.disk) s := by
  have hindex : manifestLatch ∉ (s.mem st.loc).index := by
    rwa [h.index]
  have hallowed : ((hashes cr d).isEmpty || mayAdopt) = true := by
    rcases hmay with rfl | hmay
    · rw [Bool.or_eq_true, Std.ExtTreeMap.isEmpty_iff, Std.ExtTreeMap.eq_empty_iff_forall_not_mem]
      refine .inl fun tag htag => ?_
      obtain ⟨n, hn, -⟩ := h.holds.name_of_mem_hashes htag
      simp at hn
    · rw [hmay, Bool.or_true]
  have hlatched : latched F = F.update manifestLatch (some []) := if_neg hlatch
  rw [adoptManifest, wp_bind]
  refine wp_getMem hK ?_
  rw [andThen_bind]
  refine wp_require hK (fun _ => ?_) fun hbad => ?_
  swap
  · rw [Bool.or_eq_true] at hallowed
    rcases hallowed with hempty | hmay
    · simp [hindex, hempty] at hbad
    · simp [hindex, hmay] at hbad
  rw [andThen_bind]
  refine wp_commitSettled h.dir h.isPrivate (by rw [habs]; exact nofun) h.holds h.bounded h.index
    h.healthy h.names hK (fun d' hs hrec => hmid d' _ hs (.inl rfl) hrec)
    (fun x blob d₁ hseal hd₁ hset => ?_) failed
  subst hd₁
  have hrest : SameRest d (d.withManifest blob) := fun f hf _ => Dir.get_set_of_ne _ _ hf
  have hK₁ : K (s.committed st d { generation := 1, entries := hashes cr d } x blob).disk :=
    hmid _ _ hrest (.inl rfl) (hset.manifest.recovers h.bounded h.names hset.pending)
  refine wp_putRecord_internal hset.toReady hN hI.2 isInternal_manifestLatch
    validRecordName_manifestLatch hK₁ (fun d' hsame hrec => ?_)
    (fun t d' hw => ok x blob t d' hseal hw) fun hA e t _ => failed hA e t
  rw [committed_disk, setDir_setDir]
  rcases hrec with hrec | hrec
  · exact hmid d' _ (hrest.trans hsame.sameRest) (.inl rfl) hrec
  · exact hmid d' _ (hrest.trans hsame.sameRest) (.inr hlatched.symm) hrec

/-- Loading the manifest over records that were authenticated as `F`. -/
theorem wp_loadManifest {mayAdopt : Bool} (hd : s.disk.dir? st.loc = some d)
    (hholds : Holds cr st d F) (hK : K s.disk) (absent : d.get .manifest = none →
      wp (machine cr) A (adoptManifest cr st (hashes cr d) mayAdopt) Q (fun t => K t.disk) s)
    (present : ∀ M, OnDisk cr st d F M →
      wp (machine cr) A (adoptLoaded cr st M (hashes cr d) >>= fun _ => restoreLatch cr st) Q
        (fun t => K t.disk) s)
    (failed : ∀ e, (FaultFree A → d.get .manifest ≠ none ∧ ∀ M, ¬OnDisk cr st d F M) →
      Q (.error e) s) :
    wp (machine cr) A (loadManifest cr st (hashes cr d) mayAdopt) Q (fun t => K t.disk) s := by
  have hfault : ∀ e, ¬FaultFree A → Q (.error e) s := fun e hA => failed e fun h => absurd h hA
  rw [loadManifest, wp_bind]
  refine wp_ifPresent ?_
  rw [readManifestBlob, readPrivateFile, wp_bind]
  cases hget : d.get .manifest with
  | none => exact wp_read_absent hd hget hK ⟨hK, absent hget⟩ fun hA => ⟨hK, hfault _ hA⟩
  | some entry =>
    -- the manifest file is not one that was written for these records
    have hbad : ∀ e, (∀ M, ¬OnDisk cr st d F M) → Q (.error e) s := fun e hno =>
      failed e fun _ => ⟨by simp [hget], hno⟩
    refine wp_read hd hget hK ?_ fun hA => ⟨hK, hfault _ hA⟩
    rw [andThen_ok]
    split
    · rename_i blob
      split
      · rename_i hlong
        refine ⟨hK, hK, hbad _ fun M hM => ?_⟩
        obtain ⟨b, hb, hlen, -⟩ := hM.manifest
        rw [hget] at hb
        cases hb
        exact absurd hlen (Nat.not_le.mpr hlong)
      · rename_i hshort
        refine ⟨hK, hK, ?_⟩
        rw [absentAsNone, andThen_ok, wp_bind, wp_ofExcept]
        refine ⟨hK, ?_⟩
        cases hopen : Manifest.openBlob cr st.bundle.manifest st.profile blob with
        | error e =>
          refine hbad e fun M hM => ?_
          obtain ⟨b, hb, -, hopen'⟩ := hM.manifest
          rw [hget] at hb
          cases hb
          rw [hopen] at hopen'
          cases hopen'
        | ok M =>
          rw [andThen_bind, wp_ofExcept]
          refine ⟨hK, ?_⟩
          cases hver : M.verify (hashes cr d) with
          | ok _ =>
            exact present M ⟨hholds, ⟨blob, hget, Nat.not_lt.mp hshort, hopen⟩, hver⟩
          | error e =>
            refine hbad e fun M' hM => ?_
            obtain ⟨b, hb, -, hopen'⟩ := hM.manifest
            rw [hget] at hb
            cases hb
            rw [hopen] at hopen'
            cases hopen'
            rw [hM.verified] at hver
            cases hver
    · rename_i hne
      refine ⟨hK, hK, hbad _ fun M hM => ?_⟩
      obtain ⟨b, hb, -⟩ := hM.manifest
      rw [hget] at hb
      cases hb
      exact absurd rfl (hne b)

end Powehi.Store
