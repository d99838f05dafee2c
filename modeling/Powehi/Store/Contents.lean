import Powehi.Store.Profile

/-!
# What a directory holds

The abstract view of a profile directory: a map from record names to payloads. `Holds`
connects it to the files; `hashes` is the map a settled manifest must list; `OnDisk` adds
that the manifest file opens and passes verification.
-/

namespace Powehi.Store

open Codec List Std.ExtTreeMap Map

variable {f : FileName} {name : Bytes} {v : Option Bytes}

/-! ### Files and hashes -/

/-- The hash of a regular file. -/
def entryHash (cr : Crypto) : Option Entry → Option Digest
  | some (.file b _) => some (cr.sha256 b)
  | _ => none

/-- Absent, or a private file that is not too large for a record. -/
def Plain (e : Option Entry) : Prop :=
  ∀ x ∈ e, ∃ b, x = privateFile b ∧ b.length ≤ maxBlobLen

/-- The hash of every record file, by tag. -/
def hashes (cr : Crypto) (d : Dir) : Map Digest :=
  d.records.filterMap fun stem e => if isTag stem then entryHash cr (some e) else none

section Hashes

variable {cr : Crypto}

theorem getElem?_hashes (d : Dir) (tag : Bytes) :
    (hashes cr d)[tag]? = if isTag tag then entryHash cr (d.get (.record tag)) else none := by
  simp only [hashes, getElem?_filterMap', Dir.get]
  cases d.records[tag]? with
  | none => simp [entryHash]
  | some e => simp

theorem isTag_of_mem_hashes {d : Dir} {tag : Bytes} (h : tag ∈ hashes cr d) : isTag tag = true := by
  rw [mem_iff_isSome_getElem?, getElem?_hashes] at h
  by_contra hn
  simp [hn] at h

theorem isSome_of_mem_hashes {d : Dir} {tag : Bytes} (h : tag ∈ hashes cr d) :
    (d.get (.record tag)).isSome := by
  rw [mem_iff_isSome_getElem?, getElem?_hashes] at h
  cases hget : d.get (.record tag) with
  | some e => rfl
  | none => simp [hget, entryHash] at h

/-- The hashes only depend on the record files. -/
theorem hashes_congr {d d' : Dir} (h : ∀ stem, d'.get (.record stem) = d.get (.record stem)) :
    hashes cr d' = hashes cr d := by
  apply Std.ExtTreeMap.ext_getElem?
  intro tag
  rw [getElem?_hashes, getElem?_hashes, h tag]

theorem hashes_set_of_ne (d : Dir) (e : Option Entry) (h : ∀ stem, f ≠ .record stem) :
    hashes cr (d.set f e) = hashes cr d :=
  hashes_congr fun stem => d.get_set_of_ne e (h stem).symm

theorem hashes_set_record (d : Dir) {tag : Bytes} (e : Option Entry) (h : isTag tag = true) :
    hashes cr (d.set (.record tag) e) = (hashes cr d).update tag (entryHash cr e) := by
  apply Std.ExtTreeMap.ext_getElem?
  intro t
  rw [getElem?_hashes, getElem?_update, Dir.get_set, getElem?_hashes]
  by_cases ht : t = tag
  · simp [ht, h]
  · simp [ht]

end Hashes

/-! ### Records -/

/-- The tag of a name under a handle's name key. -/
abbrev ProfileStore.tag (st : ProfileStore) (cr : Crypto) (name : Bytes) : Bytes :=
  tagOf cr st.bundle.name name

/-- The entry that stands for a record with the given payload, or for no record. -/
def IsEntry (cr : Crypto) (st : ProfileStore) (name : Bytes) : Option Bytes → Option Entry → Prop
  | none, e => e = none
  | some payload, e => ∃ blob, e = some (privateFile blob) ∧ blob.length ≤ maxBlobLen ∧
      decodeRecord cr st.profile st.bundle (st.tag cr name) blob = .ok (name, payload)

/-- The record files of a directory are exactly the records of `F`. -/
structure Holds (cr : Crypto) (st : ProfileStore) (d : Dir) (F : Map Bytes) : Prop where
  file : ∀ name payload, F[name]? = some payload →
    IsEntry cr st name (some payload) (d.get (.record (st.tag cr name)))
  name : ∀ stem, isTag stem = true → (d.get (.record stem)).isSome →
    ∃ name ∈ F, st.tag cr name = stem

/-- `name` does not share its tag with another name of `F`. -/
def TagFree (cr : Crypto) (st : ProfileStore) (F : Map Bytes) (name : Bytes) : Prop :=
  ∀ n ∈ F, st.tag cr n = st.tag cr name → n = name

section Holds

variable {cr : Crypto} {st : ProfileStore} {d d' : Dir} {F : Map Bytes}

theorem IsEntry.plain {e : Option Entry} (h : IsEntry cr st name v e) : Plain e := by
  cases v with
  | none =>
    obtain rfl : e = none := h
    intro x hx
    cases hx
  | some payload =>
    obtain ⟨blob, rfl, hlen, -⟩ := h
    rintro x ⟨⟩
    exact ⟨blob, rfl, hlen⟩

theorem Holds.isEntry (h : Holds cr st d F) (hname : name ∈ F) :
    IsEntry cr st name F[name]? (d.get (.record (st.tag cr name))) := by
  rw [mem_iff_isSome_getElem?, Option.isSome_iff_exists] at hname
  obtain ⟨payload, hp⟩ := hname
  rw [hp]
  exact h.file name payload hp

theorem Holds.plain (h : Holds cr st d F) {stem : Bytes} (hstem : isTag stem = true) :
    Plain (d.get (.record stem)) := by
  intro x hx
  obtain ⟨name, hname, rfl⟩ := h.name stem hstem (by rw [hx]; rfl)
  exact (h.isEntry hname).plain x hx

theorem Holds.valid (h : Holds cr st d F) (hname : name ∈ F) : validRecordName name = true := by
  rw [mem_iff_isSome_getElem?, Option.isSome_iff_exists] at hname
  obtain ⟨payload, hp⟩ := hname
  obtain ⟨blob, -, -, hdec⟩ := h.file name payload hp
  exact (decodeRecord_tag hdec).1

theorem Holds.tagFree (h : Holds cr st d F) (hname : name ∈ F) : TagFree cr st F name := by
  intro n hn htag
  rw [mem_iff_isSome_getElem?, Option.isSome_iff_exists] at hname hn
  obtain ⟨payload, hp⟩ := hname
  obtain ⟨payload', hp'⟩ := hn
  obtain ⟨blob, hget, -, hdec⟩ := h.file name payload hp
  obtain ⟨blob', hget', -, hdec'⟩ := h.file n payload' hp'
  -- the same file decodes under both names
  rw [htag, hget] at hget'
  cases hget'
  rw [htag, hdec] at hdec'
  cases hdec'
  rfl

theorem Holds.tag_mem_hashes (h : Holds cr st d F) (hname : name ∈ F) :
    st.tag cr name ∈ hashes cr d := by
  rw [mem_iff_isSome_getElem?, Option.isSome_iff_exists] at hname
  obtain ⟨payload, hp⟩ := hname
  obtain ⟨blob, hget, -, -⟩ := h.file name payload hp
  rw [mem_iff_isSome_getElem?, getElem?_hashes, isTag_tagOf, hget]
  rfl

theorem Holds.name_of_mem_hashes (h : Holds cr st d F) {tag : Bytes} (htag : tag ∈ hashes cr d) :
    ∃ name ∈ F, st.tag cr name = tag := by
  have hist := isTag_of_mem_hashes htag
  refine h.name tag hist ?_
  rw [mem_iff_isSome_getElem?, getElem?_hashes, if_pos hist] at htag
  cases hg : d.get (.record tag) with
  | none =>
    rw [hg] at htag
    cases htag
  | some e => rfl

theorem Holds.congr (h : Holds cr st d F)
    (hd : ∀ stem, isTag stem = true → d'.get (.record stem) = d.get (.record stem)) :
    Holds cr st d' F where
  file name payload hp := by
    rw [hd _ (isTag_tagOf ..)]
    exact h.file name payload hp
  name stem hstem hsome := by
    rw [hd stem hstem] at hsome
    exact h.name stem hstem hsome

theorem Holds.set_of_ne (h : Holds cr st d F) (e : Option Entry) (hf : ∀ stem, f ≠ .record stem) :
    Holds cr st (d.set f e) F :=
  h.congr fun stem _ => d.get_set_of_ne e (hf stem).symm

/-- Replacing the file of one record changes that record and no other. -/
theorem Holds.update (h : Holds cr st d F) {e : Option Entry} (hfree : TagFree cr st F name)
    (he : IsEntry cr st name v e) :
    Holds cr st (d.set (.record (st.tag cr name)) e) (F.update name v) where
  file n payload hp := by
    rw [getElem?_update] at hp
    by_cases hn : n = name
    · rw [if_pos hn] at hp
      subst hn hp
      rw [Dir.get_set_self]
      exact he
    · rw [if_neg hn] at hp
      have hmem : n ∈ F := by
        rw [mem_iff_isSome_getElem?, hp]
        rfl
      rw [Dir.get_set_of_ne _ _ fun heq => hn (hfree n hmem (by injection heq))]
      exact h.file n payload hp
  name stem hstem hsome := by
    rw [Dir.get_set] at hsome
    split at hsome
    · rename_i heq
      injection heq with heq
      refine ⟨name, ?_, heq.symm⟩
      rw [mem_iff_isSome_getElem?, getElem?_update_self]
      cases v with
      | some payload => rfl
      | none =>
        obtain rfl : e = none := he
        cases hsome
    · rename_i hne
      obtain ⟨n, hn, htag⟩ := h.name stem hstem hsome
      refine ⟨n, ?_, htag⟩
      have : n ≠ name := by
        rintro rfl
        exact hne (by rw [htag])
      rwa [mem_iff_isSome_getElem?, getElem?_update, if_neg this,
        ← mem_iff_isSome_getElem?]

end Holds

/-! ### Limits -/

/-- The names of a map that are not internal. -/
def userNames (F : Map Bytes) : List Bytes := F.keys.filter fun n => !isInternal n

/-- The map keeps to the limit on user records. -/
def Bounded (F : Map Bytes) : Prop := (userNames F).length ≤ maxRecords

section Limits

variable {F : Map Bytes} {index : Names}

theorem nodup_userNames (F : Map Bytes) : (userNames F).Nodup := F.nodup_keys.filter _

theorem mem_userNames {n : Bytes} : n ∈ userNames F ↔ n ∈ F ∧ isInternal n = false := by
  simp [userNames]

/-- There are two internal names, so a bounded map has at most two records above the limit. -/
theorem Bounded.size_le (h : Bounded F) : F.size ≤ maxRecords + 2 := by
  have hinternal : (F.keys.filter isInternal).length ≤ [marker, manifestLatch].length := by
    refine ((F.nodup_keys.filter _).subperm fun n hn => ?_).length_le
    have := (mem_filter.mp hn).2
    simpa [isInternal] using this
  have hsplit := length_eq_length_filter_add (l := F.keys) isInternal
  rw [length_keys] at hsplit
  have := show (F.keys.filter fun n => !isInternal n).length ≤ maxRecords from h
  simp only [length_cons, length_nil] at hinternal
  omega

/-- A map of records stays bounded unless a user record is added at the limit. -/
theorem Bounded.update (h : Bounded F)
    (hnew : v = none ∨ name ∈ F ∨ isInternal name = true ∨ (userNames F).length < maxRecords) :
    Bounded (F.update name v) := by
  have hsub : ∀ n ∈ userNames (F.update name v), n = name ∧ v ≠ none ∨ n ∈ userNames F := by
    intro n hn
    obtain ⟨hmem, hint⟩ := mem_userNames.mp hn
    rw [mem_iff_isSome_getElem?, getElem?_update] at hmem
    split at hmem
    · rename_i heq
      refine .inl ⟨heq, ?_⟩
      rintro rfl
      cases hmem
    · exact .inr (mem_userNames.mpr ⟨mem_iff_isSome_getElem?.mpr hmem, hint⟩)
  by_cases hgrow : (userNames F).length < maxRecords
  · have hle : (userNames (F.update name v)).length ≤ (name :: userNames F).length := by
      refine ((nodup_userNames _).subperm fun n hn => ?_).length_le
      rcases hsub n hn with ⟨rfl, -⟩ | hn
      · exact mem_cons_self
      · exact mem_cons_of_mem _ hn
    exact hle.trans hgrow
  · refine le_trans (((nodup_userNames _).subperm fun n hn => ?_).length_le) h
    rcases hsub n hn with ⟨rfl, hv⟩ | hn'
    · obtain ⟨-, hint⟩ := mem_userNames.mp hn
      rcases hnew with hv' | hmem | hint' | hlt
      · exact absurd hv' hv
      · exact mem_userNames.mpr ⟨hmem, hint⟩
      · rw [hint] at hint'
        cases hint'
      · exact absurd hlt hgrow
    · exact hn'

/-- The number of user records an index shows is that of the map it lists. -/
theorem userRecords_eq (h : ∀ n, n ∈ index ↔ n ∈ F) : userRecords index = (userNames F).length := by
  have hnodup : index.toList.Nodup :=
    index.distinct_toList.imp fun hne heq => hne (Std.compare_eq_iff_eq.mpr heq)
  have hperm : index.toList.Perm F.keys := by
    rw [perm_ext_iff_of_nodup hnodup F.nodup_keys]
    intro n
    rw [Std.ExtTreeSet.mem_toList, Std.ExtTreeMap.mem_keys]
    exact h n
  have hsplit := length_eq_length_filter_add (l := index.toList) isInternal
  rw [Std.ExtTreeSet.length_toList] at hsplit
  rw [userRecords, userNames, ← (hperm.filter _).length_eq]
  omega

end Limits

/-! ### Manifests on disk -/

/-- The directory's manifest file opens to `M`. -/
def ManifestOn (cr : Crypto) (st : ProfileStore) (d : Dir) (M : Manifest) : Prop :=
  ∃ blob, d.get .manifest = some (privateFile blob) ∧ blob.length ≤ Manifest.maxBlobLen ∧
    Manifest.openBlob cr st.bundle.manifest st.profile blob = .ok M

/-- The directory holds the records of `F` under a manifest that accepts them. -/
structure OnDisk (cr : Crypto) (st : ProfileStore) (d : Dir) (F : Map Bytes) (M : Manifest) :
    Prop where
  holds : Holds cr st d F
  manifest : ManifestOn cr st d M
  verified : M.verify (hashes cr d) = .ok ()

/-- The memory of a handle describes the directory. -/
structure InStep (cr : Crypto) (m : Mem) (d : Dir) (F : Map Bytes) : Prop where
  entries : m.manifest.entries = hashes cr d
  index : ∀ n, n ∈ m.index ↔ n ∈ F

section Manifests

variable {cr : Crypto} {st : ProfileStore} {d : Dir} {F : Map Bytes} {M : Manifest}

/-- The directory with another manifest. -/
abbrev Dir.withManifest (d : Dir) (blob : Bytes) : Dir := d.set .manifest (some (privateFile blob))

theorem ManifestOn.of_blob {blob : Bytes} (h : M.IsBlob cr st.bundle.manifest st.profile blob)
    (hwf : M.WellFormed) (d : Dir) : ManifestOn cr st (d.withManifest blob) M :=
  ⟨blob, Dir.get_set_self .., h.length_le hwf, h.openBlob hwf⟩

theorem ManifestOn.set_of_ne (h : ManifestOn cr st d M) (e : Option Entry) (hf : f ≠ .manifest) :
    ManifestOn cr st (d.set f e) M := by
  obtain ⟨blob, hget, hrest⟩ := h
  exact ⟨blob, by rw [Dir.get_set_of_ne _ _ hf.symm, hget], hrest⟩

theorem ManifestOn.ne_dir (h : ManifestOn cr st d M) : d.get .manifest ≠ some .dir := by
  obtain ⟨blob, hget, -⟩ := h
  rw [hget]
  exact nofun

/-- A directory has one manifest only. -/
theorem ManifestOn.unique {M' : Manifest} (h : ManifestOn cr st d M) (h' : ManifestOn cr st d M') :
    M = M' := by
  obtain ⟨blob, hget, -, hopen⟩ := h
  obtain ⟨blob', hget', -, hopen'⟩ := h'
  rw [hget] at hget'
  cases hget'
  rw [hopen] at hopen'
  cases hopen'
  rfl

/-- A manifest that lists only tags of a bounded map's records can be written. -/
theorem Manifest.wellFormed_of_tags (hF : Bounded F)
    (htags : ∀ tag ∈ M.entries, ∃ name ∈ F, st.tag cr name = tag)
    (hpending : ∀ p ∈ M.pending, isTag p.tag = true) : M.WellFormed where
  tags tag h := by
    obtain ⟨name, -, rfl⟩ := htags tag h
    exact isTag_tagOf ..
  pending := hpending
  size := by
    have hle : M.entries.size ≤ (F.keys.map (st.tag cr)).length := by
      refine size_le_length fun tag h => ?_
      obtain ⟨name, hname, rfl⟩ := htags tag h
      exact mem_map_of_mem (mem_keys.mpr hname)
    rw [length_map, length_keys] at hle
    exact hle.trans hF.size_le

/-- The pending manifest accepts the record in its old state. -/
theorem Manifest.verify_mutating_old (M : Manifest) (tag : Bytes) (new : Option Digest) :
    (M.mutating tag new).verify M.entries = .ok () := by
  rw [Manifest.verify_ok_iff]
  intro t
  simp only [mutating, getElem?_update]
  by_cases h : t = tag
  · exact .inr (by rw [h])
  · exact .inl (by rw [if_neg h])

/-- The pending manifest accepts the record in its new state. -/
theorem Manifest.verify_mutating_new (M : Manifest) (tag : Bytes) (new : Option Digest) :
    (M.mutating tag new).verify (M.entries.update tag new) = .ok () := by
  rw [Manifest.verify_ok_iff]
  exact fun t => .inl rfl

/-- The pending manifest accepts nothing else. -/
theorem Manifest.eq_of_verify_mutating {M : Manifest} {tag : Bytes} {new : Option Digest}
    {found : Map Digest} (h : (M.mutating tag new).verify found = .ok ()) :
    found = M.entries.update tag new ∨ found = M.entries := by
  rw [Manifest.verify_ok_iff] at h
  simp only [mutating, Option.some.injEq, Pending.mk.injEq] at h
  have hne : ∀ t, t ≠ tag → found[t]? = M.entries[t]? := by
    intro t ht
    rcases h t with hsame | ⟨heq, -⟩
    · rwa [getElem?_update, if_neg ht] at hsame
    · exact absurd heq.symm ht
  rcases h tag with hnew | ⟨-, hold⟩
  · left
    apply Std.ExtTreeMap.ext_getElem?
    intro t
    by_cases ht : t = tag
    · rw [ht, hnew]
    · rw [hne t ht, getElem?_update, if_neg ht]
  · right
    apply Std.ExtTreeMap.ext_getElem?
    intro t
    by_cases ht : t = tag
    · rw [ht, ← hold]
    · exact hne t ht

theorem Manifest.verify_self (M : Manifest) : M.verify M.entries = .ok () := by
  rw [Manifest.verify_ok_iff]
  exact fun t => .inl rfl

end Manifests

end Powehi.Store
