import Powehi.Store.Manifest

/-!
# The manifest format

Manifests are parsed by a reader that is not the writer run backwards: it accepts entries in any
order, where the writer sorts them. What is accepted is well formed, no encoding is a proper
beginning of another, and an accepted byte string is an encoding exactly if its tags ascend.
-/

namespace Powehi.Store

open Codec Semantics Program List

namespace Manifest

/-! ### What the reader accepts -/

theorem isTag_toHex (raw : Block 16) : isTag (toHex raw.1) = true := by
  simp [isTag, raw.2, all_isLowerHex_toHex, tagHexLen]

theorem tagBytes_toHex (raw : Block 16) : tagBytes (toHex raw.1) = some raw.1 := by
  rw [tagBytes, if_pos (isTag_toHex raw), ofHex_toHex]

section Accepted

variable {n : ℕ} {entries out : Map Digest} {b rest : Bytes} {p : Option Pending} {m : Manifest}

/-- One entry is read off the front. -/
theorem decodeEntries_succ (h : decodeEntries (n + 1) entries b = some (out, rest)) :
    ∃ (raw : Block 16) (hash : Digest) (b' : Bytes), b = raw.1 ++ (hash.1 ++ b') ∧
      toHex raw.1 ∉ entries ∧
      decodeEntries n (entries.insert (toHex raw.1) hash) b' = some (out, rest) := by
  simp only [decodeEntries, Option.bind_eq_bind, Option.bind_eq_some_iff, Prod.exists] at h
  obtain ⟨raw, b₁, hraw, hash, b₂, hhash, h⟩ := h
  split at h
  · cases h
  · rename_i hfresh
    refine ⟨raw, hash, b₂, ?_, hfresh, h⟩
    rw [readBlock_eq_some hraw, readBlock_eq_some hhash]

/-- The three forms of the tail. -/
theorem decodePending_cases (h : decodePending b = some p) :
    (b = [0] ∧ p = none) ∨
    (∃ raw : Block 16, b = 1 :: (raw.1 ++ [0]) ∧ p = some ⟨toHex raw.1, none⟩) ∨
    ∃ (raw : Block 16) (hash : Digest), b = 1 :: (raw.1 ++ 1 :: hash.1) ∧
      p = some ⟨toHex raw.1, some hash⟩ := by
  unfold decodePending at h
  split at h
  · cases h
    exact .inl ⟨rfl, rfl⟩
  · rename_i b
    simp only [Option.bind_eq_bind, Option.bind_eq_some_iff, Prod.exists] at h
    obtain ⟨raw, b₁, hraw, h⟩ := h
    rw [readBlock_eq_some hraw]
    split at h
    · cases h
      exact .inr (.inl ⟨raw, rfl, rfl⟩)
    · simp only [Option.bind_eq_some_iff, Prod.exists] at h
      obtain ⟨hash, b₂, hhash, h⟩ := h
      rw [readBlock_eq_some hhash]
      split at h
      · rename_i hempty
        cases h
        refine .inr (.inr ⟨raw, hash, ?_, rfl⟩)
        rw [isEmpty_iff.mp hempty, append_nil]
      · cases h
    · cases h
  · cases h

/-- The parts of an accepted byte string. -/
theorem decode_parts (h : decode b = .ok m) :
    ∃ (generation : Block 8) (count : Block 4) (body rest : Bytes),
      b = generation.1 ++ (count.1 ++ body) ∧ ofBe count.1 ≤ maxRecords + 2 ∧
      decodeEntries (ofBe count.1) ∅ body = some (m.entries, rest) ∧
      decodePending rest = some m.pending ∧ m.generation = UInt64.ofNat (ofBe generation.1) := by
  unfold decode at h
  split at h
  · rename_i m' hm
    cases h
    simp only [decode?, Option.bind_eq_bind, Option.bind_eq_some_iff, Prod.exists] at hm
    obtain ⟨generation, b₁, hgen, count, b₂, hcount, hm⟩ := hm
    split at hm
    · cases hm
    · rename_i hle
      simp only [Option.bind_eq_some_iff, Prod.exists] at hm
      obtain ⟨entries, rest, hentries, pending, hpending, hm⟩ := hm
      cases hm
      refine ⟨generation, count, b₂, rest, ?_, Nat.not_lt.mp hle, hentries, hpending, rfl⟩
      rw [readBlock_eq_some hgen, readBlock_eq_some hcount]
  · cases h

end Accepted

/-! ### Encodings are prefix-free -/

section Prefixes

variable {n : ℕ} {entries out : Map Digest} {b rest : Bytes} {p q : Option Pending}
  {m m' : Manifest}

theorem decodeEntries_append (h : decodeEntries n entries b = some (out, rest)) (s : Bytes) :
    decodeEntries n entries (b ++ s) = some (out, rest ++ s) := by
  induction n generalizing entries b with
  | zero =>
    cases h
    rfl
  | succ n ih =>
    obtain ⟨raw, hash, b', rfl, hfresh, h⟩ := decodeEntries_succ h
    simp only [append_assoc, decodeEntries, readBlock_append, Option.bind_eq_bind,
      Option.bind_some, hfresh, if_false]
    exact ih h

/-- The tail has to end where it ends. -/
theorem decodePending_append {s : Bytes} (h : decodePending b = some p)
    (h' : decodePending (b ++ s) = some q) : s = [] := by
  cases s with
  | nil => rfl
  | cons x s =>
    obtain ⟨rfl, -⟩ | ⟨raw, rfl, -⟩ | ⟨raw, hash, rfl, -⟩ := decodePending_cases h
    · simp [decodePending] at h'
    · simp [decodePending] at h'
    · simp [decodePending] at h'

theorem decode_append {s : Bytes} (h : decode b = .ok m) (h' : decode (b ++ s) = .ok m') :
    s = [] := by
  obtain ⟨generation, count, body, rest, rfl, -, hentries, hpending, -⟩ := decode_parts h
  obtain ⟨generation', count', body', rest', heq, -, hentries', hpending', -⟩ := decode_parts h'
  -- both are read through the same header
  rw [append_assoc, append_assoc] at heq
  obtain ⟨hgen, heq⟩ := append_inj heq (by rw [generation.2, generation'.2])
  obtain ⟨hcount, rfl⟩ := append_inj heq (by rw [count.2, count'.2])
  rw [← hcount, decodeEntries_append hentries, Option.some.injEq, Prod.mk.injEq] at hentries'
  rw [← hentries'.2] at hpending'
  exact decodePending_append hpending hpending'

end Prefixes

/-- A well-formed manifest has one encoding, within the size limit, that is read back as the
manifest and of which no proper beginning and no continuation is accepted. -/
theorem encoding_exact {m : Manifest} (h : m.WellFormed) :
    ∃ b, m.encode = .ok b ∧ decode b = .ok m ∧ b.length ≤ maxManifestLen ∧
      (∀ front back, b = front ++ back → back ≠ [] → decode front = .error .manifestCorrupt) ∧
      ∀ back, back ≠ [] → decode (b ++ back) = .error .manifestCorrupt := by
  have refused : ∀ c, (∀ m', decode c ≠ .ok m') → decode c = .error .manifestCorrupt := by
    intro c hc
    unfold decode at hc ⊢
    split
    · rename_i m' hm
      exact absurd (by rw [hm]) (hc m')
    · rfl
  obtain ⟨b, hb, hlen, hdec⟩ := decode_encode h
  refine ⟨b, hb, hdec, hlen, ?_, ?_⟩
  · intro front back hsplit hback
    apply refused
    intro m' hfront
    rw [hsplit] at hdec
    exact hback (decode_append hfront hdec)
  · intro back hback
    apply refused
    intro m' hmore
    exact hback (decode_append hdec hmore)

/-- A manifest with one record, and another being created. -/
def Sample.manifest : Manifest where
  generation := 7
  entries := (∅ : Map Digest).insert (toHex (List.replicate 16 10)) (Block.zero 32)
  pending := some ⟨toHex (List.replicate 16 11), none⟩

theorem Sample.manifest_wellFormed : Sample.manifest.WellFormed where
  tags tag htag := by
    rcases Std.ExtTreeMap.mem_insert.mp htag with heq | hnone
    · rw [← Std.compare_eq_iff_eq.mp heq]
      exact isTag_toHex ⟨replicate 16 10, rfl⟩
    · simp at hnone
  pending p hp := by
    cases hp
    exact isTag_toHex ⟨replicate 16 11, rfl⟩
  size := by decide +kernel

theorem sample_encoding_exact : ∃ b, Sample.manifest.encode = .ok b ∧
    decode b = .ok Sample.manifest ∧ b.length ≤ maxManifestLen ∧
    (∀ front back, b = front ++ back → back ≠ [] → decode front = .error .manifestCorrupt) ∧
    ∀ back, back ≠ [] → decode (b ++ back) = .error .manifestCorrupt :=
  encoding_exact Sample.manifest_wellFormed

/-! ### Which accepted byte strings are encodings -/

/-- Entries as the file has them: raw tag and hash, one after another. -/
def layout (l : List (Block 16 × Digest)) : Bytes := l.flatMap fun e => e.1.1 ++ e.2.1

/-- An entry under the tag's text. -/
def named (e : Block 16 × Digest) : Bytes × Digest := (toHex e.1.1, e.2)

theorem named_injective : Function.Injective named := by
  rintro ⟨raw, hash⟩ ⟨raw', hash'⟩ h
  obtain ⟨htag, hhash⟩ := Prod.mk.inj h
  exact Prod.ext (Subtype.ext (toHex_injective htag)) hhash

@[simp] theorem layout_cons (e : Block 16 × Digest) (l : List (Block 16 × Digest)) :
    layout (e :: l) = e.1.1 ++ (e.2.1 ++ layout l) := by
  simp [layout]

theorem layout_injective {l l' : List (Block 16 × Digest)} (hlen : l.length = l'.length)
    (h : layout l = layout l') : l = l' := by
  induction l generalizing l' with
  | nil => exact (length_eq_zero_iff.mp hlen.symm).symm
  | cons e l ih =>
    obtain ⟨e', l', rfl⟩ := exists_cons_of_length_eq_add_one hlen.symm
    rw [layout_cons, layout_cons] at h
    obtain ⟨hraw, h⟩ := append_inj h (by rw [e.1.2, e'.1.2])
    obtain ⟨hhash, h⟩ := append_inj h (by rw [e.2.2, e'.2.2])
    rw [Prod.ext (Subtype.ext hraw) (Subtype.ext hhash), ih (by simpa using hlen) h]

/-- The writer lays out the entries it is given, if their tags are tags. -/
theorem encodeEntries_eq_some {l : List (Bytes × Digest)} {c : Bytes} :
    encodeEntries l = some c ↔ ∃ raws, l = raws.map named ∧ c = layout raws := by
  induction l generalizing c with
  | nil =>
    constructor
    · intro h
      cases h
      exact ⟨[], rfl, rfl⟩
    · rintro ⟨raws, hl, rfl⟩
      rw [map_eq_nil_iff.mp hl.symm]
      rfl
  | cons e l ih =>
    obtain ⟨tag, hash⟩ := e
    constructor
    · intro h
      simp only [encodeEntries, Option.bind_eq_bind, Option.bind_eq_some_iff] at h
      obtain ⟨raw, hraw, tail, htail, h⟩ := h
      have htag : isTag tag = true := by
        by_contra hn
        simp [tagBytes, hn] at hraw
      obtain ⟨block, hblock, hhex⟩ := tagBytes_of_isTag htag
      rw [hblock] at hraw
      cases hraw
      cases h
      obtain ⟨raws, rfl, rfl⟩ := ih.mp htail
      exact ⟨(block, hash) :: raws, by rw [map_cons, named, hhex], by rw [layout_cons]⟩
    · rintro ⟨raws, hl, rfl⟩
      obtain ⟨⟨raw, hash'⟩, raws, rfl, he, rfl⟩ := map_eq_cons_iff.mp hl.symm
      cases he
      simp [encodeEntries, tagBytes_toHex, ih.mpr ⟨raws, rfl, rfl⟩]

/-- The reader inserts the entries it finds, all of them new. -/
theorem decodeEntries_eq_some {n : ℕ} {entries out : Map Digest} {b rest : Bytes}
    (h : decodeEntries n entries b = some (out, rest)) :
    ∃ l : List (Block 16 × Digest), l.length = n ∧ b = layout l ++ rest ∧
      out = entries.insertMany (l.map named) ∧ (∀ e ∈ l, (named e).1 ∉ entries) ∧
      (l.map named).Pairwise fun x y => ¬compare x.1 y.1 = .eq := by
  induction n generalizing entries b with
  | zero =>
    cases h
    exact ⟨[], rfl, rfl, rfl, nofun, .nil⟩
  | succ n ih =>
    obtain ⟨raw, hash, b', rfl, hfresh, h⟩ := decodeEntries_succ h
    obtain ⟨l, rfl, rfl, rfl, hnew, hpw⟩ := ih h
    -- the later entries are new to a map that has this one
    have hlater : ∀ e ∈ l, ¬compare (toHex raw.1) (named e).1 = .eq ∧ (named e).1 ∉ entries := by
      intro e he
      have := hnew e he
      rw [Std.ExtTreeMap.mem_insert] at this
      exact not_or.mp this
    refine ⟨(raw, hash) :: l, rfl, by simp, ?_, ?_, ?_⟩
    · rw [map_cons, Std.ExtTreeMap.insertMany_cons]
      rfl
    · intro e he
      rcases mem_cons.mp he with rfl | he
      · exact hfresh
      · exact (hlater e he).2
    · rw [map_cons, pairwise_cons]
      refine ⟨?_, hpw⟩
      intro e he
      obtain ⟨x, hx, rfl⟩ := mem_map.mp he
      exact (hlater x hx).1

/-- The tail is written as it was read. -/
theorem encodePending_of_decode {b : Bytes} {p : Option Pending} (h : decodePending b = some p) :
    encodePending p = some b := by
  obtain ⟨rfl, rfl⟩ | ⟨raw, rfl, rfl⟩ | ⟨raw, hash, rfl, rfl⟩ := decodePending_cases h
  · rfl
  · simp [encodePending, tagBytes_toHex]
  · simp [encodePending, tagBytes_toHex]

/-- What is accepted can be written again. -/
theorem decode_wellFormed {b : Bytes} {m : Manifest} (h : decode b = .ok m) : m.WellFormed := by
  obtain ⟨generation, count, body, rest, -, hle, hentries, hpending, -⟩ := decode_parts h
  obtain ⟨l, hlen, -, hout, -, hpw⟩ := decodeEntries_eq_some hentries
  have hperm : m.entries.toList.Perm (l.map named) := hout ▸ Map.toList_insertMany hpw
  refine ⟨?_, ?_, ?_⟩
  · intro tag htag
    rw [← Std.ExtTreeMap.mem_keys, ← Std.ExtTreeMap.map_fst_toList_eq_keys,
      (hperm.map Prod.fst).mem_iff, map_map] at htag
    obtain ⟨e, -, rfl⟩ := mem_map.mp htag
    exact isTag_toHex e.1
  · intro p hp
    obtain ⟨-, heq⟩ | ⟨raw, -, heq⟩ | ⟨raw, hash, -, heq⟩ := decodePending_cases hpending
    · rw [heq] at hp
      cases hp
    · rw [heq] at hp
      cases hp
      exact isTag_toHex raw
    · rw [heq] at hp
      cases hp
      exact isTag_toHex raw
  · rw [← Std.ExtTreeMap.length_toList, hperm.length_eq, length_map, hlen]
    exact hle

/-- The raw tags of entries that stand one after another. -/
def tagsIn : ℕ → Bytes → List Bytes
  | 0, _ => []
  | n + 1, b => b.take rawTagLen :: tagsIn n (b.drop (rawTagLen + hashLen))

/-- The raw tags of a manifest's bytes, in the order they are listed: the count is behind the
generation, and the entries are behind the count. -/
def listedTags (b : Bytes) : List Bytes := tagsIn (ofBe ((b.drop 8).take 4)) (b.drop 12)

/-- Each of the listed tags is smaller than those behind it. -/
def Ascending (tags : List Bytes) : Prop := tags.Pairwise fun x y => compare x y = .lt

theorem tagsIn_layout (l : List (Block 16 × Digest)) (rest : Bytes) :
    tagsIn l.length (layout l ++ rest) = l.map fun e => e.1.1 := by
  induction l with
  | nil => rfl
  | cons e l ih =>
    have hskip : rawTagLen + hashLen = (e.1.1 ++ e.2.1).length := by
      rw [length_append, e.1.2, e.2.2, rawTagLen, hashLen, tagHexLen]
    have htag : rawTagLen = e.1.1.length := by rw [e.1.2, rawTagLen, tagHexLen]
    rw [length_cons, layout_cons, tagsIn]
    congr 1
    · rw [append_assoc, htag, take_left']
      rfl
    · rw [← append_assoc, append_assoc, hskip, drop_left' rfl, ih]

theorem listedTags_eq {generation : Block 8} {count : Block 4} {l : List (Block 16 × Digest)}
    (hlen : l.length = ofBe count.1) (rest : Bytes) :
    listedTags (generation.1 ++ (count.1 ++ (layout l ++ rest))) = l.map fun e => e.1.1 := by
  have hcount : ((generation.1 ++ (count.1 ++ (layout l ++ rest))).drop 8).take 4 = count.1 := by
    rw [drop_left' generation.2, take_left' count.2]
  have hbody : (generation.1 ++ (count.1 ++ (layout l ++ rest))).drop 12 = layout l ++ rest := by
    rw [← append_assoc, drop_left']
    rw [length_append, generation.2, count.2]
  rw [listedTags, hcount, hbody, ← hlen, tagsIn_layout]

/-- Entries ascend by the text of their tags exactly if their raw tags do. -/
theorem ascending_named {l : List (Block 16 × Digest)} :
    (l.map named).Pairwise (fun x y => compare x.1 y.1 = .lt) ↔
      Ascending (l.map fun e => e.1.1) := by
  simp only [Ascending, pairwise_map, named, compare_toHex]

/-- The parts of an encoding. -/
theorem encode_parts {m : Manifest} {c : Bytes} (h : m.encode = .ok c) :
    ∃ raws tail, m.entries.toList = raws.map named ∧ encodePending m.pending = some tail ∧
      c = beBytes 8 m.generation.toNat ++ (beBytes 4 m.entries.size ++ (layout raws ++ tail)) := by
  unfold encode at h
  split at h
  · split at h
    · rename_i hentries hpending
      cases h
      obtain ⟨raws, hraws, rfl⟩ := encodeEntries_eq_some.mp hentries
      exact ⟨raws, _, hraws, hpending, rfl⟩
    · cases h
  · cases h

/-- Ascending entries are listed by the map they are inserted into as they are. -/
theorem toList_eq_iff_ascending {entries : Map Digest} {l : List (Block 16 × Digest)}
    (hperm : entries.toList.Perm (l.map named)) :
    entries.toList = l.map named ↔ Ascending (l.map fun e => e.1.1) := by
  have hsorted := Std.ExtTreeMap.ordered_keys_toList (t := entries)
  rw [← ascending_named]
  constructor
  · intro h
    rwa [← h]
  · intro hl
    refine hperm.eq_of_pairwise ?_ hsorted hl
    intro x y _ _ hxy hyx
    rw [← Std.OrientedCmp.gt_iff_lt, hxy] at hyx
    cases hyx

/-- An accepted byte string is the encoding of what it was read as exactly if it lists its tags
in ascending order. -/
theorem encode_eq_iff_ascending {b : Bytes} {m : Manifest} (h : decode b = .ok m) :
    ∃ c, m.encode = .ok c ∧ (c = b ↔ Ascending (listedTags b)) := by
  obtain ⟨c, hc, -, -⟩ := decode_encode (decode_wellFormed h)
  refine ⟨c, hc, ?_⟩
  obtain ⟨generation, count, body, rest, rfl, hle, hentries, hpending, hgen⟩ := decode_parts h
  obtain ⟨l, hlen, rfl, hout, -, hpw⟩ := decodeEntries_eq_some hentries
  have hperm : m.entries.toList.Perm (l.map named) := hout ▸ Map.toList_insertMany hpw
  -- all but the order of the entries is written as it was read
  have hgeneration : beBytes 8 m.generation.toNat = generation.1 := by
    have hlt : ofBe generation.1 < 2 ^ 64 := ofBe_lt generation
    rw [hgen, UInt64.toNat_ofNat_of_lt' hlt, beBytes_ofBe]
  have hcount : beBytes 4 m.entries.size = count.1 := by
    rw [← Std.ExtTreeMap.length_toList, hperm.length_eq, length_map, hlen, beBytes_ofBe]
  obtain ⟨raws, tail, hraws, htail, rfl⟩ := encode_parts hc
  rw [encodePending_of_decode hpending] at htail
  cases htail
  have hlen' : raws.length = l.length := by
    rw [← length_map named, ← hraws, hperm.length_eq, length_map]
  rw [hgeneration, hcount, listedTags_eq hlen, ← toList_eq_iff_ascending hperm, hraws,
    (map_injective_iff.mpr named_injective).eq_iff, append_cancel_left_eq,
    append_cancel_left_eq, append_cancel_right_eq]
  exact ⟨layout_injective hlen', fun h => h ▸ rfl⟩

/-- Two entries, the larger tag first. -/
def Sample.unsorted : Bytes :=
  beBytes 8 7 ++ (beBytes 4 2 ++ (layout [(⟨List.replicate 16 11, rfl⟩, Block.zero 32),
    (⟨List.replicate 16 10, rfl⟩, Block.zero 32)] ++ [0]))

/-- The same entries, the smaller tag first. -/
def Sample.sorted : Bytes :=
  beBytes 8 7 ++ (beBytes 4 2 ++ (layout [(⟨List.replicate 16 10, rfl⟩, Block.zero 32),
    (⟨List.replicate 16 11, rfl⟩, Block.zero 32)] ++ [0]))

/-- The reader accepts entries that do not ascend; the writer sorts them. -/
theorem unsorted_accepted : ∃ m, decode Sample.unsorted = .ok m ∧ m.encode = .ok Sample.sorted ∧
    Sample.sorted ≠ Sample.unsorted := by
  have hrun : (decode Sample.unsorted >>= encode) = .ok Sample.sorted := by decide +kernel
  cases hm : decode Sample.unsorted with
  | error e =>
    rw [hm] at hrun
    cases hrun
  | ok m =>
    rw [hm] at hrun
    exact ⟨m, rfl, hrun, by decide +kernel⟩

theorem sorted_canonical : ∃ m, decode Sample.sorted = .ok m ∧
    Ascending (listedTags Sample.sorted) ∧ m.encode = .ok Sample.sorted := by
  have hok : (decode Sample.sorted).isOk = true := by decide +kernel
  have hascending : Ascending (listedTags Sample.sorted) := by
    unfold Ascending
    decide +kernel
  cases hm : decode Sample.sorted with
  | error e =>
    rw [hm] at hok
    cases hok
  | ok m =>
    obtain ⟨c, hc, hiff⟩ := encode_eq_iff_ascending hm
    exact ⟨m, rfl, hascending, hiff.mpr hascending ▸ hc⟩

end Manifest

end Powehi.Store
