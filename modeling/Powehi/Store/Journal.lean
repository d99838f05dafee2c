import Powehi.Store.Recover

/-!
# The rekey journal

The journal that `rekey` writes is the journal that `recover` reads: every line is split into
the fields it was printed from, and the lines in sequence rebuild the maps.
-/

namespace Powehi.Store

open Codec List Std.ExtTreeMap Journal

variable {j : Journal} {tag : Bytes} {lines : List Bytes} {cr : Crypto} {bundle : Bundle}
  {body : Bytes} {j j' : Journal}

/-- The lines of a journal, in the order they are written. -/
def journalLines (new : List (Bytes × Bytes)) (hash : Bytes) (old : List Bytes) : List Bytes :=
  new.map (fun e => newLine e.1 e.2) ++ manifestLine hash :: old.map oldLine

theorem journalBody_eq (new : List (Bytes × Bytes)) (hash : Bytes) (old : List Bytes) :
    journalBody new hash old = (journalLines new hash old).flatMap (· ++ [newline]) := by
  simp [journalBody, journalLines, flatMap_def, Function.comp_def]

/-! ### Lines -/

section Fields

variable {tag hash : Bytes}

/-- Hexadecimal text holds neither separator. -/
theorem not_mem_of_all_hex {b : Bytes} (h : b.all isLowerHex = true) : space ∉ b ∧ newline ∉ b := by
  rw [all_eq_true] at h
  constructor
  · intro hmem
    exact absurd (h _ hmem) (by decide)
  · intro hmem
    exact absurd (h _ hmem) (by decide)

theorem hex_of_isTag (h : isTag tag = true) : tag.all isLowerHex = true := by
  simp only [isTag, Bool.and_eq_true] at h
  exact h.2

theorem hex_of_isHashHex (h : isHashHex hash = true) : hash.all isLowerHex = true := by
  simp only [isHashHex, Bool.and_eq_true] at h
  exact h.2

theorem isHashHex_toHex (h : Digest) : isHashHex (toHex h.1) = true := by
  simp only [isHashHex, length_toHex, h.2, Bool.and_eq_true, beq_iff_eq]
  exact ⟨rfl, all_isLowerHex_toHex _⟩

theorem isHashHex_ne_nil (h : isHashHex hash = true) : hash ≠ [] := by
  rintro rfl
  exact absurd h (by decide)

/-- A field in front of a separator is split off. -/
theorem splitOn_field {a b : Bytes} (h : space ∉ a) :
    (a ++ space :: b).splitOn space = a :: b.splitOn space := by
  have hcut : (a ++ space :: b).splitOn space = a.splitOn space ++ b.splitOn space :=
    splitOnP_append_cons a b (beq_self_eq_true space)
  rw [hcut, splitOn_eq_singleton h]
  rfl

theorem splitOn_newLine (htag : isTag tag = true) (hhash : isHashHex hash = true) :
    (newLine tag hash).splitOn space = [ascii "n", tag, hash] := by
  have hkind : newLine tag hash = ascii "n" ++ space :: (tag ++ space :: hash) := by
    rw [newLine, show ascii "n " = ascii "n" ++ [space] by decide]
    simp
  rw [hkind, splitOn_field (by decide), splitOn_field (not_mem_of_all_hex (hex_of_isTag htag)).1,
    splitOn_eq_singleton (not_mem_of_all_hex (hex_of_isHashHex hhash)).1]

theorem splitOn_manifestLine (hhash : isHashHex hash = true) :
    (manifestLine hash).splitOn space = [ascii "m", hash] := by
  have hkind : manifestLine hash = ascii "m" ++ space :: hash := by
    rw [manifestLine, show ascii "m " = ascii "m" ++ [space] by decide]
    simp
  rw [hkind, splitOn_field (by decide),
    splitOn_eq_singleton (not_mem_of_all_hex (hex_of_isHashHex hhash)).1]

theorem splitOn_oldLine (htag : isTag tag = true) :
    (oldLine tag).splitOn space = [ascii "d", tag] := by
  have hkind : oldLine tag = ascii "d" ++ space :: tag := by
    rw [oldLine, show ascii "d " = ascii "d" ++ [space] by decide]
    simp
  rw [hkind, splitOn_field (by decide),
    splitOn_eq_singleton (not_mem_of_all_hex (hex_of_isTag htag)).1]

end Fields

/-! ### Reading the lines back -/

theorem Journal.readLine_newLine {tag hash : Bytes} (htag : isTag tag = true)
    (hhash : isHashHex hash = true) (hnew : tag ∉ j.new) :
    j.readLine (newLine tag hash) = some { j with new := j.new.insert tag hash } := by
  simp only [readLine, splitOn_newLine htag hhash]
  exact if_pos ⟨trivial, htag, hhash, hnew⟩

theorem Journal.readLine_manifestLine {hash : Bytes} (hhash : isHashHex hash = true)
    (hj : j.manifest = []) : j.readLine (manifestLine hash) = some { j with manifest := hash } := by
  simp only [readLine, splitOn_manifestLine hhash]
  exact if_pos ⟨trivial, hhash, hj⟩

theorem Journal.readLine_oldLine (htag : isTag tag = true) (hold : tag ∉ j.old) :
    j.readLine (oldLine tag) = some { j with old := j.old.insert tag } := by
  have hkind : ¬(ascii "d" = ascii "m" ∧ isHashHex tag = true ∧ j.manifest = []) := by
    intro h
    exact absurd h.1 (by decide)
  simp only [readLine, splitOn_oldLine htag, if_neg hkind]
  exact if_pos ⟨trivial, htag, hold⟩

/-- The lines for staged records extend the map one by one. -/
theorem Journal.foldlM_newLines {new : List (Bytes × Bytes)}
    (htags : ∀ e ∈ new, isTag e.1 = true ∧ isHashHex e.2 = true) (hnodup : (new.map Prod.fst).Nodup)
    (hfresh : ∀ e ∈ new, e.1 ∉ j.new) :
    (new.map fun e => newLine e.1 e.2).foldlM readLine j =
      some { j with new := j.new.insertMany new } := by
  induction new generalizing j with
  | nil => simp
  | cons e new ih =>
    obtain ⟨htag, hhash⟩ := htags e mem_cons_self
    rw [map_cons, nodup_cons] at hnodup
    have hfresh' : ∀ x ∈ new, x.1 ∉ j.new.insert e.1 e.2 := by
      intro x hx hmem
      rcases mem_insert.mp hmem with heq | hmem
      · rw [Std.compare_eq_iff_eq] at heq
        exact hnodup.1 (heq ▸ mem_map_of_mem hx)
      · exact hfresh x (mem_cons_of_mem _ hx) hmem
    rw [map_cons, foldlM_cons, readLine_newLine htag hhash (hfresh e mem_cons_self)]
    refine (ih (fun x hx => htags x (mem_cons_of_mem _ hx)) hnodup.2 hfresh').trans ?_
    rw [insertMany_cons]

/-- The lines for old records extend the set one by one. -/
theorem Journal.foldlM_oldLines {old : List Bytes} (htags : ∀ tag ∈ old, isTag tag = true)
    (hnodup : old.Nodup) (hfresh : ∀ tag ∈ old, tag ∉ j.old) :
    (old.map oldLine).foldlM readLine j = some { j with old := j.old.insertMany old } := by
  induction old generalizing j with
  | nil => simp
  | cons tag old ih =>
    rw [nodup_cons] at hnodup
    have hfresh' : ∀ x ∈ old, x ∉ j.old.insert tag := by
      intro x hx hmem
      rcases Std.ExtTreeSet.mem_insert.mp hmem with heq | hmem
      · rw [Std.compare_eq_iff_eq] at heq
        exact hnodup.1 (heq ▸ hx)
      · exact hfresh x (mem_cons_of_mem _ hx) hmem
    rw [map_cons, foldlM_cons,
      readLine_oldLine (htags tag mem_cons_self) (hfresh tag mem_cons_self)]
    refine (ih (fun x hx => htags x (mem_cons_of_mem _ hx)) hnodup.2 hfresh').trans ?_
    rw [Std.ExtTreeSet.insertMany_cons]

/-- Ending every line is separating the lines and ending the last one. -/
theorem flatMap_end_eq_intercalate (x : UInt8) (h : lines ≠ []) :
    (lines.flatMap fun line => line ++ [x]) = [x].intercalate lines ++ [x] := by
  induction lines with
  | nil => exact absurd rfl h
  | cons line rest ih =>
    cases rest with
    | nil => simp
    | cons next rest =>
      rw [flatMap_cons, ih (by simp)]
      simp

/-- What `rekey` hands to the journal: distinct tags with hashes, and the tags to delete. -/
structure JournalInput (new : List (Bytes × Bytes)) (hash : Bytes) (old : List Bytes) : Prop where
  newTags : ∀ e ∈ new, isTag e.1 = true ∧ isHashHex e.2 = true
  newNodup : (new.map Prod.fst).Nodup
  manifest : isHashHex hash = true
  oldTags : ∀ tag ∈ old, isTag tag = true
  oldNodup : old.Nodup
  disjoint : ∀ e ∈ new, e.1 ∉ old
  newLength : new.length ≤ maxRecords + 2
  oldLength : old.length ≤ maxRecords + 2

/-- The journal that lists the given files. -/
def Journal.listing (new : List (Bytes × Bytes)) (hash : Bytes) (old : List Bytes) : Journal where
  new := (∅ : Map Bytes).insertMany new
  manifest := hash
  old := (∅ : Names).insertMany old

section RoundTrip

variable {new : List (Bytes × Bytes)} {hash : Bytes} {old : List Bytes}

theorem Journal.mem_listing_new :
    tag ∈ (listing new hash old).new ↔ tag ∈ new.map Prod.fst := by
  simp [listing, mem_insertMany_list]

theorem Journal.mem_listing_old : tag ∈ (listing new hash old).old ↔ tag ∈ old := by
  simp [listing, Std.ExtTreeSet.mem_insertMany_list]

theorem Journal.getElem?_listing_new (h : (new.map Prod.fst).Nodup) {e : Bytes × Bytes}
    (he : e ∈ new) : (listing new hash old).new[e.1]? = some e.2 := by
  refine getElem?_insertMany_list_of_mem (k := e.1) Std.ReflCmp.compare_self ?_ he
  rw [List.Nodup, pairwise_map] at h
  exact h.imp fun hne heq => hne (Std.compare_eq_iff_eq.mp heq)

theorem JournalInput.complete (h : JournalInput new hash old) :
    (listing new hash old).complete = true := by
  have hnew : (listing new hash old).new.size ≤ new.length := by
    rw [← length_map (f := Prod.fst)]
    exact Map.size_le_length fun k hk => mem_listing_new.mp hk
  have hold : (listing new hash old).old.size ≤ old.length := by
    rw [← Std.ExtTreeSet.length_toList]
    have hnodup : (listing new hash old).old.toList.Nodup :=
      Std.ExtTreeSet.distinct_toList.imp fun hne heq => hne (Std.compare_eq_iff_eq.mpr heq)
    refine (hnodup.subperm fun tag htag => ?_).length_le
    exact Journal.mem_listing_old.mp (Std.ExtTreeSet.mem_toList.mp htag)
  simp only [Journal.complete, Bool.and_eq_true, bne_iff_ne, decide_eq_true_eq, all_eq_true,
    Bool.not_eq_true', and_assoc]
  refine ⟨isHashHex_ne_nil h.manifest, hnew.trans h.newLength, hold.trans h.oldLength, ?_⟩
  intro tag htag
  rw [Std.ExtTreeMap.mem_keys, mem_listing_new, mem_map] at htag
  obtain ⟨e, he, rfl⟩ := htag
  rw [Bool.eq_false_iff, ne_eq, Std.ExtTreeSet.contains_iff_mem, Journal.mem_listing_old]
  exact h.disjoint e he

/-- The journal that was written is the journal that is read. -/
theorem parseJournal_journalBody (h : JournalInput new hash old) :
    parseJournal (journalBody new hash old) = .ok (listing new hash old) := by
  have hne : journalLines new hash old ≠ [] := by simp [journalLines]
  have hclean : ∀ line ∈ journalLines new hash old, newline ∉ line := by
    have hkind : newline ∉ ascii "n " ∧ newline ∉ ascii "m " ∧ newline ∉ ascii "d " := by decide
    intro line hline
    simp only [journalLines, mem_append, mem_map, mem_cons] at hline
    rcases hline with ⟨e, he, rfl⟩ | rfl | ⟨tag, htag, rfl⟩
    · have htag := (not_mem_of_all_hex (hex_of_isTag (h.newTags e he).1)).2
      have hhash := (not_mem_of_all_hex (hex_of_isHashHex (h.newTags e he).2)).2
      simpa [newLine, hkind.1, htag, hhash] using (by decide : newline ≠ space)
    · have hhash := (not_mem_of_all_hex (hex_of_isHashHex h.manifest)).2
      simp [manifestLine, hkind.2.1, hhash]
    · have htag := (not_mem_of_all_hex (hex_of_isTag (h.oldTags tag htag))).2
      simp [oldLine, hkind.2.2, htag]
  have hstrip : stripNewline (journalBody new hash old) =
      some ([newline].intercalate (journalLines new hash old)) := by
    rw [journalBody_eq, flatMap_end_eq_intercalate _ hne, stripNewline]
    simp
  -- the three groups of lines fill the three fields
  have hread : (journalLines new hash old).foldlM readLine {} =
      some (listing new hash old) := by
    rw [journalLines, foldlM_append, foldlM_newLines h.newTags h.newNodup (by simp)]
    change foldlM readLine { new := (∅ : Map Bytes).insertMany new } _ = _
    rw [foldlM_cons, readLine_manifestLine h.manifest rfl]
    exact foldlM_oldLines h.oldTags h.oldNodup (by simp)
  simp only [parseJournal, hstrip, Option.bind_some, splitOn_intercalate _ hclean hne, hread,
    h.complete, if_true]

/-- The journal file with the given body. -/
def sealedJournal (cr : Crypto) (bundle : Bundle) (profile : Bytes) (nonce : Nonce)
    (body : Bytes) : Bytes :=
  journalMagic ++ nonce.1 ++ cr.encrypt bundle.manifest nonce (journalAad profile) body

/-- A sealed journal opens under the bundle it was sealed with. -/
theorem openJournal_sealed {profile : Bytes} {nonce : Nonce} (h : JournalInput new hash old) :
    openJournal cr bundle profile
      (sealedJournal cr bundle profile nonce (journalBody new hash old)) =
      .ok (listing new hash old) := by
  have hlen : journalMagic.length + nonceLen + tagLen ≤ journalMagic.length +
      (nonce.1.length + (cr.encrypt bundle.manifest nonce (journalAad profile)
        (journalBody new hash old)).length) := by
    rw [cr.length_encrypt, nonceLen]
    omega
  rw [sealedJournal]
  have hparse := parseJournal_journalBody h
  simpa [openJournal, cr.decrypt_encrypt, hparse] using hlen

theorem length_sealedJournal_le {profile : Bytes} {nonce : Nonce} (h : body.length ≤ journalBodyMax)
    :
    (sealedJournal cr bundle profile nonce body).length ≤ journalMaxLen := by
  have hmagic : journalMagic.length = 4 := by decide
  simp only [sealedJournal, length_append, nonce.2, cr.length_encrypt, hmagic, journalMaxLen,
    nonceLen]
  omega

/-! ### Size -/

theorem length_of_isTag (h : isTag tag = true) : tag.length = tagHexLen := by
  simp only [isTag, Bool.and_eq_true, beq_iff_eq] at h
  exact h.1

theorem length_of_isHashHex {hash : Bytes} (h : isHashHex hash = true) :
    hash.length = 2 * hashLen := by
  simp only [isHashHex, Bool.and_eq_true, beq_iff_eq] at h
  exact h.1

/-- Text of lines that each have a bounded length. -/
theorem length_flatMap_le {α : Type} {xs : List α} {f : α → Bytes} {n : ℕ}
    (h : ∀ x ∈ xs, (f x).length ≤ n) : (xs.flatMap f).length ≤ xs.length * n := by
  induction xs with
  | nil => simp
  | cons x xs ih =>
    have hx := h x mem_cons_self
    have hxs := ih fun y hy => h y (mem_cons_of_mem _ hy)
    rw [flatMap_cons, length_append, length_cons, Nat.succ_mul]
    omega

/-- The journal of a store within its limits fits the bound it is read with. -/
theorem JournalInput.length_journalBody_le (h : JournalInput new hash old) :
    (journalBody new hash old).length ≤ journalBodyMax := by
  have hkind : (ascii "n ").length = 2 ∧ (ascii "m ").length = 2 ∧ (ascii "d ").length = 2 := by
    decide
  have hnew : (new.flatMap fun e => newLine e.1 e.2 ++ [newline]).length ≤ new.length * 100 := by
    refine length_flatMap_le fun e he => ?_
    have htag := length_of_isTag (h.newTags e he).1
    have hhash := length_of_isHashHex (h.newTags e he).2
    simp only [newLine, length_append, length_cons, length_nil, hkind.1, htag, hhash,
      tagHexLen, hashLen]
    omega
  have hold : (old.flatMap fun tag => oldLine tag ++ [newline]).length ≤ old.length * 35 := by
    refine length_flatMap_le fun tag hin => ?_
    have htag := length_of_isTag (h.oldTags tag hin)
    simp only [oldLine, length_append, length_cons, length_nil, hkind.2.2, htag, tagHexLen]
    omega
  have hman : (manifestLine hash ++ [newline]).length = 67 := by
    simp only [manifestLine, length_append, length_cons, length_nil, hkind.2.1,
      length_of_isHashHex h.manifest, hashLen]
  have hn := h.newLength
  have ho := h.oldLength
  simp only [journalBody, length_append] at hman ⊢
  simp only [journalBodyMax, maxRecords, tagHexLen, hashLen] at hn ho ⊢
  omega

end RoundTrip

/-! ### Accepted journals -/

/-- An accepted body is complete. -/
theorem complete_of_parseJournal (h : parseJournal body = .ok j) : j.complete = true := by
  unfold parseJournal at h
  split at h
  · split at h
    · cases h
      assumption
    · cases h
  · cases h

theorem Journal.disjoint_of_complete (h : j.complete = true) (hnew : tag ∈ j.new) :
    tag ∉ j.old := by
  simp only [Journal.complete, Bool.and_eq_true, all_eq_true, Std.ExtTreeMap.mem_keys] at h
  have := h.2 tag hnew
  rwa [Bool.not_eq_true', Bool.eq_false_iff, ne_eq, Std.ExtTreeSet.contains_iff_mem] at this

/-- An accepted journal deletes nothing it adds. -/
theorem openJournal_disjoint {profile sealed : Bytes}
    (h : openJournal cr bundle profile sealed = .ok j) (hnew : tag ∈ j.new) : tag ∉ j.old := by
  refine disjoint_of_complete ?_ hnew
  unfold openJournal at h
  split at h
  · cases h
  · split at h
    · cases h
    · split at h
      · cases h
      · exact complete_of_parseJournal h

/-- The line names the manifest. -/
def IsManifestLine (line : Bytes) : Prop := (line.splitOn space).head? = some (ascii "m")

/-- What the line says is already in the journal. -/
def Journal.Recorded (j : Journal) (line : Bytes) : Prop :=
  (∃ tag hash, line.splitOn space = [ascii "n", tag, hash] ∧ tag ∈ j.new) ∨
    (IsManifestLine line ∧ j.manifest ≠ []) ∨
    ∃ tag, line.splitOn space = [ascii "d", tag] ∧ tag ∈ j.old

/-- What an accepted line is. -/
theorem Journal.readLine_cases {line : Bytes} (h : j.readLine line = some j') :
    (∃ tag hash, line.splitOn space = [ascii "n", tag, hash] ∧ tag ∉ j.new ∧
        j' = { j with new := j.new.insert tag hash }) ∨
      (∃ hash, line.splitOn space = [ascii "m", hash] ∧ hash ≠ [] ∧ j.manifest = [] ∧
        j' = { j with manifest := hash }) ∨
      ∃ tag, line.splitOn space = [ascii "d", tag] ∧ tag ∉ j.old ∧
        j' = { j with old := j.old.insert tag } := by
  unfold readLine at h
  split at h
  · rename_i kind tag hash hfields
    split at h
    · rename_i hnew
      obtain ⟨rfl, -, -, hfresh⟩ := hnew
      cases h
      exact .inl ⟨tag, hash, hfields, hfresh, rfl⟩
    · cases h
  · rename_i kind field hfields
    split at h
    · rename_i hman
      obtain ⟨rfl, hhash, hnone⟩ := hman
      cases h
      exact .inr (.inl ⟨field, hfields, isHashHex_ne_nil hhash, hnone, rfl⟩)
    · split at h
      · rename_i hold
        obtain ⟨rfl, -, hfresh⟩ := hold
        cases h
        exact .inr (.inr ⟨field, hfields, hfresh, rfl⟩)
      · cases h
  · cases h

/-- A line is read only if it says something new, and then it is recorded for good. -/
theorem Journal.recorded_of_readLine {line : Bytes} (h : j.readLine line = some j') :
    ¬j.Recorded line ∧ j'.Recorded line ∧ ∀ other, j.Recorded other → j'.Recorded other := by
  have hkinds : ascii "n" ≠ ascii "m" ∧ ascii "d" ≠ ascii "m" ∧ ascii "m" ≠ ascii "d" := by decide
  rcases readLine_cases h with ⟨tag, hash, hfields, hfresh, rfl⟩ |
    ⟨hash, hfields, hne, hnone, rfl⟩ |
    ⟨tag, hfields, hfresh, rfl⟩
  · refine ⟨?_, .inl ⟨tag, hash, hfields, by simp⟩, ?_⟩
    · rintro (⟨tag', hash', hfields', hin⟩ | ⟨hman, -⟩ | ⟨tag', hfields', -⟩)
      · rw [hfields] at hfields'
        cases hfields'
        exact hfresh hin
      · rw [IsManifestLine, hfields, head?_cons, Option.some.injEq] at hman
        exact hkinds.1 hman
      · rw [hfields] at hfields'
        cases hfields'
    · rintro other (⟨tag', hash', hfields', hin⟩ | hother)
      · exact .inl ⟨tag', hash', hfields', mem_insert.mpr (.inr hin)⟩
      · exact .inr hother
  · refine ⟨?_, .inr (.inl ⟨?_, hne⟩), ?_⟩
    · rintro (⟨tag', hash', hfields', -⟩ | ⟨-, hsome⟩ | ⟨tag', hfields', -⟩)
      · rw [hfields] at hfields'
        cases hfields'
      · exact hsome hnone
      · rw [hfields, cons.injEq] at hfields'
        exact hkinds.2.2 hfields'.1
    · rw [IsManifestLine, hfields]
      rfl
    · rintro other (hother | ⟨-, hsome⟩ | hother)
      · exact .inl hother
      · exact absurd hnone hsome
      · exact .inr (.inr hother)
  · refine ⟨?_, .inr (.inr ⟨tag, hfields, by simp⟩), ?_⟩
    · rintro (⟨tag', hash', hfields', -⟩ | ⟨hman, -⟩ | ⟨tag', hfields', hin⟩)
      · rw [hfields] at hfields'
        cases hfields'
      · rw [IsManifestLine, hfields, head?_cons, Option.some.injEq] at hman
        exact hkinds.2.1 hman
      · rw [hfields] at hfields'
        cases hfields'
        exact hfresh hin
    · rintro other (hother | hother | ⟨tag', hfields', hin⟩)
      · exact .inl hother
      · exact .inr (.inl hother)
      · exact .inr (.inr ⟨tag', hfields', Std.ExtTreeSet.mem_insert.mpr (.inr hin)⟩)

/-- Of any two lines in sequence, the first was recorded when the second was not. -/
theorem Journal.pairwise_of_foldlM (h : lines.foldlM readLine j = some j') :
    lines.Pairwise (fun x y => ∃ i : Journal, i.Recorded x ∧ ¬i.Recorded y) ∧
      ∀ line ∈ lines, ¬j.Recorded line ∧ j'.Recorded line := by
  -- the first line is recorded in every later journal, and no later line is in the first
  have hkept : ∀ (lines : List Bytes) (j j' : Journal),
      lines.foldlM readLine j = some j' → ∀ x, j.Recorded x → j'.Recorded x := by
    intro lines
    induction lines with
    | nil =>
      rintro j j' ⟨⟩ x hx
      exact hx
    | cons line lines ih =>
      intro j j' h x hx
      obtain ⟨i, hline, hrest⟩ := Option.bind_eq_some_iff.mp h
      exact ih i j' hrest x ((recorded_of_readLine hline).2.2 x hx)
  induction lines generalizing j with
  | nil => exact ⟨.nil, nofun⟩
  | cons line lines ih =>
    obtain ⟨i, hline, hrest⟩ := Option.bind_eq_some_iff.mp h
    obtain ⟨hfresh, hrecorded, hmono⟩ := recorded_of_readLine hline
    obtain ⟨hpairs, hlater⟩ := ih hrest
    refine ⟨pairwise_cons.mpr ⟨fun y hy => ⟨i, hrecorded, (hlater y hy).1⟩, hpairs⟩, ?_⟩
    intro x hx
    rcases mem_cons.mp hx with rfl | hx
    · exact ⟨hfresh, hkept lines i j' hrest _ hrecorded⟩
    · exact ⟨fun hin => (hlater x hx).1 (hmono x hin), (hlater x hx).2⟩

/-- A manifest comes from a line. -/
theorem Journal.exists_manifestLine (h : lines.foldlM readLine j = some j')
    (hnone : j.manifest = []) (hsome : j'.manifest ≠ []) : ∃ line ∈ lines, IsManifestLine line := by
  induction lines generalizing j with
  | nil =>
    cases h
    exact absurd hnone hsome
  | cons line lines ih =>
    obtain ⟨i, hline, hrest⟩ := Option.bind_eq_some_iff.mp h
    by_cases hman : IsManifestLine line
    · exact ⟨line, mem_cons_self, hman⟩
    · have hi : i.manifest = [] := by
        rcases readLine_cases hline with ⟨tag, hash, -, -, rfl⟩ | ⟨hash, hfields, -⟩ |
          ⟨tag, -, -, rfl⟩
        · exact hnone
        · refine absurd ?_ hman
          rw [IsManifestLine, hfields]
          rfl
        · exact hnone
      obtain ⟨x, hx, hline'⟩ := ih hrest hi
      exact ⟨x, mem_cons_of_mem _ hx, hline'⟩

/-- The lines of an accepted body differ from each other, and exactly one names the manifest. -/
theorem lines_of_parseJournal (h : parseJournal body = .ok j) :
    ∃ before manifest after, body = (before ++ manifest :: after).flatMap (· ++ [newline]) ∧
      (before ++ manifest :: after).Nodup ∧ IsManifestLine manifest ∧
      ∀ line ∈ before ++ after, ¬IsManifestLine line := by
  have hcomplete := complete_of_parseJournal h
  unfold parseJournal at h
  split at h
  swap
  · cases h
  rename_i read hread
  split at h
  swap
  · cases h
  cases h
  obtain ⟨text, hstrip, hlines⟩ := Option.bind_eq_some_iff.mp hread
  have hbody : body = (text.splitOn newline).flatMap (· ++ [newline]) := by
    have hne : text.splitOn newline ≠ [] := splitOn_ne_nil _ _
    rw [flatMap_end_eq_intercalate _ hne, intercalate_splitOn]
    unfold stripNewline at hstrip
    split at hstrip
    · rename_i hlast
      cases hstrip
      exact (dropLast_append_getLast? newline hlast).symm
    · cases hstrip
  obtain ⟨hpairs, -⟩ := pairwise_of_foldlM hlines
  have hsome : j.manifest ≠ [] := by
    simp only [Journal.complete, Bool.and_eq_true, bne_iff_ne] at hcomplete
    exact hcomplete.1.1.1
  obtain ⟨manifest, hmem, hman⟩ := exists_manifestLine hlines rfl hsome
  obtain ⟨before, after, hsplit⟩ := append_of_mem hmem
  rw [hsplit] at hpairs hbody
  have hnodup : (before ++ manifest :: after).Nodup := by
    refine hpairs.imp ?_
    rintro x _ ⟨i, hx, hnot⟩ rfl
    exact hnot hx
  refine ⟨before, manifest, after, hbody, hnodup, hman, ?_⟩
  -- a second manifest line would have been recorded together with the first
  have honce : ∀ x y, (∃ i : Journal, i.Recorded x ∧ ¬i.Recorded y) → IsManifestLine x →
      ¬IsManifestLine y := by
    rintro x y ⟨i, hx, hnot⟩ hmx hmy
    apply hnot
    have hkinds : ascii "n" ≠ ascii "m" ∧ ascii "d" ≠ ascii "m" := by decide
    rcases hx with ⟨tag, hash, hfields, -⟩ | ⟨-, hrec⟩ | ⟨tag, hfields, -⟩
    · rw [IsManifestLine, hfields, head?_cons, Option.some.injEq] at hmx
      exact absurd hmx hkinds.1
    · exact .inr (.inl ⟨hmy, hrec⟩)
    · rw [IsManifestLine, hfields, head?_cons, Option.some.injEq] at hmx
      exact absurd hmx hkinds.2
  rw [pairwise_append, pairwise_cons] at hpairs
  obtain ⟨-, ⟨hafter, -⟩, hacross⟩ := hpairs
  intro line hline hmanline
  rcases mem_append.mp hline with hin | hin
  · exact honce _ _ (hacross line hin manifest mem_cons_self) hmanline hman
  · exact honce _ _ (hafter line hin) hman hmanline

/-! ### The format -/

/-- The journal reads back what was committed. For distinct staged tags with their hashes and
distinct old tags, disjoint and within the limits, the body that is built and its sealed file are
within their bounds, and the body parses to exactly the map, the manifest hash and the set.
Conversely, every accepted body has disjoint new and old tags, exactly one manifest line and no line
twice. -/
theorem journal_reads_back (cr : Crypto) (bundle : Bundle) (profile : Bytes) (nonce : Nonce) :
    (∀ new hash old, JournalInput new hash old →
      (journalBody new hash old).length ≤ journalBodyMax ∧
      (sealedJournal cr bundle profile nonce (journalBody new hash old)).length ≤ journalMaxLen ∧
      ∃ j, parseJournal (journalBody new hash old) = .ok j ∧ j.manifest = hash ∧
        (∀ tag h, j.new[tag]? = some h ↔ (tag, h) ∈ new) ∧ ∀ tag, tag ∈ j.old ↔ tag ∈ old) ∧
    ∀ body j, parseJournal body = .ok j →
      (∀ tag ∈ j.new, tag ∉ j.old) ∧
      ∃ before manifest after, body = (before ++ manifest :: after).flatMap (· ++ [newline]) ∧
        (before ++ manifest :: after).Nodup ∧ IsManifestLine manifest ∧
        ∀ line ∈ before ++ after, ¬IsManifestLine line := by
  constructor
  · intro new hash old h
    refine ⟨h.length_journalBody_le, length_sealedJournal_le h.length_journalBody_le, _,
      parseJournal_journalBody h, rfl, fun tag want => ⟨fun hget => ?_, fun hin => ?_⟩,
      fun tag => Journal.mem_listing_old⟩
    · -- the entry under a listed tag is the one on the list
      have hmem : tag ∈ (Journal.listing new hash old).new := by
        rw [mem_iff_isSome_getElem?, hget]
        rfl
      obtain ⟨e, he, rfl⟩ := mem_map.mp (Journal.mem_listing_new.mp hmem)
      rw [Journal.getElem?_listing_new h.newNodup he, Option.some.injEq] at hget
      subst hget
      exact he
    · exact Journal.getElem?_listing_new h.newNodup hin
  · intro body j h
    exact ⟨fun tag => Journal.disjoint_of_complete (complete_of_parseJournal h),
      lines_of_parseJournal h⟩

/-- One staged and one old record. -/
theorem journal_reads_back_sample : ∃ body j,
    parseJournal body = .ok j ∧ body.length ≤ journalBodyMax ∧
      List.replicate 32 97 ∈ j.new ∧ List.replicate 32 98 ∈ j.old := by
  have hin : JournalInput [(List.replicate 32 97, List.replicate 64 48)] (List.replicate 64 48)
      [List.replicate 32 98] :=
    { newTags := by decide
      newNodup := by decide
      manifest := by decide
      oldTags := by decide
      oldNodup := by decide
      disjoint := by decide
      newLength := by decide
      oldLength := by decide }
  obtain ⟨hlen, -, j, hj, -, hnew, hold⟩ := (journal_reads_back Crypto.toy
    ⟨⟨List.replicate 32 0, rfl⟩, ⟨List.replicate 32 0, rfl⟩, ⟨List.replicate 32 0, rfl⟩⟩ []
    ⟨List.replicate 12 0, rfl⟩).1 _ _ _ hin
  refine ⟨_, j, hj, hlen, ?_, (hold _).mpr mem_cons_self⟩
  rw [mem_iff_isSome_getElem?, (hnew _ _).mpr mem_cons_self]
  rfl

end Powehi.Store
