import Powehi.Codec.Chars
import Powehi.Media.Attachment

/-!
# Stored attachments

`message.rs`: a received media message is a record `rx-…`; once it is shown, its bytes are parked
under a name `att-…` for a while, so that the attachment can still be saved. `find_attachment`
looks through both kinds for the records of one blob. Since a peer chooses the blob ids of its
messages, several records may carry the same one, and the caller tries them all.

The search stops with an error at the seventeenth record, also when all of them are of the blob
asked for: whoever sends that many descriptors of a blob makes it impossible to save.

Reading a record (`decode`) and the clock are parameters.
-/

namespace Powehi.Media

open Codec List

/-! ### Records -/

/-- The fields of a received message that the functions below use. -/
structure Received where
  groupId : Block 16
  body : Bytes
  receivedAt : ℕ
deriving DecidableEq

/-- The records of a profile store by name. They are listed in some order; no result depends on
which. -/
structure Records where
  entries : List (Bytes × Bytes)
  nodup : (entries.map Prod.fst).Nodup

namespace Records

def names (s : Records) : List Bytes := s.entries.map Prod.fst

def get (s : Records) (name : Bytes) : Option Bytes :=
  (s.entries.find? fun e => e.1 == name).map Prod.snd

/-- The entries that pass a test. -/
def keep (s : Records) (p : Bytes × Bytes → Bool) : Records :=
  ⟨s.entries.filter p, s.nodup.sublist (filter_sublist.map Prod.fst)⟩

def remove (s : Records) (name : Bytes) : Records := s.keep fun e => e.1 != name

theorem not_mem_remove (s : Records) (name : Bytes) :
    name ∉ (s.remove name).entries.map Prod.fst := by
  intro h
  obtain ⟨e, he, rfl⟩ := mem_map.1 h
  have hne := (mem_filter.1 he).2
  simp at hne

def put (s : Records) (name raw : Bytes) : Records where
  entries := (name, raw) :: (s.remove name).entries
  nodup := nodup_cons.2 ⟨s.not_mem_remove name, (s.remove name).nodup⟩

variable {s : Records} {name raw : Bytes}

theorem get_eq_some : s.get name = some raw ↔ (name, raw) ∈ s.entries := by
  unfold get
  constructor
  · intro h
    obtain ⟨e, he, rfl⟩ := Option.map_eq_some_iff.1 h
    obtain rfl : e.1 = name := by simpa using find?_some he
    exact mem_of_find?_eq_some he
  · intro h
    have hsome : (s.entries.find? fun e => e.1 == name).isSome := by
      rw [find?_isSome]
      exact ⟨(name, raw), h, beq_self_eq_true name⟩
    obtain ⟨e, he⟩ := Option.isSome_iff_exists.1 hsome
    have hname : e.1 = name := by simpa using find?_some he
    have heq : e = (name, raw) := inj_on_of_nodup_map s.nodup (mem_of_find?_eq_some he) h hname
    rw [he, heq]
    rfl

end Records

def rxPrefix : Bytes := ascii "rx-"

def attPrefix : Bytes := ascii "att-"

/-- At most this many parked attachments. -/
def maxAttachments : ℕ := 256

/-- 30 days in nanoseconds. -/
def attachmentTtlNanos : ℕ := 30 * 24 * 3600 * 1000000000

def minAttPrefixLen : ℕ := 6

/-- The most records `save` will try. -/
def maxCandidates : ℕ := 16

inductive MessageError
  | noSuchAttachment
  | ambiguousAttachment
deriving DecidableEq

/-- A blob id as it is shown. -/
def attachmentLabel (blob : Block 16) : List Char :=
  (Uuid.simple blob).map fun b => Char.ofNat b.toNat

section

variable (decode : Bytes → Option Received) (now : ℕ)

/-! ### The functions -/

/-- The time a record was received; 0 where that is unknown. -/
def receivedAt (raw : Bytes) : ℕ := ((decode raw).map (·.receivedAt)).getD 0

/-- A parked record past its time. -/
def expired (raw : Bytes) : Bool :=
  0 < receivedAt decode raw && attachmentTtlNanos < now - receivedAt decode raw

/-- One turn of the sweep, over the store and the records kept. -/
def liveTurn (s : Records × List (ℕ × Bytes)) (name : Bytes) : Records × List (ℕ × Bytes) :=
  match s.1.get name with
  | none => s
  | some raw =>
    if expired decode now raw then (s.1.remove name, s.2)
    else (s.1, s.2 ++ [(receivedAt decode raw, name)])

def liveAttachments (s : Records) : Records × List (ℕ × Bytes) :=
  (s.names.filter attPrefix.isPrefixOf).foldl (liveTurn decode now) (s, [])

/-- Drop the oldest parked records until one slot is free. -/
def makeRoomForAttachment (s : Records) : Records :=
  let live := liveAttachments decode now s
  let kept := live.2.mergeSort fun a b => decide (a.1 < b.1 ∨ a.1 = b.1 ∧ a.2 ≤ b.2)
  (kept.take (kept.length - (maxAttachments - 1))).foldl (fun s e => s.remove e.2) live.1

/-- A candidate for the attachment asked for. -/
structure Candidate where
  name : Bytes
  blobId : Block 16
deriving DecidableEq

/-- The candidate in a record, if it is one. -/
def candidate (s : Records) (groupId : Block 16) (wanted : List Char) (name : Bytes) :
    Option Candidate :=
  if rxPrefix.isPrefixOf name || attPrefix.isPrefixOf name then do
    let raw ← s.get name
    let r ← decode raw
    if r.groupId ≠ groupId then none
    else
      let p ← parse r.body
      if wanted.isPrefixOf (attachmentLabel p.blobId) then some ⟨name, p.blobId⟩ else none
  else none

/-- One turn of the search. -/
def findTurn (s : Records) (groupId : Block 16) (wanted : List Char) (hits : List Candidate)
    (name : Bytes) : Except MessageError (List Candidate) :=
  match candidate decode s groupId wanted name with
  | none => .ok hits
  | some c =>
    if hits.length = maxCandidates then .error .ambiguousAttachment else .ok (hits ++ [c])

/-- The hits, if they are all of one blob. -/
def agree (hits : List Candidate) : Except MessageError (List Candidate) :=
  match hits with
  | [] => .error .noSuchAttachment
  | first :: _ =>
    if hits.any fun c => c.blobId != first.blobId then .error .ambiguousAttachment else .ok hits

def findAttachment (s : Records) (groupId : Block 16) (reference : List Char) :
    Except MessageError (List Candidate) × Records :=
  let wanted := toAsciiLowercase (trim reference)
  if wanted.length < minAttPrefixLen ∨ wanted.all isAsciiHexdigit = false then
    (.error .noSuchAttachment, s)
  else
    let s := (liveAttachments decode now s).1
    (s.names.foldlM (findTurn decode s groupId wanted) [] >>= agree, s)

/-- Remove a message that was shown. A media message is parked first, under a name with a random
suffix. -/
def discard (s : Records) (name : Bytes) (media : Option (Block 16)) (suffix : Block 16) :
    Records :=
  let s :=
    if media.isSome then
      match s.get name with
      | none => s
      | some raw =>
        (makeRoomForAttachment decode now s).put (attPrefix ++ Uuid.hyphenated suffix) raw
    else s
  s.remove name

end

section

variable {decode : Bytes → Option Received} {now : ℕ}

/-! ### The sweep -/

/-- A turn removes the record it looks at, if that has expired. -/
theorem entries_liveTurn (s : Records × List (ℕ × Bytes)) (name : Bytes) :
    (liveTurn decode now s name).1.entries =
      s.1.entries.filter fun e => !(e.1 == name && expired decode now e.2) := by
  unfold liveTurn
  cases hget : s.1.get name with
  | none =>
    -- Nothing has this name.
    symm
    refine filter_eq_self.2 fun e he => ?_
    have hne : e.1 ≠ name := by
      rintro rfl
      rw [Records.get_eq_some.2 he] at hget
      cases hget
    simp [hne]
  | some raw =>
    have hraw : ∀ e ∈ s.1.entries, e.1 = name → e.2 = raw := by
      rintro e he rfl
      exact Option.some.inj ((Records.get_eq_some.2 he).symm.trans hget)
    dsimp only
    split
    · next hexpired =>
      refine filter_congr fun e he => ?_
      by_cases hname : e.1 = name
      · simp [hname, hraw e he hname, hexpired]
      · have hother : (e.1 == name) = false := beq_false_of_ne hname
        simp [bne, hother]
    · next hlive =>
      symm
      refine filter_eq_self.2 fun e he => ?_
      by_cases hname : e.1 = name
      · simp [hraw e he hname, hlive]
      · simp [hname]

theorem entries_foldl_liveTurn (names : List Bytes) (s : Records × List (ℕ × Bytes)) :
    (names.foldl (liveTurn decode now) s).1.entries =
      s.1.entries.filter fun e => !(decide (e.1 ∈ names) && expired decode now e.2) := by
  induction names generalizing s with
  | nil => simp
  | cons name names ih =>
    rw [foldl_cons, ih, entries_liveTurn, filter_filter]
    refine filter_congr fun e _ => ?_
    by_cases hname : e.1 = name <;> cases expired decode now e.2 <;> simp [hname]

/-- The sweep leaves exactly the records that are not parked, or not expired. -/
theorem entries_liveAttachments (s : Records) :
    (liveAttachments decode now s).1.entries =
      s.entries.filter fun e => !(attPrefix.isPrefixOf e.1 && expired decode now e.2) := by
  rw [liveAttachments, entries_foldl_liveTurn]
  refine filter_congr fun e he => ?_
  have hname : e.1 ∈ s.names := mem_map_of_mem he
  have hmem : decide (e.1 ∈ s.names.filter attPrefix.isPrefixOf) = attPrefix.isPrefixOf e.1 := by
    rw [Bool.eq_iff_iff]
    simp [mem_filter, hname]
  rw [hmem]

/-! ### The search -/

/-- The search collects the candidates, or fails if there are too many. -/
theorem foldlM_findTurn (s : Records) (g : Block 16) (wanted : List Char) (names : List Bytes)
    {hits : List Candidate} (hhits : hits.length ≤ maxCandidates) :
    names.foldlM (findTurn decode s g wanted) hits =
      if hits.length + (names.filterMap (candidate decode s g wanted)).length ≤ maxCandidates then
        .ok (hits ++ names.filterMap (candidate decode s g wanted))
      else .error .ambiguousAttachment := by
  induction names generalizing hits with
  | nil => simp [hhits, pure, Except.pure]
  | cons name names ih =>
    rw [foldlM_cons, findTurn]
    cases hc : candidate decode s g wanted name with
    | none =>
      rw [filterMap_cons_none hc]
      exact ih hhits
    | some c =>
      rw [filterMap_cons_some hc]
      dsimp only
      by_cases hfull : hits.length = maxCandidates
      · have htoo : ¬hits.length + (c :: names.filterMap (candidate decode s g wanted)).length ≤
            maxCandidates := by
          rw [length_cons]
          omega
        rw [if_pos hfull, if_neg htoo]
        rfl
      · have hroom : (hits ++ [c]).length ≤ maxCandidates := by
          rw [length_append, length_singleton]
          omega
        rw [if_neg hfull]
        refine (ih hroom).trans ?_
        simp only [length_append, length_cons, length_nil, append_assoc,
          singleton_append, Nat.zero_add, Nat.add_assoc, Nat.add_comm 1]

/-- A record describes the blob `id` for the group `g`: it is one of the two kinds, it has not
expired, and it holds a valid descriptor with that id. -/
def Describes (decode : Bytes → Option Received) (now : ℕ) (g id : Block 16) (e : Bytes × Bytes) :
    Bool :=
  (rxPrefix.isPrefixOf e.1 || attPrefix.isPrefixOf e.1) &&
    !(attPrefix.isPrefixOf e.1 && expired decode now e.2) &&
    ((decode e.2).any fun r => r.groupId == g && (parse r.body).any fun p => p.blobId == id)

/-- The records of a blob. -/
def describing (decode : Bytes → Option Received) (now : ℕ) (s : Records) (g id : Block 16) :
    List (Bytes × Bytes) :=
  s.entries.filter (Describes decode now g id)

theorem attachmentLabel_injective : Function.Injective attachmentLabel := by
  intro a b h
  have hbyte : Function.Injective fun x : UInt8 => Char.ofNat x.toNat := by
    have table : ∀ n < 256, (Char.ofNat n).toNat = n := by decide +kernel
    intro x y hxy
    apply UInt8.toNat_inj.1
    rw [← table x.toNat x.toNat_lt, ← table y.toNat y.toNat_lt]
    exact congrArg Char.toNat hxy
  exact Subtype.ext (toHex_injective (map_injective_iff.2 hbyte h))

theorem length_attachmentLabel (id : Block 16) : (attachmentLabel id).length = 32 := by
  rw [attachmentLabel, length_map]
  exact Uuid.length_toHex_eq id

/-- A full blob id is the start of no other. -/
theorem isPrefixOf_attachmentLabel (a b : Block 16) :
    (attachmentLabel a).isPrefixOf (attachmentLabel b) = (b == a) := by
  rw [Bool.eq_iff_iff, isPrefixOf_iff_prefix, beq_iff_eq]
  constructor
  · intro h
    have hlen := (length_attachmentLabel a).trans (length_attachmentLabel b).symm
    exact (attachmentLabel_injective (h.eq_of_length hlen)).symm
  · rintro rfl
    exact prefix_rfl

/-- The characters of a label are lower-case digits. -/
theorem mem_attachmentLabel {id : Block 16} {c : Char} (h : c ∈ attachmentLabel id) :
    isWhitespace c = false ∧ asciiLower c = c ∧ isAsciiHexdigit c = true := by
  have table : ∀ n < 256, isLowerHex (UInt8.ofNat n) = true →
      isWhitespace (Char.ofNat n) = false ∧ asciiLower (Char.ofNat n) = Char.ofNat n ∧
        isAsciiHexdigit (Char.ofNat n) = true := by decide +kernel
  obtain ⟨b, hb, rfl⟩ := mem_map.1 h
  have hdigit := all_eq_true.1 (all_isLowerHex_toHex id.1) b hb
  exact table b.toNat b.toNat_lt (by simpa using hdigit)

/-- What an unexpired record yields in a search for a full blob id. -/
theorem candidate_attachmentLabel {s : Records} {e : Bytes × Bytes} (he : e ∈ s.entries)
    (hlive : (attPrefix.isPrefixOf e.1 && expired decode now e.2) = false) (g id : Block 16) :
    candidate decode s g (attachmentLabel id) e.1 =
      if Describes decode now g id e then some ⟨e.1, id⟩ else none := by
  rw [candidate, Records.get_eq_some.2 he, Describes, hlive]
  by_cases hkind : (rxPrefix.isPrefixOf e.1 || attPrefix.isPrefixOf e.1) = true
  · cases hdecode : decode e.2 with
    | none => simp [hdecode]
    | some r =>
      by_cases hgroup : r.groupId = g
      · subst hgroup
        cases hparse : parse r.body with
        | none => simp [hdecode, hparse]
        | some p =>
          by_cases hid : p.blobId = id
          · subst hid
            simp [hdecode, hparse]
          · have hprefix : ¬attachmentLabel id <+: attachmentLabel p.blobId := by
              rw [← isPrefixOf_iff_prefix, isPrefixOf_attachmentLabel, beq_iff_eq]
              exact hid
            have hval : p.blobId.1 ≠ id.1 := fun h => hid (Subtype.ext h)
            simp [hdecode, hparse, hprefix, hval]
      · have hval : r.groupId.1 ≠ g.1 := fun h => hgroup (Subtype.ext h)
        simp [hdecode, hgroup, hval]
  · rw [Bool.eq_false_iff.2 hkind]
    rfl

theorem filterMap_ite {α β : Type} (p : α → Bool) (f : α → β) (l : List α) :
    (l.filterMap fun a => if p a then some (f a) else none) = (l.filter p).map f := by
  induction l with
  | nil => rfl
  | cons a l ih => cases hp : p a <;> simp [hp, ih]

/-- Among the records that are left after the sweep, the candidates for a full blob id are those
that describe it. -/
theorem filterMap_candidate (s : Records) (g id : Block 16) :
    (liveAttachments decode now s).1.names.filterMap
        (candidate decode (liveAttachments decode now s).1 g (attachmentLabel id)) =
      (describing decode now s g id).map fun e => ⟨e.1, id⟩ := by
  have hread : ∀ e ∈ (liveAttachments decode now s).1.entries,
      candidate decode (liveAttachments decode now s).1 g (attachmentLabel id) e.1 =
        if Describes decode now g id e then some ⟨e.1, id⟩ else none := by
    intro e he
    have hlive := he
    rw [entries_liveAttachments] at hlive
    exact candidate_attachmentLabel he (by simpa only [Bool.not_eq_true'] using
      (mem_filter.1 hlive).2) g id
  rw [Records.names, filterMap_map]
  refine (filterMap_congr hread).trans ?_
  rw [filterMap_ite, entries_liveAttachments, filter_filter]
  congr 1
  refine filter_congr fun e _ => ?_
  unfold Describes
  cases attPrefix.isPrefixOf e.1 && expired decode now e.2 <;> simp

/-- Hits of one blob are returned as they are. -/
theorem agree_of_forall {hits : List Candidate} {id : Block 16}
    (h : ∀ c ∈ hits, c.blobId = id) (hne : hits ≠ []) : agree hits = .ok hits := by
  obtain ⟨first, rest, rfl⟩ := exists_cons_of_ne_nil hne
  have hsame : ((first :: rest).any fun c => c.blobId != first.blobId) = false := by
    rw [any_eq_false]
    intro c hc
    rw [h c hc, h first mem_cons_self]
    simp
  rw [agree, hsame]
  rfl

/-- A full blob id is a well-formed reference, and trimming and lower-casing leave it alone. -/
theorem wanted_attachmentLabel (id : Block 16) :
    toAsciiLowercase (trim (attachmentLabel id)) = attachmentLabel id ∧
      ¬((attachmentLabel id).length < minAttPrefixLen ∨
        (attachmentLabel id).all isAsciiHexdigit = false) := by
  constructor
  · rw [trim_eq_self fun c hc => (mem_attachmentLabel hc).1]
    exact (map_congr_left fun c hc => (mem_attachmentLabel hc).2.1).trans (map_id' _)
  · rintro (hshort | hdigits)
    · rw [length_attachmentLabel] at hshort
      exact absurd hshort (by decide)
    · rw [all_eq_false] at hdigits
      obtain ⟨c, hc, hdigit⟩ := hdigits
      exact hdigit (mem_attachmentLabel hc).2.2

/-- A search for a full blob id returns all records that describe the blob, unless there are more
than `maxCandidates` of them. -/
theorem findAttachment_label (s : Records) (g id : Block 16) :
    (findAttachment decode now s g (attachmentLabel id)).1 =
      if maxCandidates < (describing decode now s g id).length then .error .ambiguousAttachment
      else if describing decode now s g id = [] then .error .noSuchAttachment
      else .ok ((describing decode now s g id).map fun e => ⟨e.1, id⟩) := by
  obtain ⟨hwanted, hwell⟩ := wanted_attachmentLabel id
  have hnone : ([] : List Candidate).length ≤ maxCandidates := Nat.zero_le _
  rw [findAttachment, hwanted, if_neg hwell]
  dsimp only
  rw [foldlM_findTurn _ g _ _ hnone, filterMap_candidate]
  simp only [length_nil, Nat.zero_add, length_map, nil_append]
  by_cases hmany : maxCandidates < (describing decode now s g id).length
  · rw [if_neg (Nat.not_le.2 hmany), if_pos hmany]
    rfl
  · rw [if_pos (Nat.not_lt.1 hmany), if_neg hmany]
    by_cases hempty : describing decode now s g id = []
    · rw [hempty]
      rfl
    · rw [if_neg hempty]
      have hsame : ∀ c ∈ (describing decode now s g id).map fun e => (⟨e.1, id⟩ : Candidate),
          c.blobId = id := by
        intro c hc
        obtain ⟨e, -, rfl⟩ := mem_map.1 hc
        rfl
      exact agree_of_forall hsame (by simpa using hempty)

/-! ### Messages that were shown -/

section

variable {s : Records} {name raw : Bytes} {g blob suffix : Block 16} {now' : ℕ}

/-- Showing a media message keeps its record, under a parked name. -/
theorem entries_discard (hget : s.get name = some raw) :
    (discard decode now s name (some blob) suffix).entries =
      ((attPrefix ++ Uuid.hyphenated suffix, raw) :: ((makeRoomForAttachment decode now s).remove
        (attPrefix ++ Uuid.hyphenated suffix)).entries).filter (·.1 != name) := by
  rw [discard, hget]
  rfl

/-- A media message that was shown can still be saved: the search finds it under its parked name,
unless it is too old or its blob has too many records. -/
theorem shown_attachment_found (hname : rxPrefix.isPrefixOf name = true)
    (hget : s.get name = some raw) (hdescribes : Describes decode now' g blob (name, raw))
    (hlive : expired decode now' raw = false)
    (hfew : (describing decode now' (discard decode now s name (some blob) suffix) g blob).length ≤
      maxCandidates) :
    ∃ hits, (findAttachment decode now' (discard decode now s name (some blob) suffix) g
        (attachmentLabel blob)).1 = .ok hits ∧
      ⟨attPrefix ++ Uuid.hyphenated suffix, blob⟩ ∈ hits := by
  have hkind : attPrefix.isPrefixOf (attPrefix ++ Uuid.hyphenated suffix) = true := rfl
  have hother : attPrefix ++ Uuid.hyphenated suffix ≠ name := by
    rintro rfl
    cases hname
  have hparked : (attPrefix ++ Uuid.hyphenated suffix, raw) ∈
      describing decode now' (discard decode now s name (some blob) suffix) g blob := by
    rw [describing, entries_discard hget, filter_comm]
    refine mem_filter.2 ⟨mem_filter.2 ⟨mem_cons_self, ?_⟩, by simpa using hother⟩
    simp only [Describes, Bool.and_eq_true] at hdescribes ⊢
    exact ⟨by simp [hkind, hlive], hdescribes.2⟩
  rw [findAttachment_label, if_neg (Nat.not_lt.2 hfew), if_neg (ne_nil_of_mem hparked)]
  exact ⟨_, rfl, mem_map.2 ⟨_, hparked, rfl⟩⟩

end

/-! ### Duplicates -/

/-- A stored descriptor is among the records that a search for its blob id returns, if and only if
no more than `maxCandidates` records describe that blob. -/
theorem genuine_attachment_found_iff (s : Records) (g id : Block 16) (e : Bytes × Bytes)
    (he : e ∈ s.entries) (hdescribes : Describes decode now g id e) :
    (∃ hits, (findAttachment decode now s g (attachmentLabel id)).1 = .ok hits ∧
      ⟨e.1, id⟩ ∈ hits) ↔ (describing decode now s g id).length ≤ maxCandidates := by
  have hmem : e ∈ describing decode now s g id := mem_filter.2 ⟨he, hdescribes⟩
  rw [findAttachment_label, if_neg (ne_nil_of_mem hmem)]
  constructor
  · rintro ⟨hits, hfound, -⟩
    by_contra hmany
    rw [if_pos (Nat.not_le.1 hmany)] at hfound
    cases hfound
  · intro hfew
    rw [if_neg (Nat.not_lt.2 hfew)]
    exact ⟨_, rfl, mem_map.2 ⟨e, hmem, rfl⟩⟩

end

/-- A record that is its own body, received at the time 1. -/
def plainRecord (raw : Bytes) : Option Received := some ⟨default, raw, 1⟩

/-- The `i`-th record of the blob 0. Each has a key of its own, so at most one opens the blob. -/
def sampleRecord (i : ℕ) : Bytes × Bytes :=
  (rxPrefix ++ [UInt8.ofNat i],
    Json.object (descriptorFields
      ⟨[], ⟨List.replicate 32 (UInt8.ofNat i), length_replicate⟩, default, default, none⟩
      default))

theorem describes_sampleRecord (i : ℕ) :
    Describes plainRecord 1 default default (sampleRecord i) = true := by
  have hparse := parse_descriptor (s := ⟨[], ⟨replicate 32 (UInt8.ofNat i),
    length_replicate⟩, default, default, none⟩) default (by simp)
  simp only [Describes, plainRecord, sampleRecord, hparse, Option.any_some, beq_self_eq_true,
    Bool.and_true]
  rfl

/-- The first `n` records of the blob. -/
def sampleRecords (n : ℕ) (h : n ≤ 256) : Records where
  entries := (List.range n).map sampleRecord
  nodup := by
    rw [map_map]
    refine List.Nodup.map_on (fun i hi j hj hij => ?_) nodup_range
    have hbyte : UInt8.ofNat i = UInt8.ofNat j := by simpa [sampleRecord] using hij
    have hnat := congrArg UInt8.toNat hbyte
    rw [mem_range] at hi hj
    simp only [UInt8.toNat_ofNat'] at hnat
    omega

theorem describing_sampleRecords (n : ℕ) (h : n ≤ 256) :
    describing plainRecord 1 (sampleRecords n h) default default =
      (range n).map sampleRecord := by
  refine filter_eq_self.2 fun e he => ?_
  obtain ⟨i, -, rfl⟩ := mem_map.1 he
  exact describes_sampleRecord i

/-- Sixteen records of a blob are all returned. -/
theorem genuine_attachment_found_sample :
    ∃ hits, (findAttachment plainRecord 1 (sampleRecords 16 (by decide)) default
        (attachmentLabel default)).1 = .ok hits ∧ ⟨(sampleRecord 0).1, default⟩ ∈ hits := by
  refine (genuine_attachment_found_iff (sampleRecords 16 (by decide)) default default
    (sampleRecord 0) (mem_map.2 ⟨0, by decide, rfl⟩) (describes_sampleRecord 0)).mpr ?_
  rw [describing_sampleRecords]
  decide

/-- The record is found among fourteen others of its blob. -/
theorem shown_attachment_found_sample :
    ∃ hits, (findAttachment plainRecord 1 (discard plainRecord 1 (sampleRecords 15 (by decide))
        (sampleRecord 0).1 (some default) default) default (attachmentLabel default)).1 = .ok hits ∧
      ⟨attPrefix ++ Uuid.hyphenated default, default⟩ ∈ hits := by
  have hget : (sampleRecords 15 (by decide)).get (sampleRecord 0).1 = some (sampleRecord 0).2 :=
    Records.get_eq_some.2 (mem_map.2 ⟨0, by decide, rfl⟩)
  refine shown_attachment_found rfl hget (describes_sampleRecord 0) rfl ?_
  rw [describing, entries_discard hget]
  exact (length_filter_le _ _).trans ((length_filter_le _ _).trans (by decide +kernel))

/-- Sixteen more descriptors of a blob, with other keys, and the genuine one is not found. -/
theorem duplicates_block_attachment :
    ∃ (s : Records) (e : Bytes × Bytes), e ∈ s.entries ∧
      Describes plainRecord 1 default default e = true ∧
      (findAttachment plainRecord 1 s default (attachmentLabel default)).1 =
        .error .ambiguousAttachment := by
  refine ⟨sampleRecords 17 (by decide), sampleRecord 0, mem_map.2 ⟨0, by decide, rfl⟩,
    describes_sampleRecord 0, ?_⟩
  rw [findAttachment_label, describing_sampleRecords]
  exact if_pos (by decide)

end Powehi.Media
