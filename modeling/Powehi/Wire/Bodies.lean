import Mathlib.Algebra.Group.Action.Defs
import Powehi.Client.Types
import Powehi.Codec.Json
import Powehi.Codec.Uuid
import Powehi.Server.Mesh
import Powehi.Server.Paging

/-!
# Bodies on the wire and their limits

The REST API and the command-line client exchange JSON in which a byte string is an array of
decimal numbers, while both sides bound some sizes on the raw bytes and some on the text. Here the
bodies are written out for two exchanges, and it is said exactly which of them keep within the
other side's limit: the page of envelopes a poll is answered with, and the request that delivers a
Welcome.

The text of a timestamp is not modelled: it is a parameter `rfc3339`.
-/

namespace Powehi.Wire

open Codec Server List Json

/-! ### Bodies -/

/-- The largest request body the REST API reads. -/
def maxBodyBytes : ℕ := 512 * 1024

/-- The largest answer to a poll the client reads. -/
def maxPollBytes : ℕ := 16 * 1024 * 1024

/-- The largest Welcome the client posts an Add for. -/
def maxWelcomeBytes : ℕ := 256 * 1024

/-- An id as text. -/
def idText (id : Uuid) : Bytes := Uuid.hyphenated ⟨beBytes 16 id, length_beBytes ..⟩

def messageTypeName : MessageType → Bytes
  | .application => ascii "Application"
  | .welcome => ascii "Welcome"
  | .commit => ascii "Commit"
  | .proposal => ascii "Proposal"

section Poll

variable (rfc3339 : Time → Bytes)

def envelopeJson (e : Envelope) : Bytes :=
  Json.object [
    Json.field "id" (Json.quoted (idText e.id)),
    Json.field "group_id" (Json.quoted (idText e.groupId)),
    Json.field "sender" (Json.quoted (idText e.sender)),
    Json.field "recipient" (Json.optional (e.recipient.map fun d => Json.quoted (idText d))),
    Json.field "message_type" (Json.quoted (messageTypeName e.messageType)),
    Json.field "ciphertext" (Json.byteArray e.ciphertext),
    Json.field "epoch" (Json.optional (e.epoch.map Json.decimal)),
    Json.field "created_at" (Json.quoted (rfc3339 e.createdAt)),
    Json.field "expires_at" (Json.optional (e.expiresAt.map fun t => Json.quoted (rfc3339 t)))]

/-- The answer to a poll. -/
def pollResponse (page : List Envelope) : Bytes := Json.array (page.map (envelopeJson rfc3339))

end Poll

/-- The client reads an answer chunk by chunk and gives up when it grows beyond the limit. -/
def readChunks (limit : ℕ) (buf : Bytes) : List Bytes → Except Client.Error Bytes
  | [] => .ok buf
  | chunk :: rest =>
    if limit < buf.length + chunk.length then .error .badResponse
    else readChunks limit (buf ++ chunk) rest

def sendRaw (limit : ℕ) (chunks : List Bytes) : Except Client.Error Bytes :=
  readChunks limit [] chunks

/-- Why an Add is refused before anything is posted. -/
inductive GroupError
  | welcomeTooLarge
deriving DecidableEq, Repr

/-- The check before the Commit of an Add is posted. -/
def checkWelcomeSize (len : ℕ) : Except GroupError Unit :=
  if len = 0 ∨ maxWelcomeBytes < len then .error .welcomeTooLarge else .ok ()

/-- The request that delivers a Welcome. -/
def welcomeRequest (groupId : GroupId) (welcome : Bytes) (target : DeviceId) : Bytes :=
  Json.object [
    Json.field "group_id" (Json.quoted (idText groupId)),
    Json.field "welcome" (Json.byteArray welcome),
    Json.field "target_device_id" (Json.quoted (idText target))]

/-! ### Lengths -/

theorem length_idText (id : Uuid) : (idText id).length = 36 := Uuid.length_hyphenated _

section Poll

variable (rfc3339 : Time → Bytes)

/-- The characters of an envelope besides those of its ciphertext, with the comma or bracket behind
it. -/
def metadata (e : Envelope) : ℕ :=
  229 + (Json.optional (e.recipient.map fun d => Json.quoted (idText d))).length +
    (messageTypeName e.messageType).length + (Json.optional (e.epoch.map Json.decimal)).length +
    (rfc3339 e.createdAt).length +
    (Json.optional (e.expiresAt.map fun t => Json.quoted (rfc3339 t))).length

/-- The characters of a row: its metadata, and its ciphertext with 2 characters for a byte below
10, 3 for one below 100 and 4 for another. -/
def rowChars (e : Envelope) : ℕ := metadata rfc3339 e + max 1 (e.ciphertext.map printed).sum

theorem length_envelopeJson (e : Envelope) :
    (envelopeJson rfc3339 e).length + 1 = rowChars rfc3339 e := by
  have hkeys : (ascii "id").length = 2 ∧ (ascii "group_id").length = 8 ∧
      (ascii "sender").length = 6 ∧ (ascii "recipient").length = 9 ∧
      (ascii "message_type").length = 12 ∧ (ascii "ciphertext").length = 10 ∧
      (ascii "epoch").length = 5 ∧ (ascii "created_at").length = 10 ∧
      (ascii "expires_at").length = 10 := by decide +kernel
  obtain ⟨h₁, h₂, h₃, h₄, h₅, h₆, h₇, h₈, h₉⟩ := hkeys
  simp only [envelopeJson, length_object, map_cons, map_nil, sum_cons,
    sum_nil, length_field, length_quoted, length_byteArray, length_idText,
    h₁, h₂, h₃, h₄, h₅, h₆, h₇, h₈, h₉, rowChars, metadata]
  omega

theorem length_pollResponse (page : List Envelope) :
    (pollResponse rfc3339 page).length = 1 + max 1 (page.map (rowChars rfc3339)).sum := by
  have hitems : (page.map (envelopeJson rfc3339)).map (fun x => x.length + 1) =
      page.map (rowChars rfc3339) := by
    rw [map_map]
    exact map_congr_left fun e _ => length_envelopeJson rfc3339 e
  rw [pollResponse, length_array, hitems]

end Poll

theorem length_welcomeRequest (groupId : GroupId) (welcome : Bytes) (target : DeviceId) :
    (welcomeRequest groupId welcome target).length =
      121 + max 1 (welcome.map printed).sum := by
  have hkeys : (ascii "group_id").length = 8 ∧ (ascii "welcome").length = 7 ∧
      (ascii "target_device_id").length = 16 := by decide +kernel
  obtain ⟨h₁, h₂, h₃⟩ := hkeys
  simp only [welcomeRequest, length_object, map_cons, map_nil, sum_cons,
    sum_nil, length_field, length_quoted, length_byteArray, length_idText,
    h₁, h₂, h₃]
  omega

/-- However it is cut into chunks, an answer is read if and only if it is within the limit. -/
theorem readChunks_eq {limit : ℕ} {buf : Bytes} (h : buf.length ≤ limit) (chunks : List Bytes) :
    readChunks limit buf chunks =
      if (buf ++ chunks.flatten).length ≤ limit then .ok (buf ++ chunks.flatten)
      else .error .badResponse := by
  induction chunks generalizing buf with
  | nil => simp [readChunks, h]
  | cons chunk rest ih =>
    rw [readChunks]
    split
    · rename_i hlong
      rw [if_neg]
      simp only [flatten_cons, length_append]
      omega
    · rename_i hshort
      rw [ih (by simpa using hshort), flatten_cons, append_assoc]

theorem sendRaw_eq (limit : ℕ) (chunks : List Bytes) : sendRaw limit chunks =
    if chunks.flatten.length ≤ limit then .ok chunks.flatten else .error .badResponse :=
  readChunks_eq (Nat.zero_le _) chunks

/-! ### Pages -/

theorem maxForwardedBytes_le (t : MessageType) : maxForwardedBytes t ≤ envelopePollMaxBytes := by
  cases t <;> decide

/-- Where the rows keep the ingress limits, the answer to a poll is read by the client, in whatever
chunks it comes, if and only if no beginning of what is pending, of at most 64 rows and 4 MiB of
ciphertext, takes as many characters as the client's limit. -/
theorem page_fits_iff (rfc3339 : Time → Bytes) (db : Db) (d : DeviceId) (since : Option Time)
    (sinceId : Option EnvelopeId)
    (hingress : ∀ e ∈ db.envelopes, e.ciphertext.length ≤ maxForwardedBytes e.messageType) :
    let body := pollResponse rfc3339 (db.findPending d since sinceId)
    let fits := ∀ rows, rows <+: db.pendingAfter d since sinceId →
      rows.length ≤ envelopePollLimit →
      (rows.map (·.ciphertext.length)).sum ≤ envelopePollMaxBytes →
      (rows.map (rowChars rfc3339)).sum < maxPollBytes
    (body.length ≤ maxPollBytes ↔ fits) ∧
      ∀ chunks : List Bytes, chunks.flatten = body →
        (fits → sendRaw maxPollBytes chunks = .ok body) ∧
          (¬fits → sendRaw maxPollBytes chunks = .error .badResponse) := by
  intro body fits
  have hpage : ∀ rows, rows <+: db.findPending d since sinceId ↔ _ := fun rows =>
    Db.prefix_findPending fun e he =>
      (hingress e (Db.mem_pendingAfter.mp he).1).trans (maxForwardedBytes_le _)
  have hlen : body.length ≤ maxPollBytes ↔
      ((db.findPending d since sinceId).map (rowChars rfc3339)).sum < maxPollBytes := by
    have h := length_pollResponse rfc3339 (db.findPending d since sinceId)
    have htwo : 2 ≤ maxPollBytes := by decide
    simp only [body]
    omega
  have hiff : body.length ≤ maxPollBytes ↔ fits := by
    rw [hlen]
    constructor
    · intro hfits rows hrows hcount hbytes
      have hsub := ((hpage rows).mpr ⟨hrows, hcount, hbytes⟩).sublist.map (rowChars rfc3339)
      exact (hsub.sum_le_sum (by simp)).trans_lt hfits
    · intro hfits
      obtain ⟨hrows, hcount, hbytes⟩ := (hpage _).mp prefix_rfl
      exact hfits _ hrows hcount hbytes
  refine ⟨hiff, fun chunks hchunks => ?_⟩
  rw [sendRaw_eq, hchunks]
  exact ⟨fun h => if_pos (hiff.mpr h), fun h => if_neg (mt hiff.mp h)⟩

/-- A Welcome of `size` bytes that all print with three digits. -/
def Sample.welcome (size i : ℕ) : Envelope :=
  .new i i 1 2 (some 3) .welcome (List.replicate size 255)

/-- A device for which `count` such Welcomes wait. -/
def Sample.flooded (count size : ℕ) : Db :=
  { Db.empty with
    envelopes := ⟨(List.range count).map (welcome size), by
      rw [map_map]
      exact nodup_range.map fun i j h => h⟩ }

theorem Sample.printed_replicate (size : ℕ) :
    ((replicate size (255 : UInt8)).map printed).sum = size * 4 := by
  rw [map_replicate, sum_replicate]
  rfl

/-- The page has all of them if they keep within the server's budget. -/
theorem Sample.perm_flooded {count size : ℕ} (hcount : count ≤ envelopePollLimit)
    (hsize : count * size ≤ envelopePollMaxBytes) :
    ((flooded count size).findPending 3 none none).Perm
      ((range count).map (welcome size)) := by
  have hall : (flooded count size).envelopes.rows.filter (fun e =>
      (flooded count size).deliverable 3 e && e.behind none none) =
      (range count).map (welcome size) := by
    apply filter_eq_self.mpr
    intro e he
    obtain ⟨i, -, rfl⟩ := mem_map.mp he
    rfl
  have hperm : ((flooded count size).pendingAfter 3 none none).Perm
      ((range count).map (welcome size)) := by
    rw [Db.pendingAfter, hall]
    exact perm_insertionSort _ _
  have hfits : (flooded count size).FitsPage 3 none none := by
    constructor
    · rw [hperm.length_eq, length_map, length_range]
      exact hcount
    · rw [(hperm.map _).sum_eq, map_map]
      have hlen : (fun e : Envelope => e.ciphertext.length) ∘ welcome size =
          fun _ => size := by
        funext i
        exact length_replicate
      rw [hlen, map_const', sum_replicate, length_range]
      exact hsize
  rw [Db.findPending_eq_pendingAfter hfits]
  exact hperm

/-- The page takes at least four characters for each of the bytes. -/
theorem Sample.flooded_length (count size : ℕ) (hcount : count ≤ envelopePollLimit)
    (hsize : count * size ≤ envelopePollMaxBytes) (rfc3339 : Time → Bytes) :
    count * (size * 4) <
      (pollResponse rfc3339 ((flooded count size).findPending 3 none none)).length := by
  rw [length_pollResponse, ((perm_flooded hcount hsize).map _).sum_eq]
  have hterm : ∀ x ∈ ((range count).map (welcome size)).map (rowChars rfc3339), size * 4 ≤ x := by
    intro x hx
    obtain ⟨e, he, rfl⟩ := mem_map.mp hx
    obtain ⟨i, -, rfl⟩ := mem_map.mp he
    rw [rowChars]
    have hsum : ((welcome size i).ciphertext.map printed).sum = size * 4 :=
      printed_replicate size
    omega
  have hsum := card_nsmul_le_sum _ _ hterm
  rw [length_map, length_map, length_range, smul_eq_mul] at hsum
  omega

/-- Such Welcomes are taken by the REST API if the request is within its limit. -/
theorem Sample.flooded_taken {count size : ℕ} (hsize : size ≤ Server.maxWelcomeBytes)
    (hbody : 121 + max 1 (size * 4) ≤ maxBodyBytes) :
    ∀ e ∈ (flooded count size).envelopes, e.messageType = .welcome ∧
      e.recipient = some 3 ∧ e.ciphertext.length ≤ Server.maxWelcomeBytes ∧
      (welcomeRequest e.groupId e.ciphertext 3).length ≤ maxBodyBytes := by
  intro e he
  obtain ⟨i, -, rfl⟩ := mem_map.mp he
  refine ⟨rfl, rfl, ?_, ?_⟩
  · change (replicate size (255 : UInt8)).length ≤ _
    rwa [length_replicate]
  · change (welcomeRequest 1 (replicate size 255) 3).length ≤ _
    rwa [length_welcomeRequest, printed_replicate]

open Sample

/-- Sixty-four Welcomes of 64 KiB that the REST API takes make a page that the client refuses. -/
theorem flooded_page_refused : ∃ db : Db,
    (∀ e ∈ db.envelopes, e.messageType = .welcome ∧ e.recipient = some 3 ∧
      e.ciphertext.length ≤ Server.maxWelcomeBytes ∧
      (welcomeRequest e.groupId e.ciphertext 3).length ≤ maxBodyBytes) ∧
    maxPollBytes < (pollResponse (fun _ => ascii "2026-01-01T00:00:00Z")
      (db.findPending 3 none none)).length :=
  ⟨flooded 64 65536, flooded_taken (by decide) (by decide),
    flooded_length 64 65536 (by decide) (by decide) _⟩

/-- Two small Welcomes are read, also if the answer comes byte by byte. -/
theorem small_page_read :
    let body := pollResponse (fun _ => ascii "now") ((flooded 2 1).findPending 3 none none)
    sendRaw maxPollBytes (body.map fun b => [b]) = .ok body := by
  have hfits : ∀ rows ∈ ((flooded 2 1).pendingAfter 3 none none).inits,
      (rows.map (rowChars fun _ => ascii "now")).sum < maxPollBytes := by decide +kernel
  have hread := page_fits_iff (fun _ => ascii "now") (flooded 2 1) 3 none none (by decide)
  exact (hread.2 _ (by rw [← flatMap_def, flatMap_singleton'])).1 fun rows hrows _ _ =>
    hfits rows ((mem_inits rows _).mpr hrows)

/-! ### Welcomes -/

/-- A Welcome that passes the client's check is within both limits of the server if and only if its
bytes, with 2 characters for one below 10, 3 for one below 100 and 4 for another, are 524167
characters or fewer. -/
theorem welcome_deliverable_iff (groupId : GroupId) (welcome : Bytes) (target : DeviceId)
    (h : checkWelcomeSize welcome.length = .ok ()) :
    ((welcomeRequest groupId welcome target).length ≤ maxBodyBytes ∧
        welcome.length ≤ Server.maxWelcomeBytes) ↔
      (welcome.map Json.printed).sum ≤ 524167 := by
  have hlen : welcome.length ≤ Server.maxWelcomeBytes := by
    unfold checkWelcomeSize at h
    split at h
    · cases h
    · rename_i hsize
      exact Nat.not_lt.mp (not_or.mp hsize).2
  have hbody := length_welcomeRequest groupId welcome target
  simp only [maxBodyBytes] at hbody ⊢
  omega

/-- 131041 bytes of four characters and one of three are just within the limits. -/
theorem full_welcome_deliverable :
    (welcomeRequest 1 (42 :: replicate 131041 255) 3).length ≤ maxBodyBytes := by
  refine ((welcome_deliverable_iff 1 (42 :: replicate 131041 255) 3 ?_).mpr ?_).1
  · rw [length_cons, length_replicate]
    rfl
  · rw [map_cons, sum_cons, printed_replicate]
    decide

/-- A Welcome of 128 KiB passes the client's check, and the request for it is too large. -/
theorem long_welcome_refused : ∃ welcome : Bytes, checkWelcomeSize welcome.length = .ok () ∧
    maxBodyBytes < (welcomeRequest 1 welcome 3).length := by
  have hrefused : ∀ size, checkWelcomeSize size = .ok () → maxBodyBytes < 121 + max 1 (size * 4) →
      ∃ welcome : Bytes, checkWelcomeSize welcome.length = .ok () ∧
        maxBodyBytes < (welcomeRequest 1 welcome 3).length := by
    intro size hsize hbody
    refine ⟨List.replicate size 255, ?_, ?_⟩
    · rwa [length_replicate]
    · rwa [length_welcomeRequest, printed_replicate]
  exact hrefused 131072 (by decide) (by decide)

end Powehi.Wire
