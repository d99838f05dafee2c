import Powehi.Client.Pairs
import Powehi.Codec.Chars
import Powehi.Codec.JsonReader
import Powehi.Identity.SafetyNumber
import Powehi.Store.Types

/-!
# Confirming a safety number

A user who has compared the safety number of a conversation confirms it, and the number is stored.
From then on the commands that touch the conversation warn when the number cannot be computed or is
another one.

A write can fail although its record is on disk. Then the confirmation is reported as failed, and
the stored number is the new one.
-/

namespace Powehi.Client

open Codec Safety List Json

inductive VerifyError
  | identity
  | conversation
  | store (e : Store.StoreError)
  | noSuchConversation
  | groupUnusable
  | numberMismatch
  | mls
  | tooMany
  | duplicateKey
deriving DecidableEq

/-! ### The number of a conversation -/

def groupError : GroupSafetyError → VerifyError
  | .tooMany => .tooMany
  | .duplicateKey => .duplicateKey
  | .tooFew | .badKeyLength => .groupUnusable

section Number

variable (sha512 : Bytes → Block 64)

def numberFromKeys (keys : List Bytes) (ownKey : Bytes) (kind : Kind) :
    Except VerifyError Bytes :=
  -- The cap is judged first, so it does not depend on where the own leaf sits.
  if kind = .group ∧ groupMaxMembers < keys.length then .error .tooMany
  else if keys.any (·.length ≠ 32) ∨ ownKey ∉ keys then .error .groupUnusable
  else
    match kind, keys with
    | .pair, [a, b] =>
      if a = b then .error .duplicateKey
      else (pairwise sha512 a b).mapError fun _ => .groupUnusable
    | .pair, _ => .error .groupUnusable
    | .group, keys => (group sha512 keys).mapError groupError

def numberOf (G : Mls.Group) (ownKey : Bytes) (kind : Kind) : Except VerifyError Bytes :=
  if G.isActive = false then .error .groupUnusable
  else
    let keys := (G.members.take (groupMaxMembers + 1)).map (·.signatureKey)
    numberFromKeys sha512 keys ownKey kind

/-- What a profile holds of a conversation: its kind, the MLS state and the confirmation. -/
structure Held where
  kind : Option Kind
  ownKey : Bytes
  group : Option Mls.Group
  record : Option Bytes

/-- The reads of a call that fail. The confirmation is read twice. -/
structure Trouble where
  firstGet : Option Store.StoreError := none
  conversation : Bool := false
  identity : Bool := false
  group : Bool := false
  secondGet : Option Store.StoreError := none

def number (p : Held) (trouble : Trouble) : Except VerifyError Bytes :=
  if trouble.conversation then .error .conversation
  else
    match p.kind with
    | none => .error .noSuchConversation
    | some kind =>
      if trouble.identity then .error .identity
      else if trouble.group then .error .mls
      else
        match p.group with
        | none => .error .groupUnusable
        | some G =>
          if mlsKind G ≠ some kind then .error .groupUnusable
          else numberOf sha512 G p.ownKey kind

end Number

/-! ### The confirmation -/

structure Record where
  version : ℕ
  number : Bytes
deriving DecidableEq

/-- The record as it is stored. -/
def encodeRecord (number : Bytes) : Bytes :=
  Json.object [Json.field "version" (Json.decimal 1), Json.field "number" (Json.quoted number)]

def readVersion : Json.Value → Option ℕ
  | .num n => n.toU64.filter (· < 256)
  | _ => none

def readNumber : Json.Value → Option Bytes
  | .str text => text.bytes
  | _ => none

/-- The members seen so far. A second one of a name is an error, other names are skipped. -/
def readMember (seen : Option ℕ × Option Bytes) (m : Json.Text × Json.Value) :
    Option (Option ℕ × Option Bytes) :=
  match m.1.bytes with
  | none => none
  | some key =>
    if key = ascii "version" then
      if seen.1.isSome then none else (readVersion m.2).map fun v => (some v, seen.2)
    else if key = ascii "number" then
      if seen.2.isSome then none else (readNumber m.2).map fun n => (seen.1, some n)
    else some seen

def readRecord : Json.Value → Option Record
  | .obj ms =>
    match ms.foldlM readMember (none, none) with
    | some (some version, some number) => some ⟨version, number⟩
    | _ => none
  | .arr [v, n] =>
    match readVersion v, readNumber n with
    | some version, some number => some ⟨version, number⟩
    | _, _ => none
  | _ => none

/-- Where a conversation stands against its confirmation. -/
inductive VerifyState
  | unverified
  | verified
  | changed
deriving DecidableEq

/-- A read of the confirmation. -/
def Held.get (p : Held) : Option Store.StoreError → Except Store.StoreError (Option Bytes)
  | none => .ok p.record
  | some e => .error e

def state (raw : Except Store.StoreError (Option Bytes)) (current : Bytes) :
    Except VerifyError VerifyState :=
  match raw with
  | .ok (some raw) =>
    if (Json.parse raw).bind readRecord = some ⟨1, current⟩ then .ok .verified else .ok .changed
  | .ok none => .ok .unverified
  | .error .authentication => .ok .changed
  | .error e => .error (.store e)

/-- A text without its white space. -/
def squash (s : List Char) : List Char := (splitWhitespace s).flatten

/-- Store the number as confirmed, if it is what the user typed. -/
def confirm (p : Held) (current : Bytes) (typed : List Char) (write : Fault) :
    Except VerifyError Unit × Held :=
  if squash typed ≠ squash (current.map fun b => Char.ofNat b.toNat) then
    (.error .numberMismatch, p)
  else
    let (r, p) := write.apply (fun p => { p with record := some (encodeRecord current) }) p
    (r.mapError fun _ => .store (.io .other), p)

def changedSinceVerified (sha512 : Bytes → Block 64) (p : Held) (trouble : Trouble) : Bool :=
  match p.get trouble.firstGet with
  | .ok none => false
  | .error _ => true
  | .ok (some _) =>
    match number sha512 p trouble with
    | .ok current => state (p.get trouble.secondGet) current ≠ .ok .verified
    | .error _ => true

/-! ### Histories -/

/-- A kind and the keys of the members. -/
abbrev Roster := Kind × List Bytes

/-- The same kind and the same set of keys. -/
def Roster.Same (r r' : Roster) : Prop := r.1 = r'.1 ∧ ∀ k, k ∈ r.2 ↔ k ∈ r'.2

/-- What is hashed for a roster. -/
def Roster.input : Roster → Bytes
  | (.pair, keys) => pairInput keys
  | (.group, keys) => groupInput keys

def Held.roster (p : Held) : Option Roster :=
  match p.kind, p.group with
  | some kind, some G => some (kind, G.members.map (·.signatureKey))
  | _, _ => none

/-- A conversation, with the roster at the last confirmation that reached the disk and at the last
one that was reported as successful. -/
structure VerifyLog where
  held : Held
  written : Option Roster
  succeeded : Option Roster

inductive VerifyAct
  | change (kind : Option Kind) (ownKey : Bytes) (group : Option Mls.Group)
  | confirm (typed : List Char) (trouble : Trouble) (write : Fault)

/-- A change of the roster, or a confirmation of the number computed at that moment. -/
def VerifyLog.step (sha512 : Bytes → Block 64) (s : VerifyLog) : VerifyAct → VerifyLog
  | .change kind ownKey group =>
    { s with held := { s.held with kind := kind, ownKey := ownKey, group := group } }
  | .confirm typed trouble write =>
    match number sha512 s.held trouble with
    | .error _ => s
    | .ok current =>
      let out := Client.confirm s.held current typed write
      { held := out.2
        written := if out.1 = .error .numberMismatch ∨ write = .failed then s.written
          else s.held.roster
        succeeded := if out.1 = .ok () then s.held.roster else s.succeeded }

/-- The rosters of the history are among those with inputs in `S`. -/
def Held.Within (S : Set Bytes) (p : Held) : Prop := ∀ r, p.roster = some r → r.input ∈ S

def VerifyAct.Within (S : Set Bytes) : VerifyAct → Prop
  | .change kind ownKey group => (Held.mk kind ownKey group none).Within S
  | .confirm _ _ _ => True

/-! ### The number identifies the roster -/

section

variable {sha512 : Bytes → Block 64} {S : Set Bytes} {keys keys' : List Bytes}
  {ownKey ownKey' n n' : Bytes} {kind kind' : Kind}

/-- What a number is made of. -/
theorem numberFromKeys_eq_ok (h : numberFromKeys sha512 keys ownKey kind = .ok n) :
    n = digitsFromHash (sha512 (Roster.input (kind, keys))) ∧ (∀ k ∈ keys, k.length = 32) ∧
      keys.Nodup ∧ keys.length ≤ groupMaxMembers := by
  unfold numberFromKeys at h
  split at h
  · cases h
  split at h
  · cases h
  next hkeys =>
  obtain ⟨hshort, -⟩ := not_or.1 hkeys
  have hlen : ∀ k ∈ keys, k.length = 32 := by simpa using hshort
  split at h
  · next a b _ =>
    split at h
    · cases h
    next hne =>
    rw [pairwise_eq sha512 (hlen a (by simp)) (hlen b (by simp))] at h
    exact ⟨(Except.ok.inj h).symm, hlen, by simpa using hne, by simp [groupMaxMembers]⟩
  · cases h
  · cases hgroup : group sha512 keys with
    | error e => rw [hgroup] at h; cases h
    | ok n' =>
      rw [hgroup] at h
      obtain ⟨hn, hnodup, hcap⟩ := group_eq_ok hgroup
      exact ⟨(Except.ok.inj h).symm.trans hn, hlen, hnodup, hcap⟩

/-- What is hashed determines the kind and the set of keys. -/
theorem input_eq_iff (h : ∀ k ∈ keys, k.length = 32) (h' : ∀ k ∈ keys', k.length = 32)
    (hnodup : keys.Nodup) (hnodup' : keys'.Nodup) :
    Roster.input (kind, keys) = Roster.input (kind', keys') ↔
      kind = kind' ∧ ∀ k, k ∈ keys ↔ k ∈ keys' := by
  cases kind <;> cases kind'
  · exact (pairInput_eq_iff h h' hnodup hnodup').trans (by simp)
  · exact iff_of_false (pairInput_ne_groupInput keys keys') (by simp)
  · exact iff_of_false (pairInput_ne_groupInput keys' keys).symm (by simp)
  · exact (groupInput_eq_iff h h' hnodup hnodup').trans (by simp)

theorem numberFromKeys_eq_iff (hS : S.InjOn fun m => digitsFromHash (sha512 m))
    (h : numberFromKeys sha512 keys ownKey kind = .ok n)
    (h' : numberFromKeys sha512 keys' ownKey' kind' = .ok n')
    (hin : Roster.input (kind, keys) ∈ S) (hin' : Roster.input (kind', keys') ∈ S) :
    n = n' ↔ Roster.Same (kind, keys) (kind', keys') := by
  obtain ⟨rfl, hlen, hnodup, -⟩ := numberFromKeys_eq_ok h
  obtain ⟨rfl, hlen', hnodup', -⟩ := numberFromKeys_eq_ok h'
  exact (hS.eq_iff hin hin').trans (input_eq_iff hlen hlen' hnodup hnodup')

/-! ### The confirmation is read back -/

theorem mem_of_mem_intercalate {sep : Bytes} {parts : List Bytes} {b : UInt8}
    (h : b ∈ sep.intercalate parts) : b ∈ sep ∨ ∃ part ∈ parts, b ∈ part := by
  induction parts with
  | nil => simp at h
  | cons p parts ih =>
    cases parts with
    | nil => exact .inr ⟨p, by simp, by simpa using h⟩
    | cons q parts =>
      rw [intercalate_cons_cons, append_assoc, mem_append, mem_append] at h
      rcases h with h | h | h
      · exact .inr ⟨p, mem_cons_self, h⟩
      · exact .inl h
      · exact (ih h).imp_right fun ⟨part, hpart, hb⟩ => ⟨part, mem_cons_of_mem _ hpart, hb⟩

theorem mem_digitsFromHash {hash : Block 64} {b : UInt8} (h : b ∈ digitsFromHash hash) :
    b = 32 ∨ isDigit b = true := by
  rcases mem_of_mem_intercalate h with hspace | ⟨part, hpart, hb⟩
  · have table : ∀ b ∈ ascii " ", b = 32 := by decide +kernel
    exact .inl (table b hspace)
  · obtain ⟨i, -, rfl⟩ := mem_map.1 hpart
    rw [List.leftpad, mem_append] at hb
    rcases hb with hpad | hdigit
    · rw [eq_of_mem_replicate hpad]
      exact .inr (by decide)
    · exact .inr (isDigit_of_mem_decimal _ b hdigit)

theorem readRecord_encode (hash : Block 64) :
    (parse (encodeRecord (digitsFromHash hash))).bind readRecord =
      some ⟨1, digitsFromHash hash⟩ := by
  have table : ∀ n < 256, (UInt8.ofNat n = 32 ∨ isDigit (UInt8.ofNat n) = true) →
      n < 128 ∧ UInt8.ofNat n ≠ 34 ∧ UInt8.ofNat n ≠ 92 ∧ 32 ≤ UInt8.ofNat n := by decide +kernel
  have hplain : ∀ b ∈ digitsFromHash hash, b.toNat < 128 ∧ b ≠ 34 ∧ b ≠ 92 ∧ 32 ≤ b := by
    intro b hb
    simpa using table b.toNat b.toNat_lt (by simpa using mem_digitsFromHash hb)
  have hread := parse_of_reads (reads_object (.cons
    (readsMember_field (show Plain (ascii "version") by decide +kernel)
      (reads_decimal 1)) (.cons
    (readsMember_field (show Plain (ascii "number") by decide +kernel)
      (reads_quoted fun b hb => (hplain b hb).2)) .nil)))
  have hnumber := bytes_raw fun b hb => (hplain b hb).1
  have hversion := bytes_raw (show ∀ b ∈ ascii "version", b.toNat < 128 by decide +kernel)
  have hkey := bytes_raw (show ∀ b ∈ ascii "number", b.toNat < 128 by decide +kernel)
  have hkeys : ascii "number" ≠ ascii "version" := by decide +kernel
  rw [encodeRecord, hread, Option.bind_some, readRecord]
  simp only [foldlM_cons, foldlM_nil, readMember, hversion, hkey, if_pos, if_neg hkeys,
    readVersion, readNumber, hnumber, toU64_decimal (show 1 < 2 ^ 64 by decide)]
  rfl

/-! ### Runs -/

/-- The roster of a conversation whose number can be computed. -/
theorem number_eq_ok {p : Held} {trouble : Trouble} (h : number sha512 p trouble = .ok n) :
    ∃ r : Roster, p.roster = some r ∧ numberFromKeys sha512 r.2 p.ownKey r.1 = .ok n := by
  rw [number] at h
  split at h
  · cases h
  split at h
  · cases h
  next kind hkind =>
  split at h
  · cases h
  split at h
  · cases h
  split at h
  · cases h
  next G hG =>
  split at h
  · cases h
  rw [numberOf] at h
  split at h
  · cases h
  -- One member more than the cap is looked at, and the number is refused then.
  have hcap : (G.members.take (groupMaxMembers + 1)).length ≤ groupMaxMembers := by
    simpa using (numberFromKeys_eq_ok h).2.2.2
  rw [length_take] at hcap
  rw [take_of_length_le (by omega)] at h
  exact ⟨(kind, G.members.map (·.signatureKey)), by rw [Held.roster, hkind, hG], h⟩

/-- The confirmation is the number of the roster at the last one that was written. -/
structure VerifyLog.Inv (sha512 : Bytes → Block 64) (S : Set Bytes) (s : VerifyLog) : Prop where
  within : s.held.Within S
  record : (s.held.record = none ∧ s.written = none) ∨
    ∃ r ownKey n, s.written = some r ∧ numberFromKeys sha512 r.2 ownKey r.1 = .ok n ∧
      r.input ∈ S ∧ s.held.record = some (encodeRecord n)

theorem VerifyLog.Inv.step {s : VerifyLog} (h : s.Inv sha512 S) {act : VerifyAct}
    (hact : act.Within S) : (s.step sha512 act).Inv sha512 S := by
  cases act with
  | change kind ownKey group => exact ⟨hact, h.record⟩
  | confirm typed trouble write =>
    rw [VerifyLog.step]
    split
    · exact h
    next current hcurrent =>
    obtain ⟨r, hr, hnumber⟩ := number_eq_ok hcurrent
    unfold Client.confirm
    split
    · exact ⟨h.within, by simpa using h.record⟩
    · cases write with
      | failed => exact ⟨h.within, by simpa [Fault.apply] using h.record⟩
      | none => exact ⟨h.within, .inr ⟨r, _, current, by simpa, hnumber, h.within r hr, rfl⟩⟩
      | doneButFailed =>
        exact ⟨h.within, .inr ⟨r, _, current, by simpa, hnumber, h.within r hr, rfl⟩⟩

theorem VerifyLog.Inv.run {s : VerifyLog} (h : s.Inv sha512 S) {acts : List VerifyAct}
    (hacts : ∀ a ∈ acts, a.Within S) : (acts.foldl (VerifyLog.step sha512) s).Inv sha512 S := by
  induction acts generalizing s with
  | nil => exact h
  | cons a acts ih =>
    exact ih (h.step (hacts a mem_cons_self)) fun b hb => hacts b (mem_cons_of_mem _ hb)

/-- When the warning is silent, whatever the record holds. -/
theorem changedSinceVerified_eq_false_iff (sha512 : Bytes → Block 64) (p : Held)
    (trouble : Trouble) :
    changedSinceVerified sha512 p trouble = false ↔
      p.get trouble.firstGet = .ok none ∨
      trouble.firstGet = none ∧ trouble.secondGet = none ∧
        ∃ raw n, p.record = some raw ∧ number sha512 p trouble = .ok n ∧
          (parse raw).bind readRecord = some ⟨1, n⟩ := by
  rw [changedSinceVerified]
  cases hget : trouble.firstGet with
  | some e => simp [Held.get]
  | none =>
    cases hrecord : p.record with
    | none => simp [Held.get, hrecord]
    | some raw =>
      cases hnumber : number sha512 p trouble with
      | error e => simp [Held.get, hrecord]
      | ok n =>
        cases hget' : trouble.secondGet with
        | some e => cases e <;> simp [Held.get, hrecord, state]
        | none =>
          by_cases hread : (parse raw).bind readRecord = some ⟨1, n⟩
          · simp [Held.get, hrecord, state, hread]
          · simp [Held.get, hrecord, state, hread]

/-- The stored number is the present one exactly if the roster is the confirmed one. -/
theorem VerifyLog.Inv.changedSinceVerified_eq_false {s : VerifyLog} (h : s.Inv sha512 S)
    (hS : S.InjOn fun m => digitsFromHash (sha512 m)) (trouble : Trouble) :
    changedSinceVerified sha512 s.held trouble = false ↔
      s.held.get trouble.firstGet = .ok none ∨
      trouble.firstGet = none ∧ trouble.secondGet = none ∧
        (∃ n, number sha512 s.held trouble = .ok n) ∧
        ∃ r ∈ s.held.roster, ∃ r' ∈ s.written, Roster.Same r r' := by
  rw [changedSinceVerified_eq_false_iff]
  refine or_congr_right (and_congr_right fun _ => and_congr_right fun _ => ?_)
  rcases h.record with ⟨hrecord, hwritten⟩ | ⟨r', ownKey', n', hwritten, hn', hin', hrecord⟩
  · simp [hrecord, hwritten]
  have hread : (parse (encodeRecord n')).bind readRecord = some ⟨1, n'⟩ := by
    rw [(numberFromKeys_eq_ok hn').1, readRecord_encode]
  cases hnumber : number sha512 s.held trouble with
  | error e => simp
  | ok n =>
    obtain ⟨r, hr, hn⟩ := number_eq_ok hnumber
    have hsame := numberFromKeys_eq_iff hS hn hn' (h.within r hr) hin'
    simp [hrecord, hwritten, hr, hread, ← hsame, eq_comm]

end

/-- Where no two inputs that occur have the same digits: numbers are equal exactly for the same
kind and the same set of keys. Along every history of roster changes and confirmations, with any
reads and writes failing, the warning is silent exactly when the store reports no confirmation, or
when the number can be computed and the roster is the one of the last confirmation that was written.
A record that is not such a confirmation is never taken for one. -/
theorem safety_number_identifies_roster (sha512 : Bytes → Block 64) (S : Set Bytes)
    (hS : S.InjOn fun m => digitsFromHash (sha512 m)) :
    (∀ (r r' : Roster) (ownKey ownKey' n n' : Bytes),
      numberFromKeys sha512 r.2 ownKey r.1 = .ok n →
      numberFromKeys sha512 r'.2 ownKey' r'.1 = .ok n' → r.input ∈ S → r'.input ∈ S →
      (n = n' ↔ Roster.Same r r')) ∧
    (∀ (start : VerifyLog) (acts : List VerifyAct), start.held.record = none →
      start.written = none → start.held.Within S → (∀ a ∈ acts, a.Within S) →
      ∀ trouble : Trouble, let s := acts.foldl (VerifyLog.step sha512) start
        (changedSinceVerified sha512 s.held trouble = false ↔
          s.held.get trouble.firstGet = .ok none ∨
          trouble.firstGet = none ∧ trouble.secondGet = none ∧
            (∃ n, number sha512 s.held trouble = .ok n) ∧
            ∃ r ∈ s.held.roster, ∃ r' ∈ s.written, Roster.Same r r')) ∧
    ∀ (p : Held) (trouble : Trouble), changedSinceVerified sha512 p trouble = false ↔
      p.get trouble.firstGet = .ok none ∨
      trouble.firstGet = none ∧ trouble.secondGet = none ∧
        ∃ raw n, p.record = some raw ∧ number sha512 p trouble = .ok n ∧
          (Json.parse raw).bind readRecord = some ⟨1, n⟩ := by
  refine ⟨?_, ?_, changedSinceVerified_eq_false_iff sha512⟩
  · intro r r' ownKey ownKey' n n' h h'
    exact numberFromKeys_eq_iff hS h h'
  · intro start acts hrecord hwritten hwithin hacts trouble
    have hstart : start.Inv sha512 S := ⟨hwithin, .inl ⟨hrecord, hwritten⟩⟩
    exact (hstart.run hacts).changedSinceVerified_eq_false hS trouble

/-! ### A write that fails and takes effect -/

/-- A stand-in for SHA-512 under which the last key of a pair shows. -/
def lastBytes (m : Bytes) : Block 64 := ⟨(m.reverse ++ List.replicate 64 0).take 64, by simp⟩

/-- A pair with a peer of the given key. -/
def pairWith (peer : Bytes) : Mls.Group :=
  { samplePair with
    tree := [some ⟨Toy.ownKey, ⟨1, [1]⟩, [1], []⟩, some ⟨peer, ⟨1, [2]⟩, [2], []⟩] }

def otherPeer : Bytes := List.replicate 32 3

def confirmNumber (peer : Bytes) (write : Fault) : VerifyAct :=
  .confirm ((digitsFromHash (lastBytes (pairInput [Toy.ownKey, peer]))).map
    fun b => Char.ofNat b.toNat) {} write

/-- Nothing is confirmed yet. -/
def newPair : VerifyLog := ⟨⟨some .pair, Toy.ownKey, some (pairWith Toy.peerKey), none⟩, none, none⟩

/-- The number is confirmed, the peer is replaced, and the write of the second confirmation fails
after it took effect. -/
def replacedPeer : List VerifyAct :=
  [confirmNumber Toy.peerKey .none, .change (some .pair) Toy.ownKey (some (pairWith otherPeer)),
    confirmNumber otherPeer .doneButFailed]

def twoInputs : Set Bytes :=
  {pairInput [Toy.ownKey, Toy.peerKey], pairInput [Toy.ownKey, otherPeer]}

theorem injOn_twoInputs : twoInputs.InjOn fun m => digitsFromHash (lastBytes m) := by
  have hne : digitsFromHash (lastBytes (pairInput [Toy.ownKey, Toy.peerKey])) ≠
      digitsFromHash (lastBytes (pairInput [Toy.ownKey, otherPeer])) := by decide +kernel
  rintro m (rfl | rfl) m' (rfl | rfl) h
  · rfl
  · exact absurd h hne
  · exact absurd h.symm hne
  · rfl

theorem newPair_within : newPair.held.Within twoInputs := by
  rintro r ⟨⟩
  exact .inl rfl

theorem replacedPeer_within : ∀ a ∈ replacedPeer, a.Within twoInputs := by
  intro a ha
  simp only [replacedPeer, mem_cons, not_mem_nil, or_false] at ha
  rcases ha with rfl | rfl | rfl
  · trivial
  · rintro r ⟨⟩
    exact .inr rfl
  · trivial

theorem not_same_peers :
    ¬Roster.Same (.pair, [Toy.ownKey, otherPeer]) (.pair, [Toy.ownKey, Toy.peerKey]) := by
  intro hsame
  have hmem := (hsame.2 otherPeer).1 (by simp)
  exact absurd hmem (by decide)

/-- The warning is silent, and the last confirmation that succeeded was for another peer. -/
theorem silent_after_failed_confirmation :
    (twoInputs.InjOn fun m => digitsFromHash (lastBytes m)) ∧ newPair.held.Within twoInputs ∧
    (∀ a ∈ replacedPeer, a.Within twoInputs) ∧
    ∃ s, s = replacedPeer.foldl (VerifyLog.step lastBytes) newPair ∧
      changedSinceVerified lastBytes s.held {} = false ∧
      s.held.roster = some (.pair, [Toy.ownKey, otherPeer]) ∧
      s.succeeded = some (.pair, [Toy.ownKey, Toy.peerKey]) ∧
      ¬Roster.Same (.pair, [Toy.ownKey, otherPeer]) (.pair, [Toy.ownKey, Toy.peerKey]) := by
  refine ⟨injOn_twoInputs, newPair_within, replacedPeer_within, _, rfl, ?_, ?_, ?_, not_same_peers⟩
  · decide +kernel
  · decide +kernel
  · decide +kernel

/-- After the change of the peer, and before it is confirmed, the warning is shown. -/
theorem safety_number_identifies_roster_sample :
    changedSinceVerified lastBytes
      ((replacedPeer.take 2).foldl (VerifyLog.step lastBytes) newPair).held {} = true := by
  have hacts : ∀ a ∈ replacedPeer.take 2, a.Within twoInputs := fun a ha =>
    replacedPeer_within a (mem_of_mem_take ha)
  have hsilent := (safety_number_identifies_roster lastBytes twoInputs injOn_twoInputs).2.1 newPair
    (replacedPeer.take 2) rfl rfl newPair_within hacts {}
  rw [← Bool.not_eq_false]
  intro hfalse
  rcases hsilent.1 hfalse with hnone | ⟨-, -, -, r, hr, r', hr', hsame⟩
  · exact absurd hnone (by decide +kernel)
  · have hroster : r = (.pair, [Toy.ownKey, otherPeer]) :=
      Option.some.inj (hr.symm.trans (by decide +kernel))
    have hwritten : r' = (.pair, [Toy.ownKey, Toy.peerKey]) :=
      Option.some.inj (hr'.symm.trans (by decide +kernel))
    rw [hroster, hwritten] at hsame
    exact not_same_peers hsame

end Powehi.Client
