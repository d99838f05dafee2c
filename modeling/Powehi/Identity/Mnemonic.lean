import Powehi.Codec.Bits
import Powehi.Codec.Chars
import Powehi.Semantics.Fallible

/-!
# The recovery phrase

`bip39.rs`: entropy of 16, 20, 24, 28 or 32 bytes is shown as a phrase of words. The bits of the
entropy, followed by the first bits of its hash as a checksum, are cut into groups of eleven, and
each group is the number of a word.

With `k` from 4 to 8, there are `4 * k` bytes, `32 * k` bits of entropy, `k` bits of checksum and
`3 * k` words.

The word list and the hash are parameters.
-/

namespace Powehi.Identity

open Codec Semantics List

variable {s : ℕ} {n : ℕ} {i : ℕ} {ws : List (List Char)} {m : Mnemonic}

/-- The 2048 words. -/
structure WordList where
  words : List (List Char)
  length_eq : words.length = 2048
  nodup : words.Nodup
  isWord : ∀ w ∈ words, IsWord w

def wordCount : ℕ := 2048

def bitsPerWord : ℕ := 11

def maxEntropyBytes : ℕ := 32

inductive Bip39Error
  | entropyLength
  | wordCount
  | unknownWord
  | checksum
  /-- An assertion does not hold. -/
  | assertFailed
deriving DecidableEq

structure Mnemonic where
  entropy : Bytes
deriving DecidableEq

def entropyLenOk (len : ℕ) : Bool := len = 16 || len = 20 || len = 24 || len = 28 || len = 32

section

variable (W : WordList) (sha256 : Bytes → Block 32)

/-- `none` where the assertion on the index fails. -/
def wordAt (index : ℕ) : Option (List Char) :=
  if index < wordCount then some (W.words.getD index []) else none

def wordIndex (word : List Char) : Option ℕ := W.words.findIdx? (· == word)

def checksumBits (entropy : Bytes) : UInt8 := (sha256 entropy).1.getD 0 0

namespace Mnemonic

def fromEntropy (entropy : Bytes) : Except Bip39Error Mnemonic :=
  if entropyLenOk entropy.length then .ok ⟨entropy⟩ else .error .entropyLength

/-- The bits of a word, the highest first. -/
def wordBits (index : ℕ) : List Bool :=
  (List.range bitsPerWord).reverse.map fun shift => index >>> shift &&& 1 == 1

/-- One turn of the loop over the words. -/
def parseTurn (st : List Bool × ℕ) (word : List Char) : Except Bip39Error (List Bool × ℕ) :=
  let words := st.2 + 1
  if 24 < words then .error .wordCount
  else
    match wordIndex W word with
    | none => .error .unknownWord
    | some index => .ok (st.1 ++ wordBits index, words)

/-- Bits written into `n` bytes. -/
def pack (n : ℕ) (bits : List Bool) : Bytes :=
  bits.zipIdx.foldl
    (fun entropy b => entropy.modify (b.2 / 8) fun x =>
      x ||| b.1.toUInt8 <<< UInt8.ofNat (7 - b.2 % 8))
    (List.replicate n 0)

/-- Bits collected in a byte. -/
def collect (bits : List Bool) : UInt8 :=
  bits.foldl (fun (acc : UInt8) b => acc <<< 1 ||| b.toUInt8) 0

/-- What follows the loop, with the bits and the number of words that it leaves. -/
def checkBits (bits : List Bool) (words : ℕ) : Except Bip39Error Mnemonic :=
  if words < 12 ∨ words % 3 ≠ 0 then .error .wordCount
  else
    let entropyBits := words * bitsPerWord * 32 / 33
    let entropy := pack (entropyBits / 8) (bits.take entropyBits)
    let csLen := words * bitsPerWord - entropyBits
    let expected := checksumBits sha256 entropy
    let got := collect (bits.drop entropyBits)
    if got ≠ expected >>> UInt8.ofNat (8 - csLen) then .error .checksum
    else if maxEntropyBytes < entropy.length then .error .assertFailed
    else .ok ⟨entropy⟩

/-- The phrase as its words. -/
def parseWords (phrase : List (List Char)) : Except Bip39Error Mnemonic :=
  phrase.foldlM (parseTurn W) ([], 0) >>= fun st => checkBits sha256 st.1 st.2

def parseNormalized (phrase : List Char) : Except Bip39Error Mnemonic :=
  parseWords W sha256 (splitWhitespace phrase)

/-- The words; `none` where an assertion fails. -/
def words (m : Mnemonic) : Option (List (List Char)) :=
  let entropyBits := m.entropy.length * 8
  let csLen := entropyBits / 32
  let total := (entropyBits + csLen) / bitsPerWord
  let cs := checksumBits sha256 m.entropy
  let bit := fun i =>
    if i < entropyBits then
      (m.entropy.getD (i / 8) 0 >>> UInt8.ofNat (7 - i % 8) &&& 1).toNat
    else (cs >>> UInt8.ofNat (7 - (i - entropyBits)) &&& 1).toNat
  (List.range total).mapM fun w =>
    wordAt W ((List.range bitsPerWord).foldl
      (fun acc b => acc <<< 1 ||| bit (w * bitsPerWord + b)) 0)

/-- Words with one space between any two. -/
def join (ws : List (List Char)) : List Char :=
  ws.zipIdx.flatMap fun w => (if 0 < w.2 then [' '] else []) ++ w.1

def display (m : Mnemonic) : Option (List Char) := (m.words W sha256).map join

end Mnemonic

end

open Mnemonic

/-! ### Machine arithmetic -/

theorem toNat_ofNat_mod (h : s < 8) : (UInt8.ofNat s).toNat % 8 = s := by
  rw [UInt8.toNat_ofNat']
  omega

theorem toNat_shiftRight (x : UInt8) (h : s < 8) : (x >>> UInt8.ofNat s).toNat = x.toNat >>> s := by
  rw [UInt8.toNat_shiftRight, toNat_ofNat_mod h]

theorem toNat_shiftRight_and_one (x : UInt8) (h : s < 8) :
    (x >>> UInt8.ofNat s &&& 1).toNat = (x.toNat.testBit s).toNat := by
  rw [UInt8.toNat_and, toNat_shiftRight x h, Nat.toNat_testBit, Nat.shiftRight_eq_div_pow]
  exact Nat.and_one_is_mod _

theorem wordBits_eq (index : ℕ) : wordBits index = toBits bitsPerWord index := by
  have hbit : ∀ shift, (index >>> shift &&& 1 == 1) = index.testBit shift := by
    intro shift
    rw [Nat.testBit, Nat.and_comm 1, Nat.and_one_is_mod]
    obtain h | h := Nat.mod_two_eq_zero_or_one (index >>> shift) <;> rw [h] <;> rfl
  simp only [wordBits, hbit]
  apply ext_getElem
  · simp [toBits]
  · intro i _ _
    simp [toBits]

/-- Bits that are shifted out of the byte are lost. -/
theorem toNat_collect (l : List Bool) : (collect l).toNat = ofBits l % 256 := by
  induction l using reverseRecOn with
  | nil => rfl
  | append_singleton l b ih =>
    have hbit : b.toUInt8.toNat = b.toNat := by cases b <;> rfl
    have hstep : collect (l ++ [b]) = collect l <<< 1 ||| b.toUInt8 := by
      rw [collect, foldl_append]
      rfl
    have hlow := b.toNat_lt
    have hshift : (ofBits l % 256) <<< 1 % 256 = (ofBits l % 128) <<< 1 := by
      omega
    rw [hstep, UInt8.toNat_or, UInt8.toNat_shiftLeft, hbit, ih, ofBits_concat]
    calc (ofBits l % 256) <<< 1 % 256 ||| b.toNat
        = 2 * (ofBits l % 128) + b.toNat := by rw [hshift, shift_or_toNat]
      _ = (2 * ofBits l + b.toNat) % 256 := by omega

/-- Setting a bit of a byte. -/
theorem testBit_or_shiftLeft (x : UInt8) (b : Bool) {s t : ℕ} (hs : s < 8) :
    (x ||| b.toUInt8 <<< UInt8.ofNat s).toNat.testBit t =
      (x.toNat.testBit t || (b && decide (t = s))) := by
  rw [UInt8.toNat_or, UInt8.toNat_shiftLeft, toNat_ofNat_mod hs, Nat.testBit_or]
  congr 1
  cases b with
  | false =>
    have hzero : false.toUInt8.toNat <<< s = 0 := Nat.zero_shiftLeft s
    rw [hzero, Nat.zero_testBit, Bool.false_and]
  | true =>
    have hpow : 2 ^ s < 2 ^ 8 := Nat.pow_lt_pow_right (by decide) hs
    have hone : true.toUInt8.toNat <<< s % 2 ^ 8 = 2 ^ s := by
      rw [Nat.mod_eq_of_lt]
      · exact Nat.one_shiftLeft s
      · exact (Nat.one_shiftLeft s).trans_lt hpow
    rw [hone, Nat.testBit_two_pow]
    exact decide_eq_decide.2 eq_comm

/-- Setting a bit of a byte string. -/
theorem byteBit_modify {e : Bytes} {k : ℕ} (hk : k < e.length * 8) (b : Bool) (i : ℕ) :
    byteBit (e.modify (k / 8) fun x => x ||| b.toUInt8 <<< UInt8.ofNat (7 - k % 8)) i =
      (byteBit e i || (b && decide (i = k))) := by
  have hrange : k / 8 < e.length := by omega
  rw [byteBit, byteBit, getD_eq_getElem?_getD, getElem?_modify]
  by_cases hbyte : k / 8 = i / 8
  · have hget : e[i / 8]? = some (e.getD (i / 8) 0) := by
      rw [hbyte] at hrange
      rw [getD_eq_getElem _ _ hrange, getElem?_eq_getElem hrange]
    have hsame : (7 - i % 8 = 7 - k % 8) ↔ i = k := by omega
    simp only [if_pos hbyte, hget, Option.map_eq_map, Option.map_some, Option.getD_some]
    rw [testBit_or_shiftLeft _ b (by omega), decide_eq_decide.2 hsame]
  · have hother : i ≠ k := by
      rintro rfl
      exact hbyte rfl
    simp [hbyte, hother]

theorem pack_concat (n : ℕ) (l : List Bool) (b : Bool) :
    pack n (l ++ [b]) = (pack n l).modify (l.length / 8) fun x =>
      x ||| b.toUInt8 <<< UInt8.ofNat (7 - l.length % 8) := by
  rw [pack, zipIdx_append, foldl_append, pack, Nat.zero_add]
  rfl

@[simp] theorem length_pack (n : ℕ) (l : List Bool) : (pack n l).length = n := by
  induction l using reverseRecOn with
  | nil => simp [pack]
  | append_singleton l b ih => rw [pack_concat, length_modify, ih]

/-- The bits of the bytes written are the bits given. -/
theorem byteBit_pack {l : List Bool} (h : l.length ≤ n * 8) (i : ℕ) :
    byteBit (pack n l) i = l.getD i false := by
  induction l using reverseRecOn with
  | nil =>
    have hzero : (replicate n (0 : UInt8)).getD (i / 8) 0 = 0 := by
      rw [getD_eq_getElem?_getD, getElem?_replicate]
      split <;> rfl
    rw [pack, byteBit, zipIdx_nil, foldl_nil, hzero]
    exact Nat.zero_testBit _
  | append_singleton l b ih =>
    rw [length_append, length_singleton] at h
    rw [pack_concat, byteBit_modify (by rw [length_pack]; omega), ih (by omega)]
    rcases Nat.lt_trichotomy i l.length with hlt | rfl | hgt
    · simp [getElem?_append_left hlt, hlt.ne]
    · simp
    · have hpast : (l ++ [b]).length ≤ i := by
        rw [length_append, length_singleton]
        omega
      rw [getD_eq_default _ _ hpast, getD_eq_default _ _ hgt.le]
      simp [hgt.ne']

/-! ### The bits of a phrase -/

section

variable {W : WordList} {sha256 : Bytes → Block 32} {e : Bytes} {k : ℕ}

/-- The bits of the entropy, then the first bits of its hash. -/
def phraseBits (sha256 : Bytes → Block 32) (e : Bytes) : List Bool :=
  byteBits e ++
    toBits (e.length / 4) ((checksumBits sha256 e).toNat >>> (8 - e.length / 4))

theorem length_phraseBits (hlen : e.length = 4 * k) :
    (phraseBits sha256 e).length = 3 * k * bitsPerWord := by
  rw [phraseBits, length_append, length_byteBits, length_toBits, bitsPerWord]
  omega

/-- The bits as `words` takes them from the entropy and the hash. -/
theorem toNat_getD_phraseBits (sha256 : Bytes → Block 32) (hlen : e.length = 4 * k) (hk : k ≤ 8)
    (hi : i < 33 * k) :
    ((phraseBits sha256 e).getD i false).toNat =
      if i < e.length * 8 then (e.getD (i / 8) 0 >>> UInt8.ofNat (7 - i % 8) &&& 1).toNat
      else (checksumBits sha256 e >>> UInt8.ofNat (7 - (i - e.length * 8)) &&& 1).toNat := by
  have hdiv : e.length / 4 = k := by omega
  split_ifs with hentropy
  · rw [toNat_shiftRight_and_one _ (by omega), phraseBits, getD_append _ _ _ _ (by simpa)]
    simp [byteBits, byteBit, hentropy]
  · have hpast : (byteBits e).length ≤ i := by
      rw [length_byteBits]
      omega
    rw [toNat_shiftRight_and_one _ (by omega), phraseBits, getD_append_right _ _ _ _ hpast,
      hdiv, length_byteBits]
    have hin : i - e.length * 8 <
        (toBits k ((checksumBits sha256 e).toNat >>> (8 - k))).length := by
      rw [length_toBits]
      omega
    rw [getD_eq_getElem _ _ hin, getElem_toBits, Nat.testBit_shiftRight]
    congr 2
    omega

/-! ### Printing -/

theorem mapM_eq_some_map {α β : Type} {f : α → Option β} {g : α → β} {l : List α}
    (h : ∀ a ∈ l, f a = some (g a)) : l.mapM f = some (l.map g) := by
  induction l with
  | nil => rfl
  | cons a l ih =>
    rw [mapM_cons, h a mem_cons_self, ih fun b hb => h b (mem_cons_of_mem a hb)]
    rfl

/-- The numbers of the words that are printed. -/
def indices (sha256 : Bytes → Block 32) (e : Bytes) (k : ℕ) : List ℕ :=
  (List.range (3 * k)).map fun w => ofBits (slice bitsPerWord (phraseBits sha256 e) w)

theorem slice_le (sha256 : Bytes → Block 32) (hlen : e.length = 4 * k) {w : ℕ} (hw : w < 3 * k) :
    (w + 1) * bitsPerWord ≤ (phraseBits sha256 e).length := by
  rw [length_phraseBits hlen]
  exact Nat.mul_le_mul_right bitsPerWord hw

theorem indices_lt (hlen : e.length = 4 * k) (hn : n ∈ indices sha256 e k) :
    n < 2 ^ bitsPerWord := by
  obtain ⟨w, hw, rfl⟩ := mem_map.1 hn
  have hlt := ofBits_lt (slice bitsPerWord (phraseBits sha256 e) w)
  rw [length_slice (slice_le sha256 hlen (mem_range.1 hw))] at hlt
  exact hlt

/-- The number of a word as `words` collects it. -/
theorem foldl_eq_ofBits_slice (hlen : e.length = 4 * k) {bit : ℕ → ℕ}
    (hbit : ∀ i < 33 * k, bit i = ((phraseBits sha256 e).getD i false).toNat) {w : ℕ}
    (hw : w < 3 * k) :
    (range bitsPerWord).foldl (fun acc b => acc <<< 1 ||| bit (w * bitsPerWord + b)) 0 =
      ofBits (slice bitsPerWord (phraseBits sha256 e) w) := by
  rw [slice_eq_map (slice_le sha256 hlen hw) false, ofBits, foldl_map]
  apply foldl_ext
  intro acc b hb
  have hrange := mem_range.1 hb
  rw [hbit]
  rw [bitsPerWord] at hrange ⊢
  omega

/-- The words that are printed are those with the numbers that the bits spell. -/
theorem words_eq (W : WordList) (sha256 : Bytes → Block 32) (hlen : e.length = 4 * k) (hk : k ≤ 8) :
    (mk e).words W sha256 =
      some ((indices sha256 e k).map fun i => W.words.getD i []) := by
  have htotal : (e.length * 8 + e.length * 8 / 32) / bitsPerWord = 3 * k := by
    rw [bitsPerWord]
    omega
  rw [words, indices, map_map]
  rw [htotal]
  apply mapM_eq_some_map
  intro w hw
  have hrange := mem_range.1 hw
  have hindex := foldl_eq_ofBits_slice hlen
    (fun i hi => (toNat_getD_phraseBits sha256 hlen hk hi).symm) hrange
  have hlt : ofBits (slice bitsPerWord (phraseBits sha256 e) w) < wordCount :=
    indices_lt hlen (mem_map_of_mem hw)
  rw [hindex, wordAt, if_pos hlt]
  rfl

/-! ### Parsing -/

/-- With distinct words, the number of a word is the place where it stands. -/
theorem wordIndex_eq_some {w : List Char} : wordIndex W w = some i ↔ W.words[i]? = some w := by
  rw [wordIndex, findIdx?_eq_some_iff_getElem]
  constructor
  · rintro ⟨hi, hw, -⟩
    rw [getElem?_eq_getElem hi, beq_iff_eq.1 hw]
  · intro h
    obtain ⟨hi, hw⟩ := List.getElem?_eq_some_iff.1 h
    refine ⟨hi, beq_iff_eq.2 hw, ?_⟩
    intro j hj
    have hne : W.words[j] ≠ w := by
      rw [← hw]
      exact fun heq => hj.ne ((W.nodup.getElem_inj_iff).1 heq)
    simpa using hne

/-- The loop succeeds on at most 24 words that are all in the list, and collects their bits. -/
theorem foldlM_parseTurn {st st' : List Bool × ℕ} (hst : st.2 ≤ 24) :
    ws.foldlM (parseTurn W) st = .ok st' ↔
      ∃ is, Forall₂ (fun w i => wordIndex W w = some i) ws is ∧ st.2 + ws.length ≤ 24 ∧
        st' = (st.1 ++ is.flatMap (toBits bitsPerWord), st.2 + ws.length) := by
  induction ws generalizing st with
  | nil =>
    simp only [foldlM_nil, forall₂_nil_left_iff, length_nil, Nat.add_zero]
    constructor
    · intro h
      cases h
      exact ⟨[], rfl, hst, by simp⟩
    · rintro ⟨is, rfl, -, rfl⟩
      simp [pure, Except.pure]
  | cons w ws ih =>
    rw [foldlM_cons, bind_eq_ok_iff]
    constructor
    · rintro ⟨mid, hturn, hrest⟩
      dsimp only [parseTurn] at hturn
      split_ifs at hturn with hmany
      split at hturn
      · cases hturn
      · next i hindex =>
        cases hturn
        obtain ⟨is, hall, hle, rfl⟩ := (ih (Nat.not_lt.1 hmany)).1 hrest
        refine ⟨i :: is, .cons hindex hall, ?_, ?_⟩
        · rw [length_cons]
          omega
        · simp [wordBits_eq, Nat.add_assoc, Nat.add_comm 1]
    · rintro ⟨_, hall, hle, rfl⟩
      cases hall with
      | @cons _ i _ is hindex hall =>
        rw [length_cons] at hle
        have hturn : parseTurn W st w = .ok (st.1 ++ wordBits i, st.2 + 1) := by
          unfold parseTurn
          rw [if_neg (by omega), hindex]
        refine ⟨_, hturn, (ih (by omega)).2 ⟨is, hall, by omega, ?_⟩⟩
        simp [wordBits_eq, Nat.add_assoc, Nat.add_comm 1]

theorem getD_byteBits (e : Bytes) (hi : i < e.length * 8) :
    (byteBits e).getD i false = byteBit e i := by
  simp [byteBits, hi]

/-- Bytes are written from their own bits. -/
theorem pack_byteBits (e : Bytes) : pack e.length (byteBits e) = e := by
  apply eq_of_byteBit_eq (length_pack _ _)
  intro i hi
  rw [length_pack] at hi
  rw [byteBit_pack (length_byteBits e).le, getD_byteBits e hi]

theorem byteBits_pack {l : List Bool} (h : l.length = n * 8) : byteBits (pack n l) = l := by
  apply ext_getElem
  · rw [length_byteBits, length_pack, h]
  · intro i _ hi
    simp [byteBits, byteBit_pack h.le, hi]

/-- The checksum, as `k` bits and as the number that is compared. -/
theorem shiftRight_lt (x : UInt8) (hk : k ≤ 8) : x.toNat >>> (8 - k) < 2 ^ k := by
  have hpow : 2 ^ (8 - k) * 2 ^ k = 256 := by
    rw [← Nat.pow_add, Nat.sub_add_cancel hk]
  rw [Nat.shiftRight_eq_div_pow]
  apply Nat.div_lt_of_lt_mul
  rw [hpow]
  exact x.toNat_lt

/-- The comparison of the checksums says that the bits are those of the entropy found. -/
theorem phraseBits_eq_iff (sha256 : Bytes → Block 32) (e : Bytes) {bits : List Bool}
    (hbits : bits.length = 33 * k) (hpos : 0 < k) (hk : k ≤ 8) :
    e.length = 4 * k ∧ phraseBits sha256 e = bits ↔
      e = pack (4 * k) (bits.take (32 * k)) ∧
        collect (bits.drop (32 * k)) = checksumBits sha256 e >>> UInt8.ofNat (8 - k) := by
  have hshift := toNat_shiftRight (checksumBits sha256 e) (s := 8 - k) (by omega)
  have hsmall := shiftRight_lt (checksumBits sha256 e) hk
  have hbyte : 2 ^ k ≤ 256 := Nat.pow_le_pow_right (by decide) hk
  constructor
  · rintro ⟨hlen, rfl⟩
    have hdiv : e.length / 4 = k := by omega
    have hfront : (byteBits e).length = 32 * k := by
      rw [length_byteBits]
      omega
    rw [phraseBits, take_left' hfront, drop_left' hfront, hdiv]
    constructor
    · rw [← hlen, pack_byteBits]
    · apply UInt8.toNat_inj.1
      rw [toNat_collect, ofBits_toBits hsmall, hshift]
      exact Nat.mod_eq_of_lt (hsmall.trans_le hbyte)
  · rintro ⟨hentropy, hsum⟩
    have hlen : e.length = 4 * k := by rw [hentropy, length_pack]
    have hdiv : e.length / 4 = k := by omega
    have hfront : (bits.take (32 * k)).length = 4 * k * 8 := by
      rw [length_take]
      omega
    have hback : (bits.drop (32 * k)).length = k := by
      rw [length_drop]
      omega
    have hcheck : toBits k ((checksumBits sha256 e).toNat >>> (8 - k)) = bits.drop (32 * k) := by
      have hlt := ofBits_lt (bits.drop (32 * k))
      rw [hback] at hlt
      rw [← hshift, ← hsum, toNat_collect, Nat.mod_eq_of_lt (hlt.trans_le hbyte)]
      calc toBits k (ofBits (bits.drop (32 * k)))
          = toBits (bits.drop (32 * k)).length (ofBits (bits.drop (32 * k))) := by rw [hback]
        _ = bits.drop (32 * k) := toBits_ofBits _
    refine ⟨hlen, ?_⟩
    rw [phraseBits, hdiv, hcheck]
    conv_lhs => rw [hentropy]
    rw [byteBits_pack hfront, take_append_drop]

theorem length_flatMap_toBits (is : List ℕ) :
    (is.flatMap (toBits bitsPerWord)).length = is.length * bitsPerWord := by
  induction is with
  | nil => rfl
  | cons i is ih =>
    rw [flatMap_cons, length_append, length_toBits, ih, length_cons]
    ring

theorem checkBits_eq_ok_iff {bits : List Bool} (hbits : bits.length = n * bitsPerWord) (hn : n ≤ 24)
    :
    checkBits sha256 bits n = .ok m ↔
      ∃ k, 4 ≤ k ∧ k ≤ 8 ∧ n = 3 * k ∧ m.entropy.length = 4 * k ∧
        phraseBits sha256 m.entropy = bits := by
  by_cases hcount : n < 12 ∨ n % 3 ≠ 0
  · rw [checkBits, if_pos hcount]
    constructor
    · intro h
      cases h
    · rintro ⟨k, hfour, height, rfl, -⟩
      omega
  · obtain ⟨k, rfl⟩ : ∃ k, n = 3 * k := ⟨n / 3, by omega⟩
    have hentropy : 3 * k * bitsPerWord * 32 / 33 = 32 * k := by
      rw [bitsPerWord]
      omega
    have hbytes : 32 * k / 8 = 4 * k := by omega
    have hsum : 3 * k * bitsPerWord - 32 * k = k := by
      rw [bitsPerWord]
      omega
    have hlen : bits.length = 33 * k := by
      omega
    have hspec := phraseBits_eq_iff sha256 m.entropy hlen (by omega) (by omega)
    rw [checkBits, if_neg hcount]
    dsimp only
    rw [hentropy, hbytes, hsum]
    constructor
    · intro h
      split_ifs at h with hsame hmax
      cases h
      rw [not_not] at hsame
      exact ⟨k, by omega, by omega, rfl, hspec.2 ⟨rfl, hsame⟩⟩
    · rintro ⟨j, -, -, hj, hm⟩
      obtain rfl : k = j := by omega
      obtain ⟨hpack, hsame⟩ := hspec.1 hm
      rw [← hpack]
      rw [if_neg (not_not.2 hsame), if_neg]
      rw [maxEntropyBytes]
      omega

/-- A phrase is accepted if it has `3 * k` words of the list and its bits are those of the
entropy. -/
theorem parseWords_eq_ok_iff :
    parseWords W sha256 ws = .ok m ↔
      ∃ k is, 4 ≤ k ∧ k ≤ 8 ∧ Forall₂ (fun w i => wordIndex W w = some i) ws is ∧
        is.length = 3 * k ∧ m.entropy.length = 4 * k ∧
        phraseBits sha256 m.entropy = is.flatMap (toBits bitsPerWord) := by
  rw [parseWords, bind_eq_ok_iff]
  constructor
  · rintro ⟨st, hloop, hcheck⟩
    obtain ⟨is, hall, hle, rfl⟩ := (foldlM_parseTurn (Nat.zero_le 24)).1 hloop
    rw [Nat.zero_add, hall.length_eq] at hcheck
    rw [Nat.zero_add, hall.length_eq] at hle
    obtain ⟨k, hfour, height, hcount, hm⟩ :=
      (checkBits_eq_ok_iff (length_flatMap_toBits is) hle).1 hcheck
    exact ⟨k, is, hfour, height, hall, hcount, hm⟩
  · rintro ⟨k, is, hfour, height, hall, hcount, hm⟩
    have hle : is.length ≤ 24 := by omega
    refine ⟨_, (foldlM_parseTurn (Nat.zero_le 24)).2 ⟨is, hall, ?_, rfl⟩, ?_⟩
    · rw [Nat.zero_add, hall.length_eq]
      exact hle
    · rw [Nat.zero_add, hall.length_eq]
      exact (checkBits_eq_ok_iff (length_flatMap_toBits is) hle).2 ⟨k, hfour, height, hcount, hm⟩

/-! ### The two directions -/

/-- The words printed are in the list, with the numbers that the bits spell. -/
theorem forall₂_wordIndex (is : List ℕ) (his : ∀ i ∈ is, i < 2 ^ bitsPerWord) :
    Forall₂ (fun w i => wordIndex W w = some i)
      (is.map fun i => W.words.getD i []) is := by
  rw [forall₂_map_left_iff, forall₂_same]
  intro i hi
  have hlt : i < W.words.length := by
    rw [W.length_eq]
    exact his i hi
  rw [wordIndex_eq_some, getD_eq_getElem _ _ hlt, getElem?_eq_getElem hlt]

/-- Words of the list are printed again from their numbers. -/
theorem map_getD_of_forall₂ {is : List ℕ}
    (h : Forall₂ (fun w i => wordIndex W w = some i) ws is) :
    (is.map fun i => W.words.getD i []) = ws := by
  induction h with
  | nil => rfl
  | cons hindex _ ih =>
    rw [map_cons, ih, getD_eq_getElem?_getD, wordIndex_eq_some.1 hindex]
    rfl

theorem wordIndex_lt {is : List ℕ} (h : Forall₂ (fun w i => wordIndex W w = some i) ws is) :
    ∀ i ∈ is, i < 2 ^ bitsPerWord := by
  induction h with
  | nil => simp
  | cons hindex _ ih =>
    obtain ⟨hi, -⟩ := List.getElem?_eq_some_iff.1 (wordIndex_eq_some.1 hindex)
    rw [W.length_eq] at hi
    exact forall_mem_cons.2 ⟨hi, ih⟩

/-- What is printed is accepted, as the entropy it was printed from. -/
theorem parseWords_words (W : WordList) (sha256 : Bytes → Block 32) (hlen : e.length = 4 * k)
    (hfour : 4 ≤ k) (height : k ≤ 8) :
    parseWords W sha256 ((indices sha256 e k).map fun i => W.words.getD i []) = .ok ⟨e⟩ := by
  apply parseWords_eq_ok_iff.2
  refine ⟨k, indices sha256 e k, hfour, height, ?_, ?_, hlen, ?_⟩
  · exact forall₂_wordIndex _ fun i hi => indices_lt hlen hi
  · rw [indices, length_map, length_range]
  · exact (flatMap_toBits (length_phraseBits hlen)).symm

/-- What is accepted is what is printed for the result. -/
theorem words_of_parseWords (h : parseWords W sha256 ws = .ok m) : m.words W sha256 = some ws := by
  obtain ⟨k, is, hfour, height, hall, hcount, hlen, hbits⟩ := parseWords_eq_ok_iff.1 h
  have hindices : indices sha256 m.entropy k = is := by
    apply ext_getElem
    · rw [indices, length_map, length_range, hcount]
    · intro i _ hi
      rw [← ofBits_slice_flatMap (wordIndex_lt hall) hi, ← hbits]
      simp [indices]
  exact (words_eq W sha256 hlen height).trans (congrArg some (hindices ▸ map_getD_of_forall₂ hall))

theorem entropyLenOk_iff : entropyLenOk n = true ↔ ∃ k, 4 ≤ k ∧ k ≤ 8 ∧ n = 4 * k := by
  simp only [entropyLenOk, Bool.or_eq_true, decide_eq_true_eq]
  constructor
  · intro h
    exact ⟨n / 4, by omega⟩
  · rintro ⟨k, hfour, height, rfl⟩
    omega

end

/-! ### The printed text -/

theorem flatMap_zipIdx_succ (ws : List (List Char)) (n : ℕ) :
    ((ws.zipIdx (n + 1)).flatMap fun w => (if 0 < w.2 then [' '] else []) ++ w.1) =
      ws.flatMap fun w => ' ' :: w := by
  induction ws generalizing n with
  | nil => rfl
  | cons w ws ih =>
    rw [zipIdx_cons, flatMap_cons, ih]
    rfl

/-- Words with a space before each. -/
def spaceBefore (ws : List (List Char)) : List Char := ws.flatMap fun w => ' ' :: w

theorem head?_spaceBefore (ws : List (List Char)) :
    ∀ c ∈ (spaceBefore ws).head?, isWhitespace c = true := by
  cases ws with
  | nil => simp [spaceBefore]
  | cons w ws =>
    intro c hc
    obtain rfl : ' ' = c := by simpa [spaceBefore] using hc
    rfl

theorem spaced_spaceBefore (hws : ∀ w ∈ ws, IsWord w) : Spaced ws (spaceBefore ws) := by
  induction ws with
  | nil => exact Spaced.blank (by simp [spaceBefore])
  | cons w ws ih =>
    have hspace : ∀ c ∈ [' '], isWhitespace c = true := forall_mem_singleton.mpr rfl
    exact Spaced.word hspace (hws w mem_cons_self) (head?_spaceBefore ws)
      (ih fun v hv => hws v (mem_cons_of_mem w hv))

theorem spaced_join (hws : ∀ w ∈ ws, IsWord w) : Spaced ws (join ws) := by
  cases ws with
  | nil => exact Spaced.blank (by simp [join])
  | cons w ws =>
    have hjoin : join (w :: ws) = [] ++ (w ++ spaceBefore ws) := by
      rw [join, zipIdx_cons, flatMap_cons, flatMap_zipIdx_succ]
      rfl
    rw [hjoin]
    exact Spaced.word (by simp) (hws w mem_cons_self) (head?_spaceBefore ws)
      (spaced_spaceBefore fun v hv => hws v (mem_cons_of_mem w hv))

/-- Entropy is printed as three words for every four bytes, and what is printed is parsed as the
entropy, whatever white space stands between and around the words. Conversely a phrase that is
accepted has the words that are printed for the result. -/
theorem mnemonic_codec (W : WordList) (sha256 : Bytes → Block 32) :
    (∀ e : Bytes, entropyLenOk e.length = true →
      ∃ ws text, fromEntropy e = .ok ⟨e⟩ ∧ (Mnemonic.mk e).words W sha256 = some ws ∧
        4 * ws.length = 3 * e.length ∧
        (Mnemonic.mk e).display W sha256 = some text ∧ Spaced ws text ∧
        ∀ phrase, Spaced ws phrase → parseNormalized W sha256 phrase = .ok ⟨e⟩) ∧
    (∀ phrase m, parseNormalized W sha256 phrase = .ok m →
      entropyLenOk m.entropy.length = true ∧
        ∃ ws, m.words W sha256 = some ws ∧ Spaced ws phrase) := by
  constructor
  · intro e he
    obtain ⟨k, hfour, height, hlen⟩ := entropyLenOk_iff.1 he
    have hwords := words_eq W sha256 hlen height
    have hparse := parseWords_words W sha256 hlen hfour height
    refine ⟨_, _, if_pos he, hwords, ?_, congrArg (Option.map join) hwords, ?_, ?_⟩
    · rw [length_map, indices, length_map, length_range]
      omega
    · apply spaced_join
      intro w hw
      obtain ⟨i, hi, rfl⟩ := mem_map.1 hw
      have hlt : i < W.words.length := by
        rw [W.length_eq]
        exact indices_lt hlen hi
      rw [getD_eq_getElem _ _ hlt]
      exact W.isWord _ (getElem_mem hlt)
    · intro phrase hphrase
      rw [parseNormalized, hphrase.splitWhitespace_eq]
      exact hparse
  · intro phrase m h
    refine ⟨?_, _, words_of_parseWords h, spaced_splitWhitespace phrase⟩
    obtain ⟨k, -, hfour, height, -, -, hlen, -⟩ := parseWords_eq_ok_iff.1 h
    exact entropyLenOk_iff.2 ⟨k, hfour, height, hlen⟩

/-! ### A word list -/

/-- The numbers below 2048 written with eleven binary digits. -/
def binaryWord (i : ℕ) : List Char := (toBits bitsPerWord i).map fun b => if b then '1' else '0'

def binaryWords : WordList where
  words := (List.range 2048).map binaryWord
  length_eq := by rw [length_map, length_range]
  nodup := by
    have hdigit : Function.Injective fun b : Bool => if b then '1' else '0' := by decide
    refine List.Nodup.map_on (fun i hi j hj hij => ?_) nodup_range
    have hbits := congrArg ofBits (map_injective_iff.2 hdigit hij)
    have hbound : ∀ n ∈ List.range 2048, n < 2 ^ bitsPerWord := fun n hn => mem_range.1 hn
    rwa [ofBits_toBits (hbound i hi), ofBits_toBits (hbound j hj)] at hbits
  isWord := by
    intro w hw
    obtain ⟨i, -, rfl⟩ := mem_map.1 hw
    constructor
    · intro hempty
      have hlen := congrArg List.length hempty
      simp [binaryWord, bitsPerWord] at hlen
    · intro c hc
      obtain ⟨b, -, rfl⟩ := mem_map.1 hc
      cases b <;> rfl

theorem mnemonic_codec_sample :
    ∃ ws text, (Mnemonic.mk (List.replicate 16 7)).words binaryWords (fun _ => default) = some ws ∧
      (Mnemonic.mk (List.replicate 16 7)).display binaryWords (fun _ => default) = some text ∧
      parseNormalized binaryWords (fun _ => default) text = .ok ⟨List.replicate 16 7⟩ ∧
      Spaced ws text := by
  obtain ⟨hprint, hparse⟩ := mnemonic_codec binaryWords fun _ => default
  obtain ⟨ws, text, -, hwords, -, hdisplay, hspaced, hback⟩ :=
    hprint (List.replicate 16 7) (by decide)
  obtain ⟨-, ws', hwords', hspaced'⟩ := hparse text _ (hback text hspaced)
  exact ⟨ws', text, hwords', hdisplay, hback text hspaced, hspaced'⟩

end Powehi.Identity
