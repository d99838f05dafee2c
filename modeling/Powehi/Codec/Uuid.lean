import Powehi.Codec.Bytes

/-!
# UUIDs as text

The hyphenated and the plain form in lower case, and a reader that accepts both in either case,
and the hyphenated form in braces or behind `urn:uuid:`.
-/

namespace Powehi.Codec

open List

namespace Uuid

/-- 32 digits. -/
def simple (id : Block 16) : Bytes := toHex id.1

/-- Digits in groups of 8, 4, 4, 4 and 12. -/
def hyphenated (id : Block 16) : Bytes :=
  let h := toHex id.1
  h.take 8 ++ 45 :: ((h.drop 8).take 4 ++ 45 :: ((h.drop 12).take 4 ++
    45 :: ((h.drop 16).take 4 ++ 45 :: h.drop 20)))

/-- 16 bytes from 32 digits. -/
def ofDigits (digits : Bytes) : Option (Block 16) :=
  match hexPairs digits with
  | none => none
  | some b => if h : b.length = 16 then some ⟨b, h⟩ else none

/-- Hyphens where they belong, and digits in between. -/
def parseHyphenated (s : Bytes) : Option (Block 16) :=
  if s.length = 36 ∧ s[8]? = some 45 ∧ s[13]? = some 45 ∧ s[18]? = some 45 ∧ s[23]? = some 45 then
    ofDigits (s.take 8 ++ ((s.drop 9).take 4 ++ ((s.drop 14).take 4 ++
      ((s.drop 19).take 4 ++ s.drop 24))))
  else none

def parseStr (s : Bytes) : Option (Block 16) :=
  if s.length = 32 then ofDigits s
  else if s.length = 36 then parseHyphenated s
  else if s.length = 38 ∧ s.head? = some 123 ∧ s.getLast? = some 125 then
    parseHyphenated (s.tail.take 36)
  else if s.length = 45 ∧ s.take 9 = ascii "urn:uuid:" then parseHyphenated (s.drop 9)
  else none

theorem length_toHex_eq (id : Block 16) : (toHex id.1).length = 32 := by rw [length_toHex, id.2]

theorem length_hyphenated (id : Block 16) : (hyphenated id).length = 36 := by
  have h := length_toHex_eq id
  simp [hyphenated, h]

/-- The hyphenated form consists of digits and hyphens. -/
theorem mem_hyphenated {id : Block 16} {b : UInt8} (h : b ∈ hyphenated id) :
    isLowerHex b = true ∨ b = 45 := by
  have hdigit : ∀ c ∈ toHex id.1, isLowerHex c = true := all_eq_true.1 (all_isLowerHex_toHex id.1)
  simp only [hyphenated, mem_append, mem_cons] at h
  rcases h with h | rfl | h | rfl | h | rfl | h | rfl | h
  · exact .inl (hdigit b (mem_of_mem_take h))
  · exact .inr rfl
  · exact .inl (hdigit b (mem_of_mem_drop (mem_of_mem_take h)))
  · exact .inr rfl
  · exact .inl (hdigit b (mem_of_mem_drop (mem_of_mem_take h)))
  · exact .inr rfl
  · exact .inl (hdigit b (mem_of_mem_drop (mem_of_mem_take h)))
  · exact .inr rfl
  · exact .inl (hdigit b (mem_of_mem_drop h))

theorem ofDigits_toHex (id : Block 16) : ofDigits (toHex id.1) = some id := by
  rw [ofDigits, hexPairs_toHex]
  exact dif_pos id.2

/-- The groups are found between the hyphens. -/
theorem parseHyphenated_groups {a b c d e : Bytes} (ha : a.length = 8) (hb : b.length = 4)
    (hc : c.length = 4) (hd : d.length = 4) (he : e.length = 12) :
    parseHyphenated (a ++ 45 :: (b ++ 45 :: (c ++ 45 :: (d ++ 45 :: e)))) =
      ofDigits (a ++ (b ++ (c ++ (d ++ e)))) := by
  unfold parseHyphenated
  rw [if_pos]
  · simp (disch := omega) [drop_append, drop_of_length_le, ha, hb, hc, hd]
  · simp [ha, hb, hc, hd, he]

/-- What is printed is read back. -/
theorem parseStr_hyphenated (id : Block 16) : parseStr (hyphenated id) = some id := by
  have hlen := length_toHex_eq id
  have hgroup : ∀ n, ((toHex id.1).drop n).take 4 ++ (toHex id.1).drop (n + 4) =
      (toHex id.1).drop n := by
    intro n
    rw [← drop_drop, take_append_drop]
  have hjoin : (toHex id.1).take 8 ++ (((toHex id.1).drop 8).take 4 ++
      (((toHex id.1).drop 12).take 4 ++ (((toHex id.1).drop 16).take 4 ++ (toHex id.1).drop 20))) =
      toHex id.1 := by
    rw [hgroup 16, hgroup 12, hgroup 8, take_append_drop]
  rw [parseStr, length_hyphenated, if_neg (by decide), if_pos rfl, hyphenated,
    parseHyphenated_groups (by simp [hlen]) (by simp [hlen]) (by simp [hlen]) (by simp [hlen])
      (by simp [hlen]), hjoin, ofDigits_toHex]

end Uuid

end Powehi.Codec
