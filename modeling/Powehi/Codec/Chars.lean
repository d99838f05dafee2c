import Mathlib.Data.List.DropRight

/-!
# Characters and words

The operations on text that the standard library of the source language offers: white space in
the sense of Unicode, trimming, splitting into words, ASCII case and hexadecimal digits.
-/

namespace Powehi.Codec

open List

/-- The Unicode property White_Space. -/
def isWhitespace (c : Char) : Bool :=
  let n := c.toNat
  (9 ≤ n && n ≤ 13) || n == 0x20 || n == 0x85 || n == 0xA0 || n == 0x1680 ||
    (0x2000 ≤ n && n ≤ 0x200A) || n == 0x2028 || n == 0x2029 || n == 0x202F || n == 0x205F ||
    n == 0x3000

/-- Text without white space at its ends. -/
def trim (s : List Char) : List Char := (s.dropWhile isWhitespace).rdropWhile isWhitespace

/-- The words of a text: what is between white space. -/
def splitWhitespace (s : List Char) : List (List Char) :=
  (s.splitOnP isWhitespace).filter fun w => !w.isEmpty

def asciiLower (c : Char) : Char :=
  if 65 ≤ c.toNat ∧ c.toNat ≤ 90 then Char.ofNat (c.toNat + 32) else c

def toAsciiLowercase (s : List Char) : List Char := s.map asciiLower

def isAsciiHexdigit (c : Char) : Bool :=
  let n := c.toNat
  (48 ≤ n && n ≤ 57) || (65 ≤ n && n ≤ 70) || (97 ≤ n && n ≤ 102)

/-- Text without white space stays as it is. -/
theorem trim_eq_self {s : List Char} (h : ∀ c ∈ s, isWhitespace c = false) : trim s = s := by
  have hfront : s.dropWhile isWhitespace = s := by
    cases s with
    | nil => rfl
    | cons c s => exact dropWhile_cons_of_neg (by simp [h c mem_cons_self])
  rw [trim, hfront, rdropWhile_eq_self_iff]
  intro hne
  simp [h _ (getLast_mem hne)]

/-! ### Words -/

/-- A word: at least one character, and no white space. -/
def IsWord (w : List Char) : Prop := w ≠ [] ∧ ∀ c ∈ w, isWhitespace c = false

/-- The text consists of the words `ws` with white space before, between and behind them. -/
inductive Spaced : List (List Char) → List Char → Prop
  | blank {gap : List Char} (hgap : ∀ c ∈ gap, isWhitespace c = true) : Spaced [] gap
  | word {gap w rest : List Char} {ws : List (List Char)}
      (hgap : ∀ c ∈ gap, isWhitespace c = true) (hw : IsWord w)
      (hnext : ∀ c ∈ rest.head?, isWhitespace c = true) (hrest : Spaced ws rest) :
      Spaced (w :: ws) (gap ++ (w ++ rest))

theorem splitWhitespace_cons {c : Char} (hc : isWhitespace c = true) (s : List Char) :
    splitWhitespace (c :: s) = splitWhitespace s := by
  simp [splitWhitespace, splitOnP_cons_eq_if_modifyHead, hc]

theorem splitWhitespace_gap {gap : List Char} (hgap : ∀ c ∈ gap, isWhitespace c = true)
    (s : List Char) : splitWhitespace (gap ++ s) = splitWhitespace s := by
  induction gap with
  | nil => rfl
  | cons c gap ih =>
    rw [cons_append, splitWhitespace_cons (hgap c mem_cons_self)]
    exact ih fun d hd => hgap d (mem_cons_of_mem c hd)

theorem splitWhitespace_word {w : List Char} (hw : IsWord w) {rest : List Char}
    (hnext : ∀ c ∈ rest.head?, isWhitespace c = true) :
    splitWhitespace (w ++ rest) = w :: splitWhitespace rest := by
  have hne : w.isEmpty = false := isEmpty_eq_false_iff.2 hw.1
  cases rest with
  | nil =>
    rw [append_nil, splitWhitespace, splitOnP_eq_singleton hw.2]
    simp [hne, splitWhitespace]
  | cons c rest =>
    have hc : isWhitespace c = true := hnext c rfl
    rw [splitWhitespace_cons hc, splitWhitespace, splitOnP_append_cons_of_forall_mem hw.2 c hc]
    simp [hne, splitWhitespace]

theorem Spaced.splitWhitespace_eq {ws : List (List Char)} {s : List Char} (h : Spaced ws s) :
    splitWhitespace s = ws := by
  induction h with
  | @blank gap hgap =>
    have hempty := splitWhitespace_gap hgap []
    rw [append_nil] at hempty
    exact hempty
  | word hgap hw hnext _ ih => rw [splitWhitespace_gap hgap, splitWhitespace_word hw hnext, ih]

theorem head?_dropWhile {p : Char → Bool} {s : List Char} {c : Char}
    (h : c ∈ (s.dropWhile p).head?) : p c = false := by
  have hnot := List.head?_dropWhile_not p s
  rw [Option.mem_def.1 h] at hnot
  simpa using hnot

theorem spaced_splitWhitespace (s : List Char) : Spaced (splitWhitespace s) s := by
  induction hn : s.length using Nat.strong_induction_on generalizing s with
  | h n ih =>
    have hgap : ∀ c ∈ s.takeWhile isWhitespace, isWhitespace c = true :=
      fun c hc => mem_takeWhile_imp hc
    have hs : s.takeWhile isWhitespace ++ s.dropWhile isWhitespace = s := takeWhile_append_dropWhile
    cases htail : s.dropWhile isWhitespace with
    | nil =>
      rw [htail, append_nil] at hs
      have hblank := Spaced.blank hgap
      rw [← hblank.splitWhitespace_eq, hs] at hblank
      exact hblank
    | cons c tail =>
      -- The word that begins here, and what is left behind it.
      have hc : isWhitespace c = false := head?_dropWhile (by rw [htail]; rfl)
      have htext : (c :: tail).takeWhile (fun d => !isWhitespace d) ++
          (c :: tail).dropWhile (fun d => !isWhitespace d) = c :: tail :=
        takeWhile_append_dropWhile
      have hword : IsWord ((c :: tail).takeWhile fun d => !isWhitespace d) := by
        constructor
        · rw [takeWhile_cons_of_pos (by simp [hc])]
          exact cons_ne_nil _ _
        · intro d hd
          simpa using mem_takeWhile_imp hd
      have hnext : ∀ d ∈ ((c :: tail).dropWhile fun d => !isWhitespace d).head?,
          isWhitespace d = true := by
        intro d hd
        simpa using head?_dropWhile hd
      have hshorter : ((c :: tail).dropWhile fun d => !isWhitespace d).length < n := by
        have hfront := length_dropWhile_le isWhitespace s
        have hback := length_dropWhile_le (fun d => !isWhitespace d) tail
        rw [htail, length_cons] at hfront
        rw [dropWhile_cons_of_pos (by simp [hc])]
        omega
      have hrest := ih _ hshorter _ rfl
      have hspaced := Spaced.word hgap hword hnext hrest
      rw [htext, ← htail, hs] at hspaced
      rw [← hspaced.splitWhitespace_eq] at hspaced
      exact hspaced

end Powehi.Codec
