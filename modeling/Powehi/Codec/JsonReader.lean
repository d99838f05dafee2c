import Powehi.Codec.Json
import Powehi.Codec.Utf8

/-!
# Reading JSON

A recursive-descent reader over bytes that accepts what `serde_json` accepts. It builds the tree
of a document and leaves every decision about its leaves to the caller, as a deserializer does
that skips members it has no use for: numbers are kept as they are written, and strings as the
bytes and escapes they consist of, so that invalid UTF-8 or an unpaired surrogate only matters in
a string that is looked at.
-/

namespace Powehi.Codec.Json

open List UInt8

variable {b : UInt8} {text : Bytes} {n : ℕ} {rest : Bytes} {texts : List Bytes}

/-! ### Strings -/

/-- One element of a string as it is written. -/
inductive Piece
  | raw (b : UInt8)
  /-- A backslash with one letter, by the byte it stands for. -/
  | escaped (b : UInt8)
  /-- A code unit in four hexadecimal digits. -/
  | unicode (u : ℕ)
deriving DecidableEq

abbrev Text := List Piece

/-- The byte a letter behind a backslash stands for. -/
def escapeOf (b : UInt8) : Option UInt8 :=
  if b = 34 ∨ b = 92 ∨ b = 47 then some b
  else if b = 98 then some 8
  else if b = 102 then some 12
  else if b = 110 then some 10
  else if b = 114 then some 13
  else if b = 116 then some 9
  else none

/-- The code unit of four hexadecimal digits. -/
def codeUnit (h₃ h₂ h₁ h₀ : UInt8) : Option ℕ := do
  let d₃ ← nibble h₃
  let d₂ ← nibble h₂
  let d₁ ← nibble h₁
  let d₀ ← nibble h₀
  some (((d₃ * 16 + d₂) * 16 + d₁) * 16 + d₀)

/-- One more item in front of those read. -/
def push {α : Type} (a : α) (r : List α × Bytes) : List α × Bytes := (a :: r.1, r.2)

/-- Read a string whose opening quotation mark is behind us. -/
def readText : Bytes → Option (Text × Bytes)
  | [] => none
  | b :: rest =>
    if b = 34 then some ([], rest)
    else if b = 92 then
      match rest with
      | [] => none
      | e :: rest =>
        if e = 117 then
          match rest with
          | h₃ :: h₂ :: h₁ :: h₀ :: rest =>
            match codeUnit h₃ h₂ h₁ h₀ with
            | none => none
            | some u => (readText rest).map (push (.unicode u))
          | _ => none
        else
          match escapeOf e with
          | none => none
          | some c => (readText rest).map (push (.escaped c))
    else if b < 32 then none
    else (readText rest).map (push (.raw b))

/-- The bytes a string stands for. A surrogate needs its partner. -/
def Text.unescape : Text → Option Bytes
  | [] => some []
  | .raw b :: text => (unescape text).map (b :: ·)
  | .escaped b :: text => (unescape text).map (b :: ·)
  | .unicode u :: text =>
    if 0xDC00 ≤ u ∧ u ≤ 0xDFFF then none
    else if 0xD800 ≤ u ∧ u ≤ 0xDBFF then
      match text with
      | .unicode v :: text =>
        if 0xDC00 ≤ v ∧ v ≤ 0xDFFF then
          (unescape text).map (String.utf8EncodeChar
            (Char.ofNat (0x10000 + (u - 0xD800) * 1024 + (v - 0xDC00))) ++ ·)
        else none
      | _ => none
    else (unescape text).map (String.utf8EncodeChar (Char.ofNat u) ++ ·)

/-- The text of a string, if it is valid UTF-8. -/
def Text.bytes (text : Text) : Option Bytes := do
  let b ← text.unescape
  if (Utf8.decode b).isSome then some b else none

/-! ### Numbers -/

def isDigit (b : UInt8) : Bool := 48 ≤ b && b ≤ 57

/-- A number as it is written. -/
structure Number where
  negative : Bool
  digits : Bytes
  fraction : Bytes
  exponent : Bytes
deriving DecidableEq

/-- At least one digit. -/
def readDigits (s : Bytes) : Option (Bytes × Bytes) :=
  if s.takeWhile isDigit = [] then none else some (s.takeWhile isDigit, s.dropWhile isDigit)

def readFraction : Bytes → Option (Bytes × Bytes)
  | [] => some ([], [])
  | b :: s => if b = 46 then readDigits s else some ([], b :: s)

def readExponent : Bytes → Option (Bytes × Bytes)
  | [] => some ([], [])
  | b :: s =>
    if b = 101 ∨ b = 69 then
      match s with
      | [] => none
      | sign :: s =>
        if sign = 43 ∨ sign = 45 then
          (readDigits s).map fun (digits, rest) => (sign :: digits, rest)
        else readDigits (sign :: s)
    else some ([], b :: s)

/-- Digits without a superfluous zero in front. -/
def readInteger : Bytes → Option (Bytes × Bytes)
  | [] => none
  | b :: s => if b = 48 then some ([b], s) else readDigits (b :: s)

def readNumber (s : Bytes) : Option (Number × Bytes) := do
  let negative := s.head? == some 45
  let (digits, s) ← readInteger (if negative then s.tail else s)
  let (fraction, s) ← readFraction s
  let (exponent, s) ← readExponent s
  some (⟨negative, digits, fraction, exponent⟩, s)

/-- The number that digits denote. -/
def digitsValue (digits : Bytes) : ℕ := digits.foldl (fun acc d => acc * 10 + (d.toNat - 48)) 0

/-- A number without sign, fraction and exponent that fits 64 bits; the others are read as signed
or floating-point numbers. -/
def Number.toU64 (n : Number) : Option ℕ :=
  if n.negative = false ∧ n.fraction = [] ∧ n.exponent = [] ∧ digitsValue n.digits < 2 ^ 64 then
    some (digitsValue n.digits)
  else none

/-! ### Values -/

inductive Value
  | null
  | bool (b : Bool)
  | num (n : Number)
  | str (text : Text)
  | arr (values : List Value)
  | obj (members : List (Text × Value))

def isSpace (b : UInt8) : Bool := b == 32 || b == 10 || b == 9 || b == 13

def skipSpace (s : Bytes) : Bytes := s.dropWhile isSpace

section Items

variable {α : Type}

/-- Items with commas between them, up to the closing bracket. -/
def items (item : Bytes → Option (α × Bytes)) (close : UInt8) : ℕ → Bytes → Option (List α × Bytes)
  | 0, _ => none
  | n + 1, s =>
    match item s with
    | none => none
    | some (a, s) =>
      match skipSpace s with
      | [] => none
      | b :: rest =>
        if b = close then some ([a], rest)
        else if b = 44 then (items item close n rest).map (push a)
        else none

/-- The inside of a pair of brackets, and the closing one. -/
def sequence (item : Bytes → Option (α × Bytes)) (close : UInt8) (n : ℕ) (s : Bytes) :
    Option (List α × Bytes) :=
  match skipSpace s with
  | [] => none
  | b :: rest => if b = close then some ([], rest) else items item close n s

end Items

/-- A fixed word. -/
def literal (word : Bytes) (v : Value) (s : Bytes) : Option (Value × Bytes) :=
  if s.take word.length = word then some (v, s.drop word.length) else none

/-- A member of an object: a string, a colon and a value. -/
def member (value : Bytes → Option (Value × Bytes)) (s : Bytes) : Option ((Text × Value) × Bytes) :=
  match skipSpace s with
  | [] => none
  | b :: s =>
    if b = 34 then
      match readText s with
      | none => none
      | some (key, s) =>
        match skipSpace s with
        | [] => none
        | b :: s => if b = 58 then (value s).map fun (v, s) => ((key, v), s) else none
    else none

/-- The value whose first byte is `b`. -/
def valueFrom (value : Bytes → Option (Value × Bytes)) (n : ℕ) (b : UInt8) (s : Bytes) :
    Option (Value × Bytes) :=
  if b = 34 then (readText s).map fun (text, s) => (.str text, s)
  else if b = 91 then (sequence value 93 n s).map fun (vs, s) => (.arr vs, s)
  else if b = 123 then (sequence (member value) 125 n s).map fun (ms, s) => (.obj ms, s)
  else if b = 116 then literal (ascii "true") (.bool true) (b :: s)
  else if b = 102 then literal (ascii "false") (.bool false) (b :: s)
  else if b = 110 then literal (ascii "null") .null (b :: s)
  else (readNumber (b :: s)).map fun (num, s) => (.num num, s)

/-- Read one value. The fuel bounds the nesting and the number of items. -/
def value : ℕ → Bytes → Option (Value × Bytes)
  | 0, _ => none
  | n + 1, s =>
    match skipSpace s with
    | [] => none
    | b :: s => valueFrom (value n) n b s

/-- Read a document: one value with nothing but white space behind it. -/
def parse (s : Bytes) : Option Value := do
  let (v, rest) ← value (s.length + 1) s
  if skipSpace rest = [] then some v else none

/-! ### Reading printed text -/

/-- What may come after a number. -/
def Stops (rest : Bytes) : Prop :=
  ∀ b ∈ rest.head?, isDigit b = false ∧ b ≠ 46 ∧ b ≠ 101 ∧ b ≠ 69

/-- A text that is read as a value, whatever comes after it. -/
def Reads (text : Bytes) (v : Value) : Prop :=
  ∀ n rest, text.length < n → Stops rest → value n (text ++ rest) = some (v, rest)

theorem stops_nil : Stops [] := fun _ h => nomatch h

theorem stops_cons (h : isDigit b = false ∧ b ≠ 46 ∧ b ≠ 101 ∧ b ≠ 69) (rest : Bytes) :
    Stops (b :: rest) := by
  intro b' hb'
  obtain rfl : b = b' := by simpa using hb'
  exact h

theorem skipSpace_cons (h : isSpace b = false) (s : Bytes) : skipSpace (b :: s) = b :: s := by
  simp [skipSpace, h]

/-- A whole document. -/
theorem parse_of_reads {v : Value} (h : Reads text v) : parse text = some v := by
  have hread := h (text.length + 1) [] (Nat.lt_succ_self _) stops_nil
  rw [append_nil] at hread
  simp [parse, hread, skipSpace]

theorem value_cons (h : isSpace b = false) (n : ℕ) (s : Bytes) :
    value (n + 1) (b :: s) = valueFrom (value n) n b s := by
  rw [value, skipSpace_cons h]

/-! #### Strings -/

/-- The letter behind the backslash for a byte that is escaped. -/
def letterOf (c : UInt8) : UInt8 :=
  if c = 8 then 98 else if c = 12 then 102 else if c = 10 then 110 else if c = 13 then 114
  else if c = 9 then 116 else c

/-- How an element of a string is written. -/
def Piece.print : Piece → Bytes
  | .raw b => [b]
  | .escaped c => [92, letterOf c]
  | .unicode u => ascii "\\u" ++ (beBytes 2 u).flatMap fun b => toHex [b]

/-- Elements a printer writes: bytes that need no escape, and those with an escape of their own. -/
def Piece.Printable : Piece → Prop
  | .raw b => b ≠ 34 ∧ b ≠ 92 ∧ 32 ≤ b
  | .escaped c => c ∈ ([34, 92, 47, 8, 12, 10, 13, 9] : Bytes)
  | .unicode _ => False

theorem escapeOf_letterOf : ∀ c ∈ ([34, 92, 47, 8, 12, 10, 13, 9] : Bytes),
    letterOf c ≠ 117 ∧ escapeOf (letterOf c) = some c := by decide +kernel

theorem readText_quote (rest : Bytes) : readText (34 :: rest) = some ([], rest) := by
  rw [readText.eq_def]
  rfl

theorem readText_raw (h : b ≠ 34 ∧ b ≠ 92 ∧ 32 ≤ b) (rest : Bytes) :
    readText (b :: rest) = (readText rest).map (push (.raw b)) := by
  rw [readText.eq_def]
  simp only [if_neg h.1, if_neg h.2.1, if_neg (UInt8.not_lt.2 h.2.2)]

theorem readText_escaped {e c : UInt8} (hu : e ≠ 117) (he : escapeOf e = some c) (rest : Bytes) :
    readText (92 :: e :: rest) = (readText rest).map (push (.escaped c)) := by
  have hquote : ¬(92 : UInt8) = 34 := by decide
  rw [readText.eq_def]
  simp only [if_neg hquote, if_pos, if_neg hu, he]

theorem readText_print {text : Text} (h : ∀ p ∈ text, p.Printable) (rest : Bytes) :
    readText (text.flatMap Piece.print ++ 34 :: rest) = some (text, rest) := by
  induction text with
  | nil => exact readText_quote rest
  | cons p text ih =>
    have ih := ih fun q hq => h q (mem_cons_of_mem p hq)
    rw [flatMap_cons, append_assoc]
    cases p with
    | raw b =>
      rw [Piece.print, singleton_append, readText_raw (h _ mem_cons_self), ih]
      rfl
    | escaped c =>
      obtain ⟨hu, hletter⟩ := escapeOf_letterOf c (h _ mem_cons_self)
      rw [Piece.print, cons_append, singleton_append, readText_escaped hu hletter, ih]
      rfl
    | unicode u => exact (h _ mem_cons_self).elim

/-- A printed string. -/
theorem reads_text {text : Text} (h : ∀ p ∈ text, p.Printable) :
    Reads (34 :: (text.flatMap Piece.print ++ [34])) (.str text) := by
  intro n rest hn _
  obtain ⟨n, rfl⟩ := Nat.exists_eq_add_one_of_ne_zero (Nat.ne_zero_of_lt hn)
  rw [cons_append, value_cons (by decide), valueFrom, if_pos rfl, append_assoc,
    singleton_append, readText_print h]
  rfl

/-- Bytes that a string can hold as they are. -/
def Plain (text : Bytes) : Prop := ∀ b ∈ text, b ≠ 34 ∧ b ≠ 92 ∧ 32 ≤ b

instance (text : Bytes) : Decidable (Plain text) := inferInstanceAs (Decidable (∀ b ∈ text, _))

theorem flatMap_print_raw (text : Bytes) : (text.map Piece.raw).flatMap Piece.print = text := by
  induction text with
  | nil => rfl
  | cons b text ih => rw [map_cons, flatMap_cons, ih]; rfl

theorem printable_raw (h : Plain text) : ∀ p ∈ text.map Piece.raw, p.Printable := by
  intro p hp
  obtain ⟨b, hb, rfl⟩ := mem_map.1 hp
  exact h b hb

theorem ascii_quote : ascii "\"" = [34] := by decide +kernel

theorem quoted_eq (text : Bytes) : quoted text = 34 :: (text ++ [34]) := by
  rw [quoted, ascii_quote, singleton_append]

theorem reads_quoted (h : Plain text) : Reads (quoted text) (.str (text.map .raw)) := by
  have hreads := reads_text (printable_raw h)
  rwa [flatMap_print_raw, ← quoted_eq] at hreads

theorem unescape_raw (text : Bytes) : Text.unescape (text.map .raw) = some text := by
  induction text with
  | nil => rfl
  | cons b text ih => rw [map_cons, Text.unescape, ih]; rfl

/-- Plain ASCII text is what a string of it stands for. -/
theorem bytes_raw (h : ∀ b ∈ text, b.toNat < 128) : Text.bytes (text.map .raw) = some text := by
  rw [Text.bytes, unescape_raw]
  simp [Utf8.decode_ascii h]

/-! #### Numbers -/

theorem decimal_eq (n : ℕ) :
    decimal n = if n < 10 then [ofNat (48 + n)]
      else decimal (n / 10) ++ [ofNat (48 + n % 10)] := by
  have hdigit : ∀ d < 10, ofNat d.digitChar.toNat = ofNat (48 + d) := by decide
  unfold decimal
  rw [Nat.toDigits_eq_if (by decide)]
  split
  · next h => simp [hdigit n h]
  · simp [hdigit _ (Nat.mod_lt n (by decide))]

theorem decimal_induction {P : ℕ → Prop} (small : ∀ n < 10, P n)
    (large : ∀ n, 10 ≤ n → P (n / 10) → P n) (n : ℕ) : P n := by
  induction n using Nat.strong_induction_on with
  | _ n ih =>
    obtain h | h := Nat.lt_or_ge n 10
    · exact small n h
    · exact large n h (ih _ (by omega))

theorem isDigit_of_mem_decimal (n : ℕ) : ∀ b ∈ decimal n, isDigit b = true := by
  have hdigit : ∀ d < 10, isDigit (ofNat (48 + d)) = true := by decide
  induction n using decimal_induction with
  | small n h =>
    intro b hb
    rw [decimal_eq, if_pos h, mem_singleton] at hb
    exact hb ▸ hdigit n h
  | large n h ih =>
    intro b hb
    rw [decimal_eq, if_neg (Nat.not_lt.2 h), mem_append, mem_singleton] at hb
    obtain hb | rfl := hb
    · exact ih b hb
    · exact hdigit _ (Nat.mod_lt n (by decide))

/-- Only zero is written with a zero in front. -/
theorem decimal_cons (h : n ≠ 0) : ∃ d ds, decimal n = d :: ds ∧ d ≠ 48 := by
  have hdigit : ∀ d < 10, d ≠ 0 → ofNat (48 + d) ≠ 48 := by decide
  induction n using decimal_induction with
  | small n hlt =>
    rw [decimal_eq, if_pos hlt]
    exact ⟨_, _, rfl, hdigit n hlt h⟩
  | large n hle ih =>
    obtain ⟨d, ds, hds, hd⟩ := ih (by omega)
    rw [decimal_eq, if_neg (Nat.not_lt.2 hle), hds]
    exact ⟨d, _, rfl, hd⟩

theorem digitsValue_decimal (n : ℕ) : digitsValue (decimal n) = n := by
  have hdigit : ∀ d < 10, (ofNat (48 + d)).toNat - 48 = d := by decide
  induction n using decimal_induction with
  | small n h =>
    rw [decimal_eq, if_pos h]
    simp only [digitsValue, foldl_cons, foldl_nil, hdigit n h]
    omega
  | large n h ih =>
    rw [decimal_eq, if_neg (Nat.not_lt.2 h), digitsValue, foldl_append]
    simp only [foldl_cons, foldl_nil, hdigit _ (Nat.mod_lt n (by decide : 0 < 10))]
    rw [← digitsValue, ih]
    omega

theorem toU64_decimal (h : n < 2 ^ 64) : Number.toU64 ⟨false, decimal n, [], []⟩ = some n := by
  rw [Number.toU64, if_pos ⟨rfl, rfl, rfl, (digitsValue_decimal n).symm ▸ h⟩, digitsValue_decimal]

theorem takeWhile_stops (h : Stops rest) :
    rest.takeWhile isDigit = [] ∧ rest.dropWhile isDigit = rest := by
  cases rest with
  | nil => exact ⟨rfl, rfl⟩
  | cons b rest =>
    have hb : isDigit b = false := (h b rfl).1
    simp [hb]

theorem readDigits_stops {digits rest : Bytes} (hne : digits ≠ [])
    (hdigits : ∀ b ∈ digits, isDigit b = true) (h : Stops rest) :
    readDigits (digits ++ rest) = some (digits, rest) := by
  obtain ⟨htake, hdrop⟩ := takeWhile_stops h
  have htake' : (digits ++ rest).takeWhile isDigit = digits := by
    rw [takeWhile_append_of_pos hdigits, htake, append_nil]
  have hdrop' : (digits ++ rest).dropWhile isDigit = rest := by
    rw [dropWhile_append_of_pos hdigits, hdrop]
  rw [readDigits, htake', hdrop', if_neg hne]

theorem readInteger_decimal (n : ℕ) (h : Stops rest) :
    readInteger (decimal n ++ rest) = some (decimal n, rest) := by
  by_cases hzero : n = 0
  · subst hzero
    rfl
  · obtain ⟨d, ds, hds, hd⟩ := decimal_cons hzero
    have hdigits := isDigit_of_mem_decimal n
    rw [hds] at hdigits ⊢
    rw [cons_append, readInteger, if_neg hd, ← cons_append]
    exact readDigits_stops (cons_ne_nil d ds) hdigits h

theorem readFraction_stops (h : Stops rest) : readFraction rest = some ([], rest) := by
  cases rest with
  | nil => rfl
  | cons b rest => exact if_neg (h b rfl).2.1

theorem readExponent_stops (h : Stops rest) : readExponent rest = some ([], rest) := by
  cases rest with
  | nil => rfl
  | cons b rest =>
    have hb := (h b rfl).2.2
    exact if_neg (not_or.2 hb)

theorem readNumber_decimal (n : ℕ) (h : Stops rest) :
    readNumber (decimal n ++ rest) = some (⟨false, decimal n, [], []⟩, rest) := by
  have hdigits := isDigit_of_mem_decimal n
  have hne : decimal n ≠ [] := by simp [decimal, Nat.toDigits_ne_nil]
  obtain ⟨d, ds, hds⟩ := exists_cons_of_ne_nil hne
  have hd : d ≠ 45 := by
    rintro rfl
    exact absurd (hdigits 45 (hds ▸ mem_cons_self)) (by decide)
  have hsign : ((decimal n ++ rest).head? == some 45) = false := by
    rw [hds]
    simpa using hd
  simp only [readNumber, hsign, Bool.false_eq_true, if_false, readInteger_decimal n h,
    readFraction_stops h, readExponent_stops h, Option.bind_eq_bind, Option.bind_some]

theorem ne_of_isDigit {b c : UInt8} (hb : isDigit b = true) (hc : isDigit c = false) : b ≠ c := by
  rintro rfl
  rw [hb] at hc
  cases hc

theorem isSpace_of_isDigit (h : isDigit b = true) : isSpace b = false := by
  have table : ∀ n < 256, isDigit (ofNat n) = true → isSpace (ofNat n) = false := by
    decide +kernel
  simpa [h] using table b.toNat b.toNat_lt

/-- A printed number. -/
theorem reads_decimal (n : ℕ) : Reads (decimal n) (.num ⟨false, decimal n, [], []⟩) := by
  intro k rest hk hstops
  obtain ⟨k, rfl⟩ := Nat.exists_eq_add_one_of_ne_zero (Nat.ne_zero_of_lt hk)
  have hnumber := readNumber_decimal n hstops
  have hne : decimal n ≠ [] := by simp [decimal, Nat.toDigits_ne_nil]
  obtain ⟨d, ds, hds⟩ := exists_cons_of_ne_nil hne
  have hd : isDigit d = true := isDigit_of_mem_decimal n d (hds ▸ mem_cons_self)
  rw [hds, cons_append] at hnumber ⊢
  rw [value_cons (isSpace_of_isDigit hd), valueFrom, if_neg (ne_of_isDigit hd rfl),
    if_neg (ne_of_isDigit hd rfl), if_neg (ne_of_isDigit hd rfl), if_neg (ne_of_isDigit hd rfl),
    if_neg (ne_of_isDigit hd rfl), if_neg (ne_of_isDigit hd rfl), hnumber]
  rfl

theorem reads_true : Reads (ascii "true") (.bool true) := by
  intro n rest hn _
  obtain ⟨n, rfl⟩ := Nat.exists_eq_add_one_of_ne_zero (Nat.ne_zero_of_lt hn)
  have hword : ascii "true" = [116, 114, 117, 101] := by decide +kernel
  rw [hword, cons_append, value_cons (by decide), valueFrom, if_neg (by decide),
    if_neg (by decide), if_neg (by decide), if_pos rfl, literal, hword]
  rfl

/-! #### Sequences -/

section Items

variable {α : Type} {item : Bytes → Option (α × Bytes)} {close : UInt8}

/-- A text that an item reader reads, whatever comes after it. -/
def ReadsItem (item : Bytes → Option (α × Bytes)) (text : Bytes) (a : α) : Prop :=
  ∀ rest, Stops rest → item (text ++ rest) = some (a, rest)

/-- A closing bracket. -/
def Closes (close : UInt8) : Prop := close = 93 ∨ close = 125

theorem Closes.facts (h : Closes close) :
    isSpace close = false ∧ close ≠ 44 ∧
      (isDigit close = false ∧ close ≠ 46 ∧ close ≠ 101 ∧ close ≠ 69) := by
  obtain rfl | rfl := h <;> decide

theorem separated_cons (x y : Bytes) (texts : List Bytes) :
    separated (x :: y :: texts) = x ++ 44 :: separated (y :: texts) := by
  have hcomma : ascii "," = [44] := by decide +kernel
  simp [separated, intercalate, hcomma]

theorem items_separated (hclose : Closes close) {as : List α}
    (h : Forall₂ (ReadsItem item) texts as) (hne : texts ≠ []) (hn : texts.length ≤ n)
    (rest : Bytes) : items item close n (separated texts ++ close :: rest) = some (as, rest) := by
  obtain ⟨hspace, hcomma, hstops⟩ := hclose.facts
  induction h generalizing n with
  | nil => exact absurd rfl hne
  | @cons x a texts as hx hrest ih =>
    obtain ⟨n, rfl⟩ := Nat.exists_eq_add_one_of_ne_zero (Nat.ne_zero_of_lt hn)
    cases hrest with
    | nil =>
      have hone : separated [x] = x := by simp [separated, intercalate]
      rw [hone, items, hx _ (stops_cons hstops rest)]
      simp only [skipSpace_cons hspace, if_pos]
    | @cons y b texts as hy hrest =>
      have hstops' : isDigit 44 = false ∧ (44 : UInt8) ≠ 46 ∧ (44 : UInt8) ≠ 101 ∧
          (44 : UInt8) ≠ 69 := by decide
      have hnext := ih (cons_ne_nil y texts) (Nat.le_of_succ_le_succ hn)
      rw [separated_cons, append_assoc, cons_append, items, hx _ (stops_cons hstops' _)]
      simp only [skipSpace_cons (by decide : isSpace 44 = false), if_neg hcomma.symm, if_pos, hnext]
      rfl

/-- An item reader that refuses blank input and the closing bracket. -/
def Starts (item : Bytes → Option (α × Bytes)) (close : UInt8) : Prop :=
  ∀ s, skipSpace s = [] ∨ (∃ rest, skipSpace s = close :: rest) → item s = none

/-- The inside of a pair of brackets. -/
theorem sequence_separated (hclose : Closes close) {as : List α} (hstart : Starts item close)
    (h : Forall₂ (ReadsItem item) texts as) (hn : texts.length ≤ n) (rest : Bytes) :
    sequence item close n (separated texts ++ close :: rest) = some (as, rest) := by
  obtain ⟨hspace, -, -⟩ := hclose.facts
  by_cases hne : texts = []
  · subst hne
    cases h
    have hnone : separated [] = [] := rfl
    rw [hnone, nil_append, sequence, skipSpace_cons hspace]
    simp only [if_pos]
  · have hitems := items_separated hclose h hne hn rest
    have hitem : item (separated texts ++ close :: rest) ≠ none := by
      intro hnone
      cases n with
      | zero => cases hitems
      | succ n =>
        rw [items, hnone] at hitems
        cases hitems
    unfold sequence
    split
    · next hskip => exact absurd (hstart _ (.inl hskip)) hitem
    · next b rest' hskip =>
      have hb : b ≠ close := by
        rintro rfl
        exact hitem (hstart _ (.inr ⟨rest', hskip⟩))
      rw [if_neg hb, hitems]

end Items

theorem starts_value (n : ℕ) : Starts (value n) 93 := by
  intro s h
  cases n with
  | zero => rfl
  | succ n =>
    obtain h | ⟨rest, h⟩ := h
    · rw [value, h]
    · rw [value, h]
      rfl

theorem starts_member (read : Bytes → Option (Value × Bytes)) : Starts (member read) 125 := by
  rintro s (h | ⟨rest, h⟩)
  · rw [member, h]
  · rw [member, h]
    rfl

theorem length_lt_of_mem_sum (h : text ∈ texts) :
    text.length < (texts.map fun x => x.length + 1).sum :=
  single_le_sum (fun _ _ => Nat.zero_le _) _ (mem_map_of_mem h)

theorem length_le_sum (texts : List Bytes) :
    texts.length ≤ (texts.map fun x => x.length + 1).sum := by
  induction texts with
  | nil => exact Nat.le_refl 0
  | cons x texts ih =>
    rw [map_cons, sum_cons, length_cons]
    omega

/-- A printed array. -/
theorem reads_array {vs : List Value} (h : Forall₂ Reads texts vs) :
    Reads (array texts) (.arr vs) := by
  intro n rest hn _
  obtain ⟨n, rfl⟩ := Nat.exists_eq_add_one_of_ne_zero (Nat.ne_zero_of_lt hn)
  rw [length_array] at hn
  have hshort : ∀ text ∈ texts, text.length < n := by
    intro text htext
    have hlt := length_lt_of_mem_sum htext
    omega
  have hitems : Forall₂ (ReadsItem (value n)) texts vs :=
    ((forall₂_and_left _ _).2 ⟨hshort, h⟩).imp fun text v ht rest => ht.2 n rest ht.1
  have hcount := length_le_sum texts
  have hopen : ascii "[" = [91] := by decide +kernel
  have hshut : ascii "]" = [93] := by decide +kernel
  rw [array, hopen, hshut, singleton_append, cons_append, value_cons (by decide),
    valueFrom, if_neg (by decide), if_pos rfl, append_assoc, singleton_append,
    sequence_separated (.inl rfl) (starts_value n) hitems (by omega)]
  rfl

/-- A printed byte string. -/
theorem reads_byteArray (b : Bytes) :
    Reads (byteArray b) (.arr (b.map fun x => .num ⟨false, decimal x.toNat, [], []⟩)) := by
  apply reads_array
  rw [forall₂_map_left_iff, forall₂_map_right_iff, forall₂_same]
  exact fun x _ => reads_decimal x.toNat

/-- A text that is a member of an object. -/
def ReadsMember (text : Bytes) (m : Text × Value) : Prop :=
  ∃ key content, Plain (ascii key) ∧ text = field key content ∧ m.1 = (ascii key).map .raw ∧
    Reads content m.2

theorem readsMember_field {key : String} {content : Bytes} {v : Value} (hkey : Plain (ascii key))
    (h : Reads content v) : ReadsMember (field key content) ((ascii key).map .raw, v) :=
  ⟨key, content, hkey, rfl, rfl, h⟩

theorem readsItem_member {m : Text × Value} (hn : text.length < n) (h : ReadsMember text m) :
    ReadsItem (member (value n)) text m := by
  obtain ⟨key, content, hkey, rfl, hm, hcontent⟩ := h
  intro rest hstops
  have hlen : content.length < n := by
    rw [length_field] at hn
    omega
  have hcolon : ascii ":" = [58] := by decide +kernel
  have htext := readText_print (printable_raw hkey) (58 :: (content ++ rest))
  rw [flatMap_print_raw] at htext
  rw [field, quoted_eq, hcolon, member, cons_append, cons_append, skipSpace_cons (by decide)]
  simp only [if_pos, append_assoc, cons_append, nil_append, htext,
    skipSpace_cons (by decide : isSpace 58 = false), hcontent n rest hlen hstops, Option.map_some,
    ← hm]

/-- A printed object. -/
theorem reads_object {fields : List Bytes} {ms : List (Text × Value)}
    (h : Forall₂ ReadsMember fields ms) : Reads (object fields) (.obj ms) := by
  intro n rest hn _
  obtain ⟨n, rfl⟩ := Nat.exists_eq_add_one_of_ne_zero (Nat.ne_zero_of_lt hn)
  rw [length_object] at hn
  have hshort : ∀ text ∈ fields, text.length < n := by
    intro text htext
    have hlt := length_lt_of_mem_sum htext
    omega
  have hitems : Forall₂ (ReadsItem (member (value n))) fields ms :=
    ((forall₂_and_left _ _).2 ⟨hshort, h⟩).imp fun text v ht => readsItem_member ht.1 ht.2
  have hcount := length_le_sum fields
  have hopen : ascii "\x7b" = [123] := by decide +kernel
  have hshut : ascii "\x7d" = [125] := by decide +kernel
  rw [object, hopen, hshut, singleton_append, cons_append, value_cons (by decide),
    valueFrom, if_neg (by decide), if_neg (by decide), if_pos rfl, append_assoc,
    singleton_append, sequence_separated (.inr rfl) (starts_member _) hitems (by omega)]
  rfl

end Powehi.Codec.Json
