import Mathlib.Algebra.Order.BigOperators.Group.List
import Powehi.Codec.Bytes

/-!
# JSON text and its length

The compact JSON a serializer writes for records, lists, numbers and byte strings, where a byte
string is an array of decimal numbers. Only the length of the text is studied: an array costs one
character per item for the comma or bracket behind it, and a byte costs one to three digits.

Strings are written without escapes; they are for text that needs none.
-/

namespace Powehi.Codec.Json

open List

/-- A number in decimal. -/
def decimal (n : ℕ) : Bytes := (Nat.toDigits 10 n).map fun c => UInt8.ofNat c.toNat

/-- Text in quotation marks. -/
def quoted (text : Bytes) : Bytes := ascii "\"" ++ (text ++ ascii "\"")

/-- `null` for what is absent. -/
def optional (value : Option Bytes) : Bytes := value.getD (ascii "null")

/-- Items with commas between them. -/
def separated (items : List Bytes) : Bytes := (ascii ",").intercalate items

def array (items : List Bytes) : Bytes := ascii "[" ++ (separated items ++ ascii "]")

/-- One member of an object. -/
def field (key : String) (value : Bytes) : Bytes := quoted (ascii key) ++ (ascii ":" ++ value)

def object (fields : List Bytes) : Bytes := ascii "\x7b" ++ (separated fields ++ ascii "\x7d")

/-- A byte string as an array of numbers. -/
def byteArray (b : Bytes) : Bytes := array (b.map fun x => decimal x.toNat)

/-- The characters of a byte in such an array, with the comma or bracket behind it. -/
def printed (x : UInt8) : ℕ := if x < 10 then 2 else if x < 100 then 3 else 4

theorem length_separated {items : List Bytes} (h : items ≠ []) :
    (separated items).length + 1 = (items.map fun x => x.length + 1).sum := by
  induction items with
  | nil => exact absurd rfl h
  | cons x items ih =>
    cases items with
    | nil => simp [separated, intercalate]
    | cons y items =>
      have hcomma : (ascii ",").length = 1 := by decide +kernel
      have hsplit : separated (x :: y :: items) = x ++ (ascii "," ++ separated (y :: items)) := by
        simp [separated, intercalate]
      have hrest := ih (by simp)
      rw [hsplit, map_cons, sum_cons]
      simp only [length_append, hcomma]
      omega

/-- Each item has a comma or the bracket behind it; an empty array has only the brackets. -/
theorem length_array (items : List Bytes) :
    (array items).length = 1 + max 1 (items.map fun x => x.length + 1).sum := by
  have hopen : (ascii "[").length = 1 := by decide +kernel
  have hclose : (ascii "]").length = 1 := by decide +kernel
  by_cases h : items = []
  · subst h
    decide +kernel
  · have := length_separated h
    simp only [array, length_append, hopen, hclose]
    omega

/-- The same holds of the fields of an object. -/
theorem length_object (fields : List Bytes) :
    (object fields).length = 1 + max 1 (fields.map fun x => x.length + 1).sum := by
  have hopen : (ascii "\x7b").length = (ascii "[").length := by decide +kernel
  have hclose : (ascii "\x7d").length = (ascii "]").length := by decide +kernel
  rw [← length_array]
  simp only [object, array, length_append, hopen, hclose]

theorem length_quoted (text : Bytes) : (quoted text).length = text.length + 2 := by
  have hmark : (ascii "\"").length = 1 := by decide +kernel
  simp only [quoted, length_append, hmark]
  omega

theorem length_field (key : String) (value : Bytes) :
    (field key value).length = (ascii key).length + value.length + 3 := by
  have hcolon : (ascii ":").length = 1 := by decide +kernel
  simp only [field, length_append, length_quoted, hcolon]
  omega

theorem length_decimal_byte (x : UInt8) : (decimal x.toNat).length + 1 = printed x := by
  have table : ∀ n < 256, (decimal n).length + 1 = printed (UInt8.ofNat n) := by decide +kernel
  simpa using table x.toNat x.toNat_lt

/-- A byte string is as long as its bytes are printed. -/
theorem length_byteArray (b : Bytes) : (byteArray b).length = 1 + max 1 (b.map printed).sum := by
  have hitems : (b.map fun x => decimal x.toNat).map (fun x => x.length + 1) = b.map printed := by
    rw [map_map]
    exact map_congr_left fun x _ => length_decimal_byte x
  rw [byteArray, length_array, hitems]

theorem printed_le_four (x : UInt8) : printed x ≤ 4 := by
  unfold printed
  split
  · omega
  · split <;> omega

end Powehi.Codec.Json
