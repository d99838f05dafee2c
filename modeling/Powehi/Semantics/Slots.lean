import Mathlib.Data.Multiset.MapFold
import Mathlib.Data.List.Nodup

/-!
# Numbered slots

A sequence of slots, each empty or holding a value. Values keep their numbers; a new value goes
into the first empty slot, or into a new one at the end. What the slots hold, regardless of their
numbers, is a multiset, and the operations change it by one value.
-/

namespace Powehi.Semantics

open List

/-- Slots that are empty or hold a value. -/
abbrev Slots (α : Type*) := List (Option α)

namespace Slots

variable {α β : Type*} {s : Slots α} {i : ℕ} {a b : α}

/-- The value in a slot. -/
def value (s : Slots α) (i : ℕ) : Option α := s[i]?.join

/-- The occupied slots in order. -/
def entries (s : Slots α) : List (ℕ × α) :=
  s.zipIdx.filterMap fun e => e.1.map fun a => (e.2, a)

/-- The values, regardless of their numbers. -/
def contents (s : Slots α) : Multiset α := s.filterMap id

/-- Empty a slot. -/
def clear (s : Slots α) (i : ℕ) : Slots α := s.set i none

/-- Put a value into a slot. -/
def replace (s : Slots α) (i : ℕ) (a : α) : Slots α := s.set i (some a)

/-- Put a value into the first empty slot, or behind the last. -/
def fill : Slots α → α → Slots α
  | [], a => [some a]
  | none :: s, a => some a :: s
  | some b :: s, a => some b :: fill s a

@[simp] theorem contents_cons_some (a : α) (s : Slots α) :
    contents (some a :: s) = a ::ₘ contents s := rfl

theorem value_eq_some : s.value i = some a ↔ s[i]? = some (some a) := by
  rw [value]
  cases s[i]? with
  | none | some _ => simp

@[simp] theorem value_zero (o : Option α) (s : Slots α) : value (o :: s) 0 = o := rfl

theorem mem_entries : (i, a) ∈ s.entries ↔ s.value i = some a := by
  rw [value_eq_some, entries]
  simp only [mem_filterMap, Option.map_eq_some_iff, Prod.mk.injEq, Prod.exists]
  constructor
  · rintro ⟨o, j, hmem, b, rfl, rfl, rfl⟩
    exact mk_mem_zipIdx_iff_getElem?.1 hmem
  · intro h
    exact ⟨some a, i, mk_mem_zipIdx_iff_getElem?.2 h, a, rfl, rfl, rfl⟩

/-- Looking for a number among the occupied slots. -/
theorem find?_entries (s : Slots α) (i : ℕ) :
    s.entries.find? (fun e => e.1 == i) = (s.value i).map fun a => (i, a) := by
  cases hfind : s.entries.find? fun e => e.1 == i with
  | none =>
    cases hvalue : s.value i with
    | none => rfl
    | some a => simpa using find?_eq_none.1 hfind (i, a) (mem_entries.2 hvalue)
  | some e =>
    have hindex : e.1 = i := by simpa using find?_some hfind
    have hmem : (i, e.2) ∈ s.entries := by
      rw [← hindex]
      exact mem_of_find?_eq_some hfind
    rw [mem_entries.1 hmem, Option.map_some, ← hindex]

/-- The values of the occupied slots are the contents. -/
theorem map_snd_entries (s : Slots α) : (s.entries.map Prod.snd : List α) = s.contents := by
  have hlist : ∀ n, ((s.zipIdx n).filterMap fun e => e.1.map fun a => (e.2, a)).map Prod.snd =
      s.filterMap id := by
    induction s with
    | nil => intro n; rfl
    | cons o s ih =>
      intro n
      cases o with
      | none | some _ => simpa [zipIdx_cons] using ih (n + 1)
  rw [entries, hlist]
  rfl

/-- Emptying an occupied slot takes its value out. -/
theorem contents_clear (h : s.value i = some a) : s.contents = a ::ₘ (s.clear i).contents := by
  induction s generalizing i with
  | nil => simp [value] at h
  | cons o s ih =>
    cases i with
    | zero =>
      rw [value_zero] at h
      rw [h]
      rfl
    | succ i =>
      cases o with
      | none => exact ih h
      | some b =>
        rw [contents_cons_some, ih h, Multiset.cons_swap]
        rfl

theorem contents_fill (s : Slots α) (a : α) : (s.fill a).contents = a ::ₘ s.contents := by
  induction s with
  | nil => rfl
  | cons o s ih =>
    cases o with
    | none => rfl
    | some b =>
      rw [fill, contents_cons_some, ih, Multiset.cons_swap]
      rfl

theorem value_clear_ne {j : ℕ} (h : i ≠ j) : (s.clear i).value j = s.value j := by
  rw [value, clear, getElem?_set_ne h, value]

/-- Replacing a value takes it out and puts the new one in. -/
theorem contents_replace (h : s.value i = some a) :
    (s.replace i b).contents = b ::ₘ (s.clear i).contents := by
  have hlen : i < s.length := by
    rw [value_eq_some] at h
    exact (List.getElem?_eq_some_iff.1 h).1
  have hvalue : (s.replace i b).value i = some b := by
    rw [value_eq_some, replace, getElem?_set_self hlen]
  rw [contents_clear hvalue, clear, replace, set_set, clear]

/-- Emptying distinct occupied slots takes their values out. -/
theorem contents_clearAll {is : List ℕ} (hdistinct : is.Nodup)
    (hoccupied : ∀ i ∈ is, (s.value i).isSome) :
    s.contents = (is.filterMap s.value : List α) + (is.foldl clear s).contents := by
  induction is generalizing s with
  | nil => simp
  | cons i is ih =>
    obtain ⟨hi, hrest⟩ := nodup_cons.1 hdistinct
    obtain ⟨a, ha⟩ := Option.isSome_iff_exists.1 (hoccupied i mem_cons_self)
    -- The other slots are as they were.
    have hother : ∀ j ∈ is, (s.clear i).value j = s.value j := by
      intro j hj
      apply value_clear_ne
      rintro rfl
      exact hi hj
    have hvalues : is.filterMap (s.clear i).value = is.filterMap s.value := filterMap_congr hother
    have hnext := ih (s := s.clear i) hrest fun j hj => by
      rw [hother j hj]
      exact hoccupied j (mem_cons_of_mem i hj)
    rw [filterMap_cons_some ha, foldl_cons, contents_clear ha, hnext, hvalues,
      ← Multiset.cons_coe, Multiset.cons_add]

theorem contents_fillAll (s : Slots α) (as : List α) :
    (as.foldl fill s).contents = (as : Multiset α) + s.contents := by
  induction as generalizing s with
  | nil => simp
  | cons a as ih =>
    rw [foldl_cons, ih, contents_fill, ← Multiset.cons_coe, Multiset.cons_add, Multiset.add_cons]

theorem value_clearAll {is : List ℕ} (h : i ∉ is) : (is.foldl clear s).value i = s.value i := by
  induction is generalizing s with
  | nil => rfl
  | cons j is ih =>
    rw [mem_cons, not_or] at h
    rw [foldl_cons, ih h.2, value_clear_ne (Ne.symm h.1)]

/-- A value that is there is not overwritten. -/
theorem value_fill (h : s.value i = some a) : (s.fill b).value i = some a := by
  induction s generalizing i with
  | nil => simp [value] at h
  | cons o s ih =>
    cases o with
    | none =>
      cases i with
      | zero => cases h
      | succ i => exact h
    | some c =>
      cases i with
      | zero => exact h
      | succ i =>
        exact ih h

theorem value_fillAll {as : List α} (h : s.value i = some a) :
    (as.foldl fill s).value i = some a := by
  induction as generalizing s with
  | nil => exact h
  | cons b as ih => exact ih (value_fill h)

/-- A replaced value changes nothing that both values share. -/
theorem map_contents_replace {f : α → β} (h : s.value i = some a) (hf : f b = f a) :
    (s.replace i b).contents.map f = s.contents.map f := by
  rw [contents_replace h, contents_clear h, Multiset.map_cons, Multiset.map_cons, hf]

/-- The same, with the numbers of the slots. -/
theorem map_replace {f : α → β} (h : s.value i = some a) (hf : f b = f a) :
    (s.replace i b).map (Option.map f) = s.map (Option.map f) := by
  rw [value_eq_some] at h
  obtain ⟨hi, hvalue⟩ := List.getElem?_eq_some_iff.1 h
  rw [replace, map_set, Option.map_some, hf, ← Option.map_some, ← hvalue]
  apply ext_getElem
  · simp
  · intro j _ _
    by_cases hj : i = j
    · subst hj
      simp
    · simp [hj]

end Slots

end Powehi.Semantics
