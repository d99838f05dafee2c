import Mathlib.Data.List.Nodup

/-!
# Tables with a primary key

A table is a list of rows in which no key occurs twice. The operations are the statements a
relational database offers on one table: insert unless the key is taken, update one row, delete
where a condition holds. None of them can break the primary key, so every table is well formed.
-/

namespace Powehi.Semantics

open List

/-- Rows in which every key occurs once. -/
structure Table {ρ κ : Type} (key : ρ → κ) where
  rows : List ρ
  unique : (rows.map key).Nodup

namespace Table

variable {ρ κ : Type} {key : ρ → κ}

@[ext] theorem ext {t t' : Table key} (h : t.rows = t'.rows) : t = t' := by
  cases t
  cases t'
  congr

instance [DecidableEq ρ] : DecidableEq (Table key) := fun t t' =>
  decidable_of_iff (t.rows = t'.rows) ⟨ext, congrArg rows⟩

instance : EmptyCollection (Table key) := ⟨⟨[], nodup_nil⟩⟩

instance : Membership ρ (Table key) := ⟨fun t r => r ∈ t.rows⟩

variable {t : Table key} {r r' : ρ} {k : κ}

theorem mem_rows : r ∈ t.rows ↔ r ∈ t := Iff.rfl

instance [DecidableEq ρ] : Decidable (r ∈ t) := inferInstanceAs (Decidable (r ∈ t.rows))

/-- A key identifies its row. -/
theorem eq_of_key (h : r ∈ t) (h' : r' ∈ t) (heq : key r = key r') : r = r' :=
  inj_on_of_nodup_map t.unique h h' heq

/-- Delete the rows for which `p` holds. -/
def deleteWhere (p : ρ → Bool) (t : Table key) : Table key where
  rows := t.rows.filter fun r => !p r
  unique := t.unique.sublist (filter_sublist.map key)

@[simp] theorem mem_deleteWhere {p : ρ → Bool} : r ∈ t.deleteWhere p ↔ r ∈ t ∧ p r = false := by
  change r ∈ t.rows.filter _ ↔ _
  rw [mem_filter, Bool.not_eq_true']
  rfl

/-- Change every row that satisfies `p` by a function that keeps the key. -/
def update (p : ρ → Bool) (f : ρ → ρ) (keeps : ∀ r, key (f r) = key r) (t : Table key) :
    Table key where
  rows := t.rows.map fun r => if p r then f r else r
  unique := by
    have h : (t.rows.map fun r => if p r then f r else r).map key = t.rows.map key := by
      rw [map_map]
      refine map_congr_left fun r _ => ?_
      simp only [Function.comp_apply]
      split
      · exact keeps r
      · rfl
    exact h ▸ t.unique

@[simp] theorem mem_update {p : ρ → Bool} {f : ρ → ρ} {keeps : ∀ r, key (f r) = key r} :
    r ∈ t.update p f keeps ↔ ∃ r' ∈ t, (if p r' then f r' else r') = r := mem_map

variable [DecidableEq κ]

/-- The row with a given key. -/
def find? (t : Table key) (k : κ) : Option ρ := t.rows.find? fun r => key r = k

theorem find?_eq_some : t.find? k = some r ↔ r ∈ t ∧ key r = k := by
  constructor
  · intro h
    exact ⟨mem_of_find?_eq_some h, by simpa using find?_some h⟩
  · rintro ⟨hmem, rfl⟩
    obtain ⟨r', hr'⟩ := Option.isSome_iff_exists.mp
      (find?_isSome.mpr ⟨r, hmem, decide_eq_true rfl⟩ :
        (t.rows.find? fun x => key x = key r).isSome)
    have hkey : key r' = key r := by simpa using find?_some hr'
    rw [find?, hr', eq_of_key (mem_of_find?_eq_some hr') hmem hkey]

theorem find?_eq_none : t.find? k = none ↔ ∀ r ∈ t, key r ≠ k := by
  simp [find?, List.find?_eq_none, mem_rows]

/-- Insert a row unless its key is taken. -/
def insertNew (r : ρ) (t : Table key) : Table key :=
  if h : (t.find? (key r)).isSome then t
  else
    { rows := t.rows ++ [r]
      unique := by
        rw [Option.not_isSome_iff_eq_none, find?_eq_none] at h
        rw [map_append, nodup_append]
        refine ⟨t.unique, by simp, fun a ha b hb => ?_⟩
        obtain ⟨x, hx, rfl⟩ := mem_map.mp ha
        obtain rfl : b = key r := by simpa using hb
        exact h x hx }

@[simp] theorem mem_insertNew :
    r' ∈ t.insertNew r ↔ r' ∈ t ∨ (r' = r ∧ t.find? (key r) = none) := by
  unfold insertNew
  split
  · next h =>
    obtain ⟨x, hx⟩ := Option.isSome_iff_exists.mp h
    simp [hx]
  · next h =>
    rw [Option.not_isSome_iff_eq_none] at h
    change r' ∈ t.rows ++ [r] ↔ _
    simp [h, mem_rows]

end Table

end Powehi.Semantics
