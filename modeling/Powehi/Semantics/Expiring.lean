import Mathlib.Data.Nat.Notation
import Mathlib.Logic.Basic

/-!
# Expiring maps

A key-value store whose entries can have a deadline. An entry is seen as long as the clock is
before its deadline; from then on the key is as good as deleted. A value can be a set of members,
which is created with its first member and removed with its last one.
-/

namespace Powehi.Semantics

open Option

/-- A value and the time from which on it is not seen any more. -/
structure Timed (β : Type) where
  value : β
  deadline : Option ℕ

def Timed.live {β : Type} (now : ℕ) (e : Timed β) : Bool :=
  match e.deadline with
  | none => true
  | some t => now < t

theorem Timed.live_of_le {β : Type} {e : Timed β} {now later : ℕ} (hle : now ≤ later)
    (h : e.live later = true) : e.live now = true := by
  unfold live at *
  cases he : e.deadline with
  | none => rfl
  | some t =>
    simp only [he, decide_eq_true_eq] at h ⊢
    exact Nat.lt_of_le_of_lt hle h

/-- Entries by key. -/
def Expiring (κ β : Type) := κ → Option (Timed β)

namespace Expiring

variable {κ β μ : Type}

instance : EmptyCollection (Expiring κ β) := ⟨fun _ => none⟩

/-- The entry that is seen at a key. -/
def lookup (m : Expiring κ β) (now : ℕ) (k : κ) : Option (Timed β) := (m k).filter (Timed.live now)

def get? (m : Expiring κ β) (now : ℕ) (k : κ) : Option β := (m.lookup now k).map Timed.value

variable [DecidableEq κ]

def set (m : Expiring κ β) (k : κ) (v : β) (deadline : Option ℕ) : Expiring κ β :=
  fun k' => if k' = k then some ⟨v, deadline⟩ else m k'

def delete (m : Expiring κ β) (k : κ) : Expiring κ β := fun k' => if k' = k then none else m k'

section Values

variable {m : Expiring κ β} {k k' : κ} {v : β} {now later : ℕ} {deadline : Option ℕ}

theorem get?_set_ne (h : k' ≠ k) : (m.set k v deadline).get? now k' = m.get? now k' := by
  simp [get?, lookup, set, h]

theorem get?_set_self (h : ∀ t, deadline = some t → now < t) :
    (m.set k v deadline).get? now k = some v := by
  have hlive : Timed.live now (⟨v, deadline⟩ : Timed β) = true := by
    cases deadline with
    | none => rfl
    | some t => exact decide_eq_true (h t rfl)
  simp [get?, lookup, set, filter_some, hlive]

theorem eq_of_get?_set {v' : β} (h : (m.set k v deadline).get? now k = some v') : v' = v := by
  unfold get? lookup set at h
  simp only [if_true, filter_some, map_eq_some_iff] at h
  obtain ⟨e, he, rfl⟩ := h
  split at he
  · obtain rfl := some.inj he
    rfl
  · cases he

theorem get?_delete_ne (h : k' ≠ k) : (m.delete k).get? now k' = m.get? now k' := by
  simp [get?, lookup, delete, h]

@[simp] theorem get?_delete_self : (m.delete k).get? now k = none := by
  simp [get?, lookup, delete]

omit [DecidableEq κ] in
/-- With time, entries only disappear. -/
theorem get?_of_le (hle : now ≤ later) (h : m.get? later k = some v) : m.get? now k = some v := by
  unfold get? lookup at *
  cases hk : m k with
  | none => simp [hk] at h
  | some e =>
    simp only [hk, filter_some, map_eq_some_iff] at h ⊢
    obtain ⟨e', he', rfl⟩ := h
    split at he'
    · next hlive =>
      obtain rfl := some.inj he'
      exact ⟨e, by rw [if_pos (Timed.live_of_le hle hlive)], rfl⟩
    · cases he'

end Values

section Sets

variable [DecidableEq μ]

/-- The members of the set at a key; a missing key is the empty set. -/
def members (m : Expiring κ (List μ)) (now : ℕ) (k : κ) : List μ := (m.get? now k).getD []

/-- Add a member. An existing set keeps its deadline, a new one has none. -/
def add (m : Expiring κ (List μ)) (now : ℕ) (k : κ) (x : μ) : Expiring κ (List μ) :=
  match m.lookup now k with
  | none => m.set k [x] none
  | some e => m.set k (if x ∈ e.value then e.value else e.value ++ [x]) e.deadline

/-- Remove a member, and the set with its last one. -/
def remove (m : Expiring κ (List μ)) (now : ℕ) (k : κ) (x : μ) : Expiring κ (List μ) :=
  match m.lookup now k with
  | none => m
  | some e =>
    if (e.value.filter (· ≠ x)).isEmpty then m.delete k
    else m.set k (e.value.filter (· ≠ x)) e.deadline

omit [DecidableEq μ] in
/-- Give the set at a key a deadline. A missing key stays missing. -/
def expire (m : Expiring κ (List μ)) (now : ℕ) (k : κ) (deadline : ℕ) : Expiring κ (List μ) :=
  match m.lookup now k with
  | none => m
  | some e => m.set k e.value (some deadline)

variable {m : Expiring κ (List μ)} {k k' : κ} {x y : μ} {now later : ℕ}

omit [DecidableEq κ] [DecidableEq μ] in
theorem deadline_of_lookup {e : Timed (List μ)} (h : m.lookup now k = some e) :
    ∀ t, e.deadline = some t → now < t := by
  intro t ht
  have hlive : e.live now = true := (filter_eq_some_iff.mp h).2
  simpa [Timed.live, ht] using hlive

omit [DecidableEq κ] [DecidableEq μ] in
theorem members_of_lookup {e : Timed (List μ)} (h : m.lookup now k = some e) :
    m.members now k = e.value := by
  simp [members, get?, h]

omit [DecidableEq κ] [DecidableEq μ] in
theorem members_of_lookup_none (h : m.lookup now k = none) : m.members now k = [] := by
  simp [members, get?, h]

omit [DecidableEq μ] in
theorem members_set_ne {xs : List μ} {deadline : Option ℕ} (h : k' ≠ k) :
    (m.set k xs deadline).members now k' = m.members now k' := by
  rw [members, get?_set_ne h, members]

omit [DecidableEq μ] in
theorem members_set_self {xs : List μ} {deadline : Option ℕ}
    (h : ∀ t, deadline = some t → now < t) : (m.set k xs deadline).members now k = xs := by
  rw [members, get?_set_self h, getD_some]

omit [DecidableEq μ] in
theorem members_delete_ne (h : k' ≠ k) : (m.delete k).members now k' = m.members now k' := by
  rw [members, get?_delete_ne h, members]

omit [DecidableEq κ] [DecidableEq μ] in
theorem members_of_le (hle : now ≤ later) (h : x ∈ m.members later k) : x ∈ m.members now k := by
  unfold members at *
  cases hget : m.get? later k with
  | none => simp [hget] at h
  | some xs =>
    rw [get?_of_le hle hget]
    rwa [hget] at h

theorem members_add_ne (h : k' ≠ k) : (m.add now k x).members now k' = m.members now k' := by
  unfold add
  split
  · exact members_set_ne h
  · exact members_set_ne h

theorem members_remove_ne (h : k' ≠ k) : (m.remove now k x).members now k' = m.members now k' := by
  unfold remove
  split
  · rfl
  · split
    · exact members_delete_ne h
    · exact members_set_ne h

theorem mem_members_add : y ∈ (m.add now k x).members now k ↔ y = x ∨ y ∈ m.members now k := by
  unfold add
  cases he : m.lookup now k with
  | none =>
    rw [members_set_self (by simp), members_of_lookup_none he]
    simp
  | some e =>
    rw [members_set_self (deadline_of_lookup he), members_of_lookup he]
    split
    · next hx => grind
    · grind

omit [DecidableEq μ] in
/-- A deadline in the future hides nothing. -/
theorem members_expire {deadline : ℕ} (h : now < deadline) :
    (m.expire now k deadline).members now k' = m.members now k' := by
  unfold expire
  cases he : m.lookup now k with
  | none => rfl
  | some e =>
    by_cases hk : k' = k
    · subst hk
      rw [members_set_self (by simpa using h), members_of_lookup he]
    · exact members_set_ne hk

end Sets

/-! ### Missing entries -/

omit [DecidableEq κ] in
/-- The map has the entries of the other one, except that some are missing. -/
def Sub (m' m : Expiring κ β) : Prop := ∀ k, m' k = m k ∨ m' k = none

namespace Sub

variable {m m' m'' : Expiring κ β} {k : κ} {v : β} {now : ℕ}

omit [DecidableEq κ] in
theorem refl (m : Expiring κ β) : m.Sub m := fun _ => .inl rfl

omit [DecidableEq κ] in
theorem trans (h : m''.Sub m') (h' : m'.Sub m) : m''.Sub m := by
  intro k
  rcases h k with hk | hk
  · rw [hk]
    exact h' k
  · exact .inr hk

theorem delete (m : Expiring κ β) (k : κ) : (m.delete k).Sub m := by
  intro k'
  by_cases hk : k' = k
  · exact .inr (if_pos hk)
  · exact .inl (if_neg hk)

omit [DecidableEq κ] in
/-- An entry that is not missing is seen for as long as before. -/
theorem get?_eq (h : m'.Sub m) (hk : m'.get? now k = some v) (later : ℕ) :
    m'.get? later k = m.get? later k := by
  rcases h k with hsame | hnone
  · rw [get?, get?, lookup, lookup, hsame]
  · simp [get?, lookup, hnone] at hk

omit [DecidableEq κ] in
theorem members_eq {μ : Type} {x : μ} {m m' : Expiring κ (List μ)} (h : m'.Sub m)
    (hx : x ∈ m'.members now k) (later : ℕ) : m'.members later k = m.members later k := by
  cases hk : m'.get? now k with
  | none => simp [members, hk] at hx
  | some xs => rw [members, members, h.get?_eq hk]

end Sub

end Expiring

end Powehi.Semantics
