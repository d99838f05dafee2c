import Mathlib.Data.List.Basic

/-!
# Computations that can fail

Inversion of sequences and loops in `Except`: what succeeded as a whole succeeded in each part.
-/

namespace Powehi.Semantics

variable {ε α β : Type}

/-- A sequence succeeds if both parts do. -/
theorem bind_eq_ok_iff {x : Except ε α} {f : α → Except ε β} {b : β} :
    (x >>= f) = .ok b ↔ ∃ a, x = .ok a ∧ f a = .ok b := by
  constructor
  · intro h
    cases x with
    | error e => cases h
    | ok a => exact ⟨a, rfl, h⟩
  · rintro ⟨a, rfl, h⟩
    exact h

theorem bind_eq_ok {x : Except ε α} {f : α → Except ε β} {b : β}
    (h : (x >>= f) = .ok b) : ∃ a, x = .ok a ∧ f a = .ok b :=
  bind_eq_ok_iff.1 h

/-- The state that a success leaves. -/
theorem state_of_ok {a b : α} {s t : β} (h : (.ok (a, s) : Except ε (α × β)) = .ok (b, t)) :
    s = t :=
  (Prod.mk.inj (Except.ok.inj h)).2

theorem eq_ok_of_toOption {x : Except ε β} {b : β} (h : x.toOption = some b) : x = .ok b := by
  cases x with
  | ok b' => exact congrArg Except.ok (Option.some.inj h)
  | error e => cases h

/-- A loop that succeeds succeeded up to its last turn, and in that. -/
theorem foldlM_concat_eq_ok {f : β → α → Except ε β} {l : List α} {a : α} {b c : β}
    (h : (l ++ [a]).foldlM f b = .ok c) : ∃ d, l.foldlM f b = .ok d ∧ f d a = .ok c := by
  rw [List.foldlM_append] at h
  obtain ⟨d, hd, hlast⟩ := bind_eq_ok h
  refine ⟨d, hd, ?_⟩
  obtain ⟨e, he, hnil⟩ := bind_eq_ok hlast
  cases hnil
  exact he

end Powehi.Semantics
