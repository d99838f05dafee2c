import Mathlib.Data.List.Basic
import Mathlib.Logic.Function.Basic

/-!
# Labelled traces

A run of a labelled transition relation, and the two ways to reason about all runs from what
one step does: a property of state and history that every step carries on holds along every run,
and a relation every step carries over to a specification matches every run with a run of the
specification. A family of systems that share nothing runs as one system; what it does at one
component is a run of that component.
-/

namespace Powehi.Semantics

open Function

variable {σ τ ε : Type*} {step : σ → ε → σ → Prop}

/-- `Steps step s es t`: from `s`, steps with the labels `es` lead to `t`. -/
inductive Steps (step : σ → ε → σ → Prop) : σ → List ε → σ → Prop
  | nil {s : σ} : Steps step s [] s
  | cons {s t u : σ} {e : ε} {es : List ε} (head : step s e t) (tail : Steps step t es u) :
      Steps step s (e :: es) u

namespace Steps

variable {s t : σ} {es : List ε}

theorem snoc {u : σ} {e : ε} (h : Steps step s es t) (last : step t e u) :
    Steps step s (es ++ [e]) u := by
  induction h with
  | nil => exact .cons last .nil
  | cons head tail ih => exact .cons head (ih last)

theorem mono {step' : σ → ε → σ → Prop} (hstep : ∀ s e t, step s e t → step' s e t)
    (h : Steps step s es t) : Steps step' s es t := by
  induction h with
  | nil => exact .nil
  | cons head tail ih => exact .cons (hstep _ _ _ head) ih

theorem append {u : σ} {es' : List ε} (h : Steps step s es t) (h' : Steps step t es' u) :
    Steps step s (es ++ es') u := by
  induction h with
  | nil => exact h'
  | cons head tail ih => exact .cons head (ih h')

/-- A property that every step carries on holds along every run. -/
theorem invariant {I : σ → Prop} (preserved : ∀ s e t, step s e t → I s → I t)
    (h : Steps step s es t) (initial : I s) : I t := by
  induction h with
  | nil => exact initial
  | cons head tail ih => exact ih (preserved _ _ _ head initial)

/-- A property of the labels so far and the state holds along every run if every step with an
admissible label carries it on. -/
theorem history {I : List ε → σ → Prop} {P : ε → Prop}
    (preserved : ∀ done s e t, P e → step s e t → I done s → I (done ++ [e]) t)
    (h : Steps step s es t) (labels : ∀ e ∈ es, P e) {done : List ε} (initial : I done s) :
    I (done ++ es) t := by
  induction h generalizing done with
  | nil => simpa using initial
  | @cons s t u e es head tail ih =>
    have hnext := preserved _ _ _ _ (labels e List.mem_cons_self) head initial
    have hrest := ih (fun e he => labels e (List.mem_cons_of_mem _ he)) hnext
    simpa using hrest

/-- Forward simulation: if every step can be matched, so can every run. -/
theorem simulation {R : σ → τ → Prop} {spec : τ → ε → τ → Prop} {P : ε → Prop}
    (matched : ∀ s e t m, P e → step s e t → R s m → ∃ m', spec m e m' ∧ R t m')
    (h : Steps step s es t) (labels : ∀ e ∈ es, P e) {m : τ} (initial : R s m) :
    ∃ m', Steps spec m es m' ∧ R t m' := by
  induction h generalizing m with
  | nil => exact ⟨m, .nil, initial⟩
  | cons head tail ih =>
    obtain ⟨m₁, hspec, hR⟩ := matched _ _ _ m (labels _ List.mem_cons_self) head initial
    obtain ⟨m₂, hspecs, hR'⟩ := ih (fun e he => labels e (List.mem_cons_of_mem _ he)) hR
    exact ⟨m₂, .cons hspec hspecs, hR'⟩

end Steps

/-! ### Computed runs -/

section Play

variable {next? : σ → ε → Option σ} {test : σ → ε → σ → Bool} {s : σ} {es : List ε}

/-- Follow the labels, as long as each step is possible and passes the test. -/
def playIf (next? : σ → ε → Option σ) (test : σ → ε → σ → Bool) : σ → List ε → Option σ
  | s, [] => some s
  | s, e :: es =>
    match next? s e with
    | some t => if test s e t then playIf next? test t es else none
    | none => none

/-- A run and a property of its end, both computed. -/
theorem exists_steps_of_playIf {P : σ → Prop} [DecidablePred P]
    (sound : ∀ s e t, next? s e = some t → test s e t = true → step s e t)
    (h : (playIf next? test s es).any (fun t => decide (P t)) = true) :
    ∃ t, Steps step s es t ∧ P t := by
  induction es generalizing s with
  | nil => exact ⟨s, .nil, of_decide_eq_true h⟩
  | cons e es ih =>
    rw [playIf] at h
    split at h
    · next t ht =>
      split at h
      · next htest =>
        obtain ⟨u, hrest, hgoal⟩ := ih h
        exact ⟨u, .cons (sound s e t ht htest) hrest, hgoal⟩
      · cases h
    · cases h

end Play

/-! ### Families -/

section Family

variable {κ : Type*} [DecidableEq κ] {step : κ → σ → ε → σ → Prop} {s t : κ → σ}

/-- One component takes a step, the others stay where they are. -/
def ComponentStep (step : κ → σ → ε → σ → Prop) (s : κ → σ) (e : κ × ε) (t : κ → σ) : Prop :=
  ∃ u, step e.1 (s e.1) e.2 u ∧ t = Function.update s e.1 u

/-- The labels of the steps one component takes. -/
def labelsOf (k : κ) (es : List (κ × ε)) : List ε :=
  es.filterMap fun e => if e.1 = k then some e.2 else none

theorem mem_labelsOf {k : κ} {es : List (κ × ε)} {e : ε} : e ∈ labelsOf k es ↔ (k, e) ∈ es := by
  unfold labelsOf
  rw [List.mem_filterMap]
  constructor
  · rintro ⟨⟨k', e'⟩, hmem, h⟩
    split at h
    · next heq =>
      obtain rfl : k' = k := heq
      obtain rfl : e' = e := Option.some.inj h
      exact hmem
    · cases h
  · exact fun hmem => ⟨(k, e), hmem, if_pos rfl⟩

/-- What a family does at one component is a run of that component. -/
theorem Steps.component {es : List (κ × ε)} (h : Steps (ComponentStep step) s es t) (k : κ) :
    Steps (step k) (s k) (labelsOf k es) (t k) := by
  induction h with
  | nil => exact .nil
  | @cons s t u e es head tail ih =>
    obtain ⟨v, hv, rfl⟩ := head
    by_cases hk : e.1 = k
    · subst hk
      have hlabels : labelsOf e.1 (e :: es) = e.2 :: labelsOf e.1 es := by simp [labelsOf]
      rw [update_self] at ih
      rw [hlabels]
      exact .cons hv ih
    · have hlabels : labelsOf k (e :: es) = labelsOf k es := by simp [labelsOf, hk]
      rw [update_of_ne (Ne.symm hk)] at ih
      rw [hlabels]
      exact ih

/-- A run of one component is a run of the family. -/
theorem Steps.ofComponent {k : κ} {es : List ε} {v : σ} (h : Steps (step k) (s k) es v) :
    Steps (ComponentStep step) s (es.map (k, ·)) (update s k v) := by
  generalize hu : s k = u at h
  induction h generalizing s with
  | nil =>
    rw [← hu, update_eq_self]
    exact .nil
  | @cons u t v e es head tail ih =>
    have hrest := ih (s := update s k t) (update_self k t s)
    rw [update_idem] at hrest
    exact .cons ⟨t, hu ▸ head, rfl⟩ hrest

end Family

end Powehi.Semantics
