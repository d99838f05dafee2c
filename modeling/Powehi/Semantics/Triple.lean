import Powehi.Semantics.Program

/-!
# Weakest preconditions with a crash condition

`wp M A p Q C s` says: from `s`, whatever admissible choices (`A`) the environment makes,
every state at which `p` can be cut off satisfies `C`, and if `p` reaches its end, it ends
in a result and state related by `Q`. Programs are finite trees, so a program always
reaches its end unless it is cut off: `wp` is total correctness.
-/

namespace Powehi.Semantics.Program

open List

universe u

variable {Op : Type → Type u} {ε α β ι σ χ : Type}
variable {p : Program Op ε α} {xs : List ι} {f : ℕ → χ}
variable {M : Machine Op σ χ} {A : χ → Prop}

/-- Weakest precondition of a program for the postcondition `Q` and the crash condition `C`,
under environment choices that satisfy `A`. -/
def wp (M : Machine Op σ χ) (A : χ → Prop) :
    Program Op ε α → (Except ε α → σ → Prop) → (σ → Prop) → σ → Prop
  | .pure a, Q, C, s => C s ∧ Q (.ok a) s
  | .throw e, Q, C, s => C s ∧ Q (.error e) s
  | .op o next, Q, C, s =>
    C s ∧ ∀ c, A c → wp M A (next (M.exec o c s).1) Q C (M.exec o c s).2

/-- A postcondition for the first part of a sequence: success continues with `F`, failure is
judged by `Q` itself. -/
def andThen (F : α → σ → Prop) (Q : Except ε β → σ → Prop) : Except ε α → σ → Prop
  | .ok a, s => F a s
  | .error e, s => Q (.error e) s

@[simp] theorem andThen_ok (F : α → σ → Prop) (Q : Except ε β → σ → Prop) (a : α) (s : σ) :
    andThen F Q (.ok a) s = F a s := rfl

@[simp] theorem andThen_error (F : α → σ → Prop) (Q : Except ε β → σ → Prop) (e : ε) (s : σ) :
    andThen F Q (.error e) s = Q (.error e) s := rfl

section Rules

variable {Q Q' : Except ε α → σ → Prop} {C C' : σ → Prop} {s : σ}

@[simp] theorem wp_pure (a : α) :
    wp M A (.pure a : Program Op ε α) Q C s ↔ C s ∧ Q (.ok a) s := Iff.rfl

@[simp] theorem wp_throw (e : ε) :
    wp M A (.throw e : Program Op ε α) Q C s ↔ C s ∧ Q (.error e) s := Iff.rfl

/-- The state a program starts in is one a crash can leave behind. -/
theorem wp_crash (h : wp M A p Q C s) : C s := by
  cases p with
  | pure _ | throw _ | op _ _ => exact h.1

theorem wp_mono (hQ : ∀ r t, Q r t → Q' r t) (hC : ∀ t, C t → C' t) (h : wp M A p Q C s) :
    wp M A p Q' C' s := by
  induction p generalizing s with
  | pure _ | throw _ => exact ⟨hC _ h.1, hQ _ _ h.2⟩
  | op o next ih => exact ⟨hC _ h.1, fun c hc => ih _ (h.2 c hc)⟩

/-- The crash condition holds of the final state as well. -/
theorem wp_final (h : wp M A p Q C s) : wp M A p (fun r t => C t ∧ Q r t) C s := by
  induction p generalizing s with
  | pure _ | throw _ => exact ⟨h.1, h⟩
  | op o next ih => exact ⟨h.1, fun c hc => ih _ (h.2 c hc)⟩

theorem wp_bind {f : α → Program Op ε β} {Q : Except ε β → σ → Prop} :
    wp M A (p >>= f) Q C s ↔ wp M A p (andThen (fun a t => wp M A (f a) Q C t) Q) C s := by
  induction p generalizing s with
  | pure a => exact ⟨fun h => ⟨wp_crash h, h⟩, fun h => h.2⟩
  | throw e => exact Iff.rfl
  | op o next ih =>
    exact and_congr_right fun _ => forall₂_congr fun c _ => ih _

/-- The next step of a sequence whose first part succeeded. -/
theorem andThen_bind {γ : Type} {f : γ → Program Op ε α} {k : γ → α → Program Op ε β}
    {Q : Except ε β → σ → Prop} {a : γ} :
    andThen (fun a t => wp M A (f a >>= k a) Q C t) Q (.ok a) s ↔
      wp M A (f a) (andThen (fun b t => wp M A (k a b) Q C t) Q) C s := wp_bind

/-- The first part of a sequence by what is known about it. -/
theorem wp_then {F : α → σ → Prop} {Q : Except ε β → σ → Prop} (h : wp M A p Q' C s)
    (ok : ∀ a t, Q' (.ok a) t → F a t) (error : ∀ e t, Q' (.error e) t → Q (.error e) t) :
    wp M A p (andThen F Q) C s := by
  refine wp_mono (fun r t hr => ?_) (fun _ ht => ht) h
  cases r with
  | ok a => exact ok a t hr
  | error e => exact error e t hr

theorem wp_attempt {Q : Except ε (Except ε α) → σ → Prop} :
    wp M A p.attempt Q C s ↔ wp M A p (fun r t => Q (.ok r) t) C s := by
  induction p generalizing s with
  | pure _ | throw _ => exact Iff.rfl
  | op o next ih =>
    exact and_congr_right fun _ => forall₂_congr fun c _ => ih _

theorem wp_handle {δ : Type} {k : Except ε α → Program Op δ β} {Q : Except δ β → σ → Prop} :
    wp M A (p.handle k) Q C s ↔ wp M A p (fun r t => wp M A (k r) Q C t) C s := by
  induction p generalizing s with
  | pure _ | throw _ => exact ⟨fun h => ⟨wp_crash h, h⟩, fun h => h.2⟩
  | op o next ih =>
    exact and_congr_right fun _ => forall₂_congr fun c _ => ih _

theorem wp_ofExcept {r : Except ε α} :
    wp M A (ofExcept r : Program Op ε α) Q C s ↔ C s ∧ Q r s := by
  cases r <;> exact Iff.rfl

theorem wp_perform (o : Op α) :
    wp M A (perform o : Program Op ε α) Q C s ↔
      C s ∧ ∀ c, A c → C (M.exec o c s).2 ∧ Q (.ok (M.exec o c s).1) (M.exec o c s).2 := Iff.rfl

theorem wp_request (o : Op (Except ε α)) :
    wp M A (request o : Program Op ε α) Q C s ↔
      C s ∧ ∀ c, A c → C (M.exec o c s).2 ∧ Q (M.exec o c s).1 (M.exec o c s).2 := by
  exact and_congr_right fun _ => forall₂_congr fun c _ => wp_ofExcept

/-- Loop rule: `I xs` holds whenever the items `xs` are still to be done. -/
theorem wp_forM {body : ι → Program Op ε Unit} {Q : Except ε Unit → σ → Prop}
    (I : List ι → σ → Prop)
    (step : ∀ x rest t, I (x :: rest) t → wp M A (body x) (andThen (fun _ => I rest) Q) C t)
    (done : ∀ t, I [] t → C t ∧ Q (.ok ()) t) (h : I xs s) : wp M A (xs.forM body) Q C s := by
  induction xs generalizing s with
  | nil => exact done s h
  | cons x rest ih =>
    change wp M A (body x >>= fun _ => rest.forM body) Q C s
    rw [wp_bind]
    exact wp_then (step x rest s h) (fun _ _ => ih) fun _ _ he => he

/-- Loop rule with an accumulator: `I a xs` holds when `a` has been accumulated and the items
`xs` are still to be done. -/
theorem wp_foldlM {body : α → ι → Program Op ε α} (I : α → List ι → σ → Prop) {a : α}
    (step : ∀ a x rest t, I a (x :: rest) t → wp M A (body a x) (andThen (fun b => I b rest) Q) C t)
    (done : ∀ a t, I a [] t → C t ∧ Q (.ok a) t) (h : I a xs s) :
    wp M A (xs.foldlM body a) Q C s := by
  induction xs generalizing s a with
  | nil => exact done a s h
  | cons x rest ih =>
    rw [foldlM_cons, wp_bind]
    exact wp_then (step a x rest s h) (fun _ _ => ih) fun _ _ he => he

/-- Loop rule for a loop that collects results: `I done xs` holds when the items `xs` are still
to be done and `done` has been collected. -/
theorem wp_mapM {body : ι → Program Op ε β} {Q : Except ε (List β) → σ → Prop}
    (I : List β → List ι → σ → Prop) (step : ∀ ys x rest t, I ys (x :: rest) t →
      wp M A (body x) (andThen (fun y => I (ys ++ [y]) rest) Q) C t)
    (done : ∀ ys t, I ys [] t → C t ∧ Q (.ok ys) t) (h : I [] xs s) :
    wp M A (xs.mapM body) Q C s := by
  have hacc : ∀ (xs : List ι) (ys : List β) (s : σ), I ys xs s →
      wp M A (xs.mapM body >>= fun zs => .pure (ys ++ zs)) Q C s := by
    intro xs
    induction xs with
    | nil =>
      intro ys s h
      change C s ∧ Q (.ok (ys ++ [])) s
      rw [append_nil]
      exact done ys s h
    | cons x rest ih =>
      intro ys s h
      rw [mapM_cons, bind_assoc, wp_bind]
      refine wp_then (step ys x rest s h) (fun y t hr => ?_) fun _ _ he => he
      have hrest := ih (ys ++ [y]) t hr
      simp only [bind_assoc, pure_bind, append_assoc, singleton_append] at hrest ⊢
      exact hrest
  have := hacc xs [] s h
  simp only [nil_append] at this
  rwa [bind_pure'] at this

end Rules

/-! ### What a weakest precondition promises about runs -/

section Adequacy

variable {Q : Except ε α → σ → Prop} {C : σ → Prop}

theorem wp_run {s : σ} (h : wp M A p Q C s) (hf : ∀ n, A (f n)) :
    Q (p.run M f s).1 (p.run M f s).2 := by
  induction p generalizing f s with
  | pure _ | throw _ => exact h.2
  | op o next ih => exact ih _ (h.2 _ (hf 0)) fun n => hf (n + 1)

/-- The same, for a run whose outcome is known. -/
theorem wp_outcome {s t : σ} {r : Except ε α} (h : wp M A p Q C s) (hf : ∀ n, A (f n))
    (hrun : p.run M f s = (r, t)) : Q r t := by
  have := wp_run h hf
  rwa [hrun] at this

theorem wp_crashStates {s : σ} (h : wp M A p Q C s) (hf : ∀ n, A (f n)) :
    ∀ t ∈ p.crashStates M f s, C t := by
  induction p generalizing f s with
  | pure _ | throw _ => simpa [crashStates] using h.1
  | op o next ih =>
    simp only [crashStates, mem_cons, forall_eq_or_imp]
    exact ⟨h.1, ih _ (h.2 _ (hf 0)) fun n => hf (n + 1)⟩

end Adequacy

end Powehi.Semantics.Program
