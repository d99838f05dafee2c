import Powehi.Semantics.Triple

/-!
# Programs with a commit point

Some programs have one operation that decides their outcome: a crash before it must look as if
the program had never run, a crash after it as if it had finished. `wpCommit M A p Q C G D s`
splits the crash condition there: every state up to the commit point satisfies `C`, the state
it leads to satisfies `G`, and from then on every state satisfies `D`.
-/

namespace Powehi.Semantics.Program

open List

universe u

variable {Op : Type → Type u} {ε α β σ χ : Type}
variable {M : Machine Op σ χ} {A : χ → Prop}

/-- Weakest precondition with a commit point: `C` before it, `G` right after it, `D` from then
on. A program may also end without committing. -/
def wpCommit (M : Machine Op σ χ) (A : χ → Prop) : Program Op ε α →
    (Except ε α → σ → Prop) → (C G D : σ → Prop) → σ → Prop
  | .pure a, Q, C, _, _, s => C s ∧ Q (.ok a) s
  | .throw e, Q, C, _, _, s => C s ∧ Q (.error e) s
  | .op o next, Q, C, G, D, s =>
    C s ∧ ∀ c, A c → wpCommit M A (next (M.exec o c s).1) Q C G D (M.exec o c s).2 ∨
      G (M.exec o c s).2 ∧ wp M A (next (M.exec o c s).1) Q D (M.exec o c s).2

variable {Q : Except ε α → σ → Prop} {C G D : σ → Prop} {s : σ}

/-- Work before the commit point. -/
theorem wpCommit_bind {p : Program Op ε α} {f : α → Program Op ε β} {Q : Except ε β → σ → Prop}
    (h : wp M A p (andThen (fun a t => wpCommit M A (f a) Q C G D t) Q) C s) :
    wpCommit M A (p >>= f) Q C G D s := by
  induction p generalizing s with
  | pure a => exact h.2
  | throw e => exact h
  | op o next ih =>
    exact ⟨h.1, fun c hc => .inl (ih _ (h.2 c hc))⟩

/-- Without regard to the commit point, every crash state satisfies one of the conditions. -/
theorem wp_of_wpCommit {p : Program Op ε α} (h : wpCommit M A p Q C G D s) :
    wp M A p Q (fun t => C t ∨ D t) s := by
  induction p generalizing s with
  | pure _ | throw _ => exact ⟨.inl h.1, h.2⟩
  | op o next ih =>
    refine ⟨.inl h.1, fun c hc => ?_⟩
    rcases h.2 c hc with hbefore | ⟨-, hafter⟩
    · exact ih _ hbefore
    · exact wp_mono (fun _ _ hr => hr) (fun _ ht => .inr ht) hafter

/-- A state up to an index is among those up to that index. -/
theorem mem_take_succ {l : List σ} {i j : ℕ} {t : σ} (h : l[j]? = some t) (hj : j ≤ i) :
    t ∈ l.take (i + 1) := by
  apply mem_of_getElem? (i := j)
  rwa [List.getElem?_take, if_pos (Nat.lt_succ_of_le hj)]

/-- A crash state either comes before the commit point, with every state so far satisfying `C`,
or after it. -/
theorem wpCommit_crashStates {p : Program Op ε α} {f : ℕ → χ} (h : wpCommit M A p Q C G D s)
    (hf : ∀ n, A (f n)) {i : ℕ} {t : σ} (ht : (p.crashStates M f s)[i]? = some t) :
    (∀ u ∈ (p.crashStates M f s).take (i + 1), C u) ∨
      (∃ u ∈ (p.crashStates M f s).take (i + 1), G u) ∧ D t := by
  induction p generalizing f s i with
  | pure a =>
    refine .inl fun u hu => ?_
    obtain rfl : u = s := by simpa [crashStates] using mem_of_mem_take hu
    exact h.1
  | throw e =>
    refine .inl fun u hu => ?_
    obtain rfl : u = s := by simpa [crashStates] using mem_of_mem_take hu
    exact h.1
  | op o next ih =>
    simp only [crashStates, take_succ_cons] at ht ⊢
    cases i with
    | zero =>
      refine .inl fun u hu => ?_
      obtain rfl : u = s := by simpa using hu
      exact h.1
    | succ i =>
      rcases h.2 (f 0) (hf 0) with hbefore | ⟨hG, hafter⟩
      · rcases ih _ hbefore (fun n => hf (n + 1)) ht with hall | ⟨⟨u, hu, hG⟩, hD⟩
        · refine .inl fun u hu => ?_
          rcases mem_cons.mp hu with rfl | hu
          · exact h.1
          · exact hall u hu
        · exact .inr ⟨⟨u, mem_cons_of_mem _ hu, hG⟩, hD⟩
      · -- this operation was the commit point; its state is the first of the rest
        refine .inr ⟨⟨_, mem_cons_of_mem _ ?_, hG⟩, ?_⟩
        · exact mem_take_succ (crashStates_zero ..) (Nat.zero_le i)
        · exact wp_crashStates hafter (fun n => hf (n + 1)) t (mem_of_getElem? ht)

end Powehi.Semantics.Program
