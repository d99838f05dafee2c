import Powehi.Semantics.Trace

/-!
# Programs over an operation signature

A program is a tree of operations: each node performs one operation and continues
with its answer, each leaf returns a value or fails. Nothing in the tree says what an
operation does; a `Machine` gives it a meaning on a state type, once the environment
has made its choice (whether a device call fails, what a random generator returns).

The tree makes the points *between* two operations explicit. They are where a crash
can stop the program, and where another program may run in between.
-/

namespace Powehi.Semantics

universe u v

/-- A program over the operations `Op` that returns `α` or fails with `ε`. -/
inductive Program (Op : Type → Type u) (ε α : Type) : Type (max 1 u)
  | pure (a : α)
  | throw (e : ε)
  | op {β : Type} (o : Op β) (next : β → Program Op ε α)

/-- What one operation does to a state `σ` once the environment has chosen `χ`. -/
structure Machine (Op : Type → Type u) (σ χ : Type) where
  exec : {β : Type} → Op β → χ → σ → β × σ

namespace Program

variable {Op : Type → Type u} {ε α β γ σ χ : Type}

/-- Continue with the value a program returns; a failure is passed on. -/
protected def bind : Program Op ε α → (α → Program Op ε β) → Program Op ε β
  | .pure a, f => f a
  | .throw e, _ => .throw e
  | .op o next, f => .op o fun b => (next b).bind f

instance : Monad (Program Op ε) where
  pure := Program.pure
  bind := Program.bind

@[simp] theorem pure_eq (a : α) : (Pure.pure a : Program Op ε α) = .pure a := rfl

@[simp] theorem pure_bind' (a : α) (f : α → Program Op ε β) : (pure a >>= f) = f a := rfl

@[simp] theorem throw_bind (e : ε) (f : α → Program Op ε β) :
    (throw e >>= f) = .throw e := rfl

@[simp] theorem op_bind {ω : Type} (o : Op ω) (next : ω → Program Op ε α) (f : α → Program Op ε β) :
    (op o next >>= f) = .op o fun b => next b >>= f := rfl

theorem bind_pure' (p : Program Op ε α) : (p >>= pure) = p := by
  induction p with
  | pure _ | throw _ => rfl
  | op o next ih =>
    rw [op_bind]
    congr 1
    funext b
    exact ih b

theorem bind_assoc' (p : Program Op ε α) (f : α → Program Op ε β) (g : β → Program Op ε γ) :
    (p >>= f >>= g) = p >>= fun a => f a >>= g := by
  induction p with
  | pure _ | throw _ => rfl
  | op o next ih =>
    simp only [op_bind]
    congr 1
    funext b
    exact ih b

instance : LawfulMonad (Program Op ε) := LawfulMonad.mk' _ bind_pure'
  (fun _ _ => rfl) bind_assoc'

/-- Perform one operation and return its answer. -/
def perform (o : Op α) : Program Op ε α := .op o .pure

/-- Return a computed result, or fail with its error. -/
def ofExcept : Except ε α → Program Op ε α
  | .ok a => .pure a
  | .error e => .throw e

@[simp] theorem ofExcept_ok (a : α) : (ofExcept (.ok a) : Program Op ε α) = .pure a := rfl

@[simp] theorem ofExcept_error (e : ε) : (ofExcept (.error e) : Program Op ε α) = .throw e := rfl

/-- Perform a fallible operation; its error becomes the program's failure. -/
def request (o : Op (Except ε α)) : Program Op ε α := .op o ofExcept

/-- The same program over another signature, with its results renamed. -/
def embed {Op' : Type → Type v} {ε' : Type} (f : {ω : Type} → Op ω → Op' ω) (g : ε → ε')
    (h : α → β) : Program Op ε α → Program Op' ε' β
  | .pure a => .pure (h a)
  | .throw e => .throw (g e)
  | .op o next => .op (f o) fun b => (next b).embed f g h

/-- Run a program to its end and return how it ended. -/
def attempt : Program Op ε α → Program Op ε (Except ε α)
  | .pure a => .pure (.ok a)
  | .throw e => .pure (.error e)
  | .op o next => .op o fun b => (next b).attempt

/-- Run a program to its end and continue with how it ended. The continuation may have failures
of another type. -/
def handle {δ : Type} : Program Op ε α → (Except ε α → Program Op δ β) → Program Op δ β
  | .pure a, k => k (.ok a)
  | .throw e, k => k (.error e)
  | .op o next, k => .op o fun b => (next b).handle k

/-- Rename the failures of a program. -/
def mapError {δ : Type} (f : ε → δ) (p : Program Op ε α) : Program Op δ α :=
  p.handle fun r => ofExcept (r.mapError f)

/-! ### Execution -/

variable (M : Machine Op σ χ)

/-- The result and final state of a run along the stream `f` of environment choices. -/
def run : Program Op ε α → (ℕ → χ) → σ → Except ε α × σ
  | .pure a, _, s => (.ok a, s)
  | .throw e, _, s => (.error e, s)
  | .op o next, f, s =>
    let (b, t) := M.exec o (f 0) s
    (next b).run (fun n => f (n + 1)) t

/-- Every state a crash can leave behind: the state before each operation, in the order of
the run, and the final state. -/
def crashStates : Program Op ε α → (ℕ → χ) → σ → List σ
  | .pure _, _, s => [s]
  | .throw _, _, s => [s]
  | .op o next, f, s =>
    let (b, t) := M.exec o (f 0) s
    s :: (next b).crashStates (fun n => f (n + 1)) t

/-- A crash before the first operation leaves the state as it was. -/
theorem crashStates_zero (p : Program Op ε α) (f : ℕ → χ) (s : σ) :
    (p.crashStates M f s)[0]? = some s := by
  cases p <;> rfl

/-- The final state is one a crash can leave behind. -/
theorem run_mem_crashStates (p : Program Op ε α) (f : ℕ → χ) (s : σ) :
    (p.run M f s).2 ∈ p.crashStates M f s := by
  induction p generalizing f s with
  | pure _ | throw _ => exact List.mem_singleton_self s
  | op o next ih => exact List.mem_cons_of_mem _ (ih _ _ _)

/-- Two programs in a row, cut off in the first one, or in the second one after the first one
returned its argument. -/
def CutOff (p : Program Op ε α) (k : α → Program Op ε β) (s t : σ) : Option α → Prop
  | none => ∃ f, t ∈ p.crashStates M f s
  | some a => ∃ f u f', p.run M f s = (.ok a, u) ∧ t ∈ (k a).crashStates M f' u

theorem exists_cutOff {p : Program Op ε α} {k : α → Program Op ε β} {f : ℕ → χ} {s t : σ}
    (h : t ∈ (p >>= k).crashStates M f s) : ∃ a, CutOff M p k s t a := by
  suffices t ∈ p.crashStates M f s ∨
      ∃ a u f', p.run M f s = (.ok a, u) ∧ t ∈ (k a).crashStates M f' u by
    obtain hfirst | ⟨a, u, f', hrun, ht⟩ := this
    · exact ⟨none, f, hfirst⟩
    · exact ⟨some a, f, u, f', hrun, ht⟩
  induction p generalizing f s with
  | pure a => exact .inr ⟨a, s, f, rfl, h⟩
  | throw e => exact .inl h
  | op o next ih =>
    obtain rfl | h := List.mem_cons.mp h
    · exact .inl List.mem_cons_self
    · exact (ih _ h).imp_left (List.mem_cons_of_mem _)

/-- A loop that is cut off is a run of its passes, each of them cut off somewhere. -/
theorem exists_steps_foldlM {step : β → α → Program Op ε β} {l : List α} {b : β} {f : ℕ → χ}
    {s t : σ} (h : t ∈ (l.foldlM step b).crashStates M f s) :
    ∃ l', Steps (fun u a v => ∃ b f, v ∈ (step b a).crashStates M f u) s l' t := by
  induction l generalizing b f s with
  | nil =>
    obtain rfl := List.mem_singleton.mp h
    exact ⟨[], .nil⟩
  | cons a l ih =>
    rw [List.foldlM_cons] at h
    obtain ⟨_ | b', hcut⟩ := exists_cutOff M h
    · obtain ⟨f, ht⟩ := hcut
      exact ⟨[a], .cons ⟨b, f, ht⟩ .nil⟩
    · obtain ⟨f, u, f', hrun, ht⟩ := hcut
      obtain ⟨l', hsteps⟩ := ih ht
      have hu := run_mem_crashStates M (step b a) f s
      rw [hrun] at hu
      exact ⟨a :: l', .cons ⟨b, f, hu⟩ hsteps⟩

/-- A run that fails in its first part ends there. -/
theorem run_bind_error {p : Program Op ε α} {g : α → Program Op ε β} {f : ℕ → χ} {s t : σ} {e : ε}
    (h : p.run M f s = (.error e, t)) : (p >>= g).run M f s = (.error e, t) := by
  induction p generalizing f s with
  | pure a => cases h
  | throw e' =>
    cases h
    rfl
  | op o next ih => exact ih _ h

end Program

end Powehi.Semantics
