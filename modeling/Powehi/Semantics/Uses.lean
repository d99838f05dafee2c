import Powehi.Semantics.Program

/-!
# What a program can do at all

Two properties that are read off a program's tree without looking at any state: which operations it
can come to perform, and how it can end.
-/

namespace Powehi.Semantics.Program

universe u

variable {Op : Type → Type u} {ε α β ι : Type}
variable {p : Program Op ε α}

/-! ### The operations a program uses -/

/-- Every operation the program can come to perform satisfies `K`. -/
def Uses (K : {ω : Type} → Op ω → Prop) : Program Op ε α → Prop
  | .pure _ => True
  | .throw _ => True
  | .op o next => K o ∧ ∀ b, (next b).Uses K

section Uses

variable {K K' : {ω : Type} → Op ω → Prop}

theorem uses_bind {p : Program Op ε β} {f : β → Program Op ε α}
    (hp : p.Uses K) (hf : ∀ b, (f b).Uses K) : (p >>= f).Uses K := by
  induction p with
  | pure b => exact hf b
  | throw e => exact trivial
  | op o next ih => exact ⟨hp.1, fun b => ih b (hp.2 b)⟩

theorem uses_map {p : Program Op ε β} {f : β → α} (hp : p.Uses K) : (f <$> p).Uses K := by
  exact uses_bind hp fun _ => trivial

theorem uses_mono (hK : ∀ {ω : Type} (o : Op ω), K o → K' o) (hp : p.Uses K) : p.Uses K' := by
  induction p with
  | pure _ | throw _ => exact trivial
  | op o next ih => exact ⟨hK o hp.1, fun b => ih b (hp.2 b)⟩

theorem uses_forM {body : ι → Program Op ε Unit} (xs : List ι) (h : ∀ x ∈ xs, (body x).Uses K) :
    (xs.forM body).Uses K := by
  induction xs with
  | nil => exact trivial
  | cons x xs ih =>
    exact uses_bind (h x List.mem_cons_self) fun _ => ih fun y hy => h y (List.mem_cons_of_mem _ hy)

end Uses

/-! ### How a program can end -/

/-- Every way the program can end satisfies `R`. -/
def Ends (R : Except ε α → Prop) : Program Op ε α → Prop
  | .pure a => R (.ok a)
  | .throw e => R (.error e)
  | .op _ next => ∀ b, (next b).Ends R

section Ends

variable {R R' : Except ε α → Prop}

theorem ends_mono (hR : ∀ r, R r → R' r) (hp : p.Ends R) : p.Ends R' := by
  induction p with
  | pure _ | throw _ => exact hR _ hp
  | op o next ih => exact fun b => ih b (hp b)

theorem ends_of_forall (hR : ∀ r, R r) (p : Program Op ε α) : p.Ends R := by
  induction p with
  | pure _ | throw _ => exact hR _
  | op o next ih => exact fun b => ih b

/-- A sequence whose failures are all allowed ends as its second part does. -/
theorem ends_bind {p : Program Op ε β} {f : β → Program Op ε α} (hR : ∀ e, R (.error e))
    (hf : ∀ b, (f b).Ends R) : (p >>= f).Ends R := by
  induction p with
  | pure b => exact hf b
  | throw e => exact hR e
  | op o next ih => exact fun b => ih b

end Ends

end Powehi.Semantics.Program
