import Powehi.Semantics.Pool

/-!
# What is left of a program

Between two of its operations a call is known by what is left of its program. `Everywhere` says
something of every node of a program: of an operation together with what follows on its answer.
`Owes` says what a program is still bound to do: on every way the environment allows, it performs
one of the given operations, or ends as told.
-/

namespace Powehi.Semantics

universe u

variable {ι : Type} {Op : Type → Type u} {ε α β σ χ : Type}
variable {f : β → Program Op ε α}

namespace Program

/-- Every operation of the program, with what follows on its answer, satisfies `N`. -/
def Everywhere (N : {ω : Type} → Op ω → (ω → Program Op ε α) → Prop) : Program Op ε α → Prop
  | .pure _ => True
  | .throw _ => True
  | .op o next => N o next ∧ ∀ b, (next b).Everywhere N

section Everywhere

variable {N : {ω : Type} → Op ω → (ω → Program Op ε α) → Prop}

theorem everywhere_bind {p : Program Op ε β}
    (hp : p.Everywhere fun o next => N o fun b => next b >>= f) (hf : ∀ b, (f b).Everywhere N) :
    (p >>= f).Everywhere N := by
  induction p with
  | pure b => exact hf b
  | throw e => exact trivial
  | op o next ih => exact ⟨hp.1, fun b => ih b (hp.2 b)⟩

/-- Operations about which there is nothing to say. -/
theorem everywhere_of_uses {K : {ω : Type} → Op ω → Prop} {p : Program Op ε α}
    (hK : ∀ {ω : Type} (o : Op ω) next, K o → N o next) (hp : p.Uses K) : p.Everywhere N := by
  induction p with
  | pure _ | throw _ => exact trivial
  | op o next ih => exact ⟨hK o next hp.1, fun b => ih b (hp.2 b)⟩

theorem uses_of_everywhere {K : {ω : Type} → Op ω → Prop} {p : Program Op ε α}
    (hN : ∀ {ω : Type} (o : Op ω) next, N o next → K o) (hp : p.Everywhere N) : p.Uses K := by
  induction p with
  | pure _ | throw _ => exact trivial
  | op o next ih => exact ⟨hN o next hp.1, fun b => ih b (hp.2 b)⟩

theorem everywhere_uses_bind {K : {ω : Type} → Op ω → Prop} {p : Program Op ε β}
    (hK : ∀ {ω : Type} (o : Op ω) next, K o → N o next) (hp : p.Uses K)
    (hf : ∀ b, (f b).Everywhere N) : (p >>= f).Everywhere N :=
  everywhere_bind (everywhere_of_uses (fun o _ ho => hK o _ ho) hp) hf

end Everywhere

/-- The operations satisfy `K` up to the first one that, with what follows on its answer, satisfies
`N`. -/
def Until (K : {ω : Type} → Op ω → Prop) (N : {ω : Type} → Op ω → (ω → Program Op ε α) → Prop) :
    Program Op ε α → Prop
  | .pure _ => True
  | .throw _ => True
  | .op o next => N o next ∨ (K o ∧ ∀ b, (next b).Until K N)

theorem until_uses_bind {K : {ω : Type} → Op ω → Prop}
    {N : {ω : Type} → Op ω → (ω → Program Op ε α) → Prop} {p : Program Op ε β} (hp : p.Uses K)
    (hf : ∀ b, (f b).Until K N) : (p >>= f).Until K N := by
  induction p with
  | pure b => exact hf b
  | throw e => exact trivial
  | op o next ih => exact .inr ⟨hp.1, fun b => ih b (hp.2 b)⟩

/-- On every way the environment allows, the program performs an operation that satisfies `K`, or
ends in a result that satisfies `Φ`. -/
def Owes (M : Machine Op σ χ) (A : σ → χ → σ → Prop) (K : {ω : Type} → Op ω → Prop)
    (Φ : Except ε α → Prop) : Program Op ε α → Prop
  | .pure a => Φ (.ok a)
  | .throw e => Φ (.error e)
  | .op o next => K o ∨
      ∀ s c, A s c (M.exec o c s).2 → (next (M.exec o c s).1).Owes M A K Φ

section Owes

variable {M : Machine Op σ χ} {A : σ → χ → σ → Prop} {K : {ω : Type} → Op ω → Prop}
  {Φ : Except ε α → Prop}

/-- An operation that is not the one owed leaves the debt. -/
theorem Owes.act {ω : Type} {o : Op ω} {next : ω → Program Op ε α} {s : σ} {c : χ}
    (h : (op o next).Owes M A K Φ) (ho : ¬K o) (hA : A s c (M.exec o c s).2) :
    (next (M.exec o c s).1).Owes M A K Φ :=
  h.resolve_left ho s c hA

/-- The first part of a sequence may fail, the rest owes. -/
theorem owes_bind {p : Program Op ε β} (hf : ∀ b, (f b).Owes M A K Φ) (herror : ∀ e, Φ (.error e)) :
    (p >>= f).Owes M A K Φ := by
  induction p with
  | pure b => exact hf b
  | throw e => exact herror e
  | op o next ih => exact .inr fun s c _ => ih _

/-- A first part that cannot end without paying pays for the whole. -/
theorem Owes.bind_left {p : Program Op ε β} (h : p.Owes M A K fun _ => False) :
    (p >>= f).Owes M A K Φ := by
  induction p with
  | pure _ | throw _ => exact h.elim
  | op o next ih => exact h.imp id fun hnext s c hc => ih _ (hnext s c hc)

theorem owes_map {p : Program Op ε β} {f : β → α} {Ψ : Except ε β → Prop} (h : p.Owes M A K Ψ)
    (hok : ∀ b, Ψ (.ok b) → Φ (.ok (f b))) (herror : ∀ e, Ψ (.error e) → Φ (.error e)) :
    (f <$> p).Owes M A K Φ := by
  induction p with
  | pure b => exact hok b h
  | throw e => exact herror e h
  | op o next ih => exact h.imp id fun hnext s c hc => ih _ (hnext s c hc)

end Owes

/-! ### Programs that ended -/

instance [DecidableEq α] (p : Program Op ε α) (a : α) : Decidable (p = .pure a) :=
  match p with
  | .pure _ => decidable_of_iff _ ⟨congrArg Program.pure, Program.pure.inj⟩
  | .throw _ => .isFalse nofun
  | .op _ _ => .isFalse nofun

instance [DecidableEq ε] (p : Program Op ε α) (e : ε) : Decidable (p = .throw e) :=
  match p with
  | .pure _ => .isFalse nofun
  | .throw _ => decidable_of_iff _ ⟨congrArg Program.throw, Program.throw.inj⟩
  | .op _ _ => .isFalse nofun

instance (p : Program Op ε α) : Decidable (∃ r, p = .ofExcept r) :=
  match p with
  | .pure a => .isTrue ⟨.ok a, rfl⟩
  | .throw e => .isTrue ⟨.error e, rfl⟩
  | .op _ _ => .isFalse fun ⟨r, hr⟩ => by cases r <;> cases hr

end Program

/-- A call that does not act stays as it is. -/
theorem Pool.mem_set_calls {p : Pool ι Op ε α σ} {n : ℕ} {acting c : Call ι Op ε α σ}
    (hn : p.calls[n]? = some acting) (hc : c ∈ p.calls) (new : Call ι Op ε α σ) :
    c = acting ∨ c ∈ p.calls.set n new := by
  obtain ⟨m, hm⟩ := List.getElem?_of_mem hc
  by_cases hmn : m = n
  · subst hmn
    exact .inl (Option.some.inj (hm.symm.trans hn))
  · have hstays : (p.calls.set n new)[m]? = some c := by
      rw [List.getElem?_set_ne (Ne.symm hmn), hm]
    exact .inr (List.mem_of_getElem? hstays)

/-- What holds of the nodes of every program holds of the nodes of what is left of a call. -/
theorem Pool.Step.everywhere {M : Machine Op σ χ} {A : σ → χ → σ → Prop}
    {serve : ι → Program Op ε α} {N : ι → {ω : Type} → Op ω → (ω → Program Op ε α) → Prop}
    (serves : ∀ i, (serve i).Everywhere (N i)) {p p' : Pool ι Op ε α σ} {e : Turn ι χ}
    (h : Pool.Step M A serve p e p') (hp : ∀ c ∈ p.calls, c.rest.Everywhere (N c.request)) :
    ∀ c ∈ p'.calls, c.rest.Everywhere (N c.request) :=
  h.calls (P := fun _ => True) (I := fun _ c => c.rest.Everywhere (N c.request))
    (fun _ i _ => serves i) (fun _ _ _ _ _ _ _ _ hrest => hrest.2 _) (fun _ _ _ _ _ _ hd => hd)
    (starts_true [e] e (List.mem_singleton_self e)) hp

/-- A computed run, one more turn, and a property of the pools before and after it and of a call. -/
theorem Pool.exists_last_of_playIf {M : Machine Op σ χ} {serve : ι → Program Op ε α}
    {test : Pool ι Op ε α σ → Turn ι χ → Pool ι Op ε α σ → Bool}
    {R : Pool ι Op ε α σ → Turn ι χ → Pool ι Op ε α σ → Prop} {p : Pool ι Op ε α σ}
    {P : Pool ι Op ε α σ → Pool ι Op ε α σ → Call ι Op ε α σ → Prop}
    [∀ p p' c, Decidable (P p p' c)] {es : List (Turn ι χ)} {e : Turn ι χ} {k : ℕ}
    (sound : ∀ p e p', Step M Unrestricted serve p e p' ∧ test p e p' = true → R p e p')
    (h : (playIf M serve test p es).any (fun p => decide (∃ p' ∈ next? M serve p e,
      test p e p' = true ∧ ∃ c ∈ p.calls[k]?, P p p' c)) = true) :
    ∃ p₁ p' c, Steps R p es p₁ ∧ R p₁ e p' ∧ p₁.calls[k]? = some c ∧ P p₁ p' c := by
  obtain ⟨p₁, hrun, p', hp', htest, c, hc, hgoal⟩ := exists_steps_of_playIf sound h
  exact ⟨p₁, p', c, hrun, sound _ _ _ ⟨step_of_next? hp', htest⟩, hc, hgoal⟩

end Powehi.Semantics
