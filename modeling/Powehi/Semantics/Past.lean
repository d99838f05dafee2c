import Powehi.Semantics.Pool

/-!
# What a call saw before it acts

A call acts on what it read earlier, and the state has moved on since. `wpPast` is a precondition
on every operation of a program that may speak about the history of the call: the states before
and after each operation it performed so far.

From such preconditions follow invariants of the shared state. At every operation one knows what
the call saw, that it saw it in the past of the present state, and what was assumed about the
operations of the run.
-/

namespace Powehi.Semantics

open List

universe u

variable {ι : Type} {Op : Type → Type u} {ε α β σ χ : Type}

namespace Program

/-- Every operation satisfies `K` of the history before it, and the result satisfies `Φ` of the
whole history, whatever others do in between. -/
def wpPast (M : Machine Op σ χ) (K : List (σ × σ) → {ω : Type} → Op ω → Prop) :
    Program Op ε α → (List (σ × σ) → Except ε α → Prop) → List (σ × σ) → Prop
  | .pure a, Φ, own => Φ own (.ok a)
  | .throw e, Φ, own => Φ own (.error e)
  | .op o next, Φ, own => K own o ∧
      ∀ s c, wpPast M K (next (M.exec o c s).1) Φ (own ++ [(s, (M.exec o c s).2)])

section Rules

variable {M : Machine Op σ χ} {K : List (σ × σ) → {ω : Type} → Op ω → Prop}
  {Φ : List (σ × σ) → Except ε α → Prop} {own : List (σ × σ)}

theorem wpPast_bind {p : Program Op ε β} {f : β → Program Op ε α}
    (h : wpPast M K p (fun own r => match r with
      | .ok b => wpPast M K (f b) Φ own
      | .error e => Φ own (.error e)) own) : wpPast M K (p >>= f) Φ own := by
  induction p generalizing own with
  | pure _ | throw _ => exact h
  | op o next ih => exact ⟨h.1, fun s c => ih _ (h.2 s c)⟩

theorem wpPast_mono {Φ' : List (σ × σ) → Except ε α → Prop} {p : Program Op ε α}
    (hΦ : ∀ own r, Φ own r → Φ' own r) (h : wpPast M K p Φ own) : wpPast M K p Φ' own := by
  induction p generalizing own with
  | pure _ | throw _ => exact hΦ _ _ h
  | op o next ih => exact ⟨h.1, fun s c => ih _ (h.2 s c)⟩

theorem wpPast_map {p : Program Op ε β} {f : β → α}
    (h : wpPast M K p (fun own r => Φ own (r.map f)) own) : wpPast M K (f <$> p) Φ own := by
  induction p generalizing own with
  | pure _ | throw _ => exact h
  | op o next ih => exact ⟨h.1, fun s c => ih _ (h.2 s c)⟩

/-- A fallible operation, and what follows on its answer. -/
theorem wpPast_request_bind {o : Op (Except ε β)} {k : β → Program Op ε α} (ho : K own o)
    (hok : ∀ s c b, (M.exec o c s).1 = .ok b →
      wpPast M K (k b) Φ (own ++ [(s, (M.exec o c s).2)]))
    (herror : ∀ s c e, (M.exec o c s).1 = .error e →
      Φ (own ++ [(s, (M.exec o c s).2)]) (.error e)) :
    wpPast M K (request o >>= k) Φ own := by
  refine ⟨ho, fun s c => ?_⟩
  cases hr : (M.exec o c s).1 with
  | ok b => exact hok s c b hr
  | error e => exact herror s c e hr

/-- Loop rule: `I xs` holds whenever the items `xs` are still to be done. -/
theorem wpPast_forM {body : β → Program Op ε Unit} {Ψ : List (σ × σ) → Except ε Unit → Prop}
    (I : List β → List (σ × σ) → Prop) {xs : List β}
    (step : ∀ x xs own, I (x :: xs) own → wpPast M K (body x) (fun own r => match r with
      | .ok _ => I xs own
      | .error e => Ψ own (.error e)) own)
    (done : ∀ own, I [] own → Ψ own (.ok ())) (h : I xs own) :
    wpPast M K (xs.forM body) Ψ own := by
  induction xs generalizing own with
  | nil => exact done own h
  | cons x xs ih =>
    refine wpPast_bind (wpPast_mono (fun own r hr => ?_) (step x xs own h))
    cases r with
    | ok _ => exact ih hr
    | error e => exact hr

/-- The history only grows. -/
theorem wpPast_grows {p : Program Op ε α} (h : wpPast M K p Φ own) :
    wpPast M K p (fun own' r => Φ own' r ∧ ∃ more, own' = own ++ more) own := by
  induction p generalizing own with
  | pure _ | throw _ => exact ⟨h, [], (append_nil own).symm⟩
  | op o next ih =>
    refine ⟨h.1, fun s c => wpPast_mono (fun own' r hr => ?_) (ih _ (h.2 s c))⟩
    obtain ⟨hΦ, more, rfl⟩ := hr
    exact ⟨hΦ, _, append_assoc own _ more⟩

/-- Two facts proved about a program separately hold together. -/
theorem wpPast_and {K' : List (σ × σ) → {ω : Type} → Op ω → Prop} {p : Program Op ε α}
    (h : wpPast M K p Φ own) (h' : wpPast M K' p (fun _ _ => True) own) :
    wpPast M (fun own _ o => K own o ∧ K' own o) p Φ own := by
  induction p generalizing own with
  | pure _ | throw _ => exact h
  | op o next ih => exact ⟨⟨h.1, h'.1⟩, fun s c => ih _ (h.2 s c) (h'.2 s c)⟩

/-- A program whose operations are all fine, whatever it saw. -/
theorem wpPast_uses {K' : {ω : Type} → Op ω → Prop} {p : Program Op ε α} (hp : p.Uses K')
    (hK : ∀ own {ω : Type} (o : Op ω), K' o → K own o) : wpPast M K p (fun _ _ => True) own := by
  induction p generalizing own with
  | pure _ | throw _ => exact trivial
  | op o next ih => exact ⟨hK own o hp.1, fun s c => ih _ (hp.2 _)⟩

end Rules

end Program

namespace Pool

variable {M : Machine Op σ χ} {A : σ → χ → σ → Prop} {serve : ι → Program Op ε α}

/-- A call stays in its place; its history only grows. -/
theorem call_run {p p' : Pool ι Op ε α σ} {es : List (Turn ι χ)}
    (h : Steps (Step M A serve) p es p') {k : ℕ} {c : Call ι Op ε α σ} (hc : p.calls[k]? = some c) :
    ∃ c', p'.calls[k]? = some c' ∧ c'.request = c.request ∧ ∃ more, c'.own = c.own ++ more := by
  induction h generalizing c with
  | nil => exact ⟨c, hc, rfl, [], (append_nil _).symm⟩
  | cons head tail ih =>
    cases head with
    | start i =>
      have hk : k < _ := (List.getElem?_eq_some_iff.mp hc).1
      exact ih (by simpa [List.getElem?_append_left hk] using hc)
    | @act n ch i ω o next own call allowed =>
      by_cases hk : k = n
      · subst hk
        obtain rfl := Option.some.inj (hc.symm.trans call)
        have hlt := (List.getElem?_eq_some_iff.mp call).1
        obtain ⟨c', hc', hreq, more, hown⟩ := ih (List.getElem?_set_self hlt)
        exact ⟨c', hc', hreq, _, by rw [hown, append_assoc]⟩
      · exact ih (by simpa [getElem?_set_ne (Ne.symm hk)] using hc)

/-- What is known of a pool: the invariant holds now and held after every operation so far, and
what is left of every call meets the precondition and the postcondition of its request. -/
structure Knows (M : Machine Op σ χ) (K : ι → List (σ × σ) → {ω : Type} → Op ω → Prop)
    (Φ : ι → List (σ × σ) → Except ε α → Prop) (P : ι → Prop) (R : σ → σ → Prop) (I : σ → Prop)
    (p : Pool ι Op ε α σ) : Prop where
  now : I p.shared
  asked : ∀ c ∈ p.calls, P c.request
  goes : ∀ c ∈ p.calls, Program.wpPast M (K c.request) c.rest (Φ c.request) c.own
  saw : ∀ c ∈ p.calls, ∀ st ∈ c.own, I st.2 ∧ R st.2 p.shared
  inOrder : ∀ c ∈ p.calls, c.own.Pairwise fun st st' => R st.2 st'.2

section Invariant

variable {K : ι → List (σ × σ) → {ω : Type} → Op ω → Prop}
  {Φ : ι → List (σ × σ) → Except ε α → Prop} {P : ι → Prop} {R : σ → σ → Prop} {I : σ → Prop}
  {B : ι → List (σ × σ) → σ × σ → Prop}

/-- An invariant of the shared state. When an operation is performed, its call saw what `K` says,
in this order and in the past of the present state; `B` is what is assumed of the operations of the
run, each with the operations of its call before it. -/
theorem invariant_past (refl : ∀ s, R s s) (trans : ∀ s t u, R s t → R t u → R s u)
    (forward : ∀ i own {ω : Type} (o : Op ω) c s, P i → K i own o → A s c (M.exec o c s).2 →
      R s (M.exec o c s).2) (serves : ∀ i, P i → Program.wpPast M (K i) (serve i) (Φ i) [])
    (keeps : ∀ i own {ω : Type} (o : Op ω) c s, P i → K i own o →
      (∀ st ∈ own, I st.2 ∧ R st.2 s) → (own.Pairwise fun st st' => R st.2 st'.2) →
      A s c (M.exec o c s).2 → B i own (s, (M.exec o c s).2) → I s → I (M.exec o c s).2)
    {p p' : Pool ι Op ε α σ} {es : List (Turn ι χ)} (h : Steps (Step M A serve) p es p')
    (hes : ∀ e ∈ es, e.Starts P)
    (hB : ∀ c ∈ p'.calls, ∀ own st more, c.own = own ++ st :: more → B c.request own st)
    (hp : Knows M K Φ P R I p) : Knows M K Φ P R I p' := by
  induction h with
  | nil => exact hp
  | @cons p p₁ p' e es head tail ih =>
    apply ih (fun e he => hes e (mem_cons_of_mem _ he)) hB
    cases head with
    | start i =>
      have hi : P i := hes _ mem_cons_self
      have hcase : ∀ c ∈ p.calls ++ [(⟨i, serve i, []⟩ : Call ι Op ε α σ)],
          c ∈ p.calls ∨ c = ⟨i, serve i, []⟩ := fun c hc => by simpa using hc
      refine ⟨hp.now, fun c hc => ?_, fun c hc => ?_, fun c hc => ?_, fun c hc => ?_⟩
      · rcases hcase c hc with hc | rfl
        · exact hp.asked c hc
        · exact hi
      · rcases hcase c hc with hc | rfl
        · exact hp.goes c hc
        · exact serves i hi
      · rcases hcase c hc with hc | rfl
        · exact hp.saw c hc
        · simp
      · rcases hcase c hc with hc | rfl
        · exact hp.inOrder c hc
        · exact .nil
    | @act n ch i ω o next own call allowed =>
      have hmem := mem_of_getElem? call
      have hlt := (List.getElem?_eq_some_iff.mp call).1
      have hassumed : B i own (p.shared, (M.exec o ch p.shared).2) := by
        obtain ⟨c, hc, hreq, more, hown⟩ := call_run tail (List.getElem?_set_self hlt)
        have hc := hB c (mem_of_getElem? hc) own _ more (hown.trans (append_assoc ..))
        rwa [hreq] at hc
      have hsaw : ∀ st ∈ own, I st.2 ∧ R st.2 p.shared := hp.saw _ hmem
      have horder : own.Pairwise fun st st' => R st.2 st'.2 := hp.inOrder _ hmem
      have hgoes := hp.goes _ hmem
      have hasked : P i := hp.asked _ hmem
      have hnow : I (M.exec o ch p.shared).2 :=
        keeps i own o ch p.shared hasked hgoes.1 hsaw horder allowed hassumed hp.now
      have hlater : ∀ st : σ × σ, R st.2 p.shared → R st.2 (M.exec o ch p.shared).2 :=
        fun st hst => trans _ _ _ hst (forward i own o ch _ hasked hgoes.1 allowed)
      refine ⟨hnow, fun d hd => ?_, fun d hd => ?_, fun d hd st hst => ?_, fun d hd => ?_⟩
      · rcases mem_or_eq_of_mem_set hd with hd | rfl
        · exact hp.asked d hd
        · exact hasked
      · rcases mem_or_eq_of_mem_set hd with hd | rfl
        · exact hp.goes d hd
        · exact hgoes.2 p.shared ch
      · rcases mem_or_eq_of_mem_set hd with hd | rfl
        · exact ⟨(hp.saw d hd st hst).1, hlater st (hp.saw d hd st hst).2⟩
        · rcases mem_append.mp hst with hst | hst
          · exact ⟨(hsaw st hst).1, hlater st (hsaw st hst).2⟩
          · obtain rfl := mem_singleton.mp hst
            exact ⟨hnow, refl _⟩
      · rcases mem_or_eq_of_mem_set hd with hd | rfl
        · exact hp.inOrder d hd
        · refine pairwise_append.mpr ⟨horder, pairwise_singleton _ _, ?_⟩
          intro st hst st' hst'
          obtain rfl := mem_singleton.mp hst'
          exact hlater st (hsaw st hst).2

theorem knows_initial {s : σ} (hs : I s) : Knows M K Φ P R I (⟨s, []⟩ : Pool ι Op ε α σ) := by
  constructor <;> simp [hs]

end Invariant

end Pool

end Powehi.Semantics
