import Powehi.Semantics.Uses
import Powehi.Semantics.Trace

/-!
# Pools of concurrent calls

Many calls are served at once on one shared state. Each call is a program; between two of its
operations any other call may perform any number of its own. A `Pool` keeps every call that was
ever started, with what is left of its program: a call that returned is one whose program is a
leaf, a call that was lost is one that never acts again.

What holds of every call follows from one rule, `Pool.Step.calls`: it holds of a call that
starts, a call's own operation keeps it, and so do the operations of the others.
-/

namespace Powehi.Semantics

open List Program

universe u

variable {ι : Type} {Op : Type → Type u} {ε α β σ χ : Type}

/-- A call: what was asked, what is left of the program that serves it, and, as a history, the
state before and after each operation it performed. -/
structure Call (ι : Type) (Op : Type → Type u) (ε α σ : Type) where
  request : ι
  rest : Program Op ε α
  own : List (σ × σ)

/-- The calls started so far, in this order, and the state they share. -/
structure Pool (ι : Type) (Op : Type → Type u) (ε α σ : Type) where
  shared : σ
  calls : List (Call ι Op ε α σ)

/-- What a scheduler can do: start a call, or let one call perform its next operation. -/
inductive Turn (ι χ : Type)
  | start (request : ι)
  | act (call : ℕ) (choice : χ)

/-- The request that a turn starts, if it starts one, satisfies `P`. -/
def Turn.Starts (P : ι → Prop) : Turn ι χ → Prop
  | .start i => P i
  | .act _ _ => True

instance (P : ι → Prop) [DecidablePred P] : DecidablePred (Turn.Starts (χ := χ) P)
  | .start i => inferInstanceAs (Decidable (P i))
  | .act _ _ => .isTrue trivial

namespace Program

/-! ### The operations of one call -/

/-- Precondition on a program's own operations, whatever the others do in between: `Φ` holds of the
states before and after each operation it performs, together with its result. -/
def wpOwn (M : Machine Op σ χ) (A : σ → χ → σ → Prop) :
    Program Op ε α → (List (σ × σ) → Except ε α → Prop) → Prop
  | .pure a, Φ => Φ [] (.ok a)
  | .throw e, Φ => Φ [] (.error e)
  | .op o next, Φ => ∀ s c, A s c (M.exec o c s).2 →
      wpOwn M A (next (M.exec o c s).1) fun own r => Φ ((s, (M.exec o c s).2) :: own) r

section Own

variable {M : Machine Op σ χ} {A : σ → χ → σ → Prop} {Φ Φ' : List (σ × σ) → Except ε α → Prop}

theorem wpOwn_mono {p : Program Op ε α} (hΦ : ∀ own r, Φ own r → Φ' own r)
    (h : wpOwn M A p Φ) : wpOwn M A p Φ' := by
  induction p generalizing Φ Φ' with
  | pure _ | throw _ => exact hΦ _ _ h
  | op o next ih => exact fun s c hc => ih _ (fun own r => hΦ _ r) (h s c hc)

theorem wpOwn_bind {p : Program Op ε β} {f : β → Program Op ε α}
    {Ψ : List (σ × σ) → Except ε β → Prop} (h : wpOwn M A p Ψ)
    (hok : ∀ own b, Ψ own (.ok b) → wpOwn M A (f b) fun own' r => Φ (own ++ own') r)
    (herror : ∀ own e, Ψ own (.error e) → Φ own (.error e)) : wpOwn M A (p >>= f) Φ := by
  induction p generalizing Ψ Φ with
  | pure b => exact hok [] b h
  | throw e => exact herror [] e h
  | op o next ih =>
    intro s c hc
    exact ih _ (h s c hc) (fun own b hb => hok _ b hb) fun own e he => herror _ e he

end Own

end Program

namespace Pool

/-- One turn of the pool. `A` says which outcomes of an operation the environment allows. -/
inductive Step (M : Machine Op σ χ) (A : σ → χ → σ → Prop) (serve : ι → Program Op ε α) :
    Pool ι Op ε α σ → Turn ι χ → Pool ι Op ε α σ → Prop
  | start {p : Pool ι Op ε α σ} (i : ι) :
      Step M A serve p (.start i) { p with calls := p.calls ++ [⟨i, serve i, []⟩] }
  | act {p : Pool ι Op ε α σ} {n : ℕ} {c : χ} {i : ι} {ω : Type} {o : Op ω}
      {next : ω → Program Op ε α} {own : List (σ × σ)}
      (call : p.calls[n]? = some ⟨i, .op o next, own⟩)
      (allowed : A p.shared c (M.exec o c p.shared).2) :
      Step M A serve p (.act n c) ⟨(M.exec o c p.shared).2, p.calls.set n
        ⟨i, next (M.exec o c p.shared).1, own ++ [(p.shared, (M.exec o c p.shared).2)]⟩⟩

/-- The pool after a turn, if the turn is possible. -/
def next? (M : Machine Op σ χ) (serve : ι → Program Op ε α) (p : Pool ι Op ε α σ) :
    Turn ι χ → Option (Pool ι Op ε α σ)
  | .start i => some { p with calls := p.calls ++ [⟨i, serve i, []⟩] }
  | .act n c =>
    match p.calls[n]? with
    | some ⟨i, .op o next, own⟩ =>
      let out := M.exec o c p.shared
      some ⟨out.2, p.calls.set n ⟨i, next out.1, own ++ [(p.shared, out.2)]⟩⟩
    | _ => none

/-- Play a list of turns, as long as each is possible and passes the test. -/
def playIf (M : Machine Op σ χ) (serve : ι → Program Op ε α)
    (test : Pool ι Op ε α σ → Turn ι χ → Pool ι Op ε α σ → Bool) :
    Pool ι Op ε α σ → List (Turn ι χ) → Option (Pool ι Op ε α σ) :=
  Semantics.playIf (next? M serve) test

variable {M : Machine Op σ χ} {A : σ → χ → σ → Prop} {serve : ι → Program Op ε α}
  {p p' : Pool ι Op ε α σ} {e : Turn ι χ} {es : List (Turn ι χ)}

/-- Every outcome is allowed. -/
def Unrestricted (_ : σ) (_ : χ) (_ : σ) : Prop := True

instance (s : σ) (c : χ) (t : σ) : Decidable (Unrestricted s c t) := .isTrue trivial

theorem step_of_next? (h : next? M serve p e = some p') : Step M Unrestricted serve p e p' := by
  cases e with
  | start i =>
    obtain rfl := Option.some.inj h
    exact .start i
  | act n c =>
    rw [next?] at h
    split at h
    · next i ω o next own hcall =>
      obtain rfl := Option.some.inj h
      exact .act hcall trivial
    · cases h

/-- Outcomes that turn out to be allowed. -/
theorem Step.restrict (h : Step M Unrestricted serve p e p')
    (hA : ∀ n c, e = .act n c → A p.shared c p'.shared) : Step M A serve p e p' := by
  cases h with
  | start i => exact .start i
  | act call _ => exact .act call (hA _ _ rfl)

/-- What holds of the call that acts in a turn, and of its choice. -/
def Acting (p : Pool ι Op ε α σ) (e : Turn ι χ) (X : Call ι Op ε α σ → χ → Prop) : Prop :=
  match e with
  | .start _ => True
  | .act n c => ∀ call, p.calls[n]? = some call → X call c

instance (p : Pool ι Op ε α σ) (e : Turn ι χ) (X : Call ι Op ε α σ → χ → Prop)
    [∀ call c, Decidable (X call c)] : Decidable (p.Acting e X) :=
  match e with
  | .start _ => .isTrue trivial
  | .act n c => decidable_of_iff ((p.calls[n]?).all fun call => decide (X call c)) (by
      simp [Acting, Option.all_eq_true])

/-- The outcome of an operation is one that `A` allows. -/
def allows (A : σ → χ → σ → Prop) [∀ s c t, Decidable (A s c t)] (p : Pool ι Op ε α σ)
    (e : Turn ι χ) (p' : Pool ι Op ε α σ) : Bool :=
  match e with
  | .start _ => true
  | .act _ c => decide (A p.shared c p'.shared)

theorem step_of_allows [∀ s c t, Decidable (A s c t)]
    (h : Step M Unrestricted serve p e p' ∧ allows A p e p' = true) : Step M A serve p e p' := by
  refine h.1.restrict ?_
  rintro n c rfl
  exact of_decide_eq_true h.2

/-- A run and a property of its end, both computed. -/
theorem exists_steps_of_playIf {test : Pool ι Op ε α σ → Turn ι χ → Pool ι Op ε α σ → Bool}
    {R : Pool ι Op ε α σ → Turn ι χ → Pool ι Op ε α σ → Prop}
    {P : Pool ι Op ε α σ → Prop} [DecidablePred P]
    (sound : ∀ p e p', Step M Unrestricted serve p e p' ∧ test p e p' = true → R p e p')
    (h : (playIf M serve test p es).any (fun p => decide (P p)) = true) :
    ∃ p', Steps R p es p' ∧ P p' :=
  Semantics.exists_steps_of_playIf
    (fun p e p' hnext htest => sound p e p' ⟨step_of_next? hnext, htest⟩) h

theorem exists_steps_of_play (M : Machine Op σ χ) (serve : ι → Program Op ε α) (p : Pool ι Op ε α σ)
    (es : List (Turn ι χ)) (P : Pool ι Op ε α σ → Prop) [DecidablePred P]
    (h : (playIf M serve (fun _ _ _ => true) p es).any (fun p => decide (P p)) = true := by
      decide +kernel) : ∃ p', Steps (Step M Unrestricted serve) p es p' ∧ P p' :=
  exists_steps_of_playIf (fun _ _ _ h => h.1) h

section Calls

variable {P : ι → Prop} {I : σ → Call ι Op ε α σ → Prop}

/-- The rule for what holds of every call, beside the shared state. A call starts as the program of
its request; then its own operations and those of the other calls keep the property. -/
theorem Step.calls (start : ∀ s i, P i → I s ⟨i, serve i, []⟩)
    (act : ∀ s i {ω : Type} (o : Op ω) next own c, A s c (M.exec o c s).2 →
      I s ⟨i, .op o next, own⟩ →
      I (M.exec o c s).2 ⟨i, next (M.exec o c s).1, own ++ [(s, (M.exec o c s).2)]⟩)
    (other : ∀ s d {ω : Type} (o : Op ω) c, A s c (M.exec o c s).2 → I s d → I (M.exec o c s).2 d)
    (h : Step M A serve p e p') (he : e.Starts P) (hp : ∀ c ∈ p.calls, I p.shared c) :
    ∀ c ∈ p'.calls, I p'.shared c := by
  intro d hd
  cases h with
  | start i =>
    rcases mem_append.mp hd with hd | hd
    · exact hp d hd
    · obtain rfl := mem_singleton.mp hd
      exact start _ i he
  | @act n c i ω o next own call allowed =>
    rcases mem_or_eq_of_mem_set hd with hd | rfl
    · exact other _ d o c allowed (hp d hd)
    · exact act _ i o next own c allowed (hp _ (mem_of_getElem? call))

theorem calls_run (start : ∀ s i, P i → I s ⟨i, serve i, []⟩)
    (act : ∀ s i {ω : Type} (o : Op ω) next own c, A s c (M.exec o c s).2 →
      I s ⟨i, .op o next, own⟩ →
      I (M.exec o c s).2 ⟨i, next (M.exec o c s).1, own ++ [(s, (M.exec o c s).2)]⟩)
    (other : ∀ s d {ω : Type} (o : Op ω) c, A s c (M.exec o c s).2 → I s d → I (M.exec o c s).2 d)
    (h : Steps (Step M A serve) p es p') (hes : ∀ e ∈ es, e.Starts P)
    (hp : ∀ c ∈ p.calls, I p.shared c) : ∀ c ∈ p'.calls, I p'.shared c := by
  induction h with
  | nil => exact hp
  | cons head tail ih =>
    apply ih (fun e he => hes e (mem_cons_of_mem _ he))
    exact head.calls start act other (hes _ mem_cons_self) hp

end Calls

theorem starts_true (es : List (Turn ι χ)) : ∀ e ∈ es, e.Starts fun _ => True := by
  rintro (_ | _) - <;> trivial

/-- The states a call left behind lie in the past of the shared state. -/
theorem own_past {R : σ → σ → Prop} (refl : ∀ s, R s s) (trans : ∀ s t u, R s t → R t u → R s u)
    (forward : ∀ {ω : Type} (o : Op ω) c s, A s c (M.exec o c s).2 → R s (M.exec o c s).2)
    (h : Steps (Step M A serve) p es p') (hp : ∀ c ∈ p.calls, ∀ st ∈ c.own, R st.2 p.shared) :
    ∀ c ∈ p'.calls, ∀ st ∈ c.own, R st.2 p'.shared := by
  refine calls_run (I := fun s c => ∀ st ∈ c.own, R st.2 s) (fun s i _ => nofun) ?_ ?_ h
    (starts_true es) hp
  · intro s i ω o next own c allowed hown st hst
    rcases mem_append.mp hst with hst | hst
    · exact trans _ _ _ (hown st hst) (forward o c _ allowed)
    · obtain rfl := mem_singleton.mp hst
      exact refl _
  · intro s d ω o c allowed hown st hst
    exact trans _ _ _ (hown st hst) (forward o c _ allowed)

/-- The history of the `k`-th call. -/
def ownOf (p : Pool ι Op ε α σ) (k : ℕ) : List (σ × σ) := (p.calls[k]?).elim [] Call.own

/-- A turn adds the operation of the call that acts, and nothing else. -/
theorem Step.ownOf (h : Step M A serve p e p') :
    (p'.shared = p.shared ∧ ∀ k, p'.ownOf k = p.ownOf k) ∨
    ∃ n, p'.ownOf n = p.ownOf n ++ [(p.shared, p'.shared)] ∧
      ∀ k ≠ n, p'.ownOf k = p.ownOf k := by
  cases h with
  | start i =>
    refine .inl ⟨rfl, fun k => ?_⟩
    unfold ownOf
    rcases Nat.lt_trichotomy k p.calls.length with hlt | rfl | hgt
    · rw [getElem?_append_left hlt]
    · simp
    · rw [getElem?_eq_none (by simpa using Nat.succ_le_of_lt hgt),
        getElem?_eq_none (Nat.le_of_lt hgt)]
  | @act n c i ω o next own call allowed =>
    have hn : n < p.calls.length := (List.getElem?_eq_some_iff.mp call).1
    refine .inr ⟨n, ?_, fun k hk => ?_⟩
    · simp [ownOf, getElem?_set_self hn, call]
    · simp [ownOf, getElem?_set_ne hk.symm]

/-- A history in which operations are ordered, and all lie in the past. -/
structure Ordered (R : σ → σ → Prop) (p : Pool ι Op ε α σ) : Prop where
  past : ∀ k, ∀ st ∈ p.ownOf k, R st.2 p.shared
  own : ∀ k, (p.ownOf k).Pairwise fun st st' => R st.2 st'.1
  ordered : ∀ m n, m ≠ n → ∀ st ∈ p.ownOf m, ∀ st' ∈ p.ownOf n, R st.2 st'.1 ∨ R st'.2 st.1

section Ordered

variable {R : σ → σ → Prop}

/-- A new operation comes after every operation so far. -/
theorem Ordered.step (refl : ∀ s, R s s) (trans : ∀ s t u, R s t → R t u → R s u)
    (forward : ∀ {ω : Type} (o : Op ω) c s, A s c (M.exec o c s).2 → R s (M.exec o c s).2)
    (he : Step M A serve p e p') (hp : Ordered R p) : Ordered R p' := by
  have hshared : R p.shared p'.shared := by
    cases he with
    | start i => exact refl _
    | @act n c i ω o next own call allowed => exact forward o c _ allowed
  have hpast : ∀ k, ∀ st ∈ p.ownOf k, R st.2 p'.shared := fun k st hst =>
    trans _ _ _ (hp.past k st hst) hshared
  rcases he.ownOf with ⟨-, hsame⟩ | ⟨k, hk, hother⟩
  · constructor
    · intro m st hst
      rw [hsame] at hst
      exact hpast m st hst
    · intro m
      rw [hsame]
      exact hp.own m
    · intro m n hmn st hst st' hst'
      rw [hsame] at hst hst'
      exact hp.ordered m n hmn st hst st' hst'
  -- the operations of a call are old ones, or the new one of the call that acted
  · have hold : ∀ m, ∀ st ∈ p'.ownOf m,
        st ∈ p.ownOf m ∨ m = k ∧ st = (p.shared, p'.shared) := by
      intro m st hst
      by_cases hm : m = k
      · subst hm
        rw [hk] at hst
        simpa using hst
      · rw [hother m hm] at hst
        exact .inl hst
    constructor
    · intro m st hst
      rcases hold m st hst with hst | ⟨-, rfl⟩
      · exact hpast m st hst
      · exact refl _
    · intro m
      by_cases hm : m = k
      · subst hm
        rw [hk, pairwise_append]
        exact ⟨hp.own m, pairwise_singleton _ _, fun st hst st' hst' =>
          mem_singleton.mp hst' ▸ hp.past m st hst⟩
      · rw [hother m hm]
        exact hp.own m
    · intro m n hmn st hst st' hst'
      rcases hold m st hst with hst | ⟨rfl, rfl⟩
      · rcases hold n st' hst' with hst' | ⟨rfl, rfl⟩
        · exact hp.ordered m n hmn st hst st' hst'
        · exact .inl (hp.past m st hst)
      · rcases hold n st' hst' with hst' | ⟨rfl, rfl⟩
        · exact .inr (hp.past n st' hst')
        · exact absurd rfl hmn

/-- Of two operations one comes before the other. -/
theorem Ordered.run (refl : ∀ s, R s s) (trans : ∀ s t u, R s t → R t u → R s u)
    (forward : ∀ {ω : Type} (o : Op ω) c s, A s c (M.exec o c s).2 → R s (M.exec o c s).2)
    (h : Steps (Step M A serve) p es p') (hp : Ordered R p) : Ordered R p' := by
  induction h with
  | nil => exact hp
  | cons head tail ih => exact ih (hp.step refl trans forward head)

theorem ordered_initial (s : σ) : Ordered R (⟨s, []⟩ : Pool ι Op ε α σ) :=
  ⟨by simp [ownOf], by simp [ownOf], by simp [ownOf]⟩

theorem ownOf_eq {n : ℕ} {c : Call ι Op ε α σ} (h : p.calls[n]? = some c) : p.ownOf n = c.own := by
  simp [ownOf, h]

end Ordered

theorem mem_ownOf {k : ℕ} {st : σ × σ} (h : st ∈ p.ownOf k) : ∃ c ∈ p.calls, st ∈ c.own := by
  unfold ownOf at h
  cases hk : p.calls[k]? with
  | none => simp [hk] at h
  | some c => exact ⟨c, mem_of_getElem? hk, by simpa [hk] using h⟩

/-- An operation stays in the history of its call. -/
theorem ownOf_run (h : Steps (Step M A serve) p es p') {k : ℕ} {st : σ × σ}
    (hst : st ∈ p.ownOf k) : st ∈ p'.ownOf k := by
  induction h with
  | nil => exact hst
  | cons head tail ih =>
    apply ih
    rcases head.ownOf with ⟨-, hsame⟩ | ⟨n, hn, hother⟩
    · rwa [hsame]
    · by_cases hk : k = n
      · rw [hk, hn]
        exact mem_append_left _ (hk ▸ hst)
      · rwa [hother k hk]

/-- What did not hold at the start and holds now was brought about by an operation of some call. -/
theorem exists_own_of_change {P : σ → Prop} (h : Steps (Step M A serve) p es p')
    (hnew : P p'.shared) (hold : ¬P p.shared) : ∃ c ∈ p'.calls, ∃ st ∈ c.own, ¬P st.1 ∧ P st.2 := by
  induction h with
  | nil => exact absurd hnew hold
  | @cons p p₁ p' e es head tail ih =>
    by_cases hmid : P p₁.shared
    · rcases head.ownOf with ⟨hsame, -⟩ | ⟨n, hn, -⟩
      · exact absurd (hsame ▸ hmid) hold
      · have hlast : (p.shared, p₁.shared) ∈ p₁.ownOf n :=
          hn ▸ mem_append_right _ (mem_singleton_self _)
        obtain ⟨c, hc, hst⟩ := mem_ownOf (ownOf_run tail hlast)
        exact ⟨c, hc, _, hst, hold, hmid⟩
    · exact ih hnew hmid

/-- Every call was asked for by a turn that started it. -/
theorem request_run {P : ι → Prop} (h : Steps (Step M A serve) p es p')
    (hes : ∀ e ∈ es, e.Starts P) (hp : ∀ c ∈ p.calls, P c.request) : ∀ c ∈ p'.calls, P c.request :=
  calls_run (I := fun _ c => P c.request) (fun _ _ hi => hi) (fun _ _ _ _ _ _ _ _ hi => hi)
    (fun _ _ _ _ _ _ hi => hi) h hes hp

section Uses

variable {K : ι → {ω : Type} → Op ω → Prop} {P : ι → Prop}

/-- The operations that are left to a call are among those its request uses. -/
theorem uses_run (serves : ∀ i, P i → (serve i).Uses (K i)) (h : Steps (Step M A serve) p es p')
    (hes : ∀ e ∈ es, e.Starts P) (hp : ∀ c ∈ p.calls, c.rest.Uses (K c.request)) :
    ∀ c ∈ p'.calls, c.rest.Uses (K c.request) :=
  calls_run (I := fun _ c => c.rest.Uses (K c.request)) (fun _ i hi => serves i hi)
    (fun _ _ _ _ _ _ _ _ hrest => hrest.2 _) (fun _ _ _ _ _ _ hrest => hrest) h hes hp

/-- Every operation a call performed is one its request uses. -/
theorem own_uses (serves : ∀ i, P i → (serve i).Uses (K i)) (h : Steps (Step M A serve) p es p')
    (hes : ∀ e ∈ es, e.Starts P) (hp : ∀ c ∈ p.calls, c.rest.Uses (K c.request))
    (hown : ∀ c ∈ p.calls, ∀ st ∈ c.own, ∃ (ω : Type) (o : Op ω) (ch : χ), K c.request o ∧
      A st.1 ch st.2 ∧ st.2 = (M.exec o ch st.1).2) :
    ∀ c ∈ p'.calls, ∀ st ∈ c.own, ∃ (ω : Type) (o : Op ω) (ch : χ), K c.request o ∧
      A st.1 ch st.2 ∧ st.2 = (M.exec o ch st.1).2 := by
  intro c hc
  refine (calls_run (I := fun _ c => c.rest.Uses (K c.request) ∧ ∀ st ∈ c.own, ∃ (ω : Type)
      (o : Op ω) (ch : χ), K c.request o ∧ A st.1 ch st.2 ∧ st.2 = (M.exec o ch st.1).2)
    (fun _ i hi => ⟨serves i hi, nofun⟩) ?_ (fun _ _ _ _ _ _ hd => hd) h hes
    (fun c hc => ⟨hp c hc, hown c hc⟩) c hc).2
  rintro s i ω o next own c allowed ⟨hrest, hown⟩
  refine ⟨hrest.2 _, fun st hst => ?_⟩
  rcases mem_append.mp hst with hst | hst
  · exact hown st hst
  · obtain rfl := mem_singleton.mp hst
    exact ⟨ω, o, c, hrest.1, allowed, rfl⟩

/-- A property of the shared state that every operation in use keeps holds along every run. -/
theorem invariant_run {I : σ → Prop} (serves : ∀ i, P i → (serve i).Uses (K i))
    (keeps : ∀ i {ω : Type} (o : Op ω) c s, K i o → A s c (M.exec o c s).2 → I s →
      I (M.exec o c s).2) (h : Steps (Step M A serve) p es p') (hes : ∀ e ∈ es, e.Starts P)
    (hp : ∀ c ∈ p.calls, c.rest.Uses (K c.request)) (hI : I p.shared) : I p'.shared := by
  induction h with
  | nil => exact hI
  | cons head tail ih =>
    have hnext := uses_run serves (.cons head .nil)
      (fun e he => hes e (by simpa using .inl (mem_singleton.mp he))) hp
    apply ih (fun e he => hes e (mem_cons_of_mem _ he)) hnext
    cases head with
    | start i => exact hI
    | act call allowed =>
      exact keeps _ _ _ _ (hp _ (mem_of_getElem? call)).1 allowed hI

end Uses

/-- What a request's own operations satisfy, the operations of a call of a run satisfy: those it
performed, followed by those that are left. -/
theorem wpOwn_run (h : Steps (Step M A serve) p es p')
    (hp : ∀ c ∈ p.calls, ∀ Φ, wpOwn M A (serve c.request) Φ →
      wpOwn M A c.rest fun own r => Φ (c.own ++ own) r) :
    ∀ c ∈ p'.calls, ∀ Φ, wpOwn M A (serve c.request) Φ →
      wpOwn M A c.rest fun own r => Φ (c.own ++ own) r := by
  refine calls_run (I := fun _ c => ∀ Φ, wpOwn M A (serve c.request) Φ →
      wpOwn M A c.rest fun own r => Φ (c.own ++ own) r) (fun _ _ _ _ hΦ => hΦ) ?_
    (fun _ _ _ _ _ _ hd => hd) h (starts_true es) hp
  intro s i ω o next own c allowed hrest Φ hΦ
  have hnext := hrest Φ hΦ _ c allowed
  simpa only [append_assoc, singleton_append] using hnext

/-- A call that returned, by its result and the operations it performed. -/
theorem own_returned {s : σ} (h : Steps (Step M A serve) ⟨s, []⟩ es p) {c : Call ι Op ε α σ}
    (hc : c ∈ p.calls) {r : Except ε α} (hr : c.rest = .ofExcept r)
    {Φ : List (σ × σ) → Except ε α → Prop}
    (hΦ : wpOwn M A (serve c.request) Φ) : Φ c.own r := by
  have hrest := wpOwn_run h (by simp) c hc Φ hΦ
  rw [hr] at hrest
  cases r with
  | ok _ | error _ => simpa [wpOwn] using hrest

end Pool

end Powehi.Semantics
