import Powehi.Server.CommitOrder

/-!
# Forwarding a Commit

A region forwards a Commit to the home region of the group. Its client makes several attempts, as
long as the status it is told may pass, and a circuit breaker keeps it away from a peer that failed
too often.

The breaker stores the moment until which it is open and clears it only at a success: once that
moment has passed, further failures do not open it again. The answer to an attempt speaks of that
attempt alone: if the home region stored the Commit and its answer was lost, the next attempt meets
the epoch the first one won, and the call ends as rejected.
-/

namespace Powehi.Server

open Codec Semantics List Option

/-! ### The circuit breaker -/

structure CircuitBreaker where
  failures : UInt32
  threshold : UInt32
  openUntil : Option Time
  openDuration : Time
deriving DecidableEq

/-- The outcome of a call to the peer. -/
inductive CallEvent
  | success
  | failure (at_ : Time)
deriving DecidableEq

namespace CircuitBreaker

def new (threshold : UInt32) (openDuration : Time) : CircuitBreaker :=
  ⟨0, threshold, none, openDuration⟩

def isOpen (cb : CircuitBreaker) (now : Time) : Bool :=
  match cb.openUntil with
  | some until_ => now < until_
  | none => false

def recordSuccess (cb : CircuitBreaker) : CircuitBreaker :=
  { cb with failures := 0, openUntil := none }

def recordFailure (cb : CircuitBreaker) (now : Time) : CircuitBreaker :=
  let count := cb.failures + 1
  { cb with
    failures := count
    openUntil :=
      if cb.threshold ≤ count ∧ cb.openUntil.isNone then some (now + cb.openDuration)
      else cb.openUntil }

def record (cb : CircuitBreaker) : CallEvent → CircuitBreaker
  | .success => cb.recordSuccess
  | .failure now => cb.recordFailure now

/-- The breaker after these events; asking whether it is open changes nothing. -/
def run (cb : CircuitBreaker) (es : List CallEvent) : CircuitBreaker := es.foldl record cb

/-- The failures since the last success, after `n` and these events. -/
def failuresSince (n : ℕ) (es : List CallEvent) : ℕ :=
  es.foldl (fun n e => if e = .success then 0 else n + 1) n

variable {cb : CircuitBreaker} {es : List CallEvent} {n : ℕ}

/-- As long as no deadline is stored, the counter shows the failures since the last success and is
below the threshold. -/
def Counts (cb : CircuitBreaker) (n : ℕ) : Prop :=
  cb.openUntil = none → cb.failures.toNat = n ∧ (n = 0 ∨ n < cb.threshold.toNat)

/-- The count before the threshold is reached does not wrap around. -/
theorem toNat_count (h : cb.Counts n) (hnone : cb.openUntil = none) :
    (cb.failures + 1).toNat = n + 1 := by
  obtain ⟨hn, hlow⟩ := h hnone
  have hbound := cb.threshold.toNat_lt
  rw [UInt32.toNat_add, UInt32.toNat_one, hn]
  omega

theorem Counts.record (h : cb.Counts n) (e : CallEvent) :
    (cb.record e).Counts (if e = .success then 0 else n + 1) := by
  cases e with
  | success => exact fun _ => ⟨rfl, .inl rfl⟩
  | failure now =>
    intro hnone
    by_cases hstored : cb.openUntil = none
    · have hcount := toNat_count h hstored
      have hlow : ¬cb.threshold ≤ cb.failures + 1 := by
        intro hle
        simp [CircuitBreaker.record, recordFailure, hstored, hle] at hnone
      rw [UInt32.le_iff_toNat_le, hcount] at hlow
      exact ⟨hcount, .inr (Nat.not_le.mp hlow)⟩
    · -- a stored deadline is kept
      simp [CircuitBreaker.record, recordFailure, hstored, isNone_iff_eq_none] at hnone

theorem Counts.run (h : cb.Counts n) (es : List CallEvent) :
    (cb.run es).Counts (failuresSince n es) := by
  induction es generalizing cb n with
  | nil => exact h
  | cons e es ih => exact ih (h.record e)

theorem run_config (cb : CircuitBreaker) (es : List CallEvent) :
    (cb.run es).threshold = cb.threshold ∧ (cb.run es).openDuration = cb.openDuration := by
  induction es generalizing cb with
  | nil => exact ⟨rfl, rfl⟩
  | cons e es ih => cases e <;> exact ih _

theorem openUntil_recordFailure (now : Time) (hnone : cb.openUntil = none)
    (h : cb.threshold ≤ cb.failures + 1) :
    (cb.recordFailure now).openUntil = some (now + cb.openDuration) := by
  simp [recordFailure, hnone, h]

/-- A stored deadline stays until a success. -/
theorem openUntil_run {t : Time} (h : cb.openUntil = some t) (hes : .success ∉ es) :
    (cb.run es).openUntil = some t := by
  induction es generalizing cb with
  | nil => exact h
  | cons e es ih =>
    rw [mem_cons, not_or] at hes
    apply ih _ hes.2
    cases e with
    | success => exact absurd rfl hes.1
    | failure now => simp [CircuitBreaker.record, recordFailure, h]

/-- After any calls, a failure that makes at least the threshold's number since the last success,
and before which no deadline is stored, opens the breaker: it stays open for its whole duration
unless a success is recorded. -/
theorem open_after_failures {threshold : UInt32} {openDuration : Time} {es later : List CallEvent}
    {now t : Time} (hnone : ((new threshold openDuration).run es).openUntil = none)
    (hcount : threshold.toNat ≤ failuresSince 0 es + 1) (hlater : .success ∉ later)
    (ht : t < now + openDuration) :
    ((((new threshold openDuration).run es).recordFailure now).run later).isOpen t = true := by
  have hstart : (new threshold openDuration).Counts 0 := fun _ => ⟨rfl, .inl rfl⟩
  have hreached : threshold ≤ ((new threshold openDuration).run es).failures + 1 := by
    rw [UInt32.le_iff_toNat_le, toNat_count (hstart.run es) hnone]
    exact hcount
  obtain ⟨hthreshold, hduration⟩ := run_config (new threshold openDuration) es
  have hstored := openUntil_recordFailure now hnone (hthreshold.symm ▸ hreached)
  unfold isOpen
  rw [openUntil_run hstored hlater, hduration]
  exact decide_eq_true ht

theorem open_after_failures_sample :
    ((((new 2 10).run [.failure 0, .success, .failure 5]).recordFailure 7).run
      [.failure 8]).isOpen 16 = true :=
  open_after_failures (by decide) (by decide) (by decide) (by decide)

/-- After the deadline of the first trip a failure does not open the breaker, although it is one
more since the last success. -/
theorem closed_after_second_trip :
    ((new 1 10).run [.failure 0]).isOpen 20 = false ∧ failuresSince 0 [.failure 0] + 1 = 2 ∧
      (((new 1 10).run [.failure 0]).recordFailure 20).isOpen 21 = false := by
  decide

end CircuitBreaker

/-! ### The retry loop -/

/-- The status a failed attempt ends with: one of the transport's own, such as a peer that is
unavailable or a deadline that passed, or one that the peer sent. -/
inductive Status
  | transport
  | sent (code : Code) (message : String)
deriving DecidableEq

def isRetryable : Status → Bool
  | .transport => true
  | .sent code _ =>
    code ∉ [.invalidArgument, .notFound, .alreadyExists, .permissionDenied, .unauthenticated,
      .failedPrecondition]

inductive GrpcError
  | status (status : Status)
  | circuitOpen
deriving DecidableEq

/-- The attempts of one call, `left` of them at most, by what each met; `none` if the loop goes on
or ended before the last of them. -/
def attempt {α : Type} (left : ℕ) (last : Status) (met : List (Except Status α)) :
    Option (Except Status α) :=
  match left, met with
  | 0, [] => some (.error last)
  | _ + 1, .ok a :: rest => if rest.isEmpty then some (.ok a) else none
  | left + 1, .error e :: rest =>
    if isRetryable e then attempt left e rest
    else if rest.isEmpty then some (.error e) else none
  | _, _ => none

/-- A call with its retries, and what it records in the circuit breaker at its end. -/
def withRetry {α : Type} (circuit : CircuitBreaker) (start end_ : Time) (maxRetries : ℕ)
    (met : List (Except Status α)) : Option (Except GrpcError α × Option CallEvent) :=
  if circuit.isOpen start then
    if met.isEmpty then some (.error .circuitOpen, none) else none
  else
    (attempt (maxRetries + 1) (.sent .internal "retry loop finished without an attempt") met).map
      fun
      | .ok a => (.ok a, some .success)
      | .error e => (.error (.status e), if isRetryable e then some (.failure end_) else none)

/-! ### Attempts at the home region -/

/-- The home region while it serves calls. -/
abbrev HomePool := Pool Request Op Failure Response World

/-- What happens to one attempt: the call of the home region it becomes, unless the request is
lost, and whether an answer arrives. -/
structure Attempt where
  call : Option ℕ
  answered : Bool
deriving DecidableEq

/-- The answer of a call that returned. -/
def answerOf (rest : Serve Response) : Option (Except Status Epoch) :=
  match rest with
  | .pure (.epoch n) => some (.ok n)
  | .throw (.status code message) => some (.error (.sent code message))
  | _ => none

/-- What the client learns from an attempt. -/
def Attempt.met (p : HomePool) (a : Attempt) : Option (Except Status Epoch) :=
  if a.answered then a.call.bind fun k => (p.calls[k]?).bind (answerOf ·.rest)
  else some (.error .transport)

/-- The envelopes an attempt stored. -/
def Attempt.stored (p : HomePool) (a : Attempt) : List Envelope :=
  a.call.elim [] fun k => inserted (p.ownOf k)

/-- The attempts are calls that forward this Commit, each a call of its own. -/
def Forwards (p : HomePool) (peer : Peer) (req : ForwardCommit) (attempts : List Attempt) : Prop :=
  (attempts.filterMap Attempt.call).Nodup ∧
    ∀ a ∈ attempts, ∀ k ∈ a.call, ∃ c ∈ p.calls[k]?, c.request = .forwardCommit peer req

instance (p : HomePool) (peer : Peer) (req : ForwardCommit) (attempts : List Attempt) :
    Decidable (Forwards p peer req attempts) :=
  inferInstanceAs (Decidable (_ ∧ ∀ a ∈ attempts, ∀ k ∈ a.call, ∃ c ∈ p.calls[k]?, _))

/-- An answer the loop ends with was met, and every other attempt met a status that is retried. -/
theorem attempt_cases {α : Type} {left : ℕ} {last : Status} {met : List (Except Status α)}
    {r : Except Status α} (hend : attempt left last met = some r) :
    (∀ n, r = .ok n → r ∈ met) ∧
      ∀ m ∈ met, m = r ∨ ∃ s, m = .error s ∧ isRetryable s = true := by
  -- an attempt ends the loop only as the last one
  have hdone : ∀ (m : Except Status α) (rest : List (Except Status α)),
      (if rest.isEmpty then some m else none) = some r → rest = [] ∧ m = r := by
    intro m rest h
    obtain ⟨hempty, hr⟩ := ite_none_right_eq_some.mp h
    exact ⟨isEmpty_iff.mp hempty, some.inj hr⟩
  induction left generalizing last met with
  | zero =>
    cases met with
    | nil =>
      obtain rfl := some.inj hend
      simp
    | cons m met => cases hend
  | succ left ih =>
    cases met with
    | nil => cases hend
    | cons m met =>
      cases m with
      | ok n =>
        obtain ⟨rfl, rfl⟩ := hdone _ met hend
        simp
      | error s =>
        cases hs : isRetryable s with
        | false =>
          simp only [attempt, hs, Bool.false_eq_true, if_false] at hend
          obtain ⟨rfl, rfl⟩ := hdone _ met hend
          simp
        | true =>
          simp only [attempt, hs, if_true] at hend
          obtain ⟨hr, hmet⟩ := ih hend
          exact ⟨fun n h => .tail _ (hr n h),
            forall_mem_cons.mpr ⟨.inr ⟨s, rfl, hs⟩, hmet⟩⟩

section

variable {cfg : Config} {w₀ : World} {es : List (Turn Request Choice)} {p : HomePool}
  {A : World → Choice → World → Prop} {peer : Peer} {req : ForwardCommit} {g : GroupId}
  {attempts : List Attempt} {met : List (Except Status Epoch)} {a : Attempt} {e : Envelope}
  (hrun : Steps (Pool.Step machine A (serve cfg)) ⟨w₀, []⟩ es p) (hg : req.groupId = some g)

/-- The call of an attempt that stored something. -/
theorem call_of_stored (hforwards : Forwards p peer req attempts) (ha : a ∈ attempts)
    (he : e ∈ a.stored p) : ∃ k c, a.call = some k ∧ p.calls[k]? = some c ∧
      c.request = .forwardCommit peer req ∧ a.stored p = inserted c.own := by
  cases hk : a.call with
  | none =>
    rw [Attempt.stored, hk] at he
    exact absurd he not_mem_nil
  | some k =>
    obtain ⟨c, hc, hrequest⟩ := hforwards.2 a ha k hk
    refine ⟨k, c, rfl, hc, hrequest, ?_⟩
    rw [Attempt.stored, hk, elim_some, Pool.ownOf_eq hc]

include hrun hg in
/-- What an attempt stores is the Commit of the epoch after the expected one. -/
theorem forwarded_of_stored (hforwards : Forwards p peer req attempts) (ha : a ∈ attempts)
    (he : e ∈ a.stored p) :
    e.groupId = g ∧ e.messageType = .commit ∧ e.epoch = some (req.expectedEpoch + 1) := by
  obtain ⟨k, c, -, hc, hrequest, hstored⟩ := call_of_stored hforwards ha he
  have hmay := may_of_inserted hrun (mem_of_getElem? hc) (hstored ▸ he)
  rw [hrequest] at hmay
  obtain hmay | ⟨g', x, e', ⟨hge, -, htype, hreq, rfl, -⟩, rfl⟩ := hmay
  · exact hmay.elim
  · exact ⟨hge.trans (some.inj (hreq.symm.trans hg)), htype, rfl⟩

include hrun hg in
/-- All attempts together store at most one Commit: a later one finds the epoch taken. -/
theorem length_stored_le_one (hforwards : Forwards p peer req attempts) :
    (attempts.flatMap (Attempt.stored p)).length ≤ 1 := by
  refine length_flatMap_le_one (fun a ha => ?_) ?_
  · cases hnew : a.stored p with
    | nil => exact Nat.zero_le 1
    | cons e rest =>
      obtain ⟨k, c, -, hc, -, hstored⟩ := call_of_stored hforwards ha (hnew ▸ mem_cons_self)
      rw [← hnew, hstored]
      refine length_inserted_le_one (g := g) (n := req.expectedEpoch + 1) hrun hc fun e he => ?_
      obtain ⟨hge, -, hn⟩ := forwarded_of_stored hrun hg hforwards ha (hstored ▸ he)
      exact ⟨hge, hn⟩
  · refine Pairwise.imp_of_mem ?_ (pairwise_filterMap.mp hforwards.1)
    intro a b ha hb hne e he e' he'
    obtain ⟨k, c, hk, hc, -, hstored⟩ := call_of_stored hforwards ha he
    obtain ⟨l, d, hl, hd, -, hstored'⟩ := call_of_stored hforwards hb he'
    obtain ⟨hge, -, hn⟩ := forwarded_of_stored hrun hg hforwards ha he
    obtain ⟨hge', -, hn'⟩ := forwarded_of_stored hrun hg hforwards hb he'
    exact inserted_epochs_distinct hrun (hne k hk l hl) hc hd (hstored ▸ he) (hstored' ▸ he')
      hge hge' hn hn'

/-- What an attempt stored that met this: the Commit of the epoch; or nothing, unless the answer is
lost or an internal error. -/
def Attempt.ReportedAs (a : Attempt) (g : GroupId) (new : List Envelope) :
    Except Status Epoch → Prop
  | .ok n => ∃ e, new = [e] ∧ e.groupId = g ∧ e.messageType = .commit ∧ e.epoch = some n
  | .error s => new = [] ∨ a.answered = false ∨ ∃ message, s = .sent .internal message

include hrun hg in
theorem reportedAs_met (hforwards : Forwards p peer req attempts) (ha : a ∈ attempts)
    {r : Except Status Epoch} (hmet : a.met p = some r) : a.ReportedAs g (a.stored p) r := by
  unfold Attempt.met at hmet
  split at hmet
  · obtain ⟨k, hk, hanswer⟩ := bind_eq_some_iff.mp hmet
    obtain ⟨c, hc, hanswer⟩ := bind_eq_some_iff.mp hanswer
    obtain ⟨c', hc', hrequest⟩ := hforwards.2 a ha k hk
    obtain rfl : c' = c := some.inj (hc'.symm.trans hc)
    have hmem := mem_of_getElem? hc
    rw [Attempt.stored, hk, elim_some, Pool.ownOf_eq hc]
    unfold answerOf at hanswer
    split at hanswer
    · next n hrest =>
      obtain rfl := some.inj hanswer
      have hcommits : c'.request.CommitsTo g := hrequest ▸ hg
      exact Pool.own_returned hrun hmem (r := .ok _) hrest (wpInserted_commitsTo cfg hcommits) n rfl
    · next code message hrest =>
      obtain rfl := some.inj hanswer
      by_cases hcode : code = .internal
      · exact .inr (.inr ⟨message, hcode ▸ rfl⟩)
      · have hext : (Failure.status code message).isInternal = false := by
          cases code <;> first | rfl | exact absurd rfl hcode
        exact .inl (Pool.own_returned hrun hmem (r := .error _) hrest
          (wpInserted_serve cfg c'.request) _ rfl hext)
    · cases hanswer
  · next hlost =>
    obtain rfl := some.inj hmet
    exact .inr (.inl (Bool.eq_false_iff.mpr hlost))

include hrun hg in
/-- Let the home region serve any requests, in any interleaving and with any failures, and let one
call of the client forward a Commit to it, any of its requests and answers being lost. A call that
ends with a status, be it retried or a rejection, stored nothing, or one Commit, of the epoch after
the expected one, by an attempt whose answer was lost or an internal error; and one that ends with
an epoch stored exactly the Commit of that epoch. -/
theorem forwarded_commit_reported {circuit : CircuitBreaker} {start end_ : Time} {maxRetries : ℕ}
    {r : Except GrpcError Epoch} {event : Option CallEvent}
    (hforwards : Forwards p peer req attempts)
    (hmet : attempts.map (Attempt.met p) = met.map some)
    (hend : withRetry circuit start end_ maxRetries met = some (r, event)) :
    (∀ s, r = .error (.status s) → attempts.flatMap (Attempt.stored p) = [] ∨
      ∃ e, attempts.flatMap (Attempt.stored p) = [e] ∧ e.groupId = g ∧ e.messageType = .commit ∧
        e.epoch = some (req.expectedEpoch + 1) ∧
        ∃ a ∈ attempts, e ∈ a.stored p ∧ (a.answered = false ∨
          ∃ message, a.met p = some (.error (.sent .internal message)))) ∧
    ∀ n, r = .ok n → ∃ e, attempts.flatMap (Attempt.stored p) = [e] ∧ e.groupId = g ∧
      e.messageType = .commit ∧ e.epoch = some n := by
  have hall : ∀ {e}, e ∈ attempts.flatMap (Attempt.stored p) →
      attempts.flatMap (Attempt.stored p) = [e] := fun he =>
    ((singleton_sublist.mpr he).eq_of_length_le (length_stored_le_one hrun hg hforwards)).symm
  unfold withRetry at hend
  split at hend
  · obtain ⟨-, hr⟩ := Option.ite_none_right_eq_some.mp hend
    obtain ⟨rfl, -⟩ := Prod.mk.inj (Option.some.inj hr)
    constructor <;> (intro _ h; cases h)
  · obtain ⟨last, hlast, hr⟩ := Option.map_eq_some_iff.mp hend
    obtain ⟨hmem, hothers⟩ := attempt_cases hlast
    cases last with
    | ok n =>
      obtain ⟨rfl, -⟩ := Prod.mk.inj hr
      refine ⟨(fun _ h => by cases h), ?_⟩
      intro n' h
      cases h
      obtain ⟨a, ha, hanswer⟩ := mem_map.mp (hmet ▸ mem_map_of_mem (hmem n rfl))
      obtain ⟨e, hnew, hcommit⟩ := reportedAs_met hrun hg hforwards ha hanswer
      exact ⟨e, hall (mem_flatMap.mpr ⟨a, ha, hnew ▸ mem_singleton_self e⟩), hcommit⟩
    | error s =>
      obtain ⟨rfl, -⟩ := Prod.mk.inj hr
      refine ⟨?_, (fun _ h => by cases h)⟩
      intro s' _
      by_cases hnil : attempts.flatMap (Attempt.stored p) = []
      · exact .inl hnil
      obtain ⟨e, he⟩ := exists_mem_of_ne_nil _ hnil
      obtain ⟨a, ha, hea⟩ := mem_flatMap.mp he
      obtain ⟨hge, htype, hn⟩ := forwarded_of_stored hrun hg hforwards ha hea
      refine .inr ⟨e, hall he, hge, htype, hn, a, ha, hea, ?_⟩
      obtain ⟨m, hm, hanswer⟩ := mem_map.mp (hmet ▸ mem_map_of_mem ha)
      have hreported := reportedAs_met hrun hg hforwards ha hanswer.symm
      obtain ⟨s', rfl⟩ : ∃ s', m = .error s' := by
        rcases hothers m hm with rfl | ⟨s', rfl, -⟩
        · exact ⟨s, rfl⟩
        · exact ⟨s', rfl⟩
      rcases hreported with hnone | hlost | ⟨message, rfl⟩
      · exact absurd (hnone ▸ hea) not_mem_nil
      · exact .inl hlost
      · exact .inr ⟨message, hanswer.symm⟩

end

/-! ### A lost answer -/

namespace Sample

/-- A Commit of a member, forwarded by the region `us`. -/
def forwarded : ForwardCommit := ⟨some 1, some 7, [2], 0⟩

/-- Two attempts reach the region, one after the other. -/
def attemptTurns : List (Turn Request Choice) :=
  .start (.forwardCommit (.certificate (some ["us"])) forwarded) ::
    replicate 5 (.act 0 { Choice.plain with uuid := 10 }) ++
  .start (.forwardCommit (.certificate (some ["us"])) forwarded) ::
    replicate 5 (.act 1 { Choice.plain with uuid := 11 })

/-- The first answer is lost, and what the client then meets. -/
def answerLost : List Attempt × List (Except Status Epoch) :=
  ([⟨some 0, false⟩, ⟨some 1, true⟩],
    [.error .transport, .error (.sent .failedPrecondition "epoch mismatch")])

/-- The first request is lost. -/
def requestLost : List Attempt × List (Except Status Epoch) :=
  ([⟨none, false⟩, ⟨some 0, true⟩], [.error .transport, .ok 1])

end Sample

open Sample

/-- The answer to the first attempt is lost. The second is refused, as the first one took the
epoch: the call ends as rejected, and the Commit is stored. -/
theorem rejected_commit_stored : ∃ p,
    Steps (Pool.Step machine Pool.Unrestricted (serve config)) ⟨world, []⟩ attemptTurns p ∧
    Forwards p (.certificate (some ["us"])) forwarded answerLost.1 ∧
    answerLost.1.map (Attempt.met p) = answerLost.2.map some ∧
    withRetry (.new 5 0) 0 0 3 answerLost.2 =
      some (.error (.status (.sent .failedPrecondition "epoch mismatch")), none) ∧
    (answerLost.1.flatMap (Attempt.stored p)).length = 1 := by
  exact Pool.exists_steps_of_play ..

/-- The answer to the first attempt is lost, and it is that attempt which stored the Commit. If
the request of the first attempt is lost, the second one stores it and says so. -/
theorem forwarded_commit_reported_sample : ∃ p,
    Steps (Pool.Step machine Pool.Unrestricted (serve config)) ⟨world, []⟩ attemptTurns p ∧
    (∃ e, answerLost.1.flatMap (Attempt.stored p) = [e] ∧ e.epoch = some 1) ∧
    ∃ e, requestLost.1.flatMap (Attempt.stored p) = [e] ∧ e.epoch = some 1 := by
  obtain ⟨p, hrun, hforwards, hmet, hstored, hforwards', hmet'⟩ :=
    Pool.exists_steps_of_play machine (serve config) ⟨world, []⟩ attemptTurns fun p =>
      Forwards p (.certificate (some ["us"])) forwarded answerLost.1 ∧
      answerLost.1.map (Attempt.met p) = answerLost.2.map some ∧
      answerLost.1.flatMap (Attempt.stored p) ≠ [] ∧
      Forwards p (.certificate (some ["us"])) forwarded requestLost.1 ∧
      requestLost.1.map (Attempt.met p) = requestLost.2.map some
  have hend : withRetry (.new 5 0) 0 0 3 answerLost.2 =
    some (.error (.status (.sent .failedPrecondition "epoch mismatch")), none) := rfl
  have hend' : withRetry (.new 5 0) 0 0 3 requestLost.2 = some (.ok 1, some .success) := rfl
  obtain ⟨e, he, -, -, hn, -⟩ :=
    ((forwarded_commit_reported hrun rfl hforwards hmet hend).1 _ rfl).resolve_left hstored
  obtain ⟨e', he', -, -, hn'⟩ :=
    (forwarded_commit_reported hrun rfl hforwards' hmet' hend').2 1 rfl
  exact ⟨p, hrun, ⟨e, he, hn⟩, e', he', hn'⟩

end Powehi.Server
