import Powehi.Web.Polling

/-!
# Deferred envelopes in the web client

A poll hands the Application and Commit envelopes of the bound group to the crypto worker, one after
the other. An envelope has to wait if its sender is over its decrypt rate, or if another one waits
already; the next poll begins with those that wait. Either kind has a cap of its own, and a sender
with few Commits among those that wait evicts one of a sender with more.

So within one effect run the worker gets the envelopes in the order of delivery, whatever fails.
-/

namespace Powehi.Web

open Server List

def decryptRateWindowMs : ℕ := 10000

def decryptRateMax : ℕ := 100

def maxDeferredEnvelopes : ℕ := 500

def maxDeferredCommits : ℕ := 16

def maxDeferredCommitsPerSender : ℕ := 4

def maxAckRetries : ℕ := 3

def isCommit (e : Envelope) : Bool := e.messageType = .commit

/-- The envelopes that wait, and what became of the others. One that was lost is recorded with those
that waited at the time. -/
structure Fate where
  deferred : List Envelope := []
  handed : List Envelope := []
  dropped : List (Envelope × List Envelope) := []
  evicted : List (Envelope × List Envelope) := []

/-- How it ends that an envelope is handed over; an own Commit is one that was merged before. -/
inductive Answer
  | ok
  | ownCommit
  | failed

/-- A poll that is not cancelled: its page, unless the request fails, the time at which an envelope
is processed and at which stale entries are swept, the worker's answers, and whether an attempt to
ack succeeds. -/
structure Tick where
  page : Option (List Envelope)
  now : EnvelopeId → ℕ
  sweepAt : ℕ
  answer : EnvelopeId → Answer
  acks : EnvelopeId → ℕ → Bool

/-- What one effect run works with. A sender without an entry has no timestamps. -/
structure Run where
  decryptTimestampsRef : DeviceId → List ℕ
  fate : Fate := {}
  acked : List EnvelopeId := []

namespace Fate

def drop (f : Fate) (env : Envelope) : Fate :=
  { f with dropped := f.dropped ++ [(env, f.deferred)] }

def push (f : Fate) (env : Envelope) : Fate := { f with deferred := f.deferred ++ [env] }

/-- The sender with the most Commits, other than the given one and with more than `count`; the first
of those with equally many. -/
def evictSender (commits : List Envelope) (sender : DeviceId) (count : ℕ) : Option DeviceId :=
  let counts d := commits.countP (·.sender = d)
  ((commits.map Envelope.sender).filter fun d => d ≠ sender ∧ count < counts d).argmax counts

def deferCommit (f : Fate) (env : Envelope) : Fate :=
  let commits := f.deferred.filter isCommit
  let count := commits.countP (·.sender = env.sender)
  if maxDeferredCommits ≤ commits.length then
    if maxDeferredCommitsPerSender ≤ count then f.drop env
    else
      match evictSender commits env.sender count with
      | none => f.drop env
      | some d =>
        let victim := fun e => isCommit e && e.sender = d
        match f.deferred.find? victim with
        | none => f.drop env
        | some e =>
          { f with
            deferred := f.deferred.eraseP victim
            evicted := f.evicted ++ [(e, f.deferred)] }.push env
  else f.push env

def deferApplication (f : Fate) (env : Envelope) : Fate :=
  if (f.deferred.filter (!isCommit ·)).length < maxDeferredEnvelopes then f.push env else f.drop env

end Fate

namespace Run

def withinDecryptRateLimit (s : Run) (now : ℕ) (sender : DeviceId) : Bool × Run :=
  let recent := (s.decryptTimestampsRef sender).filter fun t => now < t + decryptRateWindowMs
  let set ts : Run :=
    { s with decryptTimestampsRef := Function.update s.decryptTimestampsRef sender ts }
  if decryptRateMax ≤ recent.length then (false, set recent) else (true, set (recent ++ [now]))

def sweepStaleDecryptRateEntries (s : Run) (now : ℕ) : Run :=
  { s with decryptTimestampsRef := fun sender =>
      let ts := s.decryptTimestampsRef sender
      if ts.any fun t => now < t + decryptRateWindowMs then ts else [] }

/-- Try to ack an envelope, a number of times. -/
def ackMessage (s : Run) (t : Tick) (id : EnvelopeId) (attempts : ℕ) : Run :=
  if (range attempts).any (t.acks id) then { s with acked := s.acked ++ [id] } else s

/-- Hand an envelope to the worker. -/
def handOver (s : Run) (t : Tick) (env : Envelope) : Run :=
  let s : Run := { s with fate.handed := s.fate.handed ++ [env] }
  match t.answer env.id with
  | .ok => s.ackMessage t env.id (if isCommit env then maxAckRetries else 1)
  | .ownCommit => s.ackMessage t env.id (if isCommit env then 1 else 0)
  | .failed => s

/-- Defer an envelope behind those that wait, or if its sender is over its rate. -/
def handOrDefer (s : Run) (t : Tick) (env : Envelope) (defer : Fate → Fate) : Run :=
  if s.fate.deferred ≠ [] then { s with fate := defer s.fate }
  else
    let r := s.withinDecryptRateLimit (t.now env.id) env.sender
    if r.1 then r.2.handOver t env else { r.2 with fate := defer r.2.fate }

def processEnvelope (g : GroupId) (t : Tick) (s : Run) (env : Envelope) : Run :=
  match env.messageType with
  | .welcome => s
  | .commit =>
    if env.groupId ≠ g then s else s.handOrDefer t env (·.deferCommit env)
  | .proposal => s.ackMessage t env.id 1
  | .application =>
    if env.groupId ≠ g then s else s.handOrDefer t env (·.deferApplication env)

def poll (g : GroupId) (s : Run) (t : Tick) : Run :=
  match t.page with
  | none => s
  | some envelopes =>
    ((combined (s.fate.deferred ++ envelopes)).foldl (processEnvelope g t)
      { s with fate.deferred := [] }).sweepStaleDecryptRateEntries t.sweepAt

end Run

/-! ### What becomes of an envelope -/

/-- The envelopes of the bound group that are for the worker. -/
def isBound (g : GroupId) (e : Envelope) : Bool :=
  e.groupId = g && (e.messageType = .commit || e.messageType = .application)

/-- The cap for the kind of an envelope is reached. -/
def Full (env : Envelope) (deferred : List Envelope) : Prop :=
  if isCommit env then maxDeferredCommits ≤ (deferred.filter isCommit).length
  else maxDeferredEnvelopes ≤ (deferred.filter (!isCommit ·)).length

/-- The sender of an envelope has a Commit among those that wait. -/
def Holds (env : Envelope) (deferred : List Envelope) : Prop :=
  ∃ e ∈ deferred, isCommit e = true ∧ e.sender = env.sender

inductive Handled (g : GroupId) (env : Envelope) (f : Fate) : Fate → Prop
  | skip (h : isBound g env = false) : Handled g env f f
  | hand (h : isBound g env = true) (hnone : f.deferred = []) :
      Handled g env f { f with handed := f.handed ++ [env] }
  | push (h : isBound g env = true) (room : ¬Full env f.deferred) : Handled g env f (f.push env)
  | drop (h : isBound g env = true) (full : Full env f.deferred)
      (holds : isCommit env = true → Holds env f.deferred) : Handled g env f (f.drop env)
  | evict {pre post : List Envelope} {e : Envelope} (h : isBound g env = true)
      (full : Full env f.deferred) (henv : isCommit env = true) (he : isCommit e = true)
      (hsplit : f.deferred = pre ++ e :: post) :
      Handled g env f { f with
        deferred := pre ++ post ++ [env], evicted := f.evicted ++ [(e, f.deferred)] }

section

variable {g : GroupId} {env : Envelope} {f : Fate} {t : Tick} {s : Run}

theorem eraseP_of_find {p : Envelope → Bool} {l : List Envelope} {v : Envelope}
    (hv : l.find? p = some v) : ∃ pre post, l = pre ++ v :: post ∧ l.eraseP p = pre ++ post := by
  obtain ⟨hpos, pre, post, rfl, hpre⟩ := find?_eq_some_iff_append.mp hv
  refine ⟨pre, post, rfl, ?_⟩
  rw [eraseP_append_right _ (by simpa using hpre), eraseP_cons_of_pos hpos]

theorem handled_deferCommit (h : isBound g env = true) (hc : isCommit env = true) :
    Handled g env f (f.deferCommit env) := by
  have hfull : Full env f.deferred ↔ maxDeferredCommits ≤ (f.deferred.filter isCommit).length := by
    rw [Full, if_pos hc]
  have hmem {e : Envelope} : e ∈ f.deferred.filter isCommit → e ∈ f.deferred ∧ isCommit e = true :=
    mem_filter.mp
  unfold Fate.deferCommit
  dsimp only
  split
  · next hcap =>
    have full := hfull.mpr hcap
    have holds (hpos : 0 < (f.deferred.filter isCommit).countP (·.sender = env.sender)) :
        Holds env f.deferred := by
      obtain ⟨e, he, hsender⟩ := countP_pos_iff.mp hpos
      exact ⟨e, (hmem he).1, (hmem he).2, of_decide_eq_true hsender⟩
    split
    · next hown => exact .drop h full fun _ => holds (lt_of_lt_of_le (by decide) hown)
    · split
      · next hnone =>
        refine .drop h full fun _ => ?_
        -- some sender has a Commit, and if it is another one, it has no more than this one
        obtain ⟨e, he⟩ := exists_mem_of_length_pos (lt_of_lt_of_le (by decide) hcap)
        by_cases hsender : e.sender = env.sender
        · exact ⟨e, (hmem he).1, (hmem he).2, hsender⟩
        · have hle := filter_eq_nil_iff.mp (argmax_eq_none.mp hnone) _
            (mem_map_of_mem he)
          have hle' := not_lt.mp fun hlt => hle (decide_eq_true ⟨hsender, hlt⟩)
          refine holds (lt_of_lt_of_le ?_ hle')
          exact countP_pos_iff.mpr ⟨e, he, decide_eq_true rfl⟩
      · next d hd =>
        obtain ⟨e, he, rfl⟩ := mem_map.mp (mem_filter.mp (argmax_mem hd)).1
        split
        · next hnone => simpa [(hmem he).2] using find?_eq_none.mp hnone e (hmem he).1
        · next v hv =>
          obtain ⟨pre, post, hsplit, herase⟩ := eraseP_of_find hv
          rw [Fate.push, herase]
          exact .evict h full hc (by grind) hsplit
  · next hroom => exact .push h fun hfull' => hroom (hfull.mp hfull')

theorem handled_deferApplication (h : isBound g env = true) (hc : isCommit env = false) :
    Handled g env f (f.deferApplication env) := by
  have hfull : Full env f.deferred ↔
      maxDeferredEnvelopes ≤ (f.deferred.filter (!isCommit ·)).length := by
    rw [Full, if_neg (by simp [hc])]
  unfold Fate.deferApplication
  split
  · next hroom => exact .push h fun hfull' => absurd hroom (not_lt.mpr (hfull.mp hfull'))
  · next hcap => exact .drop h (hfull.mpr (not_lt.mp hcap)) fun hc' => by simp [hc] at hc'

@[simp] theorem fate_ackMessage (id : EnvelopeId) (n : ℕ) :
    (s.ackMessage t id n).fate = s.fate := by
  unfold Run.ackMessage
  split <;> rfl

theorem fate_handOver :
    (s.handOver t env).fate = { s.fate with handed := s.fate.handed ++ [env] } := by
  unfold Run.handOver
  cases t.answer env.id <;> simp

theorem fate_withinDecryptRateLimit (now : ℕ) (sender : DeviceId) :
    (s.withinDecryptRateLimit now sender).2.fate = s.fate := by
  unfold Run.withinDecryptRateLimit
  dsimp only
  split <;> rfl

theorem handled_handOrDefer {defer : Fate → Fate} (h : isBound g env = true)
    (hdefer : ∀ f, Handled g env f (defer f)) :
    Handled g env s.fate (s.handOrDefer t env defer).fate := by
  unfold Run.handOrDefer
  split
  · exact hdefer _
  · next hnone =>
    dsimp only
    split
    · rw [fate_handOver, fate_withinDecryptRateLimit]
      exact .hand h (not_not.mp hnone)
    · rw [fate_withinDecryptRateLimit]
      exact hdefer _

theorem handled_processEnvelope : Handled g env s.fate (s.processEnvelope g t env).fate := by
  unfold Run.processEnvelope
  split
  · next hty => exact .skip (by simp [isBound, hty])
  · next hty =>
    split
    · next hg => exact .skip (by simp [isBound, hg])
    · next hg =>
      have h : isBound g env = true := by simp [isBound, hty, not_not.mp hg]
      exact handled_handOrDefer h fun _ => handled_deferCommit h (by simp [isCommit, hty])
  · next hty =>
    rw [fate_ackMessage]
    exact .skip (by simp [isBound, hty])
  · next hty =>
    split
    · next hg => exact .skip (by simp [isBound, hg])
    · next hg =>
      have h : isBound g env = true := by simp [isBound, hty, not_not.mp hg]
      exact handled_handOrDefer h fun _ => handled_deferApplication h (by simp [isCommit, hty])

/-! ### Delivery order -/

/-- Neither kind is over its cap. -/
def Fate.Within (f : Fate) : Prop :=
  (f.deferred.filter isCommit).length ≤ maxDeferredCommits ∧
    (f.deferred.filter (!isCommit ·)).length ≤ maxDeferredEnvelopes

/-- What holds while a poll has `left` of the delivered envelopes still to process. -/
structure InOrder (g : GroupId) (delivered left : List Envelope) (f : Fate) : Prop where
  order : (f.handed ++ f.deferred ++ left.filter (isBound g)).Sublist (delivered.filter (isBound g))
  kept : ∀ e ∈ delivered, isBound g e = true → e ∈ f.handed ∨ e ∈ f.deferred ∨
    e ∈ (f.dropped ++ f.evicted).map Prod.fst ∨ e ∈ left
  full : ∀ p ∈ f.dropped ++ f.evicted, Full p.1 p.2
  holds : ∀ p ∈ f.dropped, isCommit p.1 = true → Holds p.1 p.2
  caps : f.Within

variable {delivered left : List Envelope} {f' : Fate}

theorem InOrder.handled (hf : InOrder g delivered (env :: left) f) (h : Handled g env f f') :
    InOrder g delivered left f' := by
  obtain ⟨order, kept, hfull, hholds, caps⟩ := hf
  cases h with
  | skip h => exact ⟨by simpa [h] using order, by grind, hfull, hholds, caps⟩
  | hand h hnone => exact ⟨by simpa [h, hnone] using order, by grind, hfull, hholds, caps⟩
  | push h room =>
    refine ⟨by simpa [h, Fate.push] using order, by grind [Fate.push], hfull, hholds, ?_⟩
    grind [Fate.Within, Fate.push, Full]
  | drop h full hold =>
    simp only [h, filter_cons_of_pos] at order
    refine ⟨.trans (by simp [Fate.drop]) order, by grind [Fate.drop], ?_, ?_, caps⟩
    · simp only [Fate.drop, forall_mem_append, forall_mem_singleton] at hfull ⊢
      exact ⟨⟨hfull.1, full⟩, hfull.2⟩
    · exact forall_mem_append.mpr ⟨hholds, forall_mem_singleton.mpr hold⟩
  | evict h full henv he hsplit =>
    simp only [h, hsplit, filter_cons_of_pos] at order
    refine ⟨.trans (by simp) order, by grind, ?_, hholds, ?_⟩
    · simp only [forall_mem_append, forall_mem_singleton] at hfull ⊢
      exact ⟨hfull.1, hfull.2, by simpa [Full, he, henv] using full⟩
    · simp only [Fate.Within, hsplit, filter_append, length_append] at caps ⊢
      simpa [he, henv, add_assoc] using caps

theorem InOrder.foldl (hs : InOrder g delivered left s.fate) :
    InOrder g delivered [] (left.foldl (Run.processEnvelope g t) s).fate := by
  induction left generalizing s with
  | nil => exact hs
  | cons env left ih => exact ih (hs.handled handled_processEnvelope)

theorem foldl_combined (envs out : List Envelope) (h : ((out ++ envs).map Envelope.id).Nodup) :
    envs.foldl (fun out env => if env.id ∈ out.map Envelope.id then out else out ++ [env]) out =
      out ++ envs := by
  induction envs generalizing out with
  | nil => simp
  | cons env envs ih =>
    have hnew : env.id ∉ out.map Envelope.id := by
      rw [map_append, nodup_append] at h
      exact fun hmem => h.2.2 _ hmem _ (by simp) rfl
    rw [foldl_cons, if_neg hnew, ih _ (by simpa using h), append_assoc, singleton_append]

def Tick.envelopes (t : Tick) : List Envelope := t.page.getD []

theorem InOrder.poll (hs : InOrder g delivered [] s.fate)
    (h : ((delivered ++ t.envelopes).map Envelope.id).Nodup) :
    InOrder g (delivered ++ t.envelopes) [] (s.poll g t).fate := by
  unfold Run.poll
  cases hpage : t.page with
  | none => simpa [Tick.envelopes, hpage] using hs
  | some page =>
    rw [Tick.envelopes, hpage, Option.getD_some] at h ⊢
    obtain ⟨order, kept, hfull, hholds, caps⟩ := hs
    rw [filter_nil, append_nil] at order
    have hwait : s.fate.deferred.Sublist delivered :=
      (sublist_append_right _ _).trans (order.trans filter_sublist)
    have hcombined : combined (s.fate.deferred ++ page) = s.fate.deferred ++ page :=
      foldl_combined _ [] (h.sublist ((hwait.append_right page).map Envelope.id))
    dsimp only [Run.sweepStaleDecryptRateEntries]
    rw [hcombined]
    refine InOrder.foldl ⟨?_, ?_, hfull, hholds, by simp [Fate.Within]⟩
    · rw [append_nil, filter_append, filter_append, ← append_assoc]
      exact .trans ((filter_sublist.append_left _).append_right _) (order.append_right _)
    · grind

end

/-- The worker gets the envelopes in the order of delivery and none of them twice, those that wait
are in this order and within their caps, none is lost before the cap for its kind is reached, and a
Commit of a sender without one among those that wait is not dropped. -/
theorem processed_in_delivery_order (g : GroupId) (timestamps : DeviceId → List ℕ)
    (ticks : List Tick) (h : ((ticks.flatMap Tick.envelopes).map Envelope.id).Nodup) :
    let delivered := (ticks.flatMap Tick.envelopes).filter (isBound g)
    let f := (ticks.foldl (Run.poll g) { decryptTimestampsRef := timestamps }).fate
    f.handed.Sublist delivered ∧ (f.handed.map Envelope.id).Nodup ∧
      f.deferred.Sublist delivered ∧ f.Within ∧
      (∀ e ∈ delivered, e ∈ f.handed ∨ e ∈ f.deferred ∨
        ∃ q, (e, q) ∈ f.dropped ++ f.evicted ∧ Full e q) ∧
      ∀ p ∈ f.dropped, isCommit p.1 = true → Holds p.1 p.2 := by
  have hall : InOrder g (ticks.flatMap Tick.envelopes) []
      (ticks.foldl (Run.poll g) { decryptTimestampsRef := timestamps }).fate := by
    induction ticks using reverseRecOn with
    | nil => exact ⟨.slnil, nofun, nofun, nofun, by simp [Fate.Within]⟩
    | append_singleton ticks t ih =>
      rw [flatMap_append, flatMap_singleton] at h ⊢
      rw [foldl_append]
      exact (ih (h.sublist ((sublist_append_left _ _).map _))).poll h
  obtain ⟨order, kept, hfull, hholds, caps⟩ := hall
  rw [filter_nil, append_nil] at order
  have hhanded := (sublist_append_left _ _).trans order
  refine ⟨hhanded, h.sublist ((hhanded.trans filter_sublist).map _),
    (sublist_append_right _ _).trans order, caps, fun e he => ?_, hholds⟩
  obtain ⟨he, hb⟩ := mem_filter.mp he
  rcases kept e he hb with he | he | he | he
  · exact .inl he
  · exact .inr (.inl he)
  · obtain ⟨p, hp, rfl⟩ := mem_map.mp he
    exact .inr (.inr ⟨p.2, hp, hfull p hp⟩)
  · cases he

/-- One sender is over its rate, so another one's message waits behind. Two polls later, after a
request that failed, both are handed over. -/
theorem processed_in_delivery_order_sample :
    let message (id : EnvelopeId) (sender : DeviceId) : Envelope :=
      .new id 0 0 sender none .application []
    let tick (page : Option (List Envelope)) (now : ℕ) : Tick :=
      ⟨page, fun _ => now, now, fun _ => .ok, fun _ _ => true⟩
    let timestamps (sender : DeviceId) := if sender = 1 then replicate 100 0 else []
    let run (ticks : List Tick) : Run :=
      ticks.foldl (Run.poll 0) { decryptTimestampsRef := timestamps }
    let early := [tick (some [message 1 1, message 2 2]) 5, tick none 6]
    let all := early ++ [tick (some []) 10000]
    ((run early).fate.deferred.map Envelope.id = [1, 2] ∧ (run early).fate.handed = []) ∧
      (run all).fate.handed.map Envelope.id = [1, 2] ∧
      ((run all).fate.handed.map Envelope.id).Nodup :=
  ⟨by decide +kernel, by decide +kernel,
    (processed_in_delivery_order 0 _ _ (by decide +kernel)).2.1⟩

end Powehi.Web
