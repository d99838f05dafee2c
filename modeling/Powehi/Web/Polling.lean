import Powehi.Semantics.Trace
import Powehi.Server.Types

/-!
# Polling in the web client

A session has one instance of `useMessages`. Its effect runs again whenever the session, the worker
or the bound group changes, and what an earlier run awaits goes on. A poll claims the slot
`pollInFlightRef` for its group; the next poll of the group gives way as long as the slot names it.

The slot names one group only. A poll of another group takes it over while the first one is still
handing an envelope to the crypto worker, and after a switch back nothing tells the new run of it.
-/

namespace Powehi.Web

open Semantics Server List

/-- What a poll awaits: its page, or the processing of an envelope, with those that come after. -/
inductive Phase
  | fetching (since : Option (Time × EnvelopeId))
  | processing (env : Envelope) (left : List Envelope)
deriving DecidableEq

/-- A poll that goes on, with the group and the token of the effect run that started it. -/
structure Poll where
  groupId : GroupId
  run : ℕ
  phase : Phase
deriving DecidableEq

structure Hook where
  sinceRef : Option (Time × EnvelopeId) := none
  deferredEnvelopesRef : List Envelope := []
  pollInFlightRef : Option (GroupId × ℕ) := none
  runTokenRef : ℕ := 0
  /-- The effect run that is not cancelled. -/
  current : Option (GroupId × ℕ) := none
  polls : List Poll := []

inductive Event
  /-- The effect is cleaned up; it runs again if there is a session, a worker and a group. -/
  | effect (groupId : Option GroupId)
  /-- The interval of the current run fires. -/
  | tick
  /-- The page of a poll arrives, or its request fails. -/
  | fetched (k : ℕ) (page : Option (List Envelope))
  /-- The processing of an envelope ends or throws, and leaves these envelopes deferred. -/
  | processed (k : ℕ) (ok : Bool) (deferred : List Envelope)

/-- The envelopes without those whose id came before. -/
def combined (envs : List Envelope) : List Envelope :=
  envs.foldl (fun out env => if env.id ∈ out.map Envelope.id then out else out ++ [env]) []

namespace Hook

variable {s : Hook} {k : ℕ} {p : Poll}

def poll (s : Hook) : Hook :=
  match s.current with
  | none => s
  | some (g, run) =>
    if s.pollInFlightRef.map Prod.fst = some g then s
    else { s with
      pollInFlightRef := some (g, run)
      polls := s.polls ++ [⟨g, run, .fetching s.sinceRef⟩] }

/-- A poll ends. It clears the slot if it is the one that claimed it. -/
def finish (s : Hook) (k : ℕ) (p : Poll) : Hook :=
  { s with
    polls := s.polls.eraseIdx k
    pollInFlightRef :=
      if s.pollInFlightRef = some (p.groupId, p.run) then none else s.pollInFlightRef }

/-- The loop over the envelopes goes on, unless the run is cancelled. -/
def goOn (s : Hook) (k : ℕ) (p : Poll) : List Envelope → Hook
  | [] => s.finish k p
  | env :: left =>
    if s.current = some (p.groupId, p.run) then
      { s with polls := s.polls.set k { p with phase := .processing env left } }
    else s.finish k p

def fetched (s : Hook) (k : ℕ) (p : Poll) : Option (List Envelope) → Hook
  | none => s.finish k p
  | some envelopes =>
    if s.current = some (p.groupId, p.run) then
      { s with
        sinceRef := (envelopes.getLast?.map fun e : Envelope => (e.createdAt, e.id)).or s.sinceRef
        deferredEnvelopesRef := [] }.goOn k p (combined (s.deferredEnvelopesRef ++ envelopes))
    else s.finish k p

def next (s : Hook) (e : Event) : Hook :=
  match e with
  | .effect none => { s with current := none }
  | .effect (some g) =>
    { s with
      sinceRef := none
      deferredEnvelopesRef := []
      runTokenRef := s.runTokenRef + 1
      current := some (g, s.runTokenRef + 1) }.poll
  | .tick => s.poll
  | .fetched k page =>
    match s.polls[k]? with
    | none => s
    | some p =>
      match p.phase with
      | .fetching _ => s.fetched k p page
      | .processing .. => s
  | .processed k ok deferred =>
    match s.polls[k]? with
    | none => s
    | some p =>
      match p.phase with
      | .fetching _ => s
      | .processing _ left =>
        if ok then { s with deferredEnvelopesRef := deferred }.goOn k p left else s.finish k p

/-! ### One poll for each group -/

/-- The groups and effect runs of the polls that go on. -/
def runs (s : Hook) : List (GroupId × ℕ) := s.polls.map fun p => (p.groupId, p.run)

/-- No two polls that go on are for one group, and one for the current group holds the slot. -/
structure Exclusive (s : Hook) : Prop where
  distinct : (s.runs.map Prod.fst).Nodup
  holds : ∀ r ∈ s.runs, ∀ run, s.current = some (r.1, run) → s.pollInFlightRef = some r

theorem Exclusive.finish (h : s.Exclusive) (hp : s.polls[k]? = some p) :
    (s.finish k p).Exclusive := by
  have hruns : (s.finish k p).runs = s.runs.eraseIdx k := (eraseIdx_map ..).symm
  refine ⟨?_, fun r hr run hrun => ?_⟩
  · rw [hruns]
    exact h.distinct.sublist ((eraseIdx_sublist ..).map _)
  rw [hruns, mem_eraseIdx_iff_getElem?] at hr
  obtain ⟨i, hik, hi⟩ := hr
  have hslot := h.holds r (mem_of_getElem? hi) run hrun
  -- only the poll that holds the slot clears it
  refine (if_neg fun hclear => hik ?_).trans hslot
  have hk : (s.runs.map Prod.fst)[k]? = some r.1 := by
    rw [← Option.some.inj (hclear.symm.trans hslot)]
    simp [runs, hp]
  have hi' : (s.runs.map Prod.fst)[i]? = some r.1 := by simp [hi]
  exact (List.getElem?_inj (List.getElem?_eq_some_iff.mp hi').1 h.distinct).mp (hi'.trans hk.symm)

theorem Exclusive.goOn (h : s.Exclusive) (hp : s.polls[k]? = some p) (envs : List Envelope) :
    (s.goOn k p envs).Exclusive := by
  unfold Hook.goOn
  split
  · exact h.finish hp
  · split
    · next env left _ =>
      have hruns : ({ s with polls := s.polls.set k { p with phase := .processing env left } } :
          Hook).runs = s.runs := by
        obtain ⟨hk, rfl⟩ := List.getElem?_eq_some_iff.mp hp
        rw [runs, List.map_set, runs]
        exact (congrArg _ (getElem_map ..).symm).trans (set_getElem_self (by simpa))
      exact ⟨hruns ▸ h.distinct, hruns ▸ h.holds⟩
    · exact h.finish hp

/-- A poll starts only if the slot does not name its group, and then none for the group goes on. -/
theorem Exclusive.poll (h : s.Exclusive) : s.poll.Exclusive := by
  unfold Hook.poll
  split
  · exact h
  · next g run hcurrent =>
    split
    · exact h
    · next hslot =>
      have hnone : ∀ r ∈ s.runs, r.1 ≠ g := by
        rintro r hr rfl
        exact hslot (by rw [h.holds r hr run hcurrent]; rfl)
      refine ⟨?_, ?_⟩
      · have hdistinct := h.distinct
        simp only [runs, map_append, map_map] at hdistinct hnone ⊢
        refine hdistinct.append (nodup_singleton _) ?_
        simpa [runs] using hnone
      · intro r hr run' hrun
        have hg : r.1 = g := congrArg Prod.fst (Option.some.inj (hrun.symm.trans hcurrent))
        rw [runs, map_append] at hr
        rcases mem_append.mp hr with hr | hr
        · exact absurd hg (hnone r hr)
        · rw [mem_singleton.mp hr]

/-- The effect may run for a group: the polls of the group that go on hold the slot. -/
def MayRun (s : Hook) (g : GroupId) : Prop :=
  ∀ r ∈ s.runs, r.1 = g → s.pollInFlightRef = some r

instance (s : Hook) (g : GroupId) : Decidable (s.MayRun g) :=
  inferInstanceAs (Decidable (∀ r ∈ s.runs, _))

/-- A step that keeps to the condition. -/
def OrderlyStep (s : Hook) (e : Event) (s' : Hook) : Prop :=
  s' = s.next e ∧ ∀ g, e = .effect (some g) → s.MayRun g

theorem Exclusive.step {s' : Hook} {e : Event} (h : s.Exclusive) (hstep : s.OrderlyStep e s') :
    s'.Exclusive := by
  obtain ⟨rfl, he⟩ := hstep
  unfold next
  cases e with
  | effect g =>
    cases g with
    | none => exact ⟨h.distinct, fun _ _ _ hrun => by cases hrun⟩
    | some g =>
      apply Exclusive.poll
      refine ⟨h.distinct, fun r hr run hrun => he g rfl r hr ?_⟩
      exact (congrArg Prod.fst (Option.some.inj hrun)).symm
  | tick => exact h.poll
  | fetched k page =>
    dsimp only
    split
    · exact h
    · next p hp =>
      split
      · unfold fetched
        split
        · exact h.finish hp
        · split
          · refine Exclusive.goOn ?_ ?_ _
            · exact ⟨h.distinct, h.holds⟩
            · exact hp
          · exact h.finish hp
      · exact h
  | processed k ok deferred =>
    dsimp only
    split
    · exact h
    · next p hp =>
      split
      · exact h
      · split
        · refine Exclusive.goOn ?_ ?_ _
          · exact ⟨h.distinct, h.holds⟩
          · exact hp
        · exact h.finish hp

end Hook

/-- The envelope that a poll is handing to the crypto worker: `processEnvelope` returns at once for
the envelopes of other groups and of other kinds. -/
def Poll.handing (p : Poll) : Option Envelope :=
  match p.phase with
  | .processing env _ =>
    if env.groupId = p.groupId ∧ env.messageType ∈ [.commit, .application] then some env else none
  | .fetching _ => none

theorem Poll.groupId_of_handing {p : Poll} {env : Envelope} (h : p.handing = some env) :
    p.groupId = env.groupId := by
  unfold handing at h
  split at h
  · obtain ⟨hg, hsome⟩ := Option.ite_none_right_eq_some.mp h
    rw [← hg.1, Option.some.inj hsome]
  · cases h

/-- Let effects run, intervals fire and awaited calls complete in any order. If the effect runs for
a group only while the polls of the group that go on hold the slot, then no two polls are handing
envelopes of one group to the crypto worker. -/
theorem one_call_per_group {es : List Event} {s : Hook} (hrun : Steps Hook.OrderlyStep {} es s)
    {i j : ℕ} {p q : Poll} {env env' : Envelope} (hp : s.polls[i]? = some p)
    (hq : s.polls[j]? = some q) (henv : p.handing = some env) (henv' : q.handing = some env')
    (hg : env.groupId = env'.groupId) : i = j := by
  have h : s.Exclusive := hrun.invariant (fun _ _ _ hstep h => h.step hstep) ⟨.nil, nofun⟩
  have hi : (s.runs.map Prod.fst)[i]? = some env.groupId := by
    simp [Hook.runs, hp, Poll.groupId_of_handing henv]
  have hj : (s.runs.map Prod.fst)[j]? = some env.groupId := by
    simp [Hook.runs, hq, Poll.groupId_of_handing henv', hg]
  exact (List.getElem?_inj (List.getElem?_eq_some_iff.mp hi).1 h.distinct).mp (hi.trans hj.symm)

/-! ### Away and back -/

namespace Sample

def message : Envelope := .new 1 0 7 3 none .application [1]

/-- The group is left and bound again while its first poll hands over a message. -/
def awayAndBack : List Event :=
  [.effect (some 7), .fetched 0 (some [message]), .effect (some 8), .effect (some 7),
    .fetched 2 (some [message])]

/-- The effect runs again for the same group. -/
def sameGroup : List Event := [.effect (some 7), .fetched 0 (some [message]), .effect (some 7)]

end Sample

open Sample

/-- The poll of the other group took the slot over: the message is handed over twice at once. -/
theorem handed_over_twice : ∃ s p q, Steps (fun s e s' => s' = Hook.next s e) {} awayAndBack s ∧
    s.polls[0]? = some p ∧ s.polls[2]? = some q ∧ p.handing = some message ∧
    q.handing = some message :=
  ⟨_, _, _, .cons rfl (.cons rfl (.cons rfl (.cons rfl (.cons rfl .nil)))), rfl, rfl, rfl, rfl⟩

theorem one_call_per_group_sample : ∃ s p, Steps Hook.OrderlyStep {} sameGroup s ∧
    s.polls[0]? = some p ∧ p.handing = some message ∧
    ∀ j q, s.polls[j]? = some q → q.handing = some message → 0 = j := by
  have hrun : Steps Hook.OrderlyStep {} sameGroup (sameGroup.foldl Hook.next {}) :=
    .cons ⟨rfl, by rintro _ ⟨⟩; decide⟩ (.cons ⟨rfl, nofun⟩
      (.cons ⟨rfl, by rintro _ ⟨⟩; decide⟩ .nil))
  exact ⟨_, _, hrun, rfl, rfl, fun j q hq henv => one_call_per_group hrun rfl hq rfl henv rfl⟩

end Powehi.Web
