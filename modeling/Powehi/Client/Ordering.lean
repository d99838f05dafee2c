import Powehi.Client.Inbox
import Powehi.Client.Rules
import Powehi.Client.Toy
import Powehi.Semantics.Uses

/-!
# The order of the inbox

A group keeps no past epochs, so within one run the order of its envelopes matters. An Application
envelope of a later epoch is held. Right after each Commit of its group that is applied the held
envelopes of the group come first, in the order of the queue. Each is then tried again, unless a cap
puts it off. Once an envelope was put off, no later Commit of its group is applied in the run.

The properties are stated on the marks that the loop leaves in the trace. The proof follows the loop
with a ledger of what is held, what is due next and what waits for a later run.
-/

namespace Powehi.Client

open Codec Server Semantics Program
open List hiding after

variable {L : Libraries}
variable {c : Envelope} {g : GroupId}

/-! ### Marks in the trace -/

/-- The marks in the trace. -/
def World.marks (w : World L) : List Mark :=
  w.trace.filterMap fun e => match e with
    | .marked m => some m
    | _ => none

@[simp] theorem marks_record_marked (w : World L) (m : Mark) :
    (w.record (.marked m)).marks = w.marks ++ [m] := by
  simp [World.marks, World.record]

/-- An operation of the client marks nothing. -/
theorem marks_exec {ω : Type} (o : Op L ω) (c : Choice L) (w : World L) :
    ((machine L).exec o c w).2.marks = w.marks := by
  cases o with
  | put n v =>
    refine Fault.apply_keeps World.marks ?_
    cases n <;> simp [World.marks, World.write, World.noteWrite, World.record]
  | remove n =>
    refine Fault.apply_keeps World.marks ?_
    cases n <;> simp [World.marks, World.erase, World.noteRemove, World.record]
  | get _ | names | clock | uuid | enter => rfl
  | generate =>
    simp only [machine]
    split
    · rfl
    · split
      · rfl
      · simp [World.marks, World.record]
  | poll after => exact Choice.send_keeps (w := w.arrive c) World.marks rfl
  | count => exact Choice.send_keeps World.marks rfl
  | ack _ | upload _ _ =>
    exact (Choice.send_keeps World.marks rfl).trans (by simp [World.marks, World.record])
  | accept _ | decline _ => exact Choice.send_keeps World.marks (by split <;> rfl)
  | display msg => cases hw : c.written <;> simp [machine, hw, World.marks, World.record]

/-- A program of the client marks nothing, wherever it is cut off. -/
theorem wp_quietly {A : Choice L → Prop} {α : Type} {p : Prog L α} {R : Except Error α → Prop}
    {Q : Except Error α → World L → Prop} {C : World L → Prop} {w : World L} (hp : p.Ends R)
    (hC : ∀ t : World L, t.marks = w.marks → C t)
    (hQ : ∀ r t, R r → t.marks = w.marks → Q r t) :
    wp (loopMachine L) A (quietly p) Q C w := by
  induction p generalizing w with
  | pure _ | throw _ => exact ⟨hC w rfl, hQ _ w hp rfl⟩
  | op o next ih =>
    refine ⟨hC w rfl, fun c _ => ih _ (hp _) (fun t ht => hC t ?_) fun r t hr ht => hQ r t hr ?_⟩
    · exact ht.trans (marks_exec o c w)
    · exact ht.trans (marks_exec o c w)

/-! ### The order of marks -/

/-- The envelopes taken off the queue. -/
def takens (ms : List Mark) : List Envelope :=
  ms.filterMap fun m => match m with
    | .taken e => some e
    | _ => none

/-- The Application envelopes that were tried, or put off by a cap. -/
def tries (ms : List Mark) : List Envelope :=
  ms.filterMap fun m => match m with
    | .processing e => some e
    | .putOff e _ => some e
    | _ => none

/-- The held envelopes after a mark. -/
def keepHeld (held : List Envelope) : Mark → List Envelope
  | .ahead e => held ++ [e]
  | .applied c => held.filter (·.groupId ≠ c.groupId)
  | _ => held

/-- The envelopes found to be ahead of the Commit's group that no earlier Commit of the group
released. -/
def releasedBy (c : Envelope) (before : List Mark) : List Envelope :=
  (before.foldl keepHeld []).filter (·.groupId = c.groupId)

/-- The released envelopes come next and each is tried or put off, before anything else. -/
def Retried (released : List Envelope) (after : List Mark) : Prop :=
  released <+: takens after ∧ released <+: tries after

/-- The run ended while it worked through the released envelopes. -/
def Interrupted (released : List Envelope) (after : List Mark) : Prop :=
  takens after <+: released ∧ tries after <+: released

/-- An Application envelope is left to a later run. -/
def Mark.Leaves (m : Mark) (e : Envelope) : Prop := (∃ b, m = .putOff e b) ∨ m = .skipped e

/-- A Commit is being applied, or was. -/
def Mark.Commits (m : Mark) (c : Envelope) : Prop := m = .committing c ∨ m = .applied c

/-- The marks of the loop over a window are in order. -/
structure HeadOfLine (window : List Envelope) (ms : List Mark) : Prop where
  /-- Once an envelope is left to a later run, no Commit of its group is applied. -/
  blocked : ms.Pairwise fun m m' => ∀ e c, m.Leaves e → m'.Commits c → c.groupId ≠ e.groupId
  /-- A Commit releases its group's envelopes in the order of the queue. -/
  queueOrder : ∀ a c b, ms = a ++ .applied c :: b → (releasedBy c a).Sublist window
  /-- The released envelopes come next, unless the run ends. -/
  retried : ∀ a c b, ms = a ++ .applied c :: b →
    Retried (releasedBy c a) b ∨ Interrupted (releasedBy c a) b

/-- Every released envelope was worked through, unless the cap of the run put off the last envelope
that was taken. -/
def Finished (ms : List Mark) : Prop :=
  ∀ a c b, ms = a ++ .applied c :: b →
    Retried (releasedBy c a) b ∨ ∃ e, b.getLast? = some (.putOff e true)

/-! ### The ledger -/

/-- What is held, what must be taken next, which taken envelope is still to be tried, and the groups
with an envelope left to a later run. -/
structure Ledger where
  held : List Envelope := []
  due : List Envelope := []
  owed : Option Envelope := none
  waiting : List (Option GroupId) := []

namespace Ledger

/-- The ledger after a mark. -/
def after (l : Ledger) (m : Mark) : Ledger :=
  match m with
  | .taken _ => { l with due := l.due.tail, owed := l.due.head? }
  | .processing _ => { l with owed := none }
  | .putOff e _ => { l with owed := none, waiting := e.groupId :: l.waiting }
  | .skipped e => { l with waiting := e.groupId :: l.waiting }
  | .ahead e => { l with held := l.held ++ [e] }
  | .applied c =>
    { l with
      held := l.held.filter (·.groupId ≠ c.groupId)
      due := l.held.filter (·.groupId = c.groupId) }
  | .window _ | .committing _ => l

/-- The marks that may come next. -/
def Allows (window : List Envelope) (l : Ledger) : Mark → Prop
  | .window _ => False
  | .taken e => l.owed = none ∧ ∀ d ∈ l.due.head?, d = e
  | .processing e | .putOff e _ => l.owed = some e ∨ l.owed = none ∧ l.due = []
  | .skipped _ | .ahead _ => True
  | .committing c => c.groupId ∉ l.waiting
  | .applied c => l.owed = none ∧ l.due = [] ∧ c.groupId ∉ l.waiting ∧
      (l.held.filter (·.groupId = c.groupId)).Sublist window

/-- Every mark is allowed when its turn comes. -/
def Accepts (window : List Envelope) : Ledger → List Mark → Prop
  | _, [] => True
  | l, m :: ms => l.Allows window m ∧ Accepts window (l.after m) ms

/-- The taken envelope that is still to be tried, and those that come after it. -/
def toTry (l : Ledger) : List Envelope := l.owed.toList ++ l.due

variable {window : List Envelope} {l : Ledger} {m : Mark} {ms ms' : List Mark}

theorem accepts_append :
    Accepts window l (ms ++ ms') ↔ Accepts window l ms ∧ Accepts window (ms.foldl after l) ms' := by
  induction ms generalizing l with
  | nil => exact ⟨fun h => ⟨trivial, h⟩, fun h => h.2⟩
  | cons m ms ih => exact (and_congr_right fun _ => ih).trans and_assoc.symm

theorem held_after (l : Ledger) (m : Mark) : (l.after m).held = keepHeld l.held m := by
  cases m <;> rfl

theorem held_foldl_after (l : Ledger) (ms : List Mark) :
    (ms.foldl after l).held = ms.foldl keepHeld l.held := by
  induction ms generalizing l with
  | nil => rfl
  | cons m ms ih => rw [foldl_cons, ih, held_after, foldl_cons]

theorem waiting_subset_after (l : Ledger) (m : Mark) : l.waiting ⊆ (l.after m).waiting := by
  cases m with
  | putOff _ _ | skipped _ => exact subset_cons_self _ _
  | _ => exact Subset.refl _

theorem waiting_of_leaves {e : Envelope} (h : m.Leaves e) : e.groupId ∈ (l.after m).waiting := by
  obtain ⟨b, rfl⟩ | rfl := h <;> exact mem_cons_self

theorem Allows.not_waiting (h : l.Allows window m) (hm : m.Commits c) : c.groupId ∉ l.waiting := by
  obtain rfl | rfl := hm
  · exact h
  · exact h.2.2.1

/-- A group with an envelope left to a later run sees no Commit. -/
theorem Accepts.not_waiting (h : Accepts window l ms) (hm : m ∈ ms) (hc : m.Commits c) :
    c.groupId ∉ l.waiting := by
  induction ms generalizing l with
  | nil => cases hm
  | cons m' ms ih =>
    rcases mem_cons.mp hm with rfl | hm
    · exact h.1.not_waiting hc
    · exact fun hw => ih h.2 hm (waiting_subset_after l m' hw)

theorem Accepts.blocked (h : Accepts window l ms) :
    ms.Pairwise fun m m' => ∀ e c, m.Leaves e → m'.Commits c → c.groupId ≠ e.groupId := by
  induction ms generalizing l with
  | nil => exact .nil
  | cons m ms ih =>
    refine .cons (fun m' hm' e c he hc heq => ?_) (ih h.2)
    exact h.2.not_waiting hm' hc (heq ▸ waiting_of_leaves he)

/-- Either all that is due was taken and tried before anything else, or the marks end within it. -/
theorem Accepts.front (h : Accepts window l ms) :
    (l.due <+: takens ms ∧ l.toTry <+: tries ms) ∨
      (takens ms ++ (ms.foldl after l).due = l.due ∧
        tries ms ++ (ms.foldl after l).toTry = l.toTry) := by
  induction ms generalizing l with
  | nil => exact .inr ⟨rfl, rfl⟩
  | cons m ms ih =>
    have hnext := ih h.2
    -- nothing is due: whatever comes next is fine
    have hfree : l.owed = none → l.due = [] →
        l.due <+: takens (m :: ms) ∧ l.toTry <+: tries (m :: ms) := by
      intro howed hdue
      simp [toTry, howed, hdue]
    have htry : ∀ e, l.owed = some e → (l.after m).due = l.due → (l.after m).owed = none →
        takens (m :: ms) = takens ms → tries (m :: ms) = e :: tries ms →
        (l.due <+: takens (m :: ms) ∧ l.toTry <+: tries (m :: ms)) ∨
          (takens (m :: ms) ++ (ms.foldl after (l.after m)).due = l.due ∧
            tries (m :: ms) ++ (ms.foldl after (l.after m)).toTry = l.toTry) := by
      intro e howed hdue hnone htakens htries
      have htoTry : l.toTry = e :: (l.after m).toTry := by simp [toTry, howed, hdue, hnone]
      rw [htakens, htries, htoTry, ← hdue]
      refine hnext.imp (fun hp => ⟨hp.1, cons_prefix_cons.mpr ⟨rfl, hp.2⟩⟩) fun hp => ?_
      exact ⟨hp.1, by rw [cons_append, hp.2]⟩
    cases m with
    | taken e =>
      obtain ⟨howed, hhead⟩ := h.1
      cases hdue : l.due with
      | nil => exact .inl (hdue ▸ hfree howed hdue)
      | cons d ds =>
        obtain rfl : d = e := hhead d (by simp [hdue])
        have htoTry : l.toTry = (l.after (.taken d)).toTry := by simp [toTry, after, howed, hdue]
        have hds : (l.after (.taken d)).due = ds := by simp [after, hdue]
        rw [hds] at hnext
        rw [htoTry]
        refine hnext.imp (fun hp => ⟨?_, hp.2⟩) fun hp => ⟨?_, hp.2⟩
        · exact cons_prefix_cons.mpr ⟨rfl, hp.1⟩
        · exact congrArg (d :: ·) hp.1
    | processing e | putOff e _ =>
      rcases h.1 with howed | ⟨howed, hdue⟩
      · exact htry e howed rfl rfl rfl rfl
      · exact .inl (hfree howed hdue)
    | applied c => exact .inl (hfree h.1.1 h.1.2.1)
    | window items => exact h.1.elim
    | skipped _ | ahead _ | committing _ => exact hnext

end Ledger

open Ledger

variable {window : List Envelope} {ms : List Mark}

/-- At a Commit, what is held for its group becomes due. -/
theorem accepts_at_applied {a b : List Mark} (h : Accepts window {} (a ++ .applied c :: b)) :
    ∃ l : Ledger, l.due = releasedBy c a ∧ l.toTry = releasedBy c a ∧
      (releasedBy c a).Sublist window ∧ Accepts window l b ∧
      (a ++ .applied c :: b).foldl after {} = b.foldl after l := by
  obtain ⟨-, ⟨howed, -, -, hsub⟩, hb⟩ := accepts_append.mp h
  have hheld : (a.foldl after {}).held = a.foldl keepHeld [] := held_foldl_after {} a
  refine ⟨(a.foldl after {}).after (.applied c), ?_, ?_, ?_, hb, ?_⟩
  · simp only [after, releasedBy, hheld]
  · simp only [toTry, after, releasedBy, hheld, howed, Option.toList_none, nil_append]
  · rwa [hheld] at hsub
  · rw [foldl_append, foldl_cons]

theorem headOfLine_of_accepts (h : Accepts window {} ms) : HeadOfLine window ms where
  blocked := h.blocked
  queueOrder := by
    rintro a c b rfl
    obtain ⟨l, -, -, hsub, -⟩ := accepts_at_applied h
    exact hsub
  retried := by
    rintro a c b rfl
    obtain ⟨l, hdue, htry, -, hb, -⟩ := accepts_at_applied h
    rw [Interrupted, ← hdue]
    refine hb.front.imp (fun hp => ⟨hp.1, ?_⟩) fun hp => ⟨⟨_, hp.1⟩, ?_⟩
    · rw [hdue, ← htry]
      exact hp.2
    · rw [hdue, ← htry]
      exact ⟨_, hp.2⟩

/-- If nothing is due in the end, all released envelopes were tried or put off. -/
theorem retried_of_accepts (h : Accepts window {} ms) (hend : (ms.foldl after {}).toTry = [])
    {a b : List Mark} (hms : ms = a ++ .applied c :: b) : Retried (releasedBy c a) b := by
  subst hms
  obtain ⟨l, hdue, htry, -, hb, hfold⟩ := accepts_at_applied h
  rw [hfold] at hend
  have hdueEnd : (b.foldl after l).due = [] := (append_eq_nil_iff.mp hend).2
  rcases hb.front with hp | hp
  · exact ⟨hdue ▸ hp.1, htry ▸ hp.2⟩
  · rw [hend, hdueEnd, append_nil, append_nil, hdue, htry] at hp
    exact ⟨⟨[], by rw [hp.1, append_nil]⟩, ⟨[], by rw [hp.2, append_nil]⟩⟩

/-! ### The loop follows the ledger -/

/-- A complete Application envelope of another device. -/
structure Envelope.Foreign (dev : Session) (e : Envelope) : Prop where
  application : e.messageType = .application
  complete : ∃ id g sender ct, e.id = some id ∧ e.groupId = some g ∧ e.sender = some sender ∧
    e.ciphertext = some ct ∧ sender ≠ dev.deviceId

/-- The ledger and the loop agree. -/
structure Follows (dev : Session) (window : List Envelope) (l : Ledger) (r : Run) : Prop where
  held : l.held = r.held
  owed : l.owed = none
  due : l.due <+: r.queue
  waiting : ∀ g ∈ l.waiting, ∃ b ∈ r.blocked, g = some b
  order : ∀ g, ((r.held ++ r.queue).filter (·.groupId = some g)).Sublist window
  foreign : ∀ e ∈ l.held ++ l.due, e.Foreign dev
  -- every held envelope used an attempt, so the list never reaches its limit
  room : r.held.length ≤ r.attempts

/-- The ledger and the loop agree while an envelope is taken up. -/
structure Turn (dev : Session) (window : List Envelope) (l : Ledger) (r : Run) (env : Envelope) :
    Prop where
  held : l.held = r.held
  due : l.due <+: r.queue
  waiting : ∀ g ∈ l.waiting, ∃ b ∈ r.blocked, g = some b
  order : ∀ g, ((r.held ++ env :: r.queue).filter (·.groupId = some g)).Sublist window
  foreign : ∀ e ∈ l.held ++ l.due, e.Foreign dev
  room : r.held.length ≤ r.attempts

/-- The envelope is one that is due, or nothing is due. -/
def Owes (dev : Session) (l : Ledger) (env : Envelope) : Prop :=
  l.owed = some env ∧ env.Foreign dev ∨ l.owed = none ∧ l.due = []

section Turns

variable {dev : Session} {l : Ledger} {r r' : Run} {env : Envelope}

/-- Only what is held, what is queued and what is blocked matters. -/
theorem Follows.congr (h : Follows dev window l r) (hheld : r'.held = r.held)
    (hqueue : r'.queue = r.queue) (hblocked : r'.blocked = r.blocked)
    (hattempts : r.attempts ≤ r'.attempts) : Follows dev window l r' where
  held := hheld ▸ h.held
  owed := h.owed
  due := hqueue ▸ h.due
  waiting := hblocked ▸ h.waiting
  order g := by
    rw [hheld, hqueue]
    exact h.order g
  foreign := h.foreign
  room := hheld ▸ h.room.trans hattempts

/-- Taking the first envelope off the queue. -/
theorem Follows.taken {rest : List Envelope} (h : Follows dev window l r)
    (hqueue : r.queue = env :: rest) :
    l.Allows window (.taken env) ∧ Owes dev (l.after (.taken env)) env ∧
      Turn dev window (l.after (.taken env)) { r with queue := rest } env := by
  have hdue := h.due
  rw [hqueue] at hdue
  have hturn (due : l.due.tail <+: rest) :
      Turn dev window (l.after (.taken env)) { r with queue := rest } env := {
    held := h.held
    due := due
    waiting := h.waiting
    order := fun g => hqueue ▸ h.order g
    foreign := fun e he => h.foreign e ((mem_append.mp he).elim (mem_append_left _)
      fun he => mem_append_right _ (mem_of_mem_tail he))
    room := h.room }
  cases hl : l.due with
  | nil => exact ⟨⟨h.owed, by simp [hl]⟩, .inr (by simp [after, hl]), hturn (by simp [hl])⟩
  | cons d ds =>
    rw [hl, cons_prefix_cons] at hdue
    obtain ⟨rfl, hds⟩ := hdue
    exact ⟨⟨h.owed, by simp [hl]⟩,
      .inl ⟨by simp [after, hl], h.foreign d (by simp [hl])⟩, hturn (by rwa [hl])⟩

/-- An envelope that is not an Application envelope of another device is never owed. -/
theorem Owes.free (h : Owes dev l env) (henv : ¬env.Foreign dev) :
    l.owed = none ∧ l.due = [] := h.resolve_left fun hf => henv hf.2

theorem Owes.allows_try (h : Owes dev l env) :
    l.Allows window (.processing env) ∧ ∀ b, l.Allows window (.putOff env b) := by
  have howed : l.owed = some env ∨ l.owed = none ∧ l.due = [] := h.imp_left And.left
  exact ⟨howed, fun _ => howed⟩

/-- The turn ends with the envelope disposed of. -/
theorem Turn.follows (h : Turn dev window l r env) (howed : l.owed = none) :
    Follows dev window l r where
  held := h.held
  owed := howed
  due := h.due
  waiting := h.waiting
  order g := by
    refine Sublist.trans (Sublist.filter _ ?_) (h.order g)
    exact Sublist.append_left (sublist_cons_self _ _) _
  foreign := h.foreign
  room := h.room

/-- The turn ends with the envelope held. -/
theorem Turn.hold (h : Turn dev window l r env) (howed : l.owed = none) (henv : env.Foreign dev) :
    Follows dev window (l.after (.ahead env))
      { r with held := r.held ++ [env], attempts := r.attempts + 1 } where
  held := congrArg (· ++ [env]) h.held
  owed := howed
  due := h.due
  waiting := h.waiting
  order g := by
    rw [append_assoc]
    exact h.order g
  foreign e he := by
    rcases mem_append.mp he with he | he
    · rcases mem_append.mp he with he | he
      · exact h.foreign e (mem_append_left _ he)
      · exact (mem_singleton.mp he) ▸ henv
    · exact h.foreign e (mem_append_right _ he)
  room := by
    rw [length_append]
    exact Nat.succ_le_succ h.room

/-- The turn ends with the envelope left to a later run. -/
theorem Turn.leave (h : Turn dev window l r env) (hg : env.groupId = some g) :
    Follows dev window { l with owed := none, waiting := env.groupId :: l.waiting }
      (r.block g) where
  __ := Turn.follows (l := { l with owed := none })
    ⟨h.held, h.due, h.waiting, h.order, h.foreign, h.room⟩ rfl
  waiting g' hg' := by
    rcases mem_cons.mp hg' with rfl | hg'
    · exact ⟨g, mem_cons_self, hg⟩
    · obtain ⟨b, hb, rfl⟩ := h.waiting g' hg'
      exact ⟨b, mem_cons_of_mem _ hb, rfl⟩

/-- The envelopes of one group only change places with those of other groups. -/
theorem filter_release (r : Run) (g g' : GroupId) :
    ((r.release g).held ++ (r.release g).queue).filter (·.groupId = some g') =
      (r.held ++ r.queue).filter (·.groupId = some g') := by
  simp only [Run.release, filter_append, filter_filter, ← append_assoc]
  congr 1
  by_cases hg : g' = g
  · subst hg
    have hnone : r.held.filter (fun e => decide (e.groupId = some g') &&
        decide (e.groupId ≠ some g')) = [] := filter_eq_nil_iff.mpr (by simp)
    rw [hnone]
    exact filter_congr (by simp)
  · have hnone : r.held.filter (fun e => decide (e.groupId = some g') &&
        decide (e.groupId = some g)) = [] := by
      refine filter_eq_nil_iff.mpr fun e _ he => ?_
      simp only [Bool.and_eq_true, decide_eq_true_eq] at he
      exact hg (Option.some.inj (he.1.symm.trans he.2))
    rw [hnone, append_nil]
    refine filter_congr fun e _ => ?_
    by_cases he : e.groupId = some g'
    · simp [he, hg]
    · simp [he]

/-- A Commit puts the held envelopes of its group in front of the queue. -/
theorem Follows.release (h : Follows dev window l r) (hg : c.groupId = some g) :
    Follows dev window (l.after (.applied c)) (r.release g) where
  held := by simp only [after, Run.release, h.held, hg]
  owed := h.owed
  due := by
    simp only [after, Run.release, h.held, hg]
    exact ⟨_, rfl⟩
  waiting := h.waiting
  order g' := by
    rw [filter_release]
    exact h.order g'
  foreign e he := by
    refine h.foreign e (mem_append_left _ ?_)
    simp only [after, mem_append, mem_filter] at he
    exact he.elim And.left And.left
  room := (length_filter_le _ _).trans h.room

/-- What is held for a group is in the order of the window. -/
theorem Follows.releasable (h : Follows dev window l r) (hg : c.groupId = some g) :
    (l.held.filter (·.groupId = c.groupId)).Sublist window := by
  rw [hg, h.held]
  refine Sublist.trans (Sublist.filter _ ?_) (h.order g)
  exact sublist_append_left _ _

end Turns

section Loop

variable {A : Choice L → Prop} {before : List Mark} {l : Ledger} {w t : World L} {m : Mark}

/-- The marks since `before` are accepted and lead to the ledger. -/
def Logged (window : List Envelope) (before : List Mark) (l : Ledger) (t : World L) : Prop :=
  ∃ ms, t.marks = before ++ ms ∧ Accepts window {} ms ∧ ms.foldl after {} = l

theorem Logged.mark (h : Logged window before l t) (hm : l.Allows window m) :
    Logged window before (l.after m) (t.record (.marked m)) := by
  obtain ⟨ms, hms, hacc, rfl⟩ := h
  refine ⟨ms ++ [m], by rw [marks_record_marked, hms, append_assoc], ?_, ?_⟩
  · exact accepts_append.mpr ⟨hacc, hm, trivial⟩
  · rw [foldl_append, foldl_cons, foldl_nil]

/-- The order is kept so far. -/
def InOrder (window : List Envelope) (before : List Mark) (t : World L) : Prop :=
  ∃ l, Logged window before l t

theorem wp_mark {β : Type} {k : Unit → LoopProg L β} {Q : Except Error β → World L → Prop}
    (h : Logged window before l w) (hm : l.Allows window m)
    (hk : ∀ t, Logged window before (l.after m) t → t.marks.getLast? = some m →
      wp (loopMachine L) A (k ()) Q (InOrder window before) t) :
    wp (loopMachine L) A (mark m >>= k) Q (InOrder window before) w := by
  rw [wp_bind]
  refine ⟨⟨l, h⟩, fun _ _ => ⟨⟨_, h.mark hm⟩, hk _ (h.mark hm) ?_⟩⟩
  change (w.record (.marked m)).marks.getLast? = some m
  simp

/-- A program of the client leaves the ledger as it is. -/
theorem wp_quiet {α : Type} {p : Prog L α} {Q : Except Error α → World L → Prop}
    {R : Except Error α → Prop} (hp : p.Ends R) (h : Logged window before l w)
    (hQ : ∀ r t, R r → Logged window before l t → Q r t) :
    wp (loopMachine L) A (quietly p) Q (InOrder window before) w := by
  have hlog : ∀ t : World L, t.marks = w.marks → Logged window before l t := by
    intro t ht
    obtain ⟨ms, hms, hacc⟩ := h
    exact ⟨ms, ht.trans hms, hacc⟩
  exact wp_quietly hp (fun t ht => ⟨l, hlog t ht⟩) fun r t hr ht => hQ r t hr (hlog t ht)

/-- How the loop ends: with nothing due, unless the cap of the run put off the last envelope. -/
def LoopEnds (window : List Envelope) (before : List Mark) :
    Except Error Run → World L → Prop
  | .ok r, t => ∃ l, Logged window before l t ∧ l.held = r.held ∧
      (l.toTry = [] ∨ ∃ e, t.marks.getLast? = some (.putOff e true))
  | .error _, t => InOrder window before t

/-- What a turn of the loop leads to. -/
def TurnEnds (dev : Session) (window : List Envelope) (before : List Mark) :
    Except Error Flow → World L → Prop
  | .ok (.next r), t => ∃ l, Logged window before l t ∧ Follows dev window l r
  | .ok (.stop r), t => LoopEnds window before (.ok r) t
  | .error _, t => InOrder window before t

variable {dev : Session} {now : ℕ} {r : Run} {env : Envelope} {id : EnvelopeId} {sender : DeviceId}
  {ct : Bytes} {tracker : Tracker} {b : ℕ}

/-- A turn that goes on leaves no more to do than before. -/
def Shrinks (b : ℕ) (res : Except Error Flow) : Prop :=
  ∀ r, res = .ok (.next r) → r.measure ≤ b

theorem shrinks_error (e : Error) : Shrinks b (.error e) := fun _ h => by cases h

theorem shrinks_stop : Shrinks b (.ok (.stop r)) := fun _ h => by cases h

theorem shrinks_next (h : r.measure ≤ b) : Shrinks b (.ok (.next r)) := by
  intro r' hr'
  cases hr'
  exact h

theorem measure_attempt (r : Run) : r.attempt.measure ≤ r.measure := by
  unfold Run.measure Run.attempt
  dsimp only
  omega

theorem measure_release (r : Run) (g : GroupId) : (r.release g).measure = r.measure := by
  have hsplit : (r.held.filter (·.groupId = some g)).length +
      (r.held.filter (·.groupId ≠ some g)).length = r.held.length := by
    have := length_eq_length_filter_add (l := r.held) (fun e => decide (e.groupId = some g))
    simpa using this.symm
  unfold Run.measure Run.release
  simp only [length_append]
  omega

/-- Holding an envelope uses an attempt. -/
theorem measure_hold (r : Run) (env : Envelope) (hcap : r.attempts < maxMessagesPerRun) :
    { r with held := r.held ++ [env] }.attempt.measure ≤ r.measure := by
  unfold Run.measure Run.attempt
  simp only [length_append, length_singleton]
  omega

/-- A turn keeps the order and leaves no more to do than `b` if the loop goes on. -/
def Turned (dev : Session) (window : List Envelope) (before : List Mark) (b : ℕ)
    (res : Except Error Flow) (t : World L) : Prop :=
  TurnEnds dev window before res t ∧ Shrinks b res

/-- A program of the client and then one that keeps the order. -/
theorem wp_quiet_bind {α β : Type} {p : Prog L α} {k : α → LoopProg L β}
    {Q : Except Error β → World L → Prop} (h : Logged window before l w)
    (hk : ∀ a t, Logged window before l t → wp (loopMachine L) A (k a) Q (InOrder window before) t)
    (herr : ∀ e t, InOrder window before t → Q (.error e) t := by
      exact fun _ _ ht => ⟨ht, shrinks_error _⟩) :
    wp (loopMachine L) A (quietly p >>= k) Q (InOrder window before) w := by
  rw [wp_bind]
  refine wp_quiet (ends_of_forall (fun _ => trivial) p) h fun r t _ hl => ?_
  cases r with
  | error e => exact herr e t ⟨l, hl⟩
  | ok a => exact hk a t hl

/-- The loop goes on with a run that the ledger follows. -/
theorem wp_next (hl : Logged window before l w) (h : Follows dev window l r ∧ r.measure ≤ b) :
    wp (loopMachine L) A (Program.pure (Flow.next r)) (Turned dev window before b)
      (InOrder window before) w :=
  ⟨⟨l, hl⟩, ⟨l, hl, h.1⟩, shrinks_next h.2⟩

/-- Only a Commit of the group is reported as applied. -/
def OnlyApplies (g : GroupId) (r : Except Error (Applied × Tracker)) : Prop :=
  ∀ g' t, r = .ok (.yes g', t) → g' = g

theorem onlyApplies_error (e : Error) : OnlyApplies g (.error e) :=
  fun _ _ h => by cases h

theorem onlyApplies_yes : OnlyApplies g (.ok (.yes g, tracker)) :=
  fun _ _ h => by cases h; rfl

theorem onlyApplies_no : OnlyApplies g (.ok (.no, tracker)) :=
  fun _ _ h => by cases h

theorem onlyApplies_forked : OnlyApplies g (.ok (.forked, tracker)) :=
  fun _ _ h => by cases h

theorem ends_handleGroupCommit :
    (handleGroupCommit id g ct tracker now : Prog L _).Ends (OnlyApplies g) := by
  have herr := onlyApplies_error (g := g)
  refine ends_bind herr fun conv => ?_
  split
  · refine ends_bind herr fun o => ?_
    cases o with
    | applied | evicted => exact ends_bind herr fun _ => onlyApplies_yes
    | unresolved | unknown => exact onlyApplies_no
    | refused | ahead => exact ends_bind herr fun _ => onlyApplies_no
    | forked => exact ends_bind herr fun _ => onlyApplies_forked
  · exact onlyApplies_no

theorem ends_handlePairCommit :
    (handlePairCommit dev id g sender ct tracker now : Prog L _).Ends (OnlyApplies g) := by
  have herr := onlyApplies_error (g := g)
  refine ends_bind herr fun peer => ?_
  cases peer
  all_goals
    refine ends_bind herr fun o => ?_
    cases o with
    | applied | evicted => exact ends_bind herr fun _ => onlyApplies_yes
    | unresolved | unknown | refused => exact ends_bind herr fun _ => onlyApplies_no
    | ahead => exact ends_bind herr fun _ => ends_bind herr fun _ => onlyApplies_no
    | forked => exact ends_bind herr fun _ => onlyApplies_forked

theorem ends_handleCommit :
    (handleCommit dev env tracker now : Prog L _).Ends fun r =>
      ∀ g t', r = .ok (.yes g, t') → env.groupId = some g := by
  unfold handleCommit
  split
  · next id g sender ct _ hg _ _ =>
    split
    · exact ends_bind (by simp) fun _ => by simp [Ends]
    · refine ends_bind (by simp) fun b => ?_
      split
      · refine ends_mono (fun r hr g' t' h => ?_) ends_handleGroupCommit
        rw [hr g' t' h, hg]
      · refine ends_mono (fun r hr g' t' h => ?_) ends_handlePairCommit
        rw [hr g' t' h, hg]
  · simp [Ends]

theorem ends_orSaveTracker {α : Type} {R : Except Error α → Prop} {p : Prog L α} {t : Tracker}
    (hp : p.Ends R) (hR : ∀ e, R (.error e)) : (orSaveTracker t p).Ends R := by
  induction p with
  | pure a => exact hp
  | throw e => exact ends_bind hR fun _ => hR e
  | op o next ih => exact fun b => ih b (hp b)

theorem wp_takeCommit (h : Turn dev window l r env) (ho : Owes dev l env)
    (hl : Logged window before l w) (henv : ¬env.Foreign dev) (hb : r.measure ≤ b) :
    wp (loopMachine L) A (takeCommit dev now r env) (Turned dev window before b)
      (InOrder window before) w := by
  obtain ⟨howed, hdue⟩ := ho.free henv
  have hfollows : Follows dev window l r := h.follows howed
  unfold takeCommit
  split
  · exact wp_next hl ⟨hfollows.congr rfl rfl rfl le_rfl, hb⟩
  · next hblocked =>
    have hwaiting : env.groupId ∉ l.waiting := by
      intro hw
      obtain ⟨b, hb, hg⟩ := h.waiting _ hw
      exact hblocked (by simp [hg, hb])
    refine wp_mark hl hwaiting fun t hl _ => ?_
    rw [wp_bind]
    refine wp_quiet (ends_orSaveTracker ends_handleCommit (by simp)) hl fun res t hres hl => ?_
    cases res with
    | error e => exact ⟨⟨l, hl⟩, shrinks_error e⟩
    | ok res =>
      obtain ⟨applied, tracker⟩ := res
      cases applied with
      | no | forked => exact wp_next (A := A) hl ⟨hfollows.congr rfl rfl rfl le_rfl, hb⟩
      | yes g =>
        have hg : env.groupId = some g := hres g tracker rfl
        have hallows : l.Allows window (.applied env) :=
          ⟨howed, hdue, hwaiting, hfollows.releasable hg⟩
        refine wp_mark hl hallows fun t hl _ => wp_next hl ⟨?_, (measure_release _ g).le.trans hb⟩
        exact (hfollows.release hg).congr rfl rfl rfl le_rfl

theorem wp_takeStray (h : Turn dev window l r env) (ho : Owes dev l env)
    (hl : Logged window before l w) (henv : ¬env.Foreign dev) (hb : r.measure ≤ b) :
    wp (loopMachine L) A (takeStray now r env) (Turned dev window before b)
      (InOrder window before) w := by
  obtain ⟨howed, -⟩ := ho.free henv
  have hfollows : Follows dev window l r := h.follows howed
  have hskip : ∀ tracker : Tracker, Follows dev window l { r with tracker := tracker }.skip ∧
      r.measure ≤ b := fun _ => ⟨hfollows.congr rfl rfl rfl le_rfl, hb⟩
  unfold takeStray
  split
  · exact wp_next hl (hskip r.tracker)
  · refine wp_quiet_bind hl fun stray t hl => ?_
    cases stray with
    | false => exact wp_next hl (hskip r.tracker)
    | true =>
      exact wp_quiet_bind hl fun tracker t hl => wp_next hl (hskip tracker)

/-- What follows from the outcome of an attempt. -/
theorem wp_settle {o : Outcome} (h : Turn dev window l r env)
    (howed : l.owed = none) (hl : Logged window before l w) (henv : env.Foreign dev)
    (hg : env.groupId = some g) (hcap : r.attempts < maxMessagesPerRun) (hb : r.measure ≤ b) :
    wp (loopMachine L) A (settle now r env id g o) (Turned dev window before b)
      (InOrder window before) w := by
  have hfollows : Follows dev window l r := h.follows howed
  have hattempt := (measure_attempt r).trans hb
  -- the envelope is given up or acked, and the loop goes on
  have hthen : ∀ {α : Type} {p : Prog L α} (k : α → Run),
      (∀ a, Follows dev window l (k a) ∧ (k a).measure ≤ b) → wp (loopMachine L) A (do
        let a ← quietly p
        return Flow.next (k a)) (Turned dev window before b) (InOrder window before) w :=
    fun _ hk => wp_quiet_bind hl fun a t hl => wp_next hl (hk a)
  cases o with
  | ignored => exact wp_next hl ⟨hfollows.congr rfl rfl rfl le_rfl, hb⟩
  | unknown => exact hthen _ fun _ => ⟨hfollows.congr rfl rfl rfl le_rfl, hb⟩
  | undecryptable =>
    exact hthen _ fun _ => ⟨hfollows.congr rfl rfl rfl (Nat.le_succ _), hattempt⟩
  | dropped | pqBound | stored =>
    exact hthen _ fun _ => ⟨hfollows.congr rfl rfl rfl (Nat.le_succ _), hattempt⟩
  | skip =>
    refine wp_mark hl trivial fun t hl _ => wp_next hl ⟨?_, hattempt⟩
    have hleave := h.leave hg
    rw [← howed] at hleave
    exact hleave.congr rfl rfl rfl (Nat.le_succ _)
  | ahead =>
    have hroom : r.held.length < maxMessagesPerRun := h.room.trans_lt hcap
    have hhold : ∀ (tracker : Tracker) (pinned : Bool),
        let r' : Run := { r with
          tracker := tracker
          aheadPinned := pinned
          held := if r.held.length < maxMessagesPerRun then r.held ++ [env]
            else r.held }.attempt.skip
        Follows dev window (l.after (.ahead env)) r' ∧ r'.measure ≤ b := by
      intro tracker pinned
      rw [if_pos hroom]
      exact ⟨(h.hold howed henv).congr rfl rfl rfl le_rfl, (measure_hold r env hcap).trans hb⟩
    refine wp_mark hl trivial fun t hl _ => ?_
    refine wp_quiet_bind hl fun unresolved t hl => ?_
    cases unresolved with
    | true => exact wp_next hl (hhold _ _)
    | false =>
      exact wp_quiet_bind hl fun tracker t hl => wp_next hl (hhold _ _)

theorem wp_takeApplication (h : Turn dev window l r env) (ho : Owes dev l env)
    (hl : Logged window before l w) (happ : env.messageType = .application)
    (hcap : r.attempts < maxMessagesPerRun) (hb : r.measure ≤ b) :
    wp (loopMachine L) A (takeApplication dev now r env) (Turned dev window before b)
      (InOrder window before) w := by
  have hfree : ¬env.Foreign dev → Follows dev window l r := fun henv => h.follows (ho.free henv).1
  unfold takeApplication
  split
  · next id g sender ct hid hg hsender hct =>
    split
    · next hown =>
      have henv : ¬env.Foreign dev := by
        rintro ⟨-, -, -, s, -, -, -, hs, -, hne⟩
        exact hne (Option.some.inj (hs.symm.trans hsender) ▸ hown)
      exact wp_quiet_bind hl fun _ t hl =>
        wp_next hl ⟨(hfree henv).congr rfl rfl rfl (Nat.le_succ _), (measure_attempt r).trans hb⟩
    · next hown =>
      have henv : env.Foreign dev := ⟨happ, id, g, sender, ct, hid, hg, hsender, hct, hown⟩
      split
      · exact wp_mark hl (ho.allows_try.2 _) fun t hl _ =>
          wp_next hl ⟨(h.leave hg).congr rfl rfl rfl le_rfl, hb⟩
      · refine wp_mark hl ho.allows_try.1 fun t hl _ => ?_
        refine wp_quiet_bind hl fun outcome t hl => ?_
        -- counting the attempt of the conversation does not concern the order
        have hturn : Turn dev window (l.after (.processing env))
            (if outcome = .ignored ∨ outcome = .unknown then r else r.use g) env := by
          split <;> exact ⟨h.held, h.due, h.waiting, h.order, h.foreign, h.room⟩
        refine wp_settle hturn rfl hl henv hg ?_ ?_
        · split <;> exact hcap
        · split <;> exact hb
  · next hnone =>
    have henv : ¬env.Foreign dev := by
      rintro ⟨-, id, g, s, ct, hid, hg, hs, hct, -⟩
      exact hnone id g s ct hid hg hs hct
    exact wp_next hl ⟨(hfree henv).congr rfl rfl rfl le_rfl, hb⟩

theorem wp_takeUp (h : Turn dev window l r env) (ho : Owes dev l env)
    (hl : Logged window before l w) (hb : r.measure ≤ b) :
    wp (loopMachine L) A (takeUp dev now r env) (Turned dev window before b)
      (InOrder window before) w := by
  have hother : env.messageType ≠ .application → ¬env.Foreign dev :=
    fun hne henv => hne henv.application
  unfold takeUp
  cases hm : env.messageType with
  | welcome => exact wp_next hl ⟨h.follows (ho.free (hother (by simp [hm]))).1, hb⟩
  | commit =>
    dsimp only
    split
    · obtain ⟨howed, hdue⟩ := ho.free (hother (by simp [hm]))
      exact ⟨⟨l, hl⟩, ⟨l, hl, h.held, .inl (by simp [toTry, howed, hdue])⟩, shrinks_stop⟩
    · refine wp_takeCommit ?_ ho hl (hother (by simp [hm])) ((measure_attempt r).trans hb)
      exact ⟨h.held, h.due, h.waiting, h.order, h.foreign, h.room.trans (Nat.le_succ _)⟩
  | application =>
    dsimp only
    split
    · exact wp_mark hl (ho.allows_try.2 _) fun t hl hlast =>
        ⟨⟨_, hl⟩, ⟨_, hl, h.held, .inr ⟨env, hlast⟩⟩, shrinks_stop⟩
    · next hcap => exact wp_takeApplication h ho hl hm (not_le.mp hcap) hb
  | proposal | other => exact wp_takeStray h ho hl (hother (by simp [hm])) hb

/-- The loop keeps the order, and its fuel is enough to come to an end. -/
theorem wp_drain (now : ℕ) {n : ℕ} (h : Follows dev window l r) (hl : Logged window before l w)
    (hn : r.measure ≤ n) :
    wp (loopMachine L) A (drain dev now n r) (LoopEnds window before)
      (InOrder window before) w := by
  -- an empty queue leaves nothing due
  have hdone : ∀ {l : Ledger} {r : Run} {w : World L}, Follows dev window l r →
      Logged window before l w → r.queue = [] → LoopEnds window before (.ok r) w := by
    intro l r w h hl hq
    have hdue : l.due = [] := by
      obtain ⟨later, hlater⟩ := h.due
      rw [hq] at hlater
      exact (append_eq_nil_iff.mp hlater).1
    exact ⟨l, hl, h.held, .inl (by simp [toTry, h.owed, hdue])⟩
  induction n generalizing l r w with
  | zero =>
    have hq : r.queue = [] := by
      refine eq_nil_of_length_eq_zero ?_
      unfold Run.measure at hn
      omega
    exact ⟨⟨l, hl⟩, hdone h hl hq⟩
  | succ n ih =>
    unfold drain
    split
    · next hq => exact ⟨⟨l, hl⟩, hdone h hl hq⟩
    · next env rest hq =>
      obtain ⟨hallows, ho, hturn⟩ := h.taken hq
      have hrest : ({ r with queue := rest } : Run).measure ≤ n := by
        unfold Run.measure at hn ⊢
        rw [hq, length_cons] at hn
        dsimp only
        omega
      refine wp_mark hl hallows fun t hl _ => ?_
      rw [wp_bind]
      refine wp_mono (fun res t ht => ?_) (fun _ h => h) (wp_takeUp hturn ho hl hrest)
      obtain ⟨hends, hshrinks⟩ := ht
      cases res with
      | error e => exact hends
      | ok flow =>
        cases flow with
        | stop r' =>
          obtain ⟨l', hl', hheld⟩ := hends
          exact ⟨⟨l', hl'⟩, l', hl', hheld⟩
        | next r' =>
          obtain ⟨l', hl', hfollows⟩ := hends
          exact ih hfollows hl' (hshrinks r' rfl)

/-- What the end of the loop says about its marks. -/
theorem LoopEnds.finished {r : Run} (h : LoopEnds window before (.ok r) t) :
    ∃ ms, t.marks = before ++ ms ∧ HeadOfLine window ms ∧ Finished ms ∧
      r.held = ms.foldl keepHeld [] := by
  obtain ⟨l, ⟨ms, hms, hacc, rfl⟩, hheld, hend⟩ := h
  refine ⟨ms, hms, headOfLine_of_accepts hacc, ?_, by rw [← hheld, held_foldl_after]⟩
  rintro a c b rfl
  refine hend.imp (fun hend => retried_of_accepts hacc hend rfl) fun ⟨e, he⟩ => ⟨e, ?_⟩
  rw [hms, getLast?_append, getLast?_append, getLast?_cons] at he
  cases hb : b.getLast? with
  | none => simp [hb] at he
  | some m => simpa [hb] using he

theorem InOrder.headOfLine (h : InOrder window before t) :
    ∃ ms, t.marks = before ++ ms ∧ HeadOfLine window ms := by
  obtain ⟨l, ms, hms, hacc, -⟩ := h
  exact ⟨ms, hms, headOfLine_of_accepts hacc⟩

/-! ### A whole run -/

/-- The marks of a run up to some point: none, or a window and then marks in order. -/
def RunInOrder (before : List Mark) (t : World L) : Prop :=
  t.marks = before ∨ ∃ window ms, t.marks = before ++ .window window :: ms ∧ HeadOfLine window ms

/-- The marks of a completed run. -/
def RunFinished (before : List Mark) (t : World L) : Prop :=
  ∃ window ms, t.marks = before ++ .window window :: ms ∧ HeadOfLine window ms ∧ Finished ms

/-- How a run of the inbox ends. -/
def RunEnds (before : List Mark) : Except Error InboxReport → World L → Prop
  | .ok _, t => RunFinished before t
  | .error _, t => RunInOrder before t

theorem InOrder.runInOrder (h : InOrder window (before ++ [.window window]) t) :
    RunInOrder before t := by
  obtain ⟨ms, hms, hline⟩ := h.headOfLine
  exact .inr ⟨window, ms, by rw [hms, append_assoc, singleton_append], hline⟩

/-- Up to the window a run marks nothing. -/
theorem wp_beforeWindow {α : Type} {p : Prog L α} {k : α → LoopProg L InboxReport}
    (hw : w.marks = before)
    (hk : ∀ a t, t.marks = before →
      wp (loopMachine L) A (k a) (RunEnds before) (RunInOrder before) t) :
    wp (loopMachine L) A (quietly p >>= k) (RunEnds before) (RunInOrder before) w := by
  rw [wp_bind]
  refine wp_quietly (ends_of_forall (fun _ => trivial) p) (fun t ht => .inl (ht.trans hw))
    fun r t _ ht => ?_
  cases r with
  | error e => exact .inl (ht.trans hw)
  | ok a => exact hk a t (ht.trans hw)

/-- A run that is about to work through its window. -/
theorem follows_start (dev : Session) (window : List Envelope) (tracker : Tracker)
    (report : InboxReport) :
    Follows dev window {} { queue := window, tracker := tracker, report := report } where
  held := rfl
  owed := rfl
  due := nil_prefix
  waiting := by simp
  order _ := filter_sublist
  foreign := by simp
  room := le_rfl

theorem logged_start (w : World L) (window : List Envelope) : Logged window w.marks {} w :=
  ⟨[], (append_nil _).symm, trivial, rfl⟩

theorem wp_receiveAt (dev : Session) (now : ℕ) (w : World L) :
    wp (loopMachine L) A (receiveAt dev now) (RunEnds w.marks) (RunInOrder w.marks) w := by
  unfold receiveAt
  refine wp_beforeWindow rfl fun _ t ht => wp_beforeWindow ht fun joined t ht => ?_
  refine wp_beforeWindow ht fun saved t ht => wp_beforeWindow ht fun window t ht => ?_
  rw [wp_bind]
  -- from here on the marks are those of the loop
  refine ⟨.inl ht, fun c _ => ?_⟩
  change RunInOrder w.marks (t.record (.marked (.window window.items))) ∧
    wp _ _ _ _ _ (t.record (.marked (.window window.items)))
  generalize hu : t.record (.marked (.window window.items)) = u
  have hmarks : u.marks = w.marks ++ [.window window.items] := by
    rw [← hu, marks_record_marked, ht]
  have hlog := logged_start u window.items
  rw [hmarks] at hlog
  refine ⟨InOrder.runInOrder ⟨_, hlog⟩, ?_⟩
  refine wp_mono (fun _ _ h => h) (fun _ h => InOrder.runInOrder h) (?_ : wp (loopMachine L) A _
    (RunEnds w.marks) (InOrder window.items (w.marks ++ [.window window.items])) u)
  have hfail : ∀ (e : Error) (t : World L),
      InOrder window.items (w.marks ++ [.window window.items]) t → RunEnds w.marks (.error e) t :=
    fun _ _ ht => ht.runInOrder
  refine wp_quiet_bind hlog (fun tracker t hlog => ?_) hfail
  refine wp_quiet_bind hlog (fun tracker t hlog => ?_) hfail
  rw [wp_bind]
  refine wp_mono (fun res t hends => ?_) (fun _ h => h)
    (wp_drain now (follows_start ..) hlog le_rfl)
  rcases res with e | r
  · exact InOrder.runInOrder hends
  obtain ⟨l, ⟨ms', hms', hacc⟩, -⟩ := id hends
  obtain ⟨ms, hms, hline, hfin, -⟩ := LoopEnds.finished hends
  -- saving the tracker and moving the cursor marks nothing
  refine wp_quietly (ends_of_forall (fun _ => trivial) _)
    (fun u hu => ⟨l, ms', hu.trans hms', hacc⟩) fun res u _ hu => ?_
  have hafter : u.marks = w.marks ++ .window window.items :: ms := by
    rw [hu, hms, append_assoc, singleton_append]
  cases res with
  | ok report => exact ⟨window.items, ms, hafter, hline, hfin⟩
  | error e => exact .inr ⟨window.items, ms, hafter, hline⟩

/-- Every run of the inbox keeps the order of each group's envelopes: wherever it is cut off, and
for every window, profile and environment. A completed run works through all it releases, up to the
cap of the run. What was found ahead and was not released is still held when the loop ends. -/
theorem inbox_headOfLine (dev : Session) (now : ℕ) (f : ℕ → Choice L) (w : World L) :
    (∀ t ∈ (receiveAt dev now).crashStates (loopMachine L) f w, RunInOrder w.marks t) ∧
      (∀ report t, (receiveAt dev now).run (loopMachine L) f w = (.ok report, t) →
        RunFinished w.marks t) ∧
      ∀ (window : List Envelope) (tracker : Tracker) (report : InboxReport),
        let start : Run := { queue := window, tracker := tracker, report := report }
        let loop : LoopProg L Run := drain dev now start.measure start
        (∀ t ∈ loop.crashStates (loopMachine L) f w,
          ∃ ms, t.marks = w.marks ++ ms ∧ HeadOfLine window ms) ∧
        ∀ r t, loop.run (loopMachine L) f w = (.ok r, t) →
          ∃ ms, t.marks = w.marks ++ ms ∧ HeadOfLine window ms ∧ Finished ms ∧
            r.held = ms.foldl keepHeld [] := by
  have hf : ∀ n, (fun _ : Choice L => True) (f n) := fun _ => trivial
  have hrun := wp_receiveAt (A := fun _ => True) dev now w
  refine ⟨?_, ?_, fun window tracker report => ?_⟩
  · exact wp_crashStates hrun hf
  · exact fun report t ht => wp_outcome hrun hf ht
  · have hloop := wp_drain (A := fun _ => True) now
      (follows_start dev window tracker report) (logged_start w window) le_rfl
    refine ⟨fun t ht => ?_, fun r t ht => LoopEnds.finished (wp_outcome hloop hf ht)⟩
    exact InOrder.headOfLine (wp_crashStates hloop hf t ht)

end Loop

/-- Sixteen messages of the next epoch, and then the Commit to it. -/
def sixteenAhead : World Toy.libraries :=
  Toy.world (.fresh .group 1) ((range 16).map (fun i =>
    Toy.envelope .application (i + 1) [2, UInt8.ofNat i]) ++ [Toy.envelope .commit 17 [1]])

/-- Finding the sixteen messages ahead uses up the attempts of the conversation. So the Commit
releases them, but none is tried again in this run. -/
theorem released_without_retry :
    let res := (receiveAt Toy.device 0).run (loopMachine _) (fun _ => {}) sixteenAhead
    res.1.isOk = true ∧ ∃ a c b, res.2.marks = a ++ .applied c :: b ∧
      (releasedBy c a).length = 16 ∧ ∀ e ∈ releasedBy c a, Mark.processing e ∉ b := by
  intro res
  refine ⟨by decide +kernel, res.2.marks.take 51, Toy.envelope .commit 17 [1],
    res.2.marks.drop 52, ?_, ?_, ?_⟩ <;> decide +kernel

end Powehi.Client
