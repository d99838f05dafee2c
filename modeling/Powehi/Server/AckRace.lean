import Powehi.Semantics.Trace
import Powehi.Server.Frames

/-!
# Acks that overlap

An ack of a broadcast is recorded and the envelope deleted, if every listed device has acked it, in
one transaction of two statements. Under READ COMMITTED each statement sees what the transaction
itself has written and what others have committed by then. So two transactions that both recorded
their acks before either tests for the others find each other's ack missing, and the envelope stays.
If no other ack is uncommitted when a transaction tests, the last ack deletes the envelope.
-/

namespace Powehi.Server

open Semantics Function

/-- How far an ack call has got: the service found the envelope and listed the members, the ack is
recorded, the test for the other acks was made. -/
inductive AckPhase
  | idle
  | called
  | inserted
  | tested (all : Bool)
  | returned (ok : Bool)
deriving DecidableEq

/-- The committed tables, and the ack calls for one envelope. -/
structure AckState where
  db : Db
  phase : ℕ → AckPhase

inductive AckEvent
  | call (n : ℕ)
  | insert (n : ℕ)
  | delete (n : ℕ)
  | commit (n : ℕ)

/-- What a transaction sees once it has recorded its ack. -/
def Db.withAck (id : EnvelopeId) (d : DeviceId) (db : Db) : Db :=
  { db with acks := db.acks.insertNew ⟨id, d⟩ }

section

variable (id : EnvelopeId) (ids : List DeviceId) (who : ℕ → DeviceId)

/-- One statement of a call; `who n` makes the `n`-th call. The members, and with them the listed
devices `ids`, do not change. -/
def AckState.next? (s : AckState) : AckEvent → Option AckState
  | .call n => match s.phase n with
    | .idle =>
      -- an envelope that is gone needs no ack
      let found := (s.db.findEnvelope id).isSome
      some { s with phase := update s.phase n (if found then .called else .returned true) }
    | _ => none
  | .insert n => match s.phase n with
    | .called =>
      let recorded := (s.db.insertAck ⟨id, who n⟩).isOk
      some { s with phase := update s.phase n (if recorded then .inserted else .returned false) }
    | _ => none
  | .delete n => match s.phase n with
    | .inserted =>
      let all := (s.db.withAck id (who n)).ackedByAll id ids
      some { s with phase := update s.phase n (.tested all) }
    | _ => none
  | .commit n => match s.phase n with
    | .tested all =>
      let db := s.db.withAck id (who n)
      some ⟨if all then db.deleteEnvelope id else db, update s.phase n (.returned true)⟩
    | _ => none

/-- When a transaction tests, no other one has an ack that is not committed. -/
def AckState.Alone (s : AckState) : AckEvent → Prop
  | .delete n => ∀ k ≠ n, s.phase k ≠ .inserted ∧ ∀ all, s.phase k ≠ .tested all
  | _ => True

/-- What holds between two statements: as long as the envelope is stored, a listed device has not
acked it and every call that succeeded is recorded; at most one call has made its test, and the test
still says what it would say now. -/
structure AckState.Inv (s : AckState) : Prop where
  missing : (s.db.findEnvelope id).isSome → ∃ d ∈ ids, ⟨id, d⟩ ∉ s.db.acks
  recorded : (s.db.findEnvelope id).isSome → ∀ n, s.phase n = .returned true →
    ⟨id, who n⟩ ∈ s.db.acks
  current : ∀ n all, s.phase n = .tested all → all = (s.db.withAck id (who n)).ackedByAll id ids
  single : ∀ n k all all', s.phase n = .tested all → s.phase k = .tested all' → n = k

end

variable {id : EnvelopeId} {ids : List DeviceId} {who : ℕ → DeviceId} {s t : AckState}
  {e : AckEvent} {db db' : Db} {d : DeviceId}

/-- The statements of one call without another in between are the transaction as a whole. -/
theorem ackBroadcast_serial (n : ℕ) (hn : s.phase n = .called)
    (h : s.db.ackBroadcast id (who n) ids = .ok ((), db')) :
    playIf (AckState.next? id ids who) (fun _ _ _ => true) s [.insert n, .delete n, .commit n] =
      some ⟨db', update s.phase n (.returned true)⟩ := by
  obtain ⟨db₁, hack, h⟩ := bind_eq_ok h
  obtain rfl : db₁ = s.db.withAck id (who n) := Db.insertAck_ok hack
  have hdb : (if (s.db.withAck id (who n)).ackedByAll id ids then
      (s.db.withAck id (who n)).deleteEnvelope id else s.db.withAck id (who n)) = db' := by
    split at h <;> cases h <;> simp_all
  simp [playIf, AckState.next?, hn, hack, Except.isOk, Except.toBool, hdb]

theorem mem_withAck {a : EnvelopeAck} : a ∈ (db.withAck id d).acks ↔ a ∈ db.acks ∨ a = ⟨id, d⟩ := by
  rw [Db.withAck, Table.mem_insertNew]
  constructor
  · exact Or.imp_right And.left
  · rintro (h | rfl)
    · exact .inl h
    · cases hfind : db.acks.find? ⟨id, d⟩ with
      | none => exact .inr ⟨rfl, rfl⟩
      | some a =>
        obtain ⟨hmem, rfl⟩ := Table.find?_eq_some.mp hfind
        exact .inl hmem

theorem ackedByAll_iff : db.ackedByAll id ids = true ↔ ∀ d ∈ ids, ⟨id, d⟩ ∈ db.acks := by
  simp [Db.ackedByAll, Option.isSome_iff_exists, Table.find?_eq_some]

theorem findEnvelope_deleteEnvelope : (db.deleteEnvelope id).findEnvelope id = none := by
  refine Table.find?_eq_none.mpr fun e he heq => ?_
  simp [Db.deleteEnvelope, Db.dropEnvelopes, heq] at he

/-- One call is in its new phase, the others are where they were. -/
theorem phase_cases {phase : ℕ → AckPhase} {n k : ℕ} {p q : AckPhase} (h : update phase n p k = q) :
    k = n ∧ p = q ∨ k ≠ n ∧ phase k = q := by
  by_cases hkn : k = n
  · subst hkn
    exact .inl ⟨rfl, by rwa [update_self] at h⟩
  · exact .inr ⟨hkn, by rwa [update_of_ne hkn] at h⟩

/-- A call that goes on without a commit. -/
theorem AckState.Inv.setPhase {n : ℕ} {p : AckPhase} (hs : s.Inv id ids who)
    (hreturned : p = .returned true → (s.db.findEnvelope id).isSome = false)
    (htested : ∀ all, p = .tested all → all = (s.db.withAck id (who n)).ackedByAll id ids ∧
      ∀ k ≠ n, ∀ all', s.phase k ≠ .tested all') :
    ({ s with phase := update s.phase n p } : AckState).Inv id ids who where
  missing := hs.missing
  recorded hstored k hk := by
    obtain ⟨-, hp⟩ | ⟨-, hk⟩ := phase_cases hk
    · exact absurd hstored (ne_of_eq_of_ne (hreturned hp) Bool.false_ne_true)
    · exact hs.recorded hstored k hk
  current k all hk := by
    obtain ⟨rfl, hp⟩ | ⟨-, hk⟩ := phase_cases hk
    · exact (htested all hp).1
    · exact hs.current k all hk
  single k l all all' hk hl := by
    obtain ⟨rfl, hp⟩ | ⟨hkn, hk'⟩ := phase_cases hk <;>
      obtain ⟨rfl, hp'⟩ | ⟨hln, hl'⟩ := phase_cases hl
    · rfl
    · exact absurd hl' ((htested all hp).2 l hln all')
    · exact absurd hk' ((htested all' hp').2 k hkn all)
    · exact hs.single k l all all' hk' hl'

/-- The commit of a call that has made its test. -/
theorem AckState.Inv.commit {n : ℕ} {all : Bool} (hs : s.Inv id ids who)
    (hn : s.phase n = .tested all) :
    (⟨if all then (s.db.withAck id (who n)).deleteEnvelope id else s.db.withAck id (who n),
      update s.phase n (.returned true)⟩ : AckState).Inv id ids who := by
  -- no other call has made its test
  have hnone : ∀ k all', update s.phase n (.returned true) k ≠ .tested all' := by
    intro k all' hk
    obtain ⟨-, hp⟩ | ⟨hkn, hk⟩ := phase_cases hk
    · cases hp
    · exact hkn (hs.single k n all' all hk hn)
  have htest := hs.current n all hn
  refine ⟨fun hstored => ?_, fun hstored k hk => ?_, fun k all' hk => absurd hk (hnone k all'),
    fun k _ all' _ hk => absurd hk (hnone k all')⟩ <;> cases all
  · simpa using mt ackedByAll_iff.mpr (Bool.eq_false_iff.mp htest.symm)
  · simp [findEnvelope_deleteEnvelope] at hstored
  · refine mem_withAck.mpr ?_
    obtain ⟨rfl, -⟩ | ⟨-, hk⟩ := phase_cases hk
    · exact .inr rfl
    · exact .inl (hs.recorded hstored k hk)
  · simp [findEnvelope_deleteEnvelope] at hstored

theorem AckState.inv_next (h : s.next? id ids who e = some t) (halone : s.Alone e)
    (hs : s.Inv id ids who) : t.Inv id ids who := by
  cases e with
  | call n =>
    simp only [next?] at h
    split at h
    · cases h
      refine hs.setPhase (fun hp => ?_) fun all hp => ?_ <;> split at hp
      · cases hp
      · next hgone => exact Bool.eq_false_iff.mpr hgone
      · cases hp
      · cases hp
    · cases h
  | insert n =>
    simp only [next?] at h
    split at h
    · cases h
      refine hs.setPhase (fun hp => ?_) fun all hp => ?_ <;> split at hp <;> cases hp
    · cases h
  | delete n =>
    simp only [next?] at h
    split at h
    · cases h
      refine hs.setPhase nofun ?_
      rintro _ ⟨⟩
      exact ⟨rfl, fun k hk => (halone k hk).2⟩
    · cases h
  | commit n =>
    simp only [next?] at h
    split at h
    · next all hn =>
      cases h
      exact hs.commit hn
    · cases h

/-- If no other ack is uncommitted whenever a transaction tests, a broadcast with another member is
gone once every listed device has had an ack call return. -/
theorem acked_broadcast_disappears {s₀ : AckState} {es : List AckEvent}
    (hidle : ∀ n, s₀.phase n = .idle) (hnew : ∀ d, ⟨id, d⟩ ∉ s₀.db.acks) (hids : ids ≠ [])
    (hrun : Steps (fun s e t => s.next? id ids who e = some t ∧ s.Alone e) s₀ es s)
    (hall : ∀ d ∈ ids, ∃ n, who n = d ∧ s.phase n = .returned true) :
    s.db.findEnvelope id = none := by
  obtain ⟨d, hd⟩ := List.exists_mem_of_ne_nil _ hids
  have hinv : s.Inv id ids who :=
    hrun.invariant (fun _ _ _ hstep hs => AckState.inv_next hstep.1 hstep.2 hs)
      ⟨fun _ => ⟨d, hd, hnew d⟩, fun _ n hn => by simp [hidle] at hn,
        fun n all hn => by simp [hidle] at hn, fun n _ all _ hn => by simp [hidle] at hn⟩
  by_contra hstored
  replace hstored := Option.isSome_iff_ne_none.mpr hstored
  obtain ⟨d, hd, hmissing⟩ := hinv.missing hstored
  obtain ⟨n, rfl, hn⟩ := hall d hd
  exact hmissing (hinv.recorded hstored n hn)

/-! ### Two members -/

/-- A broadcast with id 9 of device 0 to the devices 1 and 2. -/
def Sample.twoReaders : AckState where
  db := { Db.empty with
    devices := ((∅ : Table Device.id).insertNew ⟨1, 1, []⟩).insertNew ⟨2, 2, []⟩
    envelopes := (∅ : Table Envelope.id).insertNew
      ⟨9, 1, 0, none, .application, [], none, 0, none⟩ }
  phase _ := .idle

/-- The acks of both devices, one after the other. -/
theorem acked_broadcast_disappears_sample : ∃ s,
    Steps (fun s e t => s.next? 9 [1, 2] (· + 1) e = some t ∧ s.Alone e) Sample.twoReaders
      [.call 0, .insert 0, .delete 0, .commit 0, .call 1, .insert 1, .delete 1, .commit 1] s ∧
      s.db.findEnvelope 9 = none := by
  let step : AckState → AckEvent → AckState → Prop :=
    fun s e t => s.next? 9 [1, 2] (· + 1) e = some t ∧ s.Alone e
  -- beside the call that tests, the first has returned or nothing was called
  have hfirst : ∀ s : AckState, (∀ k ≠ 0, s.phase k = .idle) → s.Alone (.delete 0) :=
    fun s hs k hk => by simp [hs k hk]
  have hsecond : ∀ s : AckState, s.phase 0 = .returned true → (∀ k ≠ 0, k ≠ 1 → s.phase k = .idle) →
      s.Alone (.delete 1) := by
    intro s h₀ hs k hk
    by_cases hk₀ : k = 0
    · simp [hk₀, h₀]
    · simp [hs k hk₀ hk]
  have hrun : ∃ s, Steps step Sample.twoReaders [.call 0, .insert 0, .delete 0, .commit 0, .call 1,
      .insert 1, .delete 1, .commit 1] s ∧ s.phase 0 = .returned true ∧
        s.phase 1 = .returned true :=
    ⟨_, .cons ⟨rfl, trivial⟩ <| .cons ⟨rfl, trivial⟩ <|
      .cons ⟨rfl, hfirst _ fun k hk => by simp [hk, Sample.twoReaders]⟩ <| .cons ⟨rfl, trivial⟩ <|
      .cons ⟨rfl, trivial⟩ <| .cons ⟨rfl, trivial⟩ <|
      .cons ⟨rfl, hsecond _ rfl fun k hk hk' => by simp [hk, hk', Sample.twoReaders]⟩ <|
      .cons ⟨rfl, trivial⟩ .nil, rfl, rfl⟩
  obtain ⟨s, hrun, h₀, h₁⟩ := hrun
  have hall : ∀ d ∈ [1, 2], ∃ n, n + 1 = d ∧ s.phase n = .returned true := by simp [h₀, h₁]
  exact ⟨s, hrun, acked_broadcast_disappears (fun _ => rfl) (fun _ => List.not_mem_nil) (by decide)
    hrun hall⟩

/-- Both devices record their acks before either of them tests: the envelope stays. -/
theorem concurrent_acks_keep_broadcast : ∃ s,
    Steps (fun s e t => s.next? 9 [1, 2] (· + 1) e = some t) Sample.twoReaders
      [.call 0, .call 1, .insert 0, .insert 1, .delete 0, .delete 1, .commit 0, .commit 1] s ∧
      (∀ d ∈ [1, 2], ∃ n, n + 1 = d ∧ s.phase n = .returned true) ∧
      (s.db.findEnvelope 9).isSome = true := by
  have hplay : (playIf (AckState.next? 9 [1, 2] (· + 1)) (fun _ _ _ => true) Sample.twoReaders
      [.call 0, .call 1, .insert 0, .insert 1, .delete 0, .delete 1, .commit 0, .commit 1]).any
      (fun s => s.phase 0 = .returned true ∧ s.phase 1 = .returned true ∧
        (s.db.findEnvelope 9).isSome) = true := by decide +kernel
  obtain ⟨s, hrun, h₀, h₁, hstored⟩ := exists_steps_of_playIf (fun _ _ _ h _ => h) hplay
  refine ⟨s, hrun, ?_, hstored⟩
  simp [h₀, h₁]

end Powehi.Server
