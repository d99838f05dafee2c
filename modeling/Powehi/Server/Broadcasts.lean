import Powehi.Semantics.Past
import Powehi.Server.CommitOrder
import Powehi.Server.Paging

/-!
# Broadcasts and their acks

A broadcast is stored once for all members of its group. An ack reads the envelope, reads the
members, and then, in one transaction, records the ack and deletes the envelope if every device it
listed has acked it; the sender is not listed. The list can be out of date by the time it is used.

An ack leaves the envelope stored if it listed a device that has not acked it yet. This is so in
particular while a device that does not ack it is a member from the moment the envelope was sent.
It is not so for a device that was only invited by then: the other members may all have acked
before it accepts.
-/

namespace Powehi.Server

open Codec Semantics Program List Sample Table Db

variable {f : DomainError → Failure} {A : World → Choice → World → Prop} {d : DeviceId}
  {since : Option Time} {sinceId : Option EnvelopeId} {cfg : Config} {w₀ : World}
  {es : List (Turn Request Choice)} {p : Pool Request Op Failure Response World}

/-- The id of the envelope does not occur. -/
structure Fresh (X : Envelope) (w : World) : Prop where
  envelopes : ∀ e ∈ w.db.envelopes, e.id ≠ X.id
  stored : ∀ e ∈ w.stored, e.id ≠ X.id
  acks : ∀ a ∈ w.db.acks, a.envelopeId ≠ X.id

/-- The envelope is stored, and the device has not acked it. -/
structure Held (X : Envelope) (d : DeviceId) (w : World) : Prop where
  envelope : X ∈ w.db.envelopes
  stored : X ∈ w.stored
  unacked : ⟨X.id, d⟩ ∉ w.db.acks

/-! ### What a call read -/

/-- What a call read before it deletes an envelope: the envelope itself, and for a broadcast the
members it then passes on. -/
def Saw (i : Request) (own : List (World × World)) : {ω : Type} → Op ω → Prop
  | _, .sql (.ackBroadcast id d ms) => i = .ack d id ∧ ∃ found check listed e,
      own = [found, check, listed] ∧ e ∈ found.2.db.envelopes ∧ e.id = id ∧ e.recipient = none ∧
      ms = ((listed.2.db.listMembers e.groupId).map (·.deviceId)).filter (· ≠ e.sender)
  | _, .sql (.deleteEnvelope id) => ∃ found e r,
      own = [found] ∧ e ∈ found.2.db.envelopes ∧ e.id = id ∧ e.recipient = some r
  | _, _ => True

/-- A read answers with what the tables hold after it. -/
theorem transact_read {β : Type} {q : Query β} {v : Db → β} (hq : ∀ db, q.run db = .ok (v db, db))
    (c : Choice) (w : World) :
    (transact q c w).1 = .ok (v (transact q c w).2.db) ∨ ∃ e, (transact q c w).1 = .error e := by
  rcases transact_cases q c w with ⟨-, e, he, -⟩ | ⟨b, db, hrun, hw, hr | ⟨e, he, -⟩⟩
  · exact .inr ⟨e, he⟩
  · left
    obtain ⟨rfl, rfl⟩ := Prod.mk.inj (Except.ok.inj ((hq _).symm.trans hrun))
    rw [hr, hw]
    rfl
  · exact .inr ⟨e, he⟩

section

variable {α β : Type} {i : Request} {own : List (World × World)}

theorem wpPast_callRepo {q : Query β} (hsaw : Saw i own (.sql q)) :
    wpPast machine (Saw i) (callRepo f q) (fun _ _ => True) own := by
  refine ⟨hsaw, fun s c => ?_⟩
  cases (machine.exec (.sql q) c s).1 with
  | ok _ | error _ => exact trivial

/-- A read, and what is done with its answer. -/
theorem wpPast_read {q : Query β} {v : Db → β} {k : β → Serve α}
    (hq : ∀ db, q.run db = .ok (v db, db)) (hsaw : Saw i own (.sql q)) (hk : ∀ st : World × World,
      wpPast machine (Saw i) (k (v st.2.db)) (fun _ _ => True) (own ++ [st])) :
    wpPast machine (Saw i) (callRepo f q >>= k) (fun _ _ => True) own := by
  refine ⟨hsaw, fun s c => ?_⟩
  rcases transact_read hq c s with hr | ⟨e, hr⟩
  · rw [show (machine.exec (.sql q) c s).1 = _ from hr]
    exact hk (s, (transact q c s).2)
  · rw [show (machine.exec (.sql q) c s).1 = _ from hr]
    exact trivial

theorem wpOwn_read {q : Query β} {v : Db → β} {k : β → Serve α}
    {Φ : List (World × World) → Except Failure α → Prop} (hq : ∀ db, q.run db = .ok (v db, db))
    (hk : ∀ st : World × World, wpOwn machine A (k (v st.2.db)) fun own r => Φ (st :: own) r)
    (herror : ∀ st e, Φ [st] (.error (f e))) : wpOwn machine A (callRepo f q >>= k) Φ := by
  intro s c _
  rcases transact_read hq c s with hr | ⟨e, hr⟩
  · rw [show (machine.exec (.sql q) c s).1 = _ from hr]
    exact hk (s, (transact q c s).2)
  · rw [show (machine.exec (.sql q) c s).1 = _ from hr]
    exact herror (s, (transact q c s).2) e

theorem wpPast_checkSenderIsMember {g : GroupId} {k : Unit → Serve α}
    (hk : ∀ st : World × World, wpPast machine (Saw i) (k ()) (fun _ _ => True) (own ++ [st])) :
    wpPast machine (Saw i) (checkSenderIsMember d g >>= k) (fun _ _ => True) own := by
  unfold checkSenderIsMember
  rw [bind_assoc]
  refine wpPast_read (fun _ => rfl) trivial fun st => ?_
  split
  · exact trivial
  · split
    · exact hk st
    · exact trivial

end

theorem ackEnvelope_saw (d : DeviceId) (id : EnvelopeId) :
    wpPast machine (Saw (.ack d id)) (ackEnvelope d id) (fun _ _ => True) [] := by
  refine wpPast_read (fun _ => rfl) trivial fun found => ?_
  cases hfound : found.2.db.findEnvelope id with
  | none => exact trivial
  | some e =>
    obtain ⟨he, hid⟩ := find?_eq_some.mp hfound
    cases hr : e.recipient with
    | none =>
      dsimp only
      rw [hr]
      refine wpPast_checkSenderIsMember fun check => ?_
      refine wpPast_read (fun _ => rfl) trivial fun listed => ?_
      have hsaw : Saw (.ack d id) [found, check, listed] (.sql (.ackBroadcast id d
          (((listed.2.db.listMembers e.groupId).map (·.deviceId)).filter (· ≠ e.sender)))) :=
        ⟨rfl, found, check, listed, e, rfl, he, hid, hr, rfl⟩
      exact wpPast_callRepo hsaw
    | some r =>
      dsimp only
      rw [hr]
      dsimp only
      split
      · have hsaw : Saw (.ack d id) [found] (.sql (.deleteEnvelope id)) :=
          ⟨found, e, r, rfl, he, hid, hr⟩
        exact wpPast_callRepo hsaw
      · exact trivial

/-- A call deletes an envelope only after it read it, and passes on the members it read. -/
theorem serve_saw (cfg : Config) (i : Request) :
    wpPast machine (Saw i) (serve cfg i) (fun _ _ => True) [] := by
  have hother : (∀ d id, i ≠ .ack d id) →
      wpPast machine (Saw i) (serve cfg i) (fun _ _ => True) [] := by
    intro hi
    refine wpPast_uses (serve_uses cfg i) fun own ω o ho => ?_
    cases o with
    | newUuid | utcNow => exact trivial
    | sql q =>
      cases q with
      | ackBroadcast id d ms => exact absurd ho (hi d id)
      | deleteEnvelope id =>
        obtain ⟨d, rfl⟩ := ho
        exact absurd rfl (hi d id)
      | _ => exact trivial
  cases i with
  | ack d id => exact wpPast_map (ackEnvelope_saw d id)
  | _ => exact hother (by simp)

/-! ### What keeps a broadcast stored -/

/-- What is assumed of an operation of the request `i`, before which its call performed `own`: no
other envelope was stored under the id of `X`, the sweep is not due for it, and if the call listed
the members of the group in order to ack it, one of them, other than the sender and the device that
acks, is `d` or has not acked it by now. -/
structure Assumed (X : Envelope) (d : DeviceId) (i : Request) (own : List (World × World))
    (st : World × World) : Prop where
  unique : ∀ e ∈ st.2.stored, e.id = X.id → e = X
  notDue : X ∈ st.2.stored → Db.due st.2.db.now X = false
  awaited : ∀ d' found check listed, i = .ack d' X.id → own = [found, check, listed] →
    X ∈ listed.2.stored → ∃ m, listed.2.db.isMember X.groupId m = true ∧ m ≠ X.sender ∧ m ≠ d' ∧
      (m = d ∨ ⟨X.id, m⟩ ∉ st.1.db.acks)

/-- The ack a repository method records. -/
def Query.recordsAck {β : Type} : Query β → Option EnvelopeAck
  | .ackBroadcast id d _ => some ⟨id, d⟩
  | _ => none

theorem insertAck_exists {db db' : Db} {a : EnvelopeAck} (h : db.insertAck a = .ok db') :
    a ∈ db.acks ∨ ∃ e ∈ db.envelopes, e.id = a.envelopeId := by
  unfold insertAck at h
  split at h
  · next hsome =>
    obtain ⟨a', ha'⟩ := Option.isSome_iff_exists.mp hsome
    obtain ⟨hmem, rfl⟩ := find?_eq_some.mp ha'
    exact .inl hmem
  · split at h
    · next hboth =>
      rw [Bool.and_eq_true] at hboth
      obtain ⟨e, he⟩ := Option.isSome_iff_exists.mp hboth.1
      exact .inr ⟨e, find?_eq_some.mp he⟩
    · cases h

/-- A new ack is the one the method records, and its envelope is stored. -/
theorem mem_acks_run {β : Type} {q : Query β} {db db' : Db} {b : β} {a : EnvelopeAck}
    (hrun : q.run db = .ok (b, db')) (ha : a ∈ db'.acks) :
    a ∈ db.acks ∨ (q.recordsAck = some a ∧ ∃ e ∈ db.envelopes, e.id = a.envelopeId) := by
  cases hq : q.insertsAck with
  | false => exact .inl ((Query.frame hrun).acks hq a ha)
  | true =>
    cases q with
    | ackBroadcast id d ms =>
      obtain ⟨db₁, hack, -⟩ := bind_eq_ok hrun
      obtain ⟨db₂, rfl, hdb'⟩ := ackBroadcast_ok hrun
      have hmem : a ∈ db.acks.insertNew ⟨id, d⟩ := by
        rcases hdb' with rfl | ⟨rfl, -⟩
        · exact ha
        · exact (mem_deleteWhere.mp ha).1
      rcases mem_insertNew.mp hmem with hold | ⟨rfl, -⟩
      · exact .inl hold
      · rcases insertAck_exists hack with hold | hexists
        · exact .inl hold
        · exact .inr ⟨rfl, hexists⟩
    | _ => exact absurd hq (by simp [Query.insertsAck])

section

variable {X : Envelope} {w : World} {db : Db} {β : Type} {q : Query β} {b : β}

/-- As long as the id does not occur, a transaction can only bring it in with the envelope. -/
theorem Fresh.store (h : Fresh X w) (hrun : q.run w.db = .ok (b, db))
    (hunique : ∀ e ∈ (w.store db).stored, e.id = X.id → e = X) :
    Fresh X (w.store db) ∨ Held X d (w.store db) := by
  have hacks : ∀ a ∈ db.acks, a.envelopeId ≠ X.id := by
    intro a ha
    rcases mem_acks_run hrun ha with ha | ⟨-, e, he, hid⟩
    · exact h.acks a ha
    · exact hid ▸ h.envelopes e he
  by_cases hnew : ∃ e ∈ db.envelopes, e.id = X.id
  · obtain ⟨e, he, hid⟩ := hnew
    have hstored : e ∈ (w.store db).stored :=
      World.mem_stored_store.mpr (.inr ⟨he, Table.find?_eq_none.mpr fun f hf =>
        hid ▸ h.envelopes f hf⟩)
    obtain rfl := hunique e hstored hid
    exact .inr ⟨he, hstored, fun ha => hacks _ ha rfl⟩
  · left
    refine ⟨fun e he hid => hnew ⟨e, he, hid⟩, fun e he hid => ?_, hacks⟩
    rcases World.mem_stored_store.mp he with he | ⟨he, -⟩
    · exact h.stored e he hid
    · exact hnew ⟨e, he, hid⟩

/-- A transaction that keeps the envelope and does not record the ack keeps it held. -/
theorem Held.store (h : Held X d w) (hrun : q.run w.db = .ok (b, db)) (hkept : X ∈ db.envelopes)
    (hack : q.recordsAck ≠ some ⟨X.id, d⟩) : Held X d (w.store db) := by
  refine ⟨hkept, World.mem_stored_store.mpr (.inl h.stored), fun ha => ?_⟩
  rcases mem_acks_run hrun ha with ha | ⟨hq, -⟩
  · exact h.unacked ha
  · exact hack hq

/-- An envelope that was found under the id of a held one is that envelope. -/
theorem Held.eq_of_id (h : Held X d w) {e : Envelope} (he : e ∈ w.db.envelopes)
    (hid : e.id = X.id) : e = X := eq_of_key he h.envelope hid

/-- An ack deletes the envelope only if every listed device has acked it. -/
theorem ackBroadcast_keeps {id : EnvelopeId} {d : DeviceId} {ms : List DeviceId} {u : Unit}
    (h : X ∈ w.db.envelopes) (hrun : w.db.ackBroadcast id d ms = .ok (u, db))
    (hawaited : id = X.id → ∃ m ∈ ms, m ≠ d ∧ ⟨X.id, m⟩ ∉ w.db.acks) : X ∈ db.envelopes := by
  obtain ⟨db₁, rfl, rfl | ⟨rfl, hall⟩⟩ := ackBroadcast_ok hrun
  · exact h
  · refine mem_deleteWhere.mpr ⟨h, decide_eq_false ?_⟩
    rintro rfl
    obtain ⟨m, hm, hne, hunacked⟩ := hawaited rfl
    obtain ⟨a, ha⟩ := Option.isSome_iff_exists.mp (all_eq_true.mp hall m hm)
    obtain ⟨hmem, rfl⟩ := find?_eq_some.mp ha
    rcases mem_insertNew.mp hmem with hold | ⟨heq, -⟩
    · exact hunacked hold
    · exact hne (EnvelopeAck.mk.inj heq).2

theorem mem_listMembers {g : GroupId} {m : DeviceId} (h : w.db.isMember g m = true) :
    m ∈ (w.db.listMembers g).map (·.deviceId) := by
  obtain ⟨row, hrow, hg, rfl⟩ := isMember_iff.mp h
  refine mem_map_of_mem ?_
  simp [listMembers, mem_rows, hrow, hg]

/-- The members that a call listed for the envelope include one that it waits for. -/
theorem awaited_of_saw {i : Request} {own : List (World × World)} {id : EnvelopeId}
    {d' : DeviceId} {ms : List DeviceId} {w' : World}
    (hsaw : Saw i own (.sql (.ackBroadcast id d' ms)))
    (hown : ∀ st ∈ own, (Fresh X st.2 ∨ Held X d st.2) ∧ st.2.Extends w)
    (horder : own.Pairwise fun st st' => st.2.Extends st'.2) (hassumed : Assumed X d i own (w, w'))
    (hid : id = X.id) : ∃ m ∈ ms, m ≠ d' ∧ (m = d ∨ ⟨X.id, m⟩ ∉ w.db.acks) := by
  obtain ⟨rfl, found, check, listed, e, rfl, he, heid, -, rfl⟩ := hsaw
  have hX : X ∈ found.2.stored ∧ e = X := by
    rcases (hown found (by simp)).1 with hfresh | hheld
    · exact absurd (heid.trans hid) (hfresh.envelopes e he)
    · exact ⟨hheld.stored, hheld.eq_of_id he (heid.trans hid)⟩
  obtain ⟨hstored, rfl⟩ := hX
  -- the envelope was found before the members were listed
  have hlisted : e ∈ listed.2.stored := by
    obtain ⟨new, hnew⟩ : found.2.Extends listed.2 := (pairwise_cons.mp horder).1 listed (by simp)
    exact hnew ▸ mem_append_left _ hstored
  obtain ⟨m, hmember, hsender, hm⟩ := hassumed.awaited d' _ _ _ (by rw [hid]) rfl hlisted
  exact ⟨m, mem_filter.mpr ⟨mem_listMembers hmember, by simpa using hsender⟩, hm⟩

/-- One operation, by what its call read before: a broadcast stays held for a device that does not
ack it. -/
theorem held_exec {i : Request} {own : List (World × World)} {ω : Type} {o : Op ω} {c : Choice}
    (hbroadcast : X.recipient = none) (hi : i ≠ .ack d X.id) (hsaw : Saw i own o)
    (hown : ∀ st ∈ own, (Fresh X st.2 ∨ Held X d st.2) ∧ st.2.Extends w)
    (horder : own.Pairwise fun st st' => st.2.Extends st'.2)
    (hassumed : Assumed X d i own (w, (machine.exec o c w).2)) (h : Fresh X w ∨ Held X d w) :
    Fresh X (machine.exec o c w).2 ∨ Held X d (machine.exec o c w).2 := by
  cases o with
  | newUuid | utcNow => exact h
  | sql q =>
    change Assumed X d i own (w, (transact q c w).2) at hassumed
    change Fresh X (transact q c w).2 ∨ Held X d (transact q c w).2
    have htick : Fresh X (w.tick c.elapsed) ∨ Held X d (w.tick c.elapsed) :=
      h.imp (fun h => ⟨h.envelopes, h.stored, h.acks⟩) fun h => ⟨h.envelope, h.stored, h.unacked⟩
    rcases transact_cases q c w with ⟨hw, -⟩ | ⟨b, db, hrun, hw, -⟩
    · rw [hw]
      exact htick
    · rw [hw] at hassumed ⊢
      replace hassumed : Assumed X d i own (w.tick c.elapsed, (w.tick c.elapsed).store db) :=
        ⟨hassumed.unique, hassumed.notDue, hassumed.awaited⟩
      replace hown : ∀ st ∈ own, (Fresh X st.2 ∨ Held X d st.2) ∧ st.2.Extends (w.tick c.elapsed) :=
        hown
      generalize w.tick c.elapsed = w at *
      rcases htick with hfresh | hheld
      · exact hfresh.store hrun hassumed.unique
      right
      have hack : q.recordsAck ≠ some ⟨X.id, d⟩ := by
        intro hq
        cases q with
        | ackBroadcast id d' ms =>
          obtain ⟨rfl, rfl⟩ := EnvelopeAck.mk.inj (Option.some.inj hq)
          exact hi hsaw.1
        | _ => cases hq
      refine hheld.store hrun ?_ hack
      cases hq : q.dropsEnvelope with
      | false => exact (Query.frame hrun).kept hq X hheld.envelope
      | true =>
        cases q with
        | deleteEnvelope id =>
          obtain ⟨found, e, r, rfl, he, rfl, hr⟩ := hsaw
          obtain rfl := state_of_ok hrun
          refine mem_deleteWhere.mpr ⟨hheld.envelope, decide_eq_false fun hid => ?_⟩
          -- the envelope that was found has a recipient
          rcases (hown found (by simp)).1 with hfresh' | hheld'
          · exact hfresh'.envelopes e he hid.symm
          · rw [hheld'.eq_of_id he hid.symm, hbroadcast] at hr
            cases hr
        | deleteExpired =>
          obtain rfl := state_of_ok hrun
          have hdue := hassumed.notDue (World.mem_stored_store.mpr (.inl hheld.stored))
          exact mem_deleteWhere.mpr ⟨hheld.envelope, hdue⟩
        | ackBroadcast id d' ms =>
          refine ackBroadcast_keeps hheld.envelope hrun fun hid => ?_
          obtain ⟨m, hm, hne, rfl | hunacked⟩ := awaited_of_saw hsaw hown horder hassumed hid
          · exact ⟨m, hm, hne, hheld.unacked⟩
          · exact ⟨m, hm, hne, hunacked⟩
        | _ => exact absurd hq (by simp [Query.dropsEnvelope])

/-- Along every run a broadcast stays held for a device that does not ack it. -/
theorem held_run (hrun : Steps (Pool.Step machine A (serve cfg)) ⟨w₀, []⟩ es p)
    (hack : ∀ e ∈ es, e.Starts fun i => i ≠ .ack d X.id)
    (hassumed : ∀ c ∈ p.calls, ∀ own st more, c.own = own ++ st :: more →
      Assumed X d c.request own st) (hbroadcast : X.recipient = none) (hfresh : Fresh X w₀) :
    (Fresh X p.shared ∨ Held X d p.shared) ∧
      ∀ c ∈ p.calls, ∀ st ∈ c.own, Fresh X st.2 ∨ Held X d st.2 := by
  have hknows := Pool.invariant_past World.Extends.refl (fun _ _ _ => .trans)
    (fun _ _ _ o c w _ _ _ => extends_exec o c w)
    (fun i _ => serve_saw cfg i)
    (fun i own ω o c s hi hsaw hown horder _ hassumed hs =>
      held_exec hbroadcast hi hsaw hown horder hassumed hs)
    hrun hack hassumed (Pool.knows_initial (.inl hfresh))
  exact ⟨hknows.now, fun c hc st hst => (hknows.saw c hc st hst).1⟩

end

/-! ### Polls -/

/-- The page a poll returned is the one its statement read. -/
theorem page_of_returned (hrun : Steps (Pool.Step machine A (serve cfg)) ⟨w₀, []⟩ es p)
    {c : Call Request Op Failure Response World} (hc : c ∈ p.calls) {page : List Envelope}
    (hi : c.request = .poll d since sinceId) (hrest : c.rest = .pure (.envelopes page)) :
    ∃ st ∈ c.own, page = st.2.db.findPending d since sinceId := by
  have hown : wpOwn machine A (serve cfg (.poll d since sinceId)) fun own r =>
      ∀ page, r = .ok (.envelopes page) →
        ∃ st ∈ own, page = st.2.db.findPending d since sinceId := by
    change wpOwn machine A (Response.envelopes <$> query (.findPending d since sinceId)) _
    refine wpOwn_read (fun _ => rfl) (fun st page hpage => ?_) fun st e page hpage => ?_
    · obtain rfl := Response.envelopes.inj (Except.ok.inj hpage)
      exact ⟨st, mem_singleton_self _, rfl⟩
    · cases hpage
  rw [← hi] at hown
  exact Pool.own_returned hrun hc (r := .ok _) hrest hown page rfl

/-- What a poll returns of an envelope that can be handed to the device: the envelope itself if it
fits on the page with all that is pending, and otherwise the envelope or a page of envelopes before
it, so that it is behind the cursor of the next poll. -/
def Returns (w : World) (d : DeviceId) (since : Option Time) (sinceId : Option EnvelopeId)
    (X : Envelope) (page : List Envelope) : Prop :=
  (w.db.FitsPage d since sinceId → X ∈ page) ∧
    (X ∈ page ∨ ∃ last, page.getLast? = some last ∧ last.Before X)

theorem returns_findPending {w : World} {X : Envelope} (h : X ∈ w.db.pendingAfter d since sinceId) :
    Returns w d since sinceId X (w.db.findPending d since sinceId) :=
  ⟨fun hfits => findPending_eq_pendingAfter hfits ▸ h, mem_findPending_or_behind h⟩

theorem Held.of_stored {X : Envelope} {w : World} (h : Fresh X w ∨ Held X d w)
    (hmem : X ∈ w.stored) : Held X d w := by
  rcases h with hf | hh
  · exact absurd rfl (hf.stored X hmem)
  · exact hh

/-- A held broadcast is pending for a member that did not ack it. -/
theorem Held.pendingAfter {X : Envelope} {w : World} (h : Held X d w)
    (hbroadcast : X.recipient = none) (hmember : w.db.isMember X.groupId d = true)
    (hunexpired : X.unexpired w.db.now = true) (hbehind : X.behind since sinceId = true) :
    X ∈ w.db.pendingAfter d since sinceId := by
  refine mem_pendingAfter.mpr ⟨h.envelope, ?_, hbehind⟩
  have hack : w.db.acks.find? ⟨X.id, d⟩ = none := by
    refine Table.find?_eq_none.mpr fun a ha heq => ?_
    rw [heq] at ha
    exact h.unacked ha
  simp [deliverable, addressed, ackedBroadcast, hbroadcast, hmember, hunexpired, hack]

/-- The device is a member while the envelope is stored, the envelope is neither expired nor due
for the sweep, and no other envelope is stored under its id. -/
structure Stands (X : Envelope) (d : DeviceId) (w : World) : Prop where
  unique : ∀ e ∈ w.stored, e.id = X.id → e = X
  member : X ∈ w.stored → w.db.isMember X.groupId d = true
  unexpired : X ∈ w.stored → X.unexpired w.db.now = true
  notDue : X ∈ w.stored → Db.due w.db.now X = false

/-- Serve any requests in any interleaving and with any failures of the database, in which a
broadcast `X` is stored under a fresh id. Let `d` be a device other than the sender that is a member
from then on and does not ack the envelope, and let neither its expiry pass nor the sweep become
due. Then the envelope stays stored; the polls with which the device pages on from the head return
it; and every poll from the head, or from a cursor before the envelope, returns it or a page of
envelopes before it, and returns it if all that is pending fits on the page. -/
theorem broadcast_delivered {X : Envelope} {d : DeviceId}
    (hrun : Steps (Pool.Step machine Pool.Unrestricted (serve cfg)) ⟨w₀, []⟩ es p)
    (hbroadcast : X.recipient = none) (hsender : d ≠ X.sender) (hfresh : Fresh X w₀)
    (hstands : ∀ c ∈ p.calls, ∀ st ∈ c.own, Stands X d st.2)
    (hack : ∀ e ∈ es, e.Starts fun i => i ≠ .ack d X.id) :
    (X ∈ p.shared.stored → X ∈ p.shared.db.envelopes ∧ ∃ n, X ∈ p.shared.db.pages d n none none) ∧
    ∀ c ∈ p.calls, ∀ since sinceId page, c.request = .poll d since sinceId →
      c.rest = .pure (.envelopes page) → ∃ st ∈ c.own, page = st.2.db.findPending d since sinceId ∧
        (X ∈ st.2.stored → X.behind since sinceId = true →
          Returns st.2 d since sinceId X page) := by
  have hassumed : ∀ c ∈ p.calls, ∀ own st more, c.own = own ++ st :: more →
      Assumed X d c.request own st := by
    intro c hc own st more hown
    have hst := hstands c hc st (by simp [hown])
    refine ⟨hst.unique, hst.notDue, ?_⟩
    rintro d' found check listed hi rfl hstored
    refine ⟨d, (hstands c hc listed (by simp [hown])).member hstored, hsender, ?_, .inl rfl⟩
    rintro rfl
    exact Pool.request_run hrun hack (by simp) c hc hi
  obtain ⟨hnow, hpast⟩ := held_run hrun hack hassumed hbroadcast hfresh
  constructor
  · intro hmem
    have hX := Held.of_stored hnow hmem
    -- the present state is the one the last operation left
    have hlast : Stands X d p.shared := by
      by_cases hstart : w₀ = p.shared
      · exact absurd rfl ((hstart ▸ hfresh).stored X hmem)
      · obtain ⟨c, hc, st, hst, -, hlast⟩ :=
          Pool.exists_own_of_change (P := (· = p.shared)) hrun rfl hstart
        exact hlast ▸ hstands c hc st hst
    have hpending : X ∈ p.shared.db.pendingAfter d none none :=
      hX.pendingAfter hbroadcast (hlast.member hmem) (hlast.unexpired hmem) rfl
    exact ⟨hX.envelope, _, Db.mem_pages hpending le_rfl⟩
  · intro c hc since sinceId page hi hrest
    obtain ⟨st, hst, rfl⟩ := page_of_returned hrun hc hi hrest
    refine ⟨st, hst, rfl, fun hmem hbehind => returns_findPending ?_⟩
    have hs := hstands c hc st hst
    exact (Held.of_stored (hpast c hc st hst) hmem).pendingAfter hbroadcast (hs.member hmem)
      (hs.unexpired hmem) hbehind

/-- Serve any requests as above, in which a broadcast `X` is stored under a fresh id and which `d`
does not ack. Let every ack of the envelope find, among the members it listed other than the sender
and the acking device, one that is `d` or has not acked it by then. Then the envelope stays stored
until the sweep is due, and every poll of `d` that runs while `d` is a member, whether it was one
or was only invited when the envelope was sent, returns it or a page of envelopes before it, and
returns it if all that is pending fits on the page. -/
theorem invitee_delivered {X : Envelope} {d : DeviceId}
    (hrun : Steps (Pool.Step machine Pool.Unrestricted (serve cfg)) ⟨w₀, []⟩ es p)
    (hbroadcast : X.recipient = none) (hfresh : Fresh X w₀)
    (hassumed : ∀ c ∈ p.calls, ∀ own st more, c.own = own ++ st :: more →
      Assumed X d c.request own st)
    (hack : ∀ e ∈ es, e.Starts fun i => i ≠ .ack d X.id) :
    (X ∈ p.shared.stored → X ∈ p.shared.db.envelopes) ∧
    ∀ c ∈ p.calls, ∀ since sinceId page, c.request = .poll d since sinceId →
      c.rest = .pure (.envelopes page) → ∃ st ∈ c.own, page = st.2.db.findPending d since sinceId ∧
        (X ∈ st.2.stored → st.2.db.isMember X.groupId d = true →
          X.unexpired st.2.db.now = true → X.behind since sinceId = true →
          Returns st.2 d since sinceId X page) := by
  obtain ⟨hnow, hpast⟩ := held_run hrun hack hassumed hbroadcast hfresh
  constructor
  · exact fun hmem => (Held.of_stored hnow hmem).envelope
  · intro c hc since sinceId page hi hrest
    obtain ⟨st, hst, rfl⟩ := page_of_returned hrun hc hi hrest
    refine ⟨st, hst, rfl, fun hmem hmember hunexpired hbehind => returns_findPending ?_⟩
    exact (Held.of_stored (hpast c hc st hst) hmem).pendingAfter hbroadcast hmember hunexpired
      hbehind

/-! ### Concrete runs -/

instance (X : Envelope) (w : World) : Decidable (Fresh X w) :=
  decidable_of_iff ((∀ e ∈ w.db.envelopes.rows, e.id ≠ X.id) ∧ (∀ e ∈ w.stored, e.id ≠ X.id) ∧
    ∀ a ∈ w.db.acks.rows, a.envelopeId ≠ X.id)
    ⟨fun h => ⟨h.1, h.2.1, h.2.2⟩, fun h => ⟨h.envelopes, h.stored, h.acks⟩⟩

instance (X : Envelope) (d : DeviceId) (w : World) : Decidable (Stands X d w) :=
  decidable_of_iff ((∀ e ∈ w.stored, e.id = X.id → e = X) ∧
    (X ∈ w.stored → w.db.isMember X.groupId d = true) ∧
    (X ∈ w.stored → X.unexpired w.db.now = true) ∧ (X ∈ w.stored → Db.due w.db.now X = false))
    ⟨fun h => ⟨h.1, h.2.1, h.2.2.1, h.2.2.2⟩, fun h => ⟨h.unique, h.member, h.unexpired, h.notDue⟩⟩

/-- A group with two members and its stored envelopes, all sent by the first one. -/
def Sample.groupOf (envelopes : List EnvelopeId) : World :=
  let rows := envelopes.map fun id => Envelope.new id 0 1 7 none .application [0]
  { db := { Db.empty with
      users := Table.insertNew ⟨1, [], [], none⟩ ∅
      devices := Table.insertNew ⟨8, 1, []⟩ (Table.insertNew ⟨7, 1, []⟩ ∅)
      groups := Table.insertNew ⟨1, "eu", 0, 0⟩ ∅
      members := Table.insertNew ⟨1, 8, 0⟩ (Table.insertNew ⟨1, 7, 0⟩ ∅)
      envelopes := rows.foldl (fun t e => Table.insertNew e t) ∅ }
    stored := rows }

/-- The envelope that the first member sends next. -/
def Sample.sent : Envelope := .new 200 5 1 7 none .application [1]

/-- The first member sends the envelope, then the second one polls from the head. -/
def Sample.sendAndPoll : List (Turn Request Choice) :=
  .start (.sendMessage 7 1 [1] none) ::
    List.replicate 4 (.act 0 { Choice.plain with uuid := 200, clock := 5 }) ++
  [.start (.poll 8 none none), .act 1 .plain]

/-- The page a call returned. -/
def Sample.pageOf (c : Call Request Op Failure Response World) : Option (List Envelope) :=
  match c.rest with
  | .pure (.envelopes page) => some page
  | _ => none

theorem Sample.rest_of_pageOf {c : Call Request Op Failure Response World} {page : List Envelope}
    (h : pageOf c = some page) : c.rest = .pure (.envelopes page) := by
  unfold pageOf at h
  split at h
  · next page' hrest => rw [hrest, Option.some.inj h]
  · cases h

/-- A full page of earlier envelopes keeps an envelope from the poll from the head, although the
device is a member all along and the envelope is stored. -/
theorem poll_returns_first_page : Fresh sent (groupOf (List.range 64)) ∧ ∃ p,
    Steps (Pool.Step machine Pool.Unrestricted (serve config))
      ⟨groupOf (List.range 64), []⟩ sendAndPoll p ∧
    (∀ c ∈ p.calls, ∀ st ∈ c.own, Stands sent 8 st.2) ∧
    sent ∈ p.shared.db.envelopes ∧
    ∃ c ∈ p.calls, ∃ page, c.request = .poll 8 none none ∧ c.rest = .pure (.envelopes page) ∧
      sent ∉ page := by
  refine ⟨by decide +kernel, ?_⟩
  obtain ⟨p, hrun, hstands, hstored, c, hc, hi, page, hpage, hnot⟩ :=
    Pool.exists_steps_of_play machine (serve config) ⟨groupOf (List.range 64), []⟩ sendAndPoll
      fun p =>
      (∀ c ∈ p.calls, ∀ st ∈ c.own, Stands sent 8 st.2) ∧ sent ∈ p.shared.db.envelopes ∧
      ∃ c ∈ p.calls, c.request = .poll 8 none none ∧ ∃ page ∈ pageOf c, sent ∉ page
  exact ⟨p, hrun, hstands, hstored, c, hc, page, hi, rest_of_pageOf hpage, hnot⟩

/-- The sender acks its own envelope before the other member polls. -/
def Sample.sendEchoPoll : List (Turn Request Choice) :=
  .start (.sendMessage 7 1 [1] none) ::
    List.replicate 4 (.act 0 { Choice.plain with uuid := 200, clock := 5 }) ++
  .start (.ack 7 200) :: List.replicate 4 (.act 1 .plain) ++
  [.start (.poll 8 none none), .act 2 .plain]

theorem broadcast_delivered_sample : ∃ p,
    Steps (Pool.Step machine Pool.Unrestricted (serve config))
      ⟨groupOf [1, 2], []⟩ sendEchoPoll p ∧
    sent ∈ p.shared.stored ∧ sent ∈ p.shared.db.envelopes ∧
    ∃ n, sent ∈ p.shared.db.pages 8 n none none := by
  obtain ⟨p, hrun, hstands, hmem⟩ :=
    Pool.exists_steps_of_play machine (serve config) ⟨groupOf [1, 2], []⟩ sendEchoPoll fun p =>
      (∀ c ∈ p.calls, ∀ st ∈ c.own, Stands sent 8 st.2) ∧ sent ∈ p.shared.stored
  have hack : ∀ e ∈ sendEchoPoll, e.Starts fun i => i ≠ .ack 8 200 := by
    simp [sendEchoPoll, Turn.Starts]
  exact ⟨p, hrun, hmem, (broadcast_delivered hrun rfl (by decide) (by decide +kernel) hstands
    hack).1 hmem⟩

/-- Two members, and a third device that was invited. -/
def Sample.inviting : World :=
  let w := groupOf []
  { w with
    db.devices := w.db.devices.insertNew ⟨9, 1, []⟩
    db.pendingMemberships := w.db.pendingMemberships.insertNew ⟨1, 9, 0, 0⟩ }

/-- A member sends, a member acks, then the invited device accepts. -/
def Sample.sendAckAccept (acker : DeviceId) : List (Turn Request Choice) :=
  .start (.sendMessage 7 1 [1] none) ::
    List.replicate 4 (.act 0 { Choice.plain with uuid := 200, clock := 5 }) ++
  .start (.ack acker 200) :: List.replicate 4 (.act 1 .plain) ++
  [.start (.acceptMembership 9 1), .act 2 .plain]

/-- The other member acks and the invited device polls. -/
def Sample.missed : List (Turn Request Choice) :=
  sendAckAccept 8 ++ [.start (.poll 9 none none), .act 3 .plain]

/-- The operation stores the envelope while the device is invited and its invitation is valid. -/
def Sample.storesForInvited (st : World × World) : Bool :=
  decide (sent ∉ st.1.stored ∧ sent ∈ st.2.stored) &&
    st.2.db.pendingMemberships.rows.any fun row => row.key = (1, 9) && !st.2.db.expired row

/-- The only other member acks the envelope, which deletes it; the device that was invited when it
was sent accepts and does not get it. -/
theorem invitee_misses_broadcast : ∃ p,
    Steps (Pool.Step machine Pool.Unrestricted (serve config)) ⟨inviting, []⟩ missed p ∧
    (∃ c ∈ p.calls, ∃ st ∈ c.own, storesForInvited st = true) ∧
    sent.unexpired p.shared.db.now = true ∧ Db.due p.shared.db.now sent = false ∧
    ∃ c ∈ p.calls, ∃ page, c.request = .poll 9 none none ∧ c.rest = .pure (.envelopes page) ∧
      (∀ st ∈ c.own, st.2.db.isMember 1 9 = true) ∧ sent ∉ page := by
  obtain ⟨p, hrun, hstored, hunexpired, hdue, c, hc, hi, hmember, page, hpage, hnot⟩ :=
    Pool.exists_steps_of_play machine (serve config) ⟨inviting, []⟩ missed fun p =>
      (∃ c ∈ p.calls, ∃ st ∈ c.own, storesForInvited st = true) ∧
      sent.unexpired p.shared.db.now = true ∧ Db.due p.shared.db.now sent = false ∧
      ∃ c ∈ p.calls, c.request = .poll 9 none none ∧
        (∀ st ∈ c.own, st.2.db.isMember 1 9 = true) ∧ ∃ page ∈ pageOf c, sent ∉ page
  exact ⟨p, hrun, hstored, hunexpired, hdue, c, hc, page, hi, rest_of_pageOf hpage, hmember, hnot⟩

/-- The sender acks, the invited device accepts, the other member acks, and the device polls. -/
def Sample.delivered : List (Turn Request Choice) :=
  sendAckAccept 7 ++ .start (.ack 8 200) :: List.replicate 4 (.act 3 .plain) ++
  [.start (.poll 9 none none), .act 4 .plain]

/-- The call listed the device, which has not acked when the call records its ack. -/
def Sample.awaits (m : DeviceId) : List (World × World) → Bool
  | _ :: _ :: listed :: st :: _ =>
    listed.2.db.isMember 1 m && decide (⟨200, m⟩ ∉ st.1.db.acks)
  | _ => true

/-- The ack of the sender waits for the other member, that of the other member for the device. -/
def Sample.awaited (c : Call Request Op Failure Response World) : Bool :=
  match c.request with
  | .ack acker _ => acker ∈ [7, 8] && awaits (acker + 1) c.own
  | _ => true

/-- The sender acks its own envelope, and the other member after the invited device accepted. The
device gets the envelope, although each other member acks. -/
theorem invitee_delivered_sample : ∃ p,
    Steps (Pool.Step machine Pool.Unrestricted (serve config)) ⟨inviting, []⟩ delivered p ∧
    ∃ c ∈ p.calls, ∃ page, c.request = .poll 9 none none ∧ c.rest = .pure (.envelopes page) ∧
      sent ∈ page := by
  obtain ⟨p, hrun, hcalls, c, hc, hi, ⟨page, hpage, -⟩, hpoll⟩ :=
    Pool.exists_steps_of_play machine (serve config) ⟨inviting, []⟩ delivered fun p =>
      (∀ c ∈ p.calls, awaited c = true ∧ ∀ st ∈ c.own,
        (∀ e ∈ st.2.stored, e.id = 200 → e = sent) ∧ Db.due st.2.db.now sent = false) ∧
      ∃ c ∈ p.calls, c.request = .poll 9 none none ∧ (∃ page ∈ pageOf c, True) ∧
        ∀ st ∈ c.own, sent ∈ st.2.stored ∧ st.2.db.isMember 1 9 = true ∧
          sent.unexpired st.2.db.now = true ∧ st.2.db.FitsPage 9 none none
  have hrest := rest_of_pageOf hpage
  have hassumed : ∀ c ∈ p.calls, ∀ own st more, c.own = own ++ st :: more →
      Assumed sent 9 c.request own st := by
    intro c hc own st more hown
    obtain ⟨hawaited, hstates⟩ := hcalls c hc
    obtain ⟨hunique, hdue⟩ := hstates st (by simp [hown])
    refine ⟨hunique, fun _ => hdue, ?_⟩
    rintro acker found check listed hrequest rfl -
    simp only [awaited, hrequest, hown, cons_append, nil_append, awaits, Bool.and_eq_true,
      decide_eq_true_eq, mem_cons, not_mem_nil, or_false] at hawaited
    obtain ⟨hacker, hmember, hunacked⟩ := hawaited
    have hsender : acker + 1 ≠ sent.sender := by
      rcases hacker with rfl | rfl <;> decide
    exact ⟨acker + 1, hmember, hsender, Nat.succ_ne_self acker, .inr hunacked⟩
  have hack : ∀ e ∈ delivered, e.Starts fun i => i ≠ .ack 9 sent.id := by
    simp [delivered, sendAckAccept, Turn.Starts]
  obtain ⟨st, hst, -, hreturns⟩ := (invitee_delivered hrun rfl (by decide +kernel) hassumed
    hack).2 c hc none none page hi hrest
  obtain ⟨hmem, hmember, hunexpired, hfits⟩ := hpoll st hst
  exact ⟨p, hrun, c, hc, page, hi, hrest, (hreturns hmem hmember hunexpired rfl).1 hfits⟩

end Powehi.Server
