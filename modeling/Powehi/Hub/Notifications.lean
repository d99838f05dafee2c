import Powehi.Hub.Sockets

/-!
# Notifications and membership

A connection filters by the groups it read when it was opened. Since no service publishes that a
member was added or removed, the set never changes. A device that is removed from a group while it
is connected is sent what happens in the group from then on, and a device that joins a group while
it is connected is sent nothing about it.

The condition on a run is that no operation changes a membership of a device that is connected.
-/

namespace Powehi.Hub

open Codec Semantics Server Program List

/-! ### The condition on a run -/

/-- The operation can change whether the device is a member of the group. -/
def Changes (db : Db) (g : GroupId) (d : DeviceId) : {ω : Type} → Server.Op ω → Prop
  | _, .sql q =>
    (q.Seats g d ∧ db.isMember g d = false) ∨ (q.Unseats g d ∧ db.isMember g d = true)
  | _, _ => False

/-- An operation changes a membership of a device only while the device is not connected, and
reading the groups of a device does not fail. -/
def Steady (p : HubPool) : Turn → Prop
  | .call (.act n _) => ∀ i (ω : Type) (o : Server.Op ω) next own,
      p.calls[n]? = some ⟨i, .op (.server o) next, own⟩ →
      ∀ g d, Changes p.shared.server.db g d o →
        ∀ s ∈ p.shared.sockets, s.isOpen = true → s.device ≠ d
  | .load _ fails => fails = false
  | _ => True

/-- One turn of a run that keeps to the condition. -/
def SteadyStep (cfg : Config) (p : HubPool) (e : Turn) (p' : HubPool) : Prop :=
  Step cfg p e p' ∧ Steady p e

/-! ### Connections -/

/-- The notification is about a message, not about a member. -/
def WsNotification.IsMessage : WsNotification → Prop
  | .envelopeReceived _ _ => True
  | .epochAdvanced _ _ => True
  | _ => False

/-- The device of the connection is a member of the group of the notification. -/
def Socket.concerns (db : Db) (s : Socket) (n : WsNotification) : Bool :=
  db.isMember n.groupId s.device

/-- What was sent was sent to a member. As long as the connection is open, it knows the groups of
its device, and unless it lagged, what was due to it was sent or is waiting. -/
structure Socket.Faithful (db : Db) (s : Socket) : Prop where
  members : ∀ x ∈ s.sent, x.2.isMember x.1.groupId s.device = true
  messages : s.isOpen = true → ∀ n ∈ s.receiver.queue, n.IsMessage
  groups : s.isOpen = true → ∀ groups, s.myGroups = some groups →
    ∀ g, g ∈ groups ↔ db.isMember g s.device = true
  complete : s.isOpen = true → s.toldLagged = false → s.receiver.missed = 0 →
    s.due = s.sent.map Prod.fst ++ s.receiver.queue.filter (s.concerns db)

section

variable {db db' : Db} {s : Socket} {n : WsNotification}

theorem faithful_subscribed (d : DeviceId) : (Socket.subscribed d).Faithful db where
  members _ hx := by cases hx
  messages _ _ hn := by cases hn
  groups _ _ hgroups := by cases hgroups
  complete _ _ _ := rfl

theorem Socket.Faithful.close (h : s.Faithful db) :
    Socket.Faithful db { s with isOpen := false } where
  members := h.members
  messages := nofun
  groups := nofun
  complete := nofun

/-- The tables change, but not the memberships of a device that is connected. -/
theorem Socket.Faithful.steady (h : s.Faithful db)
    (hsame : s.isOpen = true → ∀ g, db'.isMember g s.device = db.isMember g s.device) :
    s.Faithful db' where
  members := h.members
  messages := h.messages
  groups hopen groups hgroups g := by
    rw [hsame hopen]
    exact h.groups hopen groups hgroups g
  complete hopen htold hmissed := by
    rw [h.complete hopen htold hmissed]
    congr 2
    funext n
    exact (hsame hopen n.groupId).symm

/-- A notification about a message is broadcast. -/
theorem Socket.Faithful.receive (h : s.Faithful db) (hn : n.IsMessage) :
    (s.receive db n).Faithful db := by
  unfold Socket.receive
  split
  · next hopen =>
    refine ⟨h.members, fun _ m hm => ?_, h.groups, fun _ htold hmissed => ?_⟩
    · -- whatever is waiting now was waiting before, or has just arrived
      unfold Receiver.push at hm
      split at hm
      · rcases mem_append.mp hm with hm | hm
        · exact h.messages hopen m hm
        · obtain rfl := mem_singleton.mp hm
          exact hn
      · rcases mem_append.mp hm with hm | hm
        · exact h.messages hopen m (mem_of_mem_tail hm)
        · obtain rfl := mem_singleton.mp hm
          exact hn
    · change (if db.isMember n.groupId s.device then s.due ++ [n] else s.due) =
        s.sent.map Prod.fst ++ (s.receiver.push n).queue.filter (s.concerns db)
      unfold Receiver.push at hmissed ⊢
      split at hmissed
      · next hroom =>
        rw [if_pos hroom, filter_append, ← append_assoc, ← h.complete hopen htold hmissed]
        cases hmember : db.isMember n.groupId s.device with
        | true | false => simp [Socket.concerns, hmember]
      · exact absurd hmissed (Nat.succ_ne_zero _)
  · exact h

/-- The groups that are read are those the device is a member of. -/
theorem Socket.Faithful.load (h : s.Faithful db) : (s.load db false).Faithful db where
  members := h.members
  messages := h.messages
  groups _ groups hgroups g := by
    obtain rfl := Option.some.inj hgroups
    change g ∈ (db.listGroupsForDevice s.device).toFinset ↔ _
    rw [mem_toFinset, Db.isMember_iff, Db.listGroupsForDevice, mem_map]
    constructor
    · rintro ⟨m, hm, rfl⟩
      obtain ⟨hm, hdevice⟩ := mem_filter.mp hm
      exact ⟨m, hm, rfl, of_decide_eq_true hdevice⟩
    · rintro ⟨m, hm, rfl, hdevice⟩
      exact ⟨m, mem_filter.mpr ⟨hm, decide_eq_true hdevice⟩, rfl⟩
  complete := h.complete

/-- A notification about a message is let through to the members of the group, and the set of groups
stays as it is. -/
theorem filterNotification_message {groups : Finset GroupId} {d : DeviceId} (hn : n.IsMessage) :
    filterNotification groups n d = (decide (n.groupId ∈ groups), groups) := by
  cases n with
  | envelopeReceived _ _ | epochAdvanced _ _ => rfl
  | _ => exact hn.elim

/-- A notification is taken from the channel. -/
theorem Socket.Faithful.forward {groups : Finset GroupId} {rest : List WsNotification}
    (delivered : Bool) (h : s.Faithful db) (hopen : s.isOpen = true)
    (hgroups : s.myGroups = some groups) (hqueue : s.receiver.queue = n :: rest) :
    (s.forward db delivered groups n rest).Faithful db := by
  have hmessage : n.IsMessage := h.messages hopen n (hqueue ▸ mem_cons_self)
  have hrest : ∀ m ∈ rest, m.IsMessage :=
    fun m hm => h.messages hopen m (hqueue ▸ mem_cons_of_mem _ hm)
  have hmember := h.groups hopen groups hgroups n.groupId
  have hdue := h.complete hopen
  rw [hqueue] at hdue
  unfold Socket.forward
  rw [filterNotification_message hmessage]
  dsimp only
  by_cases hin : n.groupId ∈ groups
  · -- the device is a member: the notification is sent, or the connection is lost
    have hconcerns : s.concerns db n = true := hmember.mp hin
    rw [decide_eq_true hin, if_pos rfl]
    split
    · refine ⟨fun x hx => ?_, fun _ => hrest, fun _ gs hgs => ?_, fun _ htold hmissed => ?_⟩
      · rcases mem_append.mp hx with hx | hx
        · exact h.members x hx
        · obtain rfl := mem_singleton.mp hx
          exact hconcerns
      · obtain rfl := Option.some.inj hgs
        exact h.groups hopen groups hgroups
      · rw [hdue htold hmissed, filter_cons_of_pos hconcerns, map_append, append_assoc]
        rfl
    · exact ⟨h.members, nofun, nofun, nofun⟩
  · have hconcerns : ¬s.concerns db n = true := fun hc => hin (hmember.mpr hc)
    rw [decide_eq_false hin]
    refine ⟨h.members, fun _ => hrest, fun _ gs hgs => ?_, fun _ htold hmissed => ?_⟩
    · obtain rfl := Option.some.inj hgs
      exact h.groups hopen groups hgroups
    · change s.due = s.sent.map Prod.fst ++ rest.filter (s.concerns db)
      rw [hdue htold hmissed, filter_cons_of_neg hconcerns]

theorem Socket.Faithful.recv {delivered : Bool} {s' : Socket} (h : s.Faithful db)
    (hopen : s.isOpen = true) (hrecv : s.recv? db delivered = some s') : s'.Faithful db := by
  unfold Socket.recv? at hrecv
  split at hrecv
  · cases hrecv
  · next groups hgroups =>
    split at hrecv
    · obtain rfl := Option.some.inj hrecv
      exact ⟨h.members, h.messages, h.groups, fun _ htold => by cases htold⟩
    · split at hrecv
      · cases hrecv
      · next n rest hqueue =>
        obtain rfl := Option.some.inj hrecv
        exact h.forward delivered hopen hgroups hqueue

end

/-! ### The services -/

/-- What is published is about a message. -/
def PublishesMessages : {ω : Type} → Op ω → Prop
  | _, .publish e => ∀ n, notification e = some n → n.IsMessage
  | _, .server _ => True

theorem isMessage_of_announced {ω : Type} {o : Server.Op ω} {b : ω} {e : DomainEvent}
    (h : announced o b = some e) : ∀ n, notification e = some n → n.IsMessage := by
  intro n hn
  cases o with
  | newUuid | utcNow => cases h
  | sql q =>
    cases q with
    | saveEnvelope envelope =>
      cases b with
      | error e => cases h
      | ok _ =>
        obtain rfl := Option.some.inj h
        obtain rfl := Option.some.inj hn
        exact trivial
    | commitEpochAndSave g expected envelope =>
      cases b with
      | error e => cases h
      | ok won =>
        cases won with
        | none => cases h
        | some epoch =>
          obtain rfl := Option.some.inj h
          obtain rfl := Option.some.inj hn
          exact trivial
    | _ => cases h

theorem uses_announcing {α : Type} (p : Serve α) :
    (announcing p).Uses PublishesMessages := by
  induction p with
  | pure _ | throw _ => exact trivial
  | op o next ih =>
    refine ⟨trivial, fun b => ?_⟩
    dsimp only
    split
    · next e he => exact ⟨isMessage_of_announced he, fun _ => ih b⟩
    · exact ih b

section

variable {g : GroupId} {d : DeviceId}

/-- An operation of the services that does not change a membership. -/
theorem isMember_exec_eq {ω : Type} {o : Server.Op ω} {ch : Choice} {w : Server.World}
    (h : ¬Changes w.db g d o) :
    (Server.machine.exec o ch w).2.db.isMember g d = w.db.isMember g d := by
  cases o with
  | newUuid | utcNow => rfl
  | sql q =>
    change (transact q ch w).2.db.isMember g d = _
    rcases transact_cases q ch w with ⟨hw, -⟩ | ⟨b, db, hrun, hw, -⟩
    · rw [hw]
      rfl
    · rw [hw]
      cases hold : w.db.isMember g d with
      | true =>
        exact (Query.isMember_run hrun hold).resolve_right fun hq => h (.inr ⟨hq, hold⟩)
      | false =>
        by_contra hnew
        rcases Query.isMember_of_run hrun (Bool.eq_true_of_not_eq_false hnew) with hmember | hq
        · exact absurd (hold.symm.trans hmember) (by decide)
        · exact h (.inl ⟨hq, hold⟩)

end

/-! ### Every run -/

/-- Every connection is faithful, and the calls publish only what is about messages. -/
structure Faithful (p : HubPool) : Prop where
  sockets : ∀ s ∈ p.shared.sockets, s.Faithful p.shared.server.db
  calls : ∀ c ∈ p.calls, c.rest.Uses PublishesMessages

section

variable {cfg : Config} {p p' : HubPool}

/-- A call is started, or performs its next operation. -/
theorem Faithful.call {turn : Semantics.Turn Request Choice} (h : Faithful p)
    (hstep : Pool.Step machine Pool.Unrestricted (serve cfg) p turn p')
    (hsteady : Steady p (.call turn)) : Faithful p' := by
  have hcalls : ∀ c ∈ p'.calls, c.rest.Uses PublishesMessages :=
    Pool.uses_run (K := fun _ => PublishesMessages) (P := fun _ => True)
      (fun i _ => uses_announcing _) (.cons hstep .nil) (fun e _ => by cases e <;> exact trivial)
      h.calls
  refine ⟨?_, hcalls⟩
  cases hstep with
  | start i => exact h.sockets
  | @act n ch i ω o next own call _ =>
    cases o with
    | publish e =>
      have hmessages := (h.calls _ (mem_of_getElem? call)).1
      change ∀ s ∈ (p.shared.dispatch e).sockets, s.Faithful (p.shared.dispatch e).server.db
      unfold World.dispatch
      split
      · exact h.sockets
      · next notified hnotified =>
        intro s hs
        obtain ⟨before, hbefore, rfl⟩ := mem_map.mp hs
        exact (h.sockets before hbefore).receive (hmessages _ hnotified)
    | server o =>
      intro s hs
      refine (h.sockets s hs).steady fun hopen g => isMember_exec_eq fun hchanges => ?_
      exact hsteady i ω o next own call g s.device hchanges s hs hopen rfl

/-- A connection is changed. -/
theorem Faithful.setSocket {k : ℕ} {s : Socket} (h : Faithful p)
    (hs : s.Faithful p.shared.server.db) : Faithful (setSocket p k s) := by
  refine ⟨fun s' hs' => ?_, h.calls⟩
  rcases mem_or_eq_of_mem_set hs' with hs' | rfl
  · exact h.sockets s' hs'
  · exact hs

/-- One turn. -/
theorem Faithful.step {e : Turn} (h : Faithful p) (hstep : SteadyStep cfg p e p') :
    Faithful p' := by
  obtain ⟨hstep, hsteady⟩ := hstep
  unfold Step at hstep
  cases e with
  | call turn => exact h.call (Pool.step_of_next? hstep) hsteady
  | connect d =>
    obtain rfl := Option.some.inj hstep
    refine ⟨fun s hs => ?_, h.calls⟩
    rcases mem_append.mp hs with hs | hs
    · exact h.sockets s hs
    · obtain rfl := mem_singleton.mp hs
      exact faithful_subscribed d
  | load k fails =>
    obtain rfl : fails = false := hsteady
    simp only [step?] at hstep
    split at hstep
    · cases hstep
    · next s hs =>
      split at hstep
      · obtain rfl := Option.some.inj hstep
        exact h.setSocket (h.sockets s (mem_of_getElem? hs)).load
      · cases hstep
  | recv k delivered =>
    simp only [step?] at hstep
    split at hstep
    · cases hstep
    · next s hs =>
      split at hstep
      · next hopen =>
        obtain ⟨s', hrecv, rfl⟩ := Option.map_eq_some_iff.mp hstep
        exact h.setSocket ((h.sockets s (mem_of_getElem? hs)).recv hopen hrecv)
      · cases hstep
  | close k =>
    simp only [step?] at hstep
    split at hstep
    · cases hstep
    · next s hs =>
      split at hstep
      · obtain rfl := Option.some.inj hstep
        exact h.setSocket (h.sockets s (mem_of_getElem? hs)).close
      · cases hstep

/-- A whole run. -/
theorem Faithful.run {es : List Turn} (h : Faithful p) (hrun : Steps (SteadyStep cfg) p es p') :
    Faithful p' := by
  induction hrun with
  | nil => exact h
  | cons head tail ih => exact ih (h.step head)

end

/-- Along every run in which no operation changes a membership of a connected device: whatever a
connection was sent about a group was sent while its device was a member of the group; and unless it
lagged, an open connection was sent, in order, what was published about the groups of its device
while it was connected, up to what is still waiting for it. -/
theorem notifications_follow_membership {cfg : Config} {w₀ : Server.World} {es : List Turn}
    {p : HubPool} {s : Socket} (hrun : Steps (SteadyStep cfg) ⟨⟨w₀, []⟩, []⟩ es p)
    (hs : s ∈ p.shared.sockets) :
    (∀ x ∈ s.sent, x.2.isMember x.1.groupId s.device = true) ∧
    (s.isOpen = true → s.toldLagged = false → s.receiver.missed = 0 →
      s.due = s.sent.map Prod.fst ++ s.receiver.queue.filter (s.concerns p.shared.server.db)) := by
  have hstart : Faithful (⟨⟨w₀, []⟩, []⟩ : HubPool) := ⟨fun _ => nofun, fun _ => nofun⟩
  have hfaithful := (hstart.run hrun).sockets s hs
  exact ⟨hfaithful.members, hfaithful.complete⟩

/-! ### Concrete runs -/

/-- Nothing fails in this turn. -/
def Turn.FaultFree : Turn → Prop
  | .call (.act _ c) => c.fault = none
  | .load _ fails => fails = false
  | .recv _ delivered => delivered = true
  | _ => True

instance : DecidablePred Turn.FaultFree
  | .call (.act _ c) => inferInstanceAs (Decidable (c.fault = none))
  | .call (.start _) => .isTrue trivial
  | .connect _ => .isTrue trivial
  | .load _ fails => inferInstanceAs (Decidable (fails = false))
  | .recv _ delivered => inferInstanceAs (Decidable (delivered = true))
  | .close _ => .isTrue trivial

/-- Devices 7 and 8, and a group of device 8. -/
def Sample.group : Db :=
  { Db.empty with
    users := Table.insertNew ⟨1, [1], [], none⟩ ∅
    devices := Table.insertNew ⟨8, 1, []⟩ (Table.insertNew ⟨7, 1, []⟩ ∅)
    groups := Table.insertNew ⟨1, "eu", 0, 0⟩ ∅
    members := Table.insertNew ⟨1, 8, 0⟩ ∅ }

/-- Device 7 is a member, too. -/
def Sample.joined : Server.World :=
  ⟨{ group with members := group.members.insertNew ⟨1, 7, 0⟩ }, []⟩

/-- Device 7 is invited. -/
def Sample.invited : Server.World :=
  ⟨{ group with pendingMemberships := Table.insertNew ⟨1, 7, 0, 0⟩ ∅ }, []⟩

/-- A call performs its next operations, and nothing fails. -/
def Sample.acts (n k : ℕ) : List Turn := List.replicate k (.call (.act n .plain))

/-- Device 7 connects. -/
def Sample.connected : List Turn := [.connect 7, .load 0 false]

/-- Device 8 sends a message, and the connection of device 7 takes what it was sent. -/
def Sample.message (n : ℕ) : List Turn :=
  [.call (.start (.sendMessage 8 1 [4] none))] ++ acts n 5 ++ [.recv 0 true]

/-- Device 8 removes device 7 from the group before it sends the message. -/
def Sample.removal : List Turn :=
  connected ++ [.call (.start (.removeMember 8 1 7))] ++ acts 0 3 ++ message 1

/-- Device 7 accepts its membership before device 8 sends the message. -/
def Sample.acceptance : List Turn :=
  connected ++ [.call (.start (.acceptMembership 7 1))] ++ acts 0 1 ++ message 1

open Sample

/-- A device that was removed is sent what happens in the group, and a device that joined is not. -/
theorem removed_device_is_notified :
    (∃ p : HubPool, ∃ s ∈ p.shared.sockets,
      Steps (Step Server.Sample.config) ⟨⟨joined, []⟩, []⟩ removal p ∧
      (∀ e ∈ removal, e.FaultFree) ∧ s.isOpen = true ∧
      ∃ x ∈ s.sent, x.2.isMember x.1.groupId s.device = false) ∧
    ∃ p : HubPool, ∃ s ∈ p.shared.sockets,
      Steps (Step Server.Sample.config) ⟨⟨invited, []⟩, []⟩ acceptance p ∧
      (∀ e ∈ acceptance, e.FaultFree) ∧ s.isOpen = true ∧ s.toldLagged = false ∧
      s.receiver.missed = 0 ∧ s.receiver.queue = [] ∧ ∃ n ∈ s.due, ∀ x ∈ s.sent, x.1 ≠ n := by
  constructor
  · have hplay : (playIf (step? Server.Sample.config) (fun _ _ _ => true) ⟨⟨joined, []⟩, []⟩
        removal).any (fun p => ∃ s ∈ p.shared.sockets, s.isOpen = true ∧
          ∃ x ∈ s.sent, x.2.isMember x.1.groupId s.device = false) = true := by
      decide +kernel
    obtain ⟨p, hrun, s, hs, hgoal⟩ := exists_steps_of_playIf (fun _ _ _ hstep _ => hstep) hplay
    exact ⟨p, s, hs, hrun, by decide, hgoal⟩
  · have hplay : (playIf (step? Server.Sample.config) (fun _ _ _ => true) ⟨⟨invited, []⟩, []⟩
        acceptance).any (fun p => ∃ s ∈ p.shared.sockets,
          s.isOpen = true ∧ s.toldLagged = false ∧ s.receiver.missed = 0 ∧
            s.receiver.queue = [] ∧ ∃ n ∈ s.due, ∀ x ∈ s.sent, x.1 ≠ n) = true := by
      decide +kernel
    obtain ⟨p, hrun, s, hs, hgoal⟩ := exists_steps_of_playIf (fun _ _ _ hstep _ => hstep) hplay
    exact ⟨p, s, hs, hrun, by decide, hgoal⟩

/-- The next operation can change some membership. -/
def changing : Program Op Failure Response → Bool
  | .op (.server (.sql (.createWithCreator _ _))) _ => true
  | .op (.server (.sql (.acceptPending _ _))) _ => true
  | .op (.server (.sql (.upsertMembers _ _))) _ => true
  | .op (.server (.sql (.removeMember _ _))) _ => true
  | .op (.server (.sql (.deleteDevice _))) _ => true
  | _ => false

theorem changing_of_changes {ω : Type} {o : Server.Op ω} {next : ω → Program Op Failure Response}
    {db : Db} {g : GroupId} {d : DeviceId} (h : Changes db g d o) :
    changing (.op (.server o) next) = true := by
  cases o with
  | newUuid | utcNow => exact h.elim
  | sql q =>
    cases q with
    | createWithCreator _ _ | acceptPending _ _ | upsertMembers _ _ | removeMember _ _
    | deleteDevice _ => rfl
    | _ => exact h.elim (fun h => h.1.elim) fun h => h.1.elim

/-- The turn keeps to the condition. -/
def steady (p : HubPool) : Turn → Bool
  | .call (.act n _) => (p.calls[n]?).all fun call =>
      !changing call.rest || p.shared.sockets.all fun s => !s.isOpen
  | .load _ fails => !fails
  | _ => true

theorem steadyStep {cfg : Config} {p p' : HubPool} {e : Turn} (hstep : Step cfg p e p')
    (htest : steady p e = true) : SteadyStep cfg p e p' := by
  refine ⟨hstep, ?_⟩
  cases e with
  | call turn =>
    cases turn with
    | start i => exact trivial
    | act n ch =>
      intro i ω o next own hcall g d hchanges s hs hopen
      simp only [steady, hcall, Option.all_some, changing_of_changes hchanges, Bool.not_true,
        Bool.false_or, all_eq_true] at htest
      simpa [hopen] using htest s hs
  | load k fails => simpa [steady, Steady] using htest
  | connect d | recv k delivered | close k => exact trivial

/-- Device 7 is a member all the time. -/
theorem notifications_follow_membership_sample : ∃ p : HubPool, ∃ s ∈ p.shared.sockets,
    Steps (SteadyStep Server.Sample.config) ⟨⟨joined, []⟩, []⟩
      (connected ++ message 0) p ∧
    s.sent.map Prod.fst = [.envelopeReceived 1 0] ∧
    (∀ x ∈ s.sent, x.2.isMember x.1.groupId s.device = true) ∧
    s.due = s.sent.map Prod.fst ++ s.receiver.queue.filter (s.concerns p.shared.server.db) := by
  have hplay : (playIf (step? Server.Sample.config) (fun p e _ => steady p e) ⟨⟨joined, []⟩, []⟩
      (connected ++ message 0)).any (fun p => ∃ s ∈ p.shared.sockets,
        s.isOpen = true ∧ s.toldLagged = false ∧ s.receiver.missed = 0 ∧
          s.sent.map Prod.fst = [.envelopeReceived 1 0]) = true := by
    decide +kernel
  obtain ⟨p, hrun, s, hs, hopen, htold, hmissed, hsent⟩ :=
    exists_steps_of_playIf (fun _ _ _ => steadyStep) hplay
  obtain ⟨hmembers, hcomplete⟩ := notifications_follow_membership hrun hs
  exact ⟨p, s, hs, hrun, hsent, hmembers, hcomplete hopen htold hmissed⟩

end Powehi.Hub
