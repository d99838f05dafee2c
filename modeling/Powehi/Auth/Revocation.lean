import Powehi.Auth.Effects
import Powehi.Semantics.Triple

/-!
# Revocation of a device

A session is a key of its own, and the index of its device leads to it. Logins write the session
first and the index second; a revocation deletes the device, then reads the index and deletes the
sessions it finds. Every session of the device is therefore in the index for a revocation that is
still to read it, or in the hands of a call that will enter it into the index or delete it.

This needs that nobody takes the session of another login out of the index. A login that finds its
device gone deletes the whole index, and so does time.
-/

namespace Powehi.Auth

open Codec Semantics Server Program List

variable {d : DeviceId} {w : World} {t : Token} {e : Turn Request Choice}

/-! ### What a call still has to do -/

def IsError {α : Type} (r : Except DomainError α) : Prop := ∃ e, r = .error e

/-- The revocation has not read the index yet, and cannot succeed without. -/
def Unread (d : DeviceId) (rest : Serve Response) : Prop :=
  rest.Owes machine Pool.Unrestricted (Reads (.deviceSessions d)) IsError

/-- The revocation has not deleted the device yet, and cannot succeed without. -/
def Undeleted (d : DeviceId) (rest : Serve Response) : Prop :=
  rest.Owes machine Pool.Unrestricted (DeletesDevice d) IsError

/-- Nothing fails while the device is gone. -/
def Quiet (d : DeviceId) (w : World) (c : Choice) (_ : World) : Prop := c.fault = none ∧ w.Gone d

/-- The call will delete the session, under some conditions on its operations. -/
def MustDrop (A : World → Choice → World → Prop) (t : Token) (rest : Serve Response) : Prop :=
  rest.Owes machine A (Deletes (.session t)) fun _ => False

/-- The revocation will succeed. -/
def EndsWell (rest : Serve Response) : Prop :=
  rest.Owes machine Pool.Unrestricted (fun _ => False) fun r => r = .ok .done

section

variable {d : DeviceId} {t : Token} {u : UserId}

/-- A login that has entered its session into the index. -/
def checking (d : DeviceId) (t : Token) : Serve Response :=
  Response.session <$> (tryCache (.setExpire (.deviceSessions d) deviceSessionsTtl) >>= fun _ =>
    recheckDevice d t)

/-- What a revocation goes on with once it has read the index. -/
def dropping (d : DeviceId) (keys : List Key) : Serve Response :=
  (fun _ => Response.done) <$> (keys.forM (fun key =>
      tryCache (.delete key) >>= fun _ => Pure.pure ()) >>= fun _ =>
    tryCache (.deleteSet (.deviceSessions d)) >>= fun _ => (Pure.pure () : Serve Unit))

theorem tracking_eq : ∃ next, tracking d t = .op (.cache (.setAdd (.deviceSessions d) (.session t)))
    next ∧ next (.ok ()) = checking d t :=
  ⟨_, rfl, rfl⟩

theorem invalidating_eq : ∃ next, invalidating d =
    .op (.cache (.setMembers (.deviceSessions d))) next ∧
    (∀ keys, next (.ok keys) = dropping d keys) ∧ ∀ e, next (.error e) = .throw e :=
  ⟨_, rfl, fun _ => rfl, fun _ => rfl⟩

/-- A revocation owes what it owes from the deletion of the device on. -/
theorem owes_revokes {K : {ω : Type} → Op ω → Prop} (P : Primitives) {i : Request}
    (hi : i.Revokes d) (h : (sql (.deleteDevice d) >>= fun _ => invalidateSessions d).Owes machine
      Pool.Unrestricted K IsError) : (serve P i).Owes machine Pool.Unrestricted K IsError := by
  obtain ⟨u, rfl⟩ : ∃ u, i = .revokeDevice u d := hi
  have herror : ∀ e : DomainError, IsError (.error e : Except DomainError Unit) := fun e => ⟨e, rfl⟩
  refine owes_map (Ψ := IsError) ?_ (fun _ h => absurd h (by simp [IsError])) fun e _ => ⟨e, rfl⟩
  refine owes_bind (fun row => ?_) herror
  cases row with
  | none => exact herror _
  | some device =>
    dsimp only
    split
    · exact herror _
    · refine owes_bind (fun _ => owes_bind (fun groups => owes_bind (fun _ => ?_) herror) herror)
        herror
      exact owes_bind (fun _ => h) herror

theorem unread_revokes (P : Primitives) {i : Request} (hi : i.Revokes d) : Unread d (serve P i) :=
  owes_revokes P hi (owes_bind (fun _ => .inl rfl) fun e => ⟨e, rfl⟩)

theorem undeleted_revokes (P : Primitives) {i : Request} (hi : i.Revokes d) :
    Undeleted d (serve P i) :=
  owes_revokes P hi (.inl rfl)

/-- A revocation that is about to read the index has deleted the device. -/
theorem not_undeleted_invalidating : ¬Undeleted d (invalidating d) := by
  intro h
  -- nothing fails and the index is empty: the call would end without having deleted the device
  have hread := h.act (s := ⟨.empty, .empty, []⟩) (c := .plain) (by simp [DeletesDevice]) trivial
  have hdelete := Owes.act (s := ⟨.empty, .empty, []⟩) (c := .plain) hread
    (by simp [DeletesDevice]) trivial
  obtain ⟨e, he⟩ := hdelete
  cases he

theorem mustDrop_checking : MustDrop (Quiet d) t (checking d t) := by
  refine .inr fun s c _ => .inr fun s' c' hquiet => ?_
  have hrun : (Query.findDevice d).run (s'.tick c'.elapsed).db =
      .ok (none, (s'.tick c'.elapsed).db) := by
    have hgone : (s'.tick c'.elapsed).db.findDevice d = none := hquiet.2
    rw [Query.run, hgone]
  rw [exec_sql_ok hquiet.1 hrun]
  exact .inl rfl

theorem mustDrop_dropping {keys : List Key} (h : .session t ∈ keys) :
    MustDrop Pool.Unrestricted t (dropping d keys) := by
  refine owes_map (Ψ := fun _ => False) (Owes.bind_left ?_) (fun _ h => h) fun _ h => h
  induction keys with
  | nil => exact absurd h (by simp)
  | cons key keys ih =>
    by_cases hkey : key = .session t
    · exact .inl hkey
    · have hrest : .session t ∈ keys := by simpa [Ne.symm hkey] using h
      exact .inr fun s c _ => ih hrest

theorem endsWell_dropping (keys : List Key) : EndsWell (dropping d keys) := by
  induction keys with
  | nil => exact .inr fun s c _ => rfl
  | cons key keys ih => exact .inr fun s c _ => ih

end

/-! ### The conditions on a run -/

abbrev AuthPool := Pool Request Op DomainError Response World

abbrev AuthCall := Call Request Op DomainError Response World

/-- What is assumed of every operation: a device that is gone stays gone, and the index does not
expire while it lists a session that is alive. -/
structure Allowed (d : DeviceId) (w : World) (c : Choice) (w' : World) : Prop where
  stays : w.Gone d → w'.Gone d
  lasting : ∀ k ∈ w.index (.deviceSessions d), (w.tick c.elapsed).entry k = some (.uuid d) →
    k ∈ (w.tick c.elapsed).index (.deviceSessions d)

/-- The call is about to delete the index. -/
def DropsIndex (d : DeviceId) : Serve Response → Bool
  | .op (.cache (.deleteSet s)) _ => s = .deviceSessions d
  | _ => false

/-- An operation of a login of the device does not fail, and an index it deletes lists no session
that is alive. -/
def Minds (d : DeviceId) (w : World) (call : AuthCall) (c : Choice) : Prop :=
  call.request.LogsIn d → c.fault = none ∧ (DropsIndex d call.rest = true →
    ∀ k ∈ w.index (.deviceSessions d), (w.tick c.elapsed).entry k ≠ some (.uuid d))

/-- The call is about to delete the device, to read the index or to delete a session. -/
def Matters (d : DeviceId) : Serve Response → Bool
  | .op (.sql (.deleteDevice d')) _ => d' = d
  | .op (.cache (.setMembers s)) _ => s = .deviceSessions d
  | .op (.cache (.delete (.session _))) _ => true
  | _ => false

/-- Such an operation of a revocation leaves the device in place if it fails. -/
def Retriable (d : DeviceId) (w' : World) (call : AuthCall) (c : Choice) : Prop :=
  call.request.Revokes d → Matters d call.rest = true → c.fault ≠ none → ¬w'.Gone d

/-- One turn of a run that keeps to the conditions. -/
structure OrderlyStep (P : Primitives) (d : DeviceId) (p : AuthPool) (e : Turn Request Choice)
    (p' : AuthPool) : Prop where
  step : Pool.Step machine (Allowed d) (serve P) p e p'
  minds : p.Acting e (Minds d p.shared)
  retriable : p.Acting e (Retriable d p'.shared)

theorem matters_of_deletes {ω : Type} {o : Op ω} {next : ω → Serve Response}
    (h : Deletes (.session t) o) : Matters d (.op o next) = true := by
  cases o with
  | cache q =>
    cases q with
    | delete k =>
      obtain rfl : k = .session t := h
      rfl
    | _ => exact h.elim
  | _ => exact h.elim

theorem Request.LogsIn.not_revokes {i : Request} {d d' : DeviceId} (h : i.LogsIn d) :
    ¬i.Revokes d' := by
  obtain ⟨req, rfl, -⟩ := h
  simp [Request.Revokes]

/-! ### The invariant -/

/-- Why a session of the device need not be worried about: it is in the index, and every revocation
is still to read it; or a login is about to enter it into the index; or the device is gone, and a
call is bound to delete the session. -/
def Explained (d : DeviceId) (t : Token) (p : AuthPool) : Prop :=
  (p.shared.Listed t d ∧ ∀ c ∈ p.calls, c.request.Revokes d → Unread d c.rest) ∨
  (∃ c ∈ p.calls, c.request.LogsIn d ∧ c.rest = tracking d t) ∨
  (p.shared.Gone d ∧ ∃ c ∈ p.calls, c.request.LogsIn d ∧ MustDrop (Quiet d) t c.rest ∨
    c.request.Revokes d ∧ MustDrop Pool.Unrestricted t c.rest)

/-- Every session of the device is explained. A revocation that has got past deleting the device, or
past reading the index, has deleted the device. -/
structure Accounted (d : DeviceId) (p : AuthPool) : Prop where
  nodes : ∀ c ∈ p.calls, c.rest.Everywhere c.request.Node
  deleting : ∀ c ∈ p.calls, c.request.Revokes d → Undeleted d c.rest ∨ p.shared.Gone d
  reading : ∀ c ∈ p.calls, c.request.Revokes d → Unread d c.rest ∨ p.shared.Gone d
  sessions : ∀ t, p.shared.Alive t d → Explained d t p

namespace Accounted

variable {P : Primitives} {d : DeviceId} {p p' : AuthPool}

theorem initial (h : ∀ t, w.Alive t d → w.Listed t d) : Accounted d ⟨w, []⟩ where
  nodes := by simp
  deleting := by simp
  reading := by simp
  sessions t ht := .inl ⟨h t ht, by simp⟩

/-- A call that starts. -/
theorem start (h : Accounted d p) (i : Request) :
    Accounted d { p with calls := p.calls ++ [⟨i, serve P i, []⟩] } := by
  have hcase : ∀ c ∈ p.calls ++ [(⟨i, serve P i, []⟩ : Call _ _ _ _ _)],
      c ∈ p.calls ∨ c = ⟨i, serve P i, []⟩ := fun c hc => by simpa using hc
  constructor
  · intro c hc
    rcases hcase c hc with hc | rfl
    · exact h.nodes c hc
    · exact serve_nodes P i
  · intro c hc hrevokes
    rcases hcase c hc with hc | rfl
    · exact h.deleting c hc hrevokes
    · exact .inl (undeleted_revokes P hrevokes)
  · intro c hc hrevokes
    rcases hcase c hc with hc | rfl
    · exact h.reading c hc hrevokes
    · exact .inl (unread_revokes P hrevokes)
  · intro t ht
    rcases h.sessions t ht with ⟨hlisted, hunread⟩ | ⟨c, hc, hin, hrest⟩ |
      ⟨hgone, c, hc, hdrop⟩
    · refine .inl ⟨hlisted, fun c hc hrevokes => ?_⟩
      rcases hcase c hc with hc | rfl
      · exact hunread c hc hrevokes
      · exact unread_revokes P hrevokes
    · exact .inr (.inl ⟨c, mem_append_left _ hc, hin, hrest⟩)
    · exact .inr (.inr ⟨hgone, c, mem_append_left _ hc, hdrop⟩)

/-- One call changes; the others keep owing. -/
theorem unread_set {n : ℕ} {new : Call Request Op DomainError Response World}
    (hall : ∀ c ∈ p.calls, c.request.Revokes d → Unread d c.rest)
    (hnew : new.request.Revokes d → Unread d new.rest) :
    ∀ c ∈ p.calls.set n new, c.request.Revokes d → Unread d c.rest := by
  intro c hc
  rcases mem_or_eq_of_mem_set hc with hc | rfl
  · exact hall c hc
  · exact hnew

section Act

variable {n : ℕ} {ch : Choice} {i : Request} {ω : Type} {o : Op ω} {next : ω → Serve Response}
  {own : List (World × World)} (h : Accounted d p)
  (call : p.calls[n]? = some ⟨i, .op o next, own⟩)
  (hA : Allowed d p.shared ch (machine.exec o ch p.shared).2)
  (hretry : Retriable d (machine.exec o ch p.shared).2 ⟨i, .op o next, own⟩ ch)

include h call

include hA in
/-- A revocation is still to delete the device, or the device is gone. -/
theorem deleting_act (hrevokes : i.Revokes d) :
    Undeleted d (next (machine.exec o ch p.shared).1) ∨ (machine.exec o ch p.shared).2.Gone d := by
  have hnode := (h.nodes _ (mem_of_getElem? call)).1
  rcases h.deleting _ (mem_of_getElem? call) hrevokes with hundeleted | hgone
  · by_cases hdeletes : DeletesDevice d o
    · by_cases hfault : ch.fault = none
      · exact .inr (gone_of_deletesDevice hdeletes hfault)
      -- the deletion failed: so does the call
      · cases o with
        | sql q =>
          cases q with
          | deleteDevice d' =>
            obtain rfl : d' = d := hdeletes
            obtain ⟨e, he⟩ := exec_sql_fault (.deleteDevice d') hfault
            rw [he, hnode.2.2 e]
            exact .inl ⟨e, rfl⟩
          | _ => exact hdeletes.elim
        | _ => exact hdeletes.elim
    · exact .inl (hundeleted.act hdeletes trivial)
  · exact .inr (hA.stays hgone)

include hA hretry in
/-- A revocation that reads the index has deleted the device, and goes on with what it read. -/
theorem reads_act (hreads : Reads (.deviceSessions d) o) :
    i.Revokes d ∧ p.shared.Gone d ∧ next (machine.exec o ch p.shared).1 =
      dropping d ((p.shared.tick ch.elapsed).index (.deviceSessions d)) := by
  have hnode := (h.nodes _ (mem_of_getElem? call)).1
  cases o with
  | cache q =>
    cases q with
    | setMembers s =>
      obtain rfl : s = .deviceSessions d := hreads
      obtain ⟨hrevokes, hrest⟩ := hnode
      have hgone : p.shared.Gone d := by
        rcases h.deleting _ (mem_of_getElem? call) hrevokes with hundeleted | hgone
        · exact absurd (hrest ▸ hundeleted) not_undeleted_invalidating
        · exact hgone
      obtain ⟨next', hinv, hok, -⟩ := invalidating_eq
      have hsame : op (.cache (.setMembers (.deviceSessions d))) next =
          .op (.cache (.setMembers (.deviceSessions d))) next' := Eq.trans hrest hinv
      cases hsame
      have hfault : ch.fault = none := by
        by_contra hfault
        exact hretry hrevokes (decide_eq_true rfl) hfault (hA.stays hgone)
      rw [exec_cache_ok _ hfault]
      exact ⟨hrevokes, hgone, hok _⟩
    | _ => exact hreads.elim
  | _ => exact hreads.elim

include hA hretry in
/-- A revocation is still to read the index, or the device is gone. -/
theorem reading_act (hrevokes : i.Revokes d) :
    Unread d (next (machine.exec o ch p.shared).1) ∨ (machine.exec o ch p.shared).2.Gone d := by
  rcases h.reading _ (mem_of_getElem? call) hrevokes with hunread | hgone
  · by_cases hreads : Reads (.deviceSessions d) o
    · exact .inr (hA.stays (h.reads_act call hA hretry hreads).2.1)
    · exact .inl (hunread.act hreads trivial)
  · exact .inr (hA.stays hgone)

/-- A session that was just written is about to be entered into the index. -/
theorem stores_act (hstores : Stores (.session t) (.uuid d) o)
    (hfault : i.LogsIn d → ch.fault = none) :
    i.LogsIn d ∧ next (machine.exec o ch p.shared).1 = tracking d t := by
  have hnode := (h.nodes _ (mem_of_getElem? call)).1
  cases o with
  | cache q =>
    cases q with
    | set k v ttl =>
      obtain ⟨rfl, rfl⟩ := hstores
      obtain ⟨⟨d', hd', hin⟩, hnext⟩ := hnode
      obtain rfl := Value.uuid.inj hd'
      rw [exec_cache_ok _ (hfault hin)]
      exact ⟨hin, hnext _ rfl⟩
    | _ => exact hstores.elim
  | _ => exact hstores.elim

/-- Nobody but a login takes sessions out of an index that is still to be read. -/
theorem shrinks_act (hshrinks : Shrinks (.deviceSessions d) o)
    (hunread : i.Revokes d → Unread d (.op o next)) :
    i.LogsIn d ∧ DropsIndex d (.op o next) = true := by
  have hnode := (h.nodes _ (mem_of_getElem? call)).1
  cases o with
  | cache q =>
    cases q with
    | setRemove s k =>
      obtain rfl : s = .deviceSessions d := hshrinks
      exact hnode.1.elim
    | deleteSet s =>
      obtain rfl : s = .deviceSessions d := hshrinks
      rcases hnode.1 with hin | hrevokes
      · exact ⟨hin, decide_eq_true rfl⟩
      -- a revocation does this last, and then it has read the index
      · have hnext := hnode.2 hrevokes
        obtain ⟨e, he⟩ : IsError (.ok Response.done) := by
          have hlast := (hunread hrevokes).act (s := p.shared) (c := .plain)
            (by simp [Reads]) trivial
          rwa [hnext] at hlast
        cases he
    | _ => exact hshrinks.elim
  | _ => exact hshrinks.elim

include hA hretry in
/-- The sessions of the device after an operation. -/
theorem sessions_act (hlogin : Minds d p.shared ⟨i, .op o next, own⟩ ch)
    (ht : (machine.exec o ch p.shared).2.Alive t d) :
    Explained d t ⟨(machine.exec o ch p.shared).2, p.calls.set n
      ⟨i, next (machine.exec o ch p.shared).1,
        own ++ [(p.shared, (machine.exec o ch p.shared).2)]⟩⟩ := by
  have hlt := (List.getElem?_eq_some_iff.mp call).1
  have hmem := mem_of_getElem? call
  have hnew := mem_set hlt (⟨i, next (machine.exec o ch p.shared).1,
    own ++ [(p.shared, (machine.exec o ch p.shared).2)]⟩ : Call _ _ _ _ _)
  -- the session was alive before the operation, or the operation stores it
  rcases entry_of_exec ht with halive | hstores
  · rcases h.sessions t (World.entry_of_tick halive) with ⟨hlisted, hunread⟩ | ⟨c, hc, hin, hrest⟩ |
      ⟨hgone, c, hc, hdrop⟩
    · have hstill := hA.lasting _ hlisted halive
      by_cases hreads : Reads (.deviceSessions d) o
      · -- the revocation has found the session
        obtain ⟨hrevokes, hgone, hnext⟩ := h.reads_act call hA hretry hreads
        refine .inr (.inr ⟨hA.stays hgone, _, hnew, .inr ⟨hrevokes, ?_⟩⟩)
        rw [hnext]
        exact mustDrop_dropping hstill
      · have hself : i.Revokes d → Unread d (next (machine.exec o ch p.shared).1) :=
          fun hrevokes => (hunread _ hmem hrevokes).act hreads trivial
        rcases index_exec hstill with hafter | hshrinks
        · exact .inl ⟨hafter, unread_set hunread hself⟩
        · obtain ⟨hin, hdrops⟩ := h.shrinks_act call hshrinks (hunread _ hmem)
          exact absurd halive ((hlogin hin).2 hdrops _ hlisted)
    · rcases Pool.mem_set_calls call hc _ with rfl | hc
      · -- the login enters its session into the index
        obtain ⟨next', htracking, hok⟩ := tracking_eq
        have hsame : op o next = .op _ next' := hrest.trans htracking
        cases hsame
        have hfault := (hlogin hin).1
        have hlisted : (machine.exec _ ch p.shared).2.Listed t d :=
          index_of_adds (o := .cache (.setAdd (.deviceSessions d) (.session t))) ⟨rfl, rfl⟩ hfault
        by_cases hall : ∀ c ∈ p.calls, c.request.Revokes d → Unread d c.rest
        · exact .inl ⟨hlisted, unread_set hall fun hrevokes => absurd hrevokes hin.not_revokes⟩
        · push Not at hall
          obtain ⟨c, hc, hrevokes, hread⟩ := hall
          have hgone := (h.reading c hc hrevokes).resolve_left hread
          refine .inr (.inr ⟨hA.stays hgone, _, hnew, .inl ⟨hin, ?_⟩⟩)
          rw [exec_cache_ok _ hfault, hok]
          exact mustDrop_checking
      · exact .inr (.inl ⟨c, hc, hin, hrest⟩)
    · rcases Pool.mem_set_calls call hc _ with rfl | hc
      · have hnot : Deletes (.session t) o → ch.fault ≠ none := fun hdeletes hfault =>
          absurd (ht.symm.trans (entry_of_deletes (w := p.shared) hdeletes hfault)) (by simp)
        refine .inr (.inr ⟨hA.stays hgone, _, hnew, ?_⟩)
        rcases hdrop with ⟨hin, hdrop⟩ | ⟨hrevokes, hdrop⟩
        · have hfault := (hlogin hin).1
          exact .inl ⟨hin, hdrop.act (fun hdeletes => hnot hdeletes hfault) ⟨hfault, hgone⟩⟩
        · refine .inr ⟨hrevokes, hdrop.act (fun hdeletes => ?_) trivial⟩
          exact hretry hrevokes (matters_of_deletes hdeletes) (hnot hdeletes) (hA.stays hgone)
      · exact .inr (.inr ⟨hA.stays hgone, c, hc, hdrop⟩)
  · obtain ⟨hin, hnext⟩ := h.stores_act call hstores fun hin => (hlogin hin).1
    exact .inr (.inl ⟨_, hnew, hin, hnext⟩)

end Act

theorem step (hstep : OrderlyStep P d p e p') (h : Accounted d p) : Accounted d p' := by
  obtain ⟨hstep, hminds, hretry⟩ := hstep
  have hnodes := hstep.everywhere (serve_nodes P) h.nodes
  cases hstep with
  | start i => exact h.start i
  | @act n ch i ω o next own call hA =>
    refine ⟨hnodes, fun c hc hrevokes => ?_, fun c hc hrevokes => ?_, fun t ht => ?_⟩
    · rcases mem_or_eq_of_mem_set hc with hc | rfl
      · exact (h.deleting c hc hrevokes).imp id hA.stays
      · exact h.deleting_act call hA hrevokes
    · rcases mem_or_eq_of_mem_set hc with hc | rfl
      · exact (h.reading c hc hrevokes).imp id hA.stays
      · exact h.reading_act call hA (hretry _ call) hrevokes
    · exact h.sessions_act call hA (hretry _ call) (hminds _ call) ht

/-- Along every run that keeps to the conditions, the sessions of the device are explained. -/
theorem run {es : List (Turn Request Choice)} (hrun : Steps (OrderlyStep P d) p es p')
    (h : Accounted d p) : Accounted d p' :=
  hrun.invariant (fun _ _ _ hstep => step hstep) h

/-- When a revocation has succeeded and the logins of the device have returned, nobody is left who
could still owe the deletion of a session. -/
theorem not_alive (h : Accounted d p) {c : Call Request Op DomainError Response World}
    (hc : c ∈ p.calls) (hrevokes : c.request.Revokes d) (hdone : c.rest = .pure .done)
    (hreturned : ∀ c ∈ p.calls, c.request.LogsIn d ∨ c.request.Revokes d →
      ∃ r, c.rest = .ofExcept r) (t : Token) : ¬p.shared.Alive t d := by
  intro ht
  rcases h.sessions t ht with ⟨-, hunread⟩ | ⟨c', hc', hin, hrest⟩ |
    ⟨-, c', hc', ⟨hin, hdrop⟩ | ⟨hrevokes, hdrop⟩⟩
  · have howes := hunread c hc hrevokes
    rw [hdone] at howes
    obtain ⟨e, he⟩ := howes
    cases he
  · obtain ⟨r, hr⟩ := hreturned c' hc' (.inl hin)
    rw [hrest] at hr
    cases r <;> cases hr
  · obtain ⟨r, hr⟩ := hreturned c' hc' (.inl hin)
    rw [hr] at hdrop
    cases r <;> exact hdrop.elim
  · obtain ⟨r, hr⟩ := hreturned c' hc' (.inr hrevokes)
    rw [hr] at hdrop
    cases r <;> exact hdrop.elim

end Accounted

/-! ### The sessions of a revoked device -/

/-- A device that no token stands for makes no request. -/
theorem authenticate_ne (h : ∀ t, ¬w.Alive t d) (bearer : Option Token) (f : ℕ → Choice) :
    ((authenticate bearer).run machine f w).1 ≠ .ok d := by
  refine wp_run (A := fun _ => True) (Q := fun r _ => r ≠ .ok d) (C := fun _ => True) ?_
    fun _ => trivial
  cases bearer with
  | none => exact ⟨trivial, fun h => by cases h⟩
  | some t =>
    change wp _ _ (cache (.get (.session t)) >>= _) _ _ _
    rw [wp_bind, cache, wp_request]
    refine ⟨trivial, fun c _ => ⟨trivial, ?_⟩⟩
    cases hget : (machine.exec (.cache (.get (.session t))) c w).1 with
    | error e => exact fun h => by cases h
    | ok v =>
      rw [andThen_ok]
      split
      · next d' =>
        refine ⟨trivial, fun hd => h t ?_⟩
        obtain rfl := Except.ok.inj hd
        exact World.entry_of_tick (exec_cache_eq hget).1.symm
      · exact ⟨trivial, fun h => by cases h⟩

/-- Once a revocation has succeeded and the logins of the device have returned, no token stands for
the device. -/
theorem revoked_sessions_end {P : Primitives} {d : DeviceId} {u : UserId} {w₀ : World}
    {es : List (Turn Request Choice)} {p : AuthPool}
    {c : Call Request Op DomainError Response World}
    (hstart : ∀ t, w₀.Alive t d → w₀.Listed t d) (hrun : Steps (OrderlyStep P d) ⟨w₀, []⟩ es p)
    (hc : c ∈ p.calls) (hrequest : c.request = .revokeDevice u d) (hdone : c.rest = .pure .done)
    (hreturned : ∀ c ∈ p.calls, c.request.LogsIn d ∨ c.request.Revokes d →
      ∃ r, c.rest = .ofExcept r) (bearer : Option Token) (f : ℕ → Choice) :
    ((authenticate bearer).run machine f p.shared).1 ≠ .ok d := by
  have haccounted := Accounted.run hrun (.initial hstart)
  exact authenticate_ne (haccounted.not_alive hc ⟨u, hrequest⟩ hdone hreturned) bearer f

/-! ### Concrete runs -/

/-- Functions in the place of the cryptographic ones. -/
def Sample.primitives : Primitives where
  sha256 b := b
  syntheticUserId _ := 0
  validKey _ := true
  verifyStrict _ _ _ := true
  uuidBytes u := [UInt8.ofNat u]
  uuidText u := [UInt8.ofNat u]
  uuidSimple u := [UInt8.ofNat u]

/-- User 1 with device 7, and two logins in progress. -/
def Sample.accounts : World where
  db := { Db.empty with
    users := Table.insertNew ⟨1, [1], [], none⟩ ∅
    devices := Table.insertNew ⟨7, 1, []⟩ ∅ }
  cache := { Cache.empty with
    entries := Expiring.set (Expiring.set ∅ (.loginNonce 50) (.uuid 1) none)
      (.loginNonce 51) (.uuid 1) none }
  saved := []

/-- A call performs its next operations, and nothing fails. -/
def Sample.acts (n k : ℕ) : List (Turn Request Choice) := List.replicate k (.act n .plain)

/-- A login of device 7, up to the point where its session is in the index. -/
def Sample.login (n : ℕ) (nonce : Nonce) (token : Token) : List (Turn Request Choice) :=
  [.start (.loginFinish ⟨[], nonce, 7, none⟩)] ++ acts n 3 ++
    [.act n { Choice.plain with uuid := token }] ++ acts n 3

/-- The revocation of device 7, up to the point where the device is gone. -/
def Sample.revoke (n : ℕ) : List (Turn Request Choice) :=
  [.start (.revokeDevice 1 7)] ++ acts n 6

/-- One login is done, another is about to look for its device when a revocation deletes it. The
second login takes the first one's session out of the index before the revocation reads it. -/
def Sample.cleanedUp : List (Turn Request Choice) :=
  login 0 50 100 ++ acts 0 1 ++ login 1 51 101 ++ revoke 2 ++ acts 1 3 ++
    acts 2 2

/-- Nothing fails in this turn. -/
def healthy : AuthPool → Turn Request Choice → AuthPool → Bool :=
  Pool.allows fun _ c _ => c.fault = none

/-- No session is in progress yet. -/
theorem Sample.listed_accounts (t : Token) (h : accounts.Alive t 7) : accounts.Listed t 7 := by
  cases h

open Sample

theorem cleanup_saves_session : ∃ p : AuthPool,
    Steps (Pool.Step machine (fun _ c _ => c.fault = none) (serve primitives))
      ⟨accounts, []⟩ cleanedUp p ∧
    (∀ t, accounts.Alive t 7 → accounts.Listed t 7) ∧
    (∃ c ∈ p.calls, c.request = .revokeDevice 1 7 ∧ c.rest = .pure .done) ∧
    (∀ c ∈ p.calls, ∃ r, c.rest = .ofExcept r) ∧
    ((authenticate (some 100)).run machine (fun _ => .plain) p.shared).1 = .ok 7 := by
  have hplay : (Pool.playIf machine (serve primitives) healthy ⟨accounts, []⟩
      cleanedUp).any (fun p =>
        (∃ c ∈ p.calls, c.request = .revokeDevice 1 7 ∧ c.rest = .pure .done) ∧
        (∀ c ∈ p.calls, ∃ r, c.rest = .ofExcept r) ∧
        ((authenticate (some 100)).run machine (fun _ => .plain) p.shared).1 = .ok 7) = true := by
    decide +kernel
  obtain ⟨p, hrun, hgoal⟩ := Pool.exists_steps_of_playIf (fun _ _ _ => Pool.step_of_allows) hplay
  exact ⟨p, hrun, listed_accounts, hgoal⟩

instance (d : DeviceId) (w : World) (c : Choice) (w' : World) : Decidable (Allowed d w c w') :=
  decidable_of_iff ((w.Gone d → w'.Gone d) ∧
      ∀ k ∈ w.index (.deviceSessions d), (w.tick c.elapsed).entry k = some (.uuid d) →
        k ∈ (w.tick c.elapsed).index (.deviceSessions d))
    ⟨fun h => ⟨h.1, h.2⟩, fun h => ⟨h.stays, h.lasting⟩⟩

instance (d : DeviceId) (w : World) (call : AuthCall) (c : Choice) : Decidable (Minds d w call c) :=
  inferInstanceAs (Decidable (_ → _))

instance (d : DeviceId) (w : World) (call : AuthCall) (c : Choice) :
    Decidable (Retriable d w call c) :=
  inferInstanceAs (Decidable (_ → _))

/-- The turn keeps to the conditions. -/
def orderly (d : DeviceId) (p : AuthPool) (e : Turn Request Choice) (p' : AuthPool) : Bool :=
  Pool.allows (Allowed d) p e p' && decide (p.Acting e (Minds d p.shared)) &&
    decide (p.Acting e (Retriable d p'.shared))

theorem orderlyStep {P : Primitives} {p p' : AuthPool}
    (h : Pool.Step machine Pool.Unrestricted (serve P) p e p' ∧ orderly d p e p' = true) :
    OrderlyStep P d p e p' := by
  obtain ⟨hstep, horderly⟩ := h
  obtain ⟨⟨hallows, hminds⟩, hretry⟩ : (_ ∧ _) ∧ _ := by
    simpa only [orderly, Bool.and_eq_true, decide_eq_true_eq] using horderly
  exact ⟨Pool.step_of_allows ⟨hstep, hallows⟩, hminds, hretry⟩

/-- The same calls, but the revocation reads the index before the second login deletes it. -/
def Sample.revokedFirst : List (Turn Request Choice) :=
  login 0 50 100 ++ acts 0 1 ++ login 1 51 101 ++ revoke 2 ++ acts 2 4 ++
    acts 1 3

theorem revoked_sessions_end_sample : ∃ p : AuthPool,
    Steps (OrderlyStep primitives 7) ⟨accounts, []⟩ revokedFirst p ∧
    ∀ bearer f, ((authenticate bearer).run machine f p.shared).1 ≠ .ok 7 := by
  have hplay : (Pool.playIf machine (serve primitives) (orderly 7) ⟨accounts, []⟩
      revokedFirst).any (fun p =>
        (∃ c ∈ p.calls, c.request = .revokeDevice 1 7 ∧ c.rest = .pure .done) ∧
        ∀ c ∈ p.calls, ∃ r, c.rest = .ofExcept r) = true := by
    decide +kernel
  obtain ⟨p, hrun, ⟨c, hc, hrequest, hdone⟩, hended⟩ :=
    Pool.exists_steps_of_playIf (fun _ _ _ => orderlyStep) hplay
  exact ⟨p, hrun, revoked_sessions_end listed_accounts hrun hc hrequest hdone
    fun c hc _ => hended c hc⟩

end Powehi.Auth
