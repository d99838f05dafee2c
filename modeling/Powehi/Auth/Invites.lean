import Powehi.Auth.Retries

/-!
# Invites of a revoked device

An invite is written in two steps: its payload, and then the index of the device it is listed in. A
revocation reads the index once, early, and deletes what it finds there. Whether an invite survives
depends on where the two steps of its creation fall: a payload that is not listed when the index is
read, or that is written afterwards, is not found.

The condition on a run is on the moments of these operations. An invite is stored only as long as no
revocation of the device has read the index, and the index is complete when a revocation reads it.
-/

namespace Powehi.Auth

open Codec Semantics Server Program List Sample

variable {d : DeviceId}

/-! ### What a revocation does to the invites it finds -/

/-- The second operation of a revocation reads the index of invites. -/
def ReadsSecond (d : DeviceId) (own : List (World × World)) {ω : Type} (o : Op ω) : Prop :=
  own.length = 1 → Reads (.deviceInvites d) o

/-- Of the invites that the second operation found, every one was seen deleted since. -/
def Swept (d : DeviceId) (own : List (World × World)) : Prop :=
  ∃ read, own[1]? = some read ∧
    ∀ k ∈ read.2.index (.deviceInvites d), ∃ st ∈ own.tail, st.2.entry k = none

/-- A revocation that succeeds has deleted the invites it found. -/
def SweptIfDone {α : Type} (d : DeviceId) (own : List (World × World)) :
    Except DomainError α → Prop
  | .ok _ => Swept d own
  | .error _ => True

section

variable {own : List (World × World)}

theorem mem_tail_append {st : World × World} (h : st ∈ own.tail) (more : List (World × World)) :
    st ∈ (own ++ more).tail := by
  cases own with
  | nil => cases h
  | cons first rest => exact mem_append_left _ h

theorem Swept.append (h : Swept d own) (more : List (World × World)) : Swept d (own ++ more) := by
  obtain ⟨read, hread, hall⟩ := h
  have hlt : 1 < own.length := (List.getElem?_eq_some_iff.mp hread).1
  refine ⟨read, (List.getElem?_append_left hlt).trans hread, fun k hk => ?_⟩
  obtain ⟨st, hst, hnone⟩ := hall k hk
  exact ⟨st, mem_tail_append hst more, hnone⟩

/-- A call that has performed two operations is past the one in question. -/
theorem readsSecond_of_lt (h : 1 < own.length) {ω : Type} (o : Op ω) : ReadsSecond d own o :=
  fun hone => absurd h (by omega)

theorem Swept.readsSecond (h : Swept d own) {ω : Type} (o : Op ω) : ReadsSecond d own o := by
  obtain ⟨read, hread, -⟩ := h
  exact readsSecond_of_lt (List.getElem?_eq_some_iff.mp hread).1 o

/-- The invites that were found are deleted one by one. -/
theorem wpPast_revokeInvites_swept (hown : own.length = 1) :
    wpPast machine (ReadsSecond d) (revokeInvitesForDevice d) (SweptIfDone d) own := by
  refine wpPast_request_bind (fun _ => rfl) (fun s c keys hkeys => ?_) fun _ _ _ _ => trivial
  obtain ⟨rfl, hw⟩ := exec_cache_eq hkeys
  rw [hw]
  obtain ⟨first, rfl⟩ := length_eq_one_iff.mp hown
  -- of the keys the index had, those still to be done or deleted already
  refine wpPast_bind (wpPast_forM (fun left own' => ∃ read, own'[1]? = some read ∧
    ∀ k ∈ read.2.index (.deviceInvites d), k ∈ left ∨ ∃ st ∈ own'.tail, st.2.entry k = none)
    (fun key left own' hleft => ?_) (fun own' hleft => ?_) ?_)
  · obtain ⟨read, hread, hall⟩ := hleft
    have hlt : 1 < own'.length := (List.getElem?_eq_some_iff.mp hread).1
    refine ⟨readsSecond_of_lt hlt _, fun s' c' => ?_⟩
    cases hr : (machine.exec (.cache (.delete key)) c' s').1 with
    | error e => exact trivial
    | ok u =>
      refine ⟨read, (List.getElem?_append_left hlt).trans hread, fun k hk => ?_⟩
      rcases hall k hk with hk | ⟨st, hst, hnone⟩
      · rcases mem_cons.mp hk with rfl | hk
        · right
          refine ⟨(s', (machine.exec (.cache (.delete k)) c' s').2), ?_, ?_⟩
          · rw [tail_append_of_ne_nil (ne_nil_of_length_pos (by omega))]
            exact mem_append_right _ (mem_singleton_self _)
          · rw [(exec_cache_eq hr).2]
            exact Expiring.get?_delete_self
        · exact .inl hk
      · exact .inr ⟨st, mem_tail_append hst _, hnone⟩
  · obtain ⟨read, hread, hall⟩ := hleft
    have hswept : Swept d own' := ⟨read, hread, fun k hk => (hall k hk).resolve_left not_mem_nil⟩
    refine ⟨hswept.readsSecond _, fun s' c' => ?_⟩
    cases (machine.exec (.cache (.deleteSet (.deviceInvites d))) c' s').1 with
    | error e => exact trivial
    | ok u => exact hswept.append _
  · exact ⟨_, rfl, fun k hk => .inl hk⟩

/-- Whatever comes after the invites leaves that part of the history alone. -/
theorem wpPast_swept {α : Type} (p : Serve α) (h : Swept d own) :
    wpPast machine (ReadsSecond d) p (SweptIfDone d) own := by
  induction p generalizing own with
  | pure a => exact h
  | throw e => exact trivial
  | op o next ih => exact ⟨h.readsSecond o, fun s c => ih _ (h.append _)⟩

theorem wpPast_revokeDevice_swept (P : Primitives) (u : UserId) :
    wpPast machine (ReadsSecond d) (serve P (.revokeDevice u d)) (SweptIfDone d) [] := by
  refine wpPast_map (wpPast_mono (fun own r (hr : SweptIfDone d own r) => ?_) ?_)
  · cases r with
    | ok _ => exact hr
    | error e => exact trivial
  refine wpPast_request_bind (fun h => by cases h) (fun s c row _ => ?_) fun _ _ _ _ => trivial
  cases row with
  | none => exact trivial
  | some device =>
    dsimp only
    split
    · exact trivial
    apply wpPast_bind
    refine wpPast_mono (fun own r hr => ?_) (wpPast_revokeInvites_swept rfl)
    cases r with
    | error e => exact trivial
    | ok _ => exact wpPast_swept _ hr

end

/-! ### The condition on a run -/

/-- Every invite of the device is in its index. -/
def World.InvitesListed (w : World) (d : DeviceId) : Prop :=
  ∀ h, w.Invites d h → .invite h ∈ w.index (.deviceInvites d)

/-- An invite of the device is stored only while every revocation of the device is still before its
second operation, and the index is complete when a revocation reads it. -/
def Timely (d : DeviceId) (p : AuthPool) (e : Turn Request Choice) : Prop :=
  ∀ n ch i (ω : Type) (o : Op ω) next own, e = .act n ch →
    p.calls[n]? = some ⟨i, .op o next, own⟩ →
    (∀ h kp, Stores (.invite h) (.uuidAnd d kp) o →
      ∀ c ∈ p.calls, c.request.Revokes d → c.own.length ≤ 1) ∧
    (i.Revokes d → Reads (.deviceInvites d) o → (p.shared.tick ch.elapsed).InvitesListed d)

/-- One turn of a run that keeps to the condition. -/
def TimelyStep (P : Primitives) (d : DeviceId) (p : AuthPool) (e : Turn Request Choice)
    (p' : AuthPool) : Prop :=
  Pool.Step machine Pool.Unrestricted (serve P) p e p' ∧ Timely d p e

/-! ### Revocations in progress -/

/-- What is known of a revocation of the device: the index was complete when it was read, and every
invite that is there now was there all the time since. -/
structure Watched (d : DeviceId) (c : Call Request Op DomainError Response World) (w : World) :
    Prop where
  goes : wpPast machine (ReadsSecond d) c.rest (SweptIfDone d) c.own
  listed : ∀ read, c.own[1]? = some read → read.2.InvitesListed d
  fading : ∀ st ∈ c.own.tail, ∀ h, w.Invites d h → st.2.Invites d h

section

variable {P : Primitives} {p p' : AuthPool} {c : Call Request Op DomainError Response World}
  {w : World} {ch : Choice} {ω : Type} {o : Op ω}

/-- An invite that is there after an operation was there before, or was just stored. -/
theorem invites_of_exec {h : Bytes} (hafter : (machine.exec o ch w).2.Invites d h) :
    w.Invites d h ∨ ∃ kp, Stores (.invite h) (.uuidAnd d kp) o := by
  obtain ⟨kp, hkp⟩ := hafter
  rcases entry_of_exec hkp with hold | hstores
  · exact .inl ⟨kp, World.entry_of_tick hold⟩
  · exact .inr ⟨kp, hstores⟩

/-- Reading the index changes nothing. -/
theorem exec_of_reads {s : SetKey} (h : Reads s o) :
    (machine.exec o ch w).2 = w.tick ch.elapsed := by
  cases o with
  | newUuid | opaqueKe _ | sql _ => exact h.elim
  | cache q =>
    cases q with
    | setMembers s' =>
      rcases exec_cache (.setMembers s') ch w with hw | ⟨hw, -⟩
      · exact hw
      · exact hw
    | _ => exact h.elim

/-- A revocation that has read the index sees no new invites. -/
theorem Watched.fading_exec (h : Watched d c w)
    (hstored : ∀ code kp, Stores (.invite code) (.uuidAnd d kp) o → c.own.length ≤ 1) :
    ∀ st ∈ c.own.tail, ∀ code, (machine.exec o ch w).2.Invites d code → st.2.Invites d code := by
  intro st hst code hafter
  rcases invites_of_exec hafter with hbefore | ⟨kp, hstores⟩
  · exact h.fading st hst code hbefore
  · have hlen := hstored code kp hstores
    have hpos := length_pos_of_mem hst
    rw [length_tail] at hpos
    omega

/-- An operation of another call. -/
theorem Watched.other (h : Watched d c w)
    (hstored : ∀ code kp, Stores (.invite code) (.uuidAnd d kp) o → c.own.length ≤ 1) :
    Watched d c (machine.exec o ch w).2 :=
  ⟨h.goes, h.listed, h.fading_exec hstored⟩

/-- An operation of the revocation itself. -/
theorem Watched.act {i : Request} {next : ω → Serve Response} {own : List (World × World)}
    (h : Watched d ⟨i, .op o next, own⟩ w)
    (hstored : ∀ code kp, Stores (.invite code) (.uuidAnd d kp) o → own.length ≤ 1)
    (hread : Reads (.deviceInvites d) o → (w.tick ch.elapsed).InvitesListed d) :
    Watched d ⟨i, next (machine.exec o ch w).1, own ++ [(w, (machine.exec o ch w).2)]⟩
      (machine.exec o ch w).2 := by
  refine ⟨h.goes.2 w ch, fun read hsecond => ?_, fun st hst code hafter => ?_⟩
  · -- the second operation is an earlier one, or this one, which then reads the index
    rcases Nat.lt_trichotomy own.length 1 with hlt | hone | hgt
    · rw [getElem?_append_right (by omega), getElem?_singleton, if_neg (by omega)]
        at hsecond
      cases hsecond
    · rw [getElem?_append_right (by omega), hone] at hsecond
      obtain rfl := Option.some.inj hsecond
      have hreads : Reads (.deviceInvites d) o := h.goes.1 hone
      rw [exec_of_reads hreads]
      exact hread hreads
    · rw [List.getElem?_append_left hgt] at hsecond
      exact h.listed read hsecond
  · cases own with
    | nil => cases hst
    | cons first rest =>
      rcases mem_append.mp hst with hst | hst
      · exact h.fading_exec hstored st hst code hafter
      · obtain rfl := mem_singleton.mp hst
        exact hafter

theorem Watched.start (u : UserId) :
    Watched d ⟨.revokeDevice u d, serve P (.revokeDevice u d), []⟩ w where
  goes := wpPast_revokeDevice_swept P u
  listed _ hread := by cases hread
  fading _ hst := by cases hst

/-- One turn. -/
theorem watched_step {e : Turn Request Choice} (hstep : TimelyStep P d p e p')
    (h : ∀ c ∈ p.calls, c.request.Revokes d → Watched d c p.shared) :
    ∀ c ∈ p'.calls, c.request.Revokes d → Watched d c p'.shared := by
  obtain ⟨hstep, htimely⟩ := hstep
  intro c hc hrevokes
  cases hstep with
  | start i =>
    rcases mem_append.mp hc with hc | hc
    · exact h c hc hrevokes
    · obtain rfl := mem_singleton.mp hc
      obtain ⟨u, rfl⟩ : ∃ u, i = .revokeDevice u d := hrevokes
      exact .start u
  | @act n ch i ω o next own call _ =>
    obtain ⟨hstores, hreads⟩ := htimely n ch i ω o next own rfl call
    have hmem := mem_of_getElem? call
    rcases mem_or_eq_of_mem_set hc with hc | rfl
    · exact (h c hc hrevokes).other fun code kp hs => hstores code kp hs c hc hrevokes
    · refine (h _ hmem hrevokes).act (fun code kp hs => ?_) (hreads hrevokes)
      exact hstores code kp hs _ hmem hrevokes

/-- A whole run. -/
theorem watched_run {es : List (Turn Request Choice)} (hrun : Steps (TimelyStep P d) p es p')
    (h : ∀ c ∈ p.calls, c.request.Revokes d → Watched d c p.shared) :
    ∀ c ∈ p'.calls, c.request.Revokes d → Watched d c p'.shared := by
  induction hrun with
  | nil => exact h
  | cons head tail ih => exact ih (watched_step head h)

/-- Once a revocation has returned there is no invite left: one that is there was there when the
index was read, and so was seen deleted. -/
theorem Watched.not_invites (h : Watched d c w) (hdone : c.rest = .pure .done) (code : Bytes) :
    ¬w.Invites d code := by
  intro hinvites
  have hswept := h.goes
  rw [hdone] at hswept
  obtain ⟨read, hread, hall⟩ : Swept d c.own := hswept
  have hmem : read ∈ c.own.tail := by
    refine mem_of_getElem? (i := 0) ?_
    rwa [getElem?_tail]
  obtain ⟨st, hst, hnone⟩ := hall _ (h.listed read hread code (h.fading read hmem code hinvites))
  obtain ⟨kp, hkp⟩ := h.fading st hst code hinvites
  exact absurd (hkp.symm.trans hnone) nofun

end

/-- Along every run in which invites are created in time: once a revocation of a device has
succeeded, no invite of the device can be redeemed. -/
theorem revoked_invites_end {P : Primitives} {d : DeviceId} {u : UserId} {w₀ : World}
    {es : List (Turn Request Choice)} {p : AuthPool}
    {c : Call Request Op DomainError Response World}
    (hrun : Steps (TimelyStep P d) ⟨w₀, []⟩ es p) (hc : c ∈ p.calls)
    (hrequest : c.request = .revokeDevice u d) (hdone : c.rest = .pure .done)
    (code kp : Bytes) (f : ℕ → Choice) :
    ((redeemInvite P code).run machine f p.shared).1 ≠ .ok (d, kp) := by
  have hwatched := watched_run hrun (fun c hc => by cases hc) c hc ⟨u, hrequest⟩
  exact redeemInvite_ne (fun code => hwatched.not_invites hdone code) code kp f

/-! ### Concrete runs -/

/-- The creation of an invite of device 7 reads the index; device 7 is revoked; the creation goes on
and stores its invite. -/
def Sample.lateInvite : List (Turn Request Choice) :=
  [.start (.createInvite 7 [9])] ++ acts 0 1 ++ revoke 1 ++ acts 1 2 ++ acts 0 4

theorem late_invite_survives : ∃ p : AuthPool,
    Steps (Pool.Step machine (fun _ c _ => c.fault = none) (serve primitives))
      ⟨accounts, []⟩ lateInvite p ∧
    p.calls.map (·.request) = [.createInvite 7 [9], .revokeDevice 1 7] ∧
    (∃ c ∈ p.calls, c.request = .createInvite 7 [9] ∧ c.rest = .pure (.invite [0])) ∧
    (∃ c ∈ p.calls, c.request = .revokeDevice 1 7 ∧ c.rest = .pure .done) ∧
    ((redeemInvite primitives [0]).run machine (fun _ => .plain) p.shared).1 =
      .ok (7, [9]) := by
  exact Pool.exists_steps_of_playIf (fun _ _ _ => Pool.step_of_allows) (by decide +kernel)

/-- The invite a call is about to store: the hash of its code, and its device. -/
def storing? : Serve Response → Option (Bytes × DeviceId)
  | .op (.cache (.set (.invite h) (.uuidAnd d _) _)) _ => some (h, d)
  | _ => none

/-- The call is about to read the index of invites of the device. -/
def readsInvites (d : DeviceId) : Serve Response → Bool
  | .op (.cache (.setMembers (.deviceInvites d'))) _ => d' = d
  | _ => false

theorem storing?_of_stores {ω : Type} {o : Op ω} {next : ω → Serve Response} {h kp : Bytes}
    (ho : Stores (.invite h) (.uuidAnd d kp) o) : storing? (.op o next) = some (h, d) := by
  cases o with
  | newUuid | opaqueKe _ | sql _ => exact ho.elim
  | cache q =>
    cases q with
    | set k v ttl =>
      obtain ⟨rfl, rfl⟩ := ho
      rfl
    | _ => exact ho.elim

theorem readsInvites_of_reads {ω : Type} {o : Op ω} {next : ω → Serve Response}
    (ho : Reads (.deviceInvites d) o) : readsInvites d (.op o next) = true := by
  cases o with
  | newUuid | opaqueKe _ | sql _ => exact ho.elim
  | cache q =>
    cases q with
    | setMembers s =>
      obtain rfl : s = .deviceInvites d := ho
      exact decide_eq_true rfl
    | _ => exact ho.elim

/-- The turn keeps to the condition, given that every invite of the device has its hash in a
list. -/
def timely (d : DeviceId) (hashes : List Bytes) (p : AuthPool) (e : Turn Request Choice)
    (_ : AuthPool) : Bool :=
  match e with
  | .start _ => true
  | .act n ch => (p.calls[n]?).all fun call =>
      ((storing? call.rest).all fun (h, d') => decide (d' = d → h ∈ hashes ∧
        ∀ c ∈ p.calls, c.request.Revokes d → c.own.length ≤ 1)) &&
      (!(decide (call.request.Revokes d) && readsInvites d call.rest) || hashes.all fun h =>
        decide (.invite h ∈ (p.shared.tick ch.elapsed).index (.deviceInvites d)))

theorem timely_step {P : Primitives} {hashes : List Bytes} {p p' : AuthPool}
    {e : Turn Request Choice}
    (hstep : Pool.Step machine Pool.Unrestricted (serve P) p e p' ∧ timely d hashes p e p' = true)
    (hp : ∀ h, p.shared.Invites d h → h ∈ hashes) :
    TimelyStep P d p e p' ∧ ∀ h, p'.shared.Invites d h → h ∈ hashes := by
  obtain ⟨hstep, htest⟩ := hstep
  cases hstep with
  | start i => exact ⟨⟨.start i, fun n ch i ω o next own he => by cases he⟩, hp⟩
  | @act n ch i ω o next own call allowed =>
    simp only [timely, call, Option.all_some, Bool.and_eq_true] at htest
    obtain ⟨hstores, hreads⟩ := htest
    have hstored : ∀ h kp, Stores (.invite h) (.uuidAnd d kp) o → h ∈ hashes ∧
        ∀ c ∈ p.calls, c.request.Revokes d → c.own.length ≤ 1 := by
      intro h kp ho
      rw [storing?_of_stores ho] at hstores
      exact of_decide_eq_true hstores rfl
    refine ⟨⟨.act call allowed, fun n' ch' i' ω' o' next' own' he hcall => ?_⟩, fun h hafter => ?_⟩
    · obtain ⟨rfl, rfl⟩ := Turn.act.inj he
      obtain ⟨rfl, hrest, rfl⟩ := Call.mk.inj (Option.some.inj (call.symm.trans hcall))
      cases hrest
      refine ⟨fun h kp ho => (hstored h kp ho).2, fun hrevokes ho h hinvites => ?_⟩
      rw [readsInvites_of_reads ho, decide_eq_true hrevokes, Bool.and_self, Bool.not_true] at hreads
      obtain ⟨kp, hkp⟩ := hinvites
      have hmem := hp h ⟨kp, World.entry_of_tick hkp⟩
      exact of_decide_eq_true (all_eq_true.mp hreads h hmem)
    · rcases invites_of_exec hafter with hbefore | ⟨kp, ho⟩
      · exact hp h hbefore
      · exact (hstored h kp ho).1

theorem timely_run {P : Primitives} {hashes : List Bytes} {p p' : AuthPool}
    {es : List (Turn Request Choice)}
    (hrun : Steps (fun p e p' => Pool.Step machine Pool.Unrestricted (serve P) p e p' ∧
      timely d hashes p e p' = true) p es p')
    (hp : ∀ h, p.shared.Invites d h → h ∈ hashes) : Steps (TimelyStep P d) p es p' := by
  induction hrun with
  | nil => exact .nil
  | cons head tail ih =>
    obtain ⟨hhead, hnext⟩ := timely_step head hp
    exact .cons hhead (ih hnext)

/-- The creation is done when device 7 is revoked. -/
def Sample.earlyInvite : List (Turn Request Choice) :=
  [.start (.createInvite 7 [9])] ++ acts 0 5 ++ revoke 1 ++ acts 1 3

theorem revoked_invites_end_sample : ∃ p : AuthPool,
    Steps (TimelyStep primitives 7) ⟨accounts, []⟩ earlyInvite p ∧
    (∃ c ∈ p.calls, c.rest = .pure (.invite [0])) ∧
    ∀ code kp f, ((redeemInvite primitives code).run machine f p.shared).1 ≠ .ok (7, kp) := by
  have hplay : (Pool.playIf machine (serve primitives) (timely 7 [[0]])
      ⟨accounts, []⟩ earlyInvite).any (fun p =>
        (∃ c ∈ p.calls, c.rest = .pure (.invite [0])) ∧
        ∃ c ∈ p.calls, c.request = .revokeDevice 1 7 ∧ c.rest = .pure .done) = true := by
    decide +kernel
  obtain ⟨p, hplayed, hcode, c, hc, hrequest, hdone⟩ :=
    Pool.exists_steps_of_playIf (fun _ _ _ h => h) hplay
  have hnone : ∀ h, accounts.Invites 7 h → h ∈ [([0] : Bytes)] := by
    rintro h ⟨kp, hkp⟩
    cases hkp
  have hrun := timely_run hplayed hnone
  exact ⟨p, hrun, hcode, revoked_invites_end hrun hc hrequest hdone⟩

end Powehi.Auth
