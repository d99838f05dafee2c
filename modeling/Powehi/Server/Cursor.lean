import Powehi.Server.Broadcasts

/-!
# Polling from a cursor

A device polls page by page: it asks for what is behind its cursor, and when the page arrives the
cursor moves to the last row of it. What is behind a cursor is decided by the time an envelope was
built and its id; when it becomes visible is decided by its transaction. A send that was built
first and is committed last appears before a cursor that has already passed it, and no later poll
returns it.

An envelope that is inserted above every envelope stored before it is never passed: the device has
got it, or it is still behind the cursor. For the Commits of a group the same condition makes the
order of delivery agree with the epochs.
-/

namespace Powehi.Server

open Codec Semantics Program List Sample Option

/-! ### The history of the envelopes -/

/-- The stored envelopes are in the history. -/
def World.Recorded (w : World) : Prop := ∀ e ∈ w.db.envelopes, e ∈ w.stored

theorem World.Recorded.exec {w : World} (h : w.Recorded) {ω : Type} (o : Op ω) (c : Choice) :
    (machine.exec o c w).2.Recorded := by
  refine exec_rel (R := fun w w' => w.Recorded → w'.Recorded) (K := fun _ => True)
    (fun _ h => h) (fun _ _ _ h => h) (fun q w b db _ hrun h => ?_) trivial c w h
  have hinsert : ∀ e : Envelope, db.envelopes = w.db.envelopes.insertNew e →
      (w.store db).Recorded := by
    intro e hdb x hx
    rcases Table.mem_insertNew.mp (hdb ▸ hx : x ∈ w.db.envelopes.insertNew e) with hx' |
      ⟨rfl, hfree⟩
    · exact World.mem_stored_store.mpr (.inl (h x hx'))
    · exact World.mem_stored_store.mpr (.inr ⟨hx, hfree⟩)
  cases hq : q.insertsEnvelope with
  | false =>
    intro e he
    exact World.mem_stored_store.mpr (.inl (h e ((Query.frame hrun).inserted hq e he)))
  | true =>
    cases q with
    | saveEnvelope e =>
      obtain rfl := state_of_ok hrun
      exact hinsert e rfl
    | commitEpochAndSave g x e =>
      obtain ⟨-, rfl⟩ | ⟨-, -, -, rfl⟩ := Db.commitEpochAndSave_ok hrun
      · exact fun e he => World.mem_stored_store.mpr (.inl (h e he))
      · exact hinsert _ rfl
    | _ => exact absurd hq (by simp [Query.insertsEnvelope])

/-- The envelopes with `P` that are new come after all envelopes stored before. -/
def World.Upward (P : Envelope → Prop) (w w' : World) : Prop :=
  ∀ e ∈ w'.stored, e ∉ w.stored → P e → ∀ f ∈ w.stored, f.Before e

/-- The history grows, upwards. -/
def World.Grows (P : Envelope → Prop) (w w' : World) : Prop := w.Extends w' ∧ w.Upward P w'

theorem World.Extends.mem {w w' : World} (h : w.Extends w') {e : Envelope} (he : e ∈ w.stored) :
    e ∈ w'.stored := by
  obtain ⟨new, hnew⟩ := h
  exact hnew ▸ mem_append_left _ he

theorem World.Grows.refl (P : Envelope → Prop) (w : World) : w.Grows P w :=
  ⟨.refl w, fun _ he hnew => absurd he hnew⟩

theorem World.Grows.trans {P : Envelope → Prop} {w w' w'' : World} (h : w.Grows P w')
    (h' : w'.Grows P w'') : w.Grows P w'' := by
  refine ⟨h.1.trans h'.1, fun e he hnew hP f hf => ?_⟩
  by_cases hmid : e ∈ w'.stored
  · exact h.2 e hmid hnew hP f hf
  · exact h'.2 e he hmid hP f (h.1.mem hf)

/-- The envelope, once stored, can be handed to the device. -/
def World.Delivers (X : Envelope) (d : DeviceId) (w : World) : Prop :=
  X ∈ w.stored → X ∈ w.db.envelopes ∧ w.db.deliverable d X = true

/-! ### A device that polls -/

/-- A device that polls a server: the call it waits for, its cursor, and what it got so far. -/
structure Polling where
  pool : Pool Request Op Failure Response World
  waiting : Option ℕ
  cursor : Option (Time × EnvelopeId)
  got : List Envelope

namespace Polling

/-- The device has not asked for anything yet. -/
def initial (w : World) : Polling := ⟨⟨w, []⟩, none, none, []⟩

def since (s : Polling) : Option Time := s.cursor.map Prod.fst

def sinceId (s : Polling) : Option EnvelopeId := s.cursor.map Prod.snd

/-- A page arrives. The cursor moves to its last row. -/
def take (s : Polling) (page : List Envelope) : Polling :=
  { s with
    waiting := none
    cursor := (page.getLast?.map fun e => (e.createdAt, e.id)).or s.cursor
    got := s.got ++ page }

inductive Event
  | serve (turn : Turn Request Choice)
  | ask
  | receive
  | lose

/-- The server takes a turn, or the device asks for the next page, receives it, or gives up. -/
inductive Step (cfg : Config) (d : DeviceId) (A : World → Choice → World → Prop) :
    Polling → Event → Polling → Prop
  | serve {s : Polling} {e : Turn Request Choice} {p : Pool Request Op Failure Response World}
      (turn : Pool.Step machine A (serve cfg) s.pool e p) : Step cfg d A s (.serve e)
        { s with pool := p }
  | ask {s : Polling} {p : Pool Request Op Failure Response World} (idle : s.waiting = none)
      (turn : Pool.Step machine A (Server.serve cfg) s.pool
        (.start (.poll d s.since s.sinceId)) p) :
      Step cfg d A s .ask { s with pool := p, waiting := some s.pool.calls.length }
  | receive {s : Polling} {k : ℕ} {c : Call Request Op Failure Response World}
      {page : List Envelope} (waits : s.waiting = some k) (call : s.pool.calls[k]? = some c)
      (returned : c.rest = .pure (.envelopes page)) : Step cfg d A s .receive (s.take page)
  | lose {s : Polling} : Step cfg d A s .lose { s with waiting := none }

/-- The next cursor is the last row of the page. -/
theorem behind_take {s : Polling} {page : List Envelope} {last X : Envelope}
    (h : page.getLast? = some last) :
    X.behind (s.take page).since (s.take page).sinceId = true ↔ last.Before X := by
  simp only [take, since, sinceId, h, map_some, some_or]
  exact Envelope.behind_cursor

/-- An empty page leaves the cursor where it is. -/
theorem cursor_take_of_none {s : Polling} {page : List Envelope} (h : page.getLast? = none) :
    (s.take page).cursor = s.cursor := by simp [take, h]

section

variable {cfg : Config} {d : DeviceId} {A : World → Choice → World → Prop} {P : Envelope → Prop}
  {X : Envelope} {w₀ : World} {s s' : Polling} {e : Event}

/-- What is known of a device that polls. -/
structure Tracks (cfg : Config) (d : DeviceId) (A : World → Choice → World → Prop) (X : Envelope)
    (w₀ : World) (s : Polling) : Prop where
  ran : ∃ es, Steps (Pool.Step machine A (Server.serve cfg)) ⟨w₀, []⟩ es s.pool
  row : ∀ t id, s.cursor = some (t, id) → ∃ f ∈ s.pool.shared.stored, f.createdAt = t ∧ f.id = id
  asked : ∀ k, s.waiting = some k →
    ∃ c, s.pool.calls[k]? = some c ∧ c.request = .poll d s.since s.sinceId
  notSkipped : X ∈ s.pool.shared.stored → X ∈ s.got ∨ X.behind s.since s.sinceId = true

/-- What every call saw, by what is assumed of each operation. -/
theorem pool_knows (hA : ∀ w c w', A w c w' → w.Upward P w' ∧ w'.Delivers X d)
    (hrecorded : w₀.Recorded) (hdelivers : w₀.Delivers X d) {es : List (Turn Request Choice)}
    {p : Pool Request Op Failure Response World}
    (hrun : Steps (Pool.Step machine A (serve cfg)) ⟨w₀, []⟩ es p) :
    Pool.Knows machine (fun _ _ _ _ => True) (fun _ _ _ => True) (fun _ => True) (World.Grows P)
      (fun w => w.Recorded ∧ w.Delivers X d) p :=
  Pool.invariant_past (B := fun _ _ _ => True) (World.Grows.refl P) (fun _ _ _ => .trans)
    (fun _ _ _ o c w _ _ hstep => ⟨extends_exec o c w, (hA _ _ _ hstep).1⟩)
    (fun i _ => wpPast_uses (serve_uses cfg i) fun _ _ _ _ => trivial)
    (fun _ _ _ o c _ _ _ _ _ hstep _ hw => ⟨hw.1.exec o c, (hA _ _ _ hstep).2⟩)
    hrun (Pool.starts_true es) (fun _ _ _ _ _ _ => trivial)
    (Pool.knows_initial ⟨hrecorded, hdelivers⟩)

theorem grows_step (hA : ∀ w c w', A w c w' → w.Upward P w' ∧ w'.Delivers X d)
    {p p' : Pool Request Op Failure Response World} {e : Turn Request Choice}
    (h : Pool.Step machine A (serve cfg) p e p') : p.shared.Grows P p'.shared := by
  cases h with
  | start i => exact .refl P _
  | @act n c i ω o next own call allowed => exact ⟨extends_exec o c _, (hA _ _ _ allowed).1⟩

/-- An envelope that is new comes behind the cursor. -/
theorem Tracks.behind_of_new (h : Tracks cfg d A X w₀ s)
    (hnew : ∀ f ∈ s.pool.shared.stored, f.Before X) : X.behind s.since s.sinceId = true := by
  unfold since sinceId
  cases hc : s.cursor with
  | none => rfl
  | some key =>
    obtain ⟨t, id⟩ := key
    obtain ⟨f, hf, rfl, rfl⟩ := h.row t id hc
    exact Envelope.behind_cursor.mpr (hnew f hf)

/-- The page that arrives was read by a statement in the past. -/
theorem Tracks.page (h : Tracks cfg d A X w₀ s)
    (hA : ∀ w c w', A w c w' → w.Upward P w' ∧ w'.Delivers X d) (hrecorded : w₀.Recorded)
    (hdelivers : w₀.Delivers X d) {k : ℕ} {c : Call Request Op Failure Response World}
    {page : List Envelope} (waits : s.waiting = some k) (call : s.pool.calls[k]? = some c)
    (returned : c.rest = .pure (.envelopes page)) :
    ∃ st ∈ c.own, page = st.2.db.findPending d s.since s.sinceId ∧ st.2.Recorded ∧
      st.2.Delivers X d ∧ st.2.Grows P s.pool.shared := by
  obtain ⟨es, hrun⟩ := h.ran
  obtain ⟨c', hc', hreq⟩ := h.asked k waits
  obtain rfl := some.inj (call.symm.trans hc')
  have hc := mem_of_getElem? call
  obtain ⟨st, hst, hpage⟩ := page_of_returned hrun hc hreq returned
  obtain ⟨⟨hrec, hdel⟩, hgrows⟩ := (pool_knows hA hrecorded hdelivers hrun).saw c hc st hst
  exact ⟨st, hst, hpage, hrec, hdel, hgrows⟩

theorem Tracks.step (hA : ∀ w c w', A w c w' → w.Upward P w' ∧ w'.Delivers X d) (hP : P X)
    (hrecorded : w₀.Recorded) (hdelivers : w₀.Delivers X d) (h : Tracks cfg d A X w₀ s)
    (hstep : Step cfg d A s e s') : Tracks cfg d A X w₀ s' := by
  obtain ⟨es, hrun⟩ := h.ran
  cases hstep with
  | @serve e p turn =>
    have hgrows := grows_step hA turn
    refine ⟨⟨_, hrun.snoc turn⟩, fun t id hc => ?_, fun k hk => ?_, fun hX => ?_⟩
    · obtain ⟨f, hf, hkey⟩ := h.row t id hc
      exact ⟨f, hgrows.1.mem hf, hkey⟩
    · obtain ⟨c, hc, hreq⟩ := h.asked k hk
      obtain ⟨c', hc', hreq', -⟩ := Pool.call_run (.cons turn .nil) hc
      exact ⟨c', hc', hreq'.trans hreq⟩
    · by_cases hold : X ∈ s.pool.shared.stored
      · exact h.notSkipped hold
      · exact .inr (h.behind_of_new (hgrows.2 X hX hold hP))
  | @ask p idle turn =>
    cases turn with
    | start =>
      refine ⟨⟨_, hrun.snoc (.start _)⟩, h.row, fun k hk => ?_, h.notSkipped⟩
      obtain rfl := some.inj hk
      exact ⟨_, List.getElem?_concat_length, rfl⟩
  | @receive k c page waits call returned =>
    obtain ⟨st, -, hpage, hrec, hdel, hgrows⟩ := h.page hA hrecorded hdelivers waits call returned
    -- the rows of the page were stored when it was read
    have hstored : ∀ f ∈ page, f ∈ st.2.stored := fun f hf =>
      hrec f (Db.mem_pendingAfter.mp (Db.pendingAfter_of_mem_findPending (hpage ▸ hf))).1
    refine ⟨⟨es, hrun⟩, fun t id hc => ?_, fun k hk => ?_, fun hX => ?_⟩
    · cases hlast : page.getLast? with
      | none => exact h.row t id (cursor_take_of_none hlast ▸ hc)
      | some last =>
        simp only [take, hlast, map_some, some_or, some.injEq,
          Prod.mk.injEq] at hc
        exact ⟨last, hgrows.1.mem (hstored last (mem_of_getLast? hlast)), hc⟩
    · cases hk
    · rcases h.notSkipped hX with hgot | hbehind
      · exact .inl (mem_append_left _ hgot)
      by_cases hseen : X ∈ st.2.stored
      · obtain ⟨henv, hdeliverable⟩ := hdel hseen
        have hpending := Db.mem_pendingAfter.mpr ⟨henv, hdeliverable, hbehind⟩
        rcases Db.mem_findPending_or_behind hpending with hin | ⟨last, hlast, hlt⟩
        · exact .inl (mem_append_right _ (hpage ▸ hin))
        · exact .inr ((behind_take (hpage ▸ hlast)).mpr hlt)
      · right
        cases hlast : page.getLast? with
        | none =>
          unfold since sinceId
          rw [cursor_take_of_none hlast]
          exact hbehind
        | some last =>
          have hlt := hgrows.2 X hX hseen hP last (hstored last (mem_of_getLast? hlast))
          exact (behind_take hlast).mpr hlt
  | lose => exact ⟨⟨es, hrun⟩, h.row, fun k hk => (by cases hk), h.notSkipped⟩

theorem Tracks.run (hA : ∀ w c w', A w c w' → w.Upward P w' ∧ w'.Delivers X d) (hP : P X)
    (hrecorded : w₀.Recorded) (hdelivers : w₀.Delivers X d) {es : List Event}
    (hrun : Steps (Step cfg d A) (initial w₀) es s) : Tracks cfg d A X w₀ s := by
  refine hrun.invariant (fun s e t hstep h => h.step hA hP hrecorded hdelivers hstep) ?_
  refine ⟨⟨[], .nil⟩, fun t id hc => ?_, fun k hk => ?_, fun _ => .inr rfl⟩
  · cases hc
  · cases hk

end

end Polling

/-- Let a device poll page by page from the head, among any requests in any interleaving and with
any failures of the database. Suppose that every envelope is inserted above all envelopes stored
before it, and let `X` be an envelope that can be handed to the device from the moment it is stored.
Then at every moment the device has got `X` or `X` is behind its cursor; and a page that arrives
brings it, if the envelope was stored when the page was read and all that was pending fits on it. -/
theorem cursor_never_skips {cfg : Config} {d : DeviceId} {X : Envelope} {w₀ : World}
    {es : List Polling.Event} {s : Polling} (hrecorded : w₀.Recorded) (hdelivers : w₀.Delivers X d)
    (hrun : Steps (Polling.Step cfg d fun w _ w' =>
      w.Upward (fun _ => True) w' ∧ w'.Delivers X d) (.initial w₀) es s) :
    (X ∈ s.pool.shared.stored → X ∈ s.got ∨ X.behind s.since s.sinceId = true) ∧
    ∀ k c page, s.waiting = some k → s.pool.calls[k]? = some c →
      c.rest = .pure (.envelopes page) → ∃ st ∈ c.own,
        page = st.2.db.findPending d s.since s.sinceId ∧
        (X ∈ st.2.stored → st.2.db.FitsPage d s.since s.sinceId → X ∈ (s.take page).got) := by
  have htracks := Polling.Tracks.run (fun w c w' h => h) trivial hrecorded hdelivers hrun
  refine ⟨htracks.notSkipped, fun k c page hk hc hrest => ?_⟩
  obtain ⟨st, hst, hpage, -, hdel, hgrows⟩ :=
    htracks.page (fun w c w' h => h) hrecorded hdelivers hk hc hrest
  refine ⟨st, hst, hpage, fun hX hfits => ?_⟩
  rcases htracks.notSkipped (hgrows.1.mem hX) with hgot | hbehind
  · exact mem_append_left _ hgot
  · obtain ⟨henv, hdeliverable⟩ := hdel hX
    have hpending := Db.mem_pendingAfter.mpr ⟨henv, hdeliverable, hbehind⟩
    rw [← Db.findPending_eq_pendingAfter hfits, ← hpage] at hpending
    exact mem_append_right _ hpending

/-! ### Commits -/

/-- A Commit that was given an epoch of the group. -/
def Ledgered (g : GroupId) (e : Envelope) : Prop :=
  e.groupId = g ∧ e.messageType = .commit ∧ e.epoch.isSome = true

theorem mem_ledger {w : World} {g : GroupId} {e : Envelope} :
    e ∈ w.ledger g ↔ e ∈ w.stored ∧ Ledgered g e := by
  simp only [World.ledger, World.commits, Ledgered, mem_filter, Bool.and_eq_true, decide_eq_true_eq]
  grind

/-- The Commits of the group are in the order of their epochs, up to the epoch of its row. -/
structure CommitsInOrder (g : GroupId) (w : World) : Prop where
  bounded : ∀ a ∈ w.ledger g, ∀ n, a.epoch = some n →
    ∃ row ∈ w.db.groups, row.id = g ∧ n ≤ row.epoch
  ordered : ∀ a ∈ w.ledger g, ∀ b ∈ w.ledger g, ∀ m n, a.epoch = some m → b.epoch = some n →
    m < n → a.Before b

/-- One operation keeps the order, if a new Commit comes after everything stored before. -/
theorem CommitsInOrder.exec {cfg : Config} {i : Request} {ω : Type} {o : Op ω} {c : Choice}
    {w : World} {g : GroupId} (h : CommitsInOrder g w) (ho : Request.May cfg i o)
    (hup : w.Upward (Ledgered g) (machine.exec o c w).2) :
    CommitsInOrder g (machine.exec o c w).2 := by
  -- epochs only advance, so old Commits stay below the row
  have hold : ∀ a ∈ w.ledger g, ∀ n, a.epoch = some n →
      ∃ row ∈ (machine.exec o c w).2.db.groups, row.id = g ∧ n ≤ row.epoch := by
    intro a ha n hn
    obtain ⟨row, hrow, hid, hle⟩ := h.bounded a ha n hn
    obtain ⟨row', hrow', hid', hle'⟩ := advances_exec g o c w row hrow hid
    exact ⟨row', hrow', hid', hle.trans hle'⟩
  rcases stored_exec_cases c w ho with hsame | ⟨e, hnew, hmay⟩
  · have hledger := ledger_congr (g := g) hsame
    exact ⟨hledger ▸ hold, hledger ▸ h.ordered⟩
  · by_cases he : Ledgered g e
    · obtain ⟨n, hn⟩ := isSome_iff_exists.mp he.2.2
      have hmem : e ∈ (machine.exec o c w).2.stored.drop w.stored.length := by
        rw [hnew, drop_left]
        exact mem_singleton_self e
      obtain ⟨⟨row, hrow, hid, hlt⟩, hrow'⟩ := row_of_inserted ho hmem hn
      have hbelow : ∀ a ∈ w.ledger g, ∀ k, a.epoch = some k → k < n := by
        intro a ha k hk
        obtain ⟨row', hrow', hid', hle⟩ := h.bounded a ha k hk
        obtain rfl := Table.eq_of_key hrow hrow' (hid.trans (he.1.trans hid'.symm))
        exact lt_of_le_of_lt hle hlt
      have hfresh : e ∉ w.stored := fun hin =>
        absurd (hbelow e (mem_ledger.mpr ⟨hin, he⟩) n hn) (lt_irrefl n)
      have hledger : ∀ a ∈ (machine.exec o c w).2.ledger g, a ∈ w.ledger g ∨ a = e := by
        intro a ha
        have hif : e.groupId = g ∧ e.messageType = .commit ∧ e.epoch.isSome = true := he
        rw [ledger_append hnew, if_pos hif] at ha
        simpa using ha
      refine ⟨fun a ha k hk => ?_, fun a ha b hb k l hk hl hkl => ?_⟩
      · rcases hledger a ha with ha | rfl
        · exact hold a ha k hk
        · obtain ⟨row', hrow', hid', hepoch⟩ := hrow'
          obtain rfl : k = n := some.inj (hk.symm.trans hn)
          exact ⟨row', hrow', hid'.trans he.1, hepoch.ge⟩
      · rcases hledger a ha with ha | rfl
        · rcases hledger b hb with hb | rfl
          · exact h.ordered a ha b hb k l hk hl hkl
          · have hin : b ∈ (machine.exec o c w).2.stored := (mem_ledger.mp hb).1
            exact hup b hin hfresh he a (mem_ledger.mp ha).1
        · -- nothing comes after the new Commit
          obtain rfl : k = n := some.inj (hk.symm.trans hn)
          rcases hledger b hb with hb | rfl
          · exact absurd (hkl.trans (hbelow b hb l hl)) (lt_irrefl k)
          · exact absurd (some.inj (hl.symm.trans hn) ▸ hkl) (lt_irrefl _)
    · have hledger : (machine.exec o c w).2.ledger g = w.ledger g := by
        have hif : ¬(e.groupId = g ∧ e.messageType = .commit ∧ e.epoch.isSome = true) := he
        rw [ledger_append hnew, if_neg hif, append_nil]
      exact ⟨hledger ▸ hold, hledger ▸ h.ordered⟩

/-- Let a device poll as above, where every Commit of the group is inserted above all envelopes
stored before it. Of two Commits of the group the one with the smaller epoch comes first on every
page that has both; and if it can be handed to the device from the moment it is stored, no cursor
of the device hides it: the device has got it or it is behind the cursor. -/
theorem commits_polled_in_order {cfg : Config} {d : DeviceId} {g : GroupId} {w₀ : World}
    {a b : Envelope} {m n : Epoch} {es : List Polling.Event} {s : Polling}
    (hrecorded : w₀.Recorded) (hdelivers : w₀.Delivers a d) (horder : CommitsInOrder g w₀)
    (hrun : Steps (Polling.Step cfg d fun w _ w' =>
      w.Upward (Ledgered g) w' ∧ w'.Delivers a d) (.initial w₀) es s)
    (ha : a ∈ s.pool.shared.ledger g) (hb : b ∈ s.pool.shared.ledger g) (hm : a.epoch = some m)
    (hn : b.epoch = some n) (hmn : m < n) :
    (∀ c ∈ s.pool.calls, ∀ d' since sinceId page, c.request = .poll d' since sinceId →
      c.rest = .pure (.envelopes page) → a ∈ page → b ∈ page → [a, b].Sublist page) ∧
    (a ∈ s.got ∨ a.behind s.since s.sinceId = true) := by
  have htracks := Polling.Tracks.run (fun w c w' h => h) (mem_ledger.mp ha).2
    hrecorded hdelivers hrun
  obtain ⟨es', hpool⟩ := htracks.ran
  have hordered : CommitsInOrder g s.pool.shared :=
    Pool.invariant_run (fun i _ => serve_uses cfg i)
      (fun i ω o c w ho hA h => h.exec ho hA.1) hpool (Pool.starts_true es') (by simp) horder
  refine ⟨fun c hc d' since sinceId page hi hrest hapage hbpage => ?_,
    htracks.notSkipped (mem_ledger.mp ha).1⟩
  obtain ⟨st, -, rfl⟩ := page_of_returned hpool hc hi hrest
  exact Db.findPending_order hapage hbpage (hordered.ordered a ha b hb m n hm hn hmn)

/-! ### Concrete runs -/

namespace Polling

variable {cfg : Config} {d : DeviceId} {A : World → Choice → World → Prop}
  [∀ w c w', Decidable (A w c w')] {s s' : Polling} {es : List Event}

/-- The state after an event, if the event is possible. -/
def next? (cfg : Config) (d : DeviceId) (s : Polling) : Event → Option Polling
  | .serve e => (Pool.next? machine (serve cfg) s.pool e).map fun p => { s with pool := p }
  | .ask =>
    if s.waiting = none then
      (Pool.next? machine (serve cfg) s.pool (.start (.poll d s.since s.sinceId))).map fun p =>
        { s with pool := p, waiting := some s.pool.calls.length }
    else none
  | .receive => (s.waiting.bind fun k => (s.pool.calls[k]?).bind pageOf).map s.take
  | .lose => some { s with waiting := none }

/-- The outcome of an operation is one that `A` allows. -/
def allows (A : World → Choice → World → Prop) [∀ w c w', Decidable (A w c w')] (s : Polling)
    (e : Event) (s' : Polling) : Bool :=
  match e with
  | .serve e => Pool.allows A s.pool e s'.pool
  | _ => true

theorem step_of_next? {e : Event} (h : next? cfg d s e = some s') (htest : allows A s e s' = true) :
    Step cfg d A s e s' := by
  cases e with
  | serve e =>
    obtain ⟨p, hp, rfl⟩ := map_eq_some_iff.mp h
    exact .serve (Pool.step_of_allows ⟨Pool.step_of_next? hp, htest⟩)
  | ask =>
    rw [next?] at h
    split at h
    · next hidle =>
      obtain ⟨p, hp, rfl⟩ := map_eq_some_iff.mp h
      exact .ask hidle ((Pool.step_of_next? hp).restrict nofun)
    · cases h
  | receive =>
    obtain ⟨page, hpage, rfl⟩ := map_eq_some_iff.mp h
    obtain ⟨k, hk, hpage⟩ := bind_eq_some_iff.mp hpage
    obtain ⟨c, hc, hpage⟩ := bind_eq_some_iff.mp hpage
    exact .receive hk hc (rest_of_pageOf hpage)
  | lose =>
    obtain rfl := some.inj h
    exact .lose

variable (cfg d A s es) in
/-- A run and a property of its end, both computed. -/
theorem exists_steps_of_play (P : Polling → Prop) [DecidablePred P]
    (h : (playIf (next? cfg d) (allows A) s es).any (fun s => decide (P s)) = true := by
      decide +kernel) : ∃ s', Steps (Step cfg d A) s es s' ∧ P s' :=
  exists_steps_of_playIf (fun _ _ _ => step_of_next?) h

end Polling

instance (P : Envelope → Prop) [DecidablePred P] (w w' : World) : Decidable (w.Upward P w') := by
  unfold World.Upward
  infer_instance

instance (w : World) : Decidable w.Recorded :=
  inferInstanceAs (Decidable (∀ e ∈ w.db.envelopes.rows, e ∈ w.stored))

instance (X : Envelope) (d : DeviceId) (w : World) : Decidable (w.Delivers X d) := by
  unfold World.Delivers
  infer_instance

instance (g : GroupId) : DecidablePred (Ledgered g) := fun e => by
  unfold Ledgered
  infer_instance

/-- The device asks, the server answers the `k`-th call, the answer arrives. -/
def Sample.fetch (k : ℕ) : List Polling.Event := [.ask, .serve (.act k .plain), .receive]

/-- The `k`-th call is a send. It is built at the given time and performs `n` operations. -/
def Sample.send (k n : ℕ) (i : Request) (id : EnvelopeId) (time : Time) : List Polling.Event :=
  .serve (.start i) ::
    List.replicate n (.serve (.act k { Choice.plain with uuid := id, clock := time }))

/-- The first of two sends is built before the second one, and committed after it, and after the
other member polled. -/
def Sample.lateCommit : List Polling.Event :=
  send 0 3 (.sendMessage 7 1 [1] none) 200 5 ++
  send 1 4 (.sendMessage 7 1 [2] none) 201 6 ++ fetch 2 ++
  [.serve (.act 0 .plain)] ++ fetch 3

/-- The envelope that was built first is stored and can be handed to the device, but the device has
not got it and it is not behind the cursor, although all that is pending fits on a page. -/
theorem late_commit_is_skipped : ∃ s,
    Steps (Polling.Step config 8 Pool.Unrestricted) (.initial (groupOf []))
      lateCommit s ∧
    sent ∈ s.pool.shared.db.envelopes ∧
    s.pool.shared.db.deliverable 8 sent = true ∧ s.pool.shared.db.FitsPage 8 none none ∧
    sent ∉ s.got ∧ sent.behind s.since s.sinceId = false := by
  exact Polling.exists_steps_of_play ..

/-- The envelope is sent, and the other member asks for it. -/
def Sample.sendAndAsk : List Polling.Event :=
  send 0 4 (.sendMessage 7 1 [1] none) 200 5 ++ [.ask, .serve (.act 1 .plain)]

theorem cursor_never_skips_sample : ∃ s page,
    Steps (Polling.Step config 8 fun w _ w' =>
      w.Upward (fun _ => True) w' ∧ w'.Delivers sent 8) (.initial (groupOf [1, 2]))
      sendAndAsk s ∧
    sent ∈ (s.take page).got := by
  obtain ⟨s, hrun, hwaiting, c, hc, ⟨page, hpage, -⟩, hown⟩ :=
    Polling.exists_steps_of_play config 8
      (fun w _ w' => w.Upward (fun _ => True) w' ∧ w'.Delivers sent 8)
      (.initial (groupOf [1, 2])) sendAndAsk fun s =>
      s.waiting = some 1 ∧ ∃ c ∈ s.pool.calls[1]?, (∃ page ∈ pageOf c, True) ∧
      ∀ st ∈ c.own, sent ∈ st.2.stored ∧ st.2.db.FitsPage 8 s.since s.sinceId
  obtain ⟨st, hst, -, hgot⟩ := (cursor_never_skips (by decide +kernel) (by decide +kernel) hrun).2
    1 c page hwaiting hc (rest_of_pageOf hpage)
  exact ⟨s, page, hrun, hgot (hown st hst).1 (hown st hst).2⟩

/-- Two members commit one after the other; the clocks of the servers that build the Commits are
given. Then one of them polls. -/
def Sample.twoCommits (first second : Time) : List Polling.Event :=
  send 0 5 (.sendCommit 7 1 [1] 0) 200 first ++
  send 1 5 (.sendCommit 8 1 [2] 1) 201 second ++ fetch 2

/-- The Commits of the first two epochs. -/
def Sample.firstCommit (time : Time) : Envelope :=
  ⟨200, 1, 7, none, .commit, [1], some 1, time, none⟩

def Sample.secondCommit (time : Time) : Envelope :=
  ⟨201, 1, 8, none, .commit, [2], some 2, time, none⟩

/-- The server that builds the second Commit has a clock that is behind: the poll returns the
Commit of epoch 2 first. -/
theorem clock_skew_reorders_commits : ∃ s,
    Steps (Polling.Step config 8 Pool.Unrestricted) (.initial (groupOf []))
      (twoCommits 6 5) s ∧
    firstCommit 6 ∈ s.pool.shared.ledger 1 ∧
    secondCommit 5 ∈ s.pool.shared.ledger 1 ∧
    ∃ c ∈ s.pool.calls, c.request = .poll 8 none none ∧
      c.rest = .pure (.envelopes [secondCommit 5, firstCommit 6]) := by
  obtain ⟨s, hrun, hfirst, hsecond, c, hc, hi, hpage⟩ :=
    Polling.exists_steps_of_play config 8 Pool.Unrestricted (.initial (groupOf []))
      (twoCommits 6 5) fun s =>
      firstCommit 6 ∈ s.pool.shared.ledger 1 ∧ secondCommit 5 ∈ s.pool.shared.ledger 1 ∧
      ∃ c ∈ s.pool.calls, c.request = .poll 8 none none ∧
        pageOf c = some [secondCommit 5, firstCommit 6]
  exact ⟨s, hrun, hfirst, hsecond, c, hc, hi, rest_of_pageOf hpage⟩

theorem commits_polled_in_order_sample : ∃ s,
    Steps (Polling.Step config 8 fun w _ w' =>
      w.Upward (Ledgered 1) w' ∧ w'.Delivers (firstCommit 5) 8)
      (.initial (groupOf [])) (twoCommits 5 6) s ∧
    (∀ c ∈ s.pool.calls, ∀ d' since sinceId page, c.request = .poll d' since sinceId →
      c.rest = .pure (.envelopes page) → firstCommit 5 ∈ page →
      secondCommit 6 ∈ page → [firstCommit 5, secondCommit 6].Sublist page) ∧
    (firstCommit 5 ∈ s.got ∨ (firstCommit 5).behind s.since s.sinceId = true) := by
  obtain ⟨s, hrun, hfirst, hsecond⟩ :=
    Polling.exists_steps_of_play config 8
      (fun w _ w' => w.Upward (Ledgered 1) w' ∧ w'.Delivers (firstCommit 5) 8)
      (.initial (groupOf [])) (twoCommits 5 6) fun s =>
      firstCommit 5 ∈ s.pool.shared.ledger 1 ∧ secondCommit 6 ∈ s.pool.shared.ledger 1
  have hledger : (groupOf []).ledger 1 = [] := by decide +kernel
  have horder : CommitsInOrder 1 (groupOf []) := by
    constructor <;> simp [hledger]
  exact ⟨s, hrun, commits_polled_in_order (by decide +kernel) (by decide +kernel) horder hrun hfirst
    hsecond rfl rfl (by decide)⟩

end Powehi.Server
