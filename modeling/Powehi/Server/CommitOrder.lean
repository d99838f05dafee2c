import Powehi.Server.Calls

/-!
# One Commit per epoch

Three handlers store Commit envelopes. `sendCommit` and `forwardCommit` go through the ledger: a
compare-and-swap of the epoch in the group's row and the insertion of the envelope are one
transaction, and the envelope gets the epoch that was won. `forwardEnvelope` delivers what a peer
region sends; a Commit it stores has no epoch.

In every interleaving the Commits of the ledger are numbered without gap or repetition, from the
epoch the group started with to the epoch its row shows.
-/

namespace Powehi.Server

open Codec Semantics Program List World Pool Query

variable {cfg : Config} {i : Request} {e : Envelope} {x : Epoch} {f : DomainError → Failure}
  {g : GroupId} {n : Epoch}

/-- The Commit envelopes ever stored for a group. -/
def World.commits (w : World) (g : GroupId) : List Envelope :=
  w.stored.filter fun e => e.groupId = g && e.messageType = .commit

/-- Those among them that carry an epoch. -/
def World.ledger (w : World) (g : GroupId) : List Envelope :=
  (w.commits g).filter fun e => e.epoch.isSome

/-- The envelopes a call inserted. -/
def inserted (own : List (World × World)) : List Envelope :=
  own.flatMap fun st => st.2.stored.drop st.1.stored.length

theorem inserted_singleton (st : World × World) :
    inserted [st] = st.2.stored.drop st.1.stored.length := flatMap_singleton ..

/-- The request is to append a Commit to the ledger of the group. -/
def Request.CommitsTo (i : Request) (g : GroupId) : Prop :=
  match i with
  | .sendCommit _ g' _ _ => g' = g
  | .forwardCommit _ req => req.groupId = some g
  | _ => False

/-- The request is to deliver an envelope of another region. -/
def Request.Forwards (i : Request) : Prop :=
  match i with
  | .forwardEnvelope _ _ => True
  | _ => False

/-! ### The history -/

/-- The history only grows. -/
def World.Extends (w w' : World) : Prop := ∃ new, w'.stored = w.stored ++ new

theorem World.Extends.refl (w : World) : w.Extends w := ⟨[], (append_nil _).symm⟩

theorem World.Extends.trans {w w' w'' : World} (h : w.Extends w') (h' : w'.Extends w'') :
    w.Extends w'' := by
  obtain ⟨new, h⟩ := h
  obtain ⟨new', h'⟩ := h'
  exact ⟨new ++ new', by rw [h', h, append_assoc]⟩

theorem extends_exec {ω : Type} (o : Op ω) (c : Choice) (w : World) :
    w.Extends (machine.exec o c w).2 :=
  exec_rel (K := fun _ => True) .refl (fun _ _ _ h => h) (fun _ _ _ _ _ _ => ⟨_, rfl⟩) trivial c w

/-- What a transaction of the request does to the history and the groups: nothing is inserted and
the rows of the groups stay; an envelope is inserted and the groups stay; or the next epoch of a
group is won, and its Commit inserted. -/
inductive Records (i : Request) (w : World) (db : Db) : Prop
  | quiet (stored : (w.store db).stored = w.stored) (groups : ∀ row ∈ w.db.groups, row ∈ db.groups)
  | saved (e : Envelope) (may : i.MayStore e) (stored : (w.store db).stored = w.stored ++ [e])
      (groups : db.groups = w.db.groups)
  | won (g : GroupId) (x : Epoch) (e : Envelope) (may : i.MayCommit g x e)
      (row : ∃ row ∈ w.db.groups, row.id = g ∧ row.epoch = x)
      (stored : (w.store db).stored = w.stored ++ [{ e with epoch := some (x + 1) }])
      (groups : db.groups = (w.db.setEpoch g (x + 1)).groups)

theorem records_of_run {β : Type} {q : Query β} {w : World} {b : β} {db : Db}
    (ho : Request.May cfg i (.sql q)) (hrun : q.run w.db = .ok (b, db)) : Records i w db := by
  cases hq : q.insertsEnvelope with
  | false =>
    have hframe := frame hrun
    refine .quiet (stored_store_quiet (hframe.inserted hq)) (hframe.groups ?_)
    cases q <;> first | rfl | exact absurd hq (by simp [insertsEnvelope])
  | true =>
    cases q with
    | saveEnvelope e =>
      obtain rfl := state_of_ok hrun
      rcases stored_store_saveEnvelope w e with hsame | ⟨-, hnew⟩
      · exact .quiet hsame fun _ h => h
      · exact .saved e ho hnew rfl
    | commitEpochAndSave g x e =>
      obtain ⟨-, rfl⟩ | ⟨-, hfree, hrow, rfl⟩ := Db.commitEpochAndSave_ok hrun
      · exact .quiet (stored_store_quiet fun _ h => h) fun _ h => h
      · exact .won g x e ho hrow (stored_store_commit hfree) rfl
    | _ => exact absurd hq (by simp [insertsEnvelope])

/-- The request may insert the envelope: as it is, or as the Commit of an epoch it won. -/
def Request.MayInsert (i : Request) (e : Envelope) : Prop :=
  i.MayStore e ∨ ∃ g x e', i.MayCommit g x e' ∧ e = { e' with epoch := some (x + 1) }

/-- What one operation inserts. -/
theorem stored_exec_cases {ω : Type} {o : Op ω} (c : Choice) (w : World)
    (ho : Request.May cfg i o) : (machine.exec o c w).2.stored = w.stored ∨
      ∃ e, (machine.exec o c w).2.stored = w.stored ++ [e] ∧ i.MayInsert e := by
  refine exec_rel
    (R := fun w w' => w'.stored = w.stored ∨ ∃ e, w'.stored = w.stored ++ [e] ∧ i.MayInsert e)
    (fun _ => .inl rfl) (fun _ _ _ h => h) (fun q w b db ho hrun => ?_) ho c w
  cases records_of_run ho hrun with
  | quiet hsame => exact .inl hsame
  | saved e hmay hnew => exact .inr ⟨e, hnew, .inl hmay⟩
  | won g x e hmay _ hnew => exact .inr ⟨_, hnew, .inr ⟨g, x, e, hmay, rfl⟩⟩

/-! ### The ledger -/

/-- The Commits of the ledger are numbered without gap or repetition from `e₀ + 1` to the epoch in
the row of the group. -/
def Serial (g : GroupId) (e₀ : Epoch) (w : World) : Prop :=
  ∃ row ∈ w.db.groups, row.id = g ∧ e₀ ≤ row.epoch ∧
    (w.ledger g).map Envelope.epoch = (List.range' (e₀ + 1) (row.epoch - e₀)).map some

section

variable {g : GroupId} {e₀ : Epoch} {w w' : World}

theorem ledger_append (h : w'.stored = w.stored ++ [e]) :
    w'.ledger g = w.ledger g ++
      if e.groupId = g ∧ e.messageType = .commit ∧ e.epoch.isSome then [e] else [] := by
  unfold ledger commits
  rw [h]
  by_cases hg : e.groupId = g <;> by_cases ht : e.messageType = .commit <;>
    cases he : e.epoch <;> simp [hg, ht, he]

theorem ledger_congr (h : w'.stored = w.stored) : w'.ledger g = w.ledger g := by
  rw [ledger, commits, h]
  rfl

/-- The next epoch is won. -/
theorem Serial.win (h : Serial g e₀ w) (hrow : ∃ row ∈ w.db.groups, row.id = g ∧ row.epoch = x)
    (hgroups : w'.db.groups = (w.db.setEpoch g (x + 1)).groups)
    (hstored : w'.stored = w.stored ++ [e]) (hg : e.groupId = g) (ht : e.messageType = .commit)
    (he : e.epoch = some (x + 1)) : Serial g e₀ w' := by
  obtain ⟨row, hmem, hid, hle, hepochs⟩ := h
  obtain ⟨row', hmem', hid', rfl⟩ := hrow
  obtain rfl : row = row' := Table.eq_of_key hmem hmem' (hid.trans hid'.symm)
  refine ⟨{ row with epoch := row.epoch + 1 }, ?_, hid, Nat.le_succ_of_le hle, ?_⟩
  · rw [hgroups]
    exact Db.mem_setEpoch.mpr ⟨row, hmem, if_pos hid⟩
  · rw [ledger_append hstored, if_pos ⟨hg, ht, by rw [he]; rfl⟩, map_append, hepochs]
    have hlen : row.epoch + 1 - e₀ = (row.epoch - e₀) + 1 := Nat.succ_sub hle
    have hlast : e₀ + 1 + 1 * (row.epoch - e₀) = row.epoch + 1 := by grind
    rw [hlen, List.range'_concat, map_append, map_singleton, map_singleton, he, hlast]

/-- A step that leaves the row and the ledger alone. -/
theorem Serial.keep (h : Serial g e₀ w) (hgroups : ∀ row ∈ w.db.groups, row.id = g →
      row ∈ w'.db.groups) (hledger : w'.ledger g = w.ledger g) : Serial g e₀ w' := by
  obtain ⟨row, hmem, hid, hle, hepochs⟩ := h
  exact ⟨row, hgroups row hmem hid, hid, hle, by rw [hledger, hepochs]⟩

/-- One operation of any request keeps the numbering. -/
theorem Serial.exec {ω : Type} {o : Op ω} (c : Choice) (ho : Request.May cfg i o)
    (h : Serial g e₀ w) : Serial g e₀ (machine.exec o c w).2 := by
  refine exec_rel (R := fun w w' => Serial g e₀ w → Serial g e₀ w') (fun _ h => h)
    (fun _ _ _ h => h) (fun q w b db ho hrun h => ?_) ho c w h
  cases records_of_run ho hrun with
  | quiet hsame hgroups => exact h.keep (fun row hrow _ => hgroups row hrow) (ledger_congr hsame)
  | saved e hmay hnew hgroups =>
    refine h.keep (fun row hrow _ => hgroups ▸ hrow) ?_
    rw [ledger_append hnew, if_neg, append_nil]
    simp [hmay.epoch_eq]
  | won g' x e hmay hrow hnew hgroups =>
    by_cases hg : g' = g
    · subst hg
      exact h.win hrow hgroups hnew hmay.1 hmay.2.2.1 rfl
    · -- another group's epoch
      apply h.keep
      · intro row hmem hid
        rw [db_store, hgroups]
        exact Db.mem_setEpoch.mpr ⟨row, hmem, if_neg fun h' => hg (h'.symm.trans hid)⟩
      · rw [ledger_append hnew, if_neg fun h' => hg (hmay.1.symm.trans h'.1), append_nil]

end

/-! ### What a call inserted -/

/-- The operation never inserts an envelope. -/
def Quiet {ω : Type} (o : Op ω) : Prop := ∀ c w, (machine.exec o c w).2.stored = w.stored

theorem quiet_sql {β : Type} {q : Query β} (hq : q.insertsEnvelope = false) : Quiet (.sql q) := by
  intro c w
  change (transact q c w).2.stored = _
  rcases transact_cases q c w with ⟨hw, -⟩ | ⟨b, db, hrun, hw, -⟩
  · rw [hw, stored_tick]
  · rw [hw, stored_store_quiet ((frame hrun).inserted hq), stored_tick]

theorem quiet_newUuid : Quiet .newUuid := fun _ _ => rfl

theorem quiet_utcNow : Quiet .utcNow := fun _ _ => rfl

theorem inserted_cons (s t : World) (own : List (World × World)) :
    inserted ((s, t) :: own) = t.stored.drop s.stored.length ++ inserted own := rfl

theorem inserted_append (own own' : List (World × World)) :
    inserted (own ++ own') = inserted own ++ inserted own' := flatMap_append

theorem inserted_cons_quiet {s t : World} (h : t.stored = s.stored) (own : List (World × World)) :
    inserted ((s, t) :: own) = inserted own := by
  rw [inserted_cons, h, drop_length, nil_append]

section

variable {α β : Type} {A : World → Choice → World → Prop}

/-- The outcome of a program by the envelopes it inserted. -/
def wpInserted (A : World → Choice → World → Prop) (p : Serve α)
    (Ψ : List Envelope → Except Failure α → Prop) : Prop :=
  wpOwn machine A p fun own r => Ψ (inserted own) r

variable {Ψ : List Envelope → Except Failure α → Prop}

/-- A program of quiet operations inserts nothing. -/
theorem wpInserted_quiet {p : Serve α} (hp : p.Uses Quiet) :
    wpInserted A p fun new _ => new = [] := by
  induction p with
  | pure _ | throw _ => rfl
  | op o next ih =>
    intro s c _
    refine wpOwn_mono (fun own r h => ?_) (ih _ (hp.2 _))
    exact (inserted_cons_quiet (hp.1 c s) own).trans h

theorem wpInserted_bind_quiet {p : Serve β} {f : β → Serve α} (hp : p.Uses Quiet)
    (hf : ∀ b, wpInserted A (f b) Ψ)
    (herror : ∀ e, Ψ [] (.error e) := by first | exact fun _ _ => rfl | exact fun _ _ _ _ => rfl) :
    wpInserted A (p >>= f) Ψ := by
  refine wpOwn_bind (wpInserted_quiet hp) (fun own b hnil => ?_) fun own e hnil => ?_
  · refine wpOwn_mono (fun own' r h => ?_) (hf b)
    rw [inserted_append, hnil]
    exact h
  · rw [hnil]
    exact herror e

theorem wpInserted_parsed_bind {message : String} {x : Option β} {f : β → Serve α}
    (hf : ∀ b, x = some b → wpInserted A (f b) Ψ)
    (herror : ∀ e, Ψ [] (.error e) := by first | exact fun _ _ => rfl | exact fun _ _ _ _ => rfl) :
    wpInserted A (parsed message x >>= f) Ψ := by
  cases x with
  | none => exact herror _
  | some b => exact hf b rfl

theorem wpInserted_ofExcept_bind {r : Except Failure β} {f : β → Serve α}
    (hf : ∀ b, wpInserted A (f b) Ψ)
    (herror : ∀ e, Ψ [] (.error e) := by first | exact fun _ _ => rfl | exact fun _ _ _ _ => rfl) :
    wpInserted A (.ofExcept r >>= f) Ψ := by
  cases r with
  | error e => exact herror e
  | ok b => exact hf b

theorem wpInserted_map {p : Serve β} {f : β → α}
    (h : wpInserted A p fun new r => Ψ new (r.map f)) : wpInserted A (f <$> p) Ψ := by
  refine wpOwn_bind h (fun own b hb => ?_) fun own e he => he
  change Ψ (inserted (own ++ [])) (.ok (f b))
  rw [append_nil]
  exact hb

/-- One repository call, by what the transaction inserted when it was committed. -/
theorem wpInserted_callRepo {q : Query β} {Ψ : List Envelope → Except Failure β → Prop}
    (hf : ∀ e, e.isInternal = true → (f e).isInternal = true) (hnone : ∀ e, Ψ [] (.error (f e)))
    (hcommit : ∀ (w : World) b db, q.run w.db = .ok (b, db) →
      Ψ ((w.store db).stored.drop w.stored.length) (.ok b) ∧
      ∀ e : Failure, e.isInternal = true →
        Ψ ((w.store db).stored.drop w.stored.length) (.error e)) :
    wpInserted A (callRepo f q) Ψ := by
  intro s c _
  rcases transact_cases q c s with ⟨hw, e, hr, -⟩ | ⟨b, db, hrun, hw, hr | ⟨e, hr, he⟩⟩
  · rw [show machine.exec (.sql q) c s = (_, _) from Prod.ext hr hw]
    change Ψ (inserted [(s, s.tick c.elapsed)]) _
    rw [inserted_singleton, stored_tick, drop_length]
    exact hnone e
  · rw [show machine.exec (.sql q) c s = (_, _) from Prod.ext hr hw]
    change Ψ (inserted [(s, (s.tick c.elapsed).store db)]) _
    rw [inserted_singleton]
    exact (hcommit (s.tick c.elapsed) b db hrun).1
  · rw [show machine.exec (.sql q) c s = (_, _) from Prod.ext hr hw]
    change Ψ (inserted [(s, (s.tick c.elapsed).store db)]) _
    rw [inserted_singleton]
    exact (hcommit (s.tick c.elapsed) b db hrun).2 _ (hf e he)

/-- The program inserted nothing if it was refused. -/
def RefusedClean (new : List Envelope) (r : Except Failure α) : Prop :=
  ∀ f, r = .error f → f.isInternal = false → new = []

theorem refusedClean_nil (r : Except Failure α) : RefusedClean [] r := fun _ _ _ => rfl

theorem RefusedClean.map {new : List Envelope} {r : Except Failure β} (h : RefusedClean new r)
    (f : β → α) : RefusedClean new (r.map f) := by
  cases r with
  | ok b =>
    intro e he
    cases he
  | error e => exact fun e' he => h e' (congrArg _ (Except.error.inj he))

/-- A repository call that fails for a reason of its own inserted nothing. -/
theorem wpInserted_callRepo_error {q : Query β}
    (hf : ∀ e, e.isInternal = true → (f e).isInternal = true) :
    wpInserted A (callRepo f q) RefusedClean := by
  apply wpInserted_callRepo hf
  · exact fun _ => refusedClean_nil _
  · intro w b db _
    constructor
    · intro e heq
      cases heq
    · intro e he e' heq hne
      obtain rfl := Except.error.inj heq
      exact absurd (he.symm.trans hne) (by decide)

end

theorem isInternal_domainErrToStatus {e : DomainError} (h : e.isInternal = true) :
    (domainErrToStatus e).isInternal = true := by
  cases e <;> first | rfl | exact absurd h Bool.false_ne_true

/-- What a request that commits to `g` inserts, by its result: the Commit of the epoch it returns,
or nothing if it is refused. -/
def CommitOutcome (g : GroupId) (new : List Envelope) : Except Failure Epoch → Prop
  | .ok n => ∃ e, new = [e] ∧ e.groupId = g ∧ e.messageType = .commit ∧ e.epoch = some n
  | .error f => f.isInternal = false → new = []

theorem CommitOutcome.refusedClean {new : List Envelope} {r : Except Failure Epoch}
    (h : CommitOutcome g new r) : RefusedClean new r := by
  rintro f rfl
  exact h

section

variable {A : World → Choice → World → Prop}

/-- The ledger call at the end of both handlers. -/
theorem wpInserted_commit {refuse : Serve Epoch}
    (hf : ∀ e, e.isInternal = true → (f e).isInternal = true) (hg : e.groupId = g)
    (ht : e.messageType = .commit) (hrefuse : ∃ failure, refuse = .throw failure) :
    wpInserted A (callRepo f (.commitEpochAndSave g x e) >>= fun won =>
      match won with
      | none => refuse
      | some n => .pure n) (CommitOutcome g) := by
  have hcall : wpInserted A (callRepo f (.commitEpochAndSave g x e)) fun new r =>
      match r with
      | .ok none => new = []
      | .ok (some n) => ∃ e, new = [e] ∧ e.groupId = g ∧ e.messageType = .commit ∧ e.epoch = some n
      | .error failure => failure.isInternal = false → new = [] := by
    apply wpInserted_callRepo hf
    · exact fun _ _ => rfl
    · intro w won db hrun
      refine ⟨?_, fun failure hint hext => absurd (hint.symm.trans hext) (by decide)⟩
      obtain ⟨rfl, rfl⟩ | ⟨rfl, hfree, -, rfl⟩ := Db.commitEpochAndSave_ok hrun
      · rw [stored_store_quiet fun _ h => h, drop_length]
      · rw [stored_store_commit hfree, drop_left]
        exact ⟨_, rfl, hg, ht, rfl⟩
  obtain ⟨failure, rfl⟩ := hrefuse
  refine wpOwn_bind hcall (fun own won h => ?_) fun own failure h => h
  cases won with
  | none =>
    change failure.isInternal = false → inserted (own ++ []) = []
    rw [append_nil]
    exact fun _ => h
  | some n =>
    change ∃ e, inserted (own ++ []) = [e] ∧ _
    rw [append_nil]
    exact h

theorem wpInserted_sendCommit (sender : DeviceId) (g : GroupId) (commit : Bytes) (x : Epoch) :
    wpInserted A (sendCommit sender g commit x) (CommitOutcome g) := by
  unfold sendCommit
  split
  · exact fun _ => rfl
  refine wpInserted_bind_quiet (uses_callRepo (quiet_sql rfl)) fun found => ?_
  split
  · exact fun _ => rfl
  refine wpInserted_bind_quiet (uses_checkSenderIsMember (quiet_sql rfl)) fun _ => ?_
  refine wpInserted_bind_quiet (uses_newUuid quiet_newUuid) fun id => ?_
  refine wpInserted_bind_quiet (uses_utcNow quiet_utcNow) fun now => ?_
  exact wpInserted_commit (fun _ h => h) rfl rfl ⟨_, rfl⟩

theorem wpInserted_forwardCommit (cfg : Config) (peer : Peer) (req : ForwardCommit)
    (hg : req.groupId = some g) : wpInserted A (forwardCommit cfg peer req) (CommitOutcome g) := by
  unfold forwardCommit
  split
  · exact fun _ => rfl
  refine wpInserted_parsed_bind fun g' hg' => ?_
  obtain rfl : g' = g := Option.some.inj (hg'.symm.trans hg)
  refine wpInserted_parsed_bind fun sender _ => ?_
  refine wpInserted_bind_quiet (uses_callRepo (quiet_sql rfl)) fun found => ?_
  cases found with
  | none =>
    refine wpInserted_bind_quiet (uses_checkForwardedSender (quiet_sql rfl)) fun _ => ?_
    exact fun _ => rfl
  | some group =>
    refine wpInserted_ofExcept_bind fun _ => ?_
    refine wpInserted_bind_quiet (uses_checkForwardedSender (quiet_sql rfl)) fun _ => ?_
    refine wpInserted_bind_quiet (uses_newUuid quiet_newUuid) fun id => ?_
    refine wpInserted_bind_quiet (uses_utcNow quiet_utcNow) fun now => ?_
    exact wpInserted_commit (fun _ => isInternal_domainErrToStatus) rfl rfl ⟨_, rfl⟩

theorem wpInserted_sendMessage (sender : DeviceId) (g : GroupId) (ct : Bytes) (ttl : Option ℕ) :
    wpInserted A (sendMessage sender g ct ttl) RefusedClean := by
  unfold sendMessage
  split
  · exact refusedClean_nil _
  refine wpInserted_bind_quiet (uses_checkSenderIsMember (quiet_sql rfl)) fun _ => ?_
  refine wpInserted_bind_quiet (uses_expiryOf quiet_utcNow) fun expiresAt => ?_
  refine wpInserted_bind_quiet (uses_newUuid quiet_newUuid) fun id => ?_
  refine wpInserted_bind_quiet (uses_utcNow quiet_utcNow) fun now => ?_
  refine wpOwn_bind (wpInserted_callRepo_error fun _ h => h) (fun own b _ => ?_)
    fun own e h f hf hext => h f (congrArg _ (Except.error.inj hf)) hext
  intro f hf
  cases hf

theorem wpInserted_sendWelcome (sender : DeviceId) (g : GroupId) (w : Bytes) (target : DeviceId) :
    wpInserted A (sendWelcome sender g w target) RefusedClean := by
  unfold sendWelcome
  split
  · exact refusedClean_nil _
  refine wpInserted_bind_quiet (uses_checkSenderIsMember (quiet_sql rfl)) fun _ => ?_
  refine wpInserted_bind_quiet (uses_newUuid quiet_newUuid) fun id => ?_
  refine wpInserted_bind_quiet (uses_utcNow quiet_utcNow) fun now => ?_
  exact wpInserted_callRepo_error fun _ h => h

theorem wpInserted_forwardEnvelope (cfg : Config) (peer : Peer) (req : ForwardEnvelope) :
    wpInserted A (forwardEnvelope cfg peer req) RefusedClean := by
  refine wpInserted_parsed_bind fun messageType _ => ?_
  split
  · exact refusedClean_nil _
  refine wpInserted_parsed_bind fun g _ => ?_
  refine wpInserted_parsed_bind fun id _ => ?_
  refine wpInserted_parsed_bind fun sender _ => ?_
  refine wpInserted_bind_quiet uses_parsedRecipient fun recipient => ?_
  refine wpInserted_bind_quiet (uses_utcNow quiet_utcNow) fun now => ?_
  refine wpInserted_bind_quiet (uses_callRepo (quiet_sql rfl)) fun found => ?_
  have hsave : ∀ e, wpInserted A (checkForwardedSender g sender >>= fun _ => rpc (.saveEnvelope e))
      RefusedClean := by
    intro e
    refine wpInserted_bind_quiet (uses_checkForwardedSender (quiet_sql rfl)) fun _ => ?_
    exact wpInserted_callRepo_error fun _ => isInternal_domainErrToStatus
  cases found with
  | none => exact hsave _
  | some group => exact wpInserted_ofExcept_bind fun _ => hsave _

/-- A request that stores no envelope is quiet. -/
theorem quiet_of_may (hstore : ∀ e, ¬i.MayStore e) (hcommit : ∀ g x e, ¬i.MayCommit g x e)
    {ω : Type} {o : Op ω} (ho : Request.May cfg i o) : Quiet o := by
  intro c w
  rcases stored_exec_cases c w ho with h | ⟨e, -, he | ⟨g, x, e', he, -⟩⟩
  · exact h
  · exact absurd he (hstore e)
  · exact absurd he (hcommit g x e')

/-- Every request that is refused inserted nothing. -/
theorem wpInserted_serve (cfg : Config) (i : Request) :
    wpInserted A (serve cfg i) RefusedClean := by
  have hquiet : (∀ e, ¬i.MayStore e) → (∀ g x e, ¬i.MayCommit g x e) →
      wpInserted A (serve cfg i) RefusedClean := by
    intro hstore hcommit
    refine wpOwn_mono (fun own r h => ?_)
      (wpInserted_quiet (uses_mono (fun _ => quiet_of_may hstore hcommit) (serve_uses cfg i)))
    rw [h]
    exact refusedClean_nil r
  cases i with
  | sendMessage sender g ct ttl =>
    exact wpInserted_map (wpOwn_mono (fun _ _ h => h.map _) (wpInserted_sendMessage _ _ _ _))
  | sendWelcome sender g w target =>
    exact wpInserted_map (wpOwn_mono (fun _ _ h => h.map _) (wpInserted_sendWelcome _ _ _ _))
  | sendCommit sender g commit x =>
    exact wpInserted_map (wpOwn_mono (fun _ _ h => h.refusedClean.map _)
      (wpInserted_sendCommit _ _ _ _))
  | forwardEnvelope peer req =>
    exact wpInserted_map (wpOwn_mono (fun _ _ h => h.map _) (wpInserted_forwardEnvelope _ _ _))
  | forwardCommit peer req =>
    cases hg : req.groupId with
    | none =>
      refine hquiet (fun _ h => h) fun g x e h => ?_
      exact absurd (hg.symm.trans h.2.2.2.1) (by simp)
    | some g =>
      exact wpInserted_map (wpOwn_mono (fun _ _ h => h.refusedClean.map _)
        (wpInserted_forwardCommit cfg peer req hg))
  | _ => exact hquiet (fun _ h => h) fun _ _ _ h => h.2.2.2

/-- A request that commits to a group and returns an epoch inserted the Commit of that epoch. -/
theorem wpInserted_commitsTo (cfg : Config) (hi : i.CommitsTo g) :
    wpInserted A (serve cfg i) fun new r => ∀ n, r = .ok (.epoch n) →
      ∃ e, new = [e] ∧ e.groupId = g ∧ e.messageType = .commit ∧ e.epoch = some n := by
  have hmap : ∀ new (r : Except Failure Epoch), CommitOutcome g new r → ∀ n,
      r.map Response.epoch = .ok (.epoch n) →
      ∃ e, new = [e] ∧ e.groupId = g ∧ e.messageType = .commit ∧ e.epoch = some n := by
    intro new r h n hn
    cases r with
    | error f => cases hn
    | ok m =>
      obtain rfl : m = n := Response.epoch.inj (Except.ok.inj hn)
      exact h
  cases i with
  | sendCommit sender g' commit x =>
    obtain rfl := hi
    exact wpInserted_map (wpOwn_mono (fun _ _ h => hmap _ _ h) (wpInserted_sendCommit _ _ _ _))
  | forwardCommit peer req =>
    exact wpInserted_map (wpOwn_mono (fun _ _ h => hmap _ _ h)
      (wpInserted_forwardCommit cfg peer req hi))
  | _ => exact hi.elim

end

/-! ### Every interleaving -/

/-- Parts of which at most one is not empty, and that one has one element. -/
theorem length_flatMap_le_one {α β : Type} {parts : α → List β} {l : List α}
    (hone : ∀ a ∈ l, (parts a).length ≤ 1)
    (hpairs : l.Pairwise fun a b => ∀ x ∈ parts a, ∀ y ∈ parts b, False) :
    (l.flatMap parts).length ≤ 1 := by
  induction l with
  | nil => exact Nat.zero_le 1
  | cons a l ih =>
    rw [forall_mem_cons] at hone
    rw [pairwise_cons] at hpairs
    rw [flatMap_cons]
    cases ha : parts a with
    | nil => exact ih hone.2 hpairs.2
    | cons x xs =>
      have hrest : l.flatMap parts = [] := flatMap_eq_nil_iff.mpr fun b hb =>
        eq_nil_iff_forall_not_mem.mpr (hpairs.1 b hb x (ha ▸ mem_cons_self))
      rw [hrest, append_nil, ← ha]
      exact hone.1

section

variable {cfg : Config} {w₀ : World} {es : List (Turn Request Choice)}
  {p : Pool Request Op Failure Response World} {A : World → Choice → World → Prop}
  {c d : Call Request Op Failure Response World}
  (hrun : Steps (Pool.Step machine A (serve cfg)) ⟨w₀, []⟩ es p)

include hrun in
/-- What a call inserted is part of the history. -/
theorem mem_stored_of_inserted (hc : c ∈ p.calls) (he : e ∈ inserted c.own) :
    e ∈ p.shared.stored := by
  obtain ⟨st, hst, he⟩ := mem_flatMap.mp he
  obtain ⟨new, hnew⟩ := own_past Extends.refl (fun _ _ _ => .trans)
    (fun o c w _ => extends_exec o c w) hrun
    (by simp) c hc st hst
  rw [hnew]
  exact mem_append_left _ (mem_of_mem_drop he)

include hrun in
/-- What a call inserted is what its request may store. -/
theorem may_of_inserted (hc : c ∈ p.calls) (he : e ∈ inserted c.own) : c.request.MayInsert e := by
  obtain ⟨st, hst, he⟩ := mem_flatMap.mp he
  obtain ⟨ω, o, ch, ho, -, hexec⟩ := own_uses (fun i _ => serve_uses cfg i) hrun
    (starts_true es) (by simp) (by simp) c hc st hst
  rw [hexec] at he
  rcases stored_exec_cases ch st.1 ho with hsame | ⟨e', hnew, hmay⟩
  · rw [hsame, drop_length] at he
    exact absurd he not_mem_nil
  · rw [hnew, drop_left] at he
    exact mem_singleton.mp he ▸ hmay

/-- A Commit without an epoch is one that a peer region delivered. -/
theorem epoch_eq_none_iff (ht : e.messageType = .commit)
    (hmay : i.MayInsert e) : e.epoch = none ↔ i.Forwards := by
  rcases hmay with hstore | ⟨g, x, e', hcommit, rfl⟩
  · refine iff_of_true hstore.epoch_eq ?_
    cases i with
    | sendMessage _ _ _ _ | sendWelcome _ _ _ _ =>
      exact absurd (ht.symm.trans hstore.2.2.2.1) (by decide)
    | forwardEnvelope peer req => exact trivial
    | _ => exact hstore.elim
  · refine iff_of_false (by simp) ?_
    cases i with
    | forwardEnvelope peer req => exact fun _ => hcommit.2.2.2
    | _ => exact id

/-- Start from any tables in which the group's row shows the epoch `e₀`, and let any requests be
served in any interleaving, with any failures of the database. At every moment the Commits that
were stored with an epoch are numbered `e₀ + 1, …` up to the epoch of the row, in this order. A
call that commits to the group and returns an epoch inserted exactly the Commit of that epoch; a
call that is refused inserted nothing; and a Commit without an epoch is one that a peer region
delivered. -/
theorem ledger_serial {cfg : Config} {w₀ : World} {g : GroupId} {e₀ : Epoch}
    (hrow : ∃ row ∈ w₀.db.groups, row.id = g ∧ row.epoch = e₀) (hstart : w₀.stored = [])
    {es : List (Turn Request Choice)} {p : Pool Request Op Failure Response World}
    (hrun : Steps (Pool.Step machine Pool.Unrestricted (serve cfg)) ⟨w₀, []⟩ es p) :
    (∃ row ∈ p.shared.db.groups, row.id = g ∧ e₀ ≤ row.epoch ∧
      (p.shared.ledger g).map Envelope.epoch =
        (List.range' (e₀ + 1) (row.epoch - e₀)).map some) ∧
    ∀ c ∈ p.calls,
      (∀ n, c.request.CommitsTo g → c.rest = .pure (.epoch n) →
        ∃ e ∈ p.shared.ledger g, inserted c.own = [e] ∧ e.epoch = some n) ∧
      (∀ f, c.rest = .throw f → f.isInternal = false → inserted c.own = []) ∧
      ∀ e ∈ inserted c.own, e.messageType = .commit → (e.epoch = none ↔ c.request.Forwards) := by
  constructor
  · have hserial : Serial g e₀ p.shared := by
      refine Pool.invariant_run (fun i _ => serve_uses cfg i)
        (fun i ω o c s ho _ h => Serial.exec c ho h) hrun (starts_true es) (by simp) ?_
      obtain ⟨row, hmem, hid, rfl⟩ := hrow
      refine ⟨row, hmem, hid, le_rfl, ?_⟩
      simp [World.ledger, World.commits, hstart]
    exact hserial
  intro c hc
  refine ⟨fun n hi hrest => ?_, fun f hrest hext => ?_, fun e he ht =>
    epoch_eq_none_iff ht (may_of_inserted hrun hc he)⟩
  · obtain ⟨e, hins, hg, ht, hn⟩ :=
      Pool.own_returned hrun hc (r := .ok _) hrest (wpInserted_commitsTo cfg hi) n rfl
    refine ⟨e, ?_, hins, hn⟩
    have hmem := mem_stored_of_inserted hrun hc (hins ▸ mem_singleton_self e)
    simp [World.ledger, World.commits, hmem, hg, ht, hn]
  · exact Pool.own_returned hrun hc (r := .error f) hrest
      (wpInserted_serve cfg c.request) f rfl hext

/-! ### Different calls win different epochs -/

/-- The row of the group does not go away and its epoch does not go back. -/
def World.Advances (g : GroupId) (w w' : World) : Prop :=
  ∀ row ∈ w.db.groups, row.id = g → ∃ row' ∈ w'.db.groups, row'.id = g ∧ row.epoch ≤ row'.epoch

theorem World.Advances.refl (g : GroupId) (w : World) : w.Advances g w :=
  fun row hrow hid => ⟨row, hrow, hid, le_rfl⟩

theorem World.Advances.trans {w w' w'' : World} (h : w.Advances g w') (h' : w'.Advances g w'') :
    w.Advances g w'' := by
  intro row hrow hid
  obtain ⟨row', hrow', hid', hle⟩ := h row hrow hid
  obtain ⟨row'', hrow'', hid'', hle'⟩ := h' row' hrow' hid'
  exact ⟨row'', hrow'', hid'', hle.trans hle'⟩

theorem advances_setEpoch {w : World} {db : Db} {g g' : GroupId}
    (hrow : ∃ row ∈ w.db.groups, row.id = g' ∧ row.epoch = x)
    (hgroups : db.groups = (w.db.setEpoch g' (x + 1)).groups) : w.Advances g (w.store db) := by
  obtain ⟨row', hmem', hid', rfl⟩ := hrow
  intro row hmem hid
  by_cases hg : row.id = g'
  · obtain rfl : row = row' := Table.eq_of_key hmem hmem' (hg.trans hid'.symm)
    refine ⟨{ row with epoch := row.epoch + 1 }, ?_, hid, Nat.le_succ _⟩
    rw [db_store, hgroups]
    exact Db.mem_setEpoch.mpr ⟨row, hmem, if_pos hg⟩
  · refine ⟨row, ?_, hid, le_rfl⟩
    rw [db_store, hgroups]
    exact Db.mem_setEpoch.mpr ⟨row, hmem, if_neg hg⟩

theorem advances_exec (g : GroupId) {ω : Type} (o : Op ω) (c : Choice) (w : World) :
    w.Advances g (machine.exec o c w).2 := by
  refine exec_rel (K := fun _ => True) (.refl g) (fun _ _ _ h => h) (fun q w b db _ hrun => ?_)
    trivial c w
  cases hq : q.advancesEpoch with
  | false => exact fun row hrow hid => ⟨row, (frame hrun).groups hq row hrow, hid, le_rfl⟩
  | true =>
    cases q with
    | commitEpochAndSave g' x e =>
      obtain ⟨-, rfl⟩ | ⟨-, -, hrow, rfl⟩ := Db.commitEpochAndSave_ok hrun
      · exact .refl g w
      · exact advances_setEpoch hrow rfl
    | _ => exact absurd hq (by simp [advancesEpoch])

/-- An operation that inserts a Commit with an epoch moves the row of the group to that epoch. -/
theorem row_of_inserted {ω : Type} {o : Op ω} {c : Choice} {w : World} (ho : Request.May cfg i o)
    (he : e ∈ (machine.exec o c w).2.stored.drop w.stored.length) (hn : e.epoch = some n) :
    (∃ row ∈ w.db.groups, row.id = e.groupId ∧ row.epoch < n) ∧
      ∃ row ∈ (machine.exec o c w).2.db.groups, row.id = e.groupId ∧ row.epoch = n := by
  have hnone : ∀ {w w' : World}, w'.stored = w.stored → e ∉ w'.stored.drop w.stored.length := by
    intro w w' hsame
    rw [hsame, drop_length]
    exact not_mem_nil
  refine exec_rel (R := fun w w' => e ∈ w'.stored.drop w.stored.length →
      (∃ row ∈ w.db.groups, row.id = e.groupId ∧ row.epoch < n) ∧
      ∃ row ∈ w'.db.groups, row.id = e.groupId ∧ row.epoch = n)
    (fun _ he => absurd he (hnone rfl)) (fun _ _ _ h => h) (fun q w b db ho hrun he => ?_) ho c w he
  cases records_of_run ho hrun with
  | quiet hsame => exact absurd he (hnone hsame)
  | saved e' hmay hnew =>
    rw [hnew, drop_left] at he
    obtain rfl := mem_singleton.mp he
    exact absurd (hn.symm.trans hmay.epoch_eq) (by simp)
  | won g x e' hmay hrow hnew hgroups =>
    rw [hnew, drop_left] at he
    obtain rfl := mem_singleton.mp he
    obtain rfl : x + 1 = n := Option.some.inj hn
    obtain ⟨row, hrow, hid, hx⟩ := hrow
    have hid' : row.id = e'.groupId := hid.trans hmay.1.symm
    refine ⟨⟨row, hrow, hid', hx ▸ Nat.lt_succ_self _⟩, { row with epoch := x + 1 }, ?_, hid', rfl⟩
    rw [db_store, hgroups]
    exact Db.mem_setEpoch.mpr ⟨row, hrow, if_pos hid⟩

include hrun in
/-- An operation does not insert a Commit of an epoch that was inserted before. -/
theorem not_inserted_later {e' : Envelope} (hc : c ∈ p.calls) (hd : d ∈ p.calls)
    {st st' : World × World} (hst : st ∈ c.own) (hst' : st' ∈ d.own)
    (hlater : st.2.Advances g st'.1) (he : e ∈ inserted [st]) (he' : e' ∈ inserted [st'])
    (hg : e.groupId = g) (hg' : e'.groupId = g) (hn : e.epoch = some n) :
    e'.epoch ≠ some n := by
  intro hn'
  have huses := own_uses (fun i _ => serve_uses cfg i) hrun (starts_true es) (by simp) (by simp)
  obtain ⟨ω, o, ch, ho, -, hexec⟩ := huses c hc st hst
  obtain ⟨ω', o', ch', ho', -, hexec'⟩ := huses d hd st' hst'
  rw [inserted_singleton, hexec] at he
  rw [inserted_singleton, hexec'] at he'
  obtain ⟨-, row, hrow, hid, rfl⟩ := row_of_inserted ho he hn
  obtain ⟨⟨row', hrow', hid', hlt⟩, -⟩ := row_of_inserted ho' he' hn'
  obtain ⟨row'', hrow'', hid'', hle⟩ := hlater row (hexec ▸ hrow) (hid.trans hg)
  obtain rfl : row'' = row' := Table.eq_of_key hrow'' hrow' (hid''.trans (hid'.trans hg').symm)
  exact absurd hlt (Nat.not_lt.mpr hle)

include hrun in
theorem ordered_served (g : GroupId) : p.Ordered (World.Advances g) :=
  Pool.Ordered.run (Advances.refl g) (fun _ _ _ => .trans)
    (fun o c w _ => advances_exec g o c w) hrun (ordered_initial w₀)

include hrun in
/-- Two calls never insert Commits of the same group and epoch. -/
theorem inserted_epochs_distinct {e' : Envelope} {k l : ℕ} (hkl : k ≠ l)
    (hc : p.calls[k]? = some c) (hd : p.calls[l]? = some d) (he : e ∈ inserted c.own)
    (he' : e' ∈ inserted d.own) (hg : e.groupId = g) (hg' : e'.groupId = g)
    (hn : e.epoch = some n) : e'.epoch ≠ some n := by
  intro hn'
  obtain ⟨st, hst, he⟩ := mem_flatMap.mp he
  obtain ⟨st', hst', he'⟩ := mem_flatMap.mp he'
  rw [← inserted_singleton] at he he'
  have hmem := mem_of_getElem? hc
  have hmem' := mem_of_getElem? hd
  rcases (ordered_served hrun g).ordered k l hkl st (ownOf_eq hc ▸ hst) st'
    (ownOf_eq hd ▸ hst') with h | h
  · exact not_inserted_later hrun hmem hmem' hst hst' h he he' hg hg' hn hn'
  · exact not_inserted_later hrun hmem' hmem hst' hst h he' he hg' hg hn' hn

include hrun in
/-- Two calls that commit to one group never return the same epoch. -/
theorem returned_epochs_distinct {k l : ℕ} (hkl : k ≠ l) (hc : p.calls[k]? = some c)
    (hd : p.calls[l]? = some d) (hic : c.request.CommitsTo g) (hid : d.request.CommitsTo g)
    (hcn : c.rest = .pure (.epoch n)) (hdn : d.rest = .pure (.epoch n)) : False := by
  obtain ⟨e, he, hg, -, hn⟩ := own_returned hrun (mem_of_getElem? hc) (r := .ok _) hcn
    (wpInserted_commitsTo cfg hic) n rfl
  obtain ⟨e', he', hg', -, hn'⟩ := own_returned hrun (mem_of_getElem? hd) (r := .ok _) hdn
    (wpInserted_commitsTo cfg hid) n rfl
  exact inserted_epochs_distinct hrun hkl hc hd (he ▸ mem_singleton_self e)
    (he' ▸ mem_singleton_self e') hg hg' hn hn'

include hrun in
/-- A call inserts at most one Commit of a group and epoch. -/
theorem length_inserted_le_one {k : ℕ} (hc : p.calls[k]? = some c)
    (hall : ∀ e ∈ inserted c.own, e.groupId = g ∧ e.epoch = some n) :
    (inserted c.own).length ≤ 1 := by
  have hmem := mem_of_getElem? hc
  refine length_flatMap_le_one (fun st hst => ?_) ?_
  · obtain ⟨ω, o, ch, ho, -, hexec⟩ := own_uses (fun i _ => serve_uses cfg i) hrun
      (starts_true es) (by simp) (by simp) c hmem st hst
    rw [hexec]
    rcases stored_exec_cases ch st.1 ho with hsame | ⟨e, hnew, -⟩
    · simp [hsame]
    · simp [hnew]
  · refine Pairwise.imp_of_mem ?_ (ownOf_eq hc ▸ (ordered_served hrun g).own k)
    intro st st' hst hst' h e he e' he'
    obtain ⟨hg, hn⟩ := hall e (mem_flatMap.mpr ⟨st, hst, he⟩)
    obtain ⟨hg', hn'⟩ := hall e' (mem_flatMap.mpr ⟨st', hst', he'⟩)
    rw [← inserted_singleton] at he he'
    exact not_inserted_later hrun hmem hmem hst hst' h he he' hg hg' hn hn'

end

/-! ### A concrete server -/

/-- A server in the region `eu`. -/
def Sample.config : Config := ⟨"eu", true⟩

/-- One device, member of a group whose home is the region `us`. -/
def Sample.world : World where
  db := { Db.empty with
    users := Table.insertNew ⟨1, [], [], none⟩ ∅
    devices := Table.insertNew ⟨7, 1, []⟩ ∅
    groups := Table.insertNew ⟨1, "us", 0, 0⟩ ∅
    members := Table.insertNew ⟨1, 7, 0⟩ ∅ }
  stored := []

/-- The home region delivers a Commit of the device. -/
def Sample.delivery : Request :=
  .forwardEnvelope (.certificate (some ["us"]))
    ⟨some 9, some 1, some 7, none, [1], some .commit, none⟩

open Sample

/-- A Commit that a peer region delivers is stored although the epoch of the group stays where it
was: it is not numbered. -/
theorem delivered_commit_unnumbered : ∃ p,
    Steps (Pool.Step machine Pool.Unrestricted (serve config)) ⟨world, []⟩
      (.start delivery :: List.replicate 4 (.act 0 .plain)) p ∧
    (p.shared.commits 1).length = 1 ∧ ∀ row ∈ p.shared.db.groups.rows, row.id = 1 →
    row.epoch = 0 := by
  exact Pool.exists_steps_of_play ..

/-- The device commits while the home region delivers another of its Commits. -/
def Sample.commits : List (Turn Request Choice) :=
  [.start (.sendCommit 7 1 [2] 0), .start delivery] ++
    List.replicate 4 (.act 0 { Choice.plain with uuid := 10 }) ++
    List.replicate 4 (.act 1 .plain) ++ [.act 0 .plain]

theorem ledger_serial_sample : ∃ p,
    Steps (Pool.Step machine Pool.Unrestricted (serve config)) ⟨world, []⟩
      commits p ∧
    (p.shared.commits 1).length = 2 ∧
    ∃ row ∈ p.shared.db.groups, row.id = 1 ∧ 0 ≤ row.epoch ∧
      (p.shared.ledger 1).map Envelope.epoch =
        (List.range' (0 + 1) (row.epoch - 0)).map some := by
  obtain ⟨p, hrun, htest⟩ :=
    Pool.exists_steps_of_play machine (serve config) ⟨world, []⟩ commits fun p =>
      (p.shared.commits 1).length = 2
  have hrow : ∃ row ∈ world.db.groups, row.id = 1 ∧ row.epoch = 0 :=
    ⟨⟨1, "us", 0, 0⟩, Table.mem_insertNew.mpr (.inr ⟨rfl, rfl⟩), rfl, rfl⟩
  exact ⟨p, hrun, htest, (ledger_serial hrow rfl hrun).1⟩

end Powehi.Server
