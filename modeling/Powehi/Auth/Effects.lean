import Powehi.Auth.Calls
import Powehi.Semantics.Fallible

/-!
# What an operation does to the cache and to device rows

Every operation lets time pass first. After that, an entry appears only when it is written, and a
set loses a member only when it is taken out or the set is deleted.
-/

namespace Powehi.Auth

open Codec Semantics Server Expiring

namespace World

/-- The token stands for the device. -/
def Alive (w : World) (t : Token) (d : DeviceId) : Prop := w.entry (.session t) = some (.uuid d)

/-- The token is in the session index of the device. -/
def Listed (w : World) (t : Token) (d : DeviceId) : Prop :=
  .session t ∈ w.index (.deviceSessions d)

/-- There is no row for the device. -/
def Gone (w : World) (d : DeviceId) : Prop := w.device d = none

instance (w : World) (t : Token) (d : DeviceId) : Decidable (w.Alive t d) :=
  inferInstanceAs (Decidable (_ = _))

instance (w : World) (d : DeviceId) : Decidable (w.Gone d) := inferInstanceAs (Decidable (_ = _))

variable {w : World} {t : Token} {d : DeviceId} {k : Key} {s : SetKey} {v : Value} {e : Time}

theorem entry_of_tick (h : (w.tick e).entry k = some v) : w.entry k = some v :=
  get?_of_le (Nat.le_add_right _ _) h

/-- The world after a cache call took effect. -/
def afterCache {β : Type} (w : World) (q : CacheQuery β) : World :=
  { w with cache := (q.run w.cache).2 }

end World

/-! ### One operation -/

section Exec

variable {β ω : Type} {c : Choice} {w : World}

/-- A cache call takes effect, or reports a failure before. -/
theorem exec_cache (q : CacheQuery β) (c : Choice) (w : World) :
    (machine.exec (.cache q) c w).2 = (w.tick c.elapsed).afterCache q ∨
    (machine.exec (.cache q) c w).2 = w.tick c.elapsed ∧ c.fault = some .before := by
  rcases attempted_cases (runCache q) c w with ⟨hw, e, -, hfault | hrun⟩ | ⟨b, w', hrun, hw, -⟩
  · exact .inr ⟨hw, hfault⟩
  · cases hrun
  · obtain rfl := state_of_ok hrun
    exact .inl hw

/-- Without a failure a cache call answers and takes effect. -/
theorem exec_cache_ok (q : CacheQuery β) (hc : c.fault = none) :
    machine.exec (.cache q) c w =
      (.ok (q.run (w.tick c.elapsed).cache).1, (w.tick c.elapsed).afterCache q) := by
  simp [machine, attempted, hc, runCache, World.afterCache]

/-- A repository call that meets a failure reports it. -/
theorem exec_sql_fault (q : Query β) (hc : c.fault ≠ none) :
    ∃ e, (machine.exec (.sql q) c w).1 = .error e := by
  change ∃ e, (attempted (runSql q) c w).1 = .error e
  unfold attempted
  cases hfault : c.fault with
  | none => exact absurd hfault hc
  | some f =>
    cases f with
    | before => exact ⟨.internal c.message, by simp⟩
    | after =>
      cases hrun : runSql q (w.tick c.elapsed) with
      | error e => exact ⟨e, by simp [hrun]⟩
      | ok out => exact ⟨.internal c.message, by simp [hrun]⟩

theorem exec_sql_cache (q : Query β) (c : Choice) (w : World) :
    (machine.exec (.sql q) c w).2.cache = (w.tick c.elapsed).cache := by
  rcases attempted_cases (runSql q) c w with ⟨hw, -⟩ | ⟨b, w', hrun, hw, -⟩
  · exact congrArg World.cache hw
  · refine (congrArg World.cache hw).trans ?_
    unfold runSql at hrun
    split at hrun
    · cases hrun
    · obtain rfl := state_of_ok hrun
      rfl

/-- A repository call without a failure of the environment. -/
theorem exec_sql_ok {q : Query β} {b : β} {db : Db} (hc : c.fault = none)
    (hrun : q.run (w.tick c.elapsed).db = .ok (b, db)) :
    machine.exec (.sql q) c w =
      (.ok b, { w.tick c.elapsed with db, saved := w.saved ++ savedBy q }) := by
  simp only [machine, attempted, hc, runSql, hrun]
  rfl

/-- A repository call changes nothing, or leaves the database of its transaction. -/
theorem exec_sql_db (q : Query β) (c : Choice) (w : World) :
    (machine.exec (.sql q) c w).2 = w.tick c.elapsed ∨
    ∃ b db, q.run (w.tick c.elapsed).db = .ok (b, db) ∧ (machine.exec (.sql q) c w).2 =
      { w.tick c.elapsed with db, saved := w.saved ++ savedBy q } := by
  rcases attempted_cases (runSql q) c w with ⟨hw, -⟩ | ⟨b, w', hrun, hw, -⟩
  · exact .inl hw
  · unfold runSql at hrun
    split at hrun
    · cases hrun
    · next b' db hq =>
      obtain rfl := state_of_ok hrun
      exact .inr ⟨b', db, hq, hw⟩

/-- A cache call that succeeds took effect. -/
theorem exec_cache_eq {q : CacheQuery β} {b : β} (h : (machine.exec (.cache q) c w).1 = .ok b) :
    b = (q.run (w.tick c.elapsed).cache).1 ∧
      (machine.exec (.cache q) c w).2 = (w.tick c.elapsed).afterCache q := by
  rcases attempted_cases (runCache q) c w with ⟨-, e, he, -⟩ | ⟨b', w', hrun, hw, hb | ⟨-, e, he⟩⟩
  · cases h.symm.trans he
  · obtain rfl := Except.ok.inj (h.symm.trans hb)
    obtain ⟨hb', hw'⟩ := Prod.mk.inj (Except.ok.inj hrun)
    exact ⟨hb'.symm, hw.trans hw'.symm⟩
  · cases h.symm.trans he

/-- A repository call that succeeds took effect. -/
theorem exec_sql_eq {q : Query β} {b : β} (h : (machine.exec (.sql q) c w).1 = .ok b) :
    ∃ db, q.run (w.tick c.elapsed).db = .ok (b, db) ∧ (machine.exec (.sql q) c w).2 =
      { w.tick c.elapsed with db, saved := w.saved ++ savedBy q } := by
  rcases attempted_cases (runSql q) c w with ⟨-, e, he, -⟩ | ⟨b', w', hrun, hw, hb | ⟨-, e, he⟩⟩
  · cases h.symm.trans he
  · obtain rfl := Except.ok.inj (h.symm.trans hb)
    unfold runSql at hrun
    split at hrun
    · cases hrun
    · next b'' db hq =>
      obtain ⟨rfl, rfl⟩ := Prod.mk.inj (Except.ok.inj hrun)
      exact ⟨db, hq, hw⟩
  · cases h.symm.trans he

/-- A cache call has no errors but the failures of the environment. -/
theorem exec_cache_error {q : CacheQuery β} {e : DomainError}
    (h : (machine.exec (.cache q) c w).1 = .error e) : e = .internal c.message := by
  change (attempted (runCache q) c w).1 = .error e at h
  unfold attempted at h
  split at h
  · exact (Except.error.inj h).symm
  · split at h
    · exact (Except.error.inj h).symm
    · cases h

/-- A repository call that cannot fail by itself has no other errors either. -/
theorem exec_sql_error {q : Query β} {e : DomainError} {b : β} {db : Db}
    (hrun : q.run (w.tick c.elapsed).db = .ok (b, db))
    (h : (machine.exec (.sql q) c w).1 = .error e) : e = .internal c.message := by
  change (attempted (runSql q) c w).1 = .error e at h
  unfold attempted at h
  simp only [runSql, hrun] at h
  split at h
  · exact (Except.error.inj h).symm
  · split at h
    · exact (Except.error.inj h).symm
    · cases h

end Exec

/-! ### Entries and indexes -/

section Cache

variable {ω : Type} {o : Op ω} {c : Choice} {w : World} {k x : Key} {v : Value} {s : SetKey}

/-- The operation writes the value at the key. -/
def Stores (k : Key) (v : Value) : {ω : Type} → Op ω → Prop
  | _, .cache (.set k' v' _) => k' = k ∧ v' = v
  | _, _ => False

/-- The operation deletes the key. -/
def Deletes (k : Key) : {ω : Type} → Op ω → Prop
  | _, .cache (.delete k') => k' = k
  | _, _ => False

/-- The operation adds the member to the set. -/
def Adds (s : SetKey) (x : Key) : {ω : Type} → Op ω → Prop
  | _, .cache (.setAdd s' x') => s' = s ∧ x' = x
  | _, _ => False

/-- The operation can take members out of the set. -/
def Shrinks (s : SetKey) : {ω : Type} → Op ω → Prop
  | _, .cache (.setRemove s' _) => s' = s
  | _, .cache (.deleteSet s') => s' = s
  | _, _ => False

/-- The operation reads the members of the set. -/
def Reads (s : SetKey) : {ω : Type} → Op ω → Prop
  | _, .cache (.setMembers s') => s' = s
  | _, _ => False

theorem entry_of_afterCache {β : Type} {q : CacheQuery β} (h : (w.afterCache q).entry k = some v) :
    w.entry k = some v ∨ Stores k v (.cache q) := by
  cases q with
  | set k' v' ttl =>
    by_cases hk : k = k'
    · subst hk
      exact .inr ⟨rfl, (eq_of_get?_set h).symm⟩
    · exact .inl ((get?_set_ne hk).symm.trans h)
  | delete k' =>
    by_cases hk : k = k'
    · subst hk
      exact absurd (h.symm.trans get?_delete_self) (by simp)
    · exact .inl ((get?_delete_ne hk).symm.trans h)
  | getDel k' =>
    by_cases hk : k = k'
    · subst hk
      exact absurd (h.symm.trans get?_delete_self) (by simp)
    · exact .inl ((get?_delete_ne hk).symm.trans h)
  | _ => exact .inl h

/-- An entry that is there was there before, or was just written. -/
theorem entry_of_exec (h : (machine.exec o c w).2.entry k = some v) :
    (w.tick c.elapsed).entry k = some v ∨ Stores k v o := by
  cases o with
  | newUuid | opaqueKe _ => exact .inl h
  | sql q =>
    left
    unfold World.entry at *
    rwa [exec_sql_cache] at h
  | cache q =>
    rcases exec_cache q c w with hw | ⟨hw, -⟩
    · rw [hw] at h
      exact entry_of_afterCache h
    · rw [hw] at h
      exact .inl h

/-- A deleted entry is not there. -/
theorem entry_of_deletes (ho : Deletes k o) (hc : c.fault = none) :
    (machine.exec o c w).2.entry k = none := by
  cases o with
  | newUuid | opaqueKe _ | sql _ => exact ho.elim
  | cache q =>
    cases q with
    | delete k' =>
      obtain rfl : k' = k := ho
      rw [exec_cache_ok _ hc]
      exact get?_delete_self
    | _ => exact ho.elim

theorem index_afterCache {β : Type} {q : CacheQuery β} (h : x ∈ w.index s) :
    x ∈ (w.afterCache q).index s ∨ Shrinks s (.cache q) := by
  cases q with
  | setAdd s' x' =>
    left
    by_cases hs : s = s'
    · subst hs
      exact mem_members_add.mpr (.inr h)
    · change x ∈ (w.cache.sets.add w.cache.now s' x').members w.cache.now s
      rwa [members_add_ne hs]
  | setRemove s' x' =>
    by_cases hs : s = s'
    · exact .inr hs.symm
    · left
      change x ∈ (w.cache.sets.remove w.cache.now s' x').members w.cache.now s
      rwa [members_remove_ne hs]
  | setExpire s' ttl =>
    left
    have hlt : w.cache.now < w.cache.now + atLeastOneSecond ttl := by
      simp [atLeastOneSecond, seconds]
    change x ∈ (w.cache.sets.expire w.cache.now s' _).members w.cache.now s
    rwa [members_expire hlt]
  | deleteSet s' =>
    by_cases hs : s = s'
    · exact .inr hs.symm
    · left
      change x ∈ (w.cache.sets.delete s').members w.cache.now s
      rwa [members_delete_ne hs]
  | _ => exact .inl h

/-- A member stays in its set, unless it is taken out. -/
theorem index_exec (h : x ∈ (w.tick c.elapsed).index s) :
    x ∈ (machine.exec o c w).2.index s ∨ Shrinks s o := by
  cases o with
  | newUuid | opaqueKe _ => exact .inl h
  | sql q =>
    left
    unfold World.index at *
    rwa [exec_sql_cache]
  | cache q =>
    rcases exec_cache q c w with hw | ⟨hw, -⟩
    · rw [hw]
      exact index_afterCache h
    · rw [hw]
      exact .inl h

theorem index_of_adds (ho : Adds s x o) (hc : c.fault = none) :
    x ∈ (machine.exec o c w).2.index s := by
  cases o with
  | newUuid | opaqueKe _ | sql _ => exact ho.elim
  | cache q =>
    cases q with
    | setAdd s' x' =>
      obtain ⟨rfl, rfl⟩ := ho
      rw [exec_cache_ok _ hc]
      exact mem_members_add.mpr (.inl rfl)
    | _ => exact ho.elim

end Cache

/-! ### Device rows -/

section Devices

variable {ω : Type} {o : Op ω} {c : Choice} {w : World} {d : DeviceId}

/-- The operation deletes the row of the device. -/
def DeletesDevice (d : DeviceId) : {ω : Type} → Op ω → Prop
  | _, .sql (.deleteDevice d') => d' = d
  | _, _ => False

theorem gone_of_deletesDevice (ho : DeletesDevice d o) (hc : c.fault = none) :
    (machine.exec o c w).2.Gone d := by
  cases o with
  | newUuid | opaqueKe _ | cache _ => exact ho.elim
  | sql q =>
    cases q with
    | deleteDevice d' =>
      obtain rfl : d' = d := ho
      rw [exec_sql_ok hc rfl]
      exact Table.find?_eq_none.mpr fun r hr hid => by
        have hkept := (Table.mem_deleteWhere.mp hr).2
        simp [hid] at hkept
    | _ => exact ho.elim

end Devices

end Powehi.Auth
