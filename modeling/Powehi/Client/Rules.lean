import Powehi.Client.Records

/-!
# Rules for the client's operations

Each operation of the client with what it can do to a world, as a rule for weakest preconditions.
There are two sets of rules: for any environment, where every operation may also fail, and for a
healthy one, where nothing fails.
-/

namespace Powehi.Client

open Codec Server Semantics Program

variable {L : Libraries} {ε α β : Type} {A : Choice L → Prop} {C : World L → Prop} {w : World L}
variable {n : Name} {Q : Except Error Unit → World L → Prop}

/-! ### Worlds -/

namespace World

@[simp] theorem profile_record (w : World L) (e : Event L) : (w.record e).profile = w.profile := rfl

@[simp] theorem profile_write (w : World L) (n : Name) (v : n.Value L) :
    (w.write n v).profile = w.profile.put n v := rfl

@[simp] theorem profile_erase (w : World L) (n : Name) :
    (w.erase n).profile = w.profile.remove n := rfl

end World

/-- What a write leaves as it is under every fault. -/
theorem Fault.apply_keeps {σ β : Type} {f : Fault} {done : σ → σ} {s : σ} (view : σ → β)
    (h : view (done s) = view s) : view (f.apply done s).2 = view s := by
  cases f with
  | none | doneButFailed => exact h
  | failed => rfl

/-- What a request to the server leaves as it is, whether or not it gets there. -/
theorem Choice.send_keeps {α β : Type} {c : Choice L} {serve : World L → Except Error α × World L}
    {w : World L} (view : World L → β) (h : view (serve w).2 = view w) :
    view (c.send serve w).2 = view w := by
  unfold Choice.send
  split
  · exact h
  · rfl

/-! ### Any environment -/

/-- What is asked for the case that a call to the store fails. -/
abbrev OnFault (A : Choice L → Prop) (P : Prop) : Prop := ∀ c, A c → c.store ≠ .none → P

/-- Reading a record. What follows when the store fails is asked for only if it can fail. -/
theorem wp_read {Q : Except Error (Option (n.Value L)) → World L → Prop} (hC : C w)
    (hok : Q (.ok (w.profile.records n)) w)
    (herr : OnFault A (Q (.error .store) w)) : wp (machine L) A (get n) Q C w := by
  rw [get, wp_request]
  refine ⟨hC, fun c hc => ⟨hC, ?_⟩⟩
  change Q (if c.store = .none then .ok (w.profile.records n) else .error .store) w
  split
  · exact hok
  · next h => exact herr c hc h

theorem wp_readNames {Q : Except Error (List Name) → World L → Prop} (hC : C w)
    (hok : Q (.ok w.profile.names) w) (herr : OnFault A (Q (.error .store) w)) :
    wp (machine L) A names Q C w := by
  rw [names, wp_request]
  refine ⟨hC, fun c hc => ⟨hC, ?_⟩⟩
  change Q (if c.store = .none then .ok w.profile.names else .error .store) w
  split
  · exact hok
  · next h => exact herr c hc h

theorem wp_write {v : n.Value L} (hC : C w) (hC' : C (w.write n v)) (hok : Q (.ok ()) (w.write n v))
    (herr : OnFault A (Q (.error .store) w ∧ Q (.error .store) (w.write n v))) :
    wp (machine L) A (put n v) Q C w := by
  rw [put, wp_request]
  refine ⟨hC, fun c hc => ?_⟩
  change C (c.store.apply (·.write n v) w).2 ∧
    Q (c.store.apply (·.write n v) w).1 (c.store.apply (·.write n v) w).2
  cases hs : c.store with
  | none => exact ⟨hC', hok⟩
  | failed => exact ⟨hC, (herr c hc (by simp [hs])).1⟩
  | doneButFailed => exact ⟨hC', (herr c hc (by simp [hs])).2⟩

theorem wp_erase (hC : C w) (hC' : C (w.erase n)) (hok : Q (.ok ()) (w.erase n))
    (herr : OnFault A (Q (.error .store) w ∧ Q (.error .store) (w.erase n))) :
    wp (machine L) A (remove n) Q C w := by
  rw [remove, wp_request]
  refine ⟨hC, fun c hc => ?_⟩
  change C (c.store.apply (·.erase n) w).2 ∧
    Q (c.store.apply (·.erase n) w).1 (c.store.apply (·.erase n) w).2
  cases hs : c.store with
  | none => exact ⟨hC', hok⟩
  | failed => exact ⟨hC, (herr c hc (by simp [hs])).1⟩
  | doneButFailed => exact ⟨hC', (herr c hc (by simp [hs])).2⟩

theorem wp_get {Q : Except Error (Option (n.Value L)) → World L → Prop} (hC : C w)
    (hok : Q (.ok (w.profile.records n)) w) (herr : Q (.error .store) w) :
    wp (machine L) A (get n) Q C w := wp_read hC hok fun _ _ _ => herr

theorem wp_names {Q : Except Error (List Name) → World L → Prop} (hC : C w)
    (hok : Q (.ok w.profile.names) w) (herr : Q (.error .store) w) :
    wp (machine L) A names Q C w := wp_readNames hC hok fun _ _ _ => herr

theorem wp_put {v : n.Value L} (hC : C w) (hC' : C (w.write n v)) (hok : Q (.ok ()) (w.write n v))
    (herr : Q (.error .store) w) (herr' : Q (.error .store) (w.write n v)) :
    wp (machine L) A (put n v) Q C w :=
  wp_write hC hC' hok fun _ _ _ => ⟨herr, herr'⟩

theorem wp_remove (hC : C w) (hC' : C (w.erase n)) (hok : Q (.ok ()) (w.erase n))
    (herr : Q (.error .store) w) (herr' : Q (.error .store) (w.erase n)) :
    wp (machine L) A (remove n) Q C w :=
  wp_erase hC hC' hok fun _ _ _ => ⟨herr, herr'⟩

theorem wp_ensure {b : Bool} {e : ε} {Q : Except ε Unit → World L → Prop} (hC : C w)
    (hok : b = true → Q (.ok ()) w) (herr : b = false → Q (.error e) w) :
    wp (machine L) A (ensure b e) Q C w := by
  cases b with
  | true => exact ⟨hC, hok rfl⟩
  | false => exact ⟨hC, herr rfl⟩

/-! ### A healthy environment -/

/-- Nothing fails: every request is answered, and nothing arrives or expires in the meantime. -/
structure Healthy (c : Choice L) : Prop where
  store : c.store = .none
  reached : c.reached = true
  failure : c.failure = none
  arrivals : c.arrivals = []
  invited : c.invited = []
  expired : c.expired = []
  written : c.written = true
  entered : c.entered = true

namespace Healthy

theorem default : Healthy ({} : Choice L) := ⟨rfl, rfl, rfl, rfl, rfl, rfl, rfl, rfl⟩

theorem get {Q : Except Error (Option (n.Value L)) → World L → Prop} (hC : C w)
    (hok : Q (.ok (w.profile.records n)) w) : wp (machine L) Healthy (get n) Q C w :=
  wp_read hC hok fun _ hc h => absurd hc.store h

theorem names {Q : Except Error (List Name) → World L → Prop} (hC : C w)
    (hok : Q (.ok w.profile.names) w) : wp (machine L) Healthy names Q C w :=
  wp_readNames hC hok fun _ hc h => absurd hc.store h

theorem put {v : n.Value L} (hC : C w) (hC' : C (w.write n v)) (hok : Q (.ok ()) (w.write n v)) :
    wp (machine L) Healthy (put n v) Q C w := wp_write hC hC' hok fun _ hc h => absurd hc.store h

theorem remove (hC : C w) (hC' : C (w.erase n)) (hok : Q (.ok ()) (w.erase n)) :
    wp (machine L) Healthy (remove n) Q C w := wp_erase hC hC' hok fun _ hc h => absurd hc.store h

end Healthy

end Powehi.Client
