import Powehi.Store.Stored

/-!
# Crash consistency

Whatever calls a profile has seen, and wherever they were cut off, the next `open` succeeds
and exposes the records the specification allows: those of every completed call, with each
interrupted one applied as a whole or not at all.
-/

namespace Powehi.Store

open Codec Semantics Program

section

variable {cr : Crypto} {st : ProfileStore} {N : Set Bytes} {s : World}
  {profile exportKey : Bytes} {pw : PasswordKek} {m : Map Bytes}

/-! ### Every run -/

/-- The session holds the records of `m`, on disk and in the handle if there is one. -/
structure SessionHolds (cr : Crypto) (profile : Bytes) (u : Unlocker) (N : Set Bytes)
    (s : Session) (m : Map Bytes) : Prop where
  stored : Stored cr profile u N s.world.disk m
  live : ∀ st, s.handle = some st → Live cr profile u N st s.world m

theorem OpenUnder.sessionHolds {u : Unlocker} (h : Live cr profile u N st s m) :
    SessionHolds cr profile u N ⟨s, some st⟩ m := by
  refine ⟨h.toStored, ?_⟩
  rintro _ ⟨⟩
  exact h

theorem Stored.sessionHolds {u : Unlocker} (h : Stored cr profile u N s.disk m) :
    SessionHolds cr profile u N ⟨s, none⟩ m :=
  ⟨h, nofun⟩

/-- Every step is one the specification allows. -/
theorem Step.matched (hu : Derives cr exportKey pw) (hvalid : validProfileName profile = true)
    (hI : InternalIn N) {a b : Session} {e : Event} (hname : ∀ n ∈ e.name?, n ∈ N)
    (hstep : Step cr profile exportKey (Reliable cr profile N) a e b)
    (h : SessionHolds cr profile (.password exportKey pw) N a m) :
    ∃ m', e.Allows m m' ∧ SessionHolds cr profile (.password exportKey pw) N b m' := by
  cases hstep with
  | opened hf hrun =>
    obtain ⟨st, hok, hlive⟩ := wp_outcome (wp_openStore hu hvalid hI h.stored) hf hrun
    cases hok
    exact ⟨m, rfl, hlive.sessionHolds⟩
  | openCut hf hcut =>
    have hstored := wp_crashStates (wp_openStore hu hvalid hI h.stored) hf _ hcut
    exact ⟨m, rfl, hstored.sessionHolds⟩
  | @put f st t name payload r hst hf hrun =>
    have hlive := wp_outcome
      (wp_put_open payload Reliable.faultFree hI (hname _ rfl) (h.live _ hst)) hf hrun
    exact ⟨_, rfl, hlive.sessionHolds⟩
  | putCut hst hf hcut =>
    have hstored := wp_crashStates
      (wp_put_open _ Reliable.faultFree hI (hname _ rfl) (h.live _ hst)) hf _ hcut
    rcases hstored with hstored | hstored
    · exact ⟨m, .inl rfl, Stored.sessionHolds (.inr hstored)⟩
    · exact ⟨_, .inr rfl, Stored.sessionHolds (.inr hstored)⟩
  | removed hst hf hrun =>
    have hlive := wp_outcome
      (wp_remove_open Reliable.faultFree (hname _ rfl) (h.live _ hst)) hf hrun
    exact ⟨_, rfl, hlive.sessionHolds⟩
  | removeCut hst hf hcut =>
    have hstored := wp_crashStates
      (wp_remove_open Reliable.faultFree (hname _ rfl) (h.live _ hst)) hf _ hcut
    rcases hstored with hstored | hstored
    · exact ⟨m, .inl rfl, Stored.sessionHolds (.inr hstored)⟩
    · exact ⟨_, .inr rfl, Stored.sessionHolds (.inr hstored)⟩

/-- After any run of `open`, `put` and `remove` in which any call may have been cut off, the next
`open` with the same key succeeds and exposes a map the specification allows; so does the
handle, while there is one. -/
theorem open_after_crashes (hkey : exportKey.length = exportKeyLen)
    (hvalid : validProfileName profile = true) (hI : InternalIn N) {s₀ : World}
    (hblank : Blank s₀.disk.home) {es : List Event} (hnames : ∀ e ∈ es, ∀ n ∈ e.name?, n ∈ N)
    {a : Session}
    (hrun : Steps (Step cr profile exportKey (Reliable cr profile N)) ⟨s₀, none⟩ es a) :
    ∃ m, Steps Event.Allows ∅ es m ∧
      (∀ f : ℕ → Choice, (∀ n, Reliable cr profile N (f n)) → ∃ st t,
        (openStore cr profile exportKey).run (machine cr) f a.world = (.ok st, t) ∧
        Shows cr (Reliable cr profile N) N st t m) ∧
      ∀ st, a.handle = some st → Shows cr (Reliable cr profile N) N st a.world m := by
  have hu : Derives cr exportKey ⟨cr.hkdf exportKey kekPwInfo⟩ := derive_password hkey
  have hstart : SessionHolds cr profile (.password exportKey ⟨cr.hkdf exportKey kekPwInfo⟩) N
      ⟨s₀, none⟩ ∅ := Stored.sessionHolds (.inl ⟨hblank, rfl⟩)
  obtain ⟨m, hspec, hholds⟩ := Steps.simulation
    (fun b e c m he hstep h => hstep.matched hu hvalid hI he h) hrun hnames hstart
  refine ⟨m, hspec, fun f hf => ?_, fun st hst => (hholds.live st hst).shows Reliable.faultFree⟩
  obtain ⟨st, hok, hlive⟩ := wp_run (wp_openStore hu hvalid hI hholds.stored) hf
  exact ⟨st, _, Prod.ext hok rfl, hlive.shows Reliable.faultFree⟩

end

open Sample

/-- A store is created, one record is written, and writing a second one is cut off when its
pending manifest is on disk and its file is not. -/
theorem open_after_crashes_sample : ∃ a : Session,
    Steps (Step Crypto.toy profile exportKey
      (Reliable Crypto.toy profile {n | n ∈ Sample.names})) ⟨.blank, none⟩
      [.opened, .put (ascii "a") [1] true, .putCut (ascii "b") [2]] a ∧
    ∃ m, Steps Event.Allows ∅ [.opened, .put (ascii "a") [1] true, .putCut (ascii "b") [2]] m ∧
      ∀ f : ℕ → Choice,
        (∀ n, Reliable Crypto.toy profile {n | n ∈ Sample.names} (f n)) → ∃ st t,
        (openStore Crypto.toy profile exportKey).run (machine Crypto.toy) f a.world =
          (.ok st, t) ∧
        Shows Crypto.toy (Reliable Crypto.toy profile {n | n ∈ Sample.names})
          {n | n ∈ Sample.names} st t m := by
  have hlen : 9 < ((put Crypto.toy Sample.handle (ascii "b") [2]).crashStates (machine Crypto.toy)
      (fun _ => .plain) withRecord).length := by decide +kernel
  have hopened := run_openStore
  have hput := run_put
  -- the worlds are arbitrary from here on, so that the computed ones are never unfolded
  generalize opened = w, withRecord = w' at *
  obtain ⟨a, hsteps⟩ : ∃ a, Steps (Step Crypto.toy profile exportKey
      (Reliable Crypto.toy profile {n | n ∈ Sample.names})) ⟨.blank, none⟩
      [.opened, .put (ascii "a") [1] true, .putCut (ascii "b") [2]] a :=
    ⟨_, .cons (.opened (fun _ => reliable) hopened)
      (.cons (.put (r := .ok ()) rfl (fun _ => reliable) hput)
        (.cons (.putCut rfl (fun _ => reliable) (List.getElem_mem hlen)) .nil))⟩
  have hnames : ∀ e ∈ [Event.opened, .put (ascii "a") [1] true, .putCut (ascii "b") [2]],
      ∀ n ∈ e.name?, n ∈ Sample.names := by decide +kernel
  obtain ⟨m, hspec, hnext, -⟩ := open_after_crashes length_exportKey Sample.validProfileName
    internalIn blank_empty hnames hsteps
  exact ⟨a, hsteps, m, hspec, hnext⟩

end Powehi.Store
