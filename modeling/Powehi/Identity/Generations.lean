import Powehi.Codec.Bytes
import Powehi.Semantics.Trace
import Mathlib.Data.List.Chain

/-!
# Generations of the MLS provider state

`identity.rs` keeps the whole MLS provider in one record. Every `save` writes it with the next
generation; `load` and `save` compare generations with a floor that lives in the open store and
only grows. Any number of `LocalIdentity` values share one store, and the record may be deleted,
or replaced by a blob it held before, between any two calls.

A process begins with a login, which takes the floor from the record it finds. Within a process
a `save` goes through only for an instance with the largest generation seen, and a `load` never
falls behind it. The states saved form one chain unless the record the process began with was
itself rolled back: a blob of the same or a later generation, left over from before the login,
passes the floor.
-/

namespace Powehi.Identity

open Codec Semantics List

variable {V I : Type}

/-! ### Provider state -/

inductive MlsError
  | persistence
  | identity
deriving DecidableEq

inductive IdentityError
  | auth
  | badIdentity
  | mls
  | stateRollback
deriving DecidableEq

/-- What a blob of the provider record decodes to; `V` is the key/value map of the provider. -/
structure PersistedProviderState (V : Type) where
  version : ℕ
  generation : ℕ
  pairs : V
deriving DecidableEq

def providerStateVersion : ℕ := 1

def exportProviderState (values : V) (generation : ℕ) : PersistedProviderState V :=
  ⟨providerStateVersion, generation, values⟩

def importProviderState (state : PersistedProviderState V) (minGeneration : ℕ) :
    Except MlsError (V × ℕ) :=
  if state.version ≠ providerStateVersion then .error .persistence
  else if state.generation < minGeneration then .error .persistence
  else .ok (state.pairs, state.generation)

theorem importProviderState_eq_ok {state : PersistedProviderState V} {m g : ℕ} {v : V}
    (h : importProviderState state m = .ok (v, g)) : g = state.generation ∧ m ≤ g := by
  unfold importProviderState at h
  split at h
  · cases h
  · split at h
    · cases h
    · next hlt =>
      cases h
      exact ⟨rfl, Nat.le_of_not_lt hlt⟩

/-! ### The store -/

/-- The records of an open store that `load` and `save` use, and its floor. `account` is the MLS
label of a readable account record. -/
structure ProfileStore (V : Type) where
  account : Option Bytes
  signing : Option Bytes
  provider : Option (PersistedProviderState V)
  providerFloor : ℕ
deriving DecidableEq

namespace ProfileStore

def raiseProviderFloor (s : ProfileStore V) (generation : ℕ) : ProfileStore V :=
  { s with providerFloor := max s.providerFloor generation }

/-- A write of the provider record. -/
def put (s : ProfileStore V) (blob : PersistedProviderState V) : ProfileStore V :=
  { s with provider := some blob }

end ProfileStore

def seedProviderFloor (s : ProfileStore V) : Except IdentityError Unit × ProfileStore V :=
  match s.provider with
  | none => (.ok (), s)
  | some raw =>
    match importProviderState raw 0 with
    | .error _ => (.error .mls, s)
    | .ok (_, generation) => (.ok (), s.raiseProviderFloor generation)

/-- A login that succeeds leaves the record alone and the floor at least at its generation. -/
theorem seedProviderFloor_spec {s s' : ProfileStore V} (h : seedProviderFloor s = (.ok (), s')) :
    s'.provider = s.provider ∧
      s'.providerFloor = max s.providerFloor (s.provider.elim 0 (·.generation)) := by
  unfold seedProviderFloor at h
  split at h
  · next hnone =>
    cases h
    exact ⟨rfl, by simp [hnone]⟩
  · next raw hraw =>
    split at h
    · cases h
    · next v g himport =>
      cases h
      obtain ⟨rfl, -⟩ := importProviderState_eq_ok himport
      exact ⟨rfl, by simp [hraw, ProfileStore.raiseProviderFloor]⟩

/-! ### Instances -/

/-- The parts of the MLS library that `load` calls. -/
structure Mls (V I : Type) where
  /-- `Provider::default()`. -/
  empty : V
  /-- Re-creates the identity in the provider. -/
  generateIdentityFromSeed : Bytes → Block 32 → V → Except MlsError (I × V)

structure LocalIdentity (V I : Type) where
  provider : V
  identity : I
  generation : ℕ
deriving DecidableEq

/-- The provider `load` starts from: the record, or an empty one where none was ever seen. -/
def ProfileStore.importProvider (M : Mls V I) (s : ProfileStore V) :
    Except IdentityError (V × ℕ) :=
  match s.provider with
  | some raw =>
    match importProviderState raw s.providerFloor with
    | .error _ => .error .stateRollback
    | .ok found => .ok found
  | none => if s.providerFloor = 0 then .ok (M.empty, 0) else .error .stateRollback

/-- The label and seed of the identity. -/
def ProfileStore.signingSeed (s : ProfileStore V) : Except IdentityError (Bytes × Block 32) :=
  match s.account with
  | none => .error .auth
  | some label =>
    match s.signing with
    | none => .error .badIdentity
    | some seed => if h : seed.length = 32 then .ok (label, ⟨seed, h⟩) else .error .badIdentity

namespace LocalIdentity

def load (M : Mls V I) (s : ProfileStore V) :
    Except IdentityError (LocalIdentity V I) × ProfileStore V :=
  match s.signingSeed with
  | .error e => (.error e, s)
  | .ok (label, seed) =>
    match s.importProvider M with
    | .error e => (.error e, s)
    | .ok (provider, generation) =>
      -- The floor is raised before the identity is made: a failure there leaves it raised.
      match M.generateIdentityFromSeed label seed provider with
      | .error _ => (.error .mls, s.raiseProviderFloor generation)
      | .ok (identity, provider) =>
        (.ok ⟨provider, identity, generation⟩, s.raiseProviderFloor generation)

def save (l : LocalIdentity V I) (s : ProfileStore V) :
    Except IdentityError (LocalIdentity V I) × ProfileStore V :=
  if l.generation < s.providerFloor then (.error .stateRollback, s)
  else if l.generation + 1 < 2 ^ 64 then
    (.ok { l with generation := l.generation + 1 },
      (s.put (exportProviderState l.provider (l.generation + 1))).raiseProviderFloor
        (l.generation + 1))
  else (.error .mls, s)

end LocalIdentity

/-- A provider that is imported comes from the record, at or above the floor, or is the empty one
of a store whose floor was never raised. -/
theorem importProvider_cases {M : Mls V I} {s : ProfileStore V} {v : V} {g : ℕ}
    (h : s.importProvider M = .ok (v, g)) :
    s.providerFloor ≤ g ∧
      ((∃ raw, s.provider = some raw ∧ g = raw.generation) ∨ (s.provider = none ∧ g = 0)) := by
  unfold ProfileStore.importProvider at h
  split at h
  · next raw hraw =>
    split at h
    · cases h
    · next found himport =>
      cases h
      obtain ⟨hg, hle⟩ := importProviderState_eq_ok himport
      exact ⟨hle, .inl ⟨raw, hraw, hg⟩⟩
  · next hnone =>
    split at h
    · next hzero =>
      cases h
      exact ⟨hzero.le, .inr ⟨hnone, rfl⟩⟩
    · cases h

/-- What a `load` can do: leave the store as it was, or take the record in and raise the floor
to its generation. -/
theorem load_cases {M : Mls V I} {s s' : ProfileStore V}
    {r : Except IdentityError (LocalIdentity V I)} (h : LocalIdentity.load M s = (r, s')) :
    ((∃ e, r = .error e) ∧ s' = s) ∨
      ∃ v g, s.importProvider M = .ok (v, g) ∧ s' = s.raiseProviderFloor g ∧
        ∀ l, r = .ok l → l.generation = g := by
  unfold LocalIdentity.load at h
  split at h
  · cases h
    exact .inl ⟨⟨_, rfl⟩, rfl⟩
  · split at h
    · cases h
      exact .inl ⟨⟨_, rfl⟩, rfl⟩
    · next v g himport =>
      refine .inr ⟨v, g, himport, ?_⟩
      split at h
      · cases h
        exact ⟨rfl, fun l hl => nomatch hl⟩
      · cases h
        exact ⟨rfl, fun l hl => by cases hl; rfl⟩

theorem save_eq_ok {l l' : LocalIdentity V I} {s s' : ProfileStore V}
    (h : l.save s = (.ok l', s')) :
    s.providerFloor ≤ l.generation ∧ l' = { l with generation := l.generation + 1 } ∧
      s' = (s.put (exportProviderState l.provider (l.generation + 1))).raiseProviderFloor
        (l.generation + 1) := by
  unfold LocalIdentity.save at h
  split at h
  · cases h
  · next hlt =>
    split at h
    · cases h
      exact ⟨Nat.le_of_not_lt hlt, rfl, rfl⟩
    · cases h

theorem save_eq_error {l : LocalIdentity V I} {s s' : ProfileStore V} {e : IdentityError}
    (h : l.save s = (.error e, s')) : s' = s := by
  unfold LocalIdentity.save at h
  split at h
  · cases h
    rfl
  · split at h
    · cases h
    · cases h
      rfl

/-! ### Processes -/

/-- A live instance, with the state it was derived from: the record it loaded, or the blob it
saved last. `none` is the empty provider of a profile without a record. -/
structure Held (V I : Type) where
  value : LocalIdentity V I
  base : Option (PersistedProviderState V)
deriving DecidableEq

/-- A successful save: the blob written and the state the saving instance was derived from. -/
structure Saved (V : Type) where
  base : Option (PersistedProviderState V)
  written : PersistedProviderState V
deriving DecidableEq

/-- A profile and the process that has it open. `blobs` are those the record has been since the
profile was created; the other fields are about the running process: its instances, the
generations it loaded or saved, the states it saved with the latest first, and the first state it
loaded. -/
structure World (V I : Type) where
  store : ProfileStore V
  blobs : List (PersistedProviderState V) := []
  instances : List (Held V I) := []
  seen : List ℕ := []
  saved : List (Saved V) := []
  first : Option (Option (PersistedProviderState V)) := none
deriving DecidableEq

inductive Call (V : Type)
  /-- A new process logs in. -/
  | login
  | load
  /-- An instance changes the state of its provider. -/
  | change (i : ℕ) (v : V)
  | save (i : ℕ)
  | remove
  | replace (b : PersistedProviderState V)
deriving DecidableEq

namespace World

/-- A profile right after its creation. -/
def created (account signing : Option Bytes) : World V I :=
  { store := ⟨account, signing, none, 0⟩ }

/-- The store as a new process opens it: the floor is not kept. -/
def reopened (w : World V I) : ProfileStore V := { w.store with providerFloor := 0 }

def load (M : Mls V I) (w : World V I) : World V I :=
  match LocalIdentity.load M w.store with
  | (.error _, s) => { w with store := s }
  | (.ok l, s) =>
    { w with
      store := s
      instances := w.instances ++ [⟨l, w.store.provider⟩]
      seen := l.generation :: w.seen
      first := some (w.first.getD w.store.provider) }

def change (w : World V I) (i : ℕ) (v : V) : World V I :=
  { w with instances := w.instances.modify i fun h => { h with value.provider := v } }

def save (w : World V I) (i : ℕ) : World V I :=
  match w.instances[i]? with
  | none => w
  | some h =>
    match h.value.save w.store with
    | (.error _, s) => { w with store := s }
    | (.ok l, s) =>
      let blob := exportProviderState l.provider l.generation
      { w with
        store := s
        blobs := blob :: w.blobs
        instances := w.instances.set i ⟨l, some blob⟩
        seen := l.generation :: w.seen
        saved := ⟨h.base, blob⟩ :: w.saved }

/-- One call, run to completion. -/
def call (M : Mls V I) (w : World V I) : Call V → World V I
  | .login => { store := (seedProviderFloor w.reopened).2, blobs := w.blobs }
  | .load => w.load M
  | .change i v => w.change i v
  | .save i => w.save i
  | .remove => { w with store.provider := none }
  | .replace b => { w with store := w.store.put b }

/-- The record is replaced only by blobs it was before, and a process starts only if its login
succeeds. -/
def Permits (w : World V I) : Call V → Prop
  | .login => (seedProviderFloor w.reopened).1 = .ok ()
  | .replace b => b ∈ w.blobs
  | _ => True

instance [DecidableEq V] (w : World V I) (c : Call V) : Decidable (w.Permits c) :=
  match c with
  | .login => inferInstanceAs (Decidable (_ = _))
  | .replace _ => inferInstanceAs (Decidable (_ ∈ _))
  | .load | .change _ _ | .save _ | .remove => inferInstanceAs (Decidable True)

end World

/-- A call takes place. -/
def Step (M : Mls V I) (w : World V I) (c : Call V) (w' : World V I) : Prop :=
  w.Permits c ∧ w' = w.call M c

namespace World

/-- No blob the record has been competes with the one it is: all others have a smaller
generation. -/
def Unforked (w : World V I) : Prop :=
  ∀ b ∈ w.blobs, ∃ r, w.store.provider = some r ∧ (b = r ∨ b.generation < r.generation)

end World

/-- Each state saved, latest first, was derived from the one saved just before it, and the first
from the first state loaded. -/
def ChainFrom (first : Option (Option (PersistedProviderState V))) (saved : List (Saved V)) :
    Prop :=
  saved.IsChain (fun next prev => next.base = some prev.written) ∧
    ∀ s ∈ saved.getLast?, first = some s.base

/-- The states the process saved form one chain. -/
def World.Chained (w : World V I) : Prop := ChainFrom w.first w.saved

theorem ChainFrom.cons {first : Option (Option (PersistedProviderState V))}
    {saved : List (Saved V)} (h : ChainFrom first saved) {s : Saved V}
    (hlatest : ∀ last ∈ saved.head?, s.base = some last.written)
    (hfirst : saved = [] → first = some s.base) : ChainFrom first (s :: saved) := by
  cases saved with
  | nil =>
    refine ⟨.singleton s, fun s' hs' => ?_⟩
    obtain rfl : s = s' := by simpa using hs'
    exact hfirst rfl
  | cons last rest => exact ⟨.cons_cons (hlatest last rfl) h.1, h.2⟩

/-! ### What a call can do -/

section Calls

variable {M : Mls V I} {w w' : World V I}

/-- The record taken in by a `load` that got past the floor. -/
theorem World.load_cases (M : Mls V I) (w : World V I) :
    w.load M = w ∨ ∃ v g, w.store.importProvider M = .ok (v, g) ∧
      (w.load M = { w with store := w.store.raiseProviderFloor g } ∨
        ∃ l : LocalIdentity V I, l.generation = g ∧
          w.load M = { w with
            store := w.store.raiseProviderFloor g
            instances := w.instances ++ [⟨l, w.store.provider⟩]
            seen := g :: w.seen
            first := some (w.first.getD w.store.provider) }) := by
  unfold load
  split
  · next e s hload =>
    obtain ⟨-, rfl⟩ | ⟨v, g, himport, rfl, -⟩ := Identity.load_cases hload
    · exact .inl rfl
    · exact .inr ⟨v, g, himport, .inl rfl⟩
  · next l s hload =>
    obtain ⟨⟨e, he⟩, -⟩ | ⟨v, g, himport, rfl, hl⟩ := Identity.load_cases hload
    · cases he
    · obtain rfl := hl l rfl
      exact .inr ⟨v, _, himport, .inr ⟨l, rfl, rfl⟩⟩

/-- The blob an instance would save next. -/
def LocalIdentity.nextBlob (l : LocalIdentity V I) : PersistedProviderState V :=
  exportProviderState l.provider (l.generation + 1)

/-- A save changes nothing, or writes the next blob of an instance at or above the floor. -/
theorem World.save_cases (w : World V I) (i : ℕ) :
    w.save i = w ∨ ∃ h, w.instances[i]? = some h ∧
      w.store.providerFloor ≤ h.value.generation ∧
      w.save i = { w with
        store := (w.store.put h.value.nextBlob).raiseProviderFloor (h.value.generation + 1)
        blobs := h.value.nextBlob :: w.blobs
        instances := w.instances.set i
          ⟨{ h.value with generation := h.value.generation + 1 }, some h.value.nextBlob⟩
        seen := (h.value.generation + 1) :: w.seen
        saved := ⟨h.base, h.value.nextBlob⟩ :: w.saved } := by
  unfold save
  split
  · exact .inl rfl
  · next h hi =>
    split
    · next e s hsave =>
      obtain rfl := save_eq_error hsave
      exact .inl rfl
    · next l s hsave =>
      obtain ⟨hfloor, rfl, rfl⟩ := save_eq_ok hsave
      exact .inr ⟨h, hi, hfloor, rfl⟩

/-- A change of an instance's provider keeps its generation and what it was derived from. -/
theorem World.mem_change {i : ℕ} {v : V} {h : Held V I} (hmem : h ∈ (w.change i v).instances) :
    ∃ h₀ ∈ w.instances, h.value.generation = h₀.value.generation ∧ h.base = h₀.base := by
  obtain ⟨j, hj, rfl⟩ := mem_iff_getElem.1 hmem
  have hlen : j < w.instances.length := by simpa [change] using hj
  refine ⟨w.instances[j], getElem_mem hlen, ?_⟩
  simp only [change, getElem_modify]
  split <;> exact ⟨rfl, rfl⟩

/-! ### Blobs -/

/-- Every blob was written by a `save`, and the record is one of them. -/
structure World.Written (w : World V I) : Prop where
  positive : ∀ b ∈ w.blobs, 0 < b.generation
  record : ∀ b ∈ w.store.provider, b ∈ w.blobs

theorem World.created_written (account signing : Option Bytes) :
    (created account signing : World V I).Written where
  positive := by simp [created]
  record := by simp [created]

theorem World.Written.step {c : Call V} (h : w.Written) (hstep : Step M w c w') : w'.Written := by
  obtain ⟨hpermits, rfl⟩ := hstep
  cases c with
  | login =>
    -- The login only reads the record.
    have hseed : seedProviderFloor w.reopened = (.ok (), (seedProviderFloor w.reopened).2) :=
      Prod.ext hpermits rfl
    have hrecord := (seedProviderFloor_spec hseed).1
    exact ⟨h.positive, fun b hb => h.record b (hrecord ▸ hb)⟩
  | load =>
    obtain heq | ⟨v, g, -, heq | ⟨l, -, heq⟩⟩ := load_cases M w
    · simpa only [call, heq] using h
    · simp only [call, heq]
      exact ⟨h.positive, h.record⟩
    · simp only [call, heq]
      exact ⟨h.positive, h.record⟩
  | change i v => exact ⟨h.positive, h.record⟩
  | save i =>
    obtain heq | ⟨l, -, -, heq⟩ := save_cases w i
    · simpa only [call, heq] using h
    · simp only [call, heq]
      constructor
      · intro b hb
        obtain rfl | hb := mem_cons.1 hb
        · exact Nat.succ_pos _
        · exact h.positive b hb
      · intro b hb
        obtain rfl : l.value.nextBlob = b := Option.some.inj hb
        exact mem_cons_self
  | remove => exact ⟨h.positive, fun b hb => nomatch hb⟩
  | replace b =>
    refine ⟨h.positive, fun b' hb' => ?_⟩
    obtain rfl : b = b' := Option.some.inj hb'
    exact hpermits

/-! ### Floors -/

/-- The floor bounds the generations the process has seen, and those of its instances are among
them. -/
structure World.Floored (w : World V I) : Prop where
  seen : ∀ g ∈ w.seen, g ≤ w.store.providerFloor
  instances : ∀ h ∈ w.instances, h.value.generation ∈ w.seen

/-- A new process has seen nothing. -/
theorem World.Floored.login (M : Mls V I) (w : World V I) : (w.call M .login).Floored where
  seen := by simp [call]
  instances := by simp [call]

theorem World.Floored.step {c : Call V} (h : w.Floored) (hstep : Step M w c w') : w'.Floored := by
  obtain ⟨-, rfl⟩ := hstep
  cases c with
  | login => exact .login M w
  | load =>
    obtain heq | ⟨v, g, -, heq | ⟨l, hl, heq⟩⟩ := load_cases M w
    · simpa only [call, heq] using h
    · simp only [call, heq]
      exact ⟨fun g hg => (h.seen g hg).trans (le_max_left _ _), h.instances⟩
    · simp only [call, heq]
      constructor
      · intro g' hg'
        obtain rfl | hg' := mem_cons.1 hg'
        · exact le_max_right _ _
        · exact (h.seen g' hg').trans (le_max_left _ _)
      · intro h' hh'
        obtain hh' | hh' := mem_append.1 hh'
        · exact mem_cons_of_mem _ (h.instances h' hh')
        · obtain rfl := mem_singleton.1 hh'
          exact hl ▸ mem_cons_self
  | change i v =>
    refine ⟨h.seen, fun h' hh' => ?_⟩
    obtain ⟨h₀, hh₀, hgen, -⟩ := mem_change hh'
    exact hgen ▸ h.instances h₀ hh₀
  | save i =>
    obtain heq | ⟨l, -, -, heq⟩ := save_cases w i
    · simpa only [call, heq] using h
    · simp only [call, heq]
      constructor
      · intro g hg
        obtain rfl | hg := mem_cons.1 hg
        · exact le_max_right _ _
        · exact (h.seen g hg).trans (le_max_left _ _)
      · intro h' hh'
        obtain hh' | rfl := mem_or_eq_of_mem_set hh'
        · exact mem_cons_of_mem _ (h.instances h' hh')
        · exact mem_cons_self
  | remove | replace _ => exact ⟨h.seen, h.instances⟩

/-- The instance of a save that succeeds has the largest generation the process has seen. -/
theorem World.Floored.save (h : w.Floored) {l : Held V I} (hl : l ∈ w.instances)
    {l' : LocalIdentity V I} {s : ProfileStore V} (hsave : l.value.save w.store = (.ok l', s)) :
    l.value.generation ∈ w.seen ∧ ∀ g ∈ w.seen, g ≤ l.value.generation :=
  ⟨h.instances l hl, fun g hg => (h.seen g hg).trans (save_eq_ok hsave).1⟩

/-- A load that succeeds does not fall behind what the process has seen. -/
theorem World.Floored.load (h : w.Floored) {l : LocalIdentity V I} {s : ProfileStore V}
    (hload : LocalIdentity.load M w.store = (.ok l, s)) : ∀ g ∈ w.seen, g ≤ l.generation := by
  intro g hg
  obtain ⟨⟨e, he⟩, -⟩ | ⟨v, g', himport, -, hl⟩ := Identity.load_cases hload
  · cases he
  · obtain rfl := hl l rfl
    exact (h.seen g hg).trans (importProvider_cases himport).1

/-! ### The chain -/

/-- The process works on from `tip`: the floor is its generation, every other blob is behind it,
and an instance that is not behind was derived from it. -/
structure World.OnTip (w : World V I) (tip : Option (PersistedProviderState V)) : Prop where
  floor : w.store.providerFloor = tip.elim 0 (·.generation)
  member : ∀ t ∈ tip, t ∈ w.blobs
  blobs : ∀ b ∈ w.blobs, tip = some b ∨ b.generation < w.store.providerFloor
  bases : ∀ h ∈ w.instances, h.value.generation = w.store.providerFloor → h.base = tip
  latest : ∀ s ∈ w.saved.head?, tip = some s.written
  untouched : w.saved = [] → ∀ f ∈ w.first, f = tip
  loaded : w.instances ≠ [] → w.first.isSome
  chained : w.Chained

/-- A login on a record that nothing competes with works on from that record. -/
theorem World.OnTip.login (hwritten : w.Written) (hpermits : w.Permits .login)
    (hfork : (w.call M .login).Unforked) :
    (w.call M .login).OnTip (w.call M .login).store.provider := by
  have hseed : seedProviderFloor w.reopened = (.ok (), (seedProviderFloor w.reopened).2) :=
    Prod.ext hpermits rfl
  obtain ⟨hrecord, hfloor⟩ := seedProviderFloor_spec hseed
  have hfloor' : (w.call M .login).store.providerFloor =
      (w.call M .login).store.provider.elim 0 (·.generation) := by
    change (seedProviderFloor w.reopened).2.providerFloor =
      (seedProviderFloor w.reopened).2.provider.elim 0 (·.generation)
    rw [hfloor, hrecord]
    exact Nat.zero_max _
  refine ⟨hfloor', (hwritten.step ⟨hpermits, rfl⟩).record, fun b hb => ?_, ?_, ?_, ?_, ?_, ?_⟩
  · obtain ⟨r, hr, rfl | hlt⟩ := hfork b hb
    · exact .inl hr
    · exact .inr (by simpa [hfloor', hr] using hlt)
  all_goals simp [call, Chained, ChainFrom]

/-- What is imported from above the floor is the tip. -/
theorem World.OnTip.imported {tip : Option (PersistedProviderState V)} (h : w.OnTip tip)
    (hwritten : w.Written) {v : V} {g : ℕ} (himport : w.store.importProvider M = .ok (v, g)) :
    w.store.provider = tip ∧ g = w.store.providerFloor := by
  obtain ⟨hle, ⟨raw, hraw, rfl⟩ | ⟨hnone, rfl⟩⟩ := importProvider_cases himport
  · obtain htip | hlt := h.blobs raw (hwritten.record raw hraw)
    · exact ⟨hraw.trans htip.symm, by rw [h.floor, htip]; rfl⟩
    · omega
  · -- The floor is 0, and no blob has generation 0.
    have hzero : w.store.providerFloor = 0 := Nat.le_zero.1 hle
    cases tip with
    | none => exact ⟨hnone, hzero.symm⟩
    | some t =>
      have hpos := hwritten.positive t (h.member t rfl)
      have hgen : w.store.providerFloor = t.generation := h.floor
      omega

/-- A load takes in the tip. -/
theorem World.OnTip.load {tip : Option (PersistedProviderState V)} (h : w.OnTip tip)
    (hwritten : w.Written) : (w.load M).OnTip tip := by
  obtain heq | ⟨v, g, himport, heq | ⟨l, hl, heq⟩⟩ := load_cases M w
  · exact heq.symm ▸ h
  · obtain ⟨-, rfl⟩ := h.imported hwritten himport
    have hsame : w.store.raiseProviderFloor w.store.providerFloor = w.store := by
      simp [ProfileStore.raiseProviderFloor]
    rw [heq, hsame]
    exact h
  · obtain ⟨hrecord, rfl⟩ := h.imported hwritten himport
    have hsame : w.store.raiseProviderFloor w.store.providerFloor = w.store := by
      simp [ProfileStore.raiseProviderFloor]
    rw [heq, hsame]
    refine ⟨h.floor, h.member, h.blobs, ?_, h.latest, ?_, fun _ => rfl, h.chained.1, ?_⟩
    · intro h' hh' hgen
      obtain hh' | hh' := mem_append.1 hh'
      · exact h.bases h' hh' hgen
      · obtain rfl := mem_singleton.1 hh'
        exact hrecord
    · intro hsaved f hf
      obtain rfl : w.first.getD w.store.provider = f := by simpa using hf
      cases hfirst : w.first with
      | none => exact hrecord
      | some f => exact h.untouched hsaved f hfirst
    · -- Once something is saved, the first state loaded is settled.
      intro s hs
      have hfirst := h.chained.2 s hs
      simp only [hfirst, Option.getD_some]

/-- A save that goes through puts its blob at the tip. -/
theorem World.OnTip.save {tip : Option (PersistedProviderState V)} (h : w.OnTip tip)
    (hfloored : w.Floored) (i : ℕ) : ∃ tip', (w.save i).OnTip tip' := by
  obtain heq | ⟨l, hi, hfloor, heq⟩ := save_cases w i
  · exact ⟨tip, heq.symm ▸ h⟩
  · have hmem : l ∈ w.instances := mem_of_getElem? hi
    have hgen : l.value.generation = w.store.providerFloor :=
      le_antisymm (hfloored.seen _ (hfloored.instances l hmem)) hfloor
    have hbase : l.base = tip := h.bases l hmem hgen
    have hraised : max w.store.providerFloor (l.value.generation + 1) =
        l.value.generation + 1 := by omega
    refine ⟨some l.value.nextBlob, ?_⟩
    rw [heq]
    refine ⟨hraised, ?_, ?_, ?_, ?_, fun hnil => absurd hnil (cons_ne_nil _ _), ?_, ?_⟩
    · intro t ht
      obtain rfl := Option.mem_some_iff.1 ht
      exact mem_cons_self
    · intro b hb
      obtain rfl | hb := mem_cons.1 hb
      · exact .inl rfl
      · refine .inr (lt_of_le_of_lt ?_ (lt_of_lt_of_eq (Nat.lt_succ_self _) hraised.symm))
        obtain rfl | hlt := h.blobs b hb
        · exact (h.floor.symm.trans hgen.symm).le
        · omega
    · -- Every other instance is behind the new floor.
      intro h' hh' hgen'
      have hgen' : h'.value.generation = l.value.generation + 1 := hgen'.trans hraised
      obtain hh' | rfl := mem_or_eq_of_mem_set hh'
      · have hle := hfloored.seen _ (hfloored.instances h' hh')
        omega
      · rfl
    · intro s hs
      obtain rfl : (⟨l.base, l.value.nextBlob⟩ : Saved V) = s := by simpa using hs
      rfl
    · exact fun _ => h.loaded (ne_nil_of_mem hmem)
    · refine h.chained.cons (fun last hlast => hbase.trans (h.latest last hlast)) fun hnil => ?_
      obtain ⟨f, hf⟩ := Option.isSome_iff_exists.1 (h.loaded (ne_nil_of_mem hmem))
      exact hf.trans (congrArg some ((h.untouched hnil f hf).trans hbase.symm))

theorem World.OnTip.step {c : Call V} {tip : Option (PersistedProviderState V)} (h : w.OnTip tip)
    (hwritten : w.Written) (hfloored : w.Floored) (hc : c ≠ .login) (hstep : Step M w c w') :
    ∃ tip', w'.OnTip tip' := by
  obtain ⟨-, rfl⟩ := hstep
  cases c with
  | login => exact absurd rfl hc
  | load => exact ⟨tip, h.load hwritten⟩
  | change i v =>
    refine ⟨tip, h.floor, h.member, h.blobs, ?_, h.latest, h.untouched, ?_, h.chained⟩
    · intro h' hh' hgen
      obtain ⟨h₀, hh₀, hgen₀, hbase⟩ := mem_change hh'
      exact hbase.trans (h.bases h₀ hh₀ (hgen₀.symm.trans hgen))
    · intro hne
      apply h.loaded
      intro hnil
      simp [call, change, hnil] at hne
  | save i => exact h.save hfloored i
  | remove => exact ⟨tip, h.floor, h.member, h.blobs, h.bases, h.latest, h.untouched, h.loaded,
      h.chained⟩
  | replace b => exact ⟨tip, h.floor, h.member, h.blobs, h.bases, h.latest, h.untouched, h.loaded,
      h.chained⟩

end Calls

/-! ### Whole processes -/

section Processes

variable {M : Mls V I} {w₀ w₁ w : World V I} {account signing : Option Bytes}
  {life calls : List (Call V)}

theorem World.Written.run (h : w₁.Written) (hrun : Steps (Step M) w₁ calls w) : w.Written :=
  hrun.invariant (fun _ _ _ hstep hw => hw.step hstep) h

theorem World.Floored.run (h : w₁.Floored) (hrun : Steps (Step M) w₁ calls w) : w.Floored :=
  hrun.invariant (fun _ _ _ hstep hw => hw.step hstep) h

theorem World.OnTip.run {tip : Option (PersistedProviderState V)} (h : w₁.OnTip tip)
    (hwritten : w₁.Written) (hfloored : w₁.Floored) (hrun : Steps (Step M) w₁ calls w)
    (hprocess : .login ∉ calls) : ∃ tip', w.OnTip tip' := by
  induction hrun generalizing tip with
  | nil => exact ⟨tip, h⟩
  | @cons s t u c cs head tail ih =>
    obtain ⟨hc, hcs⟩ := not_or.1 (fun hmem => hprocess (mem_cons.2 hmem))
    obtain ⟨tip', ht⟩ := h.step hwritten hfloored (Ne.symm hc) head
    exact ih ht (hwritten.step head) (hfloored.step head) hcs

/-- Any number of processes use a profile, one after the other. In the last of them a save
succeeds only for an instance with the largest generation loaded or saved so far, and a load that
succeeds does not return a smaller one. If no blob left over from before its login competes with
the record it found, then the states it saved form one chain. -/
theorem saves_form_one_chain (hlife : Steps (Step M) (World.created account signing) life w₀)
    (hlogin : Step M w₀ .login w₁) (hrun : Steps (Step M) w₁ calls w) (hprocess : .login ∉ calls) :
    (∀ h ∈ w.instances, ∀ l s, h.value.save w.store = (.ok l, s) →
      h.value.generation ∈ w.seen ∧ ∀ g ∈ w.seen, g ≤ h.value.generation) ∧
    (∀ l s, LocalIdentity.load M w.store = (.ok l, s) → ∀ g ∈ w.seen, g ≤ l.generation) ∧
    (w₁.Unforked → w.Chained) := by
  have hwritten₀ : w₀.Written := (World.created_written account signing).run hlife
  have hfloored₁ : w₁.Floored := hlogin.2 ▸ .login M w₀
  have hfloored : w.Floored := hfloored₁.run hrun
  refine ⟨fun h hh l s hsave => hfloored.save hh hsave, fun l s hload => hfloored.load hload, ?_⟩
  intro hfork
  have htip : w₁.OnTip w₁.store.provider := by
    obtain ⟨hpermits, rfl⟩ := hlogin
    exact .login hwritten₀ hpermits hfork
  obtain ⟨tip, h⟩ := htip.run (hwritten₀.step hlogin) hfloored₁ hrun hprocess
  exact h.chained

/-! ### Concrete runs -/

/-- Whether a list of calls can be made one after the other. -/
def World.permitsAll [DecidableEq V] (M : Mls V I) : World V I → List (Call V) → Bool
  | _, [] => true
  | w, c :: cs => decide (w.Permits c) && (w.call M c).permitsAll M cs

theorem World.steps_foldl [DecidableEq V] {cs : List (Call V)} {w : World V I}
    (h : w.permitsAll M cs = true) : Steps (Step M) w cs (cs.foldl (call M) w) := by
  induction cs generalizing w with
  | nil => exact .nil
  | cons c cs ih =>
    have hc : w.Permits c ∧ (w.call M c).permitsAll M cs = true := by
      simpa [permitsAll] using h
    exact .cons ⟨hc.1, rfl⟩ (ih hc.2)

end Processes

namespace Sample

/-- Providers with a single number as their state. -/
def mls : Mls ℕ Unit where
  empty := 0
  generateIdentityFromSeed _ _ v := .ok ((), v)

def created : World ℕ Unit := World.created (some []) (some (List.replicate 32 0))

/-- A first process saves twice; its first blob is put back before it ends. -/
def rolledBack : List (Call ℕ) :=
  [.login, .load, .change 0 5, .save 0, .change 0 6, .save 0, .replace ⟨1, 1, 5⟩]

/-- The second process saves, and is handed the blob that the rollback had hidden. -/
def swapped : List (Call ℕ) :=
  [.load, .change 0 7, .save 0, .replace ⟨1, 2, 6⟩, .load, .save 1]

/-- A first process that saves once and ends. -/
def savedOnce : List (Call ℕ) := [.login, .load, .change 0 5, .save 0]

/-- Two instances, one of which saves twice; then the other tries, and an old blob is put back. -/
def contended : List (Call ℕ) :=
  [.load, .load, .change 0 6, .save 0, .save 0, .save 1, .replace ⟨1, 1, 5⟩, .load]

end Sample

open Sample

/-- A record that was rolled back before the login leaves a blob that passes the floor: the state
saved last was derived from it, not from the state saved before. -/
theorem swapped_fork_breaks_chain :
    ∃ (w₀ w₁ w : World ℕ Unit) (life calls : List (Call ℕ)),
      Steps (Step mls) created life w₀ ∧ Step mls w₀ .login w₁ ∧
        Steps (Step mls) w₁ calls w ∧ .login ∉ calls ∧ ¬ w.Chained := by
  refine ⟨_, _, _, rolledBack, swapped,
    World.steps_foldl (by decide +kernel), ⟨by decide +kernel, rfl⟩,
    World.steps_foldl (by decide +kernel), by decide, ?_⟩
  intro h
  have hbase : (some ⟨1, 2, 6⟩ : Option (PersistedProviderState ℕ)) = some ⟨1, 2, 7⟩ :=
    isChain_cons_cons.1 h.1 |>.1
  exact absurd hbase (by decide)

/-- The theorem on a process with two instances and an old blob put back. -/
theorem saves_form_one_chain_sample : ∃ w : World ℕ Unit, w.saved.length = 2 ∧ w.Chained := by
  have hlife : Steps (Step mls) created savedOnce _ := World.steps_foldl (by decide +kernel)
  have hrun : Steps (Step mls)
      (World.call mls (savedOnce.foldl (World.call mls) created) .login)
      contended _ := World.steps_foldl (by decide +kernel)
  have h := saves_form_one_chain hlife ⟨by decide +kernel, rfl⟩ hrun (by decide)
  refine ⟨_, ?_, h.2.2 ?_⟩
  · decide +kernel
  · intro b hb
    have hb : b ∈ ([⟨1, 1, 5⟩] : List (PersistedProviderState ℕ)) := hb
    obtain rfl := mem_singleton.1 hb
    exact ⟨_, rfl, .inl rfl⟩

end Powehi.Identity
