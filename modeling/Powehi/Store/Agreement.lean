import Powehi.Semantics.Trace
import Powehi.Store.Stored

/-!
# Memory and disk under failing calls

An open handle keeps the manifest and the names of its records in memory. Any file operation of a
`put` or `remove` can fail, before or after its effect, and the call then ends in the middle of a
mutation. After every call the handle's memory still describes the files, or the handle is
poisoned and refuses to write.
-/

namespace Powehi.Store

open Codec Semantics Program

section

/-! ### Calls -/

/-- A call that writes. -/
inductive Write
  | put (name payload : Bytes)
  | remove (name : Bytes)
deriving DecidableEq

/-- The record the call is about. -/
def Write.name : Write → Bytes
  | .put name _ | .remove name => name

/-- The state the call is to leave its record in. -/
def Write.value : Write → Option Bytes
  | .put _ payload => some payload
  | .remove _ => none

def Write.program (cr : Crypto) (st : ProfileStore) : Write → StoreM Unit
  | .put name payload => Store.put cr st name payload
  | .remove name => Store.remove cr st name

/-- One call has run to its end, in an environment that may fail any operation. -/
def Write.Ends (cr : Crypto) (st : ProfileStore) (s : World) (w : Write) (t : World) : Prop :=
  ∃ f : ℕ → Choice, t = ((w.program cr st).run (machine cr) f s).2

/-! ### Sound handles -/

/-- The handle's directory holds the records of `F`, under a manifest that accepts them, and the
handle's memory describes it unless the handle is poisoned. -/
structure Sound (cr : Crypto) (st : ProfileStore) (N : Set Bytes) (s : World) (F : Map Bytes) :
    Prop where
  isPrivate : s.disk.Private st.loc
  bounded : Bounded F
  names : ∀ n ∈ F, n ∈ N
  accounted : ∃ d, s.disk.dir? st.loc = some d ∧ Accounted cr st F d (s.mem st.loc)

/-- The handle is poisoned, and every further call fails and leaves disk and memory alone. -/
def RefusesWrites (cr : Crypto) (st : ProfileStore) (s : World) : Prop :=
  (s.mem st.loc).poisoned = true ∧ ∀ (w : Write) (f : ℕ → Choice), ∃ e t,
    (w.program cr st).run (machine cr) f s = (.error e, t) ∧ t.disk = s.disk ∧ t.mem = s.mem

variable {cr : Crypto} {A : Choice → Prop} {C : World → Prop} {st : ProfileStore} {N : Set Bytes}
  {s t : World} {d : Dir} {F : Map Bytes} {w : Write} {name pt : Bytes}

theorem Ready.sound (h : Ready cr st N s d F) : Sound cr st N s F :=
  ⟨h.isPrivate, h.bounded, h.names, d, h.dir, h.accounted⟩

/-- A sound handle is poisoned or ready. -/
theorem Sound.ready (h : Sound cr st N s F) (hp : (s.mem st.loc).poisoned = false) :
    ∃ d, Ready cr st N s d F := by
  obtain ⟨d, hd, M, hM, hpoisoned | ⟨-, hmem⟩⟩ := h.accounted
  · rw [hp] at hpoisoned
    cases hpoisoned
  · exact ⟨d, hd, h.isPrivate, ⟨M, hM⟩, hmem, hp, h.bounded, h.names⟩

/-! ### Poisoned handles -/

section Poisoned

/-- A failed call on a poisoned handle: disk and memory are as in `s`. -/
def Refused (s : World) (r : Except StoreError Unit) (t : World) : Prop :=
  r.isOk = false ∧ t.disk = s.disk ∧ t.mem = s.mem

variable (hp : (s.mem st.loc).poisoned = true)

include hp

theorem wp_mutate_poisoned {tag name : Bytes} {new : Option Digest} {apply : StoreM Unit}
    (htd : t.disk = s.disk) (htm : t.mem = s.mem) :
    wp (machine cr) A (mutate cr st tag name new apply) (Refused s) (fun _ => True) t := by
  rw [mutate, wp_bind]
  refine wp_getMem trivial ?_
  rw [andThen_bind]
  refine wp_require trivial (fun hhealthy => ?_) fun _ => ⟨rfl, htd, htm⟩
  rw [htm, hp] at hhealthy
  cases hhealthy

theorem wp_writeRecord_poisoned (htd : t.disk = s.disk) (htm : t.mem = s.mem) :
    wp (machine cr) A (writeRecord cr st name pt) (Refused s) (fun _ => True) t := by
  rw [writeRecord, wp_bind]
  refine wp_require trivial (fun _ => ?_) fun _ => ⟨rfl, htd, htm⟩
  rw [andThen_bind]
  refine wp_fillNonce trivial (fun nonce => ?_) fun _ => ⟨rfl, htd, htm⟩
  rw [andThen_bind]
  refine wp_encrypt trivial trivial ?_ (fun _ => ⟨rfl, htd, htm⟩) fun _ => ⟨rfl, htd, htm⟩
  exact wp_mutate_poisoned hp htd htm

/-- If the marker cannot be written either, nothing is. -/
theorem wp_putRecordWith_poisoned (hpriv : s.disk.Private st.loc) {mark : Bool → StoreM Unit}
    (hmark : ∀ b, wp (machine cr) A (mark b)
      (fun r t => Refused s r t ∨ r = .ok () ∧ t = s) (fun _ => True) s) :
    wp (machine cr) A (putRecordWith cr st name pt mark) (Refused s) (fun _ => True) s := by
  have hrefused : ∀ e, Refused s (.error e) s := fun e => ⟨rfl, rfl, rfl⟩
  rw [putRecordWith, wp_bind]
  refine wp_require trivial (fun _ => ?_) fun _ => hrefused _
  rw [andThen_bind]
  refine wp_checkPrivateDir hpriv trivial ?_ fun _ => hrefused _
  rw [andThen_bind]
  refine wp_getMem trivial ?_
  rw [andThen_bind]
  refine wp_require trivial (fun _ => ?_) fun _ => hrefused _
  rw [andThen_bind]
  refine wp_mono (fun r t hr => ?_) (fun _ _ => trivial) (hmark _)
  rcases hr with hr | ⟨rfl, rfl⟩
  · cases r with
    | ok _ => cases hr.1
    | error e => exact hr
  · exact wp_writeRecord_poisoned hp rfl rfl

/-- A poisoned handle refuses every call. -/
theorem wp_write_poisoned (hpriv : s.disk.Private st.loc) (w : Write) :
    wp (machine cr) A (w.program cr st) (Refused s) (fun _ => True) s := by
  have hrefused : ∀ e, Refused s (.error e) s := fun e => ⟨rfl, rfl, rfl⟩
  have hplain : ∀ {name pt}, wp (machine cr) A (putRecordWith cr st name pt fun _ => .pure ())
      (Refused s) (fun _ => True) s := fun {_ _} =>
    wp_putRecordWith_poisoned hp hpriv fun _ => ⟨trivial, .inr ⟨rfl, rfl⟩⟩
  cases w with
  | put name payload =>
    rw [Write.program, put, wp_bind, wp_ofExcept]
    refine ⟨trivial, ?_⟩
    cases validateRecordName name with
    | error e => exact hrefused e
    | ok _ =>
      rw [andThen_bind]
      refine wp_require trivial (fun _ => ?_) fun _ => hrefused _
      rw [putRecord]
      refine wp_putRecordWith_poisoned hp hpriv fun b => ?_
      refine wp_onlyIf (fun _ => ?_) fun _ => ⟨trivial, .inr ⟨rfl, rfl⟩⟩
      exact wp_mono (fun _ _ hr => .inl hr) (fun _ _ => trivial) hplain
  | remove name =>
    rw [Write.program, remove, wp_bind, wp_ofExcept]
    refine ⟨trivial, ?_⟩
    cases validateRecordName name with
    | error e => exact hrefused e
    | ok _ =>
      rw [andThen_bind]
      refine wp_require trivial (fun _ => ?_) fun _ => hrefused _
      rw [andThen_bind]
      refine wp_checkPrivateDir hpriv trivial ?_ fun _ => hrefused _
      rw [andThen_bind]
      refine wp_getMem trivial ?_
      rw [andThen_bind]
      refine wp_require trivial (fun hhealthy => ?_) fun _ => hrefused _
      rw [hp] at hhealthy
      cases hhealthy

theorem refusesWrites_of_poisoned (hpriv : s.disk.Private st.loc) : RefusesWrites cr st s := by
  refine ⟨hp, fun w f => ?_⟩
  have hwp : wp (machine cr) (fun _ => True) (w.program cr st) (Refused s) (fun _ => True) s :=
    wp_write_poisoned hp hpriv w
  obtain ⟨hfail, hdisk, hmem⟩ := wp_run hwp fun _ => trivial
  cases hr : ((w.program cr st).run (machine cr) f s).1 with
  | ok _ =>
    rw [hr] at hfail
    cases hfail
  | error e => exact ⟨e, _, Prod.ext hr rfl, hdisk, hmem⟩

end Poisoned

/-! ### One call -/

theorem OpErr.sound {v : Option Bytes} (h : OpErr cr st N name v d F s t)
    (hs : Ready cr st N s d F) : ∃ G, Close N name v F G ∧ Sound cr st N t G := by
  obtain ⟨d', G, hdisk, -, hclose, hacc⟩ := h
  refine ⟨G, hclose, ?_, hclose.bounded, hclose.names, d', ?_, hacc⟩
  · rw [hdisk]
    exact hs.isPrivate.setDir _
  · rw [hdisk]
    exact Disk.dir?_setDir hs.dir _

/-- After one call the handle is sound, for the records from before the call or with the call's
record changed. -/
theorem wp_write (hN : TagInjOn cr st N) (hI : InternalIn N) (hw : w.name ∈ N)
    (h : Sound cr st N s F) :
    wp (machine cr) A (w.program cr st)
      (fun _ t => ∃ G, Close N w.name w.value F G ∧ Sound cr st N t G) (fun _ => True) s := by
  have hstay : Close N w.name w.value F F := ⟨.inl rfl, h.bounded, h.names⟩
  cases hp : (s.mem st.loc).poisoned with
  | true =>
    refine wp_mono (fun r t hr => ⟨F, hstay, ?_⟩) (fun _ _ => trivial)
      (wp_write_poisoned hp h.isPrivate w)
    obtain ⟨d, hd, hacc⟩ := h.accounted
    obtain ⟨-, hdisk, hmem⟩ := hr
    exact ⟨hdisk ▸ h.isPrivate, h.bounded, h.names, d, hdisk ▸ hd, hmem ▸ hacc⟩
  | false =>
    obtain ⟨d, hr⟩ := h.ready hp
    cases w with
    | put name payload =>
      refine wp_put (K := fun _ => True) hr hN hI hw trivial (fun _ _ _ _ _ => trivial)
        (fun e => ⟨F, hstay, h⟩) (fun t d' G hint hwrites => ?_) fun _ e t herr => herr.sound hr
      rcases hwrites with hwrites | hwrites
      · obtain - | ⟨hwritten, hnil⟩ := hwrites
        cases hnil
        have hready := hwritten.ready
        exact ⟨_, hr.close_update hw hready.bounded (.inr ⟨rfl, rfl⟩), hready.sound⟩
      · -- the marker was written first; nobody sees it
        obtain - | ⟨hmarker, hrest⟩ := hwrites
        obtain - | ⟨hwritten, hnil⟩ := hrest
        cases hnil
        have hready := hwritten.ready
        have hclose : Close N name (some payload) _ _ :=
          hmarker.ready.close_update hw hready.bounded (.inr ⟨rfl, rfl⟩)
        exact ⟨_, hclose.of_internal isInternal_marker, hready.sound⟩
    | remove name =>
      refine wp_remove (K := fun _ => True) hr hN hw trivial (fun _ _ _ _ _ => trivial)
        (fun e => ⟨F, hstay, h⟩) (fun _ _ => ⟨F, hstay, h⟩) (fun t d' hint hwritten => ?_)
        fun _ e t herr => herr.sound hr
      have hready := hwritten.ready
      exact ⟨_, hr.close_update hw hready.bounded (.inr ⟨rfl, rfl⟩), hready.sound⟩

/-! ### Every sequence of calls -/

theorem Write.Ends.sound (hN : TagInjOn cr st N) (hI : InternalIn N) (hw : w.name ∈ N)
    (hcall : w.Ends cr st s t) (h : Sound cr st N s F) :
    ∃ G, Close N w.name w.value F G ∧ Sound cr st N t G := by
  obtain ⟨f, rfl⟩ := hcall
  exact wp_run (A := fun _ => True) (wp_write hN hI hw h) fun _ => trivial

/-- A sequence of calls leaves a sound handle sound. -/
theorem Write.sound_of_steps (hN : TagInjOn cr st N) (hI : InternalIn N) {ws : List Write}
    (hws : ∀ w ∈ ws, w.name ∈ N) (hrun : Steps (fun s w t => w.Ends cr st s t) s ws t)
    (h : Sound cr st N s F) : ∃ G, Sound cr st N t G := by
  induction hrun generalizing F with
  | nil => exact ⟨F, h⟩
  | cons head tail ih =>
    obtain ⟨G, -, hG⟩ := head.sound hN hI (hws _ List.mem_cons_self) h
    exact ih (fun w hw => hws w (List.mem_cons_of_mem _ hw)) hG

/-- Whatever fails in a sequence of calls on a handle, after each call `w` of it: the record files
are those from before the call, or with `w`'s record changed; the manifest on disk accepts them;
and the handle's manifest and index describe them, or the handle is poisoned and refuses every
further call. The tags of the names in use are assumed distinct. -/
theorem writes_keep_agreement (hN : TagInjOn cr st N) (hI : InternalIn N)
    (hstart : Ready cr st N s d F) {ws : List Write} (hws : ∀ w ∈ ws, w.name ∈ N) {u : World}
    (hrun : Steps (fun s w t => w.Ends cr st s t) s ws t) (hw : w.name ∈ N)
    (hlast : w.Ends cr st t u) :
    ∃ d G d' G' M, t.disk.dir? st.loc = some d ∧ Holds cr st d G ∧
      u.disk.dir? st.loc = some d' ∧ Holds cr st d' G' ∧
      (visible G' = visible G ∨ visible G' = (visible G).update w.name w.value) ∧
      ManifestOn cr st d' M ∧ M.verify (hashes cr d') = .ok () ∧
      (RefusesWrites cr st u ∨
        (u.mem st.loc).poisoned = false ∧ (u.mem st.loc).manifest.entries = hashes cr d' ∧
        ∀ n, n ∈ (u.mem st.loc).index ↔ n ∈ G') := by
  obtain ⟨G, hG⟩ := Write.sound_of_steps hN hI hws hrun hstart.sound
  obtain ⟨G', hclose, hG'⟩ := Write.Ends.sound hN hI hw hlast hG
  obtain ⟨d, hd, M₀, hM₀, -⟩ := hG.accounted
  obtain ⟨d', hd', M, hM, hmem⟩ := hG'.accounted
  refine ⟨d, G, d', G', M, hd, hM₀.holds, hd', hM.holds, hclose.visible, hM.manifest,
    hM.verified, ?_⟩
  rcases hmem with hp | ⟨hp, hmem⟩
  · exact .inl (refusesWrites_of_poisoned hp hG'.isPrivate)
  · exact .inr ⟨hp, hmem.entries, hmem.index⟩

end

/-! ### A concrete handle -/

open Sample

/-- An environment in which the `k`-th operation reports an error although it took effect. -/
def Sample.failing (k n : ℕ) : Choice :=
  { Choice.plain with fault := if n = k then some true else none }

/-- The world after a call in such an environment. -/
def Sample.after (w : Write) (k : ℕ) (s : World) : World :=
  ((w.program Crypto.toy handle).run (machine Crypto.toy) (failing k) s).2

/-- The rename of a record's file reports an error: the record is there, and the index has it. When
the file cannot be read back after the next call, the handle is poisoned and refuses to write. -/
theorem writes_keep_agreement_sample : ∃ t u : World,
    (Write.put (ascii "b") [2]).Ends Crypto.toy Sample.handle opened t ∧
    ascii "b" ∈ (t.mem .home).index ∧
    (Write.put (ascii "b") [3]).Ends Crypto.toy Sample.handle t u ∧
    RefusesWrites Crypto.toy Sample.handle u := by
  have hin : ascii "b" ∈
      ((after (.put (ascii "b") [2]) 34 opened).mem .home).index := by decide +kernel
  have hpoisoned : ((after (.put (ascii "b") [3]) 15
      (after (.put (ascii "b") [2]) 34 opened)).mem
        Sample.handle.loc).poisoned = true := by
    decide +kernel
  have hu : Derives Crypto.toy exportKey ⟨Crypto.toy.hkdf exportKey kekPwInfo⟩ :=
    derive_password length_exportKey
  have hrun := run_openStore
  -- the world is arbitrary from here on, so that the computed one is never unfolded
  generalize opened = w at *
  obtain ⟨st, hst, hlive⟩ := wp_outcome (wp_openStore hu Sample.validProfileName
    internalIn (.inl ⟨blank_empty, rfl⟩)) (fun _ => reliable) hrun
  cases hst
  obtain ⟨F, hset, -⟩ := hlive.settled
  have hfirst : (Write.put (ascii "b") [2]).Ends Crypto.toy Sample.handle w
      (after (.put (ascii "b") [2]) 34 w) := ⟨_, rfl⟩
  have hlast : (Write.put (ascii "b") [3]).Ends Crypto.toy Sample.handle
      (after (.put (ascii "b") [2]) 34 w)
      (after (.put (ascii "b") [3]) 15 (after (.put (ascii "b") [2]) 34 w)) := ⟨_, rfl⟩
  have hb : ∀ payload, (Write.put (ascii "b") payload).name ∈ {n | n ∈ Sample.names} := by
    simp [Sample.names, Write.name]
  have hall : ∀ w ∈ [Write.put (ascii "b") [2]], w.name ∈ {n | n ∈ Sample.names} := by
    intro w hw
    rw [List.mem_singleton.mp hw]
    exact hb [2]
  obtain ⟨_, _, _, _, _, -, -, -, -, -, -, -, hmem⟩ := writes_keep_agreement tagInjOn
    internalIn hset.toReady hall (.cons hfirst .nil) (hb [3]) hlast
  refine ⟨_, _, hfirst, hin, hlast, ?_⟩
  rcases hmem with hrefuses | ⟨hhealthy, -⟩
  · exact hrefuses
  · rw [hpoisoned] at hhealthy
    cases hhealthy

end Powehi.Store
