import Powehi.Store.Sessions

/-!
# Stored records

The invariant of a profile directory between calls: it holds the user records of a map under
the bundle in its key file, ready for the next `open`. An open handle keeps it, and so does
every point at which a call can be cut off.
-/

namespace Powehi.Store

open Codec Semantics Program

variable {cr : Crypto} {A : Choice → Prop} {st : ProfileStore} {N : Set Bytes} {s : World}
  {profile exportKey : Bytes} {pw : PasswordKek} {m : Map Bytes} {name : Bytes}

/-! ### The invariant -/

/-- The legacy files that a profile directory may hold. -/
inductive LegacyFiles
  | none
  | any

/-- The directory holds only such legacy files. -/
def LegacyFiles.Allow : LegacyFiles → Dir → Prop
  | none => NoLegacy
  | any => Unlinkable

theorem LegacyFiles.Allow.sameRest {X : LegacyFiles} {d d' : Dir} (h : X.Allow d)
    (hs : SameRest d d') : X.Allow d' := by
  cases X with
  | none => exact NoLegacy.sameRest h hs
  | any => exact Unlinkable.sameRest h hs

section

variable (X : LegacyFiles) (cr : Crypto) (profile : Bytes) (u : Unlocker) (N : Set Bytes)

/-- The profile directory holds the user records of `m` under `bundle`. -/
structure RecordsUnder (bundle : Bundle) (d : Dir) (m : Map Bytes) : Prop where
  journal : d.get .journal = none
  legacy : X.Allow d
  locked : Locked cr profile u bundle d
  tags : TagInjOn cr (handle profile bundle) N
  openable : ∃ F, Openable cr (handle profile bundle) N d F ∧ visible F = m

/-- The handle is open on a settled store with the user records of `m`. -/
structure OpenUnder (st : ProfileStore) (s : World) (m : Map Bytes) : Prop where
  loc : st.loc = .home
  sameProfile : st.profile = profile
  stored : RecordsUnder X cr profile u N st.bundle s.disk.home m
  settled : ∃ F, Settled cr st N s s.disk.home F ∧ visible F = m

end

abbrev StoredUnder := RecordsUnder .none

abbrev Live := OpenUnder .none

/-- The disk is one in which the next `open` finds the records of `m`. -/
def Stored (cr : Crypto) (profile : Bytes) (u : Unlocker) (N : Set Bytes) (k : Disk)
    (m : Map Bytes) : Prop :=
  Blank k.home ∧ m = ∅ ∨ ∃ bundle, StoredUnder cr profile u N bundle k.home m

section

variable {X : LegacyFiles} {u : Unlocker} {bundle : Bundle} {d d' : Dir} {m' : Map Bytes}

theorem RecordsUnder.noLegacy (h : StoredUnder cr profile u N bundle d m) : NoLegacy d := h.legacy

/-- A handle's own keys are those of the plain handle. -/
theorem OpenUnder.tags (h : OpenUnder X cr profile u N st s m) : TagInjOn cr st N :=
  h.stored.tags.of_keys rfl

/-- An open handle exposes the records. -/
theorem OpenUnder.shows (h : OpenUnder X cr profile u N st s m) (hA : FaultFree A) :
    Shows cr A N st s m := by
  obtain ⟨F, hset, rfl⟩ := h.settled
  exact hset.toReady.shows h.tags hA

/-- A settled directory recovers to its records. -/
theorem Settled.recovers {F : Map Bytes} (h : Settled cr st N s d F) : Recovers cr st N d F :=
  h.manifest.recovers h.bounded h.names h.pending

/-- A directory that changed in its records and manifest only. -/
theorem RecordsUnder.change (h : RecordsUnder X cr profile u N bundle d m) (hs : SameRest d d')
    (ho : ∃ F, Openable cr (handle profile bundle) N d' F ∧ visible F = m') :
    RecordsUnder X cr profile u N bundle d' m' where
  journal := (hs.get .journal).trans h.journal
  legacy := h.legacy.sameRest hs
  locked := h.locked.sameRest hs
  tags := h.tags
  openable := ho

/-- A settled handle on a changed directory has the records again. -/
theorem OpenUnder.of_settled {t : World} {F : Map Bytes} (hloc : st.loc = .home)
    (hp : st.profile = profile) (h : RecordsUnder X cr profile u N st.bundle d m)
    (hs : SameRest d d') (hset : Settled cr st N t d' F) :
    OpenUnder X cr profile u N st t (visible F) := by
  obtain rfl : t.disk.home = d' := by
    have hdir := hset.dir
    rw [hloc] at hdir
    exact Option.some.inj hdir
  refine ⟨hloc, hp, h.change hs ⟨F, ?_, rfl⟩, F, hset, rfl⟩
  exact Openable.of_keys (.inl hset.recovers) hp.symm rfl

end

/-! ### One call -/

/-- A directory in which a key file was just written. -/
theorem Blank.storedUnder {d : Dir} {bundle : Bundle} (h : Blank d)
    (hN : TagInjOn cr (handle profile bundle) N) (exportKey : Bytes) (pw : PasswordKek)
    (nonce : Nonce) :
    StoredUnder cr profile (.password exportKey pw) N bundle
      (d.withKeyfile cr (handle profile bundle) pw nonce) ∅ where
  journal := (Dir.get_set_of_ne _ _).trans h.journal
  legacy stem hstem := by
    exact h.noLegacy stem hstem
  locked := locked_withKeyfile _ _ _ _
  tags := hN
  openable := by
    refine ⟨∅, .inr ⟨?_, holds_empty fun stem hstem => ?_, rfl⟩, visible_empty⟩
    · exact (Dir.get_set_of_ne _ _).trans h.manifest
    · exact (Dir.get_set_of_ne _ _).trans (h.records stem hstem)

/-- `open` finds the records that are stored, and keeps them stored at every point. Without
faults it succeeds, except that a recovery phrase cannot create a store. -/
theorem wp_openAs {unlock : Unlock} {upgrade : Bool} {u : Unlocker} (hu : unlock.derive cr = .ok u)
    (hvalid : validProfileName profile = true) (hI : InternalIn N)
    (hA : ∀ c, A c → TagInjOn cr (handle profile c.bundle) N) (h : Stored cr profile u N s.disk m) :
    wp (machine cr) A (openAs cr profile unlock upgrade)
      (fun r t => (∀ st, r = .ok st → Live cr profile u N st t m) ∧
        (FaultFree A → u.byRecovery = false → ∃ st, r = .ok st))
      (fun t => Stored cr profile u N t.disk m) s := by
  rcases h with ⟨hblank, rfl⟩ | ⟨bundle, h⟩
  · cases u with
    | recovery rc =>
      obtain rfl : unlock = .recovery rc := by
        cases unlock with
        | password ek => obtain ⟨_, ⟨⟩, -⟩ := exists_of_derive hu
        | recovery rc' =>
          cases hu
          rfl
      exact wp_openAs_blank_recovery (K := fun k => Stored cr profile (.recovery rc) N k ∅) hvalid
        hblank (fun stg => .inl ⟨hblank, rfl⟩) fun e t => ⟨nofun, nofun⟩
    | password exportKey pw =>
      -- a new store
      obtain rfl : unlock = .password exportKey := (eq_password_of_derive hu).1
      refine wp_openStore_blank (K := fun k => Stored cr profile (.password exportKey pw) N k ∅) hu
        hvalid hblank hA hI (fun stg => .inl ⟨hblank, rfl⟩)
        (fun c d' G hc hj hno hlock hG ho => ?_) (fun c nonce x t d' hc _ hl => ?_)
        fun hA' e t => ⟨nofun, fun hA => absurd hA hA'⟩
      · exact .inr ⟨c.bundle, hj, hno, hlock, hA c hc, G, ho, hG⟩
      · refine ⟨?_, fun _ _ => ⟨_, rfl⟩⟩
        rintro st ⟨⟩
        have := OpenUnder.of_settled rfl rfl
          (hblank.storedUnder (hA c hc) exportKey pw nonce) hl.rest
          hl.settled
        rwa [visible_latched, visible_empty] at this
  · obtain ⟨F, hopen, rfl⟩ := h.openable
    refine wp_openAs_keyed (K := fun k => Stored cr profile u N k (visible F)) hu hvalid h.journal
      h.noLegacy h.locked hopen h.tags hI (fun d' stg G hs hG ho => ?_)
      (fun st t d' hst hl => ⟨?_, fun _ _ => ⟨st, rfl⟩⟩)
      fun hA' e t => ⟨nofun, fun hA => absurd hA hA'⟩
    · refine .inr ⟨bundle, h.change hs ⟨G, ho, ?_⟩⟩
      rcases hG with rfl | rfl
      · rfl
      · exact visible_latched F
    · rintro _ ⟨⟩
      obtain ⟨hloc, hp, rfl, -, -⟩ := hst
      rw [← visible_latched F]
      exact OpenUnder.of_settled hloc hp h hl.rest hl.settled

/-- Opening with the password when nothing fails. -/
theorem wp_openStore (hu : Derives cr exportKey pw) (hvalid : validProfileName profile = true)
    (hI : InternalIn N) (h : Stored cr profile (.password exportKey pw) N s.disk m) :
    wp (machine cr) (Reliable cr profile N) (openStore cr profile exportKey)
      (fun r t => ∃ st, r = .ok st ∧ Live cr profile (.password exportKey pw) N st t m)
      (fun t => Stored cr profile (.password exportKey pw) N t.disk m) s := by
  refine wp_mono (fun r t hr => ?_) (fun _ ht => ht) (wp_openAs hu hvalid hI (fun c hc => hc.2) h)
  obtain ⟨st, hst⟩ := hr.2 Reliable.faultFree rfl
  exact ⟨st, hst, hr.1 st hst⟩

section Calls

variable {X : LegacyFiles} {u : Unlocker} {v : Option Bytes}

/-- At a point at which a call was cut off, the old or the new records are stored. -/
theorem OpenUnder.cut (h : OpenUnder X cr profile u N st s m) {F G : Map Bytes} {d' : Dir}
    (hF : visible F = m) (hs : SameRest s.disk.home d') (hclose : Close N name v F G)
    (hrec : Recovers cr st N d' G) :
    (∃ bundle, RecordsUnder X cr profile u N bundle (s.disk.setDir st.loc d').home m) ∨
      ∃ bundle, RecordsUnder X cr profile u N bundle (s.disk.setDir st.loc d').home
        (m.update name v) := by
  have hopen : Openable cr (handle profile st.bundle) N d' G :=
    Openable.of_keys (.inl hrec) h.sameProfile.symm rfl
  subst hF
  rw [h.loc]
  rcases hclose.visible with hG | hG
  · exact .inl ⟨st.bundle, h.stored.change hs ⟨G, hopen, hG⟩⟩
  · exact .inr ⟨st.bundle, h.stored.change hs ⟨G, hopen, hG⟩⟩

theorem OpenUnder.toStored (h : Live cr profile u N st s m) : Stored cr profile u N s.disk m :=
  .inr ⟨st.bundle, h.stored⟩

/-- `put` on a settled store settles it again, and nothing beside the records and the manifest
changes. -/
theorem wp_put_settled {K : Disk → Prop} {F : Map Bytes} (payload : Bytes) (hA : FaultFree A)
    (hI : InternalIn N) (hname : name ∈ N) (hN : TagInjOn cr st N)
    (hset : Settled cr st N s s.disk.home F) (hK : K s.disk)
    (hmid : ∀ d' G, SameRest s.disk.home d' → Close N name (some payload) F G →
      Recovers cr st N d' G → K (s.disk.setDir st.loc d')) :
    wp (machine cr) A (put cr st name payload)
      (fun r t => ∃ d' G, Settled cr st N t d' G ∧ SameRest s.disk.home d' ∧
        visible G = if r.isOk then (visible F).update name (some payload) else visible F)
      (fun t => K t.disk) s := by
  refine wp_put hset.toReady hN hI hname hK hmid (fun e => ⟨_, F, hset, .refl _, rfl⟩)
    (fun t d' G hint hw => ?_) fun hA' => absurd hA hA'
  rcases hw with hw | hw
  · obtain - | ⟨hw, hnil⟩ := hw
    cases hnil
    refine ⟨d', _, hw.toSettled, hw.same.sameRest, ?_⟩
    rw [visible_update, hint]
    rfl
  · -- the marker was written first
    obtain - | ⟨hw₁, hrest⟩ := hw
    obtain - | ⟨hw₂, hnil⟩ := hrest
    cases hnil
    refine ⟨d', _, hw₂.toSettled, hw₁.same.sameRest.trans hw₂.same.sameRest, ?_⟩
    rw [visible_update, hint, visible_update, isInternal_marker]
    rfl

theorem wp_remove_settled {K : Disk → Prop} {F : Map Bytes} (hA : FaultFree A) (hname : name ∈ N)
    (hN : TagInjOn cr st N) (hset : Settled cr st N s s.disk.home F) (hK : K s.disk)
    (hmid : ∀ d' G, SameRest s.disk.home d' → Close N name none F G →
      Recovers cr st N d' G → K (s.disk.setDir st.loc d')) :
    wp (machine cr) A (remove cr st name)
      (fun r t => ∃ d' G, Settled cr st N t d' G ∧ SameRest s.disk.home d' ∧
        visible G = if r.isOk then (visible F).update name none else visible F)
      (fun t => K t.disk) s := by
  refine wp_remove hset.toReady hN hname hK hmid (fun e => ⟨_, F, hset, .refl _, rfl⟩)
    (fun hint hout => ⟨_, F, hset, .refl _, ?_⟩) (fun t d' hint hw => ?_) fun hA' => absurd hA hA'
  · -- deleting what is not there changes nothing
    have hnone : (visible F)[name]? = none := by
      rw [getElem?_visible, hint, Std.ExtTreeMap.getElem?_eq_none hout]
      rfl
    change visible F = (visible F).update name none
    rw [← hnone, Map.update_getElem?]
  · refine ⟨d', _, hw.toSettled, hw.same.sameRest, ?_⟩
    rw [visible_update, hint]
    rfl

theorem wp_put_open (payload : Bytes) (hA : FaultFree A) (hI : InternalIn N) (hname : name ∈ N)
    (h : OpenUnder X cr profile u N st s m) :
    wp (machine cr) A (put cr st name payload)
      (fun r t => OpenUnder X cr profile u N st t
        (if r.isOk then m.update name (some payload) else m))
      (fun t => (∃ bundle, RecordsUnder X cr profile u N bundle t.disk.home m) ∨
        ∃ bundle, RecordsUnder X cr profile u N bundle t.disk.home
          (m.update name (some payload))) s := by
  obtain ⟨F, hset, rfl⟩ := h.settled
  refine wp_mono (fun r t hr => ?_) (fun _ ht => ht) (wp_put_settled (K := fun k =>
    (∃ b, RecordsUnder X cr profile u N b k.home (visible F)) ∨
      ∃ b, RecordsUnder X cr profile u N b k.home _) payload hA hI hname h.tags hset
    (.inl ⟨_, h.stored⟩) fun d' G => h.cut rfl)
  obtain ⟨d', G, hset', hs, hvis⟩ := hr
  exact hvis ▸ .of_settled h.loc h.sameProfile h.stored hs hset'

theorem wp_remove_open (hA : FaultFree A) (hname : name ∈ N)
    (h : OpenUnder X cr profile u N st s m) :
    wp (machine cr) A (remove cr st name)
      (fun r t => OpenUnder X cr profile u N st t (if r.isOk then m.update name none else m))
      (fun t => (∃ bundle, RecordsUnder X cr profile u N bundle t.disk.home m) ∨
        ∃ bundle, RecordsUnder X cr profile u N bundle t.disk.home (m.update name none)) s := by
  obtain ⟨F, hset, rfl⟩ := h.settled
  refine wp_mono (fun r t hr => ?_) (fun _ ht => ht) (wp_remove_settled (K := fun k =>
    (∃ b, RecordsUnder X cr profile u N b k.home (visible F)) ∨
      ∃ b, RecordsUnder X cr profile u N b k.home _) hA hname h.tags hset
    (.inl ⟨_, h.stored⟩) fun d' G => h.cut rfl)
  obtain ⟨d', G, hset', hs, hvis⟩ := hr
  exact hvis ▸ .of_settled h.loc h.sameProfile h.stored hs hset'

end Calls

end Powehi.Store
