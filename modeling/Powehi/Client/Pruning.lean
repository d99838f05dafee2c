import Powehi.Client.Joining
import Powehi.Client.KeyPackages

/-!
# Pruning the KeyPackages

What a pass over the KeyPackage batches does, wherever it is cut off: it deletes the private halves
of the packages it means to delete and of no others. When it completes, they are all gone.
-/

namespace Powehi.Client

open Codec Server Semantics Program List World Profile

variable {L : Libraries}

/-! ### Views of the profile -/

def Profile.batches (R : Profile L) : List Batch := (R.records .kpBatches).getD []

/-- Both private halves of a KeyPackage are in the profile. -/
def HasBoth (R : Profile L) (ref : KeyRef) : Prop :=
  (R.provider.bundles ref).isSome ∧ ref ∈ R.pqKeys.map Prod.fst

/-- The upload requests that were sent, with the time of the top-up. -/
def World.uploads (w : World L) : List (ℕ × List KeyRef) :=
  w.trace.filterMap fun e => match e with
    | .uploaded now refs => some (now, refs)
    | _ => none

/-- Replace the batches. An empty list is no record at all. -/
def World.withBatches (w : World L) (list : List Batch) : World L :=
  if list.isEmpty then w.erase .kpBatches else w.write .kpBatches list

section Views

variable {w : World L} {list : List Batch} {n : Name}

@[simp] theorem uploads_write (v : n.Value L) : (w.write n v).uploads = w.uploads := by
  cases n <;> simp [uploads, write, noteWrite, record]

@[simp] theorem uploads_erase : (w.erase n).uploads = w.uploads := by
  cases n <;> simp [uploads, erase, noteRemove, record]

@[simp] theorem generated_write (v : n.Value L) : (w.write n v).generated = w.generated := by
  cases n <;> simp [generated, write, noteWrite, record]

@[simp] theorem generated_erase : (w.erase n).generated = w.generated := by
  cases n <;> simp [generated, erase, noteRemove, record]

@[simp] theorem uploads_withBatches : (w.withBatches list).uploads = w.uploads := by
  unfold withBatches
  split <;> simp

@[simp] theorem generated_withBatches : (w.withBatches list).generated = w.generated := by
  unfold withBatches
  split <;> simp

@[simp] theorem batches_withBatches : (w.withBatches list).profile.batches = list := by
  unfold withBatches
  split
  · next h => simp [batches, isEmpty_iff.mp h]
  · simp [batches]

theorem records_withBatches (hn : n ≠ .kpBatches) :
    (w.withBatches list).profile.records n = w.profile.records n := by
  unfold withBatches
  split
  · exact records_remove_ne hn
  · exact records_put_ne hn

@[simp] theorem provider_withBatches :
    (w.withBatches list).profile.provider = w.profile.provider := by
  rw [provider, records_withBatches (by simp), provider]

@[simp] theorem pqKeys_withBatches : (w.withBatches list).profile.pqKeys = w.profile.pqKeys := by
  rw [pqKeys, records_withBatches (by simp), pqKeys]

@[simp] theorem provider_write_self (P : Provider L) :
    (w.write .mlsProvider P).profile.provider = P := by
  simp [provider]

@[simp] theorem pqKeys_write_provider (P : Provider L) :
    (w.write .mlsProvider P).profile.pqKeys = w.profile.pqKeys := by
  simp [pqKeys, records_put_ne]

@[simp] theorem batches_write_provider (P : Provider L) :
    (w.write .mlsProvider P).profile.batches = w.profile.batches := by
  simp [batches, records_put_ne]

@[simp] theorem pqKeys_write_self (keys : List (KeyRef × Bytes)) :
    (w.write .pqKeys keys).profile.pqKeys = keys := by
  simp [pqKeys]

@[simp] theorem provider_write_pqKeys (keys : List (KeyRef × Bytes)) :
    (w.write .pqKeys keys).profile.provider = w.profile.provider := by
  simp [provider, records_put_ne]

@[simp] theorem batches_write_pqKeys (keys : List (KeyRef × Bytes)) :
    (w.write .pqKeys keys).profile.batches = w.profile.batches := by
  simp [batches, records_put_ne]

end Views

/-! ### Reading and writing the batches -/

section Rules

variable {A : Choice L → Prop} {C : World L → Prop} {w : World L}

theorem wp_loadBatches {Q : Except Error (List Batch) → World L → Prop} (hC : C w)
    (hok : Q (.ok w.profile.batches) w) (herr : ∀ e, Q (.error e) w) :
    wp (machine L) A Batches.load Q C w :=
  wp_bind.mpr (wp_get hC ⟨hC, hok⟩ (herr _))

theorem wp_loadPqKeys {Q : Except Error (List (KeyRef × Bytes)) → World L → Prop} (hC : C w)
    (hok : Q (.ok w.profile.pqKeys) w) (herr : ∀ e, Q (.error e) w) :
    wp (machine L) A PqKeys.load Q C w :=
  wp_bind.mpr (wp_get hC ⟨hC, hok⟩ (herr _))

theorem wp_saveBatches {list : List Batch} {Q : Except Error Unit → World L → Prop} (hC : C w)
    (hC' : C (w.withBatches list)) (hok : Q (.ok ()) (w.withBatches list))
    (herr : ∀ e, Q (.error e) w ∧ Q (.error e) (w.withBatches list)) :
    wp (machine L) A (Batches.save list) Q C w := by
  rw [Batches.save, wp_bind]
  refine wp_ensure hC (fun _ => ?_) fun _ => (herr _).1
  unfold withBatches at hC' hok herr
  split
  · next h =>
    simp only [h, if_true] at hC' hok herr
    exact wp_remove hC hC' hok (herr _).1 (herr _).2
  · next h =>
    simp only [h] at hC' hok herr
    exact wp_put hC hC' hok (herr _).1 (herr _).2

theorem wp_savePqKeys {keys : List (KeyRef × Bytes)} {Q : Except Error Unit → World L → Prop}
    (hC : C w) (hC' : C (w.write .pqKeys keys)) (hok : Q (.ok ()) (w.write .pqKeys keys))
    (herr : ∀ e, Q (.error e) w ∧ Q (.error e) (w.write .pqKeys keys)) :
    wp (machine L) A (PqKeys.save keys) Q C w := by
  rw [PqKeys.save, wp_bind]
  refine wp_ensure hC (fun _ => ?_) fun _ => (herr _).1
  exact wp_put hC hC' hok (herr _).1 (herr _).2

end Rules

/-! ### A pruning pass -/

theorem bundles_foldl_deleteKeyPackage (refs : List KeyRef) (P : Provider L) (ref : KeyRef) :
    (refs.foldl Provider.deleteKeyPackage P).bundles ref =
      if ref ∈ refs then none else P.bundles ref := by
  induction refs generalizing P with
  | nil => rfl
  | cons r refs ih =>
    rw [foldl_cons, ih]
    by_cases href : ref = r
    · subst href
      simp [Provider.deleteKeyPackage]
    · simp [Provider.deleteKeyPackage, href]

/-- The KeyPackages a pruning pass deletes in this world. -/
def World.doomed (w : World L) (now : ℕ) : List KeyRef :=
  Batches.doomed now w.profile.pqKeys w.profile.batches

/-- What a pruning pass has done at any point: it deletes only what it means to delete. -/
structure PruneEffect (now : ℕ) (w t : World L) : Prop where
  uploads : t.uploads = w.uploads
  generated : t.generated = w.generated
  bundles : ∀ ref, t.profile.provider.bundles ref = w.profile.provider.bundles ref ∨
    ref ∈ w.doomed now ∧ t.profile.provider.bundles ref = none
  keys : ∀ ref, (ref ∈ t.profile.pqKeys.map Prod.fst ↔ ref ∈ w.profile.pqKeys.map Prod.fst) ∨
    ref ∈ w.doomed now ∧ ref ∉ t.profile.pqKeys.map Prod.fst
  batches : t.profile.batches = w.profile.batches ∨
    t.profile.batches = Batches.left now w.profile.pqKeys w.profile.batches

/-- The private halves of a KeyPackage are gone. -/
def Lost (R : Profile L) (ref : KeyRef) : Prop :=
  R.provider.bundles ref = none ∧ ref ∉ R.pqKeys.map Prod.fst

section Prune

variable {A : Choice L → Prop} {w t : World L} {now : ℕ}

theorem PruneEffect.refl (now : ℕ) (w : World L) : PruneEffect now w w :=
  ⟨rfl, rfl, fun _ => .inl rfl, fun _ => .inl Iff.rfl, .inl rfl⟩

theorem PruneEffect.withBatches (h : PruneEffect now w t) :
    PruneEffect now w
      (t.withBatches (Batches.left now w.profile.pqKeys w.profile.batches)) where
  uploads := by rw [uploads_withBatches, h.uploads]
  generated := by rw [generated_withBatches, h.generated]
  bundles ref := by
    rw [provider_withBatches]
    exact h.bundles ref
  keys ref := by
    rw [pqKeys_withBatches]
    exact h.keys ref
  batches := .inr batches_withBatches

/-- The world after the bundles are deleted, and after the keys are. -/
def World.withoutBundles (w : World L) (doomed : List KeyRef) : World L :=
  w.write .mlsProvider (doomed.foldl Provider.deleteKeyPackage w.profile.provider)

theorem pruneEffect_withoutBundles (now : ℕ) (w : World L) :
    PruneEffect now w (w.withoutBundles (w.doomed now)) where
  uploads := uploads_write _
  generated := generated_write _
  bundles ref := by
    rw [withoutBundles, provider_write_self, bundles_foldl_deleteKeyPackage]
    split
    · next h => exact .inr ⟨h, rfl⟩
    · exact .inl rfl
  keys ref := by
    exact .inl Iff.rfl
  batches := .inl (batches_write_provider _)

/-- The decapsulation keys without those of some KeyPackages. -/
def keysWithout (keys : List (KeyRef × Bytes)) (refs : List KeyRef) : List (KeyRef × Bytes) :=
  keys.filter (·.1 ∉ refs)

theorem mem_keysWithout {keys : List (KeyRef × Bytes)} {refs : List KeyRef} {ref : KeyRef} :
    ref ∈ (keysWithout keys refs).map Prod.fst ↔ ref ∈ keys.map Prod.fst ∧ ref ∉ refs := by
  simp only [keysWithout, mem_map, mem_filter, decide_eq_true_eq]
  constructor
  · rintro ⟨x, ⟨hx, hnot⟩, rfl⟩
    exact ⟨⟨x, hx, rfl⟩, hnot⟩
  · rintro ⟨⟨x, hx, rfl⟩, hnot⟩
    exact ⟨x, ⟨hx, hnot⟩, rfl⟩

theorem pruneEffect_withoutKeys (now : ℕ) (w : World L) :
    PruneEffect now w ((w.withoutBundles (w.doomed now)).write .pqKeys
      (keysWithout w.profile.pqKeys (w.doomed now))) where
  uploads := (uploads_write _).trans (uploads_write _)
  generated := (generated_write _).trans (generated_write _)
  bundles ref := by
    exact (pruneEffect_withoutBundles now w).bundles ref
  keys ref := by
    rw [pqKeys_write_self, mem_keysWithout]
    by_cases href : ref ∈ w.doomed now
    · exact .inr ⟨href, fun h => h.2 href⟩
    · exact .inl (by simp [href])
  batches := .inl (by rw [batches_write_pqKeys]; exact batches_write_provider _)

theorem lost_withoutKeys {ref : KeyRef} (h : ref ∈ w.doomed now) :
    Lost ((w.withoutBundles (w.doomed now)).write .pqKeys
      (keysWithout w.profile.pqKeys (w.doomed now))).profile ref := by
  constructor
  · rw [provider_write_pqKeys, withoutBundles, provider_write_self,
      bundles_foldl_deleteKeyPackage, if_pos h]
  · rw [pqKeys_write_self, mem_keysWithout]
    exact fun hk => hk.2 h

/-- How a pruning pass ends: when it completes, all it meant to delete is gone. -/
def PruneEnds (now : ℕ) (w : World L) (r : Except Error ℕ) (t : World L) : Prop :=
  PruneEffect now w t ∧
    ∀ n, r = .ok n → (∀ ref ∈ w.doomed now, Lost t.profile ref) ∧
      t.profile.batches = Batches.left now w.profile.pqKeys w.profile.batches

theorem wp_deleteKeys (now : ℕ) (w : World L) :
    wp (machine L) A (Batches.deleteKeys (w.doomed now) w.profile.pqKeys)
      (fun r t => PruneEffect now w t ∧ t.profile.batches = w.profile.batches ∧
        (r = .ok () → ∀ ref ∈ w.doomed now, Lost t.profile ref)) (PruneEffect now w) w := by
  have hrefl := PruneEffect.refl now w
  have hbundles := pruneEffect_withoutBundles now w
  have hkeys := pruneEffect_withoutKeys now w
  have hsame : (w.withoutBundles (w.doomed now)).profile.batches = w.profile.batches :=
    batches_write_provider _
  have hsame' : ((w.withoutBundles (w.doomed now)).write .pqKeys
      (keysWithout w.profile.pqKeys (w.doomed now))).profile.batches = w.profile.batches :=
    (batches_write_pqKeys _).trans hsame
  unfold Batches.deleteKeys
  split
  · next hempty =>
    refine ⟨hrefl, hrefl, rfl, fun _ ref href => ?_⟩
    rw [isEmpty_iff.mp hempty] at href
    cases href
  · rw [wp_bind]
    refine wp_loadProvider hrefl ?_ fun _ _ _ => ⟨hrefl, rfl, fun h => by cases h⟩
    rw [andThen_bind]
    refine wp_put hrefl hbundles ?_ ⟨hrefl, rfl, fun h => by cases h⟩
      ⟨hbundles, hsame, fun h => by cases h⟩
    exact wp_savePqKeys hbundles hkeys ⟨hkeys, hsame', fun _ _ => lost_withoutKeys⟩ fun e =>
      ⟨⟨hbundles, hsame, fun h => by cases h⟩, hkeys, hsame', fun h => by cases h⟩

theorem wp_prune (now : ℕ) (w : World L) :
    wp (machine L) A (Batches.prune now) (PruneEnds now w) (PruneEffect now w) w := by
  have herr : ∀ {e : Error} {t : World L}, PruneEffect now w t → PruneEnds now w (.error e) t :=
    fun h => ⟨h, fun n hn => by cases hn⟩
  have hrefl := PruneEffect.refl now w
  rw [Batches.prune, wp_bind]
  refine wp_loadBatches hrefl ?_ fun _ => herr hrefl
  rw [andThen_ok]
  split
  · next hempty =>
    have hnil := isEmpty_iff.mp hempty
    refine ⟨hrefl, hrefl, fun n _ => ⟨fun ref href => ?_, ?_⟩⟩
    · simp [doomed, Batches.doomed, Batches.orphans, Batches.due, Batches.kept, hnil] at href
    · simp [Batches.left, Batches.kept, hnil]
  · rw [wp_bind]
    refine wp_loadPqKeys hrefl ?_ fun _ => herr hrefl
    rw [andThen_bind]
    refine wp_mono (fun r t ht => ?_) (fun _ ht => ht) (wp_deleteKeys now w)
    obtain ⟨heff, hbatches, hlost⟩ := ht
    rcases r with e | _
    · exact herr heff
    have hfinal : ∀ n, PruneEnds now w (.ok n)
        (t.withBatches (Batches.left now w.profile.pqKeys w.profile.batches)) := by
      refine fun n => ⟨heff.withBatches, fun _ _ => ⟨fun ref href => ?_, batches_withBatches⟩⟩
      have := hlost rfl ref href
      rwa [Lost, ← provider_withBatches, ← pqKeys_withBatches] at this
    rw [andThen_bind, Batches.saveChanged]
    split
    · exact wp_saveBatches heff heff.withBatches ⟨heff.withBatches, hfinal _⟩ fun e =>
        ⟨herr heff, herr heff.withBatches⟩
    · next hsame =>
      refine ⟨heff, heff, heff, fun _ _ => ⟨hlost rfl, ?_⟩⟩
      rw [hbatches]
      exact (not_not.mp hsame).symm

end Prune

end Powehi.Client
