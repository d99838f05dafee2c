import Powehi.Client.Pruning
import Powehi.Semantics.Fallible

/-!
# Keys for the KeyPackages on the server

A KeyPackage whose upload request was sent may be handed out until its retention has run out. Unless
a join consumed it or a request was dropped with it, its two private halves are in the profile all
that time, wherever a top-up, a pruning pass, a join or a decline is cut off. A completed pruning
pass deletes the private halves of all batches that were never marked as sent and of those whose
retention has run out.

A batch is marked as sent just before its request leaves. So a crash in between leaves a batch that
was never sent and is still kept for the whole retention.
-/

namespace Powehi.Client

open Codec Server Semantics Program List World Request Profile Prod

variable {L : Libraries}
variable {b : Batch} {ref : KeyRef} {n : Name} {u : World L} {state : BatchState}
  {C : World L → Prop}

/-! ### The invariant -/

/-- Every reference in the profile was made by the library. -/
structure Known (w : World L) : Prop where
  batches : ∀ b ∈ w.profile.batches, ∀ ref ∈ b.refs, ref ∈ w.generated
  uploads : ∀ u ∈ w.uploads, ∀ ref ∈ u.2, ref ∈ w.generated

/-- A sent KeyPackage is kept, and no batch that names it is due before its retention runs out. -/
def Kept (w : World L) (sent : ℕ) (ref : KeyRef) : Prop :=
  HasBoth w.profile ref ∧
    ∀ b ∈ w.profile.batches, ref ∈ b.refs → b.state ≠ .prepared ∧ sent ≤ b.since

/-- What was sent is kept unless it was spent or its retention has run out. -/
structure Guarded (clock : ℕ) (spent : Set KeyRef) (w : World L) : Prop where
  known : Known w
  kept : ∀ u ∈ w.uploads, ∀ ref ∈ u.2,
    ref ∈ spent ∨ u.1 + retentionSecs ≤ clock ∨ Kept w u.1 ref

section Invariant

variable {A : Choice L → Prop} {w t : World L} {now clock : ℕ} {spent : Set KeyRef}

theorem Guarded.mono {clock' : ℕ} (h : Guarded clock spent w) (hle : clock ≤ clock') :
    Guarded clock' spent w where
  known := h.known
  kept u hu ref href := (h.kept u hu ref href).imp_right (Or.imp_left fun ht => ht.trans hle)

theorem Batch.not_due {sent : ℕ} (hstate : b.state ≠ .prepared) (hsince : sent ≤ b.since)
    (hnow : now < sent + retentionSecs) : b.isDue now = false := by
  unfold Batch.isDue
  cases hb : b.state with
  | prepared => exact absurd hb hstate
  | sent | confirmed => exact decide_eq_false (by omega)

/-- What is left of the batches are parts of them, in the same state. -/
theorem mem_left {keys : List (KeyRef × Bytes)} {list : List Batch}
    (h : b ∈ Batches.left now keys list) :
    ∃ b' ∈ list, b.state = b'.state ∧ b.since = b'.since ∧ b.refs ⊆ b'.refs := by
  have hkept : b ∈ Batches.kept keys list := by
    unfold Batches.left at h
    split at h
    · exact h
    · exact mem_of_mem_filter h
  obtain ⟨b', hb', rfl⟩ := mem_map.mp (mem_of_mem_filter hkept)
  exact ⟨b', hb', rfl, rfl, filter_subset_self _⟩

/-- A kept KeyPackage is not deleted before its retention has run out. -/
theorem Kept.not_doomed {sent : ℕ} (h : Kept w sent ref) (hnow : now < sent + retentionSecs) :
    ref ∉ w.doomed now := by
  intro hdoomed
  rcases mem_append.mp hdoomed with horphan | hdue
  · obtain ⟨b, -, hb⟩ := mem_flatMap.mp horphan
    obtain ⟨x, hx, rfl⟩ := mem_map.mp h.1.2
    have := (mem_filter.mp hb).2
    simp only [Bool.not_eq_true', any_eq_false, decide_eq_true_eq] at this
    exact this x hx rfl
  · obtain ⟨b, hb, href⟩ := mem_flatMap.mp hdue
    obtain ⟨hmem, hdue⟩ := mem_filter.mp hb
    obtain ⟨b', hb', rfl⟩ := mem_map.mp (mem_of_mem_filter hmem)
    obtain ⟨hstate, hsince⟩ := h.2 b' hb' (mem_of_mem_filter href)
    have hnot : b'.isDue now = false := Batch.not_due hstate hsince hnow
    exact Bool.false_ne_true (hnot.symm.trans hdue)

/-- A pruning pass keeps the invariant, wherever it is cut off. -/
theorem Guarded.prune (h : Guarded now spent w) (heff : PruneEffect now w t) :
    Guarded now spent t where
  known := by
    refine ⟨fun b hb ref href => ?_, ?_⟩
    · rw [heff.generated]
      rcases heff.batches with hsame | hleft
      · exact h.known.batches b (hsame ▸ hb) ref href
      · obtain ⟨b', hb', -, -, hsub⟩ := mem_left (hleft ▸ hb)
        exact h.known.batches b' hb' ref (hsub href)
    · rw [heff.uploads, heff.generated]
      exact h.known.uploads
  kept u hu ref href := by
    rw [heff.uploads] at hu
    rcases h.kept u hu ref href with hspent | hold | hkept
    · exact .inl hspent
    · exact .inr (.inl hold)
    · by_cases hnow : now < u.1 + retentionSecs
      · have hnot := hkept.not_doomed hnow
        refine .inr (.inr ⟨⟨?_, ?_⟩, fun b hb hmem => ?_⟩)
        · rcases heff.bundles ref with hsame | ⟨hd, -⟩
          · rw [hsame]
            exact hkept.1.1
          · exact absurd hd hnot
        · rcases heff.keys ref with hsame | ⟨hd, -⟩
          · exact hsame.mpr hkept.1.2
          · exact absurd hd hnot
        · rcases heff.batches with hsame | hleft
          · exact hkept.2 b (hsame ▸ hb) hmem
          · obtain ⟨b', hb', hstate, hsince, hsub⟩ := mem_left (hleft ▸ hb)
            rw [hstate, hsince]
            exact hkept.2 b' hb' (hsub hmem)
      · exact .inr (.inl (not_lt.mp hnow))

/-- A step that sends nothing, keeps all private halves and names no sent KeyPackage anew. -/
theorem Guarded.grow (h : Guarded clock spent w) (huploads : t.uploads = w.uploads)
    (hgenerated : w.generated ⊆ t.generated)
    (hboth : ∀ ref, HasBoth w.profile ref → HasBoth t.profile ref)
    (hbatches : ∀ b ∈ t.profile.batches, b ∈ w.profile.batches ∨
      ∀ ref ∈ b.refs, ref ∈ t.generated ∧ ∀ u ∈ w.uploads, ref ∉ u.2) : Guarded clock spent t where
  known := by
    refine ⟨fun b hb ref href => ?_, fun u hu ref href => ?_⟩
    · rcases hbatches b hb with hold | hnew
      · exact hgenerated (h.known.batches b hold ref href)
      · exact (hnew ref href).1
    · exact hgenerated (h.known.uploads u (huploads ▸ hu) ref href)
  kept u hu ref href := by
    rw [huploads] at hu
    refine (h.kept u hu ref href).imp_right (Or.imp_right fun hkept => ⟨hboth ref hkept.1, ?_⟩)
    intro b hb hmem
    rcases hbatches b hb with hold | hnew
    · exact hkept.2 b hold hmem
    · exact absurd href ((hnew ref hmem).2 u hu)

end Invariant

/-! ### A top-up -/

theorem chunks_flatten {α : Type} {n : ℕ} (hn : 0 < n) (fuel : ℕ) (xs : List α)
    (hfuel : xs.length ≤ fuel) : (chunks n fuel xs).flatten = xs := by
  induction fuel generalizing xs with
  | zero => simp [chunks, eq_nil_of_length_eq_zero (Nat.le_zero.mp hfuel)]
  | succ fuel ih =>
    cases xs with
    | nil => rfl
    | cons x xs =>
      have hlen : ((x :: xs).drop n).length ≤ fuel := by
        rw [length_drop] at *
        omega
      rw [chunks, flatten_cons, ih _ hlen, take_append_drop]
      simp

theorem chunks_ne_nil {α : Type} {n : ℕ} (hn : 0 < n) (fuel : ℕ) (xs : List α) :
    ∀ c ∈ chunks n fuel xs, c ≠ [] := by
  induction fuel generalizing xs with
  | zero => simp [chunks]
  | succ fuel ih =>
    cases xs with
    | nil => simp [chunks]
    | cons x xs =>
      intro c hc
      rw [chunks, mem_cons] at hc
      · rcases hc with rfl | hc
        · obtain ⟨m, rfl⟩ := Nat.exists_eq_succ_of_ne_zero hn.ne'
          simp
        · exact ih _ c hc
      · simp

theorem uploadChunks_flatten (refs : List KeyRef) : (uploadChunks refs).flatten = refs :=
  chunks_flatten (by decide) _ _ le_rfl

/-- The library made KeyPackages, nothing else happened. -/
structure Generated (w t : World L) : Prop where
  profile : t.profile = w.profile
  uploads : t.uploads = w.uploads
  generated : w.generated ⊆ t.generated

/-- New KeyPackages: never made before, with their bundles in the new key store. -/
structure Made (w t : World L) (P P' : Provider L) (new : List KeyRef) : Prop where
  nodup : new.Nodup
  fresh : ∀ ref ∈ new, ref ∉ w.generated
  generated : new ⊆ t.generated
  bundles : ∀ ref, (P.bundles ref).isSome ∨ ref ∈ new → (P'.bundles ref).isSome

section TopUp

variable {A : Choice L → Prop} {w t : World L} {now clock : ℕ} {spent : Set KeyRef}

theorem Generated.refl (w : World L) : Generated w w := ⟨rfl, rfl, Subset.refl _⟩

theorem generated_record (w : World L) (ref : KeyRef) :
    (w.record (.generated ref)).generated = w.generated ++ [ref] := by
  simp [generated, record]

/-- The library fails, or makes a KeyPackage with a new reference. -/
theorem generate_cases (c : Choice L) (w : World L) :
    (∃ e, (machine L).exec .generate c w = (.error e, w)) ∨
      ∃ package : PqKeyPackage L, package.keyPackageRef ∉ w.generated ∧
        (machine L).exec .generate c w =
          (.ok package, w.record (.generated package.keyPackageRef)) := by
  cases hc : c.package with
  | error e => exact .inl ⟨e, by simp [machine, hc]⟩
  | ok package =>
    by_cases hmem : package.keyPackageRef ∈ w.generated
    · exact .inl ⟨.mls, by simp [machine, hc, hmem]⟩
    · exact .inr ⟨package, hmem, by simp [machine, hc, hmem]⟩

theorem wp_generate (n : ℕ) (P : Provider L) (made : List (KeyRef × Bytes)) (w : World L) :
    wp (machine L) A (generate n P made)
      (fun r t => Generated w t ∧ ∀ P' made', r = .ok (P', made') →
        ∃ new, made' = made ++ new ∧ Made w t P P' (new.map fst))
      (Generated w) w := by
  induction n generalizing P made w with
  | zero =>
    refine ⟨.refl w, .refl w, fun P' made' h => ⟨[], ?_, ?_⟩⟩
    · simpa using (state_of_ok h).symm
    · obtain rfl : P = P' := congrArg fst (Except.ok.inj h)
      exact ⟨.nil, by simp, by simp, fun ref h => by simpa using h⟩
  | succ n ih =>
    rw [generate, wp_bind]
    refine ⟨.refl w, fun c _ => ?_⟩
    obtain ⟨e, hexec⟩ | ⟨package, hfresh, hexec⟩ := generate_cases c w
    · rw [hexec]
      exact ⟨.refl w, .refl w, fun _ _ h => by cases h⟩
    · rw [hexec]
      have hgen := generated_record w package.keyPackageRef
      have hstep : ∀ t, Generated (w.record (.generated package.keyPackageRef)) t →
          Generated w t := by
        intro t ht
        refine ⟨ht.profile, ht.uploads.trans ?_, fun ref href => ht.generated ?_⟩
        · simp [uploads, record]
        · rw [hgen]
          exact mem_append_left _ href
      refine ⟨hstep _ (.refl _), wp_mono (fun r t ht => ⟨hstep t ht.1, ?_⟩) hstep (ih _ _ _)⟩
      intro P' made' hr
      obtain ⟨new, rfl, hmade⟩ := ht.2 P' made' hr
      refine ⟨(package.keyPackageRef, package.decapKey) :: new, by simp, ?_⟩
      refine ⟨nodup_cons.mpr ⟨fun hmem => ?_, hmade.nodup⟩, ?_, ?_, ?_⟩
      · refine hmade.fresh _ hmem ?_
        rw [hgen]
        exact mem_append_right _ (mem_singleton_self _)
      · intro ref href hold
        rcases mem_cons.mp href with rfl | href
        · exact hfresh hold
        · refine hmade.fresh ref href ?_
          rw [hgen]
          exact mem_append_left _ hold
      · refine cons_subset.mpr ⟨ht.1.generated ?_, hmade.generated⟩
        rw [hgen]
        exact mem_append_right _ (mem_singleton_self _)
      · intro ref href
        refine hmade.bundles ref ?_
        by_cases hsame : ref = package.keyPackageRef
        · subst hsame
          simp [Provider.addKeyPackage]
        · refine href.imp (fun hP => ?_) fun hmem => (mem_cons.mp hmem).resolve_left hsame
          simpa [Provider.addKeyPackage, hsame] using hP

/-- A batch that was written down and not yet sent. -/
def prepared (refs : List KeyRef) : Batch := ⟨.prepared, 0, refs⟩

/-- The batches that are still to be uploaded: their keys are stored and only they name them. -/
structure Pool (clock : ℕ) (spent : Set KeyRef) (todo : List (List KeyRef)) (t : World L) :
    Prop where
  guarded : Guarded clock spent t
  ne_nil : ∀ c ∈ todo, c ≠ []
  nodup : todo.flatten.Nodup
  both : ∀ ref ∈ todo.flatten, HasBoth t.profile ref
  made : ∀ ref ∈ todo.flatten, ref ∈ t.generated
  unsent : ∀ ref ∈ todo.flatten, ∀ u ∈ t.uploads, ref ∉ u.2
  batches : ∃ pre, t.profile.batches = pre ++ todo.map prepared ∧
    ∀ b ∈ pre, ∀ ref ∈ b.refs, ref ∉ todo.flatten

theorem Guarded.generated (h : Guarded clock spent w) (hgen : Generated w t) :
    Guarded clock spent t :=
  h.grow hgen.uploads hgen.generated (fun ref => by rw [hgen.profile]; exact id)
    fun b hb => .inl (by rwa [hgen.profile] at hb)

/-- New KeyPackages are named nowhere yet. -/
theorem Guarded.fresh (h : Guarded clock spent w) (href : ref ∉ w.generated) :
    (∀ b ∈ w.profile.batches, ref ∉ b.refs) ∧ ∀ u ∈ w.uploads, ref ∉ u.2 :=
  ⟨fun b hb hmem => href (h.known.batches b hb ref hmem),
    fun u hu hmem => href (h.known.uploads u hu ref hmem)⟩

/-- The invariant holds, and on success the new KeyPackages are ready to be uploaded. -/
def Stocked (clock : ℕ) (spent : Set KeyRef) (r : Except Error (List KeyRef))
    (t : World L) : Prop :=
  Guarded clock spent t ∧ ∀ refs, r = .ok refs → Pool clock spent (uploadChunks refs) t

theorem stocked_error {e : Error} (h : Guarded clock spent t) : Stocked clock spent (.error e) t :=
  ⟨h, fun _ h => by cases h⟩

/-- Storing new KeyPackages: the batches, then the bundles, then the keys. -/
theorem wp_storeMade {P' : Provider L} {new : List (KeyRef × Bytes)} (h : Guarded clock spent w)
    (hgen : Generated w u) (hnew : Made w u w.profile.provider P' (new.map fst)) :
    wp (machine L) A (do
        trackPrepared true (new.map fst)
        saveProvider P'
        PqKeys.save (w.profile.pqKeys ++ new)
        return new.map fst)
      (Stocked clock spent) (Guarded clock spent) u := by
  have hu := h.generated hgen
  set chunks := uploadChunks (new.map fst) with hchunks
  have hflatten : chunks.flatten = new.map fst := uploadChunks_flatten _
  set u1 := u.withBatches (u.profile.batches ++ chunks.map prepared) with hu1
  set u2 := u1.write .mlsProvider P' with hu2
  set u3 := u2.write .pqKeys (w.profile.pqKeys ++ new) with hu3
  have hprovider : u1.profile.provider = w.profile.provider := by
    rw [provider_withBatches, hgen.profile]
  have hkeys : u2.profile.pqKeys = w.profile.pqKeys := by
    rw [pqKeys_write_provider, hu1, pqKeys_withBatches, hgen.profile]
  -- what is new was never sent, so its batches may be there before its private halves
  have h1 : Guarded clock spent u1 := by
    refine hu.grow uploads_withBatches (by simp [hu1]) (fun ref hboth => ?_) fun b hb => ?_
    · rwa [HasBoth, hu1, provider_withBatches, pqKeys_withBatches]
    · rw [batches_withBatches, mem_append] at hb
      refine hb.imp_right fun hb ref href => ?_
      obtain ⟨c, hc, rfl⟩ := mem_map.mp hb
      have hmem : ref ∈ new.map fst := hflatten ▸ mem_flatten.mpr ⟨c, hc, href⟩
      rw [generated_withBatches, hgen.uploads]
      exact ⟨hnew.generated hmem, (h.fresh (hnew.fresh ref hmem)).2⟩
  have h2 : Guarded clock spent u2 := by
    refine h1.grow (uploads_write _) (by simp [hu2]) (fun ref hboth => ?_) fun b hb => .inl ?_
    · refine ⟨?_, by rw [hu2, pqKeys_write_provider]; exact hboth.2⟩
      exact hnew.bundles ref (.inl (hprovider ▸ hboth.1))
    · rwa [hu2, batches_write_provider] at hb
  have h3 : Guarded clock spent u3 := by
    refine h2.grow (uploads_write _) (by simp [hu3]) (fun ref hboth => ?_) fun b hb => .inl ?_
    · refine ⟨by rw [hu3, provider_write_pqKeys]; exact hboth.1, ?_⟩
      rw [pqKeys_write_self, map_append, mem_append, ← hkeys]
      exact .inl hboth.2
    · rwa [hu3, batches_write_pqKeys] at hb
  have hpool : Pool clock spent chunks u3 := by
    refine ⟨h3, chunks_ne_nil (by decide) _ _, hflatten ▸ hnew.nodup, fun ref href => ?_,
      fun ref href => ?_, fun ref href => ?_, u.profile.batches, ?_, fun b hb ref href hmem => ?_⟩
    · rw [hflatten] at href
      constructor
      · exact hnew.bundles ref (.inr href)
      · rw [pqKeys_write_self, map_append]
        exact mem_append_right _ href
    · rw [hflatten] at href
      simpa [hu3, hu2, hu1] using hnew.generated href
    · rw [hflatten] at href
      rw [uploads_write, hu2, uploads_write, hu1, uploads_withBatches, hgen.uploads]
      exact (h.fresh (hnew.fresh ref href)).2
    · rw [batches_write_pqKeys, hu2, batches_write_provider, hu1, batches_withBatches]
    · rw [hflatten] at hmem
      rw [hgen.profile] at hb
      exact (h.fresh (hnew.fresh ref hmem)).1 b hb href
  rw [trackPrepared, if_pos rfl, Batches.recordPrepared, wp_bind, wp_bind]
  refine wp_loadBatches hu ?_ fun _ => stocked_error hu
  refine wp_saveBatches hu h1 ?_ fun e => ⟨stocked_error hu, stocked_error h1⟩
  rw [andThen_bind]
  refine wp_put h1 h2 ?_ (stocked_error h1) (stocked_error h2)
  rw [andThen_bind]
  refine wp_savePqKeys h2 h3 ⟨h3, h3, fun refs hrefs => ?_⟩ fun e =>
    ⟨stocked_error h2, stocked_error h3⟩
  obtain rfl := Except.ok.inj hrefs
  exact hpool

theorem wp_generateInner (h : Guarded clock spent w) (n : ℕ) :
    wp (machine L) A (generateInner w.profile.provider n true)
      (Stocked clock spent) (Guarded clock spent) w := by
  rw [generateInner, wp_bind]
  refine wp_loadPqKeys h ?_ fun _ => stocked_error h
  rw [andThen_bind]
  refine wp_ensure h (fun _ => ?_) fun _ => stocked_error h
  rw [andThen_bind]
  refine wp_mono (fun r u hu => ?_) (fun u hu => h.generated hu) (wp_generate n _ [] w)
  obtain ⟨hgen, hmade⟩ := hu
  rcases r with e | ⟨P', made⟩
  · exact stocked_error (h.generated hgen)
  · obtain ⟨new, rfl, hnew⟩ := hmade P' made rfl
    exact wp_storeMade h hgen hnew

/-- The batch of a reference is the first one that starts with it. -/
theorem advance_append {first : KeyRef} {pre post : List Batch} (hpre : ∀ b' ∈ pre, first ∉ b'.refs)
    (hb : b.refs.head? = some first) :
    Batches.advance first state now (pre ++ b :: post) =
      some (pre ++ { b with state := state, since := now } :: post) := by
  induction pre with
  | nil => exact if_pos hb
  | cons b' pre ih =>
    have hne : b'.refs.head? ≠ some first := fun h => hpre b' mem_cons_self (mem_of_mem_head? h)
    rw [cons_append, Batches.advance, if_neg hne, ih fun b hb => hpre b (mem_cons_of_mem _ hb)]
    rfl

theorem wp_setState {first : KeyRef} {list : List Batch} {Q : Except Error Unit → World L → Prop}
    (hlist : Batches.advance first state now w.profile.batches = some list) (hC : C w)
    (hC' : C (w.withBatches list)) (hok : Q (.ok ()) (w.withBatches list))
    (herr : ∀ e, Q (.error e) w ∧ Q (.error e) (w.withBatches list)) :
    wp (machine L) A (Batches.setState first state now) Q C w := by
  rw [Batches.setState, wp_bind]
  refine wp_loadBatches hC ?_ fun e => (herr e).1
  rw [andThen_ok, hlist]
  exact wp_saveBatches hC hC' hok herr

/-- A batch that is marked as sent or confirmed leaves the pool, and its request may be sent. -/
theorem Pool.marked {c : List KeyRef} {todo : List (List KeyRef)} {pre : List Batch}
    (h : Pool now spent (c :: todo) w) (hstate : state ≠ .prepared)
    (hpre : w.profile.batches = pre ++ (c :: todo).map prepared)
    (hapart : ∀ b ∈ pre, ∀ ref ∈ b.refs, ref ∉ (c :: todo).flatten)
    (hbatches : t.profile.batches = pre ++ ⟨state, now, c⟩ :: todo.map prepared)
    (huploads : t.uploads = w.uploads ∨ t.uploads = w.uploads ++ [(now, c)])
    (hgenerated : t.generated = w.generated)
    (hboth : ∀ ref, HasBoth w.profile ref → HasBoth t.profile ref) : Pool now spent todo t := by
  have hc : ∀ ref ∈ c, ref ∈ (c :: todo).flatten := fun ref href => by simp [href]
  have htodo : ∀ ref ∈ todo.flatten, ref ∈ (c :: todo).flatten := fun ref href => by
    exact mem_append_right _ href
  have hdisjoint : ∀ ref ∈ c, ref ∉ todo.flatten := by
    have := h.nodup
    rw [flatten_cons, nodup_append] at this
    exact fun ref hrc hrt => this.2.2 ref hrc ref hrt rfl
  -- a batch afterwards was there before and has no package of `c`, or it is that of `c`
  have hmem : ∀ b ∈ t.profile.batches, b ∈ w.profile.batches ∧ (∀ ref ∈ b.refs, ref ∉ c) ∨
      b = ⟨state, now, c⟩ := by
    intro b hb
    rw [hbatches, mem_append, mem_cons] at hb
    rcases hb with hb | rfl | hb
    · exact .inl ⟨hpre ▸ mem_append_left _ hb, fun ref href hrc =>
        hapart b hb ref href (hc ref hrc)⟩
    · exact .inr rfl
    · refine .inl ⟨hpre ▸ mem_append_right _ (mem_cons_of_mem _ hb), ?_⟩
      obtain ⟨c', hc', rfl⟩ := mem_map.mp hb
      exact fun ref href hrc => hdisjoint ref hrc (mem_flatten.mpr ⟨c', hc', href⟩)
  have hsent : ∀ u ∈ t.uploads, u ∈ w.uploads ∨ u = (now, c) := by
    intro u hu
    rcases huploads with hsame | hmore
    · exact .inl (hsame ▸ hu)
    · rw [hmore, mem_append, mem_singleton] at hu
      exact hu
  refine ⟨⟨⟨fun b hb ref href => ?_, fun u hu ref href => ?_⟩, fun u hu ref href => ?_⟩,
    fun c' hc' => h.ne_nil c' (mem_cons_of_mem _ hc'), ?_, fun ref href =>
      hboth ref (h.both ref (htodo ref href)), fun ref href => ?_, fun ref href u hu => ?_,
    pre ++ [⟨state, now, c⟩], by simp [hbatches], fun b hb ref href => ?_⟩
  · rw [hgenerated]
    rcases hmem b hb with ⟨hold, -⟩ | rfl
    · exact h.guarded.known.batches b hold ref href
    · exact h.made ref (hc ref href)
  · rw [hgenerated]
    rcases hsent u hu with hold | rfl
    · exact h.guarded.known.uploads u hold ref href
    · exact h.made ref (hc ref href)
  · rcases hsent u hu with hold | rfl
    · refine (h.guarded.kept u hold ref href).imp_right (Or.imp_right fun hkept => ?_)
      refine ⟨hboth ref hkept.1, fun b hb hrb => ?_⟩
      rcases hmem b hb with ⟨hbw, -⟩ | rfl
      · exact hkept.2 b hbw hrb
      · exact absurd href (h.unsent ref (hc ref hrb) u hold)
    · refine .inr (.inr ⟨hboth ref (h.both ref (hc ref href)), fun b hb hrb => ?_⟩)
      rcases hmem b hb with ⟨-, hnot⟩ | rfl
      · exact absurd href (hnot ref hrb)
      · exact ⟨hstate, le_rfl⟩
  · have := h.nodup
    rw [flatten_cons, nodup_append] at this
    exact this.2.1
  · rw [hgenerated]
    exact h.made ref (htodo ref href)
  · rcases hsent u hu with hold | rfl
    · exact h.unsent ref (htodo ref href) u hold
    · exact fun hrc => hdisjoint ref hrc href
  · rcases mem_append.mp hb with hb | hb
    · exact fun hrt => hapart b hb ref href (htodo ref hrt)
    · obtain rfl := mem_singleton.mp hb
      exact hdisjoint ref href

theorem wp_uploadOne {c : List KeyRef} {todo : List (List KeyRef)}
    (h : Pool now spent (c :: todo) w) :
    wp (machine L) A (uploadOne now c)
      (fun r t => Guarded now spent t ∧ (r = .ok () → Pool now spent todo t))
      (Guarded now spent) w := by
  obtain ⟨first, rest, rfl⟩ : ∃ first rest, c = first :: rest :=
    exists_cons_of_ne_nil (h.ne_nil c mem_cons_self)
  obtain ⟨pre, hpre, hapart⟩ := h.batches
  have hfirst : ∀ b ∈ pre, first ∉ b.refs := fun b hb href => hapart b hb first href (by simp)
  have herr : ∀ {e : Error} {t : World L}, Guarded now spent t → Guarded now spent t ∧
      ((Except.error e : Except Error Unit) = .ok () → Pool now spent todo t) :=
    fun ht => ⟨ht, fun h => by cases h⟩
  set c := first :: rest
  -- marked as sent, sent, marked as confirmed
  set w1 := w.withBatches (pre ++ ⟨.sent, now, c⟩ :: todo.map prepared) with hw1
  set w2 := w1.record (.uploaded now c) with hw2
  set w3 := w2.withBatches (pre ++ ⟨.confirmed, now, c⟩ :: todo.map prepared) with hw3
  have huploads : w2.uploads = w.uploads ++ [(now, c)] := by
    have : w2.uploads = w1.uploads ++ [(now, c)] := by simp [hw2, uploads, record]
    rw [this, uploads_withBatches]
  have hgen2 : w2.generated = w.generated := by
    have : w2.generated = w1.generated := by simp [hw2, generated, record]
    rw [this, generated_withBatches]
  have hbatches2 : w2.profile.batches = pre ++ ⟨.sent, now, c⟩ :: todo.map prepared := by
    rw [profile_record, hw1, batches_withBatches]
  have hboth1 : ∀ ref, HasBoth w.profile ref → HasBoth w1.profile ref := fun ref href => by
    rwa [HasBoth, hw1, provider_withBatches, pqKeys_withBatches]
  have h1 : Pool now spent todo w1 := h.marked (by simp) hpre hapart batches_withBatches
    (.inl uploads_withBatches) generated_withBatches hboth1
  have h2 : Pool now spent todo w2 :=
    h.marked (by simp) hpre hapart hbatches2 (.inr huploads) hgen2 hboth1
  have h3 : Pool now spent todo w3 := by
    refine h.marked (by simp) hpre hapart batches_withBatches (.inr ?_) ?_ fun ref href => ?_
    · rw [uploads_withBatches, huploads]
    · rw [generated_withBatches, hgen2]
    · rw [HasBoth, provider_withBatches, pqKeys_withBatches]
      exact hboth1 ref href
  have hsent : Batches.advance first .sent now w.profile.batches =
      some (pre ++ ⟨.sent, now, c⟩ :: todo.map prepared) := by
    rw [hpre]
    exact advance_append hfirst rfl
  have hconfirmed : Batches.advance first .confirmed now w2.profile.batches =
      some (pre ++ ⟨.confirmed, now, c⟩ :: todo.map prepared) := by
    rw [hbatches2]
    exact advance_append hfirst rfl
  rw [uploadOne, wp_bind]
  refine wp_setState hsent h.guarded h1.guarded ?_ fun e => ⟨herr h.guarded, herr h1.guarded⟩
  rw [andThen_bind, wp_request]
  refine ⟨h1.guarded, fun choice _ => ?_⟩
  have hstate : ((machine L).exec (.upload now c) choice w1).2 = w2 := Choice.send_keeps id rfl
  rw [hstate]
  refine ⟨h2.guarded, ?_⟩
  cases ((machine L).exec (.upload now c) choice w1).1 with
  | error e => exact herr h2.guarded
  | ok ids =>
    rw [andThen_bind]
    refine wp_ensure h2.guarded (fun _ => ?_) fun _ => herr h2.guarded
    exact wp_setState hconfirmed h2.guarded h3.guarded ⟨h3.guarded, fun _ => h3⟩ fun e =>
      ⟨herr h2.guarded, herr h3.guarded⟩

/-- A top-up keeps the invariant, wherever it is cut off. -/
theorem wp_ensureKeyPackagesAt (h : Guarded now spent w) :
    wp (machine L) A (ensureKeyPackagesAt now) (fun _ => Guarded now spent)
      (Guarded now spent) w := by
  rw [ensureKeyPackagesAt, wp_bind]
  refine wp_mono (fun r t ht => ?_) (fun t ht => h.prune ht) (wp_prune now w)
  have hguarded := h.prune ht.1
  rcases r with e | n
  · exact hguarded
  rw [andThen_bind, wp_request]
  refine ⟨hguarded, fun choice _ => ?_⟩
  have hcount : ((machine L).exec .count choice t).2 = t := Choice.send_keeps id rfl
  rw [hcount]
  refine ⟨hguarded, ?_⟩
  cases ((machine L).exec .count choice t).1 with
  | error e => exact hguarded
  | ok count =>
    rw [andThen_ok]
    split
    · exact ⟨hguarded, hguarded⟩
    · rw [wp_bind]
      refine wp_loadProvider hguarded ?_ fun _ _ _ => hguarded
      rw [andThen_bind]
      refine wp_then (wp_generateInner hguarded _) (fun refs u hu => ?_) fun _ _ hu => hu.1
      rw [wp_bind]
      refine wp_forM (Pool now spent) (fun c todo v hv => ?_) (fun v hv => ?_) (hu.2 refs rfl)
      · exact wp_then (wp_uploadOne hv) (fun _ _ hx => hx.2 rfl) fun _ _ hx => hx.1
      · exact ⟨hv.guarded, hv.guarded, hv.guarded⟩

end TopUp

/-! ### Joins, declines and expired requests -/

/-- Nothing is sent, no batch changes, and only the named KeyPackages lose a private half. -/
structure Loses (named : Set KeyRef) (w t : World L) : Prop where
  uploads : t.uploads = w.uploads
  generated : w.generated ⊆ t.generated
  batches : t.profile.batches = w.profile.batches
  both : ∀ ref ∉ named, HasBoth w.profile ref → HasBoth t.profile ref

section Loses

variable {A : Choice L → Prop} {w t : World L} {clock : ℕ} {spent named : Set KeyRef}

theorem Loses.refl (named : Set KeyRef) (w : World L) : Loses named w w :=
  ⟨rfl, Subset.refl _, rfl, fun _ _ h => h⟩

theorem Loses.trans (h : Loses named w u) (h' : Loses named u t) : Loses named w t :=
  ⟨h'.uploads.trans h.uploads, fun _ href => h'.generated (h.generated href),
    h'.batches.trans h.batches,
    fun ref href hboth => h'.both ref href (h.both ref href hboth)⟩

theorem Loses.mono (h : Loses ∅ w t) : Loses named w t where
  uploads := h.uploads
  generated := h.generated
  batches := h.batches
  both ref _ hboth := h.both ref (Set.notMem_empty ref) hboth

/-- The invariant after such a step, if what lost a half counts as spent. -/
theorem Guarded.lose (h : Guarded clock spent w) (hloses : Loses named w t) :
    Guarded clock (spent ∪ named) t where
  known := by
    refine ⟨fun b hb ref href => hloses.generated ?_, fun u hu ref href => hloses.generated ?_⟩
    · exact h.known.batches b (hloses.batches ▸ hb) ref href
    · exact h.known.uploads u (hloses.uploads ▸ hu) ref href
  kept u hu ref href := by
    rw [hloses.uploads] at hu
    rcases h.kept u hu ref href with hspent | hold | hkept
    · exact .inl (.inl hspent)
    · exact .inr (.inl hold)
    · by_cases hnamed : ref ∈ named
      · exact .inl (.inr hnamed)
      · exact .inr (.inr ⟨hloses.both ref hnamed hkept.1, hloses.batches ▸ hkept.2⟩)

/-- The records that a KeyPackage is kept in. -/
abbrev keyNames : Set Name := {.mlsProvider, .pqKeys, .kpBatches}

/-- A step that leaves the two key records and the batches as they are. -/
theorem Loses.of_names (huploads : t.uploads = w.uploads) (hgenerated : t.generated = w.generated)
    (hrecords : ∀ k ∈ keyNames, t.profile.records k = w.profile.records k) : Loses named w t := by
  have hprovider := hrecords .mlsProvider (by simp)
  have hkeys := hrecords .pqKeys (by simp)
  have hbatches := hrecords .kpBatches (by simp)
  refine ⟨huploads, hgenerated ▸ Subset.refl _, ?_, fun ref _ h => ?_⟩
  · rw [Profile.batches, hbatches, Profile.batches]
  · rwa [HasBoth, Profile.provider, Profile.pqKeys, hprovider, hkeys]

/-- A step that leaves the profile as it is. -/
theorem Loses.of_profile (huploads : t.uploads = w.uploads)
    (hgenerated : t.generated = w.generated) (hprofile : t.profile = w.profile) :
    Loses named w t :=
  .of_names huploads hgenerated fun _ _ => by rw [hprofile]

/-- A record other than the keys and the batches is written. -/
theorem loses_write (v : n.Value L) (hn : n ∉ keyNames) : Loses named w (w.write n v) := by
  refine .of_names (uploads_write v) (generated_write v) fun k hk => ?_
  rw [profile_write, records_put_ne (ne_of_mem_of_not_mem hk hn)]

theorem loses_erase (hn : n ∉ keyNames) : Loses named w (w.erase n) := by
  refine .of_names uploads_erase generated_erase fun k hk => ?_
  rw [profile_erase, records_remove_ne (ne_of_mem_of_not_mem hk hn)]

/-- The key store is written, with all bundles but the named ones. -/
theorem loses_write_provider {P : Provider L}
    (hP : ∀ ref ∉ named, P.bundles ref = w.profile.provider.bundles ref) :
    Loses named w (w.write .mlsProvider P) := by
  refine ⟨uploads_write _, by simp, batches_write_provider P, fun ref href hboth => ⟨?_, ?_⟩⟩
  · rw [provider_write_self, hP ref href]
    exact hboth.1
  · exact hboth.2

theorem loses_withoutKey (href : ref ∈ named) : Loses named w (w.withoutKey ref) := by
  unfold withoutKey
  dsimp only
  split
  · refine ⟨uploads_write _, by simp, batches_write_pqKeys _, fun ref' hnot hboth => ⟨?_, ?_⟩⟩
    · exact hboth.1
    · obtain ⟨x, hx, rfl⟩ := mem_map.mp hboth.2
      exact mem_map_of_mem (mem_filter.mpr ⟨hx, decide_eq_true fun h => hnot (h ▸ href)⟩)
  · exact .refl _ _

/-- A join took place: its group is in the key store, where it was not, with a conversation. -/
structure Joined (g : GroupId) (w t : World L) : Prop where
  absent : w.profile.provider.groups g = none
  group : (t.profile.provider.groups g).isSome
  conversation : (t.profile.records (.conv g)).isSome

theorem Joined.withoutKey {g : GroupId} (h : Joined g w t) (ref : KeyRef) :
    Joined g w (t.withoutKey ref) :=
  ⟨h.absent, by rw [provider_withoutKey]; exact h.group,
    by rw [records_withoutKey t ref (by simp)]; exact h.conversation⟩

theorem Joined.erase_marker {g : GroupId} (h : Joined g w t) (ref : KeyRef) :
    Joined g w (t.erase (.inviteKp ref)) :=
  ⟨h.absent, by rw [provider_erase_marker]; exact h.group,
    by rw [profile_erase, records_remove_ne (by simp)]; exact h.conversation⟩

/-- The KeyPackage of a Welcome, if it was joined. -/
def consumed (env : Joinable) (w t : World L) : Set KeyRef :=
  {ref | Joined env.groupId w t ∧
    ∃ b, w.profile.provider.welcomePqBinding env.ciphertext = .ok b ∧ b.keyPackageRef = ref}

/-- A join loses only the KeyPackage that the Welcome consumes, and that only when the group is
stored. -/
theorem loses_joinStates {dev : Session} {env : Joinable} {ρ : Route} {p : Plan L}
    (hp : Admits dev env ρ w.profile p) :
    ∀ t ∈ w.joinStates (p.record env) p.provider p.ref, Loses (consumed env w t) w t := by
  have hbundles : ∀ ref ≠ p.ref, p.provider.bundles ref = w.profile.provider.bundles ref := by
    intro ref hne
    obtain ⟨ref', b, hbundle, hprovider⟩ := joinGroup_cases hp.opens.joined
    have hsame : ref' = p.ref := by
      have hbound := hp.finds.bound
      rw [Provider.welcomePqBinding, hbundle] at hbound
      dsimp only at hbound
      split at hbound
      · cases hbound
      · exact congrArg WelcomePqBinding.keyPackageRef (Except.ok.inj hbound)
    rw [hprovider]
    exact Function.update_of_ne (hsame ▸ hne) ..
  have hrecord : ∀ named, Loses named w (w.withRecord (p.record env)) :=
    fun named => loses_write _ (by simp)
  -- from here on the group is stored with its record
  have hjoined : Joined env.groupId w (w.withState (p.record env) p.provider) := by
    refine ⟨hp.absent, ?_, ?_⟩
    · rw [provider_withState, hp.groups_provider]
      rfl
    · have hg : (p.record env).groupId = env.groupId := groupId_joinedRecord ..
      rw [conv_withState hg]
      rfl
  have hmem : ∀ t, Joined env.groupId w t → p.ref ∈ consumed env w t :=
    fun t ht => ⟨ht, _, hp.finds.bound, rfl⟩
  have hstate : ∀ named, p.ref ∈ named →
      Loses named w (w.withState (p.record env) p.provider) := fun named href =>
    (hrecord named).trans (loses_write_provider fun ref hnot => by
      exact hbundles ref fun h => hnot (h ▸ href))
  intro t ht
  simp only [joinStates, mem_cons, not_mem_nil, or_false] at ht
  rcases ht with rfl | rfl | rfl | rfl | rfl
  · exact .refl _ _
  · exact hrecord _
  · exact hstate _ (hmem _ hjoined)
  · have href := hmem _ (hjoined.withoutKey p.ref)
    exact (hstate _ href).trans (loses_withoutKey href)
  · have href := hmem _ ((hjoined.withoutKey p.ref).erase_marker p.ref)
    exact ((hstate _ href).trans (loses_withoutKey href)).trans (loses_erase (by simp))

theorem wp_retireKeys {req : Request} (h : Loses ∅ w u) :
    wp (machine L) A (retireKeys req) (fun _ => Loses {req.keyPackageRef} w)
      (Loses {req.keyPackageRef} w) u := by
  have h0 : Loses {req.keyPackageRef} w u := h.mono
  have href : req.keyPackageRef ∈ ({req.keyPackageRef} : Set KeyRef) := rfl
  have h1 := h0.trans (loses_write_provider (w := u)
    (P := u.profile.provider.deleteKeyPackage req.keyPackageRef) fun ref hnot =>
      Function.update_of_ne (fun hsame : ref = _ => hnot (hsame ▸ href)) ..)
  have h2 := h1.trans (loses_withoutKey href)
  rw [retireKeys, wp_bind]
  refine wp_loadProvider h0 ?_ fun _ _ _ => h0
  rw [andThen_bind]
  refine wp_put h0 h1 ?_ h0 h1
  rw [andThen_bind]
  refine wp_prunePqKey h1 h2 (fun _ => ?_) (fun _ _ => h1) fun _ _ _ => ⟨h1, h2⟩
  have h3 := h2.trans (loses_erase (n := .inviteKp req.keyPackageRef) (by simp))
  exact wp_remove h2 h3 h3 h2 h3

/-- Loading a request changes nothing. -/
theorem wp_loadRequest {g : GroupId} {Q : Except Error (Option Request) → World L → Prop} (hC : C w)
    (h : ∀ r, Q r w) : wp (machine L) A (load g) Q C w := by
  rw [load, wp_bind]
  refine wp_get hC ?_ (h _)
  rw [andThen_ok]
  cases w.profile.records (.req g) with
  | none => exact ⟨hC, h _⟩
  | some r =>
    rw [wp_bind]
    exact wp_ensure hC (fun _ => ⟨hC, h _⟩) fun _ => h _

theorem wp_held {g : GroupId} {Q : Except Error Bool → World L → Prop} (hC : C w) (h : ∀ r, Q r w) :
    wp (machine L) A (held g) Q C w := by
  rw [held, wp_bind, Conversation.load, wp_bind]
  refine wp_get hC ?_ (h _)
  rw [andThen_ok]
  cases w.profile.records (.conv g) with
  | none => exact ⟨hC, hC, h _⟩
  | some c =>
    rw [wp_bind]
    refine wp_ensure hC (fun _ => ⟨hC, ?_⟩) fun _ => h _
    rw [andThen_ok, wp_bind]
    exact wp_loadProvider hC ⟨hC, h _⟩ fun _ _ _ => h _

/-- Up to the retirement a decline loses nothing. -/
theorem wp_declineOnServer (g : GroupId) :
    wp (machine L) A (declineOnServer g) (fun _ => Loses ∅ w) (Loses ∅ w) w := by
  have h := Loses.refl ∅ w
  rw [declineOnServer, wp_bind]
  refine wp_loadRequest h fun r => ?_
  rcases r with e | _ | req
  · exact h
  · exact ⟨h, h⟩
  rw [andThen_ok, wp_bind]
  refine wp_held h fun r => ?_
  rcases r with e | joined
  · exact h
  rw [andThen_bind]
  refine wp_ensure h (fun _ => ?_) fun _ => h
  rw [andThen_bind, wp_request]
  refine ⟨h, fun c _ => ?_⟩
  have hdecline : Loses ∅ w ((machine L).exec (.decline g) c w).2 := by
    have hsame : ∀ {β : Type} (view : World L → β), (∀ u m, view { u with memberships := m } =
        view u) → view ((machine L).exec (.decline g) c w).2 = view w := by
      intro β view hview
      refine Choice.send_keeps view ?_
      split
      · exact hview _ _
      · rfl
    exact .of_profile (hsame _ fun _ _ => rfl) (hsame _ fun _ _ => rfl) (hsame _ fun _ _ => rfl)
  refine ⟨hdecline, ?_⟩
  generalize (machine L).exec (.decline g) c w = x at hdecline
  obtain ⟨r, u⟩ := x
  rcases r with e | _
  · exact hdecline
  have h1 := hdecline.trans (loses_erase (n := .conv g) (by simp))
  rw [andThen_bind]
  exact wp_remove hdecline h1 ⟨h1, h1⟩ hdecline h1

/-- Dropping a declined request loses only its KeyPackage. -/
theorem wp_dropDeclined (g : GroupId) (req : Request) (h : Loses ∅ w u) :
    wp (machine L) A (dropDeclined g req) (fun _ _ => True) (Loses {req.keyPackageRef} w) u := by
  rw [dropDeclined, wp_bind]
  refine wp_then (wp_retireKeys h) (fun _ v hv => ?_) fun _ _ _ => trivial
  rw [wp_bind, tryAck, wp_bind, wp_attempt, ack, wp_request]
  refine ⟨hv, fun c _ => ?_⟩
  have hack : Loses {req.keyPackageRef} w ((machine L).exec (.ack req.envelopeId) c v).2 := by
    have hsame : ∀ {β : Type} (view : World L → β),
        (∀ l, view { v.record (.acked req.envelopeId) with gone := l } = view v) →
        view ((machine L).exec (.ack req.envelopeId) c v).2 = view v := by
      intro β view hview
      refine (Choice.send_keeps view ?_).trans (hview _)
      exact (hview _).trans (hview v.gone).symm
    refine hv.trans (.of_profile (hsame _ fun _ => ?_) (hsame _ fun _ => ?_) (hsame _ fun _ => rfl))
    · simp [uploads, record]
    · simp [generated, record]
  refine ⟨hack, hack, ?_⟩
  exact wp_remove hack (hack.trans (loses_erase (by simp))) trivial trivial trivial

/-- The KeyPackage that a pass over the requests retires with one of them. -/
def retired (now : ℕ) : Except Error (Option Request) → Set KeyRef
  | .ok (some req) => {ref | req.isExpired now = true ∧ req.keyPackageRef = ref}
  | _ => ∅

theorem wp_pruneLoaded {now : ℕ} {id : GroupId} (out : List EnvelopeId)
    (r : Except Error (Option Request)) (h : Loses ∅ w u) :
    wp (machine L) A (pruneLoaded now out id r) (fun _ _ => True) (Loses (retired now r) w) u := by
  have hremove : ∀ {named : Set KeyRef} {v : World L} (out : List EnvelopeId), Loses named w v →
      wp (machine L) A (do remove (.req id); return out) (fun _ _ => True) (Loses named w) v := by
    intro named v out hv
    rw [wp_bind]
    have hv' := hv.trans (loses_erase (n := .req id) (by simp))
    exact wp_remove hv hv' ⟨hv', trivial⟩ trivial trivial
  unfold pruneLoaded
  split
  · next req =>
    split
    · next hexpired =>
      have hret : retired now (.ok (some req)) = {req.keyPackageRef} := by
        ext ref
        simp [retired, hexpired, eq_comm]
      rw [hret, wp_bind, wp_attempt]
      refine wp_mono (fun r v hv => ?_) (fun _ hv => hv) (wp_retireKeys h)
      rcases r with e | _
      · exact ⟨hv, trivial⟩
      · exact hremove _ hv
    · exact ⟨h.mono, trivial⟩
  · exact ⟨h.mono, trivial⟩
  · exact hremove _ h.mono
  · exact ⟨h.mono, trivial⟩

/-- A program that loses nothing, and then one that loses what its argument names. -/
theorem Loses.of_cutOff {α β : Type} {p : Prog L α} {k : α → Prog L β} {a : Option α}
    {named : α → Set KeyRef} (h : CutOff (machine L) p k w t a)
    (hp : wp (machine L) (fun _ => True) p (fun _ => Loses ∅ w) (Loses ∅ w) w)
    (hk : ∀ a u, Loses ∅ w u →
      wp (machine L) (fun _ => True) (k a) (fun _ _ => True) (Loses (named a) w) u) :
    Loses (a.elim ∅ named) w t := by
  cases a with
  | none =>
    obtain ⟨f, ht⟩ := h
    exact wp_crashStates hp (fun _ => trivial) t ht
  | some a =>
    obtain ⟨f, u, f', hrun, ht⟩ := h
    exact wp_crashStates (hk a u (wp_outcome hp (fun _ => trivial) hrun)) (fun _ => trivial) t ht

end Loses

/-! ### Runs -/

/-- What a device does with its KeyPackages. A pass over the requests is one `expire` for each of
them. The last action is anything that leaves the KeyPackages alone. -/
inductive KeyAct
  | topUp (now : ℕ)
  | prune (now : ℕ)
  | join (dev : Session) (env : Joinable) (ρ : Route)
  | decline (g : GroupId)
  | expire (now : ℕ) (id : GroupId)
  | other

namespace KeyAct

variable {w t : World L}

/-- The action can be cut off in this world, and it consumed or retired these KeyPackages by then:
that of a Welcome whose group is stored, and that of a request once its retirement has begun, for a
decline after the server's answer. -/
def Reaches (w t : World L) (new : Set KeyRef) : KeyAct → Prop
  | topUp now => (∃ f, t ∈ (ensureKeyPackagesAt now).crashStates (machine L) f w) ∧ new = ∅
  | prune now => (∃ f, t ∈ (Batches.prune now).crashStates (machine L) f w) ∧ new = ∅
  | join dev env ρ => Attempted dev env w ρ t ∧ new = consumed env w t
  | decline g => ∃ req, CutOff (machine L) (declineOnServer g) (dropDeclined g) w t req ∧
      new = req.elim ∅ fun req => {req.keyPackageRef}
  | expire now id => ∃ out r, CutOff (machine L) (load id).attempt (pruneLoaded now out id) w t r ∧
      new = r.elim ∅ (retired now)
  | other => Loses ∅ w t ∧ new = ∅

/-- Every way to cut off a decline is such an action. -/
theorem exists_reaches_decline {g : GroupId} {f : ℕ → Choice L}
    (h : t ∈ (Request.decline g).crashStates (machine L) f w) :
    ∃ new, (decline g).Reaches w t new := by
  obtain ⟨req, hcut⟩ := exists_cutOff (machine L) h
  exact ⟨_, req, hcut, rfl⟩

/-- Every way to cut off a pass over the requests is a run of such actions. -/
theorem exists_reaches_pruneExpired {now : ℕ} {f : ℕ → Choice L}
    (h : t ∈ (pruneExpired now).crashStates (machine L) f w) :
    ∃ ids, Steps (fun u id v => ∃ new, (expire now id).Reaches u v new) w ids t := by
  have hids : wp (machine L) (fun _ => True) groupIds (fun _ v => v = w) (· = w) w := by
    rw [groupIds, wp_bind]
    exact wp_names rfl ⟨rfl, rfl⟩ rfl
  obtain ⟨_ | ids, hcut⟩ := exists_cutOff (machine L) h
  · obtain ⟨f, ht⟩ := hcut
    obtain rfl := wp_crashStates hids (fun _ => trivial) t ht
    exact ⟨[], .nil⟩
  · obtain ⟨f, v, f', hrun, ht⟩ := hcut
    obtain rfl := wp_outcome hids (fun _ => trivial) hrun
    obtain ⟨done, hsteps⟩ := exists_steps_foldlM (machine L) ht
    refine ⟨done, hsteps.mono fun u id v hcut => ?_⟩
    obtain ⟨out, f, hv⟩ := hcut
    obtain ⟨r, hcut⟩ := exists_cutOff (machine L) hv
    exact ⟨_, out, r, hcut, rfl⟩

/-- The clock reading the action is given, where it decides about batches. -/
def time : KeyAct → Option ℕ
  | topUp now | prune now => some now
  | join _ _ _ | decline _ | expire _ _ | other => none

end KeyAct

/-- A device, the clock, and the KeyPackages that were consumed by a join or retired with a
request. -/
structure Keyring (L : Libraries) where
  world : World L
  clock : ℕ
  spent : Set KeyRef

/-- One action, cut off anywhere. The clock does not go back, and the action reads it once. -/
structure KeyStep (s : Keyring L) (a : KeyAct) (s' : Keyring L) : Prop where
  reaches : ∃ new, a.Reaches s.world s'.world new ∧ s'.spent = s.spent ∪ new
  clock : s.clock ≤ s'.clock
  time : ∀ now, a.time = some now → s.clock ≤ now ∧ now ≤ s'.clock

/-- Every action keeps the invariant. -/
theorem KeyStep.guarded {s s' : Keyring L} {a : KeyAct} (hstep : KeyStep s a s')
    (h : Guarded s.clock s.spent s.world) : Guarded s'.clock s'.spent s'.world := by
  obtain ⟨new, hreaches, hspent⟩ := hstep.reaches
  rw [hspent]
  have hlose : Loses new s.world s'.world → Guarded s'.clock (s.spent ∪ new) s'.world :=
    fun hloses => (h.lose hloses).mono hstep.clock
  have hcut : ∀ {α : Type} {p : Prog L α} {Q : Except Error α → World L → Prop}
      {C : World L → Prop}, wp (machine L) (fun _ => True) p Q C s.world →
      (∃ f, s'.world ∈ p.crashStates (machine L) f s.world) → C s'.world :=
    fun hwp ⟨_, ht⟩ => wp_crashStates hwp (fun _ => trivial) _ ht
  cases a with
  | topUp now =>
    obtain ⟨hcrash, rfl⟩ := hreaches
    obtain ⟨hafter, hbefore⟩ := hstep.time now rfl
    rw [Set.union_empty]
    exact (hcut (wp_ensureKeyPackagesAt (h.mono hafter)) hcrash).mono hbefore
  | prune now =>
    obtain ⟨hcrash, rfl⟩ := hreaches
    obtain ⟨hafter, hbefore⟩ := hstep.time now rfl
    rw [Set.union_empty]
    exact ((h.mono hafter).prune (hcut (wp_prune _ s.world) hcrash)).mono hbefore
  | join dev env ρ =>
    obtain ⟨hattempt, rfl⟩ := hreaches
    exact hlose (hattempt.of_states (C := fun t => Loses (consumed env s.world t) s.world t)
      (.refl _ _) fun p hp => loses_joinStates hp)
  | decline g =>
    obtain ⟨req, hcrash, rfl⟩ := hreaches
    exact hlose (.of_cutOff hcrash (wp_declineOnServer g) fun req u hu => wp_dropDeclined g req hu)
  | expire now id =>
    obtain ⟨out, r, hcrash, rfl⟩ := hreaches
    refine hlose (.of_cutOff hcrash ?_ fun r u hu => wp_pruneLoaded out r hu)
    rw [wp_attempt]
    exact wp_loadRequest (.refl _ _) fun _ => .refl _ _
  | other =>
    obtain ⟨hloses, rfl⟩ := hreaches
    exact hlose hloses

/-- All references of a due batch are deleted by a pass. -/
theorem mem_doomed {w : World L} {now : ℕ} (hb : b ∈ w.profile.batches) (hdue : b.isDue now = true)
    (href : ref ∈ b.refs) : ref ∈ w.doomed now := by
  by_cases hkey : w.profile.pqKeys.any (·.1 = ref) = true
  · refine mem_append_right _ (mem_flatMap.mpr
      ⟨{ b with refs := b.refs.filter fun r => w.profile.pqKeys.any (·.1 = r) }, ?_, ?_⟩)
    · refine mem_filter.mpr ⟨mem_filter.mpr ⟨mem_map.mpr ⟨b, hb, rfl⟩, ?_⟩, hdue⟩
      have hmem : ref ∈ b.refs.filter fun r => w.profile.pqKeys.any (·.1 = r) :=
        mem_filter.mpr ⟨href, hkey⟩
      simpa using ne_nil_of_mem hmem
    · exact mem_filter.mpr ⟨href, hkey⟩
  · refine mem_append_left _ (mem_flatMap.mpr ⟨b, hb, mem_filter.mpr ⟨href, ?_⟩⟩)
    rw [Bool.eq_false_of_not_eq_true hkey]
    rfl

/-- A KeyPackage whose upload request was sent keeps both private halves until its retention has run
out, unless it was consumed or retired. A completed pruning pass deletes both halves of all
KeyPackages in batches that were never marked as sent or whose retention has run out. -/
theorem keys_kept_while_on_server (L : Libraries) :
    (∀ (acts : List KeyAct) (s s' : Keyring L), Known s.world → s.world.uploads = [] →
      s.spent = ∅ → Steps KeyStep s acts s' →
      ∀ u ∈ s'.world.uploads, ∀ ref ∈ u.2, s'.clock < u.1 + retentionSecs → ref ∉ s'.spent →
        HasBoth s'.world.profile ref) ∧
    ∀ (now n : ℕ) (w t : World L) (f : ℕ → Choice L),
      (Batches.prune now).run (machine L) f w = (.ok n, t) →
      ∀ b ∈ w.profile.batches, b.state = .prepared ∨ b.since + retentionSecs ≤ now →
        ∀ ref ∈ b.refs, Lost t.profile ref := by
  constructor
  · intro acts s s' hknown huploads hspent hsteps u hu ref href hclock hnot
    have hinit : Guarded s.clock s.spent s.world := ⟨hknown, fun u hu => by simp [huploads] at hu⟩
    have hguarded := hsteps.invariant (fun _ _ _ hstep h => hstep.guarded h) hinit
    rcases hguarded.kept u hu ref href with hspent | hold | hkept
    · exact absurd hspent hnot
    · exact absurd hclock (not_lt.mpr hold)
    · exact hkept.1
  · intro now n w t f hrun b hb hdue ref href
    have hends := wp_outcome (A := fun _ => True) (wp_prune now w) (fun _ => trivial) hrun
    refine (hends.2 n rfl).1 ref (mem_doomed hb ?_ href)
    unfold Batch.isDue
    cases hstate : b.state with
    | prepared => rfl
    | sent | confirmed => exact decide_eq_true (hdue.resolve_left (by simp [hstate]))

/-- A new KeyPackage for each operation, and nine left on the server. The answer to an upload is
wrong, which ends the top-up. -/
def nineLeft (n : ℕ) : Choice Toy.libraries where
  package := .ok ⟨n, [UInt8.ofNat n], (n : ℕ)⟩
  count := 9

/-- The first top-up of a new profile, cut off before its `n`-th operation. Operation 49 begins the
upload of the first batch, 51 is its request. -/
def topUpCut (n : ℕ) : World Toy.libraries :=
  (((ensureKeyPackagesAt 0).crashStates (machine _) nineLeft (.new ∅))[n]?).getD (.new ∅)

theorem topUpCut_mem {n : ℕ} (hn : n < 53) :
    topUpCut n ∈ (ensureKeyPackagesAt 0).crashStates (machine _) nineLeft (.new ∅) := by
  have hlength : ((ensureKeyPackagesAt 0).crashStates (machine Toy.libraries) nineLeft
      (.new ∅)).length = 53 := by decide +kernel
  rw [topUpCut, getElem?_eq_getElem (hlength ▸ hn)]
  exact getElem_mem _

theorem keyStep_topUpCut {n clock : ℕ} (hn : n < 53) :
    KeyStep ⟨.new ∅, 0, ∅⟩ (.topUp 0) ⟨topUpCut n, clock, ∅⟩ where
  reaches := ⟨∅, ⟨⟨nineLeft, topUpCut_mem hn⟩, rfl⟩, (Set.union_empty ∅).symm⟩
  clock := Nat.zero_le clock
  time now hnow := by
    obtain rfl := Option.some.inj hnow
    exact ⟨le_rfl, Nat.zero_le clock⟩

/-- A KeyPackage that was never sent, since the top-up was cut off between the mark and the request,
is tracked and is kept by a completed pruning pass. If the top-up goes on, the request leaves later,
and the retention still counts from the reading at the start. -/
theorem unsent_kept_by_prune : let t := topUpCut 51
    let pass := (Batches.prune 0).run (machine _) (fun _ => {}) t
    KeyStep ⟨.new ∅, 0, ∅⟩ (.topUp 0) ⟨t, 1, ∅⟩ ∧ t.uploads = [] ∧
      (∃ b ∈ t.profile.batches, 4 ∈ b.refs) ∧ pass.1.isOk = true ∧ HasBoth pass.2.profile 4 ∧
      (topUpCut 52).uploads = [(0, [4, 5, 6, 7, 8, 9, 10, 11, 12, 13])] ∧
      Lost ((Batches.prune retentionSecs).run (machine _) (fun _ => {})
        (topUpCut 52)).2.profile 4 := by
  refine ⟨keyStep_topUpCut (by decide), ?_, ?_, ?_, ⟨?_, ?_⟩, ?_, ?_, ?_⟩ <;> decide +kernel

/-- Cut off right after its first request, five seconds after it began, the top-up has sent
KeyPackage 4 and keeps it. Cut off before the first mark, the next pass deletes it. -/
theorem first_batch_kept_or_lost :
    (topUpCut 52).uploads = [(0, [4, 5, 6, 7, 8, 9, 10, 11, 12, 13])] ∧
      HasBoth (topUpCut 52).profile 4 ∧ HasBoth (topUpCut 49).profile 4 ∧
      Lost ((Batches.prune 0).run (machine _) (fun _ => {}) (topUpCut 49)).2.profile 4 := by
  have huploads : (topUpCut 52).uploads = [(0, [4, 5, 6, 7, 8, 9, 10, 11, 12, 13])] := by
    decide +kernel
  have hstep : KeyStep ⟨.new ∅, 0, ∅⟩ (.topUp 0) ⟨topUpCut 52, 5, ∅⟩ :=
    keyStep_topUpCut (by decide)
  have hknown : Known (World.new ∅ : World Toy.libraries) :=
    ⟨fun b hb => (not_mem_nil hb).elim, fun u hu => (not_mem_nil hu).elim⟩
  have hbatch : ∃ b ∈ (topUpCut 49).profile.batches, b.state = .prepared ∧ 4 ∈ b.refs := by
    decide +kernel
  obtain ⟨b, hb, hstate, href⟩ := hbatch
  refine ⟨huploads, ?_, ⟨by decide +kernel, by decide +kernel⟩, ?_⟩
  · exact (keys_kept_while_on_server Toy.libraries).1 [.topUp 0] _ _ hknown rfl rfl
      (.cons hstep .nil) _ (huploads ▸ mem_singleton_self _) 4 (by decide)
      (by simp [retentionSecs]) (by simp)
  · have hok : ((Batches.prune 0).run (machine _) (fun _ => {}) (topUpCut 49)).1.toOption.isSome =
        true := by decide +kernel
    obtain ⟨n, hn⟩ := Option.isSome_iff_exists.mp hok
    exact (keys_kept_while_on_server Toy.libraries).2 0 n (topUpCut 49) _ (fun _ => {})
      (Prod.ext (eq_ok_of_toOption hn) rfl) b hb (.inl hstate) 4 href

end Powehi.Client
