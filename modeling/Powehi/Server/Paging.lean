import Powehi.Server.Database

/-!
# Polling page by page

A poll answers with the first rows behind its cursor, in the order of delivery, cut at a number of
rows and at a number of bytes. The cursor of the next poll is the last row of the page. A row
behind the cursor is on the page, or behind the next cursor; so a device that pages on from any
cursor gets every row behind it.
-/

namespace Powehi.Server

open Semantics List Envelope

namespace Envelope

variable {e f g : Envelope}

/-- Strictly earlier in the order of delivery. -/
def Before (e f : Envelope) : Prop :=
  e.createdAt < f.createdAt ∨ (e.createdAt = f.createdAt ∧ e.id < f.id)

instance : DecidableRel Before := fun e f => by
  unfold Before
  infer_instance

theorem Before.asymm (h : e.Before f) : ¬f.Before e := by
  unfold Before at *
  grind

theorem before_of_precedes (h : e.Precedes f) (hne : e.id ≠ f.id) : e.Before f := by
  rcases h with h | ⟨htime, hid⟩
  · exact .inl h
  · exact .inr ⟨htime, lt_of_le_of_ne hid hne⟩

/-- Behind a cursor that was taken at a row is after that row. -/
theorem behind_cursor : f.behind (some e.createdAt) (some e.id) = true ↔ e.Before f := by
  simp only [behind, Before, Option.getD_some, decide_eq_true_eq]
  grind

instance : Std.Total Precedes := ⟨fun e f => by
  unfold Precedes
  grind⟩

instance : IsTrans Envelope Precedes := ⟨fun e f g h h' => by
  unfold Precedes at *
  grind⟩

end Envelope

theorem fitting_append (used : ℕ) (es : List Envelope) : ∃ rest, es = fitting used es ++ rest := by
  induction es generalizing used with
  | nil => exact ⟨[], rfl⟩
  | cons e es ih =>
    rw [fitting]
    split
    · exact ⟨e :: es, rfl⟩
    · obtain ⟨rest, hrest⟩ := ih (used + e.ciphertext.length)
      exact ⟨rest, congrArg (e :: ·) hrest⟩

theorem withinBudget_append (es : List Envelope) : ∃ rest, es = withinBudget es ++ rest := by
  cases es with
  | nil => exact ⟨[], rfl⟩
  | cons e es =>
    obtain ⟨rest, hrest⟩ := fitting_append e.ciphertext.length es
    exact ⟨rest, congrArg (e :: ·) hrest⟩

/-- What fits is as much of the rows as the budget allows. -/
theorem prefix_fitting {used : ℕ} {es rows : List Envelope} (h : used ≤ envelopePollMaxBytes) :
    rows <+: fitting used es ↔
      rows <+: es ∧ used + (rows.map (·.ciphertext.length)).sum ≤ envelopePollMaxBytes := by
  induction es generalizing used rows with
  | nil =>
    rw [fitting, prefix_nil]
    exact ⟨fun hnil => ⟨hnil, hnil ▸ h⟩, And.left⟩
  | cons e es ih =>
    cases rows with
    | nil => simpa using h
    | cons r rows =>
      rw [fitting]
      split
      · rw [prefix_nil, cons_prefix_cons, map_cons, sum_cons]
        refine iff_of_false (cons_ne_nil _ _) ?_
        rintro ⟨⟨rfl, -⟩, hsum⟩
        omega
      · rw [cons_prefix_cons, cons_prefix_cons, ih (by omega), map_cons, sum_cons]
        constructor
        · rintro ⟨rfl, hrows, hsum⟩
          exact ⟨⟨rfl, hrows⟩, by omega⟩
        · rintro ⟨⟨rfl, hrows⟩, hsum⟩
          exact ⟨rfl, hrows, by omega⟩

namespace Db

variable {db : Db} {d : DeviceId} {since : Option Time} {sinceId : Option EnvelopeId}
  {e f : Envelope}

theorem mem_pendingAfter : e ∈ db.pendingAfter d since sinceId ↔
    e ∈ db.envelopes ∧ db.deliverable d e = true ∧ e.behind since sinceId = true := by
  simp [pendingAfter, Table.mem_rows]

/-- The rows come in the order of delivery. -/
theorem pairwise_pendingAfter (db : Db) (d : DeviceId) (since : Option Time)
    (sinceId : Option EnvelopeId) : (db.pendingAfter d since sinceId).Pairwise Envelope.Before := by
  have hids : ((db.pendingAfter d since sinceId).map Envelope.id).Nodup :=
    ((perm_insertionSort _ _).map _).nodup_iff.mpr
      (db.envelopes.unique.sublist (filter_sublist.map _))
  have hsorted : (db.pendingAfter d since sinceId).Pairwise Precedes :=
    pairwise_insertionSort _ _
  refine (hsorted.and (pairwise_map.mp hids)).imp ?_
  rintro e f ⟨hle, hne⟩
  exact before_of_precedes hle hne

/-- A page is the beginning of what is pending. -/
theorem findPending_append (db : Db) (d : DeviceId) (since : Option Time)
    (sinceId : Option EnvelopeId) :
    ∃ rest, db.pendingAfter d since sinceId = db.findPending d since sinceId ++ rest := by
  obtain ⟨rest, hrest⟩ := withinBudget_append
    ((db.pendingAfter d since sinceId).take envelopePollLimit)
  refine ⟨rest ++ (db.pendingAfter d since sinceId).drop envelopePollLimit, ?_⟩
  rw [findPending, ← append_assoc, ← hrest, take_append_drop]

theorem pendingAfter_of_mem_findPending (h : e ∈ db.findPending d since sinceId) :
    e ∈ db.pendingAfter d since sinceId := by
  obtain ⟨rest, hrest⟩ := db.findPending_append d since sinceId
  exact hrest ▸ mem_append_left _ h

/-- A page is empty only if nothing is pending. -/
theorem findPending_ne_nil (h : e ∈ db.pendingAfter d since sinceId) :
    db.findPending d since sinceId ≠ [] := by
  unfold findPending
  cases hp : db.pendingAfter d since sinceId with
  | nil => exact absurd (hp ▸ h) not_mem_nil
  | cons x xs => simp [envelopePollLimit, withinBudget]

/-- What is pending fits on one page. -/
def FitsPage (db : Db) (d : DeviceId) (since : Option Time) (sinceId : Option EnvelopeId) : Prop :=
  (db.pendingAfter d since sinceId).length ≤ envelopePollLimit ∧
    ((db.pendingAfter d since sinceId).map (·.ciphertext.length)).sum ≤ envelopePollMaxBytes

instance : Decidable (db.FitsPage d since sinceId) := by
  unfold FitsPage
  infer_instance

/-- A page is as much of what is pending as the two cut-offs allow, where no row exceeds the budget
alone. -/
theorem prefix_findPending {rows : List Envelope}
    (hrow : ∀ e ∈ db.pendingAfter d since sinceId, e.ciphertext.length ≤ envelopePollMaxBytes) :
    rows <+: db.findPending d since sinceId ↔
      rows <+: db.pendingAfter d since sinceId ∧ rows.length ≤ envelopePollLimit ∧
        (rows.map (·.ciphertext.length)).sum ≤ envelopePollMaxBytes := by
  have hbudget : db.findPending d since sinceId =
      fitting 0 ((db.pendingAfter d since sinceId).take envelopePollLimit) := by
    unfold findPending
    cases hp : (db.pendingAfter d since sinceId).take envelopePollLimit with
    | nil => rfl
    | cons e es =>
      have hfirst := hrow e (mem_of_mem_take (hp ▸ mem_cons_self))
      rw [withinBudget, fitting, Nat.zero_add, if_neg (by omega)]
  rw [hbudget, prefix_fitting (Nat.zero_le _), prefix_take_iff, Nat.zero_add, and_assoc]

/-- Then the page has everything that is pending. -/
theorem findPending_eq_pendingAfter (h : db.FitsPage d since sinceId) :
    db.findPending d since sinceId = db.pendingAfter d since sinceId := by
  have hall : db.pendingAfter d since sinceId <+: db.findPending d since sinceId :=
    (prefix_findPending fun e he => (le_sum_of_mem (mem_map_of_mem he)).trans h.2).mpr
      ⟨prefix_rfl, h.1, h.2⟩
  obtain ⟨rest, hrest⟩ := db.findPending_append d since sinceId
  exact IsPrefix.eq_of_length_le ⟨rest, hrest.symm⟩ hall.length_le

/-- Of two rows on one page the earlier one comes first. -/
theorem findPending_order (he : e ∈ db.findPending d since sinceId)
    (hf : f ∈ db.findPending d since sinceId) (h : e.Before f) :
    [e, f].Sublist (db.findPending d since sinceId) := by
  obtain ⟨rest, hrest⟩ := db.findPending_append d since sinceId
  have hsorted : (db.findPending d since sinceId).Pairwise Envelope.Before := by
    have hall := db.pairwise_pendingAfter d since sinceId
    rw [hrest] at hall
    exact (pairwise_append.mp hall).1
  obtain ⟨before, after, hpage⟩ := append_of_mem he
  rw [hpage] at hf hsorted ⊢
  obtain ⟨-, hafter, hbefore⟩ := pairwise_append.mp hsorted
  rcases mem_append.mp hf with hf | hf
  · exact absurd (hbefore f hf e mem_cons_self) h.asymm
  · rcases mem_cons.mp hf with rfl | hf
    · exact absurd h h.asymm
    · have hpair : [e, f].Sublist (e :: after) := (singleton_sublist.mpr hf).cons_cons e
      exact hpair.trans (sublist_append_right _ _)

/-- A row behind the cursor is on the page, or after the last row of the page. -/
theorem mem_findPending_or_behind (h : e ∈ db.pendingAfter d since sinceId) :
    e ∈ db.findPending d since sinceId ∨
      ∃ last, (db.findPending d since sinceId).getLast? = some last ∧ last.Before e := by
  obtain ⟨rest, hrest⟩ := db.findPending_append d since sinceId
  have hsorted := db.pairwise_pendingAfter d since sinceId
  rw [hrest] at h hsorted
  rcases mem_append.mp h with h | h
  · exact .inl h
  · right
    have hne : db.findPending d since sinceId ≠ [] := findPending_ne_nil
      (hrest ▸ mem_append_right _ h)
    refine ⟨_, getLast?_eq_getLast_of_ne_nil hne, ?_⟩
    exact (pairwise_append.mp hsorted).2.2 _ (getLast_mem hne) _ h

/-! ### Paging on -/

/-- The rows a device gets in `n` polls, each from the last row of the page before. -/
def pages (db : Db) (d : DeviceId) : ℕ → Option Time → Option EnvelopeId → List Envelope
  | 0, _, _ => []
  | n + 1, since, sinceId =>
    let page := db.findPending d since sinceId
    match page.getLast? with
    | none => []
    | some last => page ++ db.pages d n (some last.createdAt) (some last.id)

/-- A cursor that is taken behind another one has less behind it. -/
theorem behind_of_before {last : Envelope} (h : last.behind since sinceId = true)
    (hlt : last.Before e) : e.behind since sinceId = true := by
  unfold behind Envelope.Before at *
  cases since with
  | none => rfl
  | some t =>
    grind

/-- The next cursor has less behind it. -/
theorem length_pendingAfter_lt {last : Envelope} (h : last ∈ db.pendingAfter d since sinceId) :
    (db.pendingAfter d (some last.createdAt) (some last.id)).length <
      (db.pendingAfter d since sinceId).length := by
  obtain ⟨hmem, hdel, hbehind⟩ := mem_pendingAfter.mp h
  unfold pendingAfter
  rw [length_insertionSort, length_insertionSort]
  -- the rows behind the next cursor are some of the rows behind this one
  have hsub : (db.envelopes.rows.filter fun e => db.deliverable d e &&
      e.behind (some last.createdAt) (some last.id)) =
      (db.envelopes.rows.filter fun e => db.deliverable d e && e.behind since sinceId).filter
        fun e => e.behind (some last.createdAt) (some last.id) := by
    rw [filter_filter]
    refine filter_congr fun e _ => ?_
    cases hnext : e.behind (some last.createdAt) (some last.id) with
    | false => simp
    | true => simp [behind_of_before hbehind (behind_cursor.mp hnext)]
  rw [hsub, length_filter_lt_length_iff_exists]
  refine ⟨last, by simp [Table.mem_rows, hmem, hdel, hbehind], ?_⟩
  rw [behind_cursor]
  exact fun hlt => hlt.asymm hlt

/-- Paging on returns every row behind the cursor. -/
theorem mem_pages (h : e ∈ db.pendingAfter d since sinceId) {n : ℕ}
    (hn : (db.pendingAfter d since sinceId).length ≤ n) : e ∈ db.pages d n since sinceId := by
  induction n generalizing since sinceId with
  | zero =>
    have hnil : db.pendingAfter d since sinceId = [] := length_eq_zero_iff.mp (by omega)
    exact absurd (hnil ▸ h) not_mem_nil
  | succ n ih =>
    rw [pages]
    rcases mem_findPending_or_behind h with hpage | ⟨last, hlast, hlt⟩
    · split
      · next hnone => exact absurd (getLast?_eq_none_iff.mp hnone ▸ hpage) not_mem_nil
      · exact mem_append_left _ hpage
    · have hmem := pendingAfter_of_mem_findPending (mem_of_getLast? hlast)
      obtain ⟨hstored, hdel, -⟩ := mem_pendingAfter.mp h
      have hnext : e ∈ db.pendingAfter d (some last.createdAt) (some last.id) :=
        mem_pendingAfter.mpr ⟨hstored, hdel, behind_cursor.mpr hlt⟩
      have hlen := length_pendingAfter_lt hmem
      simp only [hlast]
      exact mem_append_right _ (ih hnext (by omega))

end Db

end Powehi.Server
