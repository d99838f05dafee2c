import Mathlib.Data.List.Sort
import Mathlib.Data.Prod.Lex
import Powehi.Client.Message
import Powehi.Client.Rules
import Powehi.Client.Toy

/-!
# What `read` shows and removes

The receive time of a message counts nanoseconds, while the cutoffs of `read` count seconds. The
selection compares the two as they are. So `read` shows the requested messages exactly if no stored
message lies where the two readings of a cutoff differ, or lies there without being needed because
enough newer ones are requested.

What was shown is removed, and nothing else.
-/

namespace Powehi.Client

open Codec Server Semantics Program List World

variable {L : Libraries}

/-! ### Sorted lists of messages -/

section Lists

variable {msgs : List Pending} {t : ℕ}

/-- Oldest first. -/
def Oldest (msgs : List Pending) : Prop := msgs.Pairwise fun m m' => m.receivedAt ≤ m'.receivedAt

theorem Oldest.filter (h : Oldest msgs) (p : Pending → Bool) : Oldest (msgs.filter p) :=
  Pairwise.filter p h

theorem precedes_iff {m m' : Pending} : m.precedes m' = true ↔
    toLex ((m.receivedAt, m.id) : ℕ × ℕ) ≤ toLex (m'.receivedAt, m'.id) := by
  rw [Prod.Lex.toLex_le_toLex, Pending.precedes, Bool.or_eq_true, Bool.and_eq_true,
    decide_eq_true_eq, decide_eq_true_eq, decide_eq_true_eq]

theorem oldest_mergeSort (msgs : List Pending) : Oldest (msgs.mergeSort Pending.precedes) := by
  have htrans (a b c : Pending) (hab : a.precedes b = true) (hbc : b.precedes c = true) :
      a.precedes c = true := precedes_iff.mpr ((precedes_iff.mp hab).trans (precedes_iff.mp hbc))
  have htotal (a b : Pending) : (a.precedes b || b.precedes a) = true := by
    rw [Bool.or_eq_true, precedes_iff, precedes_iff]
    exact le_total _ _
  refine Pairwise.imp (fun hab => ?_) (pairwise_mergeSort htrans htotal msgs)
  rcases Prod.Lex.toLex_le_toLex.mp (precedes_iff.mp hab) with hlt | ⟨heq, -⟩
  · exact hlt.le
  · exact heq.le

theorem dropWhile_eq_filter (h : Oldest msgs) :
    (msgs.dropWhile fun m => m.receivedAt < t) = msgs.filter fun m => t ≤ m.receivedAt := by
  induction msgs with
  | nil => rfl
  | cons m rest ih =>
    obtain ⟨hm, hrest⟩ := pairwise_cons.mp h
    by_cases hlt : m.receivedAt < t
    · simp [hlt, ih hrest, Nat.not_le.mpr hlt]
    · have hall : ∀ m' ∈ rest, t ≤ m'.receivedAt := fun m' hm' =>
        (Nat.not_lt.mp hlt).trans (hm m' hm')
      have hle : t ≤ m.receivedAt := Nat.not_lt.mp hlt
      rw [dropWhile_cons_of_neg (by simpa using hle), filter_cons_of_pos (by simpa using hle),
        filter_eq_self.mpr (by simpa using hall)]

theorem takeWhile_eq_filter (h : Oldest msgs) :
    (msgs.takeWhile fun m => m.receivedAt < t) = msgs.filter fun m => m.receivedAt < t := by
  induction msgs with
  | nil => rfl
  | cons m rest ih =>
    obtain ⟨hm, hrest⟩ := pairwise_cons.mp h
    by_cases hlt : m.receivedAt < t
    · simp [hlt, ih hrest]
    · have hall : ∀ m' ∈ rest, ¬m'.receivedAt < t := fun m' hm' =>
        Nat.not_lt.mpr ((Nat.not_lt.mp hlt).trans (hm m' hm'))
      rw [takeWhile_cons_of_neg (by simpa using hlt), filter_cons_of_neg (by simpa using hlt),
        filter_eq_nil_iff.mpr (by simpa using hall)]

/-- The messages from some time on are a final part of the list. -/
theorem filter_append_filter (h : Oldest msgs) :
    (msgs.filter fun m => m.receivedAt < t) ++ (msgs.filter fun m => t ≤ m.receivedAt) = msgs := by
  rw [← takeWhile_eq_filter h, ← dropWhile_eq_filter h, takeWhile_append_dropWhile]

/-- The newest message is among the newest ones. -/
theorem exists_newest_max {last : Option ℕ} (hlast : ∀ n ∈ last, 0 < n) (h : Oldest msgs)
    (hne : msgs ≠ []) : ∃ x ∈ newest last msgs, ∀ y ∈ msgs, y.receivedAt ≤ x.receivedAt := by
  have hmax : ∀ y ∈ msgs, y.receivedAt ≤ (msgs.getLast hne).receivedAt := by
    intro y hy
    rw [← dropLast_append_getLast hne] at hy h
    rw [Oldest, pairwise_append] at h
    rcases mem_append.mp hy with hy | hy
    · exact h.2.2 y hy _ (mem_singleton_self _)
    · rw [mem_singleton.mp hy]
  refine ⟨msgs.getLast hne, ?_, hmax⟩
  cases last with
  | none => exact getLast_mem hne
  | some n =>
    have hn := hlast n rfl
    have hpos := length_pos_iff.mpr hne
    have hdrop : msgs.drop (msgs.length - n) ≠ [] := by
      rw [ne_eq, drop_eq_nil_iff]
      omega
    rw [← getLast_drop hdrop]
    exact getLast_mem hdrop

theorem newest_subset {last : Option ℕ} {m : Pending} (h : m ∈ newest last msgs) : m ∈ msgs := by
  cases last with
  | none => exact h
  | some n => exact mem_of_mem_drop h

/-- The newest messages of a final part that is long enough are the newest of the whole list. -/
theorem newest_append {n : ℕ} {front back : List Pending} (h : n ≤ back.length) :
    newest (some n) (front ++ back) = newest (some n) back := by
  unfold newest
  simp only
  rw [length_append, drop_append, drop_eq_nil_of_le (by omega), nil_append]
  congr 1
  omega

end Lists

/-! ### What the options ask for -/

/-- Nanoseconds in a second. -/
@[irreducible] def nanosPerSec : ℕ := 1000000000

theorem le_mul_nanosPerSec (a : ℕ) : a ≤ a * nanosPerSec := by
  refine Nat.le_mul_of_pos_right _ ?_
  unfold nanosPerSec
  norm_num

namespace ReadArgs

variable (args : ReadArgs)

/-- A message was received in the requested seconds. -/
def inWindow (m : Pending) : Bool :=
  args.since.all (· * nanosPerSec ≤ m.receivedAt) &&
    args.until_.all (m.receivedAt < · * nanosPerSec)

/-- The messages the options ask for: the newest ones of the requested time. -/
def requested (msgs : List Pending) : List Pending :=
  newest (args.last.map Subtype.val) (msgs.filter args.inWindow)

/-- No message lies where a cutoff in seconds and the same number of nanoseconds disagree: none of
the requested time is cut off at the end, and none from before it is let in at the start, unless
enough newer messages are asked for. -/
def UnitsAgree (msgs : List Pending) : Prop :=
  (∀ m ∈ msgs, args.inWindow m → ∀ u ∈ args.until_, m.receivedAt < u) ∧
  ((∀ m ∈ msgs, (∀ u ∈ args.until_, m.receivedAt < u) → ∀ s ∈ args.since, s ≤ m.receivedAt →
      s * nanosPerSec ≤ m.receivedAt) ∨
    ∃ n ∈ args.last, n.1 ≤ (msgs.filter args.inWindow).length)

/-- A message passes the cutoffs as they are compared. -/
def passes (m : Pending) : Bool :=
  args.since.all (· ≤ m.receivedAt) && args.until_.all (m.receivedAt < ·)

variable {args} in
theorem passes_iff {m : Pending} : args.passes m = true ↔
    (∀ s ∈ args.since, s ≤ m.receivedAt) ∧ ∀ u ∈ args.until_, m.receivedAt < u := by
  simp only [passes, Bool.and_eq_true, Option.all_eq_true, decide_eq_true_eq, Option.mem_def]

variable {args} in
theorem inWindow_iff {m : Pending} : args.inWindow m = true ↔
    (∀ s ∈ args.since, s * nanosPerSec ≤ m.receivedAt) ∧
      ∀ u ∈ args.until_, m.receivedAt < u * nanosPerSec := by
  simp only [inWindow, Bool.and_eq_true, Option.all_eq_true, decide_eq_true_eq, Option.mem_def]

theorem select_eq {msgs : List Pending} (h : Oldest msgs) :
    args.select msgs = newest (args.last.map Subtype.val) (msgs.filter args.passes) := by
  have hsince : sinceCutoff args.since msgs =
      msgs.filter fun m => args.since.all (· ≤ m.receivedAt) := by
    unfold sinceCutoff
    cases args.since with
    | none => simp
    | some s => simpa using dropWhile_eq_filter h
  have huntil (l : List Pending) (hl : Oldest l) : untilCutoff args.until_ l =
      l.filter fun m => args.until_.all (m.receivedAt < ·) := by
    unfold untilCutoff
    cases args.until_ with
    | none => simp
    | some u => simpa using takeWhile_eq_filter hl
  rw [select, hsince, huntil _ (h.filter _), filter_filter]
  congr 2
  funext m
  rw [passes, Bool.and_comm]

variable {args} {msgs : List Pending}

/-- Where no message of the requested time is cut off, the requested messages are a final part of
those that pass. -/
theorem filter_inWindow_eq (h : ∀ m ∈ msgs, args.inWindow m → ∀ u ∈ args.until_, m.receivedAt < u) :
    msgs.filter args.inWindow = (msgs.filter args.passes).filter
      fun m => args.since.getD 0 * nanosPerSec ≤ m.receivedAt := by
  rw [filter_filter]
  refine filter_congr fun m hm => ?_
  have hend := h m hm
  rw [Bool.eq_iff_iff, Bool.and_eq_true, decide_eq_true_eq, inWindow_iff, passes_iff]
  rw [inWindow_iff] at hend
  constructor
  · intro hin
    refine ⟨?_, fun s hs => (le_mul_nanosPerSec s).trans (hin.1 s hs), hend hin⟩
    cases hs : args.since with
    | none => simp
    | some s => exact hin.1 s hs
  · rintro ⟨hstart, -, hu⟩
    refine ⟨fun s hs => ?_, fun u hu' => (hu u hu').trans_le (le_mul_nanosPerSec u)⟩
    rwa [Option.mem_def.mp hs] at hstart

/-- The selection is the requested one exactly if the units agree. -/
theorem select_eq_requested_iff (h : Oldest msgs) :
    args.select msgs = args.requested msgs ↔ args.UnitsAgree msgs := by
  have hlast : ∀ n ∈ args.last.map Subtype.val, 0 < n := by
    intro n hn
    obtain ⟨k, -, rfl⟩ := Option.mem_map.mp hn
    exact k.2
  rw [args.select_eq h, requested]
  set W := msgs.filter args.passes
  have hW : Oldest W := h.filter _
  constructor
  · intro heq
    have hend : ∀ m ∈ msgs, args.inWindow m → ∀ u ∈ args.until_, m.receivedAt < u := by
      -- the newest requested message is shown, so it passes the end cutoff
      intro m hm hin u hu
      have hmem : m ∈ msgs.filter args.inWindow := mem_filter.mpr ⟨hm, hin⟩
      obtain ⟨x, hx, hmax⟩ := exists_newest_max hlast (h.filter args.inWindow) (ne_nil_of_mem hmem)
      rw [← heq] at hx
      have hpass := passes_iff.mp (mem_filter.mp (newest_subset hx)).2
      exact (hmax m hmem).trans_lt (hpass.2 u hu)
    refine ⟨hend, ?_⟩
    by_cases hn : ∃ n ∈ args.last, n.1 ≤ (msgs.filter args.inWindow).length
    · exact .inr hn
    -- all requested messages are shown, so nothing else is
    refine .inl fun m hm hu s hs hle => ?_
    have hlen : W.length = (msgs.filter args.inWindow).length := by
      have := congrArg length heq
      unfold newest at this
      cases hl : args.last with
      | none => simpa [hl] using this
      | some n =>
        have hlt : (msgs.filter args.inWindow).length < n.1 :=
          Nat.not_le.mp fun hle => hn ⟨n, hl, hle⟩
        simp only [hl, Option.map_some, length_drop] at this
        omega
    rw [filter_inWindow_eq hend] at hlen
    have hall := length_filter_eq_length_iff.mp hlen.symm
    have hmW : m ∈ W := by
      refine mem_filter.mpr ⟨hm, passes_iff.mpr ⟨fun s' hs' => ?_, hu⟩⟩
      obtain rfl : s = s' := Option.some.inj (hs.symm.trans hs')
      exact hle
    have := hall m hmW
    rw [Option.mem_def.mp hs] at this
    simpa using this
  · rintro ⟨hend, hstart⟩
    rw [filter_inWindow_eq hend]
    rcases hstart with hstart | ⟨n, hn, hle⟩
    · congr 1
      refine (filter_eq_self.mpr fun m hm => ?_).symm
      obtain ⟨hm, hpass⟩ := mem_filter.mp hm
      have hpass := passes_iff.mp hpass
      rw [decide_eq_true_eq]
      cases hs : args.since with
      | none => simp
      | some s => exact hstart m hm hpass.2 s hs (hpass.1 s hs)
    · rw [filter_inWindow_eq hend] at hle
      rw [Option.mem_def.mp hn]
      conv_lhs => rw [← filter_append_filter hW (t := args.since.getD 0 * nanosPerSec)]
      exact newest_append hle

end ReadArgs

/-! ### What `read` does in a healthy environment -/

/-- The ids of the stored messages. -/
def Profile.rxIds (P : Profile L) : List EnvelopeId := P.names.filterMap fun n => match n with
  | .rx id => some id
  | _ => none

/-- A stored message, if it belongs to the conversation. -/
def Profile.messageOf (P : Profile L) (g : GroupId) (id : EnvelopeId) : Option Pending :=
  match P.records (.rx id) with
  | some r => if r.groupId = g then some (r.toPending L id) else none
  | none => none

/-- The stored messages of a conversation, oldest first. -/
def Profile.messages (P : Profile L) (g : GroupId) : List Pending :=
  (P.rxIds.filterMap (P.messageOf g)).mergeSort Pending.precedes

/-- The messages that were displayed so far. -/
def World.displayed (w : World L) : List Pending := w.trace.filterMap fun e => match e with
  | .displayed m => some m
  | _ => none

/-- A message as it is stored. -/
def World.rx (w : World L) (id : EnvelopeId) : Option Received := w.profile.records (.rx id)

section Healthy

variable {w : World L}

theorem wp_collect (g : GroupId) (ids : List EnvelopeId) {Q : Except Error (List Pending) →
    World L → Prop} (hQ : Q (.ok (ids.filterMap (w.profile.messageOf g))) w) :
    wp (machine L) Healthy (collect g ids) Q (fun _ => True) w := by
  induction ids generalizing Q with
  | nil => exact ⟨trivial, hQ⟩
  | cons id rest ih =>
    rw [collect, wp_bind]
    refine Healthy.get trivial ?_
    rw [andThen_bind]
    refine ih ⟨trivial, ?_⟩
    unfold Profile.messageOf at hQ ⊢
    cases hr : w.profile.records (.rx id) with
    | none => simpa [hr] using hQ
    | some r =>
      by_cases hg : r.groupId = g
      · simpa [hr, hg] using hQ
      · simpa [hr, hg] using hQ

theorem wp_pending (g : GroupId) {Q : Except Error (List Pending) → World L → Prop}
    (hQ : Q (.ok (w.profile.messages g)) w) :
    wp (machine L) Healthy (pending g) Q (fun _ => True) w := by
  rw [pending, wp_bind]
  refine Healthy.names trivial ?_
  rw [andThen_bind]
  exact wp_collect g _ ⟨trivial, hQ⟩

/-- What `discard` does to the stored messages: the given ones are gone, nothing was displayed. -/
structure Discarded (w : World L) (gone : List EnvelopeId) (t : World L) : Prop where
  displayed : t.displayed = w.displayed
  rx : ∀ id, t.rx id = if id ∈ gone then none else w.rx id

theorem Discarded.refl : Discarded w [] w := ⟨rfl, fun _ => rfl⟩

theorem Discarded.trans {t u : World L} {gone gone' : List EnvelopeId} (h : Discarded w gone t)
    (h' : Discarded t gone' u) : Discarded w (gone ++ gone') u where
  displayed := h'.displayed.trans h.displayed
  rx id := by
    rw [h'.rx, h.rx]
    by_cases hg : id ∈ gone <;> simp [hg]

/-- Removing or writing a parked attachment is not seen in the stored messages. -/
theorem discarded_erase_att (a : Uuid) : Discarded w [] (w.erase (.att a)) :=
  ⟨rfl, fun _ => Profile.records_remove_ne (by simp)⟩

theorem discarded_write_att (a : Uuid) (r : Received) : Discarded w [] (w.write (.att a) r) :=
  ⟨rfl, fun _ => Profile.records_put_ne (by simp)⟩

theorem discarded_erase_rx (id : EnvelopeId) : Discarded w [id] (w.erase (.rx id)) := by
  refine ⟨by simp [displayed, erase, noteRemove, record], fun id' => ?_⟩
  by_cases h : id' = id
  · subst h
    simp [rx]
  · rw [if_neg (by simpa using h)]
    exact Profile.records_remove_ne (by simpa using h)

theorem wp_liveAttachments (now : ℕ) (as : List Uuid) (w : World L) :
    wp (machine L) Healthy (liveAttachments now as) (fun r t => ∃ kept, r = .ok kept ∧
      Discarded w [] t) (fun _ => True) w := by
  induction as generalizing w with
  | nil => exact ⟨trivial, [], rfl, .refl⟩
  | cons a rest ih =>
    rw [liveAttachments, wp_bind]
    refine Healthy.get trivial ?_
    rw [andThen_ok]
    split
    · exact ih w
    · split
      · rw [wp_bind]
        refine Healthy.remove trivial trivial (wp_mono ?_ (fun _ h => h) (ih _))
        rintro r t ⟨kept, rfl, ht⟩
        exact ⟨kept, rfl, (discarded_erase_att a).trans ht⟩
      · rw [wp_bind]
        refine wp_mono ?_ (fun _ h => h) (ih w)
        rintro r t ⟨kept, rfl, ht⟩
        exact ⟨trivial, _, rfl, ht⟩

theorem wp_makeRoomForAttachment (w : World L) :
    wp (machine L) Healthy makeRoomForAttachment (fun r t => r = .ok () ∧ Discarded w [] t)
      (fun _ => True) w := by
  rw [makeRoomForAttachment, wp_bind]
  refine ⟨trivial, fun c _ => ⟨trivial, ?_⟩⟩
  rw [andThen_bind]
  refine Healthy.names trivial ?_
  rw [andThen_bind]
  refine wp_mono ?_ (fun _ h => h) (wp_liveAttachments _ _ w)
  rintro r t ⟨kept, rfl, ht⟩
  rw [andThen_ok]
  -- the list itself does not matter
  generalize overflow kept = oldest
  exact wp_forM (fun _ => Discarded w [])
    (fun x rest u hu => Healthy.remove trivial trivial (hu.trans (discarded_erase_att _)))
    (fun u hu => ⟨trivial, rfl, hu⟩) ht

theorem wp_discard (m : Pending) (w : World L) :
    wp (machine L) Healthy (discard m) (fun r t => r = .ok () ∧ Discarded w [m.id] t)
      (fun _ => True) w := by
  have hremove : ∀ u : World L, Discarded w [] u → wp (machine L) Healthy (remove (.rx m.id))
      (fun r t => r = .ok () ∧ Discarded w [m.id] t) (fun _ => True) u := fun u hu =>
    Healthy.remove trivial trivial ⟨rfl, hu.trans (discarded_erase_rx m.id)⟩
  unfold discard
  split
  · rw [wp_bind]
    refine Healthy.get trivial ?_
    rw [andThen_ok]
    split
    · exact hremove w .refl
    · rw [wp_bind]
      refine wp_mono ?_ (fun _ h => h) (wp_makeRoomForAttachment w)
      rintro r t ⟨rfl, ht⟩
      rw [andThen_bind]
      refine ⟨trivial, fun c _ => ⟨trivial, ?_⟩⟩
      rw [andThen_bind]
      exact Healthy.put trivial trivial (hremove _ (ht.trans (discarded_write_att _ _)))
  · exact hremove w .refl

/-- Displaying messages, and removing them unless they are kept. -/
theorem wp_showAll (keep : Bool) (msgs : List Pending) (w : World L) :
    wp (machine L) Healthy (showAll keep msgs) (fun r t => r = .ok () ∧
      t.displayed = w.displayed ++ msgs ∧
      ∀ id, t.rx id = if keep = false ∧ id ∈ msgs.map Pending.id then none else w.rx id)
      (fun _ => True) w := by
  induction msgs generalizing w with
  | nil => exact ⟨trivial, rfl, by simp, by simp⟩
  | cons m rest ih =>
    change wp _ _ ((request (.display m) >>= fun _ => if keep then .pure () else discard m) >>=
      fun _ => showAll keep rest) _ _ _
    rw [bind_assoc, wp_bind, wp_request]
    refine ⟨trivial, fun c hc => ⟨trivial, ?_⟩⟩
    have hexec : (machine L).exec (.display m) c w = (.ok (), w.record (.displayed m)) := by
      change (if c.written then _ else _) = _
      rw [hc.written]
      rfl
    rw [hexec, andThen_bind]
    have hshown : (w.record (.displayed m)).displayed = w.displayed ++ [m] := by
      simp [displayed, record]
    -- the rest is shown after the first message was kept or discarded
    have hrest : ∀ u : World L, u.displayed = w.displayed ++ [m] →
        (∀ id, u.rx id = if keep = false ∧ id = m.id then none else w.rx id) →
        wp (machine L) Healthy (showAll keep rest) (fun r t => r = .ok () ∧
          t.displayed = w.displayed ++ m :: rest ∧
          ∀ id, t.rx id = if keep = false ∧ id ∈ (m :: rest).map Pending.id then none
            else w.rx id) (fun _ => True) u := by
      intro u hu hrx
      refine wp_mono ?_ (fun _ h => h) (ih u)
      rintro r t ⟨rfl, ht, htrx⟩
      refine ⟨rfl, by rw [ht, hu, append_assoc, singleton_append], fun id => ?_⟩
      rw [htrx, hrx]
      cases keep <;> by_cases hid : id = m.id <;> simp [hid]
    cases keep with
    | true => exact ⟨trivial, hrest _ hshown (by simp [rx])⟩
    | false =>
      refine wp_mono ?_ (fun _ h => h) (wp_discard m (w.record (.displayed m)))
      rintro r t ⟨rfl, ht⟩
      refine hrest t (ht.displayed.trans hshown) fun id => ?_
      rw [ht.rx]
      simp [rx]

theorem wp_forM_discard (msgs : List Pending) (w : World L) :
    wp (machine L) Healthy (msgs.forM discard) (fun r t => r = .ok () ∧
      Discarded w (msgs.map Pending.id) t) (fun _ => True) w := by
  refine wp_forM (fun rest t => ∃ done, msgs = done ++ rest ∧
    Discarded w (done.map Pending.id) t) (fun m rest t ht => ?_) (fun t ht => ?_)
    ⟨[], rfl, .refl⟩
  · obtain ⟨done, hdone, ht⟩ := ht
    refine wp_mono ?_ (fun _ h => h) (wp_discard m t)
    rintro r u ⟨rfl, hu⟩
    exact ⟨done ++ [m], by simp [hdone], by simpa using ht.trans hu⟩
  · obtain ⟨done, hdone, ht⟩ := ht
    rw [append_nil] at hdone
    exact ⟨trivial, rfl, hdone ▸ ht⟩

/-- `read` displays the selected messages and removes them unless they are kept. -/
theorem wp_runRead (args : ReadArgs) (w : World L) :
    wp (machine L) Healthy (runRead args) (fun r t => r = .ok () ∧
      t.displayed = w.displayed ++ args.select (w.profile.messages args.groupId) ∧
      ∀ id, t.rx id =
        if args.keep = false ∧
          id ∈ (args.select (w.profile.messages args.groupId)).map Pending.id then none
        else w.rx id) (fun _ => True) w := by
  rw [runRead, wp_bind]
  refine wp_pending args.groupId ?_
  rw [andThen_bind]
  refine wp_mono ?_ (fun _ h => h) (wp_showAll _ _ w)
  rintro r t ⟨rfl, ht, hrx⟩
  rw [andThen_ok]
  cases halt : args.altScreen with
  | false =>
    rw [halt, Bool.or_false] at hrx
    exact ⟨trivial, rfl, ht, hrx⟩
  | true =>
    simp only [halt, Bool.or_true, Bool.true_eq_false, false_and, if_false] at hrx
    simp only [if_true]
    rw [wp_bind]
    refine ⟨trivial, fun c hc => ⟨trivial, ?_⟩⟩
    have hseen : (machine L).exec .enter c t = (true, t) := Prod.ext hc.entered rfl
    rw [andThen_ok, hseen]
    cases hkeep : args.keep with
    | true => exact ⟨trivial, rfl, ht, by simpa [hkeep] using hrx⟩
    | false =>
      refine wp_mono ?_ (fun _ h => h) (wp_forM_discard _ t)
      rintro r u ⟨rfl, hu⟩
      refine ⟨rfl, hu.displayed.trans ht, fun id => ?_⟩
      rw [hu.rx, hrx]
      simp

end Healthy

/-! ### The result -/

/-- `read` displays exactly these messages and, unless they are to be kept, removes exactly them. -/
def ReadsExactly (args : ReadArgs) (w : World L) (msgs : List Pending) (t : World L) : Prop :=
  t.displayed = w.displayed ++ msgs ∧
  ∀ id, t.rx id = if args.keep = false ∧ id ∈ msgs.map Pending.id then none else w.rx id

/-- When nothing fails, `read` displays and removes exactly the requested messages if and only if
no message lies where seconds and nanoseconds disagree. -/
theorem read_exact_iff {f : ℕ → Choice L} (hf : ∀ n, Healthy (f n)) (w : World L)
    (args : ReadArgs) :
    ReadsExactly args w (args.requested (w.profile.messages args.groupId))
        ((runRead args).run (machine L) f w).2 ↔
      args.UnitsAgree (w.profile.messages args.groupId) := by
  obtain ⟨-, hshown, hrx⟩ := wp_run (wp_runRead args w) hf
  have holdest : Oldest (w.profile.messages args.groupId) := oldest_mergeSort _
  rw [← ReadArgs.select_eq_requested_iff holdest]
  constructor
  · rintro ⟨h, -⟩
    exact append_cancel_left (hshown.symm.trans h)
  · intro h
    rw [← h]
    exact ⟨hshown, hrx⟩

/-- A profile with one message, received in the second 1700000000. -/
def oneMessage : World Toy.libraries :=
  .new ((∅ : Profile _).put (.rx 5) ⟨1, 2, [104, 105], 1700000000000000000, none⟩)

/-- Asked for messages from a later time on, `read` shows the message and removes it; asked for
messages before a later time, it shows nothing. -/
theorem read_compares_nanos_with_secs :
    let since : ReadArgs := { groupId := 1, since := some 1800000000 }
    let before : ReadArgs := { groupId := 1, until_ := some 1800000000 }
    let run (args : ReadArgs) := ((runRead args).run (machine _) (fun _ => {}) oneMessage).2
    (since.requested (oneMessage.profile.messages 1) = [] ∧ (run since).rx 5 = none) ∧
      ¬ReadsExactly since oneMessage (since.requested (oneMessage.profile.messages 1))
        (run since) ∧
      (before.requested (oneMessage.profile.messages 1)).map Pending.id = [5] ∧
      (run before).displayed = [] := by
  refine ⟨⟨by decide +kernel, by decide +kernel⟩, fun h => ?_, by decide +kernel, by decide +kernel⟩
  have hrx := h.2 5
  revert hrx
  decide +kernel

/-- Two more messages, 100 and 200 seconds later. -/
def threeMessages : World Toy.libraries :=
  .new ((oneMessage.profile.put (.rx 6) ⟨1, 2, [104], 1700000100000000000, none⟩).put (.rx 7)
    ⟨1, 2, [105], 1700000200000000000, none⟩)

/-- The last two messages, of those since a time after the first one. -/
theorem read_last_since_exact :
    let args : ReadArgs := { groupId := 1, last := some ⟨2, by decide⟩, since := some 1700000050 }
    (threeMessages.profile.messages 1).map Pending.id = [5, 6, 7] ∧
      (args.requested (threeMessages.profile.messages 1)).map Pending.id = [6, 7] ∧
      ReadsExactly args threeMessages (args.requested (threeMessages.profile.messages 1))
        ((runRead args).run (machine _) (fun _ => {}) threeMessages).2 := by
  intro args
  -- the records are in this order already
  have hsorted : threeMessages.profile.messages 1 =
      threeMessages.profile.rxIds.filterMap (threeMessages.profile.messageOf 1) :=
    mergeSort_of_pairwise (by decide +kernel)
  have hread := (read_exact_iff (fun _ => .default) threeMessages args).mpr
    ⟨(fun m _ _ u hu => by cases hu), .inr ⟨_, rfl, by rw [hsorted]; decide +kernel⟩⟩
  refine ⟨by rw [hsorted]; decide +kernel, by rw [hsorted]; decide +kernel, hread⟩

end Powehi.Client
