import Mathlib.Data.List.Sort
import Powehi.Codec.Blocks
import Powehi.Codec.Json

/-!
# Safety numbers

Two people compare a safety number to learn whether they see the same identity keys. It consists of
digits of a hash over the sorted keys, behind a prefix that tells a pair from a group.

The hash is a parameter. What is hashed determines the kind of the conversation and the set of keys.
-/

namespace Powehi.Safety

open Codec List

/-! ### The two constructions -/

def safetyNumberDomain : Bytes := ascii "powehi-safety-number-v1"

def groupSafetyNumberDomain : Bytes := ascii "powehi-group-safety-number-v1"

/-- Most members a group safety number covers. -/
def groupMaxMembers : ℕ := 512

inductive GroupSafetyError
  | tooFew
  | tooMany
  | badKeyLength
  | duplicateKey
deriving DecidableEq

/-- Twelve groups of six digits. -/
def digitsFromHash (hash : Block 64) : Bytes :=
  (ascii " ").intercalate ((List.range 12).map fun i =>
    (Json.decimal (ofBe (slice 4 hash.1 i) % 1000000)).leftpad 6 48)

/-- The order of byte strings. -/
def Le (a b : Bytes) : Prop := (compare a b).isLE

instance : DecidableRel Le := fun a b => inferInstanceAs (Decidable ((compare a b).isLE = true))

def sort (keys : List Bytes) : List Bytes := keys.insertionSort Le

/-- A key with its length before it. -/
def framed (key : Bytes) : Bytes := beBytes 4 key.length ++ key

section

variable (sha512 : Bytes → Block 64)

def pairwise (keyA keyB : Bytes) : Except String Bytes :=
  if keyA.length ≠ 32 ∨ keyB.length ≠ 32 then
    .error "safety number keys must be exactly 32 bytes"
  else
    let (first, second) := if Le keyA keyB then (keyA, keyB) else (keyB, keyA)
    .ok (digitsFromHash (sha512
      (safetyNumberDomain ++ ([0] ++ (framed first ++ framed second)))))

def group (keys : List Bytes) : Except GroupSafetyError Bytes :=
  if keys.length < 2 then .error .tooFew
  else if groupMaxMembers < keys.length then .error .tooMany
  else if keys.any (·.length ≠ 32) then .error .badKeyLength
  else
    let sorted := sort keys
    if (sorted.zip sorted.tail).any (fun w => w.1 = w.2) then .error .duplicateKey
    else
      .ok (digitsFromHash (sha512 (groupSafetyNumberDomain ++
        ([0] ++ (beBytes 4 sorted.length ++ sorted.flatMap framed)))))

end

/-- What is hashed for a pair. -/
def pairInput (keys : List Bytes) : Bytes :=
  safetyNumberDomain ++ ([0] ++ (sort keys).flatMap framed)

/-- What is hashed for a group. -/
def groupInput (keys : List Bytes) : Bytes :=
  groupSafetyNumberDomain ++ ([0] ++ (beBytes 4 keys.length ++ (sort keys).flatMap framed))

/-! ### Sorting -/

instance : Std.Total Le := ⟨fun a b => by
  cases h : compare a b with
  | gt => exact .inr (by simp [Le, Std.OrientedCmp.lt_of_gt h])
  | _ => exact .inl (by simp [Le, h])⟩

instance : IsTrans Bytes Le := ⟨fun _ _ _ => Std.TransCmp.isLE_trans⟩

theorem le_antisymm {a b : Bytes} (h : Le a b) (h' : Le b a) : a = b :=
  Std.LawfulEqCmp.eq_of_compare (Std.OrientedCmp.isLE_antisymm h h')

theorem perm_sort (keys : List Bytes) : (sort keys).Perm keys := perm_insertionSort ..

theorem pairwise_sort (keys : List Bytes) : (sort keys).Pairwise Le :=
  pairwise_insertionSort ..

/-- The sorted list depends on the set of keys alone. -/
theorem sort_eq_iff {keys keys' : List Bytes} (h : keys.Nodup) (h' : keys'.Nodup) :
    sort keys = sort keys' ↔ ∀ k, k ∈ keys ↔ k ∈ keys' := by
  rw [← perm_ext_iff_of_nodup h h']
  constructor
  · intro heq
    exact (perm_sort keys).symm.trans (heq ▸ perm_sort keys')
  · intro hperm
    exact Perm.eq_of_pairwise (fun _ _ _ _ => le_antisymm) (pairwise_sort keys)
      (pairwise_sort keys') ((perm_sort keys).trans (hperm.trans (perm_sort keys').symm))

/-- In a sorted list equal keys are neighbours. -/
theorem nodup_of_neighbours {l : List Bytes} (hl : l.Pairwise Le)
    (h : (l.zip l.tail).any (fun w => w.1 = w.2) = false) : l.Nodup := by
  induction l with
  | nil => exact .nil
  | cons a l ih =>
    cases l with
    | nil => exact nodup_singleton a
    | cons b l =>
      rw [tail_cons, zip_cons_cons, any_cons, Bool.or_eq_false_iff, decide_eq_false_iff_not] at h
      obtain ⟨hab, hrest⟩ := h
      obtain ⟨ha, hb⟩ := pairwise_cons.1 hl
      refine nodup_cons.2 ⟨fun hmem => ?_, ih hb hrest⟩
      -- A second `a` further down would lie above `b` and below it.
      rcases mem_cons.1 hmem with heq | hmem
      · exact hab heq
      · exact hab (le_antisymm (ha b mem_cons_self) ((pairwise_cons.1 hb).1 a hmem))

/-! ### What is hashed -/

theorem framed_inj {k k' : Bytes} (h : k.length = 32) (h' : k'.length = 32) {s s' : Bytes}
    (heq : framed k ++ s = framed k' ++ s') : k = k' ∧ s = s' := by
  rw [framed, framed, h, h', append_assoc] at heq
  exact append_inj (append_cancel_left heq) (h.trans h'.symm)

/-- Keys can be read back one by one. -/
theorem flatMap_framed_inj {l l' : List Bytes} (h : ∀ k ∈ l, k.length = 32)
    (h' : ∀ k ∈ l', k.length = 32) (heq : l.flatMap framed = l'.flatMap framed) : l = l' := by
  have hne : ∀ (k s : Bytes), framed k ++ s ≠ [] := by
    intro k s hnil
    have hlen := congrArg length hnil
    simp [framed] at hlen
  induction l generalizing l' with
  | nil =>
    cases l' with
    | nil => rfl
    | cons k' l' => exact absurd heq.symm (hne _ _)
  | cons k l ih =>
    cases l' with
    | nil => exact absurd heq (hne _ _)
    | cons k' l' =>
      obtain ⟨rfl, hrest⟩ := framed_inj (h k mem_cons_self) (h' k' mem_cons_self) heq
      rw [ih (fun k hk => h k (mem_cons_of_mem _ hk))
        (fun k hk => h' k (mem_cons_of_mem _ hk)) hrest]

section Inputs

variable {keys keys' : List Bytes} (h : ∀ k ∈ keys, k.length = 32)
  (h' : ∀ k ∈ keys', k.length = 32) (hnodup : keys.Nodup) (hnodup' : keys'.Nodup)
include h h' hnodup hnodup'

theorem flatMap_framed_sort_eq_iff :
    (sort keys).flatMap framed = (sort keys').flatMap framed ↔ ∀ k, k ∈ keys ↔ k ∈ keys' := by
  rw [← sort_eq_iff hnodup hnodup']
  constructor
  · exact flatMap_framed_inj (fun k hk => h k ((perm_sort keys).mem_iff.1 hk))
      fun k hk => h' k ((perm_sort keys').mem_iff.1 hk)
  · exact congrArg _

theorem pairInput_eq_iff : pairInput keys = pairInput keys' ↔ ∀ k, k ∈ keys ↔ k ∈ keys' := by
  rw [← flatMap_framed_sort_eq_iff h h' hnodup hnodup', pairInput, pairInput,
    append_cancel_left_eq, append_cancel_left_eq]

theorem groupInput_eq_iff : groupInput keys = groupInput keys' ↔ ∀ k, k ∈ keys ↔ k ∈ keys' := by
  rw [← flatMap_framed_sort_eq_iff h h' hnodup hnodup', groupInput, groupInput,
    append_cancel_left_eq, append_cancel_left_eq]
  constructor
  · intro heq
    exact (append_inj heq (by simp)).2
  · intro heq
    have hset := (flatMap_framed_sort_eq_iff h h' hnodup hnodup').1 heq
    rw [heq, ((perm_ext_iff_of_nodup hnodup hnodup').2 hset).length_eq]

end Inputs

theorem pairwise_eq (sha512 : Bytes → Block 64) {a b : Bytes} (ha : a.length = 32)
    (hb : b.length = 32) :
    pairwise sha512 a b = .ok (digitsFromHash (sha512 (pairInput [a, b]))) := by
  rw [pairwise, if_neg (by simp [ha, hb]), pairInput, sort]
  by_cases h : Le a b
  · simp [h]
  · simp [h]

theorem group_eq_ok {sha512 : Bytes → Block 64} {keys : List Bytes} {n : Bytes}
    (h : group sha512 keys = .ok n) :
    n = digitsFromHash (sha512 (groupInput keys)) ∧ keys.Nodup ∧ keys.length ≤ groupMaxMembers := by
  rw [group] at h
  split at h
  · cases h
  split at h
  · cases h
  next hcap =>
  split at h
  · cases h
  dsimp only at h
  split at h
  · cases h
  next hnone =>
  have hnodup := nodup_of_neighbours (pairwise_sort keys) (Bool.eq_false_of_not_eq_true hnone)
  rw [(perm_sort keys).length_eq] at h
  exact ⟨(Except.ok.inj h).symm, (perm_sort keys).nodup_iff.1 hnodup, not_lt.1 hcap⟩

/-- The prefixes differ in their eighth byte. -/
theorem pairInput_ne_groupInput (keys keys' : List Bytes) : pairInput keys ≠ groupInput keys' := by
  intro heq
  have hpair : safetyNumberDomain.take 8 ≠ groupSafetyNumberDomain.take 8 := by decide +kernel
  have htake := congrArg (take 8) heq
  exact hpair htake

end Powehi.Safety
