import Mathlib.Data.List.Perm.Subperm
import Powehi.Codec.Bytes

/-!
# Maps and sets keyed by byte strings

Finite maps and sets in byte order, and the facts about them that formats and directories
need beyond the standard library's: one update operation for insertion and removal,
rebuilding a map from its entries, checking all entries, and counting keys.
-/

namespace Powehi.Codec

open Std.ExtTreeMap

/-- Maps keyed by byte strings, in byte order. -/
abbrev Map (β : Type) := Std.ExtTreeMap Bytes β compare

/-- Sets of byte strings, in byte order. -/
abbrev Names := Std.ExtTreeSet Bytes compare

namespace Map

variable {β ε : Type}

/-- Insert a value, or erase the key for `none`. -/
def update (m : Map β) (k : Bytes) : Option β → Map β
  | some v => m.insert k v
  | none => m.erase k

theorem getElem?_update (m : Map β) (k j : Bytes) (v : Option β) :
    (m.update k v)[j]? = if j = k then v else m[j]? := by
  by_cases h : j = k
  · subst h
    cases v <;> simp [update]
  · have hc : compare k j ≠ .eq := fun hc => h (Std.compare_eq_iff_eq.mp hc).symm
    cases v <;> simp [update, getElem?_erase, getElem?_insert, h, hc]

@[simp] theorem getElem?_update_self (m : Map β) (k : Bytes) (v : Option β) :
    (m.update k v)[k]? = v := by
  rw [getElem?_update, if_pos rfl]

/-- Setting a key to the value it has changes nothing. -/
theorem update_getElem? (m : Map β) (k : Bytes) : m.update k m[k]? = m := by
  apply ext_getElem?
  intro j
  rw [getElem?_update]
  split
  · rename_i h
    rw [h]
  · rfl

/-- The later of two updates of a key wins. -/
@[simp] theorem update_update (m : Map β) (k : Bytes) (v w : Option β) :
    (m.update k v).update k w = m.update k w := by
  apply ext_getElem?
  intro j
  simp only [getElem?_update]
  split <;> rfl

/-- A map is rebuilt from the list of its entries. -/
theorem insertMany_toList (m : Map β) : (∅ : Map β).insertMany m.toList = m := by
  apply ext_getElem?
  intro k
  cases hk : m[k]? with
  | some v =>
    exact getElem?_insertMany_list_of_mem Std.ReflCmp.compare_self
      m.distinct_keys_toList (mem_toList_iff_getElem?_eq_some.mpr hk)
  | none =>
    have hmem : k ∉ m.toList.map Prod.fst := by
      simpa using hk
    rw [getElem?_insertMany_list_of_contains_eq_false (by simpa using hmem)]
    simp

/-- Entries with distinct keys are the entries of the map they are inserted into. -/
theorem toList_insertMany {l : List (Bytes × β)}
    (h : l.Pairwise fun x y => ¬compare x.1 y.1 = .eq) :
    ((∅ : Map β).insertMany l).toList.Perm l := by
  have hnodup : l.Nodup := by
    refine h.imp ?_
    rintro x y hne rfl
    exact hne Std.ReflCmp.compare_self
  have hnodup' : ((∅ : Map β).insertMany l).toList.Nodup := by
    refine ((∅ : Map β).insertMany l).distinct_keys_toList.imp ?_
    rintro x y hne rfl
    exact hne Std.ReflCmp.compare_self
  rw [List.perm_ext_iff_of_nodup hnodup' hnodup]
  rintro ⟨k, v⟩
  rw [mem_toList_iff_getElem?_eq_some]
  constructor
  · intro hk
    by_cases hmem : k ∈ l.map Prod.fst
    · obtain ⟨⟨k', v'⟩, hin, rfl⟩ := List.mem_map.mp hmem
      rw [getElem?_insertMany_list_of_mem Std.ReflCmp.compare_self h hin]
        at hk
      cases hk
      exact hin
    · rw [getElem?_insertMany_list_of_contains_eq_false (by simpa using hmem)] at hk
      simp at hk
  · intro hin
    exact getElem?_insertMany_list_of_mem Std.ReflCmp.compare_self h hin

theorem forM_eq_ok {α : Type} {f : α → Except ε Unit} {l : List α} :
    l.forM f = .ok () ↔ ∀ x ∈ l, f x = .ok () := by
  induction l with
  | nil => exact ⟨nofun, fun _ => rfl⟩
  | cons x l ih =>
    change (f x >>= fun _ => l.forM f) = .ok () ↔ _
    rw [List.forall_mem_cons]
    cases hx : f x with
    | ok u => exact ih.trans ⟨fun h => ⟨rfl, h⟩, fun h => h.2⟩
    | error e => exact ⟨nofun, nofun⟩

/-- A check of all entries passes exactly if it passes for each. -/
theorem forM_toList_eq_ok {f : Bytes × β → Except ε Unit} {m : Map β} :
    m.toList.forM f = .ok () ↔ ∀ k v, m[k]? = some v → f (k, v) = .ok () := by
  rw [forM_eq_ok, Prod.forall]
  simp only [mem_toList_iff_getElem?_eq_some]

/-- A map has at most as many keys as a list that contains them all. -/
theorem size_le_length {m : Map β} {l : List Bytes} (h : ∀ k ∈ m, k ∈ l) : m.size ≤ l.length := by
  rw [← length_keys]
  exact (List.Nodup.subperm m.nodup_keys fun k hk => h k (mem_keys.mp hk)).length_le

end Map

end Powehi.Codec
