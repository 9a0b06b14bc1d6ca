import Mathlib.Data.List.Sort

/-!
# The values of a partial map, in some order

What such a list shows does not depend on the order once it is sorted by what names a value.
-/

namespace Lib

variable {κ α : Type}

/-- Each value once for its key. -/
def Lists (f : κ → Option α) (l : List α) : Prop :=
  ∃ keys : List κ, keys.Nodup ∧ (∀ k, k ∈ keys ↔ (f k).isSome = true) ∧ l.Perm (keys.filterMap f)

/-- Sorting by a key that tells the elements apart. -/
theorem insertionSort_congr [LinearOrder κ] (key : α → κ) {l l' : List α} (h : l.Perm l')
    (hkey : ∀ a ∈ l, ∀ b ∈ l, key a = key b → a = b) :
    l.insertionSort (key · ≤ key ·) = l'.insertionSort (key · ≤ key ·) := by
  have htotal : Std.Total (fun a b : α => key a ≤ key b) := ⟨fun a b => le_total (key a) (key b)⟩
  have htrans : IsTrans α (key · ≤ key ·) := ⟨fun _ _ _ => le_trans⟩
  have hperm : (l.insertionSort (key · ≤ key ·)).Perm (l'.insertionSort (key · ≤ key ·)) :=
    (List.perm_insertionSort _ l).trans (h.trans (List.perm_insertionSort _ l').symm)
  refine hperm.eq_of_pairwise (fun a b ha hb hab hba => ?_) (List.pairwise_insertionSort _ l) (List.pairwise_insertionSort _ l')
  exact hkey a ((List.mem_insertionSort _).mp ha) b (h.mem_iff.mpr ((List.mem_insertionSort _).mp hb)) (hab.antisymm hba)

namespace Lists

variable {f : κ → Option α} {l l' : List α}

theorem mem_iff (h : Lists f l) {a : α} : a ∈ l ↔ ∃ k, f k = some a := by
  obtain ⟨keys, -, hmem, hperm⟩ := h
  rw [hperm.mem_iff, List.mem_filterMap]
  constructor
  · rintro ⟨k, -, hk⟩
    exact ⟨k, hk⟩
  · rintro ⟨k, hk⟩
    exact ⟨k, (hmem k).mpr (Option.isSome_of_eq_some hk), hk⟩

theorem perm (h : Lists f l) (h' : Lists f l') : l.Perm l' := by
  obtain ⟨keys, hnodup, hmem, hperm⟩ := h
  obtain ⟨keys', hnodup', hmem', hperm'⟩ := h'
  have hkeys : keys.Perm keys' :=
    (List.perm_ext_iff_of_nodup hnodup hnodup').mpr fun k => (hmem k).trans (hmem' k).symm
  exact hperm.trans ((hkeys.filterMap f).trans hperm'.symm)

variable [LinearOrder κ] {key : α → κ}

theorem sort_filter (hkey : ∀ k a, f k = some a → key a = k) (h : Lists f l) (h' : Lists f l') (p : α → Bool) :
    (l.filter p).insertionSort (key · ≤ key ·) = (l'.filter p).insertionSort (key · ≤ key ·) := by
  refine insertionSort_congr key ((h.perm h').filter p) fun a ha b hb heq => ?_
  obtain ⟨i, hi⟩ := h.mem_iff.mp (List.mem_of_mem_filter ha)
  obtain ⟨j, hj⟩ := h.mem_iff.mp (List.mem_of_mem_filter hb)
  obtain rfl : i = j := (hkey i a hi).symm.trans (heq.trans (hkey j b hj))
  exact Option.some.inj (hi.symm.trans hj)

theorem sort (hkey : ∀ k a, f k = some a → key a = k) (h : Lists f l) (h' : Lists f l') :
    l.insertionSort (key · ≤ key ·) = l'.insertionSort (key · ≤ key ·) := by
  have hall := sort_filter hkey h h' fun _ => true
  rw [List.filter_true, List.filter_true] at hall
  exact hall

end Lists

end Lib
