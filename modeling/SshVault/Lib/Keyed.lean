import Mathlib

/-!
# Records under ids, as a map

A table keeps records under ids. A record shows a key, or is hidden. While no two records show
one key, the table is a map from keys to values, whatever the ids are.
-/

namespace Lib

variable {ι ρ κ β : Type} {key : ρ → Option κ} {value : ρ → β} {get get' : ι → Option ρ} {m : κ → Option β}

/-- The records that show a key are the entries of the map, one record to each. -/
structure Keyed (key : ρ → Option κ) (value : ρ → β) (get : ι → Option ρ) (m : κ → Option β) : Prop where
  found : ∀ k b, m k = some b → ∃ i r, get i = some r ∧ key r = some k ∧ value r = b
  entry : ∀ i r k, get i = some r → key r = some k → m k = some (value r)
  unique : ∀ i j r s k, get i = some r → get j = some s → key r = some k → key s = some k → i = j

namespace Keyed

theorem empty : Keyed key value (fun _ : ι => none) fun _ => none :=
  ⟨(fun _ _ h => nomatch h), (fun _ _ _ h => nomatch h), fun _ _ _ _ _ h => nomatch h⟩

theorem congr (h : Keyed key value get m) (hget : ∀ i, get' i = get i) : Keyed key value get' m := by
  obtain rfl : get' = get := funext hget
  exact h

theorem not_shown (h : Keyed key value get m) {k : κ} (hk : m k = none) {i : ι} {r : ρ} (hr : get i = some r) :
    key r ≠ some k := by
  intro hshown
  rw [h.entry i r k hr hshown] at hk
  cases hk

variable [DecidableEq ι] [DecidableEq κ]

/-- One record changes, or is new. It showed `k` or nothing, it shows `k` or nothing now, and no other
record shows `k`. -/
theorem change (h : Keyed key value get m) {i : ι} {k : κ} {r : ρ}
    (hget : ∀ j, get' j = if i = j then some r else get j)
    (hwas : ∀ r₀ k', get i = some r₀ → key r₀ = some k' → k' = k)
    (hothers : ∀ j s, get j = some s → key s = some k → j = i) (hshows : ∀ k', key r = some k' → k' = k) :
    Keyed key value get' (Function.update m k ((key r).map fun _ => value r)) := by
  -- Other records are as they were, and none of them shows `k`.
  have hold : ∀ j s k', j ≠ i → get' j = some s → key s = some k' → get j = some s ∧ k' ≠ k := by
    intro j s k' hj hs hk'
    rw [hget, if_neg hj.symm] at hs
    exact ⟨hs, fun hkk => hj (hothers j s hs (hkk ▸ hk'))⟩
  have hnew : get' i = some r := by rw [hget, if_pos rfl]
  refine ⟨fun k' b hb => ?_, fun j s k' hs hk' => ?_, fun j l s t k' hs ht hk hk' => ?_⟩
  · by_cases hk : k' = k
    · subst hk
      rw [Function.update_self] at hb
      obtain ⟨k₁, hk₁, rfl⟩ := Option.map_eq_some_iff.mp hb
      exact ⟨i, r, hnew, hshows k₁ hk₁ ▸ hk₁, rfl⟩
    · rw [Function.update_of_ne hk] at hb
      obtain ⟨j, s, hs, hks, hv⟩ := h.found k' b hb
      have hj : i ≠ j := by
        rintro rfl
        exact hk (hwas s k' hs hks)
      exact ⟨j, s, by rw [hget, if_neg hj, hs], hks, hv⟩
  · by_cases hj : j = i
    · subst hj
      obtain rfl : r = s := Option.some.inj (hnew.symm.trans hs)
      rw [hshows k' hk', Function.update_self, hk']
      rfl
    · obtain ⟨hs', hkk⟩ := hold j s k' hj hs hk'
      rw [Function.update_of_ne hkk]
      exact h.entry j s k' hs' hk'
  · by_cases hj : j = i
    · subst hj
      obtain rfl : r = s := Option.some.inj (hnew.symm.trans hs)
      by_contra hl
      exact (hold l t k' (Ne.symm hl) ht hk').2 (hshows k' hk)
    · obtain ⟨hs', hkk⟩ := hold j s k' hj hs hk
      have hl : l ≠ i := by
        rintro rfl
        obtain rfl : r = t := Option.some.inj (hnew.symm.trans ht)
        exact hkk (hshows k' hk')
      exact h.unique j l s t k' hs' (hold l t k' hl ht hk').1 hk hk'

end Keyed

end Lib
