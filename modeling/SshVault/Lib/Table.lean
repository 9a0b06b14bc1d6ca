import Mathlib

/-!
# Tables

A table is a list of rows, and a primary key a function on them. These are the SQL
statements that change rows, with the number of rows they touched.
-/

namespace Lib.Table

variable {α κ : Type}

def update (p : α → Bool) (f : α → α) (t : List α) : List α := t.map fun r => if p r then f r else r

def affected (p : α → Bool) (t : List α) : Nat := t.countP p

section

variable [DecidableEq κ]

/-- `INSERT OR IGNORE`. -/
def insertOrIgnore (key : α → κ) (r : α) (t : List α) : List α :=
  if ∃ s ∈ t, key s = key r then t else t ++ [r]

/-- `INSERT … ON CONFLICT DO UPDATE`. -/
def upsert (key : α → κ) (r : α) (f : α → α) (t : List α) : List α :=
  if ∃ s ∈ t, key s = key r then update (key · = key r) f t else t ++ [r]

end

variable {p : α → Bool} {f : α → α} {t : List α} {r s : α} {key : α → κ}

/-! ## Where a row comes from -/

theorem mem_update (h : s ∈ update p f t) : (s ∈ t ∧ p s = false) ∨ ∃ s₀ ∈ t, p s₀ = true ∧ s = f s₀ := by
  obtain ⟨s₀, hs₀, rfl⟩ := List.mem_map.mp h
  cases hp : p s₀ with
  | true => exact Or.inr ⟨s₀, hs₀, hp, by simp⟩
  | false => exact Or.inl ⟨by simpa using hs₀, by simpa using hp⟩

theorem mem_insertOrIgnore [DecidableEq κ] (h : s ∈ insertOrIgnore key r t) : s ∈ t ∨ s = r := by
  unfold insertOrIgnore at h
  split at h
  · exact Or.inl h
  · simpa using h

theorem mem_upsert [DecidableEq κ] (h : s ∈ upsert key r f t) :
    (s ∈ t ∧ key s ≠ key r) ∨ (s = r ∧ ∀ s₀ ∈ t, key s₀ ≠ key r) ∨ ∃ s₀ ∈ t, key s₀ = key r ∧ s = f s₀ := by
  unfold upsert at h
  split at h
  · rcases mem_update h with ⟨hs, hp⟩ | ⟨s₀, hs₀, hk, rfl⟩
    · exact Or.inl ⟨hs, by simpa using hp⟩
    · exact Or.inr (Or.inr ⟨s₀, hs₀, by simpa using hk, rfl⟩)
  · rename_i hnone
    have hnew : ∀ s₀ ∈ t, key s₀ ≠ key r := fun s₀ hs₀ hk => hnone ⟨s₀, hs₀, hk⟩
    rcases List.mem_append.mp h with hs | hs
    · exact Or.inl ⟨hs, hnew s hs⟩
    · exact Or.inr (Or.inl ⟨List.mem_singleton.mp hs, hnew⟩)

/-! ## Rows that stay -/

theorem key_mem_update {k : κ} (hf : ∀ r, key (f r) = key r) (h : ∃ s ∈ t, key s = k) :
    ∃ s ∈ update p f t, key s = k := by
  obtain ⟨s, hs, hk⟩ := h
  refine ⟨_, List.mem_map_of_mem hs, ?_⟩
  split
  · rw [hf, hk]
  · exact hk

theorem key_mem_upsert [DecidableEq κ] {k : κ} (hf : ∀ r, key (f r) = key r) (h : ∃ s ∈ t, key s = k) :
    ∃ s ∈ upsert key r f t, key s = k := by
  unfold upsert
  split
  · exact key_mem_update hf h
  · obtain ⟨s, hs, hk⟩ := h
    exact ⟨s, List.mem_append_left _ hs, hk⟩

/-! ## Statements that change nothing -/

theorem affected_eq_zero : affected p t = 0 ↔ ∀ r ∈ t, p r = false := by
  simp [affected, List.countP_eq_zero]

theorem update_eq_self : update p f t = t ↔ ∀ r ∈ t, p r = true → f r = r := by
  unfold update
  induction t with
  | nil => simp
  | cons a t ih =>
    rw [List.map_cons, List.cons.injEq, List.forall_mem_cons, ih]
    split <;> simp [*]

theorem update_of_unaffected (h : affected p t = 0) : update p f t = t :=
  update_eq_self.mpr fun r hr hp => by simp [affected_eq_zero.mp h r hr] at hp

theorem map_insertOrIgnore [DecidableEq κ] {β : Type} {key' : β → κ} {g : α → β} (hg : ∀ s, key' (g s) = key s) :
    (insertOrIgnore key r t).map g = insertOrIgnore key' (g r) (t.map g) := by
  have hold : (∃ s ∈ t.map g, key' s = key' (g r)) ↔ ∃ s ∈ t, key s = key r := by
    constructor
    · rintro ⟨_, hmem, hk⟩
      obtain ⟨s, hs, rfl⟩ := List.mem_map.mp hmem
      exact ⟨s, hs, by rw [← hg s, hk, hg]⟩
    · rintro ⟨s, hs, hk⟩
      exact ⟨g s, List.mem_map_of_mem hs, by rw [hg, hk, hg]⟩
  unfold insertOrIgnore
  by_cases h : ∃ s ∈ t, key s = key r
  · rw [if_pos h, if_pos (hold.mpr h)]
  · rw [if_neg h, if_neg (fun h' => h (hold.mp h')), List.map_append, List.map_singleton]

theorem insertOrIgnore_eq_self [DecidableEq κ] : insertOrIgnore key r t = t ↔ ∃ s ∈ t, key s = key r := by
  unfold insertOrIgnore
  split <;> simp_all

theorem upsert_eq_self [DecidableEq κ] :
    upsert key r f t = t ↔ (∃ s ∈ t, key s = key r) ∧ ∀ s ∈ t, key s = key r → f s = s := by
  unfold upsert
  split
  · rename_i h
    rw [update_eq_self]
    simp [h]
  · rename_i h
    simp [h]

/-! ## Looking rows up -/

section

variable [DecidableEq κ] {k : κ}

theorem find_update (hf : ∀ r, key (f r) = key r) :
    (update p f t).find? (key · = k) = (t.find? (key · = k)).map fun r => if p r then f r else r := by
  unfold update
  rw [List.find?_map]
  refine congrArg (Option.map _) (congrArg (List.find? · t) (funext fun r => ?_))
  dsimp only [Function.comp]
  split
  · rw [hf]
  · rfl

theorem find_eq_none_of_new (hnew : ¬ ∃ s ∈ t, key s = k) : t.find? (key · = k) = none := by
  rw [List.find?_eq_none]
  simpa using hnew

theorem find_append_new (hnew : ¬ ∃ s ∈ t, key s = key r) :
    (t ++ [r]).find? (key · = k) = if k = key r then some ((t.find? (key · = k)).getD r) else t.find? (key · = k) := by
  rw [List.find?_append]
  by_cases hk : k = key r
  · subst hk
    simp [find_eq_none_of_new hnew]
  · simp [hk, Ne.symm hk]

theorem find_insertOrIgnore :
    (insertOrIgnore key r t).find? (key · = k) =
      if k = key r then some ((t.find? (key · = k)).getD r) else t.find? (key · = k) := by
  unfold insertOrIgnore
  split
  · rename_i hold
    split
    · rename_i hk
      have hsome : (t.find? (key · = k)).isSome := List.find?_isSome.mpr (by simpa [hk] using hold)
      obtain ⟨s, hs⟩ := Option.isSome_iff_exists.mp hsome
      rw [hs, Option.getD_some]
    · rfl
  · rename_i hnew
    exact find_append_new hnew

theorem find_upsert (hf : ∀ r, key (f r) = key r) :
    (upsert key r f t).find? (key · = k) =
      if k = key r then some ((t.find? (key · = k)).elim r f) else t.find? (key · = k) := by
  unfold upsert
  split
  · rename_i hold
    rw [find_update hf]
    cases hs : t.find? (key · = k) with
    | none =>
      have : k ≠ key r := by
        rintro rfl
        obtain ⟨s, hs', hk⟩ := hold
        simpa [hk] using List.find?_eq_none.mp hs s hs'
      simp [this]
    | some s =>
      have hk : key s = k := by simpa using List.find?_some hs
      subst hk
      simp only [Option.map_some, decide_eq_true_eq, Option.elim_some]
      split <;> rfl
  · rename_i hnew
    rw [find_append_new hnew]
    split
    · rename_i hk
      subst hk
      rw [find_eq_none_of_new hnew]
      rfl
    · rfl

theorem find_of_nodup (h : (t.map key).Nodup) (hr : r ∈ t) : t.find? (key · = key r) = some r := by
  cases hs : t.find? (key · = key r) with
  | none => simpa using List.find?_eq_none.mp hs r hr
  | some s =>
    have hk : key s = key r := by simpa using List.find?_some hs
    rw [List.inj_on_of_nodup_map h (List.mem_of_find?_eq_some hs) hr hk]

omit [DecidableEq κ] in
theorem nodup_update (hf : ∀ r, key (f r) = key r) (h : (t.map key).Nodup) : ((update p f t).map key).Nodup := by
  have hkeys : (update p f t).map key = t.map key := by
    unfold update
    rw [List.map_map]
    refine List.map_congr_left fun r _ => ?_
    dsimp only [Function.comp]
    split
    · rw [hf]
    · rfl
  rwa [hkeys]

theorem nodup_insertOrIgnore (h : (t.map key).Nodup) : ((insertOrIgnore key r t).map key).Nodup := by
  unfold insertOrIgnore
  split
  · exact h
  · rename_i hnew
    rw [List.map_append, List.map_singleton]
    refine List.nodup_append.mpr ⟨h, List.nodup_singleton _, fun a ha b hb hab => hnew ?_⟩
    obtain ⟨s, hs, rfl⟩ := List.mem_map.mp ha
    exact ⟨s, hs, hab.trans (List.mem_singleton.mp hb)⟩

theorem nodup_upsert (hf : ∀ r, key (f r) = key r) (h : (t.map key).Nodup) : ((upsert key r f t).map key).Nodup := by
  have hins := nodup_insertOrIgnore (r := r) h
  unfold upsert
  unfold insertOrIgnore at hins
  split
  · exact nodup_update hf h
  · rename_i hnew
    rwa [if_neg hnew] at hins

end

end Lib.Table
