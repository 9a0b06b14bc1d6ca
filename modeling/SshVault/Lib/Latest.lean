import Mathlib

/-!
# Last writer wins

`later` keeps the value with the greater key and `latest` folds it over a list. When one
key never names two values, the fold depends only on which values the list holds.
-/

namespace Lib

variable {α κ : Type}

/-- One key never names two values. -/
def Coherent (key : α → κ) (S : Set α) : Prop := ∀ x ∈ S, ∀ y ∈ S, key x = key y → x = y

theorem Coherent.mono {key : α → κ} {S T : Set α} (h : Coherent key T) (hST : S ⊆ T) :
    Coherent key S := fun x hx y hy => h x (hST hx) y (hST hy)

variable [LinearOrder κ]

/-- The value with the greater key. The left one stays on a tie. -/
def later (key : α → κ) : Option α → Option α → Option α
  | some a, some b => if key b ≤ key a then some a else some b
  | some a, none => some a
  | none, b => b

def latest (key : α → κ) (l : List (Option α)) : Option α := l.foldl (later key) none

variable {key : α → κ} {a b : Option α} {x y : α}

@[simp] theorem later_none_left : later key none b = b := rfl

@[simp] theorem later_none_right : later key a none = a := by cases a <;> rfl

theorem later_eq_some (h : later key a b = some x) :
    (a = some x ∨ b = some x) ∧ (∀ y, a = some y → key y ≤ key x) ∧ ∀ y, b = some y → key y ≤ key x := by
  rcases a with _ | a <;> rcases b with _ | b
  · simp at h
  · obtain rfl : b = x := by simpa using h
    simp
  · obtain rfl : a = x := by simpa using h
    simp
  · simp only [later] at h
    split at h <;> rename_i hle <;> obtain rfl := Option.some.inj h
    · simpa using hle
    · simpa using (not_le.mp hle).le

theorem later_eq_none : later key a b = none ↔ a = none ∧ b = none := by
  rcases a with _ | a <;> rcases b with _ | b <;> simp [later]
  split <;> simp

theorem later_of_lt (h : ∀ y, a = some y → key y < key x) : later key a (some x) = some x := by
  rcases a with _ | y
  · rfl
  · simp [later, h y rfl]

/-! ## Folding a list -/

theorem latest_append (l : List (Option α)) : latest key (l ++ [b]) = later key (latest key l) b := by
  simp [latest, List.foldl_append]

theorem latest_eq_none {l : List (Option α)} : latest key l = none ↔ ∀ y, some y ∉ l := by
  induction l using List.reverseRecOn with
  | nil => simp [latest]
  | append_singleton l b ih =>
    rw [latest_append, later_eq_none, ih]
    simp only [List.mem_append, List.mem_singleton, not_or, forall_and, Option.eq_none_iff_forall_ne_some]
    exact and_congr_right' (forall_congr' fun y => ne_comm)

theorem latest_eq_some {l : List (Option α)} (h : latest key l = some x) :
    some x ∈ l ∧ ∀ y, some y ∈ l → key y ≤ key x := by
  induction l using List.reverseRecOn generalizing x with
  | nil => simp [latest] at h
  | append_singleton l b ih =>
    rw [latest_append] at h
    obtain ⟨hmem, hleft, hright⟩ := later_eq_some h
    constructor
    · rcases hmem with hx | rfl
      · exact List.mem_append_left _ (ih hx).1
      · simp
    · intro y hy
      rw [List.mem_append, List.mem_singleton] at hy
      rcases hy with hy | rfl
      · cases hl : latest key l with
        | none => exact absurd hy (latest_eq_none.mp hl y)
        | some z => exact le_trans ((ih hl).2 y hy) (hleft z hl)
      · exact hright y rfl

/-- **Order and repetition do not matter.** -/
theorem latest_congr {l l' : List (Option α)} (hmem : ∀ x, some x ∈ l ↔ some x ∈ l')
    (hco : Coherent key {x | some x ∈ l}) : latest key l = latest key l' := by
  cases h : latest key l with
  | none =>
    rw [latest_eq_none] at h
    exact (latest_eq_none.mpr fun y hy => h y ((hmem y).mpr hy)).symm
  | some x =>
    obtain ⟨hx, hmax⟩ := latest_eq_some h
    cases h' : latest key l' with
    | none => exact absurd ((hmem x).mp hx) (latest_eq_none.mp h' x)
    | some y =>
      obtain ⟨hy, hmax'⟩ := latest_eq_some h'
      have hyl := (hmem y).mpr hy
      have heq : key x = key y := le_antisymm (hmax' x ((hmem x).mp hx)) (hmax y hyl)
      rw [hco x hx y hyl heq]

end Lib
