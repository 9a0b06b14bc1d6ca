import Mathlib

/-!
# Prefix codes

Words that do not begin each other, and what is read back from a row of them.
-/

namespace Lib

variable {α β : Type} {encode : α → List β} {valid : α → Prop}

/-- The words of valid values are not empty, and no two of them begin alike to the end of one. -/
structure PrefixCode (encode : α → List β) (valid : α → Prop) : Prop where
  ne_nil : ∀ a, valid a → encode a ≠ []
  unique : ∀ a b s t, valid a → valid b → encode a ++ s = encode b ++ t → a = b

namespace PrefixCode

/-- Two rows of words with something after them: one row begins the other. -/
theorem split (hc : PrefixCode encode valid) {l l' : List α} {s t : List β} (hl : ∀ a ∈ l, valid a)
    (hl' : ∀ a ∈ l', valid a) (h : l.flatMap encode ++ s = l'.flatMap encode ++ t) :
    (∃ m, l' = l ++ m ∧ s = m.flatMap encode ++ t) ∨ ∃ m, l = l' ++ m ∧ t = m.flatMap encode ++ s := by
  induction l generalizing l' with
  | nil => exact Or.inl ⟨l', rfl, h⟩
  | cons a l ih =>
    cases l' with
    | nil => exact Or.inr ⟨a :: l, rfl, h.symm⟩
    | cons b l' =>
      obtain ⟨ha, hl⟩ := List.forall_mem_cons.mp hl
      obtain ⟨hb, hrest⟩ := List.forall_mem_cons.mp hl'
      simp only [List.flatMap_cons, List.append_assoc] at h
      obtain rfl := hc.unique a b _ _ ha hb h
      rcases ih hl hrest (List.append_cancel_left h) with ⟨m, rfl, hs⟩ | ⟨m, rfl, ht⟩
      · exact Or.inl ⟨m, rfl, hs⟩
      · exact Or.inr ⟨m, rfl, ht⟩

theorem flatMap_eq_nil (hc : PrefixCode encode valid) {l : List α} (hl : ∀ a ∈ l, valid a)
    (h : l.flatMap encode = []) : l = [] := by
  cases l with
  | nil => rfl
  | cons a l =>
    rw [List.flatMap_cons, List.append_eq_nil_iff] at h
    exact absurd h.1 (hc.ne_nil a (hl a List.mem_cons_self))

/-- A row of words stands for one list of values. -/
theorem injective (hc : PrefixCode encode valid) {l l' : List α} (hl : ∀ a ∈ l, valid a) (hl' : ∀ a ∈ l', valid a)
    (h : l.flatMap encode = l'.flatMap encode) : l = l' := by
  have hsplit : l.flatMap encode ++ [] = l'.flatMap encode ++ [] := by rw [h]
  rcases hc.split hl hl' hsplit with ⟨m, rfl, hm⟩ | ⟨m, rfl, hm⟩
  · rw [List.append_nil] at hm
    rw [hc.flatMap_eq_nil (fun a ha => hl' a (List.mem_append_right _ ha)) hm.symm, List.append_nil]
  · rw [List.append_nil] at hm
    rw [hc.flatMap_eq_nil (fun a ha => hl a (List.mem_append_right _ ha)) hm.symm, List.append_nil]

/-- **A torn word.** Where a row of words and the beginning of one more is a row of words, nothing of the last one
is there, or all of it. -/
theorem torn (hc : PrefixCode encode valid) {l l' : List α} {a : α} {n : Nat} (hl : ∀ a ∈ l, valid a)
    (hl' : ∀ a ∈ l', valid a) (ha : valid a) (hn : n ≤ (encode a).length)
    (h : l.flatMap encode ++ (encode a).take n = l'.flatMap encode) :
    n = 0 ∧ l' = l ∨ n = (encode a).length ∧ l' = l ++ [a] := by
  have hsplit : l.flatMap encode ++ (encode a).take n = l'.flatMap encode ++ [] := by rw [h, List.append_nil]
  rcases hc.split hl hl' hsplit with ⟨m, rfl, hm⟩ | ⟨m, rfl, hm⟩
  · rw [List.append_nil] at hm
    cases m with
    | nil =>
      have hlen := congrArg List.length hm
      rw [List.length_take, min_eq_left hn] at hlen
      exact Or.inl ⟨hlen, List.append_nil l⟩
    | cons b m =>
      have hvalid : ∀ x ∈ b :: m, valid x := fun x hx => hl' x (List.mem_append_right _ hx)
      -- The first word of the rest is `a` itself.
      have hrow : encode a ++ [] = encode b ++ (m.flatMap encode ++ (encode a).drop n) := by
        rw [List.append_nil, ← List.append_assoc, ← List.flatMap_cons, ← hm, List.take_append_drop]
      obtain rfl := hc.unique a b _ _ ha (hvalid b List.mem_cons_self) hrow
      have hrest : m.flatMap encode ++ (encode a).drop n = [] := (List.append_cancel_left hrow).symm
      obtain ⟨hnone, hdrop⟩ := List.append_eq_nil_iff.mp hrest
      have hm : m = [] := hc.flatMap_eq_nil (fun x hx => hvalid x (List.mem_cons_of_mem _ hx)) hnone
      subst hm
      exact Or.inr ⟨le_antisymm hn (List.drop_eq_nil_iff.mp hdrop), rfl⟩
  · have hnil := List.append_eq_nil_iff.mp hm.symm
    have hm : m = [] := hc.flatMap_eq_nil (fun x hx => hl x (List.mem_append_right _ hx)) hnil.1
    have hlen := congrArg List.length hnil.2
    rw [List.length_take, min_eq_left hn] at hlen
    subst hm
    exact Or.inl ⟨hlen, (List.append_nil l').symm⟩

end PrefixCode

end Lib
