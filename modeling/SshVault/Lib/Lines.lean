import Mathlib

/-!
# Lines

A text of lines, each ended by a newline, and what is read back from it.
-/

namespace Lib

def unlines (ls : List String) : String := String.join (ls.map (· ++ "\n"))

/-- The parts of a text between newlines. -/
def lines (s : String) : List String := (s.toList.splitOn '\n').map String.ofList

theorem unlines_nil : unlines [] = "" := rfl

theorem toList_unlines (ls : List String) : (unlines ls).toList = ls.flatMap fun l => l.toList ++ ['\n'] := by
  unfold unlines
  rw [String.toList_join, List.flatMap_map]
  refine List.flatMap_congr fun l _ => ?_
  rw [String.toList_append]
  rfl

theorem unlines_append (ls ls' : List String) : unlines (ls ++ ls') = unlines ls ++ unlines ls' := by
  apply String.toList_injective
  rw [String.toList_append, toList_unlines, toList_unlines, toList_unlines, List.flatMap_append]

theorem unlines_cons (l : String) (ls : List String) : unlines (l :: ls) = l ++ "\n" ++ unlines ls := by
  apply String.toList_injective
  rw [String.toList_append, String.toList_append, toList_unlines, toList_unlines, List.flatMap_cons]
  rfl

theorem splitOn_unlines (ls : List String) :
    (unlines ls).toList.splitOn '\n' = (ls.flatMap fun l => l.toList.splitOn '\n') ++ [[]] := by
  rw [toList_unlines]
  induction ls with
  | nil => rfl
  | cons l ls ih =>
    rw [List.flatMap_cons, List.append_assoc, List.singleton_append, List.splitOn_append_cons_self, ih,
      List.flatMap_cons, List.append_assoc]

theorem splitOn_eq_singleton_iff {l : List Char} {c : Char} : l.splitOn c = [l] ↔ c ∉ l := by
  constructor
  · intro h hc
    obtain ⟨a, b, rfl⟩ := List.append_of_mem hc
    rw [List.splitOn_append_cons_self] at h
    have hlen := congrArg List.length h
    rw [List.length_append, List.length_singleton] at hlen
    have ha := List.length_pos_of_ne_nil (List.splitOn_ne_nil c a)
    have hb := List.length_pos_of_ne_nil (List.splitOn_ne_nil c b)
    omega
  · exact List.splitOn_eq_singleton

/-- **Lines read back.** A text has the lines it was made of exactly when none of them has a newline
inside. -/
theorem lines_unlines_iff {ls : List String} : lines (unlines ls) = ls ++ [""] ↔ ∀ l ∈ ls, '\n' ∉ l.toList := by
  have hchars : lines (unlines ls) = ls ++ [""] ↔
      (ls.flatMap fun l => l.toList.splitOn '\n') = ls.map String.toList := by
    unfold lines
    rw [splitOn_unlines, List.map_append]
    change _ ++ [""] = ls ++ [""] ↔ _
    rw [List.append_left_inj]
    constructor
    · intro h
      have := congrArg (List.map String.toList) h
      rwa [List.map_map, show String.toList ∘ String.ofList = id from funext fun _ => String.toList_ofList,
        List.map_id] at this
    · intro h
      rw [h, List.map_map, show String.ofList ∘ String.toList = id from funext fun _ => String.ofList_toList,
        List.map_id]
  rw [hchars]
  clear hchars
  constructor
  · induction ls with
    | nil => simp
    | cons l ls ih =>
      intro h
      rw [List.flatMap_cons, List.map_cons] at h
      -- The first piece of the first line is the whole line, so it is its only piece.
      obtain ⟨p, ps, hp⟩ := List.exists_cons_of_ne_nil (List.splitOn_ne_nil '\n' l.toList)
      rw [hp, List.cons_append] at h
      obtain ⟨rfl, hrest⟩ := List.cons.inj h
      have hps : ps = [] := by
        by_contra hne
        have hjoin : ['\n'].intercalate (l.toList.splitOn '\n') = l.toList := List.intercalate_splitOn '\n'
        rw [hp, List.intercalate_cons_of_ne_nil hne] at hjoin
        have hlen := congrArg List.length hjoin
        rw [List.length_append, List.length_append, List.length_singleton] at hlen
        omega
      subst hps
      rw [List.nil_append] at hrest
      exact List.forall_mem_cons.mpr ⟨splitOn_eq_singleton_iff.mp hp, ih hrest⟩
  · induction ls with
    | nil => simp
    | cons l ls ih =>
      intro h
      obtain ⟨hl, hls⟩ := List.forall_mem_cons.mp h
      rw [List.flatMap_cons, List.map_cons, ih hls, splitOn_eq_singleton_iff.mpr hl, List.singleton_append]

end Lib
