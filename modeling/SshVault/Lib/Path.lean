import Mathlib

/-!
# Paths

Unix paths, read one component at a time.
-/

namespace Lib

/-! ## Components -/

inductive Component where
  | rootDir
  | curDir
  | parentDir
  | normal (name : String)
  deriving DecidableEq

/-- What stands between two slashes. Nothing, or one dot, is no component. -/
def component : List Char → Option Component
  | [] => none
  | ['.'] => none
  | ['.', '.'] => some .parentDir
  | cs => some (.normal (String.ofList cs))

/-- One dot is a component only at the start of a relative path. -/
def components (path : String) : List Component :=
  let parts := path.toList.splitOn '/'
  let names := parts.filterMap component
  if path.toList.head? = some '/' then .rootDir :: names
  else if parts.head? = some ['.'] then .curDir :: names
  else names

/-- The last component, if it is a name. -/
def fileName (path : String) : Option String :=
  match (components path).getLast? with
  | some (.normal name) => some name
  | _ => none

/-- A path below another one, or an absolute path instead of it. -/
def join (path path' : String) : String :=
  if path'.toList.head? = some '/' then path'
  else if path = "" ∨ path.toList.getLast? = some '/' then path ++ path'
  else path ++ "/" ++ path'

theorem not_mem_of_mem_splitOn {α : Type} [DecidableEq α] {c : α} {l part : List α} (h : part ∈ l.splitOn c) : c ∉ part := by
  induction l generalizing part with
  | nil =>
    rw [List.splitOn_nil, List.mem_singleton] at h
    rw [h]
    exact List.not_mem_nil
  | cons x l ih =>
    rw [List.splitOn_cons_eq_if_modifyHead] at h
    split at h
    · rcases List.mem_cons.mp h with rfl | h
      · exact List.not_mem_nil
      · exact ih h
    · rename_i hx
      obtain ⟨p, ps, hp⟩ := List.exists_cons_of_ne_nil (List.splitOn_ne_nil c l)
      rw [hp, List.modifyHead_cons] at h
      rcases List.mem_cons.mp h with rfl | h
      · have hne : c ≠ x := fun heq => hx (by simp [heq])
        simpa [hne] using ih (hp ▸ List.mem_cons_self)
      · exact ih (hp ▸ List.mem_cons_of_mem p h)

/-! ## Names -/

/-- A string that is one name in a path. -/
structure PlainName (name : String) : Prop where
  nonempty : name ≠ ""
  slash : '/' ∉ name.toList
  dot : name ≠ "."
  dots : name ≠ ".."

theorem component_eq_normal_iff {cs : List Char} {name : String} :
    component cs = some (.normal name) ↔ cs = name.toList ∧ name ≠ "" ∧ name ≠ "." ∧ name ≠ ".." := by
  constructor
  · intro h
    unfold component at h
    split at h
    · cases h
    · cases h
    · cases h
    · rename_i h0 h1 h2
      obtain rfl := Component.normal.inj (Option.some.inj h)
      rw [String.toList_ofList]
      refine ⟨rfl, fun he => h0 ?_, fun he => h1 ?_, fun he => h2 ?_⟩
      · rw [← String.toList_ofList (l := cs), he]
        rfl
      · rw [← String.toList_ofList (l := cs), he]
        rfl
      · rw [← String.toList_ofList (l := cs), he]
        rfl
  · rintro ⟨rfl, h0, h1, h2⟩
    unfold component
    split
    · rename_i h
      exact absurd (String.toList_injective h) h0
    · rename_i h
      exact absurd (String.toList_injective h) h1
    · rename_i h
      exact absurd (String.toList_injective h) h2
    · rw [String.ofList_toList]

theorem PlainName.component {name : String} (h : PlainName name) : component name.toList = some (.normal name) :=
  component_eq_normal_iff.mpr ⟨rfl, h.nonempty, h.dot, h.dots⟩

theorem PlainName.not_absolute {name : String} (h : PlainName name) : name.toList.head? ≠ some '/' := fun hhead =>
  h.slash (List.mem_of_head? hhead)

theorem PlainName.parts {name : String} (h : PlainName name) : name.toList.splitOn '/' = [name.toList] :=
  List.splitOn_eq_singleton h.slash

theorem PlainName.components {name : String} (h : PlainName name) : components name = [.normal name] := by
  unfold Lib.components
  dsimp only
  rw [if_neg h.not_absolute, h.parts, List.filterMap_cons_some h.component, List.filterMap_nil]
  rw [if_neg]
  intro hdot
  exact h.dot (String.toList_injective (Option.some.inj hdot))

theorem fileName_eq_self_iff {name : String} : fileName name = some name ↔ PlainName name := by
  constructor
  · intro h
    unfold fileName at h
    split at h
    · rename_i name' hlast
      obtain rfl := Option.some.inj h
      -- The last component stands between two slashes.
      have hmem : Component.normal name' ∈ (name'.toList.splitOn '/').filterMap component := by
        have hin := List.mem_of_getLast? hlast
        unfold components at hin
        dsimp only at hin
        split at hin
        · simpa using hin
        · split at hin
          · simpa using hin
          · exact hin
      obtain ⟨cs, hcs, hname⟩ := List.mem_filterMap.mp hmem
      obtain ⟨rfl, h0, h1, h2⟩ := component_eq_normal_iff.mp hname
      exact ⟨h0, not_mem_of_mem_splitOn hcs, h1, h2⟩
    · cases h
  · intro h
    unfold fileName
    rw [h.components]
    rfl

/-! ## Joined paths -/

theorem components_append {path path' name : String}
    (hroot : path'.toList.head? = some '/' ↔ path.toList.head? = some '/')
    (hfirst : (path'.toList.splitOn '/').head? = (path.toList.splitOn '/').head?)
    (hnames : (path'.toList.splitOn '/').filterMap component =
      (path.toList.splitOn '/').filterMap component ++ [.normal name]) :
    components path' = components path ++ [.normal name] := by
  unfold components
  dsimp only
  rw [hnames, hfirst]
  simp only [hroot]
  by_cases habs : path.toList.head? = some '/'
  · rw [if_pos habs, if_pos habs]
    rfl
  · rw [if_neg habs, if_neg habs]
    by_cases hdot : (path.toList.splitOn '/').head? = some ['.']
    · rw [if_pos hdot, if_pos hdot]
      rfl
    · rw [if_neg hdot, if_neg hdot]

theorem head?_splitOn_append (l l' : List Char) : ((l ++ '/' :: l').splitOn '/').head? = (l.splitOn '/').head? := by
  rw [List.splitOn_append_cons_self, List.head?_append_of_ne_nil _ (List.splitOn_ne_nil '/' l)]

theorem components_join {path name : String} (h : PlainName name) :
    components (join path name) = components path ++ [.normal name] := by
  unfold join
  rw [if_neg h.not_absolute]
  by_cases hempty : path = ""
  · rw [if_pos (Or.inl hempty), hempty, String.empty_append, h.components]
    rfl
  have hne : path.toList ≠ [] := fun hnil => hempty (String.toList_injective hnil)
  by_cases hslash : path.toList.getLast? = some '/'
  · rw [if_pos (Or.inr hslash)]
    -- The path ends in the slash, so the piece after it is empty.
    obtain ⟨front, hfront⟩ := List.getLast?_eq_some_iff.mp hslash
    have hjoined : (path ++ name).toList = front ++ '/' :: name.toList := by
      rw [String.toList_append, hfront, List.append_assoc, List.singleton_append]
    apply components_append
    · rw [String.toList_append, List.head?_append_of_ne_nil _ hne]
    · rw [hjoined, hfront, head?_splitOn_append, head?_splitOn_append]
    · rw [hjoined, hfront, List.splitOn_append_cons_self, List.splitOn_append_cons_self, h.parts, List.splitOn_nil,
        List.filterMap_append, List.filterMap_append, List.filterMap_cons_some h.component, List.append_assoc]
      rfl
  · rw [if_neg (not_or.mpr ⟨hempty, hslash⟩)]
    have hjoined : (path ++ "/" ++ name).toList = path.toList ++ '/' :: name.toList := by
      rw [String.toList_append, String.toList_append, List.append_assoc]
      rfl
    apply components_append
    · rw [hjoined, List.head?_append_of_ne_nil _ hne]
    · rw [hjoined, head?_splitOn_append]
    · rw [hjoined, List.splitOn_append_cons_self, h.parts, List.filterMap_append,
        List.filterMap_cons_some h.component, List.filterMap_nil]

/-- `path'` is something directly below `path`. -/
def Child (path path' : String) : Prop := ∃ name, components path' = components path ++ [.normal name]

theorem child_join {path name : String} (h : PlainName name) : Child path (join path name) := ⟨name, components_join h⟩

theorem components_join_inj {path name name' : String} (h : PlainName name) (h' : PlainName name') :
    components (join path name) = components (join path name') ↔ name = name' := by
  rw [components_join h, components_join h', List.append_cancel_left_eq]
  constructor
  · intro heq
    exact Component.normal.inj (List.cons.inj heq).1
  · rintro rfl
    rfl

theorem fileName_join {path name : String} (h : PlainName name) : fileName (join path name) = some name := by
  unfold fileName
  rw [components_join h, List.getLast?_append, List.getLast?_singleton]
  rfl

end Lib
