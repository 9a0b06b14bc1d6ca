import SshVault.SshConfig

/-!
# The include line in the user's config (`src/sshconfig.rs`, `ensure_include`)

The line is looked for in the text that the bytes decode to, and is put in front of the bytes themselves.
-/

open Lib

namespace SshVault

namespace SshConfig

/-! ## Text of bytes -/

/-- `0x80..=0xBF`. -/
def continuation (b : UInt8) : Bool := 0x80 ≤ b ∧ b ≤ 0xBF

/-- Whether `c` may stand behind the first byte `b` of a character of more than one byte. -/
def follows (b c : UInt8) : Bool :=
  if b = 0xE0 then 0xA0 ≤ c ∧ c ≤ 0xBF
  else if b = 0xED then 0x80 ≤ c ∧ c ≤ 0x9F
  else if b = 0xF0 then 0x90 ≤ c ∧ c ≤ 0xBF
  else if b = 0xF4 then 0x80 ≤ c ∧ c ≤ 0x8F
  else (0xC2 ≤ b ∧ b ≤ 0xF3) && continuation c

/-- How many bytes of a character that is broken off are replaced together. -/
def brokenLength : List UInt8 → Nat
  | b :: c :: d :: _ => if follows b c then if 0xF0 ≤ b ∧ continuation d then 3 else 2 else 1
  | [b, c] => if follows b c then 2 else 1
  | _ => 1

theorem brokenLength_pos (bytes : List UInt8) : 0 < brokenLength bytes := by
  unfold brokenLength
  split
  · split
    · split <;> decide
    · decide
  · split <;> decide
  · decide

/-- `String::from_utf8_lossy`. -/
def fromUtf8Lossy (bytes : List UInt8) : List Char :=
  if _ : bytes = [] then []
  else match bytes.toByteArray.utf8DecodeChar? 0 with
    | some c => c :: fromUtf8Lossy (bytes.drop c.utf8Size)
    | none => '\uFFFD' :: fromUtf8Lossy (bytes.drop (brokenLength bytes))
termination_by bytes.length
decreasing_by
  · have hlen := List.length_pos_of_ne_nil ‹bytes ≠ []›
    have hsize := c.utf8Size_pos
    rw [List.length_drop]
    omega
  · have hlen := List.length_pos_of_ne_nil ‹bytes ≠ []›
    have hsize := brokenLength_pos bytes
    rw [List.length_drop]
    omega

def utf8 (s : String) : List UInt8 := s.toList.flatMap String.utf8EncodeChar

/-- `str::lines`: a carriage return in front of a newline goes with it, and there is no line behind the last newline. -/
def textLines (text : List Char) : List (List Char) :=
  let parts := text.splitOn '\n'
  (parts.dropLast.map fun l => if l.getLast? = some '\r' then l.dropLast else l) ++
    (parts.getLast?.filter (· ≠ [])).toList

/-- `str::trim`. -/
def trim (l : List Char) : List Char := (l.dropWhile isWhitespace).rdropWhile isWhitespace

/-! ## Finding and adding the line -/

def managedFile : String := "sshvault.conf"

/-- An include line that mentions our file. -/
def mentions (line : List Char) : Bool :=
  "include".toList.isPrefixOf ((trim line).map Char.toLower) && decide (managedFile.toList <:+: trim line)

def included (existing : List UInt8) : Bool := (textLines (fromUtf8Lossy existing)).any mentions

inductive IoError where
  | read (n : Nat)
  | write (n : Nat)
  deriving DecidableEq

/-- Which accesses fail. A file that is not there does not count. -/
structure Faults where
  read : Option IoError
  write : Option IoError

def includeLine (target : String) : List UInt8 := utf8 ("Include " ++ target ++ "\n\n")

/-- The answer, and `<ssh_dir>/config` afterwards. The file is replaced as a whole, or stays. -/
def ensureInclude (faults : Faults) (config : Option (List UInt8)) (target : String) :
    Except IoError Bool × Option (List UInt8) :=
  match faults.read with
  | some e => (.error e, config)
  | none =>
    let existing := config.getD []
    if included existing then (.ok false, config)
    else match faults.write with
      | some e => (.error e, config)
      | none => (.ok true, some (includeLine target ++ existing))

/-- The config after calls one after the other. -/
def ensureIncludes (calls : List (Faults × String)) (config : Option (List UInt8)) : Option (List UInt8) :=
  calls.foldl (fun config call => (ensureInclude call.1 config call.2).2) config

/-! ## The line is found -/

theorem fromUtf8Lossy_encode (cs : List Char) (rest : List UInt8) :
    fromUtf8Lossy (cs.flatMap String.utf8EncodeChar ++ rest) = cs ++ fromUtf8Lossy rest := by
  induction cs with
  | nil => rfl
  | cons c cs ih =>
    have hne : String.utf8EncodeChar c ++ (cs.flatMap String.utf8EncodeChar ++ rest) ≠ [] := by
      intro h
      have hlen := congrArg List.length (List.append_eq_nil_iff.mp h).1
      rw [String.length_utf8EncodeChar] at hlen
      exact absurd hlen c.utf8Size_pos.ne'
    rw [List.flatMap_cons, List.append_assoc]
    conv_lhs => unfold fromUtf8Lossy
    rw [dif_neg hne, List.toByteArray_append, ByteArray.utf8DecodeChar?_utf8EncodeChar_append]
    dsimp only
    rw [List.drop_left' (String.length_utf8EncodeChar c), ih]
    rfl

theorem textLines_cons {l rest : List Char} (hl : '\n' ∉ l) (hlast : l.getLast? ≠ some '\r') :
    l ∈ textLines (l ++ '\n' :: rest) := by
  unfold textLines
  dsimp only
  rw [List.splitOn_append_cons_self, splitOn_eq_singleton_iff.mpr hl, List.singleton_append]
  refine List.mem_append_left _ (List.mem_map.mpr ⟨l, ?_, if_neg hlast⟩)
  rw [List.dropLast_cons_of_ne_nil (List.splitOn_ne_nil _ _)]
  exact List.mem_cons_self

/-- A target that ends in the name of the managed file, on one line. -/
structure Target (target : String) : Prop where
  ends : managedFile.toList <:+ target.toList
  newline : '\n' ∉ target.toList
  carriage : '\r' ∉ target.toList

theorem Target.line {target : String} (h : Target target) :
    ∃ l : List Char, "Include ".toList ++ target.toList = l ++ ['f'] ∧ '\n' ∉ l ++ ['f'] ∧ mentions (l ++ ['f']) = true := by
  obtain ⟨before, hbefore⟩ := h.ends
  have hmanaged : managedFile.toList = "sshvault.con".toList ++ ['f'] := by decide
  refine ⟨"Include ".toList ++ (before ++ "sshvault.con".toList), ?_, ?_, ?_⟩
  · rw [← hbefore, hmanaged]
    simp only [List.append_assoc]
  · have hall : "Include ".toList ++ (before ++ "sshvault.con".toList) ++ ['f'] = "Include ".toList ++ target.toList := by
      rw [← hbefore, hmanaged]
      simp only [List.append_assoc]
    rw [hall, List.mem_append, not_or]
    exact ⟨by decide, h.newline⟩
  · have htrim : trim ("Include ".toList ++ (before ++ "sshvault.con".toList) ++ ['f']) =
        "Include ".toList ++ (before ++ "sshvault.con".toList) ++ ['f'] := by
      have hhead : "Include ".toList = 'I' :: "nclude ".toList := by decide
      unfold trim
      rw [hhead, List.cons_append, List.cons_append, List.dropWhile_cons_of_neg (by decide), ← List.cons_append,
        List.rdropWhile_concat_neg _ _ _ (by decide)]
    unfold mentions
    rw [htrim, Bool.and_eq_true]
    constructor
    · rw [List.append_assoc, List.map_append, List.isPrefixOf_iff_prefix]
      have hlower : "Include ".toList.map Char.toLower = "include".toList ++ [' '] := by decide
      rw [hlower, List.append_assoc]
      exact List.prefix_append _ _
    · rw [decide_eq_true_eq, List.append_assoc, List.append_assoc, ← hmanaged]
      exact (List.suffix_append _ _).isInfix.trans (List.suffix_append _ _).isInfix

theorem included_includeLine {target : String} (h : Target target) (existing : List UInt8) :
    included (includeLine target ++ existing) = true := by
  obtain ⟨l, hl, hnewline, hmentions⟩ := h.line
  have htext : fromUtf8Lossy (includeLine target ++ existing) = (l ++ ['f']) ++ '\n' :: '\n' :: fromUtf8Lossy existing := by
    have hchars : ("Include " ++ target ++ "\n\n").toList = (l ++ ['f']) ++ ['\n', '\n'] := by
      rw [String.toList_append, String.toList_append, hl]
      rfl
    unfold includeLine utf8
    rw [fromUtf8Lossy_encode, hchars, List.append_assoc]
    rfl
  unfold included
  rw [htext, List.any_eq_true]
  exact ⟨l ++ ['f'], textLines_cons hnewline (by simp), hmentions⟩

theorem ensureInclude_file (faults : Faults) (config : Option (List UInt8)) (target : String) :
    (ensureInclude faults config target).2 = config ∨
      (ensureInclude faults config target).2 = some (includeLine target ++ config.getD []) := by
  unfold ensureInclude
  split
  · exact Or.inl rfl
  dsimp only
  split
  · exact Or.inl rfl
  split
  · exact Or.inl rfl
  · exact Or.inr rfl

theorem ensureInclude_of_included {faults : Faults} {config : Option (List UInt8)} {target : String}
    (h : included (config.getD []) = true) :
    (faults.read = none → (ensureInclude faults config target).1 = .ok false) ∧ (ensureInclude faults config target).2 = config := by
  unfold ensureInclude
  cases faults.read with
  | some e => exact ⟨nofun, rfl⟩
  | none =>
    dsimp only
    rw [if_pos h]
    exact ⟨fun _ => rfl, rfl⟩

theorem included_of_ok {faults : Faults} {config : Option (List UInt8)} {target : String} (ht : Target target) {added : Bool}
    (h : (ensureInclude faults config target).1 = .ok added) :
    included ((ensureInclude faults config target).2.getD []) = true := by
  unfold ensureInclude at h ⊢
  split at h
  · cases h
  dsimp only at h ⊢
  split at h
  · rename_i hincluded
    rw [if_pos hincluded]
    exact hincluded
  · rename_i hnot
    rw [if_neg hnot]
    split at h
    · cases h
    · exact included_includeLine ht _

theorem ensureIncludes_of_included {calls : List (Faults × String)} {config : Option (List UInt8)}
    (h : included (config.getD []) = true) : ensureIncludes calls config = config := by
  induction calls with
  | nil => rfl
  | cons call calls ih =>
    unfold ensureIncludes at ih ⊢
    rw [List.foldl_cons, (ensureInclude_of_included h).2]
    exact ih

/-- **One include line.** A call leaves the config or puts the line in front of its bytes, and after a call that
returned no later call changes it. -/
theorem include_once (faults : Faults) (config : Option (List UInt8)) {target : String} (ht : Target target) :
    ((ensureInclude faults config target).2 = config ∨
      (ensureInclude faults config target).2 = some (includeLine target ++ config.getD [])) ∧
      ∀ added, (ensureInclude faults config target).1 = .ok added →
        ∀ (calls : List (Faults × String)) (later : Faults) (target' : String),
          let file := ensureIncludes calls (ensureInclude faults config target).2
          file = (ensureInclude faults config target).2 ∧ (ensureInclude later file target').2 = file ∧
            (later.read = none → (ensureInclude later file target').1 = .ok false) := by
  refine ⟨ensureInclude_file faults config target, fun added hok calls later target' => ?_⟩
  have hincluded := included_of_ok ht hok
  have hfile := @ensureIncludes_of_included calls _ hincluded
  dsimp only
  rw [hfile]
  obtain ⟨hanswer, hsame⟩ := @ensureInclude_of_included later _ target' hincluded
  exact ⟨rfl, hsame, hanswer⟩

/-- A config that is not UTF-8. -/
theorem include_once_latin1 :
    let file := (ensureInclude ⟨none, none⟩ (some [0xFF, 0x0A]) "~/.ssh/sshvault.conf").2
    ensureIncludes [] file = file ∧ (ensureInclude ⟨none, none⟩ (ensureIncludes [] file) "~/.ssh/sshvault.conf").2 = ensureIncludes [] file := by
  have htext : fromUtf8Lossy [0xFF, 0x0A] = ['\uFFFD', '\n'] := by
    have hbroken : ([0xFF, 0x0A] : List UInt8).toByteArray.utf8DecodeChar? 0 = none := by decide
    have hnewline : ([0x0A] : List UInt8).toByteArray.utf8DecodeChar? 0 = some '\n' := by decide
    unfold fromUtf8Lossy
    rw [dif_neg (by decide), hbroken]
    dsimp only
    have hdrop : List.drop (brokenLength [0xFF, 0x0A]) [0xFF, 0x0A] = ([0x0A] : List UInt8) := by decide
    rw [hdrop]
    unfold fromUtf8Lossy
    rw [dif_neg (by decide), hnewline]
    dsimp only
    unfold fromUtf8Lossy
    rw [dif_pos (by decide)]
  have hnone : included [0xFF, 0x0A] = false := by
    unfold included
    rw [htext]
    decide
  have hok : (ensureInclude ⟨none, none⟩ (some [0xFF, 0x0A]) "~/.ssh/sshvault.conf").1 = .ok true := by
    unfold ensureInclude
    dsimp only
    rw [if_neg (by rw [Option.getD_some, hnone]; exact Bool.false_ne_true)]
  have honce := (@include_once ⟨none, none⟩ (some [0xFF, 0x0A]) "~/.ssh/sshvault.conf"
    ⟨by decide, by decide, by decide⟩).2 true hok [] ⟨none, none⟩ "~/.ssh/sshvault.conf"
  exact ⟨honce.1, honce.2.1⟩

end SshConfig

end SshVault
