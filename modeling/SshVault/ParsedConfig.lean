import SshVault.Payloads

/-!
# The generated file read back

A reader of the ssh configuration language, as far as the generated file uses it. What it reads in a
rendered file are the hosts and forwards that were rendered.
-/

open Lib

namespace SshVault

namespace SshConfig

/-! ## A reader -/

def isBlank (c : Char) : Bool := c = ' ' || c = '\t'

/-- Where a scan of a line is: between two tokens, or inside one of which some is read. -/
inductive Scan where
  | between
  | word (read : List Char)
  | quoted (read : List Char)

/-- The tokens of a line from here on. A token in double quotes is taken verbatim. -/
def scan : Scan → List Char → List (List Char)
  | .between, [] => []
  | .word read, [] => [read]
  | .quoted read, [] => [read]
  | .between, c :: cs =>
    if isBlank c then scan .between cs else if c = '"' then scan (.quoted []) cs else scan (.word [c]) cs
  | .word read, c :: cs => if isBlank c then read :: scan .between cs else scan (.word (read ++ [c])) cs
  | .quoted read, c :: cs => if c = '"' then read :: scan .between cs else scan (.quoted (read ++ [c])) cs

def tokens (cs : List Char) : List String := (scan .between cs).map String.ofList

/-- A keyword and its arguments. -/
structure Directive where
  keyword : String
  args : List String
  deriving DecidableEq

/-- A blank line and a comment are no directive. -/
def parseLine (line : String) : Option Directive :=
  if line.toList.all isBlank ∨ line.toList.head? = some '#' then none
  else
    let cs := line.toList.dropWhile isBlank
    some ⟨String.ofList (cs.takeWhile fun c => !isBlank c), tokens (cs.dropWhile fun c => !isBlank c)⟩

structure ParsedForward where
  kind : ForwardKind
  listen : String
  destination : Option String
  deriving DecidableEq

structure ParsedHost where
  hostAlias : String
  hostname : Option String
  port : Option Nat
  user : Option String
  jumpHost : Option String
  identityFile : Option String
  forwards : List ParsedForward
  deriving DecidableEq

namespace ParsedHost

def named (hostAlias : String) : ParsedHost := ⟨hostAlias, none, none, none, none, none, []⟩

/-- A directive below a `Host` line. -/
def read (p : ParsedHost) (d : Directive) : ParsedHost :=
  match d.keyword, d.args with
  | "HostName", [v] => { p with hostname := some v }
  | "Port", [v] => { p with port := v.toNat? }
  | "User", [v] => { p with user := some v }
  | "ProxyJump", [v] => { p with jumpHost := some v }
  | "IdentityFile", [v] => { p with identityFile := some v }
  | "LocalForward", [l, d] => { p with forwards := p.forwards ++ [⟨.localFwd, l, some d⟩] }
  | "RemoteForward", [l, d] => { p with forwards := p.forwards ++ [⟨.remoteFwd, l, some d⟩] }
  | "DynamicForward", [l] => { p with forwards := p.forwards ++ [⟨.dynamicFwd, l, none⟩] }
  | _, _ => p

end ParsedHost

/-- The hosts of a file, the one being read first. -/
def readHosts : Option ParsedHost → List Directive → List ParsedHost
  | current, [] => current.toList
  | current, d :: ds =>
    if d.keyword = "Host" then current.toList ++ readHosts (d.args.head?.map .named) ds
    else readHosts (current.map (·.read d)) ds

def parse (text : String) : List ParsedHost := readHosts none ((lines text).filterMap parseLine)

/-! ## What is to be read -/

/-- The listen address and the destination joined by a colon. -/
def ParsedForward.joined (p : ParsedForward) : String :=
  match p.destination with
  | some d => p.listen ++ ":" ++ d
  | none => p.listen

structure ReadsForward (f : PortForward) (p : ParsedForward) : Prop where
  kind : p.kind = f.kind
  spec : p.joined = f.spec

/-- The host as it is, and under it the forwards for its alias, by name. -/
structure ReadsHost (forwards : List PortForward) (h : Host) (p : ParsedHost) : Prop where
  hostAlias : p.hostAlias = h.hostAlias
  hostname : p.hostname = h.hostname
  port : p.port = h.port
  user : p.user = h.user
  jumpHost : p.jumpHost = h.jumpHost
  identityFile : p.identityFile = h.identityFile
  forwards : List.Forall₂ ReadsForward
    ((forwards.filter (·.host = h.hostAlias)).insertionSort (·.name ≤ ·.name)) p.forwards

/-! ## Tokens -/

/-- Not empty and without blanks. -/
structure Word (cs : List Char) : Prop where
  nonempty : cs ≠ []
  noBlank : ∀ c ∈ cs, isBlank c = false

theorem Word.append {cs ds : List Char} (hc : Word cs) (hd : Word ds) : Word (cs ++ ds) :=
  ⟨by simp [hc.nonempty], List.forall_mem_append.mpr ⟨hc.noBlank, hd.noBlank⟩⟩

theorem scan_quoted {read cs rest : List Char} (h : '"' ∉ cs) :
    scan (.quoted read) (cs ++ '"' :: rest) = (read ++ cs) :: scan .between rest := by
  induction cs generalizing read with
  | nil => simp [scan]
  | cons c cs ih =>
    obtain ⟨hc, hcs⟩ := not_or.mp (mt List.mem_cons.mpr h)
    rw [List.cons_append, scan, if_neg (Ne.symm hc), ih hcs, List.append_assoc, List.singleton_append]

theorem scan_inWord {read cs : List Char} (h : ∀ c ∈ cs, isBlank c = false) :
    scan (.word read) cs = [read ++ cs] ∧
      ∀ rest, scan (.word read) (cs ++ ' ' :: rest) = (read ++ cs) :: scan .between rest := by
  induction cs generalizing read with
  | nil => simp [scan, isBlank]
  | cons c cs ih =>
    obtain ⟨hc, hcs⟩ := List.forall_mem_cons.mp h
    obtain ⟨hend, hrest⟩ := @ih (read ++ [c]) hcs
    refine ⟨?_, fun rest => ?_⟩
    · rw [scan, if_neg (by simp [hc]), hend, List.append_assoc, List.singleton_append]
    · rw [List.cons_append, scan, if_neg (by simp [hc]), hrest, List.append_assoc, List.singleton_append]

/-- A word that does not start a quotation is a token, whatever follows behind a blank. -/
theorem scan_word {cs : List Char} (h : Word cs) (hquote : '"' ∉ cs) :
    scan .between cs = [cs] ∧ ∀ rest, scan .between (cs ++ ' ' :: rest) = cs :: scan .between rest := by
  obtain ⟨c, cs, rfl⟩ := List.exists_cons_of_ne_nil h.nonempty
  obtain ⟨hc, hcs⟩ := List.forall_mem_cons.mp h.noBlank
  have hne : c ≠ '"' := fun heq => hquote (heq ▸ List.mem_cons_self)
  obtain ⟨hend, hrest⟩ := @scan_inWord [c] cs hcs
  refine ⟨?_, fun rest => ?_⟩
  · rw [scan, if_neg (by simp [hc]), if_neg hne, hend]
    rfl
  · rw [List.cons_append, scan, if_neg (by simp [hc]), if_neg hne, hrest]
    rfl

theorem tokens_blank (cs : List Char) : tokens (' ' :: cs) = tokens cs := by
  unfold tokens
  rw [scan, if_pos (by decide)]

theorem tokens_word {s : String} (h : Word s.toList) (hquote : '"' ∉ s.toList) : tokens s.toList = [s] := by
  unfold tokens
  rw [(scan_word h hquote).1, List.map_singleton, String.ofList_toList]

theorem tokens_two {s t : String} (hs : Word s.toList) (hsq : '"' ∉ s.toList) (ht : Word t.toList)
    (htq : '"' ∉ t.toList) : tokens (s ++ " " ++ t).toList = [s, t] := by
  have hlist : (s ++ " " ++ t).toList = s.toList ++ ' ' :: t.toList := by
    rw [String.toList_append, String.toList_append, List.append_assoc]
    rfl
  unfold tokens
  rw [hlist, (scan_word hs hsq).2, (scan_word ht htq).1, List.map_cons, List.map_singleton, String.ofList_toList,
    String.ofList_toList]

/-- **Quoting.** A quoted string is one token, and it is the string. -/
theorem tokens_quote {s : String} (h : '"' ∉ s.toList) : tokens (quote s).toList = [s] := by
  unfold quote
  split
  · have hlist : ("\"" ++ s ++ "\"").toList = '"' :: (s.toList ++ ['"']) := by
      rw [String.toList_append, String.toList_append]
      rfl
    unfold tokens
    rw [hlist, scan, if_neg (by decide), if_pos rfl, scan_quoted h, scan, List.nil_append, List.map_singleton,
      String.ofList_toList]
  · rename_i hplain
    refine tokens_word ⟨fun hempty => hplain (Or.inr (Or.inr hempty)), fun c hc => ?_⟩ h
    unfold isBlank
    simp only [Bool.or_eq_false_iff, decide_eq_false_iff_not]
    exact ⟨fun heq => hplain (Or.inl (heq ▸ hc)), fun heq => hplain (Or.inr (Or.inl (heq ▸ hc)))⟩

theorem tokens_toString (n : Nat) : tokens (toString n).toList = [toString n] := by
  have hdigit : ∀ c ∈ (Nat.repr n).toList, c.isDigit = true := by
    intro c hc
    rw [Nat.toList_repr] at hc
    exact Nat.isDigit_of_mem_toDigits (by decide) (by decide) hc
  refine tokens_word ⟨?_, fun c hc => ?_⟩ fun hq => absurd (hdigit _ hq) (by decide)
  · change (Nat.repr n).toList ≠ []
    rw [Nat.toList_repr]
    exact Nat.toDigits_ne_nil
  · have := hdigit c hc
    unfold isBlank
    rw [Bool.or_eq_false_iff, decide_eq_false_iff_not, decide_eq_false_iff_not]
    exact ⟨fun heq => absurd (heq ▸ this) (by decide), fun heq => absurd (heq ▸ this) (by decide)⟩

/-! ## Lines -/

theorem parseLine_empty : parseLine "" = none := rfl

theorem parseLine_header : ∀ l ∈ headerLines, parseLine l = none := by decide +kernel

/-- Blanks, a keyword, and what follows it behind a blank. -/
theorem parseLine_directive {indent name value : String} (hindent : ∀ c ∈ indent.toList, isBlank c = true)
    (hname : Word name.toList) (hhash : (indent ++ name).toList.head? ≠ some '#') :
    parseLine (indent ++ name ++ " " ++ value) = some ⟨name, tokens value.toList⟩ := by
  have hlist : (indent ++ name ++ " " ++ value).toList = indent.toList ++ (name.toList ++ ' ' :: value.toList) := by
    simp only [String.toList_append, List.append_assoc]
    rfl
  obtain ⟨c, cs, hcs⟩ := List.exists_cons_of_ne_nil hname.nonempty
  have hc : isBlank c = false := hname.noBlank c (hcs ▸ List.mem_cons_self)
  have hhead : (indent.toList ++ (name.toList ++ ' ' :: value.toList)).head? ≠ some '#' := by
    rw [← List.append_assoc, ← String.toList_append, List.head?_append_of_ne_nil]
    · exact hhash
    · rw [String.toList_append]
      simp [hname.nonempty]
  have hdrop : (indent.toList ++ (name.toList ++ ' ' :: value.toList)).dropWhile isBlank =
      name.toList ++ ' ' :: value.toList := by
    rw [List.dropWhile_append_of_pos hindent, hcs, List.cons_append, List.dropWhile_cons_of_neg (by simp [hc])]
  have hword : ∀ d ∈ name.toList, (!isBlank d) = true := fun d hd => by simp [hname.noBlank d hd]
  unfold parseLine
  rw [hlist, if_neg]
  · dsimp only
    rw [hdrop, List.takeWhile_append_of_pos hword, List.dropWhile_append_of_pos hword,
      List.takeWhile_cons_of_neg (by decide), List.dropWhile_cons_of_neg (by decide), List.append_nil,
      String.ofList_toList, tokens_blank]
  · rintro (hall | hhash)
    · rw [List.all_eq_true] at hall
      exact absurd (hall c (by simp [hcs])) (by simp [hc])
    · exact hhead hhash

/-! ## Forward specs -/

theorem not_isBlank_of_not_isWhitespace {c : Char} (h : isWhitespace c = false) : isBlank c = false := by
  unfold isBlank
  rw [Bool.or_eq_false_iff, decide_eq_false_iff_not, decide_eq_false_iff_not]
  exact ⟨fun heq => absurd (heq ▸ h) (by decide), fun heq => absurd (heq ▸ h) (by decide)⟩

theorem word_of_addrOk {s : String} (h : addrOk s = true) : Word s.toList := by
  unfold addrOk at h
  rw [Bool.and_eq_true, Bool.not_eq_true', Bool.not_eq_true', List.any_eq_false] at h
  exact ⟨by simpa using h.1, fun c hc => not_isBlank_of_not_isWhitespace (by simpa using h.2 c hc)⟩

theorem isDigit_of_digits {cs : List Char} {n : Nat} (h : digits cs = some n) : ∀ c ∈ cs, c.isDigit = true := by
  have hfold : ∀ (cs : List Char) (acc : Option Nat), (cs.foldl (fun acc c => acc.bind fun n =>
      if c.isDigit then some (n * 10 + (c.toNat - 48)) else none) acc).isSome → acc.isSome ∧ ∀ c ∈ cs, c.isDigit = true := by
    intro cs
    induction cs with
    | nil => exact fun acc h => ⟨h, by simp⟩
    | cons c cs ih =>
      intro acc h
      obtain ⟨hacc, hcs⟩ := ih _ h
      cases acc with
      | none => simp at hacc
      | some n =>
        dsimp only [Option.bind_some] at hacc
        split at hacc
        · exact ⟨rfl, List.forall_mem_cons.mpr ⟨‹_›, hcs⟩⟩
        · cases hacc
  exact (hfold cs (some 0) (by unfold digits at h; rw [h]; rfl)).2

theorem word_of_portOk {s : String} (h : portOk s = true) : Word s.toList := by
  have hdigits : ∀ cs : List Char, (!cs.isEmpty && decide (((digits cs).map fun n => decide (n < 65536)) = some true)) = true →
      Word cs := by
    intro cs h
    rw [Bool.and_eq_true, decide_eq_true_eq, Option.map_eq_some_iff] at h
    obtain ⟨hne, n, hn, -⟩ := h
    refine ⟨by simpa using hne, fun c hc => ?_⟩
    have := isDigit_of_digits hn c hc
    unfold isBlank
    rw [Bool.or_eq_false_iff, decide_eq_false_iff_not, decide_eq_false_iff_not]
    exact ⟨fun heq => absurd (heq ▸ this) (by decide), fun heq => absurd (heq ▸ this) (by decide)⟩
  unfold portOk at h
  split at h
  · rename_i cs hcs
    rw [hcs]
    exact ⟨by simp, List.forall_mem_cons.mpr ⟨by decide, (hdigits cs h).noBlank⟩⟩
  · exact hdigits _ h

theorem spec_eq_of_parts {spec : String} {parts : List String} (h : specParts spec = parts) :
    spec.toList = [':'].intercalate (parts.map String.toList) := by
  have hmap : (specParts spec).map String.toList = spec.toList.splitOn ':' := by
    unfold specParts
    rw [List.map_map, show String.toList ∘ String.ofList = id from funext fun _ => String.toList_ofList, List.map_id]
  rw [← h, hmap, List.intercalate_splitOn]

theorem quote_not_mem_parts {spec : String} (h : '"' ∉ spec.toList) : ∀ s ∈ specParts spec, '"' ∉ s.toList := by
  intro s hs
  obtain ⟨part, hpart, rfl⟩ := List.mem_map.mp hs
  rw [String.toList_ofList]
  exact fun hq => h (mem_of_mem_splitOn hpart hq)

theorem word_join {s t : String} (hs : Word s.toList) (ht : Word t.toList) : Word (s ++ ":" ++ t).toList := by
  have hcolon : Word [':'] := ⟨by simp, by simp [isBlank]⟩
  rw [String.toList_append, String.toList_append]
  exact (hs.append hcolon).append ht

theorem quote_not_mem_join {s t : String} (hs : '"' ∉ s.toList) (ht : '"' ∉ t.toList) : '"' ∉ (s ++ ":" ++ t).toList := by
  rw [String.toList_append, String.toList_append, List.mem_append, List.mem_append, not_or, not_or]
  exact ⟨⟨hs, by decide⟩, ht⟩

/-- What is read of a valid forward: the listen address, and the destination it may have. -/
inductive Listens (f : PortForward) : String → Option String → Prop
  | dynamic (hkind : f.kind = .dynamicFwd) (hword : Word f.spec.toList) : Listens f f.spec none
  | pair {l d : String} (hkind : f.kind ≠ .dynamicFwd) (hl : Word l.toList) (hlq : '"' ∉ l.toList) (hd : Word d.toList)
      (hdq : '"' ∉ d.toList) (hspec : l ++ ":" ++ d = f.spec)
      (hline : forwardLine f = "    " ++ keyword f.kind ++ " " ++ (l ++ " " ++ d)) : Listens f l (some d)

theorem ok_of_ite {ok : Bool} {e : ApplyError} (h : (if ok = true then Except.ok () else .error e) = .ok ()) : ok = true := by
  split at h
  · assumption
  · cases h

theorem listens_of_valid {f : PortForward} (h : f.Valid) (hquote : '"' ∉ f.spec.toList) : ∃ l d, Listens f l d := by
  have hparts := quote_not_mem_parts hquote
  unfold PortForward.Valid validateForwardSpec at h
  dsimp only at h
  replace h := ok_of_ite h
  generalize hp : specParts f.spec = parts at h hparts
  have hspec := spec_eq_of_parts hp
  split at h
  · rename_i p hkind
    refine ⟨_, _, .dynamic hkind ?_⟩
    rw [hspec]
    simpa using word_of_portOk h
  · rename_i bind p hkind
    rw [Bool.and_eq_true] at h
    have hjoin : f.spec = bind ++ ":" ++ p := by
      apply String.toList_injective
      rw [hspec]
      simp [List.intercalate, String.toList_append]
    refine ⟨_, _, .dynamic hkind ?_⟩
    rw [hjoin]
    exact word_join (word_of_addrOk h.1) (word_of_portOk h.2)
  · cases h
  · rename_i lp host dp hkind
    simp only [Bool.and_eq_true] at h
    simp only [List.forall_mem_cons, List.not_mem_nil, false_imp_iff, implies_true, and_true] at hparts
    refine ⟨lp, some (host ++ ":" ++ dp), .pair hkind (word_of_portOk h.1.1) hparts.1
      (word_join (word_of_addrOk h.1.2) (word_of_portOk h.2)) (quote_not_mem_join hparts.2.1 hparts.2.2) ?_ ?_⟩
    · apply String.toList_injective
      rw [hspec]
      simp [List.intercalate, String.toList_append]
    · unfold forwardLine
      rw [hp]
      cases hk : f.kind
      · simp [String.append_assoc]
      · simp [String.append_assoc]
      · exact absurd hk hkind
  · rename_i bind lp host dp hkind
    simp only [Bool.and_eq_true] at h
    simp only [List.forall_mem_cons, List.not_mem_nil, false_imp_iff, implies_true, and_true] at hparts
    refine ⟨bind ++ ":" ++ lp, some (host ++ ":" ++ dp), .pair hkind (word_join (word_of_addrOk h.1.1.1) (word_of_portOk h.1.1.2))
      (quote_not_mem_join hparts.1 hparts.2.1) (word_join (word_of_addrOk h.1.2) (word_of_portOk h.2))
      (quote_not_mem_join hparts.2.2.1 hparts.2.2.2) ?_ ?_⟩
    · apply String.toList_injective
      rw [hspec]
      simp [List.intercalate, String.toList_append]
    · unfold forwardLine
      rw [hp]
      cases hk : f.kind
      · simp [String.append_assoc]
      · simp [String.append_assoc]
      · exact absurd hk hkind
  · cases h

/-! ## Hosts -/

/-- Directives below a `Host` line that make `p'` of `p`. -/
structure Below (ds : List Directive) (p p' : ParsedHost) : Prop where
  noHost : ∀ d ∈ ds, d.keyword ≠ "Host"
  result : ds.foldl .read p = p'

theorem Below.nil (p : ParsedHost) : Below [] p p := ⟨by simp, rfl⟩

theorem Below.append {ds ds' : List Directive} {p p' p'' : ParsedHost} (h : Below ds p p') (h' : Below ds' p' p'') :
    Below (ds ++ ds') p p'' :=
  ⟨List.forall_mem_append.mpr ⟨h.noHost, h'.noHost⟩, by rw [List.foldl_append, h.result, h'.result]⟩

theorem readHosts_below {ds rest : List Directive} {p p' : ParsedHost} (h : Below ds p p') :
    readHosts (some p) (ds ++ rest) = readHosts (some p') rest := by
  obtain ⟨hnone, rfl⟩ := h
  induction ds generalizing p with
  | nil => rfl
  | cons d ds ih =>
    obtain ⟨hd, hds⟩ := List.forall_mem_cons.mp hnone
    rw [List.cons_append, readHosts, if_neg hd]
    exact ih hds

theorem parseLine_indented {name value : String} (hname : Word name.toList) :
    parseLine ("    " ++ name ++ " " ++ value) = some ⟨name, tokens value.toList⟩ := by
  refine parseLine_directive (by simp [isBlank]) hname ?_
  rw [String.toList_append]
  exact fun h => nomatch h

/-- The line of a field that is written as `write` says and is read back as one token. -/
theorem below_fieldLine {α : Type} {name : String} {write : α → String} {value : Option α} {p p' : ParsedHost}
    (hname : Word name.toList) (hhost : name ≠ "Host")
    (htoken : ∀ v, value = some v → ∃ s, tokens (write v).toList = [s] ∧ p.read ⟨name, [s]⟩ = p')
    (hnone : value = none → p = p') : Below ((fieldLine name (value.map write)).filterMap parseLine) p p' := by
  cases value with
  | none => exact hnone rfl ▸ .nil p
  | some v =>
    obtain ⟨s, hs, hread⟩ := htoken v rfl
    have hline : (fieldLine name ((some v).map write)).filterMap parseLine = [⟨name, [s]⟩] := by
      change List.filterMap parseLine ["    " ++ name ++ " " ++ write v] = _
      rw [List.filterMap_cons, parseLine_indented hname, hs]
      rfl
    rw [hline]
    exact ⟨by simpa using hhost, hread⟩

/-- No double quote in what is written of a host. -/
def Unquoted (h : Host) : Prop := ∀ s ∈ texts h, '"' ∉ s.toList

theorem below_fieldLines {h : Host} (hquote : Unquoted h) :
    Below ((fieldLines h).filterMap parseLine) (.named h.hostAlias)
      ⟨h.hostAlias, h.hostname, h.port, h.user, h.jumpHost, h.identityFile, []⟩ := by
  obtain ⟨hostAlias, hostname, port, user, jumpHost, identityFile, tags⟩ := h
  unfold Unquoted texts at hquote
  simp only [List.forall_mem_cons, List.forall_mem_append] at hquote
  obtain ⟨-, ⟨⟨hhostname, huser⟩, hjump⟩, hident⟩ := hquote
  unfold fieldLines
  simp only [List.filterMap_append]
  have hstep1 : Below ((fieldLine "HostName" (hostname.map quote)).filterMap parseLine) (.named hostAlias)
      ⟨hostAlias, hostname, none, none, none, none, []⟩ := by
    refine below_fieldLine ⟨by simp, by simp [isBlank]⟩ (by decide) (fun v hv => ?_) (by rintro rfl; rfl)
    subst hv
    exact ⟨v, tokens_quote (hhostname v (by simp)), rfl⟩
  have hstep2 : Below ((fieldLine "Port" (port.map toString)).filterMap parseLine)
      ⟨hostAlias, hostname, none, none, none, none, []⟩ ⟨hostAlias, hostname, port, none, none, none, []⟩ := by
    refine below_fieldLine ⟨by simp, by simp [isBlank]⟩ (by decide) (fun v hv => ?_) (by rintro rfl; rfl)
    subst hv
    refine ⟨toString v, tokens_toString v, ?_⟩
    change ParsedHost.mk hostAlias hostname (Nat.repr v).toNat? none none none [] = _
    rw [Nat.toNat?_repr]
  have hstep3 : Below ((fieldLine "User" (user.map quote)).filterMap parseLine)
      ⟨hostAlias, hostname, port, none, none, none, []⟩ ⟨hostAlias, hostname, port, user, none, none, []⟩ := by
    refine below_fieldLine ⟨by simp, by simp [isBlank]⟩ (by decide) (fun v hv => ?_) (by rintro rfl; rfl)
    subst hv
    exact ⟨v, tokens_quote (huser v (by simp)), rfl⟩
  have hstep4 : Below ((fieldLine "ProxyJump" (jumpHost.map quote)).filterMap parseLine)
      ⟨hostAlias, hostname, port, user, none, none, []⟩ ⟨hostAlias, hostname, port, user, jumpHost, none, []⟩ := by
    refine below_fieldLine ⟨by simp, by simp [isBlank]⟩ (by decide) (fun v hv => ?_) (by rintro rfl; rfl)
    subst hv
    exact ⟨v, tokens_quote (hjump v (by simp)), rfl⟩
  have hstep5 : Below ((fieldLine "IdentityFile" (identityFile.map quote)).filterMap parseLine)
      ⟨hostAlias, hostname, port, user, jumpHost, none, []⟩
      ⟨hostAlias, hostname, port, user, jumpHost, identityFile, []⟩ := by
    refine below_fieldLine ⟨by simp, by simp [isBlank]⟩ (by decide) (fun v hv => ?_) (by rintro rfl; rfl)
    subst hv
    exact ⟨v, tokens_quote (hident v (by simp)), rfl⟩
  exact (((hstep1.append hstep2).append hstep3).append hstep4).append hstep5

theorem parseLine_forwardLine {f : PortForward} {l : String} {d : Option String} (h : Listens f l d)
    (hquote : '"' ∉ f.spec.toList) : parseLine (forwardLine f) = some ⟨keyword f.kind, l :: d.toList⟩ := by
  have hkeyword : ∀ kind, Word (keyword kind).toList := by
    intro kind
    cases kind <;> exact ⟨by simp [keyword], by simp [keyword, isBlank]⟩
  cases h with
  | dynamic hkind hword =>
    have hline : forwardLine f = "    " ++ keyword f.kind ++ " " ++ f.spec := by
      unfold forwardLine
      rw [hkind]
      rfl
    rw [hline, parseLine_indented (hkeyword _), tokens_word hword hquote]
    rfl
  | pair hkind hl hlq hd hdq hspec hline =>
    rw [hline, parseLine_indented (hkeyword _), tokens_two hl hlq hd hdq]
    rfl

theorem Listens.readsForward {f : PortForward} {l : String} {d : Option String} (h : Listens f l d) :
    ReadsForward f ⟨f.kind, l, d⟩ := by
  cases h with
  | dynamic hkind hword => exact ⟨rfl, rfl⟩
  | pair hkind hl hlq hd hdq hspec hline => exact ⟨rfl, hspec⟩

theorem Listens.read {f : PortForward} {l : String} {d : Option String} (h : Listens f l d) (p : ParsedHost) :
    p.read ⟨keyword f.kind, l :: d.toList⟩ = { p with forwards := p.forwards ++ [⟨f.kind, l, d⟩] } := by
  cases h with
  | dynamic hkind hword =>
    rw [hkind]
    rfl
  | pair hkind hl hlq hd hdq hspec hline =>
    cases hk : f.kind with
    | localFwd => rfl
    | remoteFwd => rfl
    | dynamicFwd => exact absurd hk hkind

theorem below_forwardLines {forwards : List PortForward} (h : ∀ f ∈ forwards, f.Valid ∧ '"' ∉ f.spec.toList) :
    ∃ ps, List.Forall₂ ReadsForward forwards ps ∧
      ∀ p : ParsedHost, Below ((forwards.map forwardLine).filterMap parseLine) p { p with forwards := p.forwards ++ ps } := by
  induction forwards with
  | nil => exact ⟨[], .nil, fun p => by simpa using Below.nil p⟩
  | cons f forwards ih =>
    obtain ⟨⟨hvalid, hquote⟩, hrest⟩ := List.forall_mem_cons.mp h
    obtain ⟨l, d, hl⟩ := listens_of_valid hvalid hquote
    obtain ⟨ps, hps, hbelow⟩ := ih hrest
    refine ⟨⟨f.kind, l, d⟩ :: ps, .cons hl.readsForward hps, fun p => ?_⟩
    have hfirst : Below [⟨keyword f.kind, l :: d.toList⟩] p { p with forwards := p.forwards ++ [⟨f.kind, l, d⟩] } :=
      ⟨by cases f.kind <;> simp [keyword], hl.read p⟩
    rw [List.map_cons, List.filterMap_cons, parseLine_forwardLine hl hquote]
    simpa [List.append_assoc] using hfirst.append (hbelow _)

theorem readHosts_hostLines {forwards : List PortForward} {h : Host} (hquote : Unquoted h)
    (hforwards : ∀ f ∈ forwards, f.Valid ∧ '"' ∉ f.spec.toList) :
    ∃ p, ReadsHost forwards h p ∧ ∀ current rest,
      readHosts current ((hostLines forwards h).filterMap parseLine ++ rest) = current.toList ++ readHosts (some p) rest := by
  obtain ⟨ps, hps, hbelow⟩ := below_forwardLines fun f hf => hforwards f (mem_attached (h := h) hf)
  refine ⟨⟨h.hostAlias, h.hostname, h.port, h.user, h.jumpHost, h.identityFile, ps⟩, ⟨rfl, rfl, rfl, rfl, rfl, rfl, hps⟩,
    fun current rest => ?_⟩
  have hhost : parseLine ("Host " ++ quote h.hostAlias) = some ⟨"Host", [h.hostAlias]⟩ := by
    have hline := @parseLine_directive "" "Host" (quote h.hostAlias) (by simp)
      ⟨by simp, by simp [isBlank]⟩ (by decide)
    rw [tokens_quote (hquote _ List.mem_cons_self)] at hline
    exact hline
  have hrest := @readHosts_below _ rest _ _ ((below_fieldLines hquote).append (hbelow _))
  unfold hostLines
  rw [List.filterMap_append, List.filterMap_append, List.filterMap_cons, parseLine_empty, List.filterMap_cons, hhost]
  simp only [List.filterMap_nil, List.append_assoc, List.cons_append, List.nil_append] at hrest ⊢
  rw [readHosts, if_pos rfl]
  exact congrArg (current.toList ++ ·) hrest

theorem readHosts_hosts {forwards : List PortForward} (hforwards : ∀ f ∈ forwards, f.Valid ∧ '"' ∉ f.spec.toList)
    {hosts : List Host} (hquote : ∀ h ∈ hosts, Unquoted h) :
    ∃ parsed, List.Forall₂ (ReadsHost forwards) hosts parsed ∧ ∀ current,
      readHosts current ((hosts.flatMap (hostLines forwards)).filterMap parseLine) = current.toList ++ parsed := by
  induction hosts with
  | nil => exact ⟨[], .nil, fun current => by simp [readHosts]⟩
  | cons h hosts ih =>
    obtain ⟨hh, hhosts⟩ := List.forall_mem_cons.mp hquote
    obtain ⟨parsed, hparsed, hread⟩ := ih hhosts
    obtain ⟨p, hp, hlines⟩ := readHosts_hostLines hh hforwards
    refine ⟨p :: parsed, .cons hp hparsed, fun current => ?_⟩
    rw [List.flatMap_cons, List.filterMap_append, hlines, hread]
    rfl

/-! ## What the validators exclude -/

theorem quote_not_mem_of_checkString {kind : Kind} {s : String} (h : checkString kind s = .ok ()) (hkind : kind ≠ .snippet) :
    '"' ∉ s.toList := by
  unfold checkString at h
  split at h
  · cases h
  split at h
  · cases h
  split at h
  · cases h
  · rename_i hquote
    exact fun hq => hquote ⟨hkind, hq⟩

theorem checkString_texts {h : Host} (hvalid : validatePayload .host (PayloadType.host.toPayload h) = .ok ()) :
    ∀ s ∈ texts h, checkString .host s = .ok () := by
  have hcheck : ∀ {m : Member Host} {s : String}, m ∈ PayloadType.host.members → m.writes h = some (.str (.plain s)) →
      checkString .host s = .ok () := by
    intro m s hm hs
    have hvalue : checkValue .host (.str (.plain s)) = .ok () := PayloadType.checkValue_of_writes (T := .host) hvalid (by decide) hm hs
    simpa only [checkValue] using hvalue
  unfold texts
  simp only [List.forall_mem_cons, List.forall_mem_append, Option.mem_toList]
  refine ⟨hcheck (m := ⟨_, .required .string, "alias", (·.hostAlias)⟩) (.head _) rfl, ⟨⟨?_, ?_⟩, ?_⟩, ?_⟩ <;> intro s hs
  · exact hcheck (m := ⟨_, .optional .string, "hostname", (·.hostname)⟩) (.tail _ (.head _)) (congrArg (Option.map _) hs)
  · exact hcheck (m := ⟨_, .optional .string, "user", (·.user)⟩) (.tail _ (.tail _ (.tail _ (.head _))))
      (congrArg (Option.map _) hs)
  · exact hcheck (m := ⟨_, .optional .string, "jump_host", (·.jumpHost)⟩)
      (.tail _ (.tail _ (.tail _ (.tail _ (.head _))))) (congrArg (Option.map _) hs)
  · exact hcheck (m := ⟨_, .optional .string, "identity_file", (·.identityFile)⟩)
      (.tail _ (.tail _ (.tail _ (.tail _ (.tail _ (.head _)))))) (congrArg (Option.map _) hs)

theorem checkString_spec {f : PortForward}
    (hvalid : validatePayload .portForward (PayloadType.portForward.toPayload f) = .ok ()) :
    checkString .portForward f.spec = .ok () := by
  have hvalue : checkValue .portForward (.str (.plain f.spec)) = .ok () := PayloadType.checkValue_of_writes (T := .portForward) hvalid
    (by decide) (m := ⟨_, .required .string, "spec", (·.spec)⟩) (.tail _ (.tail _ (.head _))) rfl
  simpa only [checkValue] using hvalue

/-- **Round trip.** Validated hosts and forwards are rendered, and the file is read back as the hosts by
alias, each with its fields and its forwards. -/
theorem parse_render {hosts : List Host} {forwards : List PortForward}
    (hhosts : ∀ h ∈ hosts, validatePayload .host (PayloadType.host.toPayload h) = .ok ())
    (hforwards : ∀ f ∈ forwards, validatePayload .portForward (PayloadType.portForward.toPayload f) = .ok () ∧
      validateForwardSpec f.kind f.spec = .ok ()) :
    ∃ out, render hosts forwards = some out ∧
      List.Forall₂ (ReadsHost forwards) (hosts.insertionSort (·.hostAlias ≤ ·.hostAlias)) (parse out) := by
  have hspecs : ∀ f ∈ forwards, f.Valid ∧ '"' ∉ f.spec.toList := fun f hf =>
    ⟨(hforwards f hf).2, quote_not_mem_of_checkString (checkString_spec (hforwards f hf).1) (by decide)⟩
  have hquote : ∀ h ∈ hosts.insertionSort (·.hostAlias ≤ ·.hostAlias), Unquoted h := by
    intro h hh s hs
    rw [List.mem_insertionSort] at hh
    exact quote_not_mem_of_checkString (checkString_texts (hhosts h hh) s hs) (by decide)
  have hout : render hosts forwards = some (unlines (fileLines hosts forwards)) :=
    render_eq_some_iff.mpr ⟨fun h _ f hf => (hspecs f (mem_attached hf)).1.renderable, rfl⟩
  have honeLine : ∀ {kind : Kind} {s : String}, checkString kind s = .ok () → OneLine s := fun h =>
    oneLine_of_checkValue (t := .plain _) h
  -- No checked value has a newline inside.
  have hlines : lines (unlines (fileLines hosts forwards)) = fileLines hosts forwards ++ [""] := by
    refine (lines_render_iff hout).mpr fun h hh => ⟨fun s hs => honeLine (checkString_texts (hhosts h hh) s hs), fun f hf => ?_⟩
    exact oneLine_shown (honeLine (checkString_spec (hforwards f (mem_attached hf)).1))
  refine ⟨_, hout, ?_⟩
  obtain ⟨parsed, hparsed, hread⟩ := readHosts_hosts hspecs hquote
  have hheader : headerLines.filterMap parseLine = [] := List.filterMap_eq_nil_iff.mpr parseLine_header
  have hparse : parse (unlines (fileLines hosts forwards)) = parsed := by
    unfold parse
    rw [hlines]
    unfold fileLines
    rw [List.filterMap_append, List.filterMap_append, hheader, List.nil_append, List.filterMap_cons, parseLine_empty,
      List.filterMap_nil, List.append_nil, hread]
    rfl
  rwa [hparse]

/-- An alias that is empty, one with a blank that two hosts share, and a user with a tab. -/
def oddHosts : List Host :=
  [⟨"my box", none, some 22, some "a\tb", none, none, ["x"]⟩, ⟨"", some "", none, none, none, none, []⟩,
    ⟨"my box", some "h", none, none, some "#", none, []⟩]

/-- Specs of three shapes, one of them for no host. -/
def oddForwards : List PortForward :=
  [⟨"b", .localFwd, "+80:db:81", "my box"⟩, ⟨"a", .dynamicFwd, "lo:1080", "gone"⟩,
    ⟨"a", .remoteFwd, "*:80:db:81", "my box"⟩]

theorem parse_render_odd :
    ∃ out, render oddHosts oddForwards = some out ∧
      List.Forall₂ (ReadsHost oddForwards) (oddHosts.insertionSort (·.hostAlias ≤ ·.hostAlias)) (parse out) :=
  parse_render (by decide +kernel) (by decide +kernel)

end SshConfig

end SshVault
