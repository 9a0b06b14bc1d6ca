import SshVault.SshConfig

/-!
# The lines of the generated file

`render` writes a line for the alias, for each field that is set and for each forward of a host. What
ends up in a line is a field value as it stands, so a newline in a value is a newline in the file.
-/

open Lib

namespace SshVault.SshConfig

/-! ## The lines meant -/

/-- The spec has the parts that `render_forward` indexes. -/
def Renderable (f : PortForward) : Prop := f.kind = .dynamicFwd ∨ 3 ≤ (specParts f.spec).length

def forwardLine (f : PortForward) : String :=
  match f.kind, specParts f.spec with
  | .dynamicFwd, _ => "    DynamicForward " ++ f.spec
  | kind, [a, b, c, d] => "    " ++ keyword kind ++ " " ++ (a ++ ":" ++ b) ++ " " ++ (c ++ ":" ++ d)
  | kind, a :: b :: c :: _ => "    " ++ keyword kind ++ " " ++ a ++ " " ++ (b ++ ":" ++ c)
  | _, _ => ""

/-- The line of a field, if it is set. -/
def fieldLine (name : String) (value : Option String) : List String :=
  (value.map fun v => "    " ++ name ++ " " ++ v).toList

/-- The lines of the fields of a host that are set. -/
def fieldLines (h : Host) : List String :=
  fieldLine "HostName" (h.hostname.map quote) ++ fieldLine "Port" (h.port.map toString) ++
    fieldLine "User" (h.user.map quote) ++ fieldLine "ProxyJump" (h.jumpHost.map quote) ++
    fieldLine "IdentityFile" (h.identityFile.map quote)

/-- A blank line, the `Host` line, the fields and the forwards. -/
def hostLines (forwards : List PortForward) (h : Host) : List String :=
  ["", "Host " ++ quote h.hostAlias] ++ fieldLines h ++ (attached forwards h).map forwardLine

def headerLines : List String :=
  ["# Managed by sshvault — DO NOT EDIT.",
    "# Regenerate with `sshvault apply`. Your own config lives in ~/.ssh/config."]

def fileLines (hosts : List Host) (forwards : List PortForward) : List String :=
  headerLines ++ (hosts.insertionSort (·.hostAlias ≤ ·.hostAlias)).flatMap (hostLines forwards)

/-! ## The rendered text is made of them -/

theorem renderForward_eq_some_iff {f : PortForward} {s : String} :
    renderForward f = some s ↔ Renderable f ∧ s = forwardLine f ++ "\n" := by
  unfold renderForward Renderable forwardLine
  split
  · simp [*, eq_comm]
  · simp [*, eq_comm]
  · simp [*, eq_comm]
  · rename_i hdyn h4 h3
    have hkind : f.kind ≠ .dynamicFwd := fun h => hdyn h
    have hshort : ¬ 3 ≤ (specParts f.spec).length := by
      rcases hparts : specParts f.spec with _ | ⟨a, _ | ⟨b, _ | ⟨c, rest⟩⟩⟩
      · simp
      · simp
      · simp
      · exact absurd hparts (h3 a b c rest)
    simp [hkind, hshort]

theorem mapM_eq_some_iff {α β : Type} {f : α → Option β} {ok : α → Prop} {g : α → β}
    (h : ∀ x y, f x = some y ↔ ok x ∧ y = g x) {xs : List α} {ys : List β} :
    xs.mapM f = some ys ↔ (∀ x ∈ xs, ok x) ∧ ys = xs.map g := by
  induction xs generalizing ys with
  | nil => simp [eq_comm]
  | cons x xs ih =>
    simp only [List.mapM_cons, Option.bind_eq_bind, Option.bind_eq_some_iff, h, ih, Option.pure_def,
      Option.some.injEq, List.forall_mem_cons, List.map_cons]
    constructor
    · rintro ⟨y, ⟨hx, rfl⟩, zs, ⟨hxs, rfl⟩, rfl⟩
      exact ⟨⟨hx, hxs⟩, rfl⟩
    · rintro ⟨⟨hx, hxs⟩, rfl⟩
      exact ⟨_, ⟨hx, rfl⟩, _, ⟨hxs, rfl⟩, rfl⟩

theorem directive_eq (name : String) (value : Option String) :
    directive name value = unlines (fieldLine name value) := by
  cases value with
  | none => rfl
  | some v =>
    change _ = unlines ["    " ++ name ++ " " ++ v]
    rw [unlines_cons, unlines_nil, String.append_empty]
    rfl

theorem join_map_newline (ls : List String) : String.join (ls.map (· ++ "\n")) = unlines ls := rfl

theorem join_map_unlines {α : Type} (xs : List α) (g : α → List String) :
    String.join (xs.map fun x => unlines (g x)) = unlines (xs.flatMap g) := by
  apply String.toList_injective
  rw [String.toList_join, List.flatMap_map, toList_unlines, List.flatMap_assoc]
  exact List.flatMap_congr fun x _ => toList_unlines (g x)

theorem renderHost_eq_some_iff {forwards : List PortForward} {h : Host} {s : String} :
    renderHost forwards h = some s ↔ (∀ f ∈ attached forwards h, Renderable f) ∧ s = unlines (hostLines forwards h) := by
  have hlines : unlines (hostLines forwards h) = "\n" ++ ("Host " ++ quote h.hostAlias ++ "\n") ++
      directive "HostName" (h.hostname.map quote) ++ directive "Port" (h.port.map toString) ++
      directive "User" (h.user.map quote) ++ directive "ProxyJump" (h.jumpHost.map quote) ++
      directive "IdentityFile" (h.identityFile.map quote) ++
      String.join ((attached forwards h).map fun f => forwardLine f ++ "\n") := by
    have hfwds : String.join ((attached forwards h).map fun f => forwardLine f ++ "\n") =
        unlines ((attached forwards h).map forwardLine) := by
      rw [← join_map_newline, List.map_map]
      rfl
    unfold hostLines fieldLines
    simp only [directive_eq, hfwds, unlines_append, unlines_cons, unlines_nil, String.append_empty,
      String.empty_append, String.append_assoc]
  unfold renderHost
  simp only [Option.bind_eq_bind, Option.bind_eq_some_iff, mapM_eq_some_iff fun f s => renderForward_eq_some_iff,
    Option.pure_def, Option.some.injEq, hlines]
  constructor
  · rintro ⟨fwds, ⟨hok, rfl⟩, rfl⟩
    exact ⟨hok, rfl⟩
  · rintro ⟨hok, rfl⟩
    exact ⟨_, ⟨hok, rfl⟩, rfl⟩

/-- **Rendering.** The file is its lines, and there is one unless a forward that is written has a spec
too short. -/
theorem render_eq_some_iff {hosts : List Host} {forwards : List PortForward} {out : String} :
    render hosts forwards = some out ↔
      (∀ h ∈ hosts, ∀ f ∈ attached forwards h, Renderable f) ∧ out = unlines (fileLines hosts forwards) := by
  have hheader : header = unlines headerLines := by decide +kernel
  unfold render fileLines
  simp only [Option.bind_eq_bind, Option.bind_eq_some_iff, mapM_eq_some_iff fun h s => renderHost_eq_some_iff,
    Option.pure_def, Option.some.injEq, unlines_append, hheader, List.mem_insertionSort]
  constructor
  · rintro ⟨blocks, ⟨hok, rfl⟩, rfl⟩
    exact ⟨hok, by rw [join_map_unlines]⟩
  · rintro ⟨hok, rfl⟩
    exact ⟨_, ⟨hok, rfl⟩, by rw [join_map_unlines]⟩

/-! ## Newlines in values -/

/-- The values of a host that are written as text. -/
def texts (h : Host) : List String :=
  h.hostAlias :: (h.hostname.toList ++ h.user.toList ++ h.jumpHost.toList ++ h.identityFile.toList)

/-- The parts of a forward's spec that are written. -/
def shown (f : PortForward) : List String :=
  match f.kind, specParts f.spec with
  | .dynamicFwd, _ => [f.spec]
  | _, [a, b, c, d] => [a, b, c, d]
  | _, a :: b :: c :: _ => [a, b, c]
  | _, _ => []

def OneLine (s : String) : Prop := '\n' ∉ s.toList

theorem oneLine_append {s t : String} : OneLine (s ++ t) ↔ OneLine s ∧ OneLine t := by
  unfold OneLine
  rw [String.toList_append, List.mem_append, not_or]

theorem oneLine_quote {s : String} : OneLine (quote s) ↔ OneLine s := by
  have hmark : OneLine "\"" := by unfold OneLine; decide
  unfold quote
  split
  · simp [oneLine_append, hmark]
  · rfl

theorem oneLine_toString (n : Nat) : OneLine (toString n) := by
  intro h
  change '\n' ∈ (Nat.repr n).toList at h
  rw [Nat.toList_repr] at h
  exact absurd (Nat.isDigit_of_mem_toDigits (by decide) (by decide) h) (by decide)

theorem oneLine_forwardLine {f : PortForward} : OneLine (forwardLine f) ↔ ∀ s ∈ shown f, OneLine s := by
  have hkeyword : ∀ kind, OneLine (keyword kind) := by
    intro kind
    cases kind <;> (unfold OneLine; decide)
  have hdynamic : OneLine "    DynamicForward " := by unfold OneLine; decide
  have hindent : OneLine "    " := by unfold OneLine; decide
  have hspace : OneLine " " := by unfold OneLine; decide
  have hcolon : OneLine ":" := by unfold OneLine; decide
  have hempty : OneLine "" := by unfold OneLine; decide
  unfold forwardLine shown
  split <;> simp [oneLine_append, hkeyword, hdynamic, hindent, hspace, hcolon, hempty, and_assoc]

theorem oneLine_fieldLine (name : String) {value : Option String} (hname : OneLine name) :
    (∀ l ∈ fieldLine name value, OneLine l) ↔ ∀ s ∈ value.toList, OneLine s := by
  have hindent : OneLine "    " := by unfold OneLine; decide
  have hspace : OneLine " " := by unfold OneLine; decide
  unfold fieldLine
  cases value <;> simp [oneLine_append, hindent, hspace, hname]

theorem oneLine_quoted (name : String) {value : Option String} (hname : OneLine name) :
    (∀ l ∈ fieldLine name (value.map quote), OneLine l) ↔ ∀ s ∈ value.toList, OneLine s := by
  rw [oneLine_fieldLine name hname]
  cases value <;> simp [oneLine_quote]

theorem oneLine_hostLines {forwards : List PortForward} {h : Host} :
    (∀ l ∈ hostLines forwards h, OneLine l) ↔
      (∀ s ∈ texts h, OneLine s) ∧ ∀ f ∈ attached forwards h, ∀ s ∈ shown f, OneLine s := by
  have hhost : OneLine "Host " := by unfold OneLine; decide
  have hempty : OneLine "" := by unfold OneLine; decide
  have hport : ∀ l ∈ fieldLine "Port" (h.port.map toString), OneLine l := by
    rw [oneLine_fieldLine "Port" (by unfold OneLine; decide)]
    cases h.port with
    | none => simp
    | some p => simpa using oneLine_toString p
  unfold hostLines fieldLines texts
  simp only [List.forall_mem_append, List.forall_mem_cons, List.not_mem_nil, false_imp_iff, implies_true, and_true,
    hempty, true_and, oneLine_append, hhost, oneLine_quote, iff_true_intro hport, List.forall_mem_map, oneLine_forwardLine,
    oneLine_quoted "HostName" (by unfold OneLine; decide),
    oneLine_quoted "User" (by unfold OneLine; decide),
    oneLine_quoted "ProxyJump" (by unfold OneLine; decide),
    oneLine_quoted "IdentityFile" (by unfold OneLine; decide)]

/-- **Lines.** A rendered file has the lines meant exactly when no value that is written has a
newline. -/
theorem lines_render_iff {hosts : List Host} {forwards : List PortForward} {out : String}
    (h : render hosts forwards = some out) :
    lines out = fileLines hosts forwards ++ [""] ↔
      ∀ h ∈ hosts, (∀ s ∈ texts h, OneLine s) ∧ ∀ f ∈ attached forwards h, ∀ s ∈ shown f, OneLine s := by
  obtain ⟨-, rfl⟩ := render_eq_some_iff.mp h
  have hheader : ∀ l ∈ headerLines, OneLine l := by
    unfold headerLines OneLine
    decide
  rw [lines_unlines_iff]
  change (∀ l ∈ fileLines hosts forwards, OneLine l) ↔ _
  unfold fileLines
  simp only [List.forall_mem_append, iff_true_intro hheader, true_and, List.forall_mem_flatMap, List.mem_insertionSort,
    oneLine_hostLines]

/-! ## Records without newlines -/

/-- A field that is text is one line. -/
def FieldOneLine (r : Record) (n : String) : Prop :=
  ∀ (f : Field) (t : Text Uuid), r.fields[n]? = some f → f.value = .str t → OneLine t.spell

def hostTexts : List String := ["alias", "hostname", "user", "jump_host", "identity_file"]

/-- No newline in a field that can be written. The highest kind of a merge wins, so that a record's fields
can end up in a host, or in a forward, only from below. -/
def Clean (r : Record) : Prop :=
  (r.kind ≤ .host → ∀ n ∈ hostTexts, FieldOneLine r n) ∧ (r.kind ≤ .portForward → FieldOneLine r "spec")

theorem FieldOneLine.merge {a b : Record} {n : String} (ha : FieldOneLine a n) (hb : FieldOneLine b n) :
    FieldOneLine (merge a b) n := by
  intro f t hf ht
  rw [merge_fields_get] at hf
  rcases (later_eq_some hf).1 with hf | hf
  · exact ha f t hf ht
  · exact hb f t hf ht

theorem Clean.merge {a b : Record} (ha : Clean a) (hb : Clean b) : Clean (merge a b) := by
  refine ⟨fun hkind n hn => ?_, fun hkind => ?_⟩ <;> rw [merge_kind, max_le_iff] at hkind
  · exact (ha.1 hkind.1 n hn).merge (hb.1 hkind.2 n hn)
  · exact (ha.2 hkind.1).merge (hb.2 hkind.2)

theorem oneLine_b64 (u : Uuid) : OneLine (b64Uuid u) := by
  have hdigit : ∀ n < 64, b64Digit n ≠ '\n' := by decide +kernel
  intro h
  unfold b64Uuid at h
  rw [String.toList_ofList, List.mem_append, List.mem_map] at h
  rcases h with ⟨i, -, hi⟩ | h
  · exact hdigit _ (Nat.mod_lt _ (by decide)) hi
  · exact absurd h (by decide)

theorem checkFields_ok {kind : Kind} {fields : List (String × Value)} (h : checkFields kind fields = .ok ()) :
    ∀ p ∈ fields, checkValue kind p.2 = .ok () := by
  induction fields with
  | nil => simp
  | cons p fields ih =>
    unfold checkFields at h
    cases hrest : checkFields kind fields with
    | error e => simp [hrest, bind, Except.bind] at h
    | ok u =>
      refine List.forall_mem_cons.mpr ⟨?_, ih hrest⟩
      simpa [hrest, bind, Except.bind] using h

theorem oneLine_of_checkValue {kind : Kind} {t : Text Uuid} (h : checkValue kind (.str t) = .ok ()) : OneLine t.spell := by
  cases t with
  | plain s =>
    unfold checkValue checkString at h
    split at h
    · cases h
    split at h
    · cases h
    · rename_i hline
      exact fun hn => hline (Or.inl hn)
  | b64 u => exact oneLine_b64 u

theorem Clean.of_checked {r : Record} (h : Vault.Checked r) : Clean r := by
  rcases h with ⟨hkind, hnone⟩ | ⟨payload, hvalid, hfields⟩
  · have hfield : ∀ n, FieldOneLine r n := by
      intro n f t hf
      simp [hnone] at hf
    exact ⟨fun _ n _ => hfield n, fun _ => hfield "spec"⟩
  · have hfield : r.kind ≤ .portForward → ∀ n, FieldOneLine r n := by
      intro hkind n f t hf ht
      unfold validatePayload at hvalid
      rw [if_neg (by rintro h; rw [h] at hkind; exact absurd hkind (by decide))] at hvalid
      refine oneLine_of_checkValue (checkFields_ok hvalid (n, .str t) ?_)
      rw [Std.ExtTreeMap.mem_toList_iff_getElem?_eq_some, ← ht]
      exact hfields n f hf
    exact ⟨fun hkind n _ => hfield (hkind.trans (by decide)) n, fun hkind => hfield hkind "spec"⟩

/-! ## What a device renders -/

theorem mem_list {α : Type} {v : Vault} {ord : HashOrder} {kind : Kind} {payload : Record → Option α} {x : α}
    (h : x ∈ (v.list ord kind payload).map (·.2)) :
    ∃ r, Vault.Shown v.state r ∧ live r = true ∧ r.kind = kind ∧ payload r = some x := by
  obtain ⟨⟨i, y⟩, hmem, rfl⟩ := List.mem_map.mp h
  unfold Vault.list at hmem
  rw [List.mem_insertionSort, List.mem_filterMap] at hmem
  obtain ⟨r, hr, hp⟩ := hmem
  obtain ⟨p, hpayload, heq⟩ := Option.map_eq_some_iff.mp hp
  obtain ⟨-, rfl⟩ := Prod.mk.inj heq
  obtain ⟨hr, hsel⟩ := List.mem_filter.mp hr
  obtain ⟨⟨j, r'⟩, hjr, rfl⟩ := List.mem_map.mp ((ord.perm _).mem_iff.mp hr)
  rw [decide_eq_true_eq] at hsel
  exact ⟨r', ⟨j, Std.ExtTreeMap.mem_toList_iff_getElem?_eq_some.mp hjr⟩, hsel.1, hsel.2, hpayload⟩

theorem FieldOneLine.value {r : Record} {n : String} (h : FieldOneLine r n) {v : Value} {s : String}
    (hv : r.value n = some v) (hs : v.asString = some s) : OneLine s := by
  unfold Value.asString at hs
  split at hs
  · rename_i t
    obtain rfl := Option.some.inj hs
    obtain ⟨f, hf, ht⟩ := Option.map_eq_some_iff.mp hv
    exact h f t hf ht
  · cases hs

theorem FieldOneLine.option {r : Record} {n : String} (h : FieldOneLine r n) {o : Option String}
    (ho : Value.asOption Value.asString (r.value n) = some o) : ∀ s ∈ o.toList, OneLine s := by
  intro s hs
  obtain rfl : o = some s := by simpa using hs
  unfold Value.asOption at ho
  split at ho
  · cases ho
  · cases ho
  · rename_i v hnull hv
    obtain ⟨s', hs', heq⟩ := Option.map_eq_some_iff.mp ho
    obtain rfl := Option.some.inj heq
    exact h.value hv hs'

theorem Clean.host {r : Record} (h : Clean r) (hkind : r.kind = .host) {host : Host} (hp : r.host = some host) :
    ∀ s ∈ texts host, OneLine s := by
  unfold Record.host at hp
  simp only [Option.bind_eq_bind, Option.bind_eq_some_iff, Option.pure_def, Option.some.injEq] at hp
  obtain ⟨va, hva, a, ha, hn, hhn, p, -, u, hu, j, hj, i, hi, tags, -, rfl⟩ := hp
  have hline := h.1 (le_of_eq hkind)
  unfold texts
  simp only [List.forall_mem_cons, List.forall_mem_append]
  exact ⟨(hline "alias" (by decide)).value hva ha, ⟨⟨(hline "hostname" (by decide)).option hhn,
    (hline "user" (by decide)).option hu⟩, (hline "jump_host" (by decide)).option hj⟩,
    (hline "identity_file" (by decide)).option hi⟩

theorem mem_of_mem_splitOn {l part : List Char} {c x : Char} (hpart : part ∈ l.splitOn c) (hx : x ∈ part) : x ∈ l := by
  have hjoin : [c].intercalate (l.splitOn c) = l := List.intercalate_splitOn c
  obtain ⟨i, hi⟩ := List.mem_iff_getElem?.mp hpart
  have hmem : part ∈ (l.splitOn c).intersperse [c] :=
    List.mem_of_getElem? (List.getElem?_intersperse_two_mul.trans hi)
  rw [← hjoin]
  exact List.mem_flatten.mpr ⟨part, hmem, hx⟩

theorem oneLine_shown {f : PortForward} (h : OneLine f.spec) : ∀ s ∈ shown f, OneLine s := by
  have hparts : ∀ s ∈ specParts f.spec, OneLine s := by
    intro s hs hn
    obtain ⟨part, hpart, rfl⟩ := List.mem_map.mp hs
    rw [String.toList_ofList] at hn
    exact h (mem_of_mem_splitOn hpart hn)
  unfold shown
  split <;> simp_all

theorem Clean.portForward {r : Record} (h : Clean r) (hkind : r.kind = .portForward) {f : PortForward}
    (hp : r.portForward = some f) : ∀ s ∈ shown f, OneLine s := by
  unfold Record.portForward at hp
  simp only [Option.bind_eq_bind, Option.bind_eq_some_iff, Option.pure_def, Option.some.injEq] at hp
  obtain ⟨vn, -, name, -, vk, -, kind, -, vs, hvs, spec, hs, vh, -, host, -, rfl⟩ := hp
  exact oneLine_shown ((h.2 (le_of_eq hkind)).value hvs hs)

theorem mem_attached {forwards : List PortForward} {h : Host} {f : PortForward} (hf : f ∈ attached forwards h) :
    f ∈ forwards := by
  unfold attached at hf
  rw [List.mem_insertionSort] at hf
  exact (List.mem_filter.mp hf).1

/-- **No line from a value.** A device that only ever received records without newlines in the fields that
are written renders a file with the lines meant. -/
theorem lines_of_run (deviceName : String) (vaultId : Uuid) (vaultKey : Key) (recoveryPub : Bytes)
    (x : XKey) (ed : EdKey) (deviceId : Uuid) {actions : List Vault.Action} (hclean : ∀ a ∈ actions, a.Brings Clean)
    {v : Vault} (hv : ((Vault.created deviceName vaultId vaultKey recoveryPub x ed deviceId).after actions).vault = some v)
    (ord ord' : HashOrder) {out : String} (hout : render (v.hosts ord) (v.forwards ord') = some out) :
    lines out = fileLines (v.hosts ord) (v.forwards ord') ++ [""] := by
  have hstate : Vault.StateHolds Clean v.state :=
    (Vault.Site.after_holds (fun _ _ => Clean.merge) (fun _ => Clean.of_checked) deviceName vaultId vaultKey
      recoveryPub x ed deviceId hclean).vault v hv
  rw [lines_render_iff hout]
  intro h hh
  refine ⟨?_, fun f hf => ?_⟩
  · obtain ⟨r, hr, -, hkind, hp⟩ := mem_list hh
    exact (hstate r hr).host hkind hp
  · obtain ⟨r, hr, -, hkind, hp⟩ := mem_list (mem_attached hf)
    exact (hstate r hr).portForward hkind hp

/-! ## A member that writes its own lines -/

def addressed (address : String) : Payload :=
  ((∅ : Payload).insert "alias" (.str (.plain "web"))).insert "hostname" (.str (.plain address))

def hostAt (address : String) : Record :=
  { id := 20, kind := .host, fields := fieldsFromPayload (addressed address) ⟨1, 9⟩, deletedAt := none, clock := ⟨1, 9⟩
    deviceId := 9, modifiedAt := 0, shareId := nil }

def sharedKey : Key := .vault 1 0

/-- The entry of a host, as another member of the default share pushes it. -/
def entryOf (address : String) : Vault.Action :=
  .applyRemoteEntry (30, Crypto.sealBlob sharedKey (.record (hostAt address)) 30)

def reader : Vault.Site := Vault.created "laptop" 7 sharedKey (.ed (.recovery 1)) 0 (.device 0) 10

def anyOrder : HashOrder := ⟨id, .refl⟩

/-- The file that the reader writes after the entry, and the lines that it was to have. -/
def rendered (address : String) : Option (Option String × List String) :=
  (reader.after [entryOf address]).vault.map fun v =>
    (render (v.hosts anyOrder) (v.forwards anyOrder), fileLines (v.hosts anyOrder) (v.forwards anyOrder) ++ [""])

theorem lines_of_run_host : ∃ v out, (reader.after [entryOf "10.0.0.1"]).vault = some v ∧
    render (v.hosts anyOrder) (v.forwards anyOrder) = some out ∧
      lines out = fileLines (v.hosts anyOrder) (v.forwards anyOrder) ++ [""] := by
  have hclean : Clean (hostAt "10.0.0.1") := by
    refine Clean.of_checked (Or.inr ⟨addressed "10.0.0.1", by decide +kernel, fun n f hf => ?_⟩)
    change (fieldsFromPayload _ _)[n]? = some f at hf
    rw [fieldsFromPayload_get] at hf
    obtain ⟨value, hvalue, rfl⟩ := Option.map_eq_some_iff.mp hf
    exact hvalue
  have hbrings : ∀ a ∈ [entryOf "10.0.0.1"], a.Brings Clean := by
    intro a ha f hf k r hr
    obtain rfl := List.mem_singleton.mp ha
    obtain rfl := Vault.Action.applyRemoteEntry.inj hf
    simp only [Crypto.sealBlob, Bytes.sealed.injEq, Sealed.mk.injEq, Plain.record.injEq] at hr
    exact hr.2.2 ▸ hclean
  have hsome : ((rendered "10.0.0.1").bind (·.1)).isSome = true := by decide +kernel
  obtain ⟨out, hout⟩ := Option.isSome_iff_exists.mp hsome
  obtain ⟨p, hp, hout⟩ := Option.bind_eq_some_iff.mp hout
  obtain ⟨v, hv, rfl⟩ := Option.map_eq_some_iff.mp hp
  exact ⟨v, out, hv, hout, lines_of_run "laptop" 7 sharedKey (.ed (.recovery 1)) 0 (.device 0) 10 hbrings hv
    anyOrder anyOrder hout⟩

/-- A newline in an address gives the sender a line of its own, here a command for ssh to run. -/
theorem newline_adds_line : ¬ ∀ (actions : List Vault.Action) (v : Vault) (ord ord' : HashOrder) (out : String),
    (reader.after actions).vault = some v → render (v.hosts ord) (v.forwards ord') = some out →
      lines out = fileLines (v.hosts ord) (v.forwards ord') ++ [""] := by
  intro h
  have hevil : (rendered "10.0.0.1\nProxyCommand=evil").bind (·.1) =
      some (unlines (headerLines ++ ["", "Host web", "    HostName 10.0.0.1", "ProxyCommand=evil"])) := by
    decide +kernel
  obtain ⟨p, hp, hout⟩ := Option.bind_eq_some_iff.mp hevil
  obtain ⟨v, hv, rfl⟩ := Option.map_eq_some_iff.mp hp
  have hlines := h _ v anyOrder anyOrder _ hv hout
  have hmeant : (rendered "10.0.0.1\nProxyCommand=evil").map (·.2) ≠
      some (lines (unlines (headerLines ++ ["", "Host web", "    HostName 10.0.0.1", "ProxyCommand=evil"]))) := by
    decide +kernel
  apply hmeant
  rw [hp, Option.map_some, hlines]

end SshVault.SshConfig
