import SshVault.Forwards

/-!
# Typed payloads (`src/record.rs`)

A payload type is spelled member by member. What serde skips is not in the payload at all, and is read
back from its absence.
-/

namespace SshVault

/-! ## The other payloads -/

/-- A reusable shell command template. -/
structure Snippet where
  name : String
  command : String
  description : Option String
  tags : List String
  deriving DecidableEq

structure KeyMeta where
  name : String
  publicKey : String
  fingerprint : Option String
  hosts : List String
  deriving DecidableEq

structure PrivateKey where
  name : String
  keyPem : String
  publicKey : Option String
  deriving DecidableEq

/-- The human name of a share, and its id in base64. -/
structure ShareName where
  name : String
  shareIdB64 : Text Uuid
  deriving DecidableEq

/-- A string, which may be the base64 of a share id. -/
def Value.asText : Value → Option (Text Uuid)
  | .str t => some t
  | _ => none

namespace Record

/-- `payload::<Snippet>`. -/
def snippet (r : Record) : Option Snippet := do
  let name ← (← r.value "name").asString
  let command ← (← r.value "command").asString
  let description ← Value.asOption Value.asString (r.value "description")
  let tags ← Value.asStrings (r.value "tags")
  return { name, command, description, tags }

/-- `payload::<KeyMeta>`. -/
def keyMeta (r : Record) : Option KeyMeta := do
  let name ← (← r.value "name").asString
  let publicKey ← (← r.value "public_key").asString
  let fingerprint ← Value.asOption Value.asString (r.value "fingerprint")
  let hosts ← Value.asStrings (r.value "hosts")
  return { name, publicKey, fingerprint, hosts }

/-- `payload::<PrivateKey>`. -/
def privateKey (r : Record) : Option PrivateKey := do
  let name ← (← r.value "name").asString
  let keyPem ← (← r.value "key_pem").asString
  let publicKey ← Value.asOption Value.asString (r.value "public_key")
  return { name, keyPem, publicKey }

/-- `payload::<ShareName>`. -/
def shareName (r : Record) : Option ShareName := do
  let name ← (← r.value "name").asString
  let shareIdB64 ← (← r.value "share_id_b64").asText
  return { name, shareIdB64 }

end Record

/-! ## Values -/

/-- How a value of `β` is spelled where it is present. -/
structure Spelling (β : Type) where
  Valid : β → Prop
  read : Value → Option β
  write : β → Value
  read_write : ∀ b, Valid b → read (write b) = some b
  not_null : ∀ b, write b ≠ .null

namespace Spelling

def string : Spelling String where
  Valid _ := True
  read := Value.asString
  write s := .str (.plain s)
  read_write _ _ := rfl
  not_null _ h := nomatch h

def text : Spelling (Text Uuid) where
  Valid _ := True
  read := Value.asText
  write t := .str t
  read_write _ _ := rfl
  not_null _ h := nomatch h

def u16 : Spelling Nat where
  Valid n := n < 65536
  read := Value.asU16
  write n := .num n
  read_write n h := by
    change (if 0 ≤ (n : Int) ∧ (n : Int) < 65536 then some (n : Int).toNat else none) = some n
    rw [if_pos ⟨Int.natCast_nonneg n, by exact_mod_cast h⟩, Int.toNat_natCast]
  not_null _ h := nomatch h

def forwardKind : Spelling ForwardKind where
  Valid _ := True
  read := Value.asForwardKind
  write k := .str (.plain k.tag)
  read_write k _ := by cases k <;> rfl
  not_null _ h := nomatch h

end Spelling

/-! ## Members -/

/-- What a member of a payload writes, if anything, and what it reads. -/
structure Codec (β : Type) where
  Valid : β → Prop
  read : Option Value → Option β
  write : β → Option Value
  read_write : ∀ b, Valid b → read (write b) = some b

namespace Codec

variable {β : Type}

def required (s : Spelling β) : Codec β where
  Valid := s.Valid
  read o := o.bind s.read
  write b := some (s.write b)
  read_write b h := s.read_write b h

/-- `#[serde(default, skip_serializing_if = "Option::is_none")]`. -/
def optional (s : Spelling β) : Codec (Option β) where
  Valid o := ∀ b, o = some b → s.Valid b
  read := Value.asOption s.read
  write o := o.map s.write
  read_write o h := by
    cases o with
    | none => rfl
    | some b =>
      have hread := s.read_write b (h b rfl)
      have hnull := s.not_null b
      rw [Option.map_some]
      generalize s.write b = value at hread hnull
      unfold Value.asOption
      split
      · rename_i heq
        cases heq
      · exact absurd (Option.some.inj ‹_›) hnull
      · rename_i heq
        rw [← Option.some.inj heq, hread]
        rfl

/-- `#[serde(default, skip_serializing_if = "Vec::is_empty")]`. -/
def strings : Codec (List String) where
  Valid _ := True
  read := Value.asStrings
  write
    | [] => none
    | items => some (.arr (items.map fun s => .str (.plain s)))
  read_write items _ := by
    cases items with
    | nil => rfl
    | cons s items =>
      change List.mapM Value.asString ((s :: items).map fun s => .str (.plain s)) = some (s :: items)
      induction s :: items with
      | nil => rfl
      | cons s items ih =>
        rw [List.map_cons, List.mapM_cons, ih]
        rfl

variable {c : Codec β} {b : β} {o : Option Value}

theorem read_over (hb : c.Valid b) :
    c.read ((c.write b).or o) = some b ↔ (c.write b = none → c.read o = some b) := by
  have hread := c.read_write b hb
  cases hw : c.write b with
  | none => simp
  | some value =>
    rw [hw] at hread
    simp [hread]

end Codec

/-- A member of the payload type `α`, and its name in JSON. -/
structure Member (α : Type) where
  β : Type
  codec : Codec β
  name : String
  get : α → β

namespace Member

variable {α : Type}

def Reads (m : Member α) (r : Record) (x : α) : Prop := m.codec.read (r.value m.name) = some (m.get x)

def writes (m : Member α) (x : α) : Option Value := m.codec.write (m.get x)

/-- The struct as a JSON object: the members that are written, under their names. -/
def serialize (x : α) : List (Member α) → Payload
  | [] => ∅
  | m :: rest =>
    match m.writes x with
    | some value => (serialize x rest).insert m.name value
    | none => serialize x rest

theorem serialize_absent {x : α} {members : List (Member α)} {n : String} (h : n ∉ members.map (·.name)) :
    (serialize x members)[n]? = none := by
  induction members with
  | nil => exact Std.ExtTreeMap.getElem?_empty
  | cons m rest ih =>
    obtain ⟨hne, hrest⟩ : n ≠ m.name ∧ n ∉ rest.map (·.name) := by simpa using h
    unfold serialize
    split
    · rw [Std.ExtTreeMap.getElem?_insert, if_neg (by simpa using hne.symm), ih hrest]
    · exact ih hrest

theorem serialize_get {x : α} {members : List (Member α)} (h : (members.map (·.name)).Nodup) {m : Member α}
    (hm : m ∈ members) : (serialize x members)[m.name]? = m.writes x := by
  induction members with
  | nil => cases hm
  | cons m' rest ih =>
    obtain ⟨hnew, hnodup⟩ := List.nodup_cons.mp h
    unfold serialize
    rcases List.mem_cons.mp hm with rfl | hm
    · split
      · rename_i value hvalue
        rw [Std.ExtTreeMap.getElem?_insert_self, hvalue]
      · rename_i hnone
        rw [serialize_absent hnew, hnone]
    · have hne : m'.name ≠ m.name := fun heq => hnew (List.mem_map.mpr ⟨m, hm, heq.symm⟩)
      split
      · rw [Std.ExtTreeMap.getElem?_insert, if_neg (by simpa using hne), ih hnodup hm]
      · exact ih hnodup hm

end Member

/-! ## Payload types -/

/-- A payload type, with the kind that its records have. -/
structure PayloadType where
  Data : Type
  kind : Kind
  members : List (Member Data)
  /-- `Record::payload` at this type. -/
  read : Record → Option Data
  live : kind ≠ .tombstone
  names : (members.map (·.name)).Nodup
  reads_iff : ∀ {r x}, read r = some x ↔ ∀ m ∈ members, m.Reads r x
  readable : ∀ {r}, (∀ m ∈ members, ∃ b, m.codec.read (r.value m.name) = some b) → ∃ x, read r = some x

namespace PayloadType

variable (T : PayloadType)

/-- `serde_json::to_value`. -/
def toPayload (x : T.Data) : Payload := Member.serialize x T.members

/-- `serde_json::from_value`, which reads the members and nothing else. -/
def ofPayload (p : Payload) : Option T.Data := T.read
  { id := nil, kind := T.kind, fields := fieldsFromPayload p ⟨0, nil⟩, deletedAt := none, clock := ⟨0, nil⟩, deviceId := nil
    modifiedAt := 0, shareId := nil }

/-- A value of the type as Rust has it: every number is in the range of its type. -/
def Valid (x : T.Data) : Prop := ∀ m ∈ T.members, m.codec.Valid (m.get x)

variable {T} {x : T.Data} {r : Record}

theorem read_of_toPayload (hx : T.Valid x) (h : ∀ n, r.value n = (T.toPayload x)[n]?) : T.read r = some x := by
  refine T.reads_iff.mpr fun m hm => ?_
  unfold Member.Reads
  rw [h, toPayload, Member.serialize_get T.names hm]
  exact m.codec.read_write _ (hx m hm)

theorem read_eq_ofPayload {p : Payload} (h : ∀ n, p[n]? = r.value n) : T.read r = T.ofPayload p := by
  refine Option.ext fun x => ?_
  unfold ofPayload
  rw [T.reads_iff, T.reads_iff]
  refine forall₂_congr fun m _ => ?_
  unfold Member.Reads
  rw [← h, Record.value, value_fieldsFromPayload]

theorem ofPayload_isSome {p : Payload} (h : ∀ m ∈ T.members, ∃ b, m.codec.read p[m.name]? = some b) :
    (T.ofPayload p).isSome = true := by
  refine Option.isSome_iff_exists.mpr (T.readable fun m hm => ?_)
  rw [Record.value, value_fieldsFromPayload]
  exact h m hm

theorem checkValue_of_writes (h : validatePayload T.kind (T.toPayload x) = .ok ()) (hkind : T.kind ≠ .privateKey)
    {m : Member T.Data} (hm : m ∈ T.members) {value : Value} (hvalue : m.writes x = some value) :
    checkValue T.kind value = .ok () := by
  unfold validatePayload at h
  rw [if_neg hkind] at h
  refine SshConfig.checkFields_ok h (m.name, value) (Std.ExtTreeMap.mem_toList_iff_getElem?_eq_some.mpr ?_)
  rw [toPayload, Member.serialize_get T.names hm, hvalue]

/-! ### The six of them -/

theorem host_eq_some_iff {h : Host} :
    r.host = some h ↔
      (r.value "alias").bind Value.asString = some h.hostAlias ∧
      Value.asOption Value.asString (r.value "hostname") = some h.hostname ∧
      Value.asOption Value.asU16 (r.value "port") = some h.port ∧
      Value.asOption Value.asString (r.value "user") = some h.user ∧
      Value.asOption Value.asString (r.value "jump_host") = some h.jumpHost ∧
      Value.asOption Value.asString (r.value "identity_file") = some h.identityFile ∧
      Value.asStrings (r.value "tags") = some h.tags := by
  unfold Record.host
  simp only [Option.bind_eq_bind, Option.bind_eq_some_iff, Option.pure_def, Option.some.injEq]
  constructor
  · rintro ⟨va, hva, a, ha, n, hn, p, hp, u, hu, j, hj, i, hi, ts, hts, rfl⟩
    exact ⟨⟨va, hva, ha⟩, hn, hp, hu, hj, hi, hts⟩
  · rintro ⟨⟨va, hva, ha⟩, hn, hp, hu, hj, hi, hts⟩
    exact ⟨va, hva, _, ha, _, hn, _, hp, _, hu, _, hj, _, hi, _, hts, rfl⟩

theorem snippet_eq_some_iff {s : Snippet} :
    r.snippet = some s ↔
      (r.value "name").bind Value.asString = some s.name ∧ (r.value "command").bind Value.asString = some s.command ∧
      Value.asOption Value.asString (r.value "description") = some s.description ∧
      Value.asStrings (r.value "tags") = some s.tags := by
  unfold Record.snippet
  simp only [Option.bind_eq_bind, Option.bind_eq_some_iff, Option.pure_def, Option.some.injEq]
  constructor
  · rintro ⟨vn, hvn, n, hn, vc, hvc, c, hc, d, hd, ts, hts, rfl⟩
    exact ⟨⟨vn, hvn, hn⟩, ⟨vc, hvc, hc⟩, hd, hts⟩
  · rintro ⟨⟨vn, hvn, hn⟩, ⟨vc, hvc, hc⟩, hd, hts⟩
    exact ⟨vn, hvn, _, hn, vc, hvc, _, hc, _, hd, _, hts, rfl⟩

theorem keyMeta_eq_some_iff {k : KeyMeta} :
    r.keyMeta = some k ↔
      (r.value "name").bind Value.asString = some k.name ∧ (r.value "public_key").bind Value.asString = some k.publicKey ∧
      Value.asOption Value.asString (r.value "fingerprint") = some k.fingerprint ∧
      Value.asStrings (r.value "hosts") = some k.hosts := by
  unfold Record.keyMeta
  simp only [Option.bind_eq_bind, Option.bind_eq_some_iff, Option.pure_def, Option.some.injEq]
  constructor
  · rintro ⟨vn, hvn, n, hn, vp, hvp, p, hp, f, hf, hs, hhs, rfl⟩
    exact ⟨⟨vn, hvn, hn⟩, ⟨vp, hvp, hp⟩, hf, hhs⟩
  · rintro ⟨⟨vn, hvn, hn⟩, ⟨vp, hvp, hp⟩, hf, hhs⟩
    exact ⟨vn, hvn, _, hn, vp, hvp, _, hp, _, hf, _, hhs, rfl⟩

theorem privateKey_eq_some_iff {k : PrivateKey} :
    r.privateKey = some k ↔
      (r.value "name").bind Value.asString = some k.name ∧ (r.value "key_pem").bind Value.asString = some k.keyPem ∧
      Value.asOption Value.asString (r.value "public_key") = some k.publicKey := by
  unfold Record.privateKey
  simp only [Option.bind_eq_bind, Option.bind_eq_some_iff, Option.pure_def, Option.some.injEq]
  constructor
  · rintro ⟨vn, hvn, n, hn, vp, hvp, p, hp, k, hk, rfl⟩
    exact ⟨⟨vn, hvn, hn⟩, ⟨vp, hvp, hp⟩, hk⟩
  · rintro ⟨⟨vn, hvn, hn⟩, ⟨vp, hvp, hp⟩, hk⟩
    exact ⟨vn, hvn, _, hn, vp, hvp, _, hp, _, hk, rfl⟩

theorem shareName_eq_some_iff {s : ShareName} :
    r.shareName = some s ↔
      (r.value "name").bind Value.asString = some s.name ∧
      (r.value "share_id_b64").bind Value.asText = some s.shareIdB64 := by
  unfold Record.shareName
  simp only [Option.bind_eq_bind, Option.bind_eq_some_iff, Option.pure_def, Option.some.injEq]
  constructor
  · rintro ⟨vn, hvn, n, hn, vt, hvt, t, ht, rfl⟩
    exact ⟨⟨vn, hvn, hn⟩, vt, hvt, ht⟩
  · rintro ⟨⟨vn, hvn, hn⟩, vt, hvt, ht⟩
    exact ⟨vn, hvn, _, hn, vt, hvt, _, ht, rfl⟩

def host : PayloadType where
  Data := Host
  kind := .host
  members :=
    [⟨_, .required .string, "alias", (·.hostAlias)⟩, ⟨_, .optional .string, "hostname", (·.hostname)⟩,
      ⟨_, .optional .u16, "port", (·.port)⟩, ⟨_, .optional .string, "user", (·.user)⟩,
      ⟨_, .optional .string, "jump_host", (·.jumpHost)⟩, ⟨_, .optional .string, "identity_file", (·.identityFile)⟩,
      ⟨_, .strings, "tags", (·.tags)⟩]
  read := Record.host
  live := by decide
  names := by decide
  reads_iff := by
    intro r x
    simp only [List.forall_mem_cons, List.not_mem_nil, false_imp_iff, implies_true, and_true]
    exact host_eq_some_iff
  readable := by
    intro r h
    simp only [List.forall_mem_cons] at h
    obtain ⟨⟨a, ha⟩, ⟨n, hn⟩, ⟨p, hp⟩, ⟨u, hu⟩, ⟨j, hj⟩, ⟨i, hi⟩, ⟨ts, hts⟩, -⟩ := h
    exact ⟨⟨a, n, p, u, j, i, ts⟩, host_eq_some_iff.mpr ⟨ha, hn, hp, hu, hj, hi, hts⟩⟩

def snippet : PayloadType where
  Data := Snippet
  kind := .snippet
  members :=
    [⟨_, .required .string, "name", (·.name)⟩, ⟨_, .required .string, "command", (·.command)⟩,
      ⟨_, .optional .string, "description", (·.description)⟩, ⟨_, .strings, "tags", (·.tags)⟩]
  read := Record.snippet
  live := by decide
  names := by decide
  reads_iff := by
    intro r x
    simp only [List.forall_mem_cons, List.not_mem_nil, false_imp_iff, implies_true, and_true]
    exact snippet_eq_some_iff
  readable := by
    intro r h
    simp only [List.forall_mem_cons] at h
    obtain ⟨⟨n, hn⟩, ⟨c, hc⟩, ⟨d, hd⟩, ⟨ts, hts⟩, -⟩ := h
    exact ⟨⟨n, c, d, ts⟩, snippet_eq_some_iff.mpr ⟨hn, hc, hd, hts⟩⟩

def portForward : PayloadType where
  Data := PortForward
  kind := .portForward
  members :=
    [⟨_, .required .string, "name", (·.name)⟩, ⟨_, .required .forwardKind, "kind", (·.kind)⟩,
      ⟨_, .required .string, "spec", (·.spec)⟩, ⟨_, .required .string, "host", (·.host)⟩]
  read := Record.portForward
  live := by decide
  names := by decide
  reads_iff := by
    intro r x
    simp only [List.forall_mem_cons, List.not_mem_nil, false_imp_iff, implies_true, and_true]
    exact Record.portForward_eq_some_iff.trans and_assoc
  readable := by
    intro r h
    simp only [List.forall_mem_cons] at h
    obtain ⟨⟨n, hn⟩, ⟨k, hk⟩, ⟨s, hs⟩, ⟨t, ht⟩, -⟩ := h
    exact ⟨⟨n, k, s, t⟩, Record.portForward_eq_some_iff.mpr ⟨⟨hn, hk⟩, hs, ht⟩⟩

def keyMeta : PayloadType where
  Data := KeyMeta
  kind := .keyMeta
  members :=
    [⟨_, .required .string, "name", (·.name)⟩, ⟨_, .required .string, "public_key", (·.publicKey)⟩,
      ⟨_, .optional .string, "fingerprint", (·.fingerprint)⟩, ⟨_, .strings, "hosts", (·.hosts)⟩]
  read := Record.keyMeta
  live := by decide
  names := by decide
  reads_iff := by
    intro r x
    simp only [List.forall_mem_cons, List.not_mem_nil, false_imp_iff, implies_true, and_true]
    exact keyMeta_eq_some_iff
  readable := by
    intro r h
    simp only [List.forall_mem_cons] at h
    obtain ⟨⟨n, hn⟩, ⟨p, hp⟩, ⟨f, hf⟩, ⟨hs, hhs⟩, -⟩ := h
    exact ⟨⟨n, p, f, hs⟩, keyMeta_eq_some_iff.mpr ⟨hn, hp, hf, hhs⟩⟩

def privateKey : PayloadType where
  Data := PrivateKey
  kind := .privateKey
  members :=
    [⟨_, .required .string, "name", (·.name)⟩, ⟨_, .required .string, "key_pem", (·.keyPem)⟩,
      ⟨_, .optional .string, "public_key", (·.publicKey)⟩]
  read := Record.privateKey
  live := by decide
  names := by decide
  reads_iff := by
    intro r x
    simp only [List.forall_mem_cons, List.not_mem_nil, false_imp_iff, implies_true, and_true]
    exact privateKey_eq_some_iff
  readable := by
    intro r h
    simp only [List.forall_mem_cons] at h
    obtain ⟨⟨n, hn⟩, ⟨p, hp⟩, ⟨k, hk⟩, -⟩ := h
    exact ⟨⟨n, p, k⟩, privateKey_eq_some_iff.mpr ⟨hn, hp, hk⟩⟩

def shareName : PayloadType where
  Data := ShareName
  kind := .shareName
  members :=
    [⟨_, .required .string, "name", (·.name)⟩, ⟨_, .required .text, "share_id_b64", (·.shareIdB64)⟩]
  read := Record.shareName
  live := by decide
  names := by decide
  reads_iff := by
    intro r x
    simp only [List.forall_mem_cons, List.not_mem_nil, false_imp_iff, implies_true, and_true]
    exact shareName_eq_some_iff
  readable := by
    intro r h
    simp only [List.forall_mem_cons] at h
    obtain ⟨⟨n, hn⟩, ⟨t, ht⟩, -⟩ := h
    exact ⟨⟨n, t⟩, shareName_eq_some_iff.mpr ⟨hn, ht⟩⟩

end PayloadType

def payloadTypes : List PayloadType :=
  [.host, .snippet, .portForward, .keyMeta, .privateKey, .shareName]

end SshVault
