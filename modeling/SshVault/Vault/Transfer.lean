import SshVault.Vault.MapRuns
import SshVault.Readable

/-!
# Export and import (`Vault::export_json`, `Vault::import_json`)

The four kinds that are exported differ in their payload type, in the key of their list, and in the field that
names a record.
-/

open Lib

namespace SshVault

/-! ## Items -/

namespace PayloadType

variable (T : PayloadType)

/-- `serde_json::from_value` of an object with these members. -/
def ofObject (p : Payload) : Option T.Data :=
  T.read { id := nil, kind := T.kind, fields := fieldsFromPayload p ⟨0, nil⟩, deletedAt := none, clock := ⟨0, nil⟩
           deviceId := nil, modifiedAt := 0, shareId := nil }

/-- `serde_json::from_value`. A struct is read from an object by name, and from an array by position, where
members may be missing at the end if they have a default. -/
def ofValue : Value → Option T.Data
  | .obj members => T.ofObject (.ofList members)
  | .arr items =>
    if items.length ≤ T.members.length then T.ofObject (.ofList ((T.members.map (·.name)).zip items)) else none
  | _ => none

variable {T}

theorem ofObject_toPayload {x : T.Data} (hx : T.Valid x) : T.ofObject (T.toPayload x) = some x :=
  read_of_toPayload hx fun n => value_fieldsFromPayload (T.toPayload x) ⟨0, nil⟩ n

end PayloadType

/-- One `import_kind!`: the list of the export that holds a kind, and the member that names its records. -/
structure Exported where
  key : String
  type : PayloadType
  name : type.Data → String
  listed : type ∈ payloadTypes
  named : ∀ x, (type.toPayload x)[type.kind.nameField]? = some (.str (.plain (name x)))

namespace Exported

theorem toPayload_name {T : PayloadType} {m : Member T.Data} (hm : m ∈ T.members) (x : T.Data) :
    (T.toPayload x)[m.name]? = m.writes x := Member.serialize_get T.names hm

def hosts : Exported where
  key := "hosts"
  type := .host
  name := Host.hostAlias
  listed := by simp [payloadTypes]
  named x := toPayload_name (T := .host) List.mem_cons_self x

def snippets : Exported where
  key := "snippets"
  type := .snippet
  name := Snippet.name
  listed := by simp [payloadTypes]
  named x := toPayload_name (T := .snippet) List.mem_cons_self x

def forwards : Exported where
  key := "forwards"
  type := .portForward
  name := PortForward.name
  listed := by simp [payloadTypes]
  named x := toPayload_name (T := .portForward) List.mem_cons_self x

def keys : Exported where
  key := "keys"
  type := .keyMeta
  name := KeyMeta.name
  listed := by simp [payloadTypes]
  named x := toPayload_name (T := .keyMeta) List.mem_cons_self x

/-- In the order of `import_json`. -/
def all : List Exported := [hosts, snippets, forwards, keys]

/-- `json.get(key).and_then(|v| v.as_array()).unwrap_or(&Vec::new())`. -/
def items (e : Exported) : Value → List Value
  | .obj members => match members.lookup e.key with
    | some (.arr items) => items
    | _ => []
  | _ => []

end Exported

namespace Vault

/-! ## The two operations -/

/-- What one `add_in` of an import draws and reads from outside. -/
structure Draw where
  ord : HashOrder
  recordId : Uuid
  entryId : Uuid
  now : Nat

/-- The `add` of one item. -/
def addItem (v : Vault) (e : Exported) (x : e.type.Data) (draw : Draw) : Prog Disk (Except VaultError Uuid × Vault) :=
  v.addIn draw.ord e.type.kind e.type.kind.nameField (e.name x) (e.type.toPayload x) nil draw.recordId draw.entryId draw.now

/-- The loop of one `import_kind!`, with the counts so far. The message of serde is left out of the error. -/
def importItems (e : Exported) (draw : Nat → Draw) : List Value → Vault → Nat × Nat →
    Prog Disk (Except VaultError (Nat × Nat) × Vault)
  | [], v, counts => return (.ok counts, v)
  | item :: rest, v, (imported, skipped) =>
    match e.type.ofValue item with
    | none => return (.error (.corrupt ("import " ++ e.key)), v)
    | some x => do
      let (res, v) ← v.addItem e x (draw (imported + skipped))
      match res with
      | .ok _ => importItems e draw rest v (imported + 1, skipped)
      | .error (.duplicate _ _) => importItems e draw rest v (imported, skipped + 1)
      | .error err => return (.error err, v)

def importKinds (draw : Nat → Draw) (json : Value) : List Exported → Vault → Nat × Nat →
    Prog Disk (Except VaultError (Nat × Nat) × Vault)
  | [], v, counts => return (.ok counts, v)
  | e :: rest, v, counts => do
    let (res, v) ← importItems e draw (e.items json) v counts
    match res with
    | .ok counts => importKinds draw json rest v counts
    | .error err => return (.error err, v)

/-- `Vault::import_json`: how many items were imported, and how many were skipped. -/
def importJson (v : Vault) (json : Value) (draw : Nat → Draw) : Prog Disk (Except VaultError (Nat × Nat) × Vault) :=
  importKinds draw json Exported.all v (0, 0)

/-- The list of one kind in the export. -/
def exportItems (v : Vault) (ord : HashOrder) (e : Exported) : List Value :=
  (v.list ord e.type.kind e.type.read).map fun p => .obj (e.type.toPayload p.2).toList

/-- `Vault::export_json`. Each list walks the hash map on its own. -/
def exportJson (v : Vault) (ord : Exported → HashOrder) : Value :=
  .obj (("version", .num 1) :: Exported.all.map fun e => (e.key, .arr (v.exportItems (ord e) e)))

end Vault

end SshVault
