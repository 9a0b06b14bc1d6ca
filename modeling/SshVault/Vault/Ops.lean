import SshVault.Vault.Keyring
import SshVault.Merge
import SshVault.Lib.Prog

/-!
# Local vault storage (`src/vault.rs`)

A vault directory is a `Disk`, an open vault a `Vault`. Every operation is a program whose
steps are the file reads and writes of the source, so that it can be stopped between two
of them. What the source draws or reads from outside is an argument: ids, random keys, the
time, and the order in which a hash map lists its values.
-/

open Lib

namespace SshVault

/-! ## Files and memory -/

/-- `meta.json`. -/
structure Meta where
  vaultId : Uuid
  deviceId : Uuid
  deviceName : String
  x25519Pub : XKey
  ed25519Pub : EdKey
  recoveryPub : Bytes
  lamport : U64
  relayUrl : Option String
  syncCursor : Nat
  deriving DecidableEq

/-- `snapshot.bin`: the fold of the first `covered` frames, and the keys it was made with. -/
structure Snapshot where
  covered : Nat
  shares : List (Uuid × Nat)
  records : List Record

/-- A log frame: entry id and sealed blob. -/
abbrev Frame := Uuid × Bytes

structure Disk where
  metadata : Meta
  keyring : Keyring
  log : List Frame
  snapshot : Option Snapshot

structure Vault where
  metadata : Meta
  keyring : Keyring
  state : State

def compactThreshold : Nat := 10000

/-- The order in which `HashMap::values` happens to list the records. -/
structure HashOrder where
  order : List Record → List Record
  perm : ∀ l, (order l).Perm l

namespace Disk

def readMeta : Prog Disk Meta := .atom fun d => (d.metadata, d)
def writeMeta (m : Meta) : Prog Disk Unit := .atom fun d => ((), { d with metadata := m })
def readKeyring : Prog Disk Keyring := .atom fun d => (d.keyring, d)
def writeKeyring (kr : Keyring) : Prog Disk Unit := .atom fun d => ((), { d with keyring := kr })
def readLog : Prog Disk (List Frame) := .atom fun d => (d.log, d)
def writeFrame (f : Frame) : Prog Disk Unit := .atom fun d => ((), { d with log := d.log ++ [f] })
def readSnapshot : Prog Disk (Option Snapshot) := .atom fun d => (d.snapshot, d)
def writeSnapshot (s : Snapshot) : Prog Disk Unit := .atom fun d => ((), { d with snapshot := some s })

end Disk

/-! ## Payload checks -/

def kindStr : Kind → String
  | .host => "host"
  | .snippet => "snippet"
  | .portForward => "port-forward"
  | .keyMeta => "key"
  | .privateKey => "private-key"
  | .shareName => "share"
  | .tombstone => "record"

def checkString (kind : Kind) (s : String) : Except VaultError Unit :=
  if "PRIVATE KEY".toList <:+: s.toList then
    .error (.privateKeyMaterial ("a " ++ kindStr kind ++ " field"))
  else if '\n' ∈ s.toList ∨ '\r' ∈ s.toList then
    .error (.invalidField "value" "newlines are not allowed")
  else if kind ≠ .snippet ∧ '"' ∈ s.toList then
    .error (.invalidField "value" "double quotes are not allowed")
  else .ok ()

-- The source keeps a stack of values to check. What is pushed last is popped first.
mutual

def checkValue (kind : Kind) : Value → Except VaultError Unit
  | .str (.plain s) => checkString kind s
  | .arr items => checkItems kind items
  | .obj fields => checkFields kind fields
  | _ => .ok ()

def checkItems (kind : Kind) : List Value → Except VaultError Unit
  | [] => .ok ()
  | v :: rest => do checkItems kind rest; checkValue kind v

def checkFields (kind : Kind) : List (String × Value) → Except VaultError Unit
  | [] => .ok ()
  | (_, v) :: rest => do checkFields kind rest; checkValue kind v

end

def validatePayload (kind : Kind) (payload : Payload) : Except VaultError Unit :=
  if kind = .privateKey then .ok () else checkFields kind payload.toList

namespace Vault

/-! ## Reading -/

def matchesName (kind : Kind) (nameField name : String) (r : Record) : Bool :=
  live r && r.kind = kind && (r.fields[nameField]?.map fun f => decide (f.value = .str (.plain name))) = some true

/-- A live record of `kind` whose `nameField` equals `name`. -/
def find (v : Vault) (ord : HashOrder) (kind : Kind) (nameField name : String) : Option Record :=
  (ord.order (v.state.toList.map (·.2))).find? (matchesName kind nameField name)

def epoch (v : Vault) : Nat := v.keyring.shareEpoch nil

def vaultKeyList (v : Vault) : KeyBytes := v.keyring.shareKeyList nil

/-! ## Clocks -/

/-- Folds the counters of the file into the ones in memory. -/
def absorbDiskMeta (v : Vault) : Prog Disk Vault := do
  let disk ← Disk.readMeta
  return { v with metadata := { v.metadata with
    lamport := max v.metadata.lamport disk.lamport
    syncCursor := max v.metadata.syncCursor disk.syncCursor } }

/-- The next lamport clock, persisted before use. -/
def nextClock (v : Vault) : Prog Disk (Clock × Vault) := do
  let v ← v.absorbDiskMeta
  let v : Vault := { v with metadata := { v.metadata with lamport := v.metadata.lamport + 1 } }
  Disk.writeMeta v.metadata
  return (⟨v.metadata.lamport, v.metadata.deviceId⟩, v)

/-! ## Writing records -/

/-- Seals a record under its share's current key and appends it to the log. -/
def append (v : Vault) (record : Record) (entryId : Uuid) : Prog Disk (Except VaultError Unit × Vault) :=
  match v.keyring.currentFor record.shareId with
  | none => return (.error (.corrupt "sealing under a share not held"), v)
  | some key => do
    Disk.writeFrame (entryId, Crypto.sealBlob key (.record record) entryId)
    return (.ok (), { v with state := mergeInto v.state record })

def addIn (v : Vault) (ord : HashOrder) (kind : Kind) (nameField name : String) (payload : Payload)
    (share recordId entryId : Uuid) (now : Nat) : Prog Disk (Except VaultError Uuid × Vault) :=
  match validatePayload kind payload with
  | .error e => return (.error e, v)
  | .ok () =>
    if ¬ v.keyring.hasShare share then
      return (.error (.corrupt "cannot add to a share this device is not a member of"), v)
    else if (v.find ord kind nameField name).isSome then
      return (.error (.duplicate (kindStr kind) name), v)
    else do
      let (clock, v) ← v.nextClock
      let record : Record :=
        { id := recordId, kind, fields := fieldsFromPayload payload clock, deletedAt := none, clock
          deviceId := v.metadata.deviceId, modifiedAt := now, shareId := share }
      let (res, v) ← v.append record entryId
      return (res.map fun _ => recordId, v)

/-- A field keeps its old clock when its value did not change. -/
def editFields (payload : Payload) (old : FieldMap) (clock : Clock) : FieldMap :=
  (fieldsFromPayload payload clock).map fun k f =>
    match old[k]? with
    | some prev => if prev.value = f.value then { f with clock := prev.clock } else f
    | none => f

def edit (v : Vault) (ord : HashOrder) (kind : Kind) (nameField name : String) (payload : Payload)
    (entryId : Uuid) (now : Nat) : Prog Disk (Except VaultError Unit × Vault) :=
  match validatePayload kind payload with
  | .error e => return (.error e, v)
  | .ok () => match v.find ord kind nameField name with
    | none => return (.error (.noSuchRecord (kindStr kind) name), v)
    | some old => do
      let (clock, v) ← v.nextClock
      let record : Record :=
        { id := old.id, kind, fields := editFields payload old.fields clock, deletedAt := old.deletedAt, clock
          deviceId := v.metadata.deviceId, modifiedAt := now, shareId := old.shareId }
      v.append record entryId

def remove (v : Vault) (ord : HashOrder) (kind : Kind) (nameField name : String)
    (entryId : Uuid) (now : Nat) : Prog Disk (Except VaultError Unit × Vault) :=
  match v.find ord kind nameField name with
  | none => return (.error (.noSuchRecord (kindStr kind) name), v)
  | some old => do
    let (clock, v) ← v.nextClock
    let tomb : Record :=
      { id := old.id, kind := .tombstone, fields := ∅, deletedAt := some clock, clock
        deviceId := v.metadata.deviceId, modifiedAt := now, shareId := old.shareId }
    v.append tomb entryId

/-! ## Replaying the log -/

/-- The records of the frames that open, in log order. -/
def openFrames (kr : Keyring) : List Frame → Except VaultError (List Record)
  | [] => .ok []
  | (id, blob) :: rest => do
    let rec? ← kr.openEntry id blob
    let recs ← openFrames kr rest
    return rec?.toList ++ recs

def foldFromSnapshot (v : Vault) (frames : List Frame) (snapshot : Option Snapshot) :
    Except VaultError (State × Nat) := do
  let (state, start) : State × Nat := match snapshot with
    | some s =>
      if s.covered ≤ frames.length ∧ sameEpochSet s.shares v.keyring.heldShareEpochs then
        (s.records.foldl (fun m r => m.insert r.id r) ∅, s.covered)
      else (∅, 0)
    | none => (∅, 0)
  let recs ← openFrames v.keyring (frames.drop start)
  return (recs.foldl mergeInto state, start)

/-- Rebuilds the snapshot cache from the whole log. -/
def compact (v : Vault) : Prog Disk (Except VaultError Bool × Vault) := do
  let frames ← Disk.readLog
  match openFrames v.keyring frames with
  | .error e => return (.error e, v)
  | .ok records =>
    let state := mergeAll records
    if frames.length ≤ state.size then
      return (.ok false, { v with state })
    else
      Disk.writeSnapshot ⟨frames.length, v.keyring.heldShareEpochs, state.toList.map (·.2)⟩
      return (.ok true, { v with state })

def replayLog (v : Vault) : Prog Disk (Except VaultError Unit × Vault) := do
  let frames ← Disk.readLog
  let snapshot ← Disk.readSnapshot
  match v.foldFromSnapshot frames snapshot with
  | .error e => return (.error e, v)
  | .ok (state, covered) =>
    let v : Vault := { v with state }
    if frames.length - covered > compactThreshold ∧ frames.length > state.size then
      let (res, v) ← v.compact
      return (res.map fun _ => (), v)
    else return (.ok (), v)

/-- `Vault::open`, with the right passphrase. -/
def openVault : Prog Disk (Except VaultError Vault) := do
  let metadata ← Disk.readMeta
  let keyring ← Disk.readKeyring
  let (res, v) ← replayLog ⟨metadata, keyring.normalize, ∅⟩
  return res.map fun _ => v

def reload (v : Vault) : Prog Disk (Except VaultError Unit × Vault) := do
  let metadata ← Disk.readMeta
  replayLog { v with metadata }

/-! ## Sync surface -/

def applyRemoteEntry (v : Vault) (entryId : Uuid) (blob : Bytes) : Prog Disk (Except VaultError Unit × Vault) :=
  match v.keyring.openEntry entryId blob with
  | .error e => return (.error e, v)
  | .ok opened => do
    let v ← v.absorbDiskMeta
    Disk.writeFrame (entryId, blob)
    let v : Vault := match opened with
      | none => v
      | some rec =>
        { v with
          state := mergeInto v.state rec
          metadata := if rec.clock.lamport > v.metadata.lamport then { v.metadata with lamport := rec.clock.lamport } else v.metadata }
    Disk.writeMeta v.metadata
    return (.ok (), v)

/-- Frames tagged with their record's share, and with the nil share when they do not open. -/
def rawEntriesTagged (v : Vault) : Prog Disk (Except VaultError (List (Uuid × Bytes × Uuid))) := do
  let frames ← Disk.readLog
  return frames.mapM fun (id, blob) => do
    let opened ← v.keyring.openEntry id blob
    return (id, blob, (opened.map (·.shareId)).getD nil)

def setRelayUrl (v : Vault) (url : String) : Prog Disk Vault := do
  let v ← v.absorbDiskMeta
  let v : Vault := { v with metadata := { v.metadata with relayUrl := some url } }
  Disk.writeMeta v.metadata
  return v

def setSyncCursor (v : Vault) (cursor : Nat) : Prog Disk Vault := do
  let v ← v.absorbDiskMeta
  let v : Vault := { v with metadata := { v.metadata with syncCursor := max v.metadata.syncCursor cursor } }
  Disk.writeMeta v.metadata
  return v

def resetSyncCursor (v : Vault) : Prog Disk Vault := do
  let v ← v.absorbDiskMeta
  let v : Vault := { v with metadata := { v.metadata with syncCursor := 0 } }
  Disk.writeMeta v.metadata
  return v

/-! ## Keys -/

def storeKeyring (v : Vault) (kr : Keyring) : Prog Disk Vault := do
  Disk.writeKeyring kr
  return { v with keyring := kr }

/-- Installs or replaces a share's key-list. A list that is not longer is ignored. -/
def absorbShareKey (v : Vault) (share : Uuid) (list : KeyBytes) : Prog Disk (Except VaultError Unit × Vault) :=
  match splitKeyList list with
  | .error e => return (.error e, v)
  | .ok keys =>
    if v.keyring.hasShare share ∧ keys.length ≤ (v.keyring.keysOf share).length then return (.ok (), v)
    else do
      let v ← v.storeKeyring (v.keyring.setShareKeys share keys)
      return (.ok (), v)

def absorbVaultKeyList (v : Vault) (list : KeyBytes) : Prog Disk (Except VaultError Unit × Vault) :=
  v.absorbShareKey nil list

/-- Derives the next epoch's key of the default share from the recovery phrase. -/
def rotate (v : Vault) (phrase : Phrase) : Prog Disk (Except VaultError Nat × Vault) :=
  match Crypto.vaultKeyAtEpoch phrase (v.epoch + 1) with
  | .error e => return (.error (.crypto e), v)
  | .ok key => do
    let next := v.epoch + 1
    let v ← v.storeKeyring (v.keyring.pushShareKey nil key)
    return (.ok next, v)

def createShare (v : Vault) (id : Uuid) (n : Nat) : Prog Disk Vault :=
  v.storeKeyring (v.keyring.pushShareKey id (.random id (v.keyring.keysOf id).length n))

def rotateShare (v : Vault) (share : Uuid) (n : Nat) : Prog Disk (Except VaultError Nat × Vault) :=
  if ¬ v.keyring.hasShare share then return (.error (.corrupt "not a member of this share"), v)
  else do
    let v ← v.storeKeyring (v.keyring.pushShareKey share (.random share (v.keyring.keysOf share).length n))
    return (.ok (v.keyring.shareEpoch share), v)

/-- Replaces the provisional key of a device that just joined. -/
def setVaultKey (v : Vault) (list : KeyBytes) : Prog Disk (Except VaultError Unit × Vault) := do
  let frames ← Disk.readLog
  if ¬ frames.isEmpty then
    return (.error (.corrupt "refusing to swap vault key on a non-empty log"), v)
  else match splitKeyList list with
    | .error e => return (.error e, v)
    | .ok keys =>
      let v ← v.storeKeyring { v.keyring.setShareKeys nil keys with vaultKeys := [], vaultKey := none }
      return (.ok (), { v with state := ∅ })

/-- `Vault::create_with_keys` on an empty directory. -/
def createWithKeys (deviceName : String) (vaultId : Uuid) (vaultKey : Key) (recoveryPub : Bytes)
    (x : XKey) (ed : EdKey) (deviceId : Uuid) : Disk × Vault :=
  let metadata : Meta :=
    { vaultId, deviceId, deviceName, x25519Pub := x, ed25519Pub := ed, recoveryPub
      lamport := 0, relayUrl := none, syncCursor := 0 }
  let keyring : Keyring := { shares := [⟨nil, [vaultKey]⟩], x25519Secret := x, ed25519Secret := ed }
  (⟨metadata, keyring, [], none⟩, ⟨metadata, keyring, ∅⟩)

end Vault

end SshVault
