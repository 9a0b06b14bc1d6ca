import SshVault.Lib.Session
import SshVault.Relay.Bodies
import SshVault.Vault.Writes

/-!
# The sync client (`src/sync.rs`)

A client works on its device and asks the relay. The time in a request is read when the
request is sent, so a call has no time yet; and an answer may never come, although the relay
may have done what it was asked.
-/

open Lib

namespace SshVault

open Relay (ClientReq)

/-- `SyncError` and `EnrollError`. The second wraps the first without adding to its text. -/
inductive ClientError where
  | noRelay
  | http
  | rejected (status : Nat) (body : String)
  | vault (e : VaultError)
  | noSuchDevice (code : String)
  | ambiguousCode (code : String)
  deriving DecidableEq

/-! ## Calls -/

/-- Why a request is sent. The relay does not see it. -/
inductive Note where
  | plain
  /-- The device list that a rotation is wrapped for, and the device it shuts out. -/
  | rewrap (target : Wire)
  /-- A grant to the devices with these codes. -/
  | named (codes : List String)
  /-- The rotation of a share that shuts out this device. -/
  | removing (target : Wire)
  /-- The push of a round that has, or has not, gained a share. -/
  | healed (gained : Bool)
  deriving DecidableEq

inductive Outgoing where
  | post (vault : Wire) (key : EdKey) (r : ClientReq)
  | query (action : Action) (vault : Wire) (key : EdKey)
  | pull (vault : Wire) (key : EdKey) (since : Nat)
  | recover (req : RecoverReq)

structure Call where
  note : Note := .plain
  what : Outgoing

/-- A signed GET, `signed_get_url`. -/
def signedQuery (vault : Wire) (key : EdKey) (ts : Int64) (body : Body) : SignedQuery :=
  ⟨vault, .b64 (.ed key), .b64 ⟨key, .request ts body⟩, ts⟩

/-- The request, signed at time `ts`. -/
def Outgoing.request (ts : Int64) : Outgoing → Request
  | .post vault key r => .post r.endpoint (envelope vault key ts (.json r.toJson))
  | .query .shares vault key => .shares (signedQuery vault key ts (.query .shares vault))
  | .query .devices vault key => .devices (signedQuery vault key ts (.query .devices vault))
  | .query .wrapped vault key => .wrapped (signedQuery vault key ts (.query .wrapped vault))
  | .pull vault key since => .pull ⟨vault, .b64 (.ed key), .b64 ⟨key, .request ts (.pull since)⟩, since, ts⟩
  | .recover req => .recover req

/-- Nothing, or what the relay answered. -/
abbrev Answer := Option (Except HttpError Reply)

abbrev Op (α : Type) := Client Device Call Answer ClientError α

namespace Device

def vaultId (d : Device) : Wire := .b64 (.uuid d.vault.metadata.vaultId)

/-- `ed25519_pub`, and the key that signs. -/
def key (d : Device) : EdKey := d.vault.keyring.ed25519Secret

end Device

namespace Sync

/-! ## Requests -/

def parse : Answer → Except ClientError Reply
  | none => .error .http
  | some (.error e) => .error (.rejected e.status e.msg)
  | some (.ok reply) => .ok reply

def bad (what : String) : ClientError := .vault (.corrupt ("relay sent malformed " ++ what))

/-- One operation of the open vault. -/
def onVault {α : Type} (op : Vault → Prog Disk (Except VaultError α × Vault)) : Op α :=
  Client.onState fun d =>
    let ((res, v), disk) := (op d.vault).run d.disk
    (res.mapError .vault, ⟨disk, v⟩)

/-- An operation that cannot fail. -/
def updateVault (op : Vault → Prog Disk Vault) : Op Unit :=
  Client.onState fun d =>
    let (v, disk) := (op d.vault).run d.disk
    (.ok (), ⟨disk, v⟩)

def post (note : Note) (r : ClientReq) : Op Reply := do
  let answer ← Client.ask fun d => ⟨note, .post d.vaultId d.key r⟩
  parse answer

def signedGet (note : Note) (action : Action) : Op Reply := do
  let answer ← Client.ask fun d => ⟨note, .query action d.vaultId d.key⟩
  parse answer

-- A reply of another shape is a JSON error.

def asPush : Reply → Except ClientError PushResp
  | .push r => .ok r
  | _ => .error .http

def asEnroll : Reply → Except ClientError EnrollResp
  | .enroll r => .ok r
  | _ => .error .http

def asWrapped : Reply → Except ClientError WrappedResp
  | .wrapped r => .ok r
  | _ => .error .http

def asShares : Reply → Except ClientError (List ShareMembership)
  | .shares l => .ok l
  | _ => .error .http

def asDevices : Reply → Except ClientError (List DeviceInfo)
  | .devices l => .ok l
  | _ => .error .http

def asPull : Reply → Except ClientError PullResp
  | .pull r => .ok r
  | _ => .error .http

def asRecover : Reply → Except ClientError Wire
  | .recover vaultId => .ok vaultId
  | _ => .error .http

/-- `ok_or_else`. -/
def orBad {α : Type} (o : Option α) (what : String) : Except ClientError α :=
  match o with
  | some a => .ok a
  | none => .error (bad what)

/-! ## Rounds -/

def enroll : Op Bool := do
  let d ← Client.get
  let m := d.vault.metadata
  let reply ← post .plain
    (.enroll ⟨.plain m.deviceName, .b64 (.ed d.key), .b64 (.x m.x25519Pub), .b64 m.recoveryPub⟩)
  let resp ← asEnroll reply
  return resp.approved

/-- The key-list in a wrap that is addressed to this device. -/
def unwrapped (d : Device) (wrapped : Wire) : Except ClientError KeyBytes :=
  match wrapped.decode with
  | none => .error (bad "wrapped_key")
  | some blob => (Crypto.unwrapVaultKey d.vault.keyring.x25519Secret blob (.ed d.key)).mapError fun e => .vault (.crypto e)

def unwrapFor (wrapped : Wire) : Op KeyBytes := do
  let d ← Client.get
  unwrapped d wrapped

/-- Takes in the default share's key-list, when the relay is ahead. -/
def healVault (resp : WrappedResp) : Op Unit := do
  let d ← Client.get
  if resp.epoch > d.vault.epoch then
    match resp.wrappedKey with
    | some wrapped =>
      let list ← unwrapFor wrapped
      onVault (·.absorbVaultKeyList list)
    | none => return ()

/-- Takes in the key-lists of the named shares; whether the device gained one. -/
def absorbShares (gained : Bool) : List ShareMembership → Op Bool
  | [] => return gained
  | m :: rest =>
    match m.shareId.decode16 with
    | none => absorbShares gained rest
    | some share =>
      if share = nil then absorbShares gained rest
      else do
        let d ← Client.get
        let had := d.vault.keyring.hasShare share
        if ¬ had ∨ m.epoch > d.vault.keyring.shareEpoch share then
          let list ← unwrapFor m.wrappedKey
          onVault (·.absorbShareKey share list)
          absorbShares (gained || !had) rest
        else absorbShares gained rest

def healShares : Op Bool := do
  let resp ← asWrapped (← signedGet .plain .wrapped)
  healVault resp
  let memberships ← asShares (← signedGet .plain .shares)
  absorbShares false memberships

def wireEntry (e : Uuid × Bytes × Uuid) : WireEntry := ⟨.b64 (.uuid e.1), .b64 e.2.1, .b64 (.uuid e.2.2)⟩

/-- Applies what the device did not have; how many that were. -/
def applyEntries (held : List Uuid) : List WireEntry → Op Nat
  | [] => return 0
  | e :: rest => do
    let id ← orBad e.entryId.decode16 "entry_id"
    if id ∈ held then applyEntries held rest
    else
      let blob ← orBad e.blob.decode "blob"
      onVault (·.applyRemoteEntry id blob)
      let n ← applyEntries held rest
      return n + 1

/-- The push of a round. -/
def pushEntries (gained : Bool) (entries : List (Uuid × Bytes × Uuid)) : Op PushResp := do
  let reply ← post (.healed gained) (.push ⟨entries.map wireEntry⟩)
  asPush reply

/-- The pull of a round, from the cursor as it is then. -/
def pullEntries : Op PullResp := do
  let answer ← Client.ask fun d => ⟨.plain, .pull d.vaultId d.key d.vault.metadata.syncCursor⟩
  let reply ← parse answer
  asPull reply

def syncOnce : Op (Nat × Nat) := do
  let d ← Client.get
  if d.vault.metadata.relayUrl = none then Client.fail .noRelay
  let gained ← healShares
  let entries ← onVault fun v => do return (← v.rawEntriesTagged, v)
  let pushed ← pushEntries gained entries
  if gained then updateVault (·.resetSyncCursor)
  let resp ← pullEntries
  let pulled ← applyEntries (entries.map (·.1)) resp.entries
  updateVault (·.setSyncCursor resp.head)
  return (pushed.stored, pulled)

end Sync

end SshVault
