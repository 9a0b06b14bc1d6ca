import SshVault.Client.Sync

/-!
# The device lifecycle (`src/device.rs`)

Enrolling, approving, revoking and recovering devices, and granting shares. Devices are named
by short codes; `first` gives the leading bytes of a byte string.
-/

open Lib

namespace SshVault

open Relay (ClientReq U32)

/-! ## Short codes -/

def hexDigit (n : Nat) : Char := if n < 10 then Char.ofNat (48 + n) else Char.ofNat (87 + n)

def hexByte (b : UInt8) : String := String.ofList [hexDigit (b.toNat / 16), hexDigit (b.toNat % 16)]

/-- Four bytes in hex, in two groups. -/
def shortCode (first : Bytes → List UInt8) (pub : Wire) : String :=
  let bytes := (pub.decode.map first).getD []
  String.join ((bytes.take 4).zipIdx.map fun (b, i) => (if i = 2 then "-" else "") ++ hexByte b)

theorem hexDigit_toLower {n : Nat} (h : n < 16) : (hexDigit n).toLower = hexDigit n := by
  interval_cases n <;> decide

theorem shortCode_toLower (first : Bytes → List UInt8) (pub : Wire) :
    (shortCode first pub).toLower = shortCode first pub := by
  have hbyte : ∀ b : UInt8, ∀ c ∈ (hexByte b).toList, c.toLower = c := by
    intro b c hc
    have hb := b.toNat_lt
    simp only [hexByte, String.toList_ofList, List.mem_cons, List.not_mem_nil, or_false] at hc
    rcases hc with rfl | rfl
    · exact hexDigit_toLower (by omega)
    · exact hexDigit_toLower (by omega)
  have hchar : ∀ c ∈ (shortCode first pub).toList, c.toLower = c := by
    intro c hc
    unfold shortCode at hc
    simp only [String.toList_join, List.mem_flatMap, List.mem_map] at hc
    obtain ⟨_, ⟨⟨b, i⟩, -, rfl⟩, hc⟩ := hc
    rw [String.toList_append, List.mem_append] at hc
    rcases hc with hc | hc
    · dsimp only at hc
      split at hc
      · obtain rfl : c = '-' := by simpa using hc
        decide
      · simp at hc
    · exact hbyte b c hc
  unfold String.toLower
  apply String.toList_injective
  rw [String.toList_map]
  exact (List.map_congr_left hchar).trans (List.map_id _)

namespace Devices

open Sync

variable (first : Bytes → List UInt8)

/-! ## Devices -/

def listDevices (note : Note) : Op (List DeviceInfo) := do
  let reply ← signedGet note .devices
  asDevices reply

/-- The one device with this code. -/
def theDevice (code : String) (devices : List DeviceInfo) : Except ClientError DeviceInfo :=
  match devices.filter fun d => shortCode first d.ed25519Pub = code.toLower with
  | [] => .error (.noSuchDevice code.toLower)
  | [d] => .ok d
  | _ => .error (.ambiguousCode code.toLower)

def findByCode (code : String) : Op DeviceInfo := do
  let devices ← listDevices .plain
  theDevice first code devices

/-- A key-list, wrapped for one device. -/
def wrapFor (list : KeyBytes) (d : DeviceInfo) : Except ClientError WrappedFor := do
  let x ← orBad d.x25519Pub.decode32 "x25519_pub"
  let ed ← orBad d.ed25519Pub.decode32 "ed25519_pub"
  return ⟨d.ed25519Pub, .b64 (Crypto.wrapVaultKey list x ed)⟩

def wrapAll (list : KeyBytes) (devices : List DeviceInfo) : Except ClientError (List WrappedFor) :=
  devices.mapM (wrapFor list)

def approve (code : String) : Op Wire := do
  let target ← findByCode first code
  let d ← Client.get
  let w ← wrapFor d.vault.vaultKeyList target
  let _ ← asPush (← post .plain (.approve ⟨w.devicePub, w.wrappedKey⟩))
  return target.name

def revoke (code : String) : Op Wire := do
  let target ← findByCode first code
  let _ ← asPush (← post .plain (.revoke ⟨target.ed25519Pub⟩))
  return target.name

/-- Revokes a device, and moves the default share to the next epoch for all the others. -/
def revokeAndRotate (code : String) (phrase : Phrase) : Op Wire := do
  let target ← findByCode first code
  let name ← revoke first code
  let epoch ← onVault (·.rotate phrase)
  let d ← Client.get
  let devices ← listDevices (.rewrap target.ed25519Pub)
  let others := devices.filter fun o => ¬ (o.revoked ∨ o.ed25519Pub = target.ed25519Pub)
  let wrapped ← wrapAll d.vault.vaultKeyList others
  let _ ← asPush (← post .plain (.rotate (Fin.ofNat _ epoch) wrapped))
  return name

/-! ## Shares -/

def wrapForCodes (list : KeyBytes) : List String → Op (List WrappedFor)
  | [] => return []
  | code :: rest => do
    let d ← findByCode first code
    let w ← wrapFor list d
    let more ← wrapForCodes list rest
    return w :: more

/-- The share that a `ShareName` record names, if it parses. -/
def shareNamed (r : Record) : Option Uuid :=
  match (r.fields["name"]? : Option Field), (r.fields["share_id_b64"]? : Option Field) with
  | some ⟨.str _, _⟩, some ⟨.str (.b64 share), _⟩ => some share
  | _, _ => none

def resolveShare (v : Vault) (ord : HashOrder) (name : String) : Option Uuid :=
  (v.find ord .shareName "name" name).bind shareNamed

def shareNamePayload (name : String) (share : Uuid) : Payload :=
  Std.ExtTreeMap.ofList [("name", Json.str (.plain name)), ("share_id_b64", Json.str (.b64 share))]

def shareText (share : Uuid) : Wire := .b64 (.uuid share)

/-- A grant of a share that this device holds. -/
def grantReq (d : Device) (share : Uuid) (wrapped : List WrappedFor) : ClientReq :=
  .shareGrant (shareText share) (Fin.ofNat _ (d.vault.keyring.shareEpoch share)) wrapped

/-- What `create_share` draws: the id of the share, its key, and what the record of its name takes. -/
structure ShareDraw where
  ord : HashOrder
  share : Uuid
  n : Nat
  recordId : Uuid
  entryId : Uuid
  now : Nat

def createShare (name : String) (codes : List String) (draw : ShareDraw) : Op Uuid := do
  let d ← Client.get
  if (resolveShare d.vault draw.ord name).isSome then Client.fail (.vault (.duplicate "share" name))
  updateVault (·.createShare draw.share draw.n)
  let _ ← onVault (·.addIn draw.ord .shareName "name" name (shareNamePayload name draw.share) nil draw.recordId
    draw.entryId draw.now)
  let d ← Client.get
  let list := d.vault.keyring.shareKeyList draw.share
  let wrapped ← wrapForCodes first list codes
  let selfCode := shortCode first (.b64 (.ed d.vault.metadata.ed25519Pub))
  let own ← wrapForCodes first list [selfCode]
  let _ ← asPush (← post (.named codes) (grantReq d draw.share (wrapped ++ own)))
  return draw.share

def notMember : ClientError := .vault (.corrupt "you are not a member of this share")

def shareAdd (share : Uuid) (codes : List String) : Op Unit := do
  let d ← Client.get
  if ¬ d.vault.keyring.hasShare share then Client.fail notMember
  let wrapped ← wrapForCodes first (d.vault.keyring.shareKeyList share) codes
  let _ ← asPush (← post (.named codes) (grantReq d share wrapped))
  return ()

/-- The devices that a rotated share is wrapped for: every approved one. The relay stores only
the wraps of members. -/
def shareMembers : Op (List Wire) := do
  let devices ← listDevices .plain
  return (devices.filter fun d => d.approved ∧ ¬ d.revoked).map (·.ed25519Pub)

def rewrapMembers (list : KeyBytes) (target : Wire) : List Wire → Op (List WrappedFor)
  | [] => return []
  | pub :: rest =>
    if pub = target then rewrapMembers list target rest
    else do
      let ws ← wrapForCodes first list [shortCode first pub]
      let more ← rewrapMembers list target rest
      return ws ++ more

/-- Removes a member, and moves the share to a fresh key. -/
def shareRemove (share : Uuid) (code : String) (n : Nat) : Op Wire := do
  let d ← Client.get
  if ¬ d.vault.keyring.hasShare share then Client.fail notMember
  let target ← findByCode first code
  let epoch ← onVault (·.rotateShare share n)
  let d ← Client.get
  let list := d.vault.keyring.shareKeyList share
  let members ← shareMembers
  let wrapped ← rewrapMembers first list target.ed25519Pub members
  let _ ← asPush (← post (.removing target.ed25519Pub)
    (.shareRotate (shareText share) (Fin.ofNat _ epoch) wrapped [target.ed25519Pub]))
  return target.name

/-! ## Joining -/

/-- Polls up to `polls` times for the wrapped key of this device. -/
def awaitKey : Nat → Op Unit
  | 0 => Client.fail .http
  | polls + 1 => do
    let resp ← asWrapped (← signedGet .plain .wrapped)
    match (if resp.approved then resp.wrappedKey else none) with
    | none => awaitKey polls
    | some wrapped =>
      let list ← unwrapFor wrapped
      onVault (·.setVaultKey list)

/-- `enroll_and_wait` once the provisional vault is created. -/
def enrollAndWait (relay : String) (polls : Nat) : Op Unit := do
  updateVault (·.setRelayUrl relay)
  let approved ← enroll
  if approved then return ()
  else awaitKey polls

/-- The keys of a device. -/
structure DeviceKeys where
  x25519 : XKey
  ed25519 : EdKey
  deviceId : Uuid

def recoverReq (name : String) (recovery : EdKey) (keys : DeviceKeys) : RecoverReq :=
  { recoveryPub := .b64 (.ed recovery), deviceName := .plain name
    ed25519Pub := .b64 (.ed keys.ed25519), x25519Pub := .b64 (.x keys.x25519)
    sig := .b64 ⟨recovery, .deviceKey keys.ed25519⟩ }

/-- The vault that `recover` creates. -/
def recovered (name relay : String) (phraseKeys : Crypto.PhraseKeys) (keys : DeviceKeys) (vaultId : Uuid) : Device :=
  let (disk, v) := Vault.createWithKeys name vaultId phraseKeys.vaultKey (.ed phraseKeys.recoverySigning)
    keys.x25519 keys.ed25519 keys.deviceId
  let (v, disk) := (v.setRelayUrl relay).run disk
  ⟨disk, v⟩

/-- There is no vault on the machine until the relay has told the vault id. -/
def recover (name relay : String) (phrase : Phrase) (keys : DeviceKeys) :
    Session (Option Device) Call Answer (Except ClientError Unit) :=
  match Crypto.keysFromPhrase phrase with
  | .error e => .done none (.error (.vault (.crypto e)))
  | .ok phraseKeys =>
    .ask none ⟨.plain, .recover (recoverReq name phraseKeys.recoverySigning keys)⟩ fun answer =>
      match do orBad (← asRecover (← parse answer)).decode16 "vault_id" with
      | .error e => .done none (.error e)
      | .ok vaultId => .done (some (recovered name relay phraseKeys keys vaultId)) (.ok ())

end Devices

end SshVault
