import SshVault.Relay.Tables

/-!
# The relay's handlers (`src/relay.rs`)

A handler checks a request against the database one SQL statement at a time. `now` is what it
reads from the relay's clock. Each POST handler is cut after its body is decoded: `applyX` is
the rest of handler `x`.
-/

open Lib

namespace SshVault

/-- `now_unix`, as `verify` and after it `mark_seen` read it. -/
structure Now where
  verify : Int64
  markSeen : Int64
  deriving DecidableEq

/-- A clock that stands still. -/
instance {n : Nat} : OfNat Now n := ⟨⟨OfNat.ofNat n, OfNat.ofNat n⟩⟩

abbrev Handler (α : Type) := ExceptT HttpError (Prog Db) α

namespace Relay

def badRequest (m : String) : HttpError := ⟨400, m⟩
def unauthorized (m : String) : HttpError := ⟨401, m⟩
def forbidden (m : String) : HttpError := ⟨403, m⟩
def notFound (m : String) : HttpError := ⟨404, m⟩
def conflict (m : String) : HttpError := ⟨409, m⟩

/-- `ok_or`. -/
def orReject {α : Type} (o : Option α) (e : HttpError) : Except HttpError α :=
  match o with
  | some a => .ok a
  | none => .error e

/-! ## Authentication -/

/-- The window check of `verify`, in wrapping 64-bit arithmetic. -/
def inWindow (now ts : Int64) : Bool := ¬ (now - ts).abs > maxSkewSecs

def verify (now : Int64) (signed : Signed) : Except HttpError (Wire × EdKey) :=
  if ¬ inWindow now signed.ts then .error (unauthorized "request timestamp outside acceptance window")
  else match signed.devicePub.decodeEd with
    | none => .error (badRequest "device_pub")
    | some key => match signed.sig.signature with
      | none => .error (badRequest "sig")
      | some sig =>
        if sig = ⟨key, .request signed.ts signed.body⟩ then .ok (signed.vaultId, key)
        else .error (unauthorized "signature does not verify")

def canSync (vault : Wire) (key : EdKey) : Prog Db Bool := do
  let row ← Db.selectDevice vault (.ed key)
  return row.any DeviceRow.canSync

/-- False when the signature was seen before. -/
def markSeen (now : Int64) (sig : Text Sig) : Handler Bool := do
  let sig ← orReject sig.signature (badRequest "sig")
  Db.deleteExpired now
  Db.insertSeen sig (now + maxSkewSecs)

def jsonBody {α : Type} (ofJson : Json Bytes → Option α) (body : Body) : Except HttpError α :=
  match body with
  | .json j => orReject (ofJson j) (badRequest "bad body")
  | _ => .error (badRequest "bad body")

/-- The loops of the handlers: decode an element, run its statement, add up the rows. -/
def forEach {β γ : Type} (decode : β → Except HttpError γ) (stmt : γ → Prog Db Nat) : List β → Handler Nat
  | [] => return 0
  | b :: rest => do
    let c ← decode b
    let n ← stmt c
    let m ← forEach decode stmt rest
    return n + m

def decodeWrap (w : WrappedFor) : Except HttpError (Bytes × Bytes) := do
  let target ← orReject w.devicePub.decode (badRequest "device_pub")
  let wrapped ← orReject w.wrappedKey.decode (badRequest "wrapped_key")
  return (target, wrapped)

/-- What every handler but `enroll`, `wrapped` and `recover` does first. -/
def authorize (now : Now) (signed : Signed) (refusal : String) : Handler (Wire × EdKey) := do
  let (vault, key) ← verify now.verify signed
  if ¬ (← canSync vault key) then throw (forbidden refusal)
  return (vault, key)

/-! ## Devices -/

def applyEnroll (vault : Wire) (key : EdKey) (devicePub : Wire) (req : EnrollReq) : Handler EnrollResp := do
  if req.ed25519Pub ≠ devicePub then throw (badRequest "enroll must be self-signed")
  let row ← Db.selectDevice vault (.ed key)
  if (row.map (·.revoked)) = some true then throw (forbidden "device is revoked")
  let xPub ← orReject req.x25519Pub.decode (badRequest "x25519_pub")
  let recoveryPub ← orReject req.recoveryPub.decode (badRequest "recovery_pub")
  let approved ← Db.insertVault vault recoveryPub
  Db.enrollDevice vault (.ed key) xPub req.deviceName approved
  let head ← Db.selectHead vault
  return ⟨approved, head⟩

def enroll (now : Now) (signed : Signed) : Handler EnrollResp := do
  let (vault, key) ← verify now.verify signed
  let req ← jsonBody EnrollReq.ofJson signed.body
  applyEnroll vault key signed.devicePub req

def applyApprove (vault : Wire) (req : ApproveReq) : Handler PushResp := do
  let target ← orReject req.targetPub.decode (badRequest "target_pub")
  let wrapped ← orReject req.wrappedKey.decode (badRequest "wrapped_key")
  let affected ← Db.approveDevice vault target wrapped
  if affected = 0 then throw (notFound "no such pending device")
  let head ← Db.selectHead vault
  return ⟨head, 0⟩

def approve (now : Now) (signed : Signed) : Handler PushResp := do
  let (vault, _) ← authorize now signed "approver not approved"
  let req ← jsonBody ApproveReq.ofJson signed.body
  applyApprove vault req

def applyRevoke (vault : Wire) (req : RevokeReq) : Handler PushResp := do
  let target ← orReject req.targetPub.decode (badRequest "target_pub")
  let affected ← Db.revokeDevice vault target
  if affected = 0 then throw (notFound "no such device")
  let head ← Db.selectHead vault
  return ⟨head, 0⟩

def revoke (now : Now) (signed : Signed) : Handler PushResp := do
  let (vault, _) ← authorize now signed "revoker not approved"
  let req ← jsonBody RevokeReq.ofJson signed.body
  applyRevoke vault req

def applyRotate (vault : Wire) (req : RotateReq) : Handler PushResp := do
  let bumped ← Db.bumpEpoch vault req.epoch
  if bumped = 0 then throw (conflict "epoch already advanced")
  let _ ← forEach decodeWrap (fun w => Db.rewrapDevice vault w.1 w.2) req.wrapped
  let head ← Db.selectHead vault
  return ⟨head, 0⟩

def rotate (now : Now) (signed : Signed) : Handler PushResp := do
  let (vault, _) ← authorize now signed "rotator not approved"
  if ¬ (← markSeen now.markSeen signed.sig) then throw (conflict "replayed request")
  let req ← jsonBody RotateReq.ofJson signed.body
  applyRotate vault req

/-! ## Shares -/

def decodeShare (t : Wire) : Except HttpError Uuid := orReject t.decode16 (badRequest "share_id")

def applyShareGrant (vault : Wire) (req : ShareGrantReq) : Handler PushResp := do
  let share ← decodeShare req.shareId
  Db.raiseShareEpoch vault share req.epoch
  let _ ← forEach decodeWrap (fun w => Db.upsertMember vault share w.1 w.2) req.wrapped
  let head ← Db.selectHead vault
  return ⟨head, 0⟩

def shareGrant (now : Now) (signed : Signed) : Handler PushResp := do
  let (vault, _) ← authorize now signed "granter not approved"
  let req ← jsonBody ShareGrantReq.ofJson signed.body
  applyShareGrant vault req

def decodeRemoved (pub : Wire) : Except HttpError Bytes := orReject pub.decode (badRequest "remove pub")

/-- Moves a share to its next epoch. A share that the relay has no epoch for may start anywhere. -/
def advanceShare (vault : Wire) (share : Uuid) (epoch : Nat) : Handler Unit := do
  let bumped ← Db.bumpShareEpoch vault share epoch
  if bumped = 0 then
    if ¬ (← Db.insertShare vault share epoch) then throw (conflict "epoch already advanced")

def applyShareRotate (vault : Wire) (req : ShareRotateReq) : Handler PushResp := do
  let share ← decodeShare req.shareId
  advanceShare vault share req.epoch
  let _ ← forEach decodeRemoved (Db.deleteMember vault share) req.remove
  let _ ← forEach decodeWrap (fun w => Db.rewrapMember vault share w.1 w.2) req.wrapped
  let head ← Db.selectHead vault
  return ⟨head, 0⟩

def shareRotate (now : Now) (signed : Signed) : Handler PushResp := do
  let (vault, _) ← authorize now signed "rotator not approved"
  if ¬ (← markSeen now.markSeen signed.sig) then throw (conflict "replayed request")
  let req ← jsonBody ShareRotateReq.ofJson signed.body
  applyShareRotate vault req

def shares (now : Now) (q : SignedQuery) : Handler (List ShareMembership) := do
  let (vault, key) ← authorize now (q.intoSigned .shares) "device not approved"
  let rows ← Db.selectMemberships vault (.ed key)
  return rows.map fun (m, epoch) => ⟨.b64 (.uuid m.shareId), epoch, .b64 m.wrappedKey⟩

def devices (now : Now) (q : SignedQuery) : Handler (List DeviceInfo) := do
  let (vault, _) ← authorize now (q.intoSigned .devices) "device not approved"
  let rows ← Db.selectDevices vault
  return rows.map fun r => ⟨r.name, .b64 r.ed25519Pub, .b64 r.x25519Pub, r.approved, r.revoked⟩

/-! ## Bootstrap -/

def wrapped (now : Now) (q : SignedQuery) : Handler WrappedResp := do
  let (vault, key) ← verify now.verify (q.intoSigned .wrapped)
  let row ← orReject (← Db.selectDevice vault (.ed key)) (notFound "device not enrolled")
  if row.revoked then throw (forbidden "device is revoked")
  let epoch ← Db.selectEpoch vault
  return ⟨row.approved, row.wrappedKey.map .b64, epoch.getD 0⟩

def recover (req : RecoverReq) : Handler Wire := do
  let recoveryPub ← orReject req.recoveryPub.decodeEd (badRequest "recovery_pub")
  let edPub ← orReject req.ed25519Pub.decodeEd (badRequest "ed25519_pub")
  let sig ← orReject req.sig.signature (badRequest "sig")
  if sig ≠ ⟨recoveryPub, .deviceKey edPub⟩ then throw (unauthorized "recovery signature invalid")
  let vault ← orReject (← Db.selectVault (.ed recoveryPub)) (notFound "no vault for this phrase")
  let xPub ← orReject req.x25519Pub.decode (badRequest "x25519_pub")
  Db.recoverDevice vault (.ed edPub) xPub req.deviceName
  return vault

/-! ## Entries -/

def decodeEntry (e : WireEntry) : Except HttpError (Bytes × Bytes × Uuid) := do
  let entryId ← orReject e.entryId.decode (badRequest "entry_id")
  let blob ← orReject e.blob.decode (badRequest "blob")
  let share ← if e.shareId = .plain "" then pure nil else decodeShare e.shareId
  return (entryId, blob, share)

def applyPush (vault : Wire) (req : PushReq) : Handler PushResp := do
  let stored ← forEach decodeEntry (fun e => Db.insertEntry vault e.1 e.2.1 e.2.2) req.entries
  let head ← Db.selectHead vault
  return ⟨head, stored⟩

def push (now : Now) (signed : Signed) : Handler PushResp := do
  let (vault, _) ← authorize now signed "device not enrolled or revoked"
  let req ← jsonBody PushReq.ofJson signed.body
  applyPush vault req

def pull (now : Now) (q : PullQuery) : Handler PullResp := do
  let (vault, key) ← authorize now ⟨q.vault, q.device, q.sig, q.ts, .pull q.since⟩ "device not enrolled or revoked"
  let rows ← Db.selectEntries vault (.ed key) q.since
  let entries := rows.map fun r => (⟨.b64 r.entryId, .b64 r.blob, .b64 (.uuid r.shareId)⟩ : WireEntry)
  let head ← Db.selectHead vault
  return ⟨entries, max head q.since⟩

end Relay

/-! ## Routes -/

/-- The POST endpoints that take a signed envelope. -/
inductive Endpoint where
  | enroll
  | approve
  | revoke
  | rotate
  | shareGrant
  | shareRotate
  | push
  deriving DecidableEq

inductive Request where
  | post (endpoint : Endpoint) (signed : Signed)
  | recover (req : RecoverReq)
  | shares (q : SignedQuery)
  | devices (q : SignedQuery)
  | wrapped (q : SignedQuery)
  | pull (q : PullQuery)
  deriving DecidableEq

inductive Reply where
  | enroll (r : EnrollResp)
  | push (r : PushResp)
  | shares (l : List ShareMembership)
  | devices (l : List DeviceInfo)
  | wrapped (r : WrappedResp)
  | recover (vaultId : Wire)
  | pull (r : PullResp)
  deriving DecidableEq

namespace Relay

def post (now : Now) (signed : Signed) : Endpoint → Handler Reply
  | .enroll => do return .enroll (← enroll now signed)
  | .approve => do return .push (← approve now signed)
  | .revoke => do return .push (← revoke now signed)
  | .rotate => do return .push (← rotate now signed)
  | .shareGrant => do return .push (← shareGrant now signed)
  | .shareRotate => do return .push (← shareRotate now signed)
  | .push => do return .push (← push now signed)

/-- The POST endpoints. Axum decodes the outer JSON before it calls the handler. -/
inductive Target where
  | signed (endpoint : Endpoint)
  | recover
  deriving DecidableEq

def unprocessable : HttpError := ⟨422, "Failed to deserialize the JSON body into the target type"⟩

def receive (now : Now) (target : Target) (j : Json Blob) : Handler Reply :=
  match target with
  | .signed endpoint => do
    let signed ← orReject (Signed.ofJson j) unprocessable
    post now signed endpoint
  | .recover => do
    let req ← orReject (RecoverReq.ofJson j) unprocessable
    return .recover (← recover req)

def route (now : Now) : Request → Handler Reply
  | .post endpoint signed => post now signed endpoint
  | .recover req => do return .recover (← recover req)
  | .shares q => do return .shares (← shares now q)
  | .devices q => do return .devices (← devices now q)
  | .wrapped q => do return .wrapped (← wrapped now q)
  | .pull q => do return .pull (← pull now q)

/-! ## The body limit -/

/-- The lengths of the JSON texts that requests are posted as. -/
structure TextLengths where
  signed : Signed → Nat
  recover : RecoverReq → Nat

/-- A GET has no body. -/
def bodyLength (lengths : TextLengths) : Request → Nat
  | .post _ signed => lengths.signed signed
  | .recover req => lengths.recover req
  | _ => 0

/-- `serve` sets no limit of its own, so axum's `DefaultBodyLimit` holds. -/
def bodyLimit : Nat := 2097152

def payloadTooLarge : HttpError := ⟨413, "Failed to buffer the request body: length limit exceeded"⟩

/-- The `app` of `serve`: axum reads the whole body before it calls the handler. -/
def app (lengths : TextLengths) (now : Now) (req : Request) : Handler Reply := do
  if bodyLimit < bodyLength lengths req then throw payloadTooLarge
  route now req

theorem app_of_le {lengths : TextLengths} {now : Now} {req : Request} (h : bodyLength lengths req ≤ bodyLimit) :
    app lengths now req = route now req := by
  unfold app
  rw [if_neg (Nat.not_lt.mpr h)]

end Relay

end SshVault
