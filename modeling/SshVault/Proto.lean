import SshVault.Crypto

/-!
# Wire protocol (`src/proto.rs`)

Requests travel as JSON in a signed envelope. Decoding follows serde's derive: a struct is
an object or an array of its fields in order, a missing or repeated field fails, and an
unknown one is ignored.
-/

namespace SshVault

abbrev Wire := Text Bytes

/-- `B64.decode`. -/
def Text.decode : Wire → Option Bytes
  | .b64 b => some b
  | .plain s => if s = "" then some (.other 0) else none

def Text.decodeEd (t : Wire) : Option EdKey :=
  match t.decode with
  | some (.ed k) => some k
  | _ => none

/-- Thirty-two bytes, or nothing. -/
def Text.decode32 (t : Wire) : Option Bytes32 := t.decode.bind Bytes.as32

theorem Text.decode32_eq_some {t : Wire} {p : Bytes32} : t.decode32 = some p ↔ t.decode = some p.bytes := by
  unfold decode32
  cases t.decode <;> simp [Bytes.as32_eq_some]

/-- Sixteen bytes, or nothing. -/
def Text.decode16 (t : Wire) : Option Uuid :=
  match t.decode with
  | some (.uuid u) => some u
  | _ => none

/-! ## serde -/

namespace Json

variable {β α : Type}

/-- Field number `index` of a struct with `count` fields. -/
def member (count index : Nat) (name : String) : Json β → Option (Json β)
  | .obj fields => match fields.filter (·.1 = name) with
    | [(_, v)] => some v
    | _ => none
  | .arr items => if items.length ≤ count then items[index]? else none
  | _ => none

/-- A field with `#[serde(default)]`: it may be left out, but not repeated. -/
def memberOr (count index : Nat) (name : String) (j default : Json β) : Option (Json β) :=
  match j with
  | .obj fields => match fields.filter (·.1 = name) with
    | [] => some default
    | [(_, v)] => some v
    | _ => none
  | .arr items => if items.length ≤ count then some (items[index]?.getD default) else none
  | _ => none

def asText : Json β → Option (Text β)
  | .str t => some t
  | _ => none

def asU32 : Json β → Option Nat
  | .num n => if 0 ≤ n ∧ n < 4294967296 then some n.toNat else none
  | _ => none

def asVec (f : Json β → Option α) : Json β → Option (List α)
  | .arr items => items.mapM f
  | _ => none

end Json

/-! ## Requests -/

structure WireEntry where
  entryId : Wire
  blob : Wire
  shareId : Wire
  deriving DecidableEq

structure PushReq where
  entries : List WireEntry
  deriving DecidableEq

structure EnrollReq where
  deviceName : Wire
  ed25519Pub : Wire
  x25519Pub : Wire
  recoveryPub : Wire
  deriving DecidableEq

structure ApproveReq where
  targetPub : Wire
  wrappedKey : Wire
  deriving DecidableEq

structure RevokeReq where
  targetPub : Wire
  deriving DecidableEq

structure WrappedFor where
  devicePub : Wire
  wrappedKey : Wire
  deriving DecidableEq

structure RotateReq where
  epoch : Nat
  wrapped : List WrappedFor
  deriving DecidableEq

structure ShareGrantReq where
  shareId : Wire
  epoch : Nat
  wrapped : List WrappedFor
  deriving DecidableEq

structure ShareRotateReq where
  shareId : Wire
  epoch : Nat
  wrapped : List WrappedFor
  remove : List Wire
  deriving DecidableEq

namespace WireEntry

def toJson (e : WireEntry) : Json Bytes :=
  .obj [("entry_id_b64", .str e.entryId), ("blob_b64", .str e.blob), ("share_id_b64", .str e.shareId)]

def ofJson (j : Json Bytes) : Option WireEntry := do
  let entryId ← (← j.member 3 0 "entry_id_b64").asText
  let blob ← (← j.member 3 1 "blob_b64").asText
  let shareId ← (← j.memberOr 3 2 "share_id_b64" (.str (.plain ""))).asText
  return { entryId, blob, shareId }

end WireEntry

namespace PushReq

def toJson (r : PushReq) : Json Bytes := .obj [("entries", .arr (r.entries.map WireEntry.toJson))]

def ofJson (j : Json Bytes) : Option PushReq := do
  let entries ← (← j.member 1 0 "entries").asVec WireEntry.ofJson
  return { entries }

end PushReq

namespace EnrollReq

def toJson (r : EnrollReq) : Json Bytes :=
  .obj [("device_name", .str r.deviceName), ("ed25519_pub_b64", .str r.ed25519Pub),
    ("x25519_pub_b64", .str r.x25519Pub), ("recovery_pub_b64", .str r.recoveryPub)]

def ofJson (j : Json Bytes) : Option EnrollReq := do
  let deviceName ← (← j.member 4 0 "device_name").asText
  let ed25519Pub ← (← j.member 4 1 "ed25519_pub_b64").asText
  let x25519Pub ← (← j.member 4 2 "x25519_pub_b64").asText
  let recoveryPub ← (← j.member 4 3 "recovery_pub_b64").asText
  return { deviceName, ed25519Pub, x25519Pub, recoveryPub }

end EnrollReq

namespace ApproveReq

def toJson (r : ApproveReq) : Json Bytes :=
  .obj [("target_pub_b64", .str r.targetPub), ("wrapped_key_b64", .str r.wrappedKey)]

def ofJson (j : Json Bytes) : Option ApproveReq := do
  let targetPub ← (← j.member 2 0 "target_pub_b64").asText
  let wrappedKey ← (← j.member 2 1 "wrapped_key_b64").asText
  return { targetPub, wrappedKey }

end ApproveReq

namespace RevokeReq

def toJson (r : RevokeReq) : Json Bytes := .obj [("target_pub_b64", .str r.targetPub)]

def ofJson (j : Json Bytes) : Option RevokeReq := do
  let targetPub ← (← j.member 1 0 "target_pub_b64").asText
  return { targetPub }

end RevokeReq

namespace WrappedFor

def toJson (w : WrappedFor) : Json Bytes :=
  .obj [("device_pub_b64", .str w.devicePub), ("wrapped_key_b64", .str w.wrappedKey)]

def ofJson (j : Json Bytes) : Option WrappedFor := do
  let devicePub ← (← j.member 2 0 "device_pub_b64").asText
  let wrappedKey ← (← j.member 2 1 "wrapped_key_b64").asText
  return { devicePub, wrappedKey }

end WrappedFor

namespace RotateReq

def toJson (r : RotateReq) : Json Bytes :=
  .obj [("epoch", .num r.epoch), ("wrapped", .arr (r.wrapped.map WrappedFor.toJson))]

def ofJson (j : Json Bytes) : Option RotateReq := do
  let epoch ← (← j.member 2 0 "epoch").asU32
  let wrapped ← (← j.member 2 1 "wrapped").asVec WrappedFor.ofJson
  return { epoch, wrapped }

end RotateReq

namespace ShareGrantReq

def toJson (r : ShareGrantReq) : Json Bytes :=
  .obj [("share_id_b64", .str r.shareId), ("epoch", .num r.epoch),
    ("wrapped", .arr (r.wrapped.map WrappedFor.toJson))]

def ofJson (j : Json Bytes) : Option ShareGrantReq := do
  let shareId ← (← j.member 3 0 "share_id_b64").asText
  let epoch ← (← j.member 3 1 "epoch").asU32
  let wrapped ← (← j.member 3 2 "wrapped").asVec WrappedFor.ofJson
  return { shareId, epoch, wrapped }

end ShareGrantReq

namespace ShareRotateReq

def toJson (r : ShareRotateReq) : Json Bytes :=
  .obj [("share_id_b64", .str r.shareId), ("epoch", .num r.epoch),
    ("wrapped", .arr (r.wrapped.map WrappedFor.toJson)), ("remove", .arr (r.remove.map .str))]

def ofJson (j : Json Bytes) : Option ShareRotateReq := do
  let shareId ← (← j.member 4 0 "share_id_b64").asText
  let epoch ← (← j.member 4 1 "epoch").asU32
  let wrapped ← (← j.member 4 2 "wrapped").asVec WrappedFor.ofJson
  let remove ← (← j.member 4 3 "remove").asVec Json.asText
  return { shareId, epoch, wrapped, remove }

end ShareRotateReq

/-! ## Envelopes -/

/-- The signed GET endpoints whose body is `"<action>:<vault>"`. -/
inductive Action where
  | shares
  | devices
  | wrapped
  deriving DecidableEq

/-- The text that a request signature covers, next to the time. -/
inductive Body where
  | json (j : Json Bytes)
  | query (action : Action) (vault : Wire)
  | pull (since : Nat)
  deriving DecidableEq

/-- What an Ed25519 key signs: `signing_message(ts, body)`, or the bytes of a device key. -/
inductive Msg where
  | request (ts : Int64) (body : Body)
  | deviceKey (k : EdKey)
  deriving DecidableEq

/-- Ed25519 is deterministic: a signature is a key and what it signed. -/
structure Sig where
  signer : EdKey
  msg : Msg
  deriving DecidableEq

/-- The signature that a text spells, if it spells one. -/
def Text.signature : Text Sig → Option Sig
  | .b64 s => some s
  | .plain _ => none

structure Signed where
  vaultId : Wire
  devicePub : Wire
  sig : Text Sig
  ts : Int64
  body : Body
  deriving DecidableEq

/-- The envelope that a client builds: it signs the time and the body, and nothing else. -/
def envelope (vault : Wire) (key : EdKey) (ts : Int64) (body : Body) : Signed :=
  ⟨vault, .b64 (.ed key), .b64 ⟨key, .request ts body⟩, ts, body⟩

def maxSkewSecs : Int64 := 300

structure RecoverReq where
  recoveryPub : Wire
  deviceName : Wire
  ed25519Pub : Wire
  x25519Pub : Wire
  sig : Text Sig
  deriving DecidableEq

/-! ## The outer JSON -/

/-- What the texts of a POST body spell. -/
inductive Blob where
  | bytes (b : Bytes)
  | sig (s : Sig)
  | body (b : Body)

def Text.outer : Wire → Text Blob
  | .plain s => .plain s
  | .b64 b => .b64 (.bytes b)

def Text.outerSig : Text Sig → Text Blob
  | .plain s => .plain s
  | .b64 s => .b64 (.sig s)

def Json.asWire : Json Blob → Option Wire
  | .str (.plain s) => some (.plain s)
  | .str (.b64 (.bytes b)) => some (.b64 b)
  | _ => none

def Json.asSig : Json Blob → Option (Text Sig)
  | .str (.plain s) => some (.plain s)
  | .str (.b64 (.sig s)) => some (.b64 s)
  | _ => none

def Json.asBody : Json Blob → Option Body
  | .str (.b64 (.body b)) => some b
  | _ => none

def Json.asI64 : Json Blob → Option Int64
  | .num n => if -2 ^ 63 ≤ n ∧ n < 2 ^ 63 then some (.ofInt n) else none
  | _ => none

namespace Signed

def toJson (s : Signed) : Json Blob :=
  .obj [("vault_id_b64", .str s.vaultId.outer), ("device_pub_b64", .str s.devicePub.outer),
    ("sig_b64", .str s.sig.outerSig), ("ts", .num s.ts.toInt), ("body", .str (.b64 (.body s.body)))]

def ofJson (j : Json Blob) : Option Signed := do
  let vaultId ← (← j.member 5 0 "vault_id_b64").asWire
  let devicePub ← (← j.member 5 1 "device_pub_b64").asWire
  let sig ← (← j.member 5 2 "sig_b64").asSig
  let ts ← (← j.member 5 3 "ts").asI64
  let body ← (← j.member 5 4 "body").asBody
  return { vaultId, devicePub, sig, ts, body }

end Signed

namespace RecoverReq

def toJson (r : RecoverReq) : Json Blob :=
  .obj [("recovery_pub_b64", .str r.recoveryPub.outer), ("device_name", .str r.deviceName.outer),
    ("ed25519_pub_b64", .str r.ed25519Pub.outer), ("x25519_pub_b64", .str r.x25519Pub.outer),
    ("sig_b64", .str r.sig.outerSig)]

def ofJson (j : Json Blob) : Option RecoverReq := do
  let recoveryPub ← (← j.member 5 0 "recovery_pub_b64").asWire
  let deviceName ← (← j.member 5 1 "device_name").asWire
  let ed25519Pub ← (← j.member 5 2 "ed25519_pub_b64").asWire
  let x25519Pub ← (← j.member 5 3 "x25519_pub_b64").asWire
  let sig ← (← j.member 5 4 "sig_b64").asSig
  return { recoveryPub, deviceName, ed25519Pub, x25519Pub, sig }

end RecoverReq

structure SignedQuery where
  vault : Wire
  device : Wire
  sig : Text Sig
  ts : Int64
  deriving DecidableEq

structure PullQuery where
  vault : Wire
  device : Wire
  sig : Text Sig
  since : Nat
  ts : Int64
  deriving DecidableEq

def SignedQuery.intoSigned (q : SignedQuery) (action : Action) : Signed :=
  ⟨q.vault, q.device, q.sig, q.ts, .query action q.vault⟩

/-! ## Replies -/

structure DeviceInfo where
  name : Wire
  ed25519Pub : Wire
  x25519Pub : Wire
  approved : Bool
  revoked : Bool
  deriving DecidableEq

structure ShareMembership where
  shareId : Wire
  epoch : Nat
  wrappedKey : Wire
  deriving DecidableEq

structure EnrollResp where
  approved : Bool
  head : Nat
  deriving DecidableEq

structure PushResp where
  head : Nat
  stored : Nat
  deriving DecidableEq

structure PullResp where
  entries : List WireEntry
  head : Nat
  deriving DecidableEq

structure WrappedResp where
  approved : Bool
  wrappedKey : Option Wire
  epoch : Nat
  deriving DecidableEq

/-- A status code and a text. -/
structure HttpError where
  status : Nat
  msg : String
  deriving DecidableEq

end SshVault
