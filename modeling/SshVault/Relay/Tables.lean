import SshVault.Proto
import SshVault.Lib.Prog
import SshVault.Lib.Table

/-!
# The relay's database (`src/relay.rs`, `migrate`)

One atomic step for each SQL statement of the handlers. A statement that changes rows returns
how many.
-/

open Lib

namespace SshVault

structure VaultRow where
  vaultId : Wire
  recoveryPub : Bytes
  epoch : Nat
  deriving DecidableEq

structure DeviceRow where
  vaultId : Wire
  ed25519Pub : Bytes
  x25519Pub : Bytes
  name : Wire
  approved : Bool
  revoked : Bool
  wrappedKey : Option Bytes
  deriving DecidableEq

structure EntryRow where
  vaultId : Wire
  seq : Nat
  entryId : Bytes
  blob : Bytes
  shareId : Uuid
  deriving DecidableEq

structure ShareRow where
  vaultId : Wire
  shareId : Uuid
  epoch : Nat
  deriving DecidableEq

structure MemberRow where
  vaultId : Wire
  shareId : Uuid
  ed25519Pub : Bytes
  wrappedKey : Bytes
  deriving DecidableEq

structure SeenSig where
  sig : Sig
  expiresAt : Int64
  deriving DecidableEq

structure Db where
  vaults : List VaultRow := []
  devices : List DeviceRow := []
  entries : List EntryRow := []
  shares : List ShareRow := []
  shareMembers : List MemberRow := []
  seenSigs : List SeenSig := []
  /-- The row of `entries` in `sqlite_sequence`. -/
  lastSeq : Nat := 0
  deriving DecidableEq

/-! ## Primary keys -/

def DeviceRow.key (r : DeviceRow) : Wire × Bytes := (r.vaultId, r.ed25519Pub)
def EntryRow.key (r : EntryRow) : Wire × Bytes := (r.vaultId, r.entryId)
def ShareRow.key (r : ShareRow) : Wire × Uuid := (r.vaultId, r.shareId)
def MemberRow.key (r : MemberRow) : Wire × Uuid × Bytes := (r.vaultId, r.shareId, r.ed25519Pub)

def DeviceRow.canSync (r : DeviceRow) : Bool := r.approved && !r.revoked

namespace Db

/-! ## Reading -/

def device (db : Db) (vault : Wire) (pub : Bytes) : Option DeviceRow := db.devices.find? (·.key = (vault, pub))

def canSync (db : Db) (vault : Wire) (key : EdKey) : Bool := (db.device vault (.ed key)).any DeviceRow.canSync

def devicesOf (db : Db) (vault : Wire) : List DeviceRow := db.devices.filter (·.vaultId = vault)

/-- The epoch of a vault, `None` when there is no such vault. -/
def epoch (db : Db) (vault : Wire) : Option Nat := (db.vaults.find? (·.vaultId = vault)).map (·.epoch)

def shareEpoch (db : Db) (vault : Wire) (share : Uuid) : Option Nat :=
  (db.shares.find? (·.key = (vault, share))).map (·.epoch)

def vaultByRecovery (db : Db) (recoveryPub : Bytes) : Option Wire :=
  (db.vaults.find? (·.recoveryPub = recoveryPub)).map (·.vaultId)

def isMember (db : Db) (vault : Wire) (share : Uuid) (pub : Bytes) : Bool :=
  db.shareMembers.any (·.key = (vault, share, pub))

def membershipsOf (db : Db) (vault : Wire) (pub : Bytes) : List MemberRow :=
  db.shareMembers.filter fun m => m.vaultId = vault ∧ m.ed25519Pub = pub

/-- `COALESCE(MAX(seq), 0)` of one vault. -/
def head (db : Db) (vault : Wire) : Nat := ((db.entries.filter (·.vaultId = vault)).map (·.seq)).foldr max 0

/-- The next value of the `AUTOINCREMENT` column. -/
def nextSeq (db : Db) : Nat := max db.lastSeq ((db.entries.map (·.seq)).foldr max 0) + 1

/-- `x as i64` for a `u64`. -/
def asI64 (n : Nat) : Int := (n : Int).bmod (2 ^ 64)

/-- The rows of `pull`: past the cursor, in the default share or in a share of the device. -/
def visible (db : Db) (vault : Wire) (pub : Bytes) (since : Nat) (e : EntryRow) : Bool :=
  e.vaultId = vault && asI64 since < e.seq && (e.shareId = nil || db.isMember vault e.shareId pub)

/-! ## Statements -/

variable (vault : Wire)

def selectDevice (pub : Bytes) : Prog Db (Option DeviceRow) := .atom fun db => (db.device vault pub, db)

def selectDevices : Prog Db (List DeviceRow) := .atom fun db => (db.devicesOf vault, db)

def selectEpoch : Prog Db (Option Nat) := .atom fun db => (db.epoch vault, db)

def selectVault (recoveryPub : Bytes) : Prog Db (Option Wire) :=
  .atom fun db => (db.vaultByRecovery recoveryPub, db)

def selectHead : Prog Db Nat := .atom fun db => (db.head vault, db)

def selectMemberships (pub : Bytes) : Prog Db (List (MemberRow × Nat)) :=
  .atom fun db => ((db.membershipsOf vault pub).map fun m => (m, (db.shareEpoch vault m.shareId).getD 0), db)

def selectEntries (pub : Bytes) (since : Nat) : Prog Db (List EntryRow) :=
  .atom fun db => ((db.entries.filter (db.visible vault pub since)).insertionSort (·.seq ≤ ·.seq), db)

def deleteExpired (now : Int64) : Prog Db Unit :=
  .atom fun db => ((), { db with seenSigs := db.seenSigs.filter fun s => ¬ s.expiresAt < now })

/-- Whether the signature was new. -/
def insertSeen (sig : Sig) (expiresAt : Int64) : Prog Db Bool :=
  .atom fun db => (¬ db.seenSigs.any (·.sig = sig),
    { db with seenSigs := Table.insertOrIgnore SeenSig.sig ⟨sig, expiresAt⟩ db.seenSigs })

/-- Whether this is the vault's first device. -/
def insertVault (recoveryPub : Bytes) : Prog Db Bool :=
  .atom fun db => (¬ db.vaults.any (·.vaultId = vault),
    { db with vaults := Table.insertOrIgnore VaultRow.vaultId ⟨vault, recoveryPub, 0⟩ db.vaults })

/-- `enroll`: a device that is already there keeps its status. -/
def enrollDevice (pub xPub : Bytes) (name : Wire) (approved : Bool) : Prog Db Unit :=
  let row : DeviceRow := ⟨vault, pub, xPub, name, approved, false, none⟩
  let set (r : DeviceRow) : DeviceRow := { r with name, x25519Pub := xPub }
  .atom fun db => ((), { db with devices := Table.upsert DeviceRow.key row set db.devices })

/-- `recover`: the device is approved, whatever it was. -/
def recoverDevice (pub xPub : Bytes) (name : Wire) : Prog Db Unit :=
  let row : DeviceRow := ⟨vault, pub, xPub, name, true, false, none⟩
  let set (r : DeviceRow) : DeviceRow := { r with approved := true, revoked := false, x25519Pub := xPub }
  .atom fun db => ((), { db with devices := Table.upsert DeviceRow.key row set db.devices })

def approveDevice (pub wrapped : Bytes) : Prog Db Nat :=
  let p (r : DeviceRow) : Bool := r.key = (vault, pub) ∧ r.revoked = false
  let set (r : DeviceRow) : DeviceRow := { r with approved := true, wrappedKey := some wrapped }
  .atom fun db => (Table.affected p db.devices, { db with devices := Table.update p set db.devices })

def revokeDevice (pub : Bytes) : Prog Db Nat :=
  let p (r : DeviceRow) : Bool := r.key = (vault, pub)
  let set (r : DeviceRow) : DeviceRow := { r with revoked := true, approved := false, wrappedKey := none }
  .atom fun db => (Table.affected p db.devices, { db with devices := Table.update p set db.devices })

def rewrapDevice (pub wrapped : Bytes) : Prog Db Nat :=
  let p (r : DeviceRow) : Bool := r.key = (vault, pub) ∧ r.revoked = false
  let set (r : DeviceRow) : DeviceRow := { r with wrappedKey := some wrapped }
  .atom fun db => (Table.affected p db.devices, { db with devices := Table.update p set db.devices })

/-- Moves the vault to `epoch`, from the epoch before it only. -/
def bumpEpoch (epoch : Nat) : Prog Db Nat :=
  let p (r : VaultRow) : Bool := r.vaultId = vault ∧ r.epoch + 1 = epoch
  let set (r : VaultRow) : VaultRow := { r with epoch }
  .atom fun db => (Table.affected p db.vaults, { db with vaults := Table.update p set db.vaults })

def raiseShareEpoch (share : Uuid) (epoch : Nat) : Prog Db Unit :=
  let set (r : ShareRow) : ShareRow := { r with epoch := max r.epoch epoch }
  .atom fun db => ((), { db with shares := Table.upsert ShareRow.key ⟨vault, share, epoch⟩ set db.shares })

def bumpShareEpoch (share : Uuid) (epoch : Nat) : Prog Db Nat :=
  let p (r : ShareRow) : Bool := r.key = (vault, share) ∧ r.epoch + 1 = epoch
  let set (r : ShareRow) : ShareRow := { r with epoch }
  .atom fun db => (Table.affected p db.shares, { db with shares := Table.update p set db.shares })

/-- Whether the relay had no epoch for this share. -/
def insertShare (share : Uuid) (epoch : Nat) : Prog Db Bool :=
  .atom fun db => (¬ db.shares.any (·.key = (vault, share)),
    { db with shares := Table.insertOrIgnore ShareRow.key ⟨vault, share, epoch⟩ db.shares })

def upsertMember (share : Uuid) (pub wrapped : Bytes) : Prog Db Nat :=
  let row : MemberRow := ⟨vault, share, pub, wrapped⟩
  let set (r : MemberRow) : MemberRow := { r with wrappedKey := wrapped }
  .atom fun db => (1, { db with shareMembers := Table.upsert MemberRow.key row set db.shareMembers })

def deleteMember (share : Uuid) (pub : Bytes) : Prog Db Nat :=
  let p (r : MemberRow) : Bool := r.key = (vault, share, pub)
  .atom fun db => (Table.affected p db.shareMembers, { db with shareMembers := db.shareMembers.filter fun m => !p m })

def rewrapMember (share : Uuid) (pub wrapped : Bytes) : Prog Db Nat :=
  let p (r : MemberRow) : Bool := r.key = (vault, share, pub)
  let set (r : MemberRow) : MemberRow := { r with wrappedKey := wrapped }
  .atom fun db => (Table.affected p db.shareMembers, { db with shareMembers := Table.update p set db.shareMembers })

/-- The number of rows stored, 0 or 1. An entry that is ignored uses up a number all the same. -/
def insertEntry (entryId blob : Bytes) (share : Uuid) : Prog Db Nat :=
  .atom fun db => (if db.entries.any (·.key = (vault, entryId)) then 0 else 1,
    { db with
      entries := Table.insertOrIgnore EntryRow.key ⟨vault, db.nextSeq, entryId, blob, share⟩ db.entries
      lastSeq := db.nextSeq })

end Db

end SshVault
