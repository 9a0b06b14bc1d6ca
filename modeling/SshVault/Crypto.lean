import SshVault.Record

/-!
# Symbolic crypto (`src/crypto.rs`)

Keys are names. A sealed blob opens with the key and the associated data it was made with,
and a wrapped key-list with the X25519 key it is addressed to; nothing else opens either.
A key pair has one name, which stands for the secret and for the public half.
-/

namespace SshVault

abbrev Seed := Nat
abbrev XKey := Nat

inductive EdKey where
  | device (n : Nat)
  | recovery (seed : Seed)
  deriving DecidableEq

/-- A recovery phrase as typed: not a mnemonic, or one with this seed. -/
inductive Phrase where
  | invalid (text : String)
  | mnemonic (seed : Seed)
  deriving DecidableEq

/-- A 32-byte key: HKDF of a seed at an epoch, or the `n`th draw of random bytes, made for this
epoch of this share. -/
inductive Key where
  | vault (seed : Seed) (epoch : Nat)
  | random (share : Uuid) (epoch n : Nat)
  deriving DecidableEq

inductive CryptoError where
  | decrypt
  | badPhrase
  deriving DecidableEq

/-- A byte string cut into 32-byte keys, with `rest` bytes left over at the end. -/
structure KeyBytes where
  keys : List Key
  rest : Nat := 0
  deriving DecidableEq

/-- What a sealed blob holds: the MessagePack of a record, or bytes that do not parse. -/
inductive Plain where
  | record (r : Record)
  | garbage
  deriving DecidableEq

structure Sealed where
  key : Key
  aad : Uuid
  plain : Plain
  deriving DecidableEq

/-- A string of 32 bytes: the public half of a key pair, or any other string. -/
inductive Bytes32 where
  | ed (k : EdKey)
  | x (k : XKey)
  | raw (n : Nat)
  deriving DecidableEq

structure Wrapped where
  recipient : Bytes32
  deviceId : Bytes32
  payload : KeyBytes
  deriving DecidableEq

/-- The byte strings that cross the wire or rest in a BLOB column. The first three have 32 bytes.
`other 0` is the empty one. -/
inductive Bytes where
  | ed (k : EdKey)
  | x (k : XKey)
  | raw (n : Nat)
  | uuid (u : Uuid)
  | sealed (s : Sealed)
  | wrapped (w : Wrapped)
  | other (n : Nat)
  deriving DecidableEq

/-- `try_into` a `[u8; 32]`. -/
def Bytes.as32 : Bytes → Option Bytes32
  | .ed k => some (.ed k)
  | .x k => some (.x k)
  | .raw n => some (.raw n)
  | _ => none

def Bytes32.bytes : Bytes32 → Bytes
  | .ed k => .ed k
  | .x k => .x k
  | .raw n => .raw n

theorem Bytes.as32_eq_some {b : Bytes} {p : Bytes32} : b.as32 = some p ↔ b = p.bytes := by
  cases b <;> cases p <;> simp [as32, Bytes32.bytes]

namespace Crypto

def seedFromPhrase : Phrase → Except CryptoError Seed
  | .invalid _ => .error .badPhrase
  | .mnemonic seed => .ok seed

def vaultKeyAtEpoch (phrase : Phrase) (epoch : Nat) : Except CryptoError Key := do
  let seed ← seedFromPhrase phrase
  return .vault seed epoch

structure PhraseKeys where
  vaultKey : Key
  recoverySigning : EdKey

def keysFromPhrase (phrase : Phrase) : Except CryptoError PhraseKeys := do
  let seed ← seedFromPhrase phrase
  return ⟨.vault seed 0, .recovery seed⟩

/-- `crypto::seal`. -/
def sealBlob (key : Key) (plain : Plain) (aad : Uuid) : Bytes := .sealed ⟨key, aad, plain⟩

/-- `crypto::open`. -/
def openBlob (key : Key) (blob : Bytes) (aad : Uuid) : Except CryptoError Plain :=
  match blob with
  | .sealed s => if s.key = key ∧ s.aad = aad then .ok s.plain else .error .decrypt
  | _ => .error .decrypt

def wrapVaultKey (payload : KeyBytes) (recipient deviceId : Bytes32) : Bytes :=
  .wrapped ⟨recipient, deviceId, payload⟩

def unwrapVaultKey (secret : XKey) (blob : Bytes) (deviceId : Bytes32) : Except CryptoError KeyBytes :=
  match blob with
  | .wrapped w => if w.recipient = .x secret ∧ w.deviceId = deviceId then .ok w.payload else .error .decrypt
  | _ => .error .decrypt

theorem openBlob_eq_ok {key : Key} {blob : Bytes} {aad : Uuid} {p : Plain} :
    openBlob key blob aad = .ok p ↔ blob = .sealed ⟨key, aad, p⟩ := by
  unfold openBlob
  split
  · rename_i s
    obtain ⟨k, a, q⟩ := s
    simp only [Bytes.sealed.injEq, Sealed.mk.injEq]
    split <;> simp_all
  · simp_all

theorem unwrapVaultKey_eq_ok {secret : XKey} {blob : Bytes} {deviceId : Bytes32} {l : KeyBytes} :
    unwrapVaultKey secret blob deviceId = .ok l ↔ blob = .wrapped ⟨.x secret, deviceId, l⟩ := by
  unfold unwrapVaultKey
  split
  · rename_i w
    obtain ⟨x, e, q⟩ := w
    simp only [Bytes.wrapped.injEq, Wrapped.mk.injEq]
    split <;> simp_all
  · simp_all

end Crypto

end SshVault
