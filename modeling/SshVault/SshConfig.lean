import SshVault.Lib.Lines
import SshVault.Vault.Machine

/-!
# The generated ssh configuration (`src/sshconfig.rs`)

Typed payloads, the check of a forward's spec, and the rendering of the managed file. `render`
gives `none` where the source indexes past the end of a spec and panics.
-/

open Lib

namespace SshVault

/-! ## Payloads -/

structure Host where
  hostAlias : String
  hostname : Option String
  port : Option Nat
  user : Option String
  jumpHost : Option String
  identityFile : Option String
  tags : List String
  deriving DecidableEq

inductive ForwardKind where
  | localFwd
  | remoteFwd
  | dynamicFwd
  deriving DecidableEq

structure PortForward where
  name : String
  kind : ForwardKind
  spec : String
  host : String
  deriving DecidableEq

/-- The digits of base64, most significant first. -/
def b64Digit (n : Nat) : Char :=
  "ABCDEFGHIJKLMNOPQRSTUVWXYZabcdefghijklmnopqrstuvwxyz0123456789+/".toList.getD n '/'

/-- Sixteen bytes in base64: 22 digits and padding. -/
def b64Uuid (u : Uuid) : String :=
  String.ofList ((List.range 22).map (fun i => b64Digit (u.val * 16 / 64 ^ (21 - i) % 64)) ++ ['=', '='])

def Text.spell : Text Uuid → String
  | .plain s => s
  | .b64 u => b64Uuid u

namespace Value

def asString : Value → Option String
  | .str t => some t.spell
  | _ => none

def asU16 : Value → Option Nat
  | .num n => if 0 ≤ n ∧ n < 65536 then some n.toNat else none
  | _ => none

/-- An optional field: absent and `null` are `None`. -/
def asOption {α : Type} (f : Value → Option α) : Option Value → Option (Option α)
  | none => some none
  | some .null => some none
  | some v => (f v).map some

/-- A unit variant, by name or as an object with that one key. -/
def variantName : Value → Option String
  | .str t => some t.spell
  | .obj [(name, .null)] => some name
  | _ => none

def asForwardKind (v : Value) : Option ForwardKind :=
  match variantName v with
  | some "local" => some .localFwd
  | some "remote" => some .remoteFwd
  | some "dynamic" => some .dynamicFwd
  | _ => none

def asStrings : Option Value → Option (List String)
  | none => some []
  | some (.arr items) => items.mapM asString
  | some _ => none

end Value

namespace Record

def value (r : Record) (name : String) : Option Value := (r.fields[name]?).map (·.value)

/-- `payload::<Host>`. -/
def host (r : Record) : Option Host := do
  let hostAlias ← (← r.value "alias").asString
  let hostname ← Value.asOption Value.asString (r.value "hostname")
  let port ← Value.asOption Value.asU16 (r.value "port")
  let user ← Value.asOption Value.asString (r.value "user")
  let jumpHost ← Value.asOption Value.asString (r.value "jump_host")
  let identityFile ← Value.asOption Value.asString (r.value "identity_file")
  let tags ← Value.asStrings (r.value "tags")
  return { hostAlias, hostname, port, user, jumpHost, identityFile, tags }

/-- `payload::<PortForward>`. -/
def portForward (r : Record) : Option PortForward := do
  let name ← (← r.value "name").asString
  let kind ← (← r.value "kind").asForwardKind
  let spec ← (← r.value "spec").asString
  let host ← (← r.value "host").asString
  return { name, kind, spec, host }

end Record

namespace Vault

/-- `Vault::list`: the live records of a kind whose payload parses, by id. -/
def list {α : Type} (v : Vault) (ord : HashOrder) (kind : Kind) (payload : Record → Option α) : List (Uuid × α) :=
  (((ord.order (v.state.toList.map (·.2))).filter fun r => live r ∧ r.kind = kind).filterMap fun r =>
    (payload r).map fun p => (r.id, p)).insertionSort (·.1 ≤ ·.1)

def hosts (v : Vault) (ord : HashOrder) : List Host := (v.list ord .host Record.host).map (·.2)

def forwards (v : Vault) (ord : HashOrder) : List PortForward := (v.list ord .portForward Record.portForward).map (·.2)

end Vault

/-! ## Forward specs -/

namespace SshConfig

/-- `char::is_whitespace`. -/
def isWhitespace (c : Char) : Bool :=
  (9 ≤ c.toNat ∧ c.toNat ≤ 13) ∨ c.toNat = 32 ∨ c.toNat = 0x85 ∨ c.toNat = 0xA0 ∨ c.toNat = 0x1680 ∨
    (0x2000 ≤ c.toNat ∧ c.toNat ≤ 0x200A) ∨ c.toNat = 0x2028 ∨ c.toNat = 0x2029 ∨ c.toNat = 0x202F ∨
    c.toNat = 0x205F ∨ c.toNat = 0x3000

def digits (cs : List Char) : Option Nat :=
  cs.foldl (fun acc c => acc.bind fun n => if c.isDigit then some (n * 10 + (c.toNat - 48)) else none) (some 0)

/-- `s.parse::<u16>().is_ok()`: digits after an optional plus sign, below 65536. -/
def portOk (s : String) : Bool :=
  let cs := match s.toList with
    | '+' :: cs => cs
    | cs => cs
  !cs.isEmpty && ((digits cs).map fun n => decide (n < 65536)) = some true

def addrOk (s : String) : Bool := !s.toList.isEmpty && !s.toList.any isWhitespace

/-- `spec.split(':')`. -/
def specParts (spec : String) : List String := (spec.toList.splitOn ':').map String.ofList

inductive ApplyError where
  | badForwardSpec (spec expected : String)
  deriving DecidableEq

def dynamicForm : String := "`port` or `bind:port`"
def listenForm : String := "`listen_port:host:port` or `bind:listen_port:host:port`"

def validateForwardSpec (kind : ForwardKind) (spec : String) : Except ApplyError Unit :=
  let ok := match kind, specParts spec with
    | .dynamicFwd, [p] => portOk p
    | .dynamicFwd, [bind, p] => addrOk bind && portOk p
    | .dynamicFwd, _ => false
    | _, [lp, host, dp] => portOk lp && addrOk host && portOk dp
    | _, [bind, lp, host, dp] => addrOk bind && portOk lp && addrOk host && portOk dp
    | _, _ => false
  if ok then .ok ()
  else .error (.badForwardSpec spec (if kind = .dynamicFwd then dynamicForm else listenForm))

/-! ## Rendering -/

def quote (token : String) : String :=
  if ' ' ∈ token.toList ∨ '\t' ∈ token.toList ∨ token.toList = [] then "\"" ++ token ++ "\"" else token

def keyword : ForwardKind → String
  | .localFwd => "LocalForward"
  | .remoteFwd => "RemoteForward"
  | .dynamicFwd => "DynamicForward"

/-- `render_forward`. Four parts are a bind address and the rest; otherwise the first three count. -/
def renderForward (f : PortForward) : Option String :=
  match f.kind, specParts f.spec with
  | .dynamicFwd, _ => some ("    DynamicForward " ++ f.spec ++ "\n")
  | kind, [a, b, c, d] => some ("    " ++ keyword kind ++ " " ++ (a ++ ":" ++ b) ++ " " ++ (c ++ ":" ++ d) ++ "\n")
  | kind, a :: b :: c :: _ => some ("    " ++ keyword kind ++ " " ++ a ++ " " ++ (b ++ ":" ++ c) ++ "\n")
  | _, _ => none

def attached (forwards : List PortForward) (h : Host) : List PortForward :=
  (forwards.filter (·.host = h.hostAlias)).insertionSort (·.name ≤ ·.name)

/-- A directive, if its field is set. -/
def directive (name : String) : Option String → String
  | some v => "    " ++ name ++ " " ++ v ++ "\n"
  | none => ""

def renderHost (forwards : List PortForward) (h : Host) : Option String := do
  let fwds ← (attached forwards h).mapM renderForward
  return "\n" ++ ("Host " ++ quote h.hostAlias ++ "\n") ++ directive "HostName" (h.hostname.map quote) ++
    directive "Port" (h.port.map toString) ++ directive "User" (h.user.map quote) ++
    directive "ProxyJump" (h.jumpHost.map quote) ++ directive "IdentityFile" (h.identityFile.map quote) ++
    String.join fwds

def header : String :=
  "# Managed by sshvault — DO NOT EDIT.\n" ++
    "# Regenerate with `sshvault apply`. Your own config lives in ~/.ssh/config.\n"

def render (hosts : List Host) (forwards : List PortForward) : Option String := do
  let blocks ← (hosts.insertionSort (·.hostAlias ≤ ·.hostAlias)).mapM (renderHost forwards)
  return header ++ String.join blocks

end SshConfig

end SshVault
