import SshVault.Lib.Listing
import SshVault.IncludeLine
import SshVault.Client.Devices
import SshVault.Vault.LocalForwards

/-!
# The commands on hosts, snippets, forwards and keys (`src/main.rs`)

To its user the program is a catalogue: four kinds of values, each under a name. Records, clocks and tombstones are how
it is kept.
-/

open Lib

namespace SshVault

open Vault

/-! ## The catalogue -/

inductive Family where
  | host
  | snippet
  | forward
  | key
  deriving DecidableEq

namespace Family

def exported : Family → Exported
  | host => .hosts
  | snippet => .snippets
  | forward => .forwards
  | key => .keys

abbrev Data (F : Family) : Type := F.exported.type.Data

def kind (F : Family) : Kind := F.exported.type.kind

def name (F : Family) : F.Data → String := F.exported.name

def payload (F : Family) : F.Data → Payload := F.exported.type.toPayload

end Family

inductive CmdError where
  | noShare (name : String)
  | notFound (F : Family) (name : String)
  | badPayload
  | cannotRead (path : String)
  | looksPrivate (path : String)
  | fwd (e : FwdError)
  | vault (e : VaultError)

abbrev Catalogue := (F : Family) → String → Option F.Data

namespace Catalogue

variable (c : Catalogue)

def set (F : Family) (name : String) (o : Option F.Data) : Catalogue := Function.update c F (Function.update (c F) name o)

/-- `held`: whether the device is a member of the share that is asked for. -/
def add (F : Family) (x : F.Data) (held : Bool) : Except VaultError Unit × Catalogue :=
  match validatePayload F.kind (F.payload x) with
  | .error e => (.error e, c)
  | .ok _ =>
    if held = false then (.error (.corrupt "cannot add to a share this device is not a member of"), c)
    else if (c F (F.name x)).isSome then (.error (.duplicate (kindStr F.kind) (F.name x)), c)
    else (.ok (), c.set F (F.name x) (some x))

/-- `written` is checked, and `kept` is what is there then. -/
def put (F : Family) (name : String) (written kept : F.Data) : Except VaultError Unit × Catalogue :=
  match validatePayload F.kind (F.payload written) with
  | .error e => (.error e, c)
  | .ok _ => (.ok (), c.set F name (some kept))

def edit (F : Family) (name : String) (change : F.Data → Except CmdError F.Data) (kept : F.Data → F.Data → F.Data) :
    Except CmdError Unit × Catalogue :=
  match c F name with
  | none => (.error (.notFound F name), c)
  | some old => match change old with
    | .error e => (.error e, c)
    | .ok x => ((c.put F name x (kept old x)).1.mapError .vault, (c.put F name x (kept old x)).2)

def remove (F : Family) (name : String) : Except VaultError Unit × Catalogue :=
  if (c F name).isSome then (.ok (), c.set F name none) else (.error (.noSuchRecord (kindStr F.kind) name), c)

end Catalogue

/-! ## The commands -/

structure HostOpts where
  hostname : Option String
  port : Option Nat
  user : Option String
  jump : Option String
  identity : Option String
  tags : List String
  share : Option String
  isPort : ∀ p, port = some p → p < 65536

namespace HostOpts

variable (opts : HostOpts)

def host (name : String) : Host :=
  { hostAlias := name, hostname := opts.hostname, port := opts.port, user := opts.user, jumpHost := opts.jump
    identityFile := opts.identity, tags := opts.tags }

def change (h : Host) : Host :=
  { h with
    hostname := opts.hostname.or h.hostname
    port := opts.port.or h.port
    user := opts.user.or h.user
    jumpHost := opts.jump.or h.jumpHost
    identityFile := opts.identity.or h.identityFile
    tags := if opts.tags = [] then h.tags else opts.tags }

end HostOpts

def Snippet.change (command description : Option String) (tags : List String) (s : Snippet) : Snippet :=
  { s with
    command := command.getD s.command
    description := description.or s.description
    tags := if tags = [] then s.tags else tags }

/-- A file that may be a public key, and what can be read from it. -/
structure PubkeyFile where
  path : String
  contents : Option String

def readPublicKey (file : PubkeyFile) : Except CmdError String :=
  match file.contents with
  | none => .error (.cannotRead file.path)
  | some contents =>
    if "PRIVATE KEY".toList <:+: contents.toList then .error (.looksPrivate file.path)
    else .ok (String.ofList (SshConfig.trim contents.toList))

section

-- `ssh_fingerprint`, which hashes.
variable (fingerprint : String → Option String)

def KeyMeta.change (pubkey : Option PubkeyFile) (hosts : List String) (k : KeyMeta) : Except CmdError KeyMeta := do
  let k ← match pubkey with
    | none => pure k
    | some file => do
      let publicKey ← readPublicKey file
      pure { k with publicKey, fingerprint := fingerprint publicKey }
  return { k with hosts := if hosts = [] then k.hosts else hosts }

/-- What stays of a key that is written over: a fingerprint that is not there is not written. -/
def KeyMeta.kept (old k : KeyMeta) : KeyMeta := { k with fingerprint := k.fingerprint.or old.fingerprint }

/-- `List` and `Run` write nothing. -/
inductive Cmd where
  | hostAdd (name : String) (opts : HostOpts) (draw : Draw)
  | hostEdit (name : String) (opts : HostOpts) (draw : Draw)
  | snippetAdd (name command : String) (description : Option String) (tags : List String) (draw : Draw)
  | snippetEdit (name : String) (command description : Option String) (tags : List String) (draw : Draw)
  | fwdAdd (name spec host : String) (kind : ForwardKind) (draw : Draw)
  | fwdEdit (name : String) (spec host : Option String) (kind : Option ForwardKind) (draw : Draw)
  | keyAdd (name : String) (pubkey : PubkeyFile) (hosts : List String) (draw : Draw)
  | keyEdit (name : String) (pubkey : Option PubkeyFile) (hosts : List String) (draw : Draw)
  | rm (F : Family) (name : String) (draw : Draw)

namespace Vault

abbrev CmdProg := Prog Disk (Except CmdError Unit × Vault)

/-- `add` and `add_in`. -/
def addAs (v : Vault) (F : Family) (nameField name : String) (x : F.Data) (share : Uuid) (draw : Draw) : CmdProg := do
  let (res, v) ← v.addIn draw.ord F.kind nameField name (F.payload x) share draw.recordId draw.entryId draw.now
  return ((res.map fun _ => ()).mapError .vault, v)

def editAs (v : Vault) (F : Family) (nameField name : String) (change : F.Data → Except CmdError F.Data) (draw : Draw) :
    CmdProg :=
  match v.find draw.ord F.kind nameField name with
  | none => return (.error (.notFound F name), v)
  | some rec => match F.exported.type.read rec with
    | none => return (.error .badPayload, v)
    | some old => match change old with
      | .error e => return (.error e, v)
      | .ok x => do
        let (res, v) ← v.edit draw.ord F.kind nameField name (F.payload x) draw.entryId draw.now
        return (res.mapError .vault, v)

def removeAs (v : Vault) (F : Family) (nameField name : String) (draw : Draw) : CmdProg := do
  let (res, v) ← v.remove draw.ord F.kind nameField name draw.entryId draw.now
  return (res.mapError .vault, v)

def hostAdd (v : Vault) (name : String) (opts : HostOpts) (draw : Draw) : CmdProg :=
  match opts.share with
  | none => v.addAs .host "alias" name (opts.host name) nil draw
  | some share => match Devices.resolveShare v draw.ord share with
    | none => return (.error (.noShare share), v)
    | some id => v.addAs .host "alias" name (opts.host name) id draw

def hostEdit (v : Vault) (name : String) (opts : HostOpts) : Draw → CmdProg :=
  v.editAs .host "alias" name fun h => .ok (opts.change h)

def snippetAdd (v : Vault) (name command : String) (description : Option String) (tags : List String) : Draw → CmdProg :=
  v.addAs .snippet "name" name (⟨name, command, description, tags⟩ : Snippet) nil

def snippetEdit (v : Vault) (name : String) (command description : Option String) (tags : List String) : Draw → CmdProg :=
  v.editAs .snippet "name" name fun s => .ok (Snippet.change command description tags s)

def keyAdd (v : Vault) (name : String) (pubkey : PubkeyFile) (hosts : List String) (draw : Draw) : CmdProg :=
  match readPublicKey pubkey with
  | .error e => return (.error e, v)
  | .ok publicKey => v.addAs .key "name" name (⟨name, publicKey, fingerprint publicKey, hosts⟩ : KeyMeta) nil draw

def keyEdit (v : Vault) (name : String) (pubkey : Option PubkeyFile) (hosts : List String) : Draw → CmdProg :=
  v.editAs .key "name" name (KeyMeta.change fingerprint pubkey hosts)

/-- The `Rm` of each. -/
def rm (v : Vault) : (F : Family) → String → Draw → CmdProg
  | .host => v.removeAs .host "alias"
  | .snippet => v.removeAs .snippet "name"
  | .forward => v.removeAs .forward "name"
  | .key => v.removeAs .key "name"

end Vault

def Cmd.prog (v : Vault) : Cmd → CmdProg
  | hostAdd name opts draw => v.hostAdd name opts draw
  | hostEdit name opts draw => v.hostEdit name opts draw
  | snippetAdd name command description tags draw => v.snippetAdd name command description tags draw
  | snippetEdit name command description tags draw => v.snippetEdit name command description tags draw
  | fwdAdd name spec host kind draw => do
    let (res, v) ← v.fwdAdd name spec host kind draw
    return (res.mapError .fwd, v)
  | fwdEdit name spec host kind draw => do
    let (res, v) ← v.fwdEdit name spec host kind draw
    return (res.mapError .fwd, v)
  | keyAdd name pubkey hosts draw => v.keyAdd fingerprint name pubkey hosts draw
  | keyEdit name pubkey hosts draw => v.keyEdit fingerprint name pubkey hosts draw
  | rm F name draw => v.rm F name draw

def Cmd.draw : Cmd → Draw
  | hostAdd _ _ draw | hostEdit _ _ draw | snippetAdd _ _ _ _ draw | snippetEdit _ _ _ _ draw | fwdAdd _ _ _ _ draw
  | fwdEdit _ _ _ _ draw | keyAdd _ _ _ draw | keyEdit _ _ _ draw | rm _ _ draw => draw

/-- The record ids that a command may draw. -/
def Cmd.drawn : Cmd → List Uuid
  | hostAdd _ _ draw | snippetAdd _ _ _ _ draw | fwdAdd _ _ _ _ draw | keyAdd _ _ _ draw => [draw.recordId]
  | _ => []

/-- The shares that names stand for, and whether they are held. -/
def Vault.heldShares (v : Vault) (ord : HashOrder) (share : String) : Option Bool :=
  (Devices.resolveShare v ord share).map v.keyring.hasShare

/-- What each command does to the catalogue. -/
def Catalogue.step (c : Catalogue) (shares : String → Option Bool) : Cmd → Except CmdError Unit × Catalogue
  | .hostAdd name opts _ => match opts.share with
    | none => adds c .host (opts.host name) true
    | some share => match shares share with
      | none => (.error (.noShare share), c)
      | some held => adds c .host (opts.host name) held
  | .hostEdit name opts _ => c.edit .host name (fun h => .ok (opts.change h)) fun _ h => h
  | .snippetAdd name command description tags _ =>
    adds c .snippet (⟨name, command, description, tags⟩ : Snippet) true
  | .snippetEdit name command description tags _ =>
    c.edit .snippet name (fun s => .ok (Snippet.change command description tags s)) fun _ s => s
  | .fwdAdd name spec host kind _ => match SshConfig.validateForwardSpec kind spec with
    | .error e => (.error (.fwd (.badSpec e)), c)
    | .ok _ =>
      if (c .host host).isNone then (.error (.fwd (.noHost host)), c)
      else
        let (res, c) := c.add .forward (⟨name, kind, spec, host⟩ : PortForward) true
        ((res.mapError FwdError.vault).mapError .fwd, c)
  | .fwdEdit name spec host kind _ => match c .forward name with
    | none => (.error (.fwd (.noForward name)), c)
    | some (old : PortForward) =>
      let f : PortForward :=
        { old with kind := kind.getD old.kind, spec := spec.getD old.spec, host := host.getD old.host }
      match SshConfig.validateForwardSpec f.kind f.spec with
      | .error e => (.error (.fwd (.badSpec e)), c)
      | .ok _ =>
        if (c .host f.host).isNone then (.error (.fwd (.noHost f.host)), c)
        else
          let (res, c) := c.put .forward name f f
          ((res.mapError FwdError.vault).mapError .fwd, c)
  | .keyAdd name pubkey hosts _ => match readPublicKey pubkey with
    | .error e => (.error e, c)
    | .ok publicKey => adds c .key (⟨name, publicKey, fingerprint publicKey, hosts⟩ : KeyMeta) true
  | .keyEdit name pubkey hosts _ => c.edit .key name (KeyMeta.change fingerprint pubkey hosts) KeyMeta.kept
  | .rm F name _ => ((c.remove F name).1.mapError .vault, (c.remove F name).2)
where
  adds (c : Catalogue) (F : Family) (x : F.Data) (held : Bool) : Except CmdError Unit × Catalogue :=
    ((c.add F x held).1.mapError .vault, (c.add F x held).2)

end

/-! ## Runs -/

/-- What `find` and `list` show. -/
structure Shows (v : Vault) (c : Catalogue) : Prop where
  named : ∀ F name x, c F name = some x → F.name x = name
  find : ∀ ord F name, (v.find ord F.kind F.kind.nameField name).bind F.exported.type.read = c F name
  list : ∀ ord F, Lists (c F) ((v.list ord F.kind F.exported.type.read).map (·.2))

def Write.kind : Write → Kind
  | .addIn _ kind _ _ _ _ _ _ _ | .edit _ kind _ _ _ _ _ | .remove _ kind _ _ _ _ => kind

section

variable (fingerprint : String → Option String)

/-- The commands of a run, with the shares of the moment, and their answers. -/
abbrev Entered := List ((Cmd × (String → Option Bool)) × Except CmdError Unit)

/-- A directory that one process uses at a time. -/
inductive CmdRun (s₀ : Site) : Entered → List Uuid → Site → Prop
  | start : CmdRun s₀ [] [] s₀
  | cmd {es : Entered} {drawn : List Uuid} {s : Site} {v : Vault} (h : CmdRun s₀ es drawn s) (hv : s.vault = some v) (cmd : Cmd)
      (hfresh : ∀ i ∈ cmd.drawn, i ∉ drawn) (hroom : s.disk.metadata.lamport.val + 1 < 2 ^ 64) :
    CmdRun s₀ (es ++ [((cmd, v.heldShares cmd.draw.ord), ((cmd.prog fingerprint v).run s.disk).1.1)]) (drawn ++ cmd.drawn)
      ⟨((cmd.prog fingerprint v).run s.disk).2, some ((cmd.prog fingerprint v).run s.disk).1.2⟩
  | aside {es : Entered} {drawn : List Uuid} {s : Site} {v : Vault} {w : Write} (h : CmdRun s₀ es drawn s) (hv : s.vault = some v)
      (hw : w.Proper v drawn) (hother : ∀ F : Family, w.kind ≠ F.kind) (hroom : s.disk.metadata.lamport.val + 1 < 2 ^ 64) :
    CmdRun s₀ es (drawn ++ w.drawn.toList) (s.next (.write w))
  | other {es : Entered} {drawn : List Uuid} {s : Site} {a : Vault.Action} (h : CmdRun s₀ es drawn s) (ha : a.Maintains) :
    CmdRun s₀ es drawn (s.next a)

/-- The answers to commands one after the other, and the catalogue they leave. -/
def Catalogue.play (es : List (Cmd × (String → Option Bool))) : List (Except CmdError Unit) × Catalogue :=
  es.foldl (fun (answers, c) e => (answers ++ [(c.step fingerprint e.2 e.1).1], (c.step fingerprint e.2 e.1).2))
    ([], fun _ _ => none)

end

end SshVault
