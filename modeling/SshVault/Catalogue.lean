import SshVault.Commands
import SshVault.Vault.Contents

/-!
# A vault is a catalogue

Every command is answered as the catalogue answers it, and what the catalogue holds is what is found and listed.
-/

open Lib

namespace SshVault

open Vault

/-! ## Payloads written over others -/

theorem PayloadType.toPayload_over {T : PayloadType} {x y z : T.Data}
    (h : ∀ m ∈ T.members, m.writes z = (m.writes y).or (m.writes x)) : T.toPayload x ∪ T.toPayload y = T.toPayload z := by
  refine Std.ExtTreeMap.ext_getElem? fun n => ?_
  rw [Std.ExtTreeMap.getElem?_union]
  by_cases hn : n ∈ T.members.map (·.name)
  · obtain ⟨m, hm, rfl⟩ := List.mem_map.mp hn
    have hget : ∀ x : T.Data, (T.toPayload x)[m.name]? = m.writes x := fun _ => Member.serialize_get T.names hm
    rw [hget, hget, hget, h m hm]
  · have hget : ∀ x : T.Data, (T.toPayload x)[n]? = none := fun _ => Member.serialize_absent hn
    rw [hget, hget, hget]
    rfl

theorem or_covers {α : Type} {a b : Option α} (h : a = none → b = none) : a = a.or b := by
  cases a with
  | none => rw [h rfl, Option.or_none]
  | some _ => rfl

theorem Codec.optional_covers {β : Type} {s : Spelling β} {o o' : Option β} :
    (optional s).write (o.or o') = none → (optional s).write o' = none := by
  cases o with
  | none => exact fun h => h
  | some _ => exact nofun

theorem Codec.strings_covers {items items' : List String} :
    strings.write (if items = [] then items' else items) = none → strings.write items' = none := by
  cases items with
  | nil => exact fun h => h
  | cons => exact nofun

theorem HostOpts.change_over (opts : HostOpts) (h : Host) :
    Family.host.payload h ∪ Family.host.payload (opts.change h) = Family.host.payload (opts.change h) := by
  have hopt : ∀ {β : Type} (s : Spelling β) (o o' : Option β),
      (Codec.optional s).write (o.or o') = ((Codec.optional s).write (o.or o')).or ((Codec.optional s).write o') :=
    fun _ _ _ => or_covers Codec.optional_covers
  refine PayloadType.toPayload_over (T := .host) ?_
  refine List.forall_mem_cons.mpr ⟨rfl, List.forall_mem_cons.mpr ⟨hopt .string opts.hostname h.hostname, ?_⟩⟩
  refine List.forall_mem_cons.mpr ⟨hopt .u16 opts.port h.port, List.forall_mem_cons.mpr ⟨hopt .string opts.user h.user, ?_⟩⟩
  refine List.forall_mem_cons.mpr ⟨hopt .string opts.jump h.jumpHost, ?_⟩
  refine List.forall_mem_cons.mpr ⟨hopt .string opts.identity h.identityFile, ?_⟩
  exact List.forall_mem_singleton.mpr (or_covers Codec.strings_covers)

theorem Snippet.change_over (command description : Option String) (tags : List String) (s : Snippet) :
    Family.snippet.payload s ∪ Family.snippet.payload (s.change command description tags) =
      Family.snippet.payload (s.change command description tags) := by
  refine PayloadType.toPayload_over (T := .snippet) ?_
  refine List.forall_mem_cons.mpr ⟨rfl, List.forall_mem_cons.mpr ⟨rfl, List.forall_mem_cons.mpr ⟨?_, ?_⟩⟩⟩
  · exact or_covers Codec.optional_covers
  · exact List.forall_mem_singleton.mpr (or_covers Codec.strings_covers)

section

variable {fingerprint : String → Option String} {pubkey : Option PubkeyFile} {hosts : List String} {old k : KeyMeta}

theorem KeyMeta.change_ok (h : old.change fingerprint pubkey hosts = .ok k) :
    k.name = old.name ∧ k.hosts = if hosts = [] then old.hosts else hosts := by
  unfold KeyMeta.change at h
  cases pubkey with
  | none =>
    obtain rfl := Except.ok.inj h
    exact ⟨rfl, rfl⟩
  | some file =>
    dsimp only at h
    cases hread : readPublicKey file with
    | error e =>
      rw [hread] at h
      cases h
    | ok publicKey =>
      rw [hread] at h
      obtain rfl := Except.ok.inj h
      exact ⟨rfl, rfl⟩

theorem KeyMeta.change_over (h : old.change fingerprint pubkey hosts = .ok k) :
    Family.key.payload old ∪ Family.key.payload k = Family.key.payload (old.kept k) := by
  refine PayloadType.toPayload_over (T := .keyMeta) ?_
  refine List.forall_mem_cons.mpr ⟨rfl, List.forall_mem_cons.mpr ⟨rfl, List.forall_mem_cons.mpr ⟨Option.map_or, ?_⟩⟩⟩
  refine List.forall_mem_singleton.mpr (or_covers ?_)
  change Codec.strings.write k.hosts = none → Codec.strings.write old.hosts = none
  rw [(change_ok h).2]
  exact Codec.strings_covers

end

theorem HostOpts.valid_host (opts : HostOpts) (name : String) : PayloadType.host.Valid (opts.host name) := by
  refine List.forall_mem_cons.mpr ⟨trivial, List.forall_mem_cons.mpr ⟨fun _ _ => trivial, ?_⟩⟩
  refine List.forall_mem_cons.mpr ⟨opts.isPort, List.forall_mem_cons.mpr ⟨fun _ _ => trivial, ?_⟩⟩
  refine List.forall_mem_cons.mpr ⟨fun _ _ => trivial, List.forall_mem_cons.mpr ⟨fun _ _ => trivial, ?_⟩⟩
  exact List.forall_mem_singleton.mpr trivial

theorem HostOpts.valid_change (opts : HostOpts) {h : Host} (hh : PayloadType.host.Valid h) :
    PayloadType.host.Valid (opts.change h) := by
  have hport : ∀ p, h.port = some p → p < 65536 :=
    hh ⟨_, .optional .u16, "port", (·.port)⟩ (List.mem_cons_of_mem _ (List.mem_cons_of_mem _ List.mem_cons_self))
  refine List.forall_mem_cons.mpr ⟨trivial, List.forall_mem_cons.mpr ⟨fun _ _ => trivial, ?_⟩⟩
  refine List.forall_mem_cons.mpr ⟨fun p hp => ?_, List.forall_mem_cons.mpr ⟨fun _ _ => trivial, ?_⟩⟩
  · rcases Option.or_eq_some_iff.mp hp with hp | ⟨-, hp⟩
    · exact opts.isPort p hp
    · exact hport p hp
  refine List.forall_mem_cons.mpr ⟨fun _ _ => trivial, List.forall_mem_cons.mpr ⟨fun _ _ => trivial, ?_⟩⟩
  exact List.forall_mem_singleton.mpr trivial

theorem valid_of_ne_host {F : Family} (hF : F ≠ .host) (x : F.Data) : F.exported.type.Valid x := by
  cases F with
  | host => exact absurd rfl hF
  | snippet =>
    refine List.forall_mem_cons.mpr ⟨trivial, List.forall_mem_cons.mpr ⟨trivial, ?_⟩⟩
    exact List.forall_mem_cons.mpr ⟨fun _ _ => trivial, List.forall_mem_singleton.mpr trivial⟩
  | forward =>
    refine List.forall_mem_cons.mpr ⟨trivial, List.forall_mem_cons.mpr ⟨trivial, ?_⟩⟩
    exact List.forall_mem_cons.mpr ⟨trivial, List.forall_mem_singleton.mpr trivial⟩
  | key =>
    refine List.forall_mem_cons.mpr ⟨trivial, List.forall_mem_cons.mpr ⟨trivial, ?_⟩⟩
    exact List.forall_mem_cons.mpr ⟨fun _ _ => trivial, List.forall_mem_singleton.mpr trivial⟩

/-! ## The map spells the catalogue -/

theorem Family.named (F : Family) (x : F.Data) : (F.payload x)[F.kind.nameField]? = some (.str (.plain (F.name x))) :=
  F.exported.named x

theorem Family.kind_injective : Function.Injective Family.kind := by
  intro F G h
  revert h
  cases F <;> cases G <;> decide

namespace Catalogue

structure Spells (c : Catalogue) (m : KeyedMap) : Prop where
  get : ∀ F name, m (F.kind, name) = (c F name).map F.payload
  fits : ∀ F name x, c F name = some x → F.name x = name ∧ F.exported.type.Valid x

variable {c : Catalogue} {m : KeyedMap} {F : Family} {name : String}

@[simp] theorem set_same (o : Option F.Data) : c.set F name o F name = o := by simp [set]

theorem set_name (o : Option F.Data) {name' : String} (h : name' ≠ name) : c.set F name o F name' = c F name' := by
  simp [set, h]

theorem set_family (o : Option F.Data) {G : Family} (h : G ≠ F) : c.set F name o G = c G := by simp [set, h]

theorem Spells.update (h : c.Spells m) (F : Family) (name : String) (o : Option F.Data)
    (ho : ∀ x, o = some x → F.name x = name ∧ F.exported.type.Valid x) :
    (c.set F name o).Spells (Function.update m (F.kind, name) (o.map F.payload)) := by
  constructor
  · intro G name'
    by_cases hG : G = F
    · subst hG
      by_cases hn : name' = name
      · subst hn
        rw [Function.update_self, set_same]
      · rw [Function.update_of_ne (by simp [hn]), set_name o hn, h.get]
    · rw [Function.update_of_ne (fun heq => hG (Family.kind_injective (Prod.mk.inj heq).1)), set_family o hG, h.get]
  · intro G name' x hx
    by_cases hG : G = F
    · subst hG
      by_cases hn : name' = name
      · subst hn
        rw [set_same] at hx
        exact ho x hx
      · rw [set_name o hn] at hx
        exact h.fits G name' x hx
    · rw [set_family o hG] at hx
      exact h.fits G name' x hx

theorem Spells.none (h : c.Spells m) (hc : c F name = .none) : m (F.kind, name) = .none := by rw [h.get, hc]; rfl

theorem Spells.some (h : c.Spells m) {x : F.Data} (hc : c F name = .some x) : m (F.kind, name) = .some (F.payload x) := by
  rw [h.get, hc]
  rfl

end Catalogue

/-! ## One command -/

/-- A vault that holds the catalogue, and the default share. -/
structure Catalogued (drawn : List Uuid) (c : Catalogue) (v : Vault) (d : Disk) : Prop where
  holds : ∃ n m, Local drawn n m v d ∧ c.Spells m
  shared : v.keyring.hasShare nil = true

/-- The answer is the catalogue's, and the vault holds the catalogue that is left. -/
def Obeys {ε : Type} (drawn : List Uuid) (out : (Except ε Unit × Vault) × Disk) (spec : Except ε Unit × Catalogue) : Prop :=
  out.1.1 = spec.1 ∧ Catalogued drawn spec.2 out.1.2 out.2

variable {drawn : List Uuid} {c : Catalogue} {v : Vault} {d : Disk} {F : Family} {name : String}

theorem Obeys.mapError {ε ε' : Type} {out : (Except ε Unit × Vault) × Disk} {spec : Except ε Unit × Catalogue}
    (h : Obeys drawn out spec) (f : ε → ε') :
    Obeys drawn ((out.1.1.mapError f, out.1.2), out.2) (spec.1.mapError f, spec.2) := ⟨congrArg (·.mapError f) h.1, h.2⟩

theorem Obeys.nothing {ε : Type} {out : (Except ε Unit × Vault) × Disk} {spec : Except ε Unit × Catalogue}
    (h : Obeys drawn out spec) : Obeys (drawn ++ []) out spec := by
  rw [List.append_nil]
  exact h

theorem write_keyring (w : Write) : ((w.prog v).run d).1.2.keyring = v.keyring := by
  have hwrite := (write_spec (v := v) (d := d) w).run
  generalize (w.prog v).run d = out at hwrite ⊢
  obtain ⟨⟨res, v'⟩, d'⟩ := out
  cases hwrite <;> rfl

theorem run_addIn_invalid {draw : Draw} {x : F.Data} {share : Uuid} {e : VaultError}
    (h : validatePayload F.kind (F.payload x) = .error e) :
    (v.addIn draw.ord F.kind F.kind.nameField name (F.payload x) share draw.recordId draw.entryId draw.now).run d =
      ((.error e, v), d) := by
  unfold addIn
  rw [h]
  rfl

theorem run_addIn_foreign {draw : Draw} {x : F.Data} {share : Uuid} (h : validatePayload F.kind (F.payload x) = .ok ())
    (hshare : v.keyring.hasShare share = false) :
    (v.addIn draw.ord F.kind F.kind.nameField name (F.payload x) share draw.recordId draw.entryId draw.now).run d =
      ((.error (.corrupt "cannot add to a share this device is not a member of"), v), d) := by
  unfold addIn
  rw [h]
  dsimp only
  rw [if_pos (by simp [hshare])]
  rfl

namespace Catalogued

theorem mono (h : Catalogued drawn c v d) {drawn' : List Uuid} (hsub : drawn ⊆ drawn') : Catalogued drawn' c v d := by
  obtain ⟨n, m, hlocal, hspells⟩ := h.holds
  exact ⟨⟨n, m, hlocal.refused hsub, hspells⟩, h.shared⟩

theorem call (h : Catalogued drawn c v d) (hroom : d.metadata.lamport.val + 1 < 2 ^ 64) {w : Write} (hw : w.Proper v drawn)
    (spec : Except VaultError Unit × Catalogue)
    (hspec : ∀ m, c.Spells m → (m.step w.call).1 = spec.1 ∧ spec.2.Spells (m.step w.call).2) :
    Obeys (drawn ++ w.drawn.toList) ((w.prog v).run d) spec := by
  obtain ⟨n, m, hlocal, hspells⟩ := h.holds
  obtain ⟨hanswer, hspelled⟩ := hspec m hspells
  obtain ⟨hgot, hnext⟩ := hlocal.call hw fun _ => hlocal.lamport ▸ hroom
  exact ⟨hgot.trans hanswer, ⟨_, _, hnext, hspelled⟩, (congrArg (·.hasShare nil) (write_keyring w)).trans h.shared⟩

theorem find_none (h : Catalogued drawn c v d) (ord : HashOrder) (hc : c F name = none) :
    v.find ord F.kind F.kind.nameField name = none := by
  obtain ⟨n, m, hlocal, hspells⟩ := h.holds
  exact hlocal.shelved.find_none ord (hspells.none hc)

theorem find_some (h : Catalogued drawn c v d) (ord : HashOrder) {x : F.Data} (hc : c F name = some x) :
    ∃ rec, v.find ord F.kind F.kind.nameField name = some rec ∧ F.exported.type.read rec = some x := by
  obtain ⟨n, m, hlocal, hspells⟩ := h.holds
  obtain ⟨rec, hfind, -, -, hvalues⟩ := hlocal.shelved.find_some ord (hspells.some hc)
  refine ⟨rec, hfind, PayloadType.read_of_toPayload (hspells.fits F name x hc).2 fun n => ?_⟩
  rw [← Record.values_get, hvalues]
  rfl

theorem isNone_find (h : Catalogued drawn c v d) (ord : HashOrder) (F : Family) (name : String) :
    (v.find ord F.kind F.kind.nameField name).isNone = (c F name).isNone := by
  cases hc : c F name with
  | none => rw [h.find_none ord hc]; rfl
  | some x =>
    obtain ⟨rec, hfind, -⟩ := h.find_some ord hc
    rw [hfind]
    rfl

theorem add (h : Catalogued drawn c v d) (hroom : d.metadata.lamport.val + 1 < 2 ^ 64) {x : F.Data}
    (hx : F.exported.type.Valid x) (share : Uuid) {draw : Draw} (hfresh : draw.recordId ∉ drawn) :
    Obeys (drawn ++ [draw.recordId]) (((Write.addIn draw.ord F.kind F.kind.nameField (F.name x) (F.payload x) share
      draw.recordId draw.entryId draw.now).prog v).run d) (c.add F x (v.keyring.hasShare share)) := by
  have hstays : Catalogued (drawn ++ [draw.recordId]) c v d := h.mono (List.subset_append_left _ _)
  unfold Catalogue.add
  cases hcheck : validatePayload F.kind (F.payload x) with
  | error e =>
    unfold Write.prog
    simp only [Prog.run_bind, run_addIn_invalid hcheck, Prog.run_pure]
    exact ⟨rfl, hstays⟩
  | ok _ =>
    dsimp only
    cases hheld : v.keyring.hasShare share with
    | false =>
      unfold Write.prog
      simp only [Prog.run_bind, run_addIn_foreign hcheck hheld, Prog.run_pure]
      exact ⟨rfl, hstays⟩
    | true =>
      have hw : (Write.addIn draw.ord F.kind F.kind.nameField (F.name x) (F.payload x) share draw.recordId draw.entryId
          draw.now).Proper v drawn := ⟨rfl, ⟨F.exported.type.live, hcheck, F.named x⟩, hheld, hfresh⟩
      refine h.call hroom hw _ fun m hspells => ?_
      change (m.step (.add F.kind (F.name x) (F.payload x))).1 = _ ∧
        Catalogue.Spells _ (m.step (.add F.kind (F.name x) (F.payload x))).2
      rw [if_neg (by simp)]
      cases hc : c F (F.name x) with
      | some old =>
        rw [if_pos Option.isSome_some, KeyedMap.step_add_error (hspells.some hc)]
        exact ⟨rfl, hspells⟩
      | none =>
        rw [if_neg (by simp), KeyedMap.step_add (hspells.none hc)]
        have hnext := hspells.update F (F.name x) (some x) fun y hy => ?_
        · exact ⟨rfl, hnext⟩
        · obtain rfl := Option.some.inj hy
          exact ⟨rfl, hx⟩

theorem put (h : Catalogued drawn c v d) (hroom : d.metadata.lamport.val + 1 < 2 ^ 64) {old x kept : F.Data}
    (hold : c F name = some old) (hname : F.name x = name) (hkept : F.payload old ∪ F.payload x = F.payload kept)
    (hfits : F.name kept = name ∧ F.exported.type.Valid kept) (draw : Draw) :
    Obeys drawn ((v.edit draw.ord F.kind F.kind.nameField name (F.payload x) draw.entryId draw.now).run d)
      (c.put F name x kept) := by
  unfold Catalogue.put
  cases hcheck : validatePayload F.kind (F.payload x) with
  | error e =>
    rw [run_edit_error hcheck]
    exact ⟨rfl, h⟩
  | ok _ =>
    have hw : (Write.edit draw.ord F.kind F.kind.nameField name (F.payload x) draw.entryId draw.now).Proper v drawn :=
      ⟨rfl, F.exported.type.live, hcheck, hname ▸ F.named x⟩
    have hcall := h.call hroom hw (.ok (), c.set F name (some kept)) fun m hspells => ?_
    · change Obeys (drawn ++ []) _ _ at hcall
      rw [List.append_nil] at hcall
      exact hcall
    · change (m.step (.edit F.kind name (F.payload x))).1 = _ ∧ Catalogue.Spells _ (m.step (.edit F.kind name (F.payload x))).2
      rw [KeyedMap.step_edit (hspells.some hold), hkept]
      have hnext := hspells.update F name (some kept) fun y hy => ?_
      · exact ⟨rfl, hnext⟩
      · obtain rfl := Option.some.inj hy
        exact hfits

theorem remove (h : Catalogued drawn c v d) (hroom : d.metadata.lamport.val + 1 < 2 ^ 64) (F : Family) (name : String)
    (draw : Draw) :
    Obeys drawn ((v.remove draw.ord F.kind F.kind.nameField name draw.entryId draw.now).run d) (c.remove F name) := by
  have hw : (Write.remove draw.ord F.kind F.kind.nameField name draw.entryId draw.now).Proper v drawn := rfl
  have hcall := h.call hroom hw (c.remove F name) fun m hspells => ?_
  · change Obeys (drawn ++ []) _ _ at hcall
    rw [List.append_nil] at hcall
    exact hcall
  · change (m.step (.remove F.kind name)).1 = _ ∧ Catalogue.Spells _ (m.step (.remove F.kind name)).2
    unfold Catalogue.remove
    cases hc : c F name with
    | none =>
      rw [if_neg (by simp), KeyedMap.step_remove_error (hspells.none hc)]
      exact ⟨rfl, hspells⟩
    | some x =>
      rw [if_pos Option.isSome_some, KeyedMap.step_remove (hspells.some hc)]
      have hnext := hspells.update F name none fun y hy => nomatch hy
      exact ⟨rfl, hnext⟩

theorem addAs (h : Catalogued drawn c v d) (hroom : d.metadata.lamport.val + 1 < 2 ^ 64) {x : F.Data}
    (hx : F.exported.type.Valid x) (share : Uuid) {draw : Draw} (hfresh : draw.recordId ∉ drawn) :
    Obeys (drawn ++ [draw.recordId]) ((v.addAs F F.kind.nameField (F.name x) x share draw).run d)
      (Catalogue.step.adds c F x (v.keyring.hasShare share)) := by
  have hadd := (h.add hroom hx share hfresh).mapError CmdError.vault
  unfold Vault.addAs
  unfold Write.prog at hadd
  simp only [Prog.run_bind, Prog.run_pure] at hadd ⊢
  exact hadd

theorem editAs (h : Catalogued drawn c v d) (hroom : d.metadata.lamport.val + 1 < 2 ^ 64) (F : Family) (name : String)
    (change : F.Data → Except CmdError F.Data) (kept : F.Data → F.Data → F.Data)
    (hchange : ∀ old x, F.exported.type.Valid old → change old = .ok x → F.name x = F.name old ∧
      F.payload old ∪ F.payload x = F.payload (kept old x) ∧ F.name (kept old x) = F.name old ∧
      F.exported.type.Valid (kept old x)) (draw : Draw) :
    Obeys drawn ((v.editAs F F.kind.nameField name change draw).run d) (c.edit F name change kept) := by
  unfold Vault.editAs Catalogue.edit
  cases hc : c F name with
  | none =>
    rw [h.find_none draw.ord hc]
    exact ⟨rfl, h⟩
  | some old =>
    obtain ⟨rec, hfind, hread⟩ := h.find_some draw.ord hc
    obtain ⟨n, m, hlocal, hspells⟩ := h.holds
    obtain ⟨hname, hvalid⟩ := hspells.fits F name old hc
    rw [hfind]
    dsimp only
    rw [hread]
    dsimp only
    cases hnew : change old with
    | error e => exact ⟨rfl, h⟩
    | ok x =>
      obtain ⟨hx, hunion, hkept, hkvalid⟩ := hchange old x hvalid hnew
      have hput := (h.put hroom hc (hx.trans hname) hunion ⟨hkept.trans hname, hkvalid⟩ draw).mapError CmdError.vault
      dsimp only
      simp only [Prog.run_bind, Prog.run_pure]
      exact hput

variable {fingerprint : String → Option String}

theorem fwdAdd (h : Catalogued drawn c v d) (hroom : d.metadata.lamport.val + 1 < 2 ^ 64) (name spec host : String)
    (kind : ForwardKind) {draw : Draw} (hfresh : draw.recordId ∉ drawn) (shares : String → Option Bool) :
    Obeys (drawn ++ [draw.recordId]) (((Cmd.fwdAdd name spec host kind draw).prog fingerprint v).run d)
      (c.step fingerprint shares (.fwdAdd name spec host kind draw)) := by
  have hstays : Catalogued (drawn ++ [draw.recordId]) c v d := h.mono (List.subset_append_left _ _)
  unfold Cmd.prog Vault.fwdAdd Catalogue.step
  simp only [Prog.run_bind, Prog.run_pure]
  cases hspec : SshConfig.validateForwardSpec kind spec with
  | error e => exact ⟨rfl, hstays⟩
  | ok _ =>
    have hhost : (v.find draw.ord .host "alias" host).isNone = (c .host host).isNone := h.isNone_find draw.ord .host host
    dsimp only
    rw [hhost]
    split
    · exact ⟨rfl, hstays⟩
    let f : Family.forward.Data := (⟨name, kind, spec, host⟩ : PortForward)
    have hadd := h.add (x := f) hroom (valid_of_ne_host (by decide) f) nil hfresh
    rw [h.shared] at hadd
    have hmapped := (hadd.mapError FwdError.vault).mapError CmdError.fwd
    unfold Write.prog at hmapped
    simp only [Prog.run_bind, Prog.run_pure] at hmapped ⊢
    exact hmapped

theorem fwdEdit (h : Catalogued drawn c v d) (hroom : d.metadata.lamport.val + 1 < 2 ^ 64) (name : String)
    (spec host : Option String) (kind : Option ForwardKind) (draw : Draw) (shares : String → Option Bool) :
    Obeys drawn (((Cmd.fwdEdit name spec host kind draw).prog fingerprint v).run d)
      (c.step fingerprint shares (.fwdEdit name spec host kind draw)) := by
  unfold Cmd.prog Vault.fwdEdit Catalogue.step
  simp only [Prog.run_bind, Prog.run_pure]
  cases hc : c .forward name with
  | none =>
    have hfind : v.find draw.ord .portForward "name" name = none := h.find_none draw.ord hc
    rw [hfind]
    exact ⟨rfl, h⟩
  | some old =>
    obtain ⟨rec, hfound, hread⟩ := h.find_some draw.ord hc
    have hfind : v.find draw.ord .portForward "name" name = some rec := hfound
    have hforward : rec.portForward = some old := hread
    rw [hfind]
    dsimp only
    rw [hforward]
    dsimp only
    cases hspec : SshConfig.validateForwardSpec (kind.getD (PortForward.kind old)) (spec.getD (PortForward.spec old)) with
    | error e => exact ⟨rfl, h⟩
    | ok _ =>
    have hhost : ∀ host, (v.find draw.ord .host "alias" host).isNone = (c .host host).isNone :=
      fun host => h.isNone_find draw.ord .host host
    dsimp only
    rw [hhost]
    split
    · exact ⟨rfl, h⟩
    obtain ⟨n, m, hlocal, hspells⟩ := h.holds
    let f : Family.forward.Data :=
      (⟨PortForward.name old, kind.getD (PortForward.kind old), spec.getD (PortForward.spec old),
        host.getD (PortForward.host old)⟩ : PortForward)
    have hname : Family.forward.name f = name := (hspells.fits .forward name old hc).1
    have hput := h.put hroom hc hname (toPayload_union old f) ⟨hname, valid_of_ne_host (by decide) f⟩ draw
    simp only [Prog.run_bind, Prog.run_pure]
    exact (hput.mapError FwdError.vault).mapError CmdError.fwd

theorem cmd (h : Catalogued drawn c v d) (hroom : d.metadata.lamport.val + 1 < 2 ^ 64) (cmd : Cmd)
    (hfresh : ∀ i ∈ cmd.drawn, i ∉ drawn) :
    Obeys (drawn ++ cmd.drawn) ((cmd.prog fingerprint v).run d) (c.step fingerprint (v.heldShares cmd.draw.ord) cmd) := by
  have hstays : Catalogued (drawn ++ cmd.drawn) c v d := h.mono (List.subset_append_left _ _)
  cases cmd with
  | hostAdd name opts draw =>
    have hadd : ∀ share, Obeys (drawn ++ [draw.recordId]) ((v.addAs .host "alias" name (opts.host name) share draw).run d)
        (Catalogue.step.adds c .host (opts.host name) (v.keyring.hasShare share)) := fun share =>
      h.addAs (F := .host) hroom (opts.valid_host name) share (hfresh _ List.mem_cons_self)
    unfold Cmd.prog Vault.hostAdd Catalogue.step Vault.heldShares
    dsimp only [Cmd.draw]
    cases hshare : opts.share with
    | none =>
      have hdefault := hadd SshVault.nil
      rw [h.shared] at hdefault
      exact hdefault
    | some share =>
      dsimp only
      cases hres : Devices.resolveShare v draw.ord share with
      | none => exact ⟨rfl, hstays⟩
      | some id => exact hadd id
  | hostEdit name opts draw =>
    refine Obeys.nothing (h.editAs hroom .host name (fun h => .ok (opts.change h)) (fun _ h => h) (fun old x hvalid hx => ?_) draw)
    obtain rfl := Except.ok.inj hx
    exact ⟨rfl, opts.change_over old, rfl, opts.valid_change hvalid⟩
  | snippetAdd name command description tags draw =>
    let s : Family.snippet.Data := (⟨name, command, description, tags⟩ : Snippet)
    have hadd := h.addAs hroom (valid_of_ne_host (by decide) s) SshVault.nil (hfresh _ List.mem_cons_self)
    rw [h.shared] at hadd
    exact hadd
  | snippetEdit name command description tags draw =>
    refine Obeys.nothing (h.editAs hroom .snippet name (fun s => .ok (Snippet.change command description tags s)) (fun _ s => s)
      (fun old x _ hx => ?_) draw)
    obtain rfl := Except.ok.inj hx
    exact ⟨rfl, Snippet.change_over command description tags old, rfl, valid_of_ne_host (by decide) _⟩
  | fwdAdd name spec host kind draw => exact h.fwdAdd hroom name spec host kind (hfresh _ List.mem_cons_self) _
  | fwdEdit name spec host kind draw => exact (h.fwdEdit hroom name spec host kind draw _).nothing
  | keyAdd name pubkey hosts draw =>
    unfold Cmd.prog Vault.keyAdd Catalogue.step
    dsimp only
    cases hread : readPublicKey pubkey with
    | error e => exact ⟨rfl, hstays⟩
    | ok publicKey =>
      let k : Family.key.Data := (⟨name, publicKey, fingerprint publicKey, hosts⟩ : KeyMeta)
      have hadd := h.addAs hroom (valid_of_ne_host (by decide) k) SshVault.nil (hfresh _ List.mem_cons_self)
      rw [h.shared] at hadd
      exact hadd
  | keyEdit name pubkey hosts draw =>
    refine Obeys.nothing (h.editAs hroom .key name (KeyMeta.change fingerprint pubkey hosts) KeyMeta.kept (fun old x _ hx => ?_) draw)
    have hname : KeyMeta.name x = KeyMeta.name old := (KeyMeta.change_ok hx).1
    exact ⟨hname, KeyMeta.change_over hx, hname, valid_of_ne_host (by decide) _⟩
  | rm F name draw =>
    have hremove := (h.remove hroom F name draw).mapError CmdError.vault
    have hrun : ((Cmd.rm F name draw).prog fingerprint v).run d = ((v.removeAs F F.kind.nameField name draw).run d) := by
      cases F <;> rfl
    rw [hrun]
    unfold Vault.removeAs
    simp only [Prog.run_bind, Prog.run_pure]
    exact hremove.nothing

theorem aside (h : Catalogued drawn c v d) (hroom : d.metadata.lamport.val + 1 < 2 ^ 64) {w : Write} (hw : w.Proper v drawn)
    (hother : ∀ F : Family, w.kind ≠ F.kind) :
    Catalogued (drawn ++ w.drawn.toList) c ((w.prog v).run d).1.2 ((w.prog v).run d).2 := by
  obtain ⟨n, m, hlocal, hspells⟩ := h.holds
  obtain ⟨-, hnext⟩ := hlocal.call hw fun _ => hlocal.lamport ▸ hroom
  refine ⟨⟨_, _, hnext, fun F name => ?_, hspells.fits⟩, (congrArg (·.hasShare SshVault.nil) (write_keyring w)).trans h.shared⟩
  have hne : ∀ name', (F.kind, name) ≠ (w.kind, name') := fun _ heq => hother F (Prod.mk.inj heq).1.symm
  rw [← hspells.get]
  cases w with
  | addIn _ kind _ name' payload =>
    change (m.step (.add kind name' payload)).2 _ = _
    cases hm : m (kind, name') with
    | none => rw [KeyedMap.step_add hm]; exact Function.update_of_ne (hne name') _ _
    | some _ => rw [KeyedMap.step_add_error hm]
  | edit _ kind _ name' payload =>
    change (m.step (.edit kind name' payload)).2 _ = _
    cases hm : m (kind, name') with
    | none => rw [KeyedMap.step_edit_error hm]
    | some _ => rw [KeyedMap.step_edit hm]; exact Function.update_of_ne (hne name') _ _
  | remove _ kind _ name' =>
    change (m.step (.remove kind name')).2 _ = _
    cases hm : m (kind, name') with
    | none => rw [KeyedMap.step_remove_error hm]
    | some _ => rw [KeyedMap.step_remove hm]; exact Function.update_of_ne (hne name') _ _

theorem maintains (h : Catalogued drawn c v d) {a : Vault.Action} (ha : a.Maintains) :
    ∃ v' d', (Site.mk d (some v)).next a = ⟨d', some v'⟩ ∧ Catalogued drawn c v' d' := by
  obtain ⟨n, m, hlocal, hspells⟩ := h.holds
  obtain ⟨v', d', hnext, hm, hsettled⟩ := hlocal.settled.maintains ha
  refine ⟨v', d', hnext, ⟨n, m, hlocal.maintained hm hsettled, hspells⟩, ?_⟩
  cases hm with
  | cached => exact h.shared
  | pushed id key => exact hasShare_pushShareKey id key h.shared

theorem shows (h : Catalogued drawn c v d) : Shows v c := by
  obtain ⟨n, m, hlocal, hspells⟩ := h.holds
  refine ⟨fun F name x hx => (hspells.fits F name x hx).1, fun ord F name => ?_, fun ord F => ?_⟩
  · cases hc : c F name with
    | none => rw [h.find_none ord hc]; rfl
    | some x =>
      obtain ⟨rec, hfind, hread⟩ := h.find_some ord hc
      rw [hfind]
      exact hread
  · have hread : ∀ name, (m (F.kind, name)).bind F.exported.type.ofObject = c F name := by
      intro name
      rw [hspells.get]
      cases hc : c F name with
      | none => rfl
      | some x => exact PayloadType.ofObject_toPayload (hspells.fits F name x hc).2
    obtain ⟨names, hnodup, hmem, hperm⟩ := hlocal.shelved.list ord F.kind F.exported.type.ofObject fun name p hp => by
      have hname := hread name
      have hsome := hspells.get F name
      rw [hp] at hname hsome
      obtain ⟨x, hx, -⟩ := Option.map_eq_some_iff.mp hsome.symm
      exact Option.isSome_of_eq_some (hname.trans hx)
    refine ⟨names, hnodup, fun name => ?_, ?_⟩
    · rw [hmem, hspells.get, Option.isSome_map]
    · have hlist : (v.list ord F.kind fun r => F.exported.type.ofObject r.values) = v.list ord F.kind F.exported.type.read :=
        congrArg (v.list ord F.kind) (funext fun r => (PayloadType.read_eq_ofObject r).symm)
      rw [hlist, List.map_congr_left fun name _ => hread name] at hperm
      have hids := hperm.filterMap id
      rw [List.filterMap_map, List.filterMap_map] at hids
      rw [← List.filterMap_eq_map]
      exact hids

end Catalogued

/-! ## Runs -/

variable {fingerprint : String → Option String} {es : Entered} {s : Site}

theorem Catalogue.play_snoc (es : List (Cmd × (String → Option Bool))) (cmd : Cmd) (shares : String → Option Bool) :
    play fingerprint (es ++ [(cmd, shares)]) =
      ((play fingerprint es).1 ++ [((play fingerprint es).2.step fingerprint shares cmd).1],
        ((play fingerprint es).2.step fingerprint shares cmd).2) := by
  unfold play
  rw [List.foldl_concat]

theorem CmdRun.catalogued {s₀ : Site} (h : CmdRun fingerprint s₀ es drawn s) {v₀ : Vault} (hv₀ : s₀.vault = some v₀)
    (h₀ : Catalogued [] (fun _ _ => none) v₀ s₀.disk) :
    es.map (·.2) = (Catalogue.play fingerprint (es.map (·.1))).1 ∧
      ∃ v, s.vault = some v ∧ Catalogued drawn (Catalogue.play fingerprint (es.map (·.1))).2 v s.disk := by
  induction h with
  | start => exact ⟨rfl, v₀, hv₀, h₀⟩
  | @cmd es drawn s v h hv cmd hfresh hroom ih =>
    obtain ⟨hanswers, v', hv', hheld⟩ := ih
    obtain rfl : v' = v := Option.some.inj (hv'.symm.trans hv)
    have hcmd : Obeys _ ((cmd.prog fingerprint v').run s.disk) _ := hheld.cmd hroom cmd hfresh
    obtain ⟨hanswer, hnext⟩ := hcmd
    rw [List.map_append, List.map_append, List.map_singleton, List.map_singleton, Catalogue.play_snoc, hanswers, hanswer]
    exact ⟨rfl, _, rfl, hnext⟩
  | @aside es drawn s v w h hv hw hother hroom ih =>
    obtain ⟨hanswers, v', hv', hheld⟩ := ih
    obtain rfl : v' = v := Option.some.inj (hv'.symm.trans hv)
    have hnext := hheld.aside hroom hw hother
    refine ⟨hanswers, ((w.prog v').run s.disk).1.2, ?_, ?_⟩
    · unfold Site.next
      rw [hv]
      simp only [Action.prog, Prog.run_bind, Prog.run_pure]
    · unfold Site.next
      rw [hv]
      simp only [Action.prog, Prog.run_bind, Prog.run_pure]
      exact hnext
  | @other es drawn s a h ha ih =>
    obtain ⟨hanswers, v, hv, hheld⟩ := ih
    obtain ⟨d, vault⟩ := s
    obtain rfl : vault = some v := hv
    obtain ⟨v', d', hnext, hheld'⟩ := hheld.maintains ha
    exact ⟨hanswers, v', by rw [hnext], by rw [hnext]; exact hheld'⟩

theorem created_catalogued (deviceName : String) (vaultId : Uuid) (vaultKey : Key) (recoveryPub : Bytes) (x : XKey) (ed : EdKey)
    (deviceId : Uuid) : ∃ v, (created deviceName vaultId vaultKey recoveryPub x ed deviceId).vault = some v ∧
      Catalogued [] (fun _ _ => none) v (created deviceName vaultId vaultKey recoveryPub x ed deviceId).disk := by
  obtain ⟨v₀, hv₀, h₀⟩ := created_local deviceName vaultId vaultKey recoveryPub x ed deviceId
  refine ⟨v₀, hv₀, ⟨0, _, h₀, fun _ _ => rfl, fun _ _ _ hx => nomatch hx⟩, ?_⟩
  obtain rfl := Option.some.inj hv₀
  rfl

/-- **A vault is a catalogue.** -/
theorem commands_answered (deviceName : String) (vaultId : Uuid) (vaultKey : Key) (recoveryPub : Bytes) (x : XKey) (ed : EdKey)
    (deviceId : Uuid) (h : CmdRun fingerprint (created deviceName vaultId vaultKey recoveryPub x ed deviceId) es drawn s) :
    es.map (·.2) = (Catalogue.play fingerprint (es.map (·.1))).1 ∧
      ∃ v, s.vault = some v ∧ Shows v (Catalogue.play fingerprint (es.map (·.1))).2 := by
  obtain ⟨v₀, hv₀, h₀⟩ := created_catalogued deviceName vaultId vaultKey recoveryPub x ed deviceId
  obtain ⟨hanswers, v, hv, hheld⟩ := h.catalogued hv₀ h₀
  exact ⟨hanswers, v, hv, hheld.shows⟩

namespace DeskCommands

open Vault.Desk (desk anyOrder opened)

/-- Of two keys of three bytes each, and of a text with no second word. -/
def fingerprintOf (publicKey : String) : Option String :=
  if publicKey = "ssh-ed25519 AAAA" then some "SHA256:cJ6AyISHokEeHuTfufIqhhSS0gxHZRUMDHlKvXD4FHw"
  else if publicKey = "ssh-ed25519 AAAB" then some "SHA256:z3YF7RvHNfbIJVVBVGJ0Z+HKyd9UzuhpkhjtQ0YDxWg"
  else none

def addWeb (draw : Draw) : Cmd := .hostAdd "web" ⟨some "web.lan", none, none, none, none, [], none, nofun⟩ draw

/-- Sets the user and the tags. -/
def tagWeb (draw : Draw) : Cmd := .hostEdit "web" ⟨none, none, some "root", none, none, ["prod"], none, nofun⟩ draw

def addKey (draw : Draw) : Cmd := .keyAdd "laptop" ⟨"id.pub", some "ssh-ed25519 AAAA\n"⟩ ["web"] draw

/-- What a command leaves of a site with this vault open. -/
def obeyed (s : Site) (v : Vault) (cmd : Cmd) : Site :=
  ⟨((cmd.prog fingerprintOf v).run s.disk).2, some ((cmd.prog fingerprintOf v).run s.disk).1.2⟩

def added : Site := obeyed desk opened (addWeb ⟨anyOrder, 20, 30, 0⟩)

/-- A new process after the add. -/
def reopened : Site := added.next .reopen

def reopenedVault : Vault := reopened.vault.get (by decide +kernel)

def tagged : Site := obeyed reopened reopenedVault (tagWeb ⟨anyOrder, 0, 31, 0⟩)

def taggedVault : Vault := tagged.vault.get rfl

def keyed : Site := obeyed tagged taggedVault (addKey ⟨anyOrder, 21, 32, 0⟩)

def entered : Entered :=
  [((addWeb ⟨anyOrder, 20, 30, 0⟩, opened.heldShares anyOrder),
      (((addWeb ⟨anyOrder, 20, 30, 0⟩).prog fingerprintOf opened).run desk.disk).1.1),
    ((tagWeb ⟨anyOrder, 0, 31, 0⟩, reopenedVault.heldShares anyOrder),
      (((tagWeb ⟨anyOrder, 0, 31, 0⟩).prog fingerprintOf reopenedVault).run reopened.disk).1.1),
    ((addKey ⟨anyOrder, 21, 32, 0⟩, taggedVault.heldShares anyOrder),
      (((addKey ⟨anyOrder, 21, 32, 0⟩).prog fingerprintOf taggedVault).run tagged.disk).1.1)]

theorem entered_run : CmdRun fingerprintOf desk entered [20, 21] keyed := by
  have hadded : CmdRun fingerprintOf desk _ _ added := .cmd .start rfl (addWeb ⟨anyOrder, 20, 30, 0⟩) (by simp) (by decide +kernel)
  have hreopened : CmdRun fingerprintOf desk _ _ reopened := .other hadded trivial
  have htagged : CmdRun fingerprintOf desk _ _ tagged :=
    .cmd hreopened (Option.some_get _).symm (tagWeb ⟨anyOrder, 0, 31, 0⟩) nofun (by decide +kernel)
  exact .cmd htagged rfl (addKey ⟨anyOrder, 21, 32, 0⟩) (by simp [addKey, addWeb, tagWeb, Cmd.drawn]) (by decide +kernel)

theorem commands_answered_desk :
    (entered.map (·.2) = (Catalogue.play fingerprintOf (entered.map (·.1))).1 ∧
      ∃ v, keyed.vault = some v ∧ Shows v (Catalogue.play fingerprintOf (entered.map (·.1))).2) ∧
      ((Catalogue.play fingerprintOf (entered.map (·.1))).2 .host "web").map Host.user = some (some "root") :=
  ⟨commands_answered "desk" 7 (.vault 1 0) (.ed (.recovery 1)) 0 (.device 0) 10 entered_run, by decide +kernel⟩

end DeskCommands

end SshVault
