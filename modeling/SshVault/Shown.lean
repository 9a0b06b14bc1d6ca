import SshVault.Catalogue

/-!
# What a catalogue shows

What every command leaves true of each value, and the file that `apply` writes.
-/

open Lib

namespace SshVault

open Vault

variable {fingerprint : String → Option String} {c c' : Catalogue} {F : Family} {es : Entered} {drawn : List Uuid} {s : Site}
  {v : Vault}

/-! ## Moves of the catalogue -/

namespace Catalogue

/-- Refused, or one entry is another. -/
inductive Moves (fingerprint : String → Option String) (c : Catalogue) : Cmd → Catalogue → Prop
  | refused (cmd : Cmd) : Moves fingerprint c cmd c
  | hostAdd (name : String) (opts : HostOpts) (draw : Draw) :
    Moves fingerprint c (.hostAdd name opts draw) (c.set .host name (some (opts.host name)))
  | hostEdit (name : String) (opts : HostOpts) (draw : Draw) {old : Host} (hold : c .host name = some old) :
    Moves fingerprint c (.hostEdit name opts draw) (c.set .host name (some (opts.change old)))
  | snippetAdd (name command : String) (description : Option String) (tags : List String) (draw : Draw) :
    Moves fingerprint c (.snippetAdd name command description tags draw)
      (c.set .snippet name (some (⟨name, command, description, tags⟩ : Snippet)))
  | snippetEdit (name : String) (command description : Option String) (tags : List String) (draw : Draw) {old : Snippet}
    (hold : c .snippet name = some old) :
    Moves fingerprint c (.snippetEdit name command description tags draw)
      (c.set .snippet name (some (old.change command description tags)))
  | fwdAdd (name spec host : String) (kind : ForwardKind) (draw : Draw) (hspec : SshConfig.validateForwardSpec kind spec = .ok ()) :
    Moves fingerprint c (.fwdAdd name spec host kind draw)
      (c.set .forward name (some (⟨name, kind, spec, host⟩ : PortForward)))
  | fwdEdit (name : String) (spec host : Option String) (kind : Option ForwardKind) (draw : Draw) {f : PortForward}
    (hspec : SshConfig.validateForwardSpec f.kind f.spec = .ok ()) :
    Moves fingerprint c (.fwdEdit name spec host kind draw) (c.set .forward name (some f))
  | keyAdd (name : String) (pubkey : PubkeyFile) (hosts : List String) (draw : Draw) (publicKey : String) :
    Moves fingerprint c (.keyAdd name pubkey hosts draw)
      (c.set .key name (some (⟨name, publicKey, fingerprint publicKey, hosts⟩ : KeyMeta)))
  | keyEdit (name : String) (pubkey : Option PubkeyFile) (hosts : List String) (draw : Draw) {old k : KeyMeta}
    (hold : c .key name = some old) (hchange : old.change fingerprint pubkey hosts = .ok k) :
    Moves fingerprint c (.keyEdit name pubkey hosts draw) (c.set .key name (some (old.kept k)))
  | rm (F : Family) (name : String) (draw : Draw) : Moves fingerprint c (.rm F name draw) (c.set F name none)

theorem add_cases (x : F.Data) (held : Bool) : (c.add F x held).2 = c ∨ (c.add F x held).2 = c.set F (F.name x) (some x) := by
  unfold add
  split
  · exact Or.inl rfl
  · split
    · exact Or.inl rfl
    · split
      · exact Or.inl rfl
      · exact Or.inr rfl

theorem put_cases (name : String) (x kept : F.Data) :
    (c.put F name x kept).2 = c ∨ (c.put F name x kept).2 = c.set F name (some kept) := by
  unfold put
  split
  · exact Or.inl rfl
  · exact Or.inr rfl

theorem edit_cases (name : String) (change : F.Data → Except CmdError F.Data) (kept : F.Data → F.Data → F.Data) :
    (c.edit F name change kept).2 = c ∨ ∃ old x, c F name = some old ∧ change old = .ok x ∧
      (c.edit F name change kept).2 = c.set F name (some (kept old x)) := by
  unfold edit
  cases hold : c F name with
  | none => exact Or.inl rfl
  | some old =>
    dsimp only
    cases hx : change old with
    | error e => exact Or.inl rfl
    | ok x => exact (put_cases name x (kept old x)).imp_right fun h => ⟨old, x, rfl, hx, h⟩

theorem Moves.adds (x : F.Data) (held : Bool) {cmd : Cmd} (hset : Moves fingerprint c cmd (c.set F (F.name x) (some x))) :
    Moves fingerprint c cmd (step.adds c F x held).2 := by
  have hadd : (step.adds c F x held).2 = (c.add F x held).2 := rfl
  rw [hadd]
  rcases add_cases x held with h | h <;> rw [h]
  · exact .refused cmd
  · exact hset

theorem Moves.edits (F : Family) (name : String) (change : F.Data → Except CmdError F.Data) (kept : F.Data → F.Data → F.Data)
    {cmd : Cmd} (hset : ∀ old x, c F name = some old → change old = .ok x →
      Moves fingerprint c cmd (c.set F name (some (kept old x)))) : Moves fingerprint c cmd (c.edit F name change kept).2 := by
  rcases edit_cases name change kept with h | ⟨old, x, hold, hx, h⟩ <;> rw [h]
  · exact .refused cmd
  · exact hset old x hold hx

theorem step_moves (c : Catalogue) (shares : String → Option Bool) (cmd : Cmd) :
    Moves fingerprint c cmd (c.step fingerprint shares cmd).2 := by
  cases cmd with
  | hostAdd name opts draw =>
    have hset : ∀ held, Moves fingerprint c (.hostAdd name opts draw) (step.adds c .host (opts.host name) held).2 :=
      fun held => Moves.adds (F := .host) (opts.host name) held (.hostAdd name opts draw)
    unfold step
    dsimp only
    split
    · exact hset true
    · split
      · exact .refused _
      · exact hset _
  | hostEdit name opts draw =>
    refine Moves.edits .host name (fun h => .ok (opts.change h)) (fun _ h => h) fun old x hold hx => ?_
    obtain rfl := Except.ok.inj hx
    exact .hostEdit name opts draw hold
  | snippetAdd name command description tags draw =>
    exact Moves.adds (F := .snippet) (⟨name, command, description, tags⟩ : Snippet) true (.snippetAdd ..)
  | snippetEdit name command description tags draw =>
    refine Moves.edits .snippet name (fun s => .ok (Snippet.change command description tags s)) (fun _ s => s)
      fun old x hold hx => ?_
    obtain rfl := Except.ok.inj hx
    exact .snippetEdit name command description tags draw hold
  | fwdAdd name spec host kind draw =>
    unfold step
    dsimp only
    split
    · exact .refused _
    · rename_i hspec
      split
      · exact .refused _
      · rcases add_cases (c := c) (F := .forward) (⟨name, kind, spec, host⟩ : PortForward) true with h | h
        · rw [h]
          exact .refused _
        · rw [h]
          exact .fwdAdd name spec host kind draw hspec
  | fwdEdit name spec host kind draw =>
    unfold step
    dsimp only
    cases hold : c .forward name with
    | none => exact .refused _
    | some old =>
      let f : PortForward := ⟨PortForward.name old, kind.getD (PortForward.kind old), spec.getD (PortForward.spec old),
        host.getD (PortForward.host old)⟩
      dsimp only
      cases hspec : SshConfig.validateForwardSpec f.kind f.spec with
      | error e => exact .refused _
      | ok _ =>
        dsimp only
        split
        · exact .refused _
        · change Moves fingerprint c _ (c.put .forward name f f).2
          rcases put_cases (c := c) (F := .forward) name f f with h | h <;> rw [h]
          · exact .refused _
          · exact .fwdEdit name spec host kind draw hspec
  | keyAdd name pubkey hosts draw =>
    unfold step
    dsimp only
    split
    · exact .refused _
    · rename_i publicKey _
      exact Moves.adds (F := .key) (⟨name, publicKey, fingerprint publicKey, hosts⟩ : KeyMeta) true (.keyAdd ..)
  | keyEdit name pubkey hosts draw =>
    exact Moves.edits .key name (KeyMeta.change fingerprint pubkey hosts) KeyMeta.kept fun old x hold hx =>
      .keyEdit name pubkey hosts draw hold hx
  | rm F name draw =>
    unfold step remove
    dsimp only
    split
    · exact .rm F name draw
    · exact .refused _

/-! ## What holds of every value -/

def All (P : (F : Family) → F.Data → Prop) (c : Catalogue) : Prop := ∀ F name x, c F name = some x → P F x

variable {P : (F : Family) → F.Data → Prop}

theorem All.set (h : All P c) {name : String} {o : Option F.Data} (ho : ∀ x, o = some x → P F x) : All P (c.set F name o) := by
  intro G name' x hx
  by_cases hG : G = F
  · subst hG
    by_cases hn : name' = name
    · subst hn
      rw [set_same] at hx
      exact ho x hx
    · rw [set_name o hn] at hx
      exact h G name' x hx
  · rw [set_family o hG] at hx
    exact h G name' x hx

/-- **A run.** What holds of every value and is left so by each command holds after all of them. -/
theorem All.play {es : List (Cmd × (String → Option Bool))}
    (hstep : ∀ e ∈ es, ∀ c c', All P c → Moves fingerprint c e.1 c' → All P c') : All P (Catalogue.play fingerprint es).2 := by
  induction es using List.reverseRecOn with
  | nil => exact fun _ _ _ hx => nomatch hx
  | append_singleton es e ih =>
    have hbefore := ih fun e' he' => hstep e' (List.mem_append_left _ he')
    rw [play_snoc]
    exact hstep e (List.mem_append_right _ List.mem_cons_self) _ _ hbefore (step_moves _ e.2 e.1)

end Catalogue

/-- A directory as `init` leaves it. -/
def Created (s : Site) : Prop :=
  ∃ deviceName vaultId vaultKey recoveryPub x ed deviceId, s = created deviceName vaultId vaultKey recoveryPub x ed deviceId

theorem CmdRun.shows {s₀ : Site} (h₀ : Created s₀) (h : CmdRun fingerprint s₀ es drawn s) (hv : s.vault = some v) :
    Shows v (Catalogue.play fingerprint (es.map (·.1))).2 := by
  obtain ⟨deviceName, vaultId, vaultKey, recoveryPub, x, ed, deviceId, rfl⟩ := h₀
  obtain ⟨v₀, hv₀, hheld₀⟩ := created_catalogued deviceName vaultId vaultKey recoveryPub x ed deviceId
  obtain ⟨-, v', hv', hheld⟩ := h.catalogued hv₀ hheld₀
  obtain rfl := Option.some.inj (hv'.symm.trans hv)
  exact hheld.shows

/-! ## Fingerprints -/

section

variable (fingerprint : String → Option String)

def Fingerprinted : (F : Family) → F.Data → Prop
  | .key, (k : KeyMeta) => k.fingerprint = fingerprint k.publicKey
  | .host, _ | .snippet, _ | .forward, _ => True

/-- If it puts another public key in the place of one, that has a fingerprint. -/
def Cmd.Hashed : Cmd → Prop
  | .keyEdit _ (some file) _ _ => ∀ publicKey, readPublicKey file = .ok publicKey → (fingerprint publicKey).isSome = true
  | _ => True

end

theorem KeyMeta.change_cases {pubkey : Option PubkeyFile} {hosts : List String} {old k : KeyMeta}
    (h : old.change fingerprint pubkey hosts = .ok k) :
    pubkey = none ∧ k.fingerprint = old.fingerprint ∧ k.publicKey = old.publicKey ∨
      ∃ file, pubkey = some file ∧ readPublicKey file = .ok k.publicKey ∧ k.fingerprint = fingerprint k.publicKey := by
  unfold KeyMeta.change at h
  cases pubkey with
  | none =>
    obtain rfl := Except.ok.inj h
    exact Or.inl ⟨rfl, rfl, rfl⟩
  | some file =>
    dsimp only at h
    cases hread : readPublicKey file with
    | error e =>
      rw [hread] at h
      cases h
    | ok publicKey =>
      rw [hread] at h
      obtain rfl := Except.ok.inj h
      exact Or.inr ⟨file, rfl, hread, rfl⟩

theorem fingerprinted_step {cmd : Cmd} (hcmd : cmd.Hashed fingerprint) (h : c.All (Fingerprinted fingerprint))
    (hm : c.Moves fingerprint cmd c') : c'.All (Fingerprinted fingerprint) := by
  cases hm with
  | refused => exact h
  | hostAdd | hostEdit | snippetAdd | snippetEdit | fwdAdd | fwdEdit => exact h.set fun _ _ => trivial
  | keyAdd =>
    refine h.set fun x hx => ?_
    obtain rfl := Option.some.inj hx
    rfl
  | @keyEdit name pubkey hosts draw old k hold hchange =>
    refine h.set fun x hx => ?_
    obtain rfl := Option.some.inj hx
    have hfits : old.fingerprint = fingerprint old.publicKey := h .key name old hold
    change k.fingerprint.or old.fingerprint = fingerprint k.publicKey
    rcases KeyMeta.change_cases hchange with ⟨-, hfp, hpk⟩ | ⟨file, rfl, hread, hfp⟩
    · rw [hfp, hpk, Option.or_self, hfits]
    · obtain ⟨fp, hfound⟩ := Option.isSome_iff_exists.mp (hcmd k.publicKey hread)
      rw [hfp, hfound]
      rfl
  | rm => exact h.set fun _ hx => nomatch hx

/-- **Fingerprints.** Where every key that is put in the place of another has a fingerprint, each is listed with its own. -/
theorem fingerprints_fit {s₀ : Site} (h₀ : Created s₀) (h : CmdRun fingerprint s₀ es drawn s) (hv : s.vault = some v)
    (hhashed : ∀ e ∈ es, e.1.1.Hashed fingerprint) (ord : HashOrder) :
    ∀ k ∈ (v.list ord .keyMeta Record.keyMeta).map (·.2), k.fingerprint = fingerprint k.publicKey := by
  intro k hk
  have hall : (Catalogue.play fingerprint (es.map (·.1))).2.All (Fingerprinted fingerprint) := by
    refine .play fun e he c c' hc hm => fingerprinted_step ?_ hc hm
    obtain ⟨e', he', rfl⟩ := List.mem_map.mp he
    exact hhashed e' he'
  obtain ⟨name, hname⟩ := ((h.shows h₀ hv).list ord .key).mem_iff.mp hk
  exact hall .key name k hname

namespace DeskCommands

open Vault.Desk (anyOrder)

def keyedVault : Vault := keyed.vault.get rfl

theorem desk_created : Created Vault.Desk.desk := ⟨"desk", 7, .vault 1 0, .ed (.recovery 1), 0, .device 0, 10, rfl⟩

/-- Puts another public key in the place of the one that was added. -/
def replaceKey (draw : Draw) : Cmd := .keyEdit "laptop" (some ⟨"new.pub", some "ssh-ed25519 AAAB\n"⟩) [] draw

def replaced : Site := obeyed keyed keyedVault (replaceKey ⟨anyOrder, 0, 33, 0⟩)

def replacedVault : Vault := replaced.vault.get rfl

def replacing : Entered :=
  entered ++ [((replaceKey ⟨anyOrder, 0, 33, 0⟩, keyedVault.heldShares anyOrder),
    (((replaceKey ⟨anyOrder, 0, 33, 0⟩).prog fingerprintOf keyedVault).run keyed.disk).1.1)]

theorem replacing_run : CmdRun fingerprintOf Vault.Desk.desk replacing [20, 21] replaced :=
  .cmd entered_run rfl (replaceKey ⟨anyOrder, 0, 33, 0⟩) nofun (by decide +kernel)

theorem replaceKey_hashed (draw : Draw) : (replaceKey draw).Hashed fingerprintOf := by
  intro publicKey hread
  have hpublic : ¬ "PRIVATE KEY".toList <:+: "ssh-ed25519 AAAB\n".toList := by decide +kernel
  have htrim : String.ofList (SshConfig.trim "ssh-ed25519 AAAB\n".toList) = "ssh-ed25519 AAAB" := by decide +kernel
  unfold readPublicKey at hread
  dsimp only at hread
  rw [if_neg hpublic, htrim] at hread
  obtain rfl := Except.ok.inj hread
  rfl

theorem fingerprints_fit_desk :
    (∀ ord, ∀ k ∈ (replacedVault.list ord .keyMeta Record.keyMeta).map (·.2), k.fingerprint = fingerprintOf k.publicKey) ∧
      (replacedVault.list anyOrder .keyMeta Record.keyMeta).map (fun e => e.2.fingerprint) =
        [some "SHA256:z3YF7RvHNfbIJVVBVGJ0Z+HKyd9UzuhpkhjtQ0YDxWg"] := by
  refine ⟨fingerprints_fit desk_created replacing_run rfl fun e he => ?_, by decide +kernel⟩
  rcases List.mem_append.mp he with he | he
  · rcases he with _ | ⟨_, _ | ⟨_, _ | ⟨_, he⟩⟩⟩
    · trivial
    · trivial
    · trivial
    · cases he
  · rw [List.mem_singleton.mp he]
    exact replaceKey_hashed _

end DeskCommands

/-! ## The file that `apply` writes -/

def SpecFits : (F : Family) → F.Data → Prop
  | .forward, (f : PortForward) => f.Valid
  | .host, _ | .snippet, _ | .key, _ => True

theorem specFits_step {cmd : Cmd} (h : c.All SpecFits) (hm : c.Moves fingerprint cmd c') : c'.All SpecFits := by
  cases hm with
  | refused => exact h
  | hostAdd | hostEdit | snippetAdd | snippetEdit | keyAdd | keyEdit => exact h.set fun _ _ => trivial
  | fwdAdd _ _ _ _ _ hspec | fwdEdit _ _ _ _ _ hspec =>
    refine h.set fun x hx => ?_
    obtain rfl := Option.some.inj hx
    exact hspec
  | rm => exact h.set fun _ hx => nomatch hx

theorem Shows.render {v' : Vault} (h : Shows v c) (h' : Shows v' c') (hhosts : c .host = c' .host)
    (hforwards : c .forward = c' .forward) (ord₁ ord₂ ord₁' ord₂' : HashOrder) :
    SshConfig.render (v.hosts ord₁) (v.forwards ord₂) = SshConfig.render (v'.hosts ord₁') (v'.forwards ord₂') := by
  have hlist : Lists (c .host) (v.hosts ord₁) := h.list ord₁ .host
  have hlist' : Lists (c .host) (v'.hosts ord₁') := hhosts ▸ h'.list ord₁' .host
  have hfwds : Lists (c .forward) (v.forwards ord₂) := h.list ord₂ .forward
  have hfwds' : Lists (c .forward) (v'.forwards ord₂') := hforwards ▸ h'.list ord₂' .forward
  have hsorted := Lists.sort (h.named .host) hlist hlist'
  have hrender : SshConfig.renderHost (v.forwards ord₂) = SshConfig.renderHost (v'.forwards ord₂') := by
    funext host
    have hattached : SshConfig.attached (v.forwards ord₂) host = SshConfig.attached (v'.forwards ord₂') host :=
      Lists.sort_filter (h.named .forward) hfwds hfwds' fun f => f.host = host.hostAlias
    unfold SshConfig.renderHost
    rw [hattached]
  unfold SshConfig.render
  rw [hrender]
  exact congrArg (fun l => (l.mapM (SshConfig.renderHost (v'.forwards ord₂'))).bind fun blocks =>
    some (SshConfig.header ++ String.join blocks)) hsorted

/-- **`apply`.** What it writes is a function of the hosts and the forwards: two vaults with the same ones, whatever made
them so and in whatever order they list them, get the same text. -/
theorem apply_of_catalogue {s₀ s₀' s' : Site} {es' : Entered} {drawn' : List Uuid} {v' : Vault} (h₀ : Created s₀)
    (h₀' : Created s₀') (h : CmdRun fingerprint s₀ es drawn s) (h' : CmdRun fingerprint s₀' es' drawn' s')
    (hv : s.vault = some v) (hv' : s'.vault = some v')
    (hhosts : (Catalogue.play fingerprint (es.map (·.1))).2 .host = (Catalogue.play fingerprint (es'.map (·.1))).2 .host)
    (hforwards : (Catalogue.play fingerprint (es.map (·.1))).2 .forward =
      (Catalogue.play fingerprint (es'.map (·.1))).2 .forward) :
    ∃ text, ∀ ord₁ ord₂, SshConfig.render (v.hosts ord₁) (v.forwards ord₂) = some text ∧
      SshConfig.render (v'.hosts ord₁) (v'.forwards ord₂) = some text := by
  have hshows := h.shows h₀ hv
  have hshows' := h'.shows h₀' hv'
  have hfits : (Catalogue.play fingerprint (es.map (·.1))).2.All SpecFits := .play fun _ _ _ _ hc hm => specFits_step hc hm
  have hvalid : ∀ ord, ∀ f ∈ v.forwards ord, f.Valid := by
    intro ord f hf
    obtain ⟨name, hname⟩ := (hshows.list ord .forward).mem_iff.mp hf
    exact hfits .forward name f hname
  -- The text does not depend on the order, so one order gives it.
  let ord : HashOrder := ⟨fun l => l, .refl⟩
  obtain ⟨text, htext⟩ : ∃ text, SshConfig.render (v.hosts ord) (v.forwards ord) = some text :=
    ⟨_, SshConfig.render_eq_some_iff.mpr ⟨fun _ _ f hf => (hvalid ord f (SshConfig.mem_attached hf)).renderable, rfl⟩⟩
  refine ⟨text, fun ord₁ ord₂ => ⟨?_, ?_⟩⟩
  · rw [hshows.render hshows rfl rfl ord₁ ord₂ ord ord]
    exact htext
  · rw [← hshows.render hshows' hhosts hforwards ord ord ord₁ ord₂]
    exact htext

namespace DeskCommands

/-- Another device, with its own clocks and ids. -/
def laptop : Site := created "laptop" 8 (.vault 2 0) (.ed (.recovery 2)) 1 (.device 1) 11

def reversed : HashOrder := ⟨List.reverse, fun _ => List.reverse_perm _⟩

def laptopVault : Vault := laptop.vault.get rfl

def laptopAdded : Site := obeyed laptop laptopVault (addWeb ⟨reversed, 40, 50, 7⟩)

def laptopAddedVault : Vault := laptopAdded.vault.get rfl

def laptopTagged : Site := obeyed laptopAdded laptopAddedVault (tagWeb ⟨reversed, 0, 51, 7⟩)

def laptopTaggedVault : Vault := laptopTagged.vault.get rfl

def onLaptop : Entered :=
  [((addWeb ⟨reversed, 40, 50, 7⟩, laptopVault.heldShares reversed),
      (((addWeb ⟨reversed, 40, 50, 7⟩).prog fingerprintOf laptopVault).run laptop.disk).1.1),
    ((tagWeb ⟨reversed, 0, 51, 7⟩, laptopAddedVault.heldShares reversed),
      (((tagWeb ⟨reversed, 0, 51, 7⟩).prog fingerprintOf laptopAddedVault).run laptopAdded.disk).1.1)]

theorem laptop_run : CmdRun fingerprintOf laptop onLaptop [40] laptopTagged := by
  have hadded : CmdRun fingerprintOf laptop _ _ laptopAdded :=
    .cmd .start rfl (addWeb ⟨reversed, 40, 50, 7⟩) (by simp) (by decide +kernel)
  exact .cmd hadded rfl (tagWeb ⟨reversed, 0, 51, 7⟩) nofun (by decide +kernel)

theorem addKey_other {F : Family} (hF : F ≠ .key) (c : Catalogue) (shares : String → Option Bool) (draw : Draw) :
    (c.step fingerprintOf shares (addKey draw)).2 F = c F := by
  have hmoves : c.Moves fingerprintOf (addKey draw) (c.step fingerprintOf shares (addKey draw)).2 := Catalogue.step_moves ..
  generalize (c.step fingerprintOf shares (addKey draw)).2 = c' at hmoves ⊢
  cases hmoves with
  | refused => rfl
  | keyAdd => exact Catalogue.set_family _ hF

theorem same_entries {F : Family} (hF : F ≠ .key) : (Catalogue.play fingerprintOf (entered.map (·.1))).2 F =
    (Catalogue.play fingerprintOf (onLaptop.map (·.1))).2 F := by
  have hadd : ∀ (draw draw' : Draw) (shares shares' : String → Option Bool) (c : Catalogue),
      c.step fingerprintOf shares (addWeb draw) = c.step fingerprintOf shares' (addWeb draw') := fun _ _ _ _ _ => rfl
  have htag : ∀ (draw draw' : Draw) (shares shares' : String → Option Bool) (c : Catalogue),
      c.step fingerprintOf shares (tagWeb draw) = c.step fingerprintOf shares' (tagWeb draw') := fun _ _ _ _ _ => rfl
  unfold Catalogue.play entered onLaptop
  simp only [List.map_cons, List.map_nil, List.foldl_cons, List.foldl_nil]
  rw [addKey_other hF, hadd _ ⟨reversed, 40, 50, 7⟩ _ (laptopVault.heldShares reversed),
    htag _ ⟨reversed, 0, 51, 7⟩ _ (laptopAddedVault.heldShares reversed)]

theorem apply_of_catalogue_laptop : ∃ text, ∀ ord₁ ord₂,
    SshConfig.render (keyedVault.hosts ord₁) (keyedVault.forwards ord₂) = some text ∧
      SshConfig.render (laptopTaggedVault.hosts ord₁) (laptopTaggedVault.forwards ord₂) = some text :=
  apply_of_catalogue desk_created ⟨"laptop", 8, .vault 2 0, .ed (.recovery 2), 1, .device 1, 11, rfl⟩ entered_run laptop_run rfl
    rfl (same_entries (by decide)) (same_entries (by decide))

end DeskCommands

end SshVault
