import SshVault.Client.Walk
import SshVault.Client.Wraps
import SshVault.Vault.Machine

/-!
# What the clients of an honest relay send

Whatever a client wraps is its own key-list, as it holds it when it sends the request, and the epoch that
it names is not past the end of that list.
-/

open Lib

namespace SshVault

open Relay (ClientReq)

/-! ## Keyrings with keys in them -/

/-- No share is held without a key, and the default share is held. -/
structure Keyring.Filled (kr : Keyring) : Prop where
  keys : ∀ id s, kr.share id = some s → s.keys ≠ []
  default : kr.hasShare nil = true

namespace Keyring.Filled

variable {kr : Keyring}

theorem length_pos (h : kr.Filled) {id : Uuid} (hid : kr.hasShare id = true) : 0 < (kr.keysOf id).length := by
  obtain ⟨s, hs⟩ := Option.isSome_iff_exists.mp hid
  unfold keysOf
  rw [hs]
  exact List.length_pos_of_ne_nil (h.keys id s hs)

theorem shareEpoch_lt (h : kr.Filled) {id : Uuid} (hid : kr.hasShare id = true) :
    kr.shareEpoch id + 1 = (kr.keysOf id).length := by
  have hpos := h.length_pos hid
  obtain ⟨s, hs⟩ := Option.isSome_iff_exists.mp hid
  unfold keysOf at hpos ⊢
  unfold shareEpoch
  rw [hs] at hpos ⊢
  dsimp only at hpos ⊢
  omega

theorem set (h : kr.Filled) (id : Uuid) {keys : List Key} (hne : keys ≠ []) : (kr.setShareKeys id keys).Filled := by
  refine ⟨fun i s hs => ?_, ?_⟩
  · rw [share_setShareKeys] at hs
    split at hs
    · obtain rfl := Option.some.inj hs
      exact hne
    · exact h.keys i s hs
  · unfold hasShare
    rw [share_setShareKeys]
    split
    · rfl
    · exact h.default

theorem push (h : kr.Filled) (id : Uuid) (key : Key) : (kr.pushShareKey id key).Filled := by
  refine ⟨fun i s hs => ?_, ?_⟩
  · rw [share_pushShareKey] at hs
    split at hs
    · obtain rfl := Option.some.inj hs
      simp
    · exact h.keys i s hs
  · unfold hasShare
    rw [share_pushShareKey]
    split
    · rfl
    · exact h.default

end Keyring.Filled

def Device.Filled (d : Device) : Prop := d.vault.keyring.Filled

theorem Vault.Effect.filled {v v' : Vault} {d d' : Disk} {a : Vault.Action} (h : Vault.Effect v d a v' d')
    (hv : v.keyring.Filled) : v'.keyring.Filled := by
  cases h with
  | idle => exact hv
  | wrote => exact hv
  | received => exact hv
  | rekeyed kr hg =>
    cases hg with
    | push id key => exact hv.push id key
    | set id keys hlt hne => exact hv.set id hne
  | joined kr hlog hkr =>
    obtain ⟨keys, hne, rfl⟩ := hkr
    have hset := hv.set nil hne
    exact ⟨hset.keys, hset.default⟩
  | folded => exact hv
  | compacted => exact hv

theorem Device.Filled.absorb {d : Device} (hd : d.Filled) (share : Uuid) (list : KeyBytes) :
    (d.perform (·.absorbShareKey share list)).Filled :=
  Vault.Effect.filled (Vault.absorbShareKey_effect (v := d.vault) (d := d.disk) .compact share list) hd

/-! ## Requests -/

/-- A wrap of the key-list of this share, for some device. -/
def WrapsOwn (d : Device) (share : Uuid) (w : WrappedFor) : Prop :=
  ∃ ed x : Bytes32, w.devicePub.decode = some ed.bytes ∧
    w.wrappedKey = .b64 (Crypto.wrapVaultKey (d.vault.keyring.shareKeyList share) x ed)

/-- A request that carries this device's own key-lists, if it carries any. -/
def SendsOwn (d : Device) : Outgoing → Prop
  | .post _ _ (.approve r) => WrapsOwn d nil ⟨r.targetPub, r.wrappedKey⟩
  | .post _ _ (.rotate epoch wrapped) => epoch.val ≤ d.vault.keyring.shareEpoch nil ∧ ∀ w ∈ wrapped, WrapsOwn d nil w
  | .post _ _ (.shareGrant shareId epoch wrapped) =>
    ∃ share, shareId = Devices.shareText share ∧ d.vault.keyring.hasShare share = true ∧
      epoch.val ≤ d.vault.keyring.shareEpoch share ∧ ∀ w ∈ wrapped, WrapsOwn d share w
  | .post _ _ (.shareRotate shareId epoch wrapped remove) =>
    ∃ share, shareId = Devices.shareText share ∧ d.vault.keyring.hasShare share = true ∧
      epoch.val ≤ d.vault.keyring.shareEpoch share ∧ (∀ w ∈ wrapped, WrapsOwn d share w) ∧
        ∀ t ∈ remove, ∃ b, t = .b64 b
  | .recover _ => False
  | _ => True

def Sends (d : Device) (call : Call) : Prop := d.Filled ∧ SendsOwn d call.what

/-- The relay lists devices by the base64 of their keys. -/
def Listed (_ : Call) (a : Answer) : Prop := ∀ l, a = some (.ok (.devices l)) → ∀ o ∈ l, ∃ b, o.ed25519Pub = .b64 b

/-- An operation that sends only such requests. -/
abbrev Does {α : Type} (Q : Device → α → Prop) (m : Op α) (d : Device) : Prop :=
  Client.Does Listed Sends Q Device.Filled m d

namespace Devices

open Sync Client

variable {first : Bytes → List UInt8} {d : Device}

theorem parse_ok {a : Answer} {reply : Reply} (h : parse a = .ok reply) : a = some (.ok reply) := by
  rcases a with _ | _ | r
  · cases h
  · cases h
  · exact congrArg (fun r => some (Except.ok r)) (Except.ok.inj h)

theorem post_does {note : Note} {r : ClientReq} {Q : Device → Reply → Prop} (hd : d.Filled)
    (hr : SendsOwn d (.post d.vaultId d.key r)) (hQ : ∀ reply, Q d reply) : Does Q (post note r) d :=
  Does.bind (Does.ask ⟨hd, hr⟩ fun _ _ => Does.lift (fun reply _ => hQ reply) hd)

theorem pushed_does {α : Type} {note : Note} {r : ClientReq} {Q : Device → α → Prop} {f : PushResp → Op α} (hd : d.Filled)
    (hr : SendsOwn d (.post d.vaultId d.key r)) (hQ : ∀ resp, Does Q (f resp) d) :
    Does Q (do let resp ← asPush (← post note r); f resp) d :=
  Does.bind (post_does hd hr fun _ => Does.bind (Does.lift (fun resp _ => hQ resp) hd))

theorem signedGet_does {note : Note} {action : Action} {Q : Device → Reply → Prop} (hd : d.Filled)
    (hQ : ∀ reply, Listed ⟨note, .query action d.vaultId d.key⟩ (some (.ok reply)) → Q d reply) :
    Does Q (signedGet note action) d := by
  refine Does.bind (Does.ask ⟨hd, by cases action <;> trivial⟩ fun a ha => Does.lift (fun reply hreply => ?_) hd)
  obtain rfl := parse_ok hreply
  exact hQ reply ha

theorem listDevices_does {note : Note} {Q : Device → List DeviceInfo → Prop} (hd : d.Filled)
    (hQ : ∀ l, (∀ o ∈ l, ∃ b, o.ed25519Pub = .b64 b) → Q d l) : Does Q (listDevices note) d := by
  refine Does.bind (signedGet_does hd fun reply hreply => Does.lift (fun l hl => ?_) hd)
  cases reply <;> cases hl
  exact hQ l (hreply l rfl)

theorem theDevice_mem {code : String} {l : List DeviceInfo} {o : DeviceInfo} (h : theDevice first code l = .ok o) :
    o ∈ l := by
  unfold theDevice at h
  split at h
  · cases h
  · rename_i o' hfilter
    obtain rfl := Except.ok.inj h
    exact (List.mem_filter.mp (hfilter ▸ List.mem_singleton.mpr rfl)).1
  · cases h

theorem findByCode_does {code : String} {Q : Device → DeviceInfo → Prop} (hd : d.Filled)
    (hQ : ∀ o b, o.ed25519Pub = .b64 b → Q d o) : Does Q (findByCode first code) d := by
  refine Does.bind (listDevices_does hd fun l hl => Does.lift (fun o ho => ?_) hd)
  obtain ⟨b, hb⟩ := hl o (theDevice_mem ho)
  exact hQ o b hb

theorem wrapsOwn_of_wrapFor {share : Uuid} {o : DeviceInfo} {w : WrappedFor}
    (h : wrapFor (d.vault.keyring.shareKeyList share) o = .ok w) : WrapsOwn d share w := by
  rcases wrapFor_spec (d.vault.keyring.shareKeyList share) o with ⟨x, ed, hx, hed, hw⟩ | ⟨-, e, he⟩
  · obtain rfl := Except.ok.inj (hw.symm.trans h)
    exact ⟨ed, x, Text.decode32_eq_some.mp hed, rfl⟩
  · cases he.symm.trans h

theorem onVault_does {α : Type} {op : Vault → Prog Disk (Except VaultError α × Vault)} {Q : Device → α → Prop}
    (hQ : ∀ a, ((op d.vault).run d.disk).1.1 = .ok a → Q (d.perform op) a) (hE : (d.perform op).Filled) :
    Does Q (onVault op) d := by
  refine Does.onState (fun a ha => ?_) fun _ _ => hE
  refine hQ a ?_
  cases hres : ((op d.vault).run d.disk).1.1 with
  | ok b =>
    have hb : (Except.ok b).mapError ClientError.vault = .ok a := by rw [← hres]; exact ha
    exact congrArg Except.ok (Except.ok.inj hb)
  | error e =>
    have he : (Except.error e : Except VaultError α).mapError ClientError.vault = .ok a := by rw [← hres]; exact ha
    cases he

theorem updateVault_does {op : Vault → Prog Disk Vault} {Q : Device → Unit → Prop} (hQ : Q (d.update op) ()) :
    Does Q (updateVault op) d := Does.onState (fun _ _ => hQ) fun _ h => nomatch h

/-! ## Devices -/

theorem enroll_does {Q : Device → Bool → Prop} (hd : d.Filled) (hQ : ∀ approved, Q d approved) : Does Q enroll d := by
  refine Does.bind (Does.get (Does.bind (post_does hd trivial fun reply => ?_)))
  exact Does.bind (Does.lift (fun resp _ => Does.pure (hQ _)) hd)

theorem awaitKey_does (polls : Nat) (hd : d.Filled) : Does (fun d _ => d.Filled) (awaitKey polls) d := by
  induction polls with
  | zero => exact Does.fail hd
  | succ polls ih =>
    refine Does.bind (signedGet_does hd fun reply _ => Does.bind (Does.lift (fun resp _ => ?_) hd))
    split
    · exact ih
    · rename_i wrapped _
      refine Does.bind (Does.bind (Does.get (Does.lift (fun list _ => ?_) hd)))
      have hfill : (d.perform (·.setVaultKey list)).Filled := (Vault.setVaultKey_effect .compact list).filled hd
      exact onVault_does (fun _ _ => hfill) hfill

theorem enrollAndWait_does (relay : String) (polls : Nat) (hd : d.Filled) :
    Does (fun d _ => d.Filled) (enrollAndWait relay polls) d := by
  have hset : (d.update (·.setRelayUrl relay)).Filled := hd
  refine Does.bind (updateVault_does (Does.bind (enroll_does hset fun approved => ?_)))
  split
  · exact Does.pure hset
  · exact awaitKey_does polls hset

theorem approve_does (code : String) (hd : d.Filled) : Does (fun d _ => d.Filled) (approve first code) d := by
  refine Does.bind (findByCode_does hd fun o b hb => Does.bind (Does.get ?_))
  refine Does.bind (Does.lift (fun w hw => ?_) hd)
  exact pushed_does hd (wrapsOwn_of_wrapFor hw) fun _ => Does.pure hd

theorem revoke_does (code : String) {Q : Device → Wire → Prop} (hd : d.Filled) (hQ : ∀ name, Q d name) :
    Does Q (revoke first code) d := by
  refine Does.bind (findByCode_does hd fun o b hb => ?_)
  exact pushed_does hd trivial fun _ => Does.pure (hQ _)

theorem val_ofNat_le (n : Nat) : (Fin.ofNat 4294967296 n).val ≤ n := Nat.mod_le n 4294967296

theorem revokeAndRotate_does (code : String) (phrase : Phrase) (hd : d.Filled) :
    Does (fun d _ => d.Filled) (revokeAndRotate first code phrase) d := by
  have hfill : (d.perform (·.rotate phrase)).Filled := (Vault.rotate_effect .compact phrase).filled hd
  refine Does.bind (findByCode_does hd fun o b hb => Does.bind (revoke_does code hd fun name => ?_))
  refine Does.bind (onVault_does (fun epoch hepoch => Does.bind (Does.get ?_)) hfill)
  refine Does.bind (listDevices_does hfill fun l hl => Does.bind (Does.lift (fun ws hws => ?_) hfill))
  refine pushed_does hfill ⟨?_, fun w hw => ?_⟩ fun _ => Does.pure hfill
  · -- The epoch is that of the key just derived.
    have hnew : (d.perform (·.rotate phrase)).vault.keyring.shareEpoch nil = epoch := by
      unfold Vault.rotate at hepoch
      cases hkey : Crypto.vaultKeyAtEpoch phrase (d.vault.epoch + 1) with
      | error e => rw [hkey] at hepoch; cases hepoch
      | ok key =>
        rw [hkey] at hepoch
        obtain rfl : d.vault.epoch + 1 = epoch := Except.ok.inj hepoch
        have hlen := (hd.push nil key).shareEpoch_lt (hd.push nil key).default
        have hold := hd.shareEpoch_lt hd.default
        rw [Keyring.keysOf_pushShareKey, if_pos rfl, List.length_append, List.length_singleton] at hlen
        rw [d.perform_rotate hkey]
        unfold Vault.epoch
        omega
    rw [hnew]
    exact val_ofNat_le epoch
  · obtain ⟨o', ho', heq⟩ := (wrapAll_ok hws).2 w hw
    exact wrapsOwn_of_wrapFor heq

/-! ## Shares -/

theorem wrapForCodes_does {share : Uuid} {Q : Device → List WrappedFor → Prop} (codes : List String) (hd : d.Filled)
    (hQ : ∀ ws, (∀ w ∈ ws, WrapsOwn d share w) → Q d ws) :
    Does Q (wrapForCodes first (d.vault.keyring.shareKeyList share) codes) d := by
  induction codes generalizing Q with
  | nil => exact Does.pure (hQ [] (fun _ h => nomatch h))
  | cons code codes ih =>
    refine Does.bind (findByCode_does hd fun o b hb => Does.bind (Does.lift (fun w hw => ?_) hd))
    refine Does.bind (ih fun ws hws => Does.pure (hQ _ ?_))
    exact List.forall_mem_cons.mpr ⟨wrapsOwn_of_wrapFor hw, hws⟩

theorem shareAdd_does (share : Uuid) (codes : List String) (hd : d.Filled) :
    Does (fun d _ => d.Filled) (shareAdd first share codes) d := by
  refine Does.bind (Does.get ?_)
  by_cases hheld : d.vault.keyring.hasShare share = true
  · rw [if_neg (not_not.mpr hheld)]
    refine Does.bind (wrapForCodes_does codes hd fun ws hws => ?_)
    exact pushed_does hd ⟨share, rfl, hheld, val_ofNat_le _, hws⟩ fun _ => Does.pure hd
  · rw [if_pos hheld]
    exact Does.bind (Does.fail hd)

theorem createShare_does (name : String) (codes : List String) (draw : ShareDraw) (hd : d.Filled) :
    Does (fun d _ => d.Filled) (createShare first name codes draw) d := by
  refine Does.bind (Does.get ?_)
  by_cases hdup : (resolveShare d.vault draw.ord name).isSome = true
  · rw [if_pos hdup]
    exact Does.bind (Does.fail hd)
  rw [if_neg hdup]
  have hkr := (d.update_createShare draw.share draw.n).2
  have hfill : (d.update (·.createShare draw.share draw.n)).Filled := by
    unfold Device.Filled
    rw [hkr]
    exact hd.push draw.share _
  refine Does.bind (updateVault_does (Does.bind ?_))
  generalize hd₁ : d.update (·.createShare draw.share draw.n) = d₁ at *
  have hkept := (d₁.addIn_kept draw.ord .shareName "name" name (shareNamePayload name draw.share) nil draw.recordId
    draw.entryId draw.now).2
  have hfill₂ : (d₁.perform fun v => v.addIn draw.ord .shareName "name" name (shareNamePayload name draw.share) nil
      draw.recordId draw.entryId draw.now).Filled := by
    unfold Device.Filled
    rw [hkept]
    exact hfill
  refine onVault_does (fun _ _ => Does.bind (Does.get ?_)) hfill₂
  have hheld : (d₁.perform fun v => v.addIn draw.ord .shareName "name" name (shareNamePayload name draw.share) nil
      draw.recordId draw.entryId draw.now).vault.keyring.hasShare draw.share = true := by
    rw [hkept, hkr]
    unfold Keyring.hasShare Vault.nextRandom
    rw [Keyring.share_pushShareKey, if_pos rfl]
    rfl
  refine Does.bind (wrapForCodes_does codes hfill₂ fun ws hws => ?_)
  refine Does.bind (wrapForCodes_does [_] hfill₂ fun own hown => ?_)
  refine pushed_does hfill₂ ⟨draw.share, rfl, hheld, val_ofNat_le _, ?_⟩ fun _ => Does.pure hfill₂
  exact List.forall_mem_append.mpr ⟨hws, hown⟩

theorem rewrapMembers_does {share : Uuid} {target : Wire} {Q : Device → List WrappedFor → Prop} (members : List Wire)
    (hd : d.Filled) (hQ : ∀ ws, (∀ w ∈ ws, WrapsOwn d share w) → Q d ws) :
    Does Q (rewrapMembers first (d.vault.keyring.shareKeyList share) target members) d := by
  induction members generalizing Q with
  | nil => exact Does.pure (hQ [] (fun _ h => nomatch h))
  | cons pub rest ih =>
    unfold rewrapMembers
    split
    · exact ih hQ
    · refine Does.bind (wrapForCodes_does _ hd fun ws hws => Does.bind (ih fun more hmore => Does.pure (hQ _ ?_)))
      exact List.forall_mem_append.mpr ⟨hws, hmore⟩

theorem shareRemove_does (share : Uuid) (code : String) (n : Nat) (hd : d.Filled) :
    Does (fun d _ => d.Filled) (shareRemove first share code n) d := by
  refine Does.bind (Does.get ?_)
  by_cases hheld : d.vault.keyring.hasShare share = true
  swap
  · rw [if_pos hheld]
    exact Does.bind (Does.fail hd)
  rw [if_neg (not_not.mpr hheld)]
  have hrun := Vault.run_rotateShare (d := d.disk) n hheld
  have hkr := d.perform_rotateShare n hheld
  have hfill : (d.perform (·.rotateShare share n)).Filled := by
    unfold Device.Filled
    rw [hkr]
    exact hd.push share _
  have hstill : (d.perform (·.rotateShare share n)).vault.keyring.hasShare share = true := by
    rw [hkr]
    unfold Keyring.hasShare Vault.nextRandom
    rw [Keyring.share_pushShareKey, if_pos rfl]
    rfl
  refine Does.bind (findByCode_does hd fun o b hb => ?_)
  refine Does.bind (onVault_does (fun epoch hepoch => Does.bind (Does.get ?_)) hfill)
  refine Does.bind (Does.bind (listDevices_does hfill fun l hl => Does.pure ?_))
  refine Does.bind (rewrapMembers_does _ hfill fun ws hws => ?_)
  refine pushed_does hfill ⟨share, rfl, hstill, ?_, hws, ?_⟩ fun _ => Does.pure hfill
  · rw [hrun] at hepoch
    obtain rfl := Except.ok.inj hepoch
    rw [hkr]
    exact val_ofNat_le _
  · intro t ht
    exact ⟨b, (List.mem_singleton.mp ht).trans hb⟩

end Devices

/-! ## Rounds -/

namespace Sync

open Devices Client

variable {d : Device}

theorem filled_syncs : Syncs (.does Listed Sends) fun d _ => d.Filled where
  asks action := Judgement.Keeps.does.mpr fun _ hd => signedGet_does hd fun _ _ => hd
  absorbs share list := Judgement.Keeps.does.mpr fun _ hd => onVault_does (fun _ _ => hd.absorb share list) (hd.absorb share list)
  reads := Judgement.Keeps.does.mpr fun _ hd => onVault_does (fun _ _ => hd) hd
  pushes gained entries := Judgement.Keeps.does.mpr fun _ hd =>
    Does.bind (post_does hd trivial fun _ => Does.lift (fun _ _ => hd) hd)
  rewinds := Judgement.Keeps.does.mpr fun _ hd => updateVault_does hd
  pulls := .bind (.ask fun _ _ hd => ⟨⟨hd, trivial⟩, fun _ _ => hd⟩) fun _ => .bind (.lift _) fun _ => .lift _
  applies id blob := Judgement.Keeps.does.mpr fun d hd => by
    have hfill : (d.perform (·.applyRemoteEntry id blob)).Filled := (Vault.applyRemoteEntry_effect (id, blob)).filled hd
    exact onVault_does (fun _ _ => hfill) hfill
  moves head := Judgement.Keeps.does.mpr fun _ hd => updateVault_does hd

theorem syncOnce_does (hd : d.Filled) : Does (fun d _ => d.Filled) syncOnce d :=
  Judgement.Keeps.does.mp filled_syncs.syncOnce d hd

end Sync

end SshVault
