import SshVault.Client.Sends
import SshVault.Relay.Epochs

/-!
# What a round takes in

A round of `sync_once` that ends well leaves a device with as many keys of each share as the epoch that
the relay reported for it calls for, if every list that it was sent reaches the epoch beside it.
-/

open Lib

namespace SshVault

/-- No key-list has become shorter. -/
def Device.Grew (d d' : Device) : Prop :=
  ∀ share, (d.vault.keyring.keysOf share).length ≤ (d'.vault.keyring.keysOf share).length

namespace Device.Grew

theorem refl (d : Device) : d.Grew d := fun _ => le_rfl

theorem trans {a b c : Device} (h : a.Grew b) (h' : b.Grew c) : a.Grew c := fun share => (h share).trans (h' share)

theorem absorb (d : Device) (share : Uuid) (list : KeyBytes) : d.Grew (d.perform (·.absorbShareKey share list)) := by
  rcases d.perform_absorbShareKey share list with h | ⟨keys, hsplit, hnew, h⟩
  · rw [h]
    exact refl d
  · intro s
    rw [h, rekey_keyring, Keyring.keysOf_setShareKeys]
    split
    · rename_i hs
      subst hs
      exact (hnew.longer (Vault.splitKeyList_ok hsplit)).le
    · exact le_rfl

end Device.Grew

namespace Sync

open Client

variable {d d' : Device} {talk : List (Call × Answer)}

/-! ## Step by step -/

theorem onVault_ran {α : Type} {op : Vault → Prog Disk (Except VaultError α × Vault)} {a : α}
    (h : Ran (onVault op) d talk d' a) : talk = [] ∧ d' = d.perform op ∧ ((op d.vault).run d.disk).1.1 = .ok a := by
  obtain ⟨ht, hd, ha⟩ := h.onState
  refine ⟨ht, hd, ?_⟩
  cases hres : ((op d.vault).run d.disk).1.1 with
  | ok b =>
    have hb : (Except.ok b).mapError ClientError.vault = .ok a := by rw [← hres]; exact ha
    exact congrArg Except.ok (Except.ok.inj hb)
  | error e =>
    have he : (Except.error e : Except VaultError α).mapError ClientError.vault = .ok a := by rw [← hres]; exact ha
    cases he

theorem updateVault_ran {op : Vault → Prog Disk Vault} {u : Unit} (h : Ran (updateVault op) d talk d' u) :
    talk = [] ∧ d' = d.update op := by
  obtain ⟨ht, hd, -⟩ := h.onState
  exact ⟨ht, hd⟩

theorem signedGet_ran {note : Note} {action : Action} {reply : Reply} (h : Ran (signedGet note action) d talk d' reply) :
    talk = [(⟨note, .query action d.vaultId d.key⟩, some (.ok reply))] ∧ d' = d := by
  obtain ⟨t₁, t₂, d₁, a, hask, hparse, rfl⟩ := h.bind
  obtain ⟨rfl, rfl⟩ := hask.ask
  obtain ⟨rfl, rfl, hreply⟩ := hparse.lift
  obtain rfl := Devices.parse_ok hreply
  exact ⟨rfl, rfl⟩

theorem unwrapFor_ran {wrapped : Wire} {list : KeyBytes} (h : Ran (unwrapFor wrapped) d talk d' list) :
    talk = [] ∧ d' = d ∧ unwrapped d wrapped = .ok list := by
  obtain ⟨t₁, t₂, d₁, a, hget, hlift, rfl⟩ := h.bind
  obtain ⟨rfl, rfl, rfl⟩ := hget.get
  obtain ⟨rfl, rfl, hlist⟩ := hlift.lift
  exact ⟨rfl, rfl, hlist⟩

theorem unwrapped_ok {wrapped : Wire} {list : KeyBytes} (h : unwrapped d wrapped = .ok list) :
    ∃ b, wrapped.decode = some b ∧ Crypto.unwrapVaultKey d.vault.keyring.x25519Secret b (.ed d.key) = .ok list := by
  unfold unwrapped at h
  split at h
  · cases h
  · rename_i b hb
    refine ⟨b, hb, ?_⟩
    cases hopen : Crypto.unwrapVaultKey d.vault.keyring.x25519Secret b (.ed d.key) with
    | error e => rw [hopen] at h; cases h
    | ok l =>
      rw [hopen] at h
      exact congrArg Except.ok (Except.ok.inj h)

theorem absorb_ran {share : Uuid} {list : KeyBytes} {u : Unit} (h : Ran (onVault (·.absorbShareKey share list)) d talk d' u)
    (hd : d.Filled) :
    talk = [] ∧ d.Grew d' ∧ d'.Filled ∧ list.keys.length ≤ (d'.vault.keyring.keysOf share).length := by
  obtain ⟨ht, rfl, hok⟩ := onVault_ran h
  refine ⟨ht, Device.Grew.absorb d share list, hd.absorb share list, ?_⟩
  rcases Vault.absorbShareKey_ok hok with ⟨-, hkr⟩ | ⟨hold, hkr⟩
  · refine le_of_eq ?_
    rw [show (d.perform (·.absorbShareKey share list)).vault.keyring = _ from hkr, Keyring.keysOf_setShareKeys, if_pos rfl]
  · rw [show (d.perform (·.absorbShareKey share list)).vault.keyring = _ from hkr]
    unfold Vault.Newer at hold
    push Not at hold
    exact hold.2

/-- Every wrap that the bytes decode to holds this many keys. -/
def Reaches (n : Nat) (wrapped : Wire) : Prop := ∀ b, wrapped.decode = some b → b.Holds n

theorem Reaches.unwrapped {n : Nat} {wrapped : Wire} {list : KeyBytes} (hn : Reaches n wrapped)
    (h : unwrapped d wrapped = .ok list) : n ≤ list.keys.length := by
  obtain ⟨b, hb, hopen⟩ := unwrapped_ok h
  exact (hn b hb).unwrap hopen

/-! ## Stage by stage -/

theorem healVault_ran {resp : WrappedResp} {u : Unit} (h : Ran (healVault resp) d talk d' u) (hd : d.Filled) :
    talk = [] ∧ d'.Filled ∧ ∀ t, resp.wrappedKey = some t → Reaches (resp.epoch + 1) t →
      resp.epoch + 1 ≤ (d'.vault.keyring.keysOf nil).length := by
  obtain ⟨t₁, t₂, d₁, a, hget, hrest, rfl⟩ := h.bind
  obtain ⟨rfl, rfl, rfl⟩ := hget.get
  split at hrest
  · split at hrest
    · rename_i wrapped hw
      obtain ⟨t₁, t₂, d₁, list, hunwrap, habsorb, rfl⟩ := hrest.bind
      obtain ⟨rfl, rfl, hlist⟩ := unwrapFor_ran hunwrap
      obtain ⟨rfl, -, hfill, hlen⟩ := absorb_ran habsorb hd
      refine ⟨rfl, hfill, fun t ht hreach => ?_⟩
      obtain rfl := Option.some.inj (hw.symm.trans ht)
      exact (hreach.unwrapped hlist).trans hlen
    · rename_i hnone
      obtain ⟨rfl, rfl, -⟩ := hrest.pure
      exact ⟨rfl, hd, fun t ht => nomatch hnone.symm.trans ht⟩
  · rename_i hle
    obtain ⟨rfl, rfl, -⟩ := hrest.pure
    refine ⟨rfl, hd, fun _ _ _ => ?_⟩
    rw [← hd.shareEpoch_lt hd.default]
    exact Nat.succ_le_succ (not_lt.mp hle)

theorem absorbShares_ran {l : List ShareMembership} {gained out : Bool} (h : Ran (absorbShares gained l) d talk d' out)
    (hd : d.Filled) (hreach : ∀ m ∈ l, Reaches (m.epoch + 1) m.wrappedKey) :
    talk = [] ∧ d.Grew d' ∧ ∀ m ∈ l, ∀ share, m.shareId.decode16 = some share → share ≠ nil →
      m.epoch + 1 ≤ (d'.vault.keyring.keysOf share).length := by
  induction l generalizing d gained talk with
  | nil =>
    obtain ⟨rfl, rfl, -⟩ := h.pure
    exact ⟨rfl, .refl _, fun _ hm => nomatch hm⟩
  | cons m rest ih =>
    obtain ⟨hfirst, hreach⟩ := List.forall_mem_cons.mp hreach
    simp only [List.forall_mem_cons]
    unfold absorbShares at h
    split at h
    · rename_i hnone
      obtain ⟨ht, hgrew, hall⟩ := ih h hd hreach
      exact ⟨ht, hgrew, fun share hs => by simp [hnone] at hs, hall⟩
    · rename_i share hshare
      split at h
      · rename_i hnil
        obtain ⟨ht, hgrew, hall⟩ := ih h hd hreach
        refine ⟨ht, hgrew, fun s hs hne => ?_, hall⟩
        obtain rfl := Option.some.inj (hshare.symm.trans hs)
        exact absurd hnil hne
      · obtain ⟨t₁, t₂, d₁, a, hget, hrest, rfl⟩ := h.bind
        obtain ⟨rfl, rfl, rfl⟩ := hget.get
        dsimp only at hrest
        split at hrest
        · obtain ⟨t₁, t₂, d₁, list, hunwrap, hthen, rfl⟩ := hrest.bind
          obtain ⟨rfl, rfl, hlist⟩ := unwrapFor_ran hunwrap
          obtain ⟨t₃, t₄, d₂, u, habsorb, hmore, rfl⟩ := hthen.bind
          obtain ⟨rfl, hgrew, hfill, hlen⟩ := absorb_ran habsorb hd
          obtain ⟨ht, hgrew', hall⟩ := ih hmore hfill hreach
          refine ⟨ht, hgrew.trans hgrew', fun s hs _ => ?_, hall⟩
          obtain rfl := Option.some.inj (hshare.symm.trans hs)
          exact ((hfirst.unwrapped hlist).trans hlen).trans (hgrew' share)
        · rename_i hcur
          obtain ⟨ht, hgrew, hall⟩ := ih hrest hd hreach
          refine ⟨ht, hgrew, fun s hs _ => ?_, hall⟩
          obtain rfl := Option.some.inj (hshare.symm.trans hs)
          push Not at hcur
          have hlen := hd.shareEpoch_lt hcur.1
          have := hgrew share
          omega

theorem applyEntries_ran {held : List Uuid} {l : List WireEntry} {n : Nat} (h : Ran (applyEntries held l) d talk d' n) :
    talk = [] ∧ d'.vault.keyring = d.vault.keyring := by
  induction l generalizing d n talk with
  | nil =>
    obtain ⟨rfl, rfl, -⟩ := h.pure
    exact ⟨rfl, rfl⟩
  | cons e rest ih =>
    obtain ⟨t₁, t₂, d₁, id, hid, hrest, rfl⟩ := h.bind
    obtain ⟨rfl, rfl, -⟩ := hid.lift
    split at hrest
    · exact ih hrest
    · obtain ⟨t₁, t₂, d₁, blob, hblob, hthen, rfl⟩ := hrest.bind
      obtain ⟨rfl, rfl, -⟩ := hblob.lift
      obtain ⟨t₁, t₂, d₂, u, happly, hlast, rfl⟩ := hthen.bind
      obtain ⟨rfl, rfl, -⟩ := onVault_ran happly
      obtain ⟨t₁, t₂, d₃, k, hmore, hpure, rfl⟩ := hlast.bind
      obtain ⟨rfl, rfl, -⟩ := hpure.pure
      obtain ⟨rfl, hkr⟩ := ih hmore
      exact ⟨rfl, hkr.trans (Device.applyRemoteEntry_kept _ id blob).2⟩

theorem pushEntries_ran {gained : Bool} {entries : List (Uuid × Bytes × Uuid)} {resp : PushResp}
    (h : Ran (pushEntries gained entries) d talk d' resp) :
    ∃ push r, talk = [(push, some (.ok (.push r)))] ∧ d' = d := by
  obtain ⟨t₁, t₂, d₁, reply, hpost, hlift, rfl⟩ := h.bind
  obtain ⟨t₃, t₄, d₂, a, hask, hparse, rfl⟩ := hpost.bind
  obtain ⟨rfl, rfl⟩ := hask.ask
  obtain ⟨rfl, rfl, hreply⟩ := hparse.lift
  obtain ⟨rfl, rfl, hr⟩ := hlift.lift
  obtain rfl := Devices.parse_ok hreply
  cases reply <;> cases hr
  exact ⟨_, _, rfl, rfl⟩

theorem pullEntries_ran {resp : PullResp} (h : Ran pullEntries d talk d' resp) :
    ∃ pull, talk = [(pull, some (.ok (.pull resp)))] ∧ d' = d := by
  obtain ⟨t₁, t₂, d₁, a, hask, hrest, rfl⟩ := h.bind
  obtain ⟨rfl, rfl⟩ := hask.ask
  obtain ⟨t₃, t₄, d₂, reply, hparse, hlift, rfl⟩ := hrest.bind
  obtain ⟨rfl, rfl, hreply⟩ := hparse.lift
  obtain ⟨rfl, rfl, hr⟩ := hlift.lift
  obtain rfl := Devices.parse_ok hreply
  cases reply <;> cases hr
  exact ⟨_, rfl, rfl⟩

/-- The second half of a round takes in no keys, and asks for none. -/
theorem exchange_ran {gained : Bool} {entries : List (Uuid × Bytes × Uuid)} {out : Nat × Nat}
    (h : Ran (do
      let pushed ← pushEntries gained entries
      if gained then updateVault (·.resetSyncCursor)
      let resp ← pullEntries
      let pulled ← applyEntries (entries.map (·.1)) resp.entries
      updateVault (·.setSyncCursor resp.head)
      return (pushed.stored, pulled)) d talk d' out) :
    d'.vault.keyring = d.vault.keyring ∧ ∃ push pull r r',
      talk = [(push, some (.ok (.push r))), (pull, some (.ok (.pull r')))] := by
  obtain ⟨t₁, t₂, d₁, pushed, hpush, hrest, rfl⟩ := h.bind
  obtain ⟨push, r, rfl, rfl⟩ := pushEntries_ran hpush
  have hlast : ∃ d₂ t, d₂.vault.keyring = d₁.vault.keyring ∧ Ran (do
      let resp ← pullEntries
      let pulled ← applyEntries (entries.map (·.1)) resp.entries
      updateVault (·.setSyncCursor resp.head)
      return (pushed.stored, pulled)) d₂ t d' out ∧ t₂ = t := by
    split at hrest
    · obtain ⟨t₁, t₃, d₂, u, hreset, hthen, rfl⟩ := hrest.bind
      obtain ⟨rfl, rfl⟩ := updateVault_ran hreset
      exact ⟨d₁.update (·.resetSyncCursor), t₃, rfl, hthen, rfl⟩
    · exact ⟨d₁, t₂, rfl, hrest, rfl⟩
  obtain ⟨d₂, t, hkr, hlast, rfl⟩ := hlast
  obtain ⟨t₃, t₄, d₃, resp, hpull, hthen, rfl⟩ := hlast.bind
  obtain ⟨pull, rfl, rfl⟩ := pullEntries_ran hpull
  obtain ⟨t₅, t₆, d₄, n, happly, hend, rfl⟩ := hthen.bind
  obtain ⟨rfl, hkr'⟩ := applyEntries_ran happly
  obtain ⟨t₇, t₈, d₅, u, hset, hpure, rfl⟩ := hend.bind
  obtain ⟨rfl, rfl⟩ := updateVault_ran hset
  obtain ⟨rfl, rfl, -⟩ := hpure.pure
  exact ⟨hkr'.trans hkr, push, pull, r, resp, rfl⟩

theorem healShares_ran {gained : Bool} (h : Ran healShares d talk d' gained) (hd : d.Filled)
    (hreach : ∀ call l, (call, some (.ok (.shares l))) ∈ talk → ∀ m ∈ l, Reaches (m.epoch + 1) m.wrappedKey) :
    ∃ note resp call l, talk = [(⟨note, .query .wrapped d.vaultId d.key⟩, some (.ok (.wrapped resp))),
        (call, some (.ok (.shares l)))] ∧
      (∀ t, resp.wrappedKey = some t → Reaches (resp.epoch + 1) t →
        resp.epoch + 1 ≤ (d'.vault.keyring.keysOf nil).length) ∧
      ∀ m ∈ l, ∀ share, m.shareId.decode16 = some share → share ≠ nil →
        m.epoch + 1 ≤ (d'.vault.keyring.keysOf share).length := by
  obtain ⟨t₁, t₂, d₁, reply, hget, hrest, rfl⟩ := h.bind
  obtain ⟨rfl, rfl⟩ := signedGet_ran hget
  obtain ⟨t₃, t₄, d₂, resp, hlift, hthen, rfl⟩ := hrest.bind
  obtain ⟨rfl, rfl, hresp⟩ := hlift.lift
  cases reply <;> cases hresp
  obtain ⟨t₅, t₆, d₃, u, hheal, hshares, rfl⟩ := hthen.bind
  obtain ⟨rfl, hfill, hdefault⟩ := healVault_ran hheal hd
  obtain ⟨t₇, t₈, d₄, reply, hget', hrest', rfl⟩ := hshares.bind
  obtain ⟨rfl, rfl⟩ := signedGet_ran hget'
  obtain ⟨t₉, t₁₀, d₅, l, hlift', habsorb, rfl⟩ := hrest'.bind
  obtain ⟨rfl, rfl, hl⟩ := hlift'.lift
  cases reply <;> cases hl
  obtain ⟨rfl, hgrew, hall⟩ := absorbShares_ran habsorb hfill
    (hreach ⟨.plain, .query .shares d₅.vaultId d₅.key⟩ l (by simp))
  exact ⟨_, resp, _, l, rfl, fun t ht hr => (hdefault t ht hr).trans (hgrew nil), hall⟩

/-! ## Rounds -/

/-- The device holds the keys that the relay's epochs in this conversation call for: those of the default
share, if it was sent a list of them as an approved device, and those of each named share it is in. -/
structure Healed (talk : List (Call × Answer)) (d : Device) : Prop where
  default : ∀ call resp t, (call, some (.ok (.wrapped resp))) ∈ talk → resp.approved = true → resp.wrappedKey = some t →
    resp.epoch + 1 ≤ (d.vault.keyring.keysOf nil).length
  shares : ∀ call l, (call, some (.ok (.shares l))) ∈ talk → ∀ m ∈ l, ∀ share, m.shareId.decode16 = some share →
    share ≠ nil → m.epoch + 1 ≤ (d.vault.keyring.keysOf share).length

/-- Every list in an answer reaches the epoch beside it. -/
structure Reaching (a : Answer) : Prop where
  wrapped : ∀ resp t, a = some (.ok (.wrapped resp)) → resp.approved = true → resp.wrappedKey = some t →
    Reaches (resp.epoch + 1) t
  shares : ∀ l, a = some (.ok (.shares l)) → ∀ m ∈ l, Reaches (m.epoch + 1) m.wrappedKey

theorem syncOnce_heals {out : Nat × Nat} (h : Ran syncOnce d talk d' out) (hd : d.Filled)
    (hreach : ∀ x ∈ talk, Reaching x.2) : Healed talk d' := by
  obtain ⟨t₁, t₂, d₁, a, hget, hrest, rfl⟩ := h.bind
  obtain ⟨rfl, rfl, rfl⟩ := hget.get
  split at hrest
  · obtain ⟨t₁, t₂, d₁, u, hfail, -, -⟩ := hrest.bind
    exact hfail.fail.elim
  obtain ⟨t₃, t₄, d₂, gained, hheal, hthen, rfl⟩ := hrest.bind
  obtain ⟨note, resp, call, l, rfl, hdefault, hshares⟩ := healShares_ran hheal hd fun call l hmem =>
    (hreach (call, some (.ok (.shares l))) (by simp [hmem])).shares l rfl
  obtain ⟨t₅, t₆, d₃, entries, hraw, hlast, rfl⟩ := hthen.bind
  obtain ⟨rfl, rfl, -⟩ := onVault_ran hraw
  obtain ⟨hkr, push, pull, r, r', rfl⟩ := exchange_ran hlast
  have hkeys : ∀ share, d'.vault.keyring.keysOf share = d₂.vault.keyring.keysOf share := fun share => by rw [hkr]; rfl
  have hwrap := (hreach (⟨note, .query .wrapped a.vaultId a.key⟩, some (.ok (.wrapped resp))) (by simp)).wrapped resp
  refine ⟨fun c resp' t hmem happ ht => ?_, fun c l' hmem m hm share hs hne => ?_⟩
  · obtain ⟨-, rfl⟩ : c = ⟨note, .query .wrapped a.vaultId a.key⟩ ∧ resp' = resp := by simpa using hmem
    rw [hkeys]
    exact hdefault t ht (hwrap t rfl happ ht)
  · obtain ⟨-, rfl⟩ : c = call ∧ l' = l := by simpa using hmem
    rw [hkeys]
    exact hshares m hm share hs hne

end Sync

end SshVault
