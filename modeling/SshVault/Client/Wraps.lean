import SshVault.Client.Devices
import SshVault.Vault.Keys

/-!
# Wraps against a lying relay

`approve` and `revoke_and_rotate` wrap key-lists for the devices that the relay lists. The short
code that the user confirms is that of an Ed25519 key; the X25519 key next to it in the list is
the relay's word.
-/

open Lib

namespace SshVault

open Relay (ClientReq)

/-- The wrapped key-lists in a request. -/
def Outgoing.wraps : Outgoing → List Wire
  | .post _ _ (.approve r) => [r.wrappedKey]
  | .post _ _ (.rotate _ wrapped) => wrapped.map (·.wrappedKey)
  | .post _ _ (.shareGrant _ _ wrapped) => wrapped.map (·.wrappedKey)
  | .post _ _ (.shareRotate _ _ wrapped _) => wrapped.map (·.wrappedKey)
  | _ => []

/-- Whoever unwraps it, with whatever device id, has one of these secrets. -/
def OpensOnlyFor (owners : XKey → Prop) (wrapped : Wire) : Prop :=
  ∀ blob secret ed list, wrapped.decode = some blob → Crypto.unwrapVaultKey secret blob ed = .ok list → owners secret

/-- Every wrap that a client sends, if it gets these answers, opens only for these owners. -/
def Private {α : Type} (owners : XKey → Prop) (c : Session Device Call Answer α) (answers : List Answer) : Prop :=
  ∀ call ∈ c.asked answers, ∀ w ∈ call.what.wraps, OpensOnlyFor owners w

theorem opensOnlyFor_wrap {owners : XKey → Prop} {list : KeyBytes} {p ed : Bytes32} :
    OpensOnlyFor owners (.b64 (Crypto.wrapVaultKey list p ed)) ↔ ∀ x, p = .x x → owners x := by
  constructor
  · rintro h x rfl
    exact h _ x ed list rfl (Crypto.unwrapVaultKey_eq_ok.mpr rfl)
  · rintro h blob secret ed' list' hblob hopen
    obtain rfl := Option.some.inj hblob
    obtain ⟨hp, -, -⟩ := Wrapped.mk.inj (Bytes.wrapped.inj (Crypto.unwrapVaultKey_eq_ok.mp hopen))
    exact h secret hp

/-! ## Clients step by step -/

section

variable {α β : Type} {owners : XKey → Prop} {d : Device} {answers : List Answer}

theorem private_done {a : α} : Private owners (.done d a : Session Device Call Answer α) answers :=
  fun _ h => nomatch h

theorem private_ask {call : Call} {k : Answer → Session Device Call Answer α} :
    Private owners (.ask d call k) answers ↔ (∀ w ∈ call.what.wraps, OpensOnlyFor owners w) ∧
      ∀ a rest, answers = a :: rest → Private owners (k a) rest := by
  unfold Private
  cases answers with
  | nil => simp [Session.asked]
  | cons a rest => simp [Session.asked]

theorem private_lift {r : Except ClientError α} {f : α → Op β} :
    Private owners (((liftM r : Op α) >>= f) d) answers ↔ ∀ a, r = .ok a → Private owners (f a d) answers := by
  rw [Client.lift_bind]
  cases r with
  | error e => exact iff_of_true private_done fun a h => nomatch h
  | ok a => exact ⟨fun h a' ha' => Except.ok.inj ha' ▸ h, fun h => h a rfl⟩

theorem private_onVault {op : Vault → Prog Disk (Except VaultError α × Vault)} {f : α → Op β} :
    Private owners ((Sync.onVault op >>= f) d) answers ↔
      ∀ a, ((op d.vault).run d.disk).1.1 = .ok a → Private owners (f a (d.perform op)) answers := by
  unfold Sync.onVault Device.perform
  rw [Client.onState_bind]
  rcases (op d.vault).run d.disk with ⟨⟨e | a, v⟩, disk⟩
  · exact iff_of_true private_done fun a h => nomatch h
  · exact ⟨fun h a' ha' => Except.ok.inj ha' ▸ h, fun h => h a rfl⟩

end

namespace Devices

open Sync

variable {first : Bytes → List UInt8}

/-! ## Requests and answers -/

theorem post_bind {α : Type} (note : Note) (r : ClientReq) (f : Reply → Op α) (d : Device) :
    (post note r >>= f) d = .ask d ⟨note, .post d.vaultId d.key r⟩ fun a => ((liftM (parse a) : Op Reply) >>= f) d := by
  unfold post
  rw [Client.bind_assoc]
  rfl

/-- The device list in an answer. -/
def listed (a : Answer) : Except ClientError (List DeviceInfo) := do asDevices (← parse a)

theorem listDevices_bind {α : Type} (note : Note) (f : List DeviceInfo → Op α) (d : Device) :
    (listDevices note >>= f) d = .ask d ⟨note, .query .devices d.vaultId d.key⟩ fun a =>
      ((liftM (listed a) : Op (List DeviceInfo)) >>= f) d := by
  unfold listDevices signedGet
  rw [Client.bind_assoc, Client.bind_assoc, Client.ask_bind]
  congr 1
  funext a
  unfold listed
  cases parse a <;> rfl

/-- The device that an answer names by a code. -/
def found (first : Bytes → List UInt8) (code : String) (a : Answer) : Except ClientError DeviceInfo := do
  theDevice first code (← listed a)

theorem findByCode_bind {α : Type} (code : String) (f : DeviceInfo → Op α) (d : Device) :
    (findByCode first code >>= f) d = .ask d ⟨.plain, .query .devices d.vaultId d.key⟩ fun a =>
      ((liftM (found first code a) : Op DeviceInfo) >>= f) d := by
  unfold findByCode
  rw [Client.bind_assoc, listDevices_bind]
  congr 1
  funext a
  unfold found
  cases listed a <;> rfl

/-- A device for which `wrap_for` makes a wrap: both of its keys have 32 bytes. -/
def Wrappable (t : DeviceInfo) : Prop := (∃ x, t.x25519Pub.decode32 = some x) ∧ ∃ ed, t.ed25519Pub.decode32 = some ed

/-- The device is listed with a key whose secret half somebody has. -/
def ListedWith (t : DeviceInfo) (x : XKey) : Prop := t.x25519Pub.decode32 = some (.x x)

theorem wrapFor_spec (list : KeyBytes) (t : DeviceInfo) :
    (∃ x ed, t.x25519Pub.decode32 = some x ∧ t.ed25519Pub.decode32 = some ed ∧
      wrapFor list t = .ok ⟨t.ed25519Pub, .b64 (Crypto.wrapVaultKey list x ed)⟩) ∨
      ¬ Wrappable t ∧ ∃ e, wrapFor list t = .error e := by
  unfold wrapFor
  cases hx : t.x25519Pub.decode32 with
  | none => exact Or.inr ⟨fun ⟨⟨x, h⟩, _⟩ => (nomatch hx.symm.trans h), _, rfl⟩
  | some x =>
    cases hed : t.ed25519Pub.decode32 with
    | none => exact Or.inr ⟨fun ⟨_, ed, h⟩ => (nomatch hed.symm.trans h), _, rfl⟩
    | some ed => exact Or.inl ⟨x, ed, rfl, rfl, rfl⟩

theorem private_findByCode {α : Type} {owners : XKey → Prop} {code : String} {f : DeviceInfo → Op α} {d : Device}
    {answers : List Answer} :
    Private owners ((findByCode first code >>= f) d) answers ↔
      ∀ a rest, answers = a :: rest → ∀ t, found first code a = .ok t → Private owners (f t d) rest := by
  rw [findByCode_bind, private_ask]
  simp only [private_lift]
  exact and_iff_right fun w hw => nomatch hw

theorem private_post {α : Type} {owners : XKey → Prop} {note : Note} {r : ClientReq} {f : PushResp → Op α} {d : Device}
    {answers : List Answer} :
    Private owners ((do let resp ← asPush (← post note r); f resp : Op α) d) answers ↔
      (∀ w ∈ (Outgoing.post d.vaultId d.key r).wraps, OpensOnlyFor owners w) ∧
        ∀ a rest, answers = a :: rest → ∀ resp, parse a = .ok (.push resp) → Private owners (f resp d) rest := by
  rw [post_bind, private_ask]
  simp only [private_lift]
  refine and_congr Iff.rfl (forall₃_congr fun a rest _ => ?_)
  constructor
  · intro h resp hresp
    exact h _ hresp resp rfl
  · intro h reply hreply resp hresp
    cases reply with
    | push r =>
      obtain rfl := Except.ok.inj hresp
      exact h _ hreply
    | _ => cases hresp

/-! ## Approving -/

/-- If the relay's first answer lists the device with this code next to anybody's key, it is one of these. -/
def ListsOwn (first : Bytes → List UInt8) (code : String) (owners : XKey → Prop) (answers : List Answer) : Prop :=
  ∀ a rest, answers = a :: rest → ∀ t, found first code a = .ok t → Wrappable t → ∀ x, ListedWith t x → owners x

theorem approve_private (code : String) (owners : XKey → Prop) (d : Device) (answers : List Answer) :
    Private owners (approve first code d) answers ↔ ListsOwn first code owners answers := by
  unfold approve ListsOwn
  rw [private_findByCode]
  refine forall₃_congr fun a rest _ => forall₂_congr fun t _ => ?_
  rw [Client.get_bind, private_lift]
  rcases wrapFor_spec d.vault.vaultKeyList t with ⟨p, ed, hp, hed, hw⟩ | ⟨hnot, e, hw⟩
  · rw [hw]
    constructor
    · intro h _ x hx
      exact opensOnlyFor_wrap.mp ((private_post.mp (h _ rfl)).1 _ (List.mem_singleton.mpr rfl)) x
        (Option.some.inj (hp.symm.trans hx))
    · intro h w hw'
      obtain rfl := Except.ok.inj hw'
      refine private_post.mpr ⟨fun w' hw' => ?_, fun _ _ _ _ _ => private_done⟩
      rw [List.mem_singleton.mp hw']
      exact opensOnlyFor_wrap.mpr fun x hx => h ⟨⟨p, hp⟩, ed, hed⟩ x (hp.trans (congrArg some hx))
  · rw [hw]
    exact iff_of_true (fun w h => nomatch h) fun ht => absurd ht hnot

/-! ## Rotating -/

/-- The devices that a rotation wraps for. -/
def others (target : DeviceInfo) (l : List DeviceInfo) : List DeviceInfo :=
  l.filter fun o => ¬ (o.revoked ∨ o.ed25519Pub = target.ed25519Pub)

theorem wrapAll_cons (list : KeyBytes) (o : DeviceInfo) (l : List DeviceInfo) :
    wrapAll list (o :: l) = do return (← wrapFor list o) :: (← wrapAll list l) := List.mapM_cons

theorem wrapAll_ok {list : KeyBytes} {l : List DeviceInfo} {ws : List WrappedFor} (h : wrapAll list l = .ok ws) :
    (∀ o ∈ l, ∃ w ∈ ws, wrapFor list o = .ok w) ∧ ∀ w ∈ ws, ∃ o ∈ l, wrapFor list o = .ok w := by
  induction l generalizing ws with
  | nil =>
    obtain rfl : [] = ws := Except.ok.inj h
    simp
  | cons o l ih =>
    rw [wrapAll_cons] at h
    cases ho : wrapFor list o with
    | error e =>
      rw [ho] at h
      exact nomatch (show Except.error e = Except.ok ws from h)
    | ok w =>
      cases hl : wrapAll list l with
      | error e =>
        rw [ho, hl] at h
        exact nomatch (show Except.error e = Except.ok ws from h)
      | ok rest =>
        rw [ho, hl] at h
        obtain rfl : w :: rest = ws := Except.ok.inj h
        obtain ⟨hto, hfrom⟩ := ih hl
        constructor
        · intro o' ho'
          rcases List.mem_cons.mp ho' with rfl | ho'
          · exact ⟨w, List.mem_cons_self, ho⟩
          · obtain ⟨w', hw', heq⟩ := hto o' ho'
            exact ⟨w', List.mem_cons_of_mem _ hw', heq⟩
        · intro w' hw'
          rcases List.mem_cons.mp hw' with rfl | hw'
          · exact ⟨o, List.mem_cons_self, ho⟩
          · obtain ⟨o', ho', heq⟩ := hfrom w' hw'
            exact ⟨o', List.mem_cons_of_mem _ ho', heq⟩

theorem wrapAll_total (list : KeyBytes) {l : List DeviceInfo} (h : ∀ o ∈ l, Wrappable o) :
    ∃ ws, wrapAll list l = .ok ws := by
  induction l with
  | nil => exact ⟨[], rfl⟩
  | cons o l ih =>
    obtain ⟨ws, hws⟩ := ih fun o' ho' => h o' (List.mem_cons_of_mem _ ho')
    rcases wrapFor_spec list o with ⟨p, ed, -, -, ho⟩ | ⟨hnot, -⟩
    · exact ⟨_, by rw [wrapAll_cons, ho, hws]; rfl⟩
    · exact absurd (h o List.mem_cons_self) hnot

theorem wrapFor_opens {list : KeyBytes} {o : DeviceInfo} {w : WrappedFor} (h : wrapFor list o = .ok w)
    (owners : XKey → Prop) : Wrappable o ∧ (OpensOnlyFor owners w.wrappedKey ↔ ∀ x, ListedWith o x → owners x) := by
  rcases wrapFor_spec list o with ⟨p, ed, hp, hed, ho⟩ | ⟨-, e, he⟩
  · obtain rfl := Except.ok.inj (ho.symm.trans h)
    refine ⟨⟨⟨p, hp⟩, ed, hed⟩, opensOnlyFor_wrap.trans (forall_congr' fun x => imp_congr_left ?_)⟩
    unfold ListedWith
    rw [hp, Option.some_inj]
  · exact nomatch he.symm.trans h

theorem wrapAll_opens (list : KeyBytes) (l : List DeviceInfo) (owners : XKey → Prop) :
    (∀ ws, wrapAll list l = .ok ws → ∀ w ∈ ws, OpensOnlyFor owners w.wrappedKey) ↔
      ((∀ o ∈ l, Wrappable o) → ∀ o ∈ l, ∀ x, ListedWith o x → owners x) := by
  constructor
  · intro h hall o ho
    obtain ⟨ws, hws⟩ := wrapAll_total list hall
    obtain ⟨w, hw, heq⟩ := (wrapAll_ok hws).1 o ho
    exact (wrapFor_opens heq owners).2.mp (h ws hws w hw)
  · intro h ws hws w hw
    obtain ⟨hto, hfrom⟩ := wrapAll_ok hws
    obtain ⟨o, ho, heq⟩ := hfrom w hw
    refine (wrapFor_opens heq owners).2.mpr (h (fun o' ho' => ?_) o ho)
    obtain ⟨w', -, heq'⟩ := hto o' ho'
    exact (wrapFor_opens heq' owners).1

theorem private_revoke {α : Type} {owners : XKey → Prop} {code : String} {f : Wire → Op α} {d : Device}
    {answers : List Answer} :
    Private owners ((revoke first code >>= f) d) answers ↔
      ∀ a rest, answers = a :: rest → ∀ t, found first code a = .ok t →
        ∀ a' rest', rest = a' :: rest' → ∀ resp, parse a' = .ok (.push resp) → Private owners (f t.name d) rest' := by
  unfold revoke
  rw [Client.bind_assoc, private_findByCode]
  refine forall₃_congr fun a rest _ => forall₂_congr fun t _ => ?_
  rw [Client.bind_assoc]
  simp only [Client.bind_assoc]
  refine private_post.trans (and_iff_right fun w hw => nomatch hw)

/-- If the relay lists a device that the rotation wraps for next to anybody's key, it is one of these. The list
is its fourth answer. -/
def RelistsOwn (first : Bytes → List UInt8) (code : String) (owners : XKey → Prop) (answers : List Answer) : Prop :=
  ∀ a₁ a₂ a₃ a₄ rest, answers = a₁ :: a₂ :: a₃ :: a₄ :: rest → ∀ t t' resp l, found first code a₁ = .ok t →
    found first code a₂ = .ok t' → parse a₃ = .ok (.push resp) → listed a₄ = .ok l →
      (∀ o ∈ others t l, Wrappable o) → ∀ o ∈ others t l, ∀ x, ListedWith o x → owners x

theorem revokeAndRotate_private (code : String) (phrase : Phrase) (owners : XKey → Prop) (d : Device)
    (answers : List Answer) :
    Private owners (revokeAndRotate first code phrase d) answers ↔
      ∀ seed, phrase = .mnemonic seed → RelistsOwn first code owners answers := by
  unfold revokeAndRotate
  rw [private_findByCode]
  simp only [private_revoke, private_onVault, Client.get_bind, listDevices_bind, private_ask, private_lift]
  constructor
  · rintro h seed rfl a₁ a₂ a₃ a₄ rest rfl t t' resp l h₁ h₂ h₃ h₄
    refine (wrapAll_opens (d.perform (·.rotate (.mnemonic seed))).vault.vaultKeyList _ owners).mp fun ws hws w hw => ?_
    have hrotate : ((d.vault.rotate (.mnemonic seed)).run d.disk).1.1 = .ok (d.vault.epoch + 1) := by
      rw [Vault.run_rotate rfl]
    have hlast := (h a₁ _ rfl t h₁ a₂ _ rfl t' h₂ a₃ _ rfl resp h₃ _ hrotate).2 a₄ rest rfl l h₄ ws hws
    exact (private_post.mp hlast).1 _ (List.mem_map_of_mem hw)
  · intro h a₁ rest₁ hrest₁ t h₁ a₂ rest₂ hrest₂ t' h₂ a₃ rest₃ hrest₃ resp h₃ epoch hepoch
    refine ⟨(fun w hw => nomatch hw), fun a₄ rest hrest l h₄ ws hws => ?_⟩
    refine private_post.mpr ⟨fun w hw => ?_, fun _ _ _ _ _ => private_done⟩
    obtain ⟨e, he, rfl⟩ := List.mem_map.mp hw
    cases phrase with
    | invalid text =>
      rw [Vault.run_rotate_error rfl] at hepoch
      cases hepoch
    | mnemonic seed =>
      subst hrest₁ hrest₂ hrest₃ hrest
      exact (wrapAll_opens _ _ owners).mpr (h seed rfl a₁ a₂ a₃ a₄ rest rfl t t' resp l h₁ h₂ h₃ h₄) ws hws e he

/-! ## What the relay can open -/

/-- The X25519 keys that were generated together with these devices' keys. -/
def KeyOf (pair : EdKey → XKey) (devices : EdKey → Prop) (x : XKey) : Prop := ∃ ed, devices ed ∧ x = pair ed

/-- **A lying relay.** Whatever the relay answers: the wrap of an approval opens only with the X25519
key of the confirmed device exactly when the relay lists no other key that anybody has next to the confirmed
code, and the wraps of a rotation open only for admitted devices exactly when no device that the relay lists as
not revoked is listed with the key of anybody else. -/
theorem wraps_private_iff (first : Bytes → List UInt8) (pair : EdKey → XKey) (admitted : EdKey → Prop) (confirmed : EdKey)
    (code : String) (phrase : Phrase) (d : Device) (answers : List Answer) :
    (Private (· = pair confirmed) (approve first code d) answers ↔
        ListsOwn first code (· = pair confirmed) answers) ∧
      (Private (KeyOf pair admitted) (revokeAndRotate first code phrase d) answers ↔
        ∀ seed, phrase = .mnemonic seed → RelistsOwn first code (KeyOf pair admitted) answers) :=
  ⟨approve_private code _ d answers, revokeAndRotate_private code phrase _ d answers⟩

def leading : Bytes → List UInt8
  | .ed (.device n) => List.replicate 32 (UInt8.ofNat n)
  | _ => []

def namesake : EdKey → XKey
  | .device n => n
  | .recovery seed => seed

def laptop : Device := recovered "laptop" "relay" ⟨.vault 7 0, .recovery 7⟩ ⟨0, .device 0, 10⟩ 1

/-- The device with code 0101-0101, with a key of the relay's own. -/
def lie : Answer := some (.ok (.devices [⟨.plain "phone", .b64 (.ed (.device 1)), .b64 (.x 99), false, false⟩]))

/-- The user confirms the code of device 1, and the key-list goes out for the relay's key. -/
theorem approve_wraps_for_relay :
    ¬ ∀ (first : Bytes → List UInt8) (pair : EdKey → XKey) (d : Device) (code : String) (confirmed : EdKey)
      (answers : List Answer), shortCode first (.b64 (.ed confirmed)) = code.toLower →
      Private (· = pair confirmed) (approve first code d) answers := by
  intro h
  have hlists := (approve_private _ _ _ _).mp (h leading namesake laptop "0101-0101" (.device 1) [lie] (by decide +kernel))
  have hfound : found leading "0101-0101" lie =
      .ok ⟨.plain "phone", .b64 (.ed (.device 1)), .b64 (.x 99), false, false⟩ := by decide +kernel
  exact absurd (hlists lie [] rfl _ hfound ⟨⟨_, rfl⟩, _, rfl⟩ 99 rfl) (by decide)

end Devices

end SshVault
