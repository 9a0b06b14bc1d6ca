import SshVault.Client.Unblocked
import SshVault.Relay.Later

/-!
# The cursor

A pull leaves out what is in shares that the device is not in, and the cursor goes past it. A device that gains a share
rewinds, so that nothing is left out for good. That is so as long as no round breaks off in between, and no device comes
back to a share that it was removed from.
-/

open Lib

namespace SshVault

open Relay Prog

/-- How far the device's cursor is, in memory or on disk. -/
def Device.reach (d : Device) : Nat := max d.vault.metadata.syncCursor d.disk.metadata.syncCursor

def Device.holds (d : Device) (share : Uuid) : Prop := d.vault.keyring.hasShare share = true

/-- The entry is in the log. -/
def Device.has (d : Device) (e : EntryRow) : Prop := ∃ i, e.entryId = .uuid i ∧ ∃ f ∈ d.disk.log, f.1 = i

namespace Cursor

open Devices Sync Client

/-! ## The relay, seen from one device -/

section

variable (id : Identity)

def Member (db : Db) (share : Uuid) : Prop := db.isMember (vaultOf id) share (pubOf id) = true

/-- The relay, and the shares that the device has been removed from. -/
abbrev Seen := Db × Set Uuid

def Seen.step (w : Seen) (db : Db) : Seen := (db, w.2 ∪ {share | Member id w.1 share ∧ ¬ Member id db share})

/-- The device is in no share that it has been removed from. -/
def Clean (w : Seen) : Prop := ∀ share ∈ w.2, ¬ Member id w.1 share

/-- A request of anybody else. -/
def Elsewhere (ok : Seen → Prop) (w w' : Seen) : Prop := ∃ now req, w' = w.step id (exec (route now req) w.1).2 ∧ ok w'

/-- After any requests of others, the relay answers at once; or it does not, or the answer is lost. -/
def Serves (ok : Seen → Prop) (fair : Call → Answer → Prop) (call : Call) (w : Seen) (a : Answer) (w' : Seen) : Prop :=
  ∃ w₁, Relation.ReflTransGen (Elsewhere id ok) w w₁ ∧ fair call a ∧ ∃ now ts,
    (a = some (exec (route now (call.what.request ts)) w₁.1).1 ∧
      w' = ((exec (route now (call.what.request ts)) w₁.1).2, w₁.2)) ∨
    a = none ∧ (w' = w₁ ∨ w' = ((exec (route now (call.what.request ts)) w₁.1).2, w₁.2))

end

/-- The device lacks no entry up to its cursor that is in the default share, or in one of these shares. -/
structure Covered (id : Identity) (counts : Uuid → Prop) (d : Device) (w : Seen) : Prop where
  self : d.self = id
  entries : ∀ e ∈ w.1.entries, e.vaultId = vaultOf id → e.seq ≤ d.reach →
    (e.shareId = nil ∨ counts e.shareId ∧ e.shareId ∉ w.2) → d.has e
  members : ∀ share ≠ nil, d.holds share → share ∈ w.2 ∨ Member id w.1 share
  reach : d.reach < w.1.nextSeq
  clean : Clean id w
  seqs : ∀ e ∈ w.1.entries, 0 < e.seq
  parses : ∀ f ∈ d.disk.log, Parses f.2

variable {id : Identity} {counts counts' : Uuid → Prop} {d d' : Device} {w w' : Seen}

theorem Covered.step (h : Covered id counts d w) {db : Db} (hlater : Later w.1 db) (hclean : Clean id (w.step id db)) :
    Covered id counts d (w.step id db) := by
  have hpos : 0 < w.1.nextSeq := Nat.succ_pos _
  refine ⟨h.self, fun e he hv hle hshare => ?_, fun share hne hholds => ?_, h.reach.trans_le hlater.next, hclean,
    fun e he => ?_, h.parses⟩
  · rcases hlater.entries e he with hold | hnew
    · exact h.entries e hold hv hle (hshare.imp_right fun hc => ⟨hc.1, fun hin => hc.2 (Or.inl hin)⟩)
    · exact absurd (h.reach.trans_le (hnew.trans hle)) (lt_irrefl _)
  · by_cases hnow : Member id db share
    · exact Or.inr hnow
    · exact Or.inl ((h.members share hne hholds).imp_right fun hwas => ⟨hwas, hnow⟩)
  · exact (hlater.entries e he).elim (h.seqs e) hpos.trans_le

theorem Covered.elsewhere (h : Covered id counts d w) (hstep : Relation.ReflTransGen (Elsewhere id (Clean id)) w w') :
    Covered id counts d w' := by
  induction hstep with
  | refl => exact h
  | tail _ hlast ih =>
    obtain ⟨now, req, rfl, hclean⟩ := hlast
    exact ih.step (route_later now req _) hclean

theorem Covered.own (h : Covered id counts d w) {db : Db} (hlater : Later w.1 db) (hsame : db.shareMembers = w.1.shareMembers) :
    Covered id counts d (db, w.2) := by
  have hmember : ∀ share, Member id db share ↔ Member id w.1 share := by
    intro share
    unfold Member Db.isMember
    rw [hsame]
  have hstep : w.step id db = (db, w.2) := by
    refine Prod.ext rfl (Set.union_eq_left.mpr fun share hgone => ?_)
    exact absurd ((hmember share).mpr hgone.1) hgone.2
  have hclean : Clean id (w.step id db) := by
    rw [hstep]
    exact fun share hin hnow => h.clean share hin ((hmember share).mp hnow)
  exact hstep ▸ h.step hlater hclean

/-! ## Answers to one device -/

/-- Neither a grant nor a rotation of a share. -/
def Plain (what : Outgoing) : Prop :=
  ∀ ts signed, what.request ts ≠ .post .shareGrant signed ∧ what.request ts ≠ .post .shareRotate signed

variable {fair : Call → Answer → Prop} {call : Call} {a : Answer}

theorem Covered.serves (h : Covered id counts d w) (hplain : Plain call.what)
    (hs : Serves id (Clean id) fair call w a w') :
    Covered id counts d w' ∧ fair call a ∧ (a = none ∨ ∃ now ts db,
      a = some (exec (route now (call.what.request ts)) db).1 ∧ w'.1 = (exec (route now (call.what.request ts)) db).2) := by
  obtain ⟨w₁, hothers, hfair, now, ts, hend⟩ := hs
  have h₁ := h.elsewhere hothers
  have hmembers : (exec (route now (call.what.request ts)) w₁.1).2.shareMembers = w₁.1.shareMembers :=
    (route_traced now _).exec (P := fun t => t.shareMembers = w₁.1.shareMembers)
      (fun _ _ _ hstep hs => (hstep.members (fun signed => (hplain ts signed).1) fun signed => (hplain ts signed).2).trans hs) rfl
  have hown := h₁.own (route_later now (call.what.request ts) w₁.1) hmembers
  rcases hend with ⟨rfl, rfl⟩ | ⟨rfl, rfl | rfl⟩
  · exact ⟨hown, hfair, Or.inr ⟨now, ts, w₁.1, rfl, rfl⟩⟩
  · exact ⟨h₁, hfair, Or.inl rfl⟩
  · exact ⟨hown, hfair, Or.inl rfl⟩

theorem exec_reply {α : Type} (p : Handler α) (reply : α → Reply) (db : Db) :
    exec (do return reply (← p)) db = ((exec p db).1.map reply, (exec p db).2) := by
  rw [exec_bind]
  rcases exec p db with ⟨r, t⟩
  cases r <;> rfl

theorem shares_reply {ts : Int64} {vault : Wire} {key : EdKey} {l : List ShareMembership} {db : Db}
    (h : (exec (route now (Outgoing.request ts (.query .shares vault key))) db).1 = .ok (.shares l)) :
    (exec (route now (Outgoing.request ts (.query .shares vault key))) db).2 = db ∧
      ∀ m ∈ l, ∀ share, m.shareId.decode16 = some share → db.isMember vault share (.ed key) = true := by
  let q := signedQuery vault key ts (.query .shares vault)
  change (exec (do return Reply.shares (← shares now q)) db).1 = _ at h
  change (exec (do return Reply.shares (← shares now q)) db).2 = _ ∧ _
  rw [exec_reply] at h ⊢
  refine ⟨exec_shares q, ?_⟩
  unfold shares at h
  rw [exec_bind, exec_authorize] at h
  cases hv : verify now.verify (q.intoSigned .shares) with
  | error e =>
    rw [hv] at h
    cases h
  | ok out =>
    obtain ⟨vault', key'⟩ := out
    rw [hv] at h
    obtain ⟨-, hvault, hkey, -⟩ := verify_ok hv
    obtain rfl : vault' = vault := hvault
    obtain rfl : key = key' := Option.some.inj hkey
    dsimp only at h
    split at h
    · rename_i hcase
      split at hcase
      · obtain ⟨hok, rfl⟩ := Prod.mk.inj hcase
        obtain rfl := Except.ok.inj hok
        obtain rfl := Reply.shares.inj (Except.ok.inj h)
        intro m hm share hs
        obtain ⟨⟨row, epoch⟩, hrow, rfl⟩ := List.mem_map.mp hm
        obtain ⟨row', hrow', heq⟩ := List.mem_map.mp hrow
        obtain ⟨rfl, -⟩ := Prod.mk.inj heq
        obtain ⟨hin, hp⟩ := List.mem_filter.mp hrow'
        obtain ⟨hv', hpub⟩ := of_decide_eq_true hp
        obtain rfl : row'.shareId = share := Option.some.inj hs
        exact List.any_eq_true.mpr ⟨row', hin, decide_eq_true (Prod.ext hv' (Prod.ext rfl hpub))⟩
      · cases hcase
    · cases h

theorem pull_reply {ts : Int64} {vault : Wire} {key : EdKey} {since : Nat} {r : PullResp} {db : Db}
    (h : (exec (route now (Outgoing.request ts (.pull vault key since))) db).1 = .ok (.pull r)) :
    (exec (route now (Outgoing.request ts (.pull vault key since))) db).2 = db ∧
      r = ⟨(((Db.selectEntries vault (.ed key) since).run db).1).map Relay.wireEntry, max (db.head vault) since⟩ := by
  let q : PullQuery := ⟨vault, .b64 (.ed key), .b64 ⟨key, .request ts (.pull since)⟩, since, ts⟩
  change (exec (do return Reply.pull (← pull now q)) db).1 = _ at h
  change (exec (do return Reply.pull (← pull now q)) db).2 = _ ∧ _
  rw [exec_reply] at h ⊢
  refine ⟨exec_pull q, ?_⟩
  rw [exec_pull_eq now q db] at h
  cases hv : verify now.verify ⟨q.vault, q.device, q.sig, q.ts, .pull q.since⟩ with
  | error e =>
    rw [hv] at h
    cases h
  | ok out =>
    obtain ⟨vault', key'⟩ := out
    rw [hv] at h
    obtain ⟨-, hvault, hkey, -⟩ := verify_ok hv
    obtain rfl : vault' = vault := hvault
    obtain rfl : key = key' := Option.some.inj hkey
    dsimp only at h
    split at h
    · exact (Reply.pull.inj (Except.ok.inj h)).symm
    · cases h

/-! ## The device -/

/-- The device may have keys of one more share, and the rest is as it was. -/
structure Rekeyed (share : Uuid) (d d' : Device) : Prop where
  self : d'.self = d.self
  log : d'.disk.log = d.disk.log
  reach : d'.reach = d.reach
  holds : ∀ s, d'.holds s → d.holds s ∨ s = share

theorem Covered.rekeyed {share : Uuid} (h : Covered id counts d w) (hk : Rekeyed share d d')
    (hshare : share ≠ nil → Member id w.1 share) : Covered id counts d' w := by
  refine ⟨hk.self.trans h.self, ?_, fun s hne hs => ?_, hk.reach ▸ h.reach, h.clean, h.seqs, hk.log ▸ h.parses⟩
  · unfold Device.has
    rw [hk.log, hk.reach]
    exact h.entries
  · rcases hk.holds s hs with hs | rfl
    · exact h.members s hne hs
    · exact Or.inr (hshare hne)

/-- Every named share of the device is one of these. -/
def Even (counts : Uuid → Prop) (d : Device) : Prop := ∀ share ≠ nil, d.holds share → counts share

theorem Covered.even (h : Covered id counts d w) (heven : Even counts d) : Covered id d.holds d w := by
  refine ⟨h.self, fun e he hv hle hshare => ?_, h.members, h.reach, h.clean, h.seqs, h.parses⟩
  by_cases hnil : e.shareId = nil
  · exact h.entries e he hv hle (Or.inl hnil)
  · exact h.entries e he hv hle (hshare.imp_right fun hc => ⟨heven _ hnil hc.1, hc.2⟩)

variable {serves : Call → Seen → Answer → Seen → Prop} {E : Device → Seen → Prop}

theorem onVault_meets {α δ : Type} {serves : Call → δ → Answer → δ → Prop} {Q : Device → α → δ → Prop}
    {E : Device → δ → Prop} {w : δ} {op : Vault → Prog Disk (Except VaultError α × Vault)} {r : Except VaultError α} {v : Vault}
    {disk : Disk} (hrun : (op d.vault).run d.disk = ((r, v), disk))
    (hQ : ∀ a, r = .ok a → Q ⟨disk, v⟩ a w) (hE : ∀ e, r = .error e → E ⟨disk, v⟩ w) :
    Meets serves Q E (onVault op) d w := by
  refine Meets.onState (fun a ha => ?_) fun e he => ?_
  · dsimp only at ha ⊢
    rw [hrun] at ha ⊢
    cases r with
    | ok b => exact hQ a (congrArg _ (Except.ok.inj ha))
    | error e => cases ha
  · dsimp only at he ⊢
    rw [hrun] at he ⊢
    cases r with
    | ok b => cases he
    | error e => exact hE e rfl

theorem updateVault_meets {op : Vault → Prog Disk Vault} {Q : Device → Unit → Seen → Prop} (hQ : Q (d.update op) () w) :
    Meets serves Q E (updateVault op) d w := hQ

theorem Rekeyed.absorb (d : Device) (share : Uuid) (list : KeyBytes) : Rekeyed share d (d.perform (·.absorbShareKey share list)) := by
  rcases d.perform_absorbShareKey share list with h | ⟨keys, -, -, h⟩
  · rw [h]
    exact ⟨rfl, rfl, rfl, fun _ => Or.inl⟩
  rw [h]
  refine ⟨Device.rekey_self (by simp) (by simp), rfl, rfl, fun s hs => ?_⟩
  unfold Device.holds Keyring.hasShare at hs ⊢
  rw [Device.rekey_keyring, Keyring.share_setShareKeys] at hs
  split at hs
  · exact Or.inr ‹_›
  · exact Or.inl hs

theorem absorb_meets {share : Uuid} {list : KeyBytes} {keys : List Key} {Q : Device → Unit → Seen → Prop}
    (hs : splitKeyList list = .ok keys) (hQ : ∀ d', Rekeyed share d d' → Q d' () w) :
    Meets serves Q E (onVault (·.absorbShareKey share list)) d w := by
  refine Meets.onState (fun _ _ => hQ _ (Rekeyed.absorb d share list)) fun e he => ?_
  have hok : ((d.vault.absorbShareKey share list).run d.disk).1.1 = .ok () := by
    by_cases hnew : d.vault.Newer share keys
    · rw [Vault.run_absorbShareKey hs hnew]
    · rw [Vault.run_absorbShareKey_old hs hnew]
  change (((d.vault.absorbShareKey share list).run d.disk).1.1).mapError ClientError.vault = .error e at he
  rw [hok] at he
  cases he

theorem unwrapFor_opening {t : Wire} {Q : Device → KeyBytes → Seen → Prop} (h : Opening d.self t)
    (hQ : ∀ list keys, splitKeyList list = .ok keys → Q d list w) : Meets serves Q E (unwrapFor t) d w := by
  obtain ⟨wrap, rfl, hopens⟩ := h
  obtain ⟨list, keys, hunwrapped, hs⟩ := unwrapped_of_opens hopens
  refine Meets.bind (Meets.get (Meets.lift (fun out hout => ?_) fun e he => ?_))
  · obtain rfl := Except.ok.inj (hunwrapped.symm.trans hout)
    exact hQ list keys hs
  · cases hunwrapped.symm.trans he

theorem absorbShares_meets {l : List ShareMembership} (gained : Bool) {Q : Device → Bool → Seen → Prop}
    (hopening : ∀ m ∈ l, Opening id m.wrappedKey)
    (hmember : ∀ m ∈ l, ∀ share, m.shareId.decode16 = some share → Member id w.1 share)
    (hc : Covered id counts d w) (heven : gained = false → Even counts d)
    (hQ : ∀ d' g, Covered id counts d' w → (g = false → Even counts d') → Q d' g w) :
    Meets serves Q E (absorbShares gained l) d w := by
  induction l generalizing d gained with
  | nil => exact Meets.pure (hQ d gained hc heven)
  | cons m rest ih =>
    obtain ⟨hm, hrest⟩ := List.forall_mem_cons.mp hopening
    obtain ⟨hin, hmember⟩ := List.forall_mem_cons.mp hmember
    unfold absorbShares
    split
    · exact ih gained hrest hmember hc heven
    · rename_i share hshare
      split
      · exact ih gained hrest hmember hc heven
      · refine Meets.bind (Meets.get ?_)
        dsimp only
        split
        · refine Meets.bind (unwrapFor_opening (hc.self ▸ hm) fun list keys hs => Meets.bind ?_)
          refine absorb_meets hs fun d' hd' => ih _ hrest hmember (hc.rekeyed hd' fun _ => hin share hshare) fun hg => ?_
          obtain ⟨hold, hhad⟩ := Bool.or_eq_false_iff.mp hg
          intro s hne hs
          rcases hd'.holds s hs with hs | rfl
          · exact heven hold s hne hs
          · exact heven hold s hne (by simpa [Device.holds] using hhad)
        · exact ih gained hrest hmember hc heven

/-- What the device is promised: a push after it has gained a share is answered, the wraps for it open, and entries that
it is sent hold records. -/
structure Fair (id : Identity) (call : Call) (a : Answer) : Prop where
  push : call.note = .healed true → ∃ r, a = some (.ok (.push r))
  wraps : ∀ l, a = some (.ok (.shares l)) → ∀ m ∈ l, Opening id m.wrappedKey
  entries : ∀ r, a = some (.ok (.pull r)) → ∀ e ∈ r.entries, ∀ blob, e.blob.decode = some blob → Parses blob

/-- Between rounds. -/
def Sound (id : Identity) (d : Device) (w : Seen) : Prop := Covered id d.holds d w

abbrev Keeps {α : Type} (id : Identity) (Q : Device → α → Seen → Prop) (m : Op α) (d : Device) (w : Seen) : Prop :=
  Meets (Serves id (Clean id) (Fair id)) Q (Sound id) m d w

theorem plain_query {action : Action} {vault : Wire} {key : EdKey} : Plain (.query action vault key) := by
  intro ts signed
  cases action <;> constructor <;> intro h <;> cases h

theorem signedGet_keeps {action : Action} {Q : Device → Reply → Seen → Prop} (hc : Covered id counts d w) (heven : Even counts d)
    (hQ : ∀ w' reply call now ts db, Covered id counts d w' → Fair id call (some (.ok reply)) →
      (exec (route now (Outgoing.request ts (.query action d.vaultId d.key))) db) = (.ok reply, w'.1) → Q d reply w') :
    Keeps id Q (signedGet .plain action) d w := by
  refine Meets.bind (Meets.ask fun a w' hs => ?_)
  obtain ⟨hc', hfair, hrest⟩ := hc.serves plain_query hs
  refine Meets.lift (fun reply hreply => ?_) fun _ _ => hc'.even heven
  obtain rfl := parse_ok hreply
  rcases hrest with hnone | ⟨now, ts, db, hsome, hdb⟩
  · cases hnone
  · exact hQ w' reply _ now ts db hc' hfair (Prod.ext (Option.some.inj hsome).symm hdb.symm)

theorem healVault_even (resp : WrappedResp) {Q : Device → Unit → Seen → Prop} (hc : Covered id counts d w)
    (heven : Even counts d) (hQ : ∀ d', Covered id counts d' w → Even counts d' → Q d' () w) :
    Keeps id Q (healVault resp) d w := by
  have hkeeps := Judgement.Keeps.meets.mp (healVault_keeps (J := .meets (Serves id (Clean id) (Fair id)))
    (I := fun d w' => w' = w ∧ Covered id counts d w ∧ Even counts d) (fun list => ?_) resp) d w ⟨rfl, hc, heven⟩
  · refine hkeeps.imp ?_ ?_
    · rintro d' ⟨⟩ _ ⟨rfl, hc', heven'⟩
      exact hQ d' hc' heven'
    · rintro d' _ ⟨rfl, hc', heven'⟩
      exact hc'.even heven'
  · rintro d _ ⟨rfl, hc, heven⟩
    have hd := Rekeyed.absorb d nil list
    refine ⟨rfl, hc.rekeyed hd fun hne => absurd rfl hne, fun share hne hs => ?_⟩
    exact heven share hne ((hd.holds share hs).resolve_right hne)

theorem healShares_keeps {Q : Device → Bool → Seen → Prop} (hs : Sound id d w)
    (hQ : ∀ counts d' w' g, Covered id counts d' w' → (g = false → Even counts d') → Q d' g w') :
    Keeps id Q healShares d w := by
  have heven : Even d.holds d := fun _ _ h => h
  refine Meets.bind (signedGet_keeps hs heven fun w₁ reply _ _ _ _ hc _ _ => ?_)
  refine Meets.bind (Meets.lift (fun resp _ => ?_) fun _ _ => hc.even heven)
  have hshares : ∀ d₁ : Device, Covered id d.holds d₁ w₁ → Even d.holds d₁ → Keeps id Q (do
      let memberships ← asShares (← signedGet .plain .shares)
      absorbShares false memberships) d₁ w₁ := by
    intro d₁ hc₁ heven₁
    refine Meets.bind (signedGet_keeps hc₁ heven₁ fun w₂ reply call now ts db hc₂ hfair hexec => ?_)
    refine Meets.bind (Meets.lift (fun l hl => ?_) fun _ _ => hc₂.even heven₁)
    cases reply <;> cases hl
    obtain ⟨hdb, hmember⟩ := shares_reply (congrArg Prod.fst hexec)
    rw [hexec] at hdb
    refine absorbShares_meets false (hfair.wraps l rfl) (fun m hm share hs => ?_) hc₂ (fun _ => heven₁) fun d' g => hQ _ d' w₂ g
    obtain rfl : w₂.1 = db := hdb
    rw [← hc₂.self]
    exact hmember m hm share hs
  exact Meets.bind (healVault_even resp hc heven fun d₁ hc₁ heven₁ => hshares d₁ hc₁ heven₁)

theorem plain_push {vault : Wire} {key : EdKey} {r : PushReq} : Plain (.post vault key (.push r)) := by
  intro ts signed
  constructor <;> intro h <;> cases h

theorem plain_pull {vault : Wire} {key : EdKey} {since : Nat} : Plain (.pull vault key since) := by
  intro ts signed
  constructor <;> intro h <;> cases h

theorem pushEntries_keeps {gained : Bool} {entries : List (Uuid × Bytes × Uuid)} {Q : Device → PushResp → Seen → Prop}
    (hc : Covered id counts d w) (heven : gained = false → Even counts d)
    (hQ : ∀ w' resp, Covered id counts d w' → Q d resp w') : Keeps id Q (pushEntries gained entries) d w := by
  refine Meets.bind (Meets.bind (Meets.ask fun a w' hs => ?_))
  obtain ⟨hc', hfair, -⟩ := hc.serves plain_push hs
  cases gained with
  | true =>
    obtain ⟨r, rfl⟩ := hfair.push rfl
    exact hQ w' r hc'
  | false =>
    have hsound := hc'.even (heven rfl)
    exact Meets.lift (fun reply _ => Meets.lift (fun resp _ => hQ w' resp hc') fun _ _ => hsound) fun _ _ => hsound

/-- The log may have more frames, and the rest that matters here is as it was. -/
structure Grown (d d' : Device) : Prop where
  self : d'.self = d.self
  log : ∀ f ∈ d.disk.log, f ∈ d'.disk.log
  parses : (∀ f ∈ d.disk.log, Parses f.2) → ∀ f ∈ d'.disk.log, Parses f.2
  reach : d'.reach = d.reach
  keyring : d'.vault.keyring = d.vault.keyring

theorem Grown.refl : Grown d d := ⟨rfl, fun _ h => h, fun h => h, rfl, rfl⟩

theorem Grown.trans {d₁ d₂ d₃ : Device} (h : Grown d₁ d₂) (h' : Grown d₂ d₃) : Grown d₁ d₃ :=
  ⟨h'.self.trans h.self, fun f hf => h'.log f (h.log f hf), fun hp => h'.parses (h.parses hp), h'.reach.trans h.reach,
    h'.keyring.trans h.keyring⟩

theorem Grown.has {e : EntryRow} (h : Grown d d') (he : d.has e) : d'.has e := by
  obtain ⟨i, hi, f, hf, hfi⟩ := he
  exact ⟨i, hi, f, h.log f hf, hfi⟩

theorem Grown.sound (h : Grown d d') (hs : Sound id d w) : Sound id d' w := by
  have hholds : d'.holds = d.holds := by
    unfold Device.holds
    rw [h.keyring]
  unfold Sound
  rw [hholds]
  refine ⟨h.self.trans hs.self, fun e he hv hle hshare => ?_, fun share hne hh => ?_, h.reach ▸ hs.reach, hs.clean, hs.seqs,
    h.parses hs.parses⟩
  · exact h.has (hs.entries e he hv (h.reach ▸ hle) hshare)
  · rw [hholds] at hh
    exact hs.members share hne hh

/-- The id is in the log. -/
def Listed (d : Device) (i : Uuid) : Prop := ∃ f ∈ d.disk.log, f.1 = i

theorem Grown.listed {i : Uuid} (h : Grown d d') (hi : Listed d i) : Listed d' i := by
  obtain ⟨f, hf, rfl⟩ := hi
  exact ⟨f, h.log f hf, rfl⟩

theorem applyEntry_keeps {i : Uuid} {blob : Bytes} {Q : Device → Unit → Seen → Prop} (hp : Parses blob)
    (hQ : ∀ d', Grown d d' → Listed d' i → Q d' () w) : Keeps id Q (onVault (·.applyRemoteEntry i blob)) d w := by
  obtain ⟨o, ho⟩ := openEntry_of_parses d.vault.keyring i hp
  have hgrown : Grown d ⟨{ d.disk with
      metadata := Vault.raised (d.vault.absorbed d.disk) o, log := d.disk.log ++ [(i, blob)] }, { d.vault with
      metadata := Vault.raised (d.vault.absorbed d.disk) o, state := Vault.mergeOpened d.vault.state o }⟩ := by
    refine ⟨rfl, fun f hf => List.mem_append_left _ hf, fun hall f hf => ?_, max_self _, rfl⟩
    rcases List.mem_append.mp hf with hf | hf
    · exact hall f hf
    · rw [List.mem_singleton.mp hf]
      exact hp
  refine onVault_meets (Vault.run_applyRemoteEntry ho) (fun _ _ => hQ _ hgrown ?_) fun e he => ?_
  · exact ⟨(i, blob), List.mem_append_right _ (List.mem_singleton_self _), rfl⟩
  · cases he

theorem decode16_b64 {bytes : Bytes} {i : Uuid} (h : (Text.b64 bytes : Wire).decode16 = some i) : bytes = .uuid i := by
  cases bytes with
  | uuid u => exact congrArg Bytes.uuid (Option.some.inj h)
  | _ => cases h

theorem orBad_eq_ok {α : Type} {o : Option α} {what : String} {a : α} (h : orBad o what = .ok a) : o = some a := by
  cases o with
  | some b => exact congrArg some (Except.ok.inj h)
  | none => cases h

theorem applyEntries_keeps {held : List Uuid} {l : List WireEntry} {Q : Device → Nat → Seen → Prop} (hs : Sound id d w)
    (hparses : ∀ e ∈ l, ∀ blob, e.blob.decode = some blob → Parses blob) (hheld : ∀ i ∈ held, Listed d i)
    (hQ : ∀ d' n, Grown d d' → (∀ e ∈ l, ∃ i, e.entryId.decode16 = some i ∧ Listed d' i) → Q d' n w) :
    Keeps id Q (applyEntries held l) d w := by
  induction l generalizing d Q with
  | nil => exact Meets.pure (hQ d 0 .refl (List.forall_mem_nil _))
  | cons e rest ih =>
    obtain ⟨hp, hrest⟩ := List.forall_mem_cons.mp hparses
    refine Meets.bind (Meets.lift (fun i hi => ?_) fun _ _ => hs)
    have hid := orBad_eq_ok hi
    split
    · rename_i hin
      exact ih hs hrest hheld fun d' n hg hall =>
        hQ d' n hg (List.forall_mem_cons.mpr ⟨⟨i, hid, hg.listed (hheld i hin)⟩, hall⟩)
    · refine Meets.bind (Meets.lift (fun blob hblob => ?_) fun _ _ => hs)
      refine Meets.bind (applyEntry_keeps (hp blob (orBad_eq_ok hblob)) fun d₁ h₁ hlisted => Meets.bind ?_)
      refine ih (h₁.sound hs) hrest (fun i hi => h₁.listed (hheld i hi)) fun d' n hg hall => Meets.pure ?_
      exact hQ d' (n + 1) (h₁.trans hg) (List.forall_mem_cons.mpr ⟨⟨i, hid, hg.listed hlisted⟩, hall⟩)

/-- The cursor may go to the head of a pull whose rows are all in the log. -/
theorem Sound.advance {head : Nat} {d₁ : Device} (hs : Sound id d w) (hg : Grown d d₁)
    (hhead : head = max (w.1.head (vaultOf id)) d.vault.metadata.syncCursor)
    (hall : ∀ r ∈ ((Db.selectEntries (vaultOf id) (pubOf id) d.vault.metadata.syncCursor).run w.1).1, d₁.has r) :
    Sound id (d₁.update (·.setSyncCursor head)) w := by
  have hs₁ := hg.sound hs
  have hreach : (d₁.update (·.setSyncCursor head)).reach = max d₁.reach head := max_self _
  refine ⟨hs₁.self, fun e he hv hle hshare => ?_, hs₁.members, ?_, hs.clean, hs.seqs, hs₁.parses⟩
  · by_cases hold : e.seq ≤ d₁.reach
    · exact hs₁.entries e he hv hold hshare
    · have hwanted : e.shareId = nil ∨ w.1.isMember (vaultOf id) e.shareId (pubOf id) = true := by
        by_cases hnil : e.shareId = nil
        · exact Or.inl hnil
        · obtain ⟨hholds, hgone⟩ := hshare.resolve_left hnil
          exact Or.inr ((hs₁.members e.shareId hnil hholds).resolve_left hgone)
      have hpast : d.vault.metadata.syncCursor < e.seq := by
        refine (le_max_left _ _).trans_lt (lt_of_not_ge (a := d.reach) ?_)
        rwa [hg.reach] at hold
      let q : PullQuery := ⟨vaultOf id, .b64 (pubOf id), .b64 ⟨id.ed25519Secret, .request 0 (.pull 0)⟩,
        d.vault.metadata.syncCursor, 0⟩
      have hvisible : w.1.visible q.vault (.ed id.ed25519Secret) q.since e = true := wanted_visible ⟨he, hv, hpast, hwanted⟩
      exact hall e ((List.mem_insertionSort _).mpr (List.mem_filter.mpr ⟨he, hvisible⟩))
  · rw [hreach, hhead]
    exact max_lt hs₁.reach (max_lt (head_lt_nextSeq _) ((le_max_left _ _).trans_lt hs.reach))

theorem sound_rewound (hc : Covered id counts d w) : Sound id (d.update (·.resetSyncCursor)) w := by
  have hreach : (d.update (·.resetSyncCursor)).reach = 0 := rfl
  refine ⟨hc.self, fun e he _ hle _ => ?_, hc.members, ?_, hc.clean, hc.seqs, hc.parses⟩
  · rw [hreach] at hle
    exact absurd (hc.seqs e he) (Nat.not_lt.mpr hle)
  · rw [hreach]
    exact Nat.succ_pos _

theorem exchange_keeps {gained : Bool} {entries : List (Uuid × Bytes × Uuid)} (hc : Covered id counts d w)
    (heven : gained = false → Even counts d) (hentries : (entries.map fun e => (e.1, e.2.1)) = d.disk.log) :
    Keeps id (fun d' _ w' => Sound id d' w') (do
      let pushed ← pushEntries gained entries
      if gained then updateVault (·.resetSyncCursor)
      let resp ← pullEntries
      let pulled ← applyEntries (entries.map (·.1)) resp.entries
      updateVault (·.setSyncCursor resp.head)
      return (pushed.stored, pulled)) d w := by
  refine Meets.bind (pushEntries_keeps hc heven fun w₁ pushed hc₁ => ?_)
  have hpull : ∀ d₁ : Device, Sound id d₁ w₁ → d₁.disk.log = d.disk.log → Keeps id (fun d' _ w' => Sound id d' w') (do
        let resp ← pullEntries
        let pulled ← applyEntries (entries.map (·.1)) resp.entries
        updateVault (·.setSyncCursor resp.head)
        return (pushed.stored, pulled)) d₁ w₁ := by
    intro d₁ hs₁ hlog
    have hheld : ∀ i ∈ entries.map (·.1), Listed d₁ i := by
      intro i hi
      obtain ⟨e, he, rfl⟩ := List.mem_map.mp hi
      exact ⟨(e.1, e.2.1), hlog ▸ hentries ▸ List.mem_map_of_mem he, rfl⟩
    refine Meets.bind (Meets.bind (Meets.ask fun a w₂ hserved => ?_))
    obtain ⟨hs₂, hfair, hrest⟩ := Covered.serves hs₁ plain_pull hserved
    refine Meets.bind (Meets.lift (fun reply hreply => Meets.lift (fun resp hresp => ?_) fun _ _ => hs₂) fun _ _ => hs₂)
    obtain rfl := parse_ok hreply
    cases reply <;> cases hresp
    rcases hrest with hnone | ⟨now, ts, db, hsome, hdb⟩
    · cases hnone
    obtain ⟨hsame, rfl⟩ := pull_reply (Option.some.inj hsome).symm
    obtain rfl : w₂.1 = db := hdb.trans hsame
    refine Meets.bind (applyEntries_keeps hs₂ (hfair.entries _ rfl) hheld fun d₂ n hg hall => Meets.bind (Meets.pure ?_))
    obtain rfl := hs₁.self
    refine Sound.advance hs₂ hg rfl fun r hr => ?_
    obtain ⟨i, hi, hlisted⟩ := hall _ (List.mem_map_of_mem hr)
    exact ⟨i, decode16_b64 hi, hlisted⟩
  -- With a share gained, the pull begins at the start; without, the cursor was right before the push.
  split
  · exact Meets.bind (updateVault_meets (hpull _ (sound_rewound hc₁) rfl))
  · rename_i hgained
    exact hpull d (hc₁.even (heven (Bool.eq_false_of_not_eq_true hgained))) rfl

theorem syncOnce_keeps (hs : Sound id d w) : Keeps id (fun d' _ w' => Sound id d' w') syncOnce d w := by
  refine Meets.bind (Meets.get ?_)
  by_cases hurl : d.vault.metadata.relayUrl = none
  · rw [if_pos hurl]
    exact Meets.bind (Meets.fail hs)
  rw [if_neg hurl]
  refine Meets.bind (healShares_keeps hs fun counts d₁ w₁ gained hc heven => Meets.bind ?_)
  obtain ⟨entries, hrun, hmap⟩ := run_rawEntriesTagged hc.parses
  refine onVault_meets hrun (fun out hout => ?_) fun e he => ?_
  · obtain rfl := Except.ok.inj hout
    exact exchange_keeps hc heven hmap
  · cases he

/-! ## Runs -/

/-- The device may have written what it can read. -/
structure Worked (d d' : Device) : Prop where
  self : d'.self = d.self
  log : ∃ news, d'.disk.log = d.disk.log ++ news ∧ ∀ f ∈ news, Parses f.2
  reach : d'.reach = d.reach
  keyring : d'.vault.keyring = d.vault.keyring

theorem Worked.grown (h : Worked d d') : Grown d d' := by
  obtain ⟨news, hlog, hnews⟩ := h.log
  refine ⟨h.self, fun f hf => hlog ▸ List.mem_append_left _ hf, fun hall f hf => ?_, h.reach, h.keyring⟩
  rw [hlog] at hf
  exact (List.mem_append.mp hf).elim (hall f) (hnews f)

/-- The device writes and syncs, and others send requests; a round ends well, or breaks off. -/
inductive Rounds (id : Identity) (ok : Seen → Prop) (fair : Call → Answer → Prop) (d₀ : Device) (w₀ : Seen) :
    Device → Seen → Prop
  | start : Rounds id ok fair d₀ w₀ d₀ w₀
  | elsewhere {d : Device} {w w' : Seen} (h : Rounds id ok fair d₀ w₀ d w) (hstep : Elsewhere id ok w w') :
    Rounds id ok fair d₀ w₀ d w'
  | work {d d' : Device} {w : Seen} (h : Rounds id ok fair d₀ w₀ d w) (hstep : Worked d d') :
    Rounds id ok fair d₀ w₀ d' w
  | round {d d' : Device} {w w' : Seen} {out : Except ClientError (Nat × Nat)} (h : Rounds id ok fair d₀ w₀ d w)
    (hstep : (Sync.syncOnce d).Ends (Serves id ok fair) w d' out w') : Rounds id ok fair d₀ w₀ d' w'

/-- A device with no cursor yet, and no named share. -/
structure Fresh (d : Device) : Prop where
  reach : d.reach = 0
  holds : ∀ share ≠ nil, ¬ d.holds share
  parses : ∀ f ∈ d.disk.log, Parses f.2

theorem Fresh.sound (h : Fresh d) : Sound d.self d ({}, ∅) := by
  refine ⟨rfl, List.forall_mem_nil _, fun share hne hs => absurd hs (h.holds share hne), ?_, fun share hin => hin.elim,
    List.forall_mem_nil _, h.parses⟩
  rw [h.reach]
  exact Nat.succ_pos _

theorem Rounds.sound {d₀ : Device} {w₀ : Seen} (h : Rounds id (Clean id) (Fair id) d₀ w₀ d w) (h₀ : Sound id d₀ w₀) :
    Sound id d w := by
  induction h with
  | start => exact h₀
  | elsewhere _ hstep ih => exact Covered.elsewhere ih (.single hstep)
  | work _ hstep ih => exact hstep.grown.sound ih
  | round _ hstep ih => exact (syncOnce_keeps ih).ends hstep

/-- **The cursor.** A device starts with no cursor, and the relay with nothing. Whatever others send, and wherever rounds
break off: as long as the device is dealt with fairly, and comes back to no share that it was removed from, its log has
every entry up to its cursor in the default share and in the shares that it both holds and is a member of. -/
theorem cursor_sound {d₀ d : Device} {w : Seen} (hfresh : Fresh d₀)
    (hrun : Rounds d₀.self (Clean d₀.self) (Fair d₀.self) d₀ ({}, ∅) d w) :
    ∀ e ∈ w.1.entries, e.vaultId = d.vaultId → e.seq ≤ d.vault.metadata.syncCursor →
      e.shareId = nil ∨ d.holds e.shareId ∧ w.1.isMember d.vaultId e.shareId (.ed d.key) = true → d.has e := by
  have hsound := hrun.sound hfresh.sound
  intro e he hv hle hshare
  have hself : d.self = d₀.self := hsound.self
  refine hsound.entries e he (hself ▸ hv) (hle.trans (le_max_left _ _)) (hshare.imp_right fun hc => ⟨hc.1, fun hgone => ?_⟩)
  refine hsound.clean e.shareId hgone ?_
  rw [← hself]
  exact hc.2

/-! ## Two devices, again -/

namespace Skipped

open Planted (sent enrollment approval device note)

/-- Others send these, one after another. -/
def after (w : Seen) (reqs : List Request) : Seen :=
  reqs.foldl (fun w req => w.step device.self (exec (route 0 req) w.1).2) w

def answer (call : Call) (w : Seen) : Answer × Seen :=
  let (r, db) := exec (route 0 (call.what.request 0)) w.1
  (some r, (db, w.2))

/-- No post gets through. -/
def cutOff (call : Call) (w : Seen) : Answer × Seen :=
  match call.what with
  | .post .. => (none, w)
  | _ => answer call w

def both : List Request := [sent 0 (enrollment 0), sent 1 (enrollment 1), sent 0 approval]

/-- A share between the devices `ns`. -/
def grant (ns : List Nat) : Request :=
  sent 1 (.shareGrant (.b64 (.uuid 9)) 0 (ns.map fun n =>
    ⟨.b64 (.ed (.device n)), .b64 (Crypto.wrapVaultKey ⟨[.random 9 0 0], 0⟩ (.x n) (.ed (.device n)))⟩))

def entry (share : Uuid) : Request := sent 1 (.push ⟨[Sync.wireEntry (30, note 30, share)]⟩)

theorem fresh : Fresh device where
  reach := by decide
  holds := by
    intro share hne hs
    have hfound := List.find?_isSome.mp hs
    obtain ⟨s, hin, hid⟩ := hfound
    have hshares : device.vault.keyring.shares = [⟨nil, [.vault 0 0]⟩] := by decide +kernel
    rw [hshares] at hin
    rw [List.mem_singleton.mp hin] at hid
    exact hne (of_decide_eq_true hid).symm
  parses := List.forall_mem_nil _

theorem rounds_after {ok : Seen → Prop} {fair : Call → Answer → Prop} {d₀ d : Device} {w₀ w : Seen} (reqs : List Request)
    (hok : ∀ n, ok (after w (reqs.take (n + 1)))) (h : Rounds device.self ok fair d₀ w₀ d w) :
    Rounds device.self ok fair d₀ w₀ d (after w reqs) := by
  induction reqs generalizing w with
  | nil => exact h
  | cons req reqs ih => exact ih (fun n => hok (n + 1)) (h.elsewhere ⟨0, req, rfl, hok 0⟩)

theorem serves_answer {ok : Seen → Prop} {fair : Call → Answer → Prop} {call : Call} {w : Seen} (h : fair call (answer call w).1) :
    Serves device.self ok fair call w (answer call w).1 (answer call w).2 :=
  ⟨w, .refl, h, 0, 0, Or.inl ⟨rfl, rfl⟩⟩

theorem serves_cutOff {call : Call} {w : Seen} :
    Serves device.self (fun _ => True) (fun _ _ => True) call w (cutOff call w).1 (cutOff call w).2 := by
  unfold cutOff
  split
  · exact ⟨w, .refl, trivial, 0, 0, Or.inr ⟨rfl, Or.inl rfl⟩⟩
  · exact serves_answer trivial

/-- The relay when device 1 has pushed an entry of a share that device 0 is not in. -/
def w₁ : Seen := after ({}, ∅) (both ++ [grant [1], entry 9])

def first : Device × Except ClientError (Nat × Nat) × Seen := (Sync.syncOnce device).against answer w₁

/-- Device 0 is let in, and its push does not get through. -/
def second : Device × Except ClientError (Nat × Nat) × Seen :=
  (Sync.syncOnce first.1).against cutOff (after first.2.2 [grant [0]])

def third : Device × Except ClientError (Nat × Nat) × Seen := (Sync.syncOnce second.1).against answer second.2.2

/-- The device lacks an entry that it should have. -/
def lacks (d : Device) (db : Db) : Bool :=
  db.entries.any fun e => e.vaultId = d.vaultId && e.seq ≤ d.vault.metadata.syncCursor && d.vault.keyring.hasShare e.shareId &&
    db.isMember d.vaultId e.shareId (.ed d.key) && d.disk.log.all fun f => e.entryId ≠ .uuid f.1

theorem ends_answer {ok : Seen → Prop} {fair : Call → Answer → Prop} {d : Device} {w : Seen}
    (h : ∀ x ∈ (Sync.syncOnce d).trail answer w, fair x.1 (answer x.1 x.2).1) :
    (Sync.syncOnce d).Ends (Serves device.self ok fair) w ((Sync.syncOnce d).against answer w).1
      ((Sync.syncOnce d).against answer w).2.1 ((Sync.syncOnce d).against answer w).2.2 :=
  Session.ends_against fun x hx => serves_answer (h x hx)

/-- What `grant` wraps for device 0. -/
def wrapped : Bytes := Crypto.wrapVaultKey ⟨[.random 9 0 0], 0⟩ (.x 0) (.ed (.device 0))

/-- Whether the answer is fair, when the shares that are listed come from `grant`. -/
def fairly (call : Call) : Answer → Bool
  | some (.ok (.push _)) => true
  | some (.ok (.shares l)) => call.note = .plain && l.all fun m => m.wrappedKey = .b64 wrapped
  | some (.ok (.pull r)) => call.note = .plain && r.entries.all fun e => e.blob.decode = some (note 30)
  | _ => call.note = .plain

theorem fair_of_fairly {call : Call} {a : Answer} (h : fairly call a = true) : Fair device.self call a := by
  refine ⟨fun hnote => ?_, fun l ha m hm => ?_, fun r ha e he blob hblob => ?_⟩
  · unfold fairly at h
    rw [hnote] at h
    split at h
    · exact ⟨_, rfl⟩
    all_goals simp at h
  · subst ha
    have hwrap := of_decide_eq_true (List.all_eq_true.mp (Bool.and_eq_true_iff.mp h).2 m hm)
    exact ⟨wrapped, hwrap, ⟨[.random 9 0 0], 0⟩, [.random 9 0 0], rfl, rfl⟩
  · subst ha
    have hnote := of_decide_eq_true (List.all_eq_true.mp (Bool.and_eq_true_iff.mp h).2 e he)
    obtain rfl := Option.some.inj (hnote.symm.trans hblob)
    exact Planted.ready.parses 30

/-- Device 0 is in no share. -/
def apart (db : Db) : Bool := db.shareMembers.all fun m => m.ed25519Pub ≠ pubOf device.self

theorem step_removed {w : Seen} (hapart : apart w.1 = true) (hw : w.2 = ∅) (db : Db) : (w.step device.self db).2 = ∅ := by
  change w.2 ∪ _ = ∅
  rw [hw, Set.empty_union]
  refine Set.eq_empty_of_forall_notMem fun share hin => ?_
  obtain ⟨m, hm, hkey⟩ := List.any_eq_true.mp hin.1
  have hother := of_decide_eq_true (List.all_eq_true.mp hapart m hm)
  exact hother (Prod.mk.inj (Prod.mk.inj (of_decide_eq_true hkey)).2).2

theorem after_removed {w : Seen} (reqs : List Request) (hw : w.2 = ∅)
    (hapart : ∀ n < reqs.length, apart (after w (reqs.take n)).1 = true) (n : Nat) : (after w (reqs.take n)).2 = ∅ := by
  induction reqs generalizing w n with
  | nil => rwa [List.take_nil]
  | cons req reqs ih =>
    cases n with
    | zero => exact hw
    | succ n =>
      refine ih (step_removed (hapart 0 (Nat.succ_pos _)) hw _) (fun m hm => ?_) n
      exact hapart (m + 1) (Nat.succ_lt_succ hm)

theorem clean_of_removed {w : Seen} (hw : w.2 = ∅) : Clean device.self w := by
  intro share hin
  rw [hw] at hin
  exact hin.elim

theorem before_removed (n : Nat) : (after ({}, ∅) ((both ++ [grant [1], entry 9]).take n)).2 = ∅ := by
  refine after_removed _ rfl ?_ n
  decide +kernel

theorem first_removed : first.2.2.2 = ∅ := by
  have hsame : ∀ (c : Session Device Call Answer (Except ClientError (Nat × Nat))) (w : Seen),
      (c.against answer w).2.2.2 = w.2 := by
    intro c w
    induction c generalizing w with
    | done => rfl
    | ask d call k ih => exact ih _ _
  exact (hsame _ _).trans (before_removed 5)

/-- Device 0 is let in, and syncs. -/
def gained : Device × Except ClientError (Nat × Nat) × Seen :=
  (Sync.syncOnce first.1).against answer (after first.2.2 [grant [0]])

theorem run_gained : Rounds device.self (Clean device.self) (Fair device.self) device ({}, ∅) gained.1 gained.2.2 := by
  have hfirst : ((Sync.syncOnce device).trail answer w₁).all (fun x => fairly x.1 (answer x.1 x.2).1) = true := by
    decide +kernel
  have hgained : ((Sync.syncOnce first.1).trail answer (after first.2.2 [grant [0]])).all
      (fun x => fairly x.1 (answer x.1 x.2).1) = true := by decide +kernel
  have hgrant : ∀ n, (after first.2.2 ([grant [0]].take n)).2 = ∅ := by
    refine after_removed _ first_removed fun n hn => ?_
    obtain rfl : n = 0 := Nat.lt_one_iff.mp hn
    decide +kernel
  have hbefore : Rounds device.self (Clean device.self) (Fair device.self) device ({}, ∅) device w₁ :=
    rounds_after _ (fun n => clean_of_removed (before_removed (n + 1))) .start
  have hround := hbefore.round (ends_answer fun x hx => fair_of_fairly (List.all_eq_true.mp hfirst x hx))
  have hgranted := rounds_after [grant [0]] (fun n => clean_of_removed (hgrant (n + 1))) hround
  exact hgranted.round (ends_answer fun x hx => fair_of_fairly (List.all_eq_true.mp hgained x hx))

end Skipped

open Skipped

theorem cursor_sound_round : Rounds Planted.device.self (Clean Planted.device.self) (Fair Planted.device.self)
    Planted.device ({}, ∅) gained.1 gained.2.2 ∧ gained.1.holds 9 ∧ gained.1.vault.metadata.syncCursor = 1 ∧
      ∀ e ∈ gained.2.2.1.entries, e.vaultId = gained.1.vaultId → e.seq ≤ gained.1.vault.metadata.syncCursor →
        e.shareId = nil ∨ gained.1.holds e.shareId ∧
          gained.2.2.1.isMember gained.1.vaultId e.shareId (.ed gained.1.key) = true → gained.1.has e := by
  have hholds : gained.1.vault.keyring.hasShare 9 = true := by decide +kernel
  exact ⟨run_gained, hholds, by decide +kernel, cursor_sound fresh run_gained⟩

/-- A round that breaks off after it has taken in a share is not made up for. -/
theorem cursor_skips : ¬ ∀ (d₀ d d' : Device) (w w' : Seen) (out : Nat × Nat), Fresh d₀ →
    Rounds d₀.self (fun _ => True) (fun _ _ => True) d₀ ({}, ∅) d w →
    (Sync.syncOnce d).Ends (Serves d₀.self (fun _ => True) fun _ _ => True) w d' (.ok out) w' →
      ∀ e ∈ w'.1.entries, e.vaultId = d'.vaultId → e.seq ≤ d'.vault.metadata.syncCursor →
        e.shareId = nil ∨ d'.holds e.shareId ∧ w'.1.isMember d'.vaultId e.shareId (.ed d'.key) = true → d'.has e := by
  intro hall
  have hok : third.2.1.isOk = true := by decide +kernel
  obtain ⟨out, hout⟩ : ∃ out, third.2.1 = .ok out := by
    cases hres : third.2.1 with
    | ok out => exact ⟨out, rfl⟩
    | error e =>
      rw [hres] at hok
      cases hok
  have hfirst : Rounds Planted.device.self (fun _ => True) (fun _ _ => True) Planted.device ({}, ∅) first.1 first.2.2 :=
    (rounds_after (both ++ [grant [1], entry 9]) (fun _ => trivial) .start).round (ends_answer fun _ _ => trivial)
  have hsecond : Rounds Planted.device.self (fun _ => True) (fun _ _ => True) Planted.device ({}, ∅) second.1 second.2.2 :=
    (rounds_after [grant [0]] (fun _ => trivial) hfirst).round (Session.ends_against fun x _ => serves_cutOff)
  have hlast : (Sync.syncOnce second.1).Ends (Serves Planted.device.self (fun _ => True) fun _ _ => True) second.2.2
      third.1 (.ok out) third.2.2 := hout ▸ ends_answer fun _ _ => trivial
  have hlacks : lacks third.1 third.2.2.1 = true := by decide +kernel
  obtain ⟨e, he, hlacks⟩ := List.any_eq_true.mp hlacks
  simp only [Bool.and_eq_true, decide_eq_true_eq] at hlacks
  obtain ⟨⟨⟨⟨hv, hle⟩, hholds⟩, hmember⟩, hnone⟩ := hlacks
  obtain ⟨i, hi, f, hf, rfl⟩ := hall Planted.device second.1 third.1 second.2.2 third.2.2 out fresh hsecond hlast e he hv hle
    (Or.inr ⟨hholds, hmember⟩)
  exact of_decide_eq_true (List.all_eq_true.mp hnone f hf) hi

end Cursor

end SshVault
