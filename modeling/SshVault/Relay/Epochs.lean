import SshVault.Relay.Revocation

/-!
# Epochs and the key-lists beside them

A stored wrap is current when the list in it reaches the epoch that the relay reports with it. What a
request has to carry for every stored wrap to stay current.
-/

open Lib Prog

namespace SshVault

namespace Db

/-- The epoch that `wrapped` reports. -/
def epochOf (db : Db) (vault : Wire) : Nat := (db.epoch vault).getD 0

/-- The epoch that `shares` reports. -/
def shareEpochOf (db : Db) (vault : Wire) (share : Uuid) : Nat := (db.shareEpoch vault share).getD 0

end Db

/-- Whoever can unwrap these bytes gets this many keys. -/
def Bytes.Holds (n : Nat) : Bytes → Prop
  | .wrapped w => n ≤ w.payload.keys.length
  | _ => True

theorem Bytes.Holds.unwrap {n : Nat} {b : Bytes} {x : XKey} {deviceId : Bytes32} {list : KeyBytes} (h : b.Holds n)
    (hb : Crypto.unwrapVaultKey x b deviceId = .ok list) : n ≤ list.keys.length := by
  obtain rfl := Crypto.unwrapVaultKey_eq_ok.mp hb
  exact h

namespace Relay

/-! ## Current wraps -/

/-- The key of a revoked device. -/
def Shut (db : Db) (vault : Wire) (pub : Bytes) : Prop := ∃ ed, pub = .ed ed ∧ Revoked db vault ed

instance (db : Db) (vault : Wire) : (pub : Bytes) → Decidable (Shut db vault pub)
  | .ed ed => decidable_of_iff (Revoked db vault ed)
    ⟨fun h => ⟨ed, rfl, h⟩, fun ⟨_, heq, h⟩ => Bytes.ed.inj heq ▸ h⟩
  | .x _ | .raw _ | .uuid _ | .sealed _ | .wrapped _ | .other _ => .isFalse fun ⟨_, heq, _⟩ => nomatch heq

structure Current (db : Db) : Prop where
  vaults : (db.vaults.map VaultRow.vaultId).Nodup
  shares : (db.shares.map ShareRow.key).Nodup
  devices : ∀ r ∈ db.devices, r.canSync = true → ∀ b, r.wrappedKey = some b → b.Holds (db.epochOf r.vaultId + 1)
  members : ∀ m ∈ db.shareMembers, ¬ Shut db m.vaultId m.ed25519Pub →
    m.wrappedKey.Holds (db.shareEpochOf m.vaultId m.shareId + 1)

/-! ## What a request carries -/

/-- Every wrap is for some device, and holds this many keys. -/
def Carries (n : Nat) (wrapped : List WrappedFor) : Prop :=
  ∀ w ∈ wrapped, ∃ pub b, w.devicePub.decode = some pub ∧ w.wrappedKey.decode = some b ∧ b.Holds n

def Addresses (wrapped : List WrappedFor) (pub : Bytes) : Prop := ∃ w ∈ wrapped, w.devicePub.decode = some pub

instance (wrapped : List WrappedFor) (pub : Bytes) : Decidable (Addresses wrapped pub) :=
  inferInstanceAs (Decidable (∃ w ∈ wrapped, _))

/-- A request that leaves no stored wrap behind the epoch beside it. -/
def Fresh (db : Db) (vault : Wire) : ClientReq → Prop
  | .approve r => ∀ b, r.wrappedKey.decode = some b → b.Holds (db.epochOf vault + 1)
  | .rotate epoch wrapped => Carries (epoch.val + 1) wrapped ∧
    ((∃ v ∈ db.vaults, v.vaultId = vault ∧ v.epoch + 1 = epoch.val) →
      ∀ r ∈ db.devices, r.vaultId = vault → r.canSync = true → r.wrappedKey ≠ none → Addresses wrapped r.ed25519Pub)
  | .shareGrant shareId epoch wrapped => ∀ share ∈ shareId.decode16,
    Carries (max (db.shareEpochOf vault share) epoch.val + 1) wrapped ∧
    (db.shareEpochOf vault share < epoch.val →
      ∀ m ∈ db.shareMembers, m.vaultId = vault → m.shareId = share → ¬ Shut db vault m.ed25519Pub →
        Addresses wrapped m.ed25519Pub)
  | .shareRotate shareId epoch wrapped remove => ∀ share ∈ shareId.decode16,
    Carries (epoch.val + 1) wrapped ∧ (∀ t ∈ remove, ∃ pub, t.decode = some pub) ∧
    (Takes vault share epoch.val db.shares →
      ∀ m ∈ db.shareMembers, m.vaultId = vault → m.shareId = share → ¬ Shut db vault m.ed25519Pub →
        (∃ t ∈ remove, t.decode = some m.ed25519Pub) ∨ Addresses wrapped m.ed25519Pub)
  | _ => True

theorem Carries.decodes {n : Nat} {wrapped : List WrappedFor} (h : Carries n wrapped) :
    ∀ w ∈ wrapped, ∃ c, decodeWrap w = .ok c := by
  intro w hw
  obtain ⟨pub, b, hpub, hb, -⟩ := h w hw
  refine ⟨(pub, b), ?_⟩
  unfold decodeWrap
  rw [hpub, hb]
  rfl

theorem decodeWrap_ok {w : WrappedFor} {c : Bytes × Bytes} (h : decodeWrap w = .ok c) :
    w.devicePub.decode = some c.1 ∧ w.wrappedKey.decode = some c.2 := by
  unfold decodeWrap at h
  cases hpub : w.devicePub.decode with
  | none => rw [hpub] at h; cases h
  | some pub =>
    cases hb : w.wrappedKey.decode with
    | none => rw [hpub, hb] at h; cases h
    | some b =>
      rw [hpub, hb] at h
      obtain rfl := Except.ok.inj h
      exact ⟨rfl, rfl⟩

theorem Carries.holds {n : Nat} {wrapped : List WrappedFor} (h : Carries n wrapped) {w : WrappedFor} (hw : w ∈ wrapped)
    {c : Bytes × Bytes} (hc : decodeWrap w = .ok c) : c.2.Holds n := by
  obtain ⟨pub, b, -, hb, hholds⟩ := h w hw
  obtain rfl := Option.some.inj (hb.symm.trans (decodeWrap_ok hc).2)
  exact hholds

/-! ## Epochs after a request -/

theorem epochOf_enrolled (db : Db) (vault : Wire) (key : EdKey) (x recovery : Bytes) (name v : Wire) :
    (enrolled db vault key x recovery name).epochOf v = db.epochOf v := by
  have hvaults : (enrolled db vault key x recovery name).vaults =
    Table.insertOrIgnore VaultRow.vaultId ⟨vault, recovery, 0⟩ db.vaults := rfl
  unfold Db.epochOf Db.epoch
  rw [hvaults, Table.find_insertOrIgnore]
  split
  · -- A new vault starts at epoch 0, which is what the relay reported for no vault.
    cases db.vaults.find? (·.vaultId = v) <;> rfl
  · rfl

theorem epochOf_bump {db : Db} {vault : Wire} {epoch : Nat} (hdup : (db.vaults.map VaultRow.vaultId).Nodup)
    (hnext : ∃ v ∈ db.vaults, v.vaultId = vault ∧ v.epoch + 1 = epoch) (v : Wire) :
    ((Db.bumpEpoch vault epoch).run db).2.epochOf v = if v = vault then epoch else db.epochOf v := by
  obtain ⟨row, hrow, rfl, hep⟩ := hnext
  have hvaults : ((Db.bumpEpoch row.vaultId epoch).run db).2.vaults =
    Table.update (fun r => r.vaultId = row.vaultId ∧ r.epoch + 1 = epoch) (fun r => { r with epoch }) db.vaults := rfl
  unfold Db.epochOf Db.epoch
  rw [hvaults, Table.find_update (by exact fun _ => rfl)]
  split
  · rename_i hv
    subst hv
    rw [Table.find_of_nodup hdup hrow, Option.map_some, Option.map_some, if_pos (by simp [hep])]
    rfl
  · rename_i hv
    cases hfind : db.vaults.find? (·.vaultId = v) with
    | none => rfl
    | some r =>
      have hr : r.vaultId = v := by simpa using List.find?_some hfind
      rw [Option.map_some, if_neg (by simp [hr, hv])]

theorem shareEpochOf_raise (db : Db) (vault : Wire) (share : Uuid) (epoch : Nat) (v : Wire) (s : Uuid) :
    ((Db.raiseShareEpoch vault share epoch).run db).2.shareEpochOf v s =
      if v = vault ∧ s = share then max (db.shareEpochOf vault share) epoch else db.shareEpochOf v s := by
  have hshares : ((Db.raiseShareEpoch vault share epoch).run db).2.shares =
    Table.upsert ShareRow.key ⟨vault, share, epoch⟩ (fun r => { r with epoch := max r.epoch epoch }) db.shares := rfl
  unfold Db.shareEpochOf Db.shareEpoch
  rw [hshares, Table.find_upsert (by exact fun _ => rfl)]
  by_cases hk : v = vault ∧ s = share
  · obtain ⟨rfl, rfl⟩ := hk
    have hkey : (v, s) = ShareRow.key ⟨v, s, epoch⟩ := rfl
    rw [if_pos hkey, if_pos ⟨rfl, rfl⟩]
    cases db.shares.find? (·.key = (v, s)) with
    | none => exact (Nat.zero_max epoch).symm
    | some r => rfl
  · have hne : (v, s) ≠ ShareRow.key ⟨vault, share, epoch⟩ := fun h => hk (Prod.mk.inj h)
    rw [if_neg hne, if_neg hk]

theorem Advanced.shareEpochOf {db db' : Db} {vault : Wire} {share : Uuid} {epoch : Nat}
    (h : Advanced vault share epoch db.shares db'.shares) (hdup : (db.shares.map ShareRow.key).Nodup) (v : Wire)
    (s : Uuid) :
    db'.shareEpochOf v s = if v = vault ∧ s = share then epoch else db.shareEpochOf v s := by
  unfold Db.shareEpochOf Db.shareEpoch
  rcases h with ⟨⟨row, hrow, hkey, hep⟩, hshares⟩ | ⟨hfresh, hshares⟩
  · rw [hshares, Table.find_update (by exact fun _ => rfl)]
    by_cases hk : v = vault ∧ s = share
    · obtain ⟨rfl, rfl⟩ := hk
      rw [if_pos ⟨rfl, rfl⟩, ← hkey, Table.find_of_nodup hdup hrow, Option.map_some, Option.map_some,
        if_pos (by simp [hep])]
      rfl
    · rw [if_neg hk]
      cases hfind : db.shares.find? (·.key = (v, s)) with
      | none => rfl
      | some r =>
        have hr : r.key = (v, s) := by simpa using List.find?_some hfind
        have hne : (v, s) ≠ (vault, share) := fun h => hk (Prod.mk.inj h)
        rw [Option.map_some, if_neg (by simp [hr, hne])]
  · rw [hshares, Table.find_insertOrIgnore]
    by_cases hk : v = vault ∧ s = share
    · obtain ⟨rfl, rfl⟩ := hk
      have hkey : (v, s) = ShareRow.key ⟨v, s, epoch⟩ := rfl
      rw [if_pos hkey, if_pos ⟨rfl, rfl⟩, Table.find_eq_none_of_new fun ⟨r, hr, hk⟩ => hfresh r hr hk]
      rfl
    · have hne : (v, s) ≠ ShareRow.key ⟨vault, share, epoch⟩ := fun h => hk (Prod.mk.inj h)
      rw [if_neg hne, if_neg hk]

theorem Advanced.nodup {vault : Wire} {share : Uuid} {epoch : Nat} {t t' : List ShareRow}
    (h : Advanced vault share epoch t t') (hdup : (t.map ShareRow.key).Nodup) : (t'.map ShareRow.key).Nodup := by
  rcases h with ⟨-, rfl⟩ | ⟨-, rfl⟩
  · exact Table.nodup_update (fun _ => rfl) hdup
  · exact Table.nodup_insertOrIgnore hdup

/-! ## Member rows after a request -/

theorem rewrapped_eq {m : MemberRow} {vault : Wire} {share : Uuid} {pub : Bytes} (hk : m.key = (vault, share, pub))
    (b : Bytes) : { m with wrappedKey := b } = (⟨vault, share, pub, b⟩ : MemberRow) := by
  obtain ⟨v, s, p, old⟩ := m
  cases hk
  rfl

theorem mem_upsertAll {vault : Wire} {share : Uuid} {ran : List (Bytes × Bytes)} {db : Db} {m : MemberRow}
    (h : m ∈ (runAll (fun w => Db.upsertMember vault share w.1 w.2) ran db).shareMembers) :
    (m ∈ db.shareMembers ∧ ∀ w ∈ ran, m.key ≠ (vault, share, w.1)) ∨ ∃ w ∈ ran, m = ⟨vault, share, w.1, w.2⟩ := by
  induction ran generalizing db with
  | nil => exact Or.inl ⟨h, by simp⟩
  | cons w ran ih =>
    rcases ih h with ⟨hm, hnone⟩ | ⟨w', hw', rfl⟩
    · rcases Table.mem_upsert hm with ⟨hm, hk⟩ | ⟨rfl, -⟩ | ⟨m₀, hm₀, hk, rfl⟩
      · exact Or.inl ⟨hm, List.forall_mem_cons.mpr ⟨hk, hnone⟩⟩
      · exact Or.inr ⟨w, List.mem_cons_self, rfl⟩
      · exact Or.inr ⟨w, List.mem_cons_self, rewrapped_eq hk w.2⟩
    · exact Or.inr ⟨w', List.mem_cons_of_mem _ hw', rfl⟩

theorem mem_rewrapMembers {vault : Wire} {share : Uuid} {ran : List (Bytes × Bytes)} {db : Db} {m : MemberRow}
    (h : m ∈ (runAll (fun w => Db.rewrapMember vault share w.1 w.2) ran db).shareMembers) :
    (m ∈ db.shareMembers ∧ ∀ w ∈ ran, m.key ≠ (vault, share, w.1)) ∨ ∃ w ∈ ran, m = ⟨vault, share, w.1, w.2⟩ := by
  induction ran generalizing db with
  | nil => exact Or.inl ⟨h, by simp⟩
  | cons w ran ih =>
    rcases ih h with ⟨hm, hnone⟩ | ⟨w', hw', rfl⟩
    · rcases Table.mem_update hm with ⟨hm, hk⟩ | ⟨m₀, hm₀, hk, rfl⟩
      · exact Or.inl ⟨hm, List.forall_mem_cons.mpr ⟨by simpa using hk, hnone⟩⟩
      · exact Or.inr ⟨w, List.mem_cons_self, rewrapped_eq (decide_eq_true_eq.mp hk) w.2⟩
    · exact Or.inr ⟨w', List.mem_cons_of_mem _ hw', rfl⟩

theorem mem_deleteAll {vault : Wire} {share : Uuid} {gone : List Bytes} {db : Db} {m : MemberRow}
    (h : m ∈ (runAll (Db.deleteMember vault share) gone db).shareMembers) :
    m ∈ db.shareMembers ∧ ∀ pub ∈ gone, m.key ≠ (vault, share, pub) := by
  induction gone generalizing db with
  | nil => exact ⟨h, by simp⟩
  | cons pub gone ih =>
    obtain ⟨hm, hnone⟩ := ih h
    obtain ⟨hm, hk⟩ := List.mem_filter.mp hm
    exact ⟨hm, List.forall_mem_cons.mpr ⟨by simpa using hk, hnone⟩⟩

/-! ## Every request keeps the wraps current -/

variable {db db' : Db}

theorem epochOf_congr (h : db'.vaults = db.vaults) (v : Wire) : db'.epochOf v = db.epochOf v := by
  unfold Db.epochOf Db.epoch
  rw [h]

theorem shareEpochOf_congr (h : db'.shares = db.shares) (v : Wire) (s : Uuid) :
    db'.shareEpochOf v s = db.shareEpochOf v s := by
  unfold Db.shareEpochOf Db.shareEpoch
  rw [h]

theorem Shut.congr {v : Wire} {pub : Bytes} (hd : db'.devices = db.devices) (h : Shut db v pub) : Shut db' v pub := by
  obtain ⟨ed, rfl, hrow, hall⟩ := h
  exact ⟨ed, rfl, by rwa [hd], by rwa [hd]⟩

namespace Current

theorem devices_of (h : Current db) (hd : db'.devices = db.devices) (hv : db'.vaults = db.vaults) :
    ∀ r ∈ db'.devices, r.canSync = true → ∀ b, r.wrappedKey = some b → b.Holds (db'.epochOf r.vaultId + 1) := by
  intro r hr
  rw [epochOf_congr hv]
  exact h.devices r (hd ▸ hr)

theorem members_of (h : Current db) (hm : db'.shareMembers = db.shareMembers) (hs : db'.shares = db.shares)
    (hshut : ∀ v pub, Shut db v pub → Shut db' v pub) :
    ∀ m ∈ db'.shareMembers, ¬ Shut db' m.vaultId m.ed25519Pub →
      m.wrappedKey.Holds (db'.shareEpochOf m.vaultId m.shareId + 1) := by
  intro m hmem hnot
  rw [shareEpochOf_congr hs]
  exact h.members m (hm ▸ hmem) fun hold => hnot (hshut _ _ hold)

theorem of_eq (h : Current db) (hv : db'.vaults = db.vaults) (hd : db'.devices = db.devices)
    (hs : db'.shares = db.shares) (hm : db'.shareMembers = db.shareMembers) : Current db' :=
  ⟨by rw [hv]; exact h.vaults, by rw [hs]; exact h.shares, h.devices_of hd hv,
    h.members_of hm hs fun _ _ => Shut.congr hd⟩

theorem same (h : Current db) (hs : SameTables db db') : Current db' :=
  h.of_eq hs.vaults hs.devices hs.shares hs.shareMembers

theorem enroll (h : Current db) (vault : Wire) (key : EdKey) (x recovery : Bytes) (name : Wire)
    (hshut : ∀ v pub, Shut db v pub → Shut (enrolled db vault key x recovery name) v pub) :
    Current (enrolled db vault key x recovery name) := by
  refine ⟨Table.nodup_insertOrIgnore h.vaults, h.shares, fun r hr hcan b hb => ?_, h.members_of rfl rfl hshut⟩
  rw [epochOf_enrolled]
  rcases Table.mem_upsert hr with ⟨hr, -⟩ | ⟨rfl, -⟩ | ⟨r₀, hr₀, -, rfl⟩
  · exact h.devices r hr hcan b hb
  · cases hb
  · exact h.devices r₀ hr₀ hcan b hb

theorem approve (h : Current db) {vault : Wire} {target wrapped : Bytes} (hw : wrapped.Holds (db.epochOf vault + 1))
    (hshut : ∀ v pub, Shut db v pub → Shut ((Db.approveDevice vault target wrapped).run db).2 v pub) :
    Current ((Db.approveDevice vault target wrapped).run db).2 := by
  refine ⟨h.vaults, h.shares, fun r hr hcan b hb => ?_, h.members_of rfl rfl hshut⟩
  rcases Table.mem_update hr with ⟨hr, -⟩ | ⟨r₀, hr₀, hp, rfl⟩
  · exact h.devices r hr hcan b hb
  · obtain rfl := Option.some.inj hb
    obtain ⟨hk, -⟩ := decide_eq_true_eq.mp hp
    obtain ⟨rfl, -⟩ := Prod.mk.inj hk
    exact hw

theorem revoke (h : Current db) {vault : Wire} {target : Bytes}
    (hshut : ∀ v pub, Shut db v pub → Shut ((Db.revokeDevice vault target).run db).2 v pub) :
    Current ((Db.revokeDevice vault target).run db).2 := by
  refine ⟨h.vaults, h.shares, fun r hr hcan b hb => ?_, h.members_of rfl rfl hshut⟩
  rcases Table.mem_update hr with ⟨hr, -⟩ | ⟨r₀, hr₀, hp, rfl⟩
  · exact h.devices r hr hcan b hb
  · cases hb

section

variable {vault : Wire} {epoch : Nat} {share : Uuid} {seen : List SeenSig} {wrapped : List WrappedFor}
  {ran : List (Bytes × Bytes)} {n : Nat}

theorem addressed_mem (hall : wrapped.mapM decodeWrap = .ok ran) {pub : Bytes} (h : Addresses wrapped pub) :
    ∃ c ∈ ran, c.1 = pub := by
  obtain ⟨w, hw, hpub⟩ := h
  obtain ⟨c, hc, hdec⟩ := mem_of_mapM_ok hall hw
  exact ⟨c, hc, Option.some.inj ((decodeWrap_ok hdec).1.symm.trans hpub)⟩

theorem ran_holds (hc : Carries n wrapped) (hran : ∀ c ∈ ran, ∃ w ∈ wrapped, decodeWrap w = .ok c) :
    ∀ c ∈ ran, c.2.Holds n := by
  intro c hmem
  obtain ⟨w, hw, hdec⟩ := hran c hmem
  exact hc.holds hw hdec

theorem rotate (h : Current db) (hnext : ∃ v ∈ db.vaults, v.vaultId = vault ∧ v.epoch + 1 = epoch)
    (hholds : ∀ c ∈ ran, c.2.Holds (epoch + 1))
    (haddr : ∀ r ∈ db.devices, r.vaultId = vault → r.canSync = true → r.wrappedKey ≠ none → ∃ c ∈ ran, c.1 = r.ed25519Pub)
    (hdb : db' = runAll (fun w => Db.rewrapDevice vault w.1 w.2) ran
      ((Db.bumpEpoch vault epoch).run { db with seenSigs := seen }).2)
    (hshut : ∀ v pub, Shut db v pub → Shut db' v pub) : Current db' := by
  have hvaults : db'.vaults = ((Db.bumpEpoch vault epoch).run db).2.vaults := by
    rw [hdb, runAll_frame Db.vaults (fun _ _ => rfl)]
    rfl
  have hepoch : ∀ v, db'.epochOf v = if v = vault then epoch else db.epochOf v :=
    fun v => (epochOf_congr hvaults v).trans (epochOf_bump h.vaults hnext v)
  refine ⟨?_, ?_, fun r hr hcan b hb => ?_, h.members_of ?_ ?_ hshut⟩
  · rw [hvaults]
    exact Table.nodup_update (fun _ => rfl) h.vaults
  · rw [hdb, runAll_frame Db.shares (fun _ _ => rfl)]
    exact h.shares
  · rw [hepoch]
    rw [hdb] at hr
    rcases mem_rewrapAll hr with ⟨hr, hnone⟩ | ⟨r₀, hr₀, w, hw, hk, -, rfl⟩
    · -- A row that no wrap was for is of another vault.
      split
      · rename_i hv
        have hrev : r.revoked = false := by
          unfold DeviceRow.canSync at hcan
          simp only [Bool.and_eq_true, Bool.not_eq_true'] at hcan
          exact hcan.2
        obtain ⟨c, hc, hpub⟩ := haddr r hr hv hcan (by simp [hb])
        exact absurd ⟨by rw [DeviceRow.key, hv, hpub], hrev⟩ (hnone c hc)
      · exact h.devices r hr hcan b hb
    · obtain rfl := Option.some.inj hb
      obtain ⟨hv, -⟩ := Prod.mk.inj hk
      rw [if_pos hv]
      exact hholds w hw
  · rw [hdb, runAll_frame Db.shareMembers (fun _ _ => rfl)]
    rfl
  · rw [hdb, runAll_frame Db.shares (fun _ _ => rfl)]
    rfl

theorem shareGrant (h : Current db) (hholds : ∀ c ∈ ran, c.2.Holds (max (db.shareEpochOf vault share) epoch + 1))
    (haddr : db.shareEpochOf vault share < epoch → ∀ m ∈ db.shareMembers, m.vaultId = vault → m.shareId = share →
      ¬ Shut db vault m.ed25519Pub → ∃ c ∈ ran, c.1 = m.ed25519Pub)
    (hdb : db' = runAll (fun w => Db.upsertMember vault share w.1 w.2) ran
      ((Db.raiseShareEpoch vault share epoch).run db).2) : Current db' := by
  have hdevices : db'.devices = db.devices := by
    rw [hdb, runAll_frame Db.devices (fun _ _ => rfl)]
    rfl
  have hshares : db'.shares = ((Db.raiseShareEpoch vault share epoch).run db).2.shares := by
    rw [hdb, runAll_frame Db.shares (fun _ _ => rfl)]
  have hvaults : db'.vaults = db.vaults := by
    rw [hdb, runAll_frame Db.vaults (fun _ _ => rfl)]
    rfl
  have hepoch := fun v s => (shareEpochOf_congr hshares v s).trans (shareEpochOf_raise db vault share epoch v s)
  refine ⟨?_, ?_, h.devices_of hdevices hvaults, fun m hm hnot => ?_⟩
  · rw [hvaults]
    exact h.vaults
  · rw [hshares]
    exact Table.nodup_upsert (fun _ => rfl) h.shares
  · rw [hepoch]
    rw [hdb] at hm
    rcases mem_upsertAll hm with ⟨hm, hnone⟩ | ⟨w, hw, rfl⟩
    · have hold : ¬ Shut db m.vaultId m.ed25519Pub := fun hs => hnot (hs.congr hdevices)
      have hcur := h.members m hm hold
      split
      · rename_i heq
        obtain ⟨hv, hs⟩ := heq
        rw [hv] at hcur hold
        rw [hs] at hcur
        -- The epoch stays, or a wrap was for this member.
        by_cases hlt : db.shareEpochOf vault share < epoch
        · obtain ⟨c, hc, hpub⟩ := haddr hlt m hm hv hs hold
          exact absurd (by rw [MemberRow.key, hv, hs, hpub]) (hnone c hc)
        · rwa [max_eq_left (not_lt.mp hlt)]
      · exact hcur
    · rw [if_pos ⟨rfl, rfl⟩]
      exact hholds w hw

theorem shareRotate (h : Current db) {moved : List ShareRow} {gone : List Bytes}
    (hmoved : Advanced vault share epoch db.shares moved) (hholds : ∀ c ∈ ran, c.2.Holds (epoch + 1))
    (haddr : ∀ m ∈ db.shareMembers, m.vaultId = vault → m.shareId = share → ¬ Shut db vault m.ed25519Pub →
      m.ed25519Pub ∈ gone ∨ ∃ c ∈ ran, c.1 = m.ed25519Pub)
    (hdb : db' = runAll (fun w => Db.rewrapMember vault share w.1 w.2) ran
      (runAll (Db.deleteMember vault share) gone { db with seenSigs := seen, shares := moved })) : Current db' := by
  have hdevices : db'.devices = db.devices := by
    rw [hdb, runAll_frame Db.devices (fun _ _ => rfl), runAll_frame Db.devices (fun _ _ => rfl)]
  have hshares : db'.shares = moved := by
    rw [hdb, runAll_frame Db.shares (fun _ _ => rfl), runAll_frame Db.shares (fun _ _ => rfl)]
  have hvaults : db'.vaults = db.vaults := by
    rw [hdb, runAll_frame Db.vaults (fun _ _ => rfl), runAll_frame Db.vaults (fun _ _ => rfl)]
  subst hshares
  refine ⟨?_, hmoved.nodup h.shares, h.devices_of hdevices hvaults, fun m hm hnot => ?_⟩
  · rw [hvaults]
    exact h.vaults
  · rw [hmoved.shareEpochOf h.shares]
    rw [hdb] at hm
    rcases mem_rewrapMembers hm with ⟨hm, hnone⟩ | ⟨w, hw, rfl⟩
    · obtain ⟨hm, hkept⟩ := mem_deleteAll hm
      have hold : ¬ Shut db m.vaultId m.ed25519Pub := fun hs => hnot (hs.congr hdevices)
      split
      · rename_i heq
        obtain ⟨hv, hs⟩ := heq
        have hkey : m.key = (vault, share, m.ed25519Pub) := by rw [MemberRow.key, hv, hs]
        rcases haddr m hm hv hs (hv ▸ hold) with hgone | ⟨c, hc, hpub⟩
        · exact absurd hkey (hkept _ hgone)
        · exact absurd (hpub ▸ hkey) (hnone c hc)
      · exact h.members m hm hold
    · rw [if_pos ⟨rfl, rfl⟩]
      exact hholds w hw

end

end Current

/-! ## Requests as clients build them -/

section

variable {now : Now} {ts : Int64} {vault : Wire} {key : EdKey}

theorem Acts.eq {v : Wire} {k : EdKey} {body : Body} (h : Acts now db (envelope vault key ts body) v k) :
    v = vault ∧ k = key := by
  obtain ⟨-, rfl, hk, -⟩ := verify_ok h.verified
  exact ⟨rfl, (Option.some.inj hk).symm⟩

theorem reads_eq {α : Type} {ofJson : Json Bytes → Option α} {r r' : α} {j : Json Bytes}
    (h : Reads ofJson (.json j) r) (hj : ofJson j = some r') : r = r' := by
  obtain ⟨j', hbody, hr⟩ := h
  obtain rfl := Body.json.inj hbody
  exact Option.some.inj (hr.symm.trans hj)

theorem Shut.step {v : Wire} {pub : Bytes} (e : Endpoint) (signed : Signed) (h : Shut db v pub) :
    Shut (exec (route now (.post e signed)) db).2 v pub := by
  obtain ⟨ed, rfl, hrev⟩ := h
  refine ⟨ed, rfl, hrev.step now db _ ?_⟩
  rintro ⟨r, recovery, hreq, -⟩
  cases hreq

theorem Current.post (r : ClientReq) (h : Current db) (hfresh : db.canSync vault key = true → Fresh db vault r) :
    Current (exec (route now (.post r.endpoint (envelope vault key ts (.json r.toJson)))) db).2 := by
  have heff := route_effect now (.post r.endpoint (envelope vault key ts (.json r.toJson))) db
  have hshut := fun v pub => @Shut.step db now v pub r.endpoint (envelope vault key ts (.json r.toJson))
  generalize hdb : (exec (route now (.post r.endpoint (envelope vault key ts (.json r.toJson)))) db).2 = db' at *
  clear hdb
  cases r with
  | enroll r =>
    cases heff with
    | same hs => exact h.same hs
    | enroll => exact h.enroll _ _ _ _ _ hshut
  | approve r =>
    cases heff with
    | same hs => exact h.same hs
    | approve ha hr ht hw =>
      obtain ⟨rfl, rfl⟩ := ha.eq
      obtain rfl := reads_eq hr (show ApproveReq.ofJson r.toJson = some r from rfl)
      exact h.approve (hfresh ha.canSync _ hw) hshut
  | revoke r =>
    cases heff with
    | same hs => exact h.same hs
    | revoke => exact h.revoke hshut
  | rotate epoch wrapped =>
    cases heff with
    | same hs => exact h.same hs
    | rotate ha hr hnext hran hall =>
      obtain ⟨rfl, rfl⟩ := ha.eq
      have hdec : RotateReq.ofJson (ClientReq.rotate epoch wrapped).toJson = some ⟨epoch, wrapped⟩ := rotate_decode rfl rfl
      obtain rfl := reads_eq hr hdec
      obtain ⟨hcarries, haddr⟩ := hfresh ha.canSync
      refine h.rotate hnext (Current.ran_holds hcarries hran) (fun r hr hv hcan hne => ?_) rfl hshut
      exact Current.addressed_mem (hall hcarries.decodes) (haddr hnext r hr hv hcan hne)
  | shareGrant shareId epoch wrapped =>
    cases heff with
    | same hs => exact h.same hs
    | shareGrant ha hr hs hran hall =>
      obtain ⟨rfl, rfl⟩ := ha.eq
      have hdec : ShareGrantReq.ofJson (ClientReq.shareGrant shareId epoch wrapped).toJson =
        some ⟨shareId, epoch, wrapped⟩ := shareGrant_decode rfl rfl rfl
      obtain rfl := reads_eq hr hdec
      obtain ⟨hcarries, haddr⟩ := hfresh ha.canSync _ hs
      refine h.shareGrant (Current.ran_holds hcarries hran) (fun hlt m hm hv hs' hnot => ?_) rfl
      exact Current.addressed_mem (hall hcarries.decodes) (haddr hlt m hm hv hs' hnot)
  | shareRotate shareId epoch wrapped remove =>
    cases heff with
    | same hs => exact h.same hs
    | shareRotate ha hr hs hmoved hgone hran hall =>
      obtain ⟨rfl, rfl⟩ := ha.eq
      obtain rfl := reads_eq hr (shareRotate_decode shareId epoch wrapped remove)
      obtain ⟨hcarries, hdec, haddr⟩ := hfresh ha.canSync _ hs
      -- All targets decode, so no removal is cut short.
      have hremoves : ∀ t ∈ remove, ∃ c, decodeRemoved t = .ok c := by
        intro t ht
        obtain ⟨pub, hpub⟩ := hdec t ht
        refine ⟨pub, ?_⟩
        unfold decodeRemoved
        rw [hpub]
        rfl
      obtain ⟨hallGone, hallRan⟩ := hall hremoves
      refine h.shareRotate hmoved (Current.ran_holds hcarries hran) (fun m hm hv hs' hnot => ?_) rfl
      rcases haddr hmoved.takes m hm hv hs' hnot with ⟨t, ht, hpub⟩ | hfor
      · obtain ⟨c, hc, hdec⟩ := mem_of_mapM_ok hallGone ht
        obtain rfl := Option.some.inj ((orReject_ok hdec).symm.trans hpub)
        exact Or.inl hc
      · exact Or.inr (Current.addressed_mem (hallRan hcarries.decodes) hfor)
  | push r =>
    cases heff with
    | same hs => exact h.same hs
    | push =>
      exact h.of_eq (runAll_frame Db.vaults (fun _ _ => rfl) _ _) (runAll_frame Db.devices (fun _ _ => rfl) _ _)
        (runAll_frame Db.shares (fun _ _ => rfl) _ _) (runAll_frame Db.shareMembers (fun _ _ => rfl) _ _)

end

/-- The share that a request is for, and the wraps in it. -/
def ClientReq.grants : ClientReq → Option (Wire × List WrappedFor)
  | .shareGrant shareId _ wrapped | .shareRotate shareId _ wrapped _ => some (shareId, wrapped)
  | _ => none

theorem member_origin {now : Now} {ts : Int64} {vault : Wire} {key : EdKey} (r : ClientReq) {m : MemberRow}
    (hm : m ∈ (exec (route now (.post r.endpoint (envelope vault key ts (.json r.toJson)))) db).2.shareMembers) :
    m ∈ db.shareMembers ∨ ∃ shareId wrapped, r.grants = some (shareId, wrapped) ∧ shareId.decode16 = some m.shareId ∧
      ∃ w ∈ wrapped, w.wrappedKey.decode = some m.wrappedKey := by
  have heff := route_effect now (.post r.endpoint (envelope vault key ts (.json r.toJson))) db
  generalize (exec (route now (.post r.endpoint (envelope vault key ts (.json r.toJson)))) db).2 = db' at *
  cases r with
  | enroll r =>
    cases heff with
    | same hs => exact Or.inl (hs.shareMembers ▸ hm)
    | enroll => exact Or.inl hm
  | approve r =>
    cases heff with
    | same hs => exact Or.inl (hs.shareMembers ▸ hm)
    | approve => exact Or.inl hm
  | revoke r =>
    cases heff with
    | same hs => exact Or.inl (hs.shareMembers ▸ hm)
    | revoke => exact Or.inl hm
  | rotate epoch wrapped =>
    cases heff with
    | same hs => exact Or.inl (hs.shareMembers ▸ hm)
    | rotate =>
      rw [runAll_frame Db.shareMembers (fun _ _ => rfl)] at hm
      exact Or.inl hm
  | shareGrant shareId epoch wrapped =>
    cases heff with
    | same hs => exact Or.inl (hs.shareMembers ▸ hm)
    | shareGrant ha hr hs hran hall =>
      have hdec : ShareGrantReq.ofJson (ClientReq.shareGrant shareId epoch wrapped).toJson =
        some ⟨shareId, epoch, wrapped⟩ := shareGrant_decode rfl rfl rfl
      obtain rfl := reads_eq hr hdec
      rcases mem_upsertAll hm with ⟨hm, -⟩ | ⟨c, hc, rfl⟩
      · exact Or.inl hm
      · obtain ⟨w, hw, hdecode⟩ := hran c hc
        exact Or.inr ⟨shareId, wrapped, rfl, hs, w, hw, (decodeWrap_ok hdecode).2⟩
  | shareRotate shareId epoch wrapped remove =>
    cases heff with
    | same hs => exact Or.inl (hs.shareMembers ▸ hm)
    | shareRotate ha hr hs hmoved hgone hran hall =>
      obtain rfl := reads_eq hr (shareRotate_decode shareId epoch wrapped remove)
      rcases mem_rewrapMembers hm with ⟨hm, -⟩ | ⟨c, hc, rfl⟩
      · exact Or.inl (mem_deleteAll hm).1
      · obtain ⟨w, hw, hdecode⟩ := hran c hc
        exact Or.inr ⟨shareId, wrapped, rfl, hs, w, hw, (decodeWrap_ok hdecode).2⟩
  | push r =>
    cases heff with
    | same hs => exact Or.inl (hs.shareMembers ▸ hm)
    | push =>
      rw [runAll_frame Db.shareMembers (fun _ _ => rfl)] at hm
      exact Or.inl hm

/-! ## Devices that join -/

/-- A device that is let in by a wrap: its vault is there, and it is not approved without a wrap. -/
structure Joins (db : Db) (vault : Wire) (ed : EdKey) : Prop where
  there : ∃ v ∈ db.vaults, v.vaultId = vault
  wrapped : ∀ r ∈ db.devices, r.key = (vault, .ed ed) → r.approved = true → r.wrappedKey ≠ none

theorem Effect.vault_stays {now : Now} {req : Request} (h : Effect now db req db') {vault : Wire}
    (hv : ∃ v ∈ db.vaults, v.vaultId = vault) : ∃ v ∈ db'.vaults, v.vaultId = vault := by
  cases h with
  | same h => rwa [h.vaults]
  | enroll =>
    obtain ⟨v, hv, rfl⟩ := hv
    refine ⟨v, ?_, rfl⟩
    change v ∈ Table.insertOrIgnore _ _ db.vaults
    unfold Table.insertOrIgnore
    split
    · exact hv
    · exact List.mem_append_left _ hv
  | approve => exact hv
  | revoke => exact hv
  | rotate =>
    rw [runAll_frame Db.vaults (fun _ _ => rfl)]
    have hkey (r : VaultRow) : VaultRow.vaultId { r with epoch := _ } = r.vaultId := rfl
    exact Table.key_mem_update hkey hv
  | shareGrant => rwa [runAll_frame Db.vaults (fun _ _ => rfl)]
  | shareRotate => rwa [runAll_frame Db.vaults (fun _ _ => rfl), runAll_frame Db.vaults (fun _ _ => rfl)]
  | push => rwa [runAll_frame Db.vaults (fun _ _ => rfl)]
  | recover => exact hv

theorem Joins.step {now : Now} {vault : Wire} {ed : EdKey} (e : Endpoint) (signed : Signed) (h : Joins db vault ed) :
    Joins (exec (route now (.post e signed)) db).2 vault ed := by
  have heff := route_effect now (.post e signed) db
  refine ⟨heff.vault_stays h.there, fun r hr hk happ => ?_⟩
  generalize hreq : Request.post e signed = req at heff
  cases heff.devices (hreq ▸ hr) with
  | kept hr => exact h.wrapped r hr hk happ
  | enrolled =>
    obtain ⟨rfl, -⟩ := Prod.mk.inj hk
    obtain ⟨v, hv, hvk⟩ := h.there
    simp only [decide_eq_true_eq, List.any_eq_true, not_exists, not_and] at happ
    exact absurd hvk (happ v hv)
  | reenrolled _ _ _ hr₀ =>
    have hold := h.wrapped _ hr₀
    exact hold hk happ
  | approved => simp
  | revoked => cases happ
  | rewrapped => simp
  | recovered => cases hreq

/-! ## What the relay answers -/

section

variable {now : Now} {q : SignedQuery}

theorem wrapped_ok {resp : WrappedResp} (h : (exec (wrapped now q) db).1 = .ok resp) :
    ∃ key row, q.device.decodeEd = some key ∧ row ∈ db.devices ∧ row.key = (q.vault, .ed key) ∧ row.revoked = false ∧
      resp = ⟨row.approved, row.wrappedKey.map .b64, db.epochOf q.vault⟩ := by
  revert h
  unfold wrapped
  refine ends_except (P := fun out => out.1 = .ok resp → _) (fun ⟨vault, key⟩ hv => ?_) (fun e _ h => nomatch h)
  obtain ⟨-, rfl, hkey, -⟩ := verify_ok hv
  refine ends_lift (P := fun out => out.1 = .ok resp → _) ?_
  refine ends_except (P := fun out => out.1 = .ok resp → _) (fun row hrow => ?_) (fun e _ h => nomatch h)
  have hfound : db.devices.find? (·.key = (q.vault, .ed key)) = some row := orReject_ok hrow
  have hmem := List.mem_of_find?_eq_some hfound
  have hk : row.key = (q.vault, .ed key) := by simpa using List.find?_some hfound
  dsimp only
  split
  · intro h
    cases h
  · rename_i hrev
    intro h
    exact ⟨key, row, hkey, hmem, hk, by simpa using hrev, (Except.ok.inj h).symm⟩

theorem shares_ok {l : List ShareMembership} (h : (exec (shares now q) db).1 = .ok l) :
    ∃ key, q.device.decodeEd = some key ∧ db.canSync q.vault key = true ∧
      ∀ m ∈ l, ∃ row ∈ db.shareMembers, row.vaultId = q.vault ∧ row.ed25519Pub = .ed key ∧
        m = ⟨.b64 (.uuid row.shareId), db.shareEpochOf q.vault row.shareId, .b64 row.wrappedKey⟩ := by
  revert h
  unfold shares
  refine ends_authorize (P := fun out => out.1 = .ok l → _) (fun vault key ha => ?_) (fun e h => nomatch h)
  obtain ⟨-, rfl, hkey, -⟩ := verify_ok ha.verified
  refine ends_lift (P := fun out => out.1 = .ok l → _) ?_
  intro h
  refine ⟨key, hkey, ha.canSync, fun m hm => ?_⟩
  obtain rfl := Except.ok.inj h
  obtain ⟨⟨row, epoch⟩, hrow, rfl⟩ := List.mem_map.mp hm
  obtain ⟨row', hrow', heq⟩ := List.mem_map.mp hrow
  obtain ⟨rfl, rfl⟩ := Prod.mk.inj heq
  obtain ⟨hmem, hp⟩ := List.mem_filter.mp hrow'
  obtain ⟨hv, hpub⟩ := decide_eq_true_eq.mp hp
  exact ⟨row', hmem, hv, hpub, rfl⟩

theorem devices_ok {l : List DeviceInfo} (h : (exec (devices now q) db).1 = .ok l) :
    ∀ o ∈ l, ∃ row ∈ db.devices, row.vaultId = q.vault ∧
      o = ⟨row.name, .b64 row.ed25519Pub, .b64 row.x25519Pub, row.approved, row.revoked⟩ := by
  revert h
  unfold devices
  refine ends_authorize (P := fun out => out.1 = .ok l → _) (fun vault key ha => ?_) (fun e h => nomatch h)
  obtain ⟨-, rfl, -, -⟩ := verify_ok ha.verified
  refine ends_lift (P := fun out => out.1 = .ok l → _) ?_
  intro h o ho
  obtain rfl := Except.ok.inj h
  obtain ⟨row, hrow, rfl⟩ := List.mem_map.mp ho
  obtain ⟨hmem, hv⟩ := List.mem_filter.mp hrow
  exact ⟨row, hmem, decide_eq_true_eq.mp hv, rfl⟩

theorem Shut.not_canSync {vault : Wire} {ed : EdKey} (h : Shut db vault (.ed ed)) : db.canSync vault ed = false := by
  obtain ⟨ed', heq, hrev⟩ := h
  obtain rfl := Bytes.ed.inj heq
  obtain ⟨r, hr, htrue⟩ := hrev.device
  unfold Db.canSync
  rw [hr, Option.any_some, DeviceRow.canSync, htrue]
  exact Bool.and_false _

end

end Relay

end SshVault
