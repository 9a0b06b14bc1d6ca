import SshVault.Relay.Bodies

/-!
# What a signed envelope authorises

The signature covers the time and the body, so an envelope can be delivered to any endpoint
and any vault that accept its body. This module says exactly when such a delivery changes
the relay's tables.
-/

open Lib Prog

namespace SshVault.Relay

/-! ## What a request changes -/

/-- A request is rejected, or leaves the tables as they were. -/
def Inert {α : Type} (out : Except HttpError α × Db) (db : Db) : Prop :=
  (∃ e, out.1 = .error e) ∨ SameTables db out.2

def EnrollChanges (db : Db) (vault : Wire) (key : EdKey) (devicePub : Wire) (r : EnrollReq) : Prop :=
  r.ed25519Pub = devicePub ∧ (db.device vault (.ed key)).map (·.revoked) ≠ some true ∧
    r.recoveryPub.decode.isSome ∧ ∃ x, r.x25519Pub.decode = some x ∧
      ¬ ((∃ v ∈ db.vaults, v.vaultId = vault) ∧ (∃ d ∈ db.devices, d.key = (vault, .ed key)) ∧
        ∀ d ∈ db.devices, d.key = (vault, .ed key) → d.name = r.deviceName ∧ d.x25519Pub = x)

def ApproveChanges (db : Db) (vault : Wire) (r : ApproveReq) : Prop :=
  ∃ target wrapped, r.targetPub.decode = some target ∧ r.wrappedKey.decode = some wrapped ∧
    ∃ d ∈ db.devices, d.key = (vault, target) ∧ d.revoked = false ∧
      ¬ (d.approved = true ∧ d.wrappedKey = some wrapped)

def RevokeChanges (db : Db) (vault : Wire) (r : RevokeReq) : Prop :=
  ∃ target, r.targetPub.decode = some target ∧ ∃ d ∈ db.devices, d.key = (vault, target) ∧
    ¬ (d.revoked = true ∧ d.approved = false ∧ d.wrappedKey = none)

def RotateChanges (db : Db) (vault : Wire) (epoch : Nat) (wrapped : List WrappedFor) : Prop :=
  (∃ v ∈ db.vaults, v.vaultId = vault ∧ v.epoch + 1 = epoch) ∧ ∀ w ∈ wrapped, ∃ p, decodeWrap w = .ok p

/-- The last wrap for a device in a list. -/
def lastWrap (wraps : List (Bytes × Bytes)) (pub : Bytes) : Option Bytes :=
  wraps.foldl (fun o w => if w.1 = pub then some w.2 else o) none

/-- Granting would leave a share as it is: its epoch is not lower, and every device that is
granted has its last wrap already. -/
def Granted (db : Db) (vault : Wire) (share : Uuid) (epoch : Nat) (wraps : List (Bytes × Bytes)) : Prop :=
  (∃ s ∈ db.shares, s.key = (vault, share)) ∧ (∀ s ∈ db.shares, s.key = (vault, share) → epoch ≤ s.epoch) ∧
    ∀ pub blob, lastWrap wraps pub = some blob → (∃ m ∈ db.shareMembers, m.key = (vault, share, pub)) ∧
      ∀ m ∈ db.shareMembers, m.key = (vault, share, pub) → m.wrappedKey = blob

def ShareGrantChanges (db : Db) (vault shareId : Wire) (epoch : Nat) (wrapped : List WrappedFor) : Prop :=
  ∃ share wraps, shareId.decode16 = some share ∧ wrapped.mapM decodeWrap = .ok wraps ∧
    ¬ Granted db vault share epoch wraps

def ShareRotateChanges (db : Db) (vault shareId : Wire) (epoch : Nat) (wrapped : List WrappedFor)
    (remove : List Wire) : Prop :=
  ∃ share, shareId.decode16 = some share ∧ (∀ w ∈ wrapped, ∃ p, decodeWrap w = .ok p) ∧
    (∀ t ∈ remove, ∃ p, decodeRemoved t = .ok p) ∧
    ((∃ s ∈ db.shares, s.key = (vault, share) ∧ s.epoch + 1 = epoch) ∨ ∀ s ∈ db.shares, s.key ≠ (vault, share))

def PushChanges (db : Db) (vault : Wire) (r : PushReq) : Prop :=
  (∀ e ∈ r.entries, ∃ p, decodeEntry e = .ok p) ∧
    ∃ e ∈ r.entries, ∃ p, decodeEntry e = .ok p ∧ ∀ row ∈ db.entries, row.key ≠ (vault, p.1)

theorem not_inert_ok {α : Type} {a : α} {db db' : Db} : Inert (Except.ok a, db') db ↔ SameTables db db' := by
  simp [Inert]

theorem inert_error {α : Type} {e : HttpError} {db db' : Db} : Inert ((.error e : Except HttpError α), db') db :=
  Or.inl ⟨e, rfl⟩

/-! ## Endpoint by endpoint -/

theorem update_inert {db db' : Db} {vault : Wire} {n : Nat} {e : HttpError} :
    Inert (exec (if n = 0 then do
        let _ ← (throw e : Handler PUnit)
        let head ← Db.selectHead vault
        return (⟨head, 0⟩ : PushResp)
      else do
        let head ← Db.selectHead vault
        return ⟨head, 0⟩ : Handler PushResp) db') db ↔ n = 0 ∨ SameTables db db' := by
  split
  · exact iff_of_true inert_error (Or.inl ‹_›)
  · exact not_inert_ok.trans (by simp [*])

theorem sameTables_devices {db : Db} {t : List DeviceRow} :
    SameTables db { db with devices := t } ↔ t = db.devices :=
  ⟨fun h => h.devices, fun h => ⟨rfl, h, rfl, rfl, rfl⟩⟩

theorem affected_or_same {db : Db} {p : DeviceRow → Bool} {f : DeviceRow → DeviceRow} :
    (Table.affected p db.devices = 0 ∨ SameTables db { db with devices := Table.update p f db.devices }) ↔
      ∀ d ∈ db.devices, p d = true → f d = d := by
  rw [sameTables_devices, Table.update_eq_self, or_iff_right_of_imp]
  intro h d hd hp
  simp [Table.affected_eq_zero.mp h d hd] at hp

theorem applyApprove_inert (vault : Wire) (r : ApproveReq) (db : Db) :
    Inert (exec (applyApprove vault r) db) db ↔ ¬ ApproveChanges db vault r := by
  unfold applyApprove ApproveChanges
  simp only [exec_bind, exec_liftExcept, exec_lift]
  cases ht : r.targetPub.decode with
  | none => simp [orReject, inert_error]
  | some target =>
    cases hw : r.wrappedKey.decode with
    | none => simp [orReject, inert_error]
    | some wrapped =>
      simp only [orReject]
      rw [update_inert]
      refine affected_or_same.trans ?_
      simp only [Option.some.injEq, exists_and_left, exists_eq_left', not_exists, not_and]
      refine forall₂_congr fun d _ => ?_
      obtain ⟨_, _, _, _, approved, revoked, wrappedKey⟩ := d
      simp only [decide_eq_true_eq, DeviceRow.mk.injEq, true_and, and_imp]
      grind

theorem applyRevoke_inert (vault : Wire) (r : RevokeReq) (db : Db) :
    Inert (exec (applyRevoke vault r) db) db ↔ ¬ RevokeChanges db vault r := by
  unfold applyRevoke RevokeChanges
  simp only [exec_bind, exec_liftExcept, exec_lift]
  cases ht : r.targetPub.decode with
  | none => simp [orReject, inert_error]
  | some target =>
    simp only [orReject]
    rw [update_inert]
    refine affected_or_same.trans ?_
    simp only [Option.some.injEq, exists_eq_left', not_exists, not_and]
    refine forall₂_congr fun d _ => ?_
    obtain ⟨_, _, _, _, approved, revoked, wrappedKey⟩ := d
    simp only [decide_eq_true_eq, DeviceRow.mk.injEq, true_and]
    grind

theorem loop_inert {β γ : Type} {decode : β → Except HttpError γ} {stmt : γ → Prog Db Nat} {l : List β}
    {vault : Wire} (stored : Nat → Nat) {db db' : Db} :
    Inert (exec (do
        let n ← forEach decode stmt l
        let head ← Db.selectHead vault
        return ⟨head, stored n⟩ : Handler PushResp) db') db ↔
      (∀ b ∈ l, ∃ c, decode b = .ok c) → SameTables db (exec (forEach decode stmt l) db').2 := by
  rw [← forEach_ok_iff decode stmt l db']
  simp only [exec_bind, exec_lift]
  rcases exec (forEach decode stmt l) db' with ⟨e | n, db''⟩
  · exact iff_of_true inert_error (by simp)
  · exact not_inert_ok.trans ⟨fun h _ => h, fun h => h ⟨n, rfl⟩⟩

theorem bumpEpoch_cases (vault : Wire) (epoch : Nat) (db : Db) :
    ((∃ v ∈ db.vaults, v.vaultId = vault ∧ v.epoch + 1 = epoch) ∧ ((Db.bumpEpoch vault epoch).run db).1 ≠ 0 ∧
        ((Db.bumpEpoch vault epoch).run db).2.vaults ≠ db.vaults) ∨
      (¬ ∃ v ∈ db.vaults, v.vaultId = vault ∧ v.epoch + 1 = epoch) ∧ (Db.bumpEpoch vault epoch).run db = (0, db) := by
  let p (v : VaultRow) : Bool := v.vaultId = vault ∧ v.epoch + 1 = epoch
  let set (v : VaultRow) : VaultRow := { v with epoch }
  have hp : ∀ v, p v = true ↔ v.vaultId = vault ∧ v.epoch + 1 = epoch := fun v => decide_eq_true_iff
  change (_ ∧ Table.affected p db.vaults ≠ 0 ∧ Table.update p set db.vaults ≠ db.vaults) ∨
    _ ∧ (Table.affected p db.vaults, ({ db with vaults := Table.update p set db.vaults } : Db)) = (0, db)
  by_cases hex : ∃ v ∈ db.vaults, v.vaultId = vault ∧ v.epoch + 1 = epoch
  · obtain ⟨v, hv, hnext⟩ := hex
    refine Or.inl ⟨⟨v, hv, hnext⟩, fun hnone => ?_, fun heq => ?_⟩
    · exact Bool.false_ne_true ((Table.affected_eq_zero.mp hnone v hv).symm.trans ((hp v).mpr hnext))
    · have := congrArg VaultRow.epoch (Table.update_eq_self.mp heq v hv ((hp v).mpr hnext))
      simp only [set] at this
      omega
  · have hnone : Table.affected p db.vaults = 0 := Table.affected_eq_zero.mpr fun v hv =>
      Bool.eq_false_iff.mpr fun h => hex ⟨v, hv, (hp v).mp h⟩
    refine Or.inr ⟨hex, ?_⟩
    rw [hnone, Table.update_of_unaffected hnone]

theorem applyRotate_inert (vault : Wire) (r : RotateReq) (db : Db) :
    Inert (exec (applyRotate vault r) db) db ↔ ¬ RotateChanges db vault r.epoch r.wrapped := by
  unfold applyRotate RotateChanges
  rw [exec_bind, exec_lift]
  dsimp only
  rcases bumpEpoch_cases vault r.epoch db with ⟨hex, hsome, hmoved⟩ | ⟨hnot, hrun⟩
  · -- The epoch moves, and no later statement puts it back.
    rw [if_neg hsome, loop_inert fun _ => 0]
    have hframe := forEach_frame Db.vaults decodeWrap (fun w => Db.rewrapDevice vault w.1 w.2) (fun _ _ => rfl) r.wrapped
      ((Db.bumpEpoch vault r.epoch).run db).2
    constructor
    · rintro h ⟨-, hall⟩
      exact hmoved (hframe.symm.trans (h hall).vaults)
    · intro h hall
      exact absurd ⟨hex, hall⟩ h
  · rw [hrun, if_pos rfl]
    exact iff_of_true inert_error fun h => hnot h.1

/-! ### Grants -/

def upsertWrap (vault : Wire) (share : Uuid) (t : List MemberRow) (w : Bytes × Bytes) : List MemberRow :=
  Table.upsert MemberRow.key ⟨vault, share, w.1, w.2⟩ (fun r => { r with wrappedKey := w.2 }) t

theorem runAll_upsertMember (vault : Wire) (share : Uuid) (wraps : List (Bytes × Bytes)) (db : Db) :
    runAll (fun w => Db.upsertMember vault share w.1 w.2) wraps db =
      { db with shareMembers := wraps.foldl (upsertWrap vault share) db.shareMembers } := by
  induction wraps generalizing db with
  | nil => rfl
  | cons w wraps ih => exact ih _

theorem lastWrap_append (wraps : List (Bytes × Bytes)) (w : Bytes × Bytes) (pub : Bytes) :
    lastWrap (wraps ++ [w]) pub = if w.1 = pub then some w.2 else lastWrap wraps pub := by
  simp [lastWrap, List.foldl_append]

/-- After the upserts, every granted device has a row, and its last wrap in it. -/
theorem foldl_upsertWrap (vault : Wire) (share : Uuid) (wraps : List (Bytes × Bytes)) (t : List MemberRow)
    {pub blob : Bytes} (h : lastWrap wraps pub = some blob) :
    (∃ m ∈ wraps.foldl (upsertWrap vault share) t, m.key = (vault, share, pub)) ∧
      ∀ m ∈ wraps.foldl (upsertWrap vault share) t, m.key = (vault, share, pub) → m.wrappedKey = blob := by
  induction wraps using List.reverseRecOn generalizing blob with
  | nil => simp [lastWrap] at h
  | append_singleton wraps w ih =>
    rw [List.foldl_append, List.foldl_cons, List.foldl_nil]
    generalize wraps.foldl (upsertWrap vault share) t = t' at ih ⊢
    rw [lastWrap_append] at h
    have hkey : MemberRow.key ⟨vault, share, w.1, w.2⟩ = (vault, share, w.1) := rfl
    unfold upsertWrap Table.upsert Table.update
    rw [hkey]
    -- The last wrap is for this device, or for another and leaves its row.
    by_cases hw : w.1 = pub
    · rw [if_pos hw] at h
      obtain rfl := Option.some.inj h
      subst hw
      split
      · rename_i hex
        obtain ⟨m, hm, hmk⟩ := hex
        refine ⟨⟨_, List.mem_map_of_mem hm, by simp [hmk]; exact hmk⟩, ?_⟩
        intro m' hm' hk'
        obtain ⟨m₀, hm₀, rfl⟩ := List.mem_map.mp hm'
        by_cases h0 : m₀.key = (vault, share, w.1)
        · simp [h0]
        · simp [h0] at hk'
      · rename_i hnex
        refine ⟨⟨_, List.mem_append_right _ List.mem_cons_self, rfl⟩, ?_⟩
        intro m' hm' hk'
        rcases List.mem_append.mp hm' with hm' | hm'
        · exact absurd ⟨m', hm', hk'⟩ hnex
        · rw [List.mem_singleton.mp hm']
    · rw [if_neg hw] at h
      obtain ⟨⟨m, hm, hmk⟩, hall⟩ := ih h
      have hne : ¬ (vault, share, pub) = (vault, share, w.1) := by
        simpa using fun h => hw h.symm
      split
      · refine ⟨⟨_, List.mem_map_of_mem hm, by simp [hmk, hne]⟩, ?_⟩
        intro m' hm' hk'
        obtain ⟨m₀, hm₀, rfl⟩ := List.mem_map.mp hm'
        by_cases h0 : m₀.key = (vault, share, w.1)
        · simp only [h0, decide_true, if_true] at hk'
          exact absurd (hk'.symm.trans h0) hne
        · simp only [h0, decide_false, Bool.false_eq_true, if_false] at hk' ⊢
          exact hall m₀ hm₀ hk'
      · refine ⟨⟨m, List.mem_append_left _ hm, hmk⟩, ?_⟩
        intro m' hm' hk'
        rcases List.mem_append.mp hm' with hm' | hm'
        · exact hall m' hm' hk'
        · rw [List.mem_singleton.mp hm'] at hk'
          exact absurd hk'.symm hne

theorem lastWrap_of_mem {wraps : List (Bytes × Bytes)} {w : Bytes × Bytes} (h : w ∈ wraps) :
    ∃ blob, lastWrap wraps w.1 = some blob := by
  induction wraps using List.reverseRecOn with
  | nil => cases h
  | append_singleton wraps w' ih =>
    rw [lastWrap_append]
    split
    · exact ⟨_, rfl⟩
    · rename_i hne
      rcases List.mem_append.mp h with h | h
      · exact ih h
      · rw [List.mem_singleton.mp h] at hne
        exact absurd rfl hne

/-- A row after all upserts. -/
def rewrap (vault : Wire) (share : Uuid) (wraps : List (Bytes × Bytes)) (m : MemberRow) : MemberRow :=
  if m.vaultId = vault ∧ m.shareId = share then
    { m with wrappedKey := (lastWrap wraps m.ed25519Pub).getD m.wrappedKey }
  else m

theorem key_rewrap (vault : Wire) (share : Uuid) (wraps : List (Bytes × Bytes)) (m : MemberRow) :
    (rewrap vault share wraps m).key = m.key := by
  unfold rewrap
  split <;> rfl

theorem foldl_upsertWrap_of_rows {vault : Wire} {share : Uuid} {wraps : List (Bytes × Bytes)} {t : List MemberRow}
    (h : ∀ w ∈ wraps, ∃ m ∈ t, m.key = (vault, share, w.1)) :
    wraps.foldl (upsertWrap vault share) t = t.map (rewrap vault share wraps) := by
  induction wraps using List.reverseRecOn with
  | nil =>
    have hid : ∀ m, rewrap vault share [] m = m := by
      intro m
      unfold rewrap
      split <;> rfl
    exact (List.map_id'' hid t).symm
  | append_singleton wraps w ih =>
    rw [List.foldl_append, List.foldl_cons, List.foldl_nil, ih fun w' hw' => h w' (List.mem_append_left _ hw')]
    obtain ⟨m, hm, hmk⟩ := h w (by simp)
    unfold upsertWrap Table.upsert
    rw [if_pos ⟨_, List.mem_map_of_mem hm, (key_rewrap ..).trans hmk⟩, Table.update, List.map_map]
    refine List.map_congr_left fun m' _ => ?_
    rw [Function.comp_apply, key_rewrap]
    obtain ⟨vault', share', pub, blob⟩ := m'
    simp only [rewrap, lastWrap_append, MemberRow.key, Prod.mk.injEq, decide_eq_true_eq]
    grind

theorem foldl_upsertWrap_eq_self {vault : Wire} {share : Uuid} {wraps : List (Bytes × Bytes)} {t : List MemberRow} :
    wraps.foldl (upsertWrap vault share) t = t ↔
      ∀ pub blob, lastWrap wraps pub = some blob → (∃ m ∈ t, m.key = (vault, share, pub)) ∧
        ∀ m ∈ t, m.key = (vault, share, pub) → m.wrappedKey = blob := by
  constructor
  · intro h pub blob hlast
    have := foldl_upsertWrap vault share wraps t hlast
    rwa [h] at this
  · intro h
    have hrows : ∀ w ∈ wraps, ∃ m ∈ t, m.key = (vault, share, w.1) := by
      intro w hw
      obtain ⟨blob, hblob⟩ := lastWrap_of_mem hw
      exact (h w.1 blob hblob).1
    rw [foldl_upsertWrap_of_rows hrows]
    refine (List.map_congr_left fun m hm => ?_).trans (List.map_id t)
    unfold rewrap
    split
    · rename_i hkey
      cases hlast : lastWrap wraps m.ed25519Pub with
      | none => rfl
      | some blob =>
        have := (h _ _ hlast).2 m hm (by rw [MemberRow.key, hkey.1, hkey.2])
        rw [Option.getD_some, ← this]
        rfl
    · rfl

theorem sameTables_grant_iff {vault : Wire} {share : Uuid} {epoch : Nat} {wraps : List (Bytes × Bytes)} {db : Db} :
    SameTables db (runAll (fun w => Db.upsertMember vault share w.1 w.2) wraps
        ((Db.raiseShareEpoch vault share epoch).run db).2) ↔ Granted db vault share epoch wraps := by
  let set (s : ShareRow) : ShareRow := { s with epoch := max s.epoch epoch }
  have hsame : ∀ t u, SameTables db { db with shares := t, shareMembers := u } ↔ t = db.shares ∧ u = db.shareMembers :=
    fun t u => ⟨fun h => ⟨h.shares, h.shareMembers⟩, fun h => ⟨rfl, rfl, rfl, h.1, h.2⟩⟩
  rw [runAll_upsertMember]
  refine (hsame (Table.upsert ShareRow.key ⟨vault, share, epoch⟩ set db.shares)
    (wraps.foldl (upsertWrap vault share) db.shareMembers)).trans ?_
  rw [Table.upsert_eq_self, foldl_upsertWrap_eq_self, and_assoc]
  refine and_congr Iff.rfl (and_congr (forall₂_congr fun s _ => imp_congr_right fun _ => ?_) Iff.rfl)
  obtain ⟨_, _, epoch'⟩ := s
  simp [set]

theorem applyShareGrant_inert (vault : Wire) (r : ShareGrantReq) (db : Db) :
    Inert (exec (applyShareGrant vault r) db) db ↔ ¬ ShareGrantChanges db vault r.shareId r.epoch r.wrapped := by
  unfold applyShareGrant ShareGrantChanges decodeShare
  rw [exec_bind, exec_liftExcept]
  cases hs : r.shareId.decode16 with
  | none => simp [orReject, inert_error]
  | some share =>
    simp only [orReject, Option.some.injEq, exists_and_left, exists_eq_left']
    rw [exec_bind, exec_lift, loop_inert fun _ => 0, ← forEach_ok_iff decodeWrap
      (fun w => Db.upsertMember vault share w.1 w.2) r.wrapped ((Db.raiseShareEpoch vault share r.epoch).run db).2]
    obtain ⟨ran, -, hdb, ⟨hok, hran⟩ | ⟨e, he, hran⟩⟩ :=
      exec_forEach decodeWrap (fun w => Db.upsertMember vault share w.1 w.2) r.wrapped
        ((Db.raiseShareEpoch vault share r.epoch).run db).2
    · rw [hdb, sameTables_grant_iff, hran]
      simp only [hok, true_imp_iff, Except.ok.injEq, exists_eq_left', not_not]
    · simp [he, hran]

/-! ### Share rotations -/

theorem applyShareRotate_inert (vault : Wire) (r : ShareRotateReq) (db : Db) :
    Inert (exec (applyShareRotate vault r) db) db ↔
      ¬ ShareRotateChanges db vault r.shareId r.epoch r.wrapped r.remove := by
  unfold applyShareRotate ShareRotateChanges decodeShare
  rw [exec_bind, exec_liftExcept]
  cases hs : r.shareId.decode16 with
  | none => simp [orReject, inert_error]
  | some share =>
    simp only [orReject, Option.some.injEq, exists_eq_left']
    rw [exec_bind]
    have hadvance := exec_advanceShare vault share r.epoch db
    split at hadvance
    · rename_i hmoves
      obtain ⟨t, hadv, hrun⟩ := hadvance
      rw [hrun]
      dsimp only
      rw [exec_bind]
      have hremoved := forEach_ok_iff decodeRemoved (Db.deleteMember vault share) r.remove { db with shares := t }
      have hframe := forEach_frame Db.shares decodeRemoved (Db.deleteMember vault share)
        (fun _ _ => rfl) r.remove { db with shares := t }
      generalize exec (forEach decodeRemoved (Db.deleteMember vault share) r.remove) { db with shares := t } = out
        at hremoved hframe ⊢
      obtain ⟨e | n, db'⟩ := out
      · have hnot : ¬ ∀ b ∈ r.remove, ∃ c, decodeRemoved b = .ok c := by simp [← hremoved]
        exact iff_of_true inert_error fun h => hnot h.2.1
      · dsimp only
        rw [loop_inert]
        have hall := hremoved.mp ⟨n, rfl⟩
        constructor
        · rintro h ⟨hwraps, -, -⟩
          -- The loops leave `shares` alone, and it has moved.
          have := forEach_frame Db.shares decodeWrap (fun w => Db.rewrapMember vault share w.1 w.2)
            (fun _ _ => rfl) r.wrapped db'
          exact hadv.ne (hframe.symm.trans (this.symm.trans (h hwraps).shares))
        · intro h hwraps
          exact absurd ⟨hwraps, hall, hmoves⟩ h
    · rename_i hstays
      obtain ⟨e, he⟩ := hadvance
      rw [he]
      exact iff_of_true inert_error fun h => hstays h.2.2

/-! ### Pushes -/

theorem length_runAll_insertEntry (vault : Wire) (l : List (Bytes × Bytes × Uuid)) (db : Db) :
    db.entries.length ≤ (runAll (fun e => Db.insertEntry vault e.1 e.2.1 e.2.2) l db).entries.length := by
  induction l generalizing db with
  | nil => exact le_rfl
  | cons e l ih =>
    refine le_trans ?_ (ih _)
    change _ ≤ (Table.insertOrIgnore EntryRow.key _ db.entries).length
    unfold Table.insertOrIgnore
    split <;> simp

theorem runAll_insertEntry_same {vault : Wire} {l : List (Bytes × Bytes × Uuid)} {db : Db} :
    SameTables db (runAll (fun e => Db.insertEntry vault e.1 e.2.1 e.2.2) l db) ↔
      ∀ e ∈ l, ∃ row ∈ db.entries, row.key = (vault, e.1) := by
  induction l generalizing db with
  | nil => exact iff_of_true (SameTables.refl db) (by simp)
  | cons e l ih =>
    rw [List.forall_mem_cons]
    by_cases hold : ∃ row ∈ db.entries, row.key = (vault, e.1)
    · change SameTables db (runAll _ l ((Db.insertEntry vault e.1 e.2.1 e.2.2).run db).2) ↔ _
      rw [insertEntry_held hold, and_iff_right hold]
      -- The number that it used up is in none of the tables.
      have hnumber : ∀ db', SameTables db db' ↔ SameTables { db with lastSeq := db.nextSeq } db' :=
        fun _ => ⟨fun ⟨h₁, h₂, h₃, h₄, h₅⟩ => ⟨h₁, h₂, h₃, h₄, h₅⟩, fun ⟨h₁, h₂, h₃, h₄, h₅⟩ => ⟨h₁, h₂, h₃, h₄, h₅⟩⟩
      rw [hnumber, ih]
    · refine iff_of_false (fun h => ?_) fun h => hold h.1
      have hlen := length_runAll_insertEntry vault l ((Db.insertEntry vault e.1 e.2.1 e.2.2).run db).2
      have hnew : ((Db.insertEntry vault e.1 e.2.1 e.2.2).run db).2.entries.length = db.entries.length + 1 := by
        change (Table.insertOrIgnore EntryRow.key _ db.entries).length = _
        have hkey : EntryRow.key ⟨vault, db.nextSeq, e.1, e.2.1, e.2.2⟩ = (vault, e.1) := rfl
        unfold Table.insertOrIgnore
        rw [hkey, if_neg hold, List.length_append, List.length_singleton]
      have hsame := congrArg List.length h.entries
      change (runAll _ l ((Db.insertEntry vault e.1 e.2.1 e.2.2).run db).2).entries.length = _ at hsame
      omega

theorem applyPush_inert (vault : Wire) (r : PushReq) (db : Db) :
    Inert (exec (applyPush vault r) db) db ↔ ¬ PushChanges db vault r := by
  unfold applyPush PushChanges
  rw [loop_inert fun n => n]
  obtain ⟨ran, hran, hdb, ⟨hok, hmap⟩ | ⟨e, he, -⟩⟩ :=
    exec_forEach decodeEntry (fun e => Db.insertEntry vault e.1 e.2.1 e.2.2) r.entries db
  · rw [hdb, runAll_insertEntry_same, not_and]
    refine imp_congr_right fun _ => ?_
    constructor
    · rintro h ⟨e, he, p, hp, hnew⟩
      obtain ⟨p', hp', hdec⟩ := mem_of_mapM_ok hmap he
      obtain rfl : p = p' := Except.ok.inj (hp.symm.trans hdec)
      obtain ⟨row, hrow, hk⟩ := h p hp'
      exact hnew row hrow hk
    · intro h p hp
      obtain ⟨e, he, hdec⟩ := hran p hp
      by_contra hnone
      exact h ⟨e, he, p, hdec, fun row hrow hk => hnone ⟨row, hrow, hk⟩⟩
  · have hnot : ¬ ∀ b ∈ r.entries, ∃ c, decodeEntry b = .ok c := by
      rw [← forEach_ok_iff decodeEntry (fun e => Db.insertEntry vault e.1 e.2.1 e.2.2) r.entries db, he]
      simp
    exact iff_of_true (fun h => absurd h hnot) fun h => hnot h.1

theorem applyEnroll_inert (vault : Wire) (key : EdKey) (devicePub : Wire) (r : EnrollReq) (db : Db) :
    Inert (exec (applyEnroll vault key devicePub r) db) db ↔ ¬ EnrollChanges db vault key devicePub r := by
  unfold applyEnroll EnrollChanges
  dsimp only
  by_cases hself : r.ed25519Pub = devicePub
  swap
  · rw [if_pos hself]
    exact iff_of_true inert_error fun h => hself h.1
  rw [if_neg (not_not.mpr hself), exec_bind, exec_lift]
  have hselect : (Db.selectDevice vault (.ed key)).run db = (db.device vault (.ed key), db) := rfl
  rw [hselect]
  dsimp only
  by_cases hrev : ((db.device vault (.ed key)).map (·.revoked)) = some true
  · rw [if_pos hrev]
    exact iff_of_true inert_error fun h => h.2.1 hrev
  rw [if_neg hrev]
  simp only [exec_bind, exec_liftExcept, exec_lift]
  cases hx : r.x25519Pub.decode with
  | none => simp [orReject, inert_error]
  | some x =>
    cases hrec : r.recoveryPub.decode with
    | none => simp [orReject, inert_error]
    | some recovery =>
      let row : DeviceRow := ⟨vault, .ed key, x, r.deviceName, ¬ db.vaults.any (·.vaultId = vault), false, none⟩
      let set (d : DeviceRow) : DeviceRow := { d with name := r.deviceName, x25519Pub := x }
      have hsame : ∀ t u, SameTables db { db with vaults := t, devices := u } ↔ t = db.vaults ∧ u = db.devices :=
        fun t u => ⟨fun h => ⟨h.vaults, h.devices⟩, fun h => ⟨h.1, h.2, rfl, rfl, rfl⟩⟩
      refine not_inert_ok.trans ((hsame (Table.insertOrIgnore VaultRow.vaultId ⟨vault, recovery, 0⟩ db.vaults)
        (Table.upsert DeviceRow.key row set db.devices)).trans ?_)
      rw [Table.insertOrIgnore_eq_self, Table.upsert_eq_self]
      have hset : ∀ d, set d = d ↔ d.name = r.deviceName ∧ d.x25519Pub = x := by
        rintro ⟨_, _, x', name', _, _, _⟩
        simp only [set, DeviceRow.mk.injEq, true_and, and_true]
        rw [and_comm, eq_comm, eq_comm (a := x)]
      simp only [hset]
      constructor
      · rintro h ⟨-, -, -, x', hx', hnot⟩
        obtain rfl := Option.some.inj hx'
        exact hnot h
      · intro h
        by_contra hnot
        exact h ⟨hself, hrev, rfl, x, rfl, hnot⟩

/-! ## Every delivery -/

/-- What a decoded request has to meet to change the tables, once its signature verifies. -/
def Changes (db : Db) (now : Now) (vault : Wire) (key : EdKey) (sig : Sig) : ClientReq → Prop
  | .enroll r => EnrollChanges db vault key (.b64 (.ed key)) r
  | .approve r => db.canSync vault key ∧ ApproveChanges db vault r
  | .revoke r => db.canSync vault key ∧ RevokeChanges db vault r
  | .rotate epoch wrapped => db.canSync vault key ∧ Unseen now.markSeen sig db ∧ RotateChanges db vault epoch wrapped
  | .shareGrant shareId epoch wrapped => db.canSync vault key ∧ ShareGrantChanges db vault shareId epoch wrapped
  | .shareRotate shareId epoch wrapped remove =>
    db.canSync vault key ∧ Unseen now.markSeen sig db ∧ ShareRotateChanges db vault shareId epoch wrapped remove
  | .push r => db.canSync vault key ∧ PushChanges db vault r

theorem map_inert {α β : Type} {p : Handler α} {f : α → β} {db db' : Db} :
    Inert (exec (do return f (← p)) db') db ↔ Inert (exec p db') db := by
  rw [exec_bind]
  rcases exec p db' with ⟨e | a, db''⟩
  · exact iff_of_true inert_error inert_error
  · exact not_inert_ok.trans not_inert_ok.symm

theorem authorize_inert {α : Type} {now : Now} {s : Signed} {vault : Wire} {key : EdKey}
    (h : verify now.verify s = .ok (vault, key)) {refusal : String} {f : Wire × EdKey → Handler α} {db : Db} :
    Inert (exec (authorize now s refusal >>= f) db) db ↔
      (db.canSync vault key → Inert (exec (f (vault, key)) db) db) := by
  rw [exec_bind, exec_authorize, h]
  dsimp only
  cases hcan : db.canSync vault key with
  | false => exact iff_of_true inert_error (by simp)
  | true => simp

theorem jsonBody_inert {α β : Type} {ofJson : Json Bytes → Option α} {j : Json Bytes} {f : α → Handler β}
    {db db' : Db} :
    Inert (exec (liftM (jsonBody ofJson (.json j)) >>= f) db') db ↔
      ∀ r, ofJson j = some r → Inert (exec (f r) db') db := by
  rw [exec_bind, exec_liftExcept, jsonBody]
  cases ofJson j with
  | none => simp [orReject, inert_error]
  | some r => simp [orReject]

theorem markSeen_inert {α : Type} {now : Now} {sig : Sig} {e : HttpError} {p : Handler α} {db : Db} :
    Inert (exec (markSeen now.markSeen (.b64 sig) >>= fun new =>
        if ¬ new = true then (throw e : Handler PUnit) >>= fun _ => p else p) db) db ↔
      (Unseen now.markSeen sig db →
        Inert (exec p { db with seenSigs := notedSigs now.markSeen sig db }) { db with seenSigs := notedSigs now.markSeen sig db }) := by
  rw [exec_bind, exec_markSeen]
  dsimp only
  by_cases hseen : Unseen now.markSeen sig db
  · simp only [hseen, decide_true, not_true, if_false, true_imp_iff]
    exact or_congr Iff.rfl ⟨fun h => ⟨h.1, h.2, h.3, h.4, h.5⟩, fun h => ⟨h.1, h.2, h.3, h.4, h.5⟩⟩
  · simp only [hseen, decide_false, Bool.false_eq_true, not_false_eq_true, if_true]
    exact iff_of_true inert_error (by simp)

theorem asU32_lt {j : Json Bytes} {n : Nat} (h : j.asU32 = some n) : n < 4294967296 := by
  unfold Json.asU32 at h
  split at h
  · split at h
    · obtain rfl := Option.some.inj h
      omega
    · cases h
  · cases h

theorem rotate_epoch_lt {j : Json Bytes} {r : RotateReq} (h : RotateReq.ofJson j = some r) : r.epoch < 4294967296 := by
  unfold RotateReq.ofJson at h
  simp only [Option.bind_eq_bind, Option.bind_eq_some_iff] at h
  obtain ⟨_, _, epoch, hepoch, _, _, _, _, h⟩ := h
  obtain rfl := Option.some.inj h
  exact asU32_lt hepoch

theorem shareGrant_epoch_lt {j : Json Bytes} {r : ShareGrantReq} (h : ShareGrantReq.ofJson j = some r) :
    r.epoch < 4294967296 := by
  unfold ShareGrantReq.ofJson at h
  simp only [Option.bind_eq_bind, Option.bind_eq_some_iff] at h
  obtain ⟨_, _, _, _, _, _, epoch, hepoch, _, _, _, _, h⟩ := h
  obtain rfl := Option.some.inj h
  exact asU32_lt hepoch

theorem shareRotate_epoch_lt {j : Json Bytes} {r : ShareRotateReq} (h : ShareRotateReq.ofJson j = some r) :
    r.epoch < 4294967296 := by
  unfold ShareRotateReq.ofJson at h
  simp only [Option.bind_eq_bind, Option.bind_eq_some_iff] at h
  obtain ⟨_, _, _, _, _, _, epoch, hepoch, _, _, _, _, _, _, _, _, h⟩ := h
  obtain rfl := Option.some.inj h
  exact asU32_lt hepoch

theorem val_ofNat {n : Nat} (h : n < 4294967296) : (Fin.ofNat 4294967296 n).val = n := by
  simpa [Fin.ofNat] using Nat.mod_eq_of_lt h

theorem decoded_iff {α : Type} {o : Option α} {g : α → ClientReq} {P : ClientReq → Prop} :
    (∀ a, o = some a → ¬ P (g a)) ↔ ∀ r, o.map g = some r → ¬ P r := by
  cases o <;> simp

/-- What a handler does with an envelope whose signature verifies is decided by how its own
decoder reads the body. -/
theorem post_inert {now : Now} (key : EdKey) {ts : Int64} {j : Json Bytes} (vault vault' : Wire) (e : Endpoint)
    (db : Db) (hwin : inWindow now.verify ts = true) :
    Inert (exec (post now { envelope vault key ts (.json j) with vaultId := vault' } e) db) db ↔
      ∀ r, decodeAt j e = some r → ¬ Changes db now vault' key ⟨key, .request ts (.json j)⟩ r := by
  have hverify : verify now.verify { envelope vault key ts (.json j) with vaultId := vault' } = .ok (vault', key) := by
    simp [verify, envelope, hwin, Text.decodeEd, Text.decode, Text.signature]
  cases e with
  | enroll =>
    refine map_inert.trans ?_
    unfold enroll
    rw [exec_bind, exec_liftExcept, hverify]
    refine jsonBody_inert.trans ?_
    simp only [applyEnroll_inert]
    exact decoded_iff (g := .enroll) (P := Changes db now vault' key _)
  | approve =>
    refine map_inert.trans ((authorize_inert hverify).trans ?_)
    refine (imp_congr_right fun _ => jsonBody_inert).trans ?_
    simp only [applyApprove_inert]
    refine Iff.trans ?_ (decoded_iff (P := Changes db now vault' key _))
    exact ⟨fun h r hr hch => h hch.1 r hr hch.2, fun h hcan r hr hch => h r hr ⟨hcan, hch⟩⟩
  | revoke =>
    refine map_inert.trans ((authorize_inert hverify).trans ?_)
    refine (imp_congr_right fun _ => jsonBody_inert).trans ?_
    simp only [applyRevoke_inert]
    refine Iff.trans ?_ (decoded_iff (P := Changes db now vault' key _))
    exact ⟨fun h r hr hch => h hch.1 r hr hch.2, fun h hcan r hr hch => h r hr ⟨hcan, hch⟩⟩
  | rotate =>
    refine map_inert.trans ((authorize_inert hverify).trans ?_)
    refine (imp_congr_right fun _ => markSeen_inert.trans (imp_congr_right fun _ => jsonBody_inert)).trans ?_
    simp only [applyRotate_inert]
    refine Iff.trans ?_ (decoded_iff (P := Changes db now vault' key _))
    refine ⟨fun h r hr hch => h hch.1 hch.2.1 r hr ?_, fun h hcan hseen r hr hch => h r hr ⟨hcan, hseen, ?_⟩⟩
    · rw [← val_ofNat (rotate_epoch_lt hr)]
      exact hch.2.2
    · rw [val_ofNat (rotate_epoch_lt hr)]
      exact hch
  | shareGrant =>
    refine map_inert.trans ((authorize_inert hverify).trans ?_)
    refine (imp_congr_right fun _ => jsonBody_inert).trans ?_
    simp only [applyShareGrant_inert]
    refine Iff.trans ?_ (decoded_iff (P := Changes db now vault' key _))
    refine ⟨fun h r hr hch => h hch.1 r hr ?_, fun h hcan r hr hch => h r hr ⟨hcan, ?_⟩⟩
    · rw [← val_ofNat (shareGrant_epoch_lt hr)]
      exact hch.2
    · rw [val_ofNat (shareGrant_epoch_lt hr)]
      exact hch
  | shareRotate =>
    refine map_inert.trans ((authorize_inert hverify).trans ?_)
    refine (imp_congr_right fun _ => markSeen_inert.trans (imp_congr_right fun _ => jsonBody_inert)).trans ?_
    simp only [applyShareRotate_inert]
    refine Iff.trans ?_ (decoded_iff (P := Changes db now vault' key _))
    refine ⟨fun h r hr hch => h hch.1 hch.2.1 r hr ?_, fun h hcan hseen r hr hch => h r hr ⟨hcan, hseen, ?_⟩⟩
    · rw [← val_ofNat (shareRotate_epoch_lt hr)]
      exact hch.2.2
    · rw [val_ofNat (shareRotate_epoch_lt hr)]
      exact hch
  | push =>
    refine map_inert.trans ((authorize_inert hverify).trans ?_)
    refine (imp_congr_right fun _ => jsonBody_inert).trans ?_
    simp only [applyPush_inert]
    refine Iff.trans ?_ (decoded_iff (P := Changes db now vault' key _))
    exact ⟨fun h r hr hch => h hch.1 r hr hch.2, fun h hcan r hr hch => h r hr ⟨hcan, hch⟩⟩

/-- **What a delivery changes.** An envelope that a client built for one vault is delivered in
its time window, to any POST endpoint and under any vault id. It changes the tables exactly
when that endpoint reads its body as a request that changes them there. -/
theorem delivery_inert_iff (db : Db) (now : Now) (ts : Int64) (key : EdKey) (r : ClientReq) (vault vault' : Wire) (target : Target)
    (hwin : inWindow now.verify ts = true) :
    Inert (exec (receive now target { envelope vault key ts (.json r.toJson) with vaultId := vault' }.toJson) db) db ↔
      ¬ ∃ e r', target = .signed e ∧ r.readAs e = some r' ∧
        Changes db now vault' key ⟨key, .request ts (.json r.toJson)⟩ r' := by
  cases target with
  | signed e =>
    unfold receive
    rw [signed_roundTrip]
    refine (post_inert _ vault vault' e db hwin).trans ?_
    simp only [decodeAt_toJson, Target.signed.injEq, not_exists, not_and]
    exact ⟨by rintro h _ r' rfl; exact h r', fun h r' => h e r' rfl⟩
  | recover =>
    unfold receive
    rw [recover_not_signed]
    exact iff_of_true inert_error (by simp)

/-- One vault with two approved devices. -/
def twoApproved : Db :=
  { vaults := [⟨.b64 (.uuid 1), .other 1, 0⟩]
    devices := [⟨.b64 (.uuid 1), .ed (.device 0), .x 0, .plain "laptop", true, false, none⟩,
      ⟨.b64 (.uuid 1), .ed (.device 1), .x 1, .plain "phone", true, false, none⟩] }

/-- The first device approves the second, again. -/
def approveAgain : ClientReq :=
  .approve ⟨.b64 (.ed (.device 1)), .b64 (Crypto.wrapVaultKey { keys := [.vault 0 0] } (.x 1) (.ed (.device 1)))⟩

theorem delivery_inert_iff_approveAgain :
    Inert (exec (receive 1000 (.signed .push)
        { envelope (.b64 (.uuid 1)) (.device 0) 1000 (.json approveAgain.toJson) with vaultId := .b64 (.uuid 2) }.toJson)
        twoApproved) twoApproved ↔
      ¬ ∃ e r', Target.signed .push = .signed e ∧ approveAgain.readAs e = some r' ∧
        Changes twoApproved 1000 (.b64 (.uuid 2)) (.device 0)
          ⟨.device 0, .request 1000 (.json approveAgain.toJson)⟩ r' :=
  delivery_inert_iff twoApproved 1000 1000 (.device 0) approveAgain (.b64 (.uuid 1)) (.b64 (.uuid 2)) (.signed .push)
    (by decide)

/-- The approval, sent to `/v1/revoke`, revokes the device that it approves. -/
theorem approval_revokes :
    ¬ ∀ (db : Db) (now : Now) (ts : Int64) (key : EdKey) (r : ClientReq) (vault vault' : Wire) (target : Target),
      inWindow now.verify ts = true → target ≠ .signed r.endpoint ∨ vault' ≠ vault →
        Inert (exec (receive now target
          { envelope vault key ts (.json r.toJson) with vaultId := vault' }.toJson) db) db := by
  intro h
  have hinert := h twoApproved 1000 1000 (.device 0) approveAgain (.b64 (.uuid 1)) (.b64 (.uuid 1)) (.signed .revoke)
    (by decide) (Or.inl (by decide))
  rcases hinert with ⟨e, he⟩ | hsame
  · have hok : (exec (receive 1000 (.signed .revoke)
        (envelope (.b64 (.uuid 1)) (.device 0) 1000 (.json approveAgain.toJson)).toJson) twoApproved).1.isOk = true := by
      decide +kernel
    exact Bool.false_ne_true ((congrArg Except.isOk he).symm.trans hok)
  · have := hsame.devices
    revert this
    decide +kernel

end SshVault.Relay
