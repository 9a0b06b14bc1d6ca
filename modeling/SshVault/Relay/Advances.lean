import SshVault.Relay.Admission
import SshVault.Relay.Epochs

/-!
# Epochs, one at a time

Handlers that rotate a vault or a share, and handlers that grant, each between any two statements of the others.
A rotation names the epoch that it moves to, and the guarded UPDATE takes it from the epoch before. A share that
the relay has no epoch for is inserted at whatever epoch the request names.
-/

open Lib Prog

namespace SshVault.Relay

/-! ## What a request asks for -/

/-- A request to move the vault to this epoch. -/
def Rotates (now : Now) (req : Request) (vault : Wire) (r : RotateReq) : Prop :=
  ∃ signed key, req = .post .rotate signed ∧ verify now.verify signed = .ok (vault, key) ∧ Reads RotateReq.ofJson signed.body r

/-- A request to move a share to this epoch. -/
def RotatesShare (now : Now) (req : Request) (vault : Wire) (share : Uuid) (r : ShareRotateReq) : Prop :=
  ∃ signed key, req = .post .shareRotate signed ∧ verify now.verify signed = .ok (vault, key) ∧
    Reads ShareRotateReq.ofJson signed.body r ∧ r.shareId.decode16 = some share

/-- A request to grant a share at this epoch. -/
def Grants (now : Now) (req : Request) (vault : Wire) (share : Uuid) (epoch : Nat) : Prop :=
  ∃ signed key r, req = .post .shareGrant signed ∧ verify now.verify signed = .ok (vault, key) ∧
    Reads ShareGrantReq.ofJson signed.body r ∧ r.shareId.decode16 = some share ∧ r.epoch = epoch

section

variable {now : Now} {req : Request} {vault : Wire} {share : Uuid}

theorem reads_unique {α : Type} {ofJson : Json Bytes → Option α} {body : Body} {r r' : α} (h : Reads ofJson body r)
    (h' : Reads ofJson body r') : r = r' := by
  obtain ⟨j, rfl, hj⟩ := h'
  exact reads_eq h hj

theorem Rotates.eq {vault' : Wire} {r r' : RotateReq} (h : Rotates now req vault r) (h' : Rotates now req vault' r') :
    vault = vault' ∧ r = r' := by
  obtain ⟨signed, key, rfl, hv, hr⟩ := h
  obtain ⟨signed', key', hreq, hv', hr'⟩ := h'
  obtain ⟨-, rfl⟩ := Request.post.inj hreq
  obtain ⟨hvault, -⟩ := Prod.mk.inj (Except.ok.inj (hv.symm.trans hv'))
  exact ⟨hvault, reads_unique hr hr'⟩

theorem RotatesShare.eq {vault' : Wire} {share' : Uuid} {r r' : ShareRotateReq} (h : RotatesShare now req vault share r)
    (h' : RotatesShare now req vault' share' r') : (vault = vault' ∧ share = share') ∧ r = r' := by
  obtain ⟨signed, key, rfl, hv, hr, hs⟩ := h
  obtain ⟨signed', key', hreq, hv', hr', hs'⟩ := h'
  obtain ⟨-, rfl⟩ := Request.post.inj hreq
  obtain ⟨hvault, -⟩ := Prod.mk.inj (Except.ok.inj (hv.symm.trans hv'))
  obtain rfl := reads_unique hr hr'
  exact ⟨⟨hvault, Option.some.inj (hs.symm.trans hs')⟩, rfl⟩

/-! ## Epochs after a statement -/

/-- The primary keys of the two tables. -/
structure Keyed (db : Db) : Prop where
  vaults : (db.vaults.map VaultRow.vaultId).Nodup
  shares : (db.shares.map ShareRow.key).Nodup

variable {past : List (Db × Db)} {s t : Db}

theorem Statement.keyed (h : Statement now req past s t) (hs : Keyed s) : Keyed t := by
  cases h with
  | insertVault => exact ⟨Table.nodup_insertOrIgnore hs.vaults, hs.shares⟩
  | bumpEpoch => exact ⟨Table.nodup_update (fun _ => rfl) hs.vaults, hs.shares⟩
  | raiseShareEpoch => exact ⟨hs.vaults, Table.nodup_upsert (fun _ => rfl) hs.shares⟩
  | bumpShareEpoch => exact ⟨hs.vaults, Table.nodup_update (fun _ => rfl) hs.shares⟩
  | insertShare => exact ⟨hs.vaults, Table.nodup_insertOrIgnore hs.shares⟩
  | _ => exact ⟨hs.vaults, hs.shares⟩

theorem epoch_insertVault (db : Db) (vault : Wire) (recovery : Bytes) (v : Wire) :
    ((Db.insertVault vault recovery).run db).2.epochOf v = db.epochOf v := by
  have hvaults : ((Db.insertVault vault recovery).run db).2.vaults =
    Table.insertOrIgnore VaultRow.vaultId ⟨vault, recovery, 0⟩ db.vaults := rfl
  unfold Db.epochOf Db.epoch
  rw [hvaults, Table.find_insertOrIgnore]
  split
  · cases db.vaults.find? (·.vaultId = v) <;> rfl
  · rfl

theorem epoch_bump (db : Db) (vault : Wire) (epoch : Nat) (v : Wire) :
    ((Db.bumpEpoch vault epoch).run db).2.epoch v = db.epoch v ∨
      v = vault ∧ ∃ e, epoch = e + 1 ∧ db.epoch v = some e ∧ ((Db.bumpEpoch vault epoch).run db).2.epoch v = some (e + 1) := by
  have hvaults : ((Db.bumpEpoch vault epoch).run db).2.vaults =
    Table.update (fun r => r.vaultId = vault ∧ r.epoch + 1 = epoch) (fun r => { r with epoch }) db.vaults := rfl
  unfold Db.epoch
  rw [hvaults, Table.find_update (by exact fun _ => rfl)]
  cases hfind : db.vaults.find? (·.vaultId = v) with
  | none => exact Or.inl rfl
  | some row =>
    have hrow : row.vaultId = v := by simpa using List.find?_some hfind
    by_cases hnext : row.vaultId = vault ∧ row.epoch + 1 = epoch
    · refine Or.inr ⟨hrow.symm.trans hnext.1, row.epoch, hnext.2.symm, rfl, ?_⟩
      rw [Option.map_some, Option.map_some, if_pos (by simpa using hnext), hnext.2]
    · rw [Option.map_some, if_neg (by simpa using hnext)]
      exact Or.inl rfl

theorem shareEpoch_bump (db : Db) (vault : Wire) (share : Uuid) (epoch : Nat) (v : Wire) (i : Uuid) :
    ((Db.bumpShareEpoch vault share epoch).run db).2.shareEpoch v i = db.shareEpoch v i ∨
      (v = vault ∧ i = share) ∧ ∃ e, epoch = e + 1 ∧ db.shareEpoch v i = some e ∧
        ((Db.bumpShareEpoch vault share epoch).run db).2.shareEpoch v i = some (e + 1) := by
  have hshares : ((Db.bumpShareEpoch vault share epoch).run db).2.shares =
    Table.update (fun r => r.key = (vault, share) ∧ r.epoch + 1 = epoch) (fun r => { r with epoch }) db.shares := rfl
  unfold Db.shareEpoch
  rw [hshares, Table.find_update (by exact fun _ => rfl)]
  cases hfind : db.shares.find? (·.key = (v, i)) with
  | none => exact Or.inl rfl
  | some row =>
    have hrow : row.key = (v, i) := by simpa using List.find?_some hfind
    by_cases hnext : row.key = (vault, share) ∧ row.epoch + 1 = epoch
    · refine Or.inr ⟨Prod.mk.inj (hrow.symm.trans hnext.1), row.epoch, hnext.2.symm, rfl, ?_⟩
      rw [Option.map_some, Option.map_some, if_pos (by simpa using hnext), hnext.2]
    · rw [Option.map_some, if_neg (by simpa using hnext)]
      exact Or.inl rfl

theorem shareEpoch_insert (db : Db) (vault : Wire) (share : Uuid) (epoch : Nat) (v : Wire) (i : Uuid) :
    ((Db.insertShare vault share epoch).run db).2.shareEpoch v i = db.shareEpoch v i ∨
      (v = vault ∧ i = share) ∧ db.shareEpoch v i = none ∧
        ((Db.insertShare vault share epoch).run db).2.shareEpoch v i = some epoch := by
  have hshares : ((Db.insertShare vault share epoch).run db).2.shares =
    Table.insertOrIgnore ShareRow.key ⟨vault, share, epoch⟩ db.shares := rfl
  unfold Db.shareEpoch
  rw [hshares, Table.find_insertOrIgnore]
  split
  · rename_i hkey
    cases hfind : db.shares.find? (·.key = (v, i)) with
    | none => exact Or.inr ⟨Prod.mk.inj hkey, rfl, rfl⟩
    | some row => exact Or.inl rfl
  · exact Or.inl rfl

theorem shareEpoch_raise (db : Db) (vault : Wire) (share : Uuid) (epoch : Nat) (v : Wire) (i : Uuid) :
    ((Db.raiseShareEpoch vault share epoch).run db).2.shareEpoch v i = db.shareEpoch v i ∨
      (v = vault ∧ i = share) ∧
        ((Db.raiseShareEpoch vault share epoch).run db).2.shareEpoch v i = some (max (db.shareEpochOf v i) epoch) := by
  have hshares : ((Db.raiseShareEpoch vault share epoch).run db).2.shares =
    Table.upsert ShareRow.key ⟨vault, share, epoch⟩ (fun r => { r with epoch := max r.epoch epoch }) db.shares := rfl
  unfold Db.shareEpochOf Db.shareEpoch
  rw [hshares, Table.find_upsert (by exact fun _ => rfl)]
  split
  · rename_i hkey
    refine Or.inr ⟨Prod.mk.inj hkey, ?_⟩
    cases db.shares.find? (·.key = (v, i)) with
    | none => simp
    | some row => rfl
  · exact Or.inl rfl

theorem Statement.epoch (h : Statement now req past s t) (v : Wire) :
    t.epochOf v = s.epochOf v ∨
      ∃ r e, Rotates now req v r ∧ r.epoch = e + 1 ∧ s.epoch v = some e ∧ t.epoch v = some (e + 1) := by
  cases h with
  | insertVault => exact Or.inl (epoch_insertVault ..)
  | bumpEpoch hreq hc hr =>
    rename_i signed vault key r
    rcases epoch_bump s vault r.epoch v with hsame | ⟨rfl, e, he, hs, ht⟩
    · exact Or.inl (congrArg (·.getD 0) hsame)
    · exact Or.inr ⟨r, e, ⟨signed, key, hreq, hc.verified, hr⟩, he, hs, ht⟩
  | _ => exact Or.inl rfl

/-- What a statement does to the epoch of a share. -/
inductive ShareMove (now : Now) (req : Request) (v : Wire) (i : Uuid) (s t : Db) : Prop
  | stays (h : t.shareEpoch v i = s.shareEpoch v i)
  | advances {r : ShareRotateReq} {e : Nat} (hreq : RotatesShare now req v i r) (he : r.epoch = e + 1)
      (hs : s.shareEpoch v i = some e) (ht : t.shareEpoch v i = some (e + 1))
  | starts {r : ShareRotateReq} (hreq : RotatesShare now req v i r) (hs : s.shareEpoch v i = none)
      (ht : t.shareEpoch v i = some r.epoch)
  | raises {epoch : Nat} (hreq : Grants now req v i epoch) (ht : t.shareEpoch v i = some (max (s.shareEpochOf v i) epoch))

theorem Statement.shareMove (h : Statement now req past s t) (v : Wire) (i : Uuid) : ShareMove now req v i s t := by
  cases h with
  | raiseShareEpoch hreq hc hr hshare =>
    rename_i signed vault key r share
    rcases shareEpoch_raise s vault share r.epoch v i with hsame | ⟨⟨rfl, rfl⟩, ht⟩
    · exact .stays hsame
    · exact .raises ⟨signed, key, r, hreq, hc.verified, hr, hshare, rfl⟩ ht
  | bumpShareEpoch hreq hc hr hshare =>
    rename_i signed vault key r share
    rcases shareEpoch_bump s vault share r.epoch v i with hsame | ⟨⟨rfl, rfl⟩, e, he, hs, ht⟩
    · exact .stays hsame
    · exact .advances ⟨signed, key, hreq, hc.verified, hr, hshare⟩ he hs ht
  | insertShare hreq hc hr hshare =>
    rename_i signed vault key r share
    rcases shareEpoch_insert s vault share r.epoch v i with hsame | ⟨⟨rfl, rfl⟩, hs, ht⟩
    · exact .stays hsame
    · exact .starts ⟨signed, key, hreq, hc.verified, hr, hshare⟩ hs ht
  | _ => exact .stays rfl

/-- The vault has come to this epoch. -/
def Reached (v : Wire) (n : Nat) (db : Db) : Prop := n ≤ db.epochOf v

/-- The relay has an epoch for the share, this one or a later one. -/
def ReachedShare (v : Wire) (i : Uuid) (n : Nat) (db : Db) : Prop := ∃ e, db.shareEpoch v i = some e ∧ n ≤ e

theorem Statement.reached {v : Wire} {n : Nat} (h : Statement now req past s t) (hs : Reached v n s) : Reached v n t := by
  unfold Reached at hs ⊢
  rcases h.epoch v with hsame | ⟨r, e, -, -, he, he'⟩
  · rwa [hsame]
  · unfold Db.epochOf at hs ⊢
    rw [he] at hs
    rw [he']
    exact Nat.le_succ_of_le hs

theorem Statement.reachedShare {v : Wire} {i : Uuid} {n : Nat} (h : Statement now req past s t) (hs : ReachedShare v i n s) :
    ReachedShare v i n t := by
  obtain ⟨e, he, hn⟩ := hs
  cases h.shareMove v i with
  | stays hsame => exact ⟨e, hsame.trans he, hn⟩
  | advances hreq hr hs ht =>
    obtain rfl := Option.some.inj (he.symm.trans hs)
    exact ⟨_, ht, Nat.le_succ_of_le hn⟩
  | starts hreq hs ht => cases he.symm.trans hs
  | raises hreq ht =>
    have hepoch : s.shareEpochOf v i = e := by rw [Db.shareEpochOf, he, Option.getD_some]
    exact ⟨_, ht, hn.trans (hepoch ▸ le_max_left _ _)⟩

/-! ## How a rotation ends -/

/-- No statement so far has written an epoch. -/
def Unmoved (past : List (Db × Db)) : Prop := ∀ m ∈ past, m.2.vaults = m.1.vaults ∧ m.2.shares = m.1.shares

theorem still_nil : Unmoved [] := fun _ h => nomatch h

theorem Unmoved.cons (h : Unmoved past) (hv : t.vaults = s.vaults) (hs : t.shares = s.shares) : Unmoved ((s, t) :: past) :=
  List.forall_mem_cons.mpr ⟨⟨hv, hs⟩, h⟩

theorem authorize_still (signed : Signed) (refusal : String) :
    Traced (fun _ _ _ => True) (Ending (fun past a => verify now.verify signed = .ok a ∧ Unmoved past) Unmoved) []
      (authorize now signed refusal).run := by
  unfold authorize
  refine Traced.bindEnding (Traced.exceptEnding still_nil fun (vault, key) hv => ?_)
  refine Traced.bindEnding (Traced.liftEnding (p := Prog.atom fun db : Db => (db.canSync vault key, db))
    (Traced.atom (fun _ => trivial) fun db => ?_))
  have hstill := still_nil.cons (s := db) (t := db) rfl rfl
  split
  · exact hstill
  · exact ⟨hv, hstill⟩

theorem markSeen_still {sig : Text Sig} (h : Unmoved past) :
    Traced (fun _ _ _ => True) (Ending (fun past _ => Unmoved past) Unmoved) past (markSeen now.markSeen sig).run := by
  unfold markSeen
  refine Traced.bindEnding (Traced.exceptEnding h fun sig _ => ?_)
  refine Traced.bindEnding (Traced.liftEnding (Traced.atom (fun _ => trivial) fun db => ?_))
  refine Traced.liftEnding (Traced.atom (fun _ => trivial) fun db' => ?_)
  refine Unmoved.cons (Unmoved.cons h ?_ ?_) ?_ ?_ <;> rfl

/-- The endpoints that note the signature first. -/
theorem noted_ending {α β : Type} {signed : Signed} {refusal : String} {e : HttpError} {ofJson : Json Bytes → Option α}
    {apply : Wire → α → Handler β} {Q : List (Db × Db) → β → Prop} {E : List (Db × Db) → Prop}
    (hE : ∀ past, Unmoved past → E past)
    (h : ∀ past vault key r, verify now.verify signed = .ok (vault, key) → Reads ofJson signed.body r → Unmoved past →
      Traced (fun _ _ _ => True) (Ending Q E) past (apply vault r).run) :
    Traced (fun _ _ _ => True) (Ending Q E) [] (do
      let (vault, _) ← authorize now signed refusal
      if ¬ (← markSeen now.markSeen signed.sig) then throw e
      let r ← jsonBody ofJson signed.body
      apply vault r : Handler β).run := by
  refine Traced.bindEnding ((authorize_still signed refusal).imp (fun _ _ _ h => h) fun past a ha => ?_)
  cases a with
  | error e => exact hE past ha
  | ok a =>
    obtain ⟨hv, hstill⟩ := ha
    refine Traced.bindEnding ((markSeen_still hstill).imp (fun _ _ _ h => h) fun past b hb => ?_)
    cases b with
    | error e => exact hE past hb
    | ok b =>
      cases b with
      | false => exact hE past hb
      | true => exact Traced.bindEnding (Traced.exceptEnding (hE past hb) fun r hr => h past a.1 a.2 r hv (jsonBody_ok hr) hb)

theorem forEach_ending {β γ : Type} {decode : β → Except HttpError γ} {stmt : γ → Prog Db Nat} {l : List β}
    {P : List (Db × Db) → Prop} (hP : ∀ m past, P past → P (m :: past)) (h : P past) :
    Traced (fun _ _ _ => True) (Ending (fun past _ => P past) fun _ => ∃ b ∈ l, ∃ e, decode b = .error e) past
      (forEach decode stmt l).run := by
  induction l generalizing past with
  | nil => exact h
  | cons b l ih =>
    unfold forEach
    cases hdec : decode b with
    | error e => exact ⟨b, List.mem_cons_self, e, hdec⟩
    | ok c =>
      change Traced _ _ past (do
        let n ← stmt c
        let m ← forEach decode stmt l
        return n + m : Handler Nat).run
      refine Traced.bindEnding (Traced.liftEnding ((Traced.keeps hP h (stmt c)).imp (fun _ _ _ h => h) fun past n hn => ?_))
      refine Traced.bindEnding ((ih hn).imp (fun _ _ _ h => h) fun past r hr => ?_)
      cases r with
      | ok m => exact hr
      | error e =>
        obtain ⟨b', hb', hdec'⟩ := hr
        exact ⟨b', List.mem_cons_of_mem _ hb', hdec'⟩

/-- The UPDATE of this rotation has moved the vault. -/
def MovedVault (now : Now) (req : Request) (past : List (Db × Db)) : Prop :=
  ∃ vault r s, Rotates now req vault r ∧ (s, ((Db.bumpEpoch vault r.epoch).run s).2) ∈ past ∧
    ((Db.bumpEpoch vault r.epoch).run s).1 ≠ 0

/-- A statement of this rotation has moved the share. -/
def MovedShare (now : Now) (req : Request) (past : List (Db × Db)) : Prop :=
  ∃ vault share r s t, RotatesShare now req vault share r ∧ (s, t) ∈ past ∧ Advanced vault share r.epoch s.shares t.shares

theorem MovedVault.cons (m : Db × Db) (h : MovedVault now req past) : MovedVault now req (m :: past) := by
  obtain ⟨vault, r, s, hreq, hmem, hn⟩ := h
  exact ⟨vault, r, s, hreq, List.mem_cons_of_mem _ hmem, hn⟩

theorem MovedShare.cons (m : Db × Db) (h : MovedShare now req past) : MovedShare now req (m :: past) := by
  obtain ⟨vault, share, r, s, t, hreq, hmem, hn⟩ := h
  exact ⟨vault, share, r, s, t, hreq, List.mem_cons_of_mem _ hmem, hn⟩

/-- The request has a key in it that is not base64. -/
inductive Garbled (now : Now) (req : Request) : Prop
  | vault {vault : Wire} {r : RotateReq} (hreq : Rotates now req vault r)
      (h : ∃ w ∈ r.wrapped, ∃ e, decodeWrap w = .error e)
  | remove {vault : Wire} {share : Uuid} {r : ShareRotateReq} (hreq : RotatesShare now req vault share r)
      (h : ∃ pub ∈ r.remove, ∃ e, decodeRemoved pub = .error e)
  | share {vault : Wire} {share : Uuid} {r : ShareRotateReq} (hreq : RotatesShare now req vault share r)
      (h : ∃ w ∈ r.wrapped, ∃ e, decodeWrap w = .error e)

theorem head_ending {P E : List (Db × Db) → Prop} (hP : ∀ m past, P past → P (m :: past)) (h : P past) (vault : Wire) (n : Nat) :
    Traced (fun _ _ _ => True) (Ending (fun past _ => P past) E) past (do
      let head ← Db.selectHead vault
      return ⟨head, n⟩ : Handler PushResp).run :=
  Traced.bindEnding (Traced.liftEnding (Traced.atom (fun _ => trivial) fun _ => hP _ _ h))

/-- A rotation that is accepted has moved the vault. One that is refused has written no epoch, or is garbled. -/
theorem rotate_ending (signed : Signed) :
    Traced (fun _ _ _ => True) (Ending (fun past _ => MovedVault now (.post .rotate signed) past)
      fun past => Unmoved past ∨ Garbled now (.post .rotate signed)) [] (rotate now signed).run := by
  refine noted_ending (fun past h => Or.inl h) fun past vault key r hv hr hstill => ?_
  have hreq : Rotates now (.post .rotate signed) vault r := ⟨signed, key, rfl, hv, hr⟩
  unfold applyRotate
  refine Traced.bindEnding (Traced.liftEnding (Traced.atom (fun _ => trivial) fun db => ?_))
  split
  · rename_i hnone
    exact Or.inl (hstill.cons (Table.update_of_unaffected hnone) rfl)
  rename_i hsome
  have hmoved : MovedVault now (.post .rotate signed) ((db, ((Db.bumpEpoch vault r.epoch).run db).2) :: past) :=
    ⟨vault, r, db, hreq, List.mem_cons_self, hsome⟩
  refine Traced.bindEnding ((forEach_ending (fun m _ h => h.cons m) hmoved).imp (fun _ _ _ h => h) fun past n hn => ?_)
  cases n with
  | error e => exact Or.inr (.vault hreq hn)
  | ok n =>
    exact head_ending (P := MovedVault now (.post .rotate signed)) (fun m _ h => h.cons m) hn vault 0

theorem shareRotate_rest {E : List (Db × Db) → Prop} {r : ShareRotateReq} {vault : Wire} {share : Uuid}
    (hreq : RotatesShare now req vault share r) (hE : ∀ past, Garbled now req → E past) (hmoved : MovedShare now req past) :
    Traced (fun _ _ _ => True) (Ending (fun past _ => MovedShare now req past) E) past (do
      let _ ← forEach decodeRemoved (Db.deleteMember vault share) r.remove
      let _ ← forEach decodeWrap (fun w => Db.rewrapMember vault share w.1 w.2) r.wrapped
      let head ← Db.selectHead vault
      return ⟨head, 0⟩ : Handler PushResp).run := by
  refine Traced.bindEnding ((forEach_ending (fun m _ h => h.cons m) hmoved).imp (fun _ _ _ h => h) fun past n hn => ?_)
  cases n with
  | error e => exact hE past (.remove hreq hn)
  | ok n =>
    have hmoved : MovedShare now req past := hn
    refine Traced.bindEnding ((forEach_ending (fun m _ h => h.cons m) hmoved).imp (fun _ _ _ h => h) fun past n hn => ?_)
    cases n with
    | error e => exact hE past (.share hreq hn)
    | ok n => exact head_ending (P := MovedShare now req) (fun m _ h => h.cons m) hn vault 0

theorem shareRotate_ending (signed : Signed) :
    Traced (fun _ _ _ => True) (Ending (fun past _ => MovedShare now (.post .shareRotate signed) past)
      fun past => Unmoved past ∨ Garbled now (.post .shareRotate signed)) [] (shareRotate now signed).run := by
  refine noted_ending (fun past h => Or.inl h) fun past vault key r hv hr hstill => ?_
  unfold applyShareRotate decodeShare
  refine Traced.bindEnding (Traced.exceptEnding (Or.inl hstill) fun share hs => ?_)
  have hreq : RotatesShare now (.post .shareRotate signed) vault share r := ⟨signed, key, rfl, hv, hr, orReject_ok hs⟩
  have hrest : ∀ past, MovedShare now (.post .shareRotate signed) past → _ := fun past hmoved =>
    shareRotate_rest (E := fun past => Unmoved past ∨ Garbled now (.post .shareRotate signed)) hreq
      (fun _ h => Or.inr h) hmoved
  unfold advanceShare
  refine Traced.bindEnding (Traced.bindEnding (Traced.liftEnding (Traced.atom (fun _ => trivial) fun atBump => ?_)))
  split
  · rename_i hnone
    refine Traced.bindEnding (Traced.liftEnding (Traced.atom (fun _ => trivial) fun atInsert => ?_))
    have hbump := hstill.cons (s := atBump) (t := ((Db.bumpShareEpoch vault share r.epoch).run atBump).2) rfl
      (Table.update_of_unaffected hnone)
    split
    · rename_i hold
      have hrow : ∃ row ∈ atInsert.shares, row.key = (vault, share) := by simpa using hold
      exact Or.inl (hbump.cons (s := atInsert) (t := ((Db.insertShare vault share r.epoch).run atInsert).2) rfl
        (Table.insertOrIgnore_eq_self.mpr hrow))
    · rename_i hnew
      have hfresh : ∀ row ∈ atInsert.shares, row.key ≠ (vault, share) := by simpa using hnew
      exact hrest _ ⟨vault, share, r, atInsert, _, hreq, List.mem_cons_self, Or.inr ⟨hfresh, rfl⟩⟩
  · rename_i hsome
    have hrow : ∃ row ∈ atBump.shares, row.key = (vault, share) ∧ row.epoch + 1 = r.epoch := by
      simpa [Table.affected_eq_zero] using hsome
    exact hrest _ ⟨vault, share, r, atBump, _, hreq, List.mem_cons_self, Or.inl ⟨hrow, rfl⟩⟩

theorem epoch_bumped {db : Db} {vault : Wire} {epoch : Nat} (hdb : Keyed db) (h : ((Db.bumpEpoch vault epoch).run db).1 ≠ 0) :
    ∃ e, epoch = e + 1 ∧ db.epoch vault = some e ∧ ((Db.bumpEpoch vault epoch).run db).2.epoch vault = some (e + 1) := by
  obtain ⟨row, hrow, hid, hnext⟩ : ∃ row ∈ db.vaults, row.vaultId = vault ∧ row.epoch + 1 = epoch := by
    have hsome : ¬ Table.affected (fun r : VaultRow => r.vaultId = vault ∧ r.epoch + 1 = epoch) db.vaults = 0 := h
    simpa [Table.affected_eq_zero] using hsome
  have hvaults : ((Db.bumpEpoch vault epoch).run db).2.vaults =
    Table.update (fun r => r.vaultId = vault ∧ r.epoch + 1 = epoch) (fun r => { r with epoch }) db.vaults := rfl
  have hfind : db.vaults.find? (·.vaultId = vault) = some row := hid ▸ Table.find_of_nodup hdb.vaults hrow
  refine ⟨row.epoch, hnext.symm, by rw [Db.epoch, hfind, Option.map_some], ?_⟩
  rw [Db.epoch, hvaults, Table.find_update (by exact fun _ => rfl), hfind, Option.map_some, Option.map_some,
    if_pos (by simp [hid, hnext]), hnext]

theorem Advanced.shareEpoch {epoch : Nat} (h : Advanced vault share epoch s.shares t.shares) (hs : Keyed s) :
    t.shareEpoch vault share = some epoch ∧
      ((∃ e, epoch = e + 1 ∧ s.shareEpoch vault share = some e) ∨ s.shareEpoch vault share = none) := by
  unfold Db.shareEpoch
  rcases h with ⟨⟨row, hrow, hkey, hnext⟩, ht⟩ | ⟨hfresh, ht⟩
  · have hfind : s.shares.find? (·.key = (vault, share)) = some row := hkey ▸ Table.find_of_nodup hs.shares hrow
    rw [ht, Table.find_update (by exact fun _ => rfl), hfind]
    refine ⟨?_, Or.inl ⟨row.epoch, hnext.symm, rfl⟩⟩
    rw [Option.map_some, Option.map_some, if_pos (by simp [hkey, hnext])]
  · have hnone : s.shares.find? (·.key = (vault, share)) = none :=
      Table.find_eq_none_of_new fun ⟨row, hrow, hkey⟩ => hfresh row hrow hkey
    rw [ht, Table.find_insertOrIgnore, hnone]
    have hkey : (vault, share) = ShareRow.key ⟨vault, share, epoch⟩ := rfl
    rw [if_pos hkey]
    exact ⟨rfl, Or.inr rfl⟩

end

/-! ## Runs -/

section

variable {ι : Type} [DecidableEq ι] {now : ι → Now} {req : ι → Request} {c₀ c : Handlers ι} {h : List (ι × Db × Db)}

def AnsweredOk (c : Handlers ι) (i : ι) : Prop := ∃ reply, c.thread i = .done (.ok reply)

theorem Serving.keyed (hserving : Serving now req c₀) (hkeyed : Keyed c₀.state) (hrun : Pool.Trace c₀ h c) {i : ι} {s t : Db}
    (hmem : (i, s, t) ∈ h) : Keyed s := by
  have hall : Keyed c.state ∧ ∀ x ∈ h, Keyed x.2.1 := by
    refine hrun.keeps (P := fun h db => Keyed db ∧ ∀ x ∈ h, Keyed x.2.1) hserving.traced ⟨hkeyed, fun _ h => nomatch h⟩ ?_
    intro h s s' i ⟨hs, hall⟩ hstep
    exact ⟨hstep.keyed hs, List.forall_mem_cons.mpr ⟨hs, hall⟩⟩
  exact hall.2 _ hmem

theorem Serving.ending (hserving : Serving now req c₀) (hrun : Pool.Trace c₀ h c) {i : ι} {α : Type} {handler : Handler α}
    {reply : α → Reply} {Q E : List (Db × Db) → Prop} (hroute : route (now i) (req i) = do return reply (← handler))
    (hend : Traced (fun _ _ _ => True) (Ending (fun past _ => Q past) E) [] handler.run) {res : Except HttpError Reply}
    (hdone : c.thread i = .done res) : Ending (fun past _ => Q past) E (Pool.own i h) res := by
  refine hrun.answer (S := fun _ _ _ => True) (i := i) ?_ hdone
  rw [hserving i, hroute]
  refine Traced.bindEnding (hend.imp (fun _ _ _ h => h) fun past r hr => ?_)
  cases r <;> exact hr

theorem Serving.rotate_answer (hserving : Serving now req c₀) (hrun : Pool.Trace c₀ h c) {i : ι} {vault : Wire} {r : RotateReq}
    (hreq : Rotates (now i) (req i) vault r) {res : Except HttpError Reply} (hdone : c.thread i = .done res) :
    Ending (fun past _ => MovedVault (now i) (req i) past) (fun past => Unmoved past ∨ Garbled (now i) (req i)) (Pool.own i h) res := by
  obtain ⟨signed, key, hpost, -⟩ := hreq
  rw [hpost]
  exact hserving.ending hrun (congrArg (route (now i)) hpost) (rotate_ending signed) hdone

theorem Serving.shareRotate_answer (hserving : Serving now req c₀) (hrun : Pool.Trace c₀ h c) {i : ι} {vault : Wire} {share : Uuid}
    {r : ShareRotateReq} (hreq : RotatesShare (now i) (req i) vault share r) {res : Except HttpError Reply}
    (hdone : c.thread i = .done res) :
    Ending (fun past _ => MovedShare (now i) (req i) past) (fun past => Unmoved past ∨ Garbled (now i) (req i)) (Pool.own i h) res := by
  obtain ⟨signed, key, hpost, -⟩ := hreq
  rw [hpost]
  exact hserving.ending hrun (congrArg (route (now i)) hpost) (shareRotate_ending signed) hdone

theorem Serving.rotated (hserving : Serving now req c₀) (hkeyed : Keyed c₀.state) (hrun : Pool.Trace c₀ h c) {i : ι} {vault : Wire}
    {r : RotateReq} (hreq : Rotates (now i) (req i) vault r) (hacc : AnsweredOk c i) :
    ∃ s t e, (i, s, t) ∈ h ∧ r.epoch = e + 1 ∧ s.epoch vault = some e ∧ t.epoch vault = some (e + 1) := by
  obtain ⟨reply, hdone⟩ := hacc
  obtain ⟨vault', r', s, hreq', hmem, hn⟩ := hserving.rotate_answer hrun hreq hdone
  obtain ⟨rfl, rfl⟩ := hreq.eq hreq'
  have hstep := Pool.mem_own.mp hmem
  obtain ⟨e, he, hs, ht⟩ := epoch_bumped (hserving.keyed hkeyed hrun hstep) hn
  exact ⟨s, _, e, hstep, he, hs, ht⟩

theorem Serving.shareRotated (hserving : Serving now req c₀) (hkeyed : Keyed c₀.state) (hrun : Pool.Trace c₀ h c) {i : ι}
    {vault : Wire} {share : Uuid} {r : ShareRotateReq} (hreq : RotatesShare (now i) (req i) vault share r) (hacc : AnsweredOk c i) :
    ∃ s t, (i, s, t) ∈ h ∧ t.shareEpoch vault share = some r.epoch ∧
      ((∃ e, r.epoch = e + 1 ∧ s.shareEpoch vault share = some e) ∨ s.shareEpoch vault share = none) := by
  obtain ⟨reply, hdone⟩ := hacc
  obtain ⟨vault', share', r', s, t, hreq', hmem, hadv⟩ := hserving.shareRotate_answer hrun hreq hdone
  obtain ⟨⟨rfl, rfl⟩, rfl⟩ := hreq.eq hreq'
  have hstep := Pool.mem_own.mp hmem
  obtain ⟨ht, hs⟩ := hadv.shareEpoch (hserving.keyed hkeyed hrun hstep)
  exact ⟨s, t, hstep, ht, hs⟩

/-- What a share rotation inserts, it inserts at epoch 1. -/
def StartsAtOne (now : ι → Now) (req : ι → Request) (h : List (ι × Db × Db)) : Prop :=
  ∀ i s t vault share r, (i, s, t) ∈ h → RotatesShare (now i) (req i) vault share r → s.shareEpoch vault share = none →
    t.shareEpoch vault share ≠ none → r.epoch = 1

/-- A grant names no epoch that the relay has not come to. -/
def Honest (now : ι → Now) (req : ι → Request) (h : List (ι × Db × Db)) : Prop :=
  ∀ i s t vault share n, (i, s, t) ∈ h → Grants (now i) (req i) vault share n → n ≤ s.shareEpochOf vault share

/-- Each rotation takes its vault or share one epoch on, no two of them take the same step, and no epoch is left out:
the handler that came to it has accepted, has not answered yet, or has found a key that is not base64. -/
structure OneAtATime (now : ι → Now) (req : ι → Request) (c₀ c : Handlers ι) (h : List (ι × Db × Db)) : Prop where
  rotate : ∀ i vault r, Rotates (now i) (req i) vault r → AnsweredOk c i →
    ∃ s t e, (i, s, t) ∈ h ∧ r.epoch = e + 1 ∧ s.epoch vault = some e ∧ t.epoch vault = some (e + 1)
  shareRotate : ∀ i vault share r, RotatesShare (now i) (req i) vault share r → AnsweredOk c i →
    ∃ s t, (i, s, t) ∈ h ∧ r.epoch = s.shareEpochOf vault share + 1 ∧ t.shareEpoch vault share = some r.epoch
  distinct : ∀ i j vault r r', i ≠ j → Rotates (now i) (req i) vault r → Rotates (now j) (req j) vault r' →
    AnsweredOk c i → AnsweredOk c j → r.epoch ≠ r'.epoch
  shareDistinct : ∀ i j vault share r r', i ≠ j → RotatesShare (now i) (req i) vault share r →
    RotatesShare (now j) (req j) vault share r' → AnsweredOk c i → AnsweredOk c j → r.epoch ≠ r'.epoch
  noneSkipped : ∀ vault n, c₀.state.epochOf vault < n → n ≤ c.state.epochOf vault →
    ∃ i r, Rotates (now i) (req i) vault r ∧ r.epoch = n ∧ ∀ e, c.thread i = .done (.error e) → Garbled (now i) (req i)
  noneSkippedShare : ∀ vault share n, c₀.state.shareEpochOf vault share < n → n ≤ c.state.shareEpochOf vault share →
    ∃ i r, RotatesShare (now i) (req i) vault share r ∧ r.epoch = n ∧
      ∀ e, c.thread i = .done (.error e) → Garbled (now i) (req i)

theorem epochOf_some {db : Db} {v : Wire} {e : Nat} (h : db.epoch v = some e) : db.epochOf v = e := by
  rw [Db.epochOf, h, Option.getD_some]

theorem shareEpochOf_some {db : Db} {v : Wire} {i : Uuid} {e : Nat} (h : db.shareEpoch v i = some e) :
    db.shareEpochOf v i = e := by
  rw [Db.shareEpochOf, h, Option.getD_some]

theorem shareEpochOf_none {db : Db} {v : Wire} {i : Uuid} (h : db.shareEpoch v i = none) : db.shareEpochOf v i = 0 := by
  rw [Db.shareEpochOf, h, Option.getD_none]

theorem Serving.distinct (hserving : Serving now req c₀) (hkeyed : Keyed c₀.state) (hrun : Pool.Trace c₀ h c) {i j : ι}
    {vault : Wire} {r r' : RotateReq} (hi : Rotates (now i) (req i) vault r) (hj : Rotates (now j) (req j) vault r')
    (hacc : AnsweredOk c i) (hacc' : AnsweredOk c j) (heq : r.epoch = r'.epoch) : i = j := by
  obtain ⟨s, t, e, hmem, he, hs, ht⟩ := hserving.rotated hkeyed hrun hi hacc
  obtain ⟨s', t', e', hmem', he', hs', ht'⟩ := hserving.rotated hkeyed hrun hj hacc'
  obtain rfl : e = e' := by omega
  have hbefore : ∀ {db : Db}, db.epoch vault = some e → ¬ Reached vault (e + 1) db := by
    intro db hdb hle
    rw [Reached, epochOf_some hdb] at hle
    omega
  have hafter : ∀ {db : Db}, db.epoch vault = some (e + 1) → Reached vault (e + 1) db := by
    intro db hdb
    rw [Reached, epochOf_some hdb]
  exact congrArg Prod.fst (hrun.once hserving.traced (fun _ _ _ _ h => h.reached) hmem hmem' (hbefore hs) (hafter ht)
    (hbefore hs') (hafter ht'))

theorem Serving.shareDistinct (hserving : Serving now req c₀) (hkeyed : Keyed c₀.state) (hrun : Pool.Trace c₀ h c) {i j : ι}
    {vault : Wire} {share : Uuid} {r r' : ShareRotateReq} (hi : RotatesShare (now i) (req i) vault share r)
    (hj : RotatesShare (now j) (req j) vault share r') (hacc : AnsweredOk c i) (hacc' : AnsweredOk c j)
    (heq : r.epoch = r'.epoch) : i = j := by
  obtain ⟨s, t, hmem, ht, hs⟩ := hserving.shareRotated hkeyed hrun hi hacc
  obtain ⟨s', t', hmem', ht', hs'⟩ := hserving.shareRotated hkeyed hrun hj hacc'
  have hbefore : ∀ {db : Db}, ((∃ e, r.epoch = e + 1 ∧ db.shareEpoch vault share = some e) ∨ db.shareEpoch vault share = none) →
      ¬ ReachedShare vault share r.epoch db := by
    rintro db (⟨e, he, hdb⟩ | hdb) ⟨e', he', hle⟩
    · have := Option.some.inj (hdb.symm.trans he')
      omega
    · cases hdb.symm.trans he'
  have hafter : ∀ {db : Db}, db.shareEpoch vault share = some r.epoch → ReachedShare vault share r.epoch db :=
    fun hdb => ⟨_, hdb, le_rfl⟩
  rw [← heq] at ht' hs'
  exact congrArg Prod.fst (hrun.once hserving.traced (fun _ _ _ _ h => h.reachedShare) hmem hmem' (hbefore hs) (hafter ht)
    (hbefore hs') (hafter ht'))

theorem Serving.noneSkipped (hserving : Serving now req c₀) (hrun : Pool.Trace c₀ h c) {vault : Wire} {n : Nat}
    (hlt : c₀.state.epochOf vault < n) (hle : n ≤ c.state.epochOf vault) :
    ∃ i r, Rotates (now i) (req i) vault r ∧ r.epoch = n ∧ ∀ e, c.thread i = .done (.error e) → Garbled (now i) (req i) := by
  obtain ⟨i, s, t, hmem, hs, ht⟩ := hrun.turns (p := Reached vault n) (Nat.not_le.mpr hlt) hle
  obtain ⟨h', -, hstep⟩ := hrun.step_of_mem hserving.traced hmem
  unfold Reached at hs ht
  rcases hstep.epoch vault with hsame | ⟨r, e, hreq, he, hse, hte⟩
  · rw [hsame] at ht
    exact absurd ht hs
  rw [epochOf_some hse] at hs
  rw [epochOf_some hte] at ht
  refine ⟨i, r, hreq, by omega, fun err hdone => ?_⟩
  rcases hserving.rotate_answer hrun hreq hdone with hstill | hgarbled
  · have hsame := (hstill (s, t) (Pool.mem_own.mpr hmem)).1
    have hepoch : t.epoch vault = s.epoch vault := by rw [Db.epoch, Db.epoch, hsame]
    rw [hse, hte] at hepoch
    have := Option.some.inj hepoch
    omega
  · exact hgarbled

theorem Serving.noneSkippedShare (hserving : Serving now req c₀) (hrun : Pool.Trace c₀ h c) (hstarts : StartsAtOne now req h)
    (hhonest : Honest now req h) {vault : Wire} {share : Uuid} {n : Nat} (hlt : c₀.state.shareEpochOf vault share < n)
    (hle : n ≤ c.state.shareEpochOf vault share) :
    ∃ i r, RotatesShare (now i) (req i) vault share r ∧ r.epoch = n ∧
      ∀ e, c.thread i = .done (.error e) → Garbled (now i) (req i) := by
  -- The step that takes the epoch to `n` or past it, and the handler whose step it is.
  obtain ⟨i, s, t, hmem, hs, ht⟩ := hrun.turns (p := fun db : Db => n ≤ db.shareEpochOf vault share) (Nat.not_le.mpr hlt) hle
  obtain ⟨h', -, hstep⟩ := hrun.step_of_mem hserving.traced hmem
  have hanswer : ∀ r, RotatesShare (now i) (req i) vault share r → t.shareEpoch vault share ≠ s.shareEpoch vault share →
      ∀ e, c.thread i = .done (.error e) → Garbled (now i) (req i) := by
    intro r hreq hne e hdone
    rcases hserving.shareRotate_answer hrun hreq hdone with hstill | hgarbled
    · have hsame := (hstill (s, t) (Pool.mem_own.mpr hmem)).2
      exact absurd (by rw [Db.shareEpoch, Db.shareEpoch, hsame]) hne
    · exact hgarbled
  cases hstep.shareMove vault share with
  | stays hsame =>
    rw [Db.shareEpochOf, hsame] at ht
    exact absurd ht hs
  | @advances r e hreq he hse hte =>
    rw [shareEpochOf_some hse] at hs
    rw [shareEpochOf_some hte] at ht
    exact ⟨i, r, hreq, by omega, hanswer r hreq (by simp [hse, hte])⟩
  | @starts r hreq hse hte =>
    have hone := hstarts i s t vault share r hmem hreq hse (by simp [hte])
    rw [shareEpochOf_none hse] at hs
    rw [shareEpochOf_some hte] at ht
    exact ⟨i, r, hreq, by omega, hanswer r hreq (by simp [hse, hte])⟩
  | @raises epoch hreq hte =>
    have hknown := hhonest i s t vault share epoch hmem hreq
    rw [shareEpochOf_some hte, max_eq_left hknown] at ht
    exact absurd ht hs

/-- **Epochs.** In every run, an accepted share rotation names the epoch after the one it finds if and only if the
relay has an epoch for the share or the rotation names epoch 1. If that holds of all of them and the grants are
honest, epochs advance one at a time. -/
theorem epochs_advance (hserving : Serving now req c₀) (hkeyed : Keyed c₀.state) (hrun : Pool.Trace c₀ h c) :
    (∀ i vault share r, RotatesShare (now i) (req i) vault share r → AnsweredOk c i →
      ∃ s t, (i, s, t) ∈ h ∧ t.shareEpoch vault share = some r.epoch ∧
        (r.epoch = s.shareEpochOf vault share + 1 ↔ s.shareEpoch vault share ≠ none ∨ r.epoch = 1)) ∧
    (StartsAtOne now req h → Honest now req h → OneAtATime now req c₀ c h) := by
  refine ⟨fun i vault share r hreq hacc => ?_, fun hstarts hhonest => ?_⟩
  · obtain ⟨s, t, hmem, ht, hs⟩ := hserving.shareRotated hkeyed hrun hreq hacc
    refine ⟨s, t, hmem, ht, ?_⟩
    rcases hs with ⟨e, he, hs⟩ | hs
    · simp [shareEpochOf_some hs, he, hs]
    · simp [shareEpochOf_none hs, hs]
  · refine ⟨fun i vault r hreq hacc => ?_, fun i vault share r hreq hacc => ?_, ?_, ?_, ?_, ?_⟩
    · obtain ⟨s, t, e, hmem, he, hs, ht⟩ := hserving.rotated hkeyed hrun hreq hacc
      exact ⟨s, t, e, hmem, he, hs, ht⟩
    · obtain ⟨s, t, hmem, ht, hs⟩ := hserving.shareRotated hkeyed hrun hreq hacc
      refine ⟨s, t, hmem, ?_, ht⟩
      rcases hs with ⟨e, he, hs⟩ | hs
      · rw [shareEpochOf_some hs, he]
      · rw [shareEpochOf_none hs, hstarts i s t vault share r hmem hreq hs (by simp [ht])]
    · exact fun i j vault r r' hne hi hj hacc hacc' heq => hne (hserving.distinct hkeyed hrun hi hj hacc hacc' heq)
    · exact fun i j vault share r r' hne hi hj hacc hacc' heq =>
        hne (hserving.shareDistinct hkeyed hrun hi hj hacc hacc' heq)
    · exact fun vault n hlt hle => hserving.noneSkipped hrun hlt hle
    · exact fun vault share n hlt hle => hserving.noneSkippedShare hrun hstarts hhonest hlt hle

end

/-! ## A share without an epoch -/

namespace UnseenShare

def vault : Wire := .plain "v"

def share : Wire := .b64 (.uuid 5)

def db : Db :=
  { vaults := [⟨vault, .other 0, 0⟩]
    devices := [⟨vault, .ed (.device 1), .x 1, .plain "laptop", true, false, none⟩,
      ⟨vault, .ed (.device 2), .x 2, .plain "phone", true, false, none⟩] }

/-- Device `n` rotates a share to this epoch, for no members. -/
def rotation (n : Nat) (epoch : U32) : Request :=
  .post .shareRotate (envelope vault (.device n) 1000 (.json (ShareRotateReq.toJson ⟨share, epoch, [], []⟩)))

variable {ι : Type} (device : ι → Nat) (epoch : U32)

def start : Handlers ι := ⟨fun i => (route 1000 (rotation (device i) epoch)).run, db⟩

theorem keyed : Keyed db := ⟨by decide, by decide⟩

theorem rotates (n : Nat) : RotatesShare 1000 (rotation n epoch) vault 5 ⟨share, epoch, [], []⟩ := by
  refine ⟨_, .device n, rfl, ?_, ⟨_, rfl, shareRotate_decode share epoch [] []⟩, rfl⟩
  have hwindow : inWindow (Now.verify 1000) 1000 = true := by decide
  simp [verify, envelope, hwindow, Text.decodeEd, Text.decode, Text.signature]

theorem serving : Serving (fun _ : ι => 1000) (fun i => rotation (device i) epoch) (start device epoch) := fun _ => rfl

theorem honest (h : List (ι × Db × Db)) : Honest (fun _ => 1000) (fun i => rotation (device i) epoch) h := by
  rintro i s t vault share n hmem ⟨signed, key, r, hreq, -⟩
  cases hreq

def pair : Bool → Nat
  | false => 1
  | true => 2

/-- Two devices rotate to epoch 1 at the same time: check, forget, note, update, insert, and a head for the first. -/
def raced : Handlers Bool :=
  (start pair 1).play [false, true, true, false, true, false, false, true, false, true, false]

theorem epochs_advance_raced : ∃ h, Pool.Trace (start pair 1) h raced ∧ raced.state.shareEpochOf vault 5 = 1 ∧
    OneAtATime (fun _ => 1000) (fun i => rotation (pair i) 1) (start pair 1) raced h := by
  obtain ⟨h, hrun⟩ := Pool.Trace.play (@Pool.Trace.start _ _ _ _ (start pair 1))
    [false, true, true, false, true, false, false, true, false, true, false]
  refine ⟨h, hrun, by decide +kernel, (epochs_advance (serving pair 1) keyed hrun).2 ?_ (honest pair 1 h)⟩
  intro i s t vault share r hmem hreq hs ht
  obtain ⟨-, rfl⟩ := hreq.eq (rotates 1 (pair i))
  rfl

def done (epoch : U32) : Handlers Unit := (start (fun _ => 1) epoch).play [(), (), (), (), (), ()]

/-- To epoch 5 it is accepted as well. -/
theorem first_epoch_any :
    ¬ ∀ (req : Unit → Request) (c₀ c : Handlers Unit) (h : List (Unit × Db × Db)), Serving (fun _ => 1000) req c₀ →
      Keyed c₀.state → Pool.Trace c₀ h c → Honest (fun _ => 1000) req h → OneAtATime (fun _ => 1000) req c₀ c h := by
  intro hall
  obtain ⟨h, hrun⟩ := Pool.Trace.play (@Pool.Trace.start _ _ _ _ (start (fun _ : Unit => 1) 5)) [(), (), (), (), (), ()]
  have hone := hall (fun _ => rotation 1 5) (start (fun _ => 1) 5) (done 5) h (serving _ 5) keyed hrun (honest _ 5 h)
  have hend : (done 5).state.shareEpochOf vault 5 = 5 := by decide +kernel
  obtain ⟨i, r, hreq, hr, -⟩ := hone.noneSkippedShare vault 5 1 (by decide +kernel) (by rw [hend]; decide)
  obtain ⟨-, rfl⟩ := hreq.eq (rotates 5 1)
  exact absurd hr (by decide)

end UnseenShare

end SshVault.Relay
