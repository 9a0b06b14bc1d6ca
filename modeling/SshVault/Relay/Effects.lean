import SshVault.Relay.Specs

/-!
# What a request can do

Every request leaves the tables alone, or does one of the things listed in `Effect`.
-/

open Lib Prog

namespace SshVault.Relay

/-- The body is JSON, and the handler's own decoder reads this from it. -/
def Reads {α : Type} (ofJson : Json Bytes → Option α) (body : Body) (r : α) : Prop :=
  ∃ j, body = .json j ∧ ofJson j = some r

/-- A signed request from a device that may sync. -/
structure Acts (now : Now) (db : Db) (signed : Signed) (vault : Wire) (key : EdKey) : Prop where
  verified : verify now.verify signed = .ok (vault, key)
  canSync : db.canSync vault key = true

/-- The database after `enroll`. -/
def enrolled (db : Db) (vault : Wire) (key : EdKey) (x recovery : Bytes) (name : Wire) : Db :=
  let (fresh, db) := (Db.insertVault vault recovery).run db
  ((Db.enrollDevice vault (.ed key) x name fresh).run db).2

inductive Effect (now : Now) (db : Db) : Request → Db → Prop
  | same {req : Request} {db' : Db} (h : SameTables db db') : Effect now db req db'
  | enroll {signed : Signed} {vault : Wire} {key : EdKey} {r : EnrollReq} {x recovery : Bytes}
      (hv : verify now.verify signed = .ok (vault, key)) (hr : Reads EnrollReq.ofJson signed.body r)
      (hself : r.ed25519Pub = signed.devicePub) (hrevoked : (db.device vault (.ed key)).map (·.revoked) ≠ some true)
      (hx : r.x25519Pub.decode = some x) (hrec : r.recoveryPub.decode = some recovery) :
    Effect now db (.post .enroll signed) (enrolled db vault key x recovery r.deviceName)
  | approve {signed : Signed} {vault : Wire} {key : EdKey} {r : ApproveReq} {target wrapped : Bytes}
      (ha : Acts now db signed vault key) (hr : Reads ApproveReq.ofJson signed.body r)
      (ht : r.targetPub.decode = some target) (hw : r.wrappedKey.decode = some wrapped) :
    Effect now db (.post .approve signed) ((Db.approveDevice vault target wrapped).run db).2
  | revoke {signed : Signed} {vault : Wire} {key : EdKey} {r : RevokeReq} {target : Bytes}
      (ha : Acts now db signed vault key) (hr : Reads RevokeReq.ofJson signed.body r)
      (ht : r.targetPub.decode = some target) :
    Effect now db (.post .revoke signed) ((Db.revokeDevice vault target).run db).2
  | rotate {signed : Signed} {vault : Wire} {key : EdKey} {r : RotateReq} {seen : List SeenSig}
      {ran : List (Bytes × Bytes)} (ha : Acts now db signed vault key) (hr : Reads RotateReq.ofJson signed.body r)
      (hnext : ∃ v ∈ db.vaults, v.vaultId = vault ∧ v.epoch + 1 = r.epoch)
      (hran : ∀ c ∈ ran, ∃ w ∈ r.wrapped, decodeWrap w = .ok c)
      (hall : (∀ w ∈ r.wrapped, ∃ c, decodeWrap w = .ok c) → r.wrapped.mapM decodeWrap = .ok ran) :
    Effect now db (.post .rotate signed) (runAll (fun w => Db.rewrapDevice vault w.1 w.2) ran
      ((Db.bumpEpoch vault r.epoch).run { db with seenSigs := seen }).2)
  | shareGrant {signed : Signed} {vault : Wire} {key : EdKey} {r : ShareGrantReq} {share : Uuid}
      {ran : List (Bytes × Bytes)} (ha : Acts now db signed vault key) (hr : Reads ShareGrantReq.ofJson signed.body r)
      (hs : r.shareId.decode16 = some share) (hran : ∀ c ∈ ran, ∃ w ∈ r.wrapped, decodeWrap w = .ok c)
      (hall : (∀ w ∈ r.wrapped, ∃ c, decodeWrap w = .ok c) → r.wrapped.mapM decodeWrap = .ok ran) :
    Effect now db (.post .shareGrant signed) (runAll (fun w => Db.upsertMember vault share w.1 w.2) ran
      ((Db.raiseShareEpoch vault share r.epoch).run db).2)
  | shareRotate {signed : Signed} {vault : Wire} {key : EdKey} {r : ShareRotateReq} {share : Uuid}
      {seen : List SeenSig} {moved : List ShareRow} {gone : List Bytes} {ran : List (Bytes × Bytes)}
      (ha : Acts now db signed vault key) (hr : Reads ShareRotateReq.ofJson signed.body r)
      (hs : r.shareId.decode16 = some share) (hmoved : Advanced vault share r.epoch db.shares moved)
      (hgone : ∀ c ∈ gone, ∃ t ∈ r.remove, decodeRemoved t = .ok c)
      (hran : ∀ c ∈ ran, ∃ w ∈ r.wrapped, decodeWrap w = .ok c)
      (hall : (∀ t ∈ r.remove, ∃ c, decodeRemoved t = .ok c) → r.remove.mapM decodeRemoved = .ok gone ∧
        ((∀ w ∈ r.wrapped, ∃ c, decodeWrap w = .ok c) → r.wrapped.mapM decodeWrap = .ok ran)) :
    Effect now db (.post .shareRotate signed) (runAll (fun w => Db.rewrapMember vault share w.1 w.2) ran
      (runAll (Db.deleteMember vault share) gone { db with seenSigs := seen, shares := moved }))
  | push {signed : Signed} {vault : Wire} {key : EdKey} {r : PushReq} {ran : List (Bytes × Bytes × Uuid)}
      (ha : Acts now db signed vault key) (hr : Reads PushReq.ofJson signed.body r)
      (hran : ∀ c ∈ ran, ∃ e ∈ r.entries, decodeEntry e = .ok c) :
    Effect now db (.post .push signed) (runAll (fun e => Db.insertEntry vault e.1 e.2.1 e.2.2) ran db)
  | recover {req : RecoverReq} {recovery ed : EdKey} {vault : Wire} {x : Bytes}
      (hrec : req.recoveryPub.decodeEd = some recovery) (hed : req.ed25519Pub.decodeEd = some ed)
      (hsig : req.sig.signature = some ⟨recovery, .deviceKey ed⟩)
      (hvault : db.vaultByRecovery (.ed recovery) = some vault) (hx : req.x25519Pub.decode = some x) :
    Effect now db (.recover req) ((Db.recoverDevice vault (.ed ed) x req.deviceName).run db).2

/-! ## Reading handlers step by step -/

/-- What holds of the answer and the database at the end holds if it does after each way the first
part can end. -/
theorem ends_bind {α β : Type} {p : Handler α} {f : α → Handler β} {db : Db} {P : Except HttpError β × Db → Prop}
    (hok : ∀ a d, exec p db = (.ok a, d) → P (exec (f a) d)) (herr : ∀ e d, exec p db = (.error e, d) → P (.error e, d)) :
    P (exec (p >>= f) db) := by
  rw [exec_bind]
  rcases h : exec p db with ⟨e | a, d⟩
  · exact herr e d h
  · exact hok a d h

theorem ends_except {α β : Type} {r : Except HttpError α} {f : α → Handler β} {db : Db}
    {P : Except HttpError β × Db → Prop} (hok : ∀ a, r = .ok a → P (exec (f a) db))
    (herr : ∀ e, r = .error e → P (.error e, db)) : P (exec ((liftM r : Handler α) >>= f) db) := by
  refine ends_bind (fun a d h => ?_) (fun e d h => ?_)
  · obtain ⟨rfl, rfl⟩ := Prod.mk.inj h
    exact hok a rfl
  · obtain ⟨rfl, rfl⟩ := Prod.mk.inj h
    exact herr e rfl

theorem ends_lift {α β : Type} {p : Prog Db α} {f : α → Handler β} {db : Db} {P : Except HttpError β × Db → Prop}
    (h : P (exec (f (p.run db).1) (p.run db).2)) : P (exec ((liftM p : Handler α) >>= f) db) := by
  rw [exec_bind, exec_lift]
  exact h

theorem ends_authorize {β : Type} {now : Now} {signed : Signed} {refusal : String} {f : Wire × EdKey → Handler β}
    {db : Db} {P : Except HttpError β × Db → Prop}
    (hok : ∀ vault key, Acts now db signed vault key → P (exec (f (vault, key)) db))
    (herr : ∀ e, P (.error e, db)) : P (exec (authorize now signed refusal >>= f) db) := by
  refine ends_bind (fun a d h => ?_) (fun e d h => ?_)
  · rw [exec_authorize] at h
    obtain ⟨hres, rfl⟩ := Prod.mk.inj h
    obtain ⟨vault, key⟩ := a
    split at hres
    · cases hres
    · rename_i v k hv
      split at hres
      · rename_i hcan
        obtain ⟨rfl, rfl⟩ := Prod.mk.inj (Except.ok.inj hres)
        exact hok _ _ ⟨hv, hcan⟩
      · cases hres
  · rw [exec_authorize] at h
    obtain ⟨-, rfl⟩ := Prod.mk.inj h
    exact herr e

-- The same when only the database matters.

theorem after_bind {α β : Type} {p : Handler α} {f : α → Handler β} {db : Db} {P : Db → Prop}
    (hok : ∀ a d, exec p db = (.ok a, d) → P (exec (f a) d).2) (herr : ∀ e d, exec p db = (.error e, d) → P d) :
    P (exec (p >>= f) db).2 :=
  ends_bind (P := fun out => P out.2) hok herr

theorem after_except {α β : Type} {r : Except HttpError α} {f : α → Handler β} {db : Db} {P : Db → Prop}
    (hok : ∀ a, r = .ok a → P (exec (f a) db).2) (herr : P db) :
    P (exec ((liftM r : Handler α) >>= f) db).2 :=
  ends_except (P := fun out => P out.2) hok fun _ _ => herr

theorem after_lift {α β : Type} {p : Prog Db α} {f : α → Handler β} {db : Db} {P : Db → Prop}
    (h : P (exec (f (p.run db).1) (p.run db).2).2) : P (exec ((liftM p : Handler α) >>= f) db).2 :=
  ends_lift (P := fun out => P out.2) h

theorem after_authorize {β : Type} {now : Now} {signed : Signed} {refusal : String} {f : Wire × EdKey → Handler β}
    {db : Db} {P : Db → Prop} (hok : ∀ vault key, Acts now db signed vault key → P (exec (f (vault, key)) db).2)
    (herr : P db) : P (exec (authorize now signed refusal >>= f) db).2 :=
  ends_authorize (P := fun out => P out.2) hok fun _ => herr

theorem orReject_ok {α : Type} {o : Option α} {e : HttpError} {a : α} (h : orReject o e = .ok a) : o = some a := by
  cases o with
  | none => cases h
  | some b => exact congrArg some (Except.ok.inj h)

theorem jsonBody_ok {α : Type} {ofJson : Json Bytes → Option α} {body : Body} {r : α}
    (h : jsonBody ofJson body = .ok r) : Reads ofJson body r := by
  unfold jsonBody at h
  split at h
  · rename_i j
    exact ⟨j, rfl, orReject_ok h⟩
  · cases h

theorem after_forEach {β γ δ : Type} {decode : β → Except HttpError γ} {stmt : γ → Prog Db Nat} {l : List β}
    {f : Nat → Handler δ} {db : Db} {P : Db → Prop}
    (h : ∀ ran, (∀ c ∈ ran, ∃ b ∈ l, decode b = .ok c) →
      ((∀ b ∈ l, ∃ c, decode b = .ok c) → l.mapM decode = .ok ran) →
      (¬ (∀ b ∈ l, ∃ c, decode b = .ok c) → P (runAll stmt ran db)) ∧ ∀ n, P (exec (f n) (runAll stmt ran db)).2) :
    P (exec (forEach decode stmt l >>= f) db).2 := by
  obtain ⟨ran, hran, hdb, hres⟩ := exec_forEach decode stmt l db
  have hall : (∀ b ∈ l, ∃ c, decode b = .ok c) → l.mapM decode = .ok ran := by
    intro hdec
    rcases hres with ⟨-, hl⟩ | ⟨e, he, -⟩
    · exact hl
    · obtain ⟨n, hn⟩ := (forEach_ok_iff decode stmt l db).mpr hdec
      rw [he] at hn
      cases hn
  obtain ⟨hstop, hgo⟩ := h ran hran hall
  refine after_bind (fun n d hn => ?_) (fun e d he => ?_)
  · obtain rfl : d = runAll stmt ran db := by rw [← hdb, hn]
    exact hgo n
  · obtain rfl : d = runAll stmt ran db := by rw [← hdb, he]
    refine hstop fun hdec => ?_
    obtain ⟨n, hn⟩ := (forEach_ok_iff decode stmt l db).mpr hdec
    rw [he] at hn
    cases hn

theorem after_map {α β : Type} {p : Handler α} {f : α → β} {db : Db} :
    (exec (do return f (← p)) db).2 = (exec p db).2 := by
  rw [exec_bind]
  rcases exec p db with ⟨e | a, d⟩ <;> rfl

/-! ## Handler by handler -/

variable {now : Now} {db : Db}

theorem enroll_effect (signed : Signed) : Effect now db (.post .enroll signed) (exec (enroll now signed) db).2 := by
  have hsame : Effect now db (.post .enroll signed) db := .same (.refl db)
  unfold enroll
  refine after_except (fun ⟨vault, key⟩ hv => ?_) hsame
  refine after_except (fun r hr => ?_) hsame
  unfold applyEnroll
  dsimp only
  by_cases hself : r.ed25519Pub = signed.devicePub
  swap
  · rw [if_pos hself]
    exact hsame
  rw [if_neg (not_not.mpr hself)]
  refine after_lift ?_
  dsimp only [Db.selectDevice, run_atom]
  by_cases hrev : (db.device vault (.ed key)).map (·.revoked) = some true
  · rw [if_pos hrev]
    exact hsame
  rw [if_neg hrev]
  refine after_except (fun x hx => ?_) hsame
  refine after_except (fun recovery hrec => ?_) hsame
  exact .enroll hv (jsonBody_ok hr) hself hrev (orReject_ok hx) (orReject_ok hrec)

theorem approve_effect (signed : Signed) : Effect now db (.post .approve signed) (exec (approve now signed) db).2 := by
  have hsame : Effect now db (.post .approve signed) db := .same (.refl db)
  unfold approve
  refine after_authorize (fun vault key ha => ?_) hsame
  refine after_except (fun r hr => ?_) hsame
  unfold applyApprove
  refine after_except (fun target ht => ?_) hsame
  refine after_except (fun wrapped hw => ?_) hsame
  have heff := Effect.approve ha (jsonBody_ok hr) (orReject_ok ht) (orReject_ok hw)
  refine after_lift ?_
  dsimp only
  split <;> exact heff

theorem revoke_effect (signed : Signed) : Effect now db (.post .revoke signed) (exec (revoke now signed) db).2 := by
  have hsame : Effect now db (.post .revoke signed) db := .same (.refl db)
  unfold revoke
  refine after_authorize (fun vault key ha => ?_) hsame
  refine after_except (fun r hr => ?_) hsame
  unfold applyRevoke
  refine after_except (fun target ht => ?_) hsame
  have heff := Effect.revoke ha (jsonBody_ok hr) (orReject_ok ht)
  refine after_lift ?_
  dsimp only
  split <;> exact heff

theorem after_markSeen {β : Type} {sig : Text Sig} {e : HttpError} {p : Handler β} {P : Db → Prop}
    (h : ∀ seen, P { db with seenSigs := seen } ∧ P (exec p { db with seenSigs := seen }).2) :
    P (exec (markSeen now.markSeen sig >>= fun fresh => if ¬ fresh = true then (throw e : Handler PUnit) >>= fun _ => p else p)
      db).2 := by
  refine after_bind (fun fresh d hd => ?_) (fun e d hd => ?_)
  · have : ∃ seen, d = { db with seenSigs := seen } := by
      cases sig with
      | plain s => cases hd
      | b64 sig =>
        rw [exec_markSeen] at hd
        exact ⟨_, (Prod.mk.inj hd).2.symm⟩
    obtain ⟨seen, rfl⟩ := this
    cases fresh
    · exact (h seen).1
    · exact (h seen).2
  · have : ∃ seen, d = { db with seenSigs := seen } := by
      cases sig with
      | plain s => exact ⟨db.seenSigs, (Prod.mk.inj hd).2.symm⟩
      | b64 sig =>
        rw [exec_markSeen] at hd
        exact ⟨_, (Prod.mk.inj hd).2.symm⟩
    obtain ⟨seen, rfl⟩ := this
    exact (h seen).1

theorem sameTables_seen (db : Db) (seen : List SeenSig) : SameTables db { db with seenSigs := seen } :=
  ⟨rfl, rfl, rfl, rfl, rfl⟩

theorem rotate_effect (signed : Signed) : Effect now db (.post .rotate signed) (exec (rotate now signed) db).2 := by
  unfold rotate
  refine after_authorize (fun vault key ha => ?_) (.same (.refl db))
  refine after_markSeen fun seen => ?_
  have hsame : Effect now db (.post .rotate signed) { db with seenSigs := seen } := .same (sameTables_seen db seen)
  refine ⟨hsame, after_except (fun r hr => ?_) hsame⟩
  unfold applyRotate
  refine after_lift ?_
  let p (v : VaultRow) : Bool := v.vaultId = vault ∧ v.epoch + 1 = r.epoch
  dsimp only
  split
  · rename_i hnone
    have hrun : ((Db.bumpEpoch vault r.epoch).run { db with seenSigs := seen }).2 = { db with seenSigs := seen } := by
      change ({ db with seenSigs := seen, vaults := Table.update p _ db.vaults } : Db) = _
      rw [Table.update_of_unaffected hnone]
    rw [hrun]
    exact hsame
  · rename_i hsome
    have hnext : ∃ v ∈ db.vaults, v.vaultId = vault ∧ v.epoch + 1 = r.epoch := by
      by_contra hnot
      refine hsome (Table.affected_eq_zero.mpr fun v hv => ?_)
      simpa using fun h1 h2 => hnot ⟨v, hv, h1, h2⟩
    refine after_forEach fun ran hran hall => ?_
    have heff := @Effect.rotate _ _ _ _ _ _ seen _ ha (jsonBody_ok hr) hnext hran hall
    exact ⟨fun _ => heff, fun n => heff⟩

theorem shareGrant_effect (signed : Signed) :
    Effect now db (.post .shareGrant signed) (exec (shareGrant now signed) db).2 := by
  have hsame : Effect now db (.post .shareGrant signed) db := .same (.refl db)
  unfold shareGrant
  refine after_authorize (fun vault key ha => ?_) hsame
  refine after_except (fun r hr => ?_) hsame
  unfold applyShareGrant decodeShare
  refine after_except (fun share hs => ?_) hsame
  refine after_lift ?_
  refine after_forEach fun ran hran hall => ?_
  have heff := Effect.shareGrant ha (jsonBody_ok hr) (orReject_ok hs) hran hall
  exact ⟨fun _ => heff, fun n => heff⟩

theorem shareRotate_effect (signed : Signed) :
    Effect now db (.post .shareRotate signed) (exec (shareRotate now signed) db).2 := by
  unfold shareRotate
  refine after_authorize (fun vault key ha => ?_) (.same (.refl db))
  refine after_markSeen fun seen => ?_
  have hsame : Effect now db (.post .shareRotate signed) { db with seenSigs := seen } := .same (sameTables_seen db seen)
  refine ⟨hsame, after_except (fun r hr => ?_) hsame⟩
  unfold applyShareRotate decodeShare
  refine after_except (fun share hs => ?_) hsame
  rw [exec_bind]
  have hadvance := exec_advanceShare vault share r.epoch { db with seenSigs := seen }
  split at hadvance
  · obtain ⟨moved, hmoved, hadv⟩ := hadvance
    rw [hadv]
    dsimp only
    refine after_forEach fun gone hgone hall => ⟨fun hnot => ?_, fun _ => ?_⟩
    · exact @Effect.shareRotate _ _ _ _ _ _ _ seen _ _ [] ha (jsonBody_ok hr) (orReject_ok hs) hmoved hgone (by simp)
        fun h => absurd h hnot
    · refine after_forEach fun ran hran hall' => ?_
      have heff := @Effect.shareRotate _ _ _ _ _ _ _ seen _ _ _ ha (jsonBody_ok hr) (orReject_ok hs) hmoved hgone hran
        fun h => ⟨hall h, hall'⟩
      exact ⟨fun _ => heff, fun n => heff⟩
  · obtain ⟨e, hadv⟩ := hadvance
    rw [hadv]
    exact hsame

theorem push_effect (signed : Signed) : Effect now db (.post .push signed) (exec (push now signed) db).2 := by
  have hsame : Effect now db (.post .push signed) db := .same (.refl db)
  unfold push
  refine after_authorize (fun vault key ha => ?_) hsame
  refine after_except (fun r hr => ?_) hsame
  unfold applyPush
  refine after_forEach fun ran hran _ => ?_
  have heff := Effect.push ha (jsonBody_ok hr) hran
  exact ⟨fun _ => heff, fun n => heff⟩

theorem recover_effect (req : RecoverReq) : Effect now db (.recover req) (exec (recover req) db).2 := by
  have hsame : Effect now db (.recover req) db := .same (.refl db)
  unfold recover
  refine after_except (fun recovery hrec => ?_) hsame
  refine after_except (fun ed hed => ?_) hsame
  refine after_except (fun sig hsig => ?_) hsame
  by_cases hgood : sig = ⟨recovery, .deviceKey ed⟩
  swap
  · rw [if_pos hgood]
    exact hsame
  rw [if_neg (not_not.mpr hgood)]
  refine after_lift ?_
  refine after_except (fun vault hvault => ?_) hsame
  refine after_except (fun x hx => ?_) hsame
  exact .recover (orReject_ok hrec) (orReject_ok hed) (hgood ▸ orReject_ok hsig) (orReject_ok hvault) (orReject_ok hx)

/-! ## Reads -/

theorem exec_shares (q : SignedQuery) : (exec (shares now q) db).2 = db :=
  after_authorize (P := (· = db)) (fun _ _ _ => rfl) rfl

theorem exec_devices (q : SignedQuery) : (exec (devices now q) db).2 = db :=
  after_authorize (P := (· = db)) (fun _ _ _ => rfl) rfl

theorem exec_pull (q : PullQuery) : (exec (pull now q) db).2 = db :=
  after_authorize (P := (· = db)) (fun _ _ _ => rfl) rfl

theorem exec_wrapped (q : SignedQuery) : (exec (wrapped now q) db).2 = db := by
  unfold wrapped
  refine after_except (P := (· = db)) (fun ⟨vault, key⟩ _ => ?_) rfl
  refine after_lift (P := (· = db)) ?_
  refine after_except (P := (· = db)) (fun row _ => ?_) rfl
  dsimp only
  split <;> rfl

/-- **What a request can do.** -/
theorem route_effect (now : Now) (req : Request) (db : Db) : Effect now db req (exec (route now req) db).2 := by
  unfold route
  cases req with
  | post endpoint signed =>
    dsimp only
    unfold post
    cases endpoint with
    | enroll => rw [after_map]; exact enroll_effect signed
    | approve => rw [after_map]; exact approve_effect signed
    | revoke => rw [after_map]; exact revoke_effect signed
    | rotate => rw [after_map]; exact rotate_effect signed
    | shareGrant => rw [after_map]; exact shareGrant_effect signed
    | shareRotate => rw [after_map]; exact shareRotate_effect signed
    | push => rw [after_map]; exact push_effect signed
  | recover req => rw [after_map]; exact recover_effect req
  | shares q => rw [after_map, exec_shares]; exact .same (.refl db)
  | devices q => rw [after_map, exec_devices]; exact .same (.refl db)
  | wrapped q => rw [after_map, exec_wrapped]; exact .same (.refl db)
  | pull q => rw [after_map, exec_pull]; exact .same (.refl db)

/-! ## Where device rows come from -/

/-- Every row of the devices table, after a request. -/
inductive DeviceOrigin (now : Now) (db : Db) : Request → DeviceRow → Prop
  | kept {req : Request} {r : DeviceRow} (h : r ∈ db.devices) : DeviceOrigin now db req r
  | enrolled {signed : Signed} {vault : Wire} {key : EdKey} {e : EnrollReq} {x : Bytes}
      (hv : verify now.verify signed = .ok (vault, key)) (he : Reads EnrollReq.ofJson signed.body e)
      (hx : e.x25519Pub.decode = some x) (hnew : ∀ r ∈ db.devices, r.key ≠ (vault, .ed key)) :
    DeviceOrigin now db (.post .enroll signed)
      ⟨vault, .ed key, x, e.deviceName, ¬ db.vaults.any (·.vaultId = vault), false, none⟩
  | reenrolled {signed : Signed} {vault : Wire} {key : EdKey} {e : EnrollReq} {x : Bytes} {r : DeviceRow}
      (hv : verify now.verify signed = .ok (vault, key)) (he : Reads EnrollReq.ofJson signed.body e)
      (hx : e.x25519Pub.decode = some x) (hr : r ∈ db.devices) (hk : r.key = (vault, .ed key))
      (hrevoked : (db.device vault (.ed key)).map (·.revoked) ≠ some true) :
    DeviceOrigin now db (.post .enroll signed) { r with name := e.deviceName, x25519Pub := x }
  | approved {signed : Signed} {vault : Wire} {key : EdKey} {a : ApproveReq} {target wrapped : Bytes} {r : DeviceRow}
      (ha : Acts now db signed vault key) (hd : Reads ApproveReq.ofJson signed.body a)
      (ht : a.targetPub.decode = some target) (hw : a.wrappedKey.decode = some wrapped) (hr : r ∈ db.devices)
      (hk : r.key = (vault, target)) (hrev : r.revoked = false) :
    DeviceOrigin now db (.post .approve signed) { r with approved := true, wrappedKey := some wrapped }
  | revoked {signed : Signed} {vault : Wire} {key : EdKey} {a : RevokeReq} {target : Bytes} {r : DeviceRow}
      (ha : Acts now db signed vault key) (hd : Reads RevokeReq.ofJson signed.body a)
      (ht : a.targetPub.decode = some target) (hr : r ∈ db.devices) (hk : r.key = (vault, target)) :
    DeviceOrigin now db (.post .revoke signed) { r with revoked := true, approved := false, wrappedKey := none }
  | rewrapped {signed : Signed} {vault : Wire} {key : EdKey} {a : RotateReq} {e : WrappedFor} {pub wrapped : Bytes}
      {r : DeviceRow} (ha : Acts now db signed vault key) (hd : Reads RotateReq.ofJson signed.body a)
      (he : e ∈ a.wrapped) (hdec : decodeWrap e = .ok (pub, wrapped)) (hr : r ∈ db.devices) (hk : r.key = (vault, pub))
      (hrev : r.revoked = false) :
    DeviceOrigin now db (.post .rotate signed) { r with wrappedKey := some wrapped }
  | recovered {req : RecoverReq} {recovery ed : EdKey} {vault : Wire} {x : Bytes} {r : DeviceRow}
      (hrec : req.recoveryPub.decodeEd = some recovery) (hed : req.ed25519Pub.decodeEd = some ed)
      (hsig : req.sig.signature = some ⟨recovery, .deviceKey ed⟩)
      (hvault : db.vaultByRecovery (.ed recovery) = some vault) (hx : req.x25519Pub.decode = some x)
      (hk : r.key = (vault, .ed ed)) (hx' : r.x25519Pub = x) (hrev : r.revoked = false) (happ : r.approved = true)
      (hwrap : r.wrappedKey = none ∨ ∃ r₀ ∈ db.devices, r₀.key = r.key ∧ r₀.wrappedKey = r.wrappedKey) :
    DeviceOrigin now db (.recover req) r

theorem mem_rewrapAll {vault : Wire} {ran : List (Bytes × Bytes)} {db : Db} {r : DeviceRow}
    (h : r ∈ (runAll (fun w => Db.rewrapDevice vault w.1 w.2) ran db).devices) :
    (r ∈ db.devices ∧ ∀ w ∈ ran, ¬ (r.key = (vault, w.1) ∧ r.revoked = false)) ∨
      ∃ r₀ ∈ db.devices, ∃ w ∈ ran, r₀.key = (vault, w.1) ∧ r₀.revoked = false ∧
        r = { r₀ with wrappedKey := some w.2 } := by
  induction ran generalizing db with
  | nil => exact Or.inl ⟨h, by simp⟩
  | cons w ran ih =>
    rcases ih h with ⟨hr, hnone⟩ | ⟨r₀, hr₀, w', hw', hk, hrev, rfl⟩
    · rcases Table.mem_update hr with ⟨hr, hp⟩ | ⟨r₀, hr₀, hp, rfl⟩
      · refine Or.inl ⟨hr, ?_⟩
        intro w' hw'
        rcases List.mem_cons.mp hw' with rfl | hw'
        · simpa using hp
        · exact hnone w' hw'
      · obtain ⟨hk, hrev⟩ : r₀.key = (vault, w.1) ∧ r₀.revoked = false := by simpa using hp
        exact Or.inr ⟨r₀, hr₀, w, List.mem_cons_self, hk, hrev, rfl⟩
    · rcases Table.mem_update hr₀ with ⟨hr₀, -⟩ | ⟨r₁, hr₁, hp, rfl⟩
      · exact Or.inr ⟨r₀, hr₀, w', List.mem_cons_of_mem _ hw', hk, hrev, rfl⟩
      · exact Or.inr ⟨r₁, hr₁, w', List.mem_cons_of_mem _ hw', hk, hrev, rfl⟩

theorem Effect.devices {now : Now} {db db' : Db} {req : Request} (h : Effect now db req db') {r : DeviceRow}
    (hr : r ∈ db'.devices) : DeviceOrigin now db req r := by
  cases h with
  | same h => exact .kept (h.devices ▸ hr)
  | enroll hv hd _ hrevoked hx _ =>
    rcases Table.mem_upsert hr with ⟨hr, -⟩ | ⟨rfl, hnew⟩ | ⟨r₀, hr₀, hk, rfl⟩
    · exact .kept hr
    · exact .enrolled hv hd hx hnew
    · exact .reenrolled hv hd hx hr₀ hk hrevoked
  | approve ha hd ht hw =>
    rcases Table.mem_update hr with ⟨hr, -⟩ | ⟨r₀, hr₀, hp, rfl⟩
    · exact .kept hr
    · obtain ⟨hk, hrev⟩ := decide_eq_true_eq.mp hp
      exact .approved ha hd ht hw hr₀ hk hrev
  | revoke ha hd ht =>
    rcases Table.mem_update hr with ⟨hr, -⟩ | ⟨r₀, hr₀, hp, rfl⟩
    · exact .kept hr
    · exact .revoked ha hd ht hr₀ (decide_eq_true_eq.mp hp)
  | rotate ha hd _ hran _ =>
    rcases mem_rewrapAll hr with ⟨hr, -⟩ | ⟨r₀, hr₀, w, hw, hk, hrev, rfl⟩
    · exact .kept hr
    · obtain ⟨e, he, hdec⟩ := hran w hw
      exact .rewrapped ha hd he hdec hr₀ hk hrev
  | shareGrant =>
    rw [runAll_frame Db.devices (fun _ _ => rfl)] at hr
    exact .kept hr
  | shareRotate =>
    rw [runAll_frame Db.devices (fun _ _ => rfl), runAll_frame Db.devices (fun _ _ => rfl)] at hr
    exact .kept hr
  | push =>
    rw [runAll_frame Db.devices (fun _ _ => rfl)] at hr
    exact .kept hr
  | recover hrec hed hsig hvault hx =>
    rcases Table.mem_upsert hr with ⟨hr, -⟩ | ⟨rfl, -⟩ | ⟨r₀, hr₀, hk, rfl⟩
    · exact .kept hr
    · exact .recovered hrec hed hsig hvault hx rfl rfl rfl rfl (Or.inl rfl)
    · exact .recovered hrec hed hsig hvault hx hk rfl rfl rfl (Or.inr ⟨r₀, hr₀, rfl, rfl⟩)

theorem rewrapAll_stays {vault : Wire} {ran : List (Bytes × Bytes)} {db : Db} {k : Wire × Bytes}
    (h : ∃ r ∈ db.devices, r.key = k) :
    ∃ r ∈ (runAll (fun w => Db.rewrapDevice vault w.1 w.2) ran db).devices, r.key = k := by
  induction ran generalizing db with
  | nil => exact h
  | cons w ran ih => exact ih (Table.key_mem_update (fun _ => rfl) h)

theorem Effect.device_stays {now : Now} {db db' : Db} {req : Request} (h : Effect now db req db') {k : Wire × Bytes}
    (hk : ∃ r ∈ db.devices, r.key = k) : ∃ r ∈ db'.devices, r.key = k := by
  cases h with
  | same h => rwa [h.devices]
  | enroll => exact Table.key_mem_upsert (fun _ => rfl) hk
  | approve => exact Table.key_mem_update (fun _ => rfl) hk
  | revoke => exact Table.key_mem_update (fun _ => rfl) hk
  | rotate => exact rewrapAll_stays hk
  | shareGrant => rwa [runAll_frame Db.devices (fun _ _ => rfl)]
  | shareRotate => rwa [runAll_frame Db.devices (fun _ _ => rfl), runAll_frame Db.devices (fun _ _ => rfl)]
  | push => rwa [runAll_frame Db.devices (fun _ _ => rfl)]
  | recover => exact Table.key_mem_upsert (fun _ => rfl) hk

end SshVault.Relay
