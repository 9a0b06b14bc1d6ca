import SshVault.Relay.Replay

/-!
# Requests that fail halfway

`rotate`, `share_rotate`, `share_grant` and `push` write before they have read their whole list. An error
leaves the tables alone exactly when nothing was written in front of the element that does not decode.
-/

open Lib Prog

namespace SshVault.Relay

/-! ## Malformed lists -/

section

variable {β γ : Type}

/-- Some element does not decode. -/
def Malformed (decode : β → Except HttpError γ) (l : List β) : Prop := ∃ b ∈ l, ∀ c, decode b ≠ .ok c

/-- The elements in front of the first that does not decode. -/
def decodedFront (decode : β → Except HttpError γ) : List β → List γ
  | [] => []
  | b :: rest =>
    match decode b with
    | .ok c => c :: decodedFront decode rest
    | .error _ => []

theorem not_malformed_iff {decode : β → Except HttpError γ} {l : List β} :
    ¬ Malformed decode l ↔ ∀ b ∈ l, ∃ c, decode b = .ok c := by
  unfold Malformed
  push Not
  rfl

variable (decode : β → Except HttpError γ) (stmt : γ → Prog Db Nat) (l : List β)

theorem forEach_error_iff (db : Db) : (∃ e, (exec (forEach decode stmt l) db).1 = .error e) ↔ Malformed decode l := by
  rw [← not_iff_not, not_malformed_iff, ← forEach_ok_iff decode stmt l db]
  cases (exec (forEach decode stmt l) db).1 <;> simp

theorem forEach_front (db : Db) : (exec (forEach decode stmt l) db).2 = runAll stmt (decodedFront decode l) db := by
  induction l generalizing db with
  | nil => rfl
  | cons b l ih =>
    unfold forEach decodedFront
    simp only [exec_bind, exec_liftExcept, exec_lift]
    cases decode b with
    | error e => rfl
    | ok c =>
      dsimp only
      change _ = runAll stmt (decodedFront decode l) ((stmt c).run db).2
      rw [← ih]
      rcases exec (forEach decode stmt l) ((stmt c).run db).2 with ⟨_ | _, _⟩ <;> rfl

end

/-! ## Errors that leave the tables alone -/

variable {db db' : Db} {now : Now}

theorem clean_error_iff {α : Type} {e : HttpError} :
    Clean ((.error e : Except HttpError α), db') db ↔ SameTables db db' :=
  ⟨fun h => h ⟨e, rfl⟩, fun h _ => h⟩

theorem sameTables_noted {seen : List SeenSig} : SameTables db { db with seenSigs := seen } := ⟨rfl, rfl, rfl, rfl, rfl⟩

theorem clean_noted {α : Type} {out : Except HttpError α × Db} {seen : List SeenSig} :
    Clean out { db with seenSigs := seen } ↔ Clean out db :=
  forall_congr' fun _ => ⟨fun h => ⟨h.1, h.2, h.3, h.4, h.5⟩, fun h => ⟨h.1, h.2, h.3, h.4, h.5⟩⟩

theorem map_clean_iff {α β : Type} {p : Handler α} {f : α → β} :
    Clean (exec (do return f (← p)) db') db ↔ Clean (exec p db') db := by
  rw [exec_bind]
  rcases exec p db' with ⟨e | a, db''⟩
  · exact clean_error_iff.trans clean_error_iff.symm
  · exact iff_of_true clean_ok clean_ok

theorem authorize_clean_iff {α : Type} {signed : Signed} {refusal : String} {f : Wire × EdKey → Handler α} :
    Clean (exec (authorize now signed refusal >>= f) db) db ↔
      ∀ vault key, Acts now db signed vault key → Clean (exec (f (vault, key)) db) db := by
  rw [exec_bind, exec_authorize]
  cases hv : verify now.verify signed with
  | error e => exact iff_of_true clean_error fun vault key ha => nomatch hv.symm.trans ha.verified
  | ok out =>
    obtain ⟨vault, key⟩ := out
    dsimp only
    cases hcan : db.canSync vault key with
    | false =>
      refine iff_of_true clean_error fun vault' key' ha => ?_
      obtain ⟨rfl, rfl⟩ := Prod.mk.inj (Except.ok.inj (hv.symm.trans ha.verified))
      exact absurd ha.canSync (by simp [hcan])
    | true =>
      refine ⟨fun h vault' key' ha => ?_, fun h => h vault key ⟨hv, hcan⟩⟩
      obtain ⟨rfl, rfl⟩ := Prod.mk.inj (Except.ok.inj (hv.symm.trans ha.verified))
      exact h

theorem jsonBody_clean_iff {α β : Type} {ofJson : Json Bytes → Option α} {body : Body} {f : α → Handler β}
    (hsame : SameTables db db') :
    Clean (exec (liftM (jsonBody ofJson body) >>= f) db') db ↔ ∀ r, Reads ofJson body r → Clean (exec (f r) db') db := by
  rw [exec_bind, exec_liftExcept]
  cases hbody : jsonBody ofJson body with
  | error e =>
    refine iff_of_true (clean_error_iff.mpr hsame) ?_
    rintro r ⟨j, rfl, hr⟩
    rw [jsonBody, hr] at hbody
    cases hbody
  | ok r =>
    refine ⟨fun h r' => ?_, fun h => h r (jsonBody_ok hbody)⟩
    rintro ⟨j, rfl, hr⟩
    rw [jsonBody, hr] at hbody
    obtain rfl := Except.ok.inj hbody
    exact h

theorem markSeen_clean_iff {α : Type} {sig : Sig} {e : HttpError} {p : Handler α} :
    Clean (exec (markSeen now.markSeen (.b64 sig) >>= fun new =>
        if ¬ new = true then (throw e : Handler PUnit) >>= fun _ => p else p) db) db ↔
      (Unseen now.markSeen sig db → Clean (exec p { db with seenSigs := notedSigs now.markSeen sig db }) db) := by
  rw [exec_bind, exec_markSeen]
  dsimp only
  by_cases hseen : Unseen now.markSeen sig db
  · simp only [hseen, decide_true, not_true, if_false, true_imp_iff]
  · simp only [hseen, decide_false, Bool.false_eq_true, not_false_eq_true, if_true, false_imp_iff, iff_true]
    exact clean_noted.mp clean_error

theorem reading_clean_iff {α : Type} {signed : Signed} {refusal : String} {ofJson : Json Bytes → Option α}
    {apply : Wire → α → Handler PushResp} :
    Clean (exec (do
        let (vault, _) ← authorize now signed refusal
        let req ← jsonBody ofJson signed.body
        apply vault req) db) db ↔
      ∀ vault key, Acts now db signed vault key → ∀ r, Reads ofJson signed.body r → Clean (exec (apply vault r) db) db :=
  authorize_clean_iff.trans (forall₂_congr fun _ _ => forall_congr' fun _ => jsonBody_clean_iff (.refl db))

theorem noting_clean_iff {α : Type} {signed : Signed} {refusal : String} {e : HttpError}
    {ofJson : Json Bytes → Option α} {apply : Wire → α → Handler PushResp} :
    Clean (exec (do
        let (vault, _) ← authorize now signed refusal
        if ¬ (← markSeen now.markSeen signed.sig) then throw e
        let req ← jsonBody ofJson signed.body
        apply vault req) db) db ↔
      ∀ vault key, Acts now db signed vault key → Unseen now.markSeen ⟨key, .request signed.ts signed.body⟩ db →
        ∀ r, Reads ofJson signed.body r →
          Clean (exec (apply vault r) { db with seenSigs := notedSigs now.markSeen ⟨key, .request signed.ts signed.body⟩ db })
            { db with seenSigs := notedSigs now.markSeen ⟨key, .request signed.ts signed.body⟩ db } := by
  refine authorize_clean_iff.trans (forall₂_congr fun vault key => forall_congr' fun ha => ?_)
  dsimp only
  rw [signature_eq (verify_ok ha.verified).2.2.2]
  refine markSeen_clean_iff.trans (imp_congr_right fun _ => (jsonBody_clean_iff sameTables_noted).trans ?_)
  exact forall₂_congr fun r _ => clean_noted.symm

theorem loop_error_iff {β γ : Type} {decode : β → Except HttpError γ} {stmt : γ → Prog Db Nat} {l : List β}
    {vault : Wire} (stored : Nat → Nat) :
    (∃ e, (exec (do
        let n ← forEach decode stmt l
        let head ← Db.selectHead vault
        return ⟨head, stored n⟩ : Handler PushResp) db).1 = .error e) ↔ Malformed decode l := by
  rw [← forEach_error_iff decode stmt l db, exec_bind]
  rcases exec (forEach decode stmt l) db with ⟨e | n, db'⟩
  · exact iff_of_true ⟨e, rfl⟩ ⟨e, rfl⟩
  · exact iff_of_false (fun ⟨_, h⟩ => nomatch h) (fun ⟨_, h⟩ => nomatch h)

theorem loop_after {β γ : Type} {decode : β → Except HttpError γ} {stmt : γ → Prog Db Nat} {l : List β}
    {vault : Wire} (stored : Nat → Nat) :
    (exec (do
        let n ← forEach decode stmt l
        let head ← Db.selectHead vault
        return ⟨head, stored n⟩ : Handler PushResp) db).2 = runAll stmt (decodedFront decode l) db := by
  rw [← forEach_front decode stmt l db, exec_bind]
  rcases exec (forEach decode stmt l) db with ⟨e | n, db'⟩ <;> rfl

theorem loop_clean_iff {β γ : Type} {decode : β → Except HttpError γ} {stmt : γ → Prog Db Nat} {l : List β}
    {vault : Wire} (stored : Nat → Nat) :
    Clean (exec (do
        let n ← forEach decode stmt l
        let head ← Db.selectHead vault
        return ⟨head, stored n⟩ : Handler PushResp) db') db ↔
      (Malformed decode l → SameTables db (runAll stmt (decodedFront decode l) db')) := by
  unfold Clean
  rw [loop_error_iff, loop_after]

/-! ## Handler by handler -/

theorem applyRotate_clean_iff (vault : Wire) (r : RotateReq) :
    Clean (exec (applyRotate vault r) db) db ↔
      ¬ ((∃ v ∈ db.vaults, v.vaultId = vault ∧ v.epoch + 1 = r.epoch) ∧ Malformed decodeWrap r.wrapped) := by
  unfold applyRotate
  rw [exec_bind, exec_lift]
  dsimp only
  rcases bumpEpoch_cases vault r.epoch db with ⟨hex, hsome, hmoved⟩ | ⟨hnot, hrun⟩
  · rw [if_neg hsome, loop_clean_iff fun _ => 0, and_iff_right hex]
    refine imp_congr_right fun _ => iff_of_false (fun hsame => hmoved ?_) id
    exact (runAll_frame Db.vaults (fun _ _ => rfl) _ _).symm.trans hsame.vaults
  · rw [hrun, if_pos rfl]
    exact iff_of_true clean_error fun h => hnot h.1

theorem applyShareGrant_clean_iff (vault : Wire) (r : ShareGrantReq) :
    Clean (exec (applyShareGrant vault r) db) db ↔
      ¬ ∃ share, r.shareId.decode16 = some share ∧ Malformed decodeWrap r.wrapped ∧
        ¬ Granted db vault share r.epoch (decodedFront decodeWrap r.wrapped) := by
  unfold applyShareGrant decodeShare
  rw [exec_bind, exec_liftExcept]
  cases hs : r.shareId.decode16 with
  | none => exact iff_of_true clean_error fun ⟨_, h, _⟩ => nomatch h
  | some share =>
    simp only [orReject, Option.some.injEq, exists_eq_left', not_and, not_not]
    rw [exec_bind, exec_lift, loop_clean_iff fun _ => 0]
    exact imp_congr_right fun _ => sameTables_grant_iff

theorem applyShareRotate_clean_iff (vault : Wire) (r : ShareRotateReq) :
    Clean (exec (applyShareRotate vault r) db) db ↔
      ¬ ∃ share, r.shareId.decode16 = some share ∧ Takes vault share r.epoch db.shares ∧
        (Malformed decodeRemoved r.remove ∨ Malformed decodeWrap r.wrapped) := by
  unfold applyShareRotate decodeShare
  rw [exec_bind, exec_liftExcept]
  cases hs : r.shareId.decode16 with
  | none =>
    refine iff_of_true clean_error ?_
    rintro ⟨_, h, -⟩
    cases h
  | some share =>
    simp only [orReject, Option.some.injEq, exists_eq_left']
    rw [exec_bind]
    have hadvance := exec_advanceShare vault share r.epoch db
    split at hadvance
    · rename_i htakes
      obtain ⟨t, hadv, hrun⟩ := hadvance
      rw [hrun, and_iff_right (show Takes vault share r.epoch db.shares from htakes)]
      dsimp only
      -- The share has moved, and neither loop moves it back.
      have hframe := forEach_frame Db.shares decodeRemoved (Db.deleteMember vault share) (fun _ _ => rfl) r.remove
        { db with shares := t }
      have herror := forEach_error_iff decodeRemoved (Db.deleteMember vault share) r.remove { db with shares := t }
      rw [exec_bind]
      generalize exec (forEach decodeRemoved (Db.deleteMember vault share) r.remove) { db with shares := t } = out
        at hframe herror ⊢
      obtain ⟨e | n, db'⟩ := out
      · refine iff_of_false (fun h => hadv.ne ?_) (not_not.mpr (Or.inl (herror.mp ⟨e, rfl⟩)))
        exact hframe.symm.trans (clean_error_iff.mp h).shares
      · have hremove : ¬ Malformed decodeRemoved r.remove := by
          intro h
          obtain ⟨_, he⟩ := herror.mpr h
          cases he
        rw [or_iff_right hremove, loop_clean_iff fun _ => 0]
        refine imp_congr_right fun _ => iff_of_false (fun hsame => hadv.ne ?_) id
        exact hframe.symm.trans ((runAll_frame Db.shares (fun _ _ => rfl) _ _).symm.trans hsame.shares)
    · rename_i hstays
      obtain ⟨e, he⟩ := hadvance
      rw [he]
      exact iff_of_true clean_error fun h => hstays h.1

theorem applyPush_clean_iff (vault : Wire) (r : PushReq) :
    Clean (exec (applyPush vault r) db) db ↔
      ¬ (Malformed decodeEntry r.entries ∧
        ∃ e ∈ decodedFront decodeEntry r.entries, ∀ row ∈ db.entries, row.key ≠ (vault, e.1)) := by
  unfold applyPush
  rw [loop_clean_iff fun n => n, not_and]
  refine imp_congr_right fun _ => runAll_insertEntry_same.trans ?_
  push Not
  rfl

/-! ## Whole requests -/

/-- The handler has written something when it comes to an element that does not decode. -/
def FailsHalfway (db : Db) (now : Now) (vault : Wire) (sig : Sig) : ClientReq → Prop
  | .rotate epoch wrapped =>
    Unseen now.markSeen sig db ∧ (∃ v ∈ db.vaults, v.vaultId = vault ∧ v.epoch + 1 = epoch) ∧ Malformed decodeWrap wrapped
  | .shareGrant shareId epoch wrapped =>
    ∃ share, shareId.decode16 = some share ∧ Malformed decodeWrap wrapped ∧
      ¬ Granted db vault share epoch (decodedFront decodeWrap wrapped)
  | .shareRotate shareId epoch wrapped remove =>
    Unseen now.markSeen sig db ∧ ∃ share, shareId.decode16 = some share ∧ Takes vault share epoch db.shares ∧
      (Malformed decodeRemoved remove ∨ Malformed decodeWrap wrapped)
  | .push r =>
    Malformed decodeEntry r.entries ∧
      ∃ e ∈ decodedFront decodeEntry r.entries, ∀ row ∈ db.entries, row.key ≠ (vault, e.1)
  | _ => False

theorem reads_iff {α : Type} {ofJson : Json Bytes → Option α} {body : Body} {g : α → ClientReq} {P : ClientReq → Prop} :
    (∀ r, Reads ofJson body r → ¬ P (g r)) ↔ ∀ j r, body = .json j → (ofJson j).map g = some r → ¬ P r := by
  constructor
  · intro h j r hj hr
    obtain ⟨r', hr', rfl⟩ := Option.map_eq_some_iff.mp hr
    exact h r' ⟨j, hj, hr'⟩
  · rintro h r ⟨j, hj, hr⟩
    exact h j (g r) hj (by rw [hr]; rfl)

/-- **All or nothing.** A POST request that is answered with an error leaves the tables alone, unless it is
signed by a device that may sync and has written something when an element of its list does not decode. -/
theorem all_or_nothing_iff (db : Db) (now : Now) (signed : Signed) (e : Endpoint) :
    ((∃ err, (exec (post now signed e) db).1 = .error err) → SameTables db (exec (post now signed e) db).2) ↔
      ∀ vault key, Acts now db signed vault key → ∀ j r, signed.body = .json j → decodeAt j e = some r →
        ¬ FailsHalfway db now vault ⟨key, .request signed.ts signed.body⟩ r := by
  change Clean (exec (post now signed e) db) db ↔ _
  cases e with
  | enroll =>
    refine iff_of_true (map_clean_iff.mpr ?_) fun vault key _ j r _ hr => ?_
    · unfold enroll
      refine ends_except (P := (Clean · db)) (fun ⟨vault, key⟩ _ => ?_) (fun _ _ => clean_error)
      exact ends_except (P := (Clean · db)) (fun r _ => applyEnroll_clean vault key _ r) (fun _ _ => clean_error)
    · obtain ⟨r', -, rfl⟩ := Option.map_eq_some_iff.mp hr
      exact id
  | approve =>
    refine iff_of_true (map_clean_iff.mpr (authorized_clean fun vault r _ => applyApprove_clean vault r))
      fun vault key _ j r _ hr => ?_
    obtain ⟨r', -, rfl⟩ := Option.map_eq_some_iff.mp hr
    exact id
  | revoke =>
    refine iff_of_true (map_clean_iff.mpr (authorized_clean fun vault r _ => applyRevoke_clean vault r))
      fun vault key _ j r _ hr => ?_
    obtain ⟨r', -, rfl⟩ := Option.map_eq_some_iff.mp hr
    exact id
  | rotate =>
    refine map_clean_iff.trans (noting_clean_iff.trans (forall₂_congr fun vault key => forall_congr' fun _ => ?_))
    refine (imp_congr_right fun _ => forall₂_congr fun r _ => applyRotate_clean_iff vault r).trans ?_
    refine Iff.trans ?_ (reads_iff (P := FailsHalfway db now vault _))
    refine ⟨fun h r hr hf => h hf.1 r hr ⟨?_, hf.2.2⟩, fun h hseen r hr hf => h r hr ⟨hseen, ?_, hf.2⟩⟩ <;>
      obtain ⟨j, -, hdec⟩ := hr
    · rw [← val_ofNat (rotate_epoch_lt hdec)]
      exact hf.2.1
    · rw [val_ofNat (rotate_epoch_lt hdec)]
      exact hf.1
  | shareGrant =>
    refine map_clean_iff.trans (reading_clean_iff.trans (forall₂_congr fun vault key => forall_congr' fun _ => ?_))
    simp only [applyShareGrant_clean_iff]
    refine Iff.trans ?_ (reads_iff (P := FailsHalfway db now vault _))
    refine forall₂_congr fun r hr => not_congr ?_
    obtain ⟨j, -, hdec⟩ := hr
    change _ ↔ ∃ share, r.shareId.decode16 = some share ∧ Malformed decodeWrap r.wrapped ∧
      ¬ Granted db vault share (Fin.ofNat 4294967296 r.epoch).val (decodedFront decodeWrap r.wrapped)
    rw [val_ofNat (shareGrant_epoch_lt hdec)]
  | shareRotate =>
    refine map_clean_iff.trans (noting_clean_iff.trans (forall₂_congr fun vault key => forall_congr' fun _ => ?_))
    refine (imp_congr_right fun _ => forall₂_congr fun r _ => applyShareRotate_clean_iff vault r).trans ?_
    refine Iff.trans ?_ (reads_iff (P := FailsHalfway db now vault _))
    refine ⟨fun h r hr hf => h hf.1 r hr ?_, fun h hseen r hr hf => h r hr ⟨hseen, ?_⟩⟩ <;> obtain ⟨j, -, hdec⟩ := hr
    · rw [← val_ofNat (shareRotate_epoch_lt hdec)]
      exact hf.2
    · rw [val_ofNat (shareRotate_epoch_lt hdec)]
      exact hf
  | push =>
    refine map_clean_iff.trans (reading_clean_iff.trans (forall₂_congr fun vault key => forall_congr' fun _ => ?_))
    simp only [applyPush_clean_iff]
    exact reads_iff (g := .push) (P := FailsHalfway db now vault _)

/-- The first device moves the vault to its next epoch, and sends a wrap that is not base64. -/
def rotateBroken : Signed :=
  envelope vaultOne (.device 0) 1001 (.json (ClientReq.toJson (.rotate 1
    [⟨.b64 (.ed (.device 1)), .plain "not base64"⟩])))

/-- The relay answers that the wrap is bad, and the vault is in the next epoch. -/
theorem rotate_not_atomic :
    ¬ ∀ (before : List (Now × Request)) (now : Now) (signed : Signed) (e : Endpoint),
      e ∈ [Endpoint.rotate, .shareRotate, .shareGrant, .push] →
      (∃ err, (exec (post now signed e) (afterAll {} before)).1 = .error err) →
      SameTables (afterAll {} before) (exec (post now signed e) (afterAll {} before)).2 := by
  intro h
  have hanswer : (exec (post 1001 rotateBroken .rotate) (afterAll {} joined)).1 = .error (badRequest "wrapped_key") := by
    decide +kernel
  have hvaults := (h joined 1001 rotateBroken .rotate (by decide) ⟨_, hanswer⟩).vaults
  revert hvaults
  decide +kernel

end SshVault.Relay
