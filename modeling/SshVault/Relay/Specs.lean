import SshVault.Relay.Handlers

/-!
# Handlers run as a whole

What each handler answers and leaves in the database when nothing comes between its
statements.
-/

open Lib Prog

namespace SshVault.Relay

/-! ## Authentication -/

theorem verify_ok {now : Int64} {signed : Signed} {vault : Wire} {key : EdKey}
    (h : verify now signed = .ok (vault, key)) :
    inWindow now signed.ts = true ∧ vault = signed.vaultId ∧ signed.devicePub.decodeEd = some key ∧
      signed.sig.signature = some ⟨key, .request signed.ts signed.body⟩ := by
  unfold verify at h
  split at h
  · cases h
  rename_i hwin
  split at h
  · cases h
  rename_i k hk
  split at h
  · cases h
  rename_i sig hsig
  split at h
  · rename_i heq
    obtain ⟨rfl, rfl⟩ := Prod.mk.inj (Except.ok.inj h)
    exact ⟨by simpa using hwin, rfl, hk, heq ▸ hsig⟩
  · cases h

theorem exec_authorize (now : Now) (signed : Signed) (refusal : String) (db : Db) :
    exec (authorize now signed refusal) db =
      (match verify now.verify signed with
        | .error e => .error e
        | .ok (vault, key) => if db.canSync vault key then .ok (vault, key) else .error (forbidden refusal), db) := by
  unfold authorize
  cases hv : verify now.verify signed with
  | error e => rfl
  | ok out =>
    obtain ⟨vault, key⟩ := out
    simp only [exec_bind, exec_liftExcept]
    have hcan : exec (liftM (canSync vault key) : Handler Bool) db = (.ok (db.canSync vault key), db) := rfl
    rw [hcan]
    dsimp only
    cases db.canSync vault key <;> rfl

/-- The signatures noted after `sig` is, with the expired ones dropped. -/
def notedSigs (now : Int64) (sig : Sig) (db : Db) : List SeenSig :=
  Table.insertOrIgnore SeenSig.sig ⟨sig, now + maxSkewSecs⟩ (db.seenSigs.filter fun s => ¬ s.expiresAt < now)

/-- No note of this signature is still in force. -/
def Unseen (now : Int64) (sig : Sig) (db : Db) : Prop := ∀ s ∈ db.seenSigs, s.sig = sig → s.expiresAt < now

instance (now : Int64) (sig : Sig) (db : Db) : Decidable (Unseen now sig db) :=
  inferInstanceAs (Decidable (∀ s ∈ db.seenSigs, s.sig = sig → s.expiresAt < now))

theorem exec_markSeen (now : Int64) (sig : Sig) (db : Db) :
    exec (markSeen now (.b64 sig)) db =
      (.ok (decide (Unseen now sig db)), { db with seenSigs := notedSigs now sig db }) := by
  have hrun : exec (markSeen now (.b64 sig)) db =
      (.ok (decide ¬ (db.seenSigs.filter fun s => ¬ s.expiresAt < now).any (·.sig = sig)),
        { db with seenSigs := notedSigs now sig db }) := rfl
  have hunseen : (¬ (db.seenSigs.filter fun s => ¬ s.expiresAt < now).any (·.sig = sig)) ↔ Unseen now sig db := by
    unfold Unseen
    simp only [List.any_eq_true, List.mem_filter, decide_eq_true_eq, not_exists, not_and, and_imp]
    exact forall₂_congr fun s _ => ⟨fun h hs => not_not.mp fun hn => h hn hs, fun h hn hs => hn (h hs)⟩
  rw [hrun, decide_eq_decide.mpr hunseen]

/-! ## Tables -/

/-- The five tables that hold what clients stored. -/
structure SameTables (db db' : Db) : Prop where
  vaults : db'.vaults = db.vaults
  devices : db'.devices = db.devices
  entries : db'.entries = db.entries
  shares : db'.shares = db.shares
  shareMembers : db'.shareMembers = db.shareMembers

theorem SameTables.refl (db : Db) : SameTables db db := ⟨rfl, rfl, rfl, rfl, rfl⟩

/-! ## Sequence numbers -/

theorem le_foldr_max {l : List Nat} {n : Nat} (h : n ∈ l) : n ≤ l.foldr max 0 := by
  induction l with
  | nil => cases h
  | cons m l ih =>
    rcases List.mem_cons.mp h with rfl | h
    · exact le_max_left _ _
    · exact (ih h).trans (le_max_right _ _)

theorem lt_nextSeq {db : Db} {e : EntryRow} (he : e ∈ db.entries) : e.seq < db.nextSeq :=
  Nat.lt_succ_of_le ((le_foldr_max (List.mem_map_of_mem he)).trans (le_max_right _ _))

/-- An entry that is there is ignored, and uses up a number. -/
theorem insertEntry_held {vault : Wire} {entryId blob : Bytes} {share : Uuid} {db : Db}
    (h : ∃ row ∈ db.entries, row.key = (vault, entryId)) :
    ((Db.insertEntry vault entryId blob share).run db).2 = { db with lastSeq := db.nextSeq } := by
  change { db with entries := Table.insertOrIgnore EntryRow.key _ db.entries, lastSeq := db.nextSeq } = _
  rw [Table.insertOrIgnore_eq_self.mpr h]

/-! ## Loops -/

/-- The statement of a loop, once for each decoded element. -/
def runAll {γ : Type} (stmt : γ → Prog Db Nat) (l : List γ) (db : Db) : Db :=
  l.foldl (fun db c => ((stmt c).run db).2) db

theorem exec_forEach {β γ : Type} (decode : β → Except HttpError γ) (stmt : γ → Prog Db Nat) (l : List β) (db : Db) :
    ∃ ran, (∀ c ∈ ran, ∃ b ∈ l, decode b = .ok c) ∧ (exec (forEach decode stmt l) db).2 = runAll stmt ran db ∧
      ((∃ n, (exec (forEach decode stmt l) db).1 = .ok n) ∧ l.mapM decode = .ok ran ∨
        ∃ e, (exec (forEach decode stmt l) db).1 = .error e ∧ l.mapM decode = .error e) := by
  induction l generalizing db with
  | nil => exact ⟨[], by simp, rfl, Or.inl ⟨⟨0, rfl⟩, rfl⟩⟩
  | cons b l ih =>
    unfold forEach
    rw [List.mapM_cons]
    simp only [exec_bind, exec_liftExcept, exec_lift]
    cases hb : decode b with
    | error e => exact ⟨[], by simp, rfl, Or.inr ⟨e, rfl, rfl⟩⟩
    | ok c =>
      obtain ⟨ran, hmem, hdb, hres⟩ := ih ((stmt c).run db).2
      dsimp only
      refine ⟨c :: ran, ?_, ?_, ?_⟩
      · intro c' hc'
        rcases List.mem_cons.mp hc' with rfl | hc'
        · exact ⟨b, List.mem_cons_self, hb⟩
        · obtain ⟨b', hb', hdec⟩ := hmem c' hc'
          exact ⟨b', List.mem_cons_of_mem _ hb', hdec⟩
      · change _ = runAll stmt ran _
        rw [← hdb]
        rcases exec (forEach decode stmt l) ((stmt c).run db).2 with ⟨_ | _, _⟩ <;> rfl
      · generalize exec (forEach decode stmt l) ((stmt c).run db).2 = out at hres ⊢
        obtain ⟨res, db'⟩ := out
        rcases hres with ⟨⟨n, hn⟩, hl⟩ | ⟨e, he, hl⟩
        · obtain rfl : res = .ok n := hn
          exact Or.inl ⟨⟨_, rfl⟩, by rw [hl]; rfl⟩
        · obtain rfl : res = .error e := he
          exact Or.inr ⟨e, rfl, by rw [hl]; rfl⟩

theorem mem_of_mapM_ok {α β ε : Type} {f : α → Except ε β} {l : List α} {out : List β} (h : l.mapM f = .ok out)
    {a : α} (ha : a ∈ l) : ∃ b ∈ out, f a = .ok b := by
  induction l generalizing out with
  | nil => cases ha
  | cons a' l ih =>
    rw [List.mapM_cons] at h
    cases hb : f a' with
    | error e =>
      rw [hb] at h
      exact nomatch (show Except.error e = Except.ok out from h)
    | ok b =>
      cases hl : l.mapM f with
      | error e =>
        rw [hb, hl] at h
        exact nomatch (show Except.error e = Except.ok out from h)
      | ok bs =>
        rw [hb, hl] at h
        obtain rfl : b :: bs = out := Except.ok.inj h
        rcases List.mem_cons.mp ha with rfl | ha
        · exact ⟨b, List.mem_cons_self, hb⟩
        · obtain ⟨b', hb', hf⟩ := ih hl ha
          exact ⟨b', List.mem_cons_of_mem _ hb', hf⟩

theorem forEach_ok_iff {β γ : Type} (decode : β → Except HttpError γ) (stmt : γ → Prog Db Nat) (l : List β) (db : Db) :
    (∃ n, (exec (forEach decode stmt l) db).1 = .ok n) ↔ ∀ b ∈ l, ∃ c, decode b = .ok c := by
  induction l generalizing db with
  | nil => exact iff_of_true ⟨0, rfl⟩ (by simp)
  | cons b l ih =>
    unfold forEach
    simp only [exec_bind, exec_liftExcept, exec_lift, List.forall_mem_cons]
    cases hb : decode b with
    | error e => simp
    | ok c =>
      dsimp only
      rw [← ih ((stmt c).run db).2]
      rcases exec (forEach decode stmt l) ((stmt c).run db).2 with ⟨_ | n, db'⟩
      · simp
      · exact iff_of_true ⟨_, rfl⟩ ⟨⟨c, rfl⟩, n, rfl⟩

theorem runAll_frame {γ δ : Type} (get : Db → δ) {stmt : γ → Prog Db Nat}
    (hstmt : ∀ c db, get ((stmt c).run db).2 = get db) (l : List γ) (db : Db) : get (runAll stmt l db) = get db := by
  induction l generalizing db with
  | nil => rfl
  | cons c l ih => exact (ih _).trans (hstmt c db)

theorem forEach_frame {β γ δ : Type} (get : Db → δ) (decode : β → Except HttpError γ) (stmt : γ → Prog Db Nat)
    (hstmt : ∀ c db, get ((stmt c).run db).2 = get db) (l : List β) (db : Db) :
    get (exec (forEach decode stmt l) db).2 = get db := by
  obtain ⟨ran, -, hdb, -⟩ := exec_forEach decode stmt l db
  rw [hdb]
  exact runAll_frame get hstmt ran db

/-! ## Share epochs -/

/-- The relay takes this epoch: it is the next one of the share, or the first one. -/
def Takes (vault : Wire) (share : Uuid) (epoch : Nat) (t : List ShareRow) : Prop :=
  (∃ s ∈ t, s.key = (vault, share) ∧ s.epoch + 1 = epoch) ∨ ∀ s ∈ t, s.key ≠ (vault, share)

instance (vault : Wire) (share : Uuid) (epoch : Nat) (t : List ShareRow) : Decidable (Takes vault share epoch t) :=
  inferInstanceAs (Decidable (_ ∨ _))

/-- The share moves to the epoch that the relay takes. -/
def Advanced (vault : Wire) (share : Uuid) (epoch : Nat) (t t' : List ShareRow) : Prop :=
  ((∃ s ∈ t, s.key = (vault, share) ∧ s.epoch + 1 = epoch) ∧
    t' = Table.update (fun s => s.key = (vault, share) ∧ s.epoch + 1 = epoch) (fun s => { s with epoch }) t) ∨
  ((∀ s ∈ t, s.key ≠ (vault, share)) ∧ t' = Table.insertOrIgnore ShareRow.key ⟨vault, share, epoch⟩ t)

theorem Advanced.takes {vault : Wire} {share : Uuid} {epoch : Nat} {t t' : List ShareRow}
    (h : Advanced vault share epoch t t') : Takes vault share epoch t :=
  h.imp (·.1) (·.1)

theorem Advanced.ne {vault : Wire} {share : Uuid} {epoch : Nat} {t t' : List ShareRow}
    (h : Advanced vault share epoch t t') : t' ≠ t := by
  rintro rfl
  rcases h with ⟨⟨s, hs, hk, he⟩, heq⟩ | ⟨hfresh, heq⟩
  · have := congrArg ShareRow.epoch (Table.update_eq_self.mp heq.symm s hs (by simp [hk, he]))
    dsimp only at this
    omega
  · obtain ⟨s, hs, hk⟩ := Table.insertOrIgnore_eq_self.mp heq.symm
    exact hfresh s hs hk

theorem exec_advanceShare (vault : Wire) (share : Uuid) (epoch : Nat) (db : Db) :
    if (∃ s ∈ db.shares, s.key = (vault, share) ∧ s.epoch + 1 = epoch) ∨ ∀ s ∈ db.shares, s.key ≠ (vault, share) then
      ∃ t, Advanced vault share epoch db.shares t ∧
        exec (advanceShare vault share epoch) db = (.ok (), { db with shares := t })
    else ∃ e, exec (advanceShare vault share epoch) db = (.error e, db) := by
  unfold advanceShare
  rw [exec_bind, exec_lift]
  let p (s : ShareRow) : Bool := s.key = (vault, share) ∧ s.epoch + 1 = epoch
  let set (s : ShareRow) : ShareRow := { s with epoch }
  have hp : ∀ s, p s = true ↔ s.key = (vault, share) ∧ s.epoch + 1 = epoch := fun s => decide_eq_true_iff
  dsimp only
  by_cases hnext : ∃ s ∈ db.shares, p s = true
  · have hsome : ((Db.bumpShareEpoch vault share epoch).run db).1 ≠ 0 := by
      intro h
      obtain ⟨s, hs, hps⟩ := hnext
      exact Bool.false_ne_true ((Table.affected_eq_zero.mp h s hs).symm.trans hps)
    have hnext' : ∃ s ∈ db.shares, s.key = (vault, share) ∧ s.epoch + 1 = epoch := by simpa only [hp] using hnext
    rw [if_neg hsome, if_pos (Or.inl hnext')]
    exact ⟨Table.update p set db.shares, Or.inl ⟨hnext', rfl⟩, rfl⟩
  · have hnone : Table.affected p db.shares = 0 :=
      Table.affected_eq_zero.mpr fun s hs => by simpa using fun h => hnext ⟨s, hs, h⟩
    have hdb : ((Db.bumpShareEpoch vault share epoch).run db).2 = db := by
      change { db with shares := Table.update p set db.shares } = db
      rw [Table.update_of_unaffected hnone]
    rw [if_pos (show ((Db.bumpShareEpoch vault share epoch).run db).1 = 0 from hnone), hdb, exec_bind, exec_lift]
    have hnonext : ¬ ∃ s ∈ db.shares, s.key = (vault, share) ∧ s.epoch + 1 = epoch := by simpa only [hp] using hnext
    by_cases hfresh : ∀ s ∈ db.shares, s.key ≠ (vault, share)
    · have hans : ((Db.insertShare vault share epoch).run db).1 = true := by
        simpa [Db.insertShare] using hfresh
      rw [if_pos (Or.inr hfresh), hans]
      exact ⟨Table.insertOrIgnore ShareRow.key ⟨vault, share, epoch⟩ db.shares, Or.inr ⟨hfresh, rfl⟩, rfl⟩
    · have hans : ((Db.insertShare vault share epoch).run db).1 = false := by
        simpa [Db.insertShare] using hfresh
      have hex : ∃ s ∈ db.shares, s.key = (vault, share) := by simpa using hfresh
      have htable : Table.insertOrIgnore ShareRow.key ⟨vault, share, epoch⟩ db.shares = db.shares :=
        Table.insertOrIgnore_eq_self.mpr hex
      have hinsert : ((Db.insertShare vault share epoch).run db).2 = db := by
        change ({ db with shares := Table.insertOrIgnore ShareRow.key ⟨vault, share, epoch⟩ db.shares } : Db) = db
        rw [htable]
      rw [if_neg (not_or.mpr ⟨hnonext, hfresh⟩), hans, hinsert]
      exact ⟨_, rfl⟩

end SshVault.Relay
