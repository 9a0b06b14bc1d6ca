import SshVault.Client.Fleet
import SshVault.Client.Lists

/-!
# Members agree on the keys of a share

Any number of devices remove members from shares and sync. There is one chain of keys that every list is a
beginning of, as long as only the device at its end draws the next key.
-/

open Lib

namespace SshVault

open Relay Service

section

variable {ι : Type} [DecidableEq ι] (first : Bytes → List UInt8) (share : Uuid)

/-! ## Lists in a fleet -/

/-- The keys that a device holds for the share. -/
def keysAt (c : Fleet ι) (i : ι) : List Key := ((fleet first).left (c.job i)).state.vault.keyring.keysOf share

/-- The list that a removal from this share was begun with. -/
def drawnFor (j : Job Task Device Response) : Option (List Key) :=
  match j.task with
  | .shareRemove other _ _ => if other = share then some (j.began.vault.keyring.keysOf share) else none
  | _ => none

def Task.Rotates : Task → Prop
  | .shareRemove .. | .sync => True
  | _ => False

/-- The devices only remove members and sync; and a removal that has not drawn its key yet gets its first answer
only while no other device holds more keys. -/
def Leads (c : Fleet ι) : Event ι Task Clocks → Prop
  | .start _ task => task.Rotates
  | .answer n => ∀ i p, c.running[n]? = some (some i, p) → drawnFor share (c.job i) = some (keysAt first share c i) →
    ∀ j, (keysAt first share c j).length ≤ (keysAt first share c i).length
  | _ => True

/-! ## Wraps of the chain -/

/-- Every stored list of the share is a beginning of the chain. -/
def RowsIn (chain : List Key) (db : Db) : Prop :=
  ∀ m ∈ db.shareMembers, m.shareId = share → ∀ w, m.wrappedKey = .wrapped w → w.payload.keys <+: chain

/-- And every list in an answer. -/
def ReplyIn (chain : List Key) (res : Response) : Prop := ∀ keys, Offers share (some res) keys → keys <+: chain

instance [Fintype ι] (c : Fleet ι) : (e : Event ι Task Clocks) → Decidable (Leads first share c e)
  | .start _ (.shareRemove ..) | .start _ .sync => .isTrue trivial
  | .start _ .idle | .start _ .enroll | .start _ (.join ..) | .start _ (.approve _) | .start _ (.revokeAndRotate ..)
  | .start _ (.createShare ..) | .start _ (.shareAdd ..) => .isFalse id
  | .answer n => decidable_of_iff (∀ i, (c.running[n]?.bind (·.1)) = some i →
      drawnFor share (c.job i) = some (keysAt first share c i) →
        ∀ j, (keysAt first share c j).length ≤ (keysAt first share c i).length) (by
    constructor
    · rintro h i p hp
      exact h i (by rw [hp]; rfl)
    · rintro h i hi
      obtain ⟨⟨tag, p⟩, hp, rfl⟩ := Option.bind_eq_some_iff.mp hi
      exact h i p hp)
  | .send .. | .step _ | .lose _ => .isTrue trivial

variable {first share} {chain : List Key}

theorem RowsIn.mono {chain' : List Key} {db : Db} (h : RowsIn share chain db) (hle : chain <+: chain') :
    RowsIn share chain' db := fun m hm hs w hw => (h m hm hs w hw).trans hle

theorem ReplyIn.mono {chain' : List Key} {res : Response} (h : ReplyIn share chain res) (hle : chain <+: chain') :
    ReplyIn share chain' res := fun keys hoffer => (h keys hoffer).trans hle

theorem ReplyIn.other {res : Response} (h : ∀ l, res ≠ .ok (.shares l)) : ReplyIn share chain res := by
  rintro keys ⟨l, heq, -⟩
  exact absurd (Option.some.inj heq) (h l)

theorem SendsOwn.grants {d : Device} {vault : Wire} {key : EdKey} {r : ClientReq} {shareId : Wire}
    {wrapped : List WrappedFor} (h : SendsOwn d (.post vault key r)) (hr : r.grants = some (shareId, wrapped)) :
    ∃ share, shareId.decode16 = some share ∧ ∀ w ∈ wrapped, WrapsOwn d share w := by
  cases r <;> cases hr
  · obtain ⟨share, rfl, -, -, hwraps⟩ := h
    exact ⟨share, rfl, hwraps⟩
  · obtain ⟨share, rfl, -, -, hwraps, -⟩ := h
    exact ⟨share, rfl, hwraps⟩

/-- Devices that hold a beginning of the chain store nothing else. -/
theorem RowsIn.handled {db : Db} {d : Device} {now : Now} {ts : Int64} {what : Outgoing} (h : RowsIn share chain db)
    (hown : SendsOwn d what) (hd : d.vault.keyring.keysOf share <+: chain) :
    RowsIn share chain (Prog.exec (route now (what.request ts)) db).2 := by
  cases what with
  | recover req => exact hown.elim
  | post vault key r =>
    intro m hm hs w hw
    rcases member_origin r hm with hm | ⟨shareId, wrapped, hgrants, hshare, w', hw', hdec⟩
    · exact h m hm hs w hw
    · obtain ⟨other, hother, hwraps⟩ := hown.grants hgrants
      obtain rfl : other = share := (Option.some.inj (hother.symm.trans hshare)).trans hs
      obtain ⟨ed, x, -, hwrap⟩ := hwraps w' hw'
      rw [hwrap, hw] at hdec
      obtain rfl := Bytes.wrapped.inj (Option.some.inj hdec)
      exact hd
  | _ =>
    rw [handled_same (by simp) (by simp)]
    exact h

theorem RowsIn.answered {db : Db} {now : Now} {ts : Int64} {what : Outgoing} (h : RowsIn share chain db) :
    ReplyIn share chain (Prog.exec (route now (what.request ts)) db).1 := by
  generalize hres : (Prog.exec (route now (what.request ts)) db).1 = res
  cases res with
  | error e => exact .other (by simp)
  | ok reply =>
    cases what with
    | post vault key r => rcases post_reply hres with ⟨r, rfl⟩ | ⟨r, rfl⟩ <;> exact .other (by simp)
    | query action vault key =>
      cases action with
      | shares =>
        obtain ⟨l, hl, rfl⟩ := map_ok hres
        obtain ⟨key', -, -, hrows⟩ := shares_ok hl
        rintro keys ⟨l', heq, m, hm, hshare, w, hw, rfl⟩
        cases heq
        obtain ⟨row, hrow, -, -, rfl⟩ := hrows m hm
        exact h row hrow (Option.some.inj hshare) w (Option.some.inj hw)
      | devices =>
        obtain ⟨l, -, rfl⟩ := map_ok hres
        exact .other (by simp)
      | wrapped =>
        obtain ⟨l, -, rfl⟩ := map_ok hres
        exact .other (by simp)
    | pull vault key since =>
      obtain ⟨l, -, rfl⟩ := map_ok hres
      exact .other (by simp)
    | recover req =>
      obtain ⟨l, -, rfl⟩ := map_ok hres
      exact .other (by simp)

/-! ## One chain -/

/-- Lists that begin one chain still do when one of them stays, becomes a longer beginning of it, or gets an element
more, if no other list was longer. -/
theorem chain_extends {α : Type} {lists : ι → List α} {chain : List α} (hlists : ∀ i, lists i <+: chain)
    (hheld : ∃ i, lists i = chain) {i : ι} {l : List α}
    (hmove : l = lists i ∨ (l <+: chain ∧ (lists i).length < l.length) ∨
      ∃ a, l = lists i ++ [a] ∧ ∀ j, (lists j).length ≤ (lists i).length) :
    lists i <+: l ∧ ∃ chain', chain <+: chain' ∧ (∀ j, Function.update lists i l j <+: chain') ∧
      ∃ j, Function.update lists i l j = chain' := by
  obtain ⟨j, hj⟩ := hheld
  rcases hmove with rfl | ⟨hl, hlt⟩ | ⟨a, rfl, hlead⟩
  · rw [Function.update_eq_self]
    exact ⟨List.prefix_rfl, chain, List.prefix_rfl, hlists, j, hj⟩
  · -- Whoever holds the whole chain is another.
    have hji : j ≠ i := by
      rintro rfl
      rw [hj] at hlt
      exact absurd hl.length_le (not_le.mpr hlt)
    refine ⟨List.prefix_of_prefix_length_le (hlists i) hl hlt.le, chain, List.prefix_rfl, fun m => ?_, j, ?_⟩
    · by_cases hm : m = i
      · subst hm
        rwa [Function.update_self]
      · rw [Function.update_of_ne hm]
        exact hlists m
    · rwa [Function.update_of_ne hji]
  · -- The list at the end of the chain is no longer than this one.
    have hend : lists i = chain := (hlists i).eq_of_length_le (hj ▸ hlead j)
    refine ⟨List.prefix_append _ _, lists i ++ [a], hend ▸ List.prefix_append _ _, fun m => ?_, i, Function.update_self ..⟩
    by_cases hm : m = i
    · subst hm
      rw [Function.update_self]
    · rw [Function.update_of_ne hm, hend]
      exact (hlists m).trans (List.prefix_append _ _)

/-- How a job moves the list. -/
abbrev Paced (first : Bytes → List UInt8) (share : Uuid) (j : Job Task Device Response) : Prop :=
  ((fleet first).left j).Within (fun d => d.vault.keyring.keysOf share) (Moves share (drawnFor share j))
    (fun X d _ => X (d.vault.keyring.keysOf share)) fun _ => True

structure Chained (first : Bytes → List UInt8) (share : Uuid) (chain : List Key) (c : Fleet ι) : Prop where
  lists : ∀ i, keysAt first share c i <+: chain
  held : ∃ i, keysAt first share c i = chain
  paced : ∀ i, Paced first share (c.job i)
  rows : Settles (RowsIn share chain) (fun _ res => ReplyIn share chain res) c

theorem Task.follows {task : Task} (hrot : task.Rotates) (hne : share ≠ nil) (d : Device) :
    ((fleet first).left ⟨task, d, []⟩).Within (fun d => d.vault.keyring.keysOf share)
      (Moves share (drawnFor share ⟨task, d, []⟩)) (fun X d _ => X (d.vault.keyring.keysOf share))
      (· = d.vault.keyring.keysOf share) := by
  have hend : ∀ {α : Type} {drawn : Option (List Key)} {m : Op α},
      Follows share drawn (fun X d _ => X (d.vault.keyring.keysOf share)) (· = d.vault.keyring.keysOf share) m d →
      (Session.Within (fun d => d.vault.keyring.keysOf share) (Moves share drawn)
        (fun X d _ => X (d.vault.keyring.keysOf share)) (· = d.vault.keyring.keysOf share)
        ((do let _ ← m; return ()) d : Session Device Call Answer (Except ClientError Unit))) := by
    intro α drawn m h
    refine Session.Within.bind (Session.Within.imp h fun X d r hr => ?_)
    cases r <;> exact hr
  cases task with
  | shareRemove other code n =>
    refine hend (Devices.shareRemove_follows other code n (fun hs => ?_) rfl)
    unfold drawnFor
    exact if_pos hs
  | sync => exact hend (Sync.syncOnce_follows hne rfl)
  | _ => exact hrot.elim

theorem Paced.hear {j : Job Task Device Response} {s : Device} {r : Call}
    {k : Answer → Session Device Call Answer (Except ClientError Unit)} (h : Paced first share j)
    (hleft : (fleet first).left j = .ask s r k) (a : Answer) :
    Moves share (drawnFor share j) (s.vault.keyring.keysOf share) a
        (((fleet first).left (j.hear a)).state.vault.keyring.keysOf share) ∧
      Paced first share (j.hear a) := by
  unfold Paced at h
  rw [hleft] at h
  have hnext := h.2 a
  unfold Paced
  rw [(fleet first).left_hear j hleft a]
  exact ⟨hnext.state, hnext.mono (fun _ _ => trivial) fun _ _ _ => trivial⟩

variable {c d : Fleet ι}

theorem keysAt_update {i : ι} {j : Job Task Device Response} {running : List (Option ι × Prog Db Response)} {db : Db} :
    keysAt first share (⟨db, Function.update c.job i j, running⟩ : Fleet ι) =
      Function.update (keysAt first share c) i (((fleet first).left j).state.vault.keyring.keysOf share) := by
  funext m
  unfold keysAt
  dsimp only
  by_cases hm : m = i
  · subst hm
    rw [Function.update_self, Function.update_self]
  · rw [Function.update_of_ne hm, Function.update_of_ne hm]

theorem Chained.hear (h : Chained first share chain c) {i : ι} {s : Device} {r : Call}
    {k : Answer → Session Device Call Answer (Except ClientError Unit)} (hleft : (fleet first).left (c.job i) = .ask s r k)
    {a : Answer} (ha : ∀ keys, Offers share a keys → keys <+: chain)
    (hlead : a ≠ none → drawnFor share (c.job i) = some (keysAt first share c i) →
      ∀ j, (keysAt first share c j).length ≤ (keysAt first share c i).length)
    {db : Db} {running : List (Option ι × Prog Db Response)}
    (hrows : Settles (RowsIn share chain) (fun _ res => ReplyIn share chain res)
      (⟨db, Function.update c.job i ((c.job i).hear a), running⟩ : Fleet ι)) :
    (∃ chain', Chained first share chain' (⟨db, Function.update c.job i ((c.job i).hear a), running⟩ : Fleet ι)) ∧
      ∀ j, keysAt first share c j <+:
        keysAt first share (⟨db, Function.update c.job i ((c.job i).hear a), running⟩ : Fleet ι) j := by
  obtain ⟨hmove, hpaced⟩ := (h.paced i).hear hleft a
  have hkeys : keysAt first share c i = s.vault.keyring.keysOf share := by
    unfold keysAt
    rw [hleft]
    rfl
  rw [← hkeys] at hmove
  -- A list from the answer begins the chain; a drawn key goes on a list that none is longer than.
  have hcases : ∀ l, Moves share (drawnFor share (c.job i)) (keysAt first share c i) a l →
      l = keysAt first share c i ∨ (l <+: chain ∧ (keysAt first share c i).length < l.length) ∨
        ∃ key, l = keysAt first share c i ++ [key] ∧
          ∀ j, (keysAt first share c j).length ≤ (keysAt first share c i).length := by
    intro l hl
    cases hl with
    | stays => exact Or.inl rfl
    | takes hoffer hlt => exact Or.inr (Or.inl ⟨ha _ hoffer, hlt⟩)
    | draws key hdrawn hsome => exact Or.inr (Or.inr ⟨key, rfl, hlead hsome hdrawn⟩)
  obtain ⟨hgrows, chain', hle, hlists, hheld⟩ := chain_extends h.lists h.held (hcases _ hmove)
  refine ⟨⟨chain', ?_, ?_, fun m => ?_, hrows.imp (fun _ h => h.mono hle) (fun _ _ h => h.mono hle) _⟩, fun m => ?_⟩
  · rw [keysAt_update]
    exact hlists
  · rw [keysAt_update]
    exact hheld
  · dsimp only
    by_cases hm : m = i
    · subst hm
      rwa [Function.update_self]
    · rw [Function.update_of_ne hm]
      exact h.paced m
  · rw [keysAt_update]
    by_cases hm : m = i
    · subst hm
      rwa [Function.update_self]
    · rw [Function.update_of_ne hm]

/-- The relay is careful, and only the device at the end of the chain draws a key. -/
def Orderly (first : Bytes → List UInt8) (share : Uuid) (c : Fleet ι) (e : Event ι Task Clocks) : Prop :=
  Careful first c e ∧ Leads first share c e

instance [Fintype ι] (c : Fleet ι) (e : Event ι Task Clocks) : Decidable (Orderly first share c e) :=
  inferInstanceAs (Decidable (_ ∧ _))

theorem Chained.next {joined : Wire → EdKey → Prop} {e : Event ι Task Clocks} (hne : share ≠ nil)
    (h : Chained first share chain c) (hkept : Kept first joined c) (hok : Orderly first share c e)
    (hnext : (fleet first).next c e = some d) :
    (∃ chain', Chained first share chain' d) ∧ ∀ i, keysAt first share c i <+: keysAt first share d i := by
  cases next_happens hnext with
  | @start i task s a hleft =>
    have hfollows := @Task.follows first share task hok.2 hne s
    have hstate : keysAt first share c i = s.vault.keyring.keysOf share := by
      unfold keysAt
      rw [hleft]
      rfl
    have hkeys : keysAt first share (⟨c.shared, Function.update c.job i ⟨task, s, []⟩, c.running⟩ : Fleet ι) =
        keysAt first share c := by
      rw [keysAt_update, hfollows.state, ← hstate, Function.update_eq_self]
    refine ⟨⟨chain, ?_, ?_, fun m => ?_, h.rows.imp (fun _ h => h) (fun _ _ h => h) _⟩, fun m => ?_⟩
    · rw [hkeys]
      exact h.lists
    · rw [hkeys]
      exact h.held
    · dsimp only
      by_cases hm : m = i
      · subst hm
        rw [Function.update_self]
        exact hfollows.mono (fun _ _ => trivial) fun _ _ _ => trivial
      · rw [Function.update_of_ne hm]
        exact h.paced m
    · rw [hkeys]
  | @send i clocks s call k hleft =>
    have hquiet : c.running = [] := hok.1.1
    have hdb := h.rows.quiet hquiet
    have hown : SendsOwn s call.what := by
      have hjob := hkept.jobs i
      rw [hleft] at hjob
      exact hjob.1.2
    -- It wraps the list as it holds it, and the relay stores that.
    have hlist : s.vault.keyring.keysOf share <+: chain := by
      have hlist := h.lists i
      unfold keysAt at hlist
      rw [hleft] at hlist
      exact hlist
    refine ⟨⟨chain, h.lists, h.held, h.paced, Or.inr ⟨some i, _, by rw [hquiet]; rfl, ?_, ?_⟩⟩, fun m => List.prefix_rfl⟩
    · exact hdb.handled hown hlist
    · exact hdb.answered
  | step hrun => exact ⟨⟨chain, h.lists, h.held, h.paced, h.rows.step hrun⟩, fun m => List.prefix_rfl⟩
  | @answer n i res hrun =>
    obtain ⟨hidle, hdb, hreply⟩ := h.rows.answer hrun
    obtain ⟨-, -, htag⟩ := hkept.settles.answer hrun
    obtain ⟨s, r, k, hleft, -⟩ := htag i rfl
    exact h.hear hleft hreply (fun _ hdrawn => hok.2 i _ hrun hdrawn) (Or.inl ⟨hidle, hdb⟩)
  | unheard hrun =>
    obtain ⟨hidle, hdb, -⟩ := h.rows.answer hrun
    exact ⟨⟨chain, h.lists, h.held, h.paced, Or.inl ⟨hidle, hdb⟩⟩, fun m => List.prefix_rfl⟩
  | @lose i s r k hleft =>
    -- A lost answer offers no list, and no key is drawn for it.
    refine h.hear hleft (fun keys hoffer => ?_) (fun hsome => absurd rfl hsome)
      (h.rows.lose i _ (fun _ _ h _ => h) fun _ _ h => h)
    obtain ⟨l, hl, -⟩ := hoffer
    cases hl

/-! ## Runs -/

/-- Some device holds a list that every other list of the share begins, on a device or at the relay. -/
def Shared (first : Bytes → List UInt8) (share : Uuid) (c : Fleet ι) : Prop :=
  ∃ i, (∀ j, keysAt first share c j <+: keysAt first share c i) ∧ RowsIn share (keysAt first share c i) c.shared

omit [DecidableEq ι] in
theorem Starts.chained (hstart : Starts c) (hshared : Shared first share c) : ∃ chain, Chained first share chain c := by
  obtain ⟨i, hlists, hrows⟩ := hshared
  refine ⟨_, hlists, ⟨i, rfl⟩, fun j => ?_, Or.inl ⟨hstart.quiet, hrows⟩⟩
  obtain ⟨d, hjob, -⟩ := hstart.idle j
  rw [hjob]
  trivial

/-- What holds at every point of an orderly run. -/
structure Agreeing (first : Bytes → List UInt8) (share : Uuid) (c : Fleet ι) : Prop where
  kept : Kept first (fun _ _ => False) c
  chained : ∃ chain, Chained first share chain c

omit [DecidableEq ι] in
theorem Agreeing.start (hstart : Starts c) (hshared : Shared first share c) : Agreeing first share c :=
  ⟨hstart.kept fun _ _ h => h.elim, hstart.chained hshared⟩

theorem Agreeing.run (hne : share ≠ nil) {events : List (Event ι Task Clocks)} (h : Agreeing first share c)
    (hrun : (fleet first).Runs (Orderly first share) c events d) :
    Agreeing first share d ∧ ∀ i, keysAt first share c i <+: keysAt first share d i := by
  refine hrun.keeps (P := fun d => Agreeing first share d ∧ ∀ i, keysAt first share c i <+: keysAt first share d i)
    (fun c' e d' hok hnext h' => ?_) ⟨h, fun i => List.prefix_rfl⟩
  obtain ⟨⟨hkept, chain, hchained⟩, hgrew⟩ := h'
  obtain ⟨hchained', hgrew'⟩ := hchained.next hne hkept hok hnext
  exact ⟨⟨hkept.next hok.1 hnext, hchained'⟩, fun i => (hgrew i).trans (hgrew' i)⟩

omit [DecidableEq ι] in
theorem Agreeing.comparable (h : Agreeing first share c) (i j : ι) :
    keysAt first share c i <+: keysAt first share c j ∨ keysAt first share c j <+: keysAt first share c i := by
  obtain ⟨chain, hchained⟩ := h.chained
  exact List.prefix_or_prefix_of_prefix (hchained.lists i) (hchained.lists j)

/-- The memberships that an answer lists. -/
def memberships : Answer → List ShareMembership
  | some (.ok (.shares l)) => l
  | _ => []

/-- In this conversation the device was told that the share is at this epoch. -/
def Told (share : Uuid) (epoch : Nat) (talk : List (Call × Answer)) : Prop :=
  ∃ x ∈ talk, ∃ m ∈ memberships x.2, m.shareId.decode16 = some share ∧ m.epoch = epoch

instance (share : Uuid) (epoch : Nat) (talk : List (Call × Answer)) : Decidable (Told share epoch talk) :=
  inferInstanceAs (Decidable (∃ x ∈ talk, ∃ m ∈ memberships x.2, _))

omit [DecidableEq ι] in
theorem Agreeing.length {i : ι} {d : Device} {epoch : Nat} (hne : share ≠ nil) (h : Agreeing first share c)
    (hsync : Synced first (c.job i) d) (htold : Told share epoch ((fleet first).talk (c.job i))) :
    epoch + 1 ≤ (keysAt first share c i).length := by
  obtain ⟨⟨call, a⟩, hmem, m, hm, hshare, rfl⟩ := htold
  have hlist : ∃ l, a = some (.ok (.shares l)) ∧ m ∈ l := by
    dsimp only at hm
    unfold memberships at hm
    split at hm
    · exact ⟨_, rfl, hm⟩
    · cases hm
  obtain ⟨l, rfl, hm⟩ := hlist
  have hlen := (h.kept.healed hsync).shares call l hmem m hm share hshare hne
  unfold keysAt
  rw [hsync.2]
  exact hlen

/-- **Agreement.** In an orderly run, of the lists of any two devices one begins the other. Two devices whose rounds
have ended well and were told the same epoch, and that hold no key beyond it, open whatever the other has
sealed under any key that it held. -/
theorem members_agree {c₀ c₁ c : Fleet ι} {events₁ events₂ : List (Event ι Task Clocks)} (hne : share ≠ nil)
    (hstart : Starts c₀) (hshared : Shared first share c₀)
    (hrun₁ : (fleet first).Runs (Orderly first share) c₀ events₁ c₁)
    (hrun₂ : (fleet first).Runs (Orderly first share) c₁ events₂ c) :
    (∀ i j, keysAt first share c i <+: keysAt first share c j ∨ keysAt first share c j <+: keysAt first share c i) ∧
    ∀ i j d d' epoch, Synced first (c.job i) d → Synced first (c.job j) d' →
      Told share epoch ((fleet first).talk (c.job i)) → Told share epoch ((fleet first).talk (c.job j)) →
      (keysAt first share c i).length ≤ epoch + 1 → (keysAt first share c j).length ≤ epoch + 1 →
      ∀ k ∈ keysAt first share c₁ j, ∀ entryId r,
        d.vault.keyring.openEntry entryId (Crypto.sealBlob k (.record r) entryId) = .ok (some r) := by
  obtain ⟨hagree₁, -⟩ := (Agreeing.start hstart hshared).run hne hrun₁
  obtain ⟨hagree, hgrew⟩ := hagree₁.run hne hrun₂
  refine ⟨hagree.comparable, fun i j d d' epoch hi hj htoldi htoldj hlei hlej k hk entryId r => ?_⟩
  have hleni := hagree.length hne hi htoldi
  have hlenj := hagree.length hne hj htoldj
  -- Both hold all the keys up to the epoch that they were told of, and one list begins the other.
  have hsame : keysAt first share c j = keysAt first share c i := by
    rcases hagree.comparable i j with h | h
    · exact (h.eq_of_length (by omega)).symm
    · exact h.eq_of_length (by omega)
  have hmem : k ∈ d.vault.keyring.keysOf share := by
    have := (hgrew j).subset hk
    rw [hsame] at this
    unfold keysAt at this
    rw [hi.2] at this
    exact this
  exact Keyring.openEntry_eq_some.mpr ⟨k, Keyring.keysOf_subset hmem, rfl⟩

end

/-! ### Two removals -/

namespace Race

open Visit

def share : Uuid := 9

def key : Key := .random share 0 0

/-- A member of the share, at its first epoch. -/
def member (n : Nat) : Device :=
  ((newDevice n (.vault 0 0)).perform (·.absorbShareKey share ⟨[key], 0⟩)).perform fun v => do
    let v ← v.setRelayUrl "relay"
    return ((.ok () : Except VaultError Unit), v)

def deviceRow (n : Nat) : DeviceRow :=
  ⟨vault, .ed (.device n), .x n, .plain "device", true, false, some (Crypto.wrapVaultKey ⟨[.vault 0 0], 0⟩ (.x n) (.ed (.device n)))⟩

def memberRow (n : Nat) : MemberRow := ⟨vault, share, .ed (.device n), Crypto.wrapVaultKey ⟨[key], 0⟩ (.x n) (.ed (.device n))⟩

def before : Fleet (Fin 3) where
  shared :=
    { vaults := [⟨vault, .ed (.recovery 0), 0⟩]
      devices := [deviceRow 0, deviceRow 1, deviceRow 2]
      shares := [⟨vault, share, 0⟩]
      shareMembers := [memberRow 0, memberRow 1, memberRow 2] }
  job i := ⟨.idle, member i, []⟩

/-- A removal of device 2. -/
def removal (n : Nat) : Task := .shareRemove share (shortCode byNumber (.b64 (.ed (.device 2)))) n

def round (i : Fin 3) : List (Event (Fin 3) Task Clocks) :=
  .start i .sync :: exchange i 2 ++ exchange i 2 ++ exchange i 2 ++ exchange i 3

/-- Device 0 removes device 2, and then both members sync. -/
def oneRemoval : List (Event (Fin 3) Task Clocks) :=
  .start 0 (removal 1) :: exchange 0 2 ++ exchange 0 2 ++ exchange 0 2 ++ exchange 0 2 ++ exchange 0 8 ++ round 0 ++ round 1

/-- Both members remove device 2 at the same time. The relay takes the rotation of device 0. -/
def twoRemovals : List (Event (Fin 3) Task Clocks) :=
  .start 0 (removal 1) :: .start 1 (removal 2) :: exchange 0 2 ++ exchange 1 2 ++ exchange 0 2 ++ exchange 1 2 ++
    exchange 0 2 ++ exchange 1 2 ++ exchange 0 2 ++ exchange 1 2 ++ exchange 0 8 ++ exchange 1 5 ++ round 0 ++ round 1

theorem member_filled (n : Nat) : (member n).Filled := by
  refine ⟨fun id s hs => ?_, rfl⟩
  have hmem : s ∈ [(⟨nil, [.vault 0 0]⟩ : ShareKeys), ⟨share, [key]⟩] := List.mem_of_find?_eq_some hs
  rcases List.mem_pair.mp hmem with rfl | rfl <;> exact List.cons_ne_nil _ _

theorem before_starts : Starts before := by
  refine ⟨rfl, fun i => ⟨_, rfl, member_filled i⟩, ?_⟩
  refine ⟨List.nodup_singleton _, List.nodup_singleton _, fun r hr _ b hb => ?_, fun m hm _ => ?_⟩
  · simp only [before, List.mem_cons, List.not_mem_nil, or_false] at hr
    rcases hr with rfl | rfl | rfl <;> obtain rfl := Option.some.inj hb <;> exact show 0 + 1 ≤ 1 from le_rfl
  · simp only [before, List.mem_cons, List.not_mem_nil, or_false] at hm
    rcases hm with rfl | rfl | rfl <;> exact show 0 + 1 ≤ 1 from le_rfl

theorem before_shared : Shared byNumber share before := by
  refine ⟨0, fun j => List.prefix_rfl, fun m hm _ w hw => ?_⟩
  simp only [before, List.mem_cons, List.not_mem_nil, or_false] at hm
  rcases hm with rfl | rfl | rfl <;> obtain rfl := Bytes.wrapped.inj hw <;> exact List.prefix_rfl

/-- Where the round of a device has ended, if it has ended well. -/
def ended (j : Job Task Device Response) : Option Device :=
  match j.task, (fleet byNumber).left j with
  | .sync, .done d (.ok ()) => some d
  | _, _ => none

theorem ended_synced {j : Job Task Device Response} {d : Device} (h : ended j = some d) : Synced byNumber j d := by
  unfold ended at h
  split at h
  · rename_i htask hleft
    obtain rfl := Option.some.inj h
    exact ⟨htask, hleft⟩
  · cases h

/-- The rounds of both members have ended well, they were told epoch 1, and these are their keys. -/
structure Ends (keys keys' : List Key) (c : Fleet (Fin 3)) : Prop where
  ended : (ended (c.job 0)).isSome ∧ (ended (c.job 1)).isSome
  told : Told share 1 ((fleet byNumber).talk (c.job 0)) ∧ Told share 1 ((fleet byNumber).talk (c.job 1))
  keys : keysAt byNumber share c 0 = keys ∧ keysAt byNumber share c 1 = keys'

instance (keys keys' : List Key) (c : Fleet (Fin 3)) : Decidable (Ends keys keys' c) :=
  decidable_of_iff (_ ∧ _ ∧ _) ⟨fun ⟨h, h', h''⟩ => ⟨h, h', h''⟩, fun h => ⟨h.ended, h.told, h.keys⟩⟩

theorem Ends.synced {keys keys' : List Key} {c : Fleet (Fin 3)} (h : Ends keys keys' c) :
    ∃ d d', d ∈ Race.ended (c.job 0) ∧ Synced byNumber (c.job 0) d ∧ Synced byNumber (c.job 1) d' := by
  obtain ⟨d, hd⟩ := Option.isSome_iff_exists.mp h.ended.1
  obtain ⟨d', hd'⟩ := Option.isSome_iff_exists.mp h.ended.2
  exact ⟨d, d', hd, ended_synced hd, ended_synced hd'⟩

def drawn (n : Nat) : Key := .random share 1 n

end Race

open Race

theorem members_agree_removal :
    ∃ c d d', (fleet byNumber).Runs (Orderly byNumber Race.share) Race.before oneRemoval c ∧
      Synced byNumber (c.job 0) d ∧ Synced byNumber (c.job 1) d' ∧
      Told Race.share 1 ((fleet byNumber).talk (c.job 0)) ∧ Told Race.share 1 ((fleet byNumber).talk (c.job 1)) ∧
      drawn 1 ∈ keysAt byNumber Race.share c 1 ∧ ∀ entryId r,
        d.vault.keyring.openEntry entryId (Crypto.sealBlob (drawn 1) (.record r) entryId) = .ok (some r) := by
  have hrun : ((fleet byNumber).run (Orderly byNumber Race.share) Race.before oneRemoval).any
      (Ends [key, drawn 1] [key, drawn 1]) = true := by
    decide +kernel
  obtain ⟨c, hc, hends⟩ := (Option.any_eq_true _ _).mp hrun
  have hends := of_decide_eq_true hends
  obtain ⟨d, d', -, hd, hd'⟩ := hends.synced
  have hmem : drawn 1 ∈ keysAt byNumber Race.share c 1 := by
    rw [hends.keys.2]
    decide
  have hnone : (fleet byNumber).Runs (Orderly byNumber Race.share) c [] c := rfl
  have hall := (members_agree (by decide) Race.before_starts before_shared (runs_of_run hc) hnone).2 0 1 d d' 1
    hd hd' hends.told.1 hends.told.2 (by rw [hends.keys.1]; decide) (by rw [hends.keys.2]; decide)
  exact ⟨c, d, d', runs_of_run hc, hd, hd', hends.told.1, hends.told.2, hmem, hall (drawn 1) hmem⟩

/-- Two members remove a device at once. Each draws a key before it asks the relay, and the one that is refused
keeps its key: it is told epoch 1, holds two keys, and has nothing to heal. -/
theorem rival_removals_diverge :
    Starts Race.before ∧ Shared byNumber Race.share Race.before ∧
    ∃ c d d', (fleet byNumber).Runs Serial Race.before twoRemovals c ∧
      Synced byNumber (c.job 0) d ∧ Synced byNumber (c.job 1) d' ∧
      Told Race.share 1 ((fleet byNumber).talk (c.job 0)) ∧ Told Race.share 1 ((fleet byNumber).talk (c.job 1)) ∧
      ¬ (keysAt byNumber Race.share c 0 <+: keysAt byNumber Race.share c 1 ∨
        keysAt byNumber Race.share c 1 <+: keysAt byNumber Race.share c 0) ∧
      ¬ ∀ k ∈ keysAt byNumber Race.share c 1, ∀ entryId r,
        d.vault.keyring.openEntry entryId (Crypto.sealBlob k (.record r) entryId) = .ok (some r) := by
  have hrun : ((fleet byNumber).run Serial Race.before twoRemovals).any fun c =>
      Ends [key, drawn 1] [key, drawn 2] c ∧ ∀ d ∈ ended (c.job 0), drawn 2 ∉ d.vault.keyring.allKeys := by
    decide +kernel
  obtain ⟨c, hc, hcheck⟩ := (Option.any_eq_true _ _).mp hrun
  obtain ⟨hends, hlacks⟩ := of_decide_eq_true hcheck
  obtain ⟨d, d', hended, hd, hd'⟩ := hends.synced
  refine ⟨Race.before_starts, before_shared, c, d, d', runs_of_run hc, hd, hd', hends.told.1, hends.told.2, ?_, fun hopen => ?_⟩
  · rw [hends.keys.1, hends.keys.2]
    decide
  · have hmem : drawn 2 ∈ keysAt byNumber Race.share c 1 := by
      rw [hends.keys.2]
      decide
    obtain ⟨k, hk, hblob⟩ := Keyring.openEntry_eq_some.mp (hopen (drawn 2) hmem 5 ⟨5, .host, ∅, none, ⟨0, 0⟩, 0, 0, share⟩)
    obtain rfl : drawn 2 = k := congrArg Sealed.key (Bytes.sealed.inj hblob)
    exact hlacks d hended hk

end SshVault
