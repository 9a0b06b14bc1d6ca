import SshVault.Lib.Tenants
import SshVault.Relay.Effects
import SshVault.Relay.Pull

/-!
# Tenants

All vaults share the tables of the relay, and one sequence of entries. A request for one vault changes no row
of another, and is answered without a look at them: two databases with the same rows of this vault, up to
the numbers of its entries, give the same answer, up to these numbers.
-/

open Lib Prog

namespace SshVault

/-! ## The rows of one vault -/

/-- The rows of `vault`, with the signatures that all vaults share. -/
def Db.of (vault : Wire) (db : Db) : Db :=
  { vaults := Table.slice VaultRow.vaultId vault db.vaults
    devices := Table.slice DeviceRow.vaultId vault db.devices
    entries := Table.slice EntryRow.vaultId vault db.entries
    shares := Table.slice ShareRow.vaultId vault db.shares
    shareMembers := Table.slice MemberRow.vaultId vault db.shareMembers
    seenSigs := db.seenSigs }

/-- The rows of `vault` in the five tables. -/
def Db.rows (vault : Wire) (db : Db) : Db := { db.of vault with seenSigs := [] }

def EntryRow.renumber (f : Nat → Nat) (e : EntryRow) : EntryRow := { e with seq := f e.seq }

/-- Gives the entries other sequence numbers. -/
def Db.renumber (f : Nat → Nat) (db : Db) : Db := { db with entries := db.entries.map (·.renumber f) }

/-- The vault that a signed request is for. -/
def Request.tenant : Request → Option Wire
  | .post _ signed => some signed.vaultId
  | .recover _ => none
  | .shares q | .devices q | .wrapped q => some q.vault
  | .pull q => some q.vault

/-- The reply with the renumbered head. -/
def Reply.renumber (f : Nat → Nat) : Reply → Reply
  | .enroll r => .enroll { r with head := f r.head }
  | .push r => .push { r with head := f r.head }
  | .pull r => .pull { r with head := f r.head }
  | r => r

namespace Relay

/-! ## Statements -/

/-- A statement for one vault, on other tables than the entries. -/
structure Local (vault : Wire) {α : Type} (p : Prog Db α) : Prop where
  answer : ∀ db, (p.run db).1 = (p.run (db.of vault)).1
  rows : ∀ db, (p.run db).2.of vault = (p.run (db.of vault)).2
  others : ∀ db other, other ≠ vault → (p.run db).2.rows other = db.rows other
  renumber : ∀ f db, p.run (db.renumber f) = ((p.run db).1, (p.run db).2.renumber f)
  entries : ∀ db, (p.run db).2.entries = db.entries

variable {vault : Wire} {α : Type}

theorem local_read {g : Db → α} (h : ∀ db, g db = g (db.of vault)) (hf : ∀ f db, g (db.renumber f) = g db) :
    Local vault (Prog.atom fun db => (g db, db)) :=
  ⟨h, fun _ => rfl, fun _ _ _ => rfl, fun f db => Prod.ext (hf f db) rfl, fun _ => rfl⟩

theorem local_vaults {a : List VaultRow → α} {g : List VaultRow → List VaultRow}
    (h : Table.Sliced VaultRow.vaultId vault a g) :
    Local vault (Prog.atom fun db => (a db.vaults, { db with vaults := g db.vaults })) where
  answer db := h.answer db.vaults
  rows db := congrArg (fun l => ({ db.of vault with vaults := l } : Db)) (h.rows db.vaults)
  others db other hne := congrArg (fun l => ({ db.rows other with vaults := l } : Db)) (h.others db.vaults other hne)
  renumber _ _ := rfl
  entries _ := rfl

theorem local_devices {a : List DeviceRow → α} {g : List DeviceRow → List DeviceRow}
    (h : Table.Sliced DeviceRow.vaultId vault a g) :
    Local vault (Prog.atom fun db => (a db.devices, { db with devices := g db.devices })) where
  answer db := h.answer db.devices
  rows db := congrArg (fun l => ({ db.of vault with devices := l } : Db)) (h.rows db.devices)
  others db other hne := congrArg (fun l => ({ db.rows other with devices := l } : Db)) (h.others db.devices other hne)
  renumber _ _ := rfl
  entries _ := rfl

theorem local_shares {a : List ShareRow → α} {g : List ShareRow → List ShareRow}
    (h : Table.Sliced ShareRow.vaultId vault a g) :
    Local vault (Prog.atom fun db => (a db.shares, { db with shares := g db.shares })) where
  answer db := h.answer db.shares
  rows db := congrArg (fun l => ({ db.of vault with shares := l } : Db)) (h.rows db.shares)
  others db other hne := congrArg (fun l => ({ db.rows other with shares := l } : Db)) (h.others db.shares other hne)
  renumber _ _ := rfl
  entries _ := rfl

theorem local_members {a : List MemberRow → α} {g : List MemberRow → List MemberRow}
    (h : Table.Sliced MemberRow.vaultId vault a g) :
    Local vault (Prog.atom fun db => (a db.shareMembers, { db with shareMembers := g db.shareMembers })) where
  answer db := h.answer db.shareMembers
  rows db := congrArg (fun l => ({ db.of vault with shareMembers := l } : Db)) (h.rows db.shareMembers)
  others db other hne :=
    congrArg (fun l => ({ db.rows other with shareMembers := l } : Db)) (h.others db.shareMembers other hne)
  renumber _ _ := rfl
  entries _ := rfl

theorem local_seen {a : List SeenSig → α} {g : List SeenSig → List SeenSig} :
    Local vault (Prog.atom fun db => (a db.seenSigs, { db with seenSigs := g db.seenSigs })) :=
  ⟨fun _ => rfl, fun _ => rfl, fun _ _ _ => rfl, fun _ _ => rfl, fun _ => rfl⟩

theorem device_of (db : Db) (pub : Bytes) : db.device vault pub = (db.of vault).device vault pub :=
  Table.find_slice (fun _ h => (Prod.mk.inj (of_decide_eq_true h)).1) _

theorem selectDevice_local (pub : Bytes) : Local vault (Db.selectDevice vault pub) :=
  local_read (fun db => device_of db pub) fun _ _ => rfl

theorem canSync_of (db : Db) (key : EdKey) : db.canSync vault key = (db.of vault).canSync vault key :=
  congrArg (Option.any DeviceRow.canSync) (device_of db (.ed key))

theorem selectDevices_local : Local vault (Db.selectDevices vault) :=
  local_read (fun db => by
    change db.devices.filter _ = List.filter _ (List.filter _ db.devices)
    rw [List.filter_filter]
    exact List.filter_congr fun r _ => (Bool.and_self _).symm) fun _ _ => rfl

theorem selectEpoch_local : Local vault (Db.selectEpoch vault) :=
  local_read (fun db => congrArg (Option.map VaultRow.epoch)
    (Table.find_slice (fun _ h => of_decide_eq_true h) db.vaults)) fun _ _ => rfl

theorem shareEpoch_of (db : Db) (share : Uuid) : db.shareEpoch vault share = (db.of vault).shareEpoch vault share :=
  congrArg (Option.map ShareRow.epoch) (Table.find_slice (fun _ h => (Prod.mk.inj (of_decide_eq_true h)).1) db.shares)

theorem selectMemberships_local (pub : Bytes) : Local vault (Db.selectMemberships vault pub) := by
  refine local_read (fun db => ?_) fun _ _ => rfl
  have hrows : db.membershipsOf vault pub = (db.of vault).membershipsOf vault pub := by
    change List.filter _ db.shareMembers = List.filter _ (List.filter _ db.shareMembers)
    rw [List.filter_filter]
    refine List.filter_congr fun m _ => ?_
    by_cases h : m.vaultId = vault <;> simp [h]
  rw [← hrows]
  exact List.map_congr_left fun m _ => by rw [shareEpoch_of]

theorem insertVault_local (recovery : Bytes) : Local vault (Db.insertVault vault recovery) := by
  have h : Table.Sliced VaultRow.vaultId vault (fun t => decide (¬ t.any (·.vaultId = vault) = true))
      (Table.insertOrIgnore VaultRow.vaultId ⟨vault, recovery, 0⟩) := by
    refine Table.sliced_insertOrIgnore (fun t => ?_) fun _ h => h
    rw [Table.any_slice (fun _ h => of_decide_eq_true h) t]
  exact local_vaults h

theorem enrollDevice_local (pub x : Bytes) (name : Wire) (approved : Bool) :
    Local vault (Db.enrollDevice vault pub x name approved) := by
  have h : Table.Sliced DeviceRow.vaultId vault (fun _ => ()) (Table.upsert DeviceRow.key
      ⟨vault, pub, x, name, approved, false, none⟩ fun r => { r with name, x25519Pub := x }) :=
    Table.sliced_upsert () (fun _ h => (Prod.mk.inj h).1) fun _ => rfl
  exact local_devices h

theorem approveDevice_local (pub wrapped : Bytes) : Local vault (Db.approveDevice vault pub wrapped) :=
  local_devices (Table.sliced_update (fun _ h => (Prod.mk.inj (of_decide_eq_true h).1).1) fun _ => rfl)

theorem revokeDevice_local (pub : Bytes) : Local vault (Db.revokeDevice vault pub) :=
  local_devices (Table.sliced_update (fun _ h => (Prod.mk.inj (of_decide_eq_true h)).1) fun _ => rfl)

theorem rewrapDevice_local (pub wrapped : Bytes) : Local vault (Db.rewrapDevice vault pub wrapped) :=
  local_devices (Table.sliced_update (fun _ h => (Prod.mk.inj (of_decide_eq_true h).1).1) fun _ => rfl)

theorem bumpEpoch_local (epoch : Nat) : Local vault (Db.bumpEpoch vault epoch) :=
  local_vaults (Table.sliced_update (fun _ h => (of_decide_eq_true h).1) fun _ => rfl)

theorem raiseShareEpoch_local (share : Uuid) (epoch : Nat) : Local vault (Db.raiseShareEpoch vault share epoch) := by
  have h : Table.Sliced ShareRow.vaultId vault (fun _ => ()) (Table.upsert ShareRow.key ⟨vault, share, epoch⟩
      fun r => { r with epoch := max r.epoch epoch }) :=
    Table.sliced_upsert () (fun _ h => (Prod.mk.inj h).1) fun _ => rfl
  exact local_shares h

theorem bumpShareEpoch_local (share : Uuid) (epoch : Nat) : Local vault (Db.bumpShareEpoch vault share epoch) :=
  local_shares (Table.sliced_update (fun _ h => (Prod.mk.inj (of_decide_eq_true h).1).1) fun _ => rfl)

theorem insertShare_local (share : Uuid) (epoch : Nat) : Local vault (Db.insertShare vault share epoch) := by
  have h : Table.Sliced ShareRow.vaultId vault (fun t => decide (¬ t.any (·.key = (vault, share)) = true))
      (Table.insertOrIgnore ShareRow.key ⟨vault, share, epoch⟩) := by
    refine Table.sliced_insertOrIgnore (fun t => ?_) fun _ h => (Prod.mk.inj h).1
    have hkey : ∀ r : ShareRow, decide (r.key = (vault, share)) = true → r.vaultId = vault :=
      fun _ h => (Prod.mk.inj (of_decide_eq_true h)).1
    rw [Table.any_slice hkey t]
  exact local_shares h

theorem upsertMember_local (share : Uuid) (pub wrapped : Bytes) : Local vault (Db.upsertMember vault share pub wrapped) := by
  have h : Table.Sliced MemberRow.vaultId vault (fun _ => 1) (Table.upsert MemberRow.key ⟨vault, share, pub, wrapped⟩
      fun r => { r with wrappedKey := wrapped }) :=
    Table.sliced_upsert 1 (fun _ h => (Prod.mk.inj h).1) fun _ => rfl
  exact local_members h

theorem deleteMember_local (share : Uuid) (pub : Bytes) : Local vault (Db.deleteMember vault share pub) :=
  local_members (Table.sliced_delete fun _ h => (Prod.mk.inj (of_decide_eq_true h)).1)

theorem rewrapMember_local (share : Uuid) (pub wrapped : Bytes) : Local vault (Db.rewrapMember vault share pub wrapped) :=
  local_members (Table.sliced_update (fun _ h => (Prod.mk.inj (of_decide_eq_true h)).1) fun _ => rfl)

theorem deleteExpired_local (now : Int64) : Local vault (Db.deleteExpired now) :=
  local_seen (a := fun _ => ()) (g := fun l => l.filter fun s => ¬ s.expiresAt < now)

theorem insertSeen_local (sig : Sig) (expiresAt : Int64) : Local vault (Db.insertSeen sig expiresAt) :=
  local_seen (a := fun l => decide (¬ l.any (·.sig = sig) = true)) (g := Table.insertOrIgnore SeenSig.sig ⟨sig, expiresAt⟩)

/-! ## Two databases -/

/-- The numbers of this vault's entries, and 0, where an empty vault's head and a new cursor are. -/
def seqs (vault : Wire) (db : Db) : Set Nat := {n | n = 0 ∨ ∃ e ∈ db.entries, e.vaultId = vault ∧ e.seq = n}

/-- The same rows of `vault`, and entries that `f` renumbers in order. -/
structure Twins (vault : Wire) (f : Nat → Nat) (s t : Db) : Prop where
  rows : t.of vault = (s.of vault).renumber f
  zero : f 0 = 0
  mono : StrictMonoOn f (seqs vault s)

/-- What a handler that began in `s₀`, with entries that `f₀` renumbered, keeps. -/
structure Kept (vault : Wire) (f₀ : Nat → Nat) (s₀ s t : Db) : Prop where
  others : ∀ other, other ≠ vault → s.rows other = s₀.rows other
  twins : ∃ f, Twins vault f s t ∧ Set.EqOn f f₀ (seqs vault s₀) ∧ seqs vault s₀ ⊆ seqs vault s

variable {f₀ : Nat → Nat} {s₀ : Db}

theorem Twins.kept {f : Nat → Nat} {s t : Db} (h : Twins vault f s t) : Kept vault f s s t :=
  ⟨fun _ _ => rfl, f, h, fun _ _ => rfl, subset_rfl⟩

theorem Local.twins {p : Prog Db α} (hp : Local vault p) {f : Nat → Nat} {s t : Db} (h : Twins vault f s t) :
    (p.run s).1 = (p.run t).1 ∧ Twins vault f (p.run s).2 (p.run t).2 := by
  have hrun : p.run (t.of vault) = ((p.run (s.of vault)).1, (p.run (s.of vault)).2.renumber f) := by
    rw [h.rows, hp.renumber]
  refine ⟨?_, ?_, h.zero, ?_⟩
  · rw [hp.answer s, hp.answer t, hrun]
  · rw [hp.rows t, hp.rows s, hrun]
  · have hseqs : seqs vault (p.run s).2 = seqs vault s := by
      unfold seqs
      rw [hp.entries]
    rw [hseqs]
    exact h.mono

theorem Local.same {p : Prog Db α} (hp : Local vault p) : Same (Kept vault f₀ s₀) Alike p := by
  rintro s t ⟨hothers, f, htwins, heq, hsub⟩
  obtain ⟨hans, htwins'⟩ := hp.twins htwins
  refine ⟨⟨fun other hne => (hp.others s other hne).trans (hothers other hne), f, htwins', heq, ?_⟩, hans⟩
  have hseqs : seqs vault (p.run s).2 = seqs vault s := by
    unfold seqs
    rw [hp.entries]
  rwa [hseqs]

/-! ## Entries -/

theorem foldr_max_mem (l : List Nat) : l.foldr max 0 = 0 ∨ l.foldr max 0 ∈ l := by
  induction l with
  | nil => exact Or.inl rfl
  | cons n l ih =>
    rw [List.foldr_cons]
    rcases max_choice n (l.foldr max 0) with h | h
    · rw [h]
      exact Or.inr List.mem_cons_self
    · rw [h]
      exact ih.imp_right (List.mem_cons_of_mem n)

theorem foldr_max_map {f : Nat → Nat} {l : List Nat} (hzero : f 0 = 0) (hf : MonotoneOn f {n | n = 0 ∨ n ∈ l}) :
    (l.map f).foldr max 0 = f (l.foldr max 0) := by
  induction l with
  | nil => exact hzero.symm
  | cons n l ih =>
    have hrest := ih (hf.mono fun m hm => hm.imp_right (List.mem_cons_of_mem n))
    rw [List.map_cons, List.foldr_cons, List.foldr_cons, hrest]
    refine (hf.map_max (Or.inr List.mem_cons_self) ?_).symm
    exact (foldr_max_mem l).imp_right (List.mem_cons_of_mem n)

theorem mem_seqs_of {db : Db} {e : EntryRow} (h : e ∈ (db.of vault).entries) : e.seq ∈ seqs vault db := by
  obtain ⟨he, hv⟩ := List.mem_filter.mp h
  exact Or.inr ⟨e, he, by simpa using hv, rfl⟩

theorem Twins.head {f : Nat → Nat} {s t : Db} (h : Twins vault f s t) : t.head vault = f (s.head vault) := by
  have hhead (db : Db) : db.head vault = ((db.of vault).entries.map (·.seq)).foldr max 0 := rfl
  have hmap : (t.of vault).entries.map (·.seq) = ((s.of vault).entries.map (·.seq)).map f := by
    rw [h.rows]
    change ((s.of vault).entries.map _).map _ = _
    rw [List.map_map, List.map_map]
    rfl
  rw [hhead, hhead, hmap]
  refine foldr_max_map h.zero (h.mono.monotoneOn.mono ?_)
  rintro n (rfl | hn)
  · exact Or.inl rfl
  · obtain ⟨e, he, rfl⟩ := List.mem_map.mp hn
    exact mem_seqs_of he

theorem seq_lt_nextSeq {db : Db} {n : Nat} (h : n ∈ seqs vault db) : n < db.nextSeq := by
  rcases h with rfl | ⟨e, he, -, rfl⟩
  · exact Nat.succ_pos _
  · exact lt_nextSeq he

theorem Twins.seqs_eq {f : Nat → Nat} {s t : Db} (h : Twins vault f s t) : seqs vault t = f '' seqs vault s := by
  ext n
  constructor
  · rintro (rfl | ⟨e, he, hv, rfl⟩)
    · exact ⟨0, Or.inl rfl, h.zero⟩
    · have hmem : e ∈ (t.of vault).entries := List.mem_filter.mpr ⟨he, by simpa using hv⟩
      rw [h.rows] at hmem
      obtain ⟨e', he', rfl⟩ := List.mem_map.mp hmem
      exact ⟨e'.seq, mem_seqs_of he', rfl⟩
  · rintro ⟨n, hn, rfl⟩
    rcases hn with rfl | ⟨e, he, hv, rfl⟩
    · exact Or.inl h.zero
    · have hmem : e.renumber f ∈ (t.of vault).entries := by
        rw [h.rows]
        exact List.mem_map_of_mem (List.mem_filter.mpr ⟨he, by simpa using hv⟩)
      exact mem_seqs_of hmem

/-- A new entry gets the next number in both. -/
theorem Twins.insertEntry {f : Nat → Nat} {s t : Db} (h : Twins vault f s t) (entryId blob : Bytes) (share : Uuid) :
    ((Db.insertEntry vault entryId blob share).run s).1 = ((Db.insertEntry vault entryId blob share).run t).1 ∧
      ∃ f', Twins vault f' ((Db.insertEntry vault entryId blob share).run s).2
          ((Db.insertEntry vault entryId blob share).run t).2 ∧ Set.EqOn f' f (seqs vault s) ∧
        seqs vault s ⊆ seqs vault ((Db.insertEntry vault entryId blob share).run s).2 := by
  have hkey : ∀ e : EntryRow, decide (e.key = (vault, entryId)) = true → e.vaultId = vault :=
    fun _ he => (Prod.mk.inj (of_decide_eq_true he)).1
  have hany : s.entries.any (·.key = (vault, entryId)) = t.entries.any (·.key = (vault, entryId)) := by
    rw [Table.any_slice hkey s.entries, Table.any_slice hkey t.entries]
    change List.any (s.of vault).entries _ = List.any (t.of vault).entries _
    rw [h.rows]
    change _ = List.any ((s.of vault).entries.map _) _
    rw [List.any_map]
    rfl
  have hrun (db : Db) : (Db.insertEntry vault entryId blob share).run db =
      (if db.entries.any (·.key = (vault, entryId)) then 0 else 1,
        { db with
          entries := Table.insertOrIgnore EntryRow.key ⟨vault, db.nextSeq, entryId, blob, share⟩ db.entries
          lastSeq := db.nextSeq }) := rfl
  have hold (db : Db) : (∃ e ∈ db.entries, e.key = (⟨vault, db.nextSeq, entryId, blob, share⟩ : EntryRow).key) ↔
      db.entries.any (·.key = (vault, entryId)) = true := by
    rw [List.any_eq_true]
    exact exists_congr fun e => and_congr_right fun _ => decide_eq_true_iff.symm
  rw [hrun, hrun, ← hany]
  refine ⟨rfl, ?_⟩
  -- The entry is there in both or in neither, and a number is used up either way.
  by_cases hs : s.entries.any (·.key = (vault, entryId)) = true
  · have hs' : Table.insertOrIgnore EntryRow.key ⟨vault, s.nextSeq, entryId, blob, share⟩ s.entries = s.entries :=
      if_pos ((hold s).mpr hs)
    have ht' : Table.insertOrIgnore EntryRow.key ⟨vault, t.nextSeq, entryId, blob, share⟩ t.entries = t.entries :=
      if_pos ((hold t).mpr (hany ▸ hs))
    rw [hs', ht']
    exact ⟨f, ⟨h.rows, h.zero, h.mono⟩, fun _ _ => rfl, subset_rfl⟩
  · have hs' : Table.insertOrIgnore EntryRow.key ⟨vault, s.nextSeq, entryId, blob, share⟩ s.entries = s.entries ++ [_] :=
      if_neg fun hex => hs ((hold s).mp hex)
    have ht' : Table.insertOrIgnore EntryRow.key ⟨vault, t.nextSeq, entryId, blob, share⟩ t.entries = t.entries ++ [_] :=
      if_neg fun hex => hs (hany ▸ (hold t).mp hex)
    rw [hs', ht']
    have hupdate : ∀ n ∈ seqs vault s, Function.update f s.nextSeq t.nextSeq n = f n := fun n hn =>
      Function.update_of_ne (seq_lt_nextSeq hn).ne _ _
    -- The next number is above all others, so the renumbering still rises.
    have hbelow : ∀ n ∈ seqs vault s, f n < t.nextSeq := fun n hn =>
      have hmem : f n ∈ seqs vault t := h.seqs_eq ▸ Set.mem_image_of_mem f hn
      seq_lt_nextSeq hmem
    have hseqs : ∀ n, n ∈ seqs vault { s with
        entries := s.entries ++ [⟨vault, s.nextSeq, entryId, blob, share⟩], lastSeq := s.nextSeq } → n ∈ seqs vault s ∨ n = s.nextSeq := by
      rintro n (rfl | ⟨e, he, hv, rfl⟩)
      · exact Or.inl (Or.inl rfl)
      · rcases List.mem_append.mp he with he | he
        · exact Or.inl (Or.inr ⟨e, he, hv, rfl⟩)
        · obtain rfl := List.mem_singleton.mp he
          exact Or.inr rfl
    refine ⟨Function.update f s.nextSeq t.nextSeq, ⟨?_, ?_, ?_⟩, hupdate, ?_⟩
    · have hslice (db : Db) : ({ db with
            entries := db.entries ++ [⟨vault, db.nextSeq, entryId, blob, share⟩], lastSeq := db.nextSeq } : Db).of vault =
          { db.of vault with entries := (db.of vault).entries ++ [⟨vault, db.nextSeq, entryId, blob, share⟩] } :=
        congrArg (fun l => ({ db.of vault with entries := l } : Db))
          ((Table.slice_append_single db.entries vault).trans (if_pos rfl))
      have hmap : (s.of vault).entries.map (·.renumber (Function.update f s.nextSeq t.nextSeq)) =
          (s.of vault).entries.map (·.renumber f) :=
        List.map_congr_left fun e he => by
          unfold EntryRow.renumber
          rw [hupdate _ (mem_seqs_of he)]
      have hnew : EntryRow.renumber (Function.update f s.nextSeq t.nextSeq) ⟨vault, s.nextSeq, entryId, blob, share⟩ =
          ⟨vault, t.nextSeq, entryId, blob, share⟩ := by
        unfold EntryRow.renumber
        rw [Function.update_self]
      rw [hslice, hslice, h.rows]
      change _ = ({ s.of vault with entries := List.map _ (_ ++ [_]) } : Db)
      rw [List.map_append, hmap, List.map_singleton, hnew]
      rfl
    · exact (hupdate 0 (Or.inl rfl)).trans h.zero
    · intro m hm n hn hlt
      rcases hseqs m hm with hm | rfl <;> rcases hseqs n hn with hn | rfl
      · rw [hupdate m hm, hupdate n hn]
        exact h.mono hm hn hlt
      · rw [hupdate m hm, Function.update_self]
        exact hbelow m hm
      · exact absurd (seq_lt_nextSeq hn) hlt.not_gt
      · exact absurd hlt (lt_irrefl _)
    · rintro n (rfl | ⟨e, he, hv, rfl⟩)
      · exact Or.inl rfl
      · exact Or.inr ⟨e, List.mem_append_left _ he, hv, rfl⟩

theorem insertEntry_same (entryId blob : Bytes) (share : Uuid) :
    Same (Kept vault f₀ s₀) Alike (Db.insertEntry vault entryId blob share) := by
  rintro s t ⟨hothers, f, htwins, heq, hsub⟩
  obtain ⟨hans, f', htwins', heq', hsub'⟩ := htwins.insertEntry entryId blob share
  refine ⟨⟨fun other hne => Eq.trans ?_ (hothers other hne), f', htwins', fun n hn => ?_, hsub.trans hsub'⟩, hans⟩
  · refine congrArg (fun l => ({ s.rows other with entries := l } : Db)) ?_
    change Table.slice EntryRow.vaultId other (Table.insertOrIgnore _ _ s.entries) = _
    unfold Table.insertOrIgnore
    split
    · rfl
    · rw [Table.slice_append_single, if_neg fun h => hne h.symm]
      rfl
  · exact (heq' (hsub hn)).trans (heq hn)

/-! ## Handlers -/

theorem authorize_same {β : Type} {Q : β → β → Db → Db → Prop} {now : Now} {signed : Signed} {refusal : String}
    {f : Wire × EdKey → Handler β} (hsigned : signed.vaultId = vault)
    (hf : ∀ key, Same (Kept vault f₀ s₀) (OkSame Q) (f (vault, key)).run) :
    Same (Kept vault f₀ s₀) (OkSame Q) (authorize now signed refusal >>= f).run := by
  refine Same.bindExceptOf (P := fun a => a.1 = vault) ?_ fun (vault', key) hv => ?_
  · unfold authorize
    refine Same.exceptBind fun (vault', key) hv => ?_
    obtain rfl : vault' = vault := (verify_ok hv).2.1.trans hsigned
    have hcan : Local vault' (canSync vault' key) :=
      local_read (g := fun db => db.canSync vault' key) (fun db => canSync_of db key) fun _ _ => rfl
    refine Same.bindExcept hcan.same.lift fun can => ?_
    cases can with
    | false => exact Same.throw _
    | true => exact Same.ok fun _ _ _ => ⟨rfl, rfl⟩
  · obtain rfl : vault' = vault := hv
    exact hf key

theorem loop_same {β γ : Type} (decode : β → Except HttpError γ) (stmt : γ → Prog Db Nat) (l : List β)
    (hstmt : ∀ c, Same (Kept vault f₀ s₀) Alike (stmt c)) :
    Same (Kept vault f₀ s₀) (OkSame Alike) (forEach decode stmt l).run := by
  induction l with
  | nil => exact Same.ok fun _ _ _ => rfl
  | cons b l ih =>
    unfold forEach
    refine Same.exceptBind fun c _ => ?_
    refine Same.bindExcept (hstmt c).lift fun n => ?_
    exact Same.bindExcept ih fun m => Same.ok fun _ _ _ => rfl

/-- The same count, and the heads of the two databases. -/
def PushSame (vault : Wire) (a b : PushResp) (s t : Db) : Prop :=
  b.stored = a.stored ∧ a.head = s.head vault ∧ b.head = t.head vault

theorem head_same (n : Nat) : Same (Kept vault f₀ s₀) (OkSame (PushSame vault)) (do
    let head ← Db.selectHead vault
    return ⟨head, n⟩ : Handler PushResp).run := fun _ _ h => ⟨h, rfl, rfl, rfl⟩

def EnrollSame (vault : Wire) (a b : EnrollResp) (s t : Db) : Prop :=
  b.approved = a.approved ∧ a.head = s.head vault ∧ b.head = t.head vault

theorem enroll_same {now : Now} {signed : Signed} (hsigned : signed.vaultId = vault) :
    Same (Kept vault f₀ s₀) (OkSame (EnrollSame vault)) (enroll now signed).run := by
  unfold enroll
  refine Same.exceptBind fun (vault', key) hv => ?_
  obtain rfl : vault' = vault := (verify_ok hv).2.1.trans hsigned
  refine Same.exceptBind fun req _ => ?_
  unfold applyEnroll
  dsimp only
  split
  · exact Same.throw _
  refine Same.bindExcept (selectDevice_local _).same.lift fun row => ?_
  split
  · exact Same.throw _
  refine Same.exceptBind fun x _ => ?_
  refine Same.exceptBind fun recovery _ => ?_
  refine Same.bindExcept (insertVault_local recovery).same.lift fun approved => ?_
  refine Same.bindExcept (enrollDevice_local _ _ _ _).same.lift fun _ => ?_
  exact fun _ _ h => ⟨h, rfl, rfl, rfl⟩

theorem applyApprove_same (req : ApproveReq) :
    Same (Kept vault f₀ s₀) (OkSame (PushSame vault)) (applyApprove vault req).run := by
  unfold applyApprove
  refine Same.exceptBind fun target _ => ?_
  refine Same.exceptBind fun wrapped _ => ?_
  refine Same.bindExcept (approveDevice_local _ _).same.lift fun affected => ?_
  split
  · exact Same.throw _
  · exact head_same 0

theorem applyRevoke_same (req : RevokeReq) :
    Same (Kept vault f₀ s₀) (OkSame (PushSame vault)) (applyRevoke vault req).run := by
  unfold applyRevoke
  refine Same.exceptBind fun target _ => ?_
  refine Same.bindExcept (revokeDevice_local _).same.lift fun affected => ?_
  split
  · exact Same.throw _
  · exact head_same 0

theorem applyRotate_same (req : RotateReq) :
    Same (Kept vault f₀ s₀) (OkSame (PushSame vault)) (applyRotate vault req).run := by
  unfold applyRotate
  refine Same.bindExcept (bumpEpoch_local _).same.lift fun bumped => ?_
  split
  · exact Same.throw _
  refine Same.bindExcept (loop_same _ _ _ fun c => (rewrapDevice_local _ _).same) fun _ => ?_
  exact head_same 0

theorem applyShareGrant_same (req : ShareGrantReq) :
    Same (Kept vault f₀ s₀) (OkSame (PushSame vault)) (applyShareGrant vault req).run := by
  unfold applyShareGrant
  refine Same.exceptBind fun share _ => ?_
  refine Same.bindExcept (raiseShareEpoch_local _ _).same.lift fun _ => ?_
  refine Same.bindExcept (loop_same _ _ _ fun c => (upsertMember_local _ _ _).same) fun _ => ?_
  exact head_same 0

theorem applyShareRotate_same (req : ShareRotateReq) :
    Same (Kept vault f₀ s₀) (OkSame (PushSame vault)) (applyShareRotate vault req).run := by
  unfold applyShareRotate
  refine Same.exceptBind fun share _ => ?_
  have hadvance : Same (Kept vault f₀ s₀) (OkSame Alike) (advanceShare vault share req.epoch).run := by
    unfold advanceShare
    refine Same.bindExcept (bumpShareEpoch_local _ _).same.lift fun bumped => ?_
    split
    · refine Same.bindExcept (insertShare_local _ _).same.lift fun fresh => ?_
      split
      · exact Same.throw _
      · exact Same.ok fun _ _ _ => rfl
    · exact Same.ok fun _ _ _ => rfl
  refine Same.bindExcept hadvance fun _ => ?_
  refine Same.bindExcept (loop_same _ _ _ fun c => (deleteMember_local _ _).same) fun _ => ?_
  refine Same.bindExcept (loop_same _ _ _ fun c => (rewrapMember_local _ _ _).same) fun _ => ?_
  exact head_same 0

theorem applyPush_same (req : PushReq) :
    Same (Kept vault f₀ s₀) (OkSame (PushSame vault)) (applyPush vault req).run := by
  unfold applyPush
  refine Same.bindExcept (loop_same _ _ _ fun c => insertEntry_same _ _ _) fun stored => ?_
  exact head_same stored

theorem markSeen_same (now : Int64) (sig : Text Sig) : Same (Kept vault f₀ s₀) (OkSame Alike) (markSeen now sig).run := by
  unfold markSeen
  refine Same.exceptBind fun sig _ => ?_
  refine Same.bindExcept (deleteExpired_local now).same.lift fun _ => ?_
  exact (insertSeen_local _ _).same.lift

/-! ## Requests -/

/-- The same reply, but for the head of the vault. -/
def ReplySame (vault : Wire) (a b : Reply) (s t : Db) : Prop :=
  match a, b with
  | .enroll a, .enroll b => EnrollSame vault a b s t
  | .push a, .push b => PushSame vault a b s t
  | a, b => a = b

theorem push_reply_same {p : Handler PushResp} (h : Same (Kept vault f₀ s₀) (OkSame (PushSame vault)) p.run) :
    Same (Kept vault f₀ s₀) (OkSame (ReplySame vault)) (do return .push (← p) : Handler Reply).run :=
  Same.map h fun _ _ _ _ h => h

theorem post_same {now : Now} {signed : Signed} (e : Endpoint) (hsigned : signed.vaultId = vault) :
    Same (Kept vault f₀ s₀) (OkSame (ReplySame vault)) (post now signed e).run := by
  cases e with
  | enroll => exact Same.map (enroll_same hsigned) fun _ _ _ _ h => h
  | approve =>
    exact push_reply_same (authorize_same hsigned fun _ => Same.exceptBind fun req _ => applyApprove_same req)
  | revoke =>
    exact push_reply_same (authorize_same hsigned fun _ => Same.exceptBind fun req _ => applyRevoke_same req)
  | rotate =>
    refine push_reply_same (authorize_same hsigned fun _ => Same.bindExcept (markSeen_same _ _) fun fresh => ?_)
    split
    · exact Same.throw _
    · exact Same.exceptBind fun req _ => applyRotate_same req
  | shareGrant =>
    exact push_reply_same (authorize_same hsigned fun _ => Same.exceptBind fun req _ => applyShareGrant_same req)
  | shareRotate =>
    refine push_reply_same (authorize_same hsigned fun _ => Same.bindExcept (markSeen_same _ _) fun fresh => ?_)
    split
    · exact Same.throw _
    · exact Same.exceptBind fun req _ => applyShareRotate_same req
  | push =>
    exact push_reply_same (authorize_same hsigned fun _ => Same.exceptBind fun req _ => applyPush_same req)

theorem other_same {β : Type} {p : Handler β} {g : β → Reply} (hg : ∀ b s t, ReplySame vault (g b) (g b) s t)
    (h : Same (Kept vault f₀ s₀) (OkSame Alike) p.run) :
    Same (Kept vault f₀ s₀) (OkSame (ReplySame vault)) (do return g (← p) : Handler Reply).run :=
  Same.map h fun a b s t hab => by
    obtain rfl : a = b := hab
    exact hg a s t

theorem wrapped_same {now : Now} {q : SignedQuery} (hq : q.vault = vault) :
    Same (Kept vault f₀ s₀) (OkSame Alike) (wrapped now q).run := by
  unfold wrapped
  refine Same.exceptBind fun (vault', key) hv => ?_
  obtain rfl : vault' = vault := (verify_ok hv).2.1.trans hq
  refine Same.bindExcept (selectDevice_local _).same.lift fun row => ?_
  refine Same.exceptBind fun row _ => ?_
  split
  · exact Same.throw _
  refine Same.bindExcept selectEpoch_local.same.lift fun epoch => ?_
  exact Same.ok fun _ _ _ => rfl

theorem shares_same {now : Now} {q : SignedQuery} (hq : q.vault = vault) :
    Same (Kept vault f₀ s₀) (OkSame Alike) (shares now q).run :=
  authorize_same hq fun _ => Same.bindExcept (selectMemberships_local _).same.lift fun _ => Same.ok fun _ _ _ => rfl

theorem devices_same {now : Now} {q : SignedQuery} (hq : q.vault = vault) :
    Same (Kept vault f₀ s₀) (OkSame Alike) (devices now q).run :=
  authorize_same hq fun _ => Same.bindExcept selectDevices_local.same.lift fun _ => Same.ok fun _ _ _ => rfl

/-! ## Pulling -/

/-- The cursor stands at the same place among the entries before and after they are renumbered, as the number
it is and as the relay's database reads it. -/
def SamePlace (f : Nat → Nat) (since : Nat) (numbers : Set Nat) : Prop :=
  ∀ n ∈ numbers, (since < n ↔ since < f n) ∧ (Db.asI64 since < n ↔ Db.asI64 since < f n)

/-- The answer to `req` in the other database. A pull that is past all entries answers its own cursor. -/
inductive AnswerSame (req : Request) (f : Nat → Nat) : Except HttpError Reply → Except HttpError Reply → Prop
  | error (e : HttpError) : AnswerSame req f (.error e) (.error e)
  | reply (r : Reply) : AnswerSame req f (.ok r) (.ok (r.renumber f))
  | atCursor {q : PullQuery} (hreq : req = .pull q) (entries : List WireEntry) :
    AnswerSame req f (.ok (.pull ⟨entries, q.since⟩)) (.ok (.pull ⟨entries, q.since⟩))

theorem head_mem_seqs (db : Db) : db.head vault ∈ seqs vault db := by
  rcases foldr_max_mem ((db.of vault).entries.map (·.seq)) with h | h
  · exact Or.inl h
  · obtain ⟨e, he, hseq⟩ := List.mem_map.mp h
    exact (show e.seq = db.head vault from hseq) ▸ mem_seqs_of he

theorem Twins.pulled {f : Nat → Nat} {s t : Db} (h : Twins vault f s t) (key : EdKey) {since : Nat}
    (hplace : SamePlace f since (seqs vault s)) :
    (((Db.selectEntries vault (.ed key) since).run t).1).map wireEntry =
      (((Db.selectEntries vault (.ed key) since).run s).1).map wireEntry := by
  have hrows (db : Db) : db.entries.filter (db.visible vault (.ed key) since) =
      (db.of vault).entries.filter (db.visible vault (.ed key) since) := by
    change _ = List.filter _ (List.filter _ db.entries)
    rw [List.filter_filter]
    refine List.filter_congr fun e _ => ?_
    unfold Db.visible
    by_cases hv : e.vaultId = vault <;> simp [hv]
  have hmember (share : Uuid) : t.isMember vault share (.ed key) = s.isMember vault share (.ed key) := by
    have hk : ∀ m : MemberRow, decide (m.key = (vault, share, .ed key)) = true → m.vaultId = vault :=
      fun _ h => (Prod.mk.inj (of_decide_eq_true h)).1
    unfold Db.isMember
    rw [Table.any_slice hk t.shareMembers, Table.any_slice hk s.shareMembers]
    exact congrArg (fun db : Db => db.shareMembers.any _) h.rows
  -- The cursor stands at the same place in both, and the memberships are the same.
  have hvisible : ∀ e ∈ (s.of vault).entries,
      t.visible vault (.ed key) since (e.renumber f) = s.visible vault (.ed key) since e := by
    intro e he
    unfold Db.visible EntryRow.renumber
    simp only [hmember, (hplace e.seq (mem_seqs_of he)).2]
  have hfilter : t.entries.filter (t.visible vault (.ed key) since) =
      (s.entries.filter (s.visible vault (.ed key) since)).map (·.renumber f) := by
    rw [hrows t, hrows s, h.rows]
    change List.filter _ (List.map _ (s.of vault).entries) = _
    rw [List.filter_map]
    exact congrArg _ (List.filter_congr hvisible)
  change (List.insertionSort _ (t.entries.filter _)).map _ = (List.insertionSort _ (s.entries.filter _)).map _
  rw [hfilter, ← List.map_insertionSort (r := fun a b : EntryRow => a.seq ≤ b.seq), List.map_map]
  · rfl
  · intro a ha b hb
    rw [hrows] at ha hb
    exact (h.mono.le_iff_le (mem_seqs_of (List.mem_of_mem_filter ha)) (mem_seqs_of (List.mem_of_mem_filter hb))).symm

theorem exec_pull_eq (now : Now) (q : PullQuery) (db : Db) : (exec (pull now q) db).1 =
    match verify now.verify ⟨q.vault, q.device, q.sig, q.ts, .pull q.since⟩ with
    | .error e => .error e
    | .ok (vault, key) =>
      if db.canSync vault key then
        .ok ⟨(((Db.selectEntries vault (.ed key) q.since).run db).1).map wireEntry, max (db.head vault) q.since⟩
      else .error (forbidden "device not enrolled or revoked") := by
  unfold pull
  rw [exec_bind, exec_authorize]
  cases verify now.verify ⟨q.vault, q.device, q.sig, q.ts, .pull q.since⟩ with
  | error e => rfl
  | ok a =>
    dsimp only
    cases db.canSync a.1 a.2 <;> rfl

theorem Twins.canSync {f : Nat → Nat} {s t : Db} (h : Twins vault f s t) (key : EdKey) :
    t.canSync vault key = s.canSync vault key := by
  rw [canSync_of, h.rows, canSync_of s]
  rfl

theorem Twins.pull_answer {f : Nat → Nat} {s t : Db} (h : Twins vault f s t) (now : Now) {q : PullQuery} (hq : q.vault = vault)
    (hplace : SamePlace f q.since (seqs vault s)) :
    AnswerSame (.pull q) f (exec (route now (.pull q)) s).1 (exec (route now (.pull q)) t).1 := by
  have hroute (db : Db) : (exec (route now (.pull q)) db).1 = (exec (pull now q) db).1.map .pull := by
    change (exec (do return .pull (← pull now q) : Handler Reply) db).1 = _
    rw [exec_bind]
    rcases exec (pull now q) db with ⟨_ | _, _⟩ <;> rfl
  rw [hroute, hroute, exec_pull_eq, exec_pull_eq]
  cases hv : verify now.verify ⟨q.vault, q.device, q.sig, q.ts, .pull q.since⟩ with
  | error e => exact .error e
  | ok a =>
    obtain ⟨vault', key⟩ := a
    obtain rfl : vault' = vault := (verify_ok hv).2.1.trans hq
    dsimp only
    rw [h.canSync key]
    cases s.canSync vault' key with
    | false => exact .error _
    | true =>
      rw [if_pos rfl, if_pos rfl, h.pulled key hplace, h.head]
      have hhead := (hplace _ (head_mem_seqs s)).1
      by_cases hlt : q.since < s.head vault'
      · rw [max_eq_left hlt.le, max_eq_left (hhead.mp hlt).le]
        exact .reply (.pull ⟨_, s.head vault'⟩)
      · rw [max_eq_right (not_lt.mp hlt), max_eq_right (not_lt.mp fun h' => hlt (hhead.mpr h'))]
        exact .atCursor rfl _

theorem answerSame_of {req : Request} {f : Nat → Nat} {s t : Db} {r r' : Except HttpError Reply} (htwins : Twins vault f s t)
    (h : OkSame (ReplySame vault) r r' s t) (hpull : ∀ a, r ≠ .ok (.pull a)) : AnswerSame req f r r' := by
  rcases r with e | a <;> rcases r' with e' | b
  · obtain rfl : e = e' := h
    exact .error e
  · exact h.elim
  · exact h.elim
  · cases a with
    | pull a => exact absurd rfl (hpull a)
    | enroll a =>
      cases b with
      | enroll b =>
        obtain ⟨happ, hhead, hhead'⟩ : EnrollSame vault a b s t := h
        have hb : b = { a with head := f a.head } := by
          rw [hhead, ← htwins.head, ← hhead', ← happ]
        exact hb ▸ .reply (.enroll a)
      | _ => exact nomatch (show Reply.enroll a = _ from h)
    | push a =>
      cases b with
      | push b =>
        obtain ⟨hstored, hhead, hhead'⟩ : PushSame vault a b s t := h
        have hb : b = { a with head := f a.head } := by
          rw [hhead, ← htwins.head, ← hhead', ← hstored]
        exact hb ▸ .reply (.push a)
      | _ => exact nomatch (show Reply.push a = _ from h)
    | _ =>
      cases b with
      | enroll | push => exact nomatch (show (_ : Reply) = _ from h)
      | _ =>
        rw [← show (_ : Reply) = _ from h]
        exact .reply _

theorem route_same {now : Now} {req : Request} (hreq : req.tenant = some vault) (hpull : ∀ q, req ≠ .pull q) :
    Same (Kept vault f₀ s₀) (OkSame (ReplySame vault)) (route now req).run := by
  cases req with
  | post e signed => exact post_same e (Option.some.inj hreq)
  | recover => cases hreq
  | shares q => exact other_same (fun _ _ _ => rfl) (shares_same (Option.some.inj hreq))
  | devices q => exact other_same (fun _ _ _ => rfl) (devices_same (Option.some.inj hreq))
  | wrapped q => exact other_same (fun _ _ _ => rfl) (wrapped_same (Option.some.inj hreq))
  | pull q => exact absurd rfl (hpull q)

theorem route_pull_state (now : Now) (q : PullQuery) (db : Db) : (exec (route now (.pull q)) db).2 = db :=
  after_map.trans (exec_pull q)

theorem not_pull {now : Now} {req : Request} (hpull : ∀ q, req ≠ .pull q) (db : Db) (a : PullResp) :
    (exec (route now req) db).1 ≠ .ok (.pull a) := by
  have hmap {β : Type} (p : Handler β) (g : β → Reply) (hg : ∀ b, g b ≠ .pull a) :
      (exec (do return g (← p) : Handler Reply) db).1 ≠ .ok (.pull a) := by
    rw [exec_bind]
    rcases exec p db with ⟨_ | b, _⟩
    · exact fun h => nomatch h
    · exact fun h => hg b (Except.ok.inj h)
  cases req with
  | post e signed => cases e <;> exact hmap _ _ fun _ h => nomatch h
  | pull q => exact absurd rfl (hpull q)
  | _ => exact hmap _ _ fun _ h => nomatch h

theorem twins_self (db : Db) : Twins vault id db db := by
  refine ⟨?_, rfl, fun _ _ _ _ h => h⟩
  have hid : (db.of vault).entries.map (·.renumber id) = (db.of vault).entries := List.map_id _
  exact (congrArg (fun l => ({ db.of vault with entries := l } : Db)) hid).symm

/-- **Tenants are apart.** A request for one vault changes no row of another, and from two databases with the same
rows of this vault, up to the numbers of its entries, it gets the same answer and leaves the same rows, up to these
numbers, if the cursor of a pull stands at the same place in both. -/
theorem tenants_apart (now : Now) (req : Request) (vault : Wire) (hreq : req.tenant = some vault) :
    (∀ db other, other ≠ vault → (exec (route now req) db).2.rows other = db.rows other) ∧
      ∀ s t f, Twins vault f s t → (∀ q, req = .pull q → SamePlace f q.since (seqs vault s)) →
        ∃ f', Set.EqOn f' f (seqs vault s) ∧ Twins vault f' (exec (route now req) s).2 (exec (route now req) t).2 ∧
          AnswerSame req f' (exec (route now req) s).1 (exec (route now req) t).1 := by
  by_cases hpull : ∃ q, req = .pull q
  · obtain ⟨q, rfl⟩ := hpull
    refine ⟨fun db other _ => by rw [route_pull_state], fun s t f htwins hplace => ⟨f, fun _ _ => rfl, ?_, ?_⟩⟩
    · rw [route_pull_state, route_pull_state]
      exact htwins
    · exact htwins.pull_answer now (Option.some.inj hreq) (hplace q rfl)
  · have hpull' : ∀ q, req ≠ .pull q := fun q h => hpull ⟨q, h⟩
    refine ⟨fun db other hne => ?_, fun s t f htwins _ => ?_⟩
    · -- The database against itself: whatever `vault` has there, the rows of others stay.
      exact (route_same hreq hpull' db db (twins_self db).kept).1.others other hne
    · obtain ⟨⟨-, f', htwins', heq, -⟩, hans⟩ := route_same hreq hpull' s t htwins.kept
      exact ⟨f', heq, htwins', answerSame_of htwins' hans (not_pull hpull' s)⟩

/-! ## A cursor is a number -/

namespace TwoVaults

def tenant : Wire := .b64 (.uuid 7)

/-- Four numbers went to another vault. -/
def shifted (n : Nat) : Nat := if n = 0 then 0 else n + 4

def device : DeviceRow := ⟨tenant, .ed (.device 1), .x 1, .plain "laptop", true, false, none⟩

/-- The vault's only entry has this number. -/
def store (seq : Nat) : Db :=
  { vaults := [⟨tenant, .ed (.recovery 1), 0⟩], devices := [device], entries := [⟨tenant, seq, .uuid 30, .other 1, nil⟩] }

def pullPast (since : Nat) : PullQuery :=
  ⟨tenant, .b64 (.ed (.device 1)), .b64 ⟨.device 1, .request 0 (.pull since)⟩, since, 0⟩

theorem store_twins : Twins tenant shifted (store 1) (store 5) := by
  refine ⟨rfl, rfl, fun m _ n _ hlt => ?_⟩
  unfold shifted
  split <;> split <;> omega

end TwoVaults

open TwoVaults

/-- A new device pulls. -/
theorem tenants_apart_pull : ∃ f', Set.EqOn f' shifted (seqs tenant (store 1)) ∧
    Twins tenant f' (exec (route 0 (.pull (pullPast 0))) (store 1)).2 (exec (route 0 (.pull (pullPast 0))) (store 5)).2 ∧
      AnswerSame (.pull (pullPast 0)) f' (exec (route 0 (.pull (pullPast 0))) (store 1)).1
        (exec (route 0 (.pull (pullPast 0))) (store 5)).1 :=
  (tenants_apart 0 (.pull (pullPast 0)) tenant rfl).2 (store 1) (store 5) shifted store_twins (by
    rintro q ⟨rfl⟩ n -
    have hzero : Db.asI64 0 = 0 := rfl
    dsimp only [pullPast, shifted]
    rw [hzero]
    split <;> omega)

/-- The same cursor, 3, is past the entry in one database and before it in the other, where another vault's entries
took the numbers up to 4. -/
theorem cursor_sees_numbers : ¬ ∀ (now : Now) (req : Request) (vault : Wire), req.tenant = some vault →
    ∀ s t f, Twins vault f s t → ∃ f', Set.EqOn f' f (seqs vault s) ∧
      Twins vault f' (exec (route now req) s).2 (exec (route now req) t).2 ∧
        AnswerSame req f' (exec (route now req) s).1 (exec (route now req) t).1 := by
  intro h
  obtain ⟨f', -, -, hans⟩ := h 0 (.pull (pullPast 3)) tenant rfl (store 1) (store 5) shifted store_twins
  have hs : (exec (route 0 (.pull (pullPast 3))) (store 1)).1 = .ok (.pull ⟨[], 3⟩) := by decide +kernel
  have ht : (exec (route 0 (.pull (pullPast 3))) (store 5)).1 =
      .ok (.pull ⟨[⟨.b64 (.uuid 30), .b64 (.other 1), .b64 (.uuid nil)⟩], 5⟩) := by decide +kernel
  have hentries : ∀ r r', AnswerSame (.pull (pullPast 3)) f' r r' → ∀ a b, r = .ok (.pull a) → r' = .ok (.pull b) →
      b.entries = a.entries := by
    rintro _ _ (⟨e⟩ | ⟨x⟩ | ⟨hreq, entries⟩) a b ha hb
    · cases ha
    · obtain rfl : x = .pull a := Except.ok.inj ha
      cases hb
      rfl
    · cases ha
      cases hb
      rfl
  exact absurd (hentries _ _ hans _ _ hs ht) (by decide)

end Relay

end SshVault
