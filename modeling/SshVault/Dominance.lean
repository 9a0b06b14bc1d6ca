import SshVault.Vault.Writes

/-!
# Clock dominance on one device

A device keeps its counter in `meta.json` and the clocks it has observed in the log. The
machine below runs the operations of one device in any order and stops any of them between
two file accesses. The invariant bounds every clock that the log and the snapshot can show
by the counter on disk.
-/

open Lib

namespace SshVault.Dominance

/-! ## The machine -/

inductive Op where
  | openVault
  | reload
  | write (w : Write)
  | applyRemoteEntry (f : Frame)
  | absorbShareKey (share : Uuid) (list : KeyBytes)
  | compact

/-- The operation on an open vault. The vault it returns is open afterwards. -/
def Op.onOpen (v : Vault) : Op → Prog Disk (Option Vault)
  | .openVault => do return (← Vault.openVault).toOption
  | .reload => do return some (← v.reload).2
  | .write w => do return some (← w.prog v).2
  | .applyRemoteEntry f => do return some (← v.applyRemoteEntry f.1 f.2).2
  | .absorbShareKey share list => do return some (← v.absorbShareKey share list).2
  | .compact => do return some (← v.compact).2

/-- Without an open vault, only `open` does anything. -/
def Op.prog (op : Op) : Option Vault → Prog Disk (Option Vault)
  | some v => op.onOpen v
  | none => match op with
    | .openVault => do return (← Vault.openVault).toOption
    | _ => return none

/-- A vault directory, and the vault that a running process has open in it. -/
structure Proc where
  disk : Disk
  vault : Option Vault

/-- An operation runs to its end, or its process dies before it starts step `n`. -/
inductive Event where
  | finish (op : Op)
  | crash (op : Op) (n : Nat)

def Proc.next (p : Proc) : Event → Proc
  | .finish op => ⟨((op.prog p.vault).run p.disk).2, ((op.prog p.vault).run p.disk).1⟩
  | .crash op n => ⟨Prog.cutAt n (op.prog p.vault) p.disk, none⟩

def Proc.after (p : Proc) (events : List Event) : Proc := events.foldl Proc.next p

/-- The device as `Vault::create_with_keys` leaves it. -/
def created (deviceName : String) (vaultId : Uuid) (vaultKey : Key) (recoveryPub : Bytes)
    (x : XKey) (ed : EdKey) (deviceId : Uuid) : Proc :=
  let (disk, v) := Vault.createWithKeys deviceName vaultId vaultKey recoveryPub x ed deviceId
  ⟨disk, some v⟩

/-! ## Dominance -/

/-- The next clock is greater than every field clock and every tombstone that the vault shows. -/
def Dominates (c : Clock) (state : State) : Prop :=
  ∀ r, Vault.Shown state r →
    (∀ (n : String) (f : Field), r.fields[n]? = some f → f.clock < c) ∧ ∀ t, r.deletedAt = some t → t < c

/-- No field clock and no tombstone is past `l`. -/
def Bounded (l : U64) (r : Record) : Prop :=
  (∀ (n : String) (f : Field), r.fields[n]? = some f → f.clock.lamport ≤ l) ∧
    ∀ t, r.deletedAt = some t → t.lamport ≤ l

/-- The counter of the file covers what the frames hold, as far as `kr` opens them. -/
def Covers (l : U64) (kr : Keyring) (frames : List Frame) : Prop :=
  ∀ f ∈ frames, ∀ r, kr.opened f = some r → Bounded l r

/-- A frame that opens holds no clock past both the counter and its own record clock. -/
def Proc.EntryClocked (p : Proc) (f : Frame) : Prop :=
  ∀ v r, p.vault = some v → v.keyring.opened f = some r → Bounded (max p.disk.metadata.lamport r.clock.lamport) r

/-- The counter covers a frame before it arrives. -/
def Proc.EntryCounted (p : Proc) (f : Frame) : Prop :=
  ∀ v, p.vault = some v → Covers p.disk.metadata.lamport v.keyring [f]

/-- The counter covers every retained frame that a longer key-list opens. -/
def Proc.KeysCounted (p : Proc) (share : Uuid) (list : KeyBytes) : Prop :=
  ∀ v keys, p.vault = some v → splitKeyList list = .ok keys →
    ¬ (v.keyring.hasShare share ∧ keys.length ≤ (v.keyring.keysOf share).length) →
    Covers p.disk.metadata.lamport (v.keyring.setShareKeys share keys) p.disk.log

/-- The steps that keep the counter ahead. `apply_remote_entry` reads the metadata, appends the
frame and writes the counter, so a crash before its last step leaves the frame uncounted. -/
def Proc.Safe (p : Proc) : Event → Prop
  | .finish (.applyRemoteEntry f) => p.EntryClocked f
  | .crash (.applyRemoteEntry f) n => if n < 2 then True else if n = 2 then p.EntryCounted f else p.EntryClocked f
  | .finish (.absorbShareKey share list) => p.KeysCounted share list
  | .crash (.absorbShareKey share list) n => if n < 1 then True else p.KeysCounted share list
  | _ => True

/-- Every step of the run is safe. -/
def Proc.SafeRun (p : Proc) : List Event → Prop
  | [] => True
  | e :: rest => p.Safe e ∧ (p.next e).SafeRun rest

/-- No counter reaches the last value of a `u64`. -/
def Proc.Roomy (p : Proc) : Prop := ∀ v, p.vault = some v → v.Room p.disk

def Proc.RoomyRun (p : Proc) : List Event → Prop
  | [] => p.Roomy
  | e :: rest => p.Roomy ∧ (p.next e).RoomyRun rest

/-! ## Bounds through the fold -/

theorem Bounded.mono {l l' : U64} {r : Record} (h : Bounded l r) (hl : l ≤ l') : Bounded l' r :=
  ⟨fun n f hf => (h.1 n f hf).trans hl, fun t ht => (h.2 t ht).trans hl⟩

structure StateBounded (l : U64) (state : State) : Prop where
  bounded : ∀ r, Vault.Shown state r → Bounded l r
  keyed : ∀ (i : Uuid) (r : Record), state[i]? = some r → r.id = i

theorem stateBounded_iff {l : U64} {state : State} :
    StateBounded l state ↔ State.All (fun i r => r.id = i ∧ Bounded l r) state :=
  ⟨fun h i r hr => ⟨h.keyed i r hr, h.bounded r ⟨i, hr⟩⟩,
    fun h => ⟨fun r ⟨i, hr⟩ => (h i r hr).2, fun i r hr => (h i r hr).1⟩⟩

theorem StateBounded.empty {l : U64} : StateBounded l ∅ := stateBounded_iff.mpr .empty

theorem StateBounded.mono {l l' : U64} {state : State} (h : StateBounded l state) (hl : l ≤ l') :
    StateBounded l' state := ⟨fun r hr => (h.bounded r hr).mono hl, h.keyed⟩

theorem Bounded.merge {l : U64} {a b : Record} (ha : Bounded l a) (hb : Bounded l b) : Bounded l (merge a b) := by
  constructor
  · intro n f hf
    rw [merge_fields_get] at hf
    rcases (later_eq_some hf).1 with hf | hf
    · exact ha.1 n f hf
    · exact hb.1 n f hf
  · intro t ht
    rw [merge_deletedAt, ← later_id_option] at ht
    rcases (later_eq_some ht).1 with ht | ht
    · exact ha.2 t ht
    · exact hb.2 t ht

theorem filed_merge {l : U64} (i : Uuid) (a b : Record) (ha : a.id = i ∧ Bounded l a) (hb : b.id = i ∧ Bounded l b) :
    (merge a b).id = i ∧ Bounded l (merge a b) :=
  ⟨(merge_id a b).trans ha.1, ha.2.merge hb.2⟩

theorem StateBounded.mergeInto {l : U64} {state : State} {rec : Record} (h : StateBounded l state)
    (hrec : Bounded l rec) : StateBounded l (mergeInto state rec) := by
  rw [stateBounded_iff] at h ⊢
  exact h.mergeInto filed_merge ⟨rfl, hrec⟩

/-! ## The invariant -/

structure DiskInv (d : Disk) : Prop where
  log : Covers d.metadata.lamport d.keyring.normalize d.log
  snapshot : ∀ s, d.snapshot = some s → ∀ r ∈ s.records, Bounded d.metadata.lamport r

structure VaultInv (d : Disk) (v : Vault) : Prop where
  keyring : v.keyring = d.keyring.normalize
  state : StateBounded d.metadata.lamport v.state

/-- A program keeps the disk sound at every step, and the open vault at its end. -/
def Spec {α : Type} (p : Prog Disk (α × Vault)) (d : Disk) : Prop :=
  Prog.Always DiskInv (fun a d' => DiskInv d' ∧ VaultInv d' a.2) p d

variable {d : Disk} {v : Vault}

theorem DiskInv.opened (hd : DiskInv d) (hv : v.keyring = d.keyring.normalize) :
    ∀ f ∈ d.log, ∀ r, v.keyring.opened f = some r → r.id = r.id ∧ Bounded d.metadata.lamport r :=
  fun f hf r hr => ⟨rfl, hd.log f hf r (hv ▸ hr)⟩

theorem compact_spec (hd : DiskInv d) (hv : VaultInv d v) : Spec v.compact d := by
  unfold Vault.compact
  refine Prog.Always.bind (Prog.Always.atom hd ?_)
  dsimp only
  split
  · exact ⟨hd, hv⟩
  rename_i recs hrecs
  have hall := State.All.empty.foldl filed_merge (Vault.openFrames_all (hd.opened hv.keyring) hrecs)
  have hstate : StateBounded d.metadata.lamport (mergeAll recs) := stateBounded_iff.mpr hall
  split
  · exact ⟨hd, hv.keyring, hstate⟩
  · refine Prog.Always.bind (Prog.Always.atom hd ⟨⟨hd.log, ?_⟩, hv.keyring, hstate⟩)
    rintro _ ⟨rfl⟩ r hr
    obtain ⟨i, hir⟩ := hall.records r hr
    exact hir.2

theorem foldFromSnapshot_bounded (hd : DiskInv d) (hv : v.keyring = d.keyring.normalize) {out : State × Nat}
    (h : v.foldFromSnapshot d.log d.snapshot = .ok out) : StateBounded d.metadata.lamport out.1 :=
  stateBounded_iff.mpr (Vault.foldFromSnapshot_all filed_merge (fun s hs r hr => ⟨rfl, hd.snapshot s hs r hr⟩)
    (hd.opened hv) h)

theorem replayLog_spec (hd : DiskInv d) (hv : VaultInv d v) : Spec v.replayLog d := by
  unfold Vault.replayLog
  refine Prog.Always.bind (Prog.Always.atom hd (Prog.Always.bind (Prog.Always.atom hd ?_)))
  dsimp only
  split
  · exact ⟨hd, hv⟩
  rename_i state covered hfold
  have hv' : VaultInv d { v with state } := ⟨hv.keyring, foldFromSnapshot_bounded hd hv.keyring hfold⟩
  split
  · exact Prog.Always.bind ((compact_spec hd hv').mono fun _ _ h => h)
  · exact ⟨hd, hv'⟩

theorem openVault_spec (hd : DiskInv d) :
    Prog.Always DiskInv (fun a d' => DiskInv d' ∧ ∀ v, a.toOption = some v → VaultInv d' v) Vault.openVault d := by
  unfold Vault.openVault
  refine Prog.Always.bind (Prog.Always.atom hd (Prog.Always.bind (Prog.Always.atom hd ?_)))
  refine Prog.Always.bind ((replayLog_spec hd ⟨rfl, .empty⟩).mono ?_)
  rintro ⟨res, v⟩ d' ⟨hd', hv'⟩
  refine ⟨hd', ?_⟩
  intro v' hv
  rcases res with e | _
  · cases hv
  · obtain rfl : v = v' := Option.some.inj hv
    exact hv'

theorem reload_spec (hd : DiskInv d) (hv : VaultInv d v) : Spec v.reload d := by
  unfold Vault.reload
  exact Prog.Always.bind (Prog.Always.atom hd (replayLog_spec hd ⟨hv.keyring, hv.state⟩))

/-! ## Writes -/

theorem Covers.mono {l l' : U64} {kr : Keyring} {frames : List Frame} (h : Covers l kr frames) (hl : l ≤ l') :
    Covers l' kr frames := fun f hf r hr => (h f hf r hr).mono hl

theorem Covers.append {l : U64} {kr : Keyring} {frames : List Frame} {f : Frame} (h : Covers l kr frames)
    (hf : ∀ r, kr.opened f = some r → Bounded l r) : Covers l kr (frames ++ [f]) := by
  intro g hg
  rcases List.mem_append.mp hg with hg | hg
  · exact h g hg
  · obtain rfl := List.mem_singleton.mp hg
    exact hf

theorem DiskInv.raise {m : Meta} (hd : DiskInv d) (hm : d.metadata.lamport ≤ m.lamport) :
    DiskInv { d with metadata := m } :=
  ⟨hd.log.mono hm, fun s hs r hr => (hd.snapshot s hs r hr).mono hm⟩

theorem DiskInv.append {f : Frame} (hd : DiskInv d)
    (hf : ∀ r, d.keyring.normalize.opened f = some r → Bounded d.metadata.lamport r) :
    DiskInv { d with log := d.log ++ [f] } :=
  ⟨hd.log.append hf, hd.snapshot⟩

theorem built_bounded {r : Record} (hroom : v.Room d) (hv : VaultInv d v)
    (hr : Vault.Built v.state (v.tick d) r) : Bounded (v.ticked d).lamport r := by
  have hlt : d.metadata.lamport ≤ (v.ticked d).lamport := (Vault.disk_lt_tick hroom).le
  constructor
  · intro n f hf
    rcases hr.field n f hf with hnew | ⟨old, hold, -, hf'⟩
    · rw [hnew]
      exact le_rfl
    · exact ((hv.state.bounded old hold).1 n f hf').trans hlt
  · intro t ht
    rcases hr.deletedAt t ht with rfl | ⟨old, hold, -, ht'⟩
    · exact le_rfl
    · exact ((hv.state.bounded old hold).2 t ht').trans hlt

theorem localWrite_inv {v' : Vault} {d' : Disk} (hroom : v.Room d) (hd : DiskInv d) (hv : VaultInv d v)
    (h : Vault.LocalWrite v d v' d') : DiskInv d' ∧ VaultInv d' v' := by
  have hle : d.metadata.lamport ≤ (v.ticked d).lamport := (Vault.disk_lt_tick hroom).le
  cases h with
  | refused => exact ⟨hd, hv⟩
  | spent => exact ⟨hd.raise hle, hv.keyring, hv.state.mono hle⟩
  | wrote r key entryId hr hkey =>
    have hbound := built_bounded hroom hv hr
    refine ⟨(hd.raise hle).append ?_, hv.keyring, (hv.state.mono hle).mergeInto hbound⟩
    intro r' hr'
    obtain rfl := Keyring.opened_sealBlob hr'
    exact hbound

theorem write_spec (hroom : v.Room d) (hd : DiskInv d) (hv : VaultInv d v) (w : Write) : Spec (w.prog v) d :=
  (Vault.write_spec w).imp (fun _ ⟨_, h⟩ => (localWrite_inv hroom hd hv h).1)
    fun _ _ h => localWrite_inv hroom hd hv h

/-! ## Entries and keys that come in -/

theorem receive_inv {f : Frame} {o : Option Record} (hd : DiskInv d) (hv : VaultInv d v)
    (ho : v.keyring.openEntry f.1 f.2 = .ok o)
    (hf : ∀ r, v.keyring.opened f = some r → Bounded (max d.metadata.lamport r.clock.lamport) r) :
    let m := Vault.raised (v.absorbed d) o
    DiskInv { d with metadata := m, log := d.log ++ [f] } ∧
      VaultInv { d with metadata := m, log := d.log ++ [f] }
        { v with metadata := m, state := Vault.mergeOpened v.state o } := by
  intro m
  have hle : d.metadata.lamport ≤ m.lamport :=
    (le_max_right _ _).trans (Vault.le_raised (v.absorbed d) o)
  have hopen : v.keyring.opened f = o := by
    unfold Keyring.opened
    rw [ho]
  have hbound : ∀ r, o = some r → Bounded m.lamport r := by
    rintro r rfl
    exact (hf r hopen).mono (max_le hle (le_max_right _ _))
  refine ⟨(hd.raise hle).append ?_, hv.keyring, ?_⟩
  · intro r hr
    rw [← hv.keyring, hopen] at hr
    exact hbound r hr
  · rcases o with _ | r
    · exact hv.state.mono hle
    · exact (hv.state.mono hle).mergeInto (hbound r rfl)

theorem normalize_setShareKeys (kr : Keyring) (share : Uuid) (keys : List Key) :
    (kr.normalize.setShareKeys share keys).normalize = kr.normalize.setShareKeys share keys := by
  apply Keyring.normalize_of_plain
  all_goals
    unfold Keyring.setShareKeys
    split <;> rfl

theorem absorbShareKey_spec (hd : DiskInv d) (hv : VaultInv d v) {share : Uuid} {list : KeyBytes}
    (hkeys : (Proc.mk d (some v)).KeysCounted share list) : Spec (v.absorbShareKey share list) d := by
  unfold Vault.absorbShareKey
  split
  · exact ⟨hd, hv⟩
  rename_i keys hsplit
  split
  · exact ⟨hd, hv⟩
  rename_i hlonger
  have hcovers := hkeys v keys rfl hsplit hlonger
  rw [hv.keyring] at hcovers ⊢
  have hnorm := normalize_setShareKeys d.keyring share keys
  refine Prog.Always.bind (Prog.Always.bind (Prog.Always.atom hd ?_))
  exact ⟨⟨by rwa [hnorm], hd.snapshot⟩, hnorm.symm, hv.state⟩

/-! ## Steps and runs -/

structure ProcInv (p : Proc) : Prop where
  disk : DiskInv p.disk
  vault : ∀ v, p.vault = some v → VaultInv p.disk v

def OpSpec (p : Prog Disk (Option Vault)) (d : Disk) : Prop :=
  Prog.Always DiskInv (fun a d' => ProcInv ⟨d', a⟩) p d

theorem Spec.opSpec {α : Type} {p : Prog Disk (α × Vault)} (h : Spec p d) :
    OpSpec (do return some (← p).2) d := by
  refine Prog.Always.bind (h.mono ?_)
  rintro ⟨_, v⟩ d' ⟨hd', hv'⟩
  exact ⟨hd', by rintro _ ⟨rfl⟩; exact hv'⟩

theorem openVault_opSpec (hd : DiskInv d) : OpSpec (do return (← Vault.openVault).toOption) d :=
  Prog.Always.bind ((openVault_spec hd).mono fun _ _ h => ⟨h.1, h.2⟩)

theorem OpSpec.next {p : Proc} {op : Op} (h : OpSpec (op.prog p.vault) p.disk) (n : Nat) :
    ProcInv (p.next (.finish op)) ∧ ProcInv (p.next (.crash op n)) :=
  ⟨h.run, Prog.Always.cutAt h (fun _ _ h => h.disk) n, by rintro v ⟨⟩⟩

theorem opSpec {p : Proc} {op : Op} (h : ProcInv p) (hroom : p.Roomy)
    (hop : ∀ f, op ≠ .applyRemoteEntry f) (hkeys : ∀ share list, op = .absorbShareKey share list → p.KeysCounted share list) :
    OpSpec (op.prog p.vault) p.disk := by
  obtain ⟨d, vo⟩ := p
  rcases vo with _ | v
  · cases op with
    | openVault => exact openVault_opSpec h.disk
    | reload | write | applyRemoteEntry | absorbShareKey | compact => exact ⟨h.disk, by rintro v ⟨⟩⟩
  · have hv := h.vault v rfl
    cases op with
    | openVault => exact openVault_opSpec h.disk
    | reload => exact (reload_spec h.disk hv).opSpec
    | write w => exact (write_spec (hroom v rfl) h.disk hv w).opSpec
    | applyRemoteEntry f => exact absurd rfl (hop f)
    | absorbShareKey share list => exact (absorbShareKey_spec h.disk hv (hkeys share list rfl)).opSpec
    | compact => exact (compact_spec h.disk hv).opSpec

theorem receive_next {p : Proc} {f : Frame} (h : ProcInv p) (hsafe : p.EntryClocked f) :
    ProcInv (p.next (.finish (.applyRemoteEntry f))) := by
  obtain ⟨d, vo⟩ := p
  rcases vo with _ | v
  · exact ⟨h.disk, by rintro v ⟨⟩⟩
  have hv := h.vault v rfl
  unfold Proc.next Op.prog Op.onOpen
  simp only [Prog.run_bind, Prog.run_pure]
  cases ho : v.keyring.openEntry f.1 f.2 with
  | error e =>
    rw [Vault.run_applyRemoteEntry_error ho]
    exact h
  | ok o =>
    rw [Vault.run_applyRemoteEntry ho]
    obtain ⟨hd', hv'⟩ := receive_inv h.disk hv ho fun r hr => hsafe v r rfl hr
    exact ⟨hd', by rintro _ ⟨rfl⟩; exact hv'⟩

theorem receive_crash {p : Proc} {f : Frame} {n : Nat} (h : ProcInv p)
    (hsafe : p.Safe (.crash (.applyRemoteEntry f) n)) : ProcInv (p.next (.crash (.applyRemoteEntry f) n)) := by
  refine ⟨?_, by rintro v ⟨⟩⟩
  obtain ⟨d, vo⟩ := p
  rcases vo with _ | v
  · cases n <;> exact h.disk
  have hv := h.vault v rfl
  unfold Proc.next Op.prog Op.onOpen
  simp only [Prog.cutAt_map]
  cases ho : v.keyring.openEntry f.1 f.2 with
  | error e =>
    rw [Vault.cutAt_applyRemoteEntry_error ho]
    exact h.disk
  | ok o =>
    rw [Vault.cutAt_applyRemoteEntry ho]
    simp only [Proc.Safe] at hsafe
    split
    · exact h.disk
    rw [if_neg ‹_›] at hsafe
    split
    · rw [if_pos ‹_›] at hsafe
      refine h.disk.append fun r hr => ?_
      rw [← hv.keyring] at hr
      exact hsafe v rfl f (List.mem_singleton.mpr rfl) r hr
    · rw [if_neg ‹_›] at hsafe
      exact (receive_inv h.disk hv ho fun r hr => hsafe v r rfl hr).1

theorem absorb_crash {p : Proc} {share : Uuid} {list : KeyBytes} (h : ProcInv p) :
    ProcInv (p.next (.crash (.absorbShareKey share list) 0)) := ⟨h.disk, by rintro v ⟨⟩⟩

theorem ProcInv.next {p : Proc} {e : Event} (h : ProcInv p) (hroom : p.Roomy) (hsafe : p.Safe e) :
    ProcInv (p.next e) := by
  -- Two operations need the condition; the others are sound wherever they stop.
  have hplain : ∀ op n, (∀ f, op ≠ .applyRemoteEntry f) →
      (∀ share list, op = .absorbShareKey share list → p.KeysCounted share list) →
      ProcInv (p.next (.finish op)) ∧ ProcInv (p.next (.crash op n)) :=
    fun op n hop hkeys => (opSpec h hroom hop hkeys).next n
  cases e with
  | finish op =>
    cases op with
    | applyRemoteEntry f => exact receive_next h hsafe
    | absorbShareKey share list => exact (hplain _ 0 (by simp) (by rintro _ _ ⟨rfl, rfl⟩; exact hsafe)).1
    | openVault | reload | write | compact => exact (hplain _ 0 (by simp) (by simp)).1
  | crash op n =>
    cases op with
    | applyRemoteEntry f => exact receive_crash h hsafe
    | absorbShareKey share list =>
      rcases n with _ | n
      · exact absorb_crash h
      · exact (hplain _ _ (by simp) (by rintro _ _ ⟨rfl, rfl⟩; exact hsafe)).2
    | openVault | reload | write | compact => exact (hplain _ n (by simp) (by simp)).2

theorem ProcInv.after {p : Proc} {events : List Event} (h : ProcInv p) (hroom : p.RoomyRun events)
    (hsafe : p.SafeRun events) : ProcInv (p.after events) ∧ (p.after events).Roomy := by
  induction events generalizing p with
  | nil => exact ⟨h, hroom⟩
  | cons e rest ih => exact ih (h.next hroom.1 hsafe.1) hroom.2 hsafe.2

theorem created_inv (deviceName : String) (vaultId : Uuid) (vaultKey : Key) (recoveryPub : Bytes)
    (x : XKey) (ed : EdKey) (deviceId : Uuid) :
    ProcInv (created deviceName vaultId vaultKey recoveryPub x ed deviceId) := by
  refine ⟨⟨by rintro f ⟨⟩, by rintro s ⟨⟩⟩, ?_⟩
  rintro _ ⟨rfl⟩
  exact ⟨rfl, .empty⟩

/-! ## What dominance gives -/

theorem ProcInv.dominates {p : Proc} (h : ProcInv p) (hroom : p.Roomy) (hv : p.vault = some v) :
    Dominates (v.tick p.disk) v.state := by
  have hlt := Vault.disk_lt_tick (hroom v hv)
  intro r hr
  have hbound := (h.vault v hv).state.bounded r hr
  exact ⟨fun n f hf => Clock.lt_of_lamport_lt ((hbound.1 n f hf).trans_lt hlt),
    fun t ht => Clock.lt_of_lamport_lt ((hbound.2 t ht).trans_lt hlt)⟩

theorem append_ok {r old : Record} {entryId : Uuid} {d' : Disk} (hold : v.state[old.id]? = some old)
    (hid : r.id = old.id) (hok : ((v.append r entryId).run d').1.1 = .ok ()) :
    ((v.append r entryId).run d').1.2.state[old.id]? = some (merge old r) := by
  unfold Vault.append at hok ⊢
  split
  · rename_i hkey
    simp [hkey] at hok
  · change (mergeInto v.state r)[old.id]? = _
    rw [mergeInto_get, if_pos hid, hold]
    rfl

/-- Every field of an edit shows the value it was given. -/
def EditTakesEffect (v : Vault) (d : Disk) : Prop :=
  ∀ ord kind nameField name payload entryId now old, v.find ord kind nameField name = some old →
    let out := (v.edit ord kind nameField name payload entryId now).run d
    out.1.1 = .ok () → ∀ (n : String) (value : Value), payload[n]? = some value →
      ∃ (r : Record) (f : Field), out.1.2.state[old.id]? = some r ∧ r.fields[n]? = some f ∧ f.value = value

def RemoveDeletes (v : Vault) (d : Disk) : Prop :=
  ∀ ord kind nameField name entryId now old, v.find ord kind nameField name = some old →
    let out := (v.remove ord kind nameField name entryId now).run d
    out.1.1 = .ok () → ∃ r : Record, out.1.2.state[old.id]? = some r ∧ r.isDeleted = true

theorem later_editFields {payload : Payload} {old : FieldMap} {c : Clock} {n : String} {value : Value}
    (hlt : ∀ f, old[n]? = some f → f.clock < c) (hvalue : payload[n]? = some value) :
    ∃ f, later Field.clock old[n]? (Vault.editFields payload old c)[n]? = some f ∧ f.value = value := by
  have hget : ∃ f, (Vault.editFields payload old c)[n]? = some f := by
    unfold Vault.editFields
    rw [Std.ExtTreeMap.getElem?_map, fieldsFromPayload_get, hvalue]
    exact ⟨_, rfl⟩
  obtain ⟨f, hf⟩ := hget
  obtain ⟨hfv, hc⟩ := Vault.editFields_get hf
  obtain rfl : f.value = value := Option.some.inj (hfv.symm.trans hvalue)
  refine ⟨f, ?_, rfl⟩
  rw [hf]
  rcases hc with hc | hsame
  · exact later_of_lt fun g hg => hc ▸ hlt g hg
  · simp [hsame, later]

theorem edit_takes_effect (hdom : Dominates (v.tick d) v.state)
    (hkeyed : ∀ (i : Uuid) (r : Record), v.state[i]? = some r → r.id = i) : EditTakesEffect v d := by
  intro ord kind nameField name payload entryId now old hfind out hok n value hvalue
  obtain ⟨⟨i, hold⟩, -⟩ := Vault.find_mem hfind
  obtain rfl := hkeyed i old hold
  obtain ⟨r, key, hid, -, -, -, hfields, -, hrun⟩ := Vault.run_edit_ok hfind hok
  obtain ⟨f, hf, hfv⟩ := later_editFields (fun f => (hdom old ⟨_, hold⟩).1 n f) hvalue
  refine ⟨merge old r, f, ?_, ?_, hfv⟩
  · simp only [out]
    rw [hrun, mergeInto_get, if_pos hid, hold]
    rfl
  · rw [merge_fields_get, hfields]
    exact hf

theorem remove_deletes (hdom : Dominates (v.tick d) v.state)
    (hkeyed : ∀ (i : Uuid) (r : Record), v.state[i]? = some r → r.id = i) : RemoveDeletes v d := by
  intro ord kind nameField name entryId now old hfind out hok
  obtain ⟨⟨i, hold⟩, -⟩ := Vault.find_mem hfind
  obtain rfl := hkeyed i old hold
  obtain ⟨hfields, htomb⟩ := hdom old ⟨_, hold⟩
  simp only [out] at hok ⊢
  unfold Vault.remove at hok ⊢
  simp only [hfind, Prog.run_bind, Vault.run_nextClock] at hok ⊢
  refine ⟨_, append_ok hold rfl hok, (Record.isDeleted_iff _).mpr ⟨v.tick d, ?_, ?_⟩⟩
  · rw [merge_deletedAt, ← later_id_option]
    exact later_of_lt htomb
  · intro n f hf
    rw [merge_fields_get] at hf
    refine hfields n f ?_
    simpa using hf

/-- **Local writes win locally**, in every state that a run of safe steps reaches. -/
theorem local_writes_win (deviceName : String) (vaultId : Uuid) (vaultKey : Key) (recoveryPub : Bytes)
    (x : XKey) (ed : EdKey) (deviceId : Uuid) (events : List Event) (p : Proc)
    (hp : p = (created deviceName vaultId vaultKey recoveryPub x ed deviceId).after events)
    (hroom : (created deviceName vaultId vaultKey recoveryPub x ed deviceId).RoomyRun events)
    (hsafe : (created deviceName vaultId vaultKey recoveryPub x ed deviceId).SafeRun events)
    (v : Vault) (hv : p.vault = some v) :
    Dominates (v.nextClock.run p.disk).1.1 v.state ∧ EditTakesEffect v p.disk ∧ RemoveDeletes v p.disk := by
  obtain ⟨hinv, hroomy⟩ := (created_inv ..).after hroom hsafe
  rw [← hp] at hinv hroomy
  have hdom := hinv.dominates hroomy hv
  have hkeyed := (hinv.vault v hv).state.keyed
  exact ⟨hdom, edit_takes_effect hdom hkeyed, remove_deletes hdom hkeyed⟩

def laptop : Proc := created "laptop" 7 (.vault 1 0) (.ed (.recovery 1)) 0 (.device 0) 10

/-- An entry that another device sealed under `key`, with its counter at 5. -/
def remoteEntry (key : Key) (share : Uuid) : Frame :=
  (30, Crypto.sealBlob key (.record
    { id := 20, kind := .host, fields := (∅ : FieldMap).insert "alias" ⟨.str (.plain "web"), ⟨5, 11⟩⟩
      deletedAt := none, clock := ⟨5, 11⟩, deviceId := 11, modifiedAt := 0, shareId := share }) 30)

/-- An entry arrives, the process dies in `compact`, and the vault is opened again. -/
def restart : List Event :=
  [.finish (.applyRemoteEntry (remoteEntry (.vault 1 0) nil)), .crash .compact 1, .finish .openVault]

/-- An entry of a share arrives before the share's key. -/
def grantedLater : List Event :=
  [.finish (.applyRemoteEntry (remoteEntry (.random 5 0 0) 5)),
    .finish (.absorbShareKey 5 { keys := [.random 5 0 0] }), .finish .reload]

instance (p : Proc) : Decidable p.Roomy := match h : p.vault with
  | none => isTrue fun v hv => by simp [h] at hv
  | some v => decidable_of_iff (v.Room p.disk) ⟨fun hr v' hv' => by simp_all, fun hr => hr v h⟩

instance decidableRoomyRun : (p : Proc) → (events : List Event) → Decidable (p.RoomyRun events)
  | p, [] => inferInstanceAs (Decidable p.Roomy)
  | p, e :: rest =>
    have := decidableRoomyRun (p.next e) rest
    inferInstanceAs (Decidable (_ ∧ _))

def restarted : Vault := (laptop.after restart).vault.get (by decide +kernel)

theorem local_writes_win_restarted :
    Dominates (restarted.nextClock.run (laptop.after restart).disk).1.1 restarted.state ∧
      EditTakesEffect restarted (laptop.after restart).disk ∧ RemoveDeletes restarted (laptop.after restart).disk := by
  refine local_writes_win "laptop" 7 (.vault 1 0) (.ed (.recovery 1)) 0 (.device 0) 10 restart _ rfl
    (by decide +kernel) ⟨?_, trivial, trivial, trivial⟩ restarted (Option.some_get _).symm
  intro v r hv hr
  obtain rfl := Keyring.opened_sealBlob hr
  refine ⟨?_, by rintro t ⟨⟩⟩
  intro n f hf
  rw [Std.ExtTreeMap.getElem?_insert] at hf
  split at hf
  · obtain rfl := Option.some.inj hf
    exact le_max_right _ _
  · simp at hf

def granted : Vault := (laptop.after grantedLater).vault.get (by decide +kernel)

/-- The entry shows, and the counter has not seen it: the next write loses to it. -/
theorem granted_not_dominated :
    laptop.RoomyRun grantedLater ∧ (laptop.after grantedLater).vault = some granted ∧
      ¬ Dominates (granted.nextClock.run (laptop.after grantedLater).disk).1.1 granted.state ∧
      ¬ RemoveDeletes granted (laptop.after grantedLater).disk := by
  refine ⟨by decide +kernel, (Option.some_get _).symm, ?_, ?_⟩
  · intro h
    have hshown : (granted.state[(20 : Uuid)]?.bind fun r => r.fields["alias"]?) =
        some ⟨.str (.plain "web"), ⟨5, 11⟩⟩ := by decide +kernel
    obtain ⟨r, hr, hf⟩ := Option.bind_eq_some_iff.mp hshown
    have hlt := (h r ⟨20, hr⟩).1 "alias" _ hf
    exact absurd hlt (by decide +kernel)
  · intro h
    let ord : HashOrder := ⟨id, .refl⟩
    have hfound : ∃ old, granted.find ord .host "alias" "web" = some old :=
      Option.isSome_iff_exists.mp (by decide +kernel)
    obtain ⟨old, hfind⟩ := hfound
    have hid : (granted.find ord .host "alias" "web").map (·.id) = some 20 := by decide +kernel
    have hid : old.id = 20 := by simpa [hfind] using hid
    obtain ⟨r, hr, hdel⟩ := h ord .host "alias" "web" 40 0 old hfind (by decide +kernel)
    rw [hid] at hr
    have hlive : ((granted.remove ord .host "alias" "web" 40 0).run (laptop.after grantedLater).disk).1.2.state[(20 : Uuid)]?.map
        Record.isDeleted = some false := by decide +kernel
    rw [hr] at hlive
    simp [hdel] at hlive

end SshVault.Dominance
