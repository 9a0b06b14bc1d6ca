import SshVault.Lib.Counter
import SshVault.Vault.Metadata

/-!
# How long the counter lasts

`next_clock` adds one to a `u64`, and an entry that comes in raises it to the lamport time of its record.
-/

open Lib

namespace SshVault

namespace Vault

/-! ## Clocks that are taken -/

/-- Whether a write gets as far as `next_clock`. -/
def TakesClock (v : Vault) : Write → Bool
  | .addIn ord kind nameField name payload share _ _ _ =>
    (validatePayload kind payload).isOk && v.keyring.hasShare share && (v.find ord kind nameField name).isNone
  | .edit ord kind nameField name payload _ _ =>
    (validatePayload kind payload).isOk && (v.find ord kind nameField name).isSome
  | .remove ord kind nameField name _ _ => (v.find ord kind nameField name).isSome

/-- What an action does to the counter. -/
def Site.event (s : Site) (a : Action) : Option CounterEvent :=
  match s.vault, a with
  | some v, .write w => if v.TakesClock w then some .tick else none
  | some v, .applyRemoteEntry f => (v.keyring.opened f).map fun r => .raise r.clock.lamport
  | _, _ => none

def Site.events (s : Site) : List Action → List CounterEvent
  | [] => []
  | a :: rest => (s.event a).toList ++ (s.next a).events rest

/-- The clock that `next_clock` returns in an action. -/
def Site.clock (s : Site) (a : Action) : Option Clock :=
  match s.vault, a with
  | some v, .write w => if v.TakesClock w then some (v.tick s.disk) else none
  | _, _ => none

def Site.clocks (s : Site) : List Action → List Clock
  | [] => []
  | a :: rest => (s.clock a).toList ++ (s.next a).clocks rest

/-- No increment overflows. -/
def Site.NeverWraps (s : Site) : List Action → Prop
  | [] => True
  | a :: rest => (∀ v w, s.vault = some v → a = .write w → v.TakesClock w = true →
      (v.absorbed s.disk).lamport.val + 1 < 2 ^ 64) ∧ (s.next a).NeverWraps rest

/-! ## One action -/

variable {v : Vault} {d : Disk}

theorem append_metadata (m : Meta) (r : Record) (entryId : Uuid) :
    ((Vault.append { v with metadata := m } r entryId).run { d with metadata := m }).1.2.metadata = m ∧
      ((Vault.append { v with metadata := m } r entryId).run { d with metadata := m }).2.metadata = m := by
  unfold Vault.append
  cases v.keyring.currentFor r.shareId with
  | none => exact ⟨rfl, rfl⟩
  | some key => exact ⟨rfl, rfl⟩

theorem write_metadata (w : Write) :
    (v.TakesClock w = true →
      ((w.prog v).run d).1.2.metadata = v.ticked d ∧ ((w.prog v).run d).2.metadata = v.ticked d) ∧
      (v.TakesClock w = false → ((w.prog v).run d).1.2 = v ∧ ((w.prog v).run d).2 = d) := by
  cases w with
  | addIn ord kind nameField name payload share recordId entryId now =>
    unfold TakesClock Write.prog
    simp only [Prog.run_bind, Prog.run_pure]
    unfold addIn
    cases validatePayload kind payload with
    | error e => exact ⟨nofun, fun _ => ⟨rfl, rfl⟩⟩
    | ok _ =>
      dsimp only
      cases v.keyring.hasShare share with
      | false => exact ⟨nofun, fun _ => ⟨rfl, rfl⟩⟩
      | true =>
        cases v.find ord kind nameField name with
        | some r => exact ⟨nofun, fun _ => ⟨rfl, rfl⟩⟩
        | none =>
          rw [if_neg (by simp), if_neg (by simp), Prog.run_bind, run_nextClock]
          simp only [Prog.run_bind, Prog.run_pure]
          exact ⟨fun _ => append_metadata _ _ _, nofun⟩
  | edit ord kind nameField name payload entryId now =>
    unfold TakesClock Write.prog
    dsimp only
    unfold edit
    cases validatePayload kind payload with
    | error e => exact ⟨nofun, fun _ => ⟨rfl, rfl⟩⟩
    | ok _ =>
      dsimp only
      cases v.find ord kind nameField name with
      | none => exact ⟨nofun, fun _ => ⟨rfl, rfl⟩⟩
      | some r =>
        dsimp only
        rw [Prog.run_bind, run_nextClock]
        exact ⟨fun _ => append_metadata _ _ _, nofun⟩
  | remove ord kind nameField name entryId now =>
    unfold TakesClock Write.prog
    dsimp only
    unfold remove
    cases v.find ord kind nameField name with
    | none => exact ⟨nofun, fun _ => ⟨rfl, rfl⟩⟩
    | some r =>
      dsimp only
      rw [Prog.run_bind, run_nextClock]
      exact ⟨fun _ => append_metadata _ _ _, nofun⟩

/-- The process is not ahead of the file. -/
def Site.Synced (s : Site) : Prop := Within s.disk.lamport s.vault

theorem rises_run {α : Type} {Q : U64 → α → Prop} {p : Prog Disk α} {b : U64} (h : p.Rises Disk.lamport Q b)
    (hQ : ∀ b b' a, b ≤ b' → Q b a → Q b' a) (hd : b ≤ d.lamport) : Q (p.run d).2.lamport (p.run d).1 := by
  induction p generalizing d b with
  | done a => exact hQ _ _ _ hd h
  | step u k ih =>
    obtain ⟨-, hnext⟩ := h d hd
    exact ih d hnext le_rfl

/-- The counter after an event. -/
def counted (c : Nat) : Option CounterEvent → Nat
  | none => c
  | some .tick => c + 1
  | some (.raise value) => max c value

theorem absorbed_lamport (hv : v.metadata.lamport ≤ d.lamport) : (v.absorbed d).lamport = d.lamport := max_eq_right hv

theorem tick_val (hv : v.metadata.lamport ≤ d.lamport) (hroom : d.lamport.val + 1 < 2 ^ 64) :
    (v.ticked d).lamport.val = d.lamport.val + 1 := by
  have h1 : ((1 : U64) : Nat) = 1 := rfl
  unfold ticked
  rw [absorbed_lamport hv, Fin.val_add, h1]
  exact Nat.mod_eq_of_lt hroom

theorem quiet_action {a : Action} (hwrite : ∀ w, a ≠ .write w) (hreceive : ∀ f, a ≠ .applyRemoteEntry f)
    (hv : v.metadata.lamport ≤ d.lamport) :
    ((a.prog v).run d).2.lamport = d.lamport ∧ Within ((a.prog v).run d).2.lamport ((a.prog v).run d).1 := by
  have hkeys : a.OnKeys → ((a.prog v).run d).2.lamport = d.lamport ∧ Within ((a.prog v).run d).2.lamport ((a.prog v).run d).1 := by
    intro ha
    have hsame : SameMeta d ((a.prog v).run d).2 :=
      (prog_sameMeta ha).run (fun _ => rfl) (fun _ _ _ h h' => Eq.trans h' h) d
    exact ⟨congrArg Meta.lamport hsame, rises_run (prog_rises ha hv) (fun _ _ _ hb h => h.mono hb) le_rfl⟩
  cases a with
  | write w => exact absurd rfl (hwrite w)
  | applyRemoteEntry f => exact absurd rfl (hreceive f)
  | setSyncCursor cursor => exact ⟨absorbed_lamport hv, within_some le_rfl⟩
  | resetSyncCursor => exact ⟨absorbed_lamport hv, within_some le_rfl⟩
  | setVaultKey list =>
    have hread : Disk.readLog.run d = (d.log, d) := rfl
    unfold Action.prog
    simp only [Prog.run_bind, Prog.run_pure]
    unfold setVaultKey
    rw [Prog.run_bind, hread]
    by_cases hlog : d.log = []
    · rw [if_neg (by simp [hlog])]
      cases splitKeyList list with
      | error e => exact ⟨rfl, within_some hv⟩
      | ok keys => exact ⟨rfl, within_some hv⟩
    · rw [if_pos (by simpa using hlog)]
      exact ⟨rfl, within_some hv⟩
  | compact =>
    have hsame : SameMeta d (v.compact.run d).2 := Cached.sameMeta d _ (cached_run (compact_cached v) d)
    have hrises := rises_run (compact_rises hv) (fun _ _ _ hb h => le_trans h hb) (le_refl d.lamport)
    unfold Action.prog
    simp only [Prog.run_bind, Prog.run_pure]
    exact ⟨congrArg Meta.lamport hsame, within_some hrises⟩
  | rotate => exact hkeys trivial
  | createShare => exact hkeys trivial
  | rotateShare => exact hkeys trivial
  | absorbShareKey => exact hkeys trivial
  | reload => exact hkeys trivial
  | reopen => exact hkeys trivial

/-- **One action.** As long as nothing wraps, the counter of the file counts its events. -/
theorem Site.Synced.next {s : Site} (h : s.Synced) (a : Action)
    (hroom : s.event a = some .tick → s.disk.lamport.val + 1 < 2 ^ 64) :
    (s.next a).Synced ∧ (s.next a).disk.lamport.val = counted s.disk.lamport.val (s.event a) := by
  obtain ⟨d, vault⟩ := s
  cases vault with
  | none =>
    have hnone : (Site.mk d none).event a = none := by
      unfold Site.event
      rfl
    rw [hnone]
    cases a with
    | reopen =>
      have hsame : SameMeta d ((do return (← openVault).toOption : Prog Disk (Option Vault)).run d).2 :=
        open_sameMeta.run (fun _ => rfl) (fun _ _ _ h h' => Eq.trans h' h) d
      have hwithin := rises_run (open_rises (b := d.lamport)) (fun _ _ _ hb h => Within.mono hb h) (le_refl d.lamport)
      simp only [Prog.run_bind, Prog.run_pure] at hsame hwithin
      exact ⟨hwithin, congrArg (fun m : Meta => m.lamport.val) hsame⟩
    | _ => exact ⟨h, rfl⟩
  | some v =>
    have hv : v.metadata.lamport ≤ d.lamport := h v rfl
    -- All but writes and entries leave the counter, and count nothing.
    have hquiet : (∀ w, a ≠ .write w) → (∀ f, a ≠ .applyRemoteEntry f) → (Site.mk d (some v)).event a = none →
        ((Site.mk d (some v)).next a).Synced ∧
          ((Site.mk d (some v)).next a).disk.lamport.val = counted d.lamport.val ((Site.mk d (some v)).event a) := by
      intro hwrite hreceive hevent
      obtain ⟨hsame, hwithin⟩ := quiet_action hwrite hreceive hv
      rw [hevent]
      exact ⟨hwithin, congrArg Fin.val hsame⟩
    cases a with
    | write w =>
      have hmeta := write_metadata (v := v) (d := d) w
      unfold Site.next Site.Synced Action.prog
      simp only [Prog.run_bind, Prog.run_pure]
      unfold Site.event at hroom ⊢
      dsimp only at hroom ⊢
      cases htakes : v.TakesClock w with
      | true =>
        rw [htakes] at hroom
        obtain ⟨hmem, hdisk⟩ := hmeta.1 htakes
        refine ⟨within_some ?_, ?_⟩
        · unfold Disk.lamport
          rw [hmem, hdisk]
        · unfold Disk.lamport
          rw [hdisk]
          exact tick_val hv (hroom rfl)
      | false =>
        obtain ⟨hmem, hdisk⟩ := hmeta.2 htakes
        rw [hmem, hdisk]
        exact ⟨within_some hv, rfl⟩
    | applyRemoteEntry f =>
      unfold Site.next Site.Synced Action.prog
      simp only [Prog.run_bind, Prog.run_pure]
      unfold Site.event
      dsimp only
      unfold Keyring.opened
      cases ho : v.keyring.openEntry f.1 f.2 with
      | error e =>
        rw [run_applyRemoteEntry_error ho]
        exact ⟨within_some hv, rfl⟩
      | ok o =>
        rw [run_applyRemoteEntry ho]
        refine ⟨within_some le_rfl, ?_⟩
        unfold Disk.lamport raised
        dsimp only
        rw [absorbed_lamport hv]
        cases o with
        | none => rfl
        | some r =>
          change (max d.lamport r.clock.lamport).val = max d.lamport.val r.clock.lamport.val
          rcases le_total d.lamport r.clock.lamport with hle | hle
          · rw [max_eq_right hle, max_eq_right (Fin.le_def.mp hle)]
          · rw [max_eq_left hle, max_eq_left (Fin.le_def.mp hle)]
    | _ =>
      refine hquiet ?_ ?_ ?_
      · exact fun _ hw => Action.noConfusion hw
      · exact fun _ hf => Action.noConfusion hf
      · rfl

/-! ## Runs -/

theorem ticks_event (e : Option CounterEvent) (es : List CounterEvent) (bound c : Nat) :
    CounterEvent.Lasts bound c (e.toList ++ es) ↔
      (e = some .tick → c + 1 < bound) ∧ CounterEvent.Lasts bound (counted c e) es := by
  cases e with
  | none => exact ⟨fun h => ⟨nofun, h⟩, fun h => h.2⟩
  | some e =>
    cases e with
    | tick => exact ⟨fun h => ⟨fun _ => h.1, h.2⟩, fun h => ⟨h.1 rfl, h.2⟩⟩
    | raise value => exact ⟨fun h => ⟨nofun, h⟩, fun h => h.2⟩

theorem event_tick {s : Site} {a : Action} (h : s.event a = some .tick) :
    ∃ v w, s.vault = some v ∧ a = .write w ∧ v.TakesClock w = true := by
  unfold Site.event at h
  split at h
  · rename_i v w hv
    split at h
    · exact ⟨v, w, hv, rfl, ‹_›⟩
    · cases h
  · obtain ⟨r, -, hr⟩ := Option.map_eq_some_iff.mp h
    cases hr
  · cases h

theorem event_write {s : Site} {v : Vault} {w : Write} (hv : s.vault = some v) (hw : v.TakesClock w = true) :
    s.event (.write w) = some .tick ∧ s.clock (.write w) = some (v.tick s.disk) := by
  unfold Site.event Site.clock
  rw [hv]
  exact ⟨if_pos hw, if_pos hw⟩

theorem neverWraps_iff {actions : List Action} {s : Site} (h : s.Synced) :
    s.NeverWraps actions ↔ CounterEvent.Lasts (2 ^ 64) s.disk.lamport.val (s.events actions) := by
  induction actions generalizing s with
  | nil => exact Iff.rfl
  | cons a rest ih =>
    unfold Site.NeverWraps Site.events
    rw [ticks_event]
    have hnow : (∀ v w, s.vault = some v → a = .write w → v.TakesClock w = true →
        (v.absorbed s.disk).lamport.val + 1 < 2 ^ 64) ↔ (s.event a = some .tick → s.disk.lamport.val + 1 < 2 ^ 64) := by
      constructor
      · intro hall hevent
        obtain ⟨v, w, hv, rfl, hw⟩ := event_tick hevent
        have hroom := hall v w hv rfl hw
        rwa [absorbed_lamport (h v hv)] at hroom
      · rintro hroom v w hv rfl hw
        rw [absorbed_lamport (h v hv)]
        exact hroom (event_write hv hw).1
    rw [hnow]
    refine and_congr_right fun hroom => ?_
    obtain ⟨hsynced, hcount⟩ := h.next a hroom
    rw [ih hsynced, hcount]

theorem clocks_increase {actions : List Action} {s : Site} (h : s.Synced) (hlasts : s.NeverWraps actions) :
    (∀ k ∈ s.clocks actions, s.disk.lamport < k.lamport) ∧ (s.clocks actions).Pairwise fun k k' => k.lamport < k'.lamport := by
  induction actions generalizing s with
  | nil => exact ⟨nofun, .nil⟩
  | cons a rest ih =>
    obtain ⟨hnow, hrest⟩ := hlasts
    have hroom : s.event a = some .tick → s.disk.lamport.val + 1 < 2 ^ 64 := by
      intro hevent
      obtain ⟨v, w, hv, rfl, hw⟩ := event_tick hevent
      have hroom := hnow v w hv rfl hw
      rwa [absorbed_lamport (h v hv)] at hroom
    obtain ⟨hsynced, hcount⟩ := h.next a hroom
    obtain ⟨hafter, hpairs⟩ := ih hsynced hrest
    -- The counter never goes down, so later clocks are above it too.
    have hrises : s.disk.lamport ≤ (s.next a).disk.lamport := by
      rw [Fin.le_def, hcount]
      unfold counted
      split <;> omega
    unfold Site.clocks
    cases hclock : s.clock a with
    | none => exact ⟨fun k hk => lt_of_le_of_lt hrises (hafter k hk), hpairs⟩
    | some k =>
      obtain ⟨v, w, hv, rfl, hw⟩ : ∃ v w, s.vault = some v ∧ a = .write w ∧ v.TakesClock w = true := by
        unfold Site.clock at hclock
        split at hclock
        · rename_i v w hv
          split at hclock
          · exact ⟨v, w, hv, rfl, ‹_›⟩
          · cases hclock
        · cases hclock
      obtain ⟨hevent, hclock'⟩ := event_write hv hw
      obtain rfl : v.tick s.disk = k := Option.some.inj (hclock'.symm.trans hclock)
      have hval : (v.tick s.disk).lamport.val = s.disk.lamport.val + 1 := tick_val (h v hv) (hroom hevent)
      rw [hevent] at hcount
      have hlt : s.disk.lamport < (v.tick s.disk).lamport := by
        rw [Fin.lt_def, hval]
        exact Nat.lt_succ_self _
      have hsame : (s.next (.write w)).disk.lamport = (v.tick s.disk).lamport := Fin.ext (hcount.trans hval.symm)
      refine ⟨?_, List.pairwise_cons.mpr ⟨fun k hk => hsame ▸ hafter k hk, hpairs⟩⟩
      intro k hk
      rcases List.mem_cons.mp hk with rfl | hk
      · exact hlt
      · exact lt_of_le_of_lt hrises (hafter k hk)

theorem raised_lt {actions : List Action} {s : Site} : ∀ n, CounterEvent.raise n ∈ s.events actions → n < 2 ^ 64 := by
  induction actions generalizing s with
  | nil => exact nofun
  | cons a rest ih =>
    intro n hn
    rcases List.mem_append.mp hn with hn | hn
    · have hevent := Option.mem_toList.mp hn
      unfold Site.event at hevent
      split at hevent
      · split at hevent <;> cases hevent
      · obtain ⟨r, -, hr⟩ := Option.map_eq_some_iff.mp hevent
        obtain rfl := CounterEvent.raise.inj hr
        exact r.clock.lamport.isLt
      · cases hevent
    · exact ih n hn

/-- **The counter of a device.** In a run over one directory no increment overflows and all clocks go up, exactly
where fewer than 2^64 clocks are taken and every entry that came in left room for the clocks taken after it. -/
theorem counter_lasts_iff (deviceName : String) (vaultId : Uuid) (vaultKey : Key) (recoveryPub : Bytes) (x : XKey) (ed : EdKey)
    (deviceId : Uuid) (actions : List Action) :
    let s := created deviceName vaultId vaultKey recoveryPub x ed deviceId
    (s.NeverWraps actions ∧ (s.clocks actions).Pairwise (· < ·)) ↔
      CounterEvent.ticks (s.events actions) < 2 ^ 64 ∧ CounterEvent.Fit (2 ^ 64) (s.events actions) := by
  intro s
  have hsynced : s.Synced := within_some le_rfl
  have hlasts := @neverWraps_iff actions s hsynced
  rw [CounterEvent.lasts_iff s.disk.lamport.isLt raised_lt, show s.disk.lamport.val = 0 from rfl, Nat.zero_add] at hlasts
  rw [← hlasts]
  refine ⟨And.left, fun hnever => ⟨hnever, ?_⟩⟩
  exact (clocks_increase hsynced hnever).2.imp fun hlt => Clock.lt_of_lamport_lt hlt

/-! ## A record from the end of time -/

namespace Exhausted

def desk : Site := created "desk" 7 (.vault 1 0) (.ed (.recovery 1)) 0 (.device 0) 10

def anyOrder : HashOrder := ⟨fun l => l, .refl⟩

def add (name : String) (recordId entryId : Uuid) : Action :=
  .write (.addIn anyOrder .snippet "name" name ((∅ : Payload).insert "name" (.str (.plain name))) nil recordId entryId 0)

/-- A member of the vault seals a record with the last lamport time there is. -/
def last : Action :=
  .applyRemoteEntry (40, Crypto.sealBlob (.vault 1 0) (.record
    { id := 50, kind := .snippet, fields := ∅, deletedAt := none, clock := ⟨Fin.last _, 11⟩, deviceId := 11
      modifiedAt := 0, shareId := nil }) 40)

def actions : List Action := [add "up" 20 30, last, add "down" 21 31]

theorem peer_exhausts : desk.clocks actions = [⟨1, 10⟩, ⟨0, 10⟩] ∧
    ¬ (desk.NeverWraps actions ∧ (desk.clocks actions).Pairwise (· < ·)) := by
  have hclocks : desk.clocks actions = [⟨1, 10⟩, ⟨0, 10⟩] := by decide +kernel
  refine ⟨hclocks, fun h => ?_⟩
  rw [hclocks] at h
  exact absurd h.2 (by decide)

end Exhausted

end Vault

end SshVault
