import SshVault.Vault.Writes

/-!
# Convergence of the store

Any number of devices write and exchange log entries. Merging is commutative only on
coherent records, so the invariant is about the records of all logs together: what a device
stamps with its own clock was never stamped before, and what `edit` keeps, it keeps as it was.
-/

open Lib

namespace SshVault.Convergence

variable {ι : Type}

/-- Devices with distinct ids and the same keys, before their first write. -/
structure Start (w : ι → Device) : Prop where
  distinct : ∀ i j, (w i).vault.metadata.deviceId = (w j).vault.metadata.deviceId → i = j
  sameKeys : ∀ i j k, k ∈ (w i).vault.keyring.allKeys ↔ k ∈ (w j).vault.keyring.allKeys
  noFrames : ∀ i, (w i).disk.log = []
  noRecords : ∀ i, (w i).vault.state = ∅

/-- A device writes, or receives an entry of some device's log. -/
inductive Step [DecidableEq ι] (w : ι → Device) : (ι → Device) → Prop
  | write (i : ι) (op : Write) (hroom : (w i).vault.Room (w i).disk) :
    Step w (Function.update w i ((w i).perform op.prog))
  | receive (i j : ι) (f : Frame) (hf : f ∈ (w j).disk.log) :
    Step w (Function.update w i ((w i).perform (·.applyRemoteEntry f.1 f.2)))

def Run [DecidableEq ι] : (ι → Device) → (ι → Device) → Prop := Relation.ReflTransGen Step

/-! ## The invariant -/

/-- The records that a device can read from its log. -/
def records (d : Device) : List Record := d.disk.log.filterMap d.vault.keyring.opened

def Logged (w : ι → Device) : Set Record := {r | ∃ i, r ∈ records (w i)}

/-- Device `d` has stamped every clock that names it, with a counter it has passed. -/
def Passed (d : Device) (c : Clock) : Prop :=
  c.device = d.vault.metadata.deviceId → c.lamport ≤ d.disk.metadata.lamport

structure Inv (w : ι → Device) : Prop where
  distinct : ∀ i j, (w i).vault.metadata.deviceId = (w j).vault.metadata.deviceId → i = j
  sameKeys : ∀ i j k, k ∈ (w i).vault.keyring.allKeys ↔ k ∈ (w j).vault.keyring.allKeys
  state : ∀ i, (w i).vault.state = mergeAll (records (w i))
  coherent : CoherentRecords (Logged w)
  clock : ∀ r ∈ Logged w, ∀ i, Passed (w i) r.clock
  fieldClock : ∀ r ∈ Logged w, ∀ (n : String) (f : Field), r.fields[n]? = some f → ∀ i, Passed (w i) f.clock

theorem Start.inv {w : ι → Device} (h : Start w) : Inv w := by
  have hrec : ∀ i, records (w i) = [] := fun i => by simp [records, h.noFrames i]
  have hlog : Logged w = ∅ := by simp [Logged, hrec]
  refine ⟨h.distinct, h.sameKeys, ?_, ?_, ?_, ?_⟩
  · intro i
    rw [h.noRecords, hrec]
    rfl
  · rw [hlog]
    exact ⟨by simp, by simp⟩
  · simp [hlog]
  · simp [hlog]

/-! ## One step -/

variable [DecidableEq ι] {w : ι → Device} {i : ι} {d : Device}

/-- A step of device `i` that keeps its identity and its keys, and never turns its clock back. -/
structure Keeps (d d' : Device) : Prop where
  deviceId : d'.vault.metadata.deviceId = d.vault.metadata.deviceId
  keyring : d'.vault.keyring = d.vault.keyring
  lamport : d.disk.metadata.lamport ≤ d'.disk.metadata.lamport

theorem Passed.keeps {d d' : Device} {c : Clock} (h : Passed d c) (hk : Keeps d d') : Passed d' c :=
  fun hc => (h (hc.trans hk.deviceId)).trans hk.lamport

theorem Passed.update {j : ι} {c : Clock} (h : Passed (w j) c) (hk : Keeps (w i) d) :
    Passed (Function.update w i d j) c := by
  by_cases hj : j = i
  · subst hj
    simpa using h.keeps hk
  · simpa [hj] using h

/-- A record that may join the logs when device `i` becomes `d`. -/
structure Fits (w : ι → Device) (i : ι) (d : Device) (r : Record) : Prop where
  coherent : CoherentRecords (insert r (Logged w))
  clock : ∀ j, Passed (Function.update w i d j) r.clock
  fieldClock : ∀ (n : String) (f : Field), r.fields[n]? = some f → ∀ j, Passed (Function.update w i d j) f.clock

theorem Inv.update (h : Inv w) (hk : Keeps (w i) d) (o : Option Record)
    (hrec : records d = records (w i) ++ o.toList)
    (hstate : d.vault.state = Vault.mergeOpened (w i).vault.state o)
    (hfits : ∀ r, o = some r → Fits w i d r) : Inv (Function.update w i d) := by
  have hid : ∀ j, (Function.update w i d j).vault.metadata.deviceId = (w j).vault.metadata.deviceId := by
    intro j
    by_cases hj : j = i
    · subst hj; simp [hk.deviceId]
    · simp [hj]
  have hkeys : ∀ j, (Function.update w i d j).vault.keyring = (w j).vault.keyring := by
    intro j
    by_cases hj : j = i
    · subst hj; simp [hk.keyring]
    · simp [hj]
  -- What is logged anew is the record that the frame opens to, if it opens.
  have hlogged : ∀ r ∈ Logged (Function.update w i d), r ∈ Logged w ∨ o = some r := by
    rintro r ⟨j, hr⟩
    by_cases hj : j = i
    · subst hj
      simp only [Function.update_self, hrec, List.mem_append, Option.mem_toList] at hr
      exact hr.imp (fun hr => ⟨j, hr⟩) id
    · exact Or.inl ⟨j, by simpa [hj] using hr⟩
  refine ⟨?_, ?_, ?_, ?_, ?_, ?_⟩
  · simpa only [hid] using h.distinct
  · simpa only [hkeys] using h.sameKeys
  · intro j
    by_cases hj : j = i
    · subst hj
      rw [Function.update_self, hstate, hrec, h.state]
      cases o <;> simp [mergeAll, Vault.mergeOpened]
    · simpa [hj] using h.state j
  · cases o with
    | none => exact h.coherent.mono fun r hr => (hlogged r hr).resolve_right (by simp)
    | some r₀ =>
      refine (hfits r₀ rfl).coherent.mono fun r hr => ?_
      exact (hlogged r hr).symm.imp (fun e => (Option.some.inj e).symm) id
  · intro r hr j
    rcases hlogged r hr with hr | hr
    · exact (h.clock r hr j).update hk
    · exact (hfits r hr).clock j
  · intro r hr n f hf j
    rcases hlogged r hr with hr | hr
    · exact (h.fieldClock r hr n f hf j).update hk
    · exact (hfits r hr).fieldClock n f hf j

theorem Inv.fits_logged (h : Inv w) (hk : Keeps (w i) d) {r : Record} (hr : r ∈ Logged w) : Fits w i d r := by
  refine ⟨?_, fun j => (h.clock r hr j).update hk, fun n f hf j => (h.fieldClock r hr n f hf j).update hk⟩
  rw [Set.insert_eq_of_mem hr]
  exact h.coherent

/-- A record built under the next clock fits: no log has seen that clock, and the other fields
are copies of logged ones. -/
theorem Inv.fits_built (h : Inv w) (hroom : (w i).vault.Room (w i).disk) (hk : Keeps (w i) d)
    (hlamport : d.disk.metadata.lamport = ((w i).vault.tick (w i).disk).lamport) {r : Record}
    (hr : Vault.Built (w i).vault.state ((w i).vault.tick (w i).disk) r) : Fits w i d r := by
  have hfresh : ∀ c, Passed (w i) c → c ≠ (w i).vault.tick (w i).disk := by
    rintro c hc rfl
    exact absurd (hc rfl) (not_le.mpr (Vault.disk_lt_tick hroom))
  have hpassed : ∀ j, Passed (Function.update w i d j) ((w i).vault.tick (w i).disk) := by
    intro j
    by_cases hj : j = i
    · subst hj
      simp [Passed, hlamport]
    · intro hid
      rw [Function.update_of_ne hj] at hid
      exact absurd (h.distinct _ _ hid).symm hj
  -- What was not stamped just now is in the log of device `i`.
  have horigin : ∀ (n : String) (f : Field), r.fields[n]? = some f → f.clock = (w i).vault.tick (w i).disk ∨
      ∃ r₀ ∈ Logged w, r₀.id = r.id ∧ r₀.fields[n]? = some f := by
    intro n f hf
    refine (hr.field n f hf).imp_right ?_
    rintro ⟨old, ⟨k, hold⟩, hid, hf'⟩
    rw [h.state] at hold
    obtain ⟨r₀, hmem, hid₀, hf₀⟩ := View.mergeAll_origin (V := View.field n) hold hf'
    exact ⟨r₀, ⟨i, hmem⟩, hid₀.trans ((mergeAll_id hold).symm.trans hid), hf₀⟩
  refine ⟨h.coherent.insert ?_ ?_, ?_, ?_⟩
  · intro r' hr' hid n f f' hf hf' hc
    rcases horigin n f hf with hnew | ⟨r₀, hr₀, hid₀, hf₀⟩
    · exact absurd (hc.symm.trans hnew) (hfresh _ (h.fieldClock r' hr' n f' hf' i))
    · exact h.coherent.field r₀ hr₀ r' hr' (hid₀.trans hid) n f f' hf₀ hf' hc
  · intro r' hr' hid hc
    exact absurd (hc.symm.trans hr.clock) (hfresh _ (h.clock r' hr' i))
  · rw [hr.clock]
    exact hpassed
  · intro n f hf j
    rcases horigin n f hf with hnew | ⟨r₀, hr₀, -, hf₀⟩
    · rw [hnew]
      exact hpassed j
    · exact (h.fieldClock r₀ hr₀ n f hf₀ j).update hk

theorem records_append {d d' : Device} {f : Frame} (hlog : d'.disk.log = d.disk.log ++ [f])
    (hk : Keeps d d') : records d' = records d ++ (d.vault.keyring.opened f).toList := by
  unfold records
  rw [hlog, hk.keyring, List.filterMap_append]
  cases h : d.vault.keyring.opened f <;> simp [h]

theorem Inv.write (h : Inv w) (op : Write) (hroom : (w i).vault.Room (w i).disk) :
    Inv (Function.update w i ((w i).perform op.prog)) := by
  have hspec : Vault.LocalWrite (w i).vault (w i).disk ((w i).perform op.prog).vault ((w i).perform op.prog).disk :=
    (Vault.write_spec op).run
  generalize (w i).perform op.prog = d at hspec ⊢
  have hle : (w i).disk.metadata.lamport ≤ ((w i).vault.ticked (w i).disk).lamport :=
    (Vault.disk_lt_tick hroom).le
  have hk : Keeps (w i) d := by
    obtain ⟨disk, vault⟩ := d
    cases hspec
    · exact ⟨rfl, rfl, le_rfl⟩
    · exact ⟨rfl, rfl, hle⟩
    · exact ⟨rfl, rfl, hle⟩
  obtain ⟨disk, vault⟩ := d
  cases hspec with
  | refused => simpa using h
  | spent => exact h.update hk none (by simp [records]) rfl (by simp)
  | wrote r key entryId hr hkey =>
    have hopen : (w i).vault.keyring.opened (entryId, Crypto.sealBlob key (.record r) entryId) = some r :=
      Keyring.opened_eq_some.mpr ⟨key, Keyring.currentFor_mem hkey, rfl⟩
    refine h.update hk (some r) ?_ rfl ?_
    · rw [records_append rfl hk, hopen]
    · rintro _ ⟨rfl⟩
      exact h.fits_built hroom hk rfl hr

theorem Inv.receive (h : Inv w) {j : ι} {f : Frame} (hf : f ∈ (w j).disk.log) :
    Inv (Function.update w i ((w i).perform (·.applyRemoteEntry f.1 f.2))) := by
  cases ho : (w i).vault.keyring.openEntry f.1 f.2 with
  | error e =>
    have hrefused : (w i).perform (·.applyRemoteEntry f.1 f.2) = w i := by
      unfold Device.perform
      rw [Vault.run_applyRemoteEntry_error ho]
    simpa [hrefused] using h
  | ok o =>
    have hrun := Vault.run_applyRemoteEntry (d := (w i).disk) ho
    have hk : Keeps (w i) ((w i).perform (·.applyRemoteEntry f.1 f.2)) := by
      unfold Device.perform
      rw [hrun]
      exact ⟨rfl, rfl, (le_max_right _ _).trans (Vault.le_raised ((w i).vault.absorbed (w i).disk) o)⟩
    have hopen : (w i).vault.keyring.opened f = o := by
      unfold Keyring.opened
      rw [ho]
    refine h.update hk o ?_ ?_ ?_
    · rw [records_append (f := f) _ hk, hopen]
      unfold Device.perform
      rw [hrun]
    · unfold Device.perform
      rw [hrun]
    · rintro r rfl
      -- The sender can open the frame too, since it holds the same keys.
      obtain ⟨k, hkmem, hblob⟩ := Keyring.opened_eq_some.mp hopen
      have hsent : (w j).vault.keyring.opened f = some r :=
        Keyring.opened_eq_some.mpr ⟨k, (h.sameKeys i j k).mp hkmem, hblob⟩
      exact h.fits_logged hk ⟨j, List.mem_filterMap.mpr ⟨f, hf, hsent⟩⟩

theorem Run.inv {w₀ : ι → Device} (hstart : Start w₀) (hrun : Run w₀ w) : Inv w := by
  induction hrun with
  | refl => exact hstart.inv
  | tail _ hstep ih =>
    cases hstep with
    | write i op hroom => exact ih.write op hroom
    | receive i j f hf => exact ih.receive hf

/-- **Convergence of the store.** Two devices with the same set of entries show the same records. -/
theorem store_converges {w₀ : ι → Device} (hstart : Start w₀) (hrun : Run w₀ w) (i j : ι)
    (hlogs : ∀ f, f ∈ (w i).disk.log ↔ f ∈ (w j).disk.log) :
    (w i).vault.state = (w j).vault.state := by
  have h := hrun.inv hstart
  rw [h.state i, h.state j]
  apply mergeAll_congr
  · -- The same keys open the same records.
    have hopened : ∀ f, (w i).vault.keyring.opened f = (w j).vault.keyring.opened f := by
      intro f
      ext r
      rw [Keyring.opened_eq_some, Keyring.opened_eq_some]
      simp only [h.sameKeys i j]
    intro r
    simp only [records, List.mem_filterMap, hlogs, hopened]
  · exact h.coherent.mono fun r hr => ⟨i, hr⟩

/-! ## Two devices that exchange their first writes -/

def pair (b : Bool) : Device :=
  let (disk, vault) := Vault.createWithKeys "laptop" 7 (.vault 1 0) (.ed (.recovery 1)) b.toNat (.device b.toNat)
    (if b then 11 else 10)
  ⟨disk, vault⟩

def addHost (recordId entryId : Uuid) : Write :=
  .addIn ⟨id, .refl⟩ .host "alias" "web" ((∅ : Payload).insert "alias" (.str (.plain "web"))) nil recordId entryId 0

theorem pair_start : Start pair := by
  refine ⟨by decide, ?_, ?_, ?_⟩
  · intro i j k
    rfl
  · intro i
    rfl
  · intro i
    rfl

def written : Bool → Device :=
  let w := Function.update pair false ((pair false).perform (addHost 20 30).prog)
  Function.update w true ((w true).perform (addHost 21 31).prog)

def exchanged : Bool → Device :=
  let f := (written false).disk.log.head (by decide +kernel)
  let w := Function.update written true ((written true).perform (·.applyRemoteEntry f.1 f.2))
  let f := (w true).disk.log.head (by decide +kernel)
  Function.update w false ((w false).perform (·.applyRemoteEntry f.1 f.2))

theorem exchanged_run : Run pair exchanged := by
  have hwritten : Run pair written :=
    .tail (.single (.write false (addHost 20 30) (by decide))) (.write true (addHost 21 31) (by decide +kernel))
  exact .tail (.tail hwritten (.receive true false _ (List.head_mem _))) (.receive false true _ (List.head_mem _))

theorem store_converges_exchanged : (exchanged false).vault.state = (exchanged true).vault.state := by
  have hperm : (exchanged false).disk.log.Perm (exchanged true).disk.log := by decide +kernel
  exact store_converges pair_start exchanged_run false true fun f => hperm.mem_iff

end SshVault.Convergence
