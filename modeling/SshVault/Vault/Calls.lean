import SshVault.Lib.Keyed
import SshVault.Vault.Snapshots
import SshVault.Vault.KeyedMap

/-!
# Local calls on the map

What one call of `add_in`, `edit` or `remove`, or anything between two calls, does to a vault that holds a map.
-/

open Lib

namespace SshVault

/-! ## Runs -/

def Write.call : Write → MapCall
  | .addIn _ kind _ name payload _ _ _ _ => .add kind name payload
  | .edit _ kind _ name payload _ _ => .edit kind name payload
  | .remove _ kind _ name _ _ => .remove kind name

/-- The record id that a call draws. -/
def Write.drawn : Write → Option Uuid
  | .addIn _ _ _ _ _ _ recordId _ _ => some recordId
  | _ => none

/-- A checked payload of a kind, whose own name field is `name`. -/
structure Names (kind : Kind) (name : String) (payload : Payload) : Prop where
  shows : kind ≠ .tombstone
  checked : validatePayload kind payload = .ok ()
  named : payload[kind.nameField]? = some (.str (.plain name))

/-- A call as the program makes it: by the name field of the kind, under the payload's own name, into a
share the device holds, and a new record under an id that was not drawn before. -/
def Write.Proper (v : Vault) (drawn : List Uuid) : Write → Prop
  | .addIn _ kind nameField name payload share recordId _ _ =>
    nameField = kind.nameField ∧ Names kind name payload ∧ v.keyring.hasShare share = true ∧ recordId ∉ drawn
  | .edit _ kind nameField name payload _ _ => nameField = kind.nameField ∧ Names kind name payload
  | .remove _ kind nameField _ _ _ => nameField = kind.nameField

namespace Vault

/-- What may happen between two calls: compaction, a reload, a new process, and new local keys. -/
def Action.Maintains : Action → Prop
  | .compact | .reload | .reopen | .createShare _ _ | .rotateShare _ _ | .rotate _ => True
  | _ => False

/-- The calls of a run with their answers. -/
abbrev Answered := List (Write × Except VaultError Unit)

def Answered.drawn (cs : Answered) : List Uuid := cs.filterMap (·.1.drawn)

def Answered.calls (cs : Answered) : List MapCall := cs.map (·.1.call)

/-- A vault directory used by one process at a time, without syncing. -/
inductive LocalRun (s₀ : Site) : Answered → Site → Prop
  | start : LocalRun s₀ [] s₀
  | call {cs : Answered} {s : Site} {v : Vault} {w : Write} (h : LocalRun s₀ cs s) (hv : s.vault = some v)
      (hw : w.Proper v cs.drawn) : LocalRun s₀ (cs ++ [(w, ((w.prog v).run s.disk).1.1)]) (s.next (.write w))
  | other {cs : Answered} {s : Site} {a : Action} (h : LocalRun s₀ cs s) (ha : a.Maintains) : LocalRun s₀ cs (s.next a)

/-! ## The invariant -/

/-- A record as local calls leave it. -/
structure Tame (kr : Keyring) (lamport : U64) (r : Record) : Prop where
  clocks : ∀ (n : String) (f : Field), r.fields[n]? = some f → 0 < f.clock.lamport ∧ f.clock.lamport ≤ lamport
  deleted : r.deletedAt = none ∨ r.isDeleted = true
  named : live r = true → r.key.isSome = true
  share : kr.hasShare r.shareId = true

/-- The open vault is what its directory says, and every entry of the log is one that it can open. -/
structure Settled (v : Vault) (d : Disk) : Prop where
  sound : Sound d
  keyring : v.keyring = d.keyring
  metadata : v.metadata = d.metadata
  opens : ∀ f ∈ d.log, (d.keyring.opened f).isSome = true
  state : v.state = mergeAll (d.log.filterMap d.keyring.opened)

/-- The records of the vault hold `m`, under ids that were drawn. -/
structure Shelved (drawn : List Uuid) (m : KeyedMap) (v : Vault) : Prop where
  id : ∀ (i : Uuid) (r : Record), v.state[i]? = some r → r.id = i
  ids : ∀ (i : Uuid) (r : Record), v.state[i]? = some r → i ∈ drawn
  named : ∀ (i : Uuid) (r : Record), v.state[i]? = some r → live r = true → r.key.isSome = true
  keyed : Keyed Record.key Record.values (fun i : Uuid => v.state[i]?) m

/-- After `n` accepted calls that drew the ids `drawn`, the vault and its directory hold `m`. -/
structure Local (drawn : List Uuid) (n : Nat) (m : KeyedMap) (v : Vault) (d : Disk) : Prop where
  sound : Sound d
  keyring : v.keyring = d.keyring
  metadata : v.metadata = d.metadata
  lamport : d.metadata.lamport.val = n
  opens : ∀ f ∈ d.log, (d.keyring.opened f).isSome = true
  state : v.state = mergeAll (d.log.filterMap d.keyring.opened)
  held : ∀ share, d.keyring.hasShare share = true → (d.keyring.currentFor share).isSome = true
  ids : ∀ (i : Uuid) (r : Record), v.state[i]? = some r → i ∈ drawn
  tame : ∀ (i : Uuid) (r : Record), v.state[i]? = some r → Tame d.keyring d.metadata.lamport r
  keyed : Keyed Record.key Record.values (fun i : Uuid => v.state[i]?) m

variable {drawn : List Uuid} {n : Nat} {m : KeyedMap} {v : Vault} {d : Disk}

theorem Local.settled (h : Local drawn n m v d) : Settled v d := ⟨h.sound, h.keyring, h.metadata, h.opens, h.state⟩

theorem Local.id (h : Local drawn n m v d) {i : Uuid} {r : Record} (hr : v.state[i]? = some r) : r.id = i := by
  rw [h.state] at hr
  exact mergeAll_id hr

theorem Shelved.find_some (h : Shelved drawn m v) (ord : HashOrder) {kind : Kind} {name : String} {p : Payload}
    (hm : m (kind, name) = some p) :
    ∃ old, v.find ord kind kind.nameField name = some old ∧ v.state[old.id]? = some old ∧
      old.key = some (kind, name) ∧ old.values = p := by
  obtain ⟨i, r, hr, hkey, -⟩ := h.keyed.found _ _ hm
  cases hfind : v.find ord kind kind.nameField name with
  | none =>
    have hmem : r ∈ ord.order (v.state.toList.map (·.2)) :=
      (ord.perm _).mem_iff.mpr (List.mem_map.mpr ⟨(i, r), Std.ExtTreeMap.mem_toList_iff_getElem?_eq_some.mpr hr, rfl⟩)
    exact absurd (Record.matchesName_iff.mpr hkey) (List.find?_eq_none.mp hfind r hmem)
  | some old =>
    obtain ⟨⟨j, hj⟩, hmatch⟩ := find_mem hfind
    have hold := Record.matchesName_iff.mp hmatch
    obtain rfl := h.id j old hj
    exact ⟨old, rfl, hj, hold, Option.some.inj ((h.keyed.entry _ _ _ hj hold).symm.trans hm)⟩

theorem Shelved.find_none (h : Shelved drawn m v) (ord : HashOrder) {kind : Kind} {name : String}
    (hm : m (kind, name) = none) : v.find ord kind kind.nameField name = none := by
  cases hfind : v.find ord kind kind.nameField name with
  | none => rfl
  | some old =>
    obtain ⟨⟨j, hj⟩, hmatch⟩ := find_mem hfind
    exact absurd (Record.matchesName_iff.mp hmatch) (h.keyed.not_shown hm hj)

theorem Shelved.mono (h : Shelved drawn m v) {drawn' : List Uuid} (hsub : drawn ⊆ drawn') : Shelved drawn' m v :=
  { h with ids := fun i r hr => hsub (h.ids i r hr) }

theorem Shelved.free (h : Shelved drawn m v) {i : Uuid} (hi : i ∉ drawn) : v.state[i]? = none := by
  cases hs : v.state[i]? with
  | none => rfl
  | some r => exact absurd (h.ids i r hs) hi

theorem Shelved.sole (h : Shelved drawn m v) {i : Uuid} {r : Record} {k : Kind × String} (hr : v.state[i]? = some r)
    (hkey : r.key = some k) :
    (∀ r₀ k', v.state[i]? = some r₀ → r₀.key = some k' → k' = k) ∧
      ∀ (j : Uuid) s, v.state[j]? = some s → s.key = some k → j = i := by
  refine ⟨fun r₀ k' hr₀ hk' => ?_, fun j s hs hk => h.keyed.unique j i s r k hs hr hk hkey⟩
  obtain rfl := Option.some.inj (hr.symm.trans hr₀)
  exact Option.some.inj (hk'.symm.trans hkey)

theorem Shelved.merged_id (h : Shelved drawn m v) {r r' : Record} (hr' : addSnapshot v.state[r.id]? r = some r') :
    r'.id = r.id := by
  cases hs : v.state[r.id]? with
  | none =>
    rw [hs] at hr'
    exact congrArg Record.id (Option.some.inj hr').symm
  | some old =>
    rw [hs] at hr'
    rw [← Option.some.inj hr', merge_id]
    exact h.id r.id old hs

/-- A record is merged into the one it replaces, if there is one, and both show `k` or nothing. -/
theorem Shelved.change (h : Shelved drawn m v) {drawn' : List Uuid} {r r' : Record} (k : Kind × String) {v' : Vault}
    (hv' : v'.state = mergeInto v.state r) (hr' : addSnapshot v.state[r.id]? r = some r') (hsub : drawn ⊆ drawn')
    (hdrawn : r.id ∈ drawn') (hnamed : live r' = true → r'.key = some k)
    (hwas : ∀ r₀ k', v.state[r.id]? = some r₀ → r₀.key = some k' → k' = k)
    (hothers : ∀ (j : Uuid) s, v.state[j]? = some s → s.key = some k → j = r.id) :
    Shelved drawn' (Function.update m k (r'.key.map fun _ => r'.values)) v' := by
  have hget (i : Uuid) : v'.state[i]? = if r.id = i then some r' else v.state[i]? := by
    rw [hv', mergeInto_get_of hr']
  have hshows : ∀ k', r'.key = some k' → k' = k := by
    rintro ⟨kind, name⟩ hk'
    exact Option.some.inj (hk'.symm.trans (hnamed (Record.key_eq_some.mp hk').1))
  refine ⟨fun i s hs => ?_, fun i s hs => ?_, fun i s hs hlive => ?_, h.keyed.change hget hwas hothers hshows⟩ <;>
    rw [hget] at hs <;> split at hs
  · rename_i hi
    rw [← Option.some.inj hs, h.merged_id hr', hi]
  · exact h.id i s hs
  · rename_i hi
    exact hi ▸ hdrawn
  · exact hsub (h.ids i s hs)
  · obtain rfl := Option.some.inj hs
    rw [hnamed hlive]
    rfl
  · exact h.named i s hs hlive

theorem Settled.appended (h : Settled v d) (metadata : Meta) {r : Record} {key : Key}
    (hkey : v.keyring.currentFor r.shareId = some key) (entryId : Uuid) :
    Settled { v with metadata, state := mergeInto v.state r }
      { d with metadata, log := d.log ++ [(entryId, Crypto.sealBlob key (.record r) entryId)] } := by
  have hopened : d.keyring.opened (entryId, Crypto.sealBlob key (.record r) entryId) = some r :=
    Keyring.opened_eq_some.mpr ⟨key, Keyring.currentFor_mem (h.keyring ▸ hkey), rfl⟩
  refine ⟨sound_append h.sound _ _, h.keyring, rfl, fun f hf => ?_, ?_⟩
  · rcases List.mem_append.mp hf with hf | hf
    · exact h.opens f hf
    · rw [List.mem_singleton.mp hf]
      exact Option.isSome_of_eq_some hopened
  · dsimp only
    rw [List.filterMap_append, List.filterMap_cons_some hopened, List.filterMap_nil, h.state]
    unfold mergeAll
    rw [List.foldl_concat]

theorem Local.shelved (h : Local drawn n m v d) : Shelved drawn m v :=
  ⟨fun _ _ hr => h.id hr, h.ids, fun i r hr => (h.tame i r hr).named, h.keyed⟩

/-! ## Calls -/

theorem Tame.mono {kr : Keyring} {l l' : U64} {r : Record} (h : Tame kr l r) (hl : l ≤ l') : Tame kr l' r :=
  ⟨fun n f hf => ⟨(h.clocks n f hf).1, (h.clocks n f hf).2.trans hl⟩, h.deleted, h.named, h.share⟩

theorem Tame.not_deleted {kr : Keyring} {l : U64} {r : Record} {k : Kind × String} (h : Tame kr l r)
    (hk : r.key = some k) : r.deletedAt = none := by
  obtain ⟨hlive, -⟩ := Record.key_eq_some.mp hk
  refine h.deleted.resolve_right fun hdel => ?_
  rw [Record.not_live_of_deleted hdel] at hlive
  cases hlive

theorem Tame.edited {kr : Keyring} {l : U64} {old r : Record} {kind : Kind} {name : String} {payload : Payload} {c : Clock}
    (h : Tame kr l old) (hkey : old.key = some (kind, name)) (hp : Names kind name payload) (hl : l < c.lamport)
    (hkind : r.kind = kind) (hfields : r.fields = editFields payload old.fields c) (hdel : r.deletedAt = old.deletedAt)
    (hshare : r.shareId = old.shareId) :
    (merge old r).key = some (kind, name) ∧ (merge old r).values = old.values ∪ payload ∧
      Tame kr c.lamport (merge old r) := by
  have hvalue (f : String) : (merge old r).value f = payload[f]?.or (old.value f) :=
    Record.value_merge_edit hfields (fun f g hg => Clock.lt_of_lamport_lt ((h.clocks f g hg).2.trans_lt hl)) f
  have hmkind : (merge old r).kind = kind := by
    rw [merge_kind, (Record.key_eq_some.mp hkey).2.1, hkind, max_self]
  have hmdel : (merge old r).deletedAt = none := by
    rw [merge_deletedAt, hdel, h.not_deleted hkey]
    rfl
  have hmkey : (merge old r).key = some (kind, name) := by
    refine Record.key_eq_some.mpr ⟨Record.live_of_not_deleted hmdel (hmkind ▸ hp.shows), hmkind, ?_⟩
    rw [hvalue, hp.named]
    rfl
  refine ⟨hmkey, Std.ExtTreeMap.ext_getElem? fun f => ?_, fun f g hg => ?_, Or.inl hmdel,
    fun _ => Option.isSome_of_eq_some hmkey, ?_⟩
  · rw [Record.values_get, hvalue, Std.ExtTreeMap.getElem?_union, Record.values_get]
  · rw [merge_fields_get, hfields] at hg
    have hbound := (h.mono hl.le).clocks f g
    rcases (later_eq_some hg).1 with hg | hg
    · exact hbound hg
    · rcases (editFields_get hg).2 with hclock | hg
      · rw [hclock]
        exact ⟨pos_of_gt hl, le_rfl⟩
      · exact hbound hg
  · rw [Record.merge_shareId hshare]
    exact h.share

theorem Tame.tombstoned {kr : Keyring} {l : U64} {old r : Record} {k : Kind × String} {c : Clock} (h : Tame kr l old)
    (hkey : old.key = some k) (hl : l < c.lamport) (hfields : r.fields = ∅) (hdel : r.deletedAt = some c)
    (hshare : r.shareId = old.shareId) :
    (merge old r).key = none ∧ Tame kr c.lamport (merge old r) := by
  have hold (f : String) (g : Field) (hg : (merge old r).fields[f]? = some g) : old.fields[f]? = some g := by
    rw [merge_fields_get, hfields] at hg
    simpa using hg
  have hmdel : (merge old r).deletedAt = some c := by
    rw [merge_deletedAt, h.not_deleted hkey, hdel]
    rfl
  have hdeleted : (merge old r).isDeleted = true :=
    (Record.isDeleted_iff _).mpr ⟨c, hmdel, fun f g hg =>
      Clock.lt_of_lamport_lt ((h.clocks f g (hold f g hg)).2.trans_lt hl)⟩
  have hnot := Record.not_live_of_deleted hdeleted
  refine ⟨?_, fun f g hg => (h.mono hl.le).clocks f g (hold f g hg), Or.inr hdeleted, fun hlive => ?_, ?_⟩
  · unfold Record.key
    rw [hnot]
    rfl
  · rw [hnot] at hlive
    cases hlive
  · rw [Record.merge_shareId hshare]
    exact h.share

theorem Local.absorbed (h : Local drawn n m v d) : (v.absorbed d).lamport = d.metadata.lamport := by
  unfold Vault.absorbed
  rw [h.metadata, max_self]

theorem Local.tick_val (h : Local drawn n m v d) (hroom : n + 1 < 2 ^ 64) : (v.tick d).lamport.val = n + 1 := by
  change ((v.absorbed d).lamport + 1).val = n + 1
  have h1 : ((1 : U64) : Nat) = 1 := rfl
  rw [h.absorbed, Fin.val_add, h1, h.lamport, Nat.mod_eq_of_lt hroom]

theorem Local.lt_tick (h : Local drawn n m v d) (hroom : n + 1 < 2 ^ 64) : d.metadata.lamport < (v.tick d).lamport := by
  rw [Fin.lt_def, h.tick_val hroom, h.lamport]
  exact n.lt_succ_self

theorem Local.tick_pos (h : Local drawn n m v d) (hroom : n + 1 < 2 ^ 64) : 0 < (v.tick d).lamport := by
  rw [Fin.lt_def, h.tick_val hroom]
  exact n.succ_pos

/-- What a call answers, and what it leaves. -/
def Plays (drawn' : List Uuid) (n : Nat) (out : (Except VaultError Unit × Vault) × Disk)
    (spec : Except VaultError Unit × KeyedMap) : Prop :=
  out.1.1 = spec.1 ∧ Local drawn' (if spec.1.isOk then n + 1 else n) spec.2 out.1.2 out.2

/-- An accepted call: the record it logs is merged into the one it replaces, if there is one, and the entry of
one key is what the merged record shows. -/
theorem Local.wrote (h : Local drawn n m v d) (hroom : n + 1 < 2 ^ 64) {drawn' : List Uuid} {r r' : Record} {key : Key}
    (entryId : Uuid) (k : Kind × String) (hkey : v.keyring.currentFor r.shareId = some key)
    (hr' : addSnapshot v.state[r.id]? r = some r') (hdrawn : drawn ⊆ drawn') (hid : r.id ∈ drawn')
    (htame : Tame d.keyring (v.tick d).lamport r')
    (hwas : ∀ r₀ k', v.state[r.id]? = some r₀ → r₀.key = some k' → k' = k)
    (hothers : ∀ (j : Uuid) s, v.state[j]? = some s → s.key = some k → j = r.id)
    (hshows : ∀ k', r'.key = some k' → k' = k) :
    Plays drawn' n ((Vault.append { v with metadata := v.ticked d } r entryId).run { d with metadata := v.ticked d })
      (.ok (), Function.update m k (r'.key.map fun _ => r'.values)) := by
  have hnamed : live r' = true → r'.key = some k := fun hlive => by
    obtain ⟨k', hk'⟩ := Option.isSome_iff_exists.mp (htame.named hlive)
    rw [hk', hshows k' hk']
  have hshelved : Shelved drawn' (Function.update m k (r'.key.map fun _ => r'.values))
      { v with metadata := v.ticked d, state := mergeInto v.state r } :=
    h.shelved.change k rfl hr' hdrawn hid hnamed hwas hothers
  unfold Plays
  rw [run_append entryId (v.ticked d) hkey]
  refine ⟨rfl, { h.settled.appended (v.ticked d) hkey entryId, hshelved with
    lamport := h.tick_val hroom, held := h.held, tame := fun i s hs => ?_ }⟩
  dsimp only at hs
  rw [mergeInto_get_of hr'] at hs
  split at hs
  · obtain rfl := Option.some.inj hs
    exact htame
  · exact (h.tame i s hs).mono (h.lt_tick hroom).le

theorem Local.refused (h : Local drawn n m v d) {drawn' : List Uuid} (hsub : drawn ⊆ drawn') : Local drawn' n m v d :=
  { h with ids := fun i r hr => hsub (h.ids i r hr) }

theorem Local.currentFor (h : Local drawn n m v d) {share : Uuid} (hs : d.keyring.hasShare share = true) :
    ∃ key, v.keyring.currentFor share = some key := by
  rw [h.keyring]
  exact Option.isSome_iff_exists.mp (h.held share hs)

theorem Local.addIn (h : Local drawn n m v d) {ord : HashOrder} {kind : Kind} {name : String} {payload : Payload}
    {share recordId entryId : Uuid} {now : Nat} (hp : Names kind name payload) (hshare : v.keyring.hasShare share = true)
    (hid : recordId ∉ drawn) (hroom : (m.step (.add kind name payload)).1.isOk = true → n + 1 < 2 ^ 64) :
    Plays (drawn ++ [recordId]) n
      (((Write.addIn ord kind kind.nameField name payload share recordId entryId now).prog v).run d)
      (m.step (.add kind name payload)) := by
  unfold Write.prog Vault.addIn Plays
  simp only [Prog.run_bind, Prog.run_pure]
  rw [hp.checked]
  dsimp only
  rw [if_neg (not_not.mpr hshare)]
  cases hm : m (kind, name) with
  | some p =>
    obtain ⟨old, hfind, -⟩ := h.shelved.find_some ord hm
    rw [KeyedMap.step_add_error hm, hfind, if_pos Option.isSome_some]
    exact ⟨rfl, h.refused (List.subset_append_left _ _)⟩
  | none =>
    rw [KeyedMap.step_add hm] at hroom ⊢
    rw [h.shelved.find_none ord hm, if_neg (by simp)]
    -- The drawn id is free, so the merge takes the record as it is.
    have hnew : v.state[recordId]? = none := h.shelved.free hid
    have hheld : d.keyring.hasShare share = true := h.keyring ▸ hshare
    obtain ⟨key, hkey⟩ := h.currentFor hheld
    let r : Record :=
      { id := recordId, kind, fields := fieldsFromPayload payload (v.tick d), deletedAt := none, clock := v.tick d
        deviceId := v.metadata.deviceId, modifiedAt := now, shareId := share }
    have hvalues : r.values = payload := Record.values_of_fields rfl
    have hrkey : r.key = some (kind, name) := by
      refine Record.key_eq_some.mpr ⟨Record.live_of_not_deleted rfl hp.shows, rfl, ?_⟩
      rw [← Record.values_get, hvalues, hp.named]
    have htame : Tame d.keyring (v.tick d).lamport r := by
      refine ⟨fun f g hg => ?_, Or.inl rfl, fun _ => Option.isSome_of_eq_some hrkey, hheld⟩
      rw [fieldsFromPayload_get] at hg
      obtain ⟨value, -, rfl⟩ := Option.map_eq_some_iff.mp hg
      exact ⟨h.tick_pos (hroom rfl), le_rfl⟩
    have hdrawn : recordId ∈ drawn ++ [recordId] := by simp
    have hmerged : addSnapshot v.state[r.id]? r = some r := by
      rw [hnew]
      rfl
    have hwrote := h.wrote (hroom rfl) entryId (kind, name) hkey hmerged (List.subset_append_left _ _) hdrawn htame
      (fun r₀ k' hr₀ => by rw [hnew] at hr₀; cases hr₀) (fun j s hs hk => absurd hk (h.keyed.not_shown hm hs))
      (fun k' hk' => Option.some.inj (hk'.symm.trans hrkey))
    rw [hrkey, hvalues] at hwrote
    obtain ⟨hanswer, hlocal⟩ := hwrote
    rw [Prog.run_bind, run_nextClock]
    dsimp only
    rw [Prog.run_bind]
    refine ⟨?_, hlocal⟩
    change Except.map _ (Except.map _ ((Vault.append { v with metadata := v.ticked d } r entryId).run
      { d with metadata := v.ticked d }).1.1) = _
    rw [hanswer]
    rfl

theorem Local.edit (h : Local drawn n m v d) {ord : HashOrder} {kind : Kind} {name : String} {payload : Payload}
    {entryId : Uuid} {now : Nat} (hp : Names kind name payload)
    (hroom : (m.step (.edit kind name payload)).1.isOk = true → n + 1 < 2 ^ 64) :
    Plays drawn n ((v.edit ord kind kind.nameField name payload entryId now).run d)
      (m.step (.edit kind name payload)) := by
  unfold Vault.edit Plays
  rw [hp.checked]
  dsimp only
  cases hm : m (kind, name) with
  | none =>
    rw [KeyedMap.step_edit_error hm, h.shelved.find_none ord hm]
    exact ⟨rfl, h⟩
  | some p =>
    rw [KeyedMap.step_edit hm] at hroom ⊢
    obtain ⟨old, hfind, hold, hkeyOld, rfl⟩ := h.shelved.find_some ord hm
    obtain ⟨hwas, hothers⟩ := h.shelved.sole hold hkeyOld
    have htameOld := h.tame _ _ hold
    obtain ⟨key, hkey⟩ := h.currentFor htameOld.share
    let r : Record :=
      { id := old.id, kind, fields := editFields payload old.fields (v.tick d), deletedAt := old.deletedAt
        clock := v.tick d, deviceId := v.metadata.deviceId, modifiedAt := now, shareId := old.shareId }
    obtain ⟨hrkey, hvalues, htame⟩ := htameOld.edited (r := r) hkeyOld hp (h.lt_tick (hroom rfl)) rfl rfl rfl rfl
    have hmerged : addSnapshot v.state[r.id]? r = some (merge old r) := by
      rw [hold]
      rfl
    have hwrote := h.wrote (hroom rfl) entryId (kind, name) (show v.keyring.currentFor r.shareId = _ from hkey) hmerged
      (List.Subset.refl _) (h.ids _ _ hold) htame
      hwas hothers
      (fun k' hk' => Option.some.inj (hk'.symm.trans hrkey))
    rw [hrkey, hvalues] at hwrote
    rw [hfind]
    dsimp only
    rw [Prog.run_bind, run_nextClock]
    exact hwrote

theorem Local.remove (h : Local drawn n m v d) {ord : HashOrder} {kind : Kind} {name : String}
    {entryId : Uuid} {now : Nat} (hroom : (m.step (.remove kind name)).1.isOk = true → n + 1 < 2 ^ 64) :
    Plays drawn n ((v.remove ord kind kind.nameField name entryId now).run d)
      (m.step (.remove kind name)) := by
  unfold Vault.remove Plays
  cases hm : m (kind, name) with
  | none =>
    rw [KeyedMap.step_remove_error hm, h.shelved.find_none ord hm]
    exact ⟨rfl, h⟩
  | some p =>
    rw [KeyedMap.step_remove hm] at hroom ⊢
    obtain ⟨old, hfind, hold, hkeyOld, -⟩ := h.shelved.find_some ord hm
    obtain ⟨hwas, hothers⟩ := h.shelved.sole hold hkeyOld
    have htameOld := h.tame _ _ hold
    obtain ⟨key, hkey⟩ := h.currentFor htameOld.share
    let r : Record :=
      { id := old.id, kind := .tombstone, fields := ∅, deletedAt := some (v.tick d), clock := v.tick d
        deviceId := v.metadata.deviceId, modifiedAt := now, shareId := old.shareId }
    obtain ⟨hrkey, htame⟩ := htameOld.tombstoned (r := r) hkeyOld (h.lt_tick (hroom rfl)) rfl rfl rfl
    have hmerged : addSnapshot v.state[r.id]? r = some (merge old r) := by
      rw [hold]
      rfl
    have hwrote := h.wrote (hroom rfl) entryId (kind, name) (show v.keyring.currentFor r.shareId = _ from hkey) hmerged
      (List.Subset.refl _) (h.ids _ _ hold) htame
      hwas hothers
      (fun k' hk' => by rw [hrkey] at hk'; cases hk')
    rw [hrkey] at hwrote
    rw [hfind]
    dsimp only
    rw [Prog.run_bind, run_nextClock]
    exact hwrote

/-- **One call.** It answers what the map answers, and leaves a vault that holds the new map. -/
theorem Local.call (h : Local drawn n m v d) {w : Write} (hw : w.Proper v drawn)
    (hroom : (m.step w.call).1.isOk = true → n + 1 < 2 ^ 64) :
    Plays (drawn ++ w.drawn.toList) n ((w.prog v).run d) (m.step w.call) := by
  cases w with
  | addIn =>
    obtain ⟨rfl, hp, hshare, hid⟩ := hw
    exact h.addIn hp hshare hid hroom
  | edit =>
    obtain ⟨rfl, hp⟩ := hw
    change Plays (drawn ++ []) n _ _
    rw [List.append_nil]
    exact h.edit hp hroom
  | remove =>
    obtain rfl : _ = _ := hw
    change Plays (drawn ++ []) n _ _
    rw [List.append_nil]
    exact h.remove hroom

/-! ## Between calls -/

theorem Settled.cached (h : Settled v d) {d' : Disk} (hd : Cached d d') (hs : Sound d') : Settled v d' := by
  obtain ⟨snapshot, rfl⟩ := hd
  exact { h with sound := hs }

theorem openFrames_ok {kr : Keyring} {frames : List Frame} (h : ∀ f ∈ frames, (kr.opened f).isSome = true) :
    openFrames kr frames = .ok (frames.filterMap kr.opened) := by
  induction frames with
  | nil => rfl
  | cons f frames ih =>
    obtain ⟨hf, hrest⟩ := List.forall_mem_cons.mp h
    obtain ⟨r, hr⟩ := Option.isSome_iff_exists.mp hf
    have hopen : kr.openEntry f.1 f.2 = .ok (some r) :=
      Keyring.openEntry_eq_some.mpr (Keyring.opened_eq_some.mp hr)
    rw [List.filterMap_cons_some hr]
    unfold openFrames
    rw [hopen, ih hrest]
    rfl

theorem Settled.replayLog (h : Settled v d) (state : State) :
    ∃ d', (Vault.replayLog { v with state }).run d = ((.ok (), v), d') ∧ Cached d d' ∧ Settled v d' := by
  have hkr : ({ v with state } : Vault).keyring = d.keyring := h.keyring
  obtain ⟨heff, -⟩ := replayLog_effect (v := { v with state }) (d := d) .reload v.metadata
  have hrun : ((Vault.replayLog { v with state }).run d).1 = (.ok (), v) := by
    rw [run_replayLog h.sound hkr]
    unfold replayed
    rw [hkr, openFrames_ok h.opens]
    dsimp only
    rw [← h.state, ← h.keyring]
  have hcached := cached_run (replayLog_cached { v with state }) d
  exact ⟨_, Prod.ext hrun rfl, hcached, h.cached hcached (heff.sound h.sound hkr).1⟩

theorem Settled.compact (h : Settled v d) :
    ∃ res d', v.compact.run d = ((res, v), d') ∧ Cached d d' ∧ Settled v d' := by
  obtain ⟨wrote, hrun, -⟩ := run_compact (v := v) (d := d) (by rw [h.keyring]; exact openFrames_ok h.opens)
  rw [← h.state] at hrun
  have hcached := cached_run (compact_cached v) d
  exact ⟨.ok wrote, _, Prod.ext hrun rfl, hcached,
    h.cached hcached ((compact_effect .compact).1.sound h.sound h.keyring).1⟩

theorem Settled.openVault (h : Settled v d) :
    ∃ d', Vault.openVault.run d = (.ok v, d') ∧ Cached d d' ∧ Settled v d' := by
  obtain ⟨d', hrun, hcached, hsettled⟩ := h.replayLog ∅
  have hfresh : (⟨d.metadata, d.keyring.normalize, ∅⟩ : Vault) = { v with state := ∅ } := by
    rw [h.sound.plain.normalize, ← h.keyring, ← h.metadata]
  refine ⟨d', ?_, hcached, hsettled⟩
  unfold Vault.openVault
  simp only [Prog.run_bind, Prog.run_pure]
  dsimp only [Disk.readMeta, Disk.readKeyring, Prog.run_atom]
  rw [hfresh, hrun]
  rfl

theorem opened_pushShareKey {kr : Keyring} {f : Frame} {r : Record} (id : Uuid) (key : Key) (h : kr.opened f = some r) :
    (kr.pushShareKey id key).opened f = some r := by
  obtain ⟨k, hk, hblob⟩ := Keyring.opened_eq_some.mp h
  exact Keyring.opened_eq_some.mpr ⟨k, (Keyring.mem_allKeys_pushShareKey key).mpr (Or.inr hk), hblob⟩

theorem hasShare_pushShareKey {kr : Keyring} {share : Uuid} (id : Uuid) (key : Key) (h : kr.hasShare share = true) :
    (kr.pushShareKey id key).hasShare share = true := by
  unfold Keyring.hasShare
  rw [Keyring.share_pushShareKey]
  split
  · rfl
  · exact h

theorem Settled.pushed (h : Settled v d) (id : Uuid) (key : Key) :
    Settled { v with keyring := v.keyring.pushShareKey id key } { d with keyring := v.keyring.pushShareKey id key } := by
  have heff : Effect v d .reload _ _ := .rekeyed _ (.push id key)
  obtain ⟨hsound, hkeyring⟩ := heff.sound h.sound h.keyring
  have hopened : ∀ f ∈ d.log, (v.keyring.pushShareKey id key).opened f = d.keyring.opened f := by
    intro f hf
    obtain ⟨r, hr⟩ := Option.isSome_iff_exists.mp (h.opens f hf)
    rw [hr, h.keyring]
    exact opened_pushShareKey id key hr
  exact
    { sound := hsound
      keyring := hkeyring
      metadata := h.metadata
      opens := fun f hf => by rw [hopened f hf]; exact h.opens f hf
      state := by
        dsimp only
        rw [h.state, List.filterMap_congr fun f hf => hopened f hf] }

/-- Compaction, a reload, a new process and new keys: the snapshot may be another one, or a share gets a key. -/
inductive Maintained (v : Vault) (d : Disk) : Vault → Disk → Prop
  | cached {d' : Disk} (h : Cached d d') : Maintained v d v d'
  | pushed (id : Uuid) (key : Key) : Maintained v d { v with keyring := v.keyring.pushShareKey id key }
      { d with keyring := v.keyring.pushShareKey id key }

theorem Settled.maintains (h : Settled v d) {a : Action} (ha : a.Maintains) :
    ∃ v' d', (Site.mk d (some v)).next a = ⟨d', some v'⟩ ∧ Maintained v d v' d' ∧ Settled v' d' := by
  unfold Site.next Action.prog
  cases a with
  | compact =>
    obtain ⟨res, d', hrun, hcached, hsettled⟩ := h.compact
    refine ⟨v, d', ?_, .cached hcached, hsettled⟩
    simp only [Prog.run_bind, Prog.run_pure, hrun]
  | reload =>
    obtain ⟨d', hrun, hcached, hsettled⟩ := h.replayLog v.state
    refine ⟨v, d', ?_, .cached hcached, hsettled⟩
    have hsame : ({ v with metadata := d.metadata } : Vault) = { v with state := v.state } := by rw [← h.metadata]
    unfold Vault.reload
    simp only [Prog.run_bind, Prog.run_pure]
    dsimp only [Disk.readMeta, Prog.run_atom]
    rw [hsame, hrun]
  | reopen =>
    obtain ⟨d', hrun, hcached, hsettled⟩ := h.openVault
    refine ⟨v, d', ?_, .cached hcached, hsettled⟩
    simp only [Prog.run_bind, Prog.run_pure, hrun]
    rfl
  | createShare id k => exact ⟨_, _, rfl, .pushed id _, h.pushed id _⟩
  | rotateShare share k =>
    simp only [Prog.run_bind, Prog.run_pure]
    cases hhas : v.keyring.hasShare share with
    | false =>
      rw [run_rotateShare_error k hhas]
      exact ⟨v, d, rfl, .cached ⟨d.snapshot, rfl⟩, h⟩
    | true =>
      rw [run_rotateShare k hhas]
      exact ⟨_, _, rfl, .pushed share _, h.pushed share _⟩
  | rotate phrase =>
    simp only [Prog.run_bind, Prog.run_pure]
    cases hk : Crypto.vaultKeyAtEpoch phrase (v.epoch + 1) with
    | error e =>
      rw [run_rotate_error hk]
      exact ⟨v, d, rfl, .cached ⟨d.snapshot, rfl⟩, h⟩
    | ok key =>
      rw [run_rotate hk]
      exact ⟨_, _, rfl, .pushed nil key, h.pushed nil key⟩
  | _ => exact absurd ha fun hf => hf

theorem Local.maintained (h : Local drawn n m v d) {v' : Vault} {d' : Disk} (hm : Maintained v d v' d')
    (hs : Settled v' d') : Local drawn n m v' d' := by
  cases hm with
  | cached hcached =>
    obtain ⟨snapshot, rfl⟩ := hcached
    exact { h with sound := hs.sound }
  | pushed id key =>
    exact
      { sound := hs.sound
        keyring := hs.keyring
        metadata := h.metadata
        lamport := h.lamport
        opens := hs.opens
        state := hs.state
        held := fun share hheld => by
          dsimp only at hheld ⊢
          unfold Keyring.hasShare at hheld
          unfold Keyring.currentFor
          rw [Keyring.share_pushShareKey] at hheld ⊢
          split
          · simp
          · rename_i hne
            rw [if_neg hne, h.keyring] at hheld
            rw [h.keyring]
            exact h.held share hheld
        ids := h.ids
        tame := fun i r hr =>
          { h.tame i r hr with share := hasShare_pushShareKey id key (by rw [h.keyring]; exact (h.tame i r hr).share) }
        keyed := h.keyed }

theorem Local.maintains (h : Local drawn n m v d) {a : Action} (ha : a.Maintains) :
    ∃ v' d', (Site.mk d (some v)).next a = ⟨d', some v'⟩ ∧ Local drawn n m v' d' := by
  obtain ⟨v', d', hnext, hm, hsettled⟩ := h.settled.maintains ha
  exact ⟨v', d', hnext, h.maintained hm hsettled⟩

end Vault
end SshVault
