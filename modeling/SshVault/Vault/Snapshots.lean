import SshVault.Vault.Machine

/-!
# Snapshots

A snapshot is pinned to the number of keys of each share. Key-lists only get longer, so a snapshot
whose pins still fit was made with the same keys, and the frames it covers open as they did then.
-/

open Lib

namespace SshVault.Vault

/-! ## Pins -/

/-- Shares and keys, counted together. -/
def weight (held : List (Uuid × Nat)) : Nat := (held.map fun p => p.2 + 1).sum

theorem weight_append (l l' : List (Uuid × Nat)) : weight (l ++ l') = weight l + weight l' := by
  simp [weight]

theorem weight_eq_of_sameEpochSet {a b : List (Uuid × Nat)} (ha : a.Nodup) (h : sameEpochSet a b = true) :
    weight a = weight b := by
  unfold sameEpochSet at h
  rw [Bool.and_eq_true, decide_eq_true_eq, List.all_eq_true] at h
  have hsub : a ⊆ b := fun p hp => by simpa using h.2 p hp
  have hperm : a.Perm b := (ha.subperm hsub).perm_of_length_le h.1.ge
  exact (hperm.map _).sum_eq

theorem weight_modifyFirst {id : Uuid} {f : List Key → List Key} {l : List ShareKeys} {s : ShareKeys}
    (hs : l.find? (·.id = id) = some s) (hlt : s.keys.length < (f s.keys).length) :
    weight (l.map fun s => (s.id, s.keys.length)) <
      weight ((Keyring.modifyFirst id f l).map fun s => (s.id, s.keys.length)) := by
  induction l with
  | nil => cases hs
  | cons t l ih =>
    unfold Keyring.modifyFirst
    by_cases ht : t.id = id
    · rw [if_pos ht]
      obtain rfl : t = s := by simpa [List.find?_cons, ht] using hs
      simp only [weight, List.map_cons, List.sum_cons]
      omega
    · rw [if_neg ht]
      have hs' : l.find? (·.id = id) = some s := by simpa [List.find?_cons, ht] using hs
      have := ih hs'
      simp only [weight, List.map_cons, List.sum_cons] at this ⊢
      omega

theorem map_id_modifyFirst (id : Uuid) (f : List Key → List Key) (l : List ShareKeys) :
    (Keyring.modifyFirst id f l).map (·.id) = l.map (·.id) := by
  induction l with
  | nil => rfl
  | cons t l ih =>
    unfold Keyring.modifyFirst
    split
    · rfl
    · rw [List.map_cons, List.map_cons, ih]

/-- No share is there twice. -/
def Unique (kr : Keyring) : Prop := (kr.shares.map (·.id)).Nodup

theorem Unique.held_nodup {kr : Keyring} (h : Unique kr) : kr.heldShareEpochs.Nodup := by
  have : (kr.heldShareEpochs.map (·.1)).Nodup := by
    unfold Keyring.heldShareEpochs
    rwa [List.map_map]
  exact this.of_map

/-- No keys are left in the places of older versions. -/
def Plain (kr : Keyring) : Prop := kr.vaultKeys = [] ∧ kr.vaultKey = none

theorem Plain.normalize {kr : Keyring} (h : Plain kr) : kr.normalize = kr := Keyring.normalize_of_plain h.1 h.2

theorem not_mem_of_not_hasShare {kr : Keyring} {id : Uuid} (h : ¬ kr.hasShare id = true) : id ∉ kr.shares.map (·.id) := by
  intro hmem
  obtain ⟨s, hs, hid⟩ := List.mem_map.mp hmem
  refine h ?_
  unfold Keyring.hasShare Keyring.share
  rw [List.find?_isSome]
  exact ⟨s, hs, by simpa using hid⟩

/-- A share's list after a change: the first share with this id changes, or a new one is added. -/
theorem unique_change {kr : Keyring} {id : Uuid} {f : List Key → List Key} {keys : List Key} (h : Unique kr) :
    Unique (if kr.hasShare id then { kr with shares := Keyring.modifyFirst id f kr.shares }
      else { kr with shares := kr.shares ++ [⟨id, keys⟩] }) := by
  split
  · unfold Unique
    dsimp only
    rwa [map_id_modifyFirst]
  · rename_i hnot
    unfold Unique
    dsimp only
    rw [List.map_append, List.nodup_append]
    refine ⟨h, List.nodup_singleton id, ?_⟩
    rintro a ha b hb rfl
    obtain rfl : a = id := by simpa using hb
    exact not_mem_of_not_hasShare hnot ha

theorem plain_change {kr : Keyring} {id : Uuid} {f : List Key → List Key} {keys : List Key} (h : Plain kr) :
    Plain (if kr.hasShare id then { kr with shares := Keyring.modifyFirst id f kr.shares }
      else { kr with shares := kr.shares ++ [⟨id, keys⟩] }) := by
  split <;> exact h

theorem weight_change {kr : Keyring} {id : Uuid} {f : List Key → List Key} {keys : List Key}
    (hlt : kr.hasShare id = true → (kr.keysOf id).length < (f (kr.keysOf id)).length) :
    weight kr.heldShareEpochs < weight (if kr.hasShare id then
      { kr with shares := Keyring.modifyFirst id f kr.shares }
      else { kr with shares := kr.shares ++ [⟨id, keys⟩] } : Keyring).heldShareEpochs := by
  split
  · rename_i hhas
    obtain ⟨s, hs⟩ := Option.isSome_iff_exists.mp hhas
    have hkeys : kr.keysOf id = s.keys := by
      unfold Keyring.keysOf
      rw [hs]
    refine weight_modifyFirst hs ?_
    rw [← hkeys]
    exact hlt hhas
  · unfold Keyring.heldShareEpochs
    dsimp only
    rw [List.map_append, weight_append]
    simp [weight]

theorem Grown.weight_lt {kr kr' : Keyring} (h : Grown kr kr') : weight kr.heldShareEpochs < weight kr'.heldShareEpochs := by
  cases h with
  | push id key => exact weight_change fun _ => by simp
  | set id keys hlt hne => exact weight_change hlt

theorem Grown.unique {kr kr' : Keyring} (h : Grown kr kr') (hkr : Unique kr) : Unique kr' := by
  cases h with
  | push id key => exact unique_change hkr
  | set id keys hlt hne => exact unique_change hkr

theorem Grown.plain {kr kr' : Keyring} (h : Grown kr kr') (hkr : Plain kr) : Plain kr' := by
  cases h with
  | push id key => exact plain_change hkr
  | set id keys hlt hne => exact plain_change hkr

/-! ## Frames -/

theorem openFrames_append (kr : Keyring) (a b : List Frame) :
    openFrames kr (a ++ b) = do return (← openFrames kr a) ++ (← openFrames kr b) := by
  induction a with
  | nil =>
    rw [List.nil_append]
    cases openFrames kr b <;> simp [openFrames, bind, Except.bind, pure, Except.pure]
  | cons f a ih =>
    obtain ⟨id, blob⟩ := f
    rw [List.cons_append, openFrames, ih, openFrames]
    cases kr.openEntry id blob with
    | error e => rfl
    | ok o =>
      cases openFrames kr a with
      | error e => rfl
      | ok recs =>
        cases openFrames kr b with
        | error e => rfl
        | ok recs' => simp [bind, Except.bind, pure, Except.pure]

theorem foldl_insert_get (l : List (Uuid × Record)) (hid : ∀ p ∈ l, p.2.id = p.1) (hl : l.Pairwise fun p q => p.1 ≠ q.1)
    (m : State) (i : Uuid) (o : Option Record) (ho : ∀ r, (i, r) ∈ l ↔ o = some r) :
    ((l.map (·.2)).foldl (fun m r => m.insert r.id r) m)[i]? = o.or m[i]? := by
  induction l generalizing m o with
  | nil =>
    obtain rfl : o = none := by
      cases o with
      | none => rfl
      | some r => simpa using ho r
    rfl
  | cons p l ih =>
    rw [List.pairwise_cons] at hl
    rw [List.map_cons, List.foldl_cons]
    have hid' : ∀ q ∈ l, q.2.id = q.1 := fun q hq => hid q (List.mem_cons_of_mem _ hq)
    have hpid := hid p List.mem_cons_self
    by_cases hp : p.1 = i
    · have hnot : ∀ r, (i, r) ∉ l := fun r hr => hl.1 _ hr hp
      have ho' : o = some p.2 := (ho p.2).mp (by simp [← hp])
      rw [ih hid' hl.2 _ none (fun r => by simp [hnot r]), ho']
      simp [hpid, hp]
    · have ho' : ∀ r, (i, r) ∈ l ↔ o = some r := by
        intro r
        rw [← ho r, List.mem_cons, or_iff_right]
        rintro rfl
        exact hp rfl
      rw [ih hid' hl.2 _ o ho', Std.ExtTreeMap.getElem?_insert]
      simp [hpid, hp]

theorem rebuild_mergeAll (records : List Record) :
    (((mergeAll records).toList.map (·.2)).foldl (fun m r => m.insert r.id r) (∅ : State)) = mergeAll records := by
  apply Std.ExtTreeMap.ext_getElem?
  intro i
  rw [foldl_insert_get (mergeAll records).toList ?_ ?_ ∅ i (mergeAll records)[i]?]
  · simp
  · intro r
    exact Std.ExtTreeMap.mem_toList_iff_getElem?_eq_some
  · rintro ⟨j, r⟩ hr
    exact mergeAll_id (Std.ExtTreeMap.mem_toList_iff_getElem?_eq_some.mp hr)
  · exact Std.ExtTreeMap.distinct_keys_toList.imp fun h e => h (by simp [e])

/-! ## The invariant -/

/-- A snapshot that is out of date by its pins, or the fold of what it covers. -/
def Pinned (kr : Keyring) (log : List Frame) (s : Snapshot) : Prop :=
  weight s.shares < weight kr.heldShareEpochs ∨
    s.shares = kr.heldShareEpochs ∧ s.covered ≤ log.length ∧
      ∃ records, openFrames kr (log.take s.covered) = .ok records ∧ s.records = (mergeAll records).toList.map (·.2)

structure Sound (d : Disk) : Prop where
  plain : Plain d.keyring
  unique : Unique d.keyring
  /-- A snapshot is never older than the first frame. -/
  snapshot : ∀ s, d.snapshot = some s → d.log ≠ [] ∧ s.shares.Nodup ∧ Pinned d.keyring d.log s

structure Site.Ok (s : Site) : Prop where
  disk : Sound s.disk
  vault : ∀ v, s.vault = some v → v.keyring = s.disk.keyring

theorem Pinned.append {kr : Keyring} {log : List Frame} {s : Snapshot} (h : Pinned kr log s) (f : Frame) :
    Pinned kr (log ++ [f]) s := by
  rcases h with h | ⟨hs, hle, records, hopen, hrec⟩
  · exact Or.inl h
  · refine Or.inr ⟨hs, by rw [List.length_append]; omega, records, ?_, hrec⟩
    rwa [List.take_append_of_le_length hle]

theorem Pinned.grown {kr kr' : Keyring} {log : List Frame} {s : Snapshot} (h : Pinned kr log s) (hg : Grown kr kr') :
    Pinned kr' log s := by
  have hlt := hg.weight_lt
  rcases h with h | ⟨hs, -⟩
  · exact Or.inl (h.trans hlt)
  · exact Or.inl (by rwa [hs])

theorem sound_append {d : Disk} (h : Sound d) (m : Meta) (f : Frame) :
    Sound { d with metadata := m, log := d.log ++ [f] } := by
  refine ⟨h.plain, h.unique, fun s hs => ?_⟩
  obtain ⟨-, hnodup, hpin⟩ := h.snapshot s hs
  exact ⟨by simp, hnodup, hpin.append f⟩

theorem Effect.sound {v v' : Vault} {d d' : Disk} {a : Action} (h : Effect v d a v' d') (hd : Sound d)
    (hv : v.keyring = d.keyring) : Sound d' ∧ v'.keyring = d'.keyring := by
  cases h with
  | idle m m' => exact ⟨⟨hd.plain, hd.unique, hd.snapshot⟩, hv⟩
  | wrote m m' r key entryId hr hkey => exact ⟨sound_append hd m' _, hv⟩
  | received m m' o ho => exact ⟨sound_append hd m' _, hv⟩
  | rekeyed kr hg =>
    rw [hv] at hg
    refine ⟨⟨hg.plain hd.plain, hg.unique hd.unique, fun s hs => ?_⟩, rfl⟩
    -- The keyring has grown, and the snapshot was made with keys that it still has.
    obtain ⟨hne, hnodup, hpin⟩ := hd.snapshot s hs
    exact ⟨hne, hnodup, hpin.grown hg⟩
  | joined kr hlog hkr =>
    obtain ⟨keys, -, rfl⟩ := hkr
    rw [hv]
    refine ⟨⟨⟨rfl, rfl⟩, ?_, fun s hs => absurd hlog (hd.snapshot s hs).1⟩, rfl⟩
    have hunique : Unique (d.keyring.setShareKeys nil keys) := unique_change hd.unique
    exact hunique
  | folded m state n hfold => exact ⟨hd, hv⟩
  | compacted m records hopen snapshot hs =>
    refine ⟨⟨hd.plain, hd.unique, fun s hsome => ?_⟩, hv⟩
    rcases hs with rfl | ⟨rfl, hne⟩
    · exact hd.snapshot s hsome
    · obtain rfl := Option.some.inj hsome
      rw [hv] at hopen
      refine ⟨hne, ?_, Or.inr ⟨by rw [snapshotOf, hv], le_rfl, records, ?_, rfl⟩⟩
      · rw [snapshotOf, hv]
        exact hd.unique.held_nodup
      · dsimp only [snapshotOf]
        rwa [List.take_length]

theorem Site.Ok.step {s s' : Site} {a : Action} (h : s.Ok) (hmove : s.Moves a s') : s'.Ok := by
  cases hmove with
  | stays => exact h
  | acts hv heff =>
    obtain ⟨hd, hv'⟩ := heff.sound h.disk (h.vault _ hv)
    exact ⟨hd, by rintro _ ⟨rfl⟩; exact hv'⟩
  | opens heff =>
    obtain ⟨hd, hv'⟩ := heff.sound h.disk h.disk.plain.normalize
    exact ⟨hd, by rintro _ ⟨rfl⟩; exact hv'⟩
  | closes => exact ⟨h.disk, by rintro _ ⟨⟩⟩

theorem created_ok (deviceName : String) (vaultId : Uuid) (vaultKey : Key) (recoveryPub : Bytes)
    (x : XKey) (ed : EdKey) (deviceId : Uuid) : (created deviceName vaultId vaultKey recoveryPub x ed deviceId).Ok := by
  refine ⟨⟨⟨rfl, rfl⟩, List.nodup_singleton nil, by rintro _ ⟨⟩⟩, ?_⟩
  rintro _ ⟨rfl⟩
  rfl

/-! ## Folds from a snapshot -/

/-- **Seeded folds.** A fold from the snapshot on disk is the fold of the whole log. -/
theorem foldFromSnapshot_eq {v : Vault} {d : Disk} (hd : Sound d) (hv : v.keyring = d.keyring) :
    (v.foldFromSnapshot d.log d.snapshot).map (·.1) = (openFrames v.keyring d.log).map mergeAll := by
  have hempty : ∀ (f : Except VaultError (List Record)),
      Except.map (·.1) (do let recs ← f; return (recs.foldl mergeInto (∅ : State), 0) : Except VaultError (State × Nat)) =
        f.map mergeAll := by
    rintro (e | recs) <;> rfl
  unfold foldFromSnapshot
  cases hs : d.snapshot with
  | none => exact hempty _
  | some s =>
    dsimp only
    by_cases hfits : s.covered ≤ d.log.length ∧ sameEpochSet s.shares v.keyring.heldShareEpochs = true
    swap
    · rw [if_neg hfits]
      exact hempty _
    rw [if_pos hfits]
    obtain ⟨-, hnodup, hpin⟩ := hd.snapshot s hs
    have hweight := weight_eq_of_sameEpochSet hnodup hfits.2
    rw [hv] at hweight
    rcases hpin with hlt | ⟨-, -, records, hopen, hrec⟩
    · exact absurd hweight hlt.ne
    rw [← hv] at hopen
    have hlog : openFrames v.keyring d.log = do return records ++ (← openFrames v.keyring (d.log.drop s.covered)) := by
      conv_lhs => rw [← List.take_append_drop s.covered d.log]
      rw [openFrames_append, hopen]
      rfl
    rw [hlog, hrec, rebuild_mergeAll]
    dsimp only
    cases openFrames v.keyring (d.log.drop s.covered) with
    | error e => rfl
    | ok recs =>
      change Except.ok (recs.foldl mergeInto (mergeAll records)) = Except.ok (mergeAll (records ++ recs))
      unfold mergeAll
      rw [List.foldl_append]

/-- What replaying finds. -/
def replayed (v : Vault) (d : Disk) : Except VaultError Unit × Vault :=
  match openFrames v.keyring d.log with
  | .ok _ => (.ok (), { v with state := mergeAll (d.log.filterMap v.keyring.opened) })
  | .error e => (.error e, v)

theorem run_compact {v : Vault} {d : Disk} {records : List Record} (h : openFrames v.keyring d.log = .ok records) :
    ∃ wrote, (v.compact.run d).1 = (.ok wrote, { v with state := mergeAll records }) ∧
      (v.compact.run d).2 = if wrote then { d with snapshot := some (snapshotOf v.keyring d.log records) } else d := by
  have hread : Disk.readLog.run d = (d.log, d) := rfl
  unfold compact
  rw [Prog.run_bind, hread]
  dsimp only
  rw [h]
  dsimp only
  by_cases hle : d.log.length ≤ (mergeAll records).size
  · rw [if_pos hle]
    exact ⟨false, rfl, rfl⟩
  · rw [if_neg hle]
    exact ⟨true, rfl, rfl⟩

theorem run_replayLog {v : Vault} {d : Disk} (hd : Sound d) (hv : v.keyring = d.keyring) :
    (v.replayLog.run d).1 = replayed v d := by
  have hread : Disk.readLog.run d = (d.log, d) := rfl
  have hread' : Disk.readSnapshot.run d = (d.snapshot, d) := rfl
  have hfold := foldFromSnapshot_eq hd hv
  unfold replayLog replayed
  rw [Prog.run_bind, hread, Prog.run_bind, hread']
  dsimp only
  cases hopen : openFrames v.keyring d.log with
  | error e =>
    rw [hopen] at hfold
    cases hseed : v.foldFromSnapshot d.log d.snapshot with
    | error e' =>
      rw [hseed] at hfold
      obtain rfl : e' = e := Except.error.inj hfold
      rfl
    | ok out =>
      rw [hseed] at hfold
      cases hfold
  | ok records =>
    rw [hopen] at hfold
    have hrecords := openFrames_eq_filterMap hopen
    cases hseed : v.foldFromSnapshot d.log d.snapshot with
    | error e' =>
      rw [hseed] at hfold
      cases hfold
    | ok out =>
      rw [hseed] at hfold
      obtain ⟨state, n⟩ := out
      obtain rfl : state = mergeAll records := Except.ok.inj hfold
      dsimp only
      by_cases hbig : d.log.length - n > compactThreshold ∧ d.log.length > (mergeAll records).size
      · rw [if_pos hbig, Prog.run_bind]
        obtain ⟨wrote, hrun, -⟩ := run_compact (v := { v with state := mergeAll records }) (d := d) hopen
        rw [hrun, ← hrecords]
        rfl
      · rw [if_neg hbig, ← hrecords]
        rfl

/-! ## Tombstones -/

/-- The state shows a deletion of this record, at this time or later. -/
def Buried (state : State) (i : Uuid) (t : Clock) : Prop :=
  ∃ r t', state[i]? = some r ∧ r.deletedAt = some t' ∧ t ≤ t'

theorem Buried.mergeInto {state : State} {i : Uuid} {t : Clock} (h : Buried state i t) (rec : Record) :
    Buried (mergeInto state rec) i t := by
  obtain ⟨r, t', hr, ht, hle⟩ := h
  unfold Buried
  rw [mergeInto_get]
  split
  · rw [hr]
    have hmax : (merge r rec).deletedAt = max (some t') rec.deletedAt := by rw [merge_deletedAt, ht]
    cases hrec : rec.deletedAt with
    | none => exact ⟨merge r rec, t', rfl, by rw [hmax, hrec]; rfl, hle⟩
    | some u => exact ⟨merge r rec, max t' u, rfl, by rw [hmax, hrec]; rfl, hle.trans (le_max_left _ _)⟩
  · exact ⟨r, t', hr, ht, hle⟩

theorem buried_mergeInto {state : State} {rec : Record} {t : Clock} (h : rec.deletedAt = some t) :
    Buried (SshVault.mergeInto state rec) rec.id t := by
  unfold Buried
  rw [mergeInto_get, if_pos rfl]
  cases state[rec.id]? with
  | none => exact ⟨rec, t, rfl, h, le_rfl⟩
  | some r =>
    have hmax : (merge r rec).deletedAt = max r.deletedAt (some t) := by rw [merge_deletedAt, h]
    cases hr : r.deletedAt with
    | none => exact ⟨merge r rec, t, rfl, by rw [hmax, hr]; rfl, le_rfl⟩
    | some u => exact ⟨merge r rec, max u t, rfl, by rw [hmax, hr]; rfl, le_max_right _ _⟩

theorem buried_foldl {records : List Record} {q : Record} {t : Clock} {state : State} (ht : q.deletedAt = some t)
    (h : q ∈ records ∨ Buried state q.id t) : Buried (records.foldl SshVault.mergeInto state) q.id t := by
  induction records generalizing state with
  | nil => exact h.resolve_left (by simp)
  | cons r records ih =>
    refine ih ?_
    rcases h with h | h
    · rcases List.mem_cons.mp h with rfl | h
      · exact Or.inr (buried_mergeInto ht)
      · exact Or.inl h
    · exact Or.inr (h.mergeInto r)

theorem buried_mergeAll {records : List Record} {q : Record} {t : Clock} (hq : q ∈ records)
    (ht : q.deletedAt = some t) : Buried (mergeAll records) q.id t := buried_foldl ht (Or.inl hq)

/-- What compaction keeps: the log, the metadata with the sync cursor, and every tombstone. -/
structure Compacts (v : Vault) (d : Disk) : Prop where
  log : (v.compact.run d).2.log = d.log
  disk : (v.compact.run d).2.metadata = d.metadata
  memory : (v.compact.run d).1.2.metadata = v.metadata
  tombstones : ∀ wrote, (v.compact.run d).1.1 = .ok wrote → ∀ f ∈ d.log, ∀ q t, v.keyring.opened f = some q →
    q.deletedAt = some t → Buried (v.compact.run d).1.2.state q.id t ∧
      (wrote = true → ∃ s, (v.compact.run d).2.snapshot = some s ∧
        ∃ r ∈ s.records, r.id = q.id ∧ ∃ t', r.deletedAt = some t' ∧ t ≤ t')

theorem compacts (v : Vault) (d : Disk) : Compacts v d := by
  cases hopen : openFrames v.keyring d.log with
  | error e =>
    have hrun : v.compact.run d = ((.error e, v), d) := by
      have hread : Disk.readLog.run d = (d.log, d) := rfl
      unfold compact
      rw [Prog.run_bind, hread]
      dsimp only
      rw [hopen]
      rfl
    exact ⟨by rw [hrun], by rw [hrun], by rw [hrun], by rw [hrun]; rintro _ ⟨⟩⟩
  | ok records =>
    obtain ⟨wrote, hres, hdisk⟩ := run_compact hopen
    have hsame : (v.compact.run d).2.log = d.log ∧ (v.compact.run d).2.metadata = d.metadata := by
      rw [hdisk]
      cases wrote <;> exact ⟨rfl, rfl⟩
    refine ⟨hsame.1, hsame.2, by rw [hres], ?_⟩
    intro w hw f hf q t hq ht
    rw [hres] at hw
    obtain rfl : wrote = w := Except.ok.inj hw
    have hmem : q ∈ records := by
      rw [openFrames_eq_filterMap hopen]
      exact List.mem_filterMap.mpr ⟨f, hf, hq⟩
    have hburied := buried_mergeAll hmem ht
    refine ⟨by rw [hres]; exact hburied, ?_⟩
    rintro rfl
    obtain ⟨r, t', hr, ht', hle⟩ := hburied
    refine ⟨snapshotOf v.keyring d.log records, by rw [hdisk]; rfl, r, ?_, mergeAll_id hr, t', ht', hle⟩
    exact List.mem_map.mpr ⟨(q.id, r), Std.ExtTreeMap.mem_toList_iff_getElem?_eq_some.mpr hr, rfl⟩

/-- **Snapshots.** In every run over one directory, whatever snapshot is on disk: replaying gives the
merge of all frames that open under the current keyring, and compaction keeps the log, the
cursor and the tombstones. -/
theorem replay_eq_fold (deviceName : String) (vaultId : Uuid) (vaultKey : Key) (recoveryPub : Bytes) (x : XKey)
    (ed : EdKey) (deviceId : Uuid) (actions : List Action) :
    let s := (created deviceName vaultId vaultKey recoveryPub x ed deviceId).after actions
    s.disk.keyring.normalize = s.disk.keyring ∧ (∀ v, s.vault = some v → v.keyring = s.disk.keyring) ∧
      ∀ v : Vault, v.keyring = s.disk.keyring → (v.replayLog.run s.disk).1 = replayed v s.disk ∧ Compacts v s.disk := by
  intro s
  have hok : s.Ok := Site.after_keeps (fun _ => True) (fun _ _ _ h _ hm => h.step hm)
    (created_ok deviceName vaultId vaultKey recoveryPub x ed deviceId) (fun _ _ => trivial)
  exact ⟨hok.disk.plain.normalize, hok.vault, fun v hv => ⟨run_replayLog hok.disk hv, compacts v s.disk⟩⟩

end SshVault.Vault
