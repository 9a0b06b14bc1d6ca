import SshVault.Vault.Snapshots

/-!
# What every keyring satisfies

`normalize` establishes it from the forms of older versions, and each way of inserting keys keeps it.
-/

open Lib

namespace SshVault.Vault

/-! ## The invariant -/

/-- Every share is there once and has a key, and the default share is one of them. -/
structure WellFormed (kr : Keyring) : Prop where
  unique : (kr.shares.map (·.id)).Nodup
  default : nil ∈ kr.shares.map (·.id)
  keys : ∀ s ∈ kr.shares, s.keys ≠ []

/-- What `Keyring::normalize` may find: a single vault key, a list of vault keys, or shares. -/
inductive Legacy : Keyring → Prop
  | single (key : Key) (x : XKey) (ed : EdKey) : Legacy ⟨[], [], some key, x, ed⟩
  | list (keys : List Key) (hkeys : keys ≠ []) (x : XKey) (ed : EdKey) : Legacy ⟨[], keys, none, x, ed⟩
  | shares (kr : Keyring) (h : WellFormed kr) : Legacy kr

/-- The keys of a keyring, with the ones in the places of older versions. -/
def legacyKeys (kr : Keyring) : List Key :=
  match kr.vaultKeys, kr.vaultKey with
  | [], some key => [key]
  | keys, _ => keys

variable {kr kr' : Keyring}

theorem hasShare_iff {id : Uuid} : kr.hasShare id = true ↔ id ∈ kr.shares.map (·.id) := by
  unfold Keyring.hasShare Keyring.share
  rw [List.find?_isSome, List.mem_map]
  simp only [decide_eq_true_eq]

theorem any_nil_iff : kr.shares.any (·.id = nil) = true ↔ nil ∈ kr.shares.map (·.id) := by
  rw [List.any_eq_true, List.mem_map]
  simp only [decide_eq_true_eq]

/-! ## What follows from it -/

theorem WellFormed.share_pos (h : WellFormed kr) {id : Uuid} {s : ShareKeys} (hs : kr.share id = some s) : 0 < s.keys.length :=
  List.length_pos_of_ne_nil (h.keys s (List.mem_of_find?_eq_some hs))

theorem WellFormed.current (h : WellFormed kr) : (kr.currentFor nil).isSome = true := by
  obtain ⟨s, hs⟩ := Option.isSome_iff_exists.mp (hasShare_iff.mpr h.default)
  unfold Keyring.currentFor
  rw [hs, Option.bind_some, List.getLast?_isSome]
  exact h.keys s (List.mem_of_find?_eq_some hs)

theorem sameEpochSet_iff {a b : List (Uuid × Nat)} (ha : (a.map (·.1)).Nodup) (hb : (b.map (·.1)).Nodup) :
    sameEpochSet a b = true ↔ ∀ p, p ∈ a ↔ p ∈ b := by
  unfold sameEpochSet
  rw [Bool.and_eq_true, decide_eq_true_eq, List.all_eq_true]
  constructor
  · rintro ⟨hlen, hall⟩
    have hsub : a ⊆ b := fun p hp => by simpa using hall p hp
    have hperm : a.Perm b := (ha.of_map.subperm hsub).perm_of_length_le hlen.ge
    exact fun p => hperm.mem_iff
  · intro hsame
    have hperm : a.Perm b := (List.perm_ext_iff_of_nodup ha.of_map hb.of_map).mpr hsame
    exact ⟨hperm.length_eq, fun p hp => by simpa using (hsame p).mp hp⟩

theorem WellFormed.held_nodup (h : WellFormed kr) : (kr.heldShareEpochs.map (·.1)).Nodup := by
  unfold Keyring.heldShareEpochs
  rw [List.map_map]
  exact h.unique

/-! ## Normalising -/

theorem normalize_shares (kr : Keyring) :
    kr.normalize.shares =
      if legacyKeys kr ≠ [] ∧ nil ∉ kr.shares.map (·.id) then kr.shares ++ [⟨nil, legacyKeys kr⟩] else kr.shares := by
  obtain ⟨shares, keys, key, x, ed⟩ := kr
  have hany : (shares.any fun s => s.id = nil) = true ↔ nil ∈ shares.map (·.id) := @any_nil_iff ⟨shares, keys, key, x, ed⟩
  unfold Keyring.normalize legacyKeys
  by_cases hnil : nil ∈ shares.map (·.id)
  · have hhas := hany.mpr hnil
    simp only [hhas, Bool.not_true, Bool.and_false, Bool.false_eq_true, if_false, hnil, not_true, and_false]
  · have hnot : (shares.any fun s => s.id = nil) = false := Bool.eq_false_iff.mpr fun h => hnil (hany.mp h)
    cases keys with
    | nil => cases key <;> simp [hnot, hnil]
    | cons k keys => cases key <;> simp [hnot, hnil]

theorem plain_normalize (kr : Keyring) : Plain kr.normalize := ⟨rfl, rfl⟩

theorem WellFormed.normalize (h : WellFormed kr) : WellFormed kr.normalize := by
  have hshares : kr.normalize.shares = kr.shares := by rw [normalize_shares, if_neg fun hno => hno.2 h.default]
  exact ⟨by rw [hshares]; exact h.unique, by rw [hshares]; exact h.default, by rw [hshares]; exact h.keys⟩

theorem Legacy.wellFormed (h : Legacy kr) : WellFormed kr.normalize := by
  have hone : ∀ keys : List Key, keys ≠ [] → kr.normalize.shares = [⟨nil, keys⟩] → WellFormed kr.normalize := by
    intro keys hkeys hshares
    refine ⟨by rw [hshares]; exact List.nodup_singleton _, by rw [hshares]; exact List.mem_cons_self, ?_⟩
    rw [hshares]
    rintro s hs
    rw [List.mem_singleton.mp hs]
    exact hkeys
  cases h with
  | single key x ed =>
    refine hone [key] (List.cons_ne_nil _ _) ?_
    rw [normalize_shares, if_pos ⟨List.cons_ne_nil _ _, List.not_mem_nil⟩]
    rfl
  | list keys hkeys x ed =>
    have hlegacy : legacyKeys ⟨[], keys, none, x, ed⟩ = keys := by
      unfold legacyKeys
      cases keys <;> rfl
    refine hone keys hkeys ?_
    rw [normalize_shares, hlegacy, if_pos ⟨hkeys, List.not_mem_nil⟩]
    rfl
  | shares kr h => exact h.normalize

/-- The keys stay where they are, and those of older versions become the list of the default share. -/
theorem Legacy.keeps (h : Legacy kr) :
    kr.shares <+: kr.normalize.shares ∧ (kr.shares = [] → kr.normalize.keysOf nil = legacyKeys kr) := by
  have hwell := h.wellFormed
  rw [normalize_shares]
  refine ⟨?_, fun hshares => ?_⟩
  · split
    · exact List.prefix_append _ _
    · exact List.prefix_rfl
  · have hempty : kr.normalize.shares = if legacyKeys kr ≠ [] then [⟨nil, legacyKeys kr⟩] else [] := by
      rw [normalize_shares, hshares]
      simp
    unfold Keyring.keysOf Keyring.share
    rw [hempty]
    split
    · rename_i s hs
      split at hs
      · simp only [List.find?_cons, decide_true, Option.some.injEq] at hs
        rw [← hs]
      · cases hs
    · rename_i hs
      split at hs
      · simp at hs
      · rename_i hno
        exact (not_not.mp hno).symm

/-! ## Inserting keys -/

theorem mem_modifyFirst_keys {id : Uuid} {f : List Key → List Key} {l : List ShareKeys} (hf : ∀ keys, keys ≠ [] → f keys ≠ [])
    (hl : ∀ s ∈ l, s.keys ≠ []) : ∀ s ∈ Keyring.modifyFirst id f l, s.keys ≠ [] := by
  induction l with
  | nil => exact hl
  | cons t l ih =>
    obtain ⟨ht, hrest⟩ := List.forall_mem_cons.mp hl
    unfold Keyring.modifyFirst
    split
    · exact List.forall_mem_cons.mpr ⟨hf _ ht, hrest⟩
    · exact List.forall_mem_cons.mpr ⟨ht, ih hrest⟩

theorem WellFormed.change {id : Uuid} {f : List Key → List Key} {keys : List Key} (h : WellFormed kr)
    (hf : ∀ keys, keys ≠ [] → f keys ≠ []) (hkeys : keys ≠ []) :
    WellFormed (if kr.hasShare id then { kr with shares := Keyring.modifyFirst id f kr.shares }
      else { kr with shares := kr.shares ++ [⟨id, keys⟩] }) := by
  have hunique := @unique_change kr id f keys (show Unique kr from h.unique)
  refine ⟨hunique, ?_, ?_⟩
  · split
    · dsimp only
      rw [map_id_modifyFirst]
      exact h.default
    · dsimp only
      rw [List.map_append]
      exact List.mem_append_left _ h.default
  · split
    · exact mem_modifyFirst_keys hf h.keys
    · intro s hs
      rcases List.mem_append.mp hs with hs | hs
      · exact h.keys s hs
      · rw [List.mem_singleton.mp hs]
        exact hkeys

theorem WellFormed.set (h : WellFormed kr) (id : Uuid) {keys : List Key} (hkeys : keys ≠ []) :
    WellFormed (kr.setShareKeys id keys) := h.change (fun _ _ => hkeys) hkeys

theorem Grown.wellFormed (h : Grown kr kr') (hkr : WellFormed kr) : WellFormed kr' := by
  cases h with
  | push id key => exact hkr.change (fun _ _ => List.append_ne_nil_of_right_ne_nil _ (List.cons_ne_nil _ _)) (List.cons_ne_nil _ _)
  | set id keys hlt hne => exact hkr.set id hne

/-! ## Runs -/

/-- The open vault has a well-formed keyring, and so will the next one that is opened. -/
structure Keyed (s : Site) : Prop where
  disk : WellFormed s.disk.keyring.normalize
  vault : ∀ v, s.vault = some v → WellFormed v.keyring

theorem Effect.wellFormed {v v' : Vault} {d d' : Disk} {a : Action} (h : Effect v d a v' d')
    (hd : WellFormed d.keyring.normalize) (hv : WellFormed v.keyring) :
    WellFormed d'.keyring.normalize ∧ WellFormed v'.keyring := by
  cases h with
  | idle => exact ⟨hd, hv⟩
  | wrote => exact ⟨hd, hv⟩
  | received => exact ⟨hd, hv⟩
  | rekeyed kr hgrown =>
    have hkr := hgrown.wellFormed hv
    exact ⟨hkr.normalize, hkr⟩
  | joined kr hlog hkr =>
    obtain ⟨keys, hkeys, rfl⟩ := hkr
    have hset := hv.set nil hkeys
    have hcleared : WellFormed { v.keyring.setShareKeys nil keys with vaultKeys := [], vaultKey := none } :=
      ⟨hset.unique, hset.default, hset.keys⟩
    exact ⟨hcleared.normalize, hcleared⟩
  | folded => exact ⟨hd, hv⟩
  | compacted => exact ⟨hd, hv⟩

theorem Keyed.moves {s s' : Site} {a : Action} (h : Keyed s) (hmove : s.Moves a s') : Keyed s' := by
  cases hmove with
  | stays => exact h
  | acts hv heff =>
    obtain ⟨hd, hv'⟩ := heff.wellFormed h.disk (h.vault _ hv)
    exact ⟨hd, by rintro _ ⟨rfl⟩; exact hv'⟩
  | opens heff =>
    obtain ⟨hd, hv'⟩ := heff.wellFormed h.disk h.disk
    exact ⟨hd, by rintro _ ⟨rfl⟩; exact hv'⟩
  | closes => exact ⟨h.disk, by rintro _ ⟨⟩⟩

/-- A directory with a keyring of any version, closed or opened as it is. -/
structure Begins (s : Site) : Prop where
  legacy : Legacy s.disk.keyring
  vault : ∀ v, s.vault = some v → v.keyring = s.disk.keyring.normalize

theorem created_begins (deviceName : String) (vaultId : Uuid) (vaultKey : Key) (recoveryPub : Bytes) (x : XKey) (ed : EdKey)
    (deviceId : Uuid) : Begins (created deviceName vaultId vaultKey recoveryPub x ed deviceId) := by
  refine ⟨.shares _ ⟨List.nodup_singleton _, List.mem_cons_self, ?_⟩, by rintro _ ⟨rfl⟩; rfl⟩
  intro s hs
  rw [List.mem_singleton.mp hs]
  exact List.cons_ne_nil _ _

/-- What the code relies on: there is a current key, no share is without one, and comparing held epochs one way is
comparing sets. -/
structure Relied (kr : Keyring) : Prop where
  wellFormed : WellFormed kr
  current : (kr.currentFor nil).isSome = true
  epoch : ∀ id s, kr.share id = some s → 1 ≤ s.keys.length
  sameSet : ∀ kr' : Keyring, WellFormed kr' →
    (sameEpochSet kr'.heldShareEpochs kr.heldShareEpochs = true ↔ ∀ p, p ∈ kr'.heldShareEpochs ↔ p ∈ kr.heldShareEpochs)

theorem WellFormed.relied (h : WellFormed kr) : Relied kr :=
  ⟨h, h.current, fun _ _ hs => h.share_pos hs, fun _ h' => sameEpochSet_iff h'.held_nodup h.held_nodup⟩

/-- **Keyrings.** Whatever form a directory begins with, and if it is a new one, every keyring that is opened or held in
any run is well formed. Normalising twice is normalising once, and keeps the keys in order. -/
theorem keyrings_wellFormed {s₀ : Site}
    (h : Begins s₀ ∨ ∃ deviceName vaultId vaultKey recoveryPub x ed deviceId,
      s₀ = created deviceName vaultId vaultKey recoveryPub x ed deviceId) (actions : List Action) :
    (Relied (s₀.after actions).disk.keyring.normalize ∧ ∀ v, (s₀.after actions).vault = some v → Relied v.keyring) ∧
      (∀ kr : Keyring, kr.normalize.normalize = kr.normalize) ∧
      ∀ kr : Keyring, Legacy kr →
        kr.shares <+: kr.normalize.shares ∧ (kr.shares = [] → kr.normalize.keysOf nil = legacyKeys kr) := by
  have hbegins : Begins s₀ := by
    rcases h with h | ⟨_, _, _, _, _, _, _, rfl⟩
    · exact h
    · exact created_begins ..
  have hstart : Keyed s₀ := by
    refine ⟨hbegins.legacy.wellFormed, fun v hv => ?_⟩
    rw [hbegins.vault v hv]
    exact hbegins.legacy.wellFormed
  have hkeyed : Keyed (s₀.after actions) :=
    Site.after_keeps (fun _ => True) (fun _ _ _ hs _ hmove => hs.moves hmove) hstart fun _ _ => trivial
  exact ⟨⟨hkeyed.disk.relied, fun v hv => (hkeyed.vault v hv).relied⟩, fun kr => (plain_normalize kr).normalize,
    fun _ hkr => hkr.keeps⟩

/-- A directory from before shares, with one vault key. -/
def oldDirectory : Site :=
  let (d, _) := createWithKeys "laptop" 7 (.vault 1 0) (.ed (.recovery 1)) 0 (.device 0) 10
  ⟨{ d with keyring := ⟨[], [], some (.vault 1 0), 0, .device 0⟩ }, none⟩

theorem keyrings_wellFormed_old :
    ((oldDirectory.after [.reopen, .createShare 5 0, .rotate (.mnemonic 1), .reopen]).vault.map fun v =>
      v.keyring.heldShareEpochs) = some [(nil, 2), (5, 1)] ∧
      Relied (oldDirectory.after [.reopen, .createShare 5 0, .rotate (.mnemonic 1), .reopen]).disk.keyring.normalize := by
  refine ⟨by decide +kernel, ?_⟩
  exact (keyrings_wellFormed (Or.inl ⟨.single _ _ _, by rintro _ ⟨⟩⟩) _).1.1

end SshVault.Vault
