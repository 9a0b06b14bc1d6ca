import SshVault.Vault.LocalForwards

/-!
# What local calls leave

Local calls with serialised payloads, in any shares, and as many as one likes. Past its last value the counter
starts again, and a record may then show older values than the last ones written. Each of them was checked.
-/

open Lib

namespace SshVault

/-! ## Payloads of one type -/

/-- Every member is there as some checked value of the type writes it. -/
def Spelled (T : PayloadType) (p : Payload) : Prop :=
  ∀ m ∈ T.members, ∃ b, m.codec.Valid b ∧ p[m.name]? = m.codec.write b ∧
    (T.kind ≠ .privateKey → ∀ value, m.codec.write b = some value → checkValue T.kind value = .ok ())

variable {T : PayloadType} {p q s : Payload}

theorem Spelled.of_payload {x : T.Data} (hx : T.Valid x) (h : validatePayload T.kind (T.toPayload x) = .ok ()) :
    Spelled T (T.toPayload x) := by
  intro m hm
  refine ⟨m.get x, hx m hm, ?_, fun hkind value hvalue => PayloadType.checkValue_of_writes h hkind hm hvalue⟩
  rw [PayloadType.toPayload, Member.serialize_get T.names hm]
  rfl

theorem Spelled.mix (hp : Spelled T p) (hq : Spelled T q) (h : ∀ n : String, s[n]? = p[n]? ∨ s[n]? = q[n]?) : Spelled T s := by
  intro m hm
  rcases h m.name with h | h <;> rw [h]
  · exact hp m hm
  · exact hq m hm

namespace PayloadType

theorem ofObject_eq_some_iff {x : T.Data} :
    T.ofObject p = some x ↔ ∀ m ∈ T.members, m.codec.read p[m.name]? = some (m.get x) := by
  refine T.reads_iff.trans (forall₂_congr fun m _ => ?_)
  unfold Member.Reads Record.value
  rw [value_fieldsFromPayload]

theorem read_eq_ofObject (r : Record) : T.read r = T.ofObject r.values := by
  refine Option.ext fun x => ?_
  rw [ofObject_eq_some_iff, T.reads_iff]
  simp only [Record.values_get]
  rfl

end PayloadType

theorem checkFields_of_forall {kind : Kind} {fields : List (String × Value)}
    (h : ∀ f ∈ fields, checkValue kind f.2 = .ok ()) : checkFields kind fields = .ok () := by
  induction fields with
  | nil => rfl
  | cons f fields ih =>
    obtain ⟨hf, hrest⟩ := List.forall_mem_cons.mp h
    unfold checkFields
    rw [ih hrest]
    exact hf

/-- **Reading back.** What is spelled is read as a value that writes the same members, and is checked. -/
theorem Spelled.reads (h : Spelled T p) :
    ∃ x, T.ofObject p = some x ∧ T.Valid x ∧ (∀ m ∈ T.members, (T.toPayload x)[m.name]? = p[m.name]?) ∧
      (T.kind ≠ .privateKey → validatePayload T.kind (T.toPayload x) = .ok ()) := by
  obtain ⟨x, hx⟩ : ∃ x, T.ofObject p = some x := by
    refine T.readable fun m hm => ?_
    obtain ⟨b, hb, hvalue, -⟩ := h m hm
    refine ⟨b, ?_⟩
    unfold Record.value
    rw [value_fieldsFromPayload, hvalue]
    exact m.codec.read_write b hb
  have hmember : ∀ m ∈ T.members, m.codec.Valid (m.get x) ∧ p[m.name]? = m.writes x ∧
      (T.kind ≠ .privateKey → ∀ value, m.writes x = some value → checkValue T.kind value = .ok ()) := by
    intro m hm
    obtain ⟨b, hb, hvalue, hcheck⟩ := h m hm
    have hread := PayloadType.ofObject_eq_some_iff.mp hx m hm
    rw [hvalue, m.codec.read_write b hb] at hread
    obtain rfl := Option.some.inj hread
    exact ⟨hb, hvalue, hcheck⟩
  have hwrites : ∀ m ∈ T.members, (T.toPayload x)[m.name]? = m.writes x := fun m hm =>
    Member.serialize_get T.names hm
  refine ⟨x, hx, fun m hm => (hmember m hm).1, fun m hm => (hwrites m hm).trans (hmember m hm).2.1.symm, fun hkind => ?_⟩
  unfold validatePayload
  rw [if_neg hkind]
  refine checkFields_of_forall fun f hf => ?_
  have hget := Std.ExtTreeMap.mem_toList_iff_getElem?_eq_some.mp hf
  have hname : f.1 ∈ T.members.map (·.name) := by
    by_contra hno
    rw [show (T.toPayload x)[f.1]? = none from Member.serialize_absent hno] at hget
    cases hget
  obtain ⟨m, hm, hmf⟩ := List.mem_map.mp hname
  rw [← hmf, hwrites m hm] at hget
  exact (hmember m hm).2.2 hkind f.2 hget

/-! ## Runs -/

/-- A call by the name field of the kind and under the payload's own name, with the payload type of the kind, and
a new record under an id that was not drawn before. -/
def Write.Files (drawn : List Uuid) : Write → Prop
  | .addIn _ kind nameField name payload _ recordId _ _ =>
    nameField = kind.nameField ∧ TypedPayload kind payload ∧ payload[kind.nameField]? = some (.str (.plain name)) ∧
      recordId ∉ drawn
  | .edit _ kind nameField name payload _ _ =>
    nameField = kind.nameField ∧ TypedPayload kind payload ∧ payload[kind.nameField]? = some (.str (.plain name))
  | .remove .. => True

namespace Vault

/-- A vault whose records come from local calls. -/
inductive FiledRun (s₀ : Site) : List Uuid → Site → Prop
  | start : FiledRun s₀ [] s₀
  | call {drawn : List Uuid} {s : Site} {w : Write} (h : FiledRun s₀ drawn s) (hw : w.Files drawn) :
    FiledRun s₀ (drawn ++ w.drawn.toList) (s.next (.write w))
  | other {drawn : List Uuid} {s : Site} {a : Action} (h : FiledRun s₀ drawn s) (ha : a.Maintains) :
    FiledRun s₀ drawn (s.next a)

/-- The vault holds `m`, and every payload in it is spelled by its type. -/
structure Contents (drawn : List Uuid) (m : KeyedMap) (v : Vault) (d : Disk) : Prop where
  settled : Settled v d
  shelved : Shelved drawn m v
  spelled : ∀ k p, m k = some p → ∃ T ∈ payloadTypes, T.kind = k.1 ∧ Spelled T p

variable {drawn : List Uuid} {m : KeyedMap} {v : Vault} {d : Disk}

theorem Contents.mono (h : Contents drawn m v d) {drawn' : List Uuid} (hsub : drawn ⊆ drawn') : Contents drawn' m v d :=
  ⟨h.settled, h.shelved.mono hsub, h.spelled⟩

theorem Settled.ticked (h : Settled v d) (metadata : Meta) : Settled { v with metadata } { d with metadata } :=
  { h with sound := ⟨h.sound.plain, h.sound.unique, h.sound.snapshot⟩, metadata := rfl }

theorem Contents.append (h : Contents drawn m v d) {drawn' : List Uuid} (r r' : Record) (k : Kind × String)
    (metadata : Meta) (entryId : Uuid) (hr' : addSnapshot v.state[r.id]? r = some r') (hsub : drawn ⊆ drawn')
    (hdrawn : r.id ∈ drawn') (hnamed : live r' = true → r'.key = some k)
    (hwas : ∀ r₀ k', v.state[r.id]? = some r₀ → r₀.key = some k' → k' = k)
    (hothers : ∀ (j : Uuid) s, v.state[j]? = some s → s.key = some k → j = r.id)
    (hspelled : ∃ T ∈ payloadTypes, T.kind = k.1 ∧ Spelled T r'.values) :
    ∃ m', Contents drawn' m' ((Vault.append { v with metadata } r entryId).run { d with metadata }).1.2
      ((Vault.append { v with metadata } r entryId).run { d with metadata }).2 := by
  cases hkey : v.keyring.currentFor r.shareId with
  | none =>
    have hrun : (Vault.append { v with metadata } r entryId).run { d with metadata } =
        ((.error (.corrupt "sealing under a share not held"), { v with metadata }), { d with metadata }) := by
      unfold Vault.append
      rw [hkey]
      rfl
    rw [hrun]
    exact ⟨m, h.settled.ticked metadata, { h.shelved.mono hsub with }, h.spelled⟩
  | some key =>
    rw [run_append entryId metadata hkey]
    refine ⟨_, h.settled.appended metadata hkey entryId,
      h.shelved.change k rfl hr' hsub hdrawn hnamed hwas hothers, fun k' p hp => ?_⟩
    by_cases hk : k' = k
    · rw [hk, Function.update_self] at hp
      obtain ⟨-, -, rfl⟩ := Option.map_eq_some_iff.mp hp
      exact hk ▸ hspelled
    · rw [Function.update_of_ne hk] at hp
      exact h.spelled k' p hp

/-! ## One call -/

theorem Shelved.key_none (h : Shelved drawn m v) {ord : HashOrder} {kind : Kind} {name : String}
    (hfind : v.find ord kind kind.nameField name = none) : m (kind, name) = none := by
  cases hm : m (kind, name) with
  | none => rfl
  | some p =>
    obtain ⟨old, hold, -⟩ := h.find_some ord hm
    rw [hfind] at hold
    cases hold

theorem spelled_of_typed {kind : Kind} {payload : Payload} (h : TypedPayload kind payload)
    (hcheck : validatePayload kind payload = .ok ()) : ∃ T ∈ payloadTypes, T.kind = kind ∧ Spelled T payload := by
  obtain ⟨T, hT, rfl, x, hx, rfl⟩ := h
  exact ⟨T, hT, rfl, .of_payload hx hcheck⟩

theorem Contents.addIn (h : Contents drawn m v d) {ord : HashOrder} {kind : Kind} {nameField name : String}
    {payload : Payload} {share recordId entryId : Uuid} {now : Nat}
    (hw : (Write.addIn ord kind nameField name payload share recordId entryId now).Files drawn) :
    ∃ m', Contents (drawn ++ [recordId]) m'
      ((v.addIn ord kind nameField name payload share recordId entryId now).run d).1.2
      ((v.addIn ord kind nameField name payload share recordId entryId now).run d).2 := by
  obtain ⟨rfl, hpayload, hnamed, hid⟩ := hw
  have hsub : drawn ⊆ drawn ++ [recordId] := List.subset_append_left _ _
  unfold Vault.addIn
  split
  · exact ⟨m, h.mono hsub⟩
  rename_i hcheck
  split
  · exact ⟨m, h.mono hsub⟩
  split
  · exact ⟨m, h.mono hsub⟩
  rename_i hfind
  have hnone := h.shelved.key_none (by simpa using hfind)
  have hnew : v.state[recordId]? = none := h.shelved.free hid
  let r : Record :=
    { id := recordId, kind, fields := fieldsFromPayload payload (v.tick d), deletedAt := none, clock := v.tick d
      deviceId := v.metadata.deviceId, modifiedAt := now, shareId := share }
  have hvalues : r.values = payload := Record.values_of_fields rfl
  rw [Prog.run_bind, run_nextClock]
  dsimp only
  rw [Prog.run_bind]
  refine h.append r r (kind, name) (v.ticked d) entryId ?_ hsub (by simp [r]) (fun hlive => ?_)
    (fun r₀ k' hr₀ => ?_) (fun j s hs hk => absurd hk (h.shelved.keyed.not_shown hnone hs)) ?_
  · rw [show v.state[r.id]? = none from hnew]
    rfl
  · refine Record.key_eq_some.mpr ⟨hlive, rfl, ?_⟩
    rw [← Record.values_get, hvalues, hnamed]
  · rw [show v.state[r.id]? = none from hnew] at hr₀
    cases hr₀
  · rw [hvalues]
    exact spelled_of_typed hpayload hcheck

theorem Contents.old (h : Contents drawn m v d) {old : Record} (hold : Shown v.state old) {k : Kind × String}
    (hkey : old.key = some k) :
    v.state[old.id]? = some old ∧ old.id ∈ drawn ∧ (∃ T ∈ payloadTypes, T.kind = k.1 ∧ Spelled T old.values) ∧
      (∀ r₀ k', v.state[old.id]? = some r₀ → r₀.key = some k' → k' = k) ∧
      ∀ (j : Uuid) s, v.state[j]? = some s → s.key = some k → j = old.id := by
  obtain ⟨i, hi⟩ := hold
  obtain rfl := h.shelved.id i old hi
  exact ⟨hi, h.shelved.ids _ _ hi, h.spelled k _ (h.shelved.keyed.entry _ _ _ hi hkey), h.shelved.sole hi hkey⟩

theorem Contents.edit (h : Contents drawn m v d) {ord : HashOrder} {kind : Kind} {nameField name : String}
    {payload : Payload} {entryId : Uuid} {now : Nat}
    (hw : (Write.edit ord kind nameField name payload entryId now).Files drawn) :
    ∃ m', Contents drawn m' ((v.edit ord kind nameField name payload entryId now).run d).1.2
      ((v.edit ord kind nameField name payload entryId now).run d).2 := by
  obtain ⟨rfl, hpayload, hnamed⟩ := hw
  unfold Vault.edit
  split
  · exact ⟨m, h⟩
  rename_i hcheck
  split
  · exact ⟨m, h⟩
  rename_i old hfind
  obtain ⟨hold, hmatch⟩ := find_mem hfind
  have hkey := Record.matchesName_iff.mp hmatch
  obtain ⟨hget, hid, ⟨T, hT, hkindT, hspelled⟩, hwas, hothers⟩ := h.old hold hkey
  obtain ⟨-, hkind, hname⟩ := Record.key_eq_some.mp hkey
  let r : Record :=
    { id := old.id, kind, fields := editFields payload old.fields (v.tick d), deletedAt := old.deletedAt
      clock := v.tick d, deviceId := v.metadata.deviceId, modifiedAt := now, shareId := old.shareId }
  have hvalue (n : String) : r.value n = payload[n]? := value_editFields n
  rw [Prog.run_bind, run_nextClock]
  dsimp only
  refine h.append r (merge old r) (kind, name) (v.ticked d) entryId ?_ (List.Subset.refl _)
    hid (fun hlive => ?_) hwas hothers ?_
  · rw [show v.state[r.id]? = some old from hget]
    rfl
  · have hmkind : (merge old r).kind = kind := by rw [merge_kind, hkind, max_self]
    refine Record.key_eq_some.mpr ⟨hlive, hmkind, ?_⟩
    -- The name is the same in both.
    rcases Record.value_merge_or old r kind.nameField with hv | hv <;> rw [hv]
    · exact hname
    · rw [hvalue, hnamed]
  · obtain ⟨T', hT', hkindT', hspelled'⟩ := spelled_of_typed hpayload hcheck
    obtain rfl := payloadType_unique hT' hT (hkindT'.trans hkindT.symm)
    refine ⟨T', hT, hkindT, hspelled.mix hspelled' fun n => ?_⟩
    rw [Record.values_get, Record.values_get, ← hvalue]
    exact Record.value_merge_or old r n

theorem Contents.remove (h : Contents drawn m v d) {ord : HashOrder} {kind : Kind} {nameField name : String}
    {entryId : Uuid} {now : Nat} :
    ∃ m', Contents drawn m' ((v.remove ord kind nameField name entryId now).run d).1.2
      ((v.remove ord kind nameField name entryId now).run d).2 := by
  unfold Vault.remove
  split
  · exact ⟨m, h⟩
  rename_i old hfind
  obtain ⟨⟨i, hi⟩, hmatch⟩ := find_mem hfind
  have hlive : live old = true := by
    unfold matchesName at hmatch
    simp only [Bool.and_eq_true] at hmatch
    exact hmatch.1.1
  obtain ⟨⟨kind', name'⟩, hkey⟩ := Option.isSome_iff_exists.mp (h.shelved.named i old hi hlive)
  obtain ⟨hget, hid, hspelled, hwas, hothers⟩ := h.old ⟨i, hi⟩ hkey
  obtain ⟨-, hkind, hname⟩ := Record.key_eq_some.mp hkey
  let r : Record :=
    { id := old.id, kind := .tombstone, fields := ∅, deletedAt := some (v.tick d), clock := v.tick d
      deviceId := v.metadata.deviceId, modifiedAt := now, shareId := old.shareId }
  have hvalue (n : String) : (merge old r).value n = old.value n := Record.value_merge_empty old r rfl n
  have hvalues : (merge old r).values = old.values :=
    Std.ExtTreeMap.ext_getElem? fun n => by rw [Record.values_get, Record.values_get, hvalue]
  rw [Prog.run_bind, run_nextClock]
  dsimp only
  refine h.append r (merge old r) (kind', name') (v.ticked d) entryId ?_
    (List.Subset.refl _) hid (fun hlive => ?_) hwas hothers (hvalues ▸ hspelled)
  · rw [show v.state[r.id]? = some old from hget]
    rfl
  · exact Record.key_eq_some.mpr ⟨hlive, (Record.merge_kind_tombstone rfl).trans hkind, (hvalue _).trans hname⟩

theorem Contents.write (h : Contents drawn m v d) {w : Write} (hw : w.Files drawn) :
    ∃ m', Contents (drawn ++ w.drawn.toList) m' ((w.prog v).run d).1.2 ((w.prog v).run d).2 := by
  cases w with
  | addIn ord kind nameField name payload share recordId entryId now =>
    unfold Write.prog
    simp only [Prog.run_bind, Prog.run_pure]
    exact h.addIn hw
  | edit ord kind nameField name payload entryId now =>
    change ∃ m', Contents (drawn ++ []) m' _ _
    rw [List.append_nil]
    exact h.edit hw
  | remove ord kind nameField name entryId now =>
    change ∃ m', Contents (drawn ++ []) m' _ _
    rw [List.append_nil]
    exact h.remove

theorem Contents.maintained (h : Contents drawn m v d) {v' : Vault} {d' : Disk} (hm : Maintained v d v' d')
    (hs : Settled v' d') : Contents drawn m v' d' := by
  cases hm with
  | cached => exact ⟨hs, h.shelved, h.spelled⟩
  | pushed => exact ⟨hs, { h.shelved with }, h.spelled⟩

/-- **A run.** Whatever the calls were, the vault holds payloads of their types, one to each name. -/
theorem FiledRun.contents {s₀ s : Site} (h : FiledRun s₀ drawn s) {v₀ : Vault} (hv₀ : s₀.vault = some v₀)
    (h₀ : Contents [] (fun _ => none) v₀ s₀.disk) : ∃ v m, s.vault = some v ∧ Contents drawn m v s.disk := by
  induction h with
  | start => exact ⟨v₀, _, hv₀, h₀⟩
  | @call drawn s w h hw ih =>
    obtain ⟨v, m, hv, hcontents⟩ := ih
    obtain ⟨m', hnext⟩ := hcontents.write hw
    refine ⟨((w.prog v).run s.disk).1.2, m', ?_, ?_⟩ <;> unfold Site.next <;> rw [hv] <;>
      simp only [Action.prog, Prog.run_bind, Prog.run_pure]
    exact hnext
  | @other drawn s a h ha ih =>
    obtain ⟨v, m, hv, hcontents⟩ := ih
    obtain ⟨d, vault⟩ := s
    obtain rfl : vault = some v := hv
    obtain ⟨v', d', hnext, hm, hsettled⟩ := hcontents.settled.maintains ha
    exact ⟨v', m, by rw [hnext], by rw [hnext]; exact hcontents.maintained hm hsettled⟩

theorem created_contents (deviceName : String) (vaultId : Uuid) (vaultKey : Key) (recoveryPub : Bytes) (x : XKey)
    (ed : EdKey) (deviceId : Uuid) :
    ∃ v, (created deviceName vaultId vaultKey recoveryPub x ed deviceId).vault = some v ∧
      Contents [] (fun _ => none) v (created deviceName vaultId vaultKey recoveryPub x ed deviceId).disk := by
  obtain ⟨v, hv, hlocal⟩ := created_local deviceName vaultId vaultKey recoveryPub x ed deviceId
  exact ⟨v, hv, hlocal.settled, hlocal.shelved, fun _ _ hp => nomatch hp⟩

end Vault

end SshVault
