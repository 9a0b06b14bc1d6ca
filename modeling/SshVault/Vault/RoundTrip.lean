import SshVault.Vault.Contents

/-!
# An export taken in by a fresh vault

The export of a vault that local calls filled is imported without a loss. Imported again, all of it is there already.
-/

open Lib

namespace SshVault

/-! ## Items -/

theorem ofList_toList (p : Payload) : (.ofList p.toList : Payload) = p := by
  refine Std.ExtTreeMap.ext_getElem? fun n => ?_
  cases h : p[n]? with
  | some value =>
    exact Std.ExtTreeMap.getElem?_ofList_of_mem Std.ReflCmp.compare_self Std.ExtTreeMap.distinct_keys_toList
      (Std.ExtTreeMap.mem_toList_iff_getElem?_eq_some.mpr h)
  | none =>
    refine Std.ExtTreeMap.getElem?_ofList_of_contains_eq_false ?_
    rw [← Bool.not_eq_true, List.contains_iff_mem, List.mem_map]
    rintro ⟨⟨n', value⟩, hmem, rfl⟩
    rw [Std.ExtTreeMap.mem_toList_iff_getElem?_eq_some.mp hmem] at h
    cases h

/-- The item of a payload in an export. -/
def Exported.item (e : Exported) (x : e.type.Data) : Value := .obj (e.type.toPayload x).toList

theorem Exported.ofValue_item {e : Exported} {x : e.type.Data} (hx : e.type.Valid x) :
    e.type.ofValue (e.item x) = some x := by
  unfold item PayloadType.ofValue
  dsimp only
  rw [ofList_toList]
  exact PayloadType.ofObject_toPayload hx

namespace Vault

variable {drawn : List Uuid} {m : KeyedMap} {v : Vault} {d : Disk}

/-! ## What an export lists -/

/-- How many live records of the exported kinds there are. -/
def exportedCount (v : Vault) : Nat := v.state.toList.countP fun p => live p.2 ∧ p.2.kind ∈ Exported.all.map (·.type.kind)

/-- The payloads of one kind. -/
def payloads (v : Vault) (ord : HashOrder) (e : Exported) : List e.type.Data :=
  (v.list ord e.type.kind e.type.read).map (·.2)

theorem list_perm {α : Type} (ord ord' : HashOrder) (kind : Kind) (payload : Record → Option α) :
    (v.list ord kind payload).Perm (v.list ord' kind payload) := by
  unfold list
  refine ((List.perm_insertionSort _ _).trans ?_).trans (List.perm_insertionSort _ _).symm
  exact (((ord.perm _).trans (ord'.perm _).symm).filter _).filterMap _

theorem exportItems_eq (ord : HashOrder) (e : Exported) : v.exportItems ord e = (v.payloads ord e).map e.item := by
  unfold exportItems payloads
  rw [List.map_map]
  rfl

theorem items_exportJson (ord : Exported → HashOrder) {e : Exported} (he : e ∈ Exported.all) :
    e.items (v.exportJson ord) = (v.payloads (ord e) e).map e.item := by
  rw [← exportItems_eq]
  rcases he with _ | ⟨_, _ | ⟨_, _ | ⟨_, _ | ⟨_, he⟩⟩⟩⟩
  · rfl
  · rfl
  · rfl
  · rfl
  · cases he

theorem exported_kinds : (Exported.all.map (·.type.kind)).Nodup := by decide

theorem not_privateKey {e : Exported} (he : e ∈ Exported.all) : e.type.kind ≠ .privateKey := by
  have hall : Kind.privateKey ∉ Exported.all.map (·.type.kind) := by decide
  exact fun h => hall (h ▸ List.mem_map_of_mem he)

theorem Contents.reads (h : Contents drawn m v d) {e : Exported} (he : e ∈ Exported.all) {name : String} {p : Payload}
    (hp : m (e.type.kind, name) = some p) :
    ∃ x, e.type.ofObject p = some x ∧ e.name x = name ∧ e.type.Valid x ∧
      validatePayload e.type.kind (e.type.toPayload x) = .ok () := by
  obtain ⟨T, hT, hkind, hspelled⟩ := h.spelled _ _ hp
  obtain rfl := payloadType_unique hT e.listed hkind
  obtain ⟨x, hx, hvalid, hmembers, hcheck⟩ := hspelled.reads
  refine ⟨x, hx, ?_, hvalid, hcheck (not_privateKey he)⟩
  -- The name field is a member, and its value is the name of the key.
  have hfield : e.type.kind.nameField ∈ e.type.members.map (·.name) := by
    by_contra hno
    have hnamed := e.named x
    rw [show (e.type.toPayload x)[e.type.kind.nameField]? = none from Member.serialize_absent hno] at hnamed
    cases hnamed
  obtain ⟨mem, hmem, hname⟩ := List.mem_map.mp hfield
  have hvalue := hmembers mem hmem
  rw [hname, e.named x] at hvalue
  obtain ⟨i, r, hr, hkey, rfl⟩ := h.shelved.keyed.found _ _ hp
  rw [Record.values_get, (Record.key_eq_some.mp hkey).2.2] at hvalue
  simpa using hvalue

theorem Contents.payloads_perm (h : Contents drawn m v d) {e : Exported} (he : e ∈ Exported.all) (ord : HashOrder) :
    ∃ names : List String, names.Nodup ∧ (∀ name, name ∈ names ↔ (m (e.type.kind, name)).isSome = true) ∧
      ((v.payloads ord e).map some).Perm (names.map fun name => (m (e.type.kind, name)).bind e.type.ofObject) := by
  obtain ⟨names, hnodup, hnames, hperm⟩ := h.shelved.list ord e.type.kind e.type.ofObject fun name p hp => by
    obtain ⟨x, hx, -⟩ := h.reads he hp
    exact Option.isSome_of_eq_some hx
  refine ⟨names, hnodup, hnames, ?_⟩
  unfold payloads
  rw [List.map_map, show e.type.read = fun r => e.type.ofObject r.values from funext e.type.read_eq_ofObject]
  exact hperm

theorem Contents.payloads_sound (h : Contents drawn m v d) {e : Exported} (he : e ∈ Exported.all) (ord : HashOrder) :
    ((v.payloads ord e).map e.name).Nodup ∧
      ∀ x ∈ v.payloads ord e, e.type.Valid x ∧ validatePayload e.type.kind (e.type.toPayload x) = .ok () := by
  obtain ⟨names, hnodup, hnames, hperm⟩ := h.payloads_perm he ord
  have hread : ∀ name ∈ names, ∃ p, m (e.type.kind, name) = some p := fun name hname =>
    Option.isSome_iff_exists.mp ((hnames name).mp hname)
  constructor
  · have hmap := (hperm.map (Option.map e.name))
    rw [List.map_map, List.map_map] at hmap
    have hright : names.map (Option.map e.name ∘ fun name => (m (e.type.kind, name)).bind e.type.ofObject) =
        names.map some := by
      refine List.map_congr_left fun name hname => ?_
      obtain ⟨p, hp⟩ := hread name hname
      obtain ⟨x, hx, hxname, -⟩ := h.reads he hp
      rw [Function.comp_apply, hp, Option.bind_some, hx, Option.map_some, hxname]
    rw [hright, show Option.map e.name ∘ some = some ∘ e.name from rfl, ← List.map_map] at hmap
    exact ((List.map_perm_map_iff (Option.some_injective _)).mp hmap).nodup_iff.mpr hnodup
  · intro x hx
    obtain ⟨name, hname, hbind⟩ := List.mem_map.mp (hperm.mem_iff.mp (List.mem_map_of_mem hx))
    obtain ⟨p, hp⟩ := hread name hname
    obtain ⟨x', hx', -, hsound⟩ := h.reads he hp
    rw [hp, Option.bind_some, hx'] at hbind
    obtain rfl := Option.some.inj hbind
    exact hsound

theorem countP_mem {α κ : Type} [DecidableEq κ] (q : α → Bool) (f : α → κ) {ks : List κ} (hks : ks.Nodup) (l : List α) :
    l.countP (fun a => q a && decide (f a ∈ ks)) = (ks.map fun k => l.countP fun a => q a && decide (f a = k)).sum := by
  induction ks with
  | nil => simp
  | cons k ks ih =>
    obtain ⟨hk, hrest⟩ := List.nodup_cons.mp hks
    rw [List.map_cons, List.sum_cons, ← ih hrest]
    clear ih
    induction l with
    | nil => rfl
    | cons a l ihl =>
      rw [List.countP_cons, List.countP_cons, List.countP_cons, ihl]
      cases q a with
      | false => simp
      | true =>
        by_cases hak : f a = k
        · simp only [hak, hk, List.mem_cons_self, decide_true, decide_false, Bool.and_self, Bool.and_false, if_true]
          simp only [Bool.false_eq_true, if_false]
          omega
        · simp only [List.mem_cons, hak, false_or, decide_false, Bool.true_and, Bool.false_eq_true, if_false]
          omega

theorem Contents.length_payloads (h : Contents drawn m v d) {e : Exported} (he : e ∈ Exported.all) (ord : HashOrder) :
    (v.payloads ord e).length = v.state.toList.countP fun p => live p.2 && decide (p.2.kind = e.type.kind) := by
  have hread : ∀ r ∈ (ord.order (v.state.toList.map (·.2))).filter (fun r => live r ∧ r.kind = e.type.kind),
      ((e.type.read r).map fun x => (r.id, x)).isSome = true := by
    intro r hr
    obtain ⟨hmem, hsel⟩ := List.mem_filter.mp hr
    rw [decide_eq_true_eq] at hsel
    obtain ⟨⟨i, r'⟩, hir, rfl⟩ := List.mem_map.mp ((ord.perm _).mem_iff.mp hmem)
    have hget := Std.ExtTreeMap.mem_toList_iff_getElem?_eq_some.mp hir
    obtain ⟨⟨kind, name⟩, hkey⟩ := Option.isSome_iff_exists.mp (h.shelved.named i r' hget hsel.1)
    obtain rfl : e.type.kind = kind := hsel.2.symm.trans (Record.key_eq_some.mp hkey).2.1
    obtain ⟨x, hx, -⟩ := h.reads he (h.shelved.keyed.entry i r' _ hget hkey)
    rw [Option.isSome_map, PayloadType.read_eq_ofObject, hx]
    rfl
  unfold payloads list
  rw [List.length_map, List.length_insertionSort, List.length_filterMap_eq_countP, List.countP_eq_length.mpr hread,
    ← List.countP_eq_length_filter, (ord.perm _).countP_eq, List.countP_map]
  refine List.countP_congr fun p _ => ?_
  simp

theorem Contents.exportedCount_eq (h : Contents drawn m v d) (ord : Exported → HashOrder) :
    v.exportedCount = (Exported.all.map fun e => (v.payloads (ord e) e).length).sum := by
  have hsum : (Exported.all.map fun e => (v.payloads (ord e) e).length) = (Exported.all.map (·.type.kind)).map fun k =>
      v.state.toList.countP fun p => live p.2 && decide (p.2.kind = k) := by
    rw [List.map_map]
    exact List.map_congr_left fun e he => h.length_payloads he (ord e)
  rw [hsum, ← countP_mem (fun p : Uuid × Record => live p.2) (fun p => p.2.kind) exported_kinds]
  unfold exportedCount
  refine List.countP_congr fun p _ => ?_
  simp

/-! ## Taking items in -/

/-- A vault that can add to the default share. -/
structure Receiving (drawn : List Uuid) (m : KeyedMap) (v : Vault) : Prop where
  shelved : Shelved drawn m v
  share : v.keyring.hasShare nil = true
  key : (v.keyring.currentFor nil).isSome = true

theorem run_addItem_known (h : Receiving drawn m v) {e : Exported} {x : e.type.Data} (draw : Draw)
    (hcheck : validatePayload e.type.kind (e.type.toPayload x) = .ok ())
    (hold : (m (e.type.kind, e.name x)).isSome = true) :
    (v.addItem e x draw).run d = ((.error (.duplicate (kindStr e.type.kind) (e.name x)), v), d) := by
  obtain ⟨p, hp⟩ := Option.isSome_iff_exists.mp hold
  obtain ⟨old, hfind, -⟩ := h.shelved.find_some draw.ord hp
  unfold addItem Vault.addIn
  rw [hcheck]
  dsimp only
  rw [if_neg (not_not.mpr h.share), if_pos (by rw [hfind]; rfl)]
  rfl

theorem run_addItem_new (h : Receiving drawn m v) {e : Exported} {x : e.type.Data} (draw : Draw)
    (hcheck : validatePayload e.type.kind (e.type.toPayload x) = .ok ()) (hnew : m (e.type.kind, e.name x) = none)
    (hid : draw.recordId ∉ drawn) :
    ∃ v' d', (v.addItem e x draw).run d = ((.ok draw.recordId, v'), d') ∧
      Receiving (drawn ++ [draw.recordId])
        (Function.update m (e.type.kind, e.name x) (some (e.type.toPayload x))) v' := by
  let r : Record :=
    { id := draw.recordId, kind := e.type.kind, fields := fieldsFromPayload (e.type.toPayload x) (v.tick d)
      deletedAt := none, clock := v.tick d, deviceId := v.metadata.deviceId, modifiedAt := draw.now, shareId := nil }
  obtain ⟨key, hkey⟩ := Option.isSome_iff_exists.mp h.key
  have hvalues : r.values = e.type.toPayload x := Record.values_of_fields rfl
  have hrkey : r.key = some (e.type.kind, e.name x) := by
    refine Record.key_eq_some.mpr ⟨Record.live_of_not_deleted rfl e.type.live, rfl, ?_⟩
    rw [← Record.values_get, hvalues, e.named x]
  have hfree : v.state[r.id]? = none := h.shelved.free hid
  refine ⟨{ v with metadata := v.ticked d, state := mergeInto v.state r },
    { d with metadata := v.ticked d, log := d.log ++ [(draw.entryId, Crypto.sealBlob key (.record r) draw.entryId)] },
    ?_, ?_, h.share, h.key⟩
  · unfold addItem Vault.addIn
    rw [hcheck]
    dsimp only
    rw [if_neg (not_not.mpr h.share), if_neg (by rw [h.shelved.find_none draw.ord hnew]; simp), Prog.run_bind,
      run_nextClock]
    dsimp only
    rw [Prog.run_bind]
    refine (congrArg (fun out => ((Except.map (fun _ => draw.recordId) out.1.1, out.1.2), out.2))
      (run_append (v := v) (d := d) (r := r) draw.entryId (v.ticked d) hkey)).trans ?_
    rfl
  · rw [show some (e.type.toPayload x) = r.key.map fun _ => r.values by rw [hrkey, hvalues]; rfl]
    exact h.shelved.change (e.type.kind, e.name x) rfl (by rw [hfree]; rfl) (List.subset_append_left _ _)
      (by simp [r]) (fun _ => hrkey) (fun r₀ k' hr₀ => by rw [hfree] at hr₀; cases hr₀)
      (fun j s hs hk => absurd hk (h.shelved.keyed.not_shown hnew hs))

/-! ## Lists of items -/

/-- Items that an import takes in: they are read, checked, and have different names. -/
def ItemsSound (e : Exported) (xs : List e.type.Data) : Prop :=
  (xs.map e.name).Nodup ∧ ∀ x ∈ xs, e.type.Valid x ∧ validatePayload e.type.kind (e.type.toPayload x) = .ok ()

/-- The map has these items more. -/
structure Gains (e : Exported) (xs : List e.type.Data) (m m' : KeyedMap) : Prop where
  taken : ∀ x ∈ xs, m' (e.type.kind, e.name x) = some (e.type.toPayload x)
  others : ∀ k, (∀ x ∈ xs, k ≠ (e.type.kind, e.name x)) → m' k = m k

theorem Receiving.importItems (h : Receiving drawn m v) (e : Exported) (draw : Nat → Draw) {xs : List e.type.Data}
    {imported skipped : Nat} (hxs : ItemsSound e xs) (hnew : ∀ x ∈ xs, m (e.type.kind, e.name x) = none)
    (hfresh : Fresh drawn (drawnFrom draw (imported + skipped) xs.length)) :
    ∃ m' v' d', (Vault.importItems e draw (xs.map e.item) v (imported, skipped)).run d =
        ((.ok (imported + xs.length, skipped), v'), d') ∧
      Receiving (drawn ++ drawnFrom draw (imported + skipped) xs.length) m' v' ∧ Gains e xs m m' := by
  induction xs generalizing drawn m v d imported with
  | nil => exact ⟨m, v, d, rfl, by simpa [drawnFrom] using h, by simp, fun k _ => rfl⟩
  | cons x xs ih =>
    obtain ⟨hnodup, hall⟩ := hxs
    obtain ⟨hxnew, hxs'⟩ := List.nodup_cons.mp hnodup
    obtain ⟨⟨hvalid, hcheck⟩, hrest⟩ := List.forall_mem_cons.mp hall
    rw [List.length_cons, Nat.add_comm xs.length 1, drawnFrom_append] at hfresh ⊢
    obtain ⟨hone, hmore⟩ := hfresh.split
    have hid : (draw (imported + skipped)).recordId ∉ drawn := hone.2 _ (by simp [drawnFrom])
    obtain ⟨v₁, d₁, hrun, h₁⟩ := run_addItem_new (d := d) h (draw (imported + skipped)) hcheck (hnew x List.mem_cons_self) hid
    have hone' : drawnFrom draw (imported + skipped) 1 = [(draw (imported + skipped)).recordId] := rfl
    rw [hone', Nat.add_right_comm] at hmore
    obtain ⟨m', v', d', hrun', h', hgains⟩ := ih (d := d₁) h₁ ⟨hxs', hrest⟩ (fun y hy => by
      rw [Function.update_of_ne]
      · exact hnew y (List.mem_cons_of_mem _ hy)
      · intro heq
        exact hxnew (List.mem_map.mpr ⟨y, hy, (Prod.mk.inj heq).2⟩)) hmore
    refine ⟨m', v', d', ?_, ?_, List.forall_mem_cons.mpr ⟨?_, hgains.taken⟩, fun k hk => ?_⟩
    · rw [List.map_cons, Vault.importItems, Exported.ofValue_item hvalid]
      dsimp only
      rw [Prog.run_bind, hrun]
      dsimp only
      rw [hrun', Nat.add_right_comm, Nat.add_assoc imported, Nat.add_comm xs.length 1]
    · rw [hone', Nat.add_right_comm imported skipped 1, ← List.append_assoc]
      exact h'
    · rw [hgains.others _ fun y hy heq => hxnew (List.mem_map.mpr ⟨y, hy, (Prod.mk.inj heq).2.symm⟩),
        Function.update_self]
    · obtain ⟨hkx, hkxs⟩ := List.forall_mem_cons.mp hk
      rw [hgains.others k hkxs, Function.update_of_ne hkx]

theorem run_importItems_known (h : Receiving drawn m v) (e : Exported) (draw : Nat → Draw) {xs : List e.type.Data}
    {imported skipped : Nat} (hxs : ItemsSound e xs) (hold : ∀ x ∈ xs, (m (e.type.kind, e.name x)).isSome = true) :
    (Vault.importItems e draw (xs.map e.item) v (imported, skipped)).run d =
      ((.ok (imported, skipped + xs.length), v), d) := by
  induction xs generalizing skipped with
  | nil => rfl
  | cons x xs ih =>
    obtain ⟨hnodup, hall⟩ := hxs
    obtain ⟨⟨hvalid, hcheck⟩, hrest⟩ := List.forall_mem_cons.mp hall
    obtain ⟨hx, hxs'⟩ := List.forall_mem_cons.mp hold
    rw [List.map_cons, Vault.importItems, Exported.ofValue_item hvalid]
    dsimp only
    rw [Prog.run_bind, run_addItem_known h (draw (imported + skipped)) hcheck hx]
    dsimp only
    rw [ih ⟨(List.nodup_cons.mp hnodup).2, hrest⟩ hxs', List.length_cons, Nat.add_assoc, Nat.add_comm 1]

/-! ## All lists -/

/-- Under this kind the map has the items, and no others. -/
structure Filled (e : Exported) (xs : List e.type.Data) (m : KeyedMap) : Prop where
  taken : ∀ x ∈ xs, m (e.type.kind, e.name x) = some (e.type.toPayload x)
  only : ∀ name, (m (e.type.kind, name)).isSome = true → ∃ x ∈ xs, e.name x = name

section

variable {json : Value} (draw : Nat → Draw) {xs : (e : Exported) → List e.type.Data} {es : List Exported}

theorem Receiving.importKinds (h : Receiving drawn m v) {imported skipped : Nat}
    (hitems : ∀ e ∈ es, e.items json = (xs e).map e.item) (hxs : ∀ e ∈ es, ItemsSound e (xs e))
    (hkinds : (es.map (·.type.kind)).Nodup) (hnew : ∀ e ∈ es, ∀ name, m (e.type.kind, name) = none)
    (hfresh : Fresh drawn (drawnFrom draw (imported + skipped) (es.map fun e => (xs e).length).sum)) :
    ∃ drawn' m' v' d', (Vault.importKinds draw json es v (imported, skipped)).run d =
        ((.ok (imported + (es.map fun e => (xs e).length).sum, skipped), v'), d') ∧
      Receiving drawn' m' v' ∧ (∀ e ∈ es, Filled e (xs e) m') ∧ ∀ k, k.1 ∉ es.map (·.type.kind) → m' k = m k := by
  induction es generalizing drawn m v d imported with
  | nil => exact ⟨drawn, m, v, d, rfl, h, by simp, fun k _ => rfl⟩
  | cons e es ih =>
    obtain ⟨hitem, hitems'⟩ := List.forall_mem_cons.mp hitems
    obtain ⟨hx, hxs'⟩ := List.forall_mem_cons.mp hxs
    obtain ⟨hkind, hkinds'⟩ := List.nodup_cons.mp hkinds
    obtain ⟨hnone, hnew'⟩ := List.forall_mem_cons.mp hnew
    rw [List.map_cons, List.sum_cons] at hfresh ⊢
    rw [drawnFrom_append] at hfresh
    obtain ⟨hone, hmore⟩ := hfresh.split
    obtain ⟨m₁, v₁, d₁, hrun, h₁, hgains⟩ := h.importItems (d := d) e draw hx (fun x _ => hnone _) hone
    rw [Nat.add_right_comm] at hmore
    have hother : ∀ k : Kind × String, k.1 ≠ e.type.kind → m₁ k = m k := fun k hk =>
      hgains.others k fun x _ heq => hk (congrArg Prod.fst heq)
    obtain ⟨drawn', m', v', d', hrun', h', hfilled, hothers⟩ := ih (d := d₁) h₁ hitems' hxs' hkinds' (fun e' he' name => by
      rw [hother (e'.type.kind, name) fun heq => hkind (List.mem_map.mpr ⟨e', he', heq⟩)]
      exact hnew' e' he' name) hmore
    refine ⟨drawn', m', v', d', ?_, h', List.forall_mem_cons.mpr ⟨?_, hfilled⟩, fun k hk => ?_⟩
    · rw [Vault.importKinds, hitem, Prog.run_bind, hrun]
      dsimp only
      rw [hrun', Nat.add_assoc]
    · have hsame : ∀ name, m' (e.type.kind, name) = m₁ (e.type.kind, name) := fun name => hothers _ hkind
      refine ⟨fun x hx => (hsame _).trans (hgains.taken x hx), fun name hname => ?_⟩
      by_contra hno
      rw [hsame, hgains.others _ fun x hx heq => hno ⟨x, hx, (Prod.mk.inj heq).2.symm⟩, hnone] at hname
      cases hname
    · obtain ⟨hke, hkes⟩ := not_or.mp (mt List.mem_cons.mpr hk)
      rw [hothers k hkes, hother k hke]

theorem run_importKinds_known (h : Receiving drawn m v) {imported skipped : Nat}
    (hitems : ∀ e ∈ es, e.items json = (xs e).map e.item) (hxs : ∀ e ∈ es, ItemsSound e (xs e))
    (hold : ∀ e ∈ es, Filled e (xs e) m) :
    (Vault.importKinds draw json es v (imported, skipped)).run d =
      ((.ok (imported, skipped + (es.map fun e => (xs e).length).sum), v), d) := by
  induction es generalizing skipped with
  | nil => rfl
  | cons e es ih =>
    obtain ⟨hitem, hitems'⟩ := List.forall_mem_cons.mp hitems
    obtain ⟨hx, hxs'⟩ := List.forall_mem_cons.mp hxs
    obtain ⟨hfilled, hold'⟩ := List.forall_mem_cons.mp hold
    rw [Vault.importKinds, hitem, Prog.run_bind, run_importItems_known h e draw hx fun x hx => by
      rw [hfilled.taken x hx]
      rfl]
    dsimp only
    rw [ih hitems' hxs' hold', List.map_cons, List.sum_cons, Nat.add_assoc]

end

/-! ## Round trip -/

theorem created_receiving (deviceName : String) (vaultId : Uuid) (vaultKey : Key) (recoveryPub : Bytes) (x : XKey)
    (ed : EdKey) (deviceId : Uuid) :
    ∃ v, (created deviceName vaultId vaultKey recoveryPub x ed deviceId).vault = some v ∧
      Receiving [] (fun _ => none) v := by
  obtain ⟨v, hv, hlocal⟩ := created_local deviceName vaultId vaultKey recoveryPub x ed deviceId
  have hshare : v.keyring.hasShare nil = true := by
    obtain rfl := Option.some.inj hv
    rfl
  exact ⟨v, hv, hlocal.shelved, hshare, hlocal.keyring ▸ hlocal.held nil (hlocal.keyring ▸ hshare)⟩

theorem Receiving.payloads_perm (h : Receiving drawn m v) {e : Exported} {xs : List e.type.Data} (hxs : ItemsSound e xs)
    (hfilled : Filled e xs m) (ord : HashOrder) : (v.payloads ord e).Perm xs := by
  obtain ⟨hxnames, hall⟩ := hxs
  have hread : ∀ x ∈ xs, (m (e.type.kind, e.name x)).bind e.type.ofObject = some x := fun x hx => by
    rw [hfilled.taken x hx]
    exact PayloadType.ofObject_toPayload (hall x hx).1
  obtain ⟨names, hnodup, hnames, hperm⟩ := h.shelved.list ord e.type.kind e.type.ofObject fun name p hp => by
    obtain ⟨x, hx, rfl⟩ := hfilled.only name (Option.isSome_of_eq_some hp)
    have hx' := hread x hx
    rw [hp] at hx'
    exact Option.isSome_of_eq_some hx'
  have hsame : names.Perm (xs.map e.name) := by
    refine (List.perm_ext_iff_of_nodup hnodup hxnames).mpr fun name => (hnames name).trans ?_
    rw [List.mem_map]
    refine ⟨hfilled.only name, ?_⟩
    rintro ⟨x, hx, rfl⟩
    rw [hfilled.taken x hx]
    rfl
  have hlisted : ((v.payloads ord e).map some).Perm (xs.map some) := by
    unfold payloads
    rw [List.map_map, show e.type.read = fun r => e.type.ofObject r.values from funext e.type.read_eq_ofObject]
    refine (hperm.trans (hsame.map _)).trans (.of_eq ?_)
    rw [List.map_map]
    exact List.map_congr_left hread
  exact (List.map_perm_map_iff (Option.some_injective _)).mp hlisted

/-- **Round trip.** What local calls put into a vault, a fresh vault takes in from the export: every live record of
the exported kinds, and the same payloads. A second import skips all of them, and changes nothing. -/
theorem export_import (deviceName : String) (vaultId : Uuid) (vaultKey : Key) (recoveryPub : Bytes) (x : XKey) (ed : EdKey)
    (deviceId : Uuid) (deviceName' : String) (vaultId' : Uuid) (vaultKey' : Key) (recoveryPub' : Bytes) (x' : XKey)
    (ed' : EdKey) (deviceId' : Uuid) {s : Site}
    (h : FiledRun (created deviceName vaultId vaultKey recoveryPub x ed deviceId) drawn s) (hv : s.vault = some v)
    (ord : Exported → HashOrder) {draw : Nat → Draw}
    (hids : ((List.range v.exportedCount).map fun k => (draw k).recordId).Nodup) :
    ∃ v₀ v₁ d₁, (created deviceName' vaultId' vaultKey' recoveryPub' x' ed' deviceId').vault = some v₀ ∧
      (v₀.importJson (v.exportJson ord) draw).run
          (created deviceName' vaultId' vaultKey' recoveryPub' x' ed' deviceId').disk =
        ((.ok (v.exportedCount, 0), v₁), d₁) ∧
      (∀ e ∈ Exported.all, ∀ o o', (v₁.payloads o e).Perm (v.payloads o' e)) ∧
      ∀ draw', (v₁.importJson (v.exportJson ord) draw').run d₁ = ((.ok (0, v.exportedCount), v₁), d₁) := by
  obtain ⟨made, hmade, hcontents₀⟩ := created_contents deviceName vaultId vaultKey recoveryPub x ed deviceId
  obtain ⟨filled, m, hfilled, hcontents⟩ := h.contents hmade hcontents₀
  obtain rfl := Option.some.inj (hfilled.symm.trans hv)
  obtain ⟨v₀, hv₀, hreceiving⟩ := created_receiving deviceName' vaultId' vaultKey' recoveryPub' x' ed' deviceId'
  have hitems : ∀ e ∈ Exported.all, e.items (filled.exportJson ord) = (filled.payloads (ord e) e).map e.item := fun e he =>
    items_exportJson ord he
  have hsound : ∀ e ∈ Exported.all, ItemsSound e (filled.payloads (ord e) e) := fun e he =>
    hcontents.payloads_sound he (ord e)
  have hcount := hcontents.exportedCount_eq ord
  -- As many ids are drawn as there are items, and no two are the same.
  have hfresh : Fresh [] (drawnFrom draw (0 + 0) (Exported.all.map fun e => (filled.payloads (ord e) e).length).sum) := by
    rw [← hcount]
    unfold drawnFrom
    rw [← List.range_eq_range']
    exact ⟨hids, fun _ _ => List.not_mem_nil⟩
  obtain ⟨drawn₁, m₁, v₁, d₁, hrun, h₁, hall, -⟩ := hreceiving.importKinds
    (d := (created deviceName' vaultId' vaultKey' recoveryPub' x' ed' deviceId').disk) draw hitems hsound exported_kinds
    (fun _ _ _ => rfl) hfresh
  refine ⟨v₀, v₁, d₁, hv₀, ?_, fun e he o o' => ?_, fun draw' => ?_⟩
  · unfold importJson
    rw [hrun, hcount, Nat.zero_add]
  · exact (h₁.payloads_perm (hsound e he) (hall e he) o).trans ((list_perm (ord e) o' _ _).map _)
  · unfold importJson
    rw [run_importKinds_known draw' h₁ hitems hsound hall, hcount, Nat.zero_add]

namespace Exporting

def uptime (description : Option String) : Snippet := ⟨"uptime", "uptime -p", description, ["ops"]⟩

def key : KeyMeta := ⟨"work", "ssh-ed25519 AAAA", none, []⟩

theorem uptime_valid (description : Option String) : PayloadType.snippet.Valid (uptime description) := by
  unfold PayloadType.Valid PayloadType.snippet
  simp only [List.forall_mem_cons, List.not_mem_nil, false_imp_iff, implies_true, and_true]
  exact ⟨trivial, trivial, fun _ _ => trivial, trivial⟩

theorem key_valid : PayloadType.keyMeta.Valid key := by
  unfold PayloadType.Valid PayloadType.keyMeta
  simp only [List.forall_mem_cons, List.not_mem_nil, false_imp_iff, implies_true, and_true]
  exact ⟨trivial, trivial, fun _ _ => trivial, trivial⟩

def addUptime : Write :=
  .addIn Desk.anyOrder .snippet "name" "uptime" (PayloadType.snippet.toPayload (uptime none)) 5 20 30 0

def addKey : Write := .addIn Desk.anyOrder .keyMeta "name" "work" (PayloadType.keyMeta.toPayload key) nil 21 31 0

def describe : Write :=
  .edit Desk.anyOrder .snippet "name" "uptime" (PayloadType.snippet.toPayload (uptime (some "how long it runs"))) 32 0

def removeKey : Write := .remove Desk.anyOrder .keyMeta "name" "work" 33 0

/-- A snippet in a share of its own, which is edited later, and a key that is removed. -/
def filled : Site :=
  Desk.desk.after [.createShare 5 0, .write addUptime, .write addKey, .write describe, .write removeKey]

theorem filled_run : FiledRun Desk.desk [20, 21] filled := by
  have hshare : FiledRun Desk.desk [] _ := .other (a := .createShare 5 0) .start trivial
  have hadded : FiledRun Desk.desk [20] _ := .call (w := addUptime) hshare
    ⟨rfl, ⟨.snippet, by simp [payloadTypes], rfl, _, uptime_valid none, rfl⟩, Exported.snippets.named _, List.not_mem_nil⟩
  have hkey : FiledRun Desk.desk [20, 21] _ := .call (w := addKey) hadded
    ⟨rfl, ⟨.keyMeta, by simp [payloadTypes], rfl, _, key_valid, rfl⟩, Exported.keys.named _, by decide⟩
  have hedited : FiledRun Desk.desk [20, 21] _ := .call (w := describe) hkey
    ⟨rfl, ⟨.snippet, by simp [payloadTypes], rfl, _, uptime_valid _, rfl⟩, Exported.snippets.named _⟩
  exact .call (w := removeKey) hedited trivial

def filledVault : Vault := filled.vault.get (by decide +kernel)

theorem exportedCount_filled : filledVault.exportedCount = 1 := by decide +kernel

theorem export_import_edited :
    filledVault.exportedCount = 1 ∧
    ∃ v₀ v₁ d₁, (created "laptop" 8 (.vault 2 0) (.ed (.recovery 2)) 1 (.device 1) 11).vault = some v₀ ∧
      (v₀.importJson (filledVault.exportJson fun _ => Desk.anyOrder) Imported.draw).run
          (created "laptop" 8 (.vault 2 0) (.ed (.recovery 2)) 1 (.device 1) 11).disk =
        ((.ok (filledVault.exportedCount, 0), v₁), d₁) ∧
      (∀ e ∈ Exported.all, ∀ o o', (v₁.payloads o e).Perm (filledVault.payloads o' e)) ∧
      ∀ draw', (v₁.importJson (filledVault.exportJson fun _ => Desk.anyOrder) draw').run d₁ =
        ((.ok (0, filledVault.exportedCount), v₁), d₁) := by
  have hids : ((List.range filledVault.exportedCount).map fun k => (Imported.draw k).recordId).Nodup := by
    rw [exportedCount_filled]
    exact List.nodup_singleton _
  exact ⟨exportedCount_filled, export_import "desk" 7 (.vault 1 0) (.ed (.recovery 1)) 0 (.device 0) 10 "laptop" 8
    (.vault 2 0) (.ed (.recovery 2)) 1 (.device 1) 11 filled_run (Option.some_get _).symm (fun _ => Desk.anyOrder) hids⟩

end Exporting

end Vault

end SshVault
