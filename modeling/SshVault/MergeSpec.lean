import SshVault.Vault.Ops

/-!
# What merging computes

For each id, the newest of everything. The fold never says so; its order and its groups leave no trace.
-/

open Lib

namespace SshVault

/-! ## The newest value of a view -/

section

variable {β κ : Type} [LinearOrder κ] (V : View β κ) {l l' : List Record} {i : Uuid} {r r' : Record} {x y : β}

/-- `x` is a newest value among the records of this id. -/
structure Newest (l : List Record) (i : Uuid) (x : β) : Prop where
  among : ∃ s ∈ l, s.id = i ∧ V.get s = some x
  newest : ∀ s ∈ l, s.id = i → ∀ y, V.get s = some y → V.key y ≤ V.key x

/-- `r` shows a newest value if there is a value at all. -/
structure ShowsNewest (l : List Record) (i : Uuid) (r : Record) : Prop where
  shown : ∀ x, V.get r = some x → Newest V l i x
  any : ∀ s ∈ l, s.id = i → (V.get s).isSome = true → (V.get r).isSome = true

variable {V}

theorem mergeAll_shows (h : (mergeAll l)[i]? = some r) : ShowsNewest V l i r := by
  refine ⟨fun x hx => ?_, fun s hs hid hsome => ?_⟩
  · obtain ⟨s, hs, hid, hsx⟩ := View.mergeAll_origin h hx
    obtain ⟨x', hx', hfrom, hmax⟩ := View.mergeAll_latest h hs hid hsx
    obtain rfl := Option.some.inj (hx.symm.trans hx')
    exact ⟨hfrom, hmax⟩
  · obtain ⟨y, hy⟩ := Option.isSome_iff_exists.mp hsome
    obtain ⟨x, hx, -⟩ := View.mergeAll_latest h hs hid hy
    exact Option.isSome_of_eq_some hx

theorem ShowsNewest.regroup {groups : List (List Record)} {merged : List Record} (h : ShowsNewest V merged i r)
    (hmerged : ∀ s, s.id = i → (s ∈ merged ↔ ∃ g ∈ groups, (mergeAll g)[i]? = some s))
    (hshown : ∀ g ∈ groups, ∀ s ∈ g, s.id = i → ∃ s', (mergeAll g)[i]? = some s') :
    ShowsNewest V groups.flatten i r := by
  refine ⟨fun x hx => ⟨?_, fun s hs hid y hy => ?_⟩, fun s hs hid hsome => ?_⟩
  · obtain ⟨s, hs, hid, hsx⟩ := (h.shown x hx).among
    obtain ⟨g, hg, hgs⟩ := (hmerged s hid).mp hs
    obtain ⟨t, ht, htid, htx⟩ := ((mergeAll_shows hgs).shown x hsx).among
    exact ⟨t, List.mem_flatten.mpr ⟨g, hg, ht⟩, htid, htx⟩
  · obtain ⟨g, hg, hsg⟩ := List.mem_flatten.mp hs
    obtain ⟨s', hs'⟩ := hshown g hg s hsg hid
    obtain ⟨z, hz, -, hle⟩ := View.mergeAll_latest hs' hsg hid hy
    have hid' := mergeAll_id hs'
    exact (hle s hsg hid y hy).trans ((h.shown x hx).newest s' ((hmerged s' hid').mpr ⟨g, hg, hs'⟩) hid' z hz)
  · obtain ⟨g, hg, hsg⟩ := List.mem_flatten.mp hs
    obtain ⟨s', hs'⟩ := hshown g hg s hsg hid
    have hid' := mergeAll_id hs'
    exact h.any s' ((hmerged s' hid').mpr ⟨g, hg, hs'⟩) hid' ((mergeAll_shows hs').any s hsg hid hsome)

theorem ShowsNewest.unique (h : ShowsNewest V l i r) (h' : ShowsNewest V l i r')
    (hco : Coherent V.key {x | ∃ s ∈ l, s.id = i ∧ V.get s = some x}) : V.get r = V.get r' := by
  cases hx : V.get r with
  | none =>
    cases hy : V.get r' with
    | none => rfl
    | some y =>
      obtain ⟨s, hs, hid, hsy⟩ := (h'.shown y hy).among
      have hsome := h.any s hs hid (Option.isSome_of_eq_some hsy)
      rw [hx] at hsome
      cases hsome
  | some x =>
    have hfirst := h.shown x hx
    obtain ⟨s, hs, hid, hsx⟩ := hfirst.among
    obtain ⟨y, hy⟩ := Option.isSome_iff_exists.mp (h'.any s hs hid (Option.isSome_of_eq_some hsx))
    have hsecond := h'.shown y hy
    obtain ⟨t, ht, htid, hty⟩ := hsecond.among
    have hkey : V.key x = V.key y := le_antisymm (hsecond.newest s hs hid x hsx) (hfirst.newest t ht htid y hty)
    rw [hy, hco x hfirst.among y hsecond.among hkey]

end

/-! ## The merged record -/

section

variable {l l' : List Record} {i : Uuid} {r r' : Record}

/-- Every view of the record is a newest one. -/
def AllNewest (l : List Record) (i : Uuid) (r : Record) : Prop :=
  r.id = i ∧ ∀ {β κ : Type} [LinearOrder κ] (V : View β κ), ShowsNewest V l i r

theorem mergeAll_allNewest (h : (mergeAll l)[i]? = some r) : AllNewest l i r := ⟨mergeAll_id h, fun _ => mergeAll_shows h⟩

theorem AllNewest.unique (h : AllNewest l i r) (h' : AllNewest l i r') (hco : CoherentRecords {s | s ∈ l}) : r = r' := by
  have hself : ∀ {β : Type} (S : Set β), Coherent id S := fun S x _ y _ hxy => hxy
  refine Record.ext_views (h.1.trans h'.1.symm) ?_ (fun n => ?_) ?_ ?_ ?_
  · exact Option.some.inj ((h.2 View.kind).unique (h'.2 View.kind) (hself _))
  · refine (h.2 (View.field n)).unique (h'.2 (View.field n)) ?_
    rintro f ⟨s, hs, hid, hf⟩ g ⟨t, ht, htid, hg⟩ hfg
    exact hco.field s hs t ht (hid.trans htid.symm) n f g hf hg hfg
  · exact (h.2 View.deletedAt).unique (h'.2 View.deletedAt) (hself _)
  · refine Option.some.inj ((h.2 View.header).unique (h'.2 View.header) ?_)
    rintro _ ⟨s, hs, hid, ⟨rfl⟩⟩ _ ⟨t, ht, htid, ⟨rfl⟩⟩ hst
    exact hco.header s hs t ht (hid.trans htid.symm) hst
  · exact Option.some.inj ((h.2 View.modifiedAt).unique (h'.2 View.modifiedAt) (hself _))

theorem mergeAll_isSome : ((mergeAll l)[i]?).isSome = true ↔ ∃ s ∈ l, s.id = i := by
  rw [mergeAll_get, ← Option.ne_none_iff_isSome, ne_eq, foldl_addSnapshot_eq_none]
  simp

/-- The records of one id, merged: on every field the newest value, of the rest the greatest, and the author and
the share of the newest record. It is deleted if a tombstone is newer than every field of every record. -/
structure Merged (l : List Record) (i : Uuid) (r : Record) : Prop where
  id : r.id = i
  field : ∀ (n : String) (f : Field), r.fields[n]? = some f ↔ Newest (View.field n) l i f
  kind : IsGreatest {k | ∃ s ∈ l, s.id = i ∧ s.kind = k} r.kind
  deletedAt : ∀ t, r.deletedAt = some t ↔ Newest View.deletedAt l i t
  clock : IsGreatest {c | ∃ s ∈ l, s.id = i ∧ s.clock = c} r.clock
  modifiedAt : IsGreatest {m | ∃ s ∈ l, s.id = i ∧ s.modifiedAt = m} r.modifiedAt
  author : ∀ s ∈ l, s.id = i → s.clock = r.clock → s.deviceId = r.deviceId ∧ s.shareId = r.shareId
  deleted : r.isDeleted = true ↔ ∃ s ∈ l, s.id = i ∧ ∃ t, s.deletedAt = some t ∧
    ∀ s' ∈ l, s'.id = i → ∀ (n : String) (f : Field), s'.fields[n]? = some f → f.clock < t

theorem ShowsNewest.iff {β κ : Type} [LinearOrder κ] {V : View β κ} {x : β} (h : ShowsNewest V l i r)
    (hco : Coherent V.key {x | ∃ s ∈ l, s.id = i ∧ V.get s = some x}) : V.get r = some x ↔ Newest V l i x := by
  refine ⟨h.shown x, fun hx => ?_⟩
  obtain ⟨s, hs, hid, hsx⟩ := hx.among
  obtain ⟨y, hy⟩ := Option.isSome_iff_exists.mp (h.any s hs hid (Option.isSome_of_eq_some hsx))
  have hnew := h.shown y hy
  obtain ⟨t, ht, htid, hty⟩ := hnew.among
  have hkey : V.key x = V.key y := le_antisymm (hnew.newest s hs hid x hsx) (hx.newest t ht htid y hty)
  rw [hy, hco x hx.among y hnew.among hkey]

theorem ShowsNewest.greatest {κ : Type} [LinearOrder κ] {V : View κ κ} {get : Record → κ} (h : ShowsNewest V l i r)
    (hget : ∀ s, V.get s = some (get s)) (hkey : ∀ x, V.key x = x) :
    IsGreatest {x | ∃ s ∈ l, s.id = i ∧ get s = x} (get r) := by
  obtain ⟨⟨s, hs, hid, hsx⟩, hmax⟩ := h.shown (get r) (hget r)
  refine ⟨⟨s, hs, hid, Option.some.inj ((hget s).symm.trans hsx)⟩, ?_⟩
  rintro x ⟨t, ht, htid, rfl⟩
  have hle := hmax t ht htid (get t) (hget t)
  rwa [hkey, hkey] at hle

theorem AllNewest.merged (h : AllNewest l i r) (hco : CoherentRecords {s | s ∈ l}) : Merged l i r := by
  have hself : ∀ {β : Type} (S : Set β), Coherent id S := fun S x _ y _ hxy => hxy
  have hfield : ∀ n, Coherent (View.field n).key {f | ∃ s ∈ l, s.id = i ∧ (View.field n).get s = some f} := by
    rintro n f ⟨s, hs, hid, hf⟩ g ⟨t, ht, htid, hg⟩ hfg
    exact hco.field s hs t ht (hid.trans htid.symm) n f g hf hg hfg
  -- Clock, author and share come from one record, as a whole.
  obtain ⟨⟨s₀, hs₀, hid₀, hhead₀⟩, hmax⟩ := (h.2 View.header).shown r.header rfl
  have hclock₀ : s₀.clock = r.clock := congrArg Prod.fst (Option.some.inj hhead₀)
  refine
    { id := h.1
      field := fun n f => (h.2 (View.field n)).iff (hfield n)
      kind := (h.2 View.kind).greatest (fun _ => rfl) fun _ => rfl
      deletedAt := fun t => (h.2 View.deletedAt).iff (hself _)
      clock := ⟨⟨s₀, hs₀, hid₀, hclock₀⟩, ?_⟩
      modifiedAt := (h.2 View.modifiedAt).greatest (fun _ => rfl) fun _ => rfl
      author := fun s hs hid hclock => ?_
      deleted := ?_ }
  · rintro c ⟨s, hs, hid, rfl⟩
    exact hmax s hs hid s.header rfl
  · have hhead : s.header = s₀.header := hco.header s hs s₀ hs₀ (hid.trans hid₀.symm) (hclock.trans hclock₀.symm)
    have hrest := hhead.trans (Option.some.inj hhead₀)
    exact ⟨congrArg (fun p => p.2.1) hrest, congrArg (fun p => p.2.2) hrest⟩
  · -- The merged tombstone and fields are the newest, so comparing these compares all.
    rw [Record.isDeleted_iff]
    constructor
    · rintro ⟨t, ht, hall⟩
      obtain ⟨s, hs, hid, hst⟩ := ((h.2 View.deletedAt).shown t ht).among
      refine ⟨s, hs, hid, t, hst, fun s' hs' hid' n f hf => ?_⟩
      obtain ⟨g, hg⟩ := Option.isSome_iff_exists.mp ((h.2 (View.field n)).any s' hs' hid' (Option.isSome_of_eq_some hf))
      exact (((h.2 (View.field n)).shown g hg).newest s' hs' hid' f hf).trans_lt (hall n g hg)
    · rintro ⟨s, hs, hid, t, hst, hall⟩
      obtain ⟨t', ht'⟩ := Option.isSome_iff_exists.mp ((h.2 View.deletedAt).any s hs hid (Option.isSome_of_eq_some hst))
      have hle : t ≤ t' := ((h.2 View.deletedAt).shown t' ht').newest s hs hid t hst
      refine ⟨t', ht', fun n f hf => ?_⟩
      obtain ⟨s', hs', hid', hsf⟩ := ((h.2 (View.field n)).shown f hf).among
      exact (hall s' hs' hid' n f hsf).trans_le hle

/-- Merging groups first, and then what they give, in any order, is merging all. -/
theorem mergeAll_regroup {groups : List (List Record)} (ord : HashOrder) (hco : CoherentRecords {s | s ∈ groups.flatten}) :
    mergeAll (groups.flatMap fun g => ord.order ((mergeAll g).toList.map (·.2))) = mergeAll groups.flatten := by
  have hmerged : ∀ i s, s.id = i → (s ∈ groups.flatMap (fun g => ord.order ((mergeAll g).toList.map (·.2))) ↔
      ∃ g ∈ groups, (mergeAll g)[i]? = some s) := by
    rintro i s rfl
    rw [List.mem_flatMap]
    refine exists_congr fun g => and_congr_right fun _ => ?_
    rw [(ord.perm _).mem_iff, List.mem_map]
    constructor
    · rintro ⟨⟨j, s'⟩, hmem, rfl⟩
      have hj := Std.ExtTreeMap.mem_toList_iff_getElem?_eq_some.mp hmem
      rwa [mergeAll_id hj]
    · exact fun hs => ⟨(s.id, s), Std.ExtTreeMap.mem_toList_iff_getElem?_eq_some.mpr hs, rfl⟩
  have hshown : ∀ i, ∀ g ∈ groups, ∀ s ∈ g, s.id = i → ∃ s', (mergeAll g)[i]? = some s' :=
    fun i g _ s hs hid => Option.isSome_iff_exists.mp (mergeAll_isSome.mpr ⟨s, hs, hid⟩)
  have hall : ∀ i r, (mergeAll (groups.flatMap fun g => ord.order ((mergeAll g).toList.map (·.2))))[i]? = some r →
      AllNewest groups.flatten i r := fun i r hr =>
    ⟨mergeAll_id hr, fun V => (mergeAll_shows hr).regroup (hmerged i) (hshown i)⟩
  -- Both sides show what is newest among all, and that is one record.
  apply Std.ExtTreeMap.ext_getElem?
  intro i
  cases hr : (mergeAll (groups.flatMap fun g => ord.order ((mergeAll g).toList.map (·.2))))[i]? with
  | none =>
    cases hr' : (mergeAll groups.flatten)[i]? with
    | none => rfl
    | some r' =>
      obtain ⟨s, hs, hid⟩ := mergeAll_isSome.mp (Option.isSome_of_eq_some hr')
      obtain ⟨g, hg, hsg⟩ := List.mem_flatten.mp hs
      obtain ⟨s', hs'⟩ := hshown i g hg s hsg hid
      have hid' := mergeAll_id hs'
      have hsome := mergeAll_isSome.mpr ⟨s', (hmerged i s' hid').mpr ⟨g, hg, hs'⟩, hid'⟩
      rw [hr] at hsome
      cases hsome
  | some r =>
    obtain ⟨s, hs, hid⟩ := ((hall i r hr).2 View.header).shown r.header rfl |>.among
    obtain ⟨r', hr'⟩ := Option.isSome_iff_exists.mp (mergeAll_isSome.mpr ⟨s, hs, hid.1⟩)
    rw [hr', (hall i r hr).unique (mergeAll_allNewest hr') hco]

/-- **What merging computes**, whatever the order, the repetitions and the groups. -/
theorem mergeAll_spec {l : List Record} (hco : CoherentRecords {s | s ∈ l}) :
    (∀ i, ((mergeAll l)[i]?).isSome = true ↔ ∃ s ∈ l, s.id = i) ∧
      (∀ i r, (mergeAll l)[i]? = some r → Merged l i r) ∧
      (∀ l' : List Record, (∀ s, s ∈ l' ↔ s ∈ l) → mergeAll l' = mergeAll l) ∧
      ∀ (groups : List (List Record)) (ord : HashOrder), (∀ s, s ∈ groups.flatten ↔ s ∈ l) →
        mergeAll (groups.flatMap fun g => ord.order ((mergeAll g).toList.map (·.2))) = mergeAll l := by
  refine ⟨fun i => mergeAll_isSome, fun i r hr => (mergeAll_allNewest hr).merged hco, fun l' hmem => ?_,
    fun groups ord hmem => ?_⟩
  · exact mergeAll_congr hmem (hco.mono fun s hs => (hmem s).mp hs)
  · have hco' : CoherentRecords {s | s ∈ groups.flatten} := hco.mono fun s hs => (hmem s).mp hs
    exact (mergeAll_regroup ord hco').trans (mergeAll_congr hmem hco')

end

/-! ## A late tombstone -/

namespace LateTombstone

theorem coherent_of_stamps {l : List Record}
    (hstamp : ∀ s ∈ l, ∀ (n : String) (f : Field), s.fields[n]? = some f → f.clock = s.clock)
    (hown : ∀ s ∈ l, ∀ t ∈ l, s.clock = t.clock → s = t) : CoherentRecords {s | s ∈ l} where
  field s hs t ht _ n f g hf hg hfg := by
    obtain rfl := hown s hs t ht ((hstamp s hs n f hf).symm.trans (hfg.trans (hstamp t ht n g hg)))
    exact Option.some.inj (hf.symm.trans hg)
  header s hs t ht _ hclock := by rw [hown s hs t ht hclock]

def written (value : String) (c : Clock) : Record :=
  { id := 20, kind := .snippet, fields := (∅ : FieldMap).insert "command" ⟨.str (.plain value), c⟩, deletedAt := none
    clock := c, deviceId := c.device, modifiedAt := 0, shareId := nil }

def buried (c : Clock) : Record :=
  { id := 20, kind := .tombstone, fields := ∅, deletedAt := some c, clock := c, deviceId := c.device, modifiedAt := 0
    shareId := nil }

/-- A deletion that comes in before the writes it follows. -/
def entries : List Record := [buried ⟨3, 9⟩, written "ls" ⟨1, 9⟩, written "ls -l" ⟨2, 8⟩]

theorem entries_coherent : CoherentRecords {s | s ∈ entries} := by
  refine coherent_of_stamps (fun s hs n f hf => ?_) (by decide +kernel)
  have hwritten : ∀ value c, (written value c).fields[n]? = some f → f.clock = c := by
    intro value c hf
    change ((∅ : FieldMap).insert "command" _)[n]? = _ at hf
    rw [Std.ExtTreeMap.getElem?_insert] at hf
    split at hf
    · rw [← Option.some.inj hf]
    · simp at hf
  rcases List.mem_cons.mp hs with rfl | hs
  · simp [buried] at hf
  · rcases List.mem_cons.mp hs with rfl | hs
    · exact hwritten _ _ hf
    · obtain rfl := List.mem_singleton.mp hs
      exact hwritten _ _ hf

theorem mergeAll_spec_buried : ∃ r, (mergeAll entries)[(20 : Uuid)]? = some r ∧ Merged entries 20 r := by
  obtain ⟨hsome, hmerged, -⟩ := mergeAll_spec entries_coherent
  obtain ⟨r, hr⟩ := Option.isSome_iff_exists.mp ((hsome 20).mpr ⟨_, List.mem_cons_self, rfl⟩)
  exact ⟨r, hr, hmerged 20 r hr⟩

end LateTombstone

end SshVault
