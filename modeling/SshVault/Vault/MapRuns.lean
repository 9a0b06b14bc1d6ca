import SshVault.Vault.Calls

/-!
# Runs of local calls

A vault directory that one process uses at a time answers every call as the map does.
-/

open Lib

namespace SshVault

namespace Vault

variable {drawn : List Uuid} {n : Nat} {m : KeyedMap} {v : Vault} {d : Disk}

/-! ## Whole runs -/

/-- The vault holds what the map holds: the live records are its entries, one record to each, and `list` gives
the entries of a kind. -/
structure HoldsMap (calls : List MapCall) (v : Vault) (m : KeyedMap) : Prop where
  entries : Keyed Record.key Record.values (fun i : Uuid => v.state[i]?) m
  live : ∀ (i : Uuid) (r : Record), v.state[i]? = some r → live r = true → r.key.isSome = true
  list : ∀ (ord : HashOrder) (T : PayloadType), (∀ c ∈ calls, c.Carries T) →
    ∃ names : List String, names.Nodup ∧ (∀ name, name ∈ names ↔ (m (T.kind, name)).isSome = true) ∧
      ((v.list ord T.kind T.read).map fun e => some e.2).Perm (names.map fun name => (m (T.kind, name)).bind T.ofPayload)

/-- The calls were answered as the map answers them, and the open vault holds the map they leave. -/
def Refines (cs : Answered) (s : Site) : Prop :=
  cs.map (·.2) = (KeyedMap.play cs.calls).1 ∧
    ∃ v, s.vault = some v ∧ HoldsMap cs.calls v (KeyedMap.play cs.calls).2

theorem Shelved.records_nodup (h : Shelved drawn m v) (ord : HashOrder) :
    (ord.order (v.state.toList.map (·.2))).Nodup := by
  rw [(ord.perm _).nodup_iff]
  refine List.Nodup.of_map Record.id ?_
  rw [List.map_map, List.nodup_iff_pairwise_ne, List.pairwise_map]
  refine List.Pairwise.imp_of_mem ?_ Std.ExtTreeMap.distinct_keys_toList
  rintro ⟨i, r⟩ ⟨j, s⟩ hr hs hne heq
  have hi := h.id i r (Std.ExtTreeMap.mem_toList_iff_getElem?_eq_some.mp hr)
  have hj := h.id j s (Std.ExtTreeMap.mem_toList_iff_getElem?_eq_some.mp hs)
  refine hne ?_
  obtain rfl : i = j := hi.symm.trans (heq.trans hj)
  exact Std.ReflCmp.compare_self

theorem Shelved.list (h : Shelved drawn m v) (ord : HashOrder) (kind : Kind) {α : Type} (read : Payload → Option α)
    (hreads : ∀ name p, m (kind, name) = some p → (read p).isSome = true) :
    ∃ names : List String, names.Nodup ∧ (∀ name, name ∈ names ↔ (m (kind, name)).isSome = true) ∧
      ((v.list ord kind fun r => read r.values).map fun e => some e.2).Perm
        (names.map fun name => (m (kind, name)).bind read) := by
  let records := (ord.order (v.state.toList.map (·.2))).filter fun r => live r ∧ r.kind = kind
  have hmem : ∀ r, r ∈ records ↔ v.state[r.id]? = some r ∧ ∃ name, r.key = some (kind, name) := by
    intro r
    rw [List.mem_filter, (ord.perm _).mem_iff, decide_eq_true_eq]
    constructor
    · rintro ⟨hr, hlive, hkind⟩
      obtain ⟨⟨i, r'⟩, hir, rfl⟩ := List.mem_map.mp hr
      have hir' := Std.ExtTreeMap.mem_toList_iff_getElem?_eq_some.mp hir
      obtain ⟨⟨kind', name⟩, hkey⟩ := Option.isSome_iff_exists.mp (h.named i r' hir' hlive)
      obtain rfl : kind' = kind := (Record.key_eq_some.mp hkey).2.1.symm.trans hkind
      exact ⟨(h.id i r' hir').symm ▸ hir', name, hkey⟩
    · rintro ⟨hr, name, hkey⟩
      obtain ⟨hlive, hkind, -⟩ := Record.key_eq_some.mp hkey
      exact ⟨List.mem_map.mpr ⟨(r.id, r), Std.ExtTreeMap.mem_toList_iff_getElem?_eq_some.mpr hr, rfl⟩, hlive, hkind⟩
  have hentry : ∀ r ∈ records, ∀ name, r.key = some (kind, name) → m (kind, name) = some r.values :=
    fun r hr name hkey => h.keyed.entry _ _ _ ((hmem r).mp hr).1 hkey
  have hnodup : records.Nodup := (h.records_nodup ord).filter _
  refine ⟨records.filterMap fun r => r.key.map (·.2), ?_, fun name => ?_, ?_⟩
  · rw [List.nodup_iff_pairwise_ne, List.pairwise_filterMap]
    refine List.Pairwise.imp_of_mem ?_ (List.nodup_iff_pairwise_ne.mp hnodup)
    rintro r s hr hs hne b hb b' hb' rfl
    obtain ⟨hrs, name, hkey⟩ := (hmem r).mp hr
    obtain ⟨hss, name', hkey'⟩ := (hmem s).mp hs
    rw [hkey] at hb
    rw [hkey'] at hb'
    obtain rfl : name = name' := Option.some.inj (hb.trans hb'.symm)
    -- Two records with one name are one.
    have hid := h.keyed.unique _ _ r s _ hrs hss hkey hkey'
    exact hne (Option.some.inj (hrs.symm.trans (hid ▸ hss)))
  · rw [List.mem_filterMap]
    constructor
    · rintro ⟨r, hr, hname⟩
      obtain ⟨-, name', hkey⟩ := (hmem r).mp hr
      rw [hkey] at hname
      obtain rfl : name' = name := Option.some.inj hname
      exact Option.isSome_of_eq_some (hentry r hr _ hkey)
    · intro hsome
      obtain ⟨p, hp⟩ := Option.isSome_iff_exists.mp hsome
      obtain ⟨i, r, hr, hkey, -⟩ := h.keyed.found _ _ hp
      have hid := h.id i r hr
      exact ⟨r, (hmem r).mpr ⟨hid.symm ▸ hr, name, hkey⟩, by rw [hkey]; rfl⟩
  · have hmap : records.map (fun r => read r.values) = records.filterMap fun r => some (read r.values) :=
      (congrFun List.filterMap_eq_map records).symm
    have hleft : ((v.list ord kind fun r => read r.values).map fun e => some e.2).Perm
        (records.map fun r => read r.values) := by
      unfold Vault.list
      refine ((List.perm_insertionSort _ _).map _).trans (List.Perm.of_eq ?_)
      rw [List.map_filterMap, hmap]
      refine List.filterMap_congr fun r hr => ?_
      obtain ⟨-, name, hkey⟩ := (hmem r).mp hr
      obtain ⟨x, hx⟩ := Option.isSome_iff_exists.mp (hreads name _ (hentry r hr name hkey))
      simp [hx]
    refine hleft.trans (List.Perm.of_eq ?_)
    rw [List.map_filterMap, hmap]
    refine List.filterMap_congr fun r hr => ?_
    obtain ⟨-, name, hkey⟩ := (hmem r).mp hr
    rw [hkey]
    simp [hentry r hr name hkey]

theorem Answered.calls_snoc (cs : Answered) (w : Write) (a : Except VaultError Unit) :
    Answered.calls (cs ++ [(w, a)]) = cs.calls ++ [w.call] := List.map_append

theorem Answered.drawn_snoc (cs : Answered) (w : Write) (a : Except VaultError Unit) :
    Answered.drawn (cs ++ [(w, a)]) = cs.drawn ++ w.drawn.toList := by
  unfold Answered.drawn
  rw [List.filterMap_append]
  cases hw : w.drawn <;> simp [hw]

theorem created_local (deviceName : String) (vaultId : Uuid) (vaultKey : Key) (recoveryPub : Bytes) (x : XKey) (ed : EdKey)
    (deviceId : Uuid) : ∃ v, (created deviceName vaultId vaultKey recoveryPub x ed deviceId).vault = some v ∧
      Local [] 0 (fun _ => none) v (created deviceName vaultId vaultKey recoveryPub x ed deviceId).disk := by
  refine ⟨_, rfl,
    { sound := (created_ok deviceName vaultId vaultKey recoveryPub x ed deviceId).disk
      keyring := rfl
      metadata := rfl
      lamport := rfl
      opens := fun f hf => nomatch hf
      state := rfl
      held := fun share hs => ?_
      ids := fun i r hr => by simp at hr
      tame := fun i r hr => by simp at hr
      keyed := Keyed.empty.congr fun i => by simp }⟩
  by_cases hshare : nil = share
  · subst hshare
    rfl
  · simp [Keyring.hasShare, Keyring.share, hshare, created, createWithKeys] at hs

theorem LocalRun.local {s₀ s : Site} {cs : Answered} (h : LocalRun s₀ cs s) {v₀ : Vault} (hv₀ : s₀.vault = some v₀)
    (h₀ : Local [] 0 (fun _ => none) v₀ s₀.disk) (hroom : KeyedMap.accepted cs.calls < 2 ^ 64) :
    cs.map (·.2) = (KeyedMap.play cs.calls).1 ∧ ∃ v, s.vault = some v ∧
      Local cs.drawn (KeyedMap.accepted cs.calls) (KeyedMap.play cs.calls).2 v s.disk := by
  induction h with
  | start => exact ⟨rfl, v₀, hv₀, h₀⟩
  | @call cs s v w h hv hw ih =>
    rw [Answered.calls_snoc, KeyedMap.accepted_snoc] at hroom
    have hbefore : KeyedMap.accepted cs.calls < 2 ^ 64 := by
      split at hroom <;> omega
    obtain ⟨hanswers, v', hv', hlocal⟩ := ih hbefore
    obtain rfl : v' = v := Option.some.inj (hv'.symm.trans hv)
    obtain ⟨hanswer, hnext⟩ := hlocal.call hw fun hok => by
      rw [if_pos hok] at hroom
      exact hroom
    rw [Answered.calls_snoc, Answered.drawn_snoc, KeyedMap.accepted_snoc, KeyedMap.play_snoc, List.map_append, hanswers]
    refine ⟨by rw [List.map_singleton, hanswer], ((w.prog v').run s.disk).1.2, ?_, ?_⟩
    · unfold Site.next
      rw [hv]
      simp only [Action.prog, Prog.run_bind, Prog.run_pure]
    · unfold Site.next
      rw [hv]
      simp only [Action.prog, Prog.run_bind, Prog.run_pure]
      exact hnext
  | @other cs s a h ha ih =>
    obtain ⟨hanswers, v, hv, hlocal⟩ := ih hroom
    obtain ⟨d, vault⟩ := s
    obtain rfl : vault = some v := hv
    obtain ⟨v', d', hnext, hlocal'⟩ := hlocal.maintains ha
    exact ⟨hanswers, v', by rw [hnext], by rw [hnext]; exact hlocal'⟩

/-- **A vault is a keyed map**, until its counter runs out. -/
theorem refines_map (deviceName : String) (vaultId : Uuid) (vaultKey : Key) (recoveryPub : Bytes) (x : XKey) (ed : EdKey)
    (deviceId : Uuid) {cs : Answered} {s : Site}
    (h : LocalRun (created deviceName vaultId vaultKey recoveryPub x ed deviceId) cs s)
    (hroom : KeyedMap.accepted cs.calls < 2 ^ 64) : Refines cs s := by
  obtain ⟨v₀, hv₀, h₀⟩ := created_local deviceName vaultId vaultKey recoveryPub x ed deviceId
  obtain ⟨hanswers, v, hv, hlocal⟩ := h.local hv₀ h₀ hroom
  refine ⟨hanswers, v, hv, hlocal.keyed, fun i r hr => (hlocal.tame i r hr).named, ?_⟩
  intro ord T hcarries
  have hread : T.read = fun r => T.ofPayload r.values := funext fun r => PayloadType.read_eq_ofPayload r.values_get
  rw [hread]
  exact hlocal.shelved.list ord T.kind T.ofPayload fun name p hp => PayloadType.ofPayload_isSome (KeyedMap.reads hcarries hp)

namespace Desk

def desk : Site := created "desk" 7 (.vault 1 0) (.ed (.recovery 1)) 0 (.device 0) 10

def anyOrder : HashOrder := ⟨fun l => l, .refl⟩

def web : Payload := (∅ : Payload).insert "alias" (.str (.plain "web"))
def dialled : Payload := web.insert "hostname" (.str (.plain "web.lan"))

def addWeb : Write := .addIn anyOrder .host "alias" "web" web nil 20 30 0
def dialWeb : Write := .edit anyOrder .host "alias" "web" dialled 31 0

theorem web_names : Names .host "web" web := ⟨by decide, by decide +kernel, by decide +kernel⟩

def opened : Vault := desk.vault.get rfl

/-- A new process after the add. -/
def reopened : Site := (desk.next (.write addWeb)).next .reopen

def reopenedVault : Vault := reopened.vault.get (by decide +kernel)

def answered : Answered :=
  [(addWeb, ((addWeb.prog opened).run desk.disk).1.1), (dialWeb, ((dialWeb.prog reopenedVault).run reopened.disk).1.1)]

theorem answered_run : LocalRun desk answered (reopened.next (.write dialWeb)) := by
  have hadded : LocalRun desk _ (desk.next (.write addWeb)) :=
    .call (v := opened) .start rfl ⟨rfl, web_names, rfl, List.not_mem_nil⟩
  have hreopened : LocalRun desk _ reopened := .other hadded trivial
  exact .call hreopened (Option.some_get _).symm ⟨rfl, by decide, by decide +kernel, by decide +kernel⟩

theorem refines_map_reopened : Refines answered (reopened.next (.write dialWeb)) :=
  refines_map "desk" 7 (.vault 1 0) (.ed (.recovery 1)) 0 (.device 0) 10 answered_run (by decide +kernel)

end Desk

end Vault
end SshVault
