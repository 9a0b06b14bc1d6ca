import SshVault.Vault.Machine

/-!
# Several handles on one directory

The daemon and every command open the same directory, each with a `Vault` of its own. Their file reads
and writes interleave. A handle reads the keyring when it is opened and writes it as a whole, from memory.
-/

open Lib

namespace SshVault.Vault

/-! ## Handles -/

/-- The operations that read or write the keyring, and `reload`. -/
def Action.OnKeys : Action → Prop
  | .rotate _ | .createShare _ _ | .rotateShare _ _ | .absorbShareKey _ _ | .reload | .reopen => True
  | _ => False

/-- A process: the vault it has in memory, and the rest of the operation it is in. -/
structure Handle where
  vault : Option Vault
  task : Option (Action × Prog Disk (Option Vault))

def Handle.closed : Handle := ⟨none, none⟩

structure Directory (ι : Type) where
  disk : Disk
  handle : ι → Handle

namespace Directory

variable {ι : Type} [DecidableEq ι]

/-- What handle `i` does next: begin an operation, take one of its steps on the files, or end it. -/
inductive Step (i : ι) (c : Directory ι) : Directory ι → Prop
  | opens (h : c.handle i = .closed) :
    Step i c ⟨c.disk, Function.update c.handle i ⟨none, some (.reopen, do return (← openVault).toOption)⟩⟩
  | starts {v : Vault} {a : Action} (h : c.handle i = ⟨some v, none⟩) (ha : a.OnKeys) :
    Step i c ⟨c.disk, Function.update c.handle i ⟨some v, some (a, a.prog v)⟩⟩
  | acts {mem : Option Vault} {a : Action} {u : Disk → Disk} {k : Disk → Prog Disk (Option Vault)}
      (h : c.handle i = ⟨mem, some (a, .step u k)⟩) :
    Step i c ⟨u c.disk, Function.update c.handle i ⟨mem, some (a, k c.disk)⟩⟩
  | ends {mem v : Option Vault} {a : Action} (h : c.handle i = ⟨mem, some (a, .done v)⟩) :
    Step i c ⟨c.disk, Function.update c.handle i ⟨v, none⟩⟩

/-- Handles take any number of steps, each where `ok` allows it. -/
def RunWith (ok : Directory ι → ι → Prop) : Directory ι → Directory ι → Prop :=
  Relation.ReflTransGen fun c c' => ∃ i, Step i c c' ∧ ok c i

def Run : Directory ι → Directory ι → Prop := RunWith fun _ _ => True

/-- The keys of a share that `open` would find in the file. -/
def stored (d : Disk) (share : Uuid) : List Key := d.keyring.normalize.keysOf share

/-- If handle `i` is about to write the keyring, then its memory has every key of the file, and a key-list
that it takes in has every key it holds for that share. -/
def Careful (c : Directory ι) (i : ι) : Prop :=
  ∀ (v : Vault) (a : Action) (u : Disk → Disk) (k : Disk → Prog Disk (Option Vault)),
    c.handle i = ⟨some v, some (a, .step u k)⟩ → (u c.disk).keyring ≠ c.disk.keyring →
      (∀ share, stored c.disk share ⊆ v.keyring.keysOf share) ∧
        ∀ share list keys, a = .absorbShareKey share list → splitKeyList list = .ok keys → v.keyring.keysOf share ⊆ keys

def CarefulRun : Directory ι → Directory ι → Prop := RunWith Careful

end Directory

/-! ## What the steps of an operation write -/

/-- A keyring that the operation writes. -/
inductive Writes (v : Vault) : Action → Keyring → Prop
  | rotate (phrase : Phrase) (key : Key) : Writes v (.rotate phrase) (v.keyring.pushShareKey nil key)
  | createShare (id : Uuid) (n : Nat) (key : Key) : Writes v (.createShare id n) (v.keyring.pushShareKey id key)
  | rotateShare (share : Uuid) (n : Nat) (key : Key) :
    Writes v (.rotateShare share n) (v.keyring.pushShareKey share key)
  | absorb (share : Uuid) (list : KeyBytes) (keys : List Key) (hkeys : splitKeyList list = .ok keys) :
    Writes v (.absorbShareKey share list) (v.keyring.setShareKeys share keys)

/-- A step that leaves the keyring file alone. -/
def Quiet (d d' : Disk) : Prop := d'.keyring = d.keyring

/-- A step of operation `a` from memory `mem`. -/
def KeyStep (mem : Option Vault) (a : Action) (d d' : Disk) : Prop :=
  Quiet d d' ∨ ∃ v, mem = some v ∧ Writes v a d'.keyring

/-- No legacy fields. -/
def Migrated (kr : Keyring) : Prop := kr.vaultKeys = [] ∧ kr.vaultKey = none

theorem migrated_normalize (kr : Keyring) : Migrated kr.normalize := ⟨rfl, rfl⟩

theorem Migrated.push {kr : Keyring} (h : Migrated kr) (id : Uuid) (key : Key) : Migrated (kr.pushShareKey id key) := by
  unfold Keyring.pushShareKey
  split <;> exact h

theorem Migrated.set {kr : Keyring} (h : Migrated kr) (id : Uuid) (keys : List Key) : Migrated (kr.setShareKeys id keys) := by
  unfold Keyring.setShareKeys
  split <;> exact h

theorem Writes.migrated {v : Vault} {a : Action} {kr : Keyring} (h : Writes v a kr) (hv : Migrated v.keyring) :
    Migrated kr := by
  cases h with
  | rotate => exact hv.push _ _
  | createShare => exact hv.push _ _
  | rotateShare => exact hv.push _ _
  | absorb => exact hv.set _ _

section

variable {v : Vault}

theorem compact_keyring : v.compact.Ends fun r => r.2.keyring = v.keyring := by
  unfold compact
  refine Prog.Ends.bind (P := fun _ => True) (Prog.Ends.atom fun _ => trivial) fun frames _ => ?_
  split
  · rfl
  · dsimp only
    split
    · rfl
    · exact Prog.Ends.bind (P := fun _ => True) (Prog.Ends.atom fun _ => trivial) fun _ _ => rfl

theorem Cached.quiet (d d' : Disk) (h : Cached d d') : Quiet d d' := by
  obtain ⟨_, rfl⟩ := h
  rfl

theorem replayLog_quiet : v.replayLog.Each Quiet := (replayLog_cached v).mono Cached.quiet

theorem replayLog_keyring : v.replayLog.Ends fun r => r.2.keyring = v.keyring := by
  unfold replayLog
  refine Prog.Ends.bind (P := fun _ => True) (Prog.Ends.atom fun _ => trivial) fun frames _ => ?_
  refine Prog.Ends.bind (P := fun _ => True) (Prog.Ends.atom fun _ => trivial) fun snapshot _ => ?_
  split
  · rfl
  · split
    · exact Prog.Ends.bind compact_keyring fun r hr => hr
    · rfl

theorem open_quiet : (do return (← openVault).toOption : Prog Disk (Option Vault)).Each Quiet := open_cached.mono Cached.quiet

/-- What a vault in memory satisfies, if there is one. -/
def Ready (mem : Option Vault) : Prop := ∀ v, mem = some v → Migrated v.keyring

theorem open_ready : (do return (← openVault).toOption : Prog Disk (Option Vault)).Ends Ready := by
  have hopen : openVault.Ends fun r => ∀ v, r = .ok v → Migrated v.keyring := by
    unfold openVault
    refine Prog.Ends.bind (P := fun _ => True) (Prog.Ends.atom fun _ => trivial) fun metadata _ => ?_
    refine Prog.Ends.bind (P := fun _ => True) (Prog.Ends.atom fun _ => trivial) fun keyring _ => ?_
    refine Prog.Ends.bind replayLog_keyring fun r hr v hv => ?_
    obtain ⟨e | _, v'⟩ := r
    · cases hv
    · obtain rfl := Except.ok.inj hv
      rw [show v'.keyring = keyring.normalize from hr]
      exact migrated_normalize keyring
  refine Prog.Ends.bind hopen fun r hr v hv => ?_
  cases r with
  | error e => cases hv
  | ok v' =>
    obtain rfl : v' = v := Option.some.inj hv
    exact hr v' rfl

theorem prog_spec (hv : Migrated v.keyring) {a : Action} (ha : a.OnKeys) :
    (a.prog v).Each (KeyStep (some v) a) ∧ (a.prog v).Ends Ready := by
  have hself : ∀ m s, Ready (some (⟨m, v.keyring, s⟩ : Vault)) := by
    rintro m s _ ⟨rfl⟩
    exact hv
  -- One step writes the keyring, and the vault that comes back has it in memory.
  have hstore : ∀ {kr : Keyring}, Writes v a kr → ∀ d : Disk, KeyStep (some v) a d { d with keyring := kr } ∧
      Ready (some { v with keyring := kr }) := by
    intro kr hw d
    refine ⟨Or.inr ⟨v, rfl, hw⟩, ?_⟩
    rintro _ ⟨rfl⟩
    exact hw.migrated hv
  cases a with
  | rotate phrase =>
    simp only [Action.prog, rotate]
    split
    · exact ⟨trivial, hself _ _⟩
    · rename_i key hkey
      exact ⟨fun d => ⟨(hstore (.rotate phrase key) d).1, trivial⟩, fun d => (hstore (.rotate phrase key) d).2⟩
  | createShare id n =>
    have hw := Writes.createShare (v := v) id n (.random id (v.keyring.keysOf id).length n)
    exact ⟨fun d => ⟨(hstore hw d).1, trivial⟩, fun d => (hstore hw d).2⟩
  | rotateShare share n =>
    simp only [Action.prog, rotateShare]
    split
    · exact ⟨trivial, hself _ _⟩
    · have hw := Writes.rotateShare (v := v) share n (.random share (v.keyring.keysOf share).length n)
      exact ⟨fun d => ⟨(hstore hw d).1, trivial⟩, fun d => (hstore hw d).2⟩
  | absorbShareKey share list =>
    simp only [Action.prog, absorbShareKey]
    split
    · exact ⟨trivial, hself _ _⟩
    · rename_i keys hkeys
      split
      · exact ⟨trivial, hself _ _⟩
      · have hw := Writes.absorb (v := v) share list keys hkeys
        exact ⟨fun d => ⟨(hstore hw d).1, trivial⟩, fun d => (hstore hw d).2⟩
  | reload =>
    simp only [Action.prog, reload]
    refine ⟨?_, ?_⟩
    · refine Prog.Each.bind (Prog.Each.bind (Prog.Each.atom fun _ => Or.inl rfl) fun m => ?_) fun _ => trivial
      exact Prog.Each.mono replayLog_quiet fun _ _ h => Or.inl h
    · refine Prog.Ends.bind (P := fun r => r.2.keyring = v.keyring) ?_ ?_
      · exact Prog.Ends.bind (P := fun _ => True) (Prog.Ends.atom fun _ => trivial) fun m _ =>
          replayLog_keyring (v := { v with metadata := m })
      · rintro r hr _ ⟨rfl⟩
        rw [Migrated, hr]
        exact hv
  | reopen => exact ⟨Prog.Each.mono open_quiet fun _ _ h => Or.inl h, open_ready⟩
  | _ => exact absurd ha id

end

/-! ## Runs -/

namespace Directory

variable {ι : Type} [DecidableEq ι] {c c' : Directory ι} {i : ι}

/-- A handle whose memory is migrated, in an operation that goes on as `prog_spec` says. -/
structure Sound (h : Handle) : Prop where
  ready : Ready h.vault
  task : ∀ a p, h.task = some (a, p) → p.Each (KeyStep h.vault a) ∧ p.Ends Ready

theorem sound_closed : Sound .closed := ⟨(fun _ h => nomatch h), (fun _ _ h => nomatch h)⟩

theorem Step.sound (h : Step i c c') (hc : ∀ j, Sound (c.handle j)) : ∀ j, Sound (c'.handle j) := by
  have hupdate : ∀ h', Sound h' → ∀ j, Sound (Function.update c.handle i h' j) := by
    intro h' hh' j
    by_cases hj : j = i
    · subst hj
      rwa [Function.update_self]
    · rw [Function.update_of_ne hj]
      exact hc j
  have hi := hc i
  cases h with
  | opens h =>
    refine hupdate _ ⟨(fun _ h => nomatch h), ?_⟩
    rintro _ _ ⟨rfl⟩
    exact ⟨Prog.Each.mono open_quiet fun _ _ h => Or.inl h, open_ready⟩
  | @starts v a h ha =>
    rw [h] at hi
    refine hupdate _ ⟨hi.ready, ?_⟩
    rintro _ _ ⟨rfl⟩
    exact prog_spec (hi.ready v rfl) ha
  | @acts mem a u k h =>
    rw [h] at hi
    obtain ⟨heach, hends⟩ := hi.task a _ rfl
    refine hupdate _ ⟨hi.ready, ?_⟩
    rintro _ _ ⟨rfl⟩
    exact ⟨(heach c.disk).2, hends c.disk⟩
  | @ends mem v a h =>
    rw [h] at hi
    exact hupdate _ ⟨(hi.task a _ rfl).2, (fun _ _ h => nomatch h)⟩

theorem stored_of_migrated {d : Disk} (h : Migrated d.keyring) (share : Uuid) : stored d share = d.keyring.keysOf share := by
  unfold stored
  rw [Keyring.normalize_of_plain h.1 h.2]

theorem Writes.subset {v : Vault} {a : Action} {kr : Keyring} (hw : Writes v a kr)
    (habsorb : ∀ share list keys, a = .absorbShareKey share list → splitKeyList list = .ok keys →
      v.keyring.keysOf share ⊆ keys) (share : Uuid) : v.keyring.keysOf share ⊆ kr.keysOf share := by
  have hpush : ∀ id key, v.keyring.keysOf share ⊆ (v.keyring.pushShareKey id key).keysOf share := by
    intro id key k hk
    rw [Keyring.keysOf_pushShareKey]
    split
    · rename_i heq
      exact List.mem_append_left _ (heq ▸ hk)
    · exact hk
  cases hw with
  | rotate => exact hpush _ _
  | createShare => exact hpush _ _
  | rotateShare => exact hpush _ _
  | absorb id list keys hkeys =>
    intro k hk
    rw [Keyring.keysOf_setShareKeys]
    split
    · rename_i heq
      subst heq
      exact habsorb share list keys rfl hkeys hk
    · exact hk

theorem Step.keeps (h : Step i c c') (hc : ∀ j, Sound (c.handle j)) (hcare : Careful c i) (share : Uuid) :
    stored c.disk share ⊆ stored c'.disk share := by
  have hi := hc i
  cases h with
  | opens h => exact List.Subset.refl _
  | starts h ha => exact List.Subset.refl _
  | @acts mem a u k h =>
    rw [h] at hi
    rcases ((hi.task a _ rfl).1 c.disk).1 with hquiet | ⟨v, rfl, hw⟩
    · unfold stored
      rw [show (u c.disk).keyring = c.disk.keyring from hquiet]
      exact List.Subset.refl _
    · by_cases hsame : (u c.disk).keyring = c.disk.keyring
      · unfold stored
        rw [hsame]
        exact List.Subset.refl _
      · obtain ⟨hfile, habsorb⟩ := hcare v a u k h hsame
        rw [stored_of_migrated (d := u c.disk) (hw.migrated (hi.ready v rfl))]
        exact fun key hkey => Writes.subset hw habsorb share (hfile share hkey)
  | ends h => exact List.Subset.refl _

theorem CarefulRun.sound (h : CarefulRun c c') (hc : ∀ j, Sound (c.handle j)) : ∀ j, Sound (c'.handle j) := by
  induction h with
  | refl => exact hc
  | tail _ hstep ih =>
    obtain ⟨i, hstep, -⟩ := hstep
    exact hstep.sound ih

/-- **Keys stay.** Handles that only write a keyring which has the keys of the file lose none of them: what
was stored at some time is stored at every later time. -/
theorem stored_stays {c₀ c c' : Directory ι} (hclosed : ∀ i, c₀.handle i = .closed) (hreach : CarefulRun c₀ c)
    (hrun : CarefulRun c c') (share : Uuid) : ∀ k ∈ stored c.disk share, k ∈ stored c'.disk share := by
  have hc : ∀ j, Sound (c.handle j) := hreach.sound fun j => hclosed j ▸ sound_closed
  induction hrun with
  | refl => exact fun k hk => hk
  | tail hprev hstep ih =>
    obtain ⟨i, hstep, hcare⟩ := hstep
    intro k hk
    exact hstep.keeps (CarefulRun.sound hprev hc) hcare share (ih k hk)

/-! ## Two handles -/

/-- An operation can run to its end. `S` is what is left of it at each step. -/
theorem runWith_task (ok : Directory ι → ι → Prop) {S : Prog Disk (Option Vault) → Prop}
    (hS : ∀ u k, S (.step u k) → ∀ d, S (k d))
    (hok : ∀ (c : Directory ι) mem a p, c.handle i = ⟨mem, some (a, p)⟩ → S p → ok c i)
    {mem : Option Vault} {a : Action} {p : Prog Disk (Option Vault)} (hp : S p) (h : c.handle i = ⟨mem, some (a, p)⟩) :
    RunWith ok c ⟨(p.run c.disk).2, Function.update c.handle i ⟨(p.run c.disk).1, none⟩⟩ := by
  induction p generalizing c with
  | done v => exact .single ⟨i, .ends h, hok c mem a _ h hp⟩
  | step u k ih =>
    have hnext := ih c.disk (c := ⟨u c.disk, Function.update c.handle i ⟨mem, some (a, k c.disk)⟩⟩) (hS u k hp c.disk)
      (Function.update_self ..)
    rw [Function.update_idem] at hnext
    exact .head ⟨i, .acts h, hok c mem a _ h hp⟩ hnext

/-- Handle `i` opens the vault. -/
def opened (i : ι) (c : Directory ι) : Directory ι :=
  let p : Prog Disk (Option Vault) := do return (← openVault).toOption
  ⟨(p.run c.disk).2, Function.update c.handle i ⟨(p.run c.disk).1, none⟩⟩

/-- Handle `i` does an operation, if it has a vault. -/
def does (i : ι) (a : Action) (c : Directory ι) : Directory ι :=
  match (c.handle i).vault with
  | some v => ⟨((a.prog v).run c.disk).2, Function.update c.handle i ⟨((a.prog v).run c.disk).1, none⟩⟩
  | none => c

theorem carefulRun_opened (h : c.handle i = .closed) : CarefulRun c (opened i c) := by
  refine .head ⟨i, .opens h, fun v a u k h' => ?_⟩ ?_
  · rw [h] at h'
    cases h'
  · have := runWith_task Careful (S := Prog.Each Quiet) (i := i)
      (c := ⟨c.disk, Function.update c.handle i ⟨none, some (.reopen, do return (← openVault).toOption)⟩⟩)
      (fun u k hp d => (hp d).2) ?_ open_quiet (Function.update_self ..)
    · rwa [Function.update_idem] at this
    · intro c mem a p hc hp v a' u k hc' hne
      obtain ⟨-, ht⟩ := Handle.mk.inj (hc.symm.trans hc')
      obtain ⟨-, rfl⟩ := Prod.mk.inj (Option.some.inj ht)
      exact absurd (hp c.disk).1 hne

theorem run_does {a : Action} (ha : a.OnKeys) (h : (c.handle i).task = none) : Run c (does i a c) := by
  unfold does
  split
  · rename_i v hv
    have hidle : c.handle i = ⟨some v, none⟩ := by
      rw [← hv, ← h]
    have := runWith_task (fun _ _ => True) (S := fun _ => True) (i := i)
      (c := ⟨c.disk, Function.update c.handle i ⟨some v, some (a, a.prog v)⟩⟩) (fun _ _ _ _ => trivial)
      (fun _ _ _ _ _ _ => trivial) trivial (Function.update_self ..)
    rw [Function.update_idem] at this
    exact .head ⟨i, .starts hidle ha, trivial⟩ this
  · exact .refl

theorem CarefulRun.run (h : CarefulRun c c') : Run c c' := by
  induction h with
  | refl => exact .refl
  | tail _ hstep ih =>
    obtain ⟨i, hstep, -⟩ := hstep
    exact ih.tail ⟨i, hstep, trivial⟩

theorem carefulRun_createShare {v : Vault} (h : c.handle i = ⟨some v, none⟩)
    (hmem : ∀ share, stored c.disk share ⊆ v.keyring.keysOf share) (id : Uuid) (n : Nat) :
    CarefulRun c (does i (.createShare id n) c) := by
  let p := (Action.createShare id n).prog v
  let started : Directory ι := ⟨c.disk, Function.update c.handle i ⟨some v, some (.createShare id n, p)⟩⟩
  let written : Directory ι := ⟨(p.run c.disk).2,
    Function.update started.handle i ⟨some v, some (.createShare id n, .done (p.run c.disk).1)⟩⟩
  have hstarts : Step i c started := .starts h trivial
  have hacts : Step i started written :=
    .acts (u := fun d => { d with keyring := v.nextRandom id n })
      (k := fun _ => .done (some { v with keyring := v.nextRandom id n })) (Function.update_self ..)
  have hends : Step i written ⟨written.disk, Function.update written.handle i ⟨(p.run c.disk).1, none⟩⟩ :=
    .ends (Function.update_self ..)
  have hdoes : does i (.createShare id n) c =
      ⟨written.disk, Function.update written.handle i ⟨(p.run c.disk).1, none⟩⟩ := by
    unfold does
    rw [h, Function.update_idem, Function.update_idem]
  have hidle : Careful c i := by
    intro v' a u k h'
    rw [h] at h'
    cases h'
  have hwrite : Careful started i := by
    intro v' a u k h' _
    obtain ⟨hv, ht⟩ := Handle.mk.inj ((Function.update_self ..).symm.trans h')
    obtain rfl := Option.some.inj hv
    obtain ⟨rfl, -⟩ := Prod.mk.inj (Option.some.inj ht)
    exact ⟨hmem, (fun _ _ _ ha => nomatch ha)⟩
  have hdone : Careful written i := by
    intro v' a u k h'
    obtain ⟨-, ht⟩ := Handle.mk.inj ((Function.update_self ..).symm.trans h')
    cases ht
  rw [hdoes]
  exact .head ⟨i, hstarts, hidle⟩ (.head ⟨i, hacts, hwrite⟩ (.single ⟨i, hends, hdone⟩))

def laptopDir : Directory Bool :=
  ⟨(created "laptop" 7 (.vault 1 0) (.ed (.recovery 1)) 0 (.device 0) 10).disk, fun _ => .closed⟩

/-- One process creates a share. -/
def shared : Directory Bool := does false (.createShare 5 0) (opened false laptopDir)

/-- Another process opens the vault, and creates a share too. -/
def sharedTwice : Directory Bool := does true (.createShare 6 0) (opened true shared)

theorem stored_stays_createShare : Key.random 5 0 0 ∈ stored shared.disk 5 ∧ Key.random 6 0 0 ∈ stored sharedTwice.disk 6 ∧
    ∀ k ∈ stored shared.disk 5, k ∈ stored sharedTwice.disk 5 := by
  have hclosed : ∀ i, laptopDir.handle i = .closed := fun _ => rfl
  have hshared : CarefulRun laptopDir shared :=
    (carefulRun_opened rfl).trans (carefulRun_createShare rfl (fun _ => List.Subset.refl _) 5 0)
  have hagain : CarefulRun shared sharedTwice :=
    (carefulRun_opened rfl).trans (carefulRun_createShare rfl (fun _ => List.Subset.refl _) 6 0)
  exact ⟨by decide +kernel, by decide +kernel, stored_stays hclosed hshared hagain 5⟩

/-- The daemon has the vault open. A command creates a share, and then the daemon writes the keyring that it
has in memory. -/
theorem stale_handle_drops_key : ¬ ∀ c₀ c c' : Directory Bool, (∀ i, c₀.handle i = .closed) → Run c₀ c → Run c c' →
    ∀ share, ∀ k ∈ stored c.disk share, k ∈ stored c'.disk share := by
  intro h
  let both := opened true (opened false laptopDir)
  let written := does false (.createShare 5 0) both
  have hboth : Run laptopDir both :=
    (CarefulRun.run (carefulRun_opened (i := false) rfl)).trans (CarefulRun.run (carefulRun_opened (i := true) rfl))
  have hwritten : Run laptopDir written := hboth.trans (run_does (a := .createShare 5 0) trivial rfl)
  have hrotated : Run written (does true (.rotate (.mnemonic 1)) written) := run_does trivial rfl
  have hkey : Key.random 5 0 0 ∈ stored written.disk 5 := by decide +kernel
  have hlost : Key.random 5 0 0 ∉ stored (does true (.rotate (.mnemonic 1)) written).disk 5 := by decide +kernel
  exact hlost (h laptopDir written _ (fun _ => rfl) hwritten hrotated 5 _ hkey)

end Directory

end SshVault.Vault
