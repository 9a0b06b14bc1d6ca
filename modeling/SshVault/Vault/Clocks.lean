import SshVault.Vault.Handles

/-!
# The clocks of one device

Any number of handles on one directory take clocks and receive entries. A critical section runs as a whole,
unless its process dies in it. What a handle has in memory may be older than the file, but never newer.
-/

open Lib

namespace SshVault

/-- The counter in `meta.json`. -/
def Disk.lamport (d : Disk) : U64 := d.metadata.lamport

namespace Vault

/-! ## Critical sections -/

/-- The operations that hold the exclusive lock while they write `meta.json`. -/
inductive Section where
  | nextClock
  | applyRemoteEntry (f : Frame)
  | setSyncCursor (cursor : Nat)
  | resetSyncCursor
  | setRelayUrl (url : String)

/-- `next_clock` gives a clock out, the others none. -/
def Section.prog (v : Vault) : Section → Prog Disk (Option Clock × Vault)
  | .nextClock => do
    let (clock, v) ← v.nextClock
    return (some clock, v)
  | .applyRemoteEntry f => do return (none, (← v.applyRemoteEntry f.1 f.2).2)
  | .setSyncCursor cursor => do return (none, ← v.setSyncCursor cursor)
  | .resetSyncCursor => do return (none, ← v.resetSyncCursor)
  | .setRelayUrl url => do return (none, ← v.setRelayUrl url)

/-- What a vault in memory has as its counter is at most `b`. -/
def Within (b : U64) (mem : Option Vault) : Prop := ∀ v, mem = some v → v.metadata.lamport ≤ b

theorem Within.mono {b b' : U64} {mem : Option Vault} (hb : b ≤ b') (h : Within b mem) : Within b' mem :=
  fun v hv => (h v hv).trans hb

namespace Directory

variable {ι : Type} [DecidableEq ι]

/-- Handle `i` goes on, and the clocks that this gives out. -/
inductive Ticks (i : ι) (c : Directory ι) : List Clock → Directory ι → Prop
  | free {c' : Directory ι} (h : Step i c c') : Ticks i c [] c'
  | locks {v : Vault} (s : Section) (h : c.handle i = ⟨some v, none⟩) :
    Ticks i c ((s.prog v).run c.disk).1.1.toList
      ⟨((s.prog v).run c.disk).2, Function.update c.handle i ⟨some ((s.prog v).run c.disk).1.2, none⟩⟩
  | dies : Ticks i c [] ⟨c.disk, Function.update c.handle i .closed⟩
  | diesIn {v : Vault} (s : Section) (n : Nat) (h : c.handle i = ⟨some v, none⟩) :
    Ticks i c [] ⟨Prog.cutAt n (s.prog v) c.disk, Function.update c.handle i .closed⟩

/-- The counter is below its last value. -/
def Room (c : Directory ι) : Prop := c.disk.lamport.val + 1 < 2 ^ 64

/-- Handles take any number of steps, each from a state with room, and the clocks they get in order. -/
inductive ClockRun : Directory ι → List Clock → Directory ι → Prop
  | refl (c : Directory ι) : ClockRun c [] c
  | tail {c c' c'' : Directory ι} {i : ι} {issued out : List Clock} (h : ClockRun c issued c') (hroom : Room c')
      (hstep : Ticks i c' out c'') : ClockRun c (issued ++ out) c''

/-- Every handle is closed, or is the one that created the directory. -/
def Start (c : Directory ι) : Prop :=
  ∀ i, c.handle i = .closed ∨ ∃ v, c.handle i = ⟨some v, none⟩ ∧ v.metadata = c.disk.metadata

end Directory

/-! ## What the operations do to the counter -/

section

variable {v : Vault} {b : U64}

theorem compact_rises (hv : v.metadata.lamport ≤ b) :
    v.compact.Rises Disk.lamport (fun b r => r.2.metadata.lamport ≤ b) b := by
  unfold compact
  refine Prog.Rises.bind (P := fun b _ => v.metadata.lamport ≤ b)
    (Prog.Rises.atom fun d hd => ⟨le_rfl, hv.trans hd⟩) fun b frames hv => ?_
  split
  · exact hv
  · dsimp only
    split
    · exact hv
    · exact Prog.Rises.bind (P := fun b _ => v.metadata.lamport ≤ b)
        (Prog.Rises.atom fun d hd => ⟨le_rfl, hv.trans hd⟩) fun b _ hv => hv

theorem replayLog_rises (hv : v.metadata.lamport ≤ b) :
    v.replayLog.Rises Disk.lamport (fun b r => r.2.metadata.lamport ≤ b) b := by
  unfold replayLog
  refine Prog.Rises.bind (P := fun b _ => v.metadata.lamport ≤ b)
    (Prog.Rises.atom fun d hd => ⟨le_rfl, hv.trans hd⟩) fun b frames hv => ?_
  refine Prog.Rises.bind (P := fun b _ => v.metadata.lamport ≤ b)
    (Prog.Rises.atom fun d hd => ⟨le_rfl, hv.trans hd⟩) fun b snapshot hv => ?_
  split
  · exact hv
  · dsimp only
    split
    · exact Prog.Rises.bind (compact_rises hv) fun b r hr => hr
    · exact hv

theorem readMeta_rises : Disk.readMeta.Rises Disk.lamport (fun b m => m.lamport ≤ b) b :=
  Prog.Rises.atom fun _ _ => ⟨le_rfl, le_rfl⟩

theorem open_rises : (do return (← openVault).toOption : Prog Disk (Option Vault)).Rises Disk.lamport Within b := by
  refine Prog.Rises.bind (P := fun b r => ∀ v, r = .ok v → v.metadata.lamport ≤ b) ?_ ?_
  · unfold openVault
    refine Prog.Rises.bind readMeta_rises fun b m hm => ?_
    refine Prog.Rises.bind (P := fun b _ => m.lamport ≤ b)
      (Prog.Rises.atom fun d hd => ⟨le_rfl, hm.trans hd⟩) fun b kr hm => ?_
    refine Prog.Rises.bind (replayLog_rises (v := ⟨m, kr.normalize, ∅⟩) hm) fun b r hr v hv => ?_
    obtain ⟨e | _, v'⟩ := r
    · cases hv
    · obtain rfl := Except.ok.inj hv
      exact hr
  · intro b r hr v hv
    cases r with
    | error e => cases hv
    | ok v' => exact hr v (congrArg Except.ok (Option.some.inj hv))

theorem within_some (hv : v.metadata.lamport ≤ b) : Within b (some v) := by
  rintro _ ⟨rfl⟩
  exact hv

/-- The keys are written without a look at the counter. -/
theorem prog_rises {a : Action} (ha : a.OnKeys) (hv : v.metadata.lamport ≤ b) :
    (a.prog v).Rises Disk.lamport Within b := by
  have hstore : ∀ kr, ∀ d : Disk, b ≤ d.lamport →
      d.lamport ≤ Disk.lamport { d with keyring := kr } ∧ Within (Disk.lamport { d with keyring := kr }) (some { v with keyring := kr }) :=
    fun kr d hd => ⟨le_rfl, within_some (hv.trans hd)⟩
  cases a with
  | rotate phrase =>
    simp only [Action.prog, rotate]
    split
    · exact within_some hv
    · exact fun d hd => hstore _ d hd
  | createShare id n => exact fun d hd => hstore _ d hd
  | rotateShare share n =>
    simp only [Action.prog, rotateShare]
    split
    · exact within_some hv
    · exact fun d hd => hstore _ d hd
  | absorbShareKey share list =>
    simp only [Action.prog, absorbShareKey]
    split
    · exact within_some hv
    · split
      · exact within_some hv
      · exact fun d hd => hstore _ d hd
  | reload =>
    refine Prog.Rises.bind (P := fun b r => r.2.metadata.lamport ≤ b) ?_ fun b r hr => within_some hr
    exact Prog.Rises.bind readMeta_rises fun b m hm => replayLog_rises (v := { v with metadata := m }) hm
  | reopen => exact open_rises
  | _ => exact absurd ha id

end

/-- What a critical section leaves: the counter has not gone down, and is what the vault has in memory. A clock
that it gives out is newer than the counter was. -/
structure Ticked (d : Disk) (r : Option Clock × Vault) (d' : Disk) : Prop where
  le : d.lamport ≤ d'.lamport
  memory : r.2.metadata.lamport ≤ d'.lamport
  fresh : ∀ k, r.1 = some k → d.lamport < k.lamport ∧ k.lamport ≤ d'.lamport

theorem section_ticked {v : Vault} {d : Disk} (s : Section) (hv : v.metadata.lamport ≤ d.lamport)
    (hroom : d.lamport.val + 1 < 2 ^ 64) :
    (s.prog v).Always (fun d' => d.lamport ≤ d'.lamport) (Ticked d) d := by
  have habsorbed : d.lamport ≤ (v.absorbed d).lamport := le_max_right _ _
  have hroom' : v.Room d := ⟨lt_of_le_of_lt (Nat.succ_le_succ (Fin.le_def.mp hv)) hroom, hroom⟩
  cases s with
  | nextClock =>
    have hlt : d.lamport < (v.tick d).lamport := disk_lt_tick hroom'
    refine ⟨le_rfl, le_rfl, hlt.le, le_rfl, ?_⟩
    rintro _ ⟨rfl⟩
    exact ⟨hlt, le_rfl⟩
  | applyRemoteEntry f =>
    simp only [Section.prog, applyRemoteEntry]
    split
    · exact ⟨le_rfl, hv, (fun _ h => nomatch h)⟩
    · rename_i opened _
      cases opened with
      | none => exact ⟨le_rfl, le_rfl, le_rfl, habsorbed, le_rfl, (fun _ h => nomatch h)⟩
      | some r =>
        have hraised : d.lamport ≤ (raised (v.absorbed d) (some r)).lamport := habsorbed.trans (le_raised _ _)
        rw [← raised_some] at hraised
        exact ⟨le_rfl, le_rfl, le_rfl, hraised, le_rfl, (fun _ h => nomatch h)⟩
  | setSyncCursor cursor => exact ⟨le_rfl, le_rfl, habsorbed, le_rfl, (fun _ h => nomatch h)⟩
  | resetSyncCursor => exact ⟨le_rfl, le_rfl, habsorbed, le_rfl, (fun _ h => nomatch h)⟩
  | setRelayUrl url => exact ⟨le_rfl, le_rfl, habsorbed, le_rfl, (fun _ h => nomatch h)⟩

/-! ## Runs -/

namespace Directory

variable {ι : Type} [DecidableEq ι] {c c' : Directory ι} {i : ι} {issued out : List Clock}

/-- No handle is ahead of the file, and will not be when it ends what it is in. -/
structure Behind (b : U64) (h : Handle) : Prop where
  memory : Within b h.vault
  task : ∀ a p, h.task = some (a, p) → Prog.Rises Disk.lamport Within b p

theorem Behind.mono {b b' : U64} {h : Handle} (hb : b ≤ b') (hh : Behind b h) : Behind b' h :=
  ⟨hh.memory.mono hb, fun a p hp => (hh.task a p hp).mono (fun _ _ _ hb h => h.mono hb) hb⟩

theorem behind_idle {b : U64} {mem : Option Vault} (h : Within b mem) : Behind b ⟨mem, none⟩ :=
  ⟨h, (fun _ _ h => nomatch h)⟩

theorem behind_closed {b : U64} : Behind b .closed := behind_idle fun _ h => nomatch h

/-- The clocks given out so far grow, and the counter has reached them all. -/
structure Issued (issued : List Clock) (b : U64) : Prop where
  le : ∀ k ∈ issued, k.lamport ≤ b
  lt : issued.Pairwise fun k k' => k.lamport < k'.lamport

structure ClockInv (c : Directory ι) (issued : List Clock) : Prop where
  behind : ∀ j, Behind c.disk.lamport (c.handle j)
  issued : Issued issued c.disk.lamport

theorem update_behind {b b' : U64} {h : Handle} (hall : ∀ j, Behind b (c.handle j)) (hb : b ≤ b') (h' : Behind b' h) :
    ∀ j, Behind b' (Function.update c.handle i h j) := by
  intro j
  by_cases hj : j = i
  · subst hj
    rwa [Function.update_self]
  · rw [Function.update_of_ne hj]
    exact (hall j).mono hb

theorem Issued.mono {b b' : U64} (h : Issued issued b) (hb : b ≤ b') : Issued issued b' :=
  ⟨fun k hk => (h.le k hk).trans hb, h.lt⟩

theorem Issued.append {b b' : U64} (h : Issued issued b) (hb : b ≤ b') {o : Option Clock}
    (ho : ∀ k, o = some k → b < k.lamport ∧ k.lamport ≤ b') : Issued (issued ++ o.toList) b' := by
  cases o with
  | none =>
    rw [Option.toList_none, List.append_nil]
    exact h.mono hb
  | some k =>
    obtain ⟨hlt, hle⟩ := ho k rfl
    refine ⟨fun k' hk' => ?_, List.pairwise_append.mpr ⟨h.lt, List.pairwise_singleton _ _, ?_⟩⟩
    · rcases List.mem_append.mp hk' with hk' | hk'
      · exact (h.le k' hk').trans hb
      · obtain rfl := List.mem_singleton.mp hk'
        exact hle
    · rintro a ha _ hk'
      obtain rfl := List.mem_singleton.mp hk'
      exact lt_of_le_of_lt (h.le a ha) hlt

theorem Step.behind (h : Step i c c') (hc : ∀ j, Behind c.disk.lamport (c.handle j)) :
    c.disk.lamport ≤ c'.disk.lamport ∧ ∀ j, Behind c'.disk.lamport (c'.handle j) := by
  have hi := hc i
  cases h with
  | opens h =>
    refine ⟨le_rfl, update_behind hc le_rfl ⟨(fun _ h => nomatch h), ?_⟩⟩
    rintro _ _ ⟨rfl⟩
    exact open_rises
  | @starts v a h ha =>
    rw [h] at hi
    refine ⟨le_rfl, update_behind hc le_rfl ⟨hi.memory, ?_⟩⟩
    rintro _ _ ⟨rfl⟩
    exact prog_rises ha (hi.memory v rfl)
  | @acts mem a u k h =>
    rw [h] at hi
    obtain ⟨hle, hnext⟩ := hi.task a _ rfl c.disk le_rfl
    refine ⟨hle, update_behind hc hle ⟨hi.memory.mono hle, ?_⟩⟩
    rintro _ _ ⟨rfl⟩
    exact hnext
  | @ends mem v a h =>
    rw [h] at hi
    exact ⟨le_rfl, update_behind hc le_rfl (behind_idle (hi.task a _ rfl))⟩

theorem Ticks.inv (h : Ticks i c out c') (hroom : Room c) (hc : ClockInv c issued) :
    c.disk.lamport ≤ c'.disk.lamport ∧ ClockInv c' (issued ++ out) := by
  have hi := hc.behind i
  cases h with
  | free h =>
    obtain ⟨hle, hall⟩ := h.behind hc.behind
    rw [List.append_nil]
    exact ⟨hle, hall, hc.issued.mono hle⟩
  | @locks v s h =>
    rw [h] at hi
    have hspec := (section_ticked s (hi.memory v rfl) hroom).run
    exact ⟨hspec.le, update_behind hc.behind hspec.le (behind_idle (within_some hspec.memory)),
      hc.issued.append hspec.le hspec.fresh⟩
  | dies =>
    rw [List.append_nil]
    exact ⟨le_rfl, update_behind hc.behind le_rfl behind_closed, hc.issued⟩
  | @diesIn v s n h =>
    rw [h] at hi
    have hle := (section_ticked s (hi.memory v rfl) hroom).cutAt (fun _ _ ht => ht.le) n
    rw [List.append_nil]
    exact ⟨hle, update_behind hc.behind hle behind_closed, hc.issued.mono hle⟩

theorem ClockRun.inv {before : List Clock} (h : ClockRun c issued c') (hc : ClockInv c before) :
    c.disk.lamport ≤ c'.disk.lamport ∧ ClockInv c' (before ++ issued) := by
  induction h with
  | refl =>
    rw [List.append_nil]
    exact ⟨le_rfl, hc⟩
  | tail _ hroom hstep ih =>
    obtain ⟨hle, hc'⟩ := ih
    obtain ⟨hle', hc''⟩ := hstep.inv hroom hc'
    rw [← List.append_assoc]
    exact ⟨hle.trans hle', hc''⟩

omit [DecidableEq ι] in
theorem Start.inv (h : Start c) : ClockInv c [] := by
  refine ⟨fun j => ?_, ⟨(fun _ h => nomatch h), .nil⟩⟩
  rcases h j with hj | ⟨v, hj, hv⟩
  · rw [hj]
    exact behind_closed
  · rw [hj]
    exact behind_idle (within_some (congrArg Meta.lamport hv).le)

/-- **Clocks are not reused.** The counter in `meta.json` never goes down, and all clocks that the handles of one
directory ever get are different. -/
theorem clocks_distinct {c₀ : Directory ι} {issued issued' : List Clock} (hstart : Start c₀)
    (hreach : ClockRun c₀ issued c) (hrun : ClockRun c issued' c') :
    c.disk.metadata.lamport ≤ c'.disk.metadata.lamport ∧ (issued ++ issued').Nodup := by
  obtain ⟨-, hc⟩ := hreach.inv hstart.inv
  obtain ⟨hle, hc'⟩ := hrun.inv hc
  refine ⟨hle, hc'.issued.lt.imp ?_⟩
  rintro k k' hlt rfl
  exact lt_irrefl _ hlt

/-- Two handles, both with the metadata of the new directory in memory. -/
def twoHandles : Directory Bool :=
  let (disk, v) := createWithKeys "laptop" 7 (.vault 1 0) (.ed (.recovery 1)) 0 (.device 0) 0
  ⟨disk, fun _ => ⟨some v, none⟩⟩

/-- One takes a clock, and then the other, which does not know of it. -/
theorem clocks_distinct_stale : twoHandles.disk.metadata.lamport ≤ 2 ∧ [(⟨1, 0⟩ : Clock), ⟨2, 0⟩].Nodup :=
  have hstart : Start twoHandles := fun _ => Or.inr ⟨_, rfl, rfl⟩
  have hroom : ∀ n : U64, n.val < 5 → n.val + 1 < 2 ^ 64 := fun n hn => by omega
  have hfirst := ClockRun.tail (.refl twoHandles) (hroom 0 (by decide)) (.locks (i := true) .nextClock rfl)
  have hsecond := ClockRun.tail hfirst (hroom 1 (by decide)) (.locks (i := false) .nextClock rfl)
  clocks_distinct hstart (.refl twoHandles) hsecond

end Directory

end Vault

end SshVault
