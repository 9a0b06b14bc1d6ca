import SshVault.Client.Delivery

/-!
# Quiescence

Once every device has synced after its last write, a further round of each brings everybody everything, and after that
no round moves anything any more.
-/

open Lib

namespace SshVault

open Relay Prog

namespace Delivery

open Devices Sync Client

variable {id : Identity} {d d' : Device} {db db' : Db}

/-! ## A round with nothing to push -/

/-- The relay has the same entries, and the device the same log. -/
structure Still (d d' : Device) (db db' : Db) : Prop where
  entries : db'.entries = db.entries
  log : d'.disk.log = d.disk.log
  vault : d'.vaultId = d.vaultId

abbrev Alone {α : Type} (Q : Device → α → Db → Prop) (m : Op α) (d : Device) (db : Db) : Prop :=
  Meets Answers Q (fun _ _ => True) m d db

theorem query_same {now : Now} {ts : Int64} {action : Action} {vault : Wire} {key : EdKey} :
    (exec (route now (Outgoing.request ts (.query action vault key))) db).2 = db := by
  cases action with
  | shares =>
    change (exec (do return Reply.shares (← shares now (signedQuery vault key ts (.query .shares vault)))) db).2 = db
    rw [Cursor.exec_reply]
    exact exec_shares _
  | devices =>
    change (exec (do return Reply.devices (← devices now (signedQuery vault key ts (.query .devices vault)))) db).2 = db
    rw [Cursor.exec_reply]
    exact exec_devices _
  | wrapped =>
    change (exec (do return Reply.wrapped (← wrapped now (signedQuery vault key ts (.query .wrapped vault)))) db).2 = db
    rw [Cursor.exec_reply]
    exact exec_wrapped _

theorem heals_still (d : Device) (db : Db) : Heals (.meets Answers) fun d' db' => Still d d' db db' ∧ db' = db where
  asks action := by
    refine .bind (.ask ?_) fun _ => .lift _
    rintro d' db' h _ _ ⟨now, ts, -, rfl, rfl⟩
    rw [query_same]
    exact h
  absorbs share list := .onState fun d' db' h => by
    change Still d (d'.perform (·.absorbShareKey share list)) db db' ∧ _
    rcases d'.perform_absorbShareKey share list with hsame | ⟨keys, -, -, hnew⟩
    · rwa [hsame]
    · rw [hnew]
      exact ⟨⟨h.1.entries, h.1.log, h.1.vault⟩, h.2⟩

theorem healShares_alone {Q : Device → Bool → Db → Prop} (hQ : ∀ d' g, Still d d' db db → Q d' g db) :
    Alone Q healShares d db := by
  refine (Judgement.Keeps.meets.mp (heals_still d db).healShares d db ⟨⟨rfl, rfl, rfl⟩, rfl⟩).imp ?_ fun _ _ _ => trivial
  rintro d' g _ ⟨h, rfl⟩
  exact hQ d' g h

theorem pushed_same {vault : Wire} {entries : List (Uuid × Bytes × Uuid)} (h : ∀ e ∈ entries, Stored vault e.1 db) :
    (pushed vault entries db).entries = db.entries := by
  induction entries generalizing db with
  | nil => rfl
  | cons e entries ih =>
    obtain ⟨⟨row, hrow, hv, hi⟩, hrest⟩ := List.forall_mem_cons.mp h
    change (pushed vault entries ((Db.insertEntry vault (.uuid e.1) e.2.1 e.2.2).run db).2).entries = db.entries
    rw [insertEntry_held ⟨row, hrow, Prod.ext hv hi⟩]
    exact ih hrest

theorem applyEntries_alone {held : List Uuid} {l : List WireEntry} {Q : Device → Nat → Db → Prop}
    (hQ : ∀ d' n, d'.vaultId = d.vaultId → Q d' n db) : Alone Q (applyEntries held l) d db := by
  have hkeeps : (Judgement.meets Answers).Keeps (fun d' db' => d'.vaultId = d.vaultId ∧ db' = db) (applyEntries held l) := by
    refine Sync.applyEntries_keeps (fun i blob => .onState fun d' db' h => ⟨?_, h.2⟩) held l
    have hself := congrArg Identity.vaultId (d'.applyRemoteEntry_kept i blob).1
    exact (congrArg (fun i => Text.b64 (Bytes.uuid i)) hself).trans h.1
  refine (Judgement.Keeps.meets.mp hkeeps d db ⟨rfl, rfl⟩).imp ?_ fun _ _ _ => trivial
  rintro d' n _ ⟨hv, rfl⟩
  exact hQ d' n hv

/-- The device has nothing to fetch. -/
def Fetched (d : Device) (db : Db) : Prop := db.head d.vaultId ≤ d.vault.metadata.syncCursor

/-- **A round with nothing to push** leaves the entries at the relay as they are, and nothing to fetch. -/
theorem syncOnce_still (hd : Delivered d db) :
    Alone (fun d' _ db' => db'.entries = db.entries ∧ d'.vaultId = d.vaultId ∧ Fetched d' db') syncOnce d db := by
  refine Meets.bind (Meets.get ?_)
  by_cases hurl : d.vault.metadata.relayUrl = none
  · rw [if_pos hurl]
    exact Meets.bind (Meets.fail trivial)
  rw [if_neg hurl]
  refine Meets.bind (healShares_alone fun d₁ gained h₁ => Meets.bind ?_)
  refine Cursor.onVault_meets rfl (fun entries hentries => ?_) fun _ _ => trivial
  have hmap : (entries.map fun e => (e.1, e.2.1)) = d₁.disk.log := tagged_log hentries
  refine Meets.bind (Meets.bind (Meets.bind (Meets.ask ?_)))
  rintro _ _ ⟨now, ts, -, rfl, rfl⟩
  refine Meets.lift (fun reply hreply => Meets.lift (fun resp _ => ?_) fun _ _ => trivial) fun _ _ => trivial
  rw [push_reply (Option.some.inj (parse_ok hreply))]
  have hsame : (pushed d₁.vaultId entries db).entries = db.entries := by
    refine pushed_same fun e he => ?_
    have hin : (e.1, e.2.1) ∈ d.disk.log := h₁.log ▸ hmap ▸ List.mem_map_of_mem he
    exact h₁.vault ▸ hd _ hin
  generalize pushed d₁.vaultId entries db = db₁ at hsame ⊢
  have hpull : ∀ d₂ : Device, d₂.vaultId = d.vaultId →
      Alone (fun d' _ db' => db'.entries = db.entries ∧ d'.vaultId = d.vaultId ∧ Fetched d' db') (do
        let answer ← pullEntries
        let pulled ← applyEntries (entries.map (·.1)) answer.entries
        updateVault (·.setSyncCursor answer.head)
        return (resp.stored, pulled)) d₂ db₁ := by
    intro d₂ hv
    refine Meets.bind (Meets.bind (Meets.ask ?_))
    rintro _ _ ⟨now, ts, -, rfl, rfl⟩
    refine Meets.bind (Meets.lift (fun reply hreply => Meets.lift (fun answer hanswer => ?_) fun _ _ => trivial)
      fun _ _ => trivial)
    have hok := Option.some.inj (parse_ok hreply)
    cases reply <;> cases hanswer
    obtain ⟨hread, rfl⟩ := Cursor.pull_reply hok
    change Alone _ _ d₂ (exec (route now (Outgoing.request ts (.pull d₂.vaultId d₂.key d₂.vault.metadata.syncCursor))) db₁).2
    rw [hread]
    refine Meets.bind (applyEntries_alone fun d₃ n hv₃ => Meets.bind (Meets.pure ⟨hsame, hv₃.trans hv, ?_⟩))
    change db₁.head d₃.vaultId ≤ max _ (max (db₁.head d₂.vaultId) d₂.vault.metadata.syncCursor)
    rw [hv₃]
    exact (le_max_left _ _).trans (le_max_right _ _)
  split
  · exact Meets.bind (m := updateVault _) (hpull _ h₁.vault)
  · exact hpull d₁ h₁.vault

/-! ## Sweeps -/

variable {ι : Type} [DecidableEq ι] {c₀ c c' : Fleet ι} {ids : ι → Identity}

/-- The devices of the list sync one after the other, each alone at the relay, and each round ends well. -/
inductive Sweep : Fleet ι → List ι → Fleet ι → Prop
  | nil {c : Fleet ι} : Sweep c [] c
  | cons {c c' : Fleet ι} {i : ι} {l : List ι} {d d' : Device} {out : Outcome} {n : Nat × Nat} {db : Db}
    (hi : c.client i = ⟨.done d out, none⟩) (hround : (Chore.sync.prog d).Ends Answers c.server d' (.ok (some n)) db)
    (hrest : Sweep ⟨Function.update c.client i ⟨.done d' (.ok (some n)), none⟩, db⟩ l c') : Sweep c (i :: l) c'

theorem Sweep.run {l : List ι} (h : Sweep c l c') : network.Run c c' := by
  induction h with
  | nil => exact .refl
  | @cons c c' i l d d' out n db hi hround hrest ih =>
    have hserves : ∀ (call : Call) (t : Db) (p : Answer) (t' : Db), Answers call t p t' →
        ∃ how : Clocks, p = some (network.serve how call t).1 ∧ t' = (network.serve how call t).2 := by
      rintro call t p t' ⟨now, ts, -, rfl, rfl⟩
      exact ⟨⟨now, ts⟩, rfl, rfl⟩
    have hbegin : network.Step c ⟨Function.update c.client i ⟨Chore.sync.prog d, none⟩, c.server⟩ := .begins i Chore.sync hi
    exact (Relation.ReflTransGen.head hbegin (Network.Run.of_ends hserves hround c.client i)).trans ih

/-- The device's last command was a round that went well. -/
def Synced (c : Fleet ι) (i : ι) : Prop := ∃ d n, c.client i = ⟨.done d (.ok (some n)), none⟩

theorem Sweep.synced {l : List ι} (h : Sweep c l c') {i : ι} (hi : i ∈ l ∨ Synced c i) : Synced c' i := by
  induction h with
  | nil => exact hi.resolve_left List.not_mem_nil
  | @cons c c' j l d d' out n db hj hround hrest ih =>
    refine ih ?_
    by_cases hij : i = j
    · subst hij
      exact Or.inr ⟨d', n, Function.update_self ..⟩
    · refine hi.imp (fun hin => (List.mem_cons.mp hin).resolve_left hij) fun ⟨e, m, he⟩ => ⟨e, m, ?_⟩
      rw [← he]
      exact Function.update_of_ne hij _ _

/-- The device has nothing to fetch. -/
def Quiet (c : Fleet ι) (i : ι) : Prop := ∃ d n, c.client i = ⟨.done d (.ok (some n)), none⟩ ∧ Fetched d c.server

theorem Sweep.quiet (hstart : Start c₀ ids) {l : List ι} (h : Sweep c l c') (hrun : network.Run c₀ c)
    (hall : ∀ i, Synced c i) {i : ι} (hi : i ∈ l ∨ Quiet c i) : Quiet c' i := by
  induction h with
  | nil => exact hi.resolve_left List.not_mem_nil
  | @cons c c' j l d d' out n db hj hround hrest ih =>
    obtain ⟨e, m, he⟩ := hall j
    obtain ⟨rfl, rfl⟩ := Session.done.inj (congrArg Desk.left (hj.symm.trans he))
    have hdelivered := (hstart.idle_kept hrun hj).2 m rfl
    have hone : Sweep c [j] ⟨Function.update c.client j ⟨.done d' (.ok (some n)), none⟩, db⟩ := .cons hj hround .nil
    obtain ⟨hentries, -, hfetched⟩ : db.entries = c.server.entries ∧ d'.vaultId = d.vaultId ∧ Fetched d' db := by
      have hmeets : Alone (fun d' _ db' => db'.entries = c.server.entries ∧ d'.vaultId = d.vaultId ∧ Fetched d' db')
          Chore.sync.prog d c.server := Meets.bind (Session.Against.mono (syncOnce_still hdelivered) fun d' r db' h => by
        cases r with
        | ok out => exact h
        | error e => exact h)
      exact Session.Against.ends hmeets hround
    refine ih (hrun.trans hone.run) (fun i => hone.synced (Or.inr (hall i))) ?_
    by_cases hij : i = j
    · subst hij
      exact Or.inr ⟨d', n, Function.update_self .., hfetched⟩
    · refine hi.imp (fun hin => (List.mem_cons.mp hin).resolve_left hij) fun ⟨e, k, he, hf⟩ => ⟨e, k, ?_, ?_⟩
      · rw [← he]
        exact Function.update_of_ne hij _ _
      · unfold Fetched Db.head at hf ⊢
        rw [hentries]
        exact hf

namespace TwoDevices

open Visit (newDevice)
open Planted (sent enrollment approval answer answers)

def fresh (b : Bool) : Device := (newDevice b.toNat (.vault 0 0)).update (·.setRelayUrl "relay")

def start : Fleet Bool := ⟨fun b => ⟨.done (fresh b) (.ok none), none⟩, {}⟩

theorem start_start : Start start fun b => (fresh b).self where
  idle b := ⟨fresh b, rfl, rfl, by revert b; decide, by revert b; decide⟩
  relay := rfl

/-- Device 0 founds the vault and approves device 1. -/
def admitted : Db := [sent 0 (enrollment 0), sent 1 (enrollment 1), sent 0 approval].foldl
  (fun db req => (exec (route 0 req) db).2) {}

theorem elsewhere_foldl {ι : Type} [DecidableEq ι] (reqs : List Request) (c : Fleet ι) :
    network.Run c ⟨c.client, reqs.foldl (fun db req => (exec (route 0 req) db).2) c.server⟩ := by
  induction reqs generalizing c with
  | nil => exact .refl
  | cons req reqs ih =>
    have hone : network.Step c ⟨c.client, (exec (route 0 req) c.server).2⟩ := .elsewhere ⟨0, req, rfl⟩
    exact Relation.ReflTransGen.head hone (ih ⟨c.client, (exec (route 0 req) c.server).2⟩)

def addWeb : Chore := .write
  (.addIn ⟨fun l => l, .refl⟩ .host "alias" "web" ((∅ : Payload).insert "alias" (.str (.plain "web"))) nil 20 30 0)

/-- Device 0 has added a host. -/
def edited : Fleet Bool := ⟨Function.update start.client false ⟨addWeb.prog (fresh false), none⟩, admitted⟩

def round (d : Device) (db : Db) : Device × Outcome × Db := (Chore.sync.prog d).against answer db

/-- Device `b` syncs. -/
def swept (c : Fleet Bool) (b : Bool) (n : Nat × Nat) : Fleet Bool :=
  let out := round (c.client b).left.state c.server
  ⟨Function.update c.client b ⟨.done out.1 (.ok (some n)), none⟩, out.2.2⟩

theorem sweep_swept {c c' : Fleet Bool} {b : Bool} {l : List Bool} {out : Outcome} {n : Nat × Nat}
    (hi : c.client b = ⟨.done (c.client b).left.state out, none⟩)
    (hok : (round (c.client b).left.state c.server).2.1.toOption = some (some n)) (hrest : Sweep (swept c b n) l c') :
    Sweep c (b :: l) c' := by
  have hends : (Chore.sync.prog (c.client b).left.state).Ends Answers c.server _ _ _ :=
    Session.ends_against fun x _ => answers x.1 x.2
  have hres : (round (c.client b).left.state c.server).2.1 = .ok (some n) := by
    cases h : (round (c.client b).left.state c.server).2.1 with
    | ok a =>
      rw [h] at hok
      obtain rfl := Option.some.inj hok
      rfl
    | error e =>
      rw [h] at hok
      cases hok
  exact .cons hi (hres ▸ hends) hrest

def once : Fleet Bool := swept (swept edited false (1, 0)) true (0, 1)

def twice : Fleet Bool := swept (swept once false (0, 0)) true (0, 0)

theorem sweep_once : Sweep edited [false, true] once :=
  sweep_swept rfl (by decide +kernel) (sweep_swept rfl (by decide +kernel) .nil)

theorem sweep_twice : Sweep once [false, true] twice :=
  sweep_swept rfl (by decide +kernel) (sweep_swept rfl (by decide +kernel) .nil)

theorem run_edited : network.Run start edited := by
  have hbegin : network.Step ⟨start.client, admitted⟩ edited := .begins false addWeb rfl
  exact (elsewhere_foldl _ start).trans (.single hbegin)

end TwoDevices

open TwoDevices

end Delivery

end SshVault
