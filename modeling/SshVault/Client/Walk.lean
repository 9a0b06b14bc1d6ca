import SshVault.Client.Sync
import SshVault.Lib.Judgement

/-!
# What a round keeps

A round takes in key-lists, pushes and pulls. What each of these keeps, the round keeps, whatever is asked of its
requests.
-/

open Lib

namespace SshVault.Sync

variable {γ : Type} {J : Judgement Device Call Answer γ} {I : Device → γ → Prop}

open Judgement (Keeps)

theorem unwrapFor_keeps (wrapped : Wire) : J.Keeps I (unwrapFor wrapped) := .bind .get fun _ => .lift _

theorem healVault_keeps (habsorbs : ∀ list, J.Keeps I (onVault (·.absorbVaultKeyList list))) (resp : WrappedResp) :
    J.Keeps I (healVault resp) := by
  refine .bind .get fun d => ?_
  split
  · split
    · exact .bind (unwrapFor_keeps _) habsorbs
    · exact .pure ()
  · exact .pure ()

theorem applyEntries_keeps (happlies : ∀ id blob, J.Keeps I (onVault (·.applyRemoteEntry id blob))) (held : List Uuid)
    (l : List WireEntry) : J.Keeps I (applyEntries held l) := by
  induction l with
  | nil => exact .pure 0
  | cons e rest ih =>
    refine .bind (.lift _) fun id => ?_
    split
    · exact ih
    · exact .bind (.lift _) fun blob => .bind (happlies id blob) fun _ => .bind ih fun n => .pure (n + 1)

/-- The key-lists are asked for and taken in. -/
structure Heals (J : Judgement Device Call Answer γ) (I : Device → γ → Prop) : Prop where
  asks : ∀ action, J.Keeps I (signedGet .plain action)
  absorbs : ∀ share list, J.Keeps I (onVault (·.absorbShareKey share list))

namespace Heals

variable (h : Heals J I)

include h

theorem absorbShares (gained : Bool) (l : List ShareMembership) : J.Keeps I (absorbShares gained l) := by
  induction l generalizing gained with
  | nil => exact .pure gained
  | cons m rest ih =>
    unfold Sync.absorbShares
    split
    · exact ih gained
    · rename_i share _
      split
      · exact ih gained
      · refine .bind .get fun d => ?_
        dsimp only
        split
        · exact .bind (unwrapFor_keeps _) fun list => .bind (h.absorbs share list) fun _ => ih _
        · exact ih gained

theorem healShares : J.Keeps I healShares := by
  refine .bind (h.asks .wrapped) fun _ => .bind (.lift _) fun resp => ?_
  refine .bind (healVault_keeps (h.absorbs nil) resp) fun _ => .bind (h.asks .shares) fun _ => .bind (.lift _) fun l => ?_
  exact h.absorbShares false l

end Heals

/-- The other steps of a round. -/
structure Syncs (J : Judgement Device Call Answer γ) (I : Device → γ → Prop) : Prop extends Heals J I where
  reads : J.Keeps I (onVault fun v => do return (← v.rawEntriesTagged, v))
  pushes : ∀ gained entries, J.Keeps I (pushEntries gained entries)
  rewinds : J.Keeps I (updateVault (·.resetSyncCursor))
  pulls : J.Keeps I pullEntries
  applies : ∀ id blob, J.Keeps I (onVault (·.applyRemoteEntry id blob))
  moves : ∀ head, J.Keeps I (updateVault (·.setSyncCursor head))

theorem Syncs.syncOnce (h : Syncs J I) : J.Keeps I syncOnce := by
  have hpull : ∀ (stored : Nat) (held : List Uuid), J.Keeps I (do
      let resp ← pullEntries
      let pulled ← applyEntries held resp.entries
      updateVault (·.setSyncCursor resp.head)
      return (stored, pulled)) := fun stored held =>
    .bind h.pulls fun resp => .bind (applyEntries_keeps h.applies held resp.entries) fun pulled =>
      .bind (h.moves resp.head) fun _ => .pure (stored, pulled)
  have hpush : J.Keeps I (do
      let gained ← Sync.healShares
      let entries ← onVault fun v => do return (← v.rawEntriesTagged, v)
      let pushed ← pushEntries gained entries
      if gained then updateVault (·.resetSyncCursor)
      let resp ← pullEntries
      let pulled ← applyEntries (entries.map (·.1)) resp.entries
      updateVault (·.setSyncCursor resp.head)
      return (pushed.stored, pulled)) := by
    refine .bind h.healShares fun gained => .bind h.reads fun entries => .bind (h.pushes gained entries) fun pushed => ?_
    split
    · exact .bind h.rewinds fun _ => hpull _ _
    · exact hpull _ _
  refine .bind .get fun d => ?_
  split
  · exact .bind (.fail _) fun _ => hpush
  · exact hpush

end SshVault.Sync
