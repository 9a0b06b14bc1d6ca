import SshVault.Client.Rounds

/-!
# How a key-list moves

Between two requests of a round, a device keeps its list of a named share or takes in a longer one that
it was just sent. A removal also appends one key of its own, once.
-/

open Lib

namespace SshVault

/-- The answer lists this device as a member of the share, with these keys. -/
def Offers (share : Uuid) (a : Answer) (keys : List Key) : Prop :=
  ∃ l, a = some (.ok (.shares l)) ∧ ∃ m ∈ l, m.shareId.decode16 = some share ∧
    ∃ w, m.wrappedKey.decode = some (.wrapped w) ∧ w.payload.keys = keys

/-- From one list to the next, with this answer. `drawn` is the list that a key may be drawn for. -/
inductive Moves (share : Uuid) (drawn : Option (List Key)) (keys : List Key) (a : Answer) : List Key → Prop
  | stays : Moves share drawn keys a keys
  | takes {keys' : List Key} (h : Offers share a keys') (hlt : keys.length < keys'.length) : Moves share drawn keys a keys'
  | draws (key : Key) (h : drawn = some keys) (ha : a ≠ none) : Moves share drawn keys a (keys ++ [key])

/-- A device that moves its list of this share only so. -/
abbrev Follows {α : Type} (share : Uuid) (drawn : Option (List Key)) (Q : (List Key → Prop) → Device → α → Prop)
    (X : List Key → Prop) (m : Op α) (d : Device) : Prop :=
  Client.Follows (fun d => d.vault.keyring.keysOf share) (Moves share drawn) Q X m d

namespace Devices

open Sync Client

variable {first : Bytes → List UInt8} {share : Uuid} {drawn : Option (List Key)} {X : List Key → Prop} {d : Device}

/-! ## Requests -/

theorem post_follows {note : Note} {r : Relay.ClientReq} {Q : (List Key → Prop) → Device → Reply → Prop}
    (hX : X (d.vault.keyring.keysOf share))
    (hQ : ∀ (X : List Key → Prop) reply, X (d.vault.keyring.keysOf share) → Q X d reply) :
    Follows share drawn Q X (post note r) d :=
  Follows.bind (Follows.ask hX fun _ => Follows.lift (fun reply _ => hQ _ reply .stays) .stays)

theorem pushed_follows {α : Type} {note : Note} {r : Relay.ClientReq} {Q : (List Key → Prop) → Device → α → Prop}
    {f : PushResp → Op α} (hX : X (d.vault.keyring.keysOf share))
    (hQ : ∀ (X : List Key → Prop) resp, X (d.vault.keyring.keysOf share) → Follows share drawn Q X (f resp) d) :
    Follows share drawn Q X (do let resp ← asPush (← post note r); f resp) d :=
  Follows.bind (post_follows hX fun X _ hX => Follows.bind (Follows.lift (fun resp _ => hQ X resp hX) hX))

theorem signedGet_follows {note : Note} {action : Action} {Q : (List Key → Prop) → Device → Reply → Prop}
    (hX : X (d.vault.keyring.keysOf share))
    (hQ : ∀ reply, Q (Moves share drawn (d.vault.keyring.keysOf share) (some (.ok reply))) d reply) :
    Follows share drawn Q X (signedGet note action) d := by
  refine Follows.bind (Follows.ask hX fun a => Follows.lift (fun reply hreply => ?_) .stays)
  obtain rfl := parse_ok hreply
  exact hQ reply

theorem listDevices_follows {note : Note} {Q : (List Key → Prop) → Device → List DeviceInfo → Prop}
    (hX : X (d.vault.keyring.keysOf share))
    (hQ : ∀ reply l, Q (Moves share drawn (d.vault.keyring.keysOf share) (some (.ok reply))) d l) :
    Follows share drawn Q X (listDevices note) d :=
  Follows.bind (signedGet_follows hX fun reply => Follows.lift (fun l _ => hQ reply l) .stays)

theorem findByCode_follows {code : String} {Q : (List Key → Prop) → Device → DeviceInfo → Prop}
    (hX : X (d.vault.keyring.keysOf share))
    (hQ : ∀ reply o, Q (Moves share drawn (d.vault.keyring.keysOf share) (some (.ok reply))) d o) :
    Follows share drawn Q X (findByCode first code) d :=
  Follows.bind (listDevices_follows hX fun reply _ => Follows.lift (fun o _ => hQ reply o) .stays)

theorem wrapForCodes_follows {list : KeyBytes} {Q : (List Key → Prop) → Device → List WrappedFor → Prop}
    (codes : List String) (hX : X (d.vault.keyring.keysOf share))
    (hQ : ∀ (X : List Key → Prop) ws, X (d.vault.keyring.keysOf share) → Q X d ws) :
    Follows share drawn Q X (wrapForCodes first list codes) d := by
  induction codes generalizing X Q with
  | nil => exact Follows.pure (hQ X [] hX)
  | cons code codes ih =>
    refine Follows.bind (findByCode_follows hX fun reply o => Follows.bind (Follows.lift (fun w _ => ?_) .stays))
    exact Follows.bind (ih .stays fun X ws hX => Follows.pure (hQ X _ hX))

theorem rewrapMembers_follows {list : KeyBytes} {target : Wire} {Q : (List Key → Prop) → Device → List WrappedFor → Prop}
    (members : List Wire) (hX : X (d.vault.keyring.keysOf share))
    (hQ : ∀ (X : List Key → Prop) ws, X (d.vault.keyring.keysOf share) → Q X d ws) :
    Follows share drawn Q X (rewrapMembers first list target members) d := by
  induction members generalizing X Q with
  | nil => exact Follows.pure (hQ X [] hX)
  | cons pub rest ih =>
    unfold rewrapMembers
    split
    · exact ih hX hQ
    · refine Follows.bind (wrapForCodes_follows _ hX fun X ws hX => Follows.bind (ih hX fun X more hX => ?_))
      exact Follows.pure (hQ X _ hX)

/-! ## Removals -/

/-- A removal that rotates the share draws a key for the list that it finds; other removals leave it. -/
theorem shareRemove_follows (other : Uuid) (code : String) (n : Nat)
    (hdrawn : other = share → drawn = some (d.vault.keyring.keysOf share)) (hX : X (d.vault.keyring.keysOf share)) :
    Follows share drawn (fun X d _ => X (d.vault.keyring.keysOf share)) X (shareRemove first other code n) d := by
  refine Follows.bind (Follows.get ?_)
  by_cases hheld : d.vault.keyring.hasShare other = true
  swap
  · rw [if_pos hheld]
    exact Follows.bind (Follows.fail hX)
  rw [if_neg (not_not.mpr hheld)]
  refine Follows.bind (findByCode_follows hX fun reply o => Follows.bind ?_)
  have hrun := Vault.run_rotateShare (d := d.disk) n hheld
  have hkr : (d.perform (·.rotateShare other n)).vault.keyring = d.vault.nextRandom other n := by
    unfold Device.perform
    rw [hrun]
  have hmove : Moves share drawn (d.vault.keyring.keysOf share) (some (.ok reply))
      ((d.perform (·.rotateShare other n)).vault.keyring.keysOf share) := by
    rw [hkr]
    unfold Vault.nextRandom
    rw [Keyring.keysOf_pushShareKey]
    split
    · rename_i hs
      subst hs
      exact .draws _ (hdrawn rfl) (by simp)
    · exact .stays
  refine Follows.onState (fun epoch _ => Follows.bind (Follows.get ?_)) fun _ _ => hmove
  refine Follows.bind (Follows.bind (listDevices_follows hmove fun reply l => Follows.pure ?_))
  refine Follows.bind (rewrapMembers_follows _ .stays fun X ws hX => ?_)
  exact pushed_follows hX fun X _ hX => Follows.pure hX

end Devices

/-! ## Rounds -/

namespace Sync

open Devices Client

variable {share : Uuid} {drawn : Option (List Key)} {X : List Key → Prop} {d : Device}

/-- The list as it was, or a longer one from the answer. -/
def Took (share : Uuid) (keys : List Key) (a : Answer) (keys' : List Key) : Prop :=
  keys' = keys ∨ (Offers share a keys' ∧ keys.length < keys'.length)

theorem Took.moves {keys keys' : List Key} {a : Answer} (h : Took share keys a keys') : Moves share drawn keys a keys' := by
  rcases h with rfl | ⟨hoffer, hlt⟩
  · exact .stays
  · exact .takes hoffer hlt

theorem Took.absorb {keys : List Key} {l : List ShareMembership} {m : ShareMembership} {other : Uuid} {list : KeyBytes}
    (h : Took share keys (some (.ok (.shares l))) (d.vault.keyring.keysOf share)) (hm : m ∈ l)
    (hother : m.shareId.decode16 = some other) (hlist : unwrapped d m.wrappedKey = .ok list) :
    Took share keys (some (.ok (.shares l))) ((d.perform (·.absorbShareKey other list)).vault.keyring.keysOf share) := by
  rcases d.perform_absorbShareKey other list with hsame | ⟨new, hsplit, hnew, hkr⟩
  · rw [hsame]
    exact h
  rw [hkr, Device.rekey_keyring, Keyring.keysOf_setShareKeys]
  split
  swap
  · exact h
  rename_i hs
  subst hs
  obtain ⟨b, hb, hopen⟩ := unwrapped_ok hlist
  obtain rfl := Crypto.unwrapVaultKey_eq_ok.mp hopen
  have hkeys : list.keys = new := (Vault.splitKeyList_eq hsplit).symm
  have hlonger := hnew.longer (Vault.splitKeyList_ok hsplit)
  refine Or.inr ⟨⟨l, rfl, m, hm, hother, _, hb, hkeys⟩, ?_⟩
  rcases h with h | ⟨-, hlt⟩
  · rwa [← h]
  · exact hlt.trans hlonger

theorem absorbShares_follows {keys : List Key} {l rest : List ShareMembership} {gained : Bool}
    {Q : (List Key → Prop) → Device → Bool → Prop} (hrest : ∀ m ∈ rest, m ∈ l)
    (h : Took share keys (some (.ok (.shares l))) (d.vault.keyring.keysOf share))
    (hX : ∀ keys', Took share keys (some (.ok (.shares l))) keys' → X keys')
    (hQ : ∀ (d : Device) gained, X (d.vault.keyring.keysOf share) → Q X d gained) :
    Follows share drawn Q X (absorbShares gained rest) d := by
  induction rest generalizing d gained with
  | nil => exact Follows.pure (hQ d gained (hX _ h))
  | cons m rest ih =>
    obtain ⟨hm, hrest⟩ := List.forall_mem_cons.mp hrest
    unfold absorbShares
    split
    · exact ih hrest h
    · rename_i other hother
      split
      · exact ih hrest h
      · refine Follows.bind (Follows.get ?_)
        dsimp only
        split
        · refine Follows.bind (Follows.bind (Follows.get (Follows.lift (fun list hlist => ?_) (hX _ h))))
          have htook := h.absorb hm hother hlist
          exact Follows.bind (Follows.onState (fun _ _ => ih hrest htook) fun _ _ => hX _ htook)
        · exact ih hrest h

theorem applyEntries_follows (held : List Uuid) (l : List WireEntry) {Q : (List Key → Prop) → Device → Nat → Prop}
    (hX : X (d.vault.keyring.keysOf share)) (hQ : ∀ (X : List Key → Prop) (d : Device) n, X (d.vault.keyring.keysOf share) → Q X d n) :
    Follows share drawn Q X (applyEntries held l) d := by
  refine (Judgement.Keeps.follows.mp (applyEntries_keeps (fun id blob => ?_) held l) d X hX).imp hQ
  refine .onState fun d X hX => ?_
  change X ((d.perform (·.applyRemoteEntry id blob)).vault.keyring.keysOf share)
  rwa [(d.applyRemoteEntry_kept id blob).2]

theorem healVault_follows (hne : share ≠ nil) {resp : WrappedResp} {Q : (List Key → Prop) → Device → Unit → Prop}
    (hX : X (d.vault.keyring.keysOf share)) (hQ : ∀ (X : List Key → Prop) (d : Device), X (d.vault.keyring.keysOf share) → Q X d ()) :
    Follows share drawn Q X (healVault resp) d := by
  refine (Judgement.Keeps.follows.mp (healVault_keeps (fun list => ?_) resp) d X hX).imp fun X d _ => hQ X d
  refine .onState fun d X hX => ?_
  change X ((d.perform (·.absorbShareKey nil list)).vault.keyring.keysOf share)
  -- The list of another share.
  rcases d.perform_absorbShareKey nil list with hsame | ⟨new, -, -, hkr⟩
  · rwa [hsame]
  · rwa [hkr, Device.rekey_keyring, Keyring.keysOf_setShareKeys, if_neg hne]

theorem syncOnce_follows (hne : share ≠ nil) (hX : X (d.vault.keyring.keysOf share)) :
    Follows share drawn (fun X d _ => X (d.vault.keyring.keysOf share)) X syncOnce d := by
  refine Follows.bind (Follows.get ?_)
  by_cases hurl : d.vault.metadata.relayUrl = none
  · rw [if_pos hurl]
    exact Follows.bind (Follows.fail hX)
  rw [if_neg hurl]
  refine Follows.bind (Follows.bind (signedGet_follows hX fun _ => Follows.bind (Follows.lift (fun resp _ => ?_) .stays)))
  refine Follows.bind (healVault_follows hne .stays fun _ d hX => Follows.bind (signedGet_follows hX fun reply => ?_))
  refine Follows.bind (Follows.lift (fun l hl => ?_) .stays)
  cases reply <;> cases hl
  refine absorbShares_follows (fun _ h => h) (Or.inl rfl) (fun _ h => h.moves) fun d gained hX => Follows.bind ?_
  refine Follows.onState (fun entries _ => Follows.bind (Follows.bind (post_follows hX fun X _ hX => ?_))) fun _ _ => hX
  refine Follows.lift (fun pushed _ => ?_) hX
  have hpull : ∀ d : Device, X (d.vault.keyring.keysOf share) →
      Follows share drawn (fun X d _ => X (d.vault.keyring.keysOf share)) X (do
        let resp ← pullEntries
        let pulled ← applyEntries (entries.map (·.1)) resp.entries
        updateVault (·.setSyncCursor resp.head)
        return (pushed.stored, pulled)) d := by
    intro d hX
    refine Follows.bind (Follows.bind (Follows.ask hX fun _ => Follows.bind (Follows.lift (fun _ _ => ?_) .stays)))
    refine Follows.lift (fun resp _ => Follows.bind (applyEntries_follows _ _ .stays fun _ d n hX => ?_)) .stays
    exact Follows.bind (Follows.onState (fun _ _ => Follows.pure hX) fun _ h => nomatch h)
  split
  · exact Follows.bind (Follows.onState (fun _ _ => hpull _ hX) fun _ h => nomatch h)
  · exact hpull d hX

end Sync

end SshVault
