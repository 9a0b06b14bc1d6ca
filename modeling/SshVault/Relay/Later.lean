import SshVault.Relay.Log

/-!
# Later states

What any request leaves at the relay has all new entries at the end of the log, and memberships change by grants and
rotations of shares only.
-/

open Lib Prog

namespace SshVault.Relay

/-- Every entry that came in between has a later number. -/
structure Later (s t : Db) : Prop where
  entries : ∀ e ∈ t.entries, e ∈ s.entries ∨ s.nextSeq ≤ e.seq
  next : s.nextSeq ≤ t.nextSeq

theorem Later.refl (s : Db) : Later s s := ⟨fun _ he => Or.inl he, le_rfl⟩

theorem Later.trans {s t u : Db} (h : Later s t) (h' : Later t u) : Later s u := by
  refine ⟨fun e he => ?_, h.next.trans h'.next⟩
  rcases h'.entries e he with he | he
  · exact h.entries e he
  · exact Or.inr (h.next.trans he)

variable {now : Now} {req : Request} {past : List (Db × Db)} {s t : Db}

theorem foldr_max_lt {l : List Nat} {n : Nat} (hpos : 0 < n) (h : ∀ m ∈ l, m < n) : l.foldr max 0 < n := by
  induction l with
  | nil => exact hpos
  | cons m l ih =>
    obtain ⟨hm, hl⟩ := List.forall_mem_cons.mp h
    exact max_lt hm (ih hl)

theorem head_lt_nextSeq (vault : Wire) : s.head vault < s.nextSeq := by
  refine foldr_max_lt (Nat.succ_pos _) (List.forall_mem_map.mpr fun e he => ?_)
  exact lt_nextSeq (List.mem_filter.mp he).1

theorem Statement.later (h : Statement now req past s t) : Later s t := by
  cases h with
  | insertEntry =>
    refine ⟨fun e he => ?_, (le_max_left _ _).trans (Nat.le_succ _)⟩
    rcases Table.mem_insertOrIgnore he with he | rfl
    · exact Or.inl he
    · exact Or.inr le_rfl
  | _ => exact ⟨fun _ he => Or.inl he, le_rfl⟩

theorem route_later (now : Now) (req : Request) (db : Db) : Later db (exec (route now req) db).2 :=
  (route_traced now req).exec (P := Later db) (fun _ _ _ hstep hs => hs.trans hstep.later) (Later.refl db)

theorem Statement.members (h : Statement now req past s t) (hgrant : ∀ signed, req ≠ .post .shareGrant signed)
    (hrotate : ∀ signed, req ≠ .post .shareRotate signed) : t.shareMembers = s.shareMembers := by
  cases h with
  | upsertMember hreq => exact absurd hreq (hgrant _)
  | deleteMember hreq => exact absurd hreq (hrotate _)
  | rewrapMember hreq => exact absurd hreq (hrotate _)
  | _ => rfl

end SshVault.Relay
