import SshVault.Relay.Admission

/-!
# Bootstrap

Concurrent enrollments into a vault that does not exist yet. The first one to insert the vault is to be
approved, but it writes that into the row of its device only if it is also the first to add this row.
-/

open Lib Prog

namespace SshVault.Relay

/-! ## Rows of one vault -/

def HasRow (db : Db) (vault : Wire) (pub : Bytes) : Prop := ∃ r ∈ db.devices, r.key = (vault, pub)

def Approved (db : Db) (vault : Wire) (pub : Bytes) : Prop := ∃ r ∈ db.devices, r.key = (vault, pub) ∧ r.approved = true

/-- The relay knows nothing of this vault. -/
structure Unknown (db : Db) (vault : Wire) : Prop where
  noVault : ¬ Known db vault
  noDevices : ∀ r ∈ db.devices, r.vaultId ≠ vault

variable {now : Now} {req : Request} {past : List (Db × Db)} {s t : Db}

theorem Statement.row_stays {vault : Wire} {pub : Bytes} (h : Statement now req past s t) (hs : HasRow s vault pub) :
    HasRow t vault pub := by
  have hkey {f : DeviceRow → DeviceRow} {p : DeviceRow → Bool} (hf : ∀ r, (f r).key = r.key) :
      ∃ r ∈ Table.update p f s.devices, r.key = (vault, pub) := Table.key_mem_update hf hs
  cases h with
  | enrollDevice => exact Table.key_mem_upsert (fun _ => rfl) hs
  | approveDevice => exact hkey fun _ => rfl
  | revokeDevice => exact hkey fun _ => rfl
  | rewrapDevice => exact hkey fun _ => rfl
  | recoverDevice => exact Table.key_mem_upsert (fun _ => rfl) hs
  | _ => exact hs

theorem Statement.approved_stays {signed : Signed} {vault : Wire} {pub : Bytes}
    (h : Statement now (.post .enroll signed) past s t) (hs : Approved s vault pub) : Approved t vault pub := by
  cases h with
  | enrollDevice =>
    obtain ⟨r, hr, hk, happ⟩ := hs
    change ∃ r' ∈ Table.upsert DeviceRow.key _ _ s.devices, _
    unfold Table.upsert
    split
    · refine ⟨_, List.mem_map_of_mem hr, ?_⟩
      split
      · exact ⟨hk, happ⟩
      · exact ⟨hk, happ⟩
    · exact ⟨r, List.mem_append_left _ hr, hk, happ⟩
  | approveDevice hreq => cases hreq
  | revokeDevice hreq => cases hreq
  | rewrapDevice hreq => cases hreq
  | recoverDevice hreq => cases hreq
  | _ => exact hs

theorem Statement.approves {signed : Signed} {vault : Wire} {pub : Bytes}
    (h : Statement now (.post .enroll signed) past s t) (hs : ¬ Approved s vault pub) (ht : Approved t vault pub) :
    ¬ HasRow s vault pub ∧ ∃ key recovery x name before, Enrolls now (.post .enroll signed) vault key recovery x name ∧
      pub = .ed key ∧ past.head? = some (before, ((Db.insertVault vault recovery).run before).2) ∧
        ((Db.insertVault vault recovery).run before).1 = true := by
  obtain ⟨r, hr, hk, happ⟩ := ht
  cases h.devices hr with
  | kept hr => exact absurd ⟨r, hr, hk, happ⟩ hs
  | enrolled henrolls hpast hfresh hnew =>
    obtain ⟨rfl, rfl⟩ := Prod.mk.inj hk
    refine ⟨?_, _, _, _, _, _, henrolls, rfl, hpast, hfresh.symm.trans happ⟩
    rintro ⟨r', hr', hk'⟩
    exact hnew r' hr' hk'
  | renamed hr₀ => exact absurd ⟨_, hr₀, hk, happ⟩ hs
  | approved hreq => cases hreq
  | revoked => cases happ
  | rewrapped hr₀ => exact absurd ⟨_, hr₀, hk, happ⟩ hs
  | recovered hreq => cases hreq

theorem insertVault_fresh {vault : Wire} {recovery : Bytes} {db : Db}
    (h : Founds db ((Db.insertVault vault recovery).run db).2 vault) : ((Db.insertVault vault recovery).run db).1 = true := by
  refine decide_eq_true fun hany => h.before ?_
  obtain ⟨v, hv, hid⟩ := List.any_eq_true.mp hany
  exact ⟨v, hv, by simpa using hid⟩

/-! ## Enrollments -/

section

variable {ι : Type}

/-- Every thread handles an enrollment into this vault. -/
structure Enrolling (now : ι → Now) (req : ι → Request) (vault : Wire) (c : Handlers ι) : Prop where
  serving : Serving now req c
  enrolls : ∀ i, ∃ signed, req i = .post .enroll signed ∧ signed.vaultId = vault

/-- The device that a request is signed by. -/
def SignedOf (req : Request) (key : EdKey) : Prop := ∃ e signed, req = .post e signed ∧ signed.devicePub.decodeEd = some key

theorem Enrolls.signed {vault : Wire} {key : EdKey} {recovery x : Bytes} {name : Wire}
    (h : Enrolls now req vault key recovery x name) : SignedOf req key := by
  obtain ⟨signed, r, hreq, hv, -⟩ := h
  exact ⟨_, signed, hreq, (verify_ok hv).2.2.1⟩

theorem SignedOf.eq {key key' : EdKey} (h : SignedOf req key) (h' : SignedOf req key') : key = key' := by
  obtain ⟨e, signed, hreq, hkey⟩ := h
  obtain ⟨e', signed', hreq', hkey'⟩ := h'
  obtain ⟨-, rfl⟩ := Request.post.inj (hreq.symm.trans hreq')
  exact Option.some.inj (hkey.symm.trans hkey')

/-- How an enrollment ends. -/
def EnrollAnswer (now : Now) (req : Request) (past : List (Db × Db)) : Except HttpError Reply → Prop
  | .ok (.enroll resp) => EnrollRun now req past resp
  | .ok _ => False
  | .error _ => Quiet past

theorem Enrolling.vault_eq {now : ι → Now} {req : ι → Request} {vault vault' : Wire} {c : Handlers ι}
    (h : Enrolling now req vault c) {i : ι} {key : EdKey} {recovery x : Bytes} {name : Wire}
    (henrolls : Enrolls (now i) (req i) vault' key recovery x name) : vault' = vault := by
  obtain ⟨signed, hreq, hv⟩ := h.enrolls i
  obtain ⟨signed', r, hreq', hver, -⟩ := henrolls
  obtain ⟨-, rfl⟩ := Request.post.inj (hreq.symm.trans hreq')
  exact (verify_ok hver).2.1.trans hv

theorem Enrolling.traced {now : ι → Now} {req : ι → Request} {vault : Wire} {c : Handlers ι} (h : Enrolling now req vault c)
    (i : ι) : (c.thread i).Traced (Statement (now i) (req i)) (EnrollAnswer (now i) (req i)) [] := by
  obtain ⟨signed, hreq, -⟩ := h.enrolls i
  rw [h.serving i, hreq]
  refine Traced.bind ((enroll_traced signed).imp (fun _ _ _ h => h) fun past r hr => ?_)
  cases r <;> exact hr

variable [DecidableEq ι] {vault : Wire}

/-- The row of the device that founds the vault is added by the handler that founds the vault, and not by another
enrollment of the same device. -/
def Undisturbed (req : ι → Request) (h : List (ι × Db × Db)) (vault : Wire) : Prop :=
  ∀ i before after key, (i, before, after) ∈ h → Founds before after vault → SignedOf (req i) key →
    ∀ j s t, (j, s, t) ∈ h → ¬ HasRow s vault (.ed key) → HasRow t vault (.ed key) → j = i

variable {now : ι → Now} {req : ι → Request} {c₀ c : Handlers ι} {h : List (ι × Db × Db)}

/-- The handler that founds the vault ends well: these are its steps. -/
theorem Enrolling.founder (henrolling : Enrolling now req vault c₀) (hrun : Pool.Trace c₀ h c) {i : ι} {b a : Db}
    (hdone : (c.thread i).isDone = true) (hmem : (i, b, a) ∈ h) (hfounds : Founds b a vault) :
    ∃ key recovery x name, Enrolls (now i) (req i) vault key recovery x name ∧ a.devices = b.devices ∧
      ∃ atDevice atHead atRow : Db, Pool.own i h = [(atHead, atHead),
        (atDevice, ((Db.enrollDevice vault (.ed key) x name true).run atDevice).2), (b, a), (atRow, atRow)] := by
  obtain ⟨res, hres⟩ : ∃ res, c.thread i = .done res := by
    cases hthread : c.thread i with
    | done res => exact ⟨res, rfl⟩
    | step u k =>
      rw [hthread] at hdone
      cases hdone
  have hown := Pool.mem_own.mpr hmem
  have hanswer := hrun.answer (henrolling.traced i) hres
  have hne : b ≠ a := by
    rintro rfl
    exact hfounds.before hfounds.after
  match res, hanswer with
  | .error e, hquiet => exact absurd (hquiet (b, a) hown) hne
  | .ok (.enroll resp), hanswer =>
    obtain ⟨vault', key, recovery, x, name, henrolls, atRow, before, atDevice, atHead, hpast, -⟩ := hanswer
    obtain rfl := henrolling.vault_eq henrolls
    rw [hpast] at hown ⊢
    simp only [List.mem_cons, Prod.mk.injEq, List.not_mem_nil, or_false] at hown
    -- Of its four steps only the `INSERT` can make the vault known.
    rcases hown with ⟨rfl, rfl⟩ | ⟨rfl, rfl⟩ | ⟨rfl, rfl⟩ | ⟨rfl, rfl⟩
    · exact absurd rfl hne
    · exact absurd hfounds.after hfounds.before
    · rw [insertVault_fresh hfounds]
      exact ⟨key, recovery, x, name, henrolls, rfl, atDevice, atHead, atRow, rfl⟩
    · exact absurd rfl hne

theorem Enrolling.approved (henrolling : Enrolling now req vault c₀) (hunknown : Unknown c₀.state vault)
    (hrun : Pool.Trace c₀ h c) {pub : Bytes} (happ : Approved c.state vault pub) :
    ∃ i s t key b a, (i, s, t) ∈ h ∧ ¬ HasRow s vault pub ∧ HasRow t vault pub ∧ (i, b, a) ∈ h ∧ Founds b a vault ∧
      SignedOf (req i) key ∧ pub = .ed key := by
  have hnot : ¬ Approved c₀.state vault pub := by
    rintro ⟨r, hr, hk, -⟩
    exact hunknown.noDevices r hr (Prod.mk.inj hk).1
  obtain ⟨i, s, t, hmem, hs, ht⟩ := hrun.turns (p := (Approved · vault pub)) hnot happ
  obtain ⟨h', hsuf, hstep⟩ := hrun.step_of_mem henrolling.traced hmem
  obtain ⟨signed, hreq, -⟩ := henrolling.enrolls i
  rw [hreq] at hstep
  obtain ⟨hrow, key, recovery, x, name, before, henrolls, hpub, hpast, hfresh⟩ := hstep.approves hs ht
  obtain ⟨r, hr, hk, -⟩ := ht
  refine ⟨i, s, t, key, _, _, hmem, hrow, ⟨r, hr, hk⟩, hsuf.subset (head_own hpast), insertVault_founds hfresh, ?_, hpub⟩
  rw [hreq]
  exact henrolls.signed

theorem Enrolling.rows (henrolling : Enrolling now req vault c₀) (hrun : Pool.Trace c₀ h c) {i j : ι} {s t s' t' : Db}
    {pub : Bytes} (hi : (i, s, t) ∈ h) (hj : (j, s', t') ∈ h) (hs : ¬ HasRow s vault pub) (ht : HasRow t vault pub)
    (hs' : ¬ HasRow s' vault pub) (ht' : HasRow t' vault pub) : i = j :=
  congrArg Prod.fst (hrun.once henrolling.traced (fun _ _ _ _ h => h.row_stays) hi hj hs ht hs' ht')

theorem Enrolling.founders (henrolling : Enrolling now req vault c₀) (hrun : Pool.Trace c₀ h c) {i j : ι} {s t s' t' : Db}
    (hi : (i, s, t) ∈ h) (hj : (j, s', t') ∈ h) (hf : Founds s t vault) (hf' : Founds s' t' vault) : i = j :=
  congrArg Prod.fst (hrun.once henrolling.traced (fun _ _ _ _ h => h.known) hi hj hf.before hf.after hf'.before hf'.after)

theorem Enrolling.wins (henrolling : Enrolling now req vault c₀) (hunknown : Unknown c₀.state vault)
    (hrun : Pool.Trace c₀ h c) (hdone : ∀ i, (c.thread i).isDone = true) (hundisturbed : Undisturbed req h vault) {i : ι}
    {b a : Db} (hmem : (i, b, a) ∈ h) (hfounds : Founds b a vault) :
    ∃ key, SignedOf (req i) key ∧ Approved c.state vault (.ed key) := by
  obtain ⟨key, recovery, x, name, henrolls, hframe, atDevice, atHead, atRow, hown⟩ :=
    henrolling.founder hrun (hdone i) hmem hfounds
  have hdevice : (i, atDevice, ((Db.enrollDevice vault (.ed key) x name true).run atDevice).2) ∈ h :=
    Pool.mem_own.mp (by rw [hown]; simp)
  have hrow : HasRow ((Db.enrollDevice vault (.ed key) x name true).run atDevice).2 vault (.ed key) := by
    change ∃ r ∈ Table.upsert DeviceRow.key _ _ atDevice.devices, _
    unfold Table.upsert
    split
    · rename_i hold
      exact Table.key_mem_update (fun _ => rfl) hold
    · exact ⟨_, List.mem_append_right _ (List.mem_singleton.mpr rfl), rfl⟩
  have hnot : ¬ HasRow c₀.state vault (.ed key) := by
    rintro ⟨r, hr, hk⟩
    exact hunknown.noDevices r hr (Prod.mk.inj hk).1
  -- Some step adds the row, and only the founder may.
  obtain ⟨j, s, t, hadd, hs, ht⟩ := hrun.turns hnot
    (hrun.stays henrolling.traced (fun _ _ _ _ h => h.row_stays) hdevice hrow)
  obtain rfl := hundisturbed i b a key hmem hfounds henrolls.signed j s t hadd hs ht
  have hadded := Pool.mem_own.mpr hadd
  rw [hown] at hadded
  simp only [List.mem_cons, Prod.mk.injEq, List.not_mem_nil, or_false] at hadded
  refine ⟨key, henrolls.signed, ?_⟩
  have happroved : Approved ((Db.enrollDevice vault (.ed key) x name true).run atDevice).2 vault (.ed key) := by
    rcases hadded with ⟨rfl, rfl⟩ | ⟨rfl, rfl⟩ | ⟨rfl, rfl⟩ | ⟨rfl, rfl⟩
    · exact absurd ht hs
    · change ∃ r ∈ Table.upsert DeviceRow.key _ _ s.devices, _
      unfold Table.upsert
      split
      · rename_i hold
        exact absurd hold hs
      · exact ⟨_, List.mem_append_right _ (List.mem_singleton.mpr rfl), rfl, rfl⟩
    · unfold HasRow at hs ht
      rw [hframe] at ht
      exact absurd ht hs
    · exact absurd ht hs
  refine hrun.stays (p := (Approved · vault (.ed key))) henrolling.traced (fun k _ _ _ hstep => ?_) hdevice happroved
  obtain ⟨signed, hreq, -⟩ := henrolling.enrolls k
  rw [hreq] at hstep
  exact hstep.approved_stays

/-- **Bootstrap.** When all enrollments into an unknown vault have ended, at least one of them well: exactly one
device is approved, and only devices that are approved were told so, if and only if the founder's handler adds
the row of its own device. -/
theorem bootstrap_iff (henrolling : Enrolling now req vault c₀) (hunknown : Unknown c₀.state vault)
    (hrun : Pool.Trace c₀ h c) (hdone : ∀ i, (c.thread i).isDone = true)
    (hsome : ∃ i resp, c.thread i = .done (.ok (.enroll resp))) :
    ((∃ pub, Approved c.state vault pub ∧ ∀ pub', Approved c.state vault pub' → pub' = pub) ∧
      ∀ i key resp, SignedOf (req i) key → c.thread i = .done (.ok (.enroll resp)) → resp.approved = true →
        Approved c.state vault (.ed key)) ↔
    Undisturbed req h vault := by
  constructor
  · rintro ⟨⟨pub, happ, -⟩, -⟩ i before after key hmem hfounds hkey j s t hadd hs ht
    obtain ⟨i', s', t', key', b, a, hadd', hs', ht', hmem', hfounds', hkey', rfl⟩ := henrolling.approved hunknown hrun happ
    -- One handler founds the vault and one adds the row of its device.
    obtain rfl := henrolling.founders hrun hmem hmem' hfounds hfounds'
    obtain rfl := hkey.eq hkey'
    exact henrolling.rows hrun hadd hadd' hs ht hs' ht'
  · intro hundisturbed
    have hwins : ∀ i b a, (i, b, a) ∈ h → Founds b a vault →
        ∃ key, SignedOf (req i) key ∧ Approved c.state vault (.ed key) := fun i b a hmem hfounds =>
      henrolling.wins hunknown hrun hdone hundisturbed hmem hfounds
    have hfounded : ∀ i resp, c.thread i = .done (.ok (.enroll resp)) →
        ∃ b recovery, (i, b, ((Db.insertVault vault recovery).run b).2) ∈ h ∧
          resp.approved = ((Db.insertVault vault recovery).run b).1 := by
      intro i resp hres
      obtain ⟨vault', key, recovery, x, name, henrolls, atRow, before, atDevice, atHead, hpast, happroved⟩ :=
        hrun.answer (henrolling.traced i) hres
      obtain rfl := henrolling.vault_eq henrolls
      exact ⟨before, recovery, Pool.mem_own.mp (by rw [hpast]; simp), happroved⟩
    obtain ⟨i, resp, hres⟩ := hsome
    obtain ⟨b, recovery, hmem, -⟩ := hfounded i resp hres
    have hknown : Known ((Db.insertVault vault recovery).run b).2 vault := by
      change ∃ v ∈ Table.insertOrIgnore VaultRow.vaultId _ b.vaults, _
      unfold Table.insertOrIgnore
      split
      · rename_i hold
        exact hold
      · exact ⟨_, List.mem_append_right _ (List.mem_singleton.mpr rfl), rfl⟩
    -- The vault was unknown and is known, so some handler has founded it.
    obtain ⟨j, s, t, hj, hs, ht⟩ := hrun.turns (p := (Known · vault)) hunknown.noVault
      (hrun.stays henrolling.traced (fun _ _ _ _ h => h.known) hmem hknown)
    obtain ⟨key, hkey, happ⟩ := hwins j s t hj ⟨hs, ht⟩
    refine ⟨⟨.ed key, happ, fun pub' happ' => ?_⟩, fun i' key' resp' hkey' hres' htold => ?_⟩
    · obtain ⟨i', -, -, key', b', a', -, -, -, hmem', hfounds', hkey', rfl⟩ := henrolling.approved hunknown hrun happ'
      obtain rfl := henrolling.founders hrun hj hmem' ⟨hs, ht⟩ hfounds'
      rw [hkey.eq hkey']
    · obtain ⟨b', recovery', hmem', happroved⟩ := hfounded i' resp' hres'
      have hfounds' := insertVault_founds (happroved.symm.trans htold)
      obtain ⟨key'', hkey'', happ''⟩ := hwins i' _ _ hmem' hfounds'
      rwa [hkey'.eq hkey'']

end

/-! ## A retried enrollment -/

namespace FirstDevice

theorem two_enrolling : Enrolling (fun _ => 0) two vault startTwo := by
  refine ⟨fun _ => rfl, fun i => ?_⟩
  cases i with
  | false => exact ⟨enrollment, rfl, rfl⟩
  | true => exact ⟨enrollmentOf 2, rfl, rfl⟩

theorem two_unknown : Unknown startTwo.state vault := by
  refine ⟨?_, fun r hr => nomatch hr⟩
  rintro ⟨v, hv, -⟩
  cases hv

/-- The same request for both threads. -/
def retried : Handlers Bool := ⟨fun _ => (route 0 (.post .enroll enrollment)).run, {}⟩

/-- Both handlers find no row; thread `false` founds the vault, and thread `true` runs to its end before thread
`false` goes on. -/
def overtaken : Handlers Bool := retried.play [false, false, true, true, true, true, false, false]

end FirstDevice

open FirstDevice

theorem bootstrap_iff_contested : ∃ h, Pool.Trace startTwo h contested ∧
    (((∃ pub, Approved contested.state FirstDevice.vault pub ∧
        ∀ pub', Approved contested.state FirstDevice.vault pub' → pub' = pub) ∧
      ∀ i key resp, SignedOf (two i) key → contested.thread i = .done (.ok (.enroll resp)) →
        resp.approved = true → Approved contested.state FirstDevice.vault (.ed key)) ↔
    Undisturbed two h FirstDevice.vault) := by
  obtain ⟨h, hrun⟩ := Pool.Trace.play (@Pool.Trace.start _ _ _ _ startTwo) turns
  have hdone : ∀ i, (contested.thread i).isDone = true := by decide +kernel
  exact ⟨h, hrun, bootstrap_iff two_enrolling two_unknown hrun hdone ⟨false, ⟨true, 0⟩, rfl⟩⟩

/-- The device is told that it is approved, and no device of the vault is. -/
theorem retried_enroll_locks_out : ∃ h, Pool.Trace retried h overtaken ∧
    (∀ i, (overtaken.thread i).isDone = true) ∧ overtaken.thread false = .done (.ok (.enroll ⟨true, 0⟩)) ∧
      ¬ ∃ pub, Approved overtaken.state FirstDevice.vault pub := by
  obtain ⟨h, hrun⟩ := Pool.Trace.play (@Pool.Trace.start _ _ _ _ retried) [false, false, true, true, true, true, false, false]
  refine ⟨h, hrun, by decide +kernel, rfl, ?_⟩
  rintro ⟨pub, r, hr, -, happ⟩
  have hnone : ∀ r ∈ overtaken.state.devices, r.approved = false := by decide +kernel
  rw [hnone r hr] at happ
  cases happ

end SshVault.Relay
