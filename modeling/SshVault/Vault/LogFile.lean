import SshVault.Lib.PrefixCode
import SshVault.Vault.Snapshots

/-!
# The bytes of the log (`log.bin`)

A frame is `u32 len || entry_id(16) || blob`. `parseFrames` cuts the bytes by offset and gives `none`
where the source would index out of bounds and panic.
-/

open Lib

namespace SshVault

namespace LogFile

/-- `[u8; 16]`. -/
structure EntryId where
  bytes : List UInt8
  length_eq : bytes.length = 16
  deriving DecidableEq

abbrev RawEntry := EntryId × List UInt8

/-- `(n as u32).to_le_bytes()`. -/
def toLeBytes (n : Nat) : List UInt8 :=
  [UInt8.ofNat n, UInt8.ofNat (n / 256), UInt8.ofNat (n / 65536), UInt8.ofNat (n / 16777216)]

/-- `u32::from_le_bytes`, of a slice that has to have four bytes. -/
def fromLeBytes : List UInt8 → Option Nat
  | [a, b, c, d] => some (a.toNat + b.toNat * 256 + c.toNat * 65536 + d.toNat * 16777216)
  | _ => none

/-- The bytes that `write_frame_inner` appends. -/
def encodeFrame (e : RawEntry) : List UInt8 := toLeBytes (16 + e.2.length) ++ e.1.bytes ++ e.2

/-- `data[a..b]`. -/
def slice (data : List UInt8) (a b : Nat) : Option (List UInt8) :=
  if a ≤ b ∧ b ≤ data.length then some ((data.drop a).take (b - a)) else none

/-- `try_into().unwrap()` of a slice into an entry id. -/
def toEntryId (bytes : List UInt8) : Option EntryId :=
  if h : bytes.length = 16 then some ⟨bytes, h⟩ else none

/-- The loop of `parse_frames`. A `usize` holds every offset, since no vector is longer than `isize::MAX`. -/
def parseFrom (data : List UInt8) (off : Nat) (out : List RawEntry) : Option (Except VaultError (List RawEntry)) :=
  if _ : off + 4 ≤ data.length then do
    let len ← fromLeBytes (← slice data off (off + 4))
    if len < 16 ∨ off + 4 + len > data.length then
      some (.error (.corrupt "truncated log frame"))
    else do
      let id ← toEntryId (← slice data (off + 4) (off + 4 + 16))
      let blob ← slice data (off + 4 + 16) (off + 4 + len)
      parseFrom data (off + 4 + len) (out ++ [(id, blob)])
  else if off ≠ data.length then some (.error (.corrupt "trailing bytes in log"))
  else some (.ok out)
termination_by data.length - off

/-- Splits raw log bytes into frames without decrypting. -/
def parseFrames (data : List UInt8) : Option (Except VaultError (List RawEntry)) := parseFrom data 0 []

/-- A frame whose length the prefix can hold. -/
def Fits (e : RawEntry) : Prop := 16 + e.2.length < 4294967296

/-! ## The prefix -/

theorem fromLeBytes_toLeBytes {n : Nat} (h : n < 4294967296) : fromLeBytes (toLeBytes n) = some n := by
  unfold toLeBytes fromLeBytes
  simp only [UInt8.toNat_ofNat', Option.some.injEq]
  omega

theorem toLeBytes_of_fromLeBytes {bytes : List UInt8} {n : Nat} (h : fromLeBytes bytes = some n) :
    toLeBytes n = bytes ∧ n < 4294967296 := by
  unfold fromLeBytes at h
  split at h
  · rename_i a b c d
    obtain rfl := Option.some.inj h
    have ha := a.toNat_lt
    have hb := b.toNat_lt
    have hc := c.toNat_lt
    have hd := d.toNat_lt
    refine ⟨?_, by omega⟩
    unfold toLeBytes
    simp only [List.cons.injEq, and_true, ← UInt8.toNat_inj, UInt8.toNat_ofNat']
    omega
  · cases h

theorem slice_append {s t u : List UInt8} {a b : Nat} (ha : s.length = a) (hb : a + t.length = b) :
    slice (s ++ t ++ u) a b = some t := by
  unfold slice
  rw [if_pos ⟨by omega, by simp; omega⟩, List.append_assoc, List.drop_left' ha, List.take_left' (by omega)]

theorem length_toLeBytes (n : Nat) : (toLeBytes n).length = 4 := rfl

theorem length_encodeFrame (e : RawEntry) : (encodeFrame e).length = 4 + (16 + e.2.length) := by
  unfold encodeFrame
  rw [List.length_append, List.length_append, length_toLeBytes, e.1.length_eq]
  omega

/-! ## One frame -/

theorem parseFrom_more {data word idBytes blob : List UInt8} {off len : Nat} {id : EntryId} (hoff : off + 4 ≤ data.length)
    (hword : slice data off (off + 4) = some word) (hlen : fromLeBytes word = some len)
    (hsound : ¬ (len < 16 ∨ off + 4 + len > data.length)) (hid : slice data (off + 4) (off + 4 + 16) = some idBytes)
    (hentry : toEntryId idBytes = some id) (hblob : slice data (off + 4 + 16) (off + 4 + len) = some blob)
    (out : List RawEntry) : parseFrom data off out = parseFrom data (off + 4 + len) (out ++ [(id, blob)]) := by
  conv_lhs => unfold parseFrom
  rw [dif_pos hoff, hword]
  simp only [Option.bind_eq_bind, Option.bind_some, hlen, if_neg hsound, hid, hentry, hblob]

theorem parseFrom_truncated {data word : List UInt8} {off len : Nat} (hoff : off + 4 ≤ data.length)
    (hword : slice data off (off + 4) = some word) (hlen : fromLeBytes word = some len)
    (hbad : len < 16 ∨ off + 4 + len > data.length) (out : List RawEntry) :
    parseFrom data off out = some (.error (.corrupt "truncated log frame")) := by
  unfold parseFrom
  rw [dif_pos hoff, hword]
  simp only [Option.bind_eq_bind, Option.bind_some, hlen, if_pos hbad]

theorem parseFrom_frame {s t : List UInt8} {e : RawEntry} (he : Fits e) (out : List RawEntry) :
    parseFrom (s ++ encodeFrame e ++ t) s.length out =
      parseFrom (s ++ encodeFrame e ++ t) (s.length + (encodeFrame e).length) (out ++ [e]) := by
  have hlen : (s ++ encodeFrame e ++ t).length = s.length + (4 + (16 + e.2.length)) + t.length := by
    rw [List.length_append, List.length_append, length_encodeFrame]
  have hhead : slice (s ++ encodeFrame e ++ t) s.length (s.length + 4) = some (toLeBytes (16 + e.2.length)) := by
    have hdata : s ++ encodeFrame e ++ t = s ++ toLeBytes (16 + e.2.length) ++ (e.1.bytes ++ e.2 ++ t) := by
      unfold encodeFrame
      simp only [List.append_assoc]
    rw [hdata]
    exact slice_append rfl rfl
  have hid : slice (s ++ encodeFrame e ++ t) (s.length + 4) (s.length + 4 + 16) = some e.1.bytes := by
    have hdata : s ++ encodeFrame e ++ t = (s ++ toLeBytes (16 + e.2.length)) ++ e.1.bytes ++ (e.2 ++ t) := by
      unfold encodeFrame
      simp only [List.append_assoc]
    rw [hdata]
    exact slice_append (by rw [List.length_append, length_toLeBytes]) (by rw [e.1.length_eq])
  have hblob : slice (s ++ encodeFrame e ++ t) (s.length + 4 + 16) (s.length + 4 + (16 + e.2.length)) = some e.2 := by
    have hdata : s ++ encodeFrame e ++ t = (s ++ toLeBytes (16 + e.2.length) ++ e.1.bytes) ++ e.2 ++ t := by
      unfold encodeFrame
      simp only [List.append_assoc]
    rw [hdata]
    refine slice_append ?_ (by omega)
    rw [List.length_append, List.length_append, length_toLeBytes, e.1.length_eq]
  have hentry : toEntryId e.1.bytes = some e.1 := by
    unfold toEntryId
    rw [dif_pos e.1.length_eq]
  rw [parseFrom_more (by omega) hhead (fromLeBytes_toLeBytes he) (by omega) hid hentry hblob, length_encodeFrame,
    Nat.add_assoc]

theorem parseFrom_error {s r : List UInt8} (hr : r ≠ []) (hno : ∀ e t, Fits e → r ≠ encodeFrame e ++ t)
    (out : List RawEntry) : ∃ err, parseFrom (s ++ r) s.length out = some (.error err) := by
  have hpos := List.length_pos_of_ne_nil hr
  have hlen : (s ++ r).length = s.length + r.length := List.length_append
  by_cases hoff : s.length + 4 ≤ (s ++ r).length
  swap
  · unfold parseFrom
    rw [dif_neg hoff, if_pos (by omega)]
    exact ⟨_, rfl⟩
  have hhead : slice (s ++ r) s.length (s.length + 4) = some (r.take 4) := by
    have hdata : s ++ r = s ++ r.take 4 ++ r.drop 4 := by rw [List.append_assoc, List.take_append_drop]
    rw [hdata]
    exact slice_append rfl (by rw [List.length_take]; omega)
  obtain ⟨a, b, c, d, hfour⟩ : ∃ a b c d, r.take 4 = [a, b, c, d] := by
    match r, hlen with
    | a :: b :: c :: d :: _, _ => exact ⟨a, b, c, d, rfl⟩
    | [], _ => simp at hr
    | [_], _ => simp at hoff
    | [_, _], _ => simp at hoff
    | [_, _, _], _ => simp at hoff
  obtain ⟨n, hn⟩ : ∃ n, fromLeBytes (r.take 4) = some n := by
    rw [hfour]
    exact ⟨_, rfl⟩
  by_cases hbad : n < 16 ∨ s.length + 4 + n > (s ++ r).length
  · exact ⟨_, parseFrom_truncated hoff hhead hn hbad out⟩
  -- The length is sound, so the bytes begin with a frame after all.
  obtain ⟨hle, hlt⟩ := toLeBytes_of_fromLeBytes hn
  have hidlen : ((r.drop 4).take 16).length = 16 := by
    rw [List.length_take, List.length_drop]
    omega
  have hbloblen : (((r.drop 4).drop 16).take (n - 16)).length = n - 16 := by
    rw [List.length_take, List.length_drop, List.length_drop]
    omega
  refine absurd ?_ (hno (⟨(r.drop 4).take 16, hidlen⟩, ((r.drop 4).drop 16).take (n - 16))
    (((r.drop 4).drop 16).drop (n - 16)) ?_)
  swap
  · unfold Fits
    rw [hbloblen]
    omega
  unfold encodeFrame
  rw [hbloblen, show 16 + (n - 16) = n by omega, hle]
  simp only [List.append_assoc, List.take_append_drop]

/-! ## The whole log -/

theorem encodeFrame_prefixCode : PrefixCode encodeFrame Fits where
  ne_nil e _ h := by
    have hlen := length_encodeFrame e
    rw [h, List.length_nil] at hlen
    omega
  unique := by
    intro a b s t ha hb h
    unfold encodeFrame at h
    simp only [List.append_assoc] at h
    obtain ⟨hhead, h⟩ := List.append_inj h rfl
    obtain ⟨hid, h⟩ := List.append_inj h (a.1.length_eq.trans b.1.length_eq.symm)
    have hword : fromLeBytes (toLeBytes (16 + a.2.length)) = fromLeBytes (toLeBytes (16 + b.2.length)) := by rw [hhead]
    rw [fromLeBytes_toLeBytes ha, fromLeBytes_toLeBytes hb] at hword
    have hlen : 16 + a.2.length = 16 + b.2.length := Option.some.inj hword
    obtain ⟨hblob, -⟩ := List.append_inj h (by omega)
    obtain ⟨⟨_, _⟩, _⟩ := a
    obtain ⟨⟨_, _⟩, _⟩ := b
    cases hid
    cases hblob
    rfl

/-- What `parseFrom` does at the end of `s` when `r` is left, by what `r` is made of. -/
def Reads (s r : List UInt8) (out : List RawEntry) : Prop :=
  (∃ l : List RawEntry, (∀ e ∈ l, Fits e) ∧ r = l.flatMap encodeFrame ∧
      parseFrom (s ++ r) s.length out = some (.ok (out ++ l))) ∨
    (¬ ∃ l : List RawEntry, (∀ e ∈ l, Fits e) ∧ r = l.flatMap encodeFrame) ∧
      ∃ err, parseFrom (s ++ r) s.length out = some (.error err)

theorem Reads.nil (s : List UInt8) (out : List RawEntry) : Reads s [] out := by
  refine Or.inl ⟨[], List.forall_mem_nil _, rfl, ?_⟩
  unfold parseFrom
  rw [List.append_nil, List.append_nil, dif_neg (by omega), if_neg (by simp)]

theorem Reads.frame {s t : List UInt8} {e : RawEntry} {out : List RawEntry} (he : Fits e)
    (ht : Reads (s ++ encodeFrame e) t (out ++ [e])) : Reads s (encodeFrame e ++ t) out := by
  have hstep := parseFrom_frame (s := s) (t := t) he out
  unfold Reads at ht ⊢
  rw [← List.append_assoc s, hstep]
  rw [List.length_append] at ht
  rcases ht with ⟨l, hl, hr, hrun⟩ | ⟨hno, herr⟩
  · refine Or.inl ⟨e :: l, List.forall_mem_cons.mpr ⟨he, hl⟩, by rw [hr, List.flatMap_cons], ?_⟩
    rw [hrun, List.append_assoc, List.singleton_append]
  · refine Or.inr ⟨?_, herr⟩
    rintro ⟨l, hl, h⟩
    cases l with
    | nil =>
      exact encodeFrame_prefixCode.ne_nil e he (List.append_eq_nil_iff.mp h).1
    | cons e' l =>
      obtain ⟨he', hfit⟩ := List.forall_mem_cons.mp hl
      rw [List.flatMap_cons] at h
      obtain rfl := encodeFrame_prefixCode.unique e e' _ _ he he' h
      exact hno ⟨l, hfit, List.append_cancel_left h⟩

/-- The loop returns the frames that stand in what is left of the log, or an error if anything else stands there. -/
theorem parseFrom_spec (n : Nat) : ∀ (s r : List UInt8) (out : List RawEntry), r.length < n → Reads s r out := by
  induction n with
  | zero => exact fun _ _ _ h => absurd h (Nat.not_lt_zero _)
  | succ n ih =>
    intro s r out hlen
    by_cases hr : r = []
    · rw [hr]
      exact Reads.nil s out
    by_cases hframe : ∃ e t, Fits e ∧ r = encodeFrame e ++ t
    · obtain ⟨e, t, he, hr⟩ := hframe
      rw [hr]
      refine Reads.frame he (ih _ _ _ ?_)
      rw [hr, List.length_append, length_encodeFrame] at hlen
      omega
    · push Not at hframe
      refine Or.inr ⟨?_, parseFrom_error hr hframe out⟩
      rintro ⟨l, hl, h⟩
      cases l with
      | nil => exact hr h
      | cons e l => exact hframe e (l.flatMap encodeFrame) (hl e List.mem_cons_self) (h.trans List.flatMap_cons)

theorem parseFrames_spec (data : List UInt8) :
    (∃ l : List RawEntry, (∀ e ∈ l, Fits e) ∧ data = l.flatMap encodeFrame ∧ parseFrames data = some (.ok l)) ∨
      (¬ ∃ l : List RawEntry, (∀ e ∈ l, Fits e) ∧ data = l.flatMap encodeFrame) ∧
        ∃ err, parseFrames data = some (.error err) :=
  parseFrom_spec (data.length + 1) [] data [] (Nat.lt_succ_self _)

theorem parseFrames_encode {l : List RawEntry} (hl : ∀ e ∈ l, Fits e) : parseFrames (l.flatMap encodeFrame) = some (.ok l) := by
  rcases parseFrames_spec (l.flatMap encodeFrame) with ⟨l', hl', hdata, hparse⟩ | ⟨hno, -⟩
  · rw [hparse, encodeFrame_prefixCode.injective hl hl' hdata]
  · exact absurd ⟨l, hl, rfl⟩ hno

theorem parseFrames_eq_ok {data : List UInt8} {l : List RawEntry} (h : parseFrames data = some (.ok l)) :
    (∀ e ∈ l, Fits e) ∧ data = l.flatMap encodeFrame := by
  rcases parseFrames_spec data with ⟨l', hl', hdata, hparse⟩ | ⟨-, err, hparse⟩
  · rw [hparse] at h
    obtain rfl : l' = l := Except.ok.inj (Option.some.inj h)
    exact ⟨hl', hdata⟩
  · rw [hparse] at h
    cases Option.some.inj h

/-- **The log format.** Frames are read back as they were written, nothing else is read at all, every slice lies
within the bytes, and what is appended is read behind what was there. -/
theorem parseFrames_lossless :
    (∀ l : List RawEntry, (∀ e ∈ l, e.2.length < 4294967296 - 16) → parseFrames (l.flatMap encodeFrame) = some (.ok l)) ∧
      (∀ data l, parseFrames data = some (.ok l) → data = l.flatMap encodeFrame) ∧
      (∀ data, parseFrames data ≠ none) ∧
      ∀ data l (e : RawEntry), parseFrames data = some (.ok l) → e.2.length < 4294967296 - 16 →
        parseFrames (data ++ encodeFrame e) = some (.ok (l ++ [e])) := by
  have hfits : ∀ e : RawEntry, e.2.length < 4294967296 - 16 → Fits e := by
    intro e h
    unfold Fits
    omega
  refine ⟨?_, ?_, ?_, ?_⟩
  · intro l hl
    exact parseFrames_encode fun e he => hfits e (hl e he)
  · intro data l h
    exact (parseFrames_eq_ok h).2
  · intro data h
    rcases parseFrames_spec data with ⟨l, -, -, hparse⟩ | ⟨-, err, hparse⟩
    · rw [hparse] at h
      cases h
    · rw [hparse] at h
      cases h
  · intro data l e h he
    obtain ⟨hl, rfl⟩ := parseFrames_eq_ok h
    rw [← List.flatMap_singleton encodeFrame e, ← List.flatMap_append]
    refine parseFrames_encode fun x hx => ?_
    rcases List.mem_append.mp hx with hx | hx
    · exact hl x hx
    · rw [List.mem_singleton.mp hx]
      exact hfits e he

/-! ## Interrupted appends

`view` says which entry id and which sealed blob the bytes of a frame stand for. -/

/-- `Vault::open` of a directory whose log file holds `data`. -/
def openDirectory (view : RawEntry → Frame) (d : Disk) (data : List UInt8) : Option (Except VaultError Vault) :=
  match parseFrames data with
  | none => none
  | some (.error e) => some (.error e)
  | some (.ok l) => some (Vault.openVault.run { d with log := l.map view }).1

/-- `log.bin` after `write_frame_inner` has stopped behind the first `n` bytes of a frame. -/
def interrupted (log : List RawEntry) (e : RawEntry) (n : Nat) : List UInt8 :=
  log.flatMap encodeFrame ++ (encodeFrame e).take n

/-- The vault opens with the frames of `kept`, and frames that are appended later are read back behind them. -/
def OpensWith (view : RawEntry → Frame) (d : Disk) (data : List UInt8) (kept : List RawEntry) : Prop :=
  (∃ v w, openDirectory view d data = some (.ok v) ∧ openDirectory view d (kept.flatMap encodeFrame) = some (.ok w) ∧
      v.state = w.state) ∧
    ∀ later : List RawEntry, (∀ f ∈ later, Fits f) →
      parseFrames (data ++ later.flatMap encodeFrame) = some (.ok (kept ++ later))

/-- The device reads the frame, or skips it because it is not a member of the share. -/
def Accepted (kr : Keyring) (f : Frame) : Prop := ∃ o, kr.openEntry f.1 f.2 = .ok o

theorem openFrames_of_accepted {kr : Keyring} {frames : List Frame} (h : ∀ f ∈ frames, Accepted kr f) :
    ∃ records, Vault.openFrames kr frames = .ok records := by
  induction frames with
  | nil => exact ⟨[], rfl⟩
  | cons f frames ih =>
    obtain ⟨hf, hrest⟩ := List.forall_mem_cons.mp h
    obtain ⟨o, ho⟩ := hf
    obtain ⟨records, hrecords⟩ := ih hrest
    refine ⟨o.toList ++ records, ?_⟩
    unfold Vault.openFrames
    rw [ho, hrecords]
    rfl

theorem openVault_of_accepted {d : Disk} (h : ∀ f ∈ d.log, Accepted d.keyring.normalize f) :
    ∃ v, (Vault.openVault.run d).1 = .ok v := by
  obtain ⟨records, hall⟩ := openFrames_of_accepted h
  have hfold : ∃ out, Vault.foldFromSnapshot ⟨d.metadata, d.keyring.normalize, ∅⟩ d.log d.snapshot = .ok out := by
    have hout : ∀ start : State × Nat, ∃ out, (do
        let recs ← Vault.openFrames d.keyring.normalize (d.log.drop start.2)
        return (recs.foldl mergeInto start.1, start.2) : Except VaultError (State × Nat)) = .ok out := by
      intro start
      obtain ⟨recs, hrecs⟩ := openFrames_of_accepted fun f hf => h f (List.mem_of_mem_drop (i := start.2) hf)
      rw [hrecs]
      exact ⟨_, rfl⟩
    exact hout _
  obtain ⟨⟨state, covered⟩, hfold⟩ := hfold
  have hrun : ∃ (v : Vault) (d' : Disk), (Vault.replayLog ⟨d.metadata, d.keyring.normalize, ∅⟩).run d = ((.ok (), v), d') := by
    have hread : Disk.readLog.run d = (d.log, d) := rfl
    have hread' : Disk.readSnapshot.run d = (d.snapshot, d) := rfl
    unfold Vault.replayLog
    rw [Prog.run_bind, hread, Prog.run_bind, hread']
    dsimp only
    rw [hfold]
    dsimp only
    by_cases hbig : d.log.length - covered > compactThreshold ∧ d.log.length > state.size
    · rw [if_pos hbig, Prog.run_bind]
      obtain ⟨wrote, hcompact, -⟩ := Vault.run_compact (v := ⟨d.metadata, d.keyring.normalize, state⟩) (d := d) hall
      rw [hcompact]
      exact ⟨_, _, rfl⟩
    · rw [if_neg hbig]
      exact ⟨_, _, rfl⟩
  obtain ⟨v, d', hrun⟩ := hrun
  have hmeta : Disk.readMeta.run d = (d.metadata, d) := rfl
  have hkeyring : Disk.readKeyring.run d = (d.keyring, d) := rfl
  unfold Vault.openVault
  rw [Prog.run_bind, hmeta, Prog.run_bind, hkeyring, Prog.run_bind, hrun]
  exact ⟨v, rfl⟩

theorem opensWith_encode {view : RawEntry → Frame} {d : Disk} {kept : List RawEntry} (hfit : ∀ e ∈ kept, Fits e)
    (haccept : ∀ e ∈ kept, Accepted d.keyring.normalize (view e)) : OpensWith view d (kept.flatMap encodeFrame) kept := by
  have hopen : ∃ v, openDirectory view d (kept.flatMap encodeFrame) = some (.ok v) := by
    obtain ⟨v, hv⟩ := openVault_of_accepted (d := { d with log := kept.map view }) (by
      intro f hf
      obtain ⟨e, he, rfl⟩ := List.mem_map.mp hf
      exact haccept e he)
    refine ⟨v, ?_⟩
    unfold openDirectory
    rw [parseFrames_encode hfit, ← hv]
  obtain ⟨v, hv⟩ := hopen
  refine ⟨⟨v, v, hv, hv, rfl⟩, ?_⟩
  intro later hlater
  rw [← List.flatMap_append]
  refine parseFrames_encode fun x hx => ?_
  rcases List.mem_append.mp hx with hx | hx
  · exact hfit x hx
  · exact hlater x hx

theorem openDirectory_ok {view : RawEntry → Frame} {d : Disk} {data : List UInt8} {v : Vault}
    (h : openDirectory view d data = some (.ok v)) : ∃ l : List RawEntry, (∀ e ∈ l, Fits e) ∧ data = l.flatMap encodeFrame := by
  unfold openDirectory at h
  cases hparse : parseFrames data with
  | none =>
    rw [hparse] at h
    cases h
  | some res =>
    cases res with
    | error e =>
      rw [hparse] at h
      cases Option.some.inj h
    | ok l => exact ⟨l, parseFrames_eq_ok hparse⟩

/-- **Interrupted appends.** After an append that stopped somewhere the vault opens as it was before or after it, and
reads back what is appended later, exactly where nothing of the frame reached the file or all of it. -/
theorem interrupted_opens_iff (view : RawEntry → Frame) (d : Disk) (log : List RawEntry) (e : RawEntry) (n : Nat)
    (hfit : ∀ f ∈ log ++ [e], Fits f) (haccept : ∀ f ∈ log ++ [e], Accepted d.keyring.normalize (view f)) :
    (OpensWith view d (interrupted log e n) log ∨ OpensWith view d (interrupted log e n) (log ++ [e])) ↔
      n = 0 ∨ (encodeFrame e).length ≤ n := by
  have hlog : ∀ f ∈ log, Fits f := fun f hf => hfit f (List.mem_append_left _ hf)
  have he : Fits e := hfit e (List.mem_append_right _ (List.mem_singleton.mpr rfl))
  constructor
  · intro h
    have hopen : ∃ v, openDirectory view d (interrupted log e n) = some (.ok v) := by
      rcases h with ⟨⟨v, -, hv, -⟩, -⟩ | ⟨⟨v, -, hv, -⟩, -⟩ <;> exact ⟨v, hv⟩
    obtain ⟨v, hv⟩ := hopen
    obtain ⟨l, hl, hdata⟩ := openDirectory_ok hv
    unfold interrupted at hdata
    -- A file that opens is a row of frames, and a torn last frame is no end of one.
    by_cases hn : n ≤ (encodeFrame e).length
    · rcases encodeFrame_prefixCode.torn hlog hl he hn hdata with ⟨hzero, -⟩ | ⟨hall, -⟩
      · exact Or.inl hzero
      · exact Or.inr hall.ge
    · exact Or.inr (by omega)
  · rintro (rfl | hn)
    · refine Or.inl ?_
      unfold interrupted
      rw [List.take_zero, List.append_nil]
      exact opensWith_encode hlog fun f hf => haccept f (List.mem_append_left _ hf)
    · refine Or.inr ?_
      unfold interrupted
      rw [List.take_of_length_le hn, ← List.flatMap_singleton encodeFrame e, ← List.flatMap_append]
      exact opensWith_encode hfit haccept

/-! ## A torn length prefix -/

namespace Torn

/-- A directory as `Vault::create` leaves it. -/
def disk : Disk := (Vault.createWithKeys "laptop" 1 (.vault 0 0) (.ed (.recovery 0)) 1 (.device 1) 7).1

def snippet : Record :=
  { id := 20, kind := .snippet, fields := fieldsFromPayload (.ofList [("name", Json.str (.plain "up"))]) ⟨1, 7⟩, deletedAt := none
    clock := ⟨1, 7⟩, deviceId := 7, modifiedAt := 0, shareId := nil }

def entry : RawEntry := (⟨List.replicate 16 1, rfl⟩, [42])

/-- The frame holds the snippet, sealed under the key of the default share. -/
def view (_ : RawEntry) : Frame := (30, Crypto.sealBlob (.vault 0 0) (.record snippet) 30)

/-- The process died behind the first byte of the length. -/
theorem torn_prefix :
    ¬ (OpensWith view disk (interrupted [] entry 1) [] ∨ OpensWith view disk (interrupted [] entry 1) [entry]) := by
  have hparse : parseFrames (interrupted [] entry 1) = some (.error (.corrupt "trailing bytes in log")) := by
    have hdata : interrupted [] entry 1 = [17] := rfl
    unfold parseFrames parseFrom
    rw [hdata, dif_neg (by decide), if_pos (by decide)]
  have hopen : ∀ v, openDirectory view disk (interrupted [] entry 1) ≠ some (.ok v) := by
    intro v h
    unfold openDirectory at h
    rw [hparse] at h
    cases Option.some.inj h
  rintro (⟨⟨v, -, hv, -⟩, -⟩ | ⟨⟨v, -, hv, -⟩, -⟩) <;> exact hopen v hv

theorem interrupted_opens_iff_whole :
    OpensWith view disk (interrupted [] entry 21) [] ∨ OpensWith view disk (interrupted [] entry 21) [entry] :=
  (interrupted_opens_iff view disk [] entry 21
    (fun f hf => by
      obtain rfl := List.mem_singleton.mp hf
      exact (by decide : 16 + 1 < 4294967296))
    (fun f hf => ⟨some snippet, by rfl⟩)).mpr (Or.inr (by decide))

end Torn

end LogFile

end SshVault
