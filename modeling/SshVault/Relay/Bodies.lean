import SshVault.Relay.Specs

/-!
# Request bodies

The seven bodies that a client signs, and what each endpoint reads them as.
-/

open Lib Prog

namespace SshVault.Relay

/-! ## Bodies -/

abbrev U32 := Fin 4294967296

instance u32_neZero : NeZero 4294967296 := ⟨by decide⟩

/-- A body that a client builds. -/
inductive ClientReq where
  | enroll (r : EnrollReq)
  | approve (r : ApproveReq)
  | revoke (r : RevokeReq)
  | rotate (epoch : U32) (wrapped : List WrappedFor)
  | shareGrant (shareId : Wire) (epoch : U32) (wrapped : List WrappedFor)
  | shareRotate (shareId : Wire) (epoch : U32) (wrapped : List WrappedFor) (remove : List Wire)
  | push (r : PushReq)

namespace ClientReq

def endpoint : ClientReq → Endpoint
  | .enroll _ => .enroll
  | .approve _ => .approve
  | .revoke _ => .revoke
  | .rotate .. => .rotate
  | .shareGrant .. => .shareGrant
  | .shareRotate .. => .shareRotate
  | .push _ => .push

def toJson : ClientReq → Json Bytes
  | .enroll r => r.toJson
  | .approve r => r.toJson
  | .revoke r => r.toJson
  | .rotate epoch wrapped => RotateReq.toJson ⟨epoch, wrapped⟩
  | .shareGrant shareId epoch wrapped => ShareGrantReq.toJson ⟨shareId, epoch, wrapped⟩
  | .shareRotate shareId epoch wrapped remove => ShareRotateReq.toJson ⟨shareId, epoch, wrapped, remove⟩
  | .push r => r.toJson

/-- What the body of one endpoint means at another, where serde accepts it. -/
def readAs : ClientReq → Endpoint → Option ClientReq
  | .enroll r, .enroll => some (.enroll r)
  | .approve r, .approve => some (.approve r)
  | .approve r, .revoke => some (.revoke ⟨r.targetPub⟩)
  | .revoke r, .revoke => some (.revoke r)
  | .rotate epoch wrapped, .rotate => some (.rotate epoch wrapped)
  | .shareGrant shareId epoch wrapped, .shareGrant => some (.shareGrant shareId epoch wrapped)
  | .shareGrant _ epoch wrapped, .rotate => some (.rotate epoch wrapped)
  | .shareRotate shareId epoch wrapped remove, .shareRotate => some (.shareRotate shareId epoch wrapped remove)
  | .shareRotate shareId epoch wrapped _, .shareGrant => some (.shareGrant shareId epoch wrapped)
  | .shareRotate _ epoch wrapped _, .rotate => some (.rotate epoch wrapped)
  | .push r, .push => some (.push r)
  | _, _ => none

end ClientReq

/-- What an endpoint's own decoder makes of a body. -/
def decodeAt (j : Json Bytes) : Endpoint → Option ClientReq
  | .enroll => (EnrollReq.ofJson j).map .enroll
  | .approve => (ApproveReq.ofJson j).map .approve
  | .revoke => (RevokeReq.ofJson j).map .revoke
  | .rotate => (RotateReq.ofJson j).map fun r => .rotate (Fin.ofNat _ r.epoch) r.wrapped
  | .shareGrant => (ShareGrantReq.ofJson j).map fun r => .shareGrant r.shareId (Fin.ofNat _ r.epoch) r.wrapped
  | .shareRotate => (ShareRotateReq.ofJson j).map fun r => .shareRotate r.shareId (Fin.ofNat _ r.epoch) r.wrapped r.remove
  | .push => (PushReq.ofJson j).map .push

theorem mapM_roundTrip {α β : Type} (enc : α → β) (dec : β → Option α) (h : ∀ a, dec (enc a) = some a)
    (l : List α) : (l.map enc).mapM dec = some l := by
  induction l with
  | nil => rfl
  | cons a l ih =>
    rw [List.map_cons, List.mapM_cons, h, ih]
    rfl

theorem wrapped_roundTrip (l : List WrappedFor) : (l.map WrappedFor.toJson).mapM WrappedFor.ofJson = some l :=
  mapM_roundTrip WrappedFor.toJson _ (fun _ => rfl) l

theorem texts_roundTrip (l : List Wire) : (l.map Json.str).mapM Json.asText = some l :=
  mapM_roundTrip Json.str Json.asText (fun _ => rfl) l

theorem entries_roundTrip (l : List WireEntry) : (l.map WireEntry.toJson).mapM WireEntry.ofJson = some l :=
  mapM_roundTrip WireEntry.toJson _ (fun _ => rfl) l

theorem asU32_natCast {n : Nat} (h : n < 4294967296) : (Json.num (β := Bytes) n).asU32 = some n := by
  unfold Json.asU32
  dsimp only
  rw [if_pos ⟨Int.natCast_nonneg n, by exact_mod_cast h⟩, Int.toNat_natCast]

theorem rotate_decode {j : Json Bytes} {epoch : U32} {wrapped : List WrappedFor}
    (he : j.member 2 0 "epoch" = some (.num epoch.val))
    (hw : j.member 2 1 "wrapped" = some (.arr (wrapped.map WrappedFor.toJson))) :
    RotateReq.ofJson j = some ⟨epoch, wrapped⟩ := by
  unfold RotateReq.ofJson
  rw [he, Option.bind_eq_bind, Option.bind_some, asU32_natCast epoch.isLt, hw]
  simp only [Option.bind_eq_bind, Option.bind_some, Json.asVec, wrapped_roundTrip, Option.pure_def]

theorem shareGrant_decode {j : Json Bytes} {shareId : Wire} {epoch : U32} {wrapped : List WrappedFor}
    (hs : j.member 3 0 "share_id_b64" = some (.str shareId))
    (he : j.member 3 1 "epoch" = some (.num epoch.val))
    (hw : j.member 3 2 "wrapped" = some (.arr (wrapped.map WrappedFor.toJson))) :
    ShareGrantReq.ofJson j = some ⟨shareId, epoch, wrapped⟩ := by
  unfold ShareGrantReq.ofJson
  rw [hs, Option.bind_eq_bind, Option.bind_some, Json.asText, Option.bind_eq_bind, Option.bind_some, he,
    Option.bind_eq_bind, Option.bind_some, asU32_natCast epoch.isLt, hw]
  simp only [Option.bind_eq_bind, Option.bind_some, Json.asVec, wrapped_roundTrip, Option.pure_def]

theorem shareRotate_decode (shareId : Wire) (epoch : U32) (wrapped : List WrappedFor) (remove : List Wire) :
    ShareRotateReq.ofJson (ShareRotateReq.toJson ⟨shareId, epoch, wrapped, remove⟩) =
      some ⟨shareId, epoch, wrapped, remove⟩ := by
  let j := ShareRotateReq.toJson ⟨shareId, epoch, wrapped, remove⟩
  have hs : j.member 4 0 "share_id_b64" = some (.str shareId) := rfl
  have he : j.member 4 1 "epoch" = some (.num epoch.val) := rfl
  have hw : j.member 4 2 "wrapped" = some (.arr (wrapped.map WrappedFor.toJson)) := rfl
  have hr : j.member 4 3 "remove" = some (.arr (remove.map .str)) := rfl
  change ShareRotateReq.ofJson j = _
  unfold ShareRotateReq.ofJson
  rw [hs, Option.bind_eq_bind, Option.bind_some, Json.asText, Option.bind_eq_bind, Option.bind_some, he,
    Option.bind_eq_bind, Option.bind_some, asU32_natCast epoch.isLt, hw, hr]
  simp only [Option.bind_eq_bind, Option.bind_some, Json.asVec, wrapped_roundTrip, texts_roundTrip, Option.pure_def]

theorem shareRotate_decode_grant (shareId : Wire) (epoch : U32) (wrapped : List WrappedFor) :
    ShareRotateReq.ofJson (ShareGrantReq.toJson ⟨shareId, epoch, wrapped⟩) = none := by
  let j := ShareGrantReq.toJson ⟨shareId, epoch, wrapped⟩
  have hr : j.member 4 3 "remove" = none := rfl
  change ShareRotateReq.ofJson j = _
  unfold ShareRotateReq.ofJson
  simp only [hr, Option.bind_eq_bind, Option.bind_none, Option.bind_fun_none]

/-- **Cross-decoding.** Every endpoint reads every body as the table says. -/
theorem decodeAt_toJson (r : ClientReq) (e : Endpoint) : decodeAt r.toJson e = r.readAs e := by
  cases r with
  | enroll r => cases e <;> rfl
  | approve r => cases e <;> rfl
  | revoke r => cases e <;> rfl
  | rotate epoch wrapped =>
    cases e with
    | rotate =>
      have h : RotateReq.ofJson (ClientReq.rotate epoch wrapped).toJson = some ⟨epoch, wrapped⟩ :=
        rotate_decode rfl rfl
      simp [decodeAt, h, ClientReq.readAs]
    | _ => rfl
  | shareGrant shareId epoch wrapped =>
    cases e with
    | rotate =>
      have h : RotateReq.ofJson (ClientReq.shareGrant shareId epoch wrapped).toJson = some ⟨epoch, wrapped⟩ :=
        rotate_decode rfl rfl
      simp [decodeAt, h, ClientReq.readAs]
    | shareGrant =>
      have h : ShareGrantReq.ofJson (ClientReq.shareGrant shareId epoch wrapped).toJson =
        some ⟨shareId, epoch, wrapped⟩ := shareGrant_decode rfl rfl rfl
      simp [decodeAt, h, ClientReq.readAs]
    | shareRotate =>
      have h := shareRotate_decode_grant shareId epoch wrapped
      simp [decodeAt, ClientReq.toJson, h, ClientReq.readAs]
    | _ => rfl
  | shareRotate shareId epoch wrapped remove =>
    cases e with
    | rotate =>
      have h : RotateReq.ofJson (ClientReq.shareRotate shareId epoch wrapped remove).toJson =
        some ⟨epoch, wrapped⟩ := rotate_decode rfl rfl
      simp [decodeAt, h, ClientReq.readAs]
    | shareGrant =>
      have h : ShareGrantReq.ofJson (ClientReq.shareRotate shareId epoch wrapped remove).toJson =
        some ⟨shareId, epoch, wrapped⟩ := shareGrant_decode rfl rfl rfl
      simp [decodeAt, h, ClientReq.readAs]
    | shareRotate =>
      have h := shareRotate_decode shareId epoch wrapped remove
      simp [decodeAt, ClientReq.toJson, h, ClientReq.readAs]
    | _ => rfl
  | push r =>
    cases e with
    | push =>
      have h : PushReq.ofJson (ClientReq.push r).toJson = some r := by
        change (do let entries ← (r.entries.map WireEntry.toJson).mapM WireEntry.ofJson; return ⟨entries⟩) = some r
        rw [entries_roundTrip]
        rfl
      simp [decodeAt, h, ClientReq.readAs]
    | _ => rfl

/-! ## The outer JSON -/

theorem asI64_toInt (ts : Int64) : (Json.num (β := Blob) ts.toInt).asI64 = some ts := by
  unfold Json.asI64
  dsimp only
  rw [if_pos ⟨ts.le_toInt, ts.toInt_lt⟩, Int64.ofInt_toInt]

theorem asWire_outer (t : Wire) : (Json.str t.outer).asWire = some t := by cases t <;> rfl

theorem asSig_outer (t : Text Sig) : (Json.str t.outerSig).asSig = some t := by cases t <;> rfl

theorem signed_roundTrip (s : Signed) : Signed.ofJson s.toJson = some s := by
  have hv : s.toJson.member 5 0 "vault_id_b64" = some (.str s.vaultId.outer) := rfl
  have hd : s.toJson.member 5 1 "device_pub_b64" = some (.str s.devicePub.outer) := rfl
  have hs : s.toJson.member 5 2 "sig_b64" = some (.str s.sig.outerSig) := rfl
  have ht : s.toJson.member 5 3 "ts" = some (.num s.ts.toInt) := rfl
  have hb : s.toJson.member 5 4 "body" = some (.str (.b64 (.body s.body))) := rfl
  unfold Signed.ofJson
  simp only [Option.bind_eq_bind]
  rw [hv, Option.bind_some, asWire_outer, Option.bind_some, hd, Option.bind_some, asWire_outer, Option.bind_some,
    hs, Option.bind_some, asSig_outer, Option.bind_some, ht, Option.bind_some, asI64_toInt, Option.bind_some, hb]
  rfl

theorem recover_not_signed (s : Signed) : RecoverReq.ofJson s.toJson = none := rfl

end SshVault.Relay
