import FolderClient.Crypto.Anchoring

namespace FolderClient.Crypto.RevocationRuns

open FolderClient.Core.Namespace FolderClient.Library.Json FolderClient.Library.Results
open FolderClient.Crypto.Jws FolderClient.Crypto.Entries FolderClient.Crypto.Anchoring

variable {prims : Primitives}

section Lists

variable {α : Type}

theorem find?_merge (kid : α → String) (stored new : List α) (k : String) :
    (merge kid stored new).find? (kid · = k) = (stored ++ new).find? (kid · = k) := by
  induction new generalizing stored with
  | nil => simp [merge]
  | cons entry rest ih =>
    have hstep : merge kid stored (entry :: rest) =
        merge kid (if stored.any fun a ↦ kid a = kid entry then stored else stored ++ [entry])
          rest := rfl
    rw [hstep, ih]
    split
    · rename_i h
      obtain ⟨a, ha, hk⟩ : ∃ a ∈ stored, kid a = kid entry := by simpa using h
      by_cases he : kid entry = k
      · have hs : (stored.find? (kid · = k)).isSome := by
          rw [List.find?_isSome]
          exact ⟨a, ha, by simp [hk, he]⟩
        rw [List.find?_append, List.find?_append, Option.or_of_isSome hs, Option.or_of_isSome hs]
      · simp [List.find?_append, he]
    · simp [List.append_assoc]

theorem accepted_fst (check : α → Except CryptoError Unit) (l : List α) :
    (accepted check l).1 = l.filter fun e ↦ (check e).isOk := by
  induction l with
  | nil => rfl
  | cons entry rest ih =>
    cases h : check entry <;> simp [accepted, h, ih, Except.isOk, Except.toBool]

/-- Leaving out what is stored already does not change what is found first. -/
theorem find?_append_unstored (kid : α → String) (stored new : List α) (p : α → Bool) (k : String) :
    (stored ++ (new.filter fun w ↦ !stored.any fun g ↦ kid g = kid w).filter p).find?
        (kid · = k) =
      (stored ++ new.filter p).find? (kid · = k) := by
  rw [List.find?_append, List.find?_append]
  cases hs : stored.find? (kid · = k) with
  | some r => rfl
  | none =>
    have hn : ∀ g ∈ stored, kid g ≠ k := by simpa using hs
    simp only [Option.none_or, List.find?_filter]
    congr 1
    funext w
    by_cases hw : kid w = k
    · have hu : (stored.any fun g ↦ kid g = kid w) = false := by
        simpa [hw] using hn
      simp [hu]
    · simp [hw]

end Lists

/-- What an engine does with its key set; `reload` writes it to the store and reads it back. -/
inductive Operation (prims : Primitives)
  | anchor (offer : KeyOffer prims) (expectedTenant : Option String)
  | adopt (offer : KeyOffer prims)
  | confirm
  | reload

/-- An operation that is refused leaves the set as it was. -/
def perform (s : KeySet prims) : Operation prims → KeySet prims
  | .anchor offer tenant => ((s.anchor offer tenant).toOption.map (·.set)).getD s
  | .adopt offer => ((s.adopt offer).toOption.map (·.set)).getD s
  | .confirm => s.confirm.toOption.getD s
  | .reload => (KeySet.fromStorage s.asStorage).toOption.getD s

def run (s : KeySet prims) (operations : List (Operation prims)) : KeySet prims :=
  operations.foldl perform s

/-- Whether an anchor of the set has validly counter-signed the revocation. -/
def counterSigned (s : KeySet prims) (w : Revocation) : Bool :=
  ((AnchorVerifier.new s.anchors s.revoke).checkRevocation w s.issuer s.tenantId).isOk

/-- The revocation of a key that stands first among the stored and the counter-signed ones of
an offer. -/
def firstRevocation (s : KeySet prims) (offer : KeyOffer prims) (kid : String) :
    Option Revocation :=
  (s.revoke ++ offer.revoke.filter (counterSigned s)).find? (·.kid = kid)

/-- The first revocation of the key voids at least what this one voids. -/
def Unshadowed (s : KeySet prims) (offer : KeyOffer prims) (w : Revocation) : Prop :=
  ∀ first, firstRevocation s offer w.kid = some first →
    ∀ t, w.voided t = true → first.voided t = true

/-- No carrier signed by the revoked key passes at a time that the revocation voids. -/
def Rejects (s : KeySet prims) (w : Revocation) : Prop :=
  ∀ (carrier : Value) (signature : DetachedSignature) (typ : String) (t : Timestamp),
    signatureOfTheCarrier prims carrier = .ok signature → signature.header.kid = w.kid →
      w.voided t = true → (s.checkCarrier carrier typ t).isOk = false

@[simp] theorem withRevocationState_revoke (s : KeySet prims) :
    s.withRevocationState.revoke = s.revoke := by
  unfold KeySet.withRevocationState
  split <;> rfl

theorem adopt_revoke {s : KeySet prims} {offer : KeyOffer prims} {a : Adoption prims}
    (h : s.adopt offer = .ok a) :
    a.set.revoke = merge (·.kid) s.revoke
      (s.acceptedRevoke offer (.new s.anchors s.revoke) s.issuer s.tenantId).1 := by
  simp only [KeySet.adopt, ite_throw_eq_ok, bind_eq_ok, pure_eq_ok] at h
  obtain ⟨-, -, -, -, -, -, rfl⟩ := h
  simp

theorem anchor_revoke {s : KeySet prims} {offer : KeyOffer prims} {tenant : Option String}
    {a : Adoption prims} (h : s.anchor offer tenant = .ok a) :
    ∃ new, a.set.revoke = merge (·.kid) s.revoke new := by
  simp only [KeySet.anchor, bind_eq_ok, pure_eq_ok] at h
  obtain ⟨-, -, rfl⟩ := h
  exact ⟨_, withRevocationState_revoke _⟩

theorem confirm_revoke {s s' : KeySet prims} (h : s.confirm = .ok s') : s'.revoke = s.revoke := by
  simp only [KeySet.confirm, ite_throw_eq_ok, pure_eq_ok] at h
  obtain ⟨-, -, rfl⟩ := h
  rfl

theorem mapM_fromJson_raw (l : List Revocation) :
    (l.map (·.raw)).mapM Revocation.fromJson = .ok l := by
  induction l with
  | nil => rfl
  | cons w l ih =>
    simp [List.mapM_cons, Revocation.fromJson_raw, ih, bind, Except.bind, pure, Except.pure]

/-- Every revocation survives the store, because it was read from what is written there. -/
theorem reload_revoke {s s' : KeySet prims} (h : KeySet.fromStorage s.asStorage = .ok s') :
    s'.revoke = s.revoke := by
  have hr : KeySet.storageList (s.asStorage.asObject.getD []) "revocations" =
      .ok (s.revoke.map (·.raw)) := by rfl
  simp only [KeySet.fromStorage, KeySet.asStorage, Value.asObject_object, ite_throw_eq_ok,
    bind_eq_ok] at h hr
  obtain ⟨-, state, -, h⟩ := h
  split at h
  · simp at h
  · simp only [bind_eq_ok] at h
    obtain ⟨issuer, -, tenantId, -, h⟩ := h
    split at h
    · simp at h
    · simp only [bind_eq_ok, pure_eq_ok] at h
      obtain ⟨anchors, -, keys, -, raws, hl, revoke, hm, pending, -, g, -, f, -, n, -, rfl⟩ := h
      simp only [Option.getD_some] at hr
      rw [hr] at hl
      obtain rfl := Except.ok.inj hl
      rw [mapM_fromJson_raw] at hm
      exact (Except.ok.inj hm).symm

/-- An operation keeps the revocations and adds new ones behind them. -/
theorem perform_revoke (s : KeySet prims) (operation : Operation prims) :
    ∃ new, (perform s operation).revoke = merge (·.kid) s.revoke new := by
  have hkeep : ∃ new, s.revoke = merge (·.kid) s.revoke new := ⟨[], rfl⟩
  cases operation with
  | anchor offer tenant =>
    cases h : s.anchor offer tenant with
    | error e => simpa [perform, h, Except.toOption] using hkeep
    | ok a => simpa [perform, h, Except.toOption] using anchor_revoke h
  | adopt offer =>
    cases h : s.adopt offer with
    | error e => simpa [perform, h, Except.toOption] using hkeep
    | ok a => exact ⟨_, by simpa [perform, h, Except.toOption] using adopt_revoke h⟩
  | confirm =>
    cases h : s.confirm with
    | error e => simpa [perform, h, Except.toOption] using hkeep
    | ok s' => simpa [perform, h, Except.toOption, confirm_revoke h] using hkeep
  | reload =>
    cases h : (KeySet.fromStorage s.asStorage : Except CryptoError (KeySet prims)) with
    | error e => simpa [perform, h, Except.toOption] using hkeep
    | ok s' => simpa [perform, h, Except.toOption, reload_revoke h] using hkeep

/-- The revocation under which a key stands is never replaced. -/
theorem revocationTo_perform {s : KeySet prims} {kid : String} {first : Revocation}
    (h : s.revocationTo kid = some first) (operation : Operation prims) :
    (perform s operation).revocationTo kid = some first := by
  obtain ⟨new, hn⟩ := perform_revoke s operation
  rw [KeySet.revocationTo, hn, find?_merge, List.find?_append]
  rw [KeySet.revocationTo] at h
  rw [h, Option.some_or]

theorem revocationTo_run {s : KeySet prims} {kid : String} {first : Revocation}
    (h : s.revocationTo kid = some first) (operations : List (Operation prims)) :
    (run s operations).revocationTo kid = some first := by
  induction operations generalizing s with
  | nil => exact h
  | cons operation operations ih => exact ih (revocationTo_perform h operation)

/-- After an adoption a key stands under the first of its revocations that counts. -/
theorem revocationTo_adopt {s : KeySet prims} {offer : KeyOffer prims} {a : Adoption prims}
    (h : s.adopt offer = .ok a) (kid : String) :
    a.set.revocationTo kid = firstRevocation s offer kid := by
  rw [KeySet.revocationTo, adopt_revoke h, find?_merge, KeySet.acceptedRevoke, accepted_fst]
  exact find?_append_unstored (·.kid) s.revoke offer.revoke (counterSigned s) kid

theorem isSome_firstRevocation {s : KeySet prims} {offer : KeyOffer prims} {w : Revocation}
    (hw : w ∈ offer.revoke) (hc : counterSigned s w = true) :
    ∃ first, firstRevocation s offer w.kid = some first := by
  rw [← Option.isSome_iff_exists, firstRevocation, List.find?_isSome]
  exact ⟨w, List.mem_append_right _ (List.mem_filter.mpr ⟨hw, hc⟩), by simp⟩

/-- The condition is exact: where it fails, the check after the adoption lets a voided time pass. -/
theorem unshadowed_iff {s : KeySet prims} {offer : KeyOffer prims} {a : Adoption prims}
    {w : Revocation} (h : s.adopt offer = .ok a) (hw : w ∈ offer.revoke)
    (hc : counterSigned s w = true) :
    Unshadowed s offer w ↔
      ∀ t, w.voided t = true → (a.set.revocationTo w.kid).any (·.voided t) = true := by
  obtain ⟨first, hf⟩ := isSome_firstRevocation hw hc
  rw [revocationTo_adopt h, Unshadowed, hf]
  constructor
  · intro hu t ht
    exact hu first rfl t ht
  · intro hv first' hf' t ht
    obtain rfl := Option.some.inj hf'
    exact hv t ht

theorem rejects_of_revocationTo {s : KeySet prims} {w first : Revocation}
    (h : s.revocationTo w.kid = some first)
    (hv : ∀ t, w.voided t = true → first.voided t = true) : Rejects s w := by
  intro carrier signature typ t hs hk ht
  cases hc : s.checkCarrier carrier typ t with
  | error e => rfl
  | ok kid =>
    exfalso
    simp only [KeySet.checkCarrier, ite_throw_eq_ok, bind_eq_ok] at hc
    obtain ⟨-, signature', hs', -, -, hc⟩ := hc
    obtain rfl := Except.ok.inj (hs.symm.trans hs')
    split at hc
    · simp at hc
    · simp only [ite_throw_eq_ok, bind_eq_ok] at hc
      obtain ⟨-, -, -, -, hn, -⟩ := hc
      apply hn
      rw [hk, h]
      exact hv t ht

/-- A counter-signed revocation that no earlier one of the same key shadows is in effect from its
adoption on, whatever follows. -/
theorem revocation_takes_effect (before after : List (Operation prims)) {offer : KeyOffer prims}
    {w : Revocation} {a : Adoption prims}
    (hadopt : (run .empty before).adopt offer = .ok a) (hw : w ∈ offer.revoke)
    (hc : counterSigned (run .empty before) w = true)
    (hu : Unshadowed (run .empty before) offer w) : Rejects (run a.set after) w := by
  obtain ⟨first, hf⟩ := isSome_firstRevocation hw hc
  have hstands : a.set.revocationTo w.kid = some first := (revocationTo_adopt hadopt w.kid).trans hf
  exact rejects_of_revocationTo (revocationTo_run hstands after) (hu first hf)

section Shadowed

/-- A signing procedure small enough to compute with: a key consists of its name over and over, a
signature of the coordinates of its key, and a header of the role it is for and the `kid`. -/
def plainPrimitives : Primitives where
  b64u bytes := String.ofList (bytes.map fun b ↦ Char.ofNat b.toNat)
  fromB64u text :=
    match text.toList with
    | ['x', c] => some (List.replicate 32 (UInt8.ofNat c.toNat))
    | ['y', c] => some (List.replicate 64 (UInt8.ofNat c.toNat))
    | chars => some (chars.map fun c ↦ UInt8.ofNat c.toNat)
  readJson
    | role :: kid => .ok (.object
        [("alg", .string "ES256"),
          ("typ", .string (if role = 83 then typKeyStatement
            else if role = 82 then typRevocation else typDeliveryCommand)),
          ("kid", .string (String.ofList (kid.map fun b ↦ Char.ofNat b.toNat)))])
    | [] => .error (.jsonUnreadable "EOF")
  canonicalize _ := .ok []
  sha256 := id
  onCurve _ _ := true
  verify x y _ signature := if signature = x ++ y then .ok () else .error "another key"

def plainKey (kid coordinate : String) (role : KeyRole) (signature : Value) : Value :=
  .object
    [("kid", .string kid), ("kty", .string "EC"), ("crv", .string "P-256"),
      ("alg", .string "ES256"), ("x", .string coordinate), ("y", .string coordinate),
      ("role", .string role.contractValue), ("issuer", .string "issuer"),
      ("tenantId", .string "tenant"), ("notBefore", .string "1970-01-01T00:00:00Z"),
      ("notAfter", .string "1971-01-01T00:00:00Z"), ("serverSignature", signature)]

def plainRevocation (reason : RevocationReason) : Value :=
  .object
    [("kid", .string "K"), ("issuer", .string "issuer"), ("tenantId", .string "tenant"),
      ("revokedAt", .string "1970-01-01T00:00:00Z"), ("reason", .string reason.contractValue),
      ("serverSignature", .string "RA..yA")]

def yearLater : Timestamp := ⟨31536000000, by decide, by decide⟩

def trustAnchor : KeyEntry plainPrimitives where
  kid := "A"
  role := .trustAnchor
  jwk := ⟨"xA", "xA"⟩
  issuer := "issuer"
  tenantId := "tenant"
  notBefore := .null
  notAfter := yearLater
  keySetVersion := none
  supersedes := none
  thumbprint := none
  raw := plainKey "A" "xA" .trustAnchor .null
  read := rfl

def signingKey : KeyEntry plainPrimitives where
  kid := "K"
  role := .proofSignature
  jwk := ⟨"xK", "xK"⟩
  issuer := "issuer"
  tenantId := "tenant"
  notBefore := .null
  notAfter := yearLater
  keySetVersion := none
  supersedes := none
  thumbprint := none
  raw := plainKey "K" "xK" .proofSignature (.string "SA..yA")
  read := rfl

def superseded : Revocation where
  kid := "K"
  role := none
  issuer := "issuer"
  tenantId := "tenant"
  revokedAt := .null
  compromisedSince := none
  reason := .superseded
  keySetVersion := none
  raw := plainRevocation .superseded
  read := rfl

def compromised : Revocation where
  kid := "K"
  role := none
  issuer := "issuer"
  tenantId := "tenant"
  revokedAt := .null
  compromisedSince := none
  reason := .keyCompromised
  keySetVersion := none
  raw := plainRevocation .keyCompromised
  read := rfl

def offerOf (anchors keys : List (KeyEntry plainPrimitives)) (revoke : List Revocation) :
    KeyOffer plainPrimitives where
  keySetVersion := 1
  issuer := "issuer"
  tenantId := "tenant"
  reportedFingerprint := none
  anchors := anchors
  signatureSigningKey := keys
  revoke := revoke
  generatedAt := none
  refreshAfter := none
  nextRotationAt := none
  unreadable := []

def plainCarrier : Value := .object [("serverSignature", .string "CK..yK")]

/-- Anchored and confirmed, with a planned revocation of the signing key. -/
def supersededRun : List (Operation plainPrimitives) :=
  [.anchor (offerOf [trustAnchor] [signingKey] []) none, .confirm,
    .adopt (offerOf [] [] [superseded])]

theorem exists_adoption {s : KeySet prims} {offer : KeyOffer prims}
    (h : (s.adopt offer).isOk = true) :
    ∃ a, s.adopt offer = .ok a ∧ a.set = perform s (.adopt offer) := by
  cases ha : s.adopt offer with
  | error e => simp [ha, Except.isOk, Except.toBool] at h
  | ok a => exact ⟨a, rfl, by simp [perform, ha, Except.toOption]⟩

/-- The suspicion first: it stays in effect under a later planned revocation. -/
theorem compromised_takes_effect :
    ∃ a, (run .empty [.anchor (offerOf [trustAnchor] [signingKey] []) none, .confirm]).adopt
        (offerOf [] [] [compromised]) = .ok a ∧
      Rejects (run a.set [.adopt (offerOf [] [] [superseded]), .reload]) compromised := by
  have hok : ((run .empty
      [.anchor (offerOf [trustAnchor] [signingKey] []) none, .confirm]).adopt
        (offerOf [] [] [compromised])).isOk = true := by decide +kernel
  obtain ⟨a, ha, -⟩ := exists_adoption hok
  refine ⟨a, ha, revocation_takes_effect _ _ ha List.mem_cons_self (by decide +kernel) ?_⟩
  intro first hf t ht
  have hfirst : firstRevocation
      (run .empty [.anchor (offerOf [trustAnchor] [signingKey] []) none, .confirm])
      (offerOf [] [] [compromised]) compromised.kid = some compromised := by rfl
  rw [Option.some.inj (hf.symm.trans hfirst)]
  exact ht

theorem superseded_shadows_compromised :
    ¬ ∀ (prims : Primitives) (before after : List (Operation prims)) (offer : KeyOffer prims)
        (w : Revocation) (a : Adoption prims), (run .empty before).adopt offer = .ok a →
      w ∈ offer.revoke → counterSigned (run .empty before) w = true →
      w.reason.retroactive = true → Rejects (run a.set after) w := by
  intro hall
  have hok : ((run .empty supersededRun).adopt (offerOf [] [] [compromised])).isOk = true := by
    decide +kernel
  have hc : counterSigned (run .empty supersededRun) compromised = true := by decide +kernel
  have hp : ((perform (run .empty supersededRun)
      (.adopt (offerOf [] [] [compromised]))).checkCarrier plainCarrier typDeliveryCommand
        .null).isOk = true := by decide +kernel
  obtain ⟨a, ha, hs⟩ := exists_adoption hok
  have hr := hall plainPrimitives supersededRun [] (offerOf [] [] [compromised]) compromised a ha
    List.mem_cons_self hc rfl plainCarrier
    ⟨"CK", ⟨"ES256", typDeliveryCommand, "K"⟩, List.replicate 64 75⟩ typDeliveryCommand .null
    rfl rfl rfl
  rw [← hs] at hp
  exact absurd (hp.symm.trans hr) (by decide)

end Shadowed

end FolderClient.Crypto.RevocationRuns
