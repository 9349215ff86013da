import FolderClient.Core.Calendar
import FolderClient.Crypto.Effects

namespace FolderClient.Crypto.Reload

open FolderClient.Core.Calendar FolderClient.Core.Namespace FolderClient.Core.Time
open FolderClient.Library.Json
open FolderClient.Library.Results FolderClient.Crypto.Jws FolderClient.Crypto.Entries
open FolderClient.Crypto.Anchoring FolderClient.Crypto.RevocationRuns FolderClient.Crypto.Effects

variable {prims : Primitives}

/-- What becomes of a stored instant when it is read again. -/
def storedAgain : Option Timestamp → Except CryptoError (Option Timestamp)
  | none => .ok none
  | some t =>
    match fromRfc3339 (rfc3339 t) with
    | .ok time => .ok (some time)
    | .error e => .error (KeySet.unreadableStorage e.display)

theorem mapM_keyFromJson_raw (l : List (KeyEntry prims)) :
    (l.map (·.raw)).mapM KeyEntry.fromJson = .ok l := by
  induction l with
  | nil => rfl
  | cons e l ih =>
    simp [List.mapM_cons, KeyEntry.fromJson_raw, ih, bind, Except.bind, pure, Except.pure]

theorem fromContractValue_contractValue (state : AnchorState) :
    AnchorState.fromContractValue (AnchorState.contractValue state) = some state := by
  cases state <;> rfl

theorem storageTime_storedTime {object : Members} {name : String} {t : Option Timestamp}
    (h : object.lookup name = some (KeySet.storedTime t)) :
    KeySet.storageTime object name = storedAgain t := by
  unfold KeySet.storageTime
  rw [h]
  cases t with
  | none => rfl
  | some t =>
    dsimp only [storedAgain, KeySet.storedTime] <;> cases fromRfc3339 (rfc3339 t) <;> rfl

/-- All but the three instants of a key set survive the store by themselves. -/
theorem fromStorage_asStorage (s : KeySet prims) :
    KeySet.fromStorage s.asStorage = (do
      let generatedAt ← storedAgain s.generatedAt
      let refreshAfter ← storedAgain s.refreshAfter
      let nextRotationAt ← storedAgain s.nextRotationAt
      return { s with
        generatedAt := generatedAt, refreshAfter := refreshAfter
        nextRotationAt := nextRotationAt }) := by
  have htime : ∀ name t, (s.asStorage.asObject.getD []).lookup name = some (KeySet.storedTime t) →
      KeySet.storageTime (s.asStorage.asObject.getD []) name = storedAgain t :=
    fun name t h ↦ storageTime_storedTime h
  have hg := htime "generatedAt" s.generatedAt rfl
  have hr := htime "refreshAfter" s.refreshAfter rfl
  have hn := htime "nextRotationAt" s.nextRotationAt rfl
  have hanchors : KeySet.storageKey (s.asStorage.asObject.getD []) "trustAnchors" =
      .ok s.anchors := mapM_keyFromJson_raw s.anchors
  have hkeys : KeySet.storageKey (s.asStorage.asObject.getD []) "signingKeys" =
      .ok s.signatureSigningKey := mapM_keyFromJson_raw s.signatureSigningKey
  have hpending : KeySet.storageKey (s.asStorage.asObject.getD []) "pendingAnchors" =
      .ok s.pendingAnchors := mapM_keyFromJson_raw s.pendingAnchors
  have hrevoke : (KeySet.storageList (s.asStorage.asObject.getD []) "revocations" >>= fun l ↦
      l.mapM Revocation.fromJson) = .ok s.revoke := mapM_fromJson_raw s.revoke
  have hstate : KeySet.storageText (s.asStorage.asObject.getD []) "anchorState" =
      .ok (AnchorState.contractValue s.anchorState) := rfl
  have hissuer : KeySet.storageText (s.asStorage.asObject.getD []) "issuer" = .ok s.issuer := rfl
  have htenant : KeySet.storageText (s.asStorage.asObject.getD []) "tenantId" = .ok s.tenantId :=
    rfl
  have hversion : ((s.asStorage.asObject.getD []).lookup "version").bind Value.asU64 =
      some storeVersion := rfl
  have hset : ((s.asStorage.asObject.getD []).lookup "keySetVersion").bind Value.asU64 =
      some s.keySetVersion := rfl
  have hobject : s.asStorage.asObject = some (s.asStorage.asObject.getD []) := rfl
  generalize s.asStorage.asObject.getD [] = object at *
  have hrevoke' : ∃ raws, KeySet.storageList object "revocations" = .ok raws ∧
      raws.mapM Revocation.fromJson = .ok s.revoke := bind_eq_ok.mp hrevoke
  obtain ⟨raws, hraws, hread⟩ := hrevoke'
  rw [KeySet.fromStorage, hobject]
  simp only [hversion, hstate, hset, hissuer, htenant, fromContractValue_contractValue, hanchors,
    hkeys, hraws, hread, hpending, hg, hr, hn, bind, Except.bind, ne_eq, not_true_eq_false,
    if_false]

/-- The instants that stand in a key set. -/
def dates (s : KeySet prims) : List Timestamp :=
  s.generatedAt.toList ++ s.refreshAfter.toList ++ s.nextRotationAt.toList

theorem storedAgain_eq_ok {t t' : Option Timestamp} (h : storedAgain t = .ok t') :
    t' = t ∧ ∀ time ∈ t, InYears time := by
  cases t with
  | none => exact ⟨(Except.ok.inj h).symm, fun _ ht ↦ nomatch ht⟩
  | some time =>
    dsimp only [storedAgain] at h
    split at h
    · rename_i time' hread
      obtain rfl := Except.ok.inj h
      have hin := inYears_of_ok hread
      obtain rfl := Except.ok.inj (hread.symm.trans (fromRfc3339_rfc3339 hin))
      exact ⟨rfl, fun _ ht ↦ Option.some.inj ht ▸ hin⟩
    · cases h

theorem storedAgain_of_inYears {t : Option Timestamp} (h : ∀ time ∈ t, InYears time) :
    storedAgain t = .ok t := by
  cases t with
  | none => rfl
  | some time =>
    dsimp only [storedAgain]
    rw [fromRfc3339_rfc3339 (h time rfl)]

/-- The store gives back what was written, or nothing. -/
theorem fromStorage_eq_ok {s s' : KeySet prims} (h : KeySet.fromStorage s.asStorage = .ok s') :
    s' = s ∧ ∀ t ∈ dates s, InYears t := by
  rw [fromStorage_asStorage] at h
  simp only [bind_eq_ok, pure_eq_ok] at h
  obtain ⟨g, hg, r, hr, n, hn, rfl⟩ := h
  obtain ⟨rfl, hg'⟩ := storedAgain_eq_ok hg
  obtain ⟨rfl, hr'⟩ := storedAgain_eq_ok hr
  obtain ⟨rfl, hn'⟩ := storedAgain_eq_ok hn
  refine ⟨rfl, fun t ht ↦ ?_⟩
  simp only [dates, List.mem_append, Option.mem_toList] at ht
  rcases ht with (ht | ht) | ht
  · exact hg' t ht
  · exact hr' t ht
  · exact hn' t ht

/-- The key set stands in the store as it is. -/
def Readable (s : KeySet prims) : Prop := KeySet.fromStorage s.asStorage = .ok s

theorem readable_iff_dates (s : KeySet prims) : Readable s ↔ ∀ t ∈ dates s, InYears t := by
  refine ⟨fun h ↦ (fromStorage_eq_ok h).2, fun h ↦ ?_⟩
  simp only [dates, List.mem_append, Option.mem_toList] at h
  have hg := storedAgain_of_inYears fun t ht ↦ h t (.inl (.inl ht))
  have hr := storedAgain_of_inYears fun t ht ↦ h t (.inl (.inr ht))
  have hn := storedAgain_of_inYears fun t ht ↦ h t (.inr ht)
  rw [Readable, fromStorage_asStorage, hg, hr, hn]
  rfl

section Offers

/-- The instants that an offer carries. -/
def offered (offer : KeyOffer prims) : List Timestamp :=
  offer.generatedAt.toList ++ offer.refreshAfter.toList ++ offer.nextRotationAt.toList

/-- The instants that an operation brings into a set, where its offer is accepted. -/
def brought (s : KeySet prims) : Operation prims → List Timestamp
  | .anchor offer tenant => if (s.anchor offer tenant).isOk then offered offer else []
  | .adopt offer => if (s.adopt offer).isOk then offered offer else []
  | _ => []

theorem dates_withRevocationState (s : KeySet prims) : dates s.withRevocationState = dates s := by
  rw [withRevocationState_eq]
  rfl

theorem dates_anchored (s : KeySet prims) (offer : KeyOffer prims) :
    dates (anchored s offer) = offered offer := rfl

theorem mem_dates_continued (s : KeySet prims) (offer : KeyOffer prims) (t : Timestamp) :
    (t ∈ dates (continued s offer) → t ∈ dates s ∨ t ∈ offered offer) ∧
      (t ∈ offered offer → t ∈ dates (continued s offer)) := by
  have hor : ∀ new old : Option Timestamp, (t ∈ (new.or old).toList → t ∈ old.toList ∨
      t ∈ new.toList) ∧ (t ∈ new.toList → t ∈ (new.or old).toList) := by
    intro new old
    cases new <;> simp_all
  have hg := hor offer.generatedAt s.generatedAt
  have hr := hor offer.refreshAfter s.refreshAfter
  have hn := hor offer.nextRotationAt s.nextRotationAt
  simp only [dates, offered, continued, List.mem_append]
  tauto

theorem mem_dates_perform (s : KeySet prims) (operation : Operation prims) (t : Timestamp) :
    (t ∈ dates (perform s operation) → t ∈ dates s ∨ t ∈ brought s operation) ∧
      (t ∈ brought s operation → t ∈ dates (perform s operation)) := by
  cases operation with
  | anchor offer tenant =>
    cases h : s.anchor offer tenant with
    | error e => simp [perform, brought, h, Except.toOption, Except.isOk, Except.toBool]
    | ok a =>
      have hset := (anchor_eq_ok h).2
      simp only [perform, brought, h, Except.toOption, Except.isOk, Except.toBool, hset,
        dates_withRevocationState, dates_anchored, Option.map_some, Option.getD_some, if_true]
      exact ⟨.inr, id⟩
  | adopt offer =>
    cases h : s.adopt offer with
    | error e => simp [perform, brought, h, Except.toOption, Except.isOk, Except.toBool]
    | ok a =>
      have hset := (adopt_eq_ok h).2.2
      simp only [perform, brought, h, Except.toOption, Except.isOk, Except.toBool, hset,
        dates_withRevocationState, Option.map_some, Option.getD_some, if_true]
      exact mem_dates_continued s offer t
  | confirm =>
    cases h : s.confirm with
    | error e => simp [perform, brought, h, Except.toOption]
    | ok s' =>
      obtain ⟨-, -, rfl⟩ := confirm_eq_ok h
      simp only [perform, brought, h, Except.toOption, Option.getD_some]
      exact ⟨.inl, fun ht ↦ (by cases ht)⟩
  | reload =>
    cases h : (KeySet.fromStorage s.asStorage : Except CryptoError (KeySet prims)) with
    | error e => simp [perform, brought, h, Except.toOption]
    | ok s' => simp [perform, brought, h, Except.toOption, (fromStorage_eq_ok h).1]

end Offers

/-- Every set of a run, whether it is reached at the end or on the way, is read again as it was
written, exactly where no accepted offer brings an instant outside the years 0 to 9999. -/
theorem readable_iff_offers (operations : List (Operation prims)) :
    (∀ before, before <+: operations → Readable (run .empty before)) ↔
      ∀ before operation, before ++ [operation] <+: operations →
        ∀ t ∈ brought (run .empty before) operation, InYears t := by
  have hrun : ∀ before operation, run .empty (before ++ [operation]) =
      perform (run (.empty : KeySet prims) before) operation :=
    fun before operation ↦ List.foldl_append ..
  constructor
  · intro hread before operation hp t ht
    refine (readable_iff_dates _).mp (hread _ hp) t ?_
    rw [hrun]
    exact (mem_dates_perform _ operation t).2 ht
  · intro hin before hp
    rw [readable_iff_dates]
    induction before using List.reverseRecOn with
    | nil => exact fun t ht ↦ nomatch ht
    | append_singleton before operation ih =>
      intro t ht
      rw [hrun] at ht
      rcases (mem_dates_perform _ operation t).1 ht with ht | ht
      · exact ih ((List.prefix_append ..).trans hp) t ht
      · exact hin before operation hp t ht

section Late

/-- An enrollment answer of the last minute of the year 9999, with a zone west of Greenwich. -/
def lateBlock : Value :=
  .object
    [("keySetVersion", .number (.posInt 1)), ("issuer", .string "issuer"),
      ("tenantId", .string "tenant"),
      ("trustAnchors", .array [plainKey "A" "xA" .trustAnchor .null]),
      ("signingKeys", .array [plainKey "K" "xK" .proofSignature (.string "SA..yA")]),
      ("revocations", .array []), ("generatedAt", .string "9999-12-31T23:59:59-00:01")]

theorem late_not_readable : ¬ ∀ (prims : Primitives) (block : Value) (offer : KeyOffer prims)
    (a : Adoption prims), KeyOffer.fromJson block = .ok offer →
      KeySet.empty.anchor offer none = .ok a → Readable a.set := by
  intro hall
  have hlate : ((do
      let offer ← (KeyOffer.fromJson lateBlock : Except CryptoError (KeyOffer plainPrimitives))
      let a ← KeySet.empty.anchor offer none
      return (KeySet.fromStorage a.set.asStorage :
        Except CryptoError (KeySet plainPrimitives)).isOk) :
        Except CryptoError Bool).toOption = some false := by decide +kernel
  have hread := ok_of_toOption hlate
  simp only [bind_eq_ok, pure_eq_ok] at hread
  obtain ⟨offer, hoffer, a, ha, hunreadable⟩ := hread
  rw [hall plainPrimitives lateBlock offer a hoffer ha] at hunreadable
  cases hunreadable

end Late

end FolderClient.Crypto.Reload
