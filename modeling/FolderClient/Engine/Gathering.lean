import FolderClient.Engine.Orderly

namespace FolderClient.Engine.Gathering

open FolderClient.Core.Namespace FolderClient.Engine.Orderly FolderClient.Engine.Port
open FolderClient.Engine.Reconcile FolderClient.Engine.Session FolderClient.Library.Programs
open FolderClient.Library.Programs.Program FolderClient.Library.Programs.Contract
open FolderClient.Net.Access FolderClient.Storage.Basic

/-- The requests between the last page of a listing and its write. -/
def Between : ReconcileRequest → Prop
  | .session .now | .containerState _ => True
  | _ => False

/-- What the tokens of the pages in hand meet, from the request of the first page to the write of
the listing or its confirmation. -/
structure Gathers {σ : Type} (C : Contract Request Answer σ)
    (G : List TokenResponse → σ → Prop) : Prop where
  nil : ∀ s, G [] s
  harmless : ∀ r s, Harmless r → ¬ Confirms r → C.ok r s
  first : ∀ container etag s a s' s'',
    (reconciles C).serve (.listPage container none etag) s a s' → (reconciles C).rely s' s'' →
      G a.2.toList s''
  next : ∀ container cursor etag tokens s a s' s'', G tokens s →
    (reconciles C).serve (.listPage container (some cursor) etag) s a s' →
      (reconciles C).rely s' s'' → G (tokens ++ a.2.toList) s''
  keep : ∀ tokens r s a s' s'', Between r → G tokens s → (reconciles C).serve r s a s' →
    (reconciles C).rely s' s'' → G tokens s''
  write : ∀ container entries state tokens s, G tokens s →
    (reconciles C).ok (.replaceContainer container entries state tokens) s
  confirm : ∀ container state tokens s, G tokens s →
    (reconciles C).ok (.updateContainerState container state tokens) s

namespace Gathers

variable {σ : Type} {setting : Setting} {C : Contract Request Answer σ}
  {G : List TokenResponse → σ → Prop} (K : Gathers C G)

include K

theorem fine_harmless {α : Type} {p : ReconcileActivity α}
    (h : p.Asks fun r ↦ HarmlessReconcile r ∧ ¬ Confirms (.command (.reconcile r))) :
    (reconciles C).Fine p :=
  fine_of_asks h fun _ s hr ↦ K.harmless _ s hr.1 hr.2

theorem sound_readPages (container : Container) (known : Option String) (n : ℕ)
    (list : Listing) (cursor : Option String) (tokens : List TokenResponse) {s : σ}
    (h : cursor = none ∧ tokens = [] ∨ (∃ next, cursor = some next) ∧ G tokens s) :
    (reconciles C).Sound (readPages container known n list cursor tokens)
      (fun x s' ↦ G x.2 s') s := by
  induction n generalizing list cursor tokens s with
  | zero =>
    obtain ⟨-, rfl⟩ | ⟨-, htokens⟩ := h
    · exact K.nil s
    · exact htokens
  | succ n ih =>
    unfold readPages
    refine sound_call_bind (K.harmless _ s trivial id) fun x s' s'' hs hr ↦ ?_
    obtain ⟨result, token⟩ := x
    have htokens : G (tokens ++ token.toList) s'' := by
      obtain ⟨rfl, rfl⟩ | ⟨⟨next, rfl⟩, hgathered⟩ := h
      · exact K.first _ _ s (result, token) s' s'' hs hr
      · exact K.next _ _ _ tokens s (result, token) s' s'' hgathered hs hr
    cases result with
    | success page =>
      dsimp only
      split
      · exact htokens
      · rename_i next _
        exact ih _ _ _ (.inr ⟨⟨next, rfl⟩, htokens⟩)
    | _ => exact htokens

theorem sound_adopt {container : Container} {entries : List Entry} {etag : Option String}
    {truncation : Option TruncationState} {tokens : List TokenResponse} {s : σ}
    (h : G tokens s) :
    (reconciles C).Sound (adopt container entries etag truncation tokens).run
      (fun _ _ ↦ True) s := by
  refine sound_fallible_bind ⟨K.harmless _ s trivial id, fun time s' s'' hs hr ↦ ?_⟩
  have htokens := K.keep tokens _ s time s' s'' trivial h hs hr
  refine Contract.Sound.fine_bind (Q := fun _ _ ↦ True) ?_ fun result ↦ ?_
  · exact ⟨K.write _ _ _ tokens s'' htokens, fun _ _ _ _ _ ↦ trivial⟩
  · cases result with
    | error e => exact fine_done _
    | ok journal =>
      refine K.fine_harmless ?_
      change (if journal.isEmpty = true then pure () else registerWithPlatform journal :
        ReconcileFallible Unit).run.Asks _
      split
      · trivial
      · refine asks_lift (asks_bind (asks_call ⟨trivial, id⟩) fun fileSystem ↦ ?_)
        split
        · exact asks_bind (asks_call ⟨trivial, id⟩) fun _ ↦ trivial
        · trivial

theorem sound_confirmed {container : Container} {etag : Option String}
    {tokens : List TokenResponse} {s : σ} (h : G tokens s) :
    (reconciles C).Sound (confirmed container etag tokens).run (fun _ _ ↦ True) s := by
  have hwrite : ∀ (before : Option TruncationState) (etag : Option String) (s : σ), G tokens s →
      (reconciles C).Sound (do
        let time ← ReconcileRequest.call (.session .now)
        store (ReconcileRequest.call
          (.updateContainerState container ⟨etag, time, before⟩ tokens)) :
        ReconcileFallible Unit).run (fun _ _ ↦ True) s := by
    intro before etag s h
    refine sound_fallible_bind ⟨K.harmless _ s trivial id, fun time s' s'' hs hr ↦ ?_⟩
    have htokens := K.keep tokens _ s time s' s'' trivial h hs hr
    exact ⟨K.confirm _ _ tokens s'' htokens, fun _ _ _ _ _ ↦ trivial⟩
  refine sound_fallible_bind ⟨K.harmless _ s trivial id, fun answer s' s'' hs hr ↦ ?_⟩
  have htokens := K.keep tokens _ s answer s' s'' trivial h hs hr
  cases answer with
  | error e => trivial
  | ok before =>
    cases etag with
    | some etag => exact hwrite _ _ s'' htokens
    | none =>
      refine sound_fallible_bind ⟨K.harmless _ s'' trivial id, fun stored t t' hs hr ↦ ?_⟩
      exact hwrite _ _ t' (K.keep tokens _ s'' stored t t' trivial htokens hs hr)

theorem fine_root (setting : Setting) :
    (reconciles C).Fine (adopt .root setting.rootEntries none none []).run :=
  fun s ↦ K.sound_adopt (K.nil s)

theorem fine_fetchAndAdopt (setting : Setting) (container : Container) :
    (reconciles C).Fine (fetchAndAdopt setting container).run := by
  have hstate : (reconciles C).Fine (ReconcileRequest.call (.containerState container)) :=
    K.fine_harmless (asks_call ⟨trivial, id⟩)
  refine fine_fallible_bind (fine_store hstate) fun before ↦ ?_
  split
  · exact fun s ↦ K.sound_adopt (K.nil s)
  · exact fun s ↦ K.sound_adopt (K.nil s)
  · intro s
    refine sound_fallible_bind (sound_bind.mpr (sound_mono ?_
      (K.sound_readPages _ _ maxPage .empty none [] (.inl ⟨rfl, rfl⟩))))
    intro ⟨result, tokens⟩ s' htokens
    have hadopt : (reconciles C).Sound
        (do let list ← raise (result.valueFrom (listingName container))
            adopt container (entriesOf setting container list) list.etag
              (if holdsDocuments container then list.truncation else none) tokens :
          ReconcileFallible Unit).run (fun _ _ ↦ True) s' := by
      refine sound_fallible_bind ?_
      cases hvalue : result.valueFrom (listingName container) with
      | error e => trivial
      | ok list => exact K.sound_adopt htokens
    cases result with
    | unchanged etag => exact K.sound_confirmed htokens
    | _ => exact hadopt

end Gathers

end FolderClient.Engine.Gathering
