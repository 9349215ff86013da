import FolderClient.Core.Listing
import FolderClient.Storage.Effects

namespace FolderClient.Storage.Collisions

open FolderClient.Core.Namespace FolderClient.Core.Filename FolderClient.Core.Listing
open FolderClient.Core.IdentifierText FolderClient.Library.Results FolderClient.Storage.Basic
open FolderClient.Storage.Namespace FolderClient.Storage.Effects

variable (unicode : Unicode)

/-- The names differ from one another and from the names taken, whatever their case. -/
def Apart (names taken : List String) : Prop :=
  (names.map (comparisonForm unicode)).Nodup ∧
    ∀ n ∈ names, ∀ t ∈ taken, comparisonForm unicode n ≠ comparisonForm unicode t

/-- The plain name of an item is also borne by another item or taken. -/
def Collides (raw : List RawName) (taken : List String) (r : RawName) : Prop :=
  1 < count unicode raw taken (plain unicode r)

/-- The short forms keep apart what they are to keep apart: a name with a short form is neither
borne by another such item, nor the plain name of an item without a collision, nor taken. -/
structure Distinguishable (raw : List RawName) (taken : List String) : Prop where
  colliding : raw.Pairwise fun r r' ↦
    Collides unicode raw taken r → Collides unicode raw taken r' →
      comparisonForm unicode (distinguished unicode r) ≠
        comparisonForm unicode (distinguished unicode r')
  plain : ∀ r ∈ raw, Collides unicode raw taken r → ∀ r' ∈ raw, ¬ Collides unicode raw taken r' →
    comparisonForm unicode (distinguished unicode r) ≠ comparisonForm unicode (plain unicode r')
  taken : ∀ r ∈ raw, Collides unicode raw taken r → ∀ t ∈ taken,
    comparisonForm unicode (distinguished unicode r) ≠ comparisonForm unicode t

variable {unicode} {raw : List RawName} {taken : List String}

theorem name_of_collides {r : RawName} (h : Collides unicode raw taken r) :
    (if 1 < count unicode raw taken (plain unicode r) then distinguished unicode r
      else plain unicode r) = distinguished unicode r := if_pos h

theorem name_of_not_collides {r : RawName} (h : ¬ Collides unicode raw taken r) :
    (if 1 < count unicode raw taken (plain unicode r) then distinguished unicode r
      else plain unicode r) = plain unicode r := if_neg h

/-- Two items whose plain names count as equal both collide. -/
theorem collides_of_sublist {r r' : RawName} (h : [r, r'].Sublist raw)
    (he : comparisonForm unicode (plain unicode r) = comparisonForm unicode (plain unicode r')) :
    Collides unicode raw taken r := by
  have hs := ((h.map (plain unicode)).map (comparisonForm unicode)).count_le
    (comparisonForm unicode (plain unicode r))
  have hc : (([r, r'].map (plain unicode)).map (comparisonForm unicode)).count
      (comparisonForm unicode (plain unicode r)) = 2 := by simp [he]
  unfold Collides count
  rw [List.map_append, List.count_append]
  omega

theorem collides_of_taken {r : RawName} (hr : r ∈ raw) {t : String} (ht : t ∈ taken)
    (he : comparisonForm unicode (plain unicode r) = comparisonForm unicode t) :
    Collides unicode raw taken r := by
  have hraw : 0 < ((raw.map (plain unicode)).map (comparisonForm unicode)).count
      (comparisonForm unicode (plain unicode r)) :=
    List.count_pos_iff.mpr (List.mem_map_of_mem (List.mem_map_of_mem hr))
  have htaken : 0 < (taken.map (comparisonForm unicode)).count
      (comparisonForm unicode (plain unicode r)) := by
    rw [he]
    exact List.count_pos_iff.mpr (List.mem_map_of_mem ht)
  unfold Collides count
  rw [List.map_append, List.count_append]
  omega

theorem distinguishable_of_apart (h : Apart unicode (name unicode raw taken) taken) :
    Distinguishable unicode raw taken := by
  obtain ⟨hn, ht⟩ := h
  rw [name, List.map_map] at hn
  refine ⟨?_, ?_, ?_⟩
  · refine (List.pairwise_map.mp hn).imp ?_
    intro r r' hne hc hc'
    simpa only [Function.comp_apply, name_of_collides hc, name_of_collides hc'] using hne
  · intro r hr hc r' hr' hc' he
    have heq : r = r' := by
      refine List.inj_on_of_nodup_map hn hr hr' ?_
      simpa only [Function.comp_apply, name_of_collides hc, name_of_not_collides hc'] using he
    exact hc' (heq ▸ hc)
  · intro r hr hc t htt
    have hm := ht _ (List.mem_map_of_mem hr) t htt
    rwa [name_of_collides hc] at hm

theorem apart_of_distinguishable (h : Distinguishable unicode raw taken) :
    Apart unicode (name unicode raw taken) taken := by
  refine ⟨?_, ?_⟩
  · rw [name, List.map_map]
    refine List.pairwise_map.mpr (List.pairwise_iff_forall_sublist.mpr ?_)
    intro r r' hs
    have hr : r ∈ raw := hs.subset (by simp)
    have hr' : r' ∈ raw := hs.subset (by simp)
    simp only [Function.comp_apply]
    by_cases hc : Collides unicode raw taken r <;> by_cases hc' : Collides unicode raw taken r'
    · rw [name_of_collides hc, name_of_collides hc']
      exact List.pairwise_iff_forall_sublist.mp h.colliding hs hc hc'
    · rw [name_of_collides hc, name_of_not_collides hc']
      exact h.plain r hr hc r' hr' hc'
    · rw [name_of_not_collides hc, name_of_collides hc']
      exact (h.plain r' hr' hc' r hr hc).symm
    · rw [name_of_not_collides hc, name_of_not_collides hc']
      intro he
      exact hc (collides_of_sublist hs he)
  · intro n hn t ht
    obtain ⟨r, hr, rfl⟩ := List.mem_map.mp hn
    by_cases hc : Collides unicode raw taken r
    · rw [name_of_collides hc]
      exact h.taken r hr hc t ht
    · rw [name_of_not_collides hc]
      intro he
      exact hc (collides_of_taken hr ht he)

theorem apart_iff : Apart unicode (name unicode raw taken) taken ↔
    Distinguishable unicode raw taken :=
  ⟨distinguishable_of_apart, apart_of_distinguishable⟩

section Checks

variable {container : Container}

/-- The shape of an entry that a listing of the container may hold. -/
structure Fitting (container : Container) (e : Entry) : Prop where
  parent : e.identifier.parent = some container
  kind : e.identifier.container?.isSome = e.isFolder
  checksum : ¬ (e.identifier.document?.isSome ∧ e.file.any (·.sha256.isNone))

theorem checkListFrom_eq_ok {identifiers : List EntryIdentifier} {names : List String}
    {l : List Entry} (hf : ∀ e ∈ l, Fitting container e)
    (hi : (l.map Entry.identifier).Nodup) (hin : ∀ e ∈ l, e.identifier ∉ identifiers)
    (hn : (l.map fun e ↦ comparisonForm unicode e.name).Nodup)
    (hnn : ∀ e ∈ l, comparisonForm unicode e.name ∉ names) :
    checkListFrom unicode container identifiers names l = .ok () := by
  induction l generalizing identifiers names with
  | nil => rfl
  | cons e l ih =>
    obtain ⟨hfe, hf⟩ := List.forall_mem_cons.mp hf
    obtain ⟨hie, hin⟩ := List.forall_mem_cons.mp hin
    obtain ⟨hne, hnn⟩ := List.forall_mem_cons.mp hnn
    obtain ⟨hid, hi⟩ := List.nodup_cons.mp (by simpa only [List.map_cons] using hi)
    obtain ⟨hnd, hn⟩ := List.nodup_cons.mp (by simpa only [List.map_cons] using hn)
    simp only [checkListFrom, ite_error_eq_ok, Decidable.not_not]
    refine ⟨hfe.parent, hfe.kind, hfe.checksum, hie, hne, ih hf hi ?_ hn ?_⟩
    · intro e' he' hm
      rcases List.mem_cons.mp hm with heq | hm
      · exact hid (heq ▸ List.mem_map_of_mem he')
      · exact hin e' he' hm
    · intro e' he' hm
      rcases List.mem_cons.mp hm with heq | hm
      · exact hnd (List.mem_map.mpr ⟨e', he', heq⟩)
      · exact hnn e' he' hm

/-- A listing whose entries fit under their own identifiers is accepted exactly when no two names
count as equal. -/
theorem checkList_eq_ok_iff {l : List Entry} (hf : ∀ e ∈ l, Fitting container e)
    (hi : (l.map Entry.identifier).Nodup) :
    checkList unicode container l = .ok () ↔
      ((l.map Entry.name).map (comparisonForm unicode)).Nodup := by
  rw [List.map_map]
  constructor
  · exact fun h ↦ (checked_from h).1.names
  · exact fun h ↦ checkListFrom_eq_ok hf hi (by simp) h (by simp)

end Checks

section Listings

theorem length_name : (name unicode raw taken).length = raw.length := by
  rw [name, List.length_map]

theorem map_zipWith_snd {α β γ : Type} (f : α → β → γ) (g : γ → β) (hg : ∀ a b, g (f a b) = b)
    {l : List α} {m : List β} (h : l.length = m.length) : (List.zipWith f l m).map g = m := by
  induction l generalizing m with
  | nil =>
    obtain rfl := List.length_eq_zero_iff.mp h.symm
    rfl
  | cons a l ih =>
    cases m with
    | nil => cases h
    | cons b m => rw [List.zipWith_cons_cons, List.map_cons, hg, ih (by simpa using h)]

theorem map_zipWith_fst {α β γ δ : Type} (f : α → β → γ) (g : γ → δ) (k : α → δ)
    (hg : ∀ a b, g (f a b) = k a) {l : List α} {m : List β} (h : l.length = m.length) :
    (List.zipWith f l m).map g = l.map k := by
  induction l generalizing m with
  | nil => rfl
  | cons a l ih =>
    cases m with
    | nil => cases h
    | cons b m =>
      rw [List.zipWith_cons_cons, List.map_cons, List.map_cons, hg, ih (by simpa using h)]

theorem nodup_unique (seen : List DocumentIdentifier) (items : List DocumentItem) :
    ((unique seen items).map DocumentItem.document).Nodup ∧
      ∀ item ∈ unique seen items, item.document ∉ seen := by
  induction items generalizing seen with
  | nil => exact ⟨.nil, by simp [unique]⟩
  | cons item items ih =>
    rw [unique]
    split
    · exact ih seen
    · rename_i hs
      obtain ⟨hn, hseen⟩ := ih (item.document :: seen)
      refine ⟨List.nodup_cons.mpr ⟨fun hm ↦ ?_, hn⟩, List.forall_mem_cons.mpr ⟨hs, ?_⟩⟩
      · obtain ⟨item', hi', he⟩ := List.mem_map.mp hm
        exact hseen item' hi' (he ▸ List.mem_cons_self)
      · exact fun item' hi' hm ↦ hseen item' hi' (List.mem_cons_of_mem _ hm)

variable (texts : HintTexts) (language : Language) (location : Location)
  (items : List DocumentItem) (truncated : Option Truncation)

/-- The documents of a listing as they are named. -/
def rawDocuments : List RawName := (unique [] items).map DocumentItem.rawName

theorem names_documentEntries :
    (documentEntries texts language unicode location items truncated).map Entry.name =
      name unicode (rawDocuments items) (Core.Listing.taken language truncated) ++
        Core.Listing.taken language truncated := by
  have hnames := map_zipWith_snd (fun (item : DocumentItem) name ↦ item.entry location name)
    Entry.name (fun _ _ ↦ rfl) (l := unique [] items)
    (m := name unicode (rawDocuments items) (Core.Listing.taken language truncated))
    (by rw [length_name, rawDocuments, List.length_map])
  cases truncated with
  | none =>
    rw [documentEntries]
    exact hnames.trans (List.append_nil _).symm
  | some truncation =>
    rw [documentEntries, List.map_append]
    exact congrArg (· ++ [nameTruncated language]) hnames

theorem mem_zipWith {α β γ : Type} {f : α → β → γ} {l : List α} {l' : List β} {c : γ}
    (h : c ∈ List.zipWith f l l') : ∃ a ∈ l, ∃ b, c = f a b := by
  rw [List.zipWith_eq_zipWith_take_min, ← List.map_uncurry_zip_eq_zipWith] at h
  obtain ⟨⟨a, b⟩, hab, rfl⟩ := List.mem_map.mp h
  exact ⟨a, List.mem_of_mem_take (List.of_mem_zip hab).1, b, rfl⟩

theorem fitting_documentEntries :
    ∀ e ∈ documentEntries texts language unicode location items truncated,
      Fitting (.ofLocation location) e := by
  have hentry : ∀ e ∈ List.zipWith (fun (item : DocumentItem) name ↦ item.entry location name)
      (unique [] items) (name unicode (rawDocuments items) (Core.Listing.taken language truncated)),
      Fitting (.ofLocation location) e := by
    intro e he
    obtain ⟨item, -, n, rfl⟩ := mem_zipWith he
    refine ⟨?_, rfl, fun h ↦ nomatch h.2⟩
    cases location <;> rfl
  intro e he
  cases truncated with
  | none => exact hentry e he
  | some truncation =>
    rcases List.mem_append.mp he with he | he
    · exact hentry e he
    · obtain rfl := List.mem_singleton.mp he
      exact ⟨rfl, rfl, fun h ↦ nomatch h.1⟩

theorem identifiers_documentEntries :
    ((documentEntries texts language unicode location items truncated).map
      Entry.identifier).Nodup := by
  have hmap := map_zipWith_fst (fun (item : DocumentItem) name ↦ item.entry location name)
    Entry.identifier (fun item ↦ EntryIdentifier.document location item.document)
    (fun _ _ ↦ rfl) (l := unique [] items)
    (m := name unicode (rawDocuments items) (Core.Listing.taken language truncated))
    (by rw [length_name, rawDocuments, List.length_map])
  have hn : ((unique [] items).map fun item ↦
      EntryIdentifier.document location item.document).Nodup := by
    have h := (nodup_unique [] items).1.map (f := EntryIdentifier.document location)
      fun _ _ h ↦ (EntryIdentifier.document.inj h).2
    rwa [List.map_map] at h
  cases truncated with
  | none =>
    rw [documentEntries]
    exact hmap ▸ hn
  | some truncation =>
    rw [documentEntries, List.map_append]
    refine List.nodup_append.mpr ⟨hmap ▸ hn, by simp, ?_⟩
    intro i hi j hj
    obtain ⟨item, -, rfl⟩ := List.mem_map.mp (hmap ▸ hi)
    obtain rfl := List.mem_singleton.mp hj
    exact fun h ↦ nomatch h

/-- A listing of documents is stored exactly when the names of its documents are kept apart. -/
theorem checkList_documentEntries :
    checkList unicode (.ofLocation location)
        (documentEntries texts language unicode location items truncated) = .ok () ↔
      Distinguishable unicode (rawDocuments items) (Core.Listing.taken language truncated) := by
  rw [checkList_eq_ok_iff (fitting_documentEntries texts language location items truncated)
    (identifiers_documentEntries ..), names_documentEntries, ← apart_iff, List.map_append,
    List.nodup_append, Apart]
  constructor
  · intro ⟨hn, _, hd⟩
    exact ⟨hn, fun n hn t ht ↦ hd _ (List.mem_map_of_mem hn) _ (List.mem_map_of_mem ht)⟩
  · intro ⟨hn, hd⟩
    refine ⟨hn, ?_, ?_⟩
    · cases truncated <;> simp [Core.Listing.taken]
    · intro a ha b hb
      obtain ⟨n, hn, rfl⟩ := List.mem_map.mp ha
      obtain ⟨t, ht, rfl⟩ := List.mem_map.mp hb
      exact hd n hn t ht

/-- The same for a listing of containers. -/
theorem checkList_containerEntries {kind : IdKind} {container : Identifier kind → Container}
    {parent : Container} (hinj : Function.Injective container)
    (hp : ∀ i, (container i).parent = some parent) {items : List (ContainerItem kind)}
    (hd : (items.map ContainerItem.identifier).Nodup) :
    checkList unicode parent (containerEntries unicode items container) = .ok () ↔
      Distinguishable unicode (items.map ContainerItem.rawName) [] := by
  have hlength : items.length = (name unicode (items.map ContainerItem.rawName) []).length := by
    rw [length_name, List.length_map]
  have hfit : ∀ e ∈ containerEntries unicode items container, Fitting parent e := by
    intro e he
    obtain ⟨item, -, n, rfl⟩ := mem_zipWith he
    exact ⟨hp item.identifier, rfl, fun h ↦ nomatch h.1⟩
  have hi : ((containerEntries unicode items container).map Entry.identifier).Nodup := by
    have h := map_zipWith_fst
      (fun (item : ContainerItem kind) n ↦ folder (.container (container item.identifier)) n)
      Entry.identifier (fun item ↦ EntryIdentifier.container (container item.identifier))
      (fun _ _ ↦ rfl) hlength
    rw [containerEntries, h]
    have hn := hd.map (f := fun i ↦ EntryIdentifier.container (container i))
      fun _ _ h ↦ hinj (EntryIdentifier.container.inj h)
    rwa [List.map_map] at hn
  have hnames := map_zipWith_snd
    (fun (item : ContainerItem kind) n ↦ folder (.container (container item.identifier)) n)
    Entry.name (fun _ _ ↦ rfl) hlength
  rw [checkList_eq_ok_iff hfit hi, containerEntries, hnames, ← apart_iff, Apart]
  simp

end Listings

/-- The names of siblings are apart, and their listing is stored, exactly when the short forms
keep apart what they are to keep apart. -/
theorem names_apart_iff (texts : HintTexts) (language : Language) (unicode : Unicode) :
    (∀ raw taken, Apart unicode (name unicode raw taken) taken ↔
      Distinguishable unicode raw taken) ∧
    (∀ location items truncated,
      checkList unicode (.ofLocation location)
          (documentEntries texts language unicode location items truncated) = .ok () ↔
        Distinguishable unicode (rawDocuments items) (Core.Listing.taken language truncated)) ∧
    ∀ (kind : IdKind) (container : Identifier kind → Container) (parent : Container)
      (items : List (ContainerItem kind)), Function.Injective container →
      (∀ i, (container i).parent = some parent) →
      (items.map ContainerItem.identifier).Nodup →
        (checkList unicode parent (containerEntries unicode items container) = .ok () ↔
          Distinguishable unicode (items.map ContainerItem.rawName) []) :=
  ⟨fun _ _ ↦ apart_iff, fun _ _ _ ↦ checkList_documentEntries .., fun _ _ _ _ hinj hp hd ↦
    checkList_containerEntries hinj hp hd⟩

section Order

variable {raw' : List RawName}

theorem count_of_perm (h : raw.Perm raw') (n : String) :
    count unicode raw taken n = count unicode raw' taken n := by
  unfold count
  exact (((h.map _).append_right taken).map _).count_eq _

end Order

section Delivered

open FolderClient.Library.Texts

def lower : Unicode := ⟨id, fun s ↦ String.ofList (asciiLower s.toList)⟩

def silent : HintTexts := ⟨fun _ ↦ "", fun _ _ ↦ ""⟩

def note (n : Fin (2 ^ 128)) (title : String) : DocumentItem :=
  ⟨⟨n⟩, title, "application/pdf", 1, ⟨0⟩, "1", .null, .null⟩

/-- Two documents of one title, and a third whose title is the name the first one then gets. -/
def notes : List DocumentItem :=
  [note 1 "Lieferschein", note 2 "Lieferschein", note 3 "Lieferschein (00000001)"]

theorem names_collide :
    ¬ Apart lower (name lower (rawDocuments notes) []) [] ∧
      checkList lower (.search ⟨1⟩)
          (documentEntries silent .de lower (.search ⟨1⟩) notes none) =
        .error (.duplicateName (.search ⟨1⟩) "Lieferschein (00000001).pdf") := by
  constructor
  · unfold Apart
    decide +kernel
  · decide +kernel

end Delivered

end FolderClient.Storage.Collisions
