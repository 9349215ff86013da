import FolderClient.Cfapi.Checks
import FolderClient.Core.Titles
import FolderClient.Storage.Collisions

namespace FolderClient.Cfapi.Names

open FolderClient.Core.Namespace FolderClient.Core.Filename FolderClient.Core.Listing
open FolderClient.Core.IdentifierText FolderClient.Core.Titles FolderClient.Library.Texts
open FolderClient.Cfapi.Checks
open FolderClient.Storage.Collisions

section Characters

/-- Neither a control character below the space nor one that is forbidden in names. -/
def Good (c : Char) : Prop := ¬ c.toNat < 0x20 ∧ c ∉ forbidden

instance (c : Char) : Decidable (Good c) := inferInstanceAs (Decidable (_ ∧ _))

theorem good_of_fallback {c : Char} (h : fallback c = none) : Good c := by
  unfold fallback at h
  split at h
  · cases h
  · rename_i h₁
    split at h
    · cases h
    · rename_i h₂
      split at h
      · cases h
      · rename_i h₃
        refine ⟨fun hc ↦ h₃ ?_, fun hf ↦ ?_⟩
        · simp [isControl, hc]
        · simp only [forbidden, List.mem_cons, List.not_mem_nil, or_false] at hf h₁ h₂
          tauto

theorem good_replacement (c : Char) : Good ((fallback c).getD c) := by
  cases h : fallback c with
  | none => exact good_of_fallback h
  | some d =>
    have hd : d = '-' ∨ d = '_' ∨ d = ' ' := by
      unfold fallback at h
      split at h
      · exact .inl (Option.some.inj h).symm
      · split at h
        · exact .inr (.inl (Option.some.inj h).symm)
        · split at h
          · exact .inr (.inr (Option.some.inj h).symm)
          · cases h
    rcases hd with rfl | rfl | rfl
    · exact (by decide : Good '-')
    · exact (by decide : Good '_')
    · exact (by decide : Good ' ')

theorem good_of_mem_replaceFrom {spaceBefore started : Bool} {l : List Char} {c : Char}
    (h : c ∈ replaceFrom spaceBefore started l) : Good c := by
  induction l generalizing spaceBefore started with
  | nil => cases h
  | cons d l ih =>
    rw [replaceFrom] at h
    split at h
    · split at h
      · rcases List.mem_cons.mp h with rfl | h
        · decide
        · exact ih h
      · exact ih h
    · rcases List.mem_cons.mp h with rfl | h
      · exact good_replacement d
      · exact ih h

theorem utf16Size_le (c : Char) : utf16Size c ≤ c.utf8Size := by
  have hpos := c.utf8Size_pos
  unfold utf16Size
  split
  · omega
  · rename_i hc
    have hone : c.utf8Size ≠ 1 := by
      intro h
      have hv := UInt32.le_iff_toNat_le.mp (Char.utf8Size_eq_one_iff.mp h)
      have hlarge : ¬ c.val.toNat < 0x10000 := hc
      simp at hv
      omega
    omega

theorem utf16Length_le (l : List Char) : utf16Length l ≤ utf8Length l := by
  induction l with
  | nil => exact Nat.zero_le _
  | cons c l ih =>
    have h := utf16Size_le c
    simp only [utf16Length, utf8Length, List.map_cons, List.sum_cons] at ih ⊢
    omega

end Characters

section Titles

/-- What sanitising a title brings about, the names of devices aside. -/
structure Sound (limit : ℕ) (text : List Char) : Prop where
  good : ∀ c ∈ text, Good c
  last : ∃ c, text.getLast? = some c ∧ c ≠ '.' ∧ c ≠ ' '
  short : utf16Length text ≤ limit

theorem utf16Length_append (l l' : List Char) :
    utf16Length (l ++ l') = utf16Length l + utf16Length l' := by
  simp [utf16Length]

theorem sound_shorten {l : List Char} (hl : ∀ c ∈ l, Good c) (hne : shorten l ≠ []) :
    Sound maxTitleBytes (shorten l) where
  good c hc := hl c (shorten_subset l hc)
  last := by
    refine ⟨(shorten l).getLast hne, List.getLast?_eq_some_getLast hne, ?_⟩
    have h := List.rdropWhile_last_not _ _ hne
    simp only [Bool.or_eq_true, decide_eq_true_eq, not_or] at h
    exact h
  short := (utf16Length_le _).trans (utf8Length_shorten l)

theorem sound_titled {l : List Char} (hl : ∀ c ∈ l, Good c) :
    Sound maxTitleBytes (titled (shorten l)) := by
  unfold titled
  split
  · exact ⟨forall_of_all (by decide), ⟨'t', by decide⟩, by decide⟩
  · rename_i hne
    exact sound_shorten hl fun h ↦ hne (by rw [h]; rfl)

theorem sound_insert {limit n : ℕ} {text : List Char} (h : Sound limit text) :
    Sound (limit + 1) (text.take n ++ '_' :: text.drop n) where
  good c hc := by
    rcases List.mem_append.mp hc with hc | hc
    · exact h.good c (List.mem_of_mem_take hc)
    · rcases List.mem_cons.mp hc with rfl | hc
      · decide
      · exact h.good c (List.mem_of_mem_drop hc)
  last := by
    obtain ⟨c, hc, hne⟩ := h.last
    by_cases hd : text.drop n = []
    · rw [hd]
      exact ⟨'_', by simp, by decide⟩
    · refine ⟨c, ?_, hne⟩
      have ht : text = text.take n ++ text.drop n := (List.take_append_drop n text).symm
      rw [ht, List.getLast?_append_of_ne_nil _ hd] at hc
      rw [List.getLast?_append_of_ne_nil _ (by simp), List.getLast?_cons_of_ne_nil hd]
      exact hc
  short := by
    have ht := congrArg utf16Length (List.take_append_drop n text)
    have hs := h.short
    have hu : utf16Size '_' = 1 := rfl
    rw [utf16Length_append] at ht
    rw [utf16Length_append]
    simp only [utf16Length, List.map_cons, List.sum_cons] at ht hs ⊢
    omega

theorem sound_sanitize (unicode : Unicode) (title : String) :
    Sound (maxTitleBytes + 1) (sanitize unicode title).toList := by
  rw [sanitize, String.toList_ofList, settle_eq]
  have h := sound_titled (l := replaceFrom false false (unicode.nfc title).toList)
    fun c ↦ good_of_mem_replaceFrom
  split
  · exact sound_insert h
  · exact ⟨h.good, h.last, h.short.trans (Nat.le_succ _)⟩

end Titles

section Devices

/-- Of the names of devices only the consoles survive the sanitising. -/
theorem device_settle {text : List Char} (h : device (settle text) ∈ deviceName) :
    device (settle text) ∈ ["CONIN$", "CONOUT$"] := by
  rw [settle_eq] at h ⊢
  generalize titled text = t at h ⊢
  split at h
  · -- The underscore stands before any dot, so it is part of what is looked up.
    rename_i hr
    exfalso
    have hn : (trim (asciiUpper (stem t))).length ≤ (stem t).length :=
      (length_trim_le _).trans (by rw [asciiUpper, List.length_map])
    generalize (trim (asciiUpper (stem t))).length = n at h hn
    have htake : ∀ c ∈ t.take n, c ≠ '.' := by
      obtain ⟨u, hu⟩ : stem t <+: t := List.takeWhile_prefix _
      intro c hc
      rw [← hu, List.take_append_of_le_length hn] at hc
      simpa using List.mem_takeWhile_imp (List.mem_of_mem_take hc)
    have hmem : '_' ∈ stem (t.take n ++ '_' :: t.drop n) := by
      rw [stem, List.takeWhile_append_of_pos fun c hc ↦ by simpa using htake c hc,
        List.takeWhile_cons_of_pos (by decide)]
      simp
    have hdevice : '_' ∈ (device (t.take n ++ '_' :: t.drop n)).toList := by
      rw [device, String.toList_ofList]
      exact List.mem_map.mpr ⟨'_', mem_rdropWhile hmem (by decide), by decide⟩
    have hnone : ∀ w ∈ deviceName, '_' ∉ w.toList := by decide
    exact hnone _ h hdevice
  · rename_i hr
    rw [if_neg hr]
    have hsplit : device t ∈ reserved ++ ["CONIN$", "CONOUT$"] := h
    refine (List.mem_append.mp hsplit).resolve_left fun hres ↦ hr ?_
    have hfirst : ∀ w ∈ reserved, ∃ c rest, w.toList = c :: rest ∧ isWhitespace c = false := by
      simp [reserved, isWhitespace]
    obtain ⟨c, rest, hw, hc⟩ := hfirst _ hres
    rw [device, String.toList_ofList, asciiUpper_rdropWhile] at hw
    rw [stem, trim_of_rdropWhile hw hc, ← hw, ← asciiUpper_rdropWhile]
    exact hres

end Devices

section Parts

theorem sound_append {limit limit' : ℕ} {l l' : List Char} (h : Sound limit l)
    (h' : Sound limit' l') : Sound (limit + limit') (l ++ l') where
  good c hc := (List.mem_append.mp hc).elim (h.good c) (h'.good c)
  last := by
    obtain ⟨c, hc, hne⟩ := h'.last
    exact ⟨c, by rw [List.getLast?_append, hc, Option.some_or], hne⟩
  short := by
    rw [utf16Length_append]
    exact Nat.add_le_add h.short h'.short

/-- The part of a name that carries the short form. -/
def mark (k : String) : List Char := [' ', '('] ++ k.toList ++ [')']

theorem mem_shortForm {kind : IdKind} {i : Identifier kind} {c : Char}
    (h : c ∈ (shortForm i).toList) : c ∈ alphabet := by
  rw [shortForm, String.toList_ofList] at h
  exact mem_digits (List.mem_of_mem_drop h)

theorem length_shortForm {kind : IdKind} (i : Identifier kind) :
    (shortForm i).toList.length = 8 := by
  rw [shortForm, String.toList_ofList, List.length_drop, identifierPart, length_digits]
  rfl

theorem utf16Length_of_alphabet {l : List Char} (h : ∀ c ∈ l, c ∈ alphabet) :
    utf16Length l = l.length := by
  have hone : ∀ c ∈ alphabet, utf16Size c = 1 := forall_of_all (by decide)
  induction l with
  | nil => rfl
  | cons c l ih =>
    obtain ⟨hc, hl⟩ := List.forall_mem_cons.mp h
    have h := ih hl
    simp only [utf16Length, List.map_cons, List.sum_cons, List.length_cons] at h ⊢
    rw [hone c hc, h, Nat.add_comm]

theorem sound_mark {kind : IdKind} (i : Identifier kind) : Sound 11 (mark (shortForm i)) where
  good c hc := by
    have halphabet : ∀ c ∈ alphabet, Good c := forall_of_all (by decide)
    simp only [mark, List.mem_append, List.mem_cons, List.not_mem_nil, or_false] at hc
    rcases hc with ((rfl | rfl) | hc) | rfl
    · decide
    · decide
    · exact halphabet c (mem_shortForm hc)
    · decide
  last := ⟨')', by rw [mark, List.getLast?_concat], by decide⟩
  short := by
    have hk := utf16Length_of_alphabet fun c ↦ mem_shortForm (i := i) (c := c)
    rw [length_shortForm] at hk
    rw [mark, utf16Length_append, utf16Length_append, hk]
    decide

theorem sound_of_extension {e : String}
    (h : e ∈ ["pdf", "png", "jpg", "gif", "webp", "tif", "txt", "xml", "bin"]) :
    Sound 5 ('.' :: e.toList) := by
  simp only [List.mem_cons, List.not_mem_nil, or_false] at h
  rcases h with rfl | rfl | rfl | rfl | rfl | rfl | rfl | rfl | rfl <;>
    exact ⟨forall_of_all (by decide), ⟨_, rfl, by decide⟩, by decide⟩

theorem sound_extensionFor (mediaType : String) :
    Sound 5 ('.' :: (extensionFor mediaType).toList) := by
  refine sound_of_extension ?_
  unfold extensionFor
  extract_lets base
  split_ifs <;> decide

end Parts

section Verdicts

/-- What the check looks at beyond the names of devices holds of every sound name. -/
theorem checkName_eq_ok_iff {n : String} {limit : ℕ} (h : Sound limit n.toList)
    (hlimit : limit ≤ maxNameUtf16) :
    checkName n = .ok () ↔ device n.toList ∉ deviceName := by
  obtain ⟨c, hc, hdot, hspace⟩ := h.last
  have hempty : n.toList.isEmpty = false := by
    cases hl : n.toList with
    | nil => rw [hl] at hc; cases hc
    | cons => rfl
  have hdots : ¬ (n.toList = ['.'] ∨ n.toList = ['.', '.']) := by
    intro hn
    rcases hn with hn | hn <;> rw [hn] at hc <;> exact hdot (Option.some.inj hc).symm
  have hlength : ¬ maxNameUtf16 < utf16Length n.toList :=
    Nat.not_lt.mpr (h.short.trans hlimit)
  have hcontrol : n.toList.any (·.toNat < 0x20) = false :=
    List.any_eq_false.mpr fun c hc ↦ by simpa using (h.good c hc).1
  have hforbidden : n.toList.any (· ∈ forbidden) = false :=
    List.any_eq_false.mpr fun c hc ↦ by simpa using (h.good c hc).2
  have hlast : ¬ (n.toList.getLast? = some '.' ∨ n.toList.getLast? = some ' ') := by
    rw [hc]
    simp [hdot, hspace]
  have hreason : nameReason n.toList =
      if device n.toList ∈ deviceName then some "it is a reserved device name" else none := by
    simp only [nameReason, hempty, hdots, hlength, hcontrol, hforbidden, hlast, if_false,
      Bool.false_eq_true]
  rw [checkName, hreason]
  by_cases hd : device n.toList ∈ deviceName
  · simp [hd]
  · simp [hd]

theorem stem_append_of_mem {l l' : List Char} (h : '.' ∈ l) : stem (l ++ l') = stem l := by
  induction l with
  | nil => cases h
  | cons c l ih =>
    by_cases hc : c = '.'
    · rw [stem, stem, List.cons_append, List.takeWhile_cons_of_neg (by simp [hc]),
        List.takeWhile_cons_of_neg (by simp [hc])]
    · have hl : '.' ∈ l := (List.mem_cons.mp h).resolve_left (Ne.symm hc)
      have ih := ih hl
      rw [stem, stem] at ih
      rw [stem, stem, List.cons_append, List.takeWhile_cons_of_pos (by simp [hc]),
        List.takeWhile_cons_of_pos (by simp [hc]), ih]

theorem stem_of_not_mem {l l' : List Char} (h : '.' ∉ l) : stem (l ++ '.' :: l') = l := by
  rw [stem, List.takeWhile_append_of_pos, List.takeWhile_cons_of_neg (by decide), List.append_nil]
  intro c hc
  simpa using fun he : c = '.' ↦ h (he ▸ hc)

theorem stem_self {l : List Char} (h : '.' ∉ l) : stem l = l := by
  refine List.takeWhile_eq_self_iff.mpr fun c hc ↦ ?_
  simpa using fun he : c = '.' ↦ h (he ▸ hc)

theorem device_eq_of_stem {l l' : List Char} (h : stem l = stem l') : device l = device l' := by
  rw [stem, stem] at h
  rw [device, device, h]

/-- The extension as it stands in the name. -/
def ending (e : Option String) : List Char := e.elim [] fun e ↦ '.' :: e.toList

theorem toList_assemble (title : String) (k e : Option String) :
    (assemble title k e).toList = title.toList ++ k.elim [] mark ++ ending e := by
  cases k <;> cases e <;> simp [assemble, mark, ending]

theorem stem_ending {l : List Char} (e : Option String) : stem (l ++ ending e) = stem l := by
  cases e with
  | none => rw [ending, Option.elim_none, List.append_nil]
  | some e =>
    by_cases h : '.' ∈ l
    · exact stem_append_of_mem h
    · rw [ending, Option.elim_some, stem_of_not_mem h, stem_self h]

/-- A short form keeps a name from being one of a device, unless a dot stands before it. -/
theorem device_mark {l : List Char} (h : '.' ∉ l) {k : String} (hk : '.' ∉ k.toList) :
    device (l ++ mark k) ∉ deviceName := by
  have hdot : '.' ∉ l ++ mark k := by simp [mark, h, hk]
  have hmem : ')' ∈ (device (l ++ mark k)).toList := by
    have hstem : (l ++ mark k).takeWhile (· ≠ '.') = l ++ mark k := stem_self hdot
    rw [device, hstem, String.toList_ofList]
    exact List.mem_map.mpr ⟨')', mem_rdropWhile (by simp [mark]) (by decide), by decide⟩
  have hnone : ∀ w ∈ deviceName, ')' ∉ w.toList := by decide
  exact fun hd ↦ hnone _ hd hmem

variable (unicode : Unicode)

/-- The consoles, which are devices but are no reserved names. -/
def consoles : List String := ["CONIN$", "CONOUT$"]

theorem device_sanitize (title : String) :
    device (sanitize unicode title).toList ∈ deviceName ↔
      device (sanitize unicode title).toList ∈ consoles := by
  constructor
  · intro h
    rw [sanitize, String.toList_ofList] at h ⊢
    exact device_settle h
  · exact fun h ↦ (by decide : ∀ w ∈ consoles, w ∈ deviceName) _ h

/-- What a listing makes of an item before its siblings are known. -/
structure Listed (r : RawName) : Prop where
  short : ∃ (kind : IdKind) (i : Identifier kind), r.shortForm = shortForm i
  «extension» : ∀ e ∈ r.extension, ∃ mediaType, e = extensionFor mediaType

theorem sound_ending {r : RawName} (h : Listed r) {limit : ℕ} {l : List Char}
    (hl : Sound limit l) : Sound (limit + 5) (l ++ ending r.extension) := by
  cases he : r.extension with
  | none =>
    rw [ending, Option.elim_none, List.append_nil]
    exact ⟨hl.good, hl.last, hl.short.trans (Nat.le_add_right _ _)⟩
  | some e =>
    obtain ⟨mediaType, rfl⟩ := h.extension e he
    exact sound_append hl (sound_extensionFor mediaType)

theorem checkName_plain {r : RawName} (h : Listed r) :
    checkName (plain unicode r) = .ok () ↔
      device (sanitize unicode r.title).toList ∉ consoles := by
  have hs := sound_ending h (sound_sanitize unicode r.title)
  have hl : (plain unicode r).toList =
      (sanitize unicode r.title).toList ++ ending r.extension := by
    rw [plain, toList_assemble, Option.elim_none, List.append_nil]
  rw [← hl] at hs
  rw [checkName_eq_ok_iff hs (by decide), hl, device_eq_of_stem (stem_ending _),
    device_sanitize]

theorem checkName_distinguished {r : RawName} (h : Listed r) :
    checkName (distinguished unicode r) = .ok () ↔
      (device (sanitize unicode r.title).toList ∈ consoles →
        '.' ∉ (sanitize unicode r.title).toList) := by
  obtain ⟨kind, i, hi⟩ := h.short
  have hs := sound_ending h (sound_append (sound_sanitize unicode r.title) (sound_mark i))
  have hl : (distinguished unicode r).toList =
      (sanitize unicode r.title).toList ++ mark (shortForm i) ++ ending r.extension := by
    rw [distinguished, toList_assemble, Option.elim_some, hi]
  rw [← hl] at hs
  rw [checkName_eq_ok_iff hs (by decide), hl, device_eq_of_stem (stem_ending _)]
  by_cases hdot : '.' ∈ (sanitize unicode r.title).toList
  · rw [device_eq_of_stem (stem_append_of_mem hdot), device_sanitize]
    simp [hdot]
  · have hk : '.' ∉ (shortForm i).toList :=
      fun hc ↦ (by decide : '.' ∉ alphabet) (mem_shortForm hc)
    simp [hdot, device_mark hdot hk]

/-- The name of the item is one of a console: what stands before its first dot is, and no short
form is put there. -/
def Intercepted (raw : List RawName) (taken : List String) (r : RawName) : Prop :=
  device (sanitize unicode r.title).toList ∈ consoles ∧
    (Collides unicode raw taken r → '.' ∈ (sanitize unicode r.title).toList)

/-- The names of siblings are accepted exactly when none of them is one of a console. -/
theorem checkName_name {raw : List RawName} {taken : List String} (h : ∀ r ∈ raw, Listed r) :
    (∀ n ∈ name unicode raw taken, checkName n = .ok ()) ↔
      ∀ r ∈ raw, ¬ Intercepted unicode raw taken r := by
  rw [name, List.forall_mem_map]
  refine forall₂_congr fun r hr ↦ ?_
  by_cases hc : Collides unicode raw taken r
  · rw [name_of_collides hc, checkName_distinguished unicode (h r hr)]
    simp [Intercepted, hc]
  · rw [name_of_not_collides hc, checkName_plain unicode (h r hr)]
    simp [Intercepted, hc]

end Verdicts

section Listings

variable (texts : HintTexts) (language : Language) (unicode : Unicode)

theorem listed_container {kind : IdKind} (item : ContainerItem kind) : Listed item.rawName :=
  ⟨⟨kind, item.identifier, rfl⟩, fun _ h ↦ nomatch h⟩

theorem listed_document (item : DocumentItem) : Listed item.rawName :=
  ⟨⟨.document, item.document, rfl⟩, fun _ h ↦ ⟨item.mediaType, (Option.some.inj h).symm⟩⟩

theorem accepted_fixed (l : Language) :
    ∀ n ∈ [nameBaskets l, nameArchives l, nameSearches l, nameReadMe l, nameTruncated l],
      checkName n = .ok () := by
  cases l <;> decide +kernel

theorem checkName_rootEntries :
    ∀ e ∈ rootEntries texts language, checkName e.name = .ok () := by
  intro e he
  refine accepted_fixed language _ ?_
  simp only [rootEntries, List.mem_cons, List.not_mem_nil, or_false] at he
  rcases he with rfl | rfl | rfl | rfl <;> simp [folder, hint]

theorem names_containerEntries {kind : IdKind} (items : List (ContainerItem kind))
    (container : Identifier kind → Container) :
    (containerEntries unicode items container).map Entry.name =
      name unicode (items.map ContainerItem.rawName) [] :=
  map_zipWith_snd _ Entry.name (fun _ _ ↦ rfl) (by rw [length_name, List.length_map])

theorem checkName_taken (truncated : Option Truncation) :
    ∀ n ∈ taken language truncated, checkName n = .ok () := by
  intro n hn
  refine accepted_fixed language n ?_
  cases truncated with
  | none => cases hn
  | some truncation => simp [List.mem_singleton.mp hn]

/-- Every name of a listing is accepted exactly when no title of an item is one of a console; the
names of the root always are. -/
theorem names_accepted_iff :
    (∀ e ∈ rootEntries texts language, checkName e.name = .ok ()) ∧
    (∀ (kind : IdKind) (items : List (ContainerItem kind))
      (container : Identifier kind → Container),
      (∀ e ∈ containerEntries unicode items container, checkName e.name = .ok ()) ↔
        ∀ item ∈ items,
          ¬ Intercepted unicode (items.map ContainerItem.rawName) [] item.rawName) ∧
    ∀ (location : Location) (items : List DocumentItem) (truncated : Option Truncation),
      (∀ e ∈ documentEntries texts language unicode location items truncated,
        checkName e.name = .ok ()) ↔
        ∀ r ∈ rawDocuments items,
          ¬ Intercepted unicode (rawDocuments items) (taken language truncated) r := by
  refine ⟨checkName_rootEntries texts language, ?_, ?_⟩
  · intro kind items container
    have hlisted : ∀ r ∈ items.map ContainerItem.rawName, Listed r :=
      List.forall_mem_map.mpr fun item _ ↦ listed_container item
    have hnames : _ ↔ ∀ r ∈ items.map ContainerItem.rawName, ¬ Intercepted unicode _ [] r :=
      checkName_name unicode hlisted
    rw [← names_containerEntries unicode items container, List.forall_mem_map,
      List.forall_mem_map] at hnames
    exact hnames
  · intro location items truncated
    have hlisted : ∀ r ∈ rawDocuments items, Listed r :=
      List.forall_mem_map.mpr fun item _ ↦ listed_document item
    have hnames : _ ↔ ∀ r ∈ rawDocuments items,
        ¬ Intercepted unicode _ (taken language truncated) r := checkName_name unicode hlisted
    rw [← hnames, ← List.forall_mem_map (f := Entry.name) (P := fun n ↦ checkName n = .ok ()),
      names_documentEntries, List.forall_mem_append]
    exact and_iff_left (checkName_taken language truncated)

/-- One title makes the whole folder fail. -/
theorem console_intercepted :
    ¬ (∀ e ∈ documentEntries silent .de lower (.search ⟨1⟩) [note 1 "conin$"] none,
      checkName e.name = .ok ()) ∧
    checkList lower (.search ⟨1⟩)
        (documentEntries silent .de lower (.search ⟨1⟩) [note 1 "conin$"] none) =
      .error (.invalidName "conin$.pdf" "it is a reserved device name") := by
  decide +kernel

end Listings

end FolderClient.Cfapi.Names
