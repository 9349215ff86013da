import FolderClient.App.PlaceRuns

namespace FolderClient.App.ReadBack

open FolderClient.App.Setup FolderClient.App.PlaceRuns FolderClient.Core.Listing
open FolderClient.Library.Paths FolderClient.Library.Results FolderClient.Library.Texts
open FolderClient.Net.Connection FolderClient.Storage.Basic

variable {platform : Platform} {lookup stored stored' : String → Option String} {machine : Machine}
  {s s' : Store} {entries : Option (List String)} {written : Except StoreError Unit}
  {which : Value} {text checked : String}

/-- The three values that are addresses. -/
def isAddress : Value → Bool
  | .apiBase | .authBase | .appBase => true
  | .dataPath | .staging | .mirrorPath | .holding | .deviceName | .language => false

/-- The table as it stands once a value was typed. -/
def tableAfter (s : Store) : Except SettingRefused (String × Store) → Store
  | .ok (_, s') => s'
  | .error _ => s

/-- A value that was taken in is found as it was taken in, and is taken in as it was found. -/
structure ReadsBack (platform : Platform) (lookup : String → Option String) (machine : Machine)
    (s s' : Store) (which : Value) (checked : String) (entries : Option (List String)) : Prop where
  found : (read platform lookup s'.settingOf machine).found which = some ⟨checked, .setting⟩
  again : ∀ resolution, resolution = read platform lookup s.settingOf machine ∨
    resolution = read platform lookup s'.settingOf machine →
    ∃ s'', setValue platform s' resolution which checked entries (.ok ()) = .ok (checked, s'')

/-- What is left of an address without the slashes at its end ends in whitespace. -/
def Ragged (which : Value) (text : String) : Prop :=
  isAddress which = true ∧
    ∃ c ∈ ((trim text.toList).rdropWhile (· = '/')).getLast?, isWhitespace c = true

section Alone

theorem fromTag_tag (language : Language) : Language.fromTag language.tag = some language := by
  cases language <;> decide +kernel

theorem checkAlone_address (h : isAddress which = true) :
    checkAlone platform which text = .ok checked ↔
      checked = String.ofList (text.toList.rdropWhile (· = '/')) ∧
        ∃ scheme rest, Base (text.toList.rdropWhile (· = '/')) scheme rest := by
  cases which with
  | apiBase | authBase | appBase => exact mapError_eq_ok.trans check_eq_ok
  | dataPath | staging | mirrorPath | holding | deviceName | language => cases h

/-- What is no address and no language is taken in as it is. -/
theorem checkAlone_same (h : isAddress which = false) (hl : which ≠ .language)
    (hok : checkAlone platform which text = .ok checked) : checked = text := by
  unfold checkAlone at hok
  cases which with
  | apiBase | authBase | appBase => cases h
  | language => exact absurd rfl hl
  | dataPath | staging | holding => cases hok
  | mirrorPath | deviceName =>
    dsimp only at hok
    split at hok
    all_goals cases hok
    rfl

theorem checkAlone_language (hok : checkAlone platform .language text = .ok checked) :
    ∃ language : Language, checked = language.tag := by
  unfold checkAlone at hok
  dsimp only at hok
  split at hok
  · exact ⟨_, (Except.ok.inj hok).symm⟩
  · cases hok

/-- What was accepted is accepted again, and stays what it is. -/
theorem checkAlone_again (h : checkAlone platform which text = .ok checked) :
    checkAlone platform which checked = .ok checked := by
  cases haddress : isAddress which with
  | true =>
    obtain ⟨rfl, scheme, rest, hbase⟩ := (checkAlone_address haddress).mp h
    rw [checkAlone_address haddress, String.toList_ofList, List.rdropWhile_idempotent _ _]
    exact ⟨rfl, scheme, rest, hbase⟩
  | false =>
    by_cases hl : which = .language
    · subst hl
      obtain ⟨language, rfl⟩ := checkAlone_language h
      unfold checkAlone
      dsimp only
      rw [fromTag_tag]
    · obtain rfl := checkAlone_same haddress hl h
      exact h

end Alone

section Trimming

theorem last_trim {text : List Char} : ∀ c ∈ (trim text).getLast?, isWhitespace c = false := by
  intro c hc
  have hne : trim text ≠ [] := by
    rintro hnil
    rw [hnil] at hc
    cases hc
  have hlast := List.rdropWhile_last_not isWhitespace (text.dropWhile isWhitespace) hne
  rw [Option.mem_def, List.getLast?_eq_some_getLast hne] at hc
  rw [← Option.some.inj hc]
  exact Bool.eq_false_of_not_eq_true hlast

theorem trimmed_eq_self_iff : trimmed (some text) = some text ↔
    trim text.toList = text.toList ∧ text ≠ "" := by
  rw [trimmed, Option.map_some, Option.filter_some]
  constructor
  · intro h
    split at h
    · rename_i hne
      have hsame := Option.some.inj h
      refine ⟨?_, hsame ▸ of_decide_eq_true hne⟩
      rw [← String.toList_inj, String.toList_ofList] at hsame
      exact hsame
    · cases h
  · rintro ⟨hsame, hne⟩
    rw [hsame, String.ofList_toList, if_pos (decide_eq_true hne)]

theorem ne_nil_of_base {text scheme rest : List Char} (h : Base text scheme rest) : text ≠ [] := by
  rintro rfl
  cases h.split

/-- What was accepted has no whitespace at its edges exactly if it is no ragged address. -/
theorem trimmed_iff (hne : String.ofList (trim text.toList) ≠ "")
    (h : checkAlone platform which (String.ofList (trim text.toList)) = .ok checked) :
    trimmed (some checked) = some checked ↔ ¬ Ragged which text := by
  cases haddress : isAddress which with
  | false =>
    have hragged : ¬ Ragged which text := fun hr ↦ Bool.false_ne_true (haddress.symm.trans hr.1)
    rw [iff_true_right hragged]
    by_cases hl : which = .language
    · subst hl
      obtain ⟨language, rfl⟩ := checkAlone_language h
      cases language <;> decide +kernel
    · rw [checkAlone_same haddress hl h]
      exact trimmed_of_trim hne
  | true =>
    obtain ⟨rfl, scheme, rest, hbase⟩ := (checkAlone_address haddress).mp h
    rw [String.toList_ofList] at hbase ⊢
    have hnonempty := ne_nil_of_base hbase
    rw [trimmed_eq_self_iff, String.toList_ofList]
    constructor
    · rintro ⟨hsame, -⟩ ⟨-, c, hc, hspace⟩
      rw [← hsame] at hc
      exact Bool.false_ne_true ((last_trim c hc).symm.trans hspace)
    · intro hnot
      refine ⟨trim_of_edges ?_ ?_, ?_⟩
      · intro c hc
        obtain ⟨more, hmore⟩ := List.rdropWhile_prefix (· = '/') (trim text.toList)
        refine @head_trim text.toList c ?_
        rw [← hmore, List.head?_append_of_ne_nil _ hnonempty]
        exact hc
      · exact fun c hc ↦ Bool.eq_false_of_not_eq_true fun hspace ↦ hnot ⟨haddress, c, hc, hspace⟩
      · intro hempty
        refine hnonempty ?_
        rw [← String.toList_ofList (l := (trim text.toList).rdropWhile (· = '/')), hempty]
        rfl

/-- A value of the table is found as it stands there exactly if it has no whitespace at its
edges. -/
theorem fromSetting_iff {key : String} (hkey : which.settingKey = some key)
    (hstored : stored key = some checked) (h : checkAlone platform which checked = .ok checked) :
    fromSetting platform which stored = some checked ↔ trimmed (some checked) = some checked := by
  have hunfold : fromSetting platform which stored =
      (trimmed (some checked)).bind fun text ↦ (checkAlone platform which text).toOption := by
    rw [fromSetting, hkey]
    change (trimmed (stored key)).bind _ = _
    rw [hstored]
  rw [hunfold]
  constructor
  · intro hfound
    obtain ⟨cut, hcut, hchecked⟩ := Option.bind_eq_some_iff.mp hfound
    have hcutText : cut = String.ofList (trim checked.toList) := by
      rw [trimmed, Option.map_some, Option.filter_some] at hcut
      split at hcut
      · exact (Option.some.inj hcut).symm
      · cases hcut
    have hok := ok_of_toOption hchecked
    cases haddress : isAddress which with
    | false =>
      by_cases hl : which = .language
      · subst hl
        obtain ⟨language, rfl⟩ := checkAlone_language h
        cases language <;> decide +kernel
      · exact hcut.trans (congrArg some (checkAlone_same haddress hl hok).symm)
    | true =>
      obtain ⟨heq, -⟩ := (checkAlone_address haddress).mp hok
      rw [hcut]
      refine congrArg some ?_
      have hinfix : checked.toList <:+: cut.toList := by
        nth_rewrite 1 [heq]
        rw [String.toList_ofList]
        exact (List.rdropWhile_prefix _ _).isInfix
      have hinfix' : cut.toList <:+: checked.toList := by
        rw [hcutText, String.toList_ofList]
        exact (List.rdropWhile_prefix _ _).isInfix.trans (List.dropWhile_suffix _).isInfix
      rw [← String.toList_inj]
      exact hinfix'.eq_of_length (Nat.le_antisymm hinfix'.length_le hinfix.length_le)
  · intro hsame
    rw [hsame, Option.bind_some, h]
    rfl

end Trimming

section Resolving

theorem found_of_environment {e : String} (h : fromEnvironment platform which lookup = some e) :
    (read platform lookup stored machine).found which = some ⟨e, .environment⟩ := by
  change resolveOne platform which lookup stored machine = _
  rw [resolveOne, h]

theorem found_of_setting (h : fromEnvironment platform which lookup = none)
    (hs : fromSetting platform which stored = some text) :
    (read platform lookup stored machine).found which = some ⟨text, .setting⟩ := by
  change resolveOne platform which lookup stored machine = _
  rw [resolveOne, h, hs]

theorem found_of_default (h : fromEnvironment platform which lookup = none)
    (hs : fromSetting platform which stored = none) :
    (read platform lookup stored machine).found which =
      (defaultFor platform which lookup machine).map fun text ↦ ⟨text, .default⟩ := by
  change resolveOne platform which lookup stored machine = _
  rw [resolveOne, h, hs]

theorem isFixed_iff : (read platform lookup stored machine).isFixed which = false ↔
    fromEnvironment platform which lookup = none := by
  rw [Resolution.isFixed]
  cases he : fromEnvironment platform which lookup with
  | some e =>
    rw [found_of_environment he]
    simp
  | none =>
    cases hs : fromSetting platform which stored with
    | some text =>
      rw [found_of_setting he hs]
      simp
    | none =>
      rw [found_of_default he hs]
      cases defaultFor platform which lookup machine <;> simp

/-- Only the key of a value says what is found for it. -/
theorem resolveOne_congr (h : ∀ key, which.settingKey = some key → stored key = stored' key) :
    resolveOne platform which lookup stored machine =
      resolveOne platform which lookup stored' machine := by
  have hsetting : fromSetting platform which stored = fromSetting platform which stored' := by
    rw [fromSetting, fromSetting]
    cases hkey : which.settingKey with
    | none => rfl
    | some key =>
      change (trimmed (stored key)).bind _ = (trimmed (stored' key)).bind _
      rw [h key hkey]
  rw [resolveOne, resolveOne, hsetting]

/-- A device name says nothing about the server of the device. -/
theorem counterpart_of_deviceName {key : String} (hkey : Value.deviceName.settingKey = some key)
    (h : s.setSetting key checked = .ok s') :
    (read platform lookup s'.settingOf machine).counterpart =
      (read platform lookup s.settingOf machine).counterpart := by
  have hkeep : ∀ other, other ≠ key → s'.settingOf other = s.settingOf other :=
    fun other hne ↦ (Store.settingOf_setSetting h).trans (if_neg hne)
  have hfound : ∀ which, which ≠ .deviceName → resolveOne platform which lookup s'.settingOf machine =
      resolveOne platform which lookup s.settingOf machine := by
    intro which hne
    refine resolveOne_congr fun other hother ↦ hkeep other ?_
    rintro rfl
    exact hne (settingKey_inj hother hkey)
  obtain rfl := Option.some.inj hkey
  unfold Setup.read
  dsimp only
  rw [hfound .apiBase (by decide), hfound .authBase (by decide), hfound .appBase (by decide),
    hkeep settingEnrolled (by decide), hkeep settingCounterpartApiBase (by decide),
    hkeep settingCounterpartAuthBase (by decide), hkeep settingCounterpartAppBase (by decide)]

/-- The three paths of the installation have no key in the table. -/
theorem ownPath_same (h : which ∈ ownPaths) : (read platform lookup stored' machine).text which =
    (read platform lookup stored machine).text which := by
  have hkey : which.settingKey = none := by
    revert h
    cases which <;> decide
  have hsame : resolveOne platform which lookup stored' machine =
      resolveOne platform which lookup stored machine :=
    resolveOne_congr fun key hsome ↦ absurd (hsome.symm.trans hkey) (Option.some_ne_none key)
  exact congrArg (Option.map Resolved.text) hsame

theorem checkRoot_again {resolution again : Resolution} {root : String}
    (hown : ∀ which ∈ ownPaths, again.text which = resolution.text which)
    (hroot : again.text .mirrorPath = some root)
    (h : checkRoot platform resolution entries root = .ok ()) :
    checkRoot platform again entries root = .ok () := by
  have hdata := hown .dataPath (by decide)
  have hstaging := hown .staging (by decide)
  have hholding := hown .holding (by decide)
  unfold checkRoot ownPaths at h ⊢
  simp only [List.forM_eq_forM, List.forM_cons, List.forM_nil, hdata, hstaging, hholding, hroot,
    if_true] at h ⊢
  obtain ⟨_, hpaths, -⟩ := bind_eq_ok.mp h
  exact bind_eq_ok.mpr ⟨_, hpaths, rfl⟩

/-- A root that was taken in is taken in again. -/
theorem checkPlace_again {resolution again : Resolution} {root : String}
    (hown : ∀ which ∈ ownPaths, again.text which = resolution.text which)
    (hroot : again.text .mirrorPath = some root)
    (h : checkPlace platform resolution entries root = .ok ()) :
    checkPlace platform again entries root = .ok () := by
  unfold checkPlace at h ⊢
  rw [hown .staging (by decide), hown .holding (by decide)]
  revert h
  cases resolution.text .staging with
  | none =>
    intro h
    exact checkRoot_again hown hroot h
  | some staging =>
    cases resolution.text .holding with
    | none =>
      intro h
      exact checkRoot_again hown hroot h
    | some holding =>
      intro h
      obtain ⟨_, hpaths, hrest⟩ := bind_eq_ok.mp h
      exact bind_eq_ok.mpr ⟨_, hpaths, checkRoot_again hown hroot hrest⟩

end Resolving

section Results

theorem setSetting_ok {key : String} (h : key ≠ "") (s : Store) (value : String) :
    ∃ s', s.setSetting key value = .ok s' := ⟨_, if_neg h⟩

theorem ne_empty_of_settingKey {key : String} (h : which.settingKey = some key) : key ≠ "" := by
  cases which <;> cases h <;> decide

/-- What was taken in is read back, and taken in again as it is, exactly if it is no ragged
address. -/
theorem readsBack_iff
    (h : setValue platform s (read platform lookup s.settingOf machine) which text entries written =
      .ok (checked, s')) :
    ReadsBack platform lookup machine s s' which checked entries ↔ ¬ Ragged which text := by
  obtain ⟨key, hkey, hfixed, hspent, hne, halone, hplace, -, hset⟩ := setValue_eq_ok_iff.mp h
  have henvironment := isFixed_iff.mp hfixed
  have hstored : s'.settingOf key = some checked :=
    (Store.settingOf_setSetting hset).trans (if_pos rfl)
  have hagain := checkAlone_again halone
  have hsetting := @fromSetting_iff platform s'.settingOf which checked key hkey hstored hagain
  rw [← trimmed_iff hne halone, ← hsetting]
  constructor
  · rintro ⟨hfound, -⟩
    cases hread : fromSetting platform which s'.settingOf with
    | some other =>
      rw [found_of_setting henvironment hread] at hfound
      cases hfound
      rfl
    | none =>
      rw [found_of_default henvironment hread] at hfound
      obtain ⟨_, -, hresolved⟩ := Option.map_eq_some_iff.mp hfound
      cases hresolved
  · intro hread
    have hfound := @found_of_setting platform lookup s'.settingOf machine which checked
      henvironment hread
    obtain ⟨htrim, hnonempty⟩ := trimmed_eq_self_iff.mp (hsetting.mp hread)
    obtain ⟨s'', hset'⟩ := setSetting_ok (ne_empty_of_settingKey hkey) s' checked
    have hsame : String.ofList (trim checked.toList) = checked := by
      rw [htrim, String.ofList_toList]
    refine ⟨hfound, ?_⟩
    rintro resolution (rfl | rfl)
    · refine ⟨s'', setValue_eq_ok_iff.mpr ⟨key, hkey, hfixed, hspent, ?_, ?_, hplace, rfl, hset'⟩⟩
      · exact hsame.symm ▸ hnonempty
      · exact hsame.symm ▸ hagain
    · refine ⟨s'', setValue_eq_ok_iff.mpr ⟨key, hkey, isFixed_iff.mpr henvironment, ?_, ?_, ?_, ?_,
        rfl, hset'⟩⟩
      · rintro ⟨rfl, henrolled⟩
        rw [counterpart_of_deviceName hkey hset] at henrolled
        exact hspent ⟨rfl, henrolled⟩
      · exact hsame.symm ▸ hnonempty
      · exact hsame.symm ▸ hagain
      · rintro rfl
        refine checkPlace_again (fun which hw ↦ ownPath_same hw) ?_ (hplace rfl)
        rw [Resolution.text, hfound]
        rfl

/-- What the environment fixes stays as it stands in the table, whatever is typed. -/
theorem settingOf_tableAfter {fixed : Value} {key : String} {resolution : Resolution}
    (hkey : fixed.settingKey = some key) (hfixed : resolution.isFixed fixed = true) :
    (tableAfter s (setValue platform s resolution which text entries written)).settingOf key =
      s.settingOf key := by
  cases h : setValue platform s resolution which text entries written with
  | error e => rfl
  | ok result =>
    obtain ⟨checked, s'⟩ := result
    obtain ⟨key', hkey', hnot, -, -, -, -, -, hset⟩ := setValue_eq_ok_iff.mp h
    refine (Store.settingOf_setSetting hset).trans (if_neg ?_)
    rintro rfl
    obtain rfl := settingKey_inj hkey hkey'
    exact Bool.false_ne_true (hnot.symm.trans hfixed)

/-- Every value that was taken in is read back unless it is a ragged address; what is refused
changes nothing, what the environment fixes is never overwritten, and the environment stands before
the table and the table before the default. -/
theorem settings (platform : Platform) (lookup : String → Option String) (machine : Machine)
    (s : Store) (which : Value) (text : String) (entries : Option (List String))
    (written : Except StoreError Unit) :
    (∀ checked s', setValue platform s (read platform lookup s.settingOf machine) which text entries
        written = .ok (checked, s') →
      (ReadsBack platform lookup machine s s' which checked entries ↔ ¬ Ragged which text)) ∧
    (∀ refused, setValue platform s (read platform lookup s.settingOf machine) which text entries
        written = .error refused →
      tableAfter s (setValue platform s (read platform lookup s.settingOf machine) which text
        entries written) = s) ∧
    (∀ fixed key, fixed.settingKey = some key →
      (read platform lookup s.settingOf machine).isFixed fixed = true →
      (tableAfter s (setValue platform s (read platform lookup s.settingOf machine) which text
        entries written)).settingOf key = s.settingOf key) ∧
    ∀ value,
      (∀ e, fromEnvironment platform value lookup = some e →
        (read platform lookup s.settingOf machine).found value = some ⟨e, .environment⟩) ∧
      (fromEnvironment platform value lookup = none →
        (∀ t, fromSetting platform value s.settingOf = some t →
          (read platform lookup s.settingOf machine).found value = some ⟨t, .setting⟩) ∧
        (fromSetting platform value s.settingOf = none →
          (read platform lookup s.settingOf machine).found value =
            (defaultFor platform value lookup machine).map fun t ↦ ⟨t, .default⟩)) := by
  refine ⟨fun _ _ h ↦ readsBack_iff h, fun refused h ↦ ?_, fun _ _ hkey hfixed ↦
    settingOf_tableAfter hkey hfixed, fun _ ↦ ⟨fun _ h ↦ found_of_environment h, fun h ↦
    ⟨fun _ hs ↦ found_of_setting h hs, found_of_default h⟩⟩⟩
  rw [h]
  rfl

end Results

section Samples

theorem typed_slash : ∃ s', setValue .unix (Store.setUp 0 100)
    (read .unix (fun _ ↦ none) (Store.setUp 0 100).settingOf bare) .apiBase " https://api.example/"
    none (.ok ()) = .ok ("https://api.example", s') ∧
      ReadsBack .unix (fun _ ↦ none) bare (Store.setUp 0 100) s' .apiBase "https://api.example"
        none := by
  have hok : ((setValue .unix (Store.setUp 0 100)
      (read .unix (fun _ ↦ none) (Store.setUp 0 100).settingOf bare) .apiBase
      " https://api.example/" none (.ok ())).toOption.map Prod.fst) =
        some "https://api.example" := by
    decide +kernel
  obtain ⟨⟨checked, s'⟩, hset, rfl⟩ := Option.map_eq_some_iff.mp hok
  have hset := ok_of_toOption hset
  have hplain : ¬ Ragged .apiBase " https://api.example/" := by
    rintro ⟨-, c, hc, hspace⟩
    have hlast : ((trim " https://api.example/".toList).rdropWhile (· = '/')).getLast? = some 'e' := by
      decide +kernel
    rw [hlast] at hc
    cases hc
    exact absurd hspace (by decide)
  exact ⟨s', hset, ((settings .unix (fun _ ↦ none) bare (Store.setUp 0 100) .apiBase
    " https://api.example/" none (.ok ())).1 _ _ hset).mpr hplain⟩

/-- A blank between two slashes at the end is accepted with the first slash and read without. -/
theorem read_otherwise : ¬ ∀ platform lookup machine s which text entries written checked s',
    setValue platform s (read platform lookup s.settingOf machine) which text entries written =
      .ok (checked, s') → ReadsBack platform lookup machine s s' which checked entries := by
  intro h
  have hok : ((setValue .unix (Store.setUp 0 100)
      (read .unix (fun _ ↦ none) (Store.setUp 0 100).settingOf bare) .apiBase
      "https://api.example/ /" none (.ok ())).toOption.map Prod.fst) =
        some "https://api.example/ " := by
    decide +kernel
  obtain ⟨⟨checked, s'⟩, hset, rfl⟩ := Option.map_eq_some_iff.mp hok
  have hset := ok_of_toOption hset
  refine (readsBack_iff hset).mp (h _ _ _ _ _ _ _ _ _ _ hset) ⟨rfl, ' ', ?_, by decide⟩
  decide +kernel

end Samples

end FolderClient.App.ReadBack
