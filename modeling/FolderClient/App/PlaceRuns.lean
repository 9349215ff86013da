import FolderClient.App.Setup
import FolderClient.Cfapi.Clear
import FolderClient.Library.Results

namespace FolderClient.App.PlaceRuns

open FolderClient.App.Setup FolderClient.Cfapi.Clear FolderClient.Library.Oracles
open FolderClient.Library.Paths FolderClient.Library.Texts
open FolderClient.Library.Results FolderClient.Storage.Basic

variable {platform : Platform} {lookup stored : String → Option String} {machine : Machine}
  {s s' : Store} {entries : Option (List String)} {written : Except StoreError Unit}
  {resolution : Resolution} {root inner text : String}

/-- The three paths of the installation as they stood when the root of the mirror in the setting
table was taken in; nothing where nobody knows how it came there. -/
abbrev Asked := Option (Value → Option String)

/-- The setting tables a workstation can have: any at the beginning, then what is typed under any
environments, and what the client notes under other keys. -/
inductive Reached (platform : Platform) : Store → Asked → Prop
  | start (s : Store) : Reached platform s none
  | typed {s s' : Store} {asked : Asked} {lookup shown : String → Option String}
      {machine : Machine} {which : Value} {text checked : String} {entries : Option (List String)}
      {written : Except StoreError Unit} : Reached platform s asked →
      setValue platform s (read platform lookup shown machine) which text entries written =
        .ok (checked, s') →
      Reached platform s'
        (if which = .mirrorPath then some (read platform lookup shown machine).text else asked)
  | noted {s s' : Store} {asked : Asked} : Reached platform s asked →
      (∀ key, Value.mirrorPath.settingKey = some key → s'.settingOf key = s.settingOf key) →
      Reached platform s' asked

theorem trimmed_of_trim {text : String} (h : String.ofList (trim text.toList) ≠ "") :
    trimmed (some (String.ofList (trim text.toList))) =
      some (String.ofList (trim text.toList)) := by
  rw [trimmed, Option.map_some, String.toList_ofList, trim_trim]
  exact Option.filter_some_pos (decide_eq_true h)

theorem checkAlone_mirrorPath {checked : String}
    (h : checkAlone platform .mirrorPath text = .ok checked) : checked = text := by
  unfold checkAlone at h
  dsimp only at h
  split at h
  · exact (Except.ok.inj h).symm
  · cases h

theorem holds_of_checkRoot (h : checkRoot platform resolution entries root = .ok ())
    {which : Value} (hw : which ∈ ownPaths) (hi : resolution.text which = some inner) :
    holds platform root inner = false := by
  obtain ⟨_, hown, -⟩ := bind_eq_ok.mp h
  generalize ownPaths = values at hown hw
  induction values with
  | nil => exact absurd hw List.not_mem_nil
  | cons value values ih =>
    obtain ⟨_, hvalue, hrest⟩ := bind_eq_ok.mp hown
    rcases List.mem_cons.mp hw with rfl | hmem
    · dsimp only at hvalue
      rw [hi] at hvalue
      dsimp only at hvalue
      split at hvalue
      · cases hvalue
      next hnot => exact Bool.eq_false_of_not_eq_true hnot
    · exact ih hrest hmem

theorem holds_of_checkPlace (h : checkPlace platform resolution entries root = .ok ())
    {which : Value} (hw : which ∈ ownPaths) (hi : resolution.text which = some inner) :
    holds platform root inner = false := by
  unfold checkPlace at h
  split at h
  · obtain ⟨_, -, hroot⟩ := bind_eq_ok.mp h
    exact holds_of_checkRoot hroot hw hi
  · exact holds_of_checkRoot h hw hi

theorem settingKey_inj {a b : Value} {key : String} (ha : a.settingKey = some key)
    (hb : b.settingKey = some key) : a = b := by
  revert ha hb
  cases a <;> cases b <;> simp [Value.settingKey] <;> rintro rfl <;> decide

/-- A value is taken in exactly if the page may set it and it holds on its own and, as the root of
the mirror, beside the other paths. -/
theorem setValue_eq_ok_iff {which : Value} {checked : String} :
    setValue platform s resolution which text entries written = .ok (checked, s') ↔
      ∃ key, which.settingKey = some key ∧ resolution.isFixed which = false ∧
        ¬ (which = .deviceName ∧ (resolution.counterpart matches .enrolled _) = true) ∧
        String.ofList (trim text.toList) ≠ "" ∧
        checkAlone platform which (String.ofList (trim text.toList)) = .ok checked ∧
        (which = .mirrorPath → checkPlace platform resolution entries checked = .ok ()) ∧
        written = .ok () ∧ s.setSetting key checked = .ok s' := by
  unfold setValue
  cases hkey : which.settingKey with
  | none =>
    dsimp only
    constructor
    · exact nofun
    · rintro ⟨key, hsome, -⟩
      cases hsome
  | some key =>
    dsimp only
    have hstored : ∀ (found : String) (rest : Except SettingRefused Unit),
        (rest >>= fun _ ↦ written.mapError .store >>= fun _ ↦
          (s.setSetting key found).mapError .store >>= fun store ↦ pure (found, store)) =
            .ok (checked, s') ↔
        rest = .ok () ∧ found = checked ∧ written = .ok () ∧ s.setSetting key found = .ok s' := by
      intro found rest
      simp only [bind_eq_ok, mapError_eq_ok]
      constructor
      · rintro ⟨_, hrest, _, hwritten, store, hset, hpair⟩
        obtain ⟨rfl, rfl⟩ := Prod.mk.inj (Except.ok.inj hpair)
        exact ⟨hrest, rfl, hwritten, hset⟩
      · rintro ⟨hrest, rfl, hwritten, hset⟩
        exact ⟨(), hrest, (), hwritten, s', hset, rfl⟩
    rw [ite_throw_eq_ok, ite_throw_eq_ok, ite_throw_eq_ok, bind_eq_ok, Bool.not_eq_true]
    have hplace : ∀ found, ((if which = .mirrorPath then
        checkPlace platform resolution entries found >>= fun _ ↦ written.mapError .store >>= fun _ ↦
          (s.setSetting key found).mapError .store >>= fun store ↦ pure (found, store)
        else written.mapError .store >>= fun _ ↦
          (s.setSetting key found).mapError .store >>= fun store ↦ pure (found, store)) =
            .ok (checked, s')) ↔
        (which = .mirrorPath → checkPlace platform resolution entries found = .ok ()) ∧
          found = checked ∧ written = .ok () ∧ s.setSetting key found = .ok s' := by
      intro found
      by_cases hw : which = .mirrorPath
      · rw [if_pos hw, hstored, forall_prop_of_true hw]
      · rw [if_neg hw]
        refine (hstored found (.ok ())).trans (and_congr_left' ?_)
        exact ⟨fun _ heq ↦ absurd heq hw, fun _ ↦ rfl⟩
    constructor
    · rintro ⟨hfixed, hspent, hne, found, halone, hrest⟩
      obtain ⟨hroot, rfl, hwritten, hset⟩ := (hplace found).mp hrest
      exact ⟨key, rfl, hfixed, hspent, hne, halone, hroot, hwritten, hset⟩
    · rintro ⟨_, hsame, hfixed, hspent, hne, halone, hroot, hwritten, hset⟩
      cases hsame
      have hrest := (hplace checked).mpr ⟨hroot, rfl, hwritten, hset⟩
      exact ⟨hfixed, hspent, hne, checked, halone, hrest⟩

/-- What stands in the table once a value has been taken in. -/
theorem setValue_eq_ok {which : Value} {checked : String}
    (h : setValue platform s resolution which text entries written = .ok (checked, s')) :
    ∃ key, which.settingKey = some key ∧
      checkAlone platform which (String.ofList (trim text.toList)) = .ok checked ∧
      String.ofList (trim text.toList) ≠ "" ∧
      (which = .mirrorPath → checkPlace platform resolution entries checked = .ok ()) ∧
      s.setSetting key checked = .ok s' := by
  obtain ⟨key, hkey, -, -, hne, halone, hplace, -, hset⟩ := setValue_eq_ok_iff.mp h
  exact ⟨key, hkey, halone, hne, hplace, hset⟩

/-- What the table of a reached store says about the root: if it is known how it was taken in, it
holds none of the three paths that stood then. -/
def Accepted (platform : Platform) (s : Store) (asked : Asked) : Prop :=
  ∀ texts, asked = some texts → ∃ key root, Value.mirrorPath.settingKey = some key ∧
    s.settingOf key = some root ∧ trimmed (some root) = some root ∧
    ∀ which ∈ ownPaths, ∀ inner, texts which = some inner → holds platform root inner = false

theorem accepted_of_reached {asked : Asked} (h : Reached platform s asked) :
    Accepted platform s asked := by
  induction h with
  | start s => exact fun _ hn ↦ by cases hn
  | noted _ hkept ih =>
    intro texts hasked
    obtain ⟨key, root, hkey, hroot, hrest⟩ := ih texts hasked
    exact ⟨key, root, hkey, (hkept key hkey).trans hroot, hrest⟩
  | @typed s s' asked lookup shown machine which text checked entries written _ hset ih =>
    obtain ⟨key, hkey, halone, hne, hplace, hstored⟩ := setValue_eq_ok hset
    by_cases hw : which = .mirrorPath
    · subst hw
      rw [if_pos rfl]
      intro texts hasked
      obtain rfl := Option.some.inj hasked
      have hchecked := checkAlone_mirrorPath halone
      refine ⟨key, checked, hkey, (Store.settingOf_setSetting hstored).trans (if_pos rfl), ?_, ?_⟩
      · rw [hchecked]
        exact trimmed_of_trim hne
      · exact fun which hmem inner hinner ↦ holds_of_checkPlace (hplace rfl) hmem hinner
    · rw [if_neg hw]
      intro texts hasked
      obtain ⟨key', root, hkey', hroot, hrest⟩ := ih texts hasked
      have hother : key' ≠ key := by
        rintro rfl
        exact hw (settingKey_inj hkey hkey')
      exact ⟨key', root, hkey', ((Store.settingOf_setSetting hstored).trans (if_neg hother)).trans
        hroot, hrest⟩

/-- The root stands at one of the three paths or above it. -/
def Above (platform : Platform) (configuration : EngineConfiguration) : Prop :=
  ∃ inner ∈ [configuration.dataPath, configuration.staging, configuration.holding],
    holds platform configuration.mirrorPath inner = true

/-- One of the three paths has not been compared with the root: the root does not come from the
setting table, or the path has changed since the root was taken in. -/
def Unchecked (asked : Asked) (resolution : Resolution) (which : Value) : Prop :=
  (resolution.found .mirrorPath).map Resolved.origin ≠ some .setting ∨
    ∀ texts, asked = some texts → texts which ≠ resolution.text which

/-- Every path that has not been compared with the root lies outside it. -/
def UncheckedOutside (platform : Platform) (asked : Asked) (resolution : Resolution) : Prop :=
  ∀ which ∈ ownPaths, Unchecked asked resolution which → ∀ root inner,
    resolution.text .mirrorPath = some root → resolution.text which = some inner →
      holds platform root inner = false

theorem text_of_required {which : Value} (h : resolution.required which = .ok text) :
    resolution.text which = some text := by
  unfold Resolution.required at h
  split at h
  · cases h
  next found hfound =>
    split at h
    · cases h
    · rw [Resolution.text, hfound]
      exact congrArg some (Except.ok.inj h)

/-- The paths of a finished configuration are those of the resolution. -/
theorem texts_of_configuration {configuration : EngineConfiguration}
    (h : resolution.configuration platform = .ok configuration) :
    resolution.text .dataPath = some configuration.dataPath ∧
      resolution.text .staging = some configuration.staging ∧
      resolution.text .mirrorPath = some configuration.mirrorPath ∧
      resolution.text .holding = some configuration.holding := by
  unfold Resolution.configuration at h
  obtain ⟨api, -, h⟩ := bind_eq_ok.mp h
  obtain ⟨auth, -, h⟩ := bind_eq_ok.mp h
  obtain ⟨app, -, h⟩ := bind_eq_ok.mp h
  obtain ⟨data, hdata, h⟩ := bind_eq_ok.mp h
  obtain ⟨staging, hstaging, h⟩ := bind_eq_ok.mp h
  obtain ⟨mirror, hmirror, h⟩ := bind_eq_ok.mp h
  obtain ⟨holding, hholding, h⟩ := bind_eq_ok.mp h
  obtain ⟨device, -, h⟩ := bind_eq_ok.mp h
  obtain ⟨_, -, h⟩ := bind_eq_ok.mp h
  obtain rfl := Except.ok.inj h
  exact ⟨text_of_required hdata, text_of_required hstaging, text_of_required hmirror,
    text_of_required hholding⟩

theorem setting_of_origin {found : Resolved}
    (h : resolveOne platform .mirrorPath lookup stored machine = some found)
    (ho : found.origin = .setting) {key : String}
    (hkey : Value.mirrorPath.settingKey = some key) : trimmed (stored key) = some found.text := by
  unfold resolveOne at h
  split at h
  · cases h
    cases ho
  · split at h
    next text hsetting =>
      cases h
      unfold fromSetting at hsetting
      rw [hkey] at hsetting
      obtain ⟨text', htrimmed, halone⟩ : ∃ text', trimmed (stored key) = some text' ∧
          (checkAlone platform .mirrorPath text').toOption = some text :=
        Option.bind_eq_some_iff.mp hsetting
      rw [htrimmed]
      exact congrArg some (checkAlone_mirrorPath (ok_of_toOption halone)).symm
    · obtain ⟨text, -, rfl⟩ := Option.map_eq_some_iff.mp h
      cases ho

/-- A path that the root was compared with when it was taken in lies outside it. -/
theorem outside_of_checked {asked : Asked} (h : Reached platform s asked)
    (hstored : ∀ key, stored key = none ∨ stored key = s.settingOf key) {which : Value}
    (hw : which ∈ ownPaths)
    (hchecked : ¬ Unchecked asked (read platform lookup stored machine) which)
    (hroot : (read platform lookup stored machine).text .mirrorPath = some root)
    (hinner : (read platform lookup stored machine).text which = some inner) :
    holds platform root inner = false := by
  obtain ⟨horigin, hsame⟩ := not_or.mp hchecked
  obtain ⟨found, hfound, ho⟩ := Option.map_eq_some_iff.mp (not_not.mp horigin)
  obtain ⟨texts, hasked, hsame⟩ : ∃ texts, asked = some texts ∧
      texts which = (read platform lookup stored machine).text which := by
    by_contra hno
    refine hsame fun texts ha heq ↦ hno ⟨texts, ha, heq⟩
  obtain ⟨key, root', hkey, hsetting, htrimmed, houtside⟩ := accepted_of_reached h texts hasked
  have hread := setting_of_origin hfound ho hkey
  have htext : found.text = root := by
    rw [Resolution.text, hfound] at hroot
    exact Option.some.inj hroot
  have hroot' : root' = root := by
    obtain hnone | hsome := hstored key
    · rw [hnone] at hread
      cases hread
    · rw [hsome, hsetting, htrimmed, htext] at hread
      exact Option.some.inj hread
  exact hroot' ▸ houtside which hw inner (hsame.trans hinner)

theorem above_iff {asked : Asked} {configuration : EngineConfiguration}
    (hreached : Reached platform s asked)
    (hstored : ∀ key, stored key = none ∨ stored key = s.settingOf key)
    (hconfiguration : (read platform lookup stored machine).configuration platform =
      .ok configuration) :
    ¬ Above platform configuration ↔
      UncheckedOutside platform asked (read platform lookup stored machine) := by
  obtain ⟨hdata, hstaging, hmirror, hholding⟩ := texts_of_configuration hconfiguration
  constructor
  · intro hnot which hw _ root inner hroot hinner
    obtain rfl := Option.some.inj (hmirror.symm.trans hroot)
    refine Bool.eq_false_of_not_eq_true fun hholds ↦ hnot ⟨inner, ?_, hholds⟩
    unfold ownPaths at hw
    rcases List.mem_cons.mp hw with rfl | hw
    · rw [Option.some.inj (hdata.symm.trans hinner)]
      exact List.mem_cons_self
    rcases List.mem_cons.mp hw with rfl | hw
    · rw [Option.some.inj (hstaging.symm.trans hinner)]
      exact List.mem_cons_of_mem _ List.mem_cons_self
    · obtain rfl := List.mem_singleton.mp hw
      rw [Option.some.inj (hholding.symm.trans hinner)]
      exact List.mem_cons_of_mem _ (List.mem_cons_of_mem _ List.mem_cons_self)
  · rintro houtside ⟨inner, hinner, hholds⟩
    have hfree : ∀ which ∈ ownPaths,
        (read platform lookup stored machine).text which = some inner →
          holds platform configuration.mirrorPath inner = false := by
      intro which hw htext
      by_cases hunchecked : Unchecked asked (read platform lookup stored machine) which
      · exact houtside which hw hunchecked _ _ hmirror htext
      · exact outside_of_checked hreached hstored hw hunchecked hmirror htext
    have hone : ∃ which ∈ ownPaths,
        (read platform lookup stored machine).text which = some inner := by
      rcases List.mem_cons.mp hinner with rfl | hinner
      · exact ⟨.dataPath, by decide, hdata⟩
      rcases List.mem_cons.mp hinner with rfl | hinner
      · exact ⟨.staging, by decide, hstaging⟩
      · obtain rfl := List.mem_singleton.mp hinner
        exact ⟨.holding, by decide, hholding⟩
    obtain ⟨which, hw, htext⟩ := hone
    exact Bool.false_ne_true ((hfree which hw htext).symm.trans hholds)

/-- Where the root of the mirror can stand, and what a sign-out does to what stands below it. -/
theorem place_of_run (platform : Platform) (s : Store) (asked : Asked)
    (lookup stored : String → Option String) (machine : Machine)
    (configuration : EngineConfiguration) (hreached : Reached platform s asked)
    (hstored : ∀ key, stored key = none ∨ stored key = s.settingOf key)
    (hconfiguration : (read platform lookup stored machine).configuration platform =
      .ok configuration) :
    (¬ Above platform configuration ↔
      UncheckedOutside platform asked (read platform lookup stored machine)) ∧
    ∀ (ε : Type) (o : Oracle ClearRequest (ClearAnswer ε)) (children : List Child),
      (∀ n, o n .readDirectory = .ok children) → ∀ child ∈ children,
        Requests o 0 clearEverything (.delete child.name child.folder) :=
  ⟨above_iff hreached hstored hconfiguration,
    fun _ _ _ hread _ hmem ↦ requests_clearEverything hread hmem 0⟩

section Samples

/-- An environment that sets everything, the root of the mirror above the local state. -/
def managed (variableName : String) : Option String :=
  [("EDMS_API_BASE", "https://api.example"), ("EDMS_AUTH_BASE", "https://auth.example"),
    ("EDMS_APP_BASE", "https://app.example"), ("EDMS_DEVICE_NAME", "Buchhaltung EG"),
    ("EDMS_DATA_PATH", "C:\\edms\\data\\state.sqlite"),
    ("EDMS_STAGING_DIR", "C:\\edms\\staging"), ("EDMS_HOLDING_DIR", "C:\\edms\\holding"),
    ("EDMS_MIRROR_PATH", "C:\\edms")].lookup variableName

def bare : Machine := ⟨none, none, none, .de⟩

def managedConfiguration : EngineConfiguration where
  apiBase := "https://api.example"
  authBase := "https://auth.example"
  appBase := "https://app.example"
  dataPath := "C:\\edms\\data\\state.sqlite"
  staging := "C:\\edms\\staging"
  mirrorPath := "C:\\edms"
  holding := "C:\\edms\\holding"
  deviceName := "Buchhaltung EG"
  enrollmentCode := none
  language := .de

theorem configuration_managed :
    (read .windows managed (fun _ ↦ none) bare).configuration .windows =
      .ok managedConfiguration := by
  decide +kernel

theorem managed_above : ¬ ∀ platform s asked lookup stored machine configuration,
    Reached platform s asked → (∀ key, stored key = none ∨ stored key = s.settingOf key) →
    (read platform lookup stored machine).configuration platform = .ok configuration →
      ¬ Above platform configuration := by
  intro h
  refine h .windows (Store.setUp 0 100) none managed (fun _ ↦ none) bare managedConfiguration
    (.start _) (fun _ ↦ .inl rfl) configuration_managed ⟨_, List.mem_cons_self, ?_⟩
  decide +kernel

/-- An environment that leaves the root of the mirror to the user. -/
def unmanaged (variableName : String) : Option String :=
  if variableName = "EDMS_MIRROR_PATH" then none else managed variableName

/-- The setting table once the user has typed a root that lies beside the local state. -/
def typedSetting (key : String) : Option String :=
  if key = "setup.mirror-path" then some "C:\\mirror" else none

theorem typed_beside : ∃ s,
    setValue .windows (Store.setUp 0 100) (read .windows unmanaged (fun _ ↦ none) bare) .mirrorPath
      " C:\\mirror " none (.ok ()) = .ok ("C:\\mirror", s) ∧ s.settingOf = typedSetting := by
  have hok : ((setValue .windows (Store.setUp 0 100)
      (read .windows unmanaged (fun _ ↦ none) bare) .mirrorPath " C:\\mirror " none
      (.ok ())).toOption.map Prod.fst) = some "C:\\mirror" := by
    decide +kernel
  obtain ⟨⟨checked, s⟩, hset, rfl⟩ := Option.map_eq_some_iff.mp hok
  have hset := ok_of_toOption hset
  refine ⟨s, hset, ?_⟩
  obtain ⟨key, hkey, -, -, -, hstored⟩ := setValue_eq_ok hset
  obtain rfl := Option.some.inj hkey
  funext key
  exact Store.settingOf_setSetting hstored

def typedConfiguration : EngineConfiguration :=
  { managedConfiguration with mirrorPath := "C:\\mirror" }

theorem typed_not_above : ¬ Above .windows typedConfiguration := by
  obtain ⟨s, hset, hsetting⟩ := typed_beside
  refine (place_of_run .windows s (some (read .windows unmanaged (fun _ ↦ none) bare).text) unmanaged
    typedSetting bare typedConfiguration (.typed (.start _) hset)
    (fun key ↦ .inr (congrFun hsetting key).symm) (by decide +kernel)).1.mpr ?_
  rintro which hw (horigin | hchanged)
  · exact absurd (by decide +kernel) horigin
  · have hsame : ∀ which ∈ ownPaths, (read .windows unmanaged (fun _ ↦ none) bare).text which =
        (read .windows unmanaged typedSetting bare).text which := by
      decide +kernel
    exact absurd (hsame which hw) (hchanged _ rfl)

end Samples

end FolderClient.App.PlaceRuns
