import FolderClient.App.Counterparts
import FolderClient.Engine.SignOut

namespace FolderClient.App.StartRuns

open FolderClient.App.Counterparts FolderClient.App.Setup FolderClient.Engine.Port
  FolderClient.Engine.SignOut FolderClient.Library.Programs FolderClient.Library.Programs.Contract
  FolderClient.Library.Results FolderClient.Library.Texts FolderClient.Storage.Basic

/-- What a device keeps of its server. -/
inductive Carrier
  | refreshToken
  | keySet
  | cursor
  | outbox
  | tree
deriving DecidableEq

/-- The local state and the vault, with the servers from which what is kept has come, and the server
that the running engine was built against. -/
structure Device where
  store : Store
  slots : Slot → Option (List UInt8)
  came : Carrier → List Addresses
  engine : Option Addresses

namespace Device

def stands (d : Device) : Carrier → Bool
  | .refreshToken => (d.slots .refreshToken).isSome
  | .keySet => (d.store.settingOf SettingKey.keySet.text).isSome
  | .cursor => (d.store.settingOf settingCursor).isSome
  | .outbox => !d.store.delivery.rows.isEmpty
  | .tree => !d.store.entry.rows.isEmpty || !d.store.containerState.rows.isEmpty

/-- What no longer stands has come from nowhere. -/
def noted (d : Device) : Device :=
  { d with came := fun c ↦ if d.stands c then d.came c else [] }

def enrolled (d : Device) : Bool := d.store.settingOf settingEnrolled = some yes

/-- The server that the device remembers. -/
def remembered (d : Device) : Option Addresses :=
  addresses (d.store.settingOf settingCounterpartApiBase)
    (d.store.settingOf settingCounterpartAuthBase) (d.store.settingOf settingCounterpartAppBase)

def ended (d : Device) : Device := { d with engine := none }

/-- Something of a server is kept. -/
def Carries (d : Device) (c : Carrier) (server : Addresses) : Prop :=
  d.stands c = true ∧ server ∈ d.came c

end Device

/-- Why the client does not start. -/
inductive StartupAbort
  | directory (path reason : String)
  | store (error : StoreError)
  | counterpart (stored now reason : String)
  | engine (text : String)
deriving DecidableEq

/-- What a start asks for: the settings, the local state, an engine and its sign-out. -/
inductive StartRequest
  | setting (key : String)
  | setSetting (key value : String)
  | deleteSetting (key : String)
  | openState
  | build (addresses : Addresses)
  | connect
  | signingOut (request : SessionRequest)
  | stop

abbrev StartAnswer : StartRequest → Type
  | .setting _ => Except StoreError (Option String)
  | .setSetting _ _ | .deleteSetting _ => Except StoreError Unit
  | .openState | .build _ => Except StartupAbort Unit
  | .connect => Bool
  | .signingOut request => SessionAnswer request
  | .stop => Unit

abbrev StartFallible (α : Type) := ExceptT StartupAbort (Program StartRequest StartAnswer) α

section Start

variable (describe : StartupAbort → String) (setting : Setting)

/-- A call of the store. -/
def stored {α : Type} (p : Program StartRequest StartAnswer (Except StoreError α)) :
    StartFallible α :=
  ExceptT.mk (p >>= fun r ↦ pure (r.mapError .store))

def openState : StartFallible Unit := ExceptT.mk (Program.call StartRequest.openState)

def readSetting (key : String) : StartFallible (Option String) :=
  stored (Program.call (StartRequest.setting key))

def writeSetting (key value : String) : StartFallible Unit :=
  stored (Program.call (StartRequest.setSetting key value))

def dropSetting (key : String) : StartFallible Unit :=
  stored (Program.call (StartRequest.deleteSetting key))

def counterpart (configuration : EngineConfiguration) : StartFallible Counterpart := do
  let enrolled ← readSetting settingEnrolled
  let apiBase ← readSetting settingCounterpartApiBase
  let authBase ← readSetting settingCounterpartAuthBase
  let appBase ← readSetting settingCounterpartAppBase
  return Setup.compare (enrolled = some yes) (addresses apiBase authBase appBase)
    (some (addressesOf configuration))

def remember (configuration : EngineConfiguration) : StartFallible Unit := do
  writeSetting settingCounterpartApiBase configuration.apiBase
  writeSetting settingCounterpartAuthBase configuration.authBase
  writeSetting settingCounterpartAppBase configuration.appBase

def noteCounterpartChanged (old : Addresses) : StartFallible Unit := do
  writeSetting settingCounterpartChanged old.apiBase
  dropSetting settingCompleted

/-- The engine against the old server; why it cannot be built is told as the reason. -/
def buildOld (configuration : EngineConfiguration) (old : Addresses) : StartFallible Unit :=
  ExceptT.mk (Program.call (StartRequest.build old) >>= fun r ↦ pure (r.mapError fun error ↦
    .counterpart old.apiBase configuration.apiBase (describe error)))

/-- Signs the device out of the server it enrolled against, whatever comes of that, and forgets the
enrolment and the key set. -/
def startAfresh (configuration : EngineConfiguration) (old : Addresses) : StartFallible Unit := do
  buildOld describe configuration old
  let _ ← (Program.call StartRequest.connect : Program StartRequest StartAnswer Bool)
  let _ ← ((Engine.Session.signOut setting).run.embed StartRequest.signingOut :
    Program StartRequest StartAnswer (Except EngineError Unit))
  (Program.call StartRequest.stop : Program StartRequest StartAnswer Unit)
  openState
  dropSetting settingEnrolled
  dropSetting SettingKey.keySet.text

def settle (configuration : EngineConfiguration) : Counterpart → StartFallible Unit
  | .changed old => do
    startAfresh describe setting configuration old
    openState
    noteCounterpartChanged old
  | _ => return

/-- A start up to the point at which its engine runs. -/
def start (configuration : EngineConfiguration) : StartFallible Unit := do
  openState
  settle describe setting configuration (← counterpart configuration)
  remember configuration
  openState
  ExceptT.mk (Program.call (StartRequest.build (addressesOf configuration)))

end Start

section Runs

/-- How the store and the vault meet the requests of a sign-out; the others touch neither. -/
def clearing : (r : SessionRequest) → Device → SessionAnswer r → Device → Prop
  | .clearBegins, d, _, d' =>
    ∃ log number, d' = { d with store := { d.store with log := log, lastLog := number } }
  | .emptyNamespace, d, a, d' =>
    (a = .ok () ∧ ∃ n s, d.store.emptyNamespace = .ok (n, s) ∧
      d' = Device.noted { d with store := s }) ∨ ((∃ e, a = .error e) ∧ d' = d)
  | .setSession session _, d, a, d' =>
    (a = .ok () ∧ d' = { d with store := d.store.setSession session }) ∨
      ((∃ e, a = .error e) ∧ d' = d)
  | .forgetSession, d, a, d' =>
    ∃ slots, (∀ slot, slots slot = d.slots slot ∨ (slot ∈ sessionSlots ∧ slots slot = none)) ∧
      (a = .ok () → ∀ slot ∈ sessionSlots, slots slot = none) ∧
        d' = Device.noted { d with slots := slots }
  | _, d, _, d' => d' = d

/-- How the requests of a start are met; what fails leaves everything as it was. -/
def serve : (r : StartRequest) → Device → StartAnswer r → Device → Prop
  | .setting key, d, a, d' => (a = .ok (d.store.settingOf key) ∨ ∃ e, a = .error e) ∧ d' = d
  | .setSetting key value, d, a, d' =>
    (a = .ok () ∧ ∃ s, d.store.setSetting key value = .ok s ∧ d' = { d with store := s }) ∨
      ((∃ e, a = .error e) ∧ d' = d)
  | .deleteSetting key, d, a, d' =>
    (a = .ok () ∧ d' = Device.noted { d with store := (d.store.deleteSetting key).2 }) ∨
      ((∃ e, a = .error e) ∧ d' = d)
  | .openState, d, _, d' | .connect, d, _, d' => d' = d
  | .build addresses, d, a, d' =>
    (a = .ok () ∧ d' = { d with engine := some addresses }) ∨ ((∃ e, a = .error e) ∧ d' = d)
  | .signingOut request, d, a, d' => clearing request d a d'
  | .stop, d, _, d' => d' = d.ended

/-- The settings by which the next start judges. -/
def sealKeys : List String :=
  [settingEnrolled, settingCounterpartApiBase, settingCounterpartAuthBase,
    settingCounterpartAppBase]

/-- What an engine does to a carrier: once the device is enrolled or a refresh token stands, in any
way; the key set comes with the enrolment. -/
structure Changed (server : Addresses) (c : Carrier) (d d' : Device) : Prop where
  may : c = .keySet ∨ d.enrolled = true ∨ d.stands .refreshToken = true
  others : ∀ k, k ≠ c → d'.stands k = d.stands k ∧ d'.came k = d.came k
  came : d'.came c = if d'.stands c then server :: d.noted.came c else []
  settings : ∀ key ∈ sealKeys, d'.store.settingOf key = d.store.settingOf key
  engine : d'.engine = d.engine

/-- One write of an engine. -/
inductive Wrote (server : Addresses) : Device → Device → Prop
  | carrier {d d' : Device} {c : Carrier} : Changed server c d d' → Wrote server d d'
  | enrolled {d : Device} {s : Store} : d.store.setSetting settingEnrolled yes = .ok s →
      Wrote server d { d with store := s }

/-- What the running engine does meanwhile. -/
def meanwhile (d d' : Device) : Prop :=
  match d.engine with
  | none => d' = d
  | some server => Relation.ReflTransGen (Wrote server) d d'

/-- The device as a start meets it: any request may fail. -/
def device : Contract StartRequest StartAnswer Device where
  serve := serve
  rely := meanwhile
  ok _ _ := True

/-- The enrolment is forgotten only where nothing but a key set is kept. -/
def Careful : (r : StartRequest) → StartAnswer r → Device → Prop
  | .deleteSetting key, .ok _, d => key = settingEnrolled → ∀ c, c ≠ .keySet → d.stands c = false
  | _, _, _ => True

def careful : Contract StartRequest StartAnswer Device where
  serve r d a d' := serve r d a d' ∧ Careful r a d
  rely := meanwhile
  ok _ _ := True

/-- No key set is left without the mark of the enrolment. -/
def Marked (d : Device) : Prop := d.stands .keySet = true → d.enrolled = true

/-- The addresses of a configuration, as every channel checks them. -/
def LetThroughAll (configuration : EngineConfiguration) : Prop :=
  LetThrough configuration.apiBase ∧ LetThrough configuration.authBase ∧
    LetThrough configuration.appBase

variable (describe : StartupAbort → String) (setting : Setting)

/-- Two servers are the same, without regard to the whitespace at the edges of their addresses. -/
def Same (a b : Addresses) : Prop := sameServer (cutAll a) (cutAll b) = true

/-- While an engine runs, nothing is kept that comes from another server; otherwise the next start
finds the server changed, or nothing is kept that comes from another one. -/
structure Apart (d : Device) : Prop where
  running : ∀ server, d.engine = some server → ∀ c old, d.Carries c old → Same old server
  next : d.engine = none → ∀ configuration, LetThroughAll configuration →
    (∃ old, counterpartOf d.store.settingOf configuration = .changed old) ∨
      ∀ c old, d.Carries c old → Same old (addressesOf configuration)

end Runs

section Servers

variable {a b c : Addresses} {x y : String}

theorem cut_cut (x : String) : cut (cut x) = cut x := by
  rw [cut, cut, String.toList_ofList, trim_trim]

theorem asciiLower_splitAddress (text : List Char) : asciiLower text =
    (splitAddress text).1 ++ asciiLower (splitAddress text).2 := by
  unfold splitAddress asciiLower
  dsimp only
  rw [← List.map_append, List.take_append_drop]

/-- An address that is the same as one without whitespace at its edges has none there either. -/
theorem cut_of_same (h : sameAddress (cut x) y = true) : cut y = y := by
  have hlower : asciiLower (trim x.toList) = asciiLower y.toList := by
    rw [asciiLower_splitAddress, asciiLower_splitAddress y.toList, ← of_decide_eq_true h, cut,
      String.toList_ofList]
  have htrim : asciiLower (trim y.toList) = asciiLower y.toList := by
    rw [← trim_asciiLower, ← hlower, trim_asciiLower, trim_trim]
  have hlength : (trim y.toList).length = y.toList.length := by
    have hmap := congrArg List.length htrim
    rwa [asciiLower, asciiLower, List.length_map, List.length_map] at hmap
  have hpart : trim y.toList <:+: y.toList :=
    (List.rdropWhile_prefix _ _).isInfix.trans (List.dropWhile_suffix _).isInfix
  rw [cut, hpart.eq_of_length hlength, String.ofList_toList]

theorem sameAddress_symm (h : sameAddress x y = true) : sameAddress y x = true :=
  decide_eq_true (of_decide_eq_true h).symm

theorem sameAddress_trans {z : String} (h : sameAddress x y = true) (h' : sameAddress y z = true) :
    sameAddress x z = true :=
  decide_eq_true ((of_decide_eq_true h).trans (of_decide_eq_true h'))

theorem sameAddress_refl (x : String) : sameAddress x x = true := decide_eq_true rfl

theorem Same.refl (a : Addresses) : Same a a :=
  sameServer_iff.mpr ⟨sameAddress_refl _, sameAddress_refl _, sameAddress_refl _⟩

theorem Same.trans (h : Same a b) (h' : Same b c) : Same a c := by
  obtain ⟨hapi, hauth, happ⟩ := sameServer_iff.mp h
  obtain ⟨hapi', hauth', happ'⟩ := sameServer_iff.mp h'
  exact sameServer_iff.mpr
    ⟨sameAddress_trans hapi hapi', sameAddress_trans hauth hauth', sameAddress_trans happ happ'⟩

theorem cutAll_cutAll (a : Addresses) : cutAll (cutAll a) = cutAll a := by
  simp only [cutAll, cut_cut]

theorem Same.symm (h : Same a b) : Same b a := by
  obtain ⟨hapi, hauth, happ⟩ := sameServer_iff.mp h
  exact sameServer_iff.mpr
    ⟨sameAddress_symm hapi, sameAddress_symm hauth, sameAddress_symm happ⟩

theorem Same.of_cutAll (h : cutAll a = cutAll b) : Same a b := by
  rw [Same, h]
  exact Same.refl b

theorem Same.of_sameServer (h : sameServer (cutAll a) b = true) : cutAll b = b ∧ Same a b := by
  obtain ⟨hapi, hauth, happ⟩ := sameServer_iff.mp h
  have hcut : cutAll b = b := by
    rw [cutAll, cut_of_same hapi, cut_of_same hauth, cut_of_same happ]
  refine ⟨hcut, ?_⟩
  rw [Same, hcut]
  exact h

/-- An address that the check lets through is not blank. -/
theorem trimmed_of_letThrough (h : LetThrough x) : trimmed (some x) = some (cut x) := by
  obtain ⟨parts, hparts, -⟩ := partsOf_of_letThrough h
  obtain ⟨⟨scheme, rest⟩, hsplit, -⟩ := Option.map_eq_some_iff.mp hparts
  have hslash : '/' ∈ x.toList := by
    rw [eq_of_splitAt hsplit]
    simp
  have hcut : cut x ≠ "" := by
    intro hempty
    have htrim : trim x.toList = [] := by
      rw [cut] at hempty
      exact String.ofList_eq_empty_iff.mp hempty
    have hwhite := List.rdropWhile_eq_nil_iff.mp htrim
    rw [← @List.takeWhile_append_dropWhile _ isWhitespace x.toList, List.mem_append] at hslash
    rcases hslash with hslash | hslash
    · have hblank := List.mem_takeWhile_imp hslash
      revert hblank
      decide
    · have hblank := hwhite _ hslash
      revert hblank
      decide
  rw [trimmed_eq, written, Option.filter_some, if_pos (decide_eq_true hcut)]
  rfl

end Servers

section Invariant

variable {d d' : Device} {server : Addresses} {c : Carrier}

/-- What holds of a device whose life was careful. -/
structure Kept (d : Device) : Prop where
  bare : d.enrolled = false → ∀ c, c ≠ .keySet → d.stands c = false
  enrolled : d.enrolled = true → ∃ a, d.remembered = some a ∧
    ∀ c old, d.Carries c old → Same old a
  running : ∀ server, d.engine = some server → (∃ a, d.remembered = some a ∧ Same a server) ∧
    ∀ c old, d.Carries c old → Same old server
  ended : d.engine = none → Marked d

/-- The next start finds the device in order, if its end left no key set without the mark. -/
def Ready (d : Device) : Prop := Marked d → Kept d.ended

theorem Kept.ready (h : Kept d) : Ready d :=
  fun hmarked ↦ ⟨h.bare, h.enrolled, fun _ hengine ↦ (by cases hengine), fun _ ↦ hmarked⟩

/-- What a change leaves alone. -/
structure Less (d d' : Device) : Prop where
  settings : ∀ key ∈ sealKeys, d'.store.settingOf key = d.store.settingOf key
  stands : ∀ c, d'.stands c = true → d.stands c = true
  came : ∀ c server, d'.Carries c server → d.Carries c server
  engine : d'.engine = d.engine

theorem enrolled_congr (h : ∀ key ∈ sealKeys, d'.store.settingOf key = d.store.settingOf key) :
    d'.enrolled = d.enrolled := by
  rw [Device.enrolled, Device.enrolled, h settingEnrolled (by simp [sealKeys])]

theorem remembered_congr (h : ∀ key ∈ sealKeys, d'.store.settingOf key = d.store.settingOf key) :
    d'.remembered = d.remembered := by
  rw [Device.remembered, Device.remembered, h settingCounterpartApiBase (by simp [sealKeys]),
    h settingCounterpartAuthBase (by simp [sealKeys]),
    h settingCounterpartAppBase (by simp [sealKeys])]

theorem Kept.less (h : Kept d) (hless : Less d d') : Kept d' where
  bare henrolled c hc := by
    rw [enrolled_congr hless.settings] at henrolled
    by_contra hstands
    have hbefore := hless.stands c (Bool.not_eq_false _ |>.mp hstands)
    cases hbefore.symm.trans (h.bare henrolled c hc)
  enrolled henrolled := by
    rw [enrolled_congr hless.settings] at henrolled
    obtain ⟨a, ha, hsame⟩ := h.enrolled henrolled
    exact ⟨a, (remembered_congr hless.settings).trans ha,
      fun c old hold ↦ hsame c old (hless.came c old hold)⟩
  running server hserver := by
    obtain ⟨⟨a, ha, hsame⟩, hold⟩ := h.running server (hless.engine.symm.trans hserver)
    exact ⟨⟨a, (remembered_congr hless.settings).trans ha, hsame⟩,
      fun c old hcarries ↦ hold c old (hless.came c old hcarries)⟩
  ended hengine hstands := by
    rw [enrolled_congr hless.settings]
    exact h.ended (hless.engine.symm.trans hengine) (hless.stands _ hstands)

theorem stands_noted (d : Device) (c : Carrier) : d.noted.stands c = d.stands c := by
  cases c <;> rfl

theorem less_noted (hsettings : ∀ key ∈ sealKeys, d'.store.settingOf key = d.store.settingOf key)
    (hstands : ∀ c, d'.stands c = true → d.stands c = true) (hcame : d'.came = d.came)
    (hengine : d'.engine = d.engine) : Less d d'.noted where
  settings := hsettings
  stands c h := hstands c (stands_noted d' c ▸ h)
  came c server h := by
    obtain ⟨hstands', hmem⟩ := h
    rw [stands_noted] at hstands'
    refine ⟨hstands c hstands', ?_⟩
    have hcames : d'.noted.came c = d'.came c := if_pos hstands'
    rw [hcames, hcame] at hmem
    exact hmem
  engine := hengine

theorem carries_noted {old : Addresses} (h : old ∈ d.noted.came c) : d.Carries c old := by
  have hcame : d.noted.came c = if d.stands c then d.came c else [] := rfl
  rw [hcame] at h
  split at h
  next hstands => exact ⟨hstands, h⟩
  next => cases h

theorem setSetting_eq_ok {store store' : Store} {key value : String}
    (h : store.setSetting key value = .ok store') :
    ∃ setting, store' = { store with setting := setting } := by
  unfold Store.setSetting at h
  split at h
  · cases h
  · exact ⟨_, (Except.ok.inj h).symm⟩

/-- The settings of the seal are no carriers. -/
theorem stands_setSetting {store : Store} {key value : String}
    (h : d.store.setSetting key value = .ok store) (hkeySet : key ≠ SettingKey.keySet.text)
    (hcursor : key ≠ settingCursor) (c : Carrier) :
    Device.stands { d with store := store } c = d.stands c := by
  have hsetting := fun key' ↦ @Store.settingOf_setSetting _ _ _ _ key' h
  obtain ⟨setting, hstore⟩ := setSetting_eq_ok h
  cases c with
  | refreshToken => rfl
  | keySet =>
    rw [Device.stands, Device.stands, hsetting, if_neg hkeySet.symm]
  | cursor =>
    rw [Device.stands, Device.stands, hsetting, if_neg hcursor.symm]
  | outbox =>
    rw [hstore]
    rfl
  | tree =>
    rw [hstore]
    rfl

/-- The writes of an engine keep what holds of the device. -/
theorem Kept.wrote (h : Kept d) (hengine : d.engine = some server) (hwrote : Wrote server d d') :
    Kept d' ∧ d'.engine = some server ∧ d'.remembered = d.remembered ∧
      (d.enrolled = true → d'.enrolled = true) := by
  obtain ⟨⟨a, ha, hsame⟩, hold⟩ := h.running server hengine
  cases hwrote with
  | @carrier _ c hchanged =>
    have hengine' := hchanged.engine.trans hengine
    have henrolled := enrolled_congr hchanged.settings
    have hremembered := remembered_congr hchanged.settings
    have hcarries : ∀ k old, d'.Carries k old → Same old server := by
      rintro k old ⟨hstands, hmem⟩
      by_cases hk : k = c
      · subst hk
        rw [hchanged.came, if_pos hstands] at hmem
        rcases List.mem_cons.mp hmem with rfl | hmem
        · exact Same.refl _
        · exact hold k old (carries_noted hmem)
      · rw [(hchanged.others k hk).1] at hstands
        rw [(hchanged.others k hk).2] at hmem
        exact hold k old ⟨hstands, hmem⟩
    refine ⟨⟨fun hbare k hk ↦ ?_, fun _ ↦ ⟨a, hremembered.trans ha, fun k old hk ↦
      (hcarries k old hk).trans (Same.symm hsame)⟩, fun server' hserver ↦ ?_, fun hnone ↦ ?_⟩,
      hengine', hremembered, fun hbefore ↦ henrolled.trans hbefore⟩
    · have hbefore := h.bare (henrolled.symm.trans hbare)
      by_cases hkc : k = c
      · subst hkc
        rcases hchanged.may with heq | hmay | hmay
        · exact absurd heq hk
        · cases (henrolled.symm.trans hbare).symm.trans hmay
        · cases (hbefore .refreshToken (by simp)).symm.trans hmay
      · rw [(hchanged.others k hkc).1, hbefore k hk]
    · obtain rfl := Option.some.inj (hengine'.symm.trans hserver)
      exact ⟨⟨a, hremembered.trans ha, hsame⟩, hcarries⟩
    · cases hengine'.symm.trans hnone
  | @enrolled s hset =>
    have hsetting := fun key ↦ @Store.settingOf_setSetting _ _ _ _ key hset
    have henrolled : Device.enrolled { d with store := s } = true := by
      rw [Device.enrolled, hsetting, if_pos rfl]
      exact decide_eq_true rfl
    have hremembered : Device.remembered { d with store := s } = d.remembered := by
      rw [Device.remembered, hsetting, hsetting, hsetting]
      rfl
    have hstands : ∀ k, Device.stands { d with store := s } k = d.stands k :=
      stands_setSetting hset (by decide) (by decide)
    have hcarries : ∀ k old, Device.Carries { d with store := s } k old → Same old server :=
      fun k old hk ↦ hold k old ⟨hstands k ▸ hk.1, hk.2⟩
    refine ⟨⟨fun hbare ↦ ?_, fun _ ↦ ⟨a, hremembered.trans ha, fun k old hk ↦
      (hcarries k old hk).trans (Same.symm hsame)⟩, fun server' hserver ↦ ?_, fun hnone ↦ ?_⟩,
      hengine, hremembered, fun _ ↦ henrolled⟩
    · cases henrolled.symm.trans hbare
    · obtain rfl := Option.some.inj (hengine.symm.trans hserver)
      exact ⟨⟨a, hremembered.trans ha, hsame⟩, hcarries⟩
    · cases hengine.symm.trans hnone

theorem Kept.wrotes (h : Kept d) (hengine : d.engine = some server)
    (hwrotes : Relation.ReflTransGen (Wrote server) d d') :
    Kept d' ∧ d'.engine = some server ∧ d'.remembered = d.remembered ∧
      (d.enrolled = true → d'.enrolled = true) := by
  induction hwrotes with
  | refl => exact ⟨h, hengine, rfl, id⟩
  | tail _ hwrote ih =>
    obtain ⟨hkept, hengine', hremembered, henrolled⟩ := ih
    obtain ⟨hkept', hengine'', hremembered', henrolled'⟩ := hkept.wrote hengine' hwrote
    exact ⟨hkept', hengine'', hremembered'.trans hremembered,
      fun hbefore ↦ henrolled' (henrolled hbefore)⟩

theorem Kept.meanwhile (h : Kept d) (hmeanwhile : StartRuns.meanwhile d d') :
    Kept d' ∧ d'.engine = d.engine ∧ d'.remembered = d.remembered ∧
      (d.enrolled = true → d'.enrolled = true) := by
  cases hengine : d.engine with
  | none =>
    rw [StartRuns.meanwhile, hengine] at hmeanwhile
    obtain rfl : d' = d := hmeanwhile
    exact ⟨h, hengine, rfl, id⟩
  | some server =>
    rw [StartRuns.meanwhile, hengine] at hmeanwhile
    exact h.wrotes hengine hmeanwhile

theorem Less.refl (d : Device) : Less d d := ⟨fun _ _ ↦ rfl, fun _ h ↦ h, fun _ _ h ↦ h, rfl⟩

/-- The requests of a sign-out take away, or leave alone. -/
theorem less_clearing {request : SessionRequest} {a : SessionAnswer request}
    (h : clearing request d a d') : Less d d' := by
  cases request with
  | clearBegins =>
    obtain ⟨log, number, rfl⟩ := h
    exact ⟨fun _ _ ↦ rfl, fun c h ↦ by cases c <;> exact h,
      fun c server h ↦ by cases c <;> exact h, rfl⟩
  | emptyNamespace =>
    rcases h with ⟨-, n, s, hs, rfl⟩ | ⟨-, rfl⟩
    · obtain ⟨-, rfl⟩ := Storage.Effects.emptyNamespace_eq_ok hs
      refine @less_noted d _ (fun _ _ ↦ rfl) (fun c h ↦ ?_) rfl rfl
      cases c with
      | tree => cases h
      | _ => exact h
    · exact Less.refl _
  | setSession session token =>
    rcases h with ⟨-, rfl⟩ | ⟨-, rfl⟩
    · exact ⟨fun _ _ ↦ rfl, fun c h ↦ by cases c <;> exact h,
        fun c server h ↦ by cases c <;> exact h, rfl⟩
    · exact Less.refl _
  | forgetSession =>
    obtain ⟨slots, hslots, -, rfl⟩ := h
    refine @less_noted d _ (fun _ _ ↦ rfl) (fun c h ↦ ?_) rfl rfl
    cases c with
    | refreshToken =>
      have h : (slots .refreshToken).isSome = true := h
      rcases hslots .refreshToken with heq | ⟨-, heq⟩
      · rw [heq] at h
        exact h
      · rw [heq] at h
        cases h
    | _ => exact h
  | _ =>
    obtain rfl : d' = d := h
    exact Less.refl _

/-- The device does not say that it is enrolled, and keeps nothing. -/
structure Bare (d : Device) : Prop where
  engine : d.engine = none
  enrolled : d.enrolled = false
  stands : ∀ c, d.stands c = false

theorem Bare.kept (h : Bare d) : Kept d where
  bare _ c _ := h.stands c
  enrolled henrolled := by cases h.enrolled.symm.trans henrolled
  running server hserver := by cases h.engine.symm.trans hserver
  ended _ hstands := by cases (h.stands _).symm.trans hstands

theorem Bare.of_kept (h : Kept d) (hengine : d.engine = none) (henrolled : d.enrolled = false) :
    Bare d := by
  refine ⟨hengine, henrolled, fun c ↦ ?_⟩
  by_cases hc : c = .keySet
  · subst hc
    by_contra hstands
    have hmarked := h.ended hengine (Bool.not_eq_false _ |>.mp hstands)
    cases henrolled.symm.trans hmarked
  · exact h.bare henrolled c hc

end Invariant

section Starts

variable {describe : StartupAbort → String} {setting : Setting}
  {configuration : EngineConfiguration} {d d' : Device} {old : Addresses}

/-- The careful device, with the requirement that it is ready wherever a start is broken off. -/
def watched : Contract StartRequest StartAnswer Device :=
  { careful with ok := fun _ d ↦ Ready d }

theorem meanwhile_of_none (hengine : d.engine = none) (h : meanwhile d d') : d' = d := by
  rw [meanwhile, hengine] at h
  exact h

section Requests

variable {key value : String} {Q : Except StartupAbort Unit → Device → Prop}

theorem sound_openState (hready : Ready d) (hengine : d.engine = none) (hok : Q (.ok ()) d)
    (herror : ∀ e, Q (.error e) d) : watched.Sound openState.run Q d := by
  refine ⟨hready, fun a d₁ d₂ hserve hmeanwhile ↦ ?_⟩
  obtain rfl : d₁ = d := hserve.1
  obtain rfl := meanwhile_of_none hengine hmeanwhile
  cases a with
  | ok _ => exact hok
  | error e => exact herror e

theorem sound_writeSetting (hready : Ready d) (hengine : d.engine = none)
    (hok : ∀ s, d.store.setSetting key value = .ok s → Q (.ok ()) { d with store := s })
    (herror : ∀ e, Q (.error e) d) : watched.Sound (writeSetting key value).run Q d := by
  refine ⟨hready, fun a d₁ d₂ hserve hmeanwhile ↦ ?_⟩
  rcases hserve.1 with ⟨rfl, s, hset, rfl⟩ | ⟨⟨e, rfl⟩, rfl⟩
  · obtain rfl := meanwhile_of_none (d := { d with store := s }) hengine hmeanwhile
    exact hok s hset
  · obtain rfl := meanwhile_of_none hengine hmeanwhile
    exact herror _

theorem sound_dropSetting (hready : Ready d) (hengine : d.engine = none)
    (hok : (key = settingEnrolled → ∀ c, c ≠ .keySet → d.stands c = false) →
      Q (.ok ()) (Device.noted { d with store := (d.store.deleteSetting key).2 }))
    (herror : ∀ e, Q (.error e) d) : watched.Sound (dropSetting key).run Q d := by
  refine ⟨hready, fun a d₁ d₂ hserve hmeanwhile ↦ ?_⟩
  obtain ⟨hserve, hcareful⟩ := hserve
  rcases hserve with ⟨rfl, rfl⟩ | ⟨⟨e, rfl⟩, rfl⟩
  · obtain rfl := meanwhile_of_none
      (d := Device.noted { d with store := (d.store.deleteSetting key).2 }) hengine hmeanwhile
    exact hok hcareful
  · obtain rfl := meanwhile_of_none hengine hmeanwhile
    exact herror _

end Requests

/-- The settings of the seal, with the addresses of a configuration. -/
def seals (configuration : EngineConfiguration) : List (String × String) :=
  [(settingCounterpartApiBase, configuration.apiBase),
    (settingCounterpartAuthBase, configuration.authBase),
    (settingCounterpartAppBase, configuration.appBase)]

/-- A stored address is, without the whitespace at its edges, the same as another one. -/
def Faces (d : Device) (pair : String × String) : Prop :=
  ∃ x, trimmed (d.store.settingOf pair.1) = some (cut x) ∧ sameAddress (cut x) pair.2 = true

/-- No engine runs, and an enrolled device faces the server of the configuration. -/
structure Facing (configuration : EngineConfiguration) (d : Device) : Prop where
  engine : d.engine = none
  kept : Kept d
  faces : d.enrolled = true → ∀ pair ∈ seals configuration, Faces d pair

theorem snd_of_seals {pair pair' : String × String} (h : pair ∈ seals configuration)
    (h' : pair' ∈ seals configuration) (hkey : pair'.1 = pair.1) : pair' = pair := by
  have hnodup : [settingCounterpartApiBase, settingCounterpartAuthBase,
    settingCounterpartAppBase].Nodup := by decide
  exact List.inj_on_of_nodup_map (f := Prod.fst) (l := seals configuration) hnodup h' h hkey

theorem key_of_seals {pair : String × String} (h : pair ∈ seals configuration) :
    pair.1 ≠ settingEnrolled ∧ pair.1 ≠ SettingKey.keySet.text ∧ pair.1 ≠ settingCursor := by
  have hall : ∀ key ∈ [settingCounterpartApiBase, settingCounterpartAuthBase,
      settingCounterpartAppBase], key ≠ settingEnrolled ∧ key ≠ SettingKey.keySet.text ∧
        key ≠ settingCursor := by decide
  exact hall pair.1 (List.mem_map_of_mem (f := Prod.fst) h)

theorem letThrough_of_seals {pair : String × String} (h : LetThroughAll configuration)
    (hpair : pair ∈ seals configuration) : LetThrough pair.2 := by
  simp only [seals, List.mem_cons, List.not_mem_nil, or_false] at hpair
  rcases hpair with rfl | rfl | rfl
  · exact h.1
  · exact h.2.1
  · exact h.2.2

/-- What faces all three addresses is the same server. -/
theorem same_of_faces (h : ∀ pair ∈ seals configuration, Faces d pair) :
    ∃ a, d.remembered = some a ∧ Same a (addressesOf configuration) := by
  obtain ⟨x, hx, hapi⟩ := h (settingCounterpartApiBase, configuration.apiBase) (by simp [seals])
  obtain ⟨y, hy, hauth⟩ := h (settingCounterpartAuthBase, configuration.authBase) (by simp [seals])
  obtain ⟨z, hz, happ⟩ := h (settingCounterpartAppBase, configuration.appBase) (by simp [seals])
  refine ⟨cutAll ⟨x, y, z⟩, ?_, ?_⟩
  · rw [Device.remembered, addresses, hx, hy, hz]
    rfl
  · have hserver : sameServer (cutAll ⟨x, y, z⟩) (addressesOf configuration) = true :=
      sameServer_iff.mpr ⟨hapi, hauth, happ⟩
    obtain ⟨-, hsame⟩ := Same.of_sameServer hserver
    exact (Same.of_cutAll (cutAll_cutAll _)).trans hsame

/-- Writing down an address of the configuration keeps the device facing its server. -/
theorem Facing.set {pair : String × String} {store : Store} (hlet : LetThroughAll configuration)
    (h : Facing configuration d) (hpair : pair ∈ seals configuration)
    (hset : d.store.setSetting pair.1 pair.2 = .ok store) :
    Facing configuration { d with store := store } := by
  obtain ⟨hmark, hkeySet, hcursor⟩ := key_of_seals hpair
  have hsetting := fun key ↦ @Store.settingOf_setSetting _ _ _ _ key hset
  have hstands := stands_setSetting hset hkeySet hcursor
  have henrolled : Device.enrolled { d with store := store } = d.enrolled := by
    rw [Device.enrolled, Device.enrolled, hsetting, if_neg hmark.symm]
  have hcarries : ∀ c old, Device.Carries { d with store := store } c old → d.Carries c old :=
    fun c old hc ↦ ⟨hstands c ▸ hc.1, hc.2⟩
  have hfaces : d.enrolled = true → ∀ pair' ∈ seals configuration,
      Faces { d with store := store } pair' := by
    intro hmarked pair' hpair'
    obtain ⟨x, hx, hsame⟩ := h.faces hmarked pair' hpair'
    by_cases hkey : pair'.1 = pair.1
    · obtain rfl := snd_of_seals hpair hpair' hkey
      have hcut := cut_of_same hsame
      refine ⟨pair'.2, ?_, ?_⟩
      · rw [hsetting, if_pos rfl, trimmed_of_letThrough (letThrough_of_seals hlet hpair)]
      · rw [hcut]
        exact sameAddress_refl _
    · refine ⟨x, ?_, hsame⟩
      rw [hsetting, if_neg hkey]
      exact hx
  refine ⟨h.engine, ⟨fun hbare c hc ↦ ?_, fun hmarked ↦ ?_, fun server hserver ↦ ?_,
    fun _ hkey ↦ ?_⟩, fun hmarked ↦ hfaces (henrolled.symm.trans hmarked)⟩
  · exact (hstands c).trans (h.kept.bare (henrolled.symm.trans hbare) c hc)
  · have hbefore := henrolled.symm.trans hmarked
    obtain ⟨a, ha, hsame⟩ := same_of_faces (h.faces hbefore)
    obtain ⟨a', ha', hold⟩ := h.kept.enrolled hbefore
    obtain rfl := Option.some.inj (ha.symm.trans ha')
    obtain ⟨b, hb, hsame'⟩ := same_of_faces (hfaces hbefore)
    exact ⟨b, hb, fun c old hc ↦
      (hold c old (hcarries c old hc)).trans (hsame.trans hsame'.symm)⟩
  · cases h.engine.symm.trans hserver
  · exact henrolled.trans (h.kept.ended h.engine ((hstands _).symm.trans hkey))

/-- The engine that is built runs against the server that the device remembers. -/
theorem Facing.built (h : Facing configuration d)
    (hremembered : d.remembered = some (cutAll (addressesOf configuration))) :
    Kept { d with engine := some (addressesOf configuration) } := by
  have hself : Same (cutAll (addressesOf configuration)) (addressesOf configuration) :=
    Same.of_cutAll (cutAll_cutAll _)
  refine ⟨h.kept.bare, h.kept.enrolled, fun server hserver ↦ ?_, fun hnone ↦ by cases hnone⟩
  obtain rfl := Option.some.inj hserver
  refine ⟨⟨_, hremembered, hself⟩, fun c old hc ↦ ?_⟩
  cases henrolled : d.enrolled with
  | true =>
    obtain ⟨a, ha, hold⟩ := h.kept.enrolled henrolled
    obtain rfl := Option.some.inj (hremembered.symm.trans ha)
    exact (hold c old hc).trans hself
  | false =>
    have hbare := Bare.of_kept h.kept h.engine henrolled
    cases (hbare.stands c).symm.trans hc.1

/-- The old engine is there, and the device is still enrolled. -/
structure Leaving (d : Device) : Prop where
  kept : Kept d
  enrolled : d.enrolled = true

theorem Leaving.meanwhile (h : Leaving d) (hmeanwhile : StartRuns.meanwhile d d') : Leaving d' := by
  obtain ⟨hkept, -, -, henrolled⟩ := h.kept.meanwhile hmeanwhile
  exact ⟨hkept, henrolled h.enrolled⟩

theorem Leaving.less (h : Leaving d) (hless : Less d d') : Leaving d' :=
  ⟨h.kept.less hless, (enrolled_congr hless.settings).trans h.enrolled⟩

theorem sound_signOut (h : Leaving d) :
    watched.Sound ((Engine.Session.signOut setting).run.embed StartRequest.signingOut)
      (fun _ ↦ Leaving) d := by
  refine sound_embed.mpr (sound_of_all (fun r d hd ↦ ⟨hd.kept.ready, fun a d' hserve ↦ ?_⟩)
    (fun d d' hd hmeanwhile ↦ hd.meanwhile hmeanwhile) h)
  exact hd.less (less_clearing hserve.1)

/-- Without the mark of the enrolment, and with nothing kept but perhaps a key set. -/
structure Halfway (d : Device) : Prop where
  engine : d.engine = none
  enrolled : d.enrolled = false
  stands : ∀ c, c ≠ .keySet → d.stands c = false

theorem Halfway.ready (h : Halfway d) : Ready d := by
  intro hmarked
  refine Bare.kept ⟨rfl, h.enrolled, fun c ↦ ?_⟩
  by_cases hc : c = .keySet
  · subst hc
    by_contra hstands
    have henrolled := hmarked (Bool.not_eq_false _ |>.mp hstands)
    cases henrolled.symm.trans h.enrolled
  · exact h.stands c hc

theorem stands_deleteSetting {key : String} {c : Carrier}
    (h : Device.stands { d with store := (d.store.deleteSetting key).2 } c = true) :
    d.stands c = true := by
  cases c with
  | keySet =>
    rw [Device.stands, Store.settingOf_deleteSetting] at h
    split at h
    · cases h
    · exact h
  | cursor =>
    rw [Device.stands, Store.settingOf_deleteSetting] at h
    split at h
    · cases h
    · exact h
  | _ => exact h

theorem sound_startAfresh (h : Kept d) (hengine : d.engine = none) (henrolled : d.enrolled = true)
    (hremembered : d.remembered = some old) :
    watched.Sound (startAfresh describe setting configuration old).run
      (fun r d' ↦ Ready d' ∧ (r = .ok () → Bare d')) d := by
  have hfail : ∀ {e : StartupAbort} {d : Device}, Ready d →
      Ready d ∧ (Except.error e = .ok () → Bare d) :=
    fun hready ↦ ⟨hready, fun he ↦ by cases he⟩
  refine sound_fallible_bind ⟨h.ready, fun a d₁ d₂ hserve hmeanwhile ↦ ?_⟩
  rcases hserve.1 with ⟨rfl, rfl⟩ | ⟨⟨e, rfl⟩, rfl⟩
  · have hold : Kept { d with engine := some old } := by
      refine ⟨h.bare, h.enrolled, fun server hserver ↦ ?_, fun hnone ↦ by cases hnone⟩
      obtain rfl := Option.some.inj hserver
      obtain ⟨a, ha, hsame⟩ := h.enrolled henrolled
      obtain rfl := Option.some.inj (hremembered.symm.trans ha)
      exact ⟨⟨_, hremembered, Same.refl _⟩, hsame⟩
    have hleaving : Leaving d₂ := Leaving.meanwhile ⟨hold, henrolled⟩ hmeanwhile
    refine sound_lift_bind hleaving.kept.ready fun _ d₃ d₄ hconnect hafter ↦ ?_
    obtain rfl : d₃ = d₂ := hconnect.1
    have hleaving : Leaving d₄ := hleaving.meanwhile hafter
    refine sound_fallible_bind (sound_bind.mpr (sound_mono (fun _ d₅ hleaving ↦ ?_)
      (sound_signOut hleaving)))
    refine sound_lift_bind hleaving.kept.ready fun _ d₆ d₇ hstop hafter ↦ ?_
    obtain rfl : d₆ = d₅.ended := hstop.1
    obtain rfl := meanwhile_of_none (d := d₅.ended) rfl hafter
    have hended : Kept d₅.ended := hleaving.kept.ready fun _ ↦ hleaving.enrolled
    refine sound_fallible_bind (sound_openState hended.ready rfl ?_ fun e ↦ hfail hended.ready)
    refine sound_fallible_bind (sound_dropSetting hended.ready rfl (fun hnothing ↦ ?_)
      fun e ↦ hfail hended.ready)
    have hhalfway : Halfway (Device.noted
        { d₅.ended with store := (d₅.ended.store.deleteSetting settingEnrolled).2 }) := by
      refine ⟨rfl, ?_, fun c hc ↦ ?_⟩
      · have hmark := Store.settingOf_deleteSetting d₅.ended.store settingEnrolled settingEnrolled
        rw [if_pos rfl] at hmark
        simp [Device.enrolled, Device.noted, hmark]
      · by_contra hstands
        rw [stands_noted] at hstands
        have hbefore := stands_deleteSetting (Bool.not_eq_false _ |>.mp hstands)
        cases hbefore.symm.trans (hnothing rfl c hc)
    refine sound_dropSetting hhalfway.ready rfl (fun _ ↦ ?_) fun e ↦ hfail hhalfway.ready
    generalize Device.noted { d₅.ended with
      store := (d₅.ended.store.deleteSetting settingEnrolled).2 } = d₈ at hhalfway
    have hsetting := Store.settingOf_deleteSetting d₈.store SettingKey.keySet.text
    have hbare : Bare (Device.noted
        { d₈ with store := (d₈.store.deleteSetting SettingKey.keySet.text).2 }) := by
      refine ⟨hhalfway.engine, ?_, fun c ↦ ?_⟩
      · have hmark := hsetting settingEnrolled
        rw [if_neg (by decide)] at hmark
        have henrolled := hhalfway.enrolled
        rw [Device.enrolled] at henrolled ⊢
        rw [← henrolled]
        exact congrArg (fun text ↦ decide (text = some yes)) hmark
      · by_contra hstands
        rw [stands_noted] at hstands
        have hstands := Bool.not_eq_false _ |>.mp hstands
        by_cases hc : c = .keySet
        · subst hc
          rw [Device.stands, hsetting, if_pos rfl] at hstands
          cases hstands
        · cases (stands_deleteSetting hstands).symm.trans (hhalfway.stands c hc)
    exact ⟨hbare.kept.ready, fun _ ↦ hbare⟩
  · obtain rfl := meanwhile_of_none hengine hmeanwhile
    exact hfail h.ready

theorem Bare.facing (h : Bare d) : Facing configuration d :=
  ⟨h.engine, h.kept, fun henrolled ↦ by cases h.enrolled.symm.trans henrolled⟩

theorem Bare.set {key value : String} {store : Store} (h : Bare d)
    (hset : d.store.setSetting key value = .ok store) (hmark : key ≠ settingEnrolled)
    (hkeySet : key ≠ SettingKey.keySet.text) (hcursor : key ≠ settingCursor) :
    Bare { d with store := store } := by
  refine ⟨h.engine, ?_, fun c ↦ (stands_setSetting hset hkeySet hcursor c).trans (h.stands c)⟩
  have hsetting := @Store.settingOf_setSetting _ _ _ _ settingEnrolled hset
  rw [if_neg hmark.symm] at hsetting
  have henrolled := h.enrolled
  rw [Device.enrolled] at henrolled ⊢
  rw [← henrolled]
  exact congrArg (fun text ↦ decide (text = some yes)) hsetting

theorem Bare.drop {key : String} (h : Bare d) (hmark : key ≠ settingEnrolled) :
    Bare (Device.noted { d with store := (d.store.deleteSetting key).2 }) := by
  refine ⟨h.engine, ?_, fun c ↦ ?_⟩
  · have hsetting := Store.settingOf_deleteSetting d.store key settingEnrolled
    rw [if_neg hmark.symm] at hsetting
    have henrolled := h.enrolled
    rw [Device.enrolled] at henrolled ⊢
    rw [← henrolled]
    exact congrArg (fun text ↦ decide (text = some yes)) hsetting
  · by_contra hstands
    rw [stands_noted] at hstands
    cases (stands_deleteSetting (Bool.not_eq_false _ |>.mp hstands)).symm.trans (h.stands c)

theorem eq_of_compare_changed {enrolled : Bool} {stored now : Option Addresses}
    (h : Setup.compare enrolled stored now = .changed old) :
    enrolled = true ∧ stored = some old := by
  unfold Setup.compare at h
  split_ifs at h with henrolled
  split at h
  · cases h
  · split at h
    · split_ifs at h with hsame
      exact ⟨by simpa using henrolled, congrArg some (Counterpart.changed.inj h)⟩
    · cases h

theorem addresses_eq_some {apiBase authBase appBase : Option String} {a : Addresses}
    (h : addresses apiBase authBase appBase = some a) :
    ∃ x, trimmed apiBase = some (cut x) ∧ ∃ y, trimmed authBase = some (cut y) ∧
      ∃ z, trimmed appBase = some (cut z) ∧ ⟨cut x, cut y, cut z⟩ = a := by
  rw [addresses] at h
  obtain ⟨x, hx, h⟩ := Option.bind_eq_some_iff.mp h
  obtain ⟨y, hy, h⟩ := Option.bind_eq_some_iff.mp h
  obtain ⟨z, hz, h⟩ := Option.bind_eq_some_iff.mp h
  have hcut : ∀ {value : Option String} {x : String}, trimmed value = some x →
      ∃ x', cut x' = x := by
    intro value x hx
    rw [trimmed_eq] at hx
    obtain ⟨x', -, hx'⟩ := Option.map_eq_some_iff.mp hx
    exact ⟨x', hx'⟩
  obtain ⟨x, rfl⟩ := hcut hx
  obtain ⟨y, rfl⟩ := hcut hy
  obtain ⟨z, rfl⟩ := hcut hz
  exact ⟨x, hx, y, hy, z, hz, Option.some.inj h⟩

/-- An enrolled device that finds no change faces the server of the configuration. -/
theorem facing_of_same (h : Kept d) (hengine : d.engine = none)
    (hsame : ∀ old, counterpartOf d.store.settingOf configuration ≠ .changed old) :
    Facing configuration d := by
  refine ⟨hengine, h, fun henrolled ↦ ?_⟩
  obtain ⟨a, ha, -⟩ := h.enrolled henrolled
  have hserver : sameServer a (addressesOf configuration) = true := by
    by_contra hother
    obtain ⟨old, hold⟩ := compare_eq_changed_iff.mpr
      ⟨henrolled, a, _, ha, rfl, Bool.eq_false_of_not_eq_true hother⟩
    exact hsame old hold
  obtain ⟨hapi, hauth, happ⟩ := sameServer_iff.mp hserver
  obtain ⟨x, hx, y, hy, z, hz, rfl⟩ := addresses_eq_some ha
  intro pair hpair
  simp only [seals, List.mem_cons, List.not_mem_nil, or_false] at hpair
  rcases hpair with rfl | rfl | rfl
  · exact ⟨x, hx, hapi⟩
  · exact ⟨y, hy, hauth⟩
  · exact ⟨z, hz, happ⟩

theorem sound_settle (h : Kept d) (hengine : d.engine = none) :
    watched.Sound (settle describe setting configuration
      (counterpartOf d.store.settingOf configuration)).run
      (fun r d' ↦ Ready d' ∧ (r = .ok () → Facing configuration d')) d := by
  have hfail : ∀ {e : StartupAbort} {d : Device}, Ready d →
      Ready d ∧ (Except.error e = .ok () → Facing configuration d) :=
    fun hready ↦ ⟨hready, fun he ↦ by cases he⟩
  cases hcounterpart : counterpartOf d.store.settingOf configuration with
  | changed old =>
    obtain ⟨henrolled, hremembered⟩ := eq_of_compare_changed hcounterpart
    refine sound_fallible_bind (sound_mono (fun r d₁ h₁ ↦ ?_)
      (sound_startAfresh h hengine henrolled hremembered))
    cases r with
    | error e => exact hfail h₁.1
    | ok _ =>
      have hbare := h₁.2 rfl
      refine sound_fallible_bind (sound_openState hbare.kept.ready hbare.engine ?_
        fun e ↦ hfail hbare.kept.ready)
      refine sound_fallible_bind (sound_writeSetting hbare.kept.ready hbare.engine
        (fun s hset ↦ ?_) fun e ↦ hfail hbare.kept.ready)
      have hnoted := hbare.set hset (by decide) (by decide) (by decide)
      refine sound_dropSetting hnoted.kept.ready hnoted.engine (fun _ ↦ ?_)
        fun e ↦ hfail hnoted.kept.ready
      have hmark : settingCompleted ≠ settingEnrolled := by decide
      have hdropped := hnoted.drop hmark
      exact ⟨hdropped.kept.ready, fun _ ↦ hdropped.facing⟩
  | notEnrolled =>
    have hfacing := facing_of_same h hengine fun old hold ↦ by cases hcounterpart.symm.trans hold
    exact ⟨h.ready, fun _ ↦ hfacing⟩
  | enrolled b =>
    have hfacing := facing_of_same h hengine fun old hold ↦ by cases hcounterpart.symm.trans hold
    exact ⟨h.ready, fun _ ↦ hfacing⟩

theorem Kept.apart (h : Kept d) : Apart d where
  running server hserver c old hc := (h.running server hserver).2 c old hc
  next hengine configuration _ := by
    by_cases hchanged : ∃ old, counterpartOf d.store.settingOf configuration = .changed old
    · exact .inl hchanged
    · have hfacing := @facing_of_same configuration d h hengine
        fun old hold ↦ hchanged ⟨old, hold⟩
      refine .inr fun c old hc ↦ ?_
      cases henrolled : d.enrolled with
      | true =>
        obtain ⟨a, ha, hsame⟩ := same_of_faces (hfacing.faces henrolled)
        obtain ⟨b, hb, hold⟩ := h.enrolled henrolled
        obtain rfl := Option.some.inj (ha.symm.trans hb)
        exact (hold c old hc).trans hsame
      | false => cases ((Bare.of_kept h hengine henrolled).stands c).symm.trans hc.1

end Starts

section Samples

/-- A sign-out in which nothing fails. -/
def cleared : (r : SessionRequest) → Device → SessionAnswer r × Device
  | .emptyNamespace, d =>
    match d.store.emptyNamespace with
    | .ok (_, s) => (.ok (), Device.noted { d with store := s })
    | .error e => (.error e, d)
  | .setSession session _, d => (.ok (), { d with store := d.store.setSession session })
  | .forgetSession, d =>
    (.ok (), Device.noted
      { d with slots := fun slot ↦ if slot ∈ sessionSlots then none else d.slots slot })
  | r, d => (Engine.SignOut.refused r, d)

/-- A start in which nothing fails, except perhaps the forgetting of the enrolment. -/
def smooth (eager : Bool) : (r : StartRequest) → Device → StartAnswer r × Device
  | .setting key, d => (.ok (d.store.settingOf key), d)
  | .setSetting key value, d =>
    match d.store.setSetting key value with
    | .ok s => (.ok (), { d with store := s })
    | .error e => (.error e, d)
  | .deleteSetting key, d =>
    if eager || key ≠ settingEnrolled ||
        [Carrier.refreshToken, .cursor, .outbox, .tree].all fun c ↦ !d.stands c then
      (.ok (), Device.noted { d with store := (d.store.deleteSetting key).2 })
    else (.error .database, d)
  | .openState, d => (.ok (), d)
  | .build addresses, d => (.ok (), { d with engine := some addresses })
  | .connect, d => (true, d)
  | .signingOut request, d => cleared request d
  | .stop, d => ((), d.ended)

def at_ (host : String) : EngineConfiguration where
  apiBase := "https://api." ++ host
  authBase := "https://auth." ++ host
  appBase := "https://app." ++ host
  dataPath := "C:\\edms\\data\\state.sqlite"
  staging := "C:\\edms\\staging"
  mirrorPath := "C:\\mirror"
  holding := "C:\\edms\\holding"
  deviceName := "Buchhaltung EG"
  enrollmentCode := none
  language := .de

def north : EngineConfiguration := at_ "north.example"

def south : EngineConfiguration := at_ "south.example"

def fresh : Device := ⟨.setUp 0 5, fun _ ↦ none, fun _ ↦ [], none⟩

/-- The device after a start in which nothing fails. -/
def startedAt (eager : Bool) (configuration : EngineConfiguration) (d : Device) : Device :=
  ((start (fun _ ↦ "") Engine.Play.plain configuration).run.handle (smooth eager) d).2

/-- The device after a write of a setting. -/
def wrote (key value : String) (d : Device) : Device :=
  match d.store.setSetting key value with
  | .ok s => { d with store := s }
  | .error _ => d

def enrolledNorth (eager : Bool) : Device :=
  wrote settingEnrolled yes (startedAt eager north fresh)

/-- The first page of commands has come, and its cursor is kept. -/
def polled : Device :=
  { wrote settingCursor "7" (enrolledNorth true) with
    came := fun c ↦ if c = .cursor then [addressesOf north] else [] }

def moved : Device := startedAt true south polled.ended

end Samples

end FolderClient.App.StartRuns
