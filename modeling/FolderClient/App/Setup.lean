import FolderClient.Core.Listing
import FolderClient.Library.Paths
import FolderClient.Net.Connection
import FolderClient.Storage.Delivery

namespace FolderClient.Core.Listing.Language

open FolderClient.Library.Texts

def all : List Language := [.de, .en]

/-- The language of a tag, of which only the primary subtag counts. -/
def fromTag (tag : String) : Option Language :=
  let primary := asciiLower (tag.toList.takeWhile fun c ↦ c ≠ '-' ∧ c ≠ '_')
  all.find? fun language ↦ language.tag.toList = primary

def fromValue (value : Option String) : Option Language := do
  let raw := String.ofList (trim (← value).toList)
  if raw = "" then none else fromTag raw

end FolderClient.Core.Listing.Language

namespace FolderClient.App.Setup

open FolderClient.Core.Listing FolderClient.Library.Paths FolderClient.Library.Texts
open FolderClient.Net.Connection FolderClient.Storage.Basic

def fallback : Language := .en

/-- The channels a value comes from, in the order they are read. -/
inductive Origin
  | environment
  | setting
  | default
deriving DecidableEq

inductive Value
  | apiBase
  | authBase
  | appBase
  | dataPath
  | staging
  | mirrorPath
  | holding
  | deviceName
  | language
deriving DecidableEq

namespace Value

def all : List Value :=
  [apiBase, authBase, appBase, deviceName, language, dataPath, staging, mirrorPath, holding]

/-- The variable of the environment that fixes the value. -/
def variableName : Value → String
  | apiBase => "EDMS_API_BASE"
  | authBase => "EDMS_AUTH_BASE"
  | appBase => "EDMS_APP_BASE"
  | dataPath => "EDMS_DATA_PATH"
  | staging => "EDMS_STAGING_DIR"
  | mirrorPath => "EDMS_MIRROR_PATH"
  | holding => "EDMS_HOLDING_DIR"
  | deviceName => "EDMS_DEVICE_NAME"
  | language => "EDMS_LANG"

/-- The key under which the set-up remembers the value; nothing where it must not. -/
def settingKey : Value → Option String
  | apiBase => some "setup.api-base"
  | authBase => some "setup.auth-base"
  | appBase => some "setup.app-base"
  | deviceName => some "setup.device-name"
  | mirrorPath => some "setup.mirror-path"
  | language => some "setup.language"
  | dataPath | staging | holding => none

def purpose : Value → String
  | apiBase => "the base address of the elasticdms API"
  | authBase => "the base address of the authorization server"
  | appBase => "the base address of the web interface"
  | dataPath => "the file holding the local state (SQLite)"
  | staging => "the directory into which content is loaded before it is checked"
  | mirrorPath => "the root of the mirror"
  | holding => "the directory in which an ingested file waits for the server's confirmation"
  | deviceName => "the name of this workstation in the console"
  | language => "the language of the user interface"

end Value

def varEnrollmentCode : String := "EDMS_ENROLLMENT_CODE"

def settingCompleted : String := "setup.completed"

def settingEnrolled : String := "device.enrolled"

def settingCounterpartApiBase : String := "counterpart.api-base"

def settingCounterpartAuthBase : String := "counterpart.auth-base"

def settingCounterpartAppBase : String := "counterpart.app-base"

def settingCounterpartChanged : String := "setup.counterpart-changed"

def yes : String := "yes"

/-- Why the configuration does not stand. -/
inductive ConfigurationError
  | missing (variableName purpose : String)
  | empty (variableName purpose : String)
  | pathEqual (a other path : String)
deriving DecidableEq

/-- Three directories with three jobs must not be the same. -/
def checkPaths (platform : Platform) (mirrorPath staging holding : String) :
    Except ConfigurationError Unit :=
  if platform.samePath mirrorPath holding then
    .error (.pathEqual Value.mirrorPath.variableName Value.holding.variableName mirrorPath)
  else if platform.samePath mirrorPath staging then
    .error (.pathEqual Value.mirrorPath.variableName Value.staging.variableName mirrorPath)
  else if platform.samePath holding staging then
    .error (.pathEqual Value.holding.variableName Value.staging.variableName holding)
  else .ok ()

structure EngineConfiguration where
  apiBase : String
  authBase : String
  appBase : String
  dataPath : String
  staging : String
  mirrorPath : String
  holding : String
  deviceName : String
  enrollmentCode : Option String
  language : Language
deriving DecidableEq

def EngineConfiguration.check (platform : Platform) (configuration : EngineConfiguration) :
    Except ConfigurationError Unit :=
  checkPaths platform configuration.mirrorPath configuration.staging configuration.holding

/-- One value as the resolution found it. -/
structure Resolved where
  text : String
  origin : Origin
deriving DecidableEq

structure Addresses where
  apiBase : String
  authBase : String
  appBase : String
deriving DecidableEq

/-- What the comparison with the server this device enrolled against found. -/
inductive Counterpart
  | notEnrolled
  | enrolled (isSealed : Bool)
  | changed (old : Addresses)
deriving DecidableEq

/-- Every value of this workstation, and where each of them came from. -/
structure Resolution where
  found : Value → Option Resolved
  enrollmentCode : Option String
  completed : Bool
  counterpart : Counterpart
  counterpartChanged : Option String

namespace Resolution

def text (resolution : Resolution) (which : Value) : Option String :=
  (resolution.found which).map Resolved.text

def isFixed (resolution : Resolution) (which : Value) : Bool :=
  (resolution.found which).any fun found ↦ found.origin = .environment

def language (resolution : Resolution) : Language :=
  ((resolution.text .language).bind Language.fromTag).getD fallback

/-- The text of a value; a variable that is set to nothing is an error. -/
def required (resolution : Resolution) (which : Value) : Except ConfigurationError String :=
  match resolution.found which with
  | none => .error (.missing which.variableName which.purpose)
  | some found =>
    if found.text = "" then .error (.empty which.variableName which.purpose) else .ok found.text

/-- The finished configuration, or the first value that no channel carries. -/
def configuration (platform : Platform) (resolution : Resolution) :
    Except ConfigurationError EngineConfiguration := do
  let configuration : EngineConfiguration := {
    apiBase := ← resolution.required .apiBase
    authBase := ← resolution.required .authBase
    appBase := ← resolution.required .appBase
    dataPath := ← resolution.required .dataPath
    staging := ← resolution.required .staging
    mirrorPath := ← resolution.required .mirrorPath
    holding := ← resolution.required .holding
    deviceName := ← resolution.required .deviceName
    enrollmentCode := resolution.enrollmentCode
    language := resolution.language }
  configuration.check platform
  return configuration

end Resolution

/-- A text that is nothing but whitespace is no text. -/
def trimmed (value : Option String) : Option String :=
  (value.map fun text ↦ String.ofList (trim text.toList)).filter fun text ↦ text ≠ ""

def addresses (apiBase authBase appBase : Option String) : Option Addresses := do
  return ⟨← trimmed apiBase, ← trimmed authBase, ← trimmed appBase⟩

/-- Scheme and authority of an address without regard to letter case, and what follows them. -/
def splitAddress (text : List Char) : List Char × List Char :=
  let start := ((splitAt "://".toList text).map fun (scheme, _) ↦ scheme.length + 3).getD 0
  let «end» := start + ((text.drop start).takeWhile (· ≠ '/')).length
  (asciiLower (text.take «end»), text.drop «end»)

/-- Whether two addresses name the same place: in scheme and authority the case of a letter does
not count, behind them it does. -/
def sameAddress (stored now : String) : Bool :=
  splitAddress stored.toList = splitAddress now.toList

def sameServer (stored now : Addresses) : Bool :=
  sameAddress stored.apiBase now.apiBase && sameAddress stored.authBase now.authBase &&
    sameAddress stored.appBase now.appBase

def compare (enrolled : Bool) (stored now : Option Addresses) : Counterpart :=
  if ¬ enrolled then .notEnrolled
  else
    match stored with
    | none => .enrolled false
    | some stored =>
      match now with
      | some now => if ¬ sameServer stored now then .changed stored else .enrolled true
      | none => .enrolled true

/-- Why a value that was typed is not stored. -/
inductive SettingRefused
  | fixed (variableName : String)
  | notOffered (variableName reason : String)
  | spent (variableName reason : String)
  | empty (variableName purpose : String)
  | address (error : ConnectionError)
  | path (error : ConfigurationError)
  | contains (path inner variableName : String)
  | notEmpty (path : String)
  | controlCharacter (variableName : String)
  | notAbsolute (path : String)
  | language (tag known : String)
  | store (error : StoreError)
deriving DecidableEq

def notOfferedBecause : Value → String
  | .dataPath =>
    "the setting table lies at the end of this path, and a setting that says where the " ++
      "settings live cannot live among them"
  | .staging =>
    "a scratch area, and the only real question is which volume: a network path makes every " ++
      "hydration slow, a removable one breaks it mid-file"
  | .holding =>
    "files the server has not confirmed yet lie there, and the uninstall protects only the " ++
      "default place"
  | .apiBase | .authBase | .appBase | .mirrorPath | .deviceName | .language => "it is offered"

/-- Everything that can be said about one value without the others. -/
def checkAlone (platform : Platform) (which : Value) (text : String) :
    Except SettingRefused String :=
  match which with
  | .apiBase => (check "API base" text).mapError .address
  | .authBase => (check "sign-in base" text).mapError .address
  | .appBase => (check "web interface base" text).mapError .address
  | .mirrorPath => if platform.isAbsolute text then .ok text else .error (.notAbsolute text)
  | .deviceName =>
    if text.toList.any isControl then .error (.controlCharacter which.variableName) else .ok text
  | .language =>
    match Language.fromTag text with
    | some language => .ok language.tag
    | none => .error (.language text (", ".intercalate (Language.all.map Language.tag)))
  | .dataPath | .staging | .holding =>
    .error (.notOffered which.variableName (notOfferedBecause which))

/-- The machine a client runs on: what it computes its own defaults from. -/
structure Machine where
  dataDirectory : Option String
  homeDirectory : Option String
  name : Option String
  language : Language

def folderName : String := "elasticdms"

def holdingName : String := "holding"

def databaseName : String := "state.sqlite"

def stagingName : String := "staging"

def deviceNameFallback : String := "elasticdms workstation"

def onMachine (name : String) : String := s!"{folderName} on {name}"

/-- The name under which this workstation appears in the console. -/
def deviceName (lookup : String → Option String) (machine : Machine) : String :=
  match ["COMPUTERNAME", "HOSTNAME"].findSome? fun variableName ↦ trimmed (lookup variableName) with
  | some name => onMachine name
  | none => (machine.name.map onMachine).getD deviceNameFallback

/-- What this machine computes when nobody has said anything. -/
def defaultFor (platform : Platform) (which : Value) (lookup : String → Option String)
    (machine : Machine) : Option String :=
  match which with
  | .apiBase | .authBase | .appBase => none
  | .dataPath => machine.dataDirectory.map (platform.join · databaseName)
  | .staging => machine.dataDirectory.map (platform.join · stagingName)
  | .holding => machine.dataDirectory.map (platform.join · holdingName)
  | .mirrorPath => machine.homeDirectory.map (platform.join · folderName)
  | .deviceName => some (deviceName lookup machine)
  | .language => some machine.language.tag

/-- A value of the environment, an address in the one form in which addresses are compared. -/
def asWritten (platform : Platform) (which : Value) (text : String) : String :=
  match which with
  | .apiBase | .authBase | .appBase => (checkAlone platform which text).toOption.getD text
  | .dataPath | .staging | .holding | .mirrorPath | .deviceName | .language => text

/-- What the environment says about a value; only a language nobody understands falls through. -/
def fromEnvironment (platform : Platform) (which : Value) (lookup : String → Option String) :
    Option String :=
  if which = .language then
    (Language.fromValue (lookup which.variableName)).map Language.tag
  else (lookup which.variableName).map fun raw ↦
    asWritten platform which (String.ofList (trim raw.toList))

/-- What the setting table says about a value, where it holds on its own. -/
def fromSetting (platform : Platform) (which : Value) (stored : String → Option String) :
    Option String := do
  let text ← trimmed (stored (← which.settingKey))
  (checkAlone platform which text).toOption

/-- The one place where a value is chosen. -/
def resolveOne (platform : Platform) (which : Value) (lookup stored : String → Option String)
    (machine : Machine) : Option Resolved :=
  match fromEnvironment platform which lookup with
  | some text => some ⟨text, .environment⟩
  | none =>
    match fromSetting platform which stored with
    | some text => some ⟨text, .setting⟩
    | none => (defaultFor platform which lookup machine).map fun text ↦ ⟨text, .default⟩

/-- Reads every value of this workstation. -/
def read (platform : Platform) (lookup stored : String → Option String) (machine : Machine) :
    Resolution :=
  let found (which : Value) := resolveOne platform which lookup stored machine
  let now := addresses ((found .apiBase).map Resolved.text) ((found .authBase).map Resolved.text)
    ((found .appBase).map Resolved.text)
  { found := found
    enrollmentCode := trimmed (lookup varEnrollmentCode)
    completed := stored settingCompleted = some yes
    counterpart := compare (stored settingEnrolled = some yes)
      (addresses (stored settingCounterpartApiBase) (stored settingCounterpartAuthBase)
        (stored settingCounterpartAppBase)) now
    counterpartChanged := trimmed (stored settingCounterpartChanged) }

/-- Whether `root` is `inner` or lies above it, component by component. -/
def holdsComponents (same : Component → Component → Bool) :
    List Component → List Component → Bool
  | [], _ => true
  | ours :: root, mine :: inner => same ours mine && holdsComponents same root inner
  | _ :: _, [] => false

/-- Whether two components are the same place; on Windows the case of an ASCII letter does not
count. -/
def sameComponent (platform : Platform) (left right : Component) : Bool :=
  match platform with
  | .windows => asciiLower (left.asOsStr .windows) = asciiLower (right.asOsStr .windows)
  | .unix => left.isSame right

def holds (platform : Platform) (root inner : String) : Bool :=
  holdsComponents (sameComponent platform) (platform.components root) (platform.components inner)

/-- The three paths the installation owns. -/
def ownPaths : List Value := [.dataPath, .staging, .holding]

/-- What a root of the mirror must not be: `entries` is what lies at the path, if it can be read. -/
def checkRoot (platform : Platform) (resolution : Resolution) (entries : Option (List String))
    (root : String) : Except SettingRefused Unit := do
  ownPaths.forM fun which ↦
    match resolution.text which with
    | none => .ok ()
    | some inner =>
      if holds platform root inner then .error (.contains root inner which.variableName)
      else .ok ()
  if resolution.text .mirrorPath = some root then return ()
  else if (entries.getD []).isEmpty then return ()
  else throw (.notEmpty root)

/-- The rules about a root that need the other paths. -/
def checkPlace (platform : Platform) (resolution : Resolution) (entries : Option (List String))
    (root : String) : Except SettingRefused Unit := do
  match resolution.text .staging, resolution.text .holding with
  | some staging, some holding => (checkPaths platform root staging holding).mapError .path
  | _, _ => .ok ()
  checkRoot platform resolution entries root

/-- Stores a value that was typed; `written` is what the database makes of it. -/
def setValue (platform : Platform) (store : Store) (resolution : Resolution) (which : Value)
    (text : String) (entries : Option (List String)) (written : Except StoreError Unit) :
    Except SettingRefused (String × Store) := do
  match which.settingKey with
  | none => throw (.notOffered which.variableName (notOfferedBecause which))
  | some key =>
    if resolution.isFixed which then throw (.fixed which.variableName)
    if which = .deviceName ∧ resolution.counterpart matches .enrolled _ then
      throw (.spent which.variableName ("this device is enrolled under the name the console " ++
        "shows, and a later rename is not carried to the server yet (ADR-D13 §6)"))
    let text := String.ofList (trim text.toList)
    if text = "" then throw (.empty which.variableName which.purpose)
    let checked ← checkAlone platform which text
    if which = .mirrorPath then checkPlace platform resolution entries checked
    written.mapError .store
    let store ← (store.setSetting key checked).mapError .store
    return (checked, store)

end FolderClient.App.Setup
