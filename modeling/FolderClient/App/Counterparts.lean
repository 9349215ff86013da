import FolderClient.App.Setup
import FolderClient.Library.AsciiCase
import FolderClient.Library.Results

namespace FolderClient.App.Counterparts

open FolderClient.App.Setup FolderClient.Library.Texts FolderClient.Net.Connection
open FolderClient.Library.Results FolderClient.Storage.Basic

def addressesOf (configuration : EngineConfiguration) : Addresses :=
  ⟨configuration.apiBase, configuration.authBase, configuration.appBase⟩

/-- What the server of a configuration is to the device, as the start asks. -/
def counterpartOf (stored : String → Option String) (configuration : EngineConfiguration) :
    Counterpart :=
  compare (stored settingEnrolled = some yes)
    (addresses (stored settingCounterpartApiBase) (stored settingCounterpartAuthBase)
      (stored settingCounterpartAppBase)) (some (addressesOf configuration))

/-- Remembers the addresses of a configuration as the counterpart of this device. -/
def rememberCounterpart (store : Store) (configuration : EngineConfiguration) :
    Except StoreError Store := do
  let store ← store.setSetting settingCounterpartApiBase configuration.apiBase
  let store ← store.setSetting settingCounterpartAuthBase configuration.authBase
  store.setSetting settingCounterpartAppBase configuration.appBase

section Parts

/-- An address, taken apart. -/
structure Parts where
  scheme : List Char
  authority : List Char
  path : List Char
deriving DecidableEq

namespace Parts

/-- The host, as the check finds it; the port is what follows. -/
def host (parts : Parts) : List Char :=
  match parts.authority.idxOf? ']' with
  | some i => parts.authority.take (i + 1)
  | none => parts.authority.takeWhile (· ≠ ':')

def port (parts : Parts) : List Char := parts.authority.drop parts.host.length

theorem host_append_port (parts : Parts) : parts.host ++ parts.port = parts.authority := by
  have hprefix : parts.host <+: parts.authority := by
    unfold host
    split
    · exact List.take_prefix _ _
    · exact List.takeWhile_prefix _
  rw [port]
  exact (List.prefix_iff_eq_append.mp hprefix)

end Parts

/-- The parts of an address that names a scheme. -/
def partsOf (address : String) : Option Parts :=
  (splitAt "://".toList address.toList).map fun (scheme, rest) ↦
    ⟨scheme, authority rest, rest.dropWhile (· ≠ '/')⟩

theorem splitAddress_of_split {text scheme rest : List Char}
    (h : splitAt "://".toList text = some (scheme, rest)) :
    splitAddress text = (asciiLower (scheme ++ "://".toList ++ authority rest),
      rest.dropWhile (· ≠ '/')) := by
  have htext := eq_of_splitAt h
  have hlength : (scheme ++ "://".toList).length = scheme.length + 3 := List.length_append
  have hdrop : text.drop (scheme.length + 3) = rest := by
    rw [htext, ← hlength]
    exact List.drop_left
  have hrest : authority rest ++ rest.dropWhile (· ≠ '/') = rest := List.takeWhile_append_dropWhile
  have hwhole : text = (scheme ++ "://".toList ++ authority rest) ++ rest.dropWhile (· ≠ '/') := by
    rw [List.append_assoc, hrest]
    exact htext
  have hend : scheme.length + 3 + (authority rest).length =
      (scheme ++ "://".toList ++ authority rest).length := by
    rw [List.length_append, hlength]
  unfold splitAddress
  rw [h]
  dsimp only [Option.map_some, Option.getD_some]
  rw [hdrop]
  change (asciiLower (text.take (scheme.length + 3 + (authority rest).length)),
    text.drop (scheme.length + 3 + (authority rest).length)) = _
  rw [hend, hwhole, List.take_left, List.drop_left]

/-- Two addresses that name a scheme are the same exactly if their paths are and, without regard to
letter case, their schemes and authorities. -/
theorem sameAddress_iff {stored now : String} {p q : Parts} (hp : partsOf stored = some p)
    (hq : partsOf now = some q) : sameAddress stored now = true ↔
      asciiLower p.scheme = asciiLower q.scheme ∧
        asciiLower p.authority = asciiLower q.authority ∧ p.path = q.path := by
  obtain ⟨⟨scheme, rest⟩, hsplit, rfl⟩ := Option.map_eq_some_iff.mp hp
  obtain ⟨⟨scheme', rest'⟩, hsplit', rfl⟩ := Option.map_eq_some_iff.mp hq
  rw [sameAddress, decide_eq_true_eq, splitAddress_of_split hsplit, splitAddress_of_split hsplit',
    Prod.mk.injEq]
  dsimp only
  constructor
  · rintro ⟨hlower, hpath⟩
    have hparts : ∀ {text scheme rest : List Char},
        splitAt "://".toList text = some (scheme, rest) →
        splitAt "://".toList (asciiLower (scheme ++ "://".toList ++ authority rest)) =
          some (asciiLower scheme, asciiLower (authority rest)) := by
      intro text scheme rest h
      rw [splitAt_asciiLower (by simp), splitAt_append h]
      rfl
    have heq := hparts hsplit
    rw [hlower, hparts hsplit'] at heq
    obtain ⟨hscheme, hauthority⟩ := Prod.mk.inj (Option.some.inj heq)
    exact ⟨hscheme.symm, hauthority.symm, hpath⟩
  · rintro ⟨hscheme, hauthority, hpath⟩
    refine ⟨?_, hpath⟩
    unfold asciiLower at hscheme hauthority ⊢
    rw [List.map_append, List.map_append, List.map_append, List.map_append, hscheme, hauthority]

/-- An address the check lets through, whichever channel it came from. -/
def LetThrough (address : String) : Prop := ∃ field typed, check field typed = .ok address

theorem partsOf_of_letThrough {address : String} (h : LetThrough address) :
    ∃ parts, partsOf address = some parts ∧ parts.authority ≠ [] := by
  obtain ⟨field, typed, hcheck⟩ := h
  obtain ⟨rfl, scheme, rest, hbase⟩ := check_eq_ok.mp hcheck
  refine ⟨⟨scheme, authority rest, rest.dropWhile (· ≠ '/')⟩, ?_, ?_⟩
  · have hsplit := congrArg (splitAt "://".toList ·) (@String.toList_ofList
      (typed.toList.rdropWhile (· = '/')))
    exact Option.map_eq_some_iff.mpr ⟨_, hsplit.trans hbase.split, rfl⟩
  · obtain ⟨hne, hslash⟩ := hbase.host
    obtain ⟨c, rest, rfl⟩ := List.exists_cons_of_ne_nil hne
    have hc : decide (c ≠ '/') = true := decide_eq_true fun h ↦ hslash (congrArg some h)
    rw [authority, List.takeWhile_cons, if_pos hc]
    exact List.cons_ne_nil _ _

theorem host_eq {p q : Parts} (h : asciiLower p.authority = asciiLower q.authority) :
    asciiLower p.host = asciiLower q.host := by
  have hlower : ∀ parts : Parts, asciiLower parts.host =
      (Parts.mk parts.scheme (asciiLower parts.authority) parts.path).host := by
    intro parts
    unfold Parts.host
    dsimp only
    rw [idxOf?_asciiLower (by decide)]
    cases parts.authority.idxOf? ']' with
    | some i => exact List.map_take
    | none =>
      unfold asciiLower
      rw [List.takeWhile_map]
      have hcolon : (fun c : Char ↦ decide (c ≠ ':')) ∘ Char.toLower = fun c ↦ decide (c ≠ ':') :=
        funext fun c ↦ decide_eq_decide.mpr (toLower_eq_iff (by decide)).not
      rw [hcolon]
  rw [hlower, hlower, h]
  rfl

/-- Two addresses that are the same have the same path, the same host and the same port. -/
theorem sameAddress_of_same {stored now : String} {p q : Parts} (hp : partsOf stored = some p)
    (hq : partsOf now = some q) (h : sameAddress stored now = true) :
    p.path = q.path ∧ asciiLower p.host = asciiLower q.host ∧
      asciiLower p.port = asciiLower q.port := by
  obtain ⟨-, hauthority, hpath⟩ := (sameAddress_iff hp hq).mp h
  have hhost := host_eq hauthority
  have hwhole : asciiLower p.host ++ asciiLower p.port =
      asciiLower q.host ++ asciiLower q.port := by
    unfold asciiLower
    rw [← List.map_append, ← List.map_append, p.host_append_port, q.host_append_port]
    exact hauthority
  rw [hhost] at hwhole
  exact ⟨hpath, hhost, List.append_cancel_left hwhole⟩

end Parts

section Comparing

/-- What is left of an address without the whitespace at its edges. -/
def cut (address : String) : String := String.ofList (trim address.toList)

/-- A text of the table, where it is not blank. -/
def written (value : Option String) : Option String := value.filter fun text ↦ cut text ≠ ""

/-- The three addresses that stand in the table. -/
def standing (stored : String → Option String) : Option Addresses := do
  return ⟨← written (stored settingCounterpartApiBase),
    ← written (stored settingCounterpartAuthBase), ← written (stored settingCounterpartAppBase)⟩

def cutAll (addresses : Addresses) : Addresses :=
  ⟨cut addresses.apiBase, cut addresses.authBase, cut addresses.appBase⟩

theorem trimmed_eq (value : Option String) : trimmed value = (written value).map cut := by
  cases value with
  | none => rfl
  | some text =>
    change (some (cut text)).filter (fun text ↦ text ≠ "") =
      ((some text).filter fun text ↦ cut text ≠ "").map cut
    rw [Option.filter_some, Option.filter_some]
    split <;> rfl

theorem addresses_eq (stored : String → Option String) :
    addresses (stored settingCounterpartApiBase) (stored settingCounterpartAuthBase)
      (stored settingCounterpartAppBase) = (standing stored).map cutAll := by
  rw [addresses, trimmed_eq, trimmed_eq, trimmed_eq, standing]
  cases written (stored settingCounterpartApiBase) with
  | none => rfl
  | some _ =>
    cases written (stored settingCounterpartAuthBase) with
    | none => rfl
    | some _ => cases written (stored settingCounterpartAppBase) <;> rfl

/-- What is found is a change exactly if the device is enrolled, all three addresses stand in the
table, and one of them is not the same address as the effective one. -/
def Exact (stored : String → Option String) (now : Option Addresses) (found : Counterpart) : Prop :=
  (∃ old, found = .changed old) ↔ stored settingEnrolled = some yes ∧
    ∃ old new, standing stored = some old ∧ now = some new ∧ sameServer old new = false

/-- The whitespace at the edges of the stored addresses makes no difference. -/
def Unpadded (stored : String → Option String) (now : Option Addresses) : Prop :=
  stored settingEnrolled = some yes → ∀ old new, standing stored = some old → now = some new →
    cutAll old = old ∨ sameServer old new = false ∧ sameServer (cutAll old) new = false

theorem compare_eq_changed_iff {enrolled : Bool} {stored now : Option Addresses} :
    (∃ old, Setup.compare enrolled stored now = .changed old) ↔ enrolled = true ∧
      ∃ old new, stored = some old ∧ now = some new ∧ sameServer old new = false := by
  unfold Setup.compare
  constructor
  · rintro ⟨old, h⟩
    split_ifs at h with henrolled
    split at h
    · cases h
    · split at h
      · split_ifs at h with hsame
        exact ⟨henrolled, _, _, rfl, rfl, Bool.eq_false_of_not_eq_true hsame⟩
      · cases h
  · rintro ⟨henrolled, old, new, rfl, rfl, hsame⟩
    rw [if_neg (not_not.mpr henrolled)]
    dsimp only
    rw [if_pos (Bool.eq_false_iff.mp hsame)]
    exact ⟨old, rfl⟩

theorem length_splitAddress (text : List Char) :
    (splitAddress text).1.length + (splitAddress text).2.length = text.length := by
  unfold splitAddress asciiLower
  dsimp only
  rw [List.length_map, ← List.length_append, List.take_append_drop]

/-- An address is no longer the same once whitespace at its edges is cut off. -/
theorem cut_eq_of_same {stored now : String} (h : sameAddress stored now = true)
    (hcut : sameAddress (cut stored) now = true) : cut stored = stored := by
  have hsplit : splitAddress (cut stored).toList = splitAddress stored.toList :=
    (of_decide_eq_true hcut).trans (of_decide_eq_true h).symm
  have hlength : (cut stored).toList.length = stored.toList.length := by
    have hstored := length_splitAddress stored.toList
    rw [← hsplit, length_splitAddress] at hstored
    exact hstored
  have hpart : (cut stored).toList <:+: stored.toList := by
    rw [cut, String.toList_ofList]
    exact (List.rdropWhile_prefix _ _).isInfix.trans (List.dropWhile_suffix _).isInfix
  rw [← String.toList_inj]
  exact hpart.eq_of_length hlength

theorem sameServer_iff {stored now : Addresses} : sameServer stored now = true ↔
    sameAddress stored.apiBase now.apiBase = true ∧
      sameAddress stored.authBase now.authBase = true ∧
        sameAddress stored.appBase now.appBase = true := by
  rw [sameServer, Bool.and_eq_true, Bool.and_eq_true, and_assoc]

theorem cutAll_eq_of_same {stored now : Addresses} (h : sameServer stored now = true)
    (hcut : sameServer (cutAll stored) now = true) : cutAll stored = stored := by
  obtain ⟨hapi, hauth, happ⟩ := sameServer_iff.mp h
  obtain ⟨hapi', hauth', happ'⟩ := sameServer_iff.mp hcut
  rw [cutAll, cut_eq_of_same hapi hapi', cut_eq_of_same hauth hauth', cut_eq_of_same happ happ']

/-- The comparison is exact as long as the whitespace at the edges of what is stored makes no
difference. -/
theorem exact_iff {stored : String → Option String} {now : Option Addresses} :
    Exact stored now (Setup.compare (stored settingEnrolled = some yes)
      (addresses (stored settingCounterpartApiBase) (stored settingCounterpartAuthBase)
        (stored settingCounterpartAppBase)) now) ↔ Unpadded stored now := by
  rw [Exact, compare_eq_changed_iff, addresses_eq, decide_eq_true_eq]
  constructor
  · intro hexact henrolled old new hstanding hnow
    have hiff : sameServer (cutAll old) new = false ↔ sameServer old new = false := by
      constructor
      · intro h
        have hmap : (standing stored).map cutAll = some (cutAll old) := by
          rw [hstanding]
          rfl
        obtain ⟨-, o, n, ho, hn, hsame⟩ := hexact.mp ⟨henrolled, _, _, hmap, hnow, h⟩
        cases hstanding.symm.trans ho
        cases hnow.symm.trans hn
        exact hsame
      · intro h
        obtain ⟨-, o, n, ho, hn, hsame⟩ := hexact.mpr ⟨henrolled, _, _, hstanding, hnow, h⟩
        rw [hstanding] at ho
        cases ho
        cases hnow.symm.trans hn
        exact hsame
    by_cases hcut : cutAll old = old
    · exact .inl hcut
    · cases hsame : sameServer old new with
      | false => exact .inr ⟨rfl, hiff.mpr hsame⟩
      | true =>
        cases hsame' : sameServer (cutAll old) new with
        | true => exact absurd (cutAll_eq_of_same hsame hsame') hcut
        | false => exact absurd ((hiff.mp hsame').symm.trans hsame) Bool.false_ne_true
  · intro hunpadded
    constructor
    · rintro ⟨henrolled, o, new, ho, hnow, hsame⟩
      obtain ⟨old, hstanding, rfl⟩ := Option.map_eq_some_iff.mp ho
      refine ⟨henrolled, old, new, hstanding, hnow, ?_⟩
      rcases hunpadded henrolled old new hstanding hnow with hcut | ⟨hother, -⟩
      · exact hcut ▸ hsame
      · exact hother
    · rintro ⟨henrolled, old, new, hstanding, hnow, hsame⟩
      refine ⟨henrolled, cutAll old, new, by rw [hstanding]; rfl, hnow, ?_⟩
      rcases hunpadded henrolled old new hstanding hnow with hcut | ⟨-, hother⟩
      · exact hcut.symm ▸ hsame
      · exact hother

/-- The addresses a resolution found, if it found all three. -/
def effective (resolution : Resolution) : Option Addresses :=
  addresses (resolution.text .apiBase) (resolution.text .authBase) (resolution.text .appBase)

end Comparing

/-- Two addresses the checks let through are the same exactly if they differ in nothing but the
letter case of scheme and authority; and the counterpart is found changed exactly where an address
is not the same, unless the whitespace at the edges of what is stored makes a difference. -/
theorem comparison (stored : String → Option String) :
    (Equivalence fun a b : {address // LetThrough address} ↦ sameAddress a.1 b.1 = true) ∧
    (∀ old now, LetThrough old → LetThrough now → ∃ p q, partsOf old = some p ∧
      partsOf now = some q ∧
      (asciiLower p.scheme = asciiLower q.scheme → asciiLower p.authority = asciiLower q.authority →
        p.path = q.path → sameAddress old now = true) ∧
      (p.path ≠ q.path ∨ asciiLower p.host ≠ asciiLower q.host ∨
        asciiLower p.port ≠ asciiLower q.port → sameAddress old now = false)) ∧
    (∀ configuration, Exact stored (some (addressesOf configuration))
      (counterpartOf stored configuration) ↔ Unpadded stored (some (addressesOf configuration))) ∧
    ∀ platform lookup machine, Exact stored (effective (read platform lookup stored machine))
      (read platform lookup stored machine).counterpart ↔
        Unpadded stored (effective (read platform lookup stored machine)) := by
  refine ⟨⟨fun _ ↦ decide_eq_true rfl, fun h ↦ ?_, fun h h' ↦ ?_⟩, fun old now hs hn ↦ ?_,
    fun _ ↦ exact_iff, fun _ _ _ ↦ exact_iff⟩
  · exact decide_eq_true (of_decide_eq_true h).symm
  · exact decide_eq_true ((of_decide_eq_true h).trans (of_decide_eq_true h'))
  · obtain ⟨p, hp, -⟩ := partsOf_of_letThrough hs
    obtain ⟨q, hq, -⟩ := partsOf_of_letThrough hn
    refine ⟨p, q, hp, hq, ?_, ?_⟩
    · exact fun hscheme hauthority hpath ↦ (sameAddress_iff hp hq).mpr ⟨hscheme, hauthority, hpath⟩
    · intro hdiffer
      refine Bool.eq_false_of_not_eq_true fun hsame ↦ ?_
      obtain ⟨hpath, hhost, hport⟩ := sameAddress_of_same hp hq hsame
      rcases hdiffer with h | h | h
      · exact h hpath
      · exact h hhost
      · exact h hport

section Samples

/-- Two ways to write one server. -/
theorem comparison_cased :
    sameAddress "HTTPS://API.acme:8443/x" "https://api.Acme:8443/x" = true := by
  have hupper : LetThrough "HTTPS://API.acme:8443/x" :=
    ⟨"API base", "HTTPS://API.acme:8443/x/", ok_of_toOption (by decide +kernel)⟩
  have hlower : LetThrough "https://api.Acme:8443/x" :=
    ⟨"API base", "https://api.Acme:8443/x", ok_of_toOption (by decide +kernel)⟩
  obtain ⟨p, q, hp, hq, hsame, -⟩ := (comparison fun _ ↦ none).2.1 _ _ hupper hlower
  have hp' : partsOf "HTTPS://API.acme:8443/x" =
      some ⟨"HTTPS".toList, "API.acme:8443".toList, "/x".toList⟩ := by
    decide +kernel
  have hq' : partsOf "https://api.Acme:8443/x" =
      some ⟨"https".toList, "api.Acme:8443".toList, "/x".toList⟩ := by
    decide +kernel
  obtain rfl := Option.some.inj (hp.symm.trans hp')
  obtain rfl := Option.some.inj (hq.symm.trans hq')
  exact hsame (by decide +kernel) (by decide +kernel) rfl

/-- A configuration whose address ends in a blank behind a slash, as the check leaves it. -/
def padded : EngineConfiguration where
  apiBase := "https://api.example/ "
  authBase := "https://auth.example"
  appBase := "https://app.example"
  dataPath := "C:\\edms\\data\\state.sqlite"
  staging := "C:\\edms\\staging"
  mirrorPath := "C:\\mirror"
  holding := "C:\\edms\\holding"
  deviceName := "Buchhaltung EG"
  enrollmentCode := none
  language := .de

theorem settingOf_rememberCounterpart {s s' : Store} {configuration : EngineConfiguration}
    (h : rememberCounterpart s configuration = .ok s') (key : String) : s'.settingOf key =
      if key = settingCounterpartAppBase then some configuration.appBase
      else if key = settingCounterpartAuthBase then some configuration.authBase
      else if key = settingCounterpartApiBase then some configuration.apiBase
      else s.settingOf key := by
  obtain ⟨s₁, hapi, h⟩ := bind_eq_ok.mp h
  obtain ⟨s₂, hauth, happ⟩ := bind_eq_ok.mp h
  rw [Store.settingOf_setSetting happ, Store.settingOf_setSetting hauth,
    Store.settingOf_setSetting hapi]

/-- The next start of an enrolled device that nobody pointed anywhere finds another server. -/
theorem false_alarm : ¬ ∀ (stored : String → Option String) (configuration : EngineConfiguration),
    (∀ old, standing stored = some old → LetThrough old.apiBase ∧ LetThrough old.authBase ∧
      LetThrough old.appBase) →
    LetThrough configuration.apiBase → LetThrough configuration.authBase →
    LetThrough configuration.appBase →
      Exact stored (some (addressesOf configuration)) (counterpartOf stored configuration) := by
  intro h
  obtain ⟨s, hs⟩ : ∃ s, (Store.setUp 0 100).setSetting settingEnrolled yes = .ok s := ⟨_, rfl⟩
  obtain ⟨s', hs'⟩ : ∃ s', rememberCounterpart s padded = .ok s' := ⟨_, rfl⟩
  have hsetting := settingOf_rememberCounterpart hs'
  have hapi : s'.settingOf settingCounterpartApiBase = some padded.apiBase := hsetting _
  have hauth : s'.settingOf settingCounterpartAuthBase = some padded.authBase := hsetting _
  have happ : s'.settingOf settingCounterpartAppBase = some padded.appBase := hsetting _
  have henrolled : s'.settingOf settingEnrolled = some yes :=
    (hsetting _).trans (Store.settingOf_setSetting hs)
  have hstanding : standing s'.settingOf = some (addressesOf padded) := by
    rw [standing, hapi, hauth, happ]
    decide +kernel
  have hletApi : LetThrough padded.apiBase :=
    ⟨"API base", "https://api.example/ /", ok_of_toOption (by decide +kernel)⟩
  have hletAuth : LetThrough padded.authBase :=
    ⟨"sign-in base", "https://auth.example", ok_of_toOption (by decide +kernel)⟩
  have hletApp : LetThrough padded.appBase :=
    ⟨"web interface base", "https://app.example", ok_of_toOption (by decide +kernel)⟩
  have hexact := h s'.settingOf padded
    (fun old hold ↦ by cases hstanding.symm.trans hold; exact ⟨hletApi, hletAuth, hletApp⟩)
    hletApi hletAuth hletApp
  have hunpadded := exact_iff.mp hexact henrolled _ _ hstanding rfl
  revert hunpadded
  decide +kernel

end Samples

end FolderClient.App.Counterparts
