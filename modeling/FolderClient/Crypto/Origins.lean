import Mathlib
import FolderClient.Library.AsciiCase
import FolderClient.Library.Decimals
import FolderClient.Library.Results
import FolderClient.Net.Connection
import FolderClient.Wire.Ingest

namespace FolderClient.Crypto.Origins

open FolderClient.Library FolderClient.Library.Texts FolderClient.Library.Results
open FolderClient.Library.JsonText (naturalOf)

section Model

/-- Why an address carries no proof. -/
structure UrlError where
  url : String
  reason : String
deriving DecidableEq

def separator : List Char := [':', '/', '/']

/-- The target address without query and fragment. -/
def htu (url : String) : Except UrlError String :=
  let without := url.toList.takeWhile fun c ↦ c ≠ '?' ∧ c ≠ '#'
  match Texts.splitAt separator without with
  | none => .error ⟨url, "scheme and host are missing"⟩
  | some (scheme, rest) =>
    if asciiLower scheme ≠ "https".toList ∧ asciiLower scheme ≠ "http".toList then
      .error ⟨url, "only http and https carry a proof"⟩
    else if rest = [] ∨ rest.head? = some '/' then .error ⟨url, "the host is missing"⟩
    else .ok (String.ofList without)

/-- A whole number of 16 bits; a plus sign may stand before it. -/
def parseU16 (text : List Char) : Option ℕ :=
  let digits := (strip ['+'] text).getD text
  if digits ≠ [] ∧ digits.all Char.isDigit ∧ naturalOf digits < 2 ^ 16 then some (naturalOf digits)
  else none

def defaultPort (scheme : List Char) : Option ℕ :=
  if scheme = "https".toList then some 443
  else if scheme = "http".toList then some 80
  else none

/-- The host in lower case and the port as it is written, where one is. -/
def hostAndPort (url : String) (authority : List Char) :
    Except UrlError (List Char × Option (List Char)) :=
  match strip ['['] authority with
  | some after =>
    match splitOnce ']' (String.ofList after) with
    | none => .error ⟨url, "the IPv6 address is not closed"⟩
    | some (address, tail) =>
      let host := '[' :: (asciiLower address.toList ++ [']'])
      if tail = "" then .ok (host, none)
      else
        match strip [':'] tail.toList with
        | some port => .ok (host, some port)
        | none => .error ⟨url, "no port follows the IPv6 address"⟩
  | none =>
    match rsplitOnce ':' (String.ofList authority) with
    | some (host, port) => .ok (asciiLower host.toList, some port.toList)
    | none => .ok (asciiLower authority, none)

def isDelimiter (c : Char) : Bool := c = '/' || c = '?' || c = '#'

/-- The origin of an address: scheme, host and port, in lower case, the default port written out. -/
def origin (url : String) : Except UrlError String :=
  match Texts.splitAt separator url.toList with
  | none => .error ⟨url, "scheme and host are missing"⟩
  | some (written, rest) =>
    let scheme := asciiLower written
    match defaultPort scheme with
    | none => .error ⟨url, "only http and https have an origin for nonces"⟩
    | some default => do
      let authority := rest.takeWhile (! isDelimiter ·)
      if '@' ∈ authority then throw ⟨url, "credentials do not belong in a URL"⟩
      let (host, port) ← hostAndPort url authority
      if host = [] ∨ host = ['[', ']'] then throw ⟨url, "the host is missing"⟩
      match port with
      | none | some [] =>
        return String.ofList (scheme ++ separator ++ host ++ ':' :: Nat.toDigits 10 default)
      | some text =>
        match parseU16 text with
        | some port =>
          return String.ofList (scheme ++ separator ++ host ++ ':' :: Nat.toDigits 10 port)
        | none => throw ⟨url, "the port is not a number up to 65535"⟩

/-- The nonces last seen, for each origin. -/
structure NonceStore where
  nonces : String → Option String

namespace NonceStore

def new : NonceStore := ⟨fun _ ↦ none⟩

def nonce (store : NonceStore) (url : String) : Except UrlError (Option String) := do
  return store.nonces (← origin url)

def remember (store : NonceStore) (url nonce : String) : Except UrlError NonceStore := do
  let key ← origin url
  let nonce := String.ofList (trim nonce.toList)
  if nonce = "" then return ⟨Function.update store.nonces key none⟩
  else return ⟨Function.update store.nonces key (some nonce)⟩

def forget (store : NonceStore) (url : String) : Except UrlError NonceStore := do
  return ⟨Function.update store.nonces (← origin url) none⟩

end NonceStore

end Model

section Grammar

inductive Scheme
  | https
  | http
deriving DecidableEq

namespace Scheme

def text : Scheme → List Char
  | https => "https".toList
  | http => "http".toList

def port : Scheme → ℕ
  | https => 443
  | http => 80

end Scheme

/-- What an origin consists of. -/
structure Origin where
  scheme : Scheme
  host : List Char
  port : ℕ
deriving DecidableEq

def Origin.text (o : Origin) : String :=
  String.ofList (o.scheme.text ++ separator ++ o.host ++ ':' :: Nat.toDigits 10 o.port)

/-- A host, in brackets or without them, and a port behind it; the case of ASCII letters in the host
does not count. -/
inductive SpellsAuthority : List Char → List Char → Option (List Char) → Prop
  | bracketed (address : List Char) (h : ']' ∉ address) (port : Option (List Char)) :
    SpellsAuthority ('[' :: address ++ ']' :: port.elim [] (':' :: ·))
      ('[' :: (asciiLower address ++ [']'])) port
  | alone (name : List Char) (h : name.head? ≠ some '[') (hn : ':' ∉ name) :
    SpellsAuthority name (asciiLower name) none
  | withPort (name port : List Char) (h : name.head? ≠ some '[') (hp : ':' ∉ port) :
    SpellsAuthority (name ++ ':' :: port) (asciiLower name) (some port)

/-- The port that counts: the one written, or that of the scheme. -/
def Scheme.effective (scheme : Scheme) : Option (List Char) → Option ℕ
  | none | some [] => some scheme.port
  | some text => parseU16 text

/-- An address has an origin. -/
def Names (url : List Char) (o : Origin) : Prop :=
  ∃ written authority tail port, url = written ++ separator ++ (authority ++ tail) ∧
    asciiLower written = o.scheme.text ∧ (∀ c ∈ authority, isDelimiter c = false) ∧
    (∀ c ∈ tail.head?, isDelimiter c = true) ∧ '@' ∉ authority ∧
    SpellsAuthority authority o.host port ∧ o.host ≠ [] ∧ o.host ≠ ['[', ']'] ∧
    o.scheme.effective port = some o.port

theorem defaultPort_eq_some {scheme : List Char} {port : ℕ} :
    defaultPort scheme = some port ↔ ∃ s : Scheme, s.text = scheme ∧ s.port = port := by
  rw [defaultPort]
  constructor
  · intro h
    split at h
    · rename_i heq
      exact ⟨.https, heq.symm, Option.some.inj h⟩
    · split at h
      · rename_i heq
        exact ⟨.http, heq.symm, Option.some.inj h⟩
      · cases h
  · rintro ⟨s, rfl, rfl⟩
    cases s <;> rfl

theorem strip_eq_none {c : Char} {text : List Char} (h : text.head? ≠ some c) :
    strip [c] text = none := by
  by_contra hne
  obtain ⟨rest, hrest⟩ := Option.ne_none_iff_exists'.mp hne
  exact h (by rw [strip_eq_some_iff.mp hrest]; rfl)

theorem takeWhile_authority {authority tail : List Char}
    (ha : ∀ c ∈ authority, isDelimiter c = false) (ht : ∀ c ∈ tail.head?, isDelimiter c = true) :
    (authority ++ tail).takeWhile (! isDelimiter ·) = authority := by
  rw [List.takeWhile_append_of_pos fun c hc ↦ by rw [ha c hc, Bool.not_false]]
  cases tail with
  | nil => rw [List.takeWhile_nil, List.append_nil]
  | cons c tail =>
    have hc : (! isDelimiter c) = false := by rw [ht c rfl, Bool.not_true]
    rw [List.takeWhile_cons_of_neg (by rw [hc]; decide), List.append_nil]

theorem hostAndPort_eq_ok {url : String} {authority host : List Char}
    {port : Option (List Char)} :
    hostAndPort url authority = .ok (host, port) ↔ SpellsAuthority authority host port := by
  constructor
  · intro h
    rw [hostAndPort] at h
    split at h
    · rename_i after hafter
      rw [strip_eq_some_iff.mp hafter]
      split at h
      · cases h
      · rename_i address tail hsplit
        obtain ⟨hnot, htext⟩ := splitOnce_eq_some_iff.mp hsplit
        rw [String.toList_ofList] at htext
        rw [htext]
        dsimp only at h
        split at h
        · rename_i htail
          obtain ⟨rfl, rfl⟩ := Prod.mk.inj (Except.ok.inj h)
          rw [htail]
          exact .bracketed address.toList hnot none
        · split at h
          · rename_i p hp
            obtain ⟨rfl, rfl⟩ := Prod.mk.inj (Except.ok.inj h)
            rw [strip_eq_some_iff.mp hp]
            exact .bracketed address.toList hnot (some p)
          · cases h
    · rename_i hnone
      have hhead : authority.head? ≠ some '[' := fun hhead ↦ by
        obtain ⟨rest, rfl⟩ := List.head?_eq_some_iff.mp hhead
        cases hnone
      split at h
      · rename_i name p hsplit
        obtain ⟨rfl, rfl⟩ := Prod.mk.inj (Except.ok.inj h)
        obtain ⟨hnot, htext⟩ := rsplitOnce_eq_some_iff.mp hsplit
        rw [String.toList_ofList] at htext
        rw [htext] at hhead ⊢
        refine .withPort _ _ (fun hname ↦ hhead ?_) hnot
        rw [List.head?_append, hname, Option.some_or]
      · rename_i hsplit
        obtain ⟨rfl, rfl⟩ := Prod.mk.inj (Except.ok.inj h)
        rw [rsplitOnce_eq_none_iff, String.toList_ofList] at hsplit
        exact .alone _ hhead hsplit
  · intro h
    cases h with
    | bracketed address h port =>
      have hstrip : strip ['['] ('[' :: address ++ ']' :: port.elim [] (':' :: ·)) =
          some (address ++ ']' :: port.elim [] (':' :: ·)) := strip_eq_some_iff.mpr rfl
      have hsplit : splitOnce ']' (String.ofList (address ++ ']' :: port.elim [] (':' :: ·))) =
          some (String.ofList address, String.ofList (port.elim [] (':' :: ·))) := by
        rw [splitOnce_eq_some_iff, String.toList_ofList, String.toList_ofList,
          String.toList_ofList]
        exact ⟨h, rfl⟩
      rw [hostAndPort, hstrip]
      dsimp only
      rw [hsplit]
      dsimp only
      rw [String.toList_ofList]
      cases port with
      | none => rfl
      | some p =>
        have hport : strip [':'] (':' :: p) = some p := strip_eq_some_iff.mpr rfl
        have hne : String.ofList (':' :: p) ≠ "" := fun heq ↦ by
          cases String.ofList_eq_empty_iff.mp heq
        rw [Option.elim_some, if_neg hne, String.toList_ofList, hport]
    | alone _ h hn =>
      have hsplit : rsplitOnce ':' (String.ofList authority) = none := by
        rwa [rsplitOnce_eq_none_iff, String.toList_ofList]
      rw [hostAndPort, strip_eq_none h]
      dsimp only
      rw [hsplit]
    | withPort name port h hp =>
      have hhead : (name ++ ':' :: port).head? ≠ some '[' := by
        rw [List.head?_append]
        cases name with
        | nil => exact fun heq ↦ absurd (Option.some.inj heq) (by decide)
        | cons c name => exact h
      have hsplit : rsplitOnce ':' (String.ofList (name ++ ':' :: port)) =
          some (String.ofList name, String.ofList port) := by
        rw [rsplitOnce_eq_some_iff, String.toList_ofList, String.toList_ofList,
          String.toList_ofList]
        exact ⟨hp, rfl⟩
      rw [hostAndPort, strip_eq_none hhead]
      dsimp only
      rw [hsplit]
      dsimp only
      rw [String.toList_ofList, String.toList_ofList]

theorem effective_some {scheme : Scheme} {text : List Char} (h : text ≠ []) :
    scheme.effective (some text) = parseU16 text := by
  cases text with
  | nil => exact absurd rfl h
  | cons c text => rfl

theorem colon_notMem {written : List Char} {scheme : Scheme}
    (h : asciiLower written = scheme.text) : ':' ∉ written := by
  intro hmem
  have hlower : ':' ∈ scheme.text := by
    rw [← h]
    exact List.mem_map_of_mem hmem
  cases scheme <;> exact absurd hlower (by decide)

theorem splitAt_written {written : List Char} {scheme : Scheme}
    (h : asciiLower written = scheme.text) (rest : List Char) :
    Texts.splitAt separator (written ++ separator ++ rest) = some (written, rest) :=
  splitAt_of_notMem (colon_notMem h) rest

/-- The origin of an address is the one it has. -/
theorem origin_eq_ok {url text : String} :
    origin url = .ok text ↔ ∃ o, Names url.toList o ∧ o.text = text := by
  constructor
  · intro h
    rw [origin] at h
    split at h
    · cases h
    · rename_i written rest hsplit
      dsimp only at h
      split at h
      · cases h
      · rename_i default hdefault
        obtain ⟨scheme, hscheme, rfl⟩ := defaultPort_eq_some.mp hdefault
        rw [ite_throw_eq_ok, bind_eq_ok] at h
        obtain ⟨hat, ⟨host, port⟩, hauthority, h⟩ := h
        dsimp only at h
        rw [ite_throw_eq_ok, not_or] at h
        obtain ⟨hhost, h⟩ := h
        have hurl : url.toList = written ++ separator ++ (rest.takeWhile (! isDelimiter ·) ++
            rest.dropWhile (! isDelimiter ·)) := by
          rw [List.takeWhile_append_dropWhile]
          exact eq_of_splitAt hsplit
        have hinside : ∀ c ∈ rest.takeWhile (! isDelimiter ·), isDelimiter c = false :=
          fun c hc ↦ by simpa using List.mem_takeWhile_imp hc
        have hbehind : ∀ c ∈ (rest.dropWhile (! isDelimiter ·)).head?, isDelimiter c = true :=
          fun c hc ↦ by
            have hnot := List.head?_dropWhile_not (! isDelimiter ·) rest
            rw [Option.mem_def.mp hc] at hnot
            simpa using hnot
        have hspells := hostAndPort_eq_ok.mp hauthority
        have hnames : ∀ p, scheme.effective port = some p → Names url.toList ⟨scheme, host, p⟩ :=
          fun p hp ↦ ⟨written, _, _, port, hurl, hscheme.symm, hinside, hbehind, hat, hspells,
            hhost.1, hhost.2, hp⟩
        rw [← hscheme] at h
        split at h
        · exact ⟨_, hnames _ rfl, Except.ok.inj h⟩
        · exact ⟨_, hnames _ rfl, Except.ok.inj h⟩
        · rename_i p hnonempty
          split at h
          · rename_i n hn
            refine ⟨_, hnames n ?_, Except.ok.inj h⟩
            rw [effective_some hnonempty, hn]
          · cases h
  · rintro ⟨o, ⟨written, authority, tail, port, hurl, hscheme, hinside, hbehind, hat, hspells,
      hempty, hbrackets, hport⟩, rfl⟩
    have hsplit : Texts.splitAt separator url.toList = some (written, authority ++ tail) := by
      rw [hurl, splitAt_written hscheme]
    rw [origin, hsplit]
    dsimp only
    rw [hscheme, defaultPort_eq_some.mpr ⟨o.scheme, rfl, rfl⟩]
    dsimp only
    rw [ite_throw_eq_ok, bind_eq_ok, takeWhile_authority hinside hbehind]
    refine ⟨hat, (o.host, port), hostAndPort_eq_ok.mpr hspells, ?_⟩
    dsimp only
    rw [ite_throw_eq_ok, not_or]
    refine ⟨⟨hempty, hbrackets⟩, ?_⟩
    cases port with
    | none =>
      have hp : o.scheme.port = o.port := Option.some.inj hport
      rw [Origin.text, ← hp]
      rfl
    | some p =>
      cases p with
      | nil =>
        have hp : o.scheme.port = o.port := Option.some.inj hport
        rw [Origin.text, ← hp]
        rfl
      | cons c p =>
        have hparse : parseU16 (c :: p) = some o.port := hport
        dsimp only
        rw [hparse]
        rfl

/-- How an address is written decides whether it has an origin, and which. -/
theorem names_iff {scheme : Scheme} {written authority tail host : List Char}
    {port : Option (List Char)} {o : Origin} (hscheme : asciiLower written = scheme.text)
    (hinside : ∀ c ∈ authority, isDelimiter c = false)
    (hbehind : ∀ c ∈ tail.head?, isDelimiter c = true)
    (hspells : SpellsAuthority authority host port) :
    Names (written ++ separator ++ (authority ++ tail)) o ↔
      '@' ∉ authority ∧ host ≠ [] ∧ host ≠ ['[', ']'] ∧
        ∃ p, scheme.effective port = some p ∧ o = ⟨scheme, host, p⟩ := by
  constructor
  · rintro ⟨written', authority', tail', port', hurl, hscheme', hinside', hbehind', hat, hspells',
      hempty, hbrackets, hport'⟩
    have hsplit := splitAt_written hscheme (authority ++ tail)
    rw [hurl, splitAt_written hscheme'] at hsplit
    obtain ⟨rfl, hrest⟩ := Prod.mk.inj (Option.some.inj hsplit)
    have hsame : authority' = authority := by
      rw [← takeWhile_authority hinside hbehind, ← hrest, takeWhile_authority hinside' hbehind']
    subst hsame
    obtain ⟨rfl, rfl⟩ := Prod.mk.inj (Except.ok.inj ((hostAndPort_eq_ok.mpr hspells).symm.trans
      (@hostAndPort_eq_ok "" _ _ _ |>.mpr hspells')))
    obtain rfl : scheme = o.scheme := by
      have htext : scheme.text = o.scheme.text := hscheme.symm.trans hscheme'
      cases scheme <;> cases hs : o.scheme <;>
        first | rfl | exact absurd (hs ▸ htext) (by decide)
    exact ⟨hat, hempty, hbrackets, o.port, hport', rfl⟩
  · rintro ⟨hat, hempty, hbrackets, p, hport, rfl⟩
    exact ⟨written, authority, tail, port, rfl, hscheme, hinside, hbehind, hat, hspells, hempty,
      hbrackets, hport⟩

/-- An address has one origin. -/
theorem Names.unique {url : List Char} {o o' : Origin} (h : Names url o) (h' : Names url o') :
    o = o' := by
  obtain ⟨written, authority, tail, port, rfl, hscheme, hinside, hbehind, -, hspells, -, -, hport⟩ :=
    h
  obtain ⟨-, -, -, p, hp, rfl⟩ := (names_iff hscheme hinside hbehind hspells).mp h'
  obtain rfl : o.port = p := Option.some.inj (hport.symm.trans hp)
  rfl

end Grammar

section Case

theorem isDelimiter_toLower (c : Char) : isDelimiter c.toLower = isDelimiter c := by
  simp only [isDelimiter, toLower_eq_iff (show '/'.isAlpha = false by decide),
    toLower_eq_iff (show '?'.isAlpha = false by decide),
    toLower_eq_iff (show '#'.isAlpha = false by decide)]

theorem asciiLower_append_inj {x a b : List Char} (h : asciiLower x = asciiLower (a ++ b)) :
    ∃ a' b', x = a' ++ b' ∧ asciiLower a' = asciiLower a ∧ asciiLower b' = asciiLower b := by
  rw [asciiLower, asciiLower, List.map_append] at h
  exact List.map_eq_append_iff.mp h

theorem asciiLower_cons_inj {x a : List Char} {d : Char} (hd : d.isAlpha = false)
    (h : asciiLower x = asciiLower (d :: a)) :
    ∃ a', x = d :: a' ∧ asciiLower a' = asciiLower a := by
  rw [asciiLower, asciiLower, List.map_cons] at h
  obtain ⟨c, a', rfl, hc, ha⟩ := List.map_eq_cons_iff.mp h
  rw [(toLower_eq_iff hd).mpr rfl] at hc
  exact ⟨a', by rw [(toLower_eq_iff hd).mp hc], ha⟩

theorem isDigit_toLower (c : Char) : c.toLower.isDigit = c.isDigit := by
  by_cases hc : c.isUpper = true
  · have hlower : c.toLower.isLower = true := by
      rw [Char.isLower_toLower_eq_isAlpha, Char.isAlpha, hc, Bool.true_or]
    simp only [Char.isLower, Char.isUpper, Char.isDigit, Bool.and_eq_true, decide_eq_true_eq,
      ge_iff_le, UInt32.le_iff_toNat_le] at hlower hc ⊢
    grind
  · rw [Char.toLower_eq_of_not_isUpper hc]

theorem asciiLower_digits {text : List Char} (h : text.all Char.isDigit = true) :
    asciiLower text = text := by
  have hsame : ∀ c ∈ text, c.toLower = id c := fun c hc ↦ by
    refine Char.toLower_eq_of_not_isUpper fun hupper ↦ ?_
    have hdigit := List.all_eq_true.mp h c hc
    simp only [Char.isUpper, Char.isDigit, Bool.and_eq_true, decide_eq_true_eq, ge_iff_le,
      UInt32.le_iff_toNat_le] at hupper hdigit
    grind
  rw [asciiLower, List.map_congr_left hsame, List.map_id]

theorem parseU16_of_lower {x y : List Char} (h : asciiLower y = asciiLower x) :
    parseU16 y = parseU16 x := by
  have hdigits : asciiLower ((strip ['+'] y).getD y) = asciiLower ((strip ['+'] x).getD x) := by
    cases hx : strip ['+'] x with
    | some rest =>
      obtain ⟨rest', rfl, hrest⟩ := asciiLower_cons_inj (by decide)
        (h.trans (congrArg asciiLower (strip_eq_some_iff.mp hx)))
      have hy : strip ['+'] ('+' :: rest') = some rest' := strip_eq_some_iff.mpr rfl
      rw [hy]
      exact hrest
    | none =>
      have hy : strip ['+'] y = none := strip_eq_none fun hhead ↦ by
        have hhead' : x.head? = some '+' := by
          rw [← head_asciiLower (by decide), ← h]
          exact (head_asciiLower (by decide)).mpr hhead
        obtain ⟨rest, rfl⟩ := List.head?_eq_some_iff.mp hhead'
        cases hx
      rw [hy]
      exact h
  rw [parseU16, parseU16]
  generalize (strip ['+'] y).getD y = d, (strip ['+'] x).getD x = e at hdigits
  have hall : d.all Char.isDigit = e.all Char.isDigit := by
    have hmap := congrArg (List.all · Char.isDigit) hdigits
    simpa only [asciiLower, List.all_map, Function.comp_def, isDigit_toLower] using hmap
  cases he : e.all Char.isDigit with
  | true =>
    have hd := hall.trans he
    rw [asciiLower_digits hd, asciiLower_digits he] at hdigits
    rw [hdigits, he]
  | false =>
    rw [hall, he]
    simp

theorem SpellsAuthority.of_lower {x y host : List Char} {port : Option (List Char)}
    (h : SpellsAuthority x host port) (hxy : asciiLower y = asciiLower x) :
    ∃ port', SpellsAuthority y host port' ∧ port'.map asciiLower = port.map asciiLower := by
  cases h with
  | bracketed address h port =>
    rw [List.cons_append] at hxy
    obtain ⟨rest, rfl, hrest⟩ := asciiLower_cons_inj (by decide) hxy
    obtain ⟨a, rest, rfl, ha, hrest⟩ := asciiLower_append_inj hrest
    obtain ⟨p, rfl, hp⟩ := asciiLower_cons_inj (by decide) hrest
    have hnot : ']' ∉ a := by
      rwa [← mem_asciiLower (by decide), ha, mem_asciiLower (by decide)]
    rw [← ha]
    cases port with
    | none =>
      obtain rfl : p = [] := List.map_eq_nil_iff.mp hp
      exact ⟨none, .bracketed a hnot none, rfl⟩
    | some q =>
      obtain ⟨p, rfl, hq⟩ := asciiLower_cons_inj (by decide) hp
      exact ⟨some p, .bracketed a hnot (some p), congrArg some hq⟩
  | alone _ h hn =>
    refine ⟨none, ?_, rfl⟩
    rw [← hxy]
    refine .alone y (fun hhead ↦ h ?_) fun hmem ↦ hn ?_
    · rw [← head_asciiLower (by decide), ← hxy]
      exact (head_asciiLower (by decide)).mpr hhead
    · rwa [← mem_asciiLower (by decide), ← hxy, mem_asciiLower (by decide)]
  | withPort name p h hp =>
    obtain ⟨n, rest, rfl, hname, hrest⟩ := asciiLower_append_inj hxy
    obtain ⟨q, rfl, hq⟩ := asciiLower_cons_inj (by decide) hrest
    refine ⟨some q, ?_, congrArg some hq⟩
    rw [← hname]
    refine .withPort n q (fun hhead ↦ h ?_) fun hmem ↦ hp ?_
    · rw [← head_asciiLower (by decide), ← hname]
      exact (head_asciiLower (by decide)).mpr hhead
    · rwa [← mem_asciiLower (by decide), ← hq, mem_asciiLower (by decide)]

theorem effective_of_lower {scheme : Scheme} {port port' : Option (List Char)}
    (h : port'.map asciiLower = port.map asciiLower) :
    scheme.effective port' = scheme.effective port := by
  cases port with
  | none => rw [Option.map_eq_none_iff.mp h]
  | some q =>
    obtain ⟨q', rfl, hq⟩ := Option.map_eq_some_iff.mp h
    cases q with
    | nil => rw [List.map_eq_nil_iff.mp hq]
    | cons c q =>
      have hne : q' ≠ [] := by
        rintro rfl
        cases hq
      rw [effective_some hne, effective_some (List.cons_ne_nil c q), parseU16_of_lower hq]

/-- The case of ASCII letters does not count. -/
theorem Names.of_lower {x y : List Char} {o : Origin} (h : Names x o)
    (hxy : asciiLower y = asciiLower x) : Names y o := by
  obtain ⟨written, authority, tail, port, rfl, hscheme, hinside, hbehind, hat, hspells, hempty,
    hbrackets, hport⟩ := h
  obtain ⟨front, rest, rfl, hfront, hrest⟩ := asciiLower_append_inj hxy
  obtain ⟨w, sep, rfl, hw, hsep⟩ := asciiLower_append_inj hfront
  obtain ⟨a, t, rfl, ha, ht⟩ := asciiLower_append_inj hrest
  obtain ⟨port', hspells', hport'⟩ := hspells.of_lower ha
  have hseparator : sep = separator := by
    obtain ⟨s₁, rfl, h₁⟩ := asciiLower_cons_inj (by decide) hsep
    obtain ⟨s₂, rfl, h₂⟩ := asciiLower_cons_inj (by decide) h₁
    obtain ⟨s₃, rfl, h₃⟩ := asciiLower_cons_inj (by decide) h₂
    rw [List.map_eq_nil_iff.mp h₃]
    rfl
  rw [hseparator]
  refine ⟨w, a, t, port', rfl, hw.trans hscheme, fun c hc ↦ ?_, fun c hc ↦ ?_, ?_, hspells', hempty,
    hbrackets, ?_⟩
  · have hmem : c.toLower ∈ asciiLower authority := ha ▸ List.mem_map_of_mem hc
    obtain ⟨c', hc', heq⟩ := List.mem_map.mp hmem
    rw [← isDelimiter_toLower, ← heq, isDelimiter_toLower, hinside c' hc']
  · obtain ⟨t, rfl⟩ := List.head?_eq_some_iff.mp (Option.mem_def.mp hc)
    obtain ⟨c', t', rfl, hc', -⟩ := List.map_eq_cons_iff.mp ht.symm
    rw [← isDelimiter_toLower, ← hc', isDelimiter_toLower, hbehind c' rfl]
  · rwa [← mem_asciiLower (by decide), ha, mem_asciiLower (by decide)]
  · rw [effective_of_lower hport', hport]

end Case

section Text

theorem isDigit_not {c : Char} (h : c.isDigit = true) :
    isDelimiter c = false ∧ c ≠ '@' ∧ c ≠ ':' := by
  refine ⟨?_, ?_, ?_⟩
  · rw [← Bool.not_eq_true]
    intro hd
    simp only [isDelimiter, Bool.or_eq_true, decide_eq_true_eq] at hd
    rcases hd with (rfl | rfl) | rfl <;> cases h
  · rintro rfl
    cases h
  · rintro rfl
    cases h

theorem parseU16_toDigits {n : ℕ} (h : n < 2 ^ 16) : parseU16 (Nat.toDigits 10 n) = some n := by
  have hdigits := (Decimals.digits_toDigits n).2
  have hstrip : strip ['+'] (Nat.toDigits 10 n) = none := strip_eq_none fun hhead ↦ by
    obtain ⟨rest, hrest⟩ := List.head?_eq_some_iff.mp hhead
    have hplus := hdigits '+' (hrest ▸ List.mem_cons_self)
    cases hplus
  rw [parseU16, hstrip, Option.getD_none, Decimals.naturalOf_toDigits]
  exact if_pos ⟨(Decimals.digits_toDigits n).1, List.all_eq_true.mpr hdigits, h⟩

theorem parseU16_lt {text : List Char} {n : ℕ} (h : parseU16 text = some n) : n < 2 ^ 16 := by
  rw [parseU16] at h
  split at h
  · rename_i hlt
    rw [← Option.some.inj h]
    exact hlt.2.2
  · cases h

theorem effective_lt {scheme : Scheme} {port : Option (List Char)} {n : ℕ}
    (h : scheme.effective port = some n) : n < 2 ^ 16 := by
  have hdefault : scheme.port < 2 ^ 16 := by cases scheme <;> decide
  cases port with
  | none => exact Option.some.inj h ▸ hdefault
  | some p =>
    cases p with
    | nil => exact Option.some.inj h ▸ hdefault
    | cons c p => exact parseU16_lt h

theorem SpellsAuthority.mem_host {x host : List Char} {port : Option (List Char)}
    (h : SpellsAuthority x host port) : ∀ c ∈ host, ∃ c' ∈ x, c'.toLower = c := by
  intro c hc
  cases h with
  | bracketed address h port =>
    rcases List.mem_cons.mp hc with rfl | hc
    · exact ⟨'[', List.mem_append_left _ List.mem_cons_self, rfl⟩
    · rcases List.mem_append.mp hc with hc | hc
      · obtain ⟨c', hc', rfl⟩ := List.mem_map.mp hc
        exact ⟨c', List.mem_append_left _ (List.mem_cons_of_mem _ hc'), rfl⟩
      · rw [List.mem_singleton.mp hc]
        exact ⟨']', List.mem_append_right _ List.mem_cons_self, rfl⟩
  | alone _ h hn => exact List.mem_map.mp hc
  | withPort name p h hp =>
    obtain ⟨c', hc', rfl⟩ := List.mem_map.mp hc
    exact ⟨c', List.mem_append_left _ hc', rfl⟩

/-- The host in lower case is one, with any port behind it. -/
theorem SpellsAuthority.rewritten {x host p : List Char} {port : Option (List Char)}
    (h : SpellsAuthority x host port) (hp : ':' ∉ p) :
    SpellsAuthority (host ++ ':' :: p) host (some p) := by
  cases h with
  | bracketed address h port =>
    have hnot : ']' ∉ asciiLower address := by rwa [mem_asciiLower (by decide)]
    have hspells := SpellsAuthority.bracketed (asciiLower address) hnot (some p)
    rw [asciiLower_idem] at hspells
    rw [List.cons_append, List.append_assoc]
    exact hspells
  | alone _ h hn =>
    have hspells := SpellsAuthority.withPort (asciiLower x) p
      (fun hhead ↦ h ((head_asciiLower (by decide)).mp hhead)) hp
    rwa [asciiLower_idem] at hspells
  | withPort name q h hq =>
    have hspells := SpellsAuthority.withPort (asciiLower name) p
      (fun hhead ↦ h ((head_asciiLower (by decide)).mp hhead)) hp
    rwa [asciiLower_idem] at hspells

/-- An origin is an address, and its own origin. -/
theorem Names.text {url : List Char} {o : Origin} (h : Names url o) : Names o.text.toList o := by
  obtain ⟨written, authority, tail, port, -, -, hinside, -, hat, hspells, hempty, hbrackets, hport⟩ :=
    h
  have hdigits := (Decimals.digits_toDigits o.port).2
  have hcolon : ':' ∉ Nat.toDigits 10 o.port := fun hmem ↦ (isDigit_not (hdigits _ hmem)).2.2 rfl
  refine ⟨o.scheme.text, o.host ++ ':' :: Nat.toDigits 10 o.port, [],
    some (Nat.toDigits 10 o.port), ?_, ?_, ?_, ?_, ?_, hspells.rewritten hcolon, hempty, hbrackets,
    ?_⟩
  · rw [Origin.text, String.toList_ofList, List.append_nil, List.append_assoc]
  · cases o.scheme <;> decide
  · intro c hc
    rcases List.mem_append.mp hc with hc | hc
    · obtain ⟨c', hc', rfl⟩ := hspells.mem_host c hc
      rw [isDelimiter_toLower, hinside c' hc']
    · rcases List.mem_cons.mp hc with rfl | hc
      · rfl
      · exact (isDigit_not (hdigits c hc)).1
  · intro c hc
    cases hc
  · intro hmem
    rcases List.mem_append.mp hmem with hmem | hmem
    · obtain ⟨c', hc', heq⟩ := hspells.mem_host _ hmem
      exact hat ((toLower_eq_iff (by decide)).mp heq ▸ hc')
    · rcases List.mem_cons.mp hmem with hmem | hmem
      · cases hmem
      · exact (isDigit_not (hdigits _ hmem)).2.1 rfl
  · rw [effective_some (Decimals.digits_toDigits o.port).1, parseU16_toDigits (effective_lt hport)]

end Text

section Below

/-- Behind a base that names a scheme, a delimiter ends the authority. -/
theorem names_append {scheme : Scheme} {written rest more : List Char} {d : Char} {o : Origin}
    (hscheme : asciiLower written = scheme.text) (hd : isDelimiter d = true) :
    Names (written ++ separator ++ rest ++ d :: more) o ↔ Names (written ++ separator ++ rest) o := by
  constructor
  · rintro ⟨w, authority, tail, port, hurl, hw, hinside, hbehind, hnames⟩
    have hsplit := splitAt_written hscheme (rest ++ d :: more)
    rw [← List.append_assoc, hurl] at hsplit
    obtain ⟨rfl, hrest⟩ := Prod.mk.inj (Option.some.inj
      ((splitAt_written (hw.trans rfl) (authority ++ tail)).symm.trans hsplit))
    rcases List.append_eq_append_iff.mp hrest with ⟨x, rfl, htail⟩ | ⟨x, hauthority, hmore⟩
    · refine ⟨w, authority, x, port, rfl, hw, hinside, fun c hc ↦ hbehind c ?_, hnames⟩
      obtain ⟨x, rfl⟩ := List.head?_eq_some_iff.mp (Option.mem_def.mp hc)
      rw [htail]
      rfl
    · cases x with
      | nil =>
        rw [List.append_nil] at hauthority
        refine ⟨w, authority, [], port, ?_, hw, hinside, fun c hc ↦ (by cases hc), hnames⟩
        rw [hauthority, List.append_nil]
      | cons c x =>
        -- the delimiter would stand within the authority
        obtain ⟨rfl, -⟩ := List.cons.inj hmore
        have hmem : d ∈ authority := by
          rw [hauthority]
          exact List.mem_append_right _ List.mem_cons_self
        rw [hinside d hmem] at hd
        cases hd
  · rintro ⟨w, authority, tail, port, hurl, hw, hinside, hbehind, hnames⟩
    refine ⟨w, authority, tail ++ d :: more, port, ?_, hw, hinside, fun c hc ↦ ?_, hnames⟩
    · rw [hurl]
      simp only [List.append_assoc]
    · cases tail with
      | nil =>
        obtain rfl : d = c := Option.some.inj hc
        exact hd
      | cons c' tail => exact hbehind c hc

theorem check_eq_ok {field address base : String} (h : Net.Connection.check field address = .ok base) :
    base.toList = address.toList.rdropWhile (· = '/') ∧
      ∃ (scheme : Scheme) (written rest : List Char), base.toList = written ++ separator ++ rest ∧
        asciiLower written = scheme.text := by
  rw [Net.Connection.check] at h
  dsimp only at h
  split at h
  · cases h
  · rename_i written rest hsplit
    have htext := eq_of_splitAt hsplit
    split at h
    · cases h
    · split at h
      · cases h
      · split at h
        · cases h
        · split at h
          · rename_i hscheme
            rw [← Except.ok.inj h, String.toList_ofList]
            exact ⟨rfl, .https, written, rest, htext, hscheme⟩
          · split at h
            · rename_i hscheme
              split at h
              · rw [← Except.ok.inj h, String.toList_ofList]
                exact ⟨rfl, .http, written, rest, htext, hscheme⟩
              · cases h
            · cases h

/-- What lies below a base that was checked has its origin. -/
theorem origin_of_isBelow {field address base url : String}
    (hcheck : Net.Connection.check field address = .ok base)
    (hbelow : Wire.Ingest.isBelow url base = true) {text : String} :
    origin url = .ok text ↔ origin base = .ok text := by
  obtain ⟨htrimmed, scheme, written, rest, hbase, hscheme⟩ := check_eq_ok hcheck
  rw [Wire.Ingest.isBelow, Bool.and_eq_true] at hbelow
  have hsame : Wire.Ingest.trimSlashes base = base.toList := by
    rw [Wire.Ingest.trimSlashes, htrimmed, List.rdropWhile_idempotent]
  obtain ⟨-, hstrip⟩ := hbelow
  rw [hsame] at hstrip
  obtain ⟨more, htail⟩ : ∃ more, strip base.toList url.toList = some ('/' :: more) := by
    cases htail : strip base.toList url.toList with
    | none =>
      rw [htail] at hstrip
      cases hstrip
    | some tail =>
      rw [htail] at hstrip
      obtain ⟨more, rfl⟩ := List.head?_eq_some_iff.mp (of_decide_eq_true hstrip)
      exact ⟨more, rfl⟩
  rw [origin_eq_ok, origin_eq_ok, strip_eq_some_iff.mp htail, hbase]
  exact exists_congr fun o ↦ and_congr_left fun _ ↦ names_append hscheme rfl

/-- A proof is bound to an address of the same origin. -/
theorem origin_htu {url target text : String} (h : htu url = .ok target) :
    origin target = .ok text ↔ origin url = .ok text := by
  rw [htu] at h
  split at h
  · cases h
  · rename_i written rest hsplit
    rw [ite_error_eq_ok] at h
    obtain ⟨hwritten, h⟩ := h
    rw [ite_error_eq_ok] at h
    obtain ⟨-, h⟩ := h
    obtain rfl := Except.ok.inj h
    obtain ⟨scheme, hscheme⟩ : ∃ scheme : Scheme, asciiLower written = scheme.text := by
      by_contra hnone
      exact hwritten ⟨fun h ↦ hnone ⟨.https, h⟩, fun h ↦ hnone ⟨.http, h⟩⟩
    have htext := eq_of_splitAt hsplit
    rw [origin_eq_ok, origin_eq_ok, String.toList_ofList]
    refine exists_congr fun o ↦ and_congr_left fun _ ↦ ?_
    have hurl := (List.takeWhile_append_dropWhile (p := fun c ↦ decide (c ≠ '?' ∧ c ≠ '#'))
      (l := url.toList)).symm
    cases hrest : url.toList.dropWhile fun c ↦ decide (c ≠ '?' ∧ c ≠ '#') with
    | nil =>
      rw [hrest, List.append_nil] at hurl
      rw [← hurl]
    | cons d more =>
      have hd : isDelimiter d = true := by
        have hnot := List.head?_dropWhile_not (fun c ↦ decide (c ≠ '?' ∧ c ≠ '#')) url.toList
        rw [hrest] at hnot
        have hstops : decide (d ≠ '?' ∧ d ≠ '#') = false := hnot
        have hcases : d = '?' ∨ d = '#' := by
          by_contra hneither
          exact of_decide_eq_false hstops (not_or.mp hneither)
        rcases hcases with rfl | rfl <;> rfl
      rw [hrest, htext] at hurl
      rw [htext, hurl, names_append hscheme hd]

theorem SpellsAuthority.with_port {x host p : List Char} (h : SpellsAuthority x host none)
    (hp : ':' ∉ p) : SpellsAuthority (x ++ ':' :: p) host (some p) := by
  cases h with
  | bracketed address h =>
    rw [List.append_assoc]
    exact .bracketed address h (some p)
  | alone _ h hn => exact .withPort x p h hp

/-- The default port counts the same, written or not. -/
theorem origin_default {scheme : Scheme} {written authority tail host : List Char} {text : String}
    (hscheme : asciiLower written = scheme.text)
    (hinside : ∀ c ∈ authority, isDelimiter c = false)
    (hbehind : ∀ c ∈ tail.head?, isDelimiter c = true)
    (hspells : SpellsAuthority authority host none) :
    origin (String.ofList (written ++ separator ++
        (authority ++ ':' :: Nat.toDigits 10 scheme.port ++ tail))) = .ok text ↔
      origin (String.ofList (written ++ separator ++ (authority ++ tail))) = .ok text := by
  have hdigits := (Decimals.digits_toDigits scheme.port).2
  have hport : scheme.effective (some (Nat.toDigits 10 scheme.port)) = scheme.effective none := by
    cases scheme <;> rfl
  have hinside' : ∀ c ∈ authority ++ ':' :: Nat.toDigits 10 scheme.port, isDelimiter c = false := by
    intro c hc
    rcases List.mem_append.mp hc with hc | hc
    · exact hinside c hc
    · rcases List.mem_cons.mp hc with rfl | hc
      · rfl
      · exact (isDigit_not (hdigits c hc)).1
  have hat : '@' ∉ authority ++ ':' :: Nat.toDigits 10 scheme.port ↔ '@' ∉ authority := by
    have hnot : '@' ∉ ':' :: Nat.toDigits 10 scheme.port := by cases scheme <;> decide
    rw [List.mem_append, not_or, and_iff_left hnot]
  have hcolon : ':' ∉ Nat.toDigits 10 scheme.port := by cases scheme <;> decide
  rw [origin_eq_ok, origin_eq_ok, String.toList_ofList, String.toList_ofList]
  refine exists_congr fun o ↦ and_congr_left fun _ ↦ ?_
  rw [names_iff hscheme hinside hbehind hspells,
    names_iff hscheme hinside' hbehind (hspells.with_port hcolon), hat, hport]

end Below

section Nonces

/-- What is done with the nonces. -/
inductive Operation
  | remember (url nonce : String)
  | forget (url : String)
  | empty

/-- An operation that fails leaves the nonces as they are. -/
def perform (store : NonceStore) : Operation → NonceStore
  | .remember url nonce => (store.remember url nonce).toOption.getD store
  | .forget url => (store.forget url).toOption.getD store
  | .empty => .new

def run (operations : List Operation) : NonceStore := operations.foldl perform .new

/-- An operation about the origin, or about all of them. -/
def Operation.Touches (key : String) : Operation → Prop
  | remember url _ => origin url = .ok key
  | forget url => origin url = .ok key
  | empty => True

theorem perform_of_not_touches {store : NonceStore} {op : Operation} {key : String}
    (h : ¬ op.Touches key) : (perform store op).nonces key = store.nonces key := by
  cases op with
  | remember url nonce =>
    rw [perform, NonceStore.remember]
    cases hkey : origin url with
    | error e => rfl
    | ok k =>
      have hne : key ≠ k := by
        rintro rfl
        exact h hkey
      change ((if _ then _ else _ : Except UrlError NonceStore).toOption.getD store).nonces key = _
      split <;> exact Function.update_of_ne hne _ _
  | forget url =>
    rw [perform, NonceStore.forget]
    cases hkey : origin url with
    | error e => rfl
    | ok k =>
      have hne : key ≠ k := by
        rintro rfl
        exact h hkey
      exact Function.update_of_ne hne _ _
  | empty => exact absurd trivial h

theorem perform_remember {store : NonceStore} {url nonce key : String} (h : origin url = .ok key) :
    (perform store (.remember url nonce)).nonces key =
      if String.ofList (trim nonce.toList) = "" then none
      else some (String.ofList (trim nonce.toList)) := by
  rw [perform, NonceStore.remember, h]
  change ((if _ then _ else _ : Except UrlError NonceStore).toOption.getD store).nonces key = _
  split <;> exact Function.update_self _ _ _

theorem perform_forget {store : NonceStore} {url key : String} (h : origin url = .ok key) :
    (perform store (.forget url)).nonces key = none := by
  rw [perform, NonceStore.forget, h]
  exact Function.update_self _ _ _

/-- A nonce that is at hand was remembered last, for an address of the same origin. -/
theorem nonce_run {operations : List Operation} {url nonce : String}
    (h : (run operations).nonce url = .ok (some nonce)) :
    ∃ before url' raw after key, operations = before ++ .remember url' raw :: after ∧
      origin url' = .ok key ∧ origin url = .ok key ∧ nonce = String.ofList (trim raw.toList) ∧
      nonce ≠ "" ∧ ∀ op ∈ after, ¬ op.Touches key := by
  rw [NonceStore.nonce, bind_eq_ok] at h
  obtain ⟨key, hkey, h⟩ := h
  replace h : (run operations).nonces key = some nonce := Except.ok.inj h
  induction operations using List.reverseRecOn with
  | nil => cases h
  | append_singleton before op ih =>
    rw [run, List.foldl_append, List.foldl_cons, List.foldl_nil] at h
    by_cases htouches : op.Touches key
    · cases op with
      | remember url' raw =>
        rw [perform_remember htouches] at h
        split at h
        · cases h
        · rename_i hne
          rw [← Option.some.inj h]
          exact ⟨before, url', raw, [], key, rfl, htouches, hkey, rfl, hne,
            fun _ h ↦ absurd h List.not_mem_nil⟩
      | forget url' =>
        rw [perform_forget htouches] at h
        cases h
      | empty => cases h
    · rw [perform_of_not_touches htouches] at h
      obtain ⟨first, url', raw, after, k, rfl, hurl', hk, hrest⟩ := ih h
      obtain rfl : key = k := Except.ok.inj (hkey.symm.trans hk)
      refine ⟨first, url', raw, after ++ [op], key, by rw [List.append_assoc]; rfl, hurl', hkey,
        hrest.1, hrest.2.1, ?_⟩
      rw [List.forall_mem_append]
      exact ⟨hrest.2.2, fun op' hop ↦ List.mem_singleton.mp hop ▸ htouches⟩

end Nonces

/-- An origin is its own, and depends on nothing but the scheme, the host and the port that counts;
what lies below a checked base has its origin, and so has what a proof is bound to; a nonce is used
for the origin it was remembered for. -/
theorem origins :
    (∀ url text, origin url = .ok text → origin text = .ok text) ∧
    (∀ url url' : String, asciiLower url.toList = asciiLower url'.toList →
      ∀ text, origin url = .ok text ↔ origin url' = .ok text) ∧
    (∀ (scheme : Scheme) (written authority tail host : List Char),
      asciiLower written = scheme.text → (∀ c ∈ authority, isDelimiter c = false) →
      (∀ c ∈ tail.head?, isDelimiter c = true) → SpellsAuthority authority host none →
      ∀ text, origin (String.ofList (written ++ separator ++
          (authority ++ ':' :: Nat.toDigits 10 scheme.port ++ tail))) = .ok text ↔
        origin (String.ofList (written ++ separator ++ (authority ++ tail))) = .ok text) ∧
    (∀ url, (∃ text, origin url = .ok text) ↔ ∃ o, Names url.toList o) ∧
    (∀ url url' o o', Names url.toList o → Names url'.toList o' →
      (origin url = origin url' ↔ o.scheme = o'.scheme ∧ o.host = o'.host ∧ o.port = o'.port)) ∧
    (∀ field address base url, Net.Connection.check field address = .ok base →
      Wire.Ingest.isBelow url base = true →
      ∀ text, origin url = .ok text ↔ origin base = .ok text) ∧
    (∀ url target, htu url = .ok target →
      ∀ text, origin target = .ok text ↔ origin url = .ok text) ∧
    ∀ operations url nonce, (run operations).nonce url = .ok (some nonce) →
      ∃ before url' raw after key, operations = before ++ .remember url' raw :: after ∧
        origin url' = .ok key ∧ origin url = .ok key ∧ nonce = String.ofList (trim raw.toList) ∧
        nonce ≠ "" ∧ ∀ op ∈ after, ¬ op.Touches key := by
  refine ⟨fun url text h ↦ ?_, fun url url' hsame text ↦ ?_,
    fun _ _ _ _ _ hscheme hinside hbehind hspells _ ↦
      origin_default hscheme hinside hbehind hspells,
    fun url ↦ ?_, fun url url' o o' h h' ↦ ?_,
    fun _ _ _ _ hcheck hbelow _ ↦ origin_of_isBelow hcheck hbelow,
    fun _ _ h _ ↦ origin_htu h, fun _ _ _ ↦ nonce_run⟩
  · obtain ⟨o, ho, rfl⟩ := origin_eq_ok.mp h
    exact origin_eq_ok.mpr ⟨o, ho.text, rfl⟩
  · rw [origin_eq_ok, origin_eq_ok]
    exact exists_congr fun o ↦ and_congr_left fun _ ↦
      ⟨fun h ↦ h.of_lower hsame.symm, fun h ↦ h.of_lower hsame⟩
  · constructor
    · rintro ⟨text, htext⟩
      obtain ⟨o, ho, -⟩ := origin_eq_ok.mp htext
      exact ⟨o, ho⟩
    · rintro ⟨o, ho⟩
      exact ⟨o.text, origin_eq_ok.mpr ⟨o, ho, rfl⟩⟩
  · have hurl := origin_eq_ok.mpr ⟨o, h, rfl⟩
    have hurl' := origin_eq_ok.mpr ⟨o', h', rfl⟩
    rw [hurl, hurl']
    constructor
    · intro heq
      have htext : o.text = o'.text := Except.ok.inj heq
      obtain rfl := h.text.unique (htext ▸ h'.text)
      exact ⟨rfl, rfl, rfl⟩
    · obtain ⟨scheme, host, port⟩ := o
      rintro ⟨rfl, rfl, rfl⟩
      rfl

end FolderClient.Crypto.Origins
