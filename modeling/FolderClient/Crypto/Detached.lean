import FolderClient.Crypto.Canonical
import FolderClient.Library.Base64Url

namespace FolderClient.Crypto.Detached

open FolderClient.Library FolderClient.Library.Json FolderClient.Library.Results
open FolderClient.Library.Texts (utf8 utf8_injective fromUtf8 fromUtf8_utf8 split split_append_cons
  split_of_notMem)
open FolderClient.Library.JsonText (Tree SpellsText)
open FolderClient.Crypto.Jws FolderClient.Crypto.Jcs FolderClient.Crypto.JcsNumbers
open FolderClient.Crypto.Canonical

section Model

variable (d : Deserializer) (curve : Primitives)

/-- Texts as the modules beside this one read and write them; what is left to the curve stays. -/
def procedure : Primitives :=
  { curve with
    b64u := Base64Url.encode
    fromB64u := Base64Url.decode
    readJson := fun bytes ↦
      match fromUtf8 bytes with
      | some text => Jcs.read d text
      | none => .error (.jwsUnreadable "the header is not UTF-8")
    canonicalize := fun v ↦ (Jcs.canonicalize v).map utf8 }

/-- A signature has 64 bytes. -/
structure SigningKey where
  publicKey : PublicKey
  sign : List UInt8 → Except CryptoError {raw : List UInt8 // raw.length = 64}

def headerText (typ kid : String) : String :=
  "\x7b\"alg\":\"" ++ alg ++ "\",\"typ\":" ++ String.ofList (Jcs.quoted typ) ++ ",\"kid\":" ++
    String.ofList (Jcs.quoted kid) ++ "\x7d"

def signatureInput (headerB64 : String) (signedBytes : List UInt8) : List UInt8 :=
  utf8 (headerB64 ++ "." ++ Base64Url.encode signedBytes)

def signDetached (signedBytes : List UInt8) (typ kid : String) (key : SigningKey) :
    Except CryptoError String := do
  let headerB64 := Base64Url.encode (utf8 (headerText typ kid))
  let signature ← key.sign (signatureInput headerB64 signedBytes)
  return headerB64 ++ ".." ++ Base64Url.encode signature.val

/-- The carrier with the signature in its place. -/
def attach (carrier : Members) (compact : String) : Members :=
  carrier.remove fieldSignature ++ [(fieldSignature, .string compact)]

def checkDetached (carrier : Value) (expectedType : String) (keys : List (String × PublicKey)) :
    Except CryptoError ProtectedHeader := do
  let signature ← signatureOfTheCarrier (procedure d curve) carrier
  if signature.header.typ ≠ expectedType then
    throw (.wrongTyp expectedType signature.header.typ)
  match keys.lookup signature.header.kid with
  | none => throw (.unknownKid signature.header.kid)
  | some key =>
    let bytes ← signedBytes (procedure d curve) carrier
    signature.check (procedure d curve) expectedType bytes key
    return signature.header

end Model

section Header

variable {d : Deserializer} {curve : Primitives}

def headerTree (typ kid : String) : Tree :=
  .object [("alg", .string alg), ("typ", .string typ), ("kid", .string kid)]

def headerMembersOf (typ kid : String) : Members :=
  [("alg", .string alg), ("typ", .string typ), ("kid", .string kid)]

theorem spellsText_header (typ kid : String) :
    SpellsText (headerTree typ kid) (headerText typ kid) := by
  refine ⟨[], _, [], JsonText.blank_nil, JsonText.blank_nil,
    ⟨_, spellsMembers_separated (fun q hq ↦ ?_) true, rfl⟩, ?_⟩
  · simp only [List.mem_cons, List.not_mem_nil, or_false] at hq
    rcases hq with rfl | rfl | rfl
    · exact spellsString_quoted alg
    · exact spellsString_quoted typ
    · exact spellsString_quoted kid
  · rw [headerText]
    simp [separated, memberText, spell, Jcs.quoted, escaped, alg]

theorem read_header (typ kid : String) :
    Jcs.read d (headerText typ kid) = .ok (.object (headerMembersOf typ kid)) := by
  have hreads := d.reads (spellsText_header typ kid)
  rw [if_pos (by rfl)] at hreads
  rw [Jcs.read, ok_of_toOption hreads]
  rfl

theorem split_compact {a b : String} (ha : '.' ∉ a.toList) (hb : '.' ∉ b.toList) :
    split '.' (a ++ ".." ++ b) = [a, "", b] := by
  have hform : a ++ ".." ++ b =
      String.ofList (a.toList ++ '.' :: ("".toList ++ '.' :: b.toList)) := by
    rw [← String.toList_inj]
    simp
  have hempty : '.' ∉ "".toList := List.not_mem_nil
  rw [hform, split_append_cons ha, split_append_cons hempty, String.ofList_toList,
    split_of_notMem hb]

theorem fromB64u_procedure : (procedure d curve).fromB64u = Base64Url.decode := rfl

theorem readJson_utf8 (text : String) :
    (procedure d curve).readJson (utf8 text) = Jcs.read d text := by
  change (match fromUtf8 (utf8 text) with | some t => Jcs.read d t | none => _) = _
  rw [fromUtf8_utf8]

theorem objectFromB64u_eq_ok {prims : Primitives} {text field : String} {m : Members} :
    objectFromB64u prims text field = .ok m ↔
      ∃ bytes, prims.fromB64u text = some bytes ∧ prims.readJson bytes = .ok (.object m) := by
  rw [objectFromB64u, fromB64u]
  cases prims.fromB64u text with
  | none =>
    constructor
    · intro h
      cases h
    · rintro ⟨_, h, -⟩
      cases h
  | some bytes =>
    change ((prims.readJson bytes >>= _) = _) ↔ _
    rw [bind_eq_ok]
    constructor
    · rintro ⟨v, hv, h⟩
      split at h
      · exact ⟨bytes, rfl, by rw [hv, Except.ok.inj h]⟩
      · cases h
    · rintro ⟨_, ⟨⟩, hv⟩
      exact ⟨_, hv, rfl⟩

theorem objectFromB64u_header (typ kid : String) :
    objectFromB64u (procedure d curve) (Base64Url.encode (utf8 (headerText typ kid))) "header" =
      .ok (headerMembersOf typ kid) := by
  refine objectFromB64u_eq_ok.mpr ⟨utf8 (headerText typ kid), ?_, ?_⟩
  · rw [fromB64u_procedure, Base64Url.decode_encode]
  · rw [readJson_utf8, read_header]

theorem signatureFromB64u_encode {raw : List UInt8} (h : raw.length = 64) :
    signatureFromB64u (procedure d curve) (Base64Url.encode raw) = .ok raw := by
  rw [signatureFromB64u, fromB64u, fromB64u_procedure, Base64Url.decode_encode]
  change (if raw.length ≠ 64 then _ else _) = _
  rw [if_neg (not_not.mpr h)]
  rfl

/-- What was signed is read as the signature it is. -/
theorem read_compact (typ kid : String) {raw : List UInt8} (h : raw.length = 64) :
    DetachedSignature.read (procedure d curve)
        (Base64Url.encode (utf8 (headerText typ kid)) ++ ".." ++ Base64Url.encode raw) =
      .ok ⟨Base64Url.encode (utf8 (headerText typ kid)), ⟨alg, typ, kid⟩, raw⟩ := by
  rw [DetachedSignature.read, split_compact (Base64Url.dot_notMem _) (Base64Url.dot_notMem _)]
  dsimp only
  rw [objectFromB64u_header, signatureFromB64u_encode h]
  rfl

theorem signDetached_eq_ok {bytes : List UInt8} {typ kid compact : String} {key : SigningKey}
    (h : signDetached bytes typ kid key = .ok compact) :
    ∃ raw, key.sign (signatureInput (Base64Url.encode (utf8 (headerText typ kid))) bytes) = .ok raw ∧
      compact = Base64Url.encode (utf8 (headerText typ kid)) ++ ".." ++ Base64Url.encode raw.val := by
  rw [signDetached, bind_eq_ok] at h
  obtain ⟨raw, hraw, h⟩ := h
  exact ⟨raw, hraw, (Except.ok.inj h).symm⟩

end Header

section Shape

variable {d : Deserializer} {curve prims : Primitives}

theorem read_eq_ok {compact : String} {s : DetachedSignature}
    (h : DetachedSignature.read prims compact = .ok s) :
    ∃ m, objectFromB64u prims s.headerB64 "header" = .ok m ∧ (∀ q ∈ m, q.1 ∈ headerMembers) ∧
      s.header.alg = alg ∧ (m.lookup "alg").bind Value.asStr = some alg ∧
      (m.lookup "typ").bind Value.asStr = some s.header.typ ∧
      (m.lookup "kid").bind Value.asStr = some s.header.kid := by
  rw [DetachedSignature.read] at h
  split at h
  · rw [ite_throw_eq_ok, bind_eq_ok] at h
    obtain ⟨-, m, hm, h⟩ := h
    split at h
    · cases h
    · rename_i hforeign
      dsimp only at h
      rw [ite_throw_eq_ok, not_not] at h
      obtain ⟨halg, h⟩ := h
      split at h
      · rename_i typ kid htyp hkid
        rw [bind_eq_ok] at h
        obtain ⟨raw, -, h⟩ := h
        obtain rfl := Except.ok.inj h
        refine ⟨m, hm, fun q hq ↦ ?_, halg, ?_, htyp, hkid⟩
        · by_contra hnot
          have hsome : (m.find? fun q ↦ decide (q.1 ∉ headerMembers)).isSome = true :=
            List.find?_isSome.mpr ⟨q, hq, decide_eq_true hnot⟩
          obtain ⟨q', hq'⟩ := Option.isSome_iff_exists.mp hsome
          exact hforeign q'.1 q'.2 hq'
        · cases hread : (m.lookup "alg").bind Value.asStr with
          | some t =>
            rw [hread, Option.getD_some] at halg
            rw [halg]
          | none =>
            rw [hread, Option.getD_none] at halg
            exact absurd halg (by decide)
      · cases h
  · cases h

theorem lookup_eq_some_iff_mem {m : Members} (h : (m.map Prod.fst).Nodup) {name : String}
    {v : Value} : m.lookup name = some v ↔ (name, v) ∈ m := by
  rw [List.lookup_eq_some_iff]
  constructor
  · rintro ⟨before, after, rfl, -⟩
    exact List.mem_append_right _ List.mem_cons_self
  · intro hmem
    obtain ⟨before, after, rfl⟩ := List.append_of_mem hmem
    rw [List.map_append, List.map_cons] at h
    refine ⟨before, after, rfl, fun q hq ↦ bne_iff_ne.mpr fun hname ↦ ?_⟩
    have hq' : q.1 ∈ before.map Prod.fst := List.mem_map_of_mem hq
    exact (List.nodup_append.mp h).2.2 _ hq' _ List.mem_cons_self hname.symm

theorem string_of_bind {m : Members} {name text : String}
    (h : (m.lookup name).bind Value.asStr = some text) :
    m.lookup name = some (.string text) := by
  obtain ⟨v, hv, htext⟩ := Option.bind_eq_some_iff.mp h
  cases v <;> cases htext
  exact hv

theorem strictValue_eq_string {t : Tree} {text : String} (h : strictValue t = .ok (.string text)) :
    t = .string text := by
  cases t with
  | null => cases h
  | bool b => cases h
  | number n =>
    rw [strictValue_number] at h
    split at h <;> cases h
  | string s => exact congrArg Tree.string (Value.string.inj (Except.ok.inj h))
  | array ts =>
    rw [strictValue_array, map_eq_ok] at h
    obtain ⟨_, -, h⟩ := h
    cases h
  | object ms =>
    rw [strictValue_object, map_eq_ok] at h
    obtain ⟨_, -, h⟩ := h
    cases h

theorem member_of_strict {q : String × Tree} {name text : String}
    (h : q.1 = name ∧ strictValue q.2 = .ok (.string text)) : q = (name, .string text) :=
  Prod.ext h.1 (strictValue_eq_string h.2)

theorem strictValue_eq_object {t : Tree} {m : Members} (h : strictValue t = .ok (.object m)) :
    ∃ ms, t = .object ms ∧ strictMembers [] ms = .ok m := by
  cases t with
  | null => cases h
  | bool b => cases h
  | number n =>
    rw [strictValue_number] at h
    split at h <;> cases h
  | string s => cases h
  | array ts =>
    rw [strictValue_array, map_eq_ok] at h
    obtain ⟨_, -, h⟩ := h
    cases h
  | object ms =>
    rw [strictValue_object, map_eq_ok] at h
    obtain ⟨_, hm, h⟩ := h
    cases h
    exact ⟨ms, rfl, hm⟩

/-- Three members with the names of a header, each once, are the header's. -/
theorem perm_headerMembers {m : Members} {typ kid : String} (hnodup : (m.map Prod.fst).Nodup)
    (hnames : ∀ q ∈ m, q.1 ∈ headerMembers) (halg : m.lookup "alg" = some (.string alg))
    (htyp : m.lookup "typ" = some (.string typ)) (hkid : m.lookup "kid" = some (.string kid)) :
    m.Perm (headerMembersOf typ kid) := by
  have hheader : ((headerMembersOf typ kid).map Prod.fst).Nodup := by
    change headerMembers.Nodup
    decide
  refine (List.perm_ext_iff_of_nodup (.of_map _ hnodup) (.of_map _ hheader)).mpr fun q ↦ ?_
  obtain ⟨name, v⟩ := q
  rw [← lookup_eq_some_iff_mem hnodup]
  constructor
  · intro h
    have hname := hnames _ ((lookup_eq_some_iff_mem hnodup).mp h)
    simp only [headerMembers, List.mem_cons, List.not_mem_nil, or_false] at hname
    rw [headerMembersOf]
    rcases hname with rfl | rfl | rfl
    · rw [← Option.some.inj (halg.symm.trans h)]
      exact List.mem_cons_self
    · rw [← Option.some.inj (htyp.symm.trans h)]
      exact List.mem_cons_of_mem _ List.mem_cons_self
    · rw [← Option.some.inj (hkid.symm.trans h)]
      exact List.mem_cons_of_mem _ (List.mem_cons_of_mem _ List.mem_cons_self)
  · intro h
    simp only [headerMembersOf, List.mem_cons, List.not_mem_nil, or_false, Prod.mk.injEq] at h
    rcases h with ⟨rfl, rfl⟩ | ⟨rfl, rfl⟩ | ⟨rfl, rfl⟩
    · exact halg
    · exact htyp
    · exact hkid

/-- A header that is read has the three members, each once, and no further one. -/
theorem header_shape {compact text : String} {s : DetachedSignature} {t : Tree}
    (h : DetachedSignature.read (procedure d curve) compact = .ok s)
    (hbytes : Base64Url.decode s.headerB64 = some (utf8 text)) (ht : SpellsText t text) :
    ∃ ms, t = .object ms ∧
      ms.Perm [("alg", .string alg), ("typ", .string s.header.typ), ("kid", .string s.header.kid)] := by
  obtain ⟨m, hm, hnames, -, halg, htyp, hkid⟩ := read_eq_ok h
  obtain ⟨bytes, hdecode, hjson⟩ := objectFromB64u_eq_ok.mp hm
  rw [fromB64u_procedure, hbytes] at hdecode
  obtain rfl := Option.some.inj hdecode
  rw [readJson_utf8, Jcs.read] at hjson
  split at hjson
  · rename_i t' ht'
    have hreads := d.reads ht
    rw [ht'] at hreads
    split at hreads
    case isFalse => cases hreads
    obtain rfl : t' = t := Option.some.inj hreads
    obtain ⟨ms, rfl, hms⟩ := strictValue_eq_object hjson
    obtain ⟨hmap, hnodup, -, hall⟩ := strictMembers_spec hms
    rw [← hmap] at hnodup
    have hperm := perm_headerMembers hnodup hnames (string_of_bind halg) (string_of_bind htyp)
      (string_of_bind hkid)
    obtain ⟨k, hk, hkms⟩ := List.perm_comp_forall₂ hperm.symm hall.flip
    refine ⟨ms, rfl, ?_⟩
    cases hk with
    | cons hfirst hk => cases hk with
      | cons hsecond hk => cases hk with
        | cons hthird hk =>
          cases hk
          rw [member_of_strict hfirst, member_of_strict hsecond, member_of_strict hthird] at hkms
          exact hkms.symm
  · cases hjson

end Shape

section Check

variable {d : Deserializer} {curve : Primitives}

theorem signatureOfTheCarrier_eq_ok {m : Members} {s : DetachedSignature} :
    signatureOfTheCarrier (procedure d curve) (.object m) = .ok s ↔
      ∃ compact, m.lookup fieldSignature = some (.string compact) ∧
        DetachedSignature.read (procedure d curve) compact = .ok s := by
  rw [signatureOfTheCarrier]
  change (match (m.lookup fieldSignature).bind Value.asStr with | some _ => _ | none => _) = _ ↔ _
  cases m.lookup fieldSignature with
  | none => simp
  | some v => cases v <;> simp [Value.asStr]

theorem signedBytes_eq_ok {m : Members} {bytes : List UInt8} :
    signedBytes (procedure d curve) (.object m) = .ok bytes ↔
      ∃ text, Jcs.canonicalize (.object (m.remove fieldSignature)) = .ok text ∧ utf8 text = bytes :=
  map_eq_ok

theorem checkDetached_eq_ok {carrier : Value} {expected : String}
    {keys : List (String × PublicKey)} {header : ProtectedHeader} :
    checkDetached d curve carrier expected keys = .ok header ↔
      ∃ s key bytes, signatureOfTheCarrier (procedure d curve) carrier = .ok s ∧
        s.header.typ = expected ∧ keys.lookup s.header.kid = some key ∧
        signedBytes (procedure d curve) carrier = .ok bytes ∧
        key.check curve (signatureInput s.headerB64 bytes) s.signature = .ok () ∧
        s.header = header := by
  rw [checkDetached, bind_eq_ok]
  constructor
  · rintro ⟨s, hs, h⟩
    rw [ite_throw_eq_ok, not_not] at h
    obtain ⟨htyp, h⟩ := h
    split at h
    · cases h
    · rename_i key hkey
      rw [bind_eq_ok] at h
      obtain ⟨bytes, hbytes, h⟩ := h
      rw [bind_eq_ok] at h
      obtain ⟨_, hcheck, h⟩ := h
      rw [DetachedSignature.check, if_neg (not_not.mpr htyp)] at hcheck
      exact ⟨s, key, bytes, hs, htyp, hkey, hbytes, hcheck, Except.ok.inj h⟩
  · rintro ⟨s, key, bytes, hs, htyp, hkey, hbytes, hcheck, rfl⟩
    refine ⟨s, hs, ?_⟩
    rw [ite_throw_eq_ok, not_not]
    refine ⟨htyp, ?_⟩
    have hsigned : s.check (procedure d curve) expected bytes key = .ok () := by
      rw [DetachedSignature.check, if_neg (not_not.mpr htyp)]
      exact hcheck
    rw [hkey]
    dsimp only
    rw [hbytes]
    change (s.check (procedure d curve) expected bytes key >>= fun _ ↦ _) = _
    rw [hsigned]
    rfl

end Check

section Binding

variable {d : Deserializer} {curve : Primitives}

theorem lookup_remove (m : Members) : (m.remove fieldSignature).lookup fieldSignature = none := by
  rw [List.lookup_eq_none_iff]
  intro q hq
  rw [Members.remove, List.mem_filter] at hq
  exact bne_iff_ne.mpr fun hname ↦ bne_iff_ne.mp hq.2 hname.symm

theorem remove_of_notMem {m : Members} (h : fieldSignature ∉ m.map Prod.fst) :
    m.remove fieldSignature = m := by
  rw [Members.remove, List.filter_eq_self]
  intro q hq
  exact bne_iff_ne.mpr fun hname ↦ h (hname ▸ List.mem_map_of_mem hq)

theorem notMem_remove (m : Members) : fieldSignature ∉ (m.remove fieldSignature).map Prod.fst := by
  intro h
  obtain ⟨q, hq, hname⟩ := List.mem_map.mp h
  rw [Members.remove, List.mem_filter, hname] at hq
  exact absurd hq.2 (by decide)

theorem remove_attach (m : Members) (compact : String) :
    (attach m compact).remove fieldSignature = m.remove fieldSignature := by
  have hlast : (Members.remove [(fieldSignature, .string compact)] fieldSignature) = [] := by
    rfl
  rw [attach, Members.remove, List.filter_append]
  change (m.remove fieldSignature).remove fieldSignature ++ Members.remove _ _ = _
  rw [hlast, List.append_nil, remove_of_notMem (notMem_remove m)]

theorem lookup_attach (m : Members) (compact : String) :
    (attach m compact).lookup fieldSignature = some (.string compact) := by
  rw [attach, List.lookup_append, lookup_remove, Option.none_or, List.lookup_cons_self]

theorem unique_remove {m : Members} (h : (Value.object m).Unique) :
    (Value.object (m.remove fieldSignature)).Unique := by
  rw [Value.unique_object] at h ⊢
  refine ⟨h.1.sublist (List.filter_sublist.map _), fun q hq ↦ h.2 q (List.mem_of_mem_filter hq)⟩

theorem unique_attach {m : Members} (h : (Value.object m).Unique) (compact : String) :
    (Value.object (attach m compact)).Unique := by
  have hm := Value.unique_object.mp (unique_remove h)
  rw [Value.unique_object, attach, List.map_append, List.forall_mem_append]
  refine ⟨List.nodup_append.mpr ⟨hm.1, List.nodup_singleton _, fun a ha b hb ↦ ?_⟩, hm.2, ?_⟩
  · rintro rfl
    rw [List.mem_singleton.mp hb] at ha
    exact notMem_remove m ha
  · intro q hq
    rw [List.mem_singleton.mp hq]
    trivial

theorem signatureInput_inj {a b : String} {x y : List UInt8} (ha : '.' ∉ a.toList)
    (h : signatureInput a x = signatureInput b y) : b = a ∧ y = x := by
  have htext := congrArg String.toList (utf8_injective h)
  simp only [String.toList_append] at htext
  rw [List.append_assoc, List.append_assoc] at htext
  obtain ⟨hab, -, hxy⟩ := (List.append_cons_inj_of_notMem ha (Base64Url.dot_notMem x)).mp htext
  exact ⟨(String.toList_inj.mp hab).symm, (Base64Url.encode_injective (String.toList_inj.mp hxy)).symm⟩

variable (d curve)

/-- The signatures of the key over these bytes verify for them and for no others. -/
def Exact (key : SigningKey) (data : List UInt8) : Prop :=
  ∀ raw, key.sign data = .ok raw → ∀ other,
    key.publicKey.check curve other raw.val = .ok () ↔ other = data

/-- Whoever carries the signature and is accepted has the members of the carrier, the signature
apart, their numbers compared as numbers. -/
def Bound (carrier : Members) (compact kid : String) (publicKey : PublicKey) : Prop :=
  ∀ other expected keys header, (Value.object other).Unique →
    other.lookup fieldSignature = some (.string compact) → keys.lookup kid = some publicKey →
    checkDetached d curve (.object other) expected keys = .ok header →
    Alike (fun n n' ↦ numeric n = numeric n') (.object (carrier.remove fieldSignature))
      (.object (Members.remove other fieldSignature))

variable {d curve}

section Signed

variable {carrier : Members} {typ kid : String} {key : SigningKey} {bytes : List UInt8}
  {raw : {raw : List UInt8 // raw.length = 64}}
  (hraw : key.sign (signatureInput (Base64Url.encode (utf8 (headerText typ kid))) bytes) = .ok raw)
  (hexact : Exact curve key (signatureInput (Base64Url.encode (utf8 (headerText typ kid))) bytes))

include hraw hexact

theorem check_iff {headerB64 : String} {other : List UInt8} :
    key.publicKey.check curve (signatureInput headerB64 other) raw.val = .ok () ↔
      headerB64 = Base64Url.encode (utf8 (headerText typ kid)) ∧ other = bytes := by
  rw [hexact raw hraw]
  constructor
  · intro h
    exact signatureInput_inj (Base64Url.dot_notMem _) h.symm
  · rintro ⟨rfl, rfl⟩
    rfl

/-- With the signature a carrier is accepted exactly for the type, under the name of the key, and
where its signed bytes are those that were signed. -/
theorem check_carrier_iff {other : Members} {expected : String} {keys : List (String × PublicKey)}
    {header : ProtectedHeader} (hkey : keys.lookup kid = some key.publicKey)
    (hother : other.lookup fieldSignature = some (.string
      (Base64Url.encode (utf8 (headerText typ kid)) ++ ".." ++ Base64Url.encode raw.val))) :
    checkDetached d curve (.object other) expected keys = .ok header ↔
      header = ⟨alg, typ, kid⟩ ∧ expected = typ ∧
        signedBytes (procedure d curve) (.object other) = .ok bytes := by
  have hread := @read_compact d curve typ kid raw.val raw.property
  have hsignature := signatureOfTheCarrier_eq_ok.mpr ⟨_, hother, hread⟩
  rw [checkDetached_eq_ok]
  constructor
  · rintro ⟨s, k, b, hs, rfl, hk, hb, hcheck, rfl⟩
    obtain rfl := Except.ok.inj (hsignature.symm.trans hs)
    obtain rfl := Option.some.inj (hkey.symm.trans hk)
    obtain ⟨-, rfl⟩ := (check_iff hraw hexact).mp hcheck
    exact ⟨rfl, rfl, hb⟩
  · rintro ⟨rfl, rfl, hb⟩
    exact ⟨_, _, _, hsignature, rfl, hkey, hb, (check_iff hraw hexact).mpr ⟨rfl, rfl⟩, rfl⟩

/-- The signature binds the carrier exactly where its canonical form stands for one value. -/
theorem bound_iff (hu : (Value.object carrier).Unique)
    (hbytes : signedBytes (procedure d curve) (.object carrier) = .ok bytes) :
    Bound d curve carrier
        (Base64Url.encode (utf8 (headerText typ kid)) ++ ".." ++ Base64Url.encode raw.val) kid
        key.publicKey ↔
      (Value.object (carrier.remove fieldSignature)).All Distinct := by
  obtain ⟨text, htext, rfl⟩ := signedBytes_eq_ok.mp hbytes
  rw [← toldApart_iff (unique_remove hu) htext]
  constructor
  · intro h w hw heq
    obtain ⟨hacc, -⟩ := canonicalize_eq_ok.mp htext
    have hacc' := (canonicalize_eq_ok.mp (heq.trans htext)).1
    have halike := alike_of_tree_eq hacc hacc' ((canonicalize_eq_iff hacc hacc').mp heq)
    obtain ⟨k, m, rfl, hperm, hk⟩ := halike
    -- the names are those of the carrier, so the signature can be attached
    have hnames : m.map Prod.fst = (carrier.remove fieldSignature).map Prod.fst := by
      rw [alikeMembers_iff] at hk
      clear hperm
      generalize carrier.remove fieldSignature = l at hk ⊢
      induction hk with
      | nil => rfl
      | cons h _ ih => rw [List.map_cons, List.map_cons, ih, h.1]
    have hnot : fieldSignature ∉ k.map Prod.fst := by
      rw [← (hperm.map Prod.fst).mem_iff, hnames]
      exact notMem_remove carrier
    have hrest := remove_of_notMem hnot
    have hbytes' : signedBytes (procedure d curve) (.object (attach k
        (Base64Url.encode (utf8 (headerText typ kid)) ++ ".." ++ Base64Url.encode raw.val))) =
        .ok (utf8 text) :=
      signedBytes_eq_ok.mpr ⟨text, by rw [remove_attach, hrest, heq, htext], rfl⟩
    have hbound := h _ typ [(kid, key.publicKey)] _ (unique_attach hw _) (lookup_attach k _)
      List.lookup_cons_self
      ((check_carrier_iff hraw hexact List.lookup_cons_self (lookup_attach k _)).mpr
        ⟨rfl, rfl, hbytes'⟩)
    rwa [remove_attach, hrest] at hbound
  · intro h other expected keys header hu' hother hkey hcheck
    obtain ⟨-, -, hb⟩ := (check_carrier_iff hraw hexact hkey hother).mp hcheck
    obtain ⟨text', htext', heq⟩ := signedBytes_eq_ok.mp hb
    obtain rfl := utf8_injective heq
    exact h _ (unique_remove hu') (htext'.trans htext.symm)

end Signed

/-- What is signed and attached verifies; under the same signature only its type and the name of its
key are accepted, whatever header it is put under; it binds the carrier exactly where every double
is told apart from the others by its digits; and a header has its three members. -/
theorem detached (d : Deserializer) (curve : Primitives) (carrier : Members) (typ kid : String)
    (key : SigningKey) (bytes : List UInt8) (compact : String)
    (hu : (Value.object carrier).Unique)
    (hbytes : signedBytes (procedure d curve) (.object carrier) = .ok bytes)
    (hsign : signDetached bytes typ kid key = .ok compact)
    (hexact : Exact curve key
      (signatureInput (Base64Url.encode (utf8 (headerText typ kid))) bytes)) :
    (∀ keys, keys.lookup kid = some key.publicKey →
      checkDetached d curve (.object (attach carrier compact)) typ keys = .ok ⟨alg, typ, kid⟩) ∧
    (∀ other expected keys, other.lookup fieldSignature = some (.string compact) →
      expected ≠ typ ∨ keys.lookup kid = none →
      ∃ e, checkDetached d curve (.object other) expected keys = .error e) ∧
    (∀ signed, DetachedSignature.read (procedure d curve) compact = .ok signed →
      ∀ rewritten s expected b, DetachedSignature.read (procedure d curve) rewritten = .ok s →
        s.signature = signed.signature →
        s.check (procedure d curve) expected b key.publicKey = .ok () →
        s.header = ⟨alg, typ, kid⟩ ∧ expected = typ ∧ b = bytes) ∧
    (Bound d curve carrier compact kid key.publicKey ↔
      (Value.object (carrier.remove fieldSignature)).All Distinct) ∧
    ∀ read s text t, DetachedSignature.read (procedure d curve) read = .ok s →
      Base64Url.decode s.headerB64 = some (utf8 text) → SpellsText t text →
      ∃ ms, t = .object ms ∧ ms.Perm
        [("alg", .string alg), ("typ", .string s.header.typ), ("kid", .string s.header.kid)] := by
  obtain ⟨raw, hraw, rfl⟩ := signDetached_eq_ok hsign
  have hread := @read_compact d curve typ kid raw.val raw.property
  refine ⟨fun keys hkey ↦ ?_, fun other expected keys hother hcase ↦ ?_,
    fun signed hsigned rewritten s expected b hs hsame hcheck ↦ ?_,
    bound_iff hraw hexact hu hbytes, fun _ _ _ _ ↦ header_shape⟩
  · rw [check_carrier_iff hraw hexact hkey (lookup_attach _ _)]
    obtain ⟨text, htext, rfl⟩ := signedBytes_eq_ok.mp hbytes
    exact ⟨rfl, rfl, signedBytes_eq_ok.mpr ⟨text, by rw [remove_attach, htext], rfl⟩⟩
  · cases hchecked : checkDetached d curve (.object other) expected keys with
    | error e => exact ⟨e, rfl⟩
    | ok header =>
      obtain ⟨s, k, b, hs, htyp, hkey, -⟩ := checkDetached_eq_ok.mp hchecked
      obtain rfl := Except.ok.inj
        ((signatureOfTheCarrier_eq_ok.mpr ⟨_, hother, hread⟩).symm.trans hs)
      rcases hcase with hcase | hcase
      · exact absurd htyp.symm hcase
      · cases hcase.symm.trans hkey
  · obtain rfl := Except.ok.inj (hread.symm.trans hsigned)
    rw [DetachedSignature.check, ite_error_eq_ok, not_not] at hcheck
    obtain ⟨rfl, hcheck⟩ := hcheck
    rw [hsame] at hcheck
    obtain ⟨hheader, rfl⟩ := (check_iff hraw hexact).mp hcheck
    obtain ⟨m, hm, -, halg, -, htyp, hkid⟩ := read_eq_ok hs
    rw [hheader, objectFromB64u_header] at hm
    obtain rfl := Except.ok.inj hm
    obtain rfl : typ = s.header.typ := Option.some.inj htyp
    obtain rfl : kid = s.header.kid := Option.some.inj hkid
    have hshape : s.header = ⟨alg, s.header.typ, s.header.kid⟩ := by
      rw [← halg]
    exact ⟨hshape, rfl, rfl⟩

end Binding

section Twins

/-- A curve on which one signature was made, over these bytes. -/
def onceSigned (data : List UInt8) : Primitives where
  b64u := Base64Url.encode
  fromB64u := Base64Url.decode
  readJson _ := .error (.jsonUnreadable "EOF")
  canonicalize _ := .ok []
  sha256 := id
  onCurve _ _ := true
  verify _ _ other _ := if other = data then .ok () else .error "signature error"

def plainKey : SigningKey where
  publicKey := ⟨List.replicate 32 1, List.replicate 32 2⟩
  sign _ := .ok ⟨List.replicate 64 3, rfl⟩

theorem exact_onceSigned (data : List UInt8) : Exact (onceSigned data) plainKey data := by
  intro raw _ other
  rw [PublicKey.check]
  change (if other = data then _ else _ : Except String Unit).mapError _ = _ ↔ _
  split
  · rename_i h
    exact ⟨fun _ ↦ h, fun _ ↦ rfl⟩
  · rename_i h
    exact ⟨fun hok ↦ (by cases hok), fun hok ↦ absurd hok h⟩

def clearanceType : String := "edms-qc-clearance+jwt"

/-- A carrier of one number. -/
def measured (bits : UInt64) : Members := [("n", .number (.float bits))]

def measuredText : String := "\x7b\"n\":5.684341886080801e-14\x7d"

def measuredInput : List UInt8 :=
  signatureInput (Base64Url.encode (utf8 (headerText clearanceType "k"))) (utf8 measuredText)

def measuredCompact : String :=
  Base64Url.encode (utf8 (headerText clearanceType "k")) ++ ".." ++
    Base64Url.encode (List.replicate 64 3)

theorem signedBytes_measured {bits : UInt64} {d : Deserializer} {curve : Primitives}
    (h : (Jcs.canonicalize (.object (measured bits))).toOption = some measuredText) :
    signedBytes (procedure d curve) (.object (measured bits)) = .ok (utf8 measuredText) :=
  signedBytes_eq_ok.mpr ⟨measuredText, ok_of_toOption h, rfl⟩

theorem unique_measured (bits : UInt64) : (Value.object (measured bits)).Unique := by
  rw [Value.unique_object]
  exact ⟨List.nodup_singleton _, fun q hq ↦ by rw [List.mem_singleton.mp hq]; trivial⟩

theorem detached_tenth :
    let curve := onceSigned (signatureInput
      (Base64Url.encode (utf8 (headerText clearanceType "k"))) (utf8 "\x7b\"n\":0.1\x7d"))
    checkDetached .standard curve (.object (attach (measured 0x3FB999999999999A) measuredCompact))
        clearanceType [("k", plainKey.publicKey)] = .ok ⟨alg, clearanceType, "k"⟩ ∧
      (Bound .standard curve (measured 0x3FB999999999999A) measuredCompact "k" plainKey.publicKey ↔
        (Value.object ((measured 0x3FB999999999999A).remove fieldSignature)).All Distinct) :=
  have hall := detached .standard (onceSigned (signatureInput
    (Base64Url.encode (utf8 (headerText clearanceType "k"))) (utf8 "\x7b\"n\":0.1\x7d")))
    (measured 0x3FB999999999999A) clearanceType "k" plainKey (utf8 "\x7b\"n\":0.1\x7d")
    measuredCompact (unique_measured _)
    (signedBytes_eq_ok.mpr ⟨"\x7b\"n\":0.1\x7d", ok_of_toOption (by decide +kernel), rfl⟩) rfl
    (exact_onceSigned _)
  ⟨hall.1 _ List.lookup_cons_self, hall.2.2.2.1⟩

/-- The signature over 2^-44 is accepted for the double before it. -/
theorem accepted_for_another : ¬ ∀ d curve carrier typ kid key bytes compact,
    (Value.object carrier).Unique →
    signedBytes (procedure d curve) (.object carrier) = .ok bytes →
    signDetached bytes typ kid key = .ok compact →
    Exact curve key (signatureInput (Base64Url.encode (utf8 (headerText typ kid))) bytes) →
    Bound d curve carrier compact kid key.publicKey := by
  intro hall
  have hbound := hall .standard (onceSigned measuredInput) (measured 0x3D30000000000000)
    clearanceType "k" plainKey (utf8 measuredText) measuredCompact (unique_measured _)
    (signedBytes_measured (by decide +kernel)) rfl (exact_onceSigned _)
  have hraw : plainKey.sign measuredInput = .ok ⟨List.replicate 64 3, rfl⟩ := rfl
  have hcheck := (@check_carrier_iff .standard (onceSigned measuredInput) clearanceType "k" plainKey
    (utf8 measuredText) _ hraw (exact_onceSigned _)
    (attach (measured 0x3D2FFFFFFFFFFFFF) measuredCompact) clearanceType
    [("k", plainKey.publicKey)] _ List.lookup_cons_self (lookup_attach _ _)).mpr
    ⟨rfl, rfl, signedBytes_eq_ok.mpr ⟨measuredText, ok_of_toOption (by decide +kernel), rfl⟩⟩
  have halike := hbound _ _ _ _ (unique_attach (unique_measured _) _) (lookup_attach _ _)
    List.lookup_cons_self hcheck
  rw [remove_attach, remove_of_notMem (by decide), remove_of_notMem (by decide)] at halike
  obtain ⟨m, k, heq, hperm, hk⟩ := halike
  cases heq
  rw [alikeMembers_iff] at hk
  cases hk with
  | cons hfirst hrest =>
    cases hrest
    obtain rfl := List.singleton_perm_singleton.mp hperm
    obtain ⟨n, hn, hnumeric⟩ := hfirst.2
    cases hn
    exact absurd hnumeric (by decide +kernel)

end Twins

end FolderClient.Crypto.Detached
