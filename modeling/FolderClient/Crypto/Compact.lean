import FolderClient.Crypto.Detached
import FolderClient.Library.Segments

namespace FolderClient.Crypto.Compact

open FolderClient.Library FolderClient.Library.Json FolderClient.Library.Results
open FolderClient.Library.Texts (utf8 split split_append_cons split_of_notMem)
open FolderClient.Crypto.Jws FolderClient.Crypto.Jcs FolderClient.Crypto.JcsNumbers
open FolderClient.Crypto.Canonical FolderClient.Crypto.Detached

/-- A compact signature that has been read, with its payload. -/
structure CompactJws where
  header : Members
  payload : Members
  input : String
  signature : List UInt8

section Source

variable (prims : Primitives)

namespace CompactJws

def read (text : String) : Except CryptoError CompactJws :=
  match split '.' text with
  | [headerB64, payloadB64, signatureB64] => do
    let header ← objectFromB64u prims headerB64 "header"
    let read := ((header.lookup "alg").bind Value.asStr).getD ""
    if read ≠ alg then throw (.wrongAlgorithm read)
    else
      let payload ← objectFromB64u prims payloadB64 "payload"
      let signature ← signatureFromB64u prims signatureB64
      return ⟨header, payload, headerB64 ++ "." ++ payloadB64, signature⟩
  | parts => .error (.jwsUnreadable s!"{parts.length} parts instead of three")

def check (c : CompactJws) (key : PublicKey) : Except CryptoError Unit :=
  key.check prims (utf8 c.input) c.signature

end CompactJws

end Source

section Parts

variable {a b c : String}

theorem split_pair (ha : '.' ∉ a.toList) (hb : '.' ∉ b.toList) :
    split '.' (a ++ "." ++ b) = [a, b] := by
  have hform : a ++ "." ++ b = String.ofList (a.toList ++ '.' :: b.toList) := by
    rw [← String.toList_inj]
    simp
  rw [hform, split_append_cons ha, String.ofList_toList, split_of_notMem hb]

theorem split_triple (ha : '.' ∉ a.toList) (hb : '.' ∉ b.toList) (hc : '.' ∉ c.toList) :
    split '.' (a ++ "." ++ b ++ "." ++ c) = [a, b, c] := by
  have hform : a ++ "." ++ b ++ "." ++ c =
      String.ofList (a.toList ++ '.' :: (b.toList ++ '.' :: c.toList)) := by
    rw [← String.toList_inj]
    simp
  rw [hform, split_append_cons ha, split_append_cons hb, String.ofList_toList, split_of_notMem hc]

theorem dot_notMem_of_split {text part : String} (h : part ∈ split '.' text) :
    '.' ∉ part.toList := by
  obtain ⟨l, hl, rfl⟩ := List.mem_map.mp h
  rw [String.toList_ofList]
  exact Segments.notMem_of_mem_splitOn hl

end Parts

section Reading

variable {d : Deserializer} {curve prims : Primitives} {v : Value} {m k : Members}

theorem read_eq_ok {text : String} {jws : CompactJws} (h : CompactJws.read prims text = .ok jws) :
    ∃ headerB64 payloadB64, '.' ∉ headerB64.toList ∧ '.' ∉ payloadB64.toList ∧
      jws.input = headerB64 ++ "." ++ payloadB64 ∧
      objectFromB64u prims headerB64 "header" = .ok jws.header ∧
      objectFromB64u prims payloadB64 "payload" = .ok jws.payload := by
  unfold CompactJws.read at h
  split at h
  · rename_i headerB64 payloadB64 signatureB64 hsplit
    rw [bind_eq_ok] at h
    obtain ⟨header, hheader, h⟩ := h
    dsimp only at h
    split at h
    · cases h
    · simp only [bind_eq_ok, pure_eq_ok] at h
      obtain ⟨payload, hpayload, signature, -, rfl⟩ := h
      have hdots : ∀ part ∈ [headerB64, payloadB64, signatureB64], '.' ∉ part.toList :=
        fun part hpart ↦ dot_notMem_of_split (hsplit ▸ hpart)
      exact ⟨headerB64, payloadB64, hdots _ (by simp), hdots _ (by simp), rfl, hheader, hpayload⟩
  · cases h

/-- What the canonical text of an object is read as: an object that says the same. -/
theorem objectFromB64u_canonical {field text : String} (hu : (Value.object m).Unique)
    (hfits : (tree (.object m)).fits recursionLimit = true)
    (h : Jcs.canonicalize (.object m) = .ok text) :
    ∃ k, objectFromB64u (procedure d curve) (Base64Url.encode (utf8 text)) field = .ok k ∧
      (Value.object k).Unique ∧ tree (.object k) = tree (.object m) := by
  obtain ⟨hall, rfl⟩ := canonicalize_eq_ok.mp h
  obtain ⟨w, hw, htree, -⟩ := again hu hall
  have hread : Jcs.read d (String.ofList (spell (tree (.object m)))) = .ok w := by
    have hparse := d.reads (spellsText_tree hall)
    rw [if_pos hfits] at hparse
    rw [Jcs.read, ok_of_toOption hparse]
    exact hw
  obtain ⟨k, rfl⟩ : ∃ k, w = .object k := by
    rw [tree_object] at hw
    rw [strictValue_object, map_eq_ok] at hw
    obtain ⟨k, -, rfl⟩ := hw
    exact ⟨k, rfl⟩
  refine ⟨k, objectFromB64u_eq_ok.mpr ⟨utf8 (String.ofList (spell (tree (.object m)))), ?_, ?_⟩,
    (unique_of_strict hw).2, htree⟩
  · rw [fromB64u_procedure, Base64Url.decode_encode]
  · rw [readJson_utf8, hread]

/-- Objects that say the same have the same texts under the same names. -/
theorem string_member {name s : String} (h : tree (.object k) = tree (.object m))
    (hmem : (name, Value.string s) ∈ m) : (name, Value.string s) ∈ k := by
  rw [tree_object, tree_object] at h
  have htree : (name, JsonText.Tree.string s) ∈
      (sortByName k).map fun q ↦ (q.1, tree q.2) := by
    rw [JsonText.Tree.object.inj h]
    exact List.mem_map.mpr ⟨_, (perm_sortByName m).mem_iff.mpr hmem, rfl⟩
  obtain ⟨⟨name', v⟩, hq, heq⟩ := List.mem_map.mp htree
  obtain ⟨hname, hv⟩ := Prod.mk.inj heq
  obtain rfl : name' = name := hname
  cases v with
  | string s' =>
    obtain rfl : s' = s := JsonText.Tree.string.inj hv
    exact (perm_sortByName k).mem_iff.mp hq
  | _ => cases hv

end Reading

/-- The canonical texts of two objects are read back under any signature of 64 bytes. -/
theorem exists_read {d : Deserializer} {curve : Primitives} {m k : Members}
    {headerText payloadText : String} (hu : (Value.object m).Unique)
    (hu' : (Value.object k).Unique) (hfits : (tree (.object m)).fits recursionLimit = true)
    (hfits' : (tree (.object k)).fits recursionLimit = true)
    (halg : m.lookup "alg" = some (.string alg))
    (hheader : Jcs.canonicalize (.object m) = .ok headerText)
    (hpayload : Jcs.canonicalize (.object k) = .ok payloadText) :
    ∃ header payload, tree (.object header) = tree (.object m) ∧
      tree (.object payload) = tree (.object k) ∧ ∀ raw : List UInt8, raw.length = 64 →
        CompactJws.read (procedure d curve) (Base64Url.encode (utf8 headerText) ++ "." ++
            Base64Url.encode (utf8 payloadText) ++ "." ++ Base64Url.encode raw) =
          .ok ⟨header, payload, Base64Url.encode (utf8 headerText) ++ "." ++
            Base64Url.encode (utf8 payloadText), raw⟩ := by
  obtain ⟨m', hm, hunique, htree⟩ :=
    @objectFromB64u_canonical d curve m "header" headerText hu hfits hheader
  obtain ⟨k', hk, -, htree'⟩ :=
    @objectFromB64u_canonical d curve k "payload" payloadText hu' hfits' hpayload
  have halg' : m'.lookup "alg" = some (.string alg) := by
    rw [lookup_eq_some_iff_mem (Value.unique_object.mp hunique).1]
    exact string_member htree ((lookup_eq_some_iff_mem (Value.unique_object.mp hu).1).mp halg)
  refine ⟨m', k', htree, htree', fun raw hraw ↦ ?_⟩
  rw [CompactJws.read, split_triple (Base64Url.dot_notMem _) (Base64Url.dot_notMem _)
    (Base64Url.dot_notMem _)]
  dsimp only
  rw [hm, hk, signatureFromB64u_encode hraw]
  simp only [bind_eq_ok, Except.ok.injEq, exists_eq_left', halg', Option.bind_some,
    Value.asStr_string, Option.getD_some, ne_eq, not_true_eq_false, if_false]
  rfl

def claims : Value := .object [("iss", .string "device")]

def claimJwt (raw : List UInt8) : String :=
  Base64Url.encode (utf8 "\x7b\"alg\":\"ES256\"\x7d") ++ "." ++
    Base64Url.encode (utf8 "\x7b\"iss\":\"device\"\x7d") ++ "." ++ Base64Url.encode raw

theorem unique_single (name s : String) : (Value.object [(name, .string s)]).Unique := by
  rw [Value.unique_object]
  exact ⟨List.nodup_singleton _, fun q hq ↦ by rw [List.mem_singleton.mp hq]; trivial⟩

/-- The input that is signed tells header and payload. -/
theorem input_tells (prims : Primitives) (text text' : String) (jws jws' : CompactJws)
    (h : CompactJws.read prims text = .ok jws) (h' : CompactJws.read prims text' = .ok jws')
    (hinput : jws.input = jws'.input) :
    jws.header = jws'.header ∧ jws.payload = jws'.payload := by
  obtain ⟨a, b, ha, hb, hab, hheader, hpayload⟩ := read_eq_ok h
  obtain ⟨a', b', ha', hb', hab', hheader', hpayload'⟩ := read_eq_ok h'
  have hparts : [a, b] = [a', b'] := by
    rw [← split_pair ha hb, ← split_pair ha' hb', ← hab, ← hab', hinput]
  rw [List.cons.injEq, List.cons.injEq] at hparts
  obtain ⟨rfl, rfl, -⟩ := hparts
  exact ⟨Except.ok.inj (hheader.symm.trans hheader'), Except.ok.inj (hpayload.symm.trans hpayload')⟩

/-- Under two signatures the same is read. -/
theorem input_tells_claims : ∃ jws jws',
    CompactJws.read (procedure .standard (onceSigned [])) (claimJwt (List.replicate 64 3)) =
      .ok jws ∧
    CompactJws.read (procedure .standard (onceSigned [])) (claimJwt (List.replicate 64 4)) =
      .ok jws' ∧ jws.header = jws'.header ∧ jws.payload = jws'.payload := by
  obtain ⟨m, k, -, -, hread⟩ := @exists_read .standard (onceSigned []) [("alg", .string alg)]
    [("iss", .string "device")] "\x7b\"alg\":\"ES256\"\x7d" "\x7b\"iss\":\"device\"\x7d"
    (unique_single _ _) (unique_single _ _) rfl rfl rfl (ok_of_toOption (by decide +kernel))
    (ok_of_toOption (by decide +kernel))
  have hthree := hread (List.replicate 64 3) rfl
  have hfour := hread (List.replicate 64 4) rfl
  exact ⟨_, _, hthree, hfour, input_tells (procedure .standard (onceSigned [])) _ _ _ _ hthree hfour
    rfl⟩

end FolderClient.Crypto.Compact
