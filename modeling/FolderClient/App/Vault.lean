import FolderClient.Engine.Port
import FolderClient.Library.Texts
import Mathlib.Data.List.SplitOn
import Std.Data.String.ToNat

namespace FolderClient.App.Vault

open FolderClient.Engine.Port FolderClient.Library.Programs FolderClient.Library.Texts

/-- Maximum size of an entry in the Windows Credential Manager. -/
def limitWindows : ℕ := 2560

/-- This many bytes go into one chunk. -/
def chunkBytes : ℕ := 2048

/-- The vault accepts no more chunks than these. -/
def chunkMax : ℕ := 64

/-- The marker of the header entry. -/
def headerMarker : String := "edms-vault/1"

/-- The entries of the keychain under their names. -/
abbrev Keychain := String → Option (List UInt8)

inductive KeychainRequest
  | setSecret (name : String) (bytes : List UInt8)
  | deleteCredential (name : String)

abbrev KeychainAnswer : KeychainRequest → Type
  | .setSecret _ _ => Except VaultError Unit
  | .deleteCredential _ => Except VaultError Bool

/-- An operation of the keychain; one that fails may have taken effect all the same. -/
def serve : (r : KeychainRequest) → Keychain → KeychainAnswer r → Keychain → Prop
  | .setSecret name bytes, k, a, k' =>
    (a = .ok () ∧ k' = Function.update k name (some bytes)) ∨
      ((∃ e, a = .error e) ∧ (k' = k ∨ k' = Function.update k name (some bytes)))
  | .deleteCredential name, k, a, k' =>
    (a = .ok (k name).isSome ∧ k' = Function.update k name none) ∨
      ((∃ e, a = .error e) ∧ (k' = k ∨ k' = Function.update k name none))

abbrev Operation (α : Type) := ExceptT VaultError (Program KeychainRequest KeychainAnswer) α

def setSecret (name : String) (bytes : List UInt8) : Operation Unit :=
  ExceptT.mk (Program.call (KeychainRequest.setSecret name bytes))

def deleteEntry (name : String) : Operation Bool :=
  ExceptT.mk (Program.call (KeychainRequest.deleteCredential name))

/-- The name of the header entry of a slot. -/
def headerName (slot : String) : String := slot

/-- The name of the `number`-th chunk, counted from 1. -/
def chunkName (slot : String) (number : ℕ) : String := slot ++ "#" ++ number.repr

/-- Deletes at most `n` chunks from one on, up to the first that does not exist. -/
def clearChunks (slot : String) : ℕ → ℕ → Operation Unit
  | 0, _ => return
  | n + 1, number => do
    if ← deleteEntry (chunkName slot number) then clearChunks slot n (number + 1) else return

/-- Writes a value chunk by chunk, at most `n` of them. -/
def writeChunks (slot : String) : ℕ → ℕ → List UInt8 → Operation Unit
  | 0, _, _ => return
  | n + 1, number, value => do
    if value.isEmpty then return
    else
      setSecret (chunkName slot number) (value.take chunkBytes)
      writeChunks slot n (number + 1) (value.drop chunkBytes)

/-- How many chunks a value takes. -/
def chunksOf (value : List UInt8) : ℕ := max 1 ((value.length + (chunkBytes - 1)) / chunkBytes)

def headerText (chunks length : ℕ) : String :=
  headerMarker ++ " " ++ chunks.repr ++ " " ++ length.repr

/-- Writes the chunks first, then the header. -/
def write (slot : String) (value : List UInt8) : Operation Unit := do
  let chunks := chunksOf value
  if chunkMax < chunks then
    throw (.denied (s!"the value for `{slot}` is {value.length} bytes long; the folder client " ++
      s!"stores at most {chunkMax * chunkBytes} bytes (Windows Credential Manager: " ++
      s!"{limitWindows} bytes per entry)"))
  else
    writeChunks slot chunks 1 value
    if value.isEmpty then
      setSecret (chunkName slot 1) []
    clearChunks slot (chunkMax - chunks) (chunks + 1)
    setSecret (headerName slot) (utf8 (headerText chunks value.length))

/-- Deletes the header first: after it the slot counts as empty. -/
def delete (slot : String) : Operation Unit := do
  let _ ← deleteEntry (headerName slot)
  clearChunks slot chunkMax 1

/-- A number of 64 bits, as its decimal text says. -/
def parseUsize (text : String) : Option ℕ :=
  let digits := match text.toList with
    | '+' :: rest => rest
    | digits => digits
  if !digits.isEmpty && digits.all Char.isDigit && Nat.ofDigitChars 10 digits 0 < 2 ^ 64 then
    some (Nat.ofDigitChars 10 digits 0)
  else none

/-- Reads the header entry: the marker, the number of chunks and the length. -/
def readHeader (slot : String) (header : List UInt8) : Except VaultError (ℕ × ℕ) :=
  match fromUtf8 header with
  | none => .error (.corrupt slot "the header entry is not UTF-8 text")
  | some text =>
    let parts := split ' ' text
    let marker := parts.getD 0 ""
    if marker ≠ headerMarker then
      .error (.corrupt slot
        s!"the header entry carries the marker `{marker}` instead of `{headerMarker}`")
    else
      match parts[1]?.bind parseUsize with
      | none => .error (.corrupt slot "the header entry names no valid chunk count")
      | some chunks =>
        match parts[2]?.bind parseUsize with
        | none => .error (.corrupt slot "the header entry names no valid length")
        | some length =>
          if chunks = 0 ∨ chunkMax < chunks then
            .error (.corrupt slot
              s!"the header entry names {chunks} chunks; 1 to {chunkMax} are allowed")
          else .ok (chunks, length)

/-- The chunks of a slot from one on, `n` of them. -/
def readChunks (k : Keychain) (slot : String) (chunks : ℕ) :
    ℕ → ℕ → Except VaultError (List UInt8)
  | 0, _ => .ok []
  | n + 1, number =>
    match k (chunkName slot number) with
    | none => .error (.corrupt slot (s!"chunk {number} of {chunks} is missing from the " ++
        "keychain; the value is incomplete"))
    | some part => (readChunks k slot chunks n (number + 1)).map (part ++ ·)

/-- The value of a slot, as the keychain has it. -/
def read (k : Keychain) (slot : String) : Except VaultError (Option (List UInt8)) :=
  match k (headerName slot) with
  | none => .ok none
  | some header =>
    match readHeader slot header with
    | .error e => .error e
    | .ok (chunks, length) =>
      match readChunks k slot chunks chunks 1 with
      | .error e => .error e
      | .ok value =>
        if value.length ≠ length then
          .error (.corrupt slot
            s!"the header names {length} bytes, the chunks add up to {value.length}")
        else .ok (some value)

section Names

theorem headerName_ne_chunkName (slot : String) (number : ℕ) :
    chunkName slot number ≠ headerName slot := by
  intro h
  have hl := congrArg (fun s : String ↦ s.toList.length) h
  simp [chunkName, headerName] at hl

theorem chunkName_inj {slot : String} {m n : ℕ} (h : chunkName slot m = chunkName slot n) :
    m = n := by
  have hl := congrArg String.toList h
  simp only [chunkName, String.toList_append, List.append_assoc, List.append_cancel_left_eq] at hl
  have hr : m.repr = n.repr := String.ext (by simpa using hl)
  have ht := congrArg String.toNat? hr
  simpa using ht

end Names

section Headers

theorem parseUsize_repr {n : ℕ} (hn : n < 2 ^ 64) : parseUsize n.repr = some n := by
  have hd : n.repr.toList = Nat.toDigits 10 n := by simp [Nat.repr_eq_ofList_toDigits]
  have hdigits : ∀ c ∈ Nat.toDigits 10 n, c.isDigit = true := fun c hc ↦
    Nat.isDigit_of_mem_toDigits (by decide) (by decide) hc
  have hne : Nat.toDigits 10 n ≠ [] := Nat.toDigits_ne_nil
  unfold parseUsize
  rw [hd]
  split
  · rename_i rest hl
    exact absurd (hdigits '+' (hl ▸ List.mem_cons_self)) (by decide)
  · simp only [Nat.ofDigitChars_ten_toDigits, hn]
    simpa [hne, List.all_eq_true] using hdigits

theorem split_headerText (chunks length : ℕ) :
    split ' ' (headerText chunks length) = [headerMarker, chunks.repr, length.repr] := by
  have hm : ' ' ∉ headerMarker.toList := by decide
  have hnone : ∀ n : ℕ, ' ' ∉ Nat.toDigits 10 n := fun n h ↦
    absurd (Nat.isDigit_of_mem_toDigits (by decide) (by decide) h) (by decide)
  have ht : (headerText chunks length).toList =
      [' '].intercalate [headerMarker.toList, chunks.repr.toList, length.repr.toList] := by
    simp [headerText, String.toList_append, List.intercalate]
  rw [split, ht, List.splitOn_intercalate _ _ (by simp)]
  · simp [Nat.repr_eq_ofList_toDigits]
  · simp [hm, hnone]

theorem readHeader_headerText {slot : String} {chunks length : ℕ} (hc : 1 ≤ chunks)
    (hm : chunks ≤ chunkMax) (hl : length < 2 ^ 64) :
    readHeader slot (utf8 (headerText chunks length)) = .ok (chunks, length) := by
  have hcl : chunks < 2 ^ 64 := lt_of_le_of_lt hm (by decide)
  have hno : ¬ (chunks = 0 ∨ chunkMax < chunks) := by omega
  simp [readHeader, fromUtf8_utf8, split_headerText, parseUsize_repr hcl, parseUsize_repr hl, hno]

end Headers

section Broken

variable {slot : String} {old : Option (List UInt8)} {new : List UInt8} {k k' : Keychain}

/-- A slot that is empty, or holds a value of a single chunk. -/
def Holds (k : Keychain) (slot : String) : Option (List UInt8) → Prop
  | none => k (headerName slot) = none
  | some value => value.length ≤ chunkBytes ∧
    k (headerName slot) = some (utf8 (headerText 1 value.length)) ∧
      k (chunkName slot 1) = some value

/-- The slot reads as before, as written, or as broken off; never as anything else. -/
def Intact (slot : String) (old : Option (List UInt8)) (new : List UInt8) (k : Keychain) : Prop :=
  read k slot = .ok old ∨ read k slot = .ok (some new) ∨
    ∃ reason, read k slot = .error (.corrupt slot reason)

/-- The keychain as a write meets it: nobody else writes, and wherever the write is broken off the
slot is intact. -/
def keychain (slot : String) (old : Option (List UInt8)) (new : List UInt8) :
    Contract KeychainRequest KeychainAnswer Keychain where
  serve := serve
  rely k k' := k' = k
  ok _ := Intact slot old new

theorem read_of_header {length : ℕ} {value : List UInt8}
    (hk : k (headerName slot) = some (utf8 (headerText 1 length)))
    (hc : k (chunkName slot 1) = some value) (hl : length ≤ chunkBytes) :
    read k slot = if value.length ≠ length then
        .error (.corrupt slot
          s!"the header names {length} bytes, the chunks add up to {value.length}")
      else .ok (some value) := by
  have hlength : length < 2 ^ 64 := lt_of_le_of_lt hl (by decide)
  have hheader : readHeader slot (utf8 (headerText 1 length)) = .ok (1, length) :=
    readHeader_headerText (le_refl 1) (by decide) hlength
  have hchunks : readChunks k slot 1 1 1 = .ok value := by
    simp [readChunks, hc, Except.map]
  simp only [read, hk, hheader, hchunks]

theorem read_of_holds (h : Holds k slot old) : read k slot = .ok old := by
  cases old with
  | none =>
    have hk : k (headerName slot) = none := h
    simp only [read, hk]
  | some value =>
    obtain ⟨hl, hk, hc⟩ := h
    rw [read_of_header hk hc hl, if_neg (by simp)]

/-- The new chunk stands behind the old header. -/
def Begun (slot : String) (old : Option (List UInt8)) (new : List UInt8) (k : Keychain) : Prop :=
  k (chunkName slot 1) = some new ∧
    match old with
    | none => k (headerName slot) = none
    | some value => value.length ≤ chunkBytes ∧
      k (headerName slot) = some (utf8 (headerText 1 value.length))

theorem intact_of_begun (h : Begun slot old new k) : Intact slot old new k := by
  obtain ⟨hc, h⟩ := h
  cases old with
  | none =>
    have hholds : Holds k slot none := h
    exact .inl (read_of_holds hholds)
  | some value =>
    obtain ⟨hl, hk⟩ := h
    have hread := read_of_header hk hc hl
    split at hread
    · exact .inr (.inr ⟨_, hread⟩)
    · exact .inr (.inl hread)

theorem begun_of_holds (h : Holds k slot old) :
    Begun slot old new (Function.update k (chunkName slot 1) (some new)) := by
  have hne := (headerName_ne_chunkName slot 1).symm
  refine ⟨Function.update_self .., ?_⟩
  cases old with
  | none => exact (Function.update_of_ne hne _ _).trans h
  | some value => exact ⟨h.1, (Function.update_of_ne hne _ _).trans h.2.1⟩

theorem begun_of_deleted {number : ℕ} (hn : 1 < number) (h : Begun slot old new k) :
    Begun slot old new (Function.update k (chunkName slot number) none) := by
  have hheader := (headerName_ne_chunkName slot number).symm
  have hchunk : chunkName slot 1 ≠ chunkName slot number :=
    fun he ↦ absurd (chunkName_inj he) (by omega)
  refine ⟨(Function.update_of_ne hchunk _ _).trans h.1, ?_⟩
  have h := h.2
  cases old with
  | none => exact (Function.update_of_ne hheader _ _).trans h
  | some value => exact ⟨h.1, (Function.update_of_ne hheader _ _).trans h.2⟩

theorem sound_clearChunks (n : ℕ) {number : ℕ} (hn : 1 < number) (h : Begun slot old new k) :
    (keychain slot old new).Sound (clearChunks slot n number).run
      (fun _ k' ↦ Begun slot old new k') k := by
  induction n generalizing number k with
  | zero => exact h
  | succ n ih =>
    refine sound_fallible_bind ⟨intact_of_begun h, fun a k₁ k₂ hs hr ↦ ?_⟩
    obtain rfl := hr
    have hdeleted := begun_of_deleted hn h
    obtain ⟨rfl, rfl⟩ | ⟨⟨e, rfl⟩, rfl | rfl⟩ := hs
    · change (keychain slot old new).Sound (if (k (chunkName slot number)).isSome = true then
        clearChunks slot n (number + 1) else pure () : Operation Unit).run _ _
      split
      · exact ih (by omega) hdeleted
      · exact hdeleted
    · exact h
    · exact hdeleted

theorem sound_setHeader (hn : new.length ≤ chunkBytes) (h : Begun slot old new k) :
    (keychain slot old new).Sound
      (setSecret (headerName slot) (utf8 (headerText 1 new.length))).run
      (fun r k' ↦ Intact slot old new k' ∧ (r = .ok () → read k' slot = .ok (some new))) k := by
  have hread : read (Function.update k (headerName slot)
      (some (utf8 (headerText 1 new.length)))) slot = .ok (some new) := by
    have hholds : Holds (Function.update k (headerName slot)
        (some (utf8 (headerText 1 new.length)))) slot (some new) :=
      ⟨hn, Function.update_self .., (Function.update_of_ne (headerName_ne_chunkName slot 1) _ _).trans
        h.1⟩
    exact read_of_holds hholds
  refine ⟨intact_of_begun h, fun a k₁ k₂ hs hr ↦ ?_⟩
  obtain rfl := hr
  obtain ⟨rfl, rfl⟩ | ⟨⟨e, rfl⟩, rfl | rfl⟩ := hs
  · exact ⟨.inr (.inl hread), fun _ ↦ hread⟩
  · exact ⟨intact_of_begun h, fun hr ↦ nomatch hr⟩
  · exact ⟨.inr (.inl hread), fun hr ↦ nomatch hr⟩

/-- Wherever the write of a value of a single chunk is broken off, the slot holds the old value or
the new one, or says that it is corrupt. -/
theorem sound_write (hn : new.length ≤ chunkBytes) (h : Holds k slot old) :
    (keychain slot old new).Sound (write slot new).run
      (fun r k' ↦ Intact slot old new k' ∧ (r = .ok () → read k' slot = .ok (some new))) k := by
  have hchunks : chunksOf new = 1 := by
    have hb : chunkBytes = 2048 := rfl
    simp only [chunksOf, hb] at hn ⊢
    omega
  have hbegun : Begun slot old new (Function.update k (chunkName slot 1) (some new)) :=
    begun_of_holds h
  have hintact : Intact slot old new k := .inl (read_of_holds h)
  have hrest : ∀ k, Begun slot old new k → (keychain slot old new).Sound
      (do clearChunks slot (chunkMax - 1) 2
          setSecret (headerName slot) (utf8 (headerText 1 new.length)) : Operation Unit).run
      (fun r k' ↦ Intact slot old new k' ∧ (r = .ok () → read k' slot = .ok (some new))) k := by
    intro k hk
    refine sound_fallible_bind (Contract.sound_mono ?_ (sound_clearChunks _ (by decide) hk))
    intro r k' hk'
    cases r with
    | ok _ => exact sound_setHeader hn hk'
    | error e => exact ⟨intact_of_begun hk', fun hr ↦ nomatch hr⟩
  have hset : (keychain slot old new).Sound (do
      setSecret (chunkName slot 1) (new.take chunkBytes)
      clearChunks slot (chunkMax - 1) 2
      setSecret (headerName slot) (utf8 (headerText 1 new.length)) : Operation Unit).run
      (fun r k' ↦ Intact slot old new k' ∧ (r = .ok () → read k' slot = .ok (some new))) k := by
    rw [List.take_of_length_le hn]
    refine sound_fallible_bind ⟨hintact, fun a k₁ k₂ hs hr ↦ ?_⟩
    obtain rfl := hr
    obtain ⟨rfl, rfl⟩ | ⟨⟨e, rfl⟩, rfl | rfl⟩ := hs
    · exact hrest _ hbegun
    · exact ⟨hintact, fun hr ↦ nomatch hr⟩
    · exact ⟨intact_of_begun hbegun, fun hr ↦ nomatch hr⟩
  unfold write
  simp only [hchunks]
  rw [if_neg (by decide)]
  cases new with
  | nil => exact hset
  | cons b rest =>
    refine ⟨hset.1, fun a k₁ k₂ hs hr ↦ ?_⟩
    have hnext := hset.2 a k₁ k₂ hs hr
    cases a with
    | ok _ => exact hnext
    | error e => exact hnext

end Broken

end FolderClient.App.Vault
