import FolderClient.Library.Texts

namespace FolderClient.Net.Connection

open FolderClient.Library.Texts

/-- Why a base address is not one. -/
inductive ConnectionError
  | address (field address reason : String)
  | plaintext (field address : String)
  | client (reason : String)
deriving DecidableEq

def loop : List String := ["127.0.0.1", "localhost", "[::1]"]

/-- What stands between the scheme and the first slash: host, port and userinfo. -/
def authority (rest : List Char) : List Char := rest.takeWhile (· ≠ '/')

/-- Whether the host behind the scheme is the local loopback. -/
def showsOnLoop (rest : List Char) : Bool :=
  let withoutPath := authority rest
  let host := match withoutPath.idxOf? ']' with
    | some i => withoutPath.take (i + 1)
    | none => withoutPath.takeWhile (· ≠ ':')
  loop.contains (String.ofList host)

/-- Checks a base address and cuts off the slashes at its end. -/
def check (field address : String) : Except ConnectionError String :=
  let trimmed := address.toList.rdropWhile (· = '/')
  let error (reason : String) : Except ConnectionError String :=
    .error (.address field address reason)
  match splitAt "://".toList trimmed with
  | none => error "scheme and host are missing"
  | some (scheme, rest) =>
    if rest.isEmpty ∨ rest.head? = some '/' then error "the host is missing"
    else if rest.contains '?' ∨ rest.contains '#' then
      error "a base carries neither query nor fragment"
    else if (authority rest).contains '@' then
      error ("an authority carries no userinfo; in `https://api.example@other.example` the host " ++
        "is `other.example`")
    else if asciiLower scheme = "https".toList then .ok (String.ofList trimmed)
    else if asciiLower scheme = "http".toList then
      if showsOnLoop rest then .ok (String.ofList trimmed) else .error (.plaintext field address)
    else error "only http and https"

/-- What a base has to be, once the slashes at its end are gone. -/
structure Base (text scheme rest : List Char) : Prop where
  split : splitAt "://".toList text = some (scheme, rest)
  host : rest ≠ [] ∧ rest.head? ≠ some '/'
  plain : '?' ∉ rest ∧ '#' ∉ rest ∧ '@' ∉ authority rest
  secure : asciiLower scheme = "https".toList ∨
    asciiLower scheme = "http".toList ∧ showsOnLoop rest = true

theorem check_eq_ok {field address text : String} : check field address = .ok text ↔
    text = String.ofList (address.toList.rdropWhile (· = '/')) ∧
      ∃ scheme rest, Base (address.toList.rdropWhile (· = '/')) scheme rest := by
  unfold check
  dsimp only
  constructor
  · intro h
    split at h
    · cases h
    · rename_i scheme rest hsplit
      split_ifs at h with hhost hquery hat hhttps hhttp hloop
      all_goals
        cases h
        rw [not_or, List.isEmpty_iff] at hhost
        simp only [List.contains_iff_mem, not_or] at hquery hat
      · exact ⟨rfl, scheme, rest, hsplit, hhost, ⟨hquery.1, hquery.2, hat⟩,
          .inl hhttps⟩
      · exact ⟨rfl, scheme, rest, hsplit, hhost, ⟨hquery.1, hquery.2, hat⟩,
          .inr ⟨hhttp, hloop⟩⟩
  · rintro ⟨rfl, scheme, rest, hsplit, hhost, hplain, hsecure⟩
    rw [hsplit]
    dsimp only
    rw [if_neg, if_neg, if_neg]
    · obtain hhttps | ⟨hhttp, hloop⟩ := hsecure
      · rw [if_pos hhttps]
      · have hne : ¬ asciiLower scheme = "https".toList := by
          rw [hhttp]
          decide
        rw [if_neg hne, if_pos hhttp, if_pos hloop]
    · simpa only [List.contains_iff_mem] using hplain.2.2
    · simpa only [List.contains_iff_mem, not_or] using ⟨hplain.1, hplain.2.1⟩
    · simpa only [List.isEmpty_iff, not_or] using hhost

end FolderClient.Net.Connection
