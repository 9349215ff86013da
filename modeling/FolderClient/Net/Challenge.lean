import FolderClient.Net.Transport

namespace FolderClient.Net.Challenge

open FolderClient.Net.Transport FolderClient.Library.Texts

/-- Where a reader stands who knows quoted strings and their escapes. -/
inductive Quoting
  | outside
  | inside
  | escaped
deriving DecidableEq

def Quoting.next : Quoting → Char → Quoting
  | .outside, c => if c = '"' then .inside else .outside
  | .inside, c => if c = '"' then .outside else if c = '\\' then .escaped else .inside
  | .escaped, _ => .inside

def quoting (q : Quoting) (text : List Char) : Quoting := text.foldl Quoting.next q

section Turns

/-- What is still unread after one turn of the loop. -/
def next (c : Char) (text : List Char) : List Char :=
  if isLead c then
    match (text.dropWhile isNameChar).dropWhile (· = ' ') with
    | '=' :: rest => (parameterValue (rest.dropWhile (· = ' '))).2
    | _ => text.dropWhile isNameChar
  else text

/-- What one turn of the loop adds to what has been found. -/
def kept (found : List (String × String)) (c : Char) (text : List Char) : List (String × String) :=
  if isLead c then
    match (text.dropWhile isNameChar).dropWhile (· = ' ') with
    | '=' :: rest =>
      let name := String.ofList (asciiLower (c :: text.takeWhile isNameChar))
      if found.any (·.1 = name) then found
      else found ++ [(name, String.ofList (parameterValue (rest.dropWhile (· = ' '))).1)]
    | _ => found
  else found

/-- What is still unread after some turns. -/
def unread : ℕ → List Char → List Char
  | 0, text => text
  | _, [] => []
  | n + 1, c :: text => unread n (next c text)

/-- The loop stands before a part of the header. -/
inductive Stands : List Char → List Char → Prop
  | first (text : List Char) : Stands text text
  | turn {c : Char} {text rest : List Char} : Stands (next c text) rest → Stands (c :: text) rest

/-- A word is taken as the name of a scheme or of a parameter. -/
structure Takes (header before word rest : List Char) : Prop where
  whole : header = before ++ word ++ rest
  stands : Stands header (word ++ rest)
  word : ∃ c text, isLead c = true ∧ word ++ rest = c :: text ∧
    word = c :: text.takeWhile isNameChar

/-- No letter of a word that is taken stands inside a quoted string. -/
def Free (header : List Char) : Prop :=
  ∀ before word rest, Takes header before word rest → ∀ a c b, word = a ++ c :: b →
    quoting .outside (before ++ a) = .outside

end Turns

section Grammar

/-- What stands behind the quoted string one stands in. -/
def behind : Quoting → List Char → List Char
  | .outside, text => text
  | _, [] => []
  | q, c :: text => behind (q.next c) text

/-- No word begins before the end of the quoted string one stands in. -/
def silent : Quoting → List Char → Bool
  | .outside, _ => true
  | _, [] => true
  | q, c :: text => !isLead c && silent (q.next c) text

/-- A word, as the name of a scheme or of a parameter. -/
def Word (word : List Char) : Prop :=
  ∃ c more, word = c :: more ∧ isLead c = true ∧ ∀ d ∈ more, isNameChar d = true

/-- A value, and what follows it: in quotation marks without another one in between, or without
quotation marks up to a comma or a space. -/
inductive Value : List Char → List Char → Prop
  | quoted {body rest : List Char} : '"' ∉ body → Value ('"' :: body ++ ['"']) rest
  | unclosed {body : List Char} : '"' ∉ body → Value ('"' :: body) []
  | token {value rest : List Char} : value.head? ≠ some '"' → (∀ c ∈ value, c ≠ ',' ∧ c ≠ ' ') →
      (∀ c ∈ rest.head?, c = ',' ∨ c = ' ' ∧ value ≠ []) → Value value rest

/-- A header in whose quoted strings words begin only within the values that the strings are: behind
a string that does not end with its value, no word begins before it does. -/
inductive Harmless : List Char → Prop
  | done : Harmless []
  | other {c : Char} {text : List Char} : isLead c = false →
      silent (Quoting.outside.next c) text = true →
      Harmless (behind (Quoting.outside.next c) text) → Harmless (c :: text)
  | scheme {word rest : List Char} : Word word → (∀ c ∈ rest.head?, isNameChar c = false) →
      (∀ more, rest.dropWhile (· = ' ') ≠ '=' :: more) → Harmless rest → Harmless (word ++ rest)
  | parameter {word value rest : List Char} {m n : ℕ} : Word word → Value value rest →
      silent (quoting .outside value) rest = true →
      Harmless (behind (quoting .outside value) rest) →
      Harmless (word ++ (List.replicate m ' ' ++ '=' :: (List.replicate n ' ' ++ (value ++ rest))))

end Grammar

section Scanning

variable {c d : Char} {text rest before word value consumed header : List Char} {q : Quoting}
  {found : List (String × String)}

theorem quoting_append (q : Quoting) (a b : List Char) :
    quoting q (a ++ b) = quoting (quoting q a) b := List.foldl_append ..

/-- Text without quotation marks opens no quoted string. -/
theorem quoting_plain {l : List Char} (h : '"' ∉ l) : quoting .outside l = .outside := by
  induction l with
  | nil => rfl
  | cons c l ih =>
    rw [List.mem_cons, not_or] at h
    have hnext : Quoting.outside.next c = .outside := if_neg (Ne.symm h.1)
    show quoting (Quoting.outside.next c) l = .outside
    rw [hnext]
    exact ih h.2

theorem Word.quote_notMem (h : Word word) : '"' ∉ word := by
  obtain ⟨c, more, rfl, hlead, hmore⟩ := h
  intro hmem
  rcases List.mem_cons.mp hmem with rfl | hmem
  · exact absurd hlead (by decide)
  · exact absurd (hmore _ hmem) (by decide)

theorem dropWhile_exact {p : Char → Bool} {a b : List Char} (ha : ∀ x ∈ a, p x = true)
    (hb : ∀ x ∈ b.head?, p x = false) : (a ++ b).dropWhile p = b := by
  rw [List.dropWhile_append_of_pos ha]
  cases b with
  | nil => rfl
  | cons x b => exact List.dropWhile_cons_of_neg (by simp [hb x rfl])

theorem head_dropWhile {p : Char → Bool} {l : List Char} : ∀ x ∈ (l.dropWhile p).head?, p x = false := by
  intro x hx
  have h := List.head?_dropWhile_not p l
  rw [Option.mem_def.mp hx] at h
  simpa using h

/-- Spaces stand before what is left when they are skipped. -/
theorem skip_spaces (l : List Char) :
    ∃ n, l = List.replicate n ' ' ++ l.dropWhile (· = ' ') := by
  refine ⟨(l.takeWhile (· = ' ')).length, ?_⟩
  have hspaces : List.replicate (l.takeWhile (· = ' ')).length ' ' = l.takeWhile (· = ' ') := by
    refine (List.eq_replicate_iff.mpr ⟨rfl, fun x hx ↦ ?_⟩).symm
    simpa using List.mem_takeWhile_imp hx
  rw [hspaces, List.takeWhile_append_dropWhile]

/-- What is read as a value is one. -/
theorem value_of_parameterValue (h : ∀ c ∈ text.head?, c ≠ ' ') :
    ∃ value, text = value ++ (parameterValue text).2 ∧ Value value (parameterValue text).2 := by
  unfold parameterValue
  split
  · rename_i text
    have hbody : '"' ∉ text.takeWhile (· ≠ '"') := by
      intro hmem
      simpa using List.mem_takeWhile_imp hmem
    have hsplit : text.takeWhile (· ≠ '"') ++ text.dropWhile (· ≠ '"') = text :=
      List.takeWhile_append_dropWhile
    cases hrest : text.dropWhile (· ≠ '"') with
    | nil =>
      rw [hrest, List.append_nil] at hsplit
      refine ⟨'"' :: text, ?_, .unclosed ?_⟩
      · simp
      · rw [← hsplit]
        exact hbody
    | cons c rest =>
      have hc := head_dropWhile (p := (· ≠ '"')) (l := text) c (by rw [hrest]; rfl)
      obtain rfl : c = '"' := by simpa using hc
      rw [hrest] at hsplit
      refine ⟨'"' :: text.takeWhile (· ≠ '"') ++ ['"'], ?_, .quoted hbody⟩
      dsimp only
      rw [List.drop_one, List.tail_cons, List.cons_append, List.cons_append, List.append_assoc,
        List.singleton_append, hsplit]
  · rename_i hquote
    refine ⟨text.takeWhile fun c ↦ c ≠ ',' ∧ c ≠ ' ', List.takeWhile_append_dropWhile.symm, ?_⟩
    have hhead : text.head? ≠ some '"' := by
      intro hh
      cases text with
      | nil => cases hh
      | cons c text =>
        cases hh
        exact hquote text rfl
    refine .token ?_ ?_ ?_
    · intro hh
      cases text with
      | nil => cases hh
      | cons c text =>
        rw [List.takeWhile_cons] at hh
        split at hh
        · exact hhead hh
        · cases hh
    · intro c hc
      simpa using List.mem_takeWhile_imp hc
    · intro c hc
      have hstop := head_dropWhile c hc
      rw [decide_eq_false_iff_not, not_and_or, not_not, not_not] at hstop
      rcases hstop with hcomma | hspace
      · exact .inl hcomma
      · refine .inr ⟨hspace, fun hnone ↦ ?_⟩
        have hwhole := List.takeWhile_append_dropWhile (p := fun c ↦ decide (c ≠ ',' ∧ c ≠ ' '))
          (l := text)
        rw [hnone, List.nil_append] at hwhole
        rw [hwhole] at hc
        exact h c hc hspace

/-- A value is read as it stands. -/
theorem parameterValue_of_value (h : Value value rest) :
    (parameterValue (value ++ rest)).2 = rest ∧ ∀ c ∈ (value ++ rest).head?, c ≠ ' ' := by
  cases h with
  | @quoted body rest hbody =>
    have hall : ∀ c ∈ body, decide (c ≠ '"') = true := fun c hc ↦
      decide_eq_true fun h ↦ hbody (h ▸ hc)
    have hdrop : (body ++ '"' :: rest).dropWhile (· ≠ '"') = '"' :: rest :=
      dropWhile_exact hall (by rintro x ⟨⟩; rfl)
    refine ⟨?_, by rintro x ⟨⟩; decide⟩
    rw [List.cons_append, List.cons_append, List.append_assoc, List.singleton_append]
    show ((body ++ '"' :: rest).dropWhile (· ≠ '"')).drop 1 = rest
    rw [hdrop]
    rfl
  | @unclosed body hbody =>
    have hall : ∀ c ∈ body, decide (c ≠ '"') = true := fun c hc ↦
      decide_eq_true fun h ↦ hbody (h ▸ hc)
    have hdrop : (body ++ []).dropWhile (· ≠ '"') = [] := dropWhile_exact hall (by rintro x ⟨⟩)
    refine ⟨?_, by rintro x ⟨⟩; decide⟩
    show ((body ++ []).dropWhile (· ≠ '"')).drop 1 = []
    rw [hdrop]
    rfl
  | token hhead hall hstop =>
    have hquote : ∀ more, value ++ rest ≠ '"' :: more := by
      intro more heq
      cases value with
      | nil =>
        rcases hstop '"' (congrArg List.head? heq) with h | ⟨h, -⟩
        · exact absurd h (by decide)
        · exact absurd h (by decide)
      | cons c value =>
        exact hhead (congrArg some (List.cons.inj heq).1)
    have hread : (parameterValue (value ++ rest)).2 =
        (value ++ rest).dropWhile fun c ↦ decide (c ≠ ',' ∧ c ≠ ' ') := by
      unfold parameterValue
      split
      · rename_i more heq
        exact absurd heq (hquote more)
      · rfl
    refine ⟨?_, ?_⟩
    · rw [hread]
      refine dropWhile_exact (fun c hc ↦ decide_eq_true (hall c hc)) fun c hc ↦ ?_
      rw [decide_eq_false_iff_not, not_and_or, not_not, not_not]
      exact (hstop c hc).imp_right And.left
    · intro c hc
      cases value with
      | nil =>
        rcases hstop c hc with rfl | ⟨-, hne⟩
        · decide
        · exact absurd rfl hne
      | cons d value =>
        cases hc
        exact (hall c List.mem_cons_self).2

/-- What one turn of the loop reads: a character that begins no word, the name of a scheme, or a
parameter with its value. -/
theorem turn_cases (c : Char) (text : List Char) :
    (isLead c = false ∧ next c text = text) ∨
    (∃ word, Word word ∧ isLead c = true ∧ c :: text = word ++ next c text ∧
      (∀ d ∈ (next c text).head?, isNameChar d = false) ∧
      ∀ more, (next c text).dropWhile (· = ' ') ≠ '=' :: more) ∨
    ∃ word value m n, Word word ∧ isLead c = true ∧ Value value (next c text) ∧
      c :: text = word ++ (List.replicate m ' ' ++ '=' ::
        (List.replicate n ' ' ++ (value ++ next c text))) := by
  cases hc : isLead c with
  | false =>
    refine .inl ⟨rfl, ?_⟩
    rw [next, hc, if_neg Bool.false_ne_true]
  | true =>
    have hword : Word (c :: text.takeWhile isNameChar) :=
      ⟨c, _, rfl, hc, fun d hd ↦ List.mem_takeWhile_imp hd⟩
    have hsplit : c :: text = c :: text.takeWhile isNameChar ++ text.dropWhile isNameChar := by
      rw [List.cons_append, List.takeWhile_append_dropWhile]
    rw [next, if_pos hc]
    split
    · rename_i rest hrest
      obtain ⟨m, hm⟩ := skip_spaces (text.dropWhile isNameChar)
      obtain ⟨n, hn⟩ := skip_spaces rest
      obtain ⟨value, hvalue, hv⟩ := @value_of_parameterValue (rest.dropWhile (· = ' '))
        fun d hd ↦ by simpa using head_dropWhile d hd
      refine .inr (.inr ⟨_, value, m, n, hword, rfl, hv, ?_⟩)
      rw [hsplit, ← hvalue, ← hn, ← hrest, ← hm]
    · rename_i hnone
      refine .inr (.inl ⟨_, hword, rfl, hsplit, fun d hd ↦ ?_, fun more h ↦ hnone more h⟩)
      exact head_dropWhile d hd

/-- What a turn reads before what it leaves. -/
theorem exists_consumed (c : Char) (text : List Char) :
    ∃ consumed, consumed ≠ [] ∧ c :: text = consumed ++ next c text := by
  rcases turn_cases c text with ⟨-, h⟩ | ⟨word, hword, -, h, -⟩ | ⟨word, value, m, n, hword, -, -, h⟩
  · refine ⟨[c], List.cons_ne_nil _ _, ?_⟩
    rw [h]
    rfl
  · obtain ⟨d, more, rfl, -⟩ := hword
    exact ⟨_, List.cons_ne_nil _ _, h⟩
  · obtain ⟨d, more, rfl, -⟩ := hword
    refine ⟨d :: more ++ (List.replicate m ' ' ++ '=' :: (List.replicate n ' ' ++ value)),
      List.cons_ne_nil _ _, h.trans ?_⟩
    simp

theorem length_next_le (c : Char) (text : List Char) : (next c text).length ≤ text.length := by
  obtain ⟨consumed, hne, h⟩ := exists_consumed c text
  have hlength := congrArg List.length h
  have hpos := List.length_pos_iff.mpr hne
  rw [List.length_cons, List.length_append] at hlength
  omega

/-- The loop ends. -/
theorem exists_unread (n : ℕ) (text : List Char) (h : text.length ≤ n) : unread n text = [] := by
  induction n generalizing text with
  | zero => exact List.length_eq_zero_iff.mp (Nat.le_zero.mp h)
  | succ n ih =>
    cases text with
    | nil => rfl
    | cons c text =>
      exact ih _ ((length_next_le c text).trans (Nat.le_of_succ_le_succ h))

theorem stands_cons : Stands (c :: text) rest ↔ rest = c :: text ∨ Stands (next c text) rest := by
  constructor
  · intro h
    cases h with
    | first => exact .inl rfl
    | turn h => exact .inr h
  · rintro (rfl | h)
    · exact .first _
    · exact .turn h

theorem stands_unread (n : ℕ) (text : List Char) : Stands text (unread n text) := by
  induction n generalizing text with
  | zero => exact .first _
  | succ n ih =>
    cases text with
    | nil => exact .first _
    | cons c text => exact .turn (ih _)

theorem Stands.suffix (h : Stands text rest) : ∃ before, text = before ++ rest := by
  induction h with
  | first text => exact ⟨[], rfl⟩
  | @turn c text rest _ ih =>
    obtain ⟨before, hbefore⟩ := ih
    obtain ⟨consumed, -, hconsumed⟩ := exists_consumed c text
    exact ⟨consumed ++ before, by rw [hconsumed, hbefore, List.append_assoc]⟩

/-- Wherever the loop takes a word, the reader of quoted strings stands outside. -/
def Clear (q : Quoting) (text : List Char) : Prop :=
  ∀ before c rest, text = before ++ c :: rest → Stands text (c :: rest) → isLead c = true →
    quoting q before = .outside

theorem clear_nil (q : Quoting) : Clear q [] := by
  intro before c rest h
  exact absurd h.symm (by simp)

theorem clear_cons (h : c :: text = consumed ++ next c text) :
    Clear q (c :: text) ↔
      (isLead c = true → q = .outside) ∧ Clear (quoting q consumed) (next c text) := by
  constructor
  · intro hclear
    refine ⟨hclear [] c text rfl (.first _), fun before d rest heq hstands hlead ↦ ?_⟩
    rw [← quoting_append]
    refine hclear (consumed ++ before) d rest ?_ (.turn hstands) hlead
    rw [h, heq, List.append_assoc]
  · rintro ⟨hfirst, hclear⟩ before d rest heq hstands hlead
    rcases stands_cons.mp hstands with hsame | hstands
    · obtain rfl : before = [] := by
        have hlength := congrArg List.length heq
        rw [hsame, List.length_append] at hlength
        exact List.length_eq_zero_iff.mp (by omega)
      obtain ⟨rfl, -⟩ := List.cons.inj hsame
      exact hfirst hlead
    · obtain ⟨middle, hmiddle⟩ := hstands.suffix
      have hbefore : before = consumed ++ middle := by
        rw [h, hmiddle, ← List.append_assoc] at heq
        exact (List.append_cancel_right heq).symm
      rw [hbefore, quoting_append]
      exact hclear middle d rest hmiddle hstands hlead

theorem clear_of_not_lead (h : isLead c = false) :
    Clear q (c :: text) ↔ Clear (q.next c) text := by
  have hnext : next c text = text := by rw [next, h, if_neg Bool.false_ne_true]
  rw [@clear_cons c text [c] q (by rw [hnext]; rfl), hnext, h]
  exact and_iff_right fun h ↦ absurd h Bool.false_ne_true

/-- From within a quoted string: no word begins before its end, nor any inside one behind it. -/
theorem clear_iff (q : Quoting) (text : List Char) :
    Clear q text ↔ silent q text = true ∧ Clear .outside (behind q text) := by
  induction text generalizing q with
  | nil =>
    cases q
    · exact ⟨fun h ↦ ⟨rfl, h⟩, And.right⟩
    · exact ⟨fun _ ↦ ⟨rfl, clear_nil _⟩, fun _ ↦ clear_nil _⟩
    · exact ⟨fun _ ↦ ⟨rfl, clear_nil _⟩, fun _ ↦ clear_nil _⟩
  | cons c text ih =>
    have hinside : q ≠ .outside → (Clear q (c :: text) ↔
        (!isLead c && silent (q.next c) text) = true ∧
          Clear .outside (behind (q.next c) text)) := by
      intro hq
      cases hc : isLead c with
      | false =>
        rw [clear_of_not_lead hc, ih]
        simp
      | true =>
        constructor
        · intro h
          exact absurd (h [] c text rfl (.first _) hc) hq
        · rintro ⟨h, -⟩
          cases h
    cases q with
    | outside => exact ⟨fun h ↦ ⟨rfl, h⟩, And.right⟩
    | inside => exact hinside (by decide)
    | escaped => exact hinside (by decide)

theorem length_behind_le' (q : Quoting) (text : List Char) :
    (behind q text).length ≤ text.length := by
  induction text generalizing q with
  | nil => cases q <;> exact le_rfl
  | cons c text ih =>
    cases q with
    | outside => exact le_rfl
    | inside => exact (ih _).trans (Nat.le_succ _)
    | escaped => exact (ih _).trans (Nat.le_succ _)

/-- Neither the word nor what stands before a value opens a quoted string. -/
theorem quoting_parameter (hword : Word word) (m n : ℕ) (value : List Char) :
    quoting .outside (word ++ (List.replicate m ' ' ++ '=' :: (List.replicate n ' ' ++ value))) =
      quoting .outside value := by
  have hplain : '"' ∉ word ++ (List.replicate m ' ' ++ '=' :: List.replicate n ' ') := by
    intro hmem
    simp only [List.mem_append, List.mem_cons, List.mem_replicate] at hmem
    rcases hmem with hmem | ⟨-, h⟩ | h | ⟨-, h⟩
    · exact hword.quote_notMem hmem
    · exact absurd h (by decide)
    · exact absurd h (by decide)
    · exact absurd h (by decide)
  have hsplit : word ++ (List.replicate m ' ' ++ '=' :: (List.replicate n ' ' ++ value)) =
      word ++ (List.replicate m ' ' ++ '=' :: List.replicate n ' ') ++ value := by simp
  rw [hsplit, quoting_append, quoting_plain hplain]

theorem next_scheme {more : List Char} (hlead : isLead c = true)
    (hmore : ∀ d ∈ more, isNameChar d = true) (hends : ∀ d ∈ rest.head?, isNameChar d = false)
    (hscheme : ∀ after, rest.dropWhile (· = ' ') ≠ '=' :: after) : next c (more ++ rest) = rest := by
  have hdrop : (more ++ rest).dropWhile isNameChar = rest := dropWhile_exact hmore hends
  rw [next, if_pos hlead]
  split
  · rename_i after hafter
    rw [hdrop] at hafter
    exact absurd hafter (hscheme after)
  · exact hdrop

theorem next_parameter {more : List Char} {m n : ℕ} (hlead : isLead c = true)
    (hmore : ∀ d ∈ more, isNameChar d = true) (hvalue : Value value rest) :
    next c (more ++ (List.replicate m ' ' ++ '=' :: (List.replicate n ' ' ++ (value ++ rest)))) =
      rest := by
  obtain ⟨hread, hhead⟩ := parameterValue_of_value hvalue
  have hspaces : ∀ k, ∀ d ∈ List.replicate k ' ', decide (d = ' ') = true := fun k d hd ↦
    decide_eq_true (List.eq_of_mem_replicate hd)
  have hname : (more ++ (List.replicate m ' ' ++ '=' ::
      (List.replicate n ' ' ++ (value ++ rest)))).dropWhile isNameChar =
        List.replicate m ' ' ++ '=' :: (List.replicate n ' ' ++ (value ++ rest)) := by
    refine dropWhile_exact hmore fun d hd ↦ ?_
    cases m with
    | zero => cases hd; decide
    | succ m => cases hd; decide
  have hsign : (List.replicate m ' ' ++ '=' :: (List.replicate n ' ' ++ (value ++ rest))).dropWhile
      (· = ' ') = '=' :: (List.replicate n ' ' ++ (value ++ rest)) :=
    dropWhile_exact (hspaces m) (by rintro d ⟨⟩; rfl)
  have hbefore : (List.replicate n ' ' ++ (value ++ rest)).dropWhile (· = ' ') = value ++ rest :=
    dropWhile_exact (hspaces n) fun d hd ↦ decide_eq_false (hhead d hd)
  rw [next, if_pos hlead, hname, hsign]
  show (parameterValue ((List.replicate n ' ' ++ (value ++ rest)).dropWhile (· = ' '))).2 = rest
  rw [hbefore, hread]

theorem harmless_of_clear (n : ℕ) (text : List Char) (hlength : text.length ≤ n)
    (h : Clear .outside text) : Harmless text := by
  induction n generalizing text with
  | zero =>
    rw [List.length_eq_zero_iff.mp (Nat.le_zero.mp hlength)]
    exact .done
  | succ n ih =>
    cases text with
    | nil => exact .done
    | cons c text =>
      rw [List.length_cons, Nat.succ_le_succ_iff] at hlength
      have hnext := (length_next_le c text).trans hlength
      rcases turn_cases c text with ⟨hlead, -⟩ | ⟨word, hword, -, heq, hends, hscheme⟩ |
        ⟨word, value, m, k, hword, -, hvalue, heq⟩
      · obtain ⟨hsilent, hclear⟩ := (clear_iff _ text).mp ((clear_of_not_lead hlead).mp h)
        exact .other hlead hsilent (ih _ ((length_behind_le' _ text).trans hlength) hclear)
      · have hclear := ((clear_cons heq).mp h).2
        rw [quoting_plain hword.quote_notMem] at hclear
        rw [heq]
        exact .scheme hword hends hscheme (ih _ hnext hclear)
      · have hconsumed : c :: text = word ++ (List.replicate m ' ' ++ '=' ::
            (List.replicate k ' ' ++ value)) ++ next c text := by
          rw [heq]
          simp
        have hclear := ((clear_cons hconsumed).mp h).2
        rw [quoting_parameter hword, clear_iff] at hclear
        rw [heq]
        exact .parameter hword hvalue hclear.1
          (ih _ ((length_behind_le' _ _).trans hnext) hclear.2)

theorem clear_of_harmless (h : Harmless text) : Clear .outside text := by
  induction h with
  | done => exact clear_nil _
  | other hlead hsilent _ ih => exact (clear_of_not_lead hlead).mpr ((clear_iff _ _).mpr ⟨hsilent, ih⟩)
  | @scheme word rest hword hends hscheme _ ih =>
    have hplain := quoting_plain hword.quote_notMem
    obtain ⟨c, more, rfl, hlead, hmore⟩ := hword
    have hnext := next_scheme hlead hmore hends hscheme
    rw [List.cons_append]
    refine (@clear_cons c _ (c :: more) _ ?_).mpr ⟨fun _ ↦ rfl, ?_⟩
    · rw [hnext]
      rfl
    · rw [hplain, hnext]
      exact ih
  | @parameter word value rest m n hword hvalue hsilent _ ih =>
    have hquoting := quoting_parameter hword m n value
    obtain ⟨c, more, rfl, hlead, hmore⟩ := hword
    have hnext := next_parameter (m := m) (n := n) hlead hmore hvalue
    rw [List.cons_append]
    refine (@clear_cons c _ (c :: more ++ (List.replicate m ' ' ++ '=' ::
      (List.replicate n ' ' ++ value))) _ ?_).mpr ⟨fun _ ↦ rfl, ?_⟩
    · rw [hnext]
      simp
    · rw [hquoting, hnext]
      exact (clear_iff _ _).mpr ⟨hsilent, ih⟩

/-- Every letter of a word that is taken stands outside if its first one does. -/
theorem free_iff : Free header ↔ Clear .outside header := by
  constructor
  · intro h before c rest heq hstands hlead
    have htakes : Takes header before (c :: rest.takeWhile isNameChar)
        (rest.dropWhile isNameChar) := by
      have hsplit : c :: rest.takeWhile isNameChar ++ rest.dropWhile isNameChar = c :: rest := by
        rw [List.cons_append, List.takeWhile_append_dropWhile]
      refine ⟨?_, ?_, c, rest, hlead, hsplit, rfl⟩
      · rw [List.append_assoc, hsplit, heq]
      · rw [hsplit]
        exact hstands
    have hfirst := h _ _ _ htakes [] c _ rfl
    rwa [List.append_nil] at hfirst
  · rintro h before word rest ⟨hwhole, hstands, d, text, hlead, hsplit, hword⟩ a c b heq
    rw [hsplit] at hstands
    rw [List.append_assoc, hsplit] at hwhole
    rw [quoting_append, h before d text hwhole hstands hlead]
    apply quoting_plain
    have htaken : Word word := ⟨d, _, hword, hlead, fun x hx ↦ List.mem_takeWhile_imp hx⟩
    intro hmem
    exact htaken.quote_notMem (heq ▸ List.mem_append_left _ hmem)

end Scanning

section Fields

variable {header : List Char}

/-- The loop of the reader takes its turns one after the other. -/
theorem parameterFrom_cons (found : List (String × String)) (c : Char) (text : List Char) :
    parameterFrom found (c :: text) = parameterFrom (kept found c text) (next c text) := by
  cases hc : isLead c with
  | false => rw [parameterFrom_of_not_lead hc, kept, next, hc, if_neg Bool.false_ne_true,
      if_neg Bool.false_ne_true]
  | true =>
    rw [kept, next, if_pos hc, if_pos hc]
    by_cases hrest : ∃ rest, (text.dropWhile isNameChar).dropWhile (· = ' ') = '=' :: rest
    · obtain ⟨rest, hrest⟩ := hrest
      rw [parameterFrom_parameter hc hrest, hrest]
      dsimp only
      split
      · rfl
      · rfl
    · rw [parameterFrom_scheme hc (not_exists.mp hrest)]
      split
      · rename_i more hmore
        exact absurd ⟨more, hmore⟩ hrest
      · rfl

theorem Takes.later {c : Char} {text before word rest : List Char}
    (h : Takes (next c text) before word rest) :
    ∃ earlier, Takes (c :: text) (earlier ++ before) word rest := by
  obtain ⟨consumed, -, hconsumed⟩ := exists_consumed c text
  refine ⟨consumed, ?_, .turn h.stands, h.word⟩
  rw [hconsumed, h.whole]
  simp

/-- The name of a parameter that is found is a word that was taken. -/
theorem taken_of_field (n : ℕ) (text : List Char) (hlength : text.length ≤ n)
    {found : List (String × String)} {field : String × String}
    (h : field ∈ parameterFrom found text) :
    field ∈ found ∨ ∃ before word rest, Takes text before word rest ∧
      field.1 = String.ofList (asciiLower word) := by
  induction n generalizing text found with
  | zero =>
    rw [List.length_eq_zero_iff.mp (Nat.le_zero.mp hlength), parameterFrom_nil] at h
    exact .inl h
  | succ n ih =>
    cases text with
    | nil =>
      rw [parameterFrom_nil] at h
      exact .inl h
    | cons c text =>
      rw [List.length_cons, Nat.succ_le_succ_iff] at hlength
      rw [parameterFrom_cons] at h
      rcases ih _ ((length_next_le c text).trans hlength) h with hkept | ⟨before, word, rest, htakes,
        hname⟩
      · unfold kept at hkept
        split at hkept
        · rename_i hlead
          split at hkept
          · dsimp only at hkept
            split at hkept
            · exact .inl hkept
            · rcases List.mem_append.mp hkept with hfound | hnew
              · exact .inl hfound
              · refine .inr ⟨[], c :: text.takeWhile isNameChar, text.dropWhile isNameChar, ?_, ?_⟩
                · have hsplit : c :: text.takeWhile isNameChar ++ text.dropWhile isNameChar =
                      c :: text := by rw [List.cons_append, List.takeWhile_append_dropWhile]
                  refine ⟨?_, ?_, c, text, hlead, hsplit, rfl⟩
                  · rw [List.nil_append, hsplit]
                  · rw [hsplit]
                    exact .first _
                · rw [List.mem_singleton.mp hnew]
          · exact .inl hkept
        · exact .inl hkept
      · obtain ⟨earlier, htakes⟩ := htakes.later
        exact .inr ⟨_, word, rest, htakes, hname⟩

end Fields

/-- The loop ends on every header, the parameters found are words it has taken, and none of these
stands inside a quoted string exactly if the header is harmless. -/
theorem challenge_quoting (header : String) :
    (∃ n ≤ header.toList.length, unread n header.toList = []) ∧
      (∀ field ∈ parameter (some header), ∃ before word rest,
        Takes header.toList before word rest ∧ field.1 = String.ofList (asciiLower word)) ∧
      (Free header.toList ↔ Harmless header.toList) := by
  refine ⟨⟨_, le_rfl, exists_unread _ _ le_rfl⟩, fun field hfield ↦ ?_, ?_⟩
  · rcases taken_of_field _ _ le_rfl hfield with h | h
    · exact absurd h List.not_mem_nil
    · exact h
  · rw [free_iff]
    exact ⟨harmless_of_clear _ _ le_rfl, clear_of_harmless⟩

def escapedHeader : String := "Bearer realm=\"a\\\", error=use_dpop_nonce \""

/-- Behind an escaped quotation mark, the text of a quoted string demands a nonce. -/
theorem escaped_taken :
    ¬ (∀ header : String, (∃ n, unread n header.toList = []) ∧ Free header.toList) ∧
      requiresNonce (some escapedHeader) = true := by
  refine ⟨fun h ↦ ?_, by decide +kernel⟩
  have hstands := stands_unread 5 escapedHeader.toList
  have hunread : unread 5 escapedHeader.toList = "error=use_dpop_nonce \"".toList := by
    decide +kernel
  rw [hunread] at hstands
  have hclear := free_iff.mp (h escapedHeader).2 "Bearer realm=\"a\\\", ".toList 'e'
    "rror=use_dpop_nonce \"".toList (by decide +kernel) hstands (by decide)
  revert hclear
  decide +kernel

end FolderClient.Net.Challenge
