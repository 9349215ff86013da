import FolderClient.I18n.Reader

namespace FolderClient.I18n.Catalogues

open FolderClient.Library FolderClient.Library.Results
open FolderClient.Library.Segments FolderClient.Library.Texts FolderClient.Library.Toml
open FolderClient.I18n.Reader

/-- The digits of an escape as they are read: four characters, fewer only at the end of a text over
several lines, with a sign or without one. -/
def looseDigits (several : Bool) (ds : List Char) (c : Char) (more : List Char) : Prop :=
  (ds.length = 4 ∨ several = true ∧ ds.length < 4 ∧ more = []) ∧
    (fromStrRadix ds).bind fromU32 = some c

/-- The items a catalogue is taken apart into. -/
def Pieces (source : String) (items : List Item) : Prop :=
  (lines source.toList).map withoutReturn = items.flatMap Item.rows ∧
    ∀ item ∈ items, item.Fits isWhitespace looseDigits

section Strings

variable {c : Char} {rest left text value tail : List Char}

theorem escape_cases (h : escape rest = .ok (c, left)) :
    (∃ e, (e, c) ∈ escapes ∧ rest = e :: left) ∨
      ∃ more, rest = 'u' :: more ∧ (fromStrRadix (more.take 4)).bind fromU32 = some c ∧
        left = more.drop 4 := by
  unfold escape at h
  split at h
  case h_6 more =>
    dsimp only at h
    split at h
    · cases h
    · rename_i value hvalue
      split at h
      · cases h
      · rename_i hchar
        cases h
        exact .inr ⟨more, rfl, by rw [hvalue, Option.bind_some, hchar], rfl⟩
  case h_7 => cases h
  case h_8 => cases h
  all_goals
    cases h
    exact .inl ⟨_, by decide, rfl⟩

theorem scan_cons (c : Char) (rest : List Char) : scan (c :: rest) =
    if c = '"' then .ok ([], rest)
    else if c = '\\' then
      escape rest >>= fun (c, left) ↦ (scan left).map fun (out, tail) ↦ (c :: out, tail)
    else (scan rest).map fun (out, tail) ↦ (c :: out, tail) := by
  rw [scan]
  split
  · rfl
  · split
    · split
      · rename_i hescape
        rw [hescape]
        rfl
      · rename_i hescape
        rw [hescape]
        rfl
    · rfl

theorem unescape_cons (c : Char) (rest : List Char) : unescape (c :: rest) =
    if c = '\\' then escape rest >>= fun (c, left) ↦ (unescape left).map (c :: ·)
    else (unescape rest).map (c :: ·) := by
  rw [unescape]
  split
  · split
    · rename_i hescape
      rw [hescape]
      rfl
    · rename_i hescape
      rw [hescape]
      rfl
  · rfl

/-- What is read up to a closing quotation mark stands before it. -/
theorem reads_of_scan (n : ℕ) (text : List Char) (hlength : text.length ≤ n)
    (h : scan text = .ok (value, tail)) :
    ∃ raw, text = raw ++ '"' :: tail ∧ Reads (looseDigits false) false raw value := by
  induction n generalizing text value with
  | zero =>
    rw [List.length_eq_zero_iff.mp (Nat.le_zero.mp hlength), scan] at h
    cases h
  | succ n ih =>
    cases text with
    | nil =>
      rw [scan] at h
      cases h
    | cons c rest =>
      rw [List.length_cons, Nat.succ_le_succ_iff] at hlength
      rw [scan_cons] at h
      split at h
      · rename_i hquote
        cases h
        exact ⟨[], by rw [hquote]; rfl, .done⟩
      · rename_i hquote
        split at h
        · rename_i hback
          obtain ⟨⟨d, left⟩, hescape, h⟩ := bind_eq_ok.mp h
          obtain ⟨⟨out, tail'⟩, hscan, heq⟩ := map_eq_ok.mp h
          cases heq
          have hshort := escape_shorter hescape
          obtain ⟨raw, rfl, hraw⟩ := ih left (by omega) hscan
          rcases escape_cases hescape with ⟨e, he, rfl⟩ | ⟨more, rfl, hchar, hleft⟩
          · exact ⟨'\\' :: e :: raw, by rw [hback]; rfl, .escape he hraw⟩
          · have hmore : more = more.take 4 ++ (raw ++ '"' :: tail) := by
              rw [hleft, List.take_append_drop]
            have hfour : (more.take 4).length = 4 := by
              have hlong := congrArg List.length hleft
              rw [List.length_append, List.length_cons, List.length_drop] at hlong
              rw [List.length_take]
              omega
            refine ⟨'\\' :: 'u' :: (more.take 4 ++ raw), ?_, .unicode ⟨.inl hfour, hchar⟩ hraw⟩
            rw [hback, List.cons_append, List.cons_append, List.append_assoc, ← hmore]
        · rename_i hback
          obtain ⟨⟨out, tail'⟩, hscan, heq⟩ := map_eq_ok.mp h
          cases heq
          obtain ⟨raw, rfl, hraw⟩ := ih rest hlength hscan
          exact ⟨c :: raw, rfl, .plain hback (fun h ↦ absurd h hquote) hraw⟩

theorem reads_of_unescape (n : ℕ) (text : List Char) (hlength : text.length ≤ n)
    (h : unescape text = .ok value) : Reads (looseDigits true) true text value := by
  induction n generalizing text value with
  | zero =>
    rw [List.length_eq_zero_iff.mp (Nat.le_zero.mp hlength), unescape] at h
    cases h
    rw [List.length_eq_zero_iff.mp (Nat.le_zero.mp hlength)]
    exact .done
  | succ n ih =>
    cases text with
    | nil =>
      rw [unescape] at h
      cases h
      exact .done
    | cons c rest =>
      rw [List.length_cons, Nat.succ_le_succ_iff] at hlength
      rw [unescape_cons] at h
      split at h
      · rename_i hback
        obtain ⟨⟨d, left⟩, hescape, h⟩ := bind_eq_ok.mp h
        obtain ⟨out, hleft, rfl⟩ := map_eq_ok.mp h
        have hshort := escape_shorter hescape
        have hraw := ih left (by omega) hleft
        rw [hback]
        rcases escape_cases hescape with ⟨e, he, rfl⟩ | ⟨more, rfl, hchar, rfl⟩
        · exact .escape he hraw
        · rw [← List.take_append_drop 4 more]
          refine .unicode ⟨?_, hchar⟩ hraw
          by_cases hfour : 4 ≤ more.length
          · exact .inl (by rw [List.length_take]; omega)
          · refine .inr ⟨rfl, by rw [List.length_take]; omega, ?_⟩
            exact List.drop_eq_nil_of_le (by omega)
      · rename_i hback
        obtain ⟨out, hout, rfl⟩ := map_eq_ok.mp h
        exact .plain hback (fun _ ↦ rfl) (ih rest hlength hout)

end Strings

section Lines

variable {c : Char} {rest left text key row before after : List Char} {line : ℕ}
  {path table : List (List Char)}

/-- What is trimmed stands between white space. -/
theorem exists_trim (text : List Char) : ∃ a b, text = a ++ (trim text ++ b) ∧
    (∀ c ∈ a, isWhitespace c = true) ∧ ∀ c ∈ b, isWhitespace c = true := by
  refine ⟨text.takeWhile isWhitespace, (text.dropWhile isWhitespace).rtakeWhile isWhitespace, ?_,
    fun c hc ↦ List.mem_takeWhile_imp hc, fun c hc ↦ List.mem_rtakeWhile_imp hc⟩
  rw [trim, List.rdropWhile_append_rtakeWhile, List.takeWhile_append_dropWhile]

theorem dropWhile_spaces {a b : List Char} (h : ∀ c ∈ a, isWhitespace c = true) :
    (a ++ b).dropWhile isWhitespace = b.dropWhile isWhitespace :=
  List.dropWhile_append_of_pos h

theorem ends_spaces (h : ∀ c ∈ rest, isWhitespace c = true) : Ends isWhitespace rest := by
  intro c hc
  rw [List.dropWhile_eq_nil_iff.mpr h] at hc
  cases hc

/-- A tail that is passed over is white space, and then nothing or a comment. -/
theorem ends_of_checkTail (h : checkTail rest line = .ok ())
    (hafter : ∀ c ∈ after, isWhitespace c = true) : Ends isWhitespace (rest ++ after) := by
  unfold checkTail at h
  simp only [ite_error_eq_ok, not_and_or, not_not] at h
  obtain ⟨a, b, hsplit, ha, hb⟩ := exists_trim rest
  rcases h.1 with hnone | hsharp
  · refine ends_spaces fun c hc ↦ ?_
    rw [hsplit, hnone, List.nil_append] at hc
    simp only [List.mem_append] at hc
    rcases hc with (hc | hc) | hc
    · exact ha c hc
    · exact hb c hc
    · exact hafter c hc
  · obtain ⟨tail, htail⟩ := List.head?_eq_some_iff.mp hsharp
    intro c hc
    rw [hsplit, htail, List.append_assoc, dropWhile_spaces ha, List.cons_append, List.cons_append,
      List.dropWhile_cons_of_neg (by decide)] at hc
    cases hc
    rfl

/-- The first place where a separator of several characters stands is found. -/
theorem splitAt_le (separator a b : List Char) : ∃ before after,
    splitAt separator (a ++ (separator ++ b)) = some (before, after) ∧
      before.length ≤ a.length := by
  induction a with
  | nil =>
    have hstrip : strip separator (separator ++ b) = some b := strip_eq_some_iff.mpr rfl
    rw [List.nil_append]
    cases hwhole : separator ++ b with
    | nil =>
      obtain ⟨rfl, rfl⟩ := List.append_eq_nil_iff.mp hwhole
      exact ⟨[], [], rfl, le_rfl⟩
    | cons d rest =>
      refine ⟨[], b, ?_, le_rfl⟩
      rw [splitAt, ← hwhole, hstrip]
  | cons d a ih =>
    obtain ⟨before, after, hsplit, hle⟩ := ih
    rw [List.cons_append, splitAt]
    cases strip separator (d :: (a ++ (separator ++ b))) with
    | some rest => exact ⟨[], rest, rfl, Nat.zero_le _⟩
    | none =>
      refine ⟨d :: before, after, ?_, Nat.succ_le_succ hle⟩
      rw [hsplit]
      rfl

theorem not_infix_of_none (h : splitAt triple row = none) : ¬ triple <:+: row := by
  rintro ⟨a, b, rfl⟩
  obtain ⟨before, after, hsplit, -⟩ := splitAt_le triple a b
  rw [← List.append_assoc, h] at hsplit
  cases hsplit

theorem not_infix_of_some (h : splitAt triple row = some (before, after)) :
    ¬ triple <:+: before ++ ['"', '"'] := by
  rintro ⟨a, b, heq⟩
  have hfirst := splitAt_append h []
  have hwhole : before ++ triple ++ [] = a ++ (triple ++ (b ++ ['"'])) := by
    have hlonger := congrArg (· ++ ['"']) heq
    simpa [triple] using hlonger.symm
  rw [hwhole] at hfirst
  obtain ⟨before', after', hsplit, hle⟩ := splitAt_le triple a (b ++ ['"'])
  rw [hfirst] at hsplit
  cases hsplit
  have hlength := congrArg List.length heq
  simp only [triple, List.length_append, List.length_cons, List.length_nil] at hlength
  omega

/-- A key that passes is a dotted key. -/
theorem checkKey_eq_ok (h : checkKey text line = .ok key) :
    key = text ∧ ∃ path, Bare path ∧ text = dotted path := by
  unfold checkKey at h
  simp only [ite_error_eq_ok] at h
  obtain ⟨hne, h⟩ := h
  split at h
  · cases h
  · rename_i hnone
    cases h
    refine ⟨rfl, text.splitOn '.', ⟨List.splitOn_ne_nil _ _, fun part hpart ↦ ?_⟩,
      (List.intercalate_splitOn '.').symm⟩
    have hreason := List.findSome?_eq_none_iff.mp hnone part hpart
    unfold partReason at hreason
    split at hreason
    · cases hreason
    · rename_i hpart
      split at hreason
      · rename_i hall
        exact ⟨hpart, fun c hc ↦ List.all_eq_true.mp hall c hc⟩
      · cases hreason

theorem dotted_append (hpath : Bare path) (htable : table = [] ∨ Bare table) :
    (if dotted table = [] then dotted path else dotted table ++ '.' :: dotted path) =
      dotted (table ++ path) := by
  rcases htable with rfl | htable
  · rfl
  · obtain ⟨c, more, hc, -⟩ := exists_head htable
    rw [if_neg (by rw [hc]; exact List.cons_ne_nil _ _)]
    exact (joined_append htable.some hpath.some).symm

end Lines

section Turns

variable {c c' : Cursor} {row rest value : List Char} {rows left : List (List Char)}
  {line number start : ℕ} {table : List (List Char)}

/-- A key with its value, as they are found. -/
def pair (e : Entry) : String × String := (String.ofList (dotted e.key), String.ofList e.value)

/-- The table in which the keys behind an item stand. -/
def tableAfter (table : List (List Char)) : Item → List (List Char)
  | .header _ path _ => path
  | _ => table

theorem entriesFrom_cons (table : List (List Char)) (item : Item) (items : List Item) :
    entriesFrom table (item :: items) =
      entriesFrom table [item] ++ entriesFrom (tableAfter table item) items := by
  cases item <;> rfl

/-- The lines of a string over several lines are taken apart at its end. -/
theorem multiLineFrom_eq_ok {text : List Char}
    (h : multiLineFrom line number text rows = .ok (value, start, left)) :
    ∃ first last after, rows = first ++ (last ++ (triple ++ after)) :: left ∧
      unescape (text ++ body first last) = .ok value ∧ (∀ row ∈ first, ¬ triple <:+: row) ∧
      ¬ triple <:+: last ++ ['"', '"'] ∧ Ends isWhitespace after := by
  induction rows generalizing number text with
  | nil => cases h
  | cons row rows ih =>
    rw [multiLineFrom] at h
    split at h
    · rename_i before rest hsplit
      obtain ⟨⟨⟩, htail, h⟩ := bind_eq_ok.mp h
      obtain ⟨value, hvalue, h⟩ := bind_eq_ok.mp h
      cases h
      refine ⟨[], before, rest, ?_, ?_, ?_, not_infix_of_some hsplit, ?_⟩
      · rw [eq_of_splitAt hsplit, List.nil_append, List.append_assoc]
      · exact mapError_eq_ok.mp hvalue
      · exact fun row hrow ↦ absurd hrow List.not_mem_nil
      · have hends := @ends_of_checkTail _ [] _ htail fun c hc ↦ absurd hc List.not_mem_nil
        rwa [List.append_nil] at hends
    · rename_i hnone
      obtain ⟨first, last, after, rfl, hvalue, hfirst, hlast, hends⟩ := ih h
      refine ⟨row :: first, last, after, rfl, ?_, ?_, hlast, hends⟩
      · simpa [body, List.append_assoc] using hvalue
      · intro row' hrow'
        rcases List.mem_cons.mp hrow' with rfl | hrow'
        · exact not_infix_of_none hnone
        · exact hfirst row' hrow'

/-- A value stands behind white space: a string of one line with what may follow it, or the first
line of a string over several. -/
theorem readValue_eq_ok (h : readValue rest rows start = .ok (value, number, left))
    {after : List Char} (hafter : ∀ c ∈ after, isWhitespace c = true) :
    ∃ gap, (∀ c ∈ gap, isWhitespace c = true) ∧
      ((∃ raw tail, rest ++ after = gap ++ '"' :: (raw ++ '"' :: tail) ∧ left = rows ∧
        Reads (looseDigits false) false raw value ∧ Ends isWhitespace tail) ∨
      ∃ opening first last tail, rest ++ after = gap ++ (triple ++ opening) ∧
        rows = first ++ (last ++ (triple ++ tail)) :: left ∧
        Reads (looseDigits true) true (body first last) value ∧
        (∀ row ∈ first, ¬ triple <:+: row) ∧ ¬ triple <:+: last ++ ['"', '"'] ∧
        Ends isWhitespace tail) := by
  unfold readValue at h
  split at h
  · rename_i htriple
    obtain ⟨⟨text, last', left'⟩, hlines, h⟩ := bind_eq_ok.mp h
    cases h
    unfold multiLine at hlines
    simp only [ite_error_eq_ok] at hlines
    obtain ⟨first, last, tail, hrows, hvalue, hfirst, hlast, hends⟩ := multiLineFrom_eq_ok hlines.2
    obtain ⟨opening, hopening⟩ := List.isPrefixOf_iff_prefix.mp htriple
    refine ⟨rest.takeWhile isWhitespace, fun c hc ↦ List.mem_takeWhile_imp hc,
      .inr ⟨opening ++ after, first, last, tail, ?_, hrows, ?_, hfirst, hlast, hends⟩⟩
    · rw [← List.append_assoc triple, hopening, ← List.append_assoc,
        List.takeWhile_append_dropWhile]
    · exact reads_of_unescape _ _ le_rfl hvalue
  · obtain ⟨value', hsingle, h⟩ := map_eq_ok.mp h
    cases h
    obtain ⟨a, b, hsplit, ha, hb⟩ := exists_trim rest
    refine ⟨a, ha, .inl ?_⟩
    unfold singleLine at hsingle
    split at hsingle
    · cases hsingle
    · rename_i string hstring
      obtain ⟨⟨out, tail⟩, hscan, hsingle⟩ := bind_eq_ok.mp hsingle
      obtain ⟨⟨⟩, htail, hsingle⟩ := bind_eq_ok.mp hsingle
      cases hsingle
      obtain ⟨raw, hraw, hreads⟩ := reads_of_scan _ _ le_rfl (mapError_eq_ok.mp hscan)
      refine ⟨raw, tail ++ (b ++ after), ?_, rfl, hreads, ?_⟩
      · rw [hsplit, strip_eq_some_iff.mp hstring, hraw]
        simp
      · apply ends_of_checkTail htail
        intro c hc
        rcases List.mem_append.mp hc with hc | hc
        · exact hb c hc
        · exact hafter c hc

/-- One turn of the loop reads one item. -/
theorem turn_item (h : turn c row rows = .ok (c', left)) (htable : c.table = dotted table)
    (hbare : table = [] ∨ Bare table) :
    ∃ item : Item, item.Fits isWhitespace looseDigits ∧ row :: rows = item.rows ++ left ∧
      c'.table = dotted (tableAfter table item) ∧
      (tableAfter table item = [] ∨ Bare (tableAfter table item)) ∧
      c'.out = c.out ++ (entriesFrom table [item]).map pair ∧
      ((c.out.map Prod.fst).Nodup → (c'.out.map Prod.fst).Nodup) := by
  obtain ⟨a, b, hrow, ha, hb⟩ := exists_trim row
  unfold turn at h
  dsimp only at h
  split at h
  · rename_i hpassed
    cases h
    rcases hpassed with hnone | hsharp
    · refine ⟨.blank row, ?_, rfl, htable, hbare, (List.append_nil _).symm, id⟩
      intro c hc
      rw [hrow, hnone, List.nil_append] at hc
      exact (List.mem_append.mp hc).elim (ha c) (hb c)
    · obtain ⟨words, hwords⟩ := List.head?_eq_some_iff.mp hsharp
      refine ⟨.comment a (words ++ b), ha, ?_, htable, hbare, (List.append_nil _).symm, id⟩
      rw [Item.rows, hrow, hwords]
      rfl
  · split at h
    · rename_i inner hinner
      split at h
      · rename_i hclosed
        obtain ⟨name, hname, h⟩ := bind_eq_ok.mp h
        cases h
        obtain ⟨rfl, path, hpath, hdotted⟩ := checkKey_eq_ok hname
        refine ⟨.header a path b, ⟨ha, hpath, ends_spaces hb⟩, ?_, hdotted, .inr hpath,
          (List.append_nil _).symm, id⟩
        obtain ⟨most, rfl⟩ := List.getLast?_eq_some_iff.mp hclosed
        rw [List.dropLast_concat] at hdotted
        rw [Item.rows, hrow, strip_eq_some_iff.mp hinner, hdotted]
        simp
      · cases h
    · split at h
      · cases h
      · rename_i rawKey rest hsplit
        obtain ⟨key, hkey, h⟩ := bind_eq_ok.mp h
        obtain ⟨⟨value, number, after⟩, hvalue, h⟩ := bind_eq_ok.mp h
        simp only [ite_throw_eq_ok] at h
        obtain ⟨hnew, h⟩ := h
        cases h
        obtain ⟨rfl, path, hpath, hdotted⟩ := checkKey_eq_ok hkey
        obtain ⟨a', b', hraw, ha', hb'⟩ := exists_trim rawKey
        have hfull : (if c.table = [] then trim rawKey else c.table ++ '.' :: trim rawKey) =
            dotted (table ++ path) := by
          rw [htable, hdotted]
          exact dotted_append hpath hbare
        have hline : row = (a ++ a') ++ (dotted path ++ (b' ++ '=' :: (rest ++ b))) := by
          rw [hrow, eq_of_splitAt hsplit, hraw, hdotted]
          simp
        have hnodup : (c.out.map Prod.fst).Nodup → ∀ text, ((c.out ++ [(String.ofList
            (if c.table = [] then trim rawKey else c.table ++ '.' :: trim rawKey), text)]).map
              Prod.fst).Nodup := by
          intro hnodup text
          rw [List.map_append, List.map_singleton]
          refine List.nodup_append.mpr ⟨hnodup, List.nodup_singleton _, ?_⟩
          rintro name hname _ hsame rfl
          rw [List.mem_singleton.mp hsame] at hname
          obtain ⟨p, hp, hfst⟩ := List.mem_map.mp hname
          exact hnew (List.any_eq_true.mpr ⟨p, hp, decide_eq_true hfst⟩)
        have hspaces : ∀ gap : List Char, (∀ c ∈ gap, isWhitespace c = true) →
            ∀ c ∈ (a ++ a') ++ b' ++ gap, isWhitespace c = true := by
          intro gap hgap c hc
          simp only [List.mem_append] at hc
          rcases hc with ((hc | hc) | hc) | hc
          · exact ha c hc
          · exact ha' c hc
          · exact hb' c hc
          · exact hgap c hc
        obtain ⟨gap, hgap, ⟨raw, tail, heq, rfl, hreads, hends⟩ | ⟨opening, first, last, tail, heq,
          rfl, hreads, hfirst, hlast, hends⟩⟩ := readValue_eq_ok hvalue hb
        · refine ⟨.entry (a ++ a') path b' gap raw value tail,
            ⟨hspaces gap hgap, hpath, hreads, hends⟩, ?_, htable, hbare, ?_, fun h ↦ hnodup h _⟩
          · rw [Item.rows, hline, heq]
            rfl
          · rw [hfull]
            rfl
        · refine ⟨.text (a ++ a') path b' gap opening first last value tail,
            ⟨hspaces gap hgap, hpath, hreads, hfirst, hlast, hends⟩, ?_, htable, hbare, ?_,
            fun h ↦ hnodup h _⟩
          · rw [Item.rows, hline, heq]
            simp
          · rw [hfull]
            rfl

/-- A catalogue that is read is taken apart into items, and its keys and values are theirs. -/
theorem items_of_readFrom (n : ℕ) {out : List (String × String)} (hlength : rows.length ≤ n)
    (h : readFrom c rows = .ok out) (htable : c.table = dotted table)
    (hbare : table = [] ∨ Bare table) (hnodup : (c.out.map Prod.fst).Nodup) :
    ∃ items : List Item, rows = items.flatMap Item.rows ∧
      (∀ item ∈ items, item.Fits isWhitespace looseDigits) ∧
      out = c.out ++ (entriesFrom table items).map pair ∧ (out.map Prod.fst).Nodup := by
  induction n generalizing c rows table with
  | zero =>
    rw [List.length_eq_zero_iff.mp (Nat.le_zero.mp hlength), readFrom] at h
    cases h
    refine ⟨[], List.length_eq_zero_iff.mp (Nat.le_zero.mp hlength),
      fun item hitem ↦ absurd hitem List.not_mem_nil, (List.append_nil _).symm, hnodup⟩
  | succ n ih =>
    cases rows with
    | nil =>
      rw [readFrom] at h
      cases h
      exact ⟨[], rfl, fun item hitem ↦ absurd hitem List.not_mem_nil, (List.append_nil _).symm,
        hnodup⟩
    | cons row rows =>
      rw [List.length_cons, Nat.succ_le_succ_iff] at hlength
      rw [readFrom] at h
      split at h
      · cases h
      · rename_i c' left hturn
        obtain ⟨item, hfits, hrows, htable', hbare', hout, hnodup'⟩ := turn_item hturn htable hbare
        obtain ⟨items, rfl, hitems, rfl, hkeys⟩ := ih ((turn_le hturn).trans hlength) h htable' hbare'
          (hnodup' hnodup)
        refine ⟨item :: items, hrows, ?_, ?_, hkeys⟩
        · intro i hi
          rcases List.mem_cons.mp hi with rfl | hi
          · exact hfits
          · exact hitems i hi
        · rw [entriesFrom_cons, List.map_append, hout, List.append_assoc]

end Turns

/-- Every `\u` of a string has four hexadecimal digits behind it. -/
inductive FourDigits : List Char → Prop
  | done : FourDigits []
  | plain {c : Char} {raw : List Char} : c ≠ '\\' → FourDigits raw → FourDigits (c :: raw)
  | escape {e : Char} {raw : List Char} : e ≠ 'u' → FourDigits raw → FourDigits ('\\' :: e :: raw)
  | unicode {ds raw : List Char} : ds.length = 4 → (∀ d ∈ ds, (JsonText.hexDigit d).isSome = true) →
      FourDigits raw → FourDigits ('\\' :: 'u' :: (ds ++ raw))

/-- The text of the string of an item, as it is written. -/
def rawOf : Item → List Char
  | .entry _ _ _ _ raw _ _ => raw
  | .text _ _ _ _ _ rows last _ _ => body rows last
  | _ => []

/-- The white space of an item is spaces and tabulators. -/
def Spaced : Item → Prop
  | .blank space => ∀ c ∈ space, isSpace c = true
  | .comment before _ => ∀ c ∈ before, isSpace c = true
  | .header before _ after => (∀ c ∈ before, isSpace c = true) ∧ Ends isSpace after
  | .entry before _ gap gap' _ _ after =>
    (∀ c ∈ before ++ gap ++ gap', isSpace c = true) ∧ Ends isSpace after
  | .text before _ gap gap' _ _ _ _ after =>
    (∀ c ∈ before ++ gap ++ gap', isSpace c = true) ∧ Ends isSpace after

/-- What a catalogue must have to be TOML beyond being read: white space and characters that may
stand there, the digits of every escape, nothing behind an opening delimiter, and no table that is
defined twice or is a value too. -/
structure Tidy (source : String) (items : List Item) : Prop where
  characters : ∀ row ∈ lines source.toList, ∀ c ∈ row, isPlain c = true
  spaces : ∀ item ∈ items, Spaced item
  escapes : ∀ item ∈ items, FourDigits (rawOf item)
  openings : ∀ item ∈ items, item.opening = []
  tables : Unclashing items

section Strictness

variable {c d : Char} {ds raw value more : List Char} {several : Bool} {item : Item}
  {items : List Item} {source : String} {table : List (String × String)}

theorem isPlain_return : isPlain '\r' = false := by decide

theorem whitespace_of_space (h : isSpace c = true) : isWhitespace c = true := by
  unfold isSpace at h
  rcases Bool.or_eq_true _ _ |>.mp h with h | h
  · rw [of_decide_eq_true h]
    decide
  · rw [of_decide_eq_true h]
    decide

theorem not_whitespace_alphanum (h : c.isAlphanum = true) : isWhitespace c = false := by
  have hrange : (48 ≤ c.toNat ∧ c.toNat ≤ 57) ∨ (65 ≤ c.toNat ∧ c.toNat ≤ 90) ∨
      (97 ≤ c.toNat ∧ c.toNat ≤ 122) := by
    simp only [Char.isAlphanum, Char.isAlpha, Char.isUpper, Char.isLower, Char.isDigit,
      Bool.or_eq_true, Bool.and_eq_true, decide_eq_true_eq, UInt32.le_iff_toNat_le] at h
    simp only [Char.toNat]
    have h48 : UInt32.toNat 48 = 48 := rfl
    have h57 : UInt32.toNat 57 = 57 := rfl
    have h65 : UInt32.toNat 65 = 65 := rfl
    have h90 : UInt32.toNat 90 = 90 := rfl
    have h97 : UInt32.toNat 97 = 97 := rfl
    have h122 : UInt32.toNat 122 = 122 := rfl
    have hA : 'A'.val.toNat = 65 := rfl
    have hZ : 'Z'.val.toNat = 90 := rfl
    have ha : 'a'.val.toNat = 97 := rfl
    have hz : 'z'.val.toNat = 122 := rfl
    have h0 : '0'.val.toNat = 48 := rfl
    have h9 : '9'.val.toNat = 57 := rfl
    omega
  simp only [isWhitespace, Bool.or_eq_false_iff, Bool.and_eq_false_iff, decide_eq_false_iff_not,
    List.mem_cons, List.not_mem_nil, or_false]
  omega

theorem not_whitespace_keyChar (h : isKeyChar c = true) : isWhitespace c = false := by
  simp only [isKeyChar, isBare, Bool.or_eq_true, decide_eq_true_eq] at h
  rcases h with ((h | rfl) | rfl) | rfl
  · exact not_whitespace_alphanum h
  · decide
  · decide
  · decide

theorem lenient_loose : Lenient isWhitespace looseDigits where
  apart c hc := by
    constructor
    · rw [← Bool.not_eq_true]
      intro hkey
      rw [not_whitespace_keyChar hkey] at hc
      cases hc
    · intro hmem
      simp only [List.mem_cons, List.not_mem_nil, or_false] at hmem
      rcases hmem with rfl | rfl | rfl | rfl
      · exact absurd hc (by decide)
      · exact absurd hc (by decide)
      · exact absurd hc (by decide)
      · exact absurd hc (by decide)
  single h := h.1.resolve_right fun h ↦ absurd h.1 Bool.false_ne_true
  several h := h.1.imp_right And.right
  one h h' := Option.some.inj (h.2.symm.trans h'.2)

theorem fromU32_toNat (c : Char) : fromU32 c.toNat = some c := by
  have hvalid : c.toNat.isValidChar := c.valid
  rw [fromU32, if_pos hvalid, Char.ofNat_toNat]

theorem eq_of_fromU32 {n : ℕ} (h : fromU32 n = some c) : n = c.toNat := by
  unfold fromU32 at h
  split at h
  · rename_i hvalid
    cases h
    simp [Char.ofNat, hvalid]
  · cases h

theorem plus_not_hex : (JsonText.hexDigit '+').isSome = false := by decide

/-- Four hexadecimal digits are read as the number they stand for. -/
theorem fromStrRadix_four (hlength : ds.length = 4)
    (hhex : ∀ d ∈ ds, (JsonText.hexDigit d).isSome = true) :
    fromStrRadix ds = JsonText.codeUnit ds := by
  match ds, hlength with
  | [a, b, c, d], _ =>
    have ha := hhex a (by simp)
    have hsign : [a, b, c, d].head? ≠ some '+' := by
      rintro ⟨⟩
      rw [plus_not_hex] at ha
      cases ha
    obtain ⟨va, hva⟩ := Option.isSome_iff_exists.mp ha
    obtain ⟨vb, hvb⟩ := Option.isSome_iff_exists.mp (hhex b (by simp))
    obtain ⟨vc, hvc⟩ := Option.isSome_iff_exists.mp (hhex c (by simp))
    obtain ⟨vd, hvd⟩ := Option.isSome_iff_exists.mp (hhex d (by simp))
    unfold fromStrRadix
    rw [if_neg hsign]
    simp [JsonText.codeUnit, hva, hvb, hvc, hvd]

/-- What four digits stand for are four hexadecimal digits. -/
theorem hex_of_fourDigits (h : fourDigits ds c) :
    ds.length = 4 ∧ ∀ d ∈ ds, (JsonText.hexDigit d).isSome = true := by
  unfold fourDigits JsonText.codeUnit at h
  split at h
  · rename_i a b c' d
    simp only [Option.bind_eq_bind, Option.bind_eq_some_iff] at h
    obtain ⟨va, ha, vb, hb, vc, hc, vd, hd, -⟩ := h
    refine ⟨rfl, fun x hx ↦ ?_⟩
    simp only [List.mem_cons, List.not_mem_nil, or_false] at hx
    rcases hx with rfl | rfl | rfl | rfl
    · rw [ha]; rfl
    · rw [hb]; rfl
    · rw [hc]; rfl
    · rw [hd]; rfl
  · cases h

theorem loose_of_fourDigits (h : fourDigits ds c) : looseDigits several ds c more := by
  obtain ⟨hlength, hhex⟩ := hex_of_fourDigits h
  refine ⟨.inl hlength, ?_⟩
  rw [fromStrRadix_four hlength hhex, h, Option.bind_some, fromU32_toNat]

/-- A string of which every escape has its four digits is read as it should be. -/
theorem strict_of_loose (h : Reads (looseDigits several) several raw value)
    (hfour : FourDigits raw) : Reads (fun ds c _ ↦ fourDigits ds c) several raw value := by
  induction h with
  | done => exact .done
  | plain hc hquote _ ih =>
    cases hfour with
    | plain _ hfour => exact .plain hc hquote (ih hfour)
    | escape _ _ => exact absurd rfl hc
    | unicode _ _ _ => exact absurd rfl hc
  | escape he _ ih =>
    cases hfour with
    | plain hc _ => exact absurd rfl hc
    | escape _ hfour => exact .escape he (ih hfour)
    | unicode _ _ _ => exact absurd he not_escape_u
  | @unicode ds c raw value hds _ ih =>
    generalize hwhole : '\\' :: 'u' :: (ds ++ raw) = whole at hfour
    cases hfour with
    | done => cases hwhole
    | plain hc _ => exact absurd (List.cons.inj hwhole).1.symm hc
    | escape he _ => exact absurd (List.cons.inj (List.cons.inj hwhole).2).1.symm he
    | @unicode ds' raw' hlength hhex hfour =>
      have htail := (List.cons.inj (List.cons.inj hwhole).2).2
      have hds' : ds.length = 4 := by
        rcases hds.1 with hds | ⟨-, hshort, rfl⟩
        · exact hds
        · have hboth := congrArg List.length htail
          rw [List.length_append, List.length_append, hlength, List.length_nil] at hboth
          omega
      obtain ⟨rfl, rfl⟩ := List.append_inj htail (hds'.trans hlength.symm)
      refine .unicode ?_ (ih hfour)
      obtain ⟨n, hn, hc⟩ := Option.bind_eq_some_iff.mp hds.2
      rw [fromStrRadix_four hlength hhex] at hn
      rw [fourDigits, hn, eq_of_fromU32 hc]

theorem fourDigits_of_strict (h : Reads (fun ds c _ ↦ fourDigits ds c) several raw value) :
    FourDigits raw := by
  induction h with
  | done => exact .done
  | plain hc _ _ ih => exact .plain hc ih
  | escape he _ ih =>
    refine .escape ?_ ih
    rintro rfl
    exact not_escape_u he
  | unicode hds _ ih =>
    obtain ⟨hlength, hhex⟩ := hex_of_fourDigits hds
    exact .unicode hlength hhex ih

theorem loose_of_strict (h : Reads (fun ds c _ ↦ fourDigits ds c) several raw value) :
    Reads (looseDigits several) several raw value := by
  induction h with
  | done => exact .done
  | plain hc hquote _ ih => exact .plain hc hquote ih
  | escape he _ ih => exact .escape he ih
  | unicode hds _ ih => exact .unicode (loose_of_fourDigits hds) ih

theorem ends_of_spaces {after : List Char} (h : Ends isSpace after) : Ends isWhitespace after := by
  have hspaces : ∀ c ∈ after.takeWhile isSpace, isWhitespace c = true := fun c hc ↦
    whitespace_of_space (List.mem_takeWhile_imp hc)
  intro c hc
  rw [← @List.takeWhile_append_dropWhile _ isSpace after, dropWhile_spaces hspaces] at hc
  cases hrest : after.dropWhile isSpace with
  | nil =>
    rw [hrest] at hc
    cases hc
  | cons d rest =>
    obtain rfl : d = '#' := h d (by rw [hrest]; rfl)
    rw [hrest, List.dropWhile_cons_of_neg (by decide)] at hc
    cases hc
    rfl

/-- An item of a document is one that is read, with nothing but spaces and proper digits. -/
theorem fits_iff : item.Fits isSpace (fun _ ds c _ ↦ fourDigits ds c) ↔
    item.Fits isWhitespace looseDigits ∧ Spaced item ∧ FourDigits (rawOf item) := by
  have hspaces : ∀ {l : List Char}, (∀ c ∈ l, isSpace c = true) → ∀ c ∈ l, isWhitespace c = true :=
    fun h c hc ↦ whitespace_of_space (h c hc)
  cases item with
  | blank space => exact ⟨fun h ↦ ⟨hspaces h, h, .done⟩, fun h ↦ h.2.1⟩
  | comment before words => exact ⟨fun h ↦ ⟨hspaces h, h, .done⟩, fun h ↦ h.2.1⟩
  | header before path after =>
    constructor
    · rintro ⟨hbefore, hpath, hends⟩
      exact ⟨⟨hspaces hbefore, hpath, ends_of_spaces hends⟩, ⟨hbefore, hends⟩, .done⟩
    · rintro ⟨⟨-, hpath, -⟩, ⟨hbefore, hends⟩, -⟩
      exact ⟨hbefore, hpath, hends⟩
  | entry before path gap gap' raw value after =>
    constructor
    · rintro ⟨hbefore, hpath, hreads, hends⟩
      exact ⟨⟨hspaces hbefore, hpath, loose_of_strict hreads, ends_of_spaces hends⟩,
        ⟨hbefore, hends⟩, fourDigits_of_strict hreads⟩
    · rintro ⟨⟨-, hpath, hreads, -⟩, ⟨hbefore, hends⟩, hfour⟩
      exact ⟨hbefore, hpath, strict_of_loose hreads hfour, hends⟩
  | text before path gap gap' opening rows last value after =>
    constructor
    · rintro ⟨hbefore, hpath, hreads, hrows, hlast, hends⟩
      exact ⟨⟨hspaces hbefore, hpath, loose_of_strict hreads, hrows, hlast, ends_of_spaces hends⟩,
        ⟨hbefore, hends⟩, fourDigits_of_strict hreads⟩
    · rintro ⟨⟨-, hpath, hreads, hrows, hlast, -⟩, ⟨hbefore, hends⟩, hfour⟩
      exact ⟨hbefore, hpath, strict_of_loose hreads hfour, hrows, hlast, hends⟩

/-- Lines without control characters lose nothing more. -/
theorem map_withoutReturn {rows : List (List Char)} (h : ∀ row ∈ rows, ∀ c ∈ row, isPlain c = true) :
    rows.map withoutReturn = rows := by
  have hsame : ∀ row ∈ rows, withoutReturn row = row := by
    intro row hrow
    refine if_neg fun hlast ↦ ?_
    have hplain := h row hrow '\r' (List.mem_of_getLast? hlast)
    rw [isPlain_return] at hplain
    cases hplain
  rw [List.map_congr_left hsame, List.map_id']

/-- The items of a document are those that a reader takes it apart into. -/
theorem tidy_of_document (h : Document source table) :
    ∃ items, Pieces source items ∧ Tidy source items := by
  obtain ⟨items, hlines, hvalid, htables, -, -⟩ := h
  have hplain : ∀ row ∈ lines source.toList, ∀ c ∈ row, isPlain c = true := by
    intro row hrow
    rw [hlines] at hrow
    obtain ⟨item, hitem, hrow⟩ := List.mem_flatMap.mp hrow
    exact (hvalid item hitem).plain row hrow
  have hfits := fun item hitem ↦ fits_iff.mp (hvalid item hitem).fits
  refine ⟨items, ⟨?_, fun item hitem ↦ (hfits item hitem).1⟩, hplain,
    fun item hitem ↦ (hfits item hitem).2.1, fun item hitem ↦ (hfits item hitem).2.2,
    fun item hitem ↦ (hvalid item hitem).opens, htables⟩
  rw [map_withoutReturn hplain, hlines]

theorem document_of_tidy {items : List Item} (hpieces : Pieces source items)
    (h : Tidy source items) (hkeys : ((pairs items).map Prod.fst).Nodup) :
    Document source (pairs items) := by
  obtain ⟨hlines, hfits⟩ := hpieces
  rw [map_withoutReturn h.characters] at hlines
  refine ⟨items, hlines, fun item hitem ↦ ⟨?_, h.openings item hitem, fun row hrow ↦ ?_⟩,
    h.tables, ?_, rfl⟩
  · exact fits_iff.mpr ⟨hfits item hitem, h.spaces item hitem, h.escapes item hitem⟩
  · apply h.characters
    rw [hlines]
    exact List.mem_flatMap.mpr ⟨item, hitem, hrow⟩
  · rw [pairs, List.map_map] at hkeys
    refine List.Nodup.of_map (fun key ↦ String.ofList (dotted key)) ?_
    rw [List.map_map]
    exact hkeys

theorem pieces_unique {items items' : List Item} (h : Pieces source items)
    (h' : Pieces source items') : items = items' :=
  items_unique lenient_loose h.2 h'.2 (h.1.symm.trans h'.1)

end Strictness

/-- What stands behind `\u` is a hexadecimal digit where every escape has its four. -/
theorem FourDigits.hex {d : Char} {rest : List Char} (h : FourDigits ('\\' :: 'u' :: d :: rest)) :
    (JsonText.hexDigit d).isSome = true := by
  generalize hwhole : '\\' :: 'u' :: d :: rest = whole at h
  cases h with
  | done => cases hwhole
  | plain hc _ => exact absurd (List.cons.inj hwhole).1.symm hc
  | escape he _ => exact absurd (List.cons.inj (List.cons.inj hwhole).2).1.symm he
  | @unicode ds raw hlength hhex _ =>
    have htail := (List.cons.inj (List.cons.inj hwhole).2).2
    cases ds with
    | nil => cases hlength
    | cons d' ds =>
      obtain ⟨rfl, -⟩ := List.cons.inj htail
      exact hhex d List.mem_cons_self

/-- A text that is read is taken apart in one way, and it is a document that holds just what has
been read exactly if what it is taken apart into is tidy. -/
theorem read_document (source : String) (table : List (String × String))
    (h : read source = .ok table) :
    (∃! items, Pieces source items) ∧
      (Document source table ↔ ∀ items, Pieces source items → Tidy source items) := by
  obtain ⟨items, hlines, hfits, hout, hkeys⟩ :=
    items_of_readFrom _ le_rfl h rfl (.inl rfl) List.nodup_nil
  rw [List.nil_append] at hout
  have hpieces : Pieces source items := ⟨hlines, hfits⟩
  refine ⟨⟨items, hpieces, fun items' h' ↦ pieces_unique h' hpieces⟩, fun hdocument ↦ ?_,
    fun htidy ↦ ?_⟩
  · obtain ⟨items', hpieces', htidy⟩ := tidy_of_document hdocument
    intro items'' h''
    rw [pieces_unique h'' hpieces']
    exact htidy
  · rw [hout] at hkeys ⊢
    exact document_of_tidy hpieces (htidy items hpieces) hkeys

def menu : String := "[menu]\nopen = \"Open\" # a comment\nbody = \"\"\"\nfirst\n\"\"\"\n"

theorem read_document_menu :
    (∃! items, Pieces menu items) ∧
      (Document menu [("menu.open", "Open"), ("menu.body", "first\n")] ↔
        ∀ items, Pieces menu items → Tidy menu items) :=
  read_document menu _ (ok_of_toOption (by decide +kernel))

def signed : String := "a = \"\\u+041\""

/-- An escape with a sign is read, although it has no four hexadecimal digits. -/
theorem signed_read : (read signed).toOption = some [("a", "A")] ∧
    ¬ ∀ (source : String) (table : List (String × String)), read source = .ok table →
      Document source table := by
  have hread : (read signed).toOption = some [("a", "A")] := by decide +kernel
  refine ⟨hread, fun h ↦ ?_⟩
  obtain ⟨items, hpieces, htidy⟩ := tidy_of_document (h signed _ (ok_of_toOption hread))
  have hraw : Reads (looseDigits false) false "\\u+041".toList ['A'] :=
    @Reads.unicode _ false "+041".toList 'A' [] [] ⟨.inl rfl, by decide⟩ .done
  have hitem : Pieces signed [.entry [] [['a']] [' '] [' '] "\\u+041".toList ['A'] []] := by
    refine ⟨by decide +kernel, fun item hitem ↦ ?_⟩
    rw [List.mem_singleton.mp hitem]
    refine ⟨fun c hc ↦ ?_, ⟨List.cons_ne_nil _ _, fun key hkey ↦ ?_⟩, hraw, by rintro c ⟨⟩⟩
    · obtain rfl : c = ' ' := by simpa using hc
      decide
    · rw [List.mem_singleton.mp hkey]
      exact ⟨List.cons_ne_nil _ _, by simp [isBare]⟩
  rw [pieces_unique hpieces hitem] at htidy
  exact absurd (htidy.escapes _ List.mem_cons_self).hex (by decide)

end FolderClient.I18n.Catalogues
