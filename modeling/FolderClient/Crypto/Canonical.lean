import FolderClient.Crypto.JcsNumbers

namespace FolderClient.Crypto.Canonical

open FolderClient.Library FolderClient.Library.Json FolderClient.Library.Results
open FolderClient.Library.JsonText (Tree NumberToken Spells SpellsText SpellsElements SpellsMembers
  SpellsString SpellsCharacters SpellsCharacter Separates Blank blank_nil codeUnit escapes
  fitsElements_iff fitsMembers_iff)
open FolderClient.Crypto.Jcs FolderClient.Crypto.JcsNumbers

section Order

variable {α β : Type}

theorem toNat_lt (c : Char) : c.toNat < 0x110000 := by
  have h := c.valid
  rw [UInt32.isValidChar, Nat.isValidChar] at h
  have hc : c.toNat = c.val.toNat := rfl
  omega

theorem encodeUtf16_append_inj {c d : Char} {x y : List ℕ}
    (h : encodeUtf16 c ++ x = encodeUtf16 d ++ y) : c = d ∧ x = y := by
  have hchar : c.toNat = d.toNat → c = d := fun h ↦ by
    rw [← Char.ofNat_toNat c, h, Char.ofNat_toNat]
  obtain ⟨hc, hc'⟩ := JsonText.not_surrogate c
  obtain ⟨hd, hd'⟩ := JsonText.not_surrogate d
  rw [JsonText.IsLead, JsonText.IsTrail] at *
  have hcmax : c.toNat < 0x110000 := toNat_lt c
  have hdmax : d.toNat < 0x110000 := toNat_lt d
  rw [encodeUtf16, encodeUtf16] at h
  split at h
  · split at h
    · obtain ⟨hcd, rfl⟩ := List.cons.inj h
      exact ⟨hchar hcd, rfl⟩
    · have hcd := (List.cons.inj h).1
      omega
  · split at h
    · have hcd := (List.cons.inj h).1
      omega
    · obtain ⟨hcd, h⟩ := List.cons.inj h
      obtain ⟨hcd', rfl⟩ := List.cons.inj h
      exact ⟨hchar (by omega), rfl⟩

theorem utf16_injective {a b : String} (h : utf16 a = utf16 b) : a = b := by
  rw [utf16, utf16] at h
  rw [← String.toList_inj]
  generalize a.toList = l, b.toList = k at h
  induction l generalizing k with
  | nil =>
    cases k with
    | nil => rfl
    | cons d k =>
      rw [List.flatMap_cons, List.flatMap_nil, encodeUtf16] at h
      split at h <;> cases h
  | cons c l ih =>
    cases k with
    | nil =>
      rw [List.flatMap_cons, List.flatMap_nil, encodeUtf16] at h
      split at h <;> cases h
    | cons d k =>
      rw [List.flatMap_cons, List.flatMap_cons] at h
      obtain ⟨rfl, hrest⟩ := encodeUtf16_append_inj h
      rw [ih k hrest]

instance : Std.Total (@Before α) := ⟨fun a b ↦ le_total (utf16 a.1) (utf16 b.1)⟩

instance : IsTrans (String × α) Before := ⟨fun _ _ _ h h' ↦ le_trans h h'⟩

theorem perm_sortByName (m : List (String × α)) : (sortByName m).Perm m :=
  List.perm_insertionSort _ _

theorem sortByName_idem (m : List (String × α)) : sortByName (sortByName m) = sortByName m :=
  (List.pairwise_insertionSort Before m).insertionSort_eq

theorem sortByName_map (f : α → β) (m : List (String × α)) :
    sortByName (m.map fun q ↦ (q.1, f q.2)) = (sortByName m).map fun q ↦ (q.1, f q.2) :=
  (List.map_insertionSort Before Before (fun q : String × α ↦ (q.1, f q.2)) m
    fun _ _ _ _ ↦ Iff.rfl).symm

/-- Where the names are unique, only one order is theirs. -/
theorem sortByName_eq {m k : List (String × α)} (h : m.Perm k) (hu : (m.map Prod.fst).Nodup) :
    sortByName m = sortByName k := by
  have hperm : (sortByName m).Perm (sortByName k) :=
    (perm_sortByName m).trans (h.trans (perm_sortByName k).symm)
  refine List.Perm.eq_of_pairwise (fun a b ha hb hab hba ↦ ?_)
    (List.pairwise_insertionSort Before m) (List.pairwise_insertionSort Before k) hperm
  have hname : a.1 = b.1 := utf16_injective (le_antisymm hab hba)
  have ha' : a ∈ m := (perm_sortByName m).mem_iff.mp ha
  have hb' : b ∈ m := h.mem_iff.mpr ((perm_sortByName k).mem_iff.mp hb)
  exact List.inj_on_of_nodup_map hu ha' hb' hname

end Order

section Writing

theorem writeElements_eq (l : List Value) : writeElements l = l.map write := by
  induction l with
  | nil => rfl
  | cons v l ih => exact congrArg (write v :: ·) ih

theorem writeMembers_eq (m : Members) : writeMembers m = m.map fun q ↦ (q.1, write q.2) := by
  induction m with
  | nil => rfl
  | cons q m ih => exact congrArg ((q.1, write q.2) :: ·) ih

theorem write_array (l : List Value) : write (.array l) = (do
    let texts ← (l.map write).mapM id
    return '[' :: (separated true texts ++ [']'])) := by
  rw [← writeElements_eq]
  rfl

theorem write_object (m : Members) : write (.object m) = (do
    let texts ← (sortByName (m.map fun q ↦ (q.1, write q.2))).mapM
      fun q ↦ q.2.map (memberText q.1)
    return '{' :: (separated true texts ++ ['}'])) := by
  rw [← writeMembers_eq]
  rfl

/-- The order of the members does not matter, nor does it to any depth. -/
theorem write_eq_of_alike {v w : Value} (hu : v.Unique) (h : Alike (· = ·) v w) :
    write w = write v := by
  induction v using Value.induction_on generalizing w with
  | null =>
    obtain rfl : w = .null := h
    rfl
  | bool b =>
    obtain rfl : w = .bool b := h
    rfl
  | number n =>
    obtain ⟨_, rfl, rfl⟩ := h
    rfl
  | string s =>
    obtain rfl : w = .string s := h
    rfl
  | array l ih =>
    obtain ⟨k, rfl, hk⟩ := h
    rw [Value.unique_array] at hu
    rw [alikeElements_iff] at hk
    have hmap : k.map write = l.map write := by
      induction hk with
      | nil => rfl
      | cons hv _ ihk =>
        rw [List.forall_mem_cons] at ih hu
        rw [List.map_cons, List.map_cons, ih.1 hu.1 hv, ihk ih.2 hu.2]
    rw [write_array, write_array, hmap]
  | object m ih =>
    obtain ⟨m', k, rfl, hperm, hk⟩ := h
    rw [Value.unique_object] at hu
    rw [alikeMembers_iff] at hk
    have hnames : k.map Prod.fst = m.map Prod.fst := by
      clear hperm ih hu
      induction hk with
      | nil => rfl
      | cons hv _ ihk => rw [List.map_cons, List.map_cons, ihk, hv.1]
    have hmap : (k.map fun q ↦ (q.1, write q.2)) = m.map fun q ↦ (q.1, write q.2) := by
      have hu' := hu.2
      clear hperm hu hnames
      induction hk with
      | nil => rfl
      | cons hv _ ihk =>
        rw [List.forall_mem_cons] at ih hu'
        rw [List.map_cons, List.map_cons, ih.1 hu'.1 hv.2, ihk ih.2 hu'.2, hv.1]
    have hsort : sortByName (m'.map fun q ↦ (q.1, write q.2)) =
        sortByName (m.map fun q ↦ (q.1, write q.2)) := by
      rw [← hmap]
      refine (sortByName_eq (hperm.map _) ?_).symm
      rw [List.map_map]
      exact hnames ▸ hu.1
    rw [write_object, write_object, hsort]

end Writing

section Trees

open Classical in
/-- The token a canonical text writes a number with. -/
noncomputable def tokenOf (q : ℚ) : NumberToken :=
  if h : ∃ t, Stands t q then h.choose else zero

theorem tokenOf_eq {t : NumberToken} {q : ℚ} (h : Stands t q) : tokenOf q = t := by
  have hex : ∃ t, Stands t q := ⟨t, h⟩
  rw [tokenOf, dif_pos hex]
  exact hex.choose_spec.unique h

mutual

/-- What the canonical text of a value says. -/
noncomputable def tree : Value → Tree
  | .null => .null
  | .bool b => .bool b
  | .number n => .number (tokenOf (shown n))
  | .string s => .string s
  | .array l => .array (treeElements l)
  | .object m => .object (sortByName (treeMembers m))

noncomputable def treeElements : List Value → List Tree
  | [] => []
  | v :: l => tree v :: treeElements l

noncomputable def treeMembers : List (String × Value) → List (String × Tree)
  | [] => []
  | (name, v) :: m => (name, tree v) :: treeMembers m

end

mutual

/-- The text of a tree without blanks. -/
def spell : Tree → List Char
  | .null => ['n', 'u', 'l', 'l']
  | .bool true => ['t', 'r', 'u', 'e']
  | .bool false => ['f', 'a', 'l', 's', 'e']
  | .number t => numberText t
  | .string s => quoted s
  | .array ts => '[' :: (separated true (spellElements ts) ++ [']'])
  | .object ms => '{' :: (separated true (spellMembers ms) ++ ['}'])

def spellElements : List Tree → List (List Char)
  | [] => []
  | t :: ts => spell t :: spellElements ts

def spellMembers : List (String × Tree) → List (List Char)
  | [] => []
  | (name, t) :: ms => memberText name (spell t) :: spellMembers ms

end

theorem treeElements_eq (l : List Value) : treeElements l = l.map tree := by
  induction l with
  | nil => rfl
  | cons v l ih => exact congrArg (tree v :: ·) ih

theorem treeMembers_eq (m : Members) : treeMembers m = m.map fun q ↦ (q.1, tree q.2) := by
  induction m with
  | nil => rfl
  | cons q m ih => exact congrArg ((q.1, tree q.2) :: ·) ih

theorem spellElements_eq (ts : List Tree) : spellElements ts = ts.map spell := by
  induction ts with
  | nil => rfl
  | cons t ts ih => exact congrArg (spell t :: ·) ih

theorem spellMembers_eq (ms : List (String × Tree)) :
    spellMembers ms = ms.map fun q ↦ memberText q.1 (spell q.2) := by
  induction ms with
  | nil => rfl
  | cons q ms ih => exact congrArg (memberText q.1 (spell q.2) :: ·) ih

theorem tree_object (m : Members) :
    tree (.object m) = .object ((sortByName m).map fun q ↦ (q.1, tree q.2)) := by
  rw [← sortByName_map, ← treeMembers_eq]
  rfl

theorem tree_array (l : List Value) : tree (.array l) = .array (l.map tree) := by
  rw [← treeElements_eq]
  rfl

theorem tree_number (n : Number) : tree (.number n) = .number (tokenOf (shown n)) := rfl

theorem spell_array (ts : List Tree) :
    spell (.array ts) = '[' :: (separated true (ts.map spell) ++ [']']) := by
  rw [← spellElements_eq]
  rfl

theorem spell_object (ms : List (String × Tree)) : spell (.object ms) =
    '{' :: (separated true (ms.map fun q ↦ memberText q.1 (spell q.2)) ++ ['}']) := by
  rw [← spellMembers_eq]
  rfl

theorem spell_number (t : NumberToken) : spell (.number t) = numberText t := rfl

variable {ε α β : Type}

theorem mapM_eq_ok {f : α → Except ε β} {g : α → β} {l : List α} (h : ∀ a ∈ l, f a = .ok (g a)) :
    l.mapM f = .ok (l.map g) := by
  induction l with
  | nil => rfl
  | cons a l ih =>
    rw [List.forall_mem_cons] at h
    rw [List.mapM_cons, h.1, ih h.2]
    rfl

theorem ok_of_mapM {f : α → Except ε β} {l : List α} {k : List β} (h : l.mapM f = .ok k) :
    ∀ a ∈ l, ∃ b, f a = .ok b := by
  induction l generalizing k with
  | nil => exact fun _ h ↦ absurd h List.not_mem_nil
  | cons a l ih =>
    rw [List.mapM_cons, bind_eq_ok] at h
    obtain ⟨b, hb, h⟩ := h
    rw [bind_eq_ok] at h
    obtain ⟨k', hk, -⟩ := h
    exact List.forall_mem_cons.mpr ⟨⟨b, hb⟩, ih hk⟩

/-- A value of accepted numbers is written as its tree says. -/
theorem write_eq {v : Value} (h : v.All Accepted) : write v = .ok (spell (tree v)) := by
  induction v using Value.induction_on with
  | null => rfl
  | bool b => cases b <;> rfl
  | number n =>
    obtain ⟨t, ht, htext⟩ := numberFromJson_eq_ok h
    rw [tree_number, tokenOf_eq ht, spell_number]
    exact htext
  | string s => rfl
  | array l ih =>
    rw [Value.all_array] at h
    have hmap : (l.map write).mapM id = .ok (l.map fun v ↦ spell (tree v)) := by
      have hall : ∀ x ∈ l.map write, id x = .ok (x.toOption.getD []) := by
        rw [List.forall_mem_map]
        intro v hv
        rw [ih v hv (h v hv)]
        rfl
      rw [mapM_eq_ok hall, List.map_map]
      congr 1
      refine List.map_congr_left fun v hv ↦ ?_
      rw [Function.comp_apply, ih v hv (h v hv)]
      rfl
    rw [write_array, hmap, tree_array, spell_array, List.map_map]
    rfl
  | object m ih =>
    rw [Value.all_object] at h
    have hsorted : ∀ q ∈ sortByName m, write q.2 = .ok (spell (tree q.2)) := fun q hq ↦
      have hq' := (perm_sortByName m).mem_iff.mp hq
      ih q hq' (h q hq')
    have hmap : ((sortByName m).map fun q ↦ (q.1, write q.2)).mapM
        (fun q ↦ q.2.map (memberText q.1)) =
          .ok ((sortByName m).map fun q ↦ memberText q.1 (spell (tree q.2))) := by
      rw [List.mapM_map]
      refine mapM_eq_ok fun q hq ↦ ?_
      rw [Function.comp_apply, hsorted q hq]
      rfl
    rw [write_object, sortByName_map, hmap, tree_object, spell_object, List.map_map]
    rfl

theorem accepted_of_write {v : Value} {text : List Char} (h : write v = .ok text) :
    v.All Accepted := by
  induction v using Value.induction_on generalizing text with
  | null => exact trivial
  | bool b => exact trivial
  | number n => exact accepted_of_ok h
  | string s => exact trivial
  | array l ih =>
    rw [write_array, bind_eq_ok] at h
    obtain ⟨texts, htexts, -⟩ := h
    have hok := ok_of_mapM htexts
    rw [List.forall_mem_map] at hok
    exact Value.all_array.mpr fun v hv ↦
      have ⟨_, hv'⟩ := hok v hv
      ih v hv hv'
  | object m ih =>
    rw [write_object, sortByName_map, bind_eq_ok] at h
    obtain ⟨texts, htexts, -⟩ := h
    have hok := ok_of_mapM htexts
    rw [List.forall_mem_map] at hok
    refine Value.all_object.mpr fun q hq ↦ ?_
    obtain ⟨_, hq'⟩ := hok q ((perm_sortByName m).mem_iff.mpr hq)
    obtain ⟨_, hwrite, -⟩ := map_eq_ok.mp hq'
    exact ih q hq hwrite

end Trees

section Spelling

theorem spellsCharacter_escaped (c : Char) : SpellsCharacter c (escaped c) := by
  have hunit : ∀ n < 0x20,
      codeUnit ['0', '0', Nat.digitChar (n / 16), Nat.digitChar (n % 16)] = some n := by decide
  rw [escaped]
  split
  · rename_i h
    exact .short '"' (by rw [h]; decide)
  split
  · rename_i h
    exact .short '\\' (by rw [h]; decide)
  split
  · rename_i h
    exact .short 'b' (by rw [h]; decide)
  split
  · rename_i h
    exact .short 'f' (by rw [h]; decide)
  split
  · rename_i h
    exact .short 'n' (by rw [h]; decide)
  split
  · rename_i h
    exact .short 'r' (by rw [h]; decide)
  split
  · rename_i h
    exact .short 't' (by rw [h]; decide)
  split
  · rename_i h
    exact .unit _ (hunit _ h)
  · rename_i hquote hback _ _ _ _ _ hcontrol
    refine .itself ?_ hquote hback
    rw [Char.le_def, UInt32.le_iff_toNat_le]
    exact not_lt.mp hcontrol

theorem spellsString_quoted (s : String) : SpellsString s (quoted s) := by
  refine ⟨s.toList.flatMap escaped, ?_, rfl⟩
  induction s.toList with
  | nil => rfl
  | cons c l ih => exact ⟨escaped c, _, spellsCharacter_escaped c, ih, rfl⟩

theorem separates_comma (first : Bool) : Separates first (if first then [] else [',']) := by
  cases first with
  | true => exact blank_nil
  | false => exact ⟨[], [], blank_nil, blank_nil, rfl⟩

theorem spellsElements_separated {ts : List Tree} (h : ∀ t ∈ ts, Spells t (spell t))
    (first : Bool) :
    SpellsElements first ts (separated first (ts.map spell) ++ [']']) := by
  induction ts generalizing first with
  | nil => exact ⟨[], blank_nil, rfl⟩
  | cons t ts ih =>
    rw [List.forall_mem_cons] at h
    refine ⟨_, _, _, separates_comma first, h.1, ih h.2 false, ?_⟩
    rw [List.map_cons, separated, List.append_assoc]

theorem spellsMembers_separated {ms : List (String × Tree)}
    (h : ∀ q ∈ ms, Spells q.2 (spell q.2)) (first : Bool) :
    SpellsMembers first ms
      (separated first (ms.map fun q ↦ memberText q.1 (spell q.2)) ++ ['}']) := by
  induction ms generalizing first with
  | nil => exact ⟨[], blank_nil, rfl⟩
  | cons q ms ih =>
    rw [List.forall_mem_cons] at h
    refine ⟨_, _, [], [], _, _, separates_comma first, spellsString_quoted q.1, blank_nil,
      blank_nil, h.1, ih h.2 false, ?_⟩
    simp [separated, memberText]

theorem spells_tree {v : Value} (h : v.All Accepted) : Spells (tree v) (spell (tree v)) := by
  induction v using Value.induction_on with
  | null => rfl
  | bool b => cases b <;> rfl
  | number n =>
    obtain ⟨t, ht, -⟩ := numberFromJson_eq_ok h
    rw [tree_number, tokenOf_eq ht]
    exact spells_numberText ht.proper
  | string s => exact spellsString_quoted s
  | array l ih =>
    rw [Value.all_array] at h
    rw [tree_array, spell_array]
    refine ⟨_, spellsElements_separated ?_ true, rfl⟩
    rw [List.forall_mem_map]
    exact fun v hv ↦ ih v hv (h v hv)
  | object m ih =>
    rw [Value.all_object] at h
    rw [tree_object, spell_object]
    refine ⟨_, spellsMembers_separated ?_ true, rfl⟩
    rw [List.forall_mem_map]
    intro q hq
    have hq' := (perm_sortByName m).mem_iff.mp hq
    exact ih q hq' (h q hq')

theorem spellsText_tree {v : Value} (h : v.All Accepted) :
    SpellsText (tree v) (String.ofList (spell (tree v))) :=
  ⟨[], _, [], blank_nil, blank_nil, spells_tree h, by simp⟩

/-- Accepted values are written alike exactly where they have the same tree. -/
theorem canonicalize_eq_iff {v w : Value} (hv : v.All Accepted) (hw : w.All Accepted) :
    canonicalize w = canonicalize v ↔ tree w = tree v := by
  rw [canonicalize, canonicalize, write_eq hv, write_eq hw]
  constructor
  · intro h
    have htext : String.ofList (spell (tree w)) = String.ofList (spell (tree v)) :=
      Except.ok.inj h
    have hw' := spellsText_tree hw
    rw [htext] at hw'
    exact hw'.unique (spellsText_tree hv)
  · intro h
    rw [h]

theorem canonicalize_eq_ok {v : Value} {out : String} :
    canonicalize v = .ok out ↔ v.All Accepted ∧ out = String.ofList (spell (tree v)) := by
  constructor
  · intro h
    obtain ⟨text, htext, rfl⟩ := map_eq_ok.mp h
    have hall := accepted_of_write htext
    rw [write_eq hall] at htext
    exact ⟨hall, by rw [Except.ok.inj htext]⟩
  · rintro ⟨hall, rfl⟩
    rw [canonicalize, write_eq hall]
    rfl

end Spelling

section Rereading

theorem strictValue_number (n : NumberToken) : strictValue (.number n) =
    match parseNumber n with
    | some n => .ok (.number n)
    | none => .error (.jsonUnreadable "number out of range") := rfl

theorem strictValue_array (ts : List Tree) :
    strictValue (.array ts) = (strictElements ts).map .array := rfl

theorem strictValue_object (ms : List (String × Tree)) :
    strictValue (.object ms) = (strictMembers [] ms).map .object := rfl

theorem strictElements_cons (t : Tree) (ts : List Tree) : strictElements (t :: ts) = (do
    let v ← strictValue t
    let l ← strictElements ts
    return v :: l) := rfl

theorem strictMembers_cons (names : List String) (name : String) (t : Tree)
    (ms : List (String × Tree)) : strictMembers names ((name, t) :: ms) =
    if name ∈ names then
      .error (.jsonUnreadable ("the name \"" ++ name ++ "\" stands twice in the same object"))
    else (do
      let v ← strictValue t
      let m ← strictMembers (name :: names) ms
      return (name, v) :: m) := rfl

/-- The canonical text of a value is read as a value of the same text, which is accepted unless a
double became a whole number beyond those that are. -/
def Again (v : Value) : Prop :=
  ∃ w, strictValue (tree v) = .ok w ∧ tree w = tree v ∧
    (w.All Accepted ↔ v.All fun n ↦ ¬ Beyond n)

theorem again_elements {l : List Value} (h : ∀ v ∈ l, Again v) :
    ∃ k, strictElements (l.map tree) = .ok k ∧ k.map tree = l.map tree ∧
      ((∀ w ∈ k, w.All Accepted) ↔ ∀ v ∈ l, v.All fun n ↦ ¬ Beyond n) := by
  induction l with
  | nil => exact ⟨[], rfl, rfl, by simp⟩
  | cons v l ih =>
    rw [List.forall_mem_cons] at h
    obtain ⟨w, hw, htree, hacc⟩ := h.1
    obtain ⟨k, hk, htrees, haccs⟩ := ih h.2
    refine ⟨w :: k, ?_, ?_, ?_⟩
    · rw [List.map_cons, strictElements_cons, hw, hk]
      rfl
    · rw [List.map_cons, List.map_cons, htree, htrees]
    · rw [List.forall_mem_cons, List.forall_mem_cons, hacc, haccs]

theorem again_members {m : Members} (h : ∀ q ∈ m, Again q.2) (hu : (m.map Prod.fst).Nodup)
    {names : List String} (hn : ∀ q ∈ m, q.1 ∉ names) :
    ∃ k, strictMembers names (m.map fun q ↦ (q.1, tree q.2)) = .ok k ∧
      (k.map fun q ↦ (q.1, tree q.2)) = m.map (fun q ↦ (q.1, tree q.2)) ∧
      ((∀ q ∈ k, q.2.All Accepted) ↔ ∀ q ∈ m, q.2.All fun n ↦ ¬ Beyond n) := by
  induction m generalizing names with
  | nil => exact ⟨[], rfl, rfl, by simp⟩
  | cons q m ih =>
    rw [List.forall_mem_cons] at h hn
    rw [List.map_cons, List.nodup_cons] at hu
    obtain ⟨w, hw, htree, hacc⟩ := h.1
    have hn' : ∀ q' ∈ m, q'.1 ∉ q.1 :: names := by
      intro q' hq' hmem
      obtain heq | hmem := List.mem_cons.mp hmem
      · exact hu.1 (heq ▸ List.mem_map_of_mem hq')
      · exact hn.2 q' hq' hmem
    obtain ⟨k, hk, htrees, haccs⟩ := ih h.2 hu.2 hn'
    refine ⟨(q.1, w) :: k, ?_, ?_, ?_⟩
    · rw [List.map_cons, strictMembers_cons, if_neg hn.1, hw, hk]
      rfl
    · rw [List.map_cons, List.map_cons, htree, htrees]
    · rw [List.forall_mem_cons, List.forall_mem_cons, hacc, haccs]

theorem again {v : Value} (hu : v.Unique) (h : v.All Accepted) : Again v := by
  induction v using Value.induction_on with
  | null => exact ⟨.null, rfl, rfl, Iff.rfl⟩
  | bool b => exact ⟨.bool b, rfl, rfl, Iff.rfl⟩
  | number n =>
    obtain ⟨t, ht, -⟩ := numberFromJson_eq_ok h
    obtain ⟨n', hn', hshown, hacc⟩ := parseNumber_shown h ht
    refine ⟨.number n', ?_, by rw [tree_number, tree_number, hshown], hacc⟩
    rw [tree_number, tokenOf_eq ht, strictValue_number, hn']
  | string s => exact ⟨.string s, rfl, rfl, Iff.rfl⟩
  | array l ih =>
    rw [Value.unique_array] at hu
    rw [Value.all_array] at h
    obtain ⟨k, hk, htrees, hacc⟩ := again_elements fun v hv ↦ ih v hv (hu v hv) (h v hv)
    refine ⟨.array k, ?_, by rw [tree_array, tree_array, htrees], ?_⟩
    · rw [tree_array, strictValue_array, hk]
      rfl
    · rw [Value.all_array, Value.all_array, hacc]
  | object m ih =>
    rw [Value.unique_object] at hu
    rw [Value.all_object] at h
    have hperm := perm_sortByName m
    have hnodup : ((sortByName m).map Prod.fst).Nodup := (hperm.map _).nodup_iff.mpr hu.1
    obtain ⟨k, hk, htrees, hacc⟩ := again_members (fun q hq ↦
      have hq' := hperm.mem_iff.mp hq
      ih q hq' (hu.2 q hq') (h q hq')) hnodup fun _ _ ↦ List.not_mem_nil
    refine ⟨.object k, ?_, ?_, ?_⟩
    · rw [tree_object, strictValue_object, hk]
      rfl
    · rw [tree_object, tree_object, ← sortByName_map, htrees, ← sortByName_map, sortByName_idem]
    · rw [Value.all_object, Value.all_object, hacc]
      exact ⟨fun hall q hq ↦ hall q (hperm.mem_iff.mpr hq),
        fun hall q hq ↦ hall q (hperm.mem_iff.mp hq)⟩

end Rereading

section Strict

theorem strictMembers_spec {names : List String} {ms : List (String × Tree)} {m : Members}
    (h : strictMembers names ms = .ok m) :
    m.map Prod.fst = ms.map Prod.fst ∧ (ms.map Prod.fst).Nodup ∧ (∀ q ∈ ms, q.1 ∉ names) ∧
      List.Forall₂ (fun q r ↦ q.1 = r.1 ∧ strictValue q.2 = .ok r.2) ms m := by
  induction ms generalizing names m with
  | nil =>
    obtain rfl : [] = m := Except.ok.inj h
    exact ⟨rfl, List.nodup_nil, fun _ h ↦ absurd h List.not_mem_nil, .nil⟩
  | cons q ms ih =>
    rw [strictMembers_cons] at h
    split at h
    · cases h
    · rename_i hname
      rw [bind_eq_ok] at h
      obtain ⟨v, hv, h⟩ := h
      rw [bind_eq_ok] at h
      obtain ⟨m', hm, h⟩ := h
      obtain rfl : (q.1, v) :: m' = m := Except.ok.inj h
      obtain ⟨hmap, hnodup, hnames, hall⟩ := ih hm
      refine ⟨by rw [List.map_cons, List.map_cons, hmap], ?_, ?_, .cons ⟨rfl, hv⟩ hall⟩
      · rw [List.map_cons, List.nodup_cons]
        refine ⟨fun hmem ↦ ?_, hnodup⟩
        obtain ⟨q', hq', heq⟩ := List.mem_map.mp hmem
        exact hnames q' hq' (heq ▸ List.mem_cons_self ..)
      · rw [List.forall_mem_cons]
        exact ⟨hname, fun q' hq' hmem ↦ hnames q' hq' (List.mem_cons_of_mem _ hmem)⟩

theorem strictElements_spec {ts : List Tree} {l : List Value} (h : strictElements ts = .ok l) :
    List.Forall₂ (fun t v ↦ strictValue t = .ok v) ts l := by
  induction ts generalizing l with
  | nil =>
    obtain rfl : [] = l := Except.ok.inj h
    exact .nil
  | cons t ts ih =>
    rw [strictElements_cons, bind_eq_ok] at h
    obtain ⟨v, hv, h⟩ := h
    rw [bind_eq_ok] at h
    obtain ⟨l', hl, h⟩ := h
    obtain rfl : v :: l' = l := Except.ok.inj h
    exact .cons hv (ih hl)

theorem forall_of_forall₂ {R : α → β → Prop} {A : α → Prop} {B : β → Prop} {l : List α}
    {k : List β} (h : List.Forall₂ R l k) (hstep : ∀ a ∈ l, ∀ b, R a b → A a ∧ B b) :
    (∀ a ∈ l, A a) ∧ ∀ b ∈ k, B b := by
  induction h with
  | nil => exact ⟨fun _ h ↦ absurd h List.not_mem_nil, fun _ h ↦ absurd h List.not_mem_nil⟩
  | cons hab _ ih =>
    rw [List.forall_mem_cons] at hstep
    obtain ⟨ha, hb⟩ := hstep.1 _ hab
    obtain ⟨hl, hk⟩ := ih hstep.2
    exact ⟨List.forall_mem_cons.mpr ⟨ha, hl⟩, List.forall_mem_cons.mpr ⟨hb, hk⟩⟩

/-- Nothing is read where a name stands twice in an object. -/
theorem unique_of_strict {t : Tree} {v : Value} (h : strictValue t = .ok v) :
    t.Unique ∧ v.Unique := by
  induction t using Tree.induction_on generalizing v with
  | null =>
    obtain rfl : Value.null = v := Except.ok.inj h
    exact ⟨trivial, trivial⟩
  | bool b =>
    obtain rfl : Value.bool b = v := Except.ok.inj h
    exact ⟨trivial, trivial⟩
  | number n =>
    rw [strictValue_number] at h
    split at h
    · obtain rfl := Except.ok.inj h
      exact ⟨trivial, trivial⟩
    · cases h
  | string s =>
    obtain rfl : Value.string s = v := Except.ok.inj h
    exact ⟨trivial, trivial⟩
  | array ts ih =>
    rw [strictValue_array, map_eq_ok] at h
    obtain ⟨l, hl, rfl⟩ := h
    rw [Tree.unique_array, Value.unique_array]
    exact forall_of_forall₂ (strictElements_spec hl) fun t ht v hv ↦ ih t ht hv
  | object ms ih =>
    rw [strictValue_object, map_eq_ok] at h
    obtain ⟨m, hm, rfl⟩ := h
    obtain ⟨hnames, hnodup, -, hall⟩ := strictMembers_spec hm
    obtain ⟨hms, hm⟩ := @forall_of_forall₂ _ _ _ (fun q ↦ q.2.Unique) (fun q ↦ q.2.Unique) _ _ hall
      fun q hq r hr ↦ ih q hq hr.2
    rw [Tree.unique_object, Value.unique_object, hnames]
    exact ⟨⟨hnodup, hms⟩, hnodup, hm⟩

/-- The canonical text goes no deeper than the text that was read. -/
theorem fits_tree {t : Tree} {v : Value} {depth : ℕ} (h : strictValue t = .ok v)
    (hf : t.fits depth = true) : (tree v).fits depth = true := by
  induction t using Tree.induction_on generalizing v depth with
  | null =>
    obtain rfl : Value.null = v := Except.ok.inj h
    rfl
  | bool b =>
    obtain rfl : Value.bool b = v := Except.ok.inj h
    rfl
  | number n =>
    rw [strictValue_number] at h
    split at h
    · obtain rfl := Except.ok.inj h
      rfl
    · cases h
  | string s =>
    obtain rfl : Value.string s = v := Except.ok.inj h
    rfl
  | array ts ih =>
    rw [strictValue_array, map_eq_ok] at h
    obtain ⟨l, hl, rfl⟩ := h
    rw [Tree.fits_array, Bool.and_eq_true, fitsElements_iff] at hf
    obtain ⟨-, hall⟩ := @forall_of_forall₂ _ _ _ (fun _ ↦ True)
      (fun v ↦ (tree v).fits (depth - 1) = true) _ _ (strictElements_spec hl)
      fun t ht v hv ↦ ⟨trivial, ih t ht hv (hf.2 t ht)⟩
    rw [tree_array, Tree.fits_array, hf.1, Bool.true_and, fitsElements_iff, List.forall_mem_map]
    exact hall
  | object ms ih =>
    rw [strictValue_object, map_eq_ok] at h
    obtain ⟨m, hm, rfl⟩ := h
    rw [Tree.fits_object, Bool.and_eq_true, fitsMembers_iff] at hf
    obtain ⟨-, hall⟩ := @forall_of_forall₂ _ _ _ (fun _ ↦ True)
      (fun q ↦ (tree q.2).fits (depth - 1) = true) _ _ (strictMembers_spec hm).2.2.2
      fun q hq r hr ↦ ⟨trivial, ih q hq hr.2 (hf.2 q hq)⟩
    rw [tree_object, Tree.fits_object, hf.1, Bool.true_and, fitsMembers_iff, List.forall_mem_map]
    exact fun q hq ↦ hall q ((perm_sortByName m).mem_iff.mp hq)

end Strict

section Telling

/-- Values of one tree differ only in the order of members and in numbers of the same text. -/
theorem alike_of_tree_eq {v w : Value} (hv : v.All Accepted) (hw : w.All Accepted)
    (h : tree w = tree v) :
    Alike (fun n n' ↦ Accepted n ∧ Accepted n' ∧ shown n = shown n') v w := by
  induction v using Value.induction_on generalizing w with
  | null =>
    cases w with
    | null => rfl
    | _ => cases h
  | bool b =>
    cases w with
    | bool b' => exact congrArg Value.bool (Tree.bool.inj h)
    | _ => cases h
  | number n =>
    obtain ⟨n', rfl⟩ : ∃ n', w = .number n' := by
      cases w with
      | number n' => exact ⟨n', rfl⟩
      | _ => cases h
    replace h : tokenOf (shown n') = tokenOf (shown n) := Tree.number.inj h
    obtain ⟨t, ht, -⟩ := numberFromJson_eq_ok hv
    obtain ⟨t', ht', -⟩ := numberFromJson_eq_ok hw
    rw [tokenOf_eq ht, tokenOf_eq ht'] at h
    refine ⟨n', rfl, hv, hw, ?_⟩
    rw [ht.eq_signed, ht'.eq_signed, h]
  | string s =>
    cases w with
    | string s' => exact congrArg Value.string (Tree.string.inj h)
    | _ => cases h
  | array l ih =>
    obtain ⟨k, rfl⟩ : ∃ k, w = .array k := by
      cases w with
      | array k => exact ⟨k, rfl⟩
      | _ => cases h
    rw [tree_array, tree_array] at h
    replace h : k.map tree = l.map tree := Tree.array.inj h
    rw [Value.all_array] at hv hw
    refine ⟨k, rfl, ?_⟩
    rw [alikeElements_iff]
    induction l generalizing k with
    | nil =>
      obtain rfl := List.map_eq_nil_iff.mp h
      exact .nil
    | cons v l ihl =>
      obtain ⟨w, k, rfl, hvw, hk⟩ := List.map_eq_cons_iff.mp h
      rw [List.forall_mem_cons] at hv hw ih
      exact .cons (ih.1 hv.1 hw.1 hvw) (ihl ih.2 hv.2 k hw.2 hk)
  | object m ih =>
    obtain ⟨k, rfl⟩ : ∃ k, w = .object k := by
      cases w with
      | object k => exact ⟨k, rfl⟩
      | _ => cases h
    rw [tree_object, tree_object] at h
    replace h : ((sortByName k).map fun q ↦ (q.1, tree q.2)) =
        (sortByName m).map fun q ↦ (q.1, tree q.2) := Tree.object.inj h
    rw [Value.all_object] at hv hw
    have hk : ∀ q ∈ sortByName k, q.2.All Accepted := fun q hq ↦
      hw q ((perm_sortByName k).mem_iff.mp hq)
    have hsorted : List.Forall₂ (fun a b : String × Value ↦
        a.1 = b.1 ∧ tree b.2 = tree a.2 ∧ b.2.All Accepted) (sortByName m) (sortByName k) := by
      generalize sortByName m = m', sortByName k = k' at h hk
      induction m' generalizing k' with
      | nil =>
        obtain rfl := List.map_eq_nil_iff.mp h
        exact .nil
      | cons q m' ihm =>
        obtain ⟨r, k', rfl, hqr, hk'⟩ := List.map_eq_cons_iff.mp h
        rw [List.forall_mem_cons] at hk
        obtain ⟨hname, htree⟩ := Prod.mk.inj hqr
        exact .cons ⟨hname.symm, htree, hk.1⟩ (ihm k' hk' hk.2)
    obtain ⟨m', hm', hperm⟩ := List.perm_comp_forall₂ (perm_sortByName m).symm hsorted
    refine ⟨k, m', rfl, hperm.trans (perm_sortByName k), ?_⟩
    rw [alikeMembers_iff]
    clear hsorted hperm h
    induction hm' with
    | nil => exact .nil
    | cons hab _ ihm =>
      rw [List.forall_mem_cons] at hv ih
      exact .cons ⟨hab.1, ih.1 hv.1 hab.2.2 hab.2.1⟩ (ihm ih.2 hv.2)

/-- A number of the same text, another one where the digits are not told apart. -/
noncomputable def twin (n : Number) : Number :=
  open Classical in
  if h : Accepted n ∧ ¬ Distinct n then (exists_same_text h.1 h.2).choose else n

theorem twin_spec {n : Number} (h : Accepted n) :
    (Accepted (twin n) ∧ shown (twin n) = shown n) ∧
      (numeric n = numeric (twin n) → Distinct n) := by
  rw [twin]
  split
  · rename_i hd
    obtain ⟨hacc, hshown, hne⟩ := (exists_same_text hd.1 hd.2).choose_spec
    exact ⟨⟨hacc, hshown⟩, fun heq ↦ absurd heq hne⟩
  · rename_i hd
    exact ⟨⟨h, rfl⟩, fun _ ↦ by_contra fun hnot ↦ hd ⟨h, hnot⟩⟩

theorem tree_mapNumbers {f : Number → Number} {v : Value}
    (h : v.All fun n ↦ shown (f n) = shown n) : tree (v.mapNumbers f) = tree v := by
  induction v using Value.induction_on with
  | null => rfl
  | bool b => rfl
  | number n => exact congrArg (fun q ↦ Tree.number (tokenOf q)) h
  | string s => rfl
  | array l ih =>
    rw [Value.all_array] at h
    rw [Value.mapNumbers_array, tree_array, tree_array, List.map_map]
    congr 1
    exact List.map_congr_left fun v hv ↦ ih v hv (h v hv)
  | object m ih =>
    rw [Value.all_object] at h
    have hmembers : ((m.map fun q ↦ (q.1, q.2.mapNumbers f)).map fun q ↦ (q.1, tree q.2)) =
        m.map fun q ↦ (q.1, tree q.2) := by
      rw [List.map_map]
      refine List.map_congr_left fun q hq ↦ ?_
      rw [Function.comp_apply, ih q hq (h q hq)]
    rw [Value.mapNumbers_object, tree_object, tree_object, ← sortByName_map, hmembers,
      sortByName_map]

end Telling

section Main

variable (d : Deserializer)

/-- The canonical form of a text is a text that is accepted and reproduced. -/
def Reproduced (text : String) : Prop :=
  ∀ out, canonicalizeText d text = .ok out → canonicalizeText d out = .ok out

/-- Only a value that is equal, its numbers compared as numbers, has the canonical form of the
value. -/
def ToldApart (v : Value) : Prop :=
  ∀ w, w.Unique → canonicalize w = canonicalize v →
    Alike (fun n n' ↦ numeric n = numeric n') v w

variable {d}

theorem read_canonical {text out : String} {v : Value} (h : read d text = .ok v)
    (hout : canonicalize v = .ok out) : read d out = strictValue (tree v) := by
  obtain ⟨hacc, rfl⟩ := canonicalize_eq_ok.mp hout
  rw [Jcs.read] at h
  split at h
  · rename_i t ht
    have hreads := d.reads (spellsText_tree hacc)
    rw [if_pos (fits_tree h (d.within ht))] at hreads
    rw [Jcs.read, ok_of_toOption hreads]
  · cases h

theorem unique_of_read {text : String} {v : Value} (h : read d text = .ok v) : v.Unique := by
  rw [Jcs.read] at h
  split at h
  · exact (unique_of_strict h).2
  · cases h

theorem reproduced_iff {text out : String} {v : Value} (h : read d text = .ok v)
    (hout : canonicalize v = .ok out) :
    Reproduced d text ↔ v.All fun n ↦ ¬ Beyond n := by
  have htext : canonicalizeText d text = .ok out := by
    rw [canonicalizeText, h]
    exact hout
  obtain ⟨hacc, hspell⟩ := canonicalize_eq_ok.mp hout
  obtain ⟨w, hw, htree, hall⟩ := again (unique_of_read h) hacc
  have hagain : canonicalizeText d out = canonicalize w := by
    rw [canonicalizeText, read_canonical h hout, hw]
    rfl
  rw [← hall]
  constructor
  · intro hrep
    have hok := hrep out htext
    rw [hagain] at hok
    exact (canonicalize_eq_ok.mp hok).1
  · intro hw' out' hout'
    obtain rfl : out = out' := Except.ok.inj (htext.symm.trans hout')
    rw [hagain]
    exact canonicalize_eq_ok.mpr ⟨hw', by rw [htree, hspell]⟩

theorem toldApart_iff {v : Value} {out : String} (hu : v.Unique) (hout : canonicalize v = .ok out) :
    ToldApart v ↔ v.All Distinct := by
  obtain ⟨hacc, -⟩ := canonicalize_eq_ok.mp hout
  constructor
  · intro h
    have htwin : (v.mapNumbers twin).All Accepted := Value.all_mapNumbers.mpr <|
      hacc.imp₂ hacc fun n hn _ ↦ (twin_spec hn).1.1
    have htree : tree (v.mapNumbers twin) = tree v := tree_mapNumbers <|
      hacc.imp₂ hacc fun n hn _ ↦ (twin_spec hn).1.2
    have halike := h _ hu.mapNumbers ((canonicalize_eq_iff hacc htwin).mpr htree)
    exact hacc.imp₂ (all_of_alike_mapNumbers hu halike) fun n hn ↦ (twin_spec hn).2
  · intro h w _ heq
    rw [hout] at heq
    have hw := (canonicalize_eq_ok.mp heq).1
    have htree := (canonicalize_eq_iff hacc hw).mp (heq.trans hout.symm)
    exact (alike_of_tree_eq hacc hw htree).imp h
      fun n n' hd ⟨hn, hn', hshown⟩ ↦ numeric_eq_of_shown hn hn' hd hshown

theorem error_of_not_unique {t : Tree} {text : String} (h : SpellsText t text)
    (hu : ¬ t.Unique) : ∃ e, read d text = .error e := by
  have hreads := d.reads h
  rw [Jcs.read]
  split
  · rename_i t' ht'
    rw [ht'] at hreads
    split at hreads
    · obtain rfl : t' = t := Option.some.inj hreads
      cases hv : strictValue t' with
      | error e => exact ⟨e, rfl⟩
      | ok v => exact absurd (unique_of_strict hv).1 hu
    · cases hreads
  · exact ⟨_, rfl⟩

/-- The order of members does not change the canonical form; a text's form is reproduced exactly
where no double is written as a whole number beyond 2^53; it stands for one value exactly where
every double and the next one are read back from their own digits; and names that stand twice are
rejected. -/
theorem canonical (d : Deserializer) :
    (∀ v w, v.Unique → Alike (· = ·) v w → canonicalize w = canonicalize v) ∧
    (∀ text v out, read d text = .ok v → canonicalize v = .ok out →
      (Reproduced d text ↔ v.All fun n ↦ ¬ Beyond n)) ∧
    (∀ v out, v.Unique → canonicalize v = .ok out → (ToldApart v ↔ v.All Distinct)) ∧
    ∀ t text, SpellsText t text → ¬ t.Unique →
      ∃ e, read d text = .error e ∧ canonicalizeText d text = .error e := by
  refine ⟨fun v w hu h ↦ ?_, fun _ _ _ ↦ reproduced_iff, fun _ _ ↦ toldApart_iff,
    fun t text h hu ↦ ?_⟩
  · rw [canonicalize, canonicalize, write_eq_of_alike hu h]
  · obtain ⟨e, he⟩ := @error_of_not_unique d t text h hu
    exact ⟨e, he, by rw [canonicalizeText, he]; rfl⟩

/-- The double `1e16` becomes a whole number that is rejected, and 2^-44 is written as the double
before it. -/
theorem rejected_again : ¬ Reproduced .standard "1e16" ∧
    canonicalizeText .standard "5.684341886080802e-14" = .ok "5.684341886080801e-14" ∧
    canonicalizeText .standard "5.684341886080801e-14" = .ok "5.684341886080801e-14" ∧
    Jcs.read .standard "5.684341886080802e-14" = .ok (.number (.float 0x3D30000000000000)) ∧
    ¬ ToldApart (.number (.float 0x3D30000000000000)) := by
  have hout : canonicalizeText .standard "1e16" = .ok "10000000000000000" :=
    ok_of_toOption (by decide +kernel)
  have hnot : (canonicalizeText .standard "10000000000000000").toOption = none := by
    decide +kernel
  have hsame : (canonicalize (.number (.float 0x3D30000000000000))).toOption =
      some "5.684341886080801e-14" := by decide +kernel
  have hsame' : (canonicalize (.number (.float 0x3D2FFFFFFFFFFFFF))).toOption =
      some "5.684341886080801e-14" := by decide +kernel
  have htoken : JsonText.readText recursionLimit "5.684341886080802e-14" =
      some (.number ⟨false, ['5'], "684341886080802".toList, some (true, ['1', '4'])⟩) := by rfl
  have hparse : parseNumber ⟨false, ['5'], "684341886080802".toList, some (true, ['1', '4'])⟩ =
      some (.float 0x3D30000000000000) := by decide +kernel
  refine ⟨fun h ↦ ?_, ok_of_toOption (by decide +kernel), ok_of_toOption (by decide +kernel), ?_,
    fun h ↦ ?_⟩
  · rw [h _ hout] at hnot
    cases hnot
  · rw [Jcs.read, Deserializer.standard]
    simp only [htoken, strictValue, hparse]
  · have heq := (ok_of_toOption hsame').trans (ok_of_toOption hsame).symm
    obtain ⟨n', hn', hnumeric⟩ := h (.number (.float 0x3D2FFFFFFFFFFFFF)) trivial heq
    cases hn'
    exact absurd hnumeric (by decide +kernel)

end Main

end FolderClient.Crypto.Canonical
