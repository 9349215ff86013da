import Mathlib.Data.List.Induction
import Mathlib.Data.List.TakeDrop
import Mathlib.Logic.Function.Basic

namespace FolderClient.Library.EditLog

variable {κ ν : Type} [DecidableEq κ]

/-- One change to a keyed collection. -/
inductive Edit (κ ν : Type)
  | put (k : κ) (v : ν)
  | delete (k : κ)

/-- What a keyed collection holds at one moment. -/
abbrev Snapshot (κ ν : Type) := κ → Option ν

namespace Edit

def key : Edit κ ν → κ
  | put k _ | delete k => k

/-- Deleting an absent key changes nothing. -/
def apply (m : Snapshot κ ν) : Edit κ ν → Snapshot κ ν
  | put k v => Function.update m k (some v)
  | delete k => Function.update m k none

/-- Forgets what an edit put at the keys of `p`. -/
def redact (p : κ → Prop) [DecidablePred p] (e : Edit κ ν) : Edit κ ν :=
  if p e.key then delete e.key else e

theorem apply_of_ne {m : Snapshot κ ν} {e : Edit κ ν} {k : κ} (h : k ≠ e.key) :
    e.apply m k = m k := by
  cases e <;> exact Function.update_of_ne h _ _

end Edit

def replay (m : Snapshot κ ν) (es : List (Edit κ ν)) : Snapshot κ ν := es.foldl Edit.apply m

@[simp] theorem replay_nil (m : Snapshot κ ν) : replay m [] = m := rfl

@[simp] theorem replay_cons (m : Snapshot κ ν) (e : Edit κ ν) (es : List (Edit κ ν)) :
    replay m (e :: es) = replay (e.apply m) es := rfl

theorem replay_append (m : Snapshot κ ν) (es fs : List (Edit κ ν)) :
    replay m (es ++ fs) = replay (replay m es) fs := List.foldl_append

theorem replay_of_forall_ne {m : Snapshot κ ν} {es : List (Edit κ ν)} {k : κ}
    (h : ∀ e ∈ es, k ≠ e.key) : replay m es k = m k := by
  induction es generalizing m with
  | nil => rfl
  | cons e es ih =>
    rw [replay_cons, ih fun e' he' ↦ h e' (List.mem_cons_of_mem _ he'),
      Edit.apply_of_ne (h e List.mem_cons_self)]

theorem replay_congr {m m' : Snapshot κ ν} {es : List (Edit κ ν)} {k : κ} (h : m k = m' k) :
    replay m es k = replay m' es k := by
  induction es generalizing m m' with
  | nil => exact h
  | cons e es ih =>
    refine ih ?_
    cases e <;> simp only [Edit.apply, Function.update_apply, h]

theorem replay_deletes (m : Snapshot κ ν) (ks : List κ) (k : κ) :
    replay m (ks.map Edit.delete) k = if k ∈ ks then none else m k := by
  induction ks generalizing m with
  | nil => simp
  | cons j ks ih =>
    rw [List.map_cons, replay_cons, ih]
    by_cases hk : k ∈ ks
    · simp [hk]
    · simp [hk, Edit.apply, Function.update_apply]

section Collapsing

/-- What stands at the key of an edit after it. -/
def Edit.value : Edit κ ν → Option ν
  | .put _ v => some v
  | .delete _ => none

/-- What the last edit of a key leaves there, if any edit touches it. -/
def lastValue (es : List (Edit κ ν)) (k : κ) : Option (Option ν) :=
  (es.reverse.find? fun e ↦ e.key = k).map Edit.value

theorem lastValue_concat (es : List (Edit κ ν)) (e : Edit κ ν) (k : κ) :
    lastValue (es ++ [e]) k = if e.key = k then some e.value else lastValue es k := by
  rw [lastValue, List.reverse_append, List.reverse_singleton, List.singleton_append,
    List.find?_cons]
  by_cases hk : e.key = k
  · rw [if_pos hk, decide_eq_true hk]
    rfl
  · rw [if_neg hk, decide_eq_false hk]
    rfl

/-- Of each key, only its last edit counts. -/
theorem replay_eq_lastValue (m : Snapshot κ ν) (es : List (Edit κ ν)) (k : κ) :
    replay m es k = (lastValue es k).getD (m k) := by
  induction es using List.reverseRecOn with
  | nil => rfl
  | append_singleton es e ih =>
    rw [replay_append, lastValue_concat, replay_cons, replay_nil]
    by_cases hk : e.key = k
    · rw [if_pos hk, Option.getD_some, ← hk]
      cases e <;> exact Function.update_self _ _ _
    · rw [if_neg hk, Edit.apply_of_ne (Ne.symm hk), ih]

/-- Under distinct keys each edit has the last word on its own. -/
theorem replay_of_nodup {m : Snapshot κ ν} {es : List (Edit κ ν)} (hn : (es.map Edit.key).Nodup)
    {e : Edit κ ν} (he : e ∈ es) : replay m es e.key = e.value := by
  induction es generalizing m with
  | nil => cases he
  | cons d es ih =>
    obtain ⟨hd, hn⟩ := List.nodup_cons.mp hn
    rw [replay_cons]
    rcases List.mem_cons.mp he with rfl | he
    · have hrest : ∀ d ∈ es, e.key ≠ d.key := fun d hd' hk ↦ hd (List.mem_map.mpr ⟨d, hd', hk.symm⟩)
      rw [replay_of_forall_ne hrest]
      cases e <;> exact Function.update_self _ _ _
    · exact ih hn he

/-- Edits of other keys do not matter. -/
theorem replay_filter {p : κ → Bool} (m : Snapshot κ ν) (es : List (Edit κ ν)) {k : κ}
    (hk : p k = true) : replay m (es.filter fun e ↦ p e.key) k = replay m es k := by
  induction es generalizing m with
  | nil => rfl
  | cons e es ih =>
    rw [replay_cons]
    by_cases he : p e.key = true
    · have hkept : (e :: es).filter (fun e ↦ p e.key) = e :: es.filter fun e ↦ p e.key :=
        List.filter_cons_of_pos he
      rw [hkept, replay_cons]
      exact ih _
    · have hdropped : (e :: es).filter (fun e ↦ p e.key) = es.filter fun e ↦ p e.key :=
        List.filter_cons_of_neg he
      have hne : k ≠ e.key := fun h ↦ he (h ▸ hk)
      rw [hdropped, ih]
      exact replay_congr (Edit.apply_of_ne hne).symm

/-- Deletions and then puts, one of either kind for a key at most. -/
theorem replay_split {last : κ → Option (Option ν)} {removed : List κ} {updated : List (κ × ν)}
    (hr : ∀ k, k ∈ removed ↔ last k = some none)
    (hu : ∀ k v, (k, v) ∈ updated ↔ last k = some (some v)) (m : Snapshot κ ν) (k : κ) :
    replay m (removed.map Edit.delete ++ updated.map fun u ↦ Edit.put u.1 u.2) k =
      (last k).getD (m k) := by
  have hput : ∀ (us : List (κ × ν)) (m : Snapshot κ ν), (∀ u ∈ us, u ∈ updated) →
      (∃ v, (k, v) ∈ us) →
      some (replay m (us.map fun u ↦ Edit.put u.1 u.2) k) = last k := by
    intro us
    induction us using List.reverseRecOn with
    | nil => rintro m - ⟨v, hv⟩; cases hv
    | append_singleton us u ih =>
      rintro m hall ⟨v, hv⟩
      rw [List.map_append, replay_append, List.map_singleton, replay_cons, replay_nil]
      by_cases hk : k = u.1
      · have hlast := (hu u.1 u.2).mp (hall u (by simp))
        rw [hk, hlast]
        exact congrArg some (Function.update_self _ _ _)
      · rw [Edit.apply_of_ne hk]
        refine ih m (fun u' hu' ↦ hall u' (List.mem_append_left _ hu')) ⟨v, ?_⟩
        refine (List.mem_append.mp hv).resolve_right fun hm ↦ hk ?_
        exact congrArg Prod.fst (List.mem_singleton.mp hm)
  rw [replay_append]
  by_cases hput' : ∃ v, (k, v) ∈ updated
  · have hlast := hput updated (replay m (removed.map Edit.delete)) (fun _ h ↦ h) hput'
    rw [← hlast]
    rfl
  · rw [replay_of_forall_ne, replay_deletes]
    · split
      next hk => rw [(hr k).mp hk]; rfl
      next hk =>
        cases hlast : last k with
        | none => rfl
        | some after =>
          cases after with
          | none => exact absurd ((hr k).mpr hlast) hk
          | some v => exact absurd ⟨v, (hu k v).mpr hlast⟩ hput'
    · intro e he hk
      obtain ⟨u, hu', rfl⟩ := List.mem_map.mp he
      exact hput' ⟨u.2, by rw [hk]; exact hu'⟩

end Collapsing

section Redaction

variable (p : κ → Prop) [DecidablePred p]

theorem replay_redact_of_not {m : Snapshot κ ν} {es : List (Edit κ ν)} {k : κ} (hk : ¬ p k) :
    replay m (es.map (Edit.redact p)) k = replay m es k := by
  induction es generalizing m with
  | nil => rfl
  | cons e es ih =>
    rw [List.map_cons, replay_cons, replay_cons, ih]
    refine replay_congr ?_
    by_cases he : p e.key
    · have hne : k ≠ e.key := fun h ↦ hk (h ▸ he)
      have hd : k ≠ (Edit.delete e.key : Edit κ ν).key := hne
      rw [Edit.redact, if_pos he, Edit.apply_of_ne hne, Edit.apply_of_ne hd]
    · rw [Edit.redact, if_neg he]

/-- At a redacted key the replay ends empty, unless no edit touched the key at all. -/
theorem replay_redact_of (m : Snapshot κ ν) (es : List (Edit κ ν)) {k : κ} (hk : p k) :
    replay m (es.map (Edit.redact p)) k = none ∨
      (replay m (es.map (Edit.redact p)) k = m k ∧ replay m es k = m k) := by
  by_cases he : ∃ e ∈ es, k = e.key
  · left
    induction es generalizing m with
    | nil => simp at he
    | cons e es ih =>
      rw [List.map_cons, replay_cons]
      by_cases hes : ∃ e' ∈ es, k = e'.key
      · exact ih _ hes
      · obtain ⟨e', he', hk'⟩ := he
        rcases List.mem_cons.mp he' with rfl | he'
        · rw [replay_of_forall_ne, Edit.redact, if_pos (hk' ▸ hk)]
          · simp [Edit.apply, hk']
          · intro f hf hkf
            obtain ⟨g, hg, rfl⟩ := List.mem_map.mp hf
            refine hes ⟨g, hg, ?_⟩
            rw [hkf, Edit.redact]
            split <;> rfl
        · exact absurd ⟨e', he', hk'⟩ hes
  · right
    have hne : ∀ e ∈ es, k ≠ e.key := fun e h hk' ↦ he ⟨e, h, hk'⟩
    refine ⟨replay_of_forall_ne fun f hf ↦ ?_, replay_of_forall_ne hne⟩
    obtain ⟨g, hg, rfl⟩ := List.mem_map.mp hf
    rw [Edit.redact]
    split
    · exact hne g hg
    · exact hne g hg

/-- Redacting the log and deleting what still stood at the redacted keys erases exactly them. -/
theorem replay_redact_deletes {m : Snapshot κ ν} {es : List (Edit κ ν)} {ks : List κ}
    (hks : ∀ k, k ∈ ks ↔ p k ∧ replay m es k ≠ none) :
    replay m (es.map (Edit.redact p) ++ ks.map Edit.delete) =
      fun k ↦ if p k then none else replay m es k := by
  funext k
  rw [replay_append, replay_deletes]
  by_cases hk : p k
  · rw [if_pos hk]
    split
    · rfl
    · rename_i hn
      have hnone : replay m es k = none := by
        by_contra h
        exact hn ((hks k).mpr ⟨hk, h⟩)
      rcases replay_redact_of p m es hk with h | ⟨h, h'⟩
      · exact h
      · rw [h, ← h', hnone]
  · have hn : k ∉ ks := fun h ↦ hk ((hks k).mp h).1
    rw [if_neg hk, if_neg hn, replay_redact_of_not p hk]

end Redaction

/-- A numbered log of edits above a moving lower bound, with the snapshot that stood at each
number. The law says that every retained suffix leads from its snapshot to the present one. -/
structure Chronicle (κ ν : Type) [DecidableEq κ] where
  lower : ℕ
  edits : List (Edit κ ν)
  now : Snapshot κ ν
  stood : ℕ → Snapshot κ ν
  law : ∀ n ≤ edits.length, replay (stood (lower + n)) (edits.drop n) = now

namespace Chronicle

def last (c : Chronicle κ ν) : ℕ := c.lower + c.edits.length

def start (lower : ℕ) (m : Snapshot κ ν) : Chronicle κ ν where
  lower := lower
  edits := []
  now := m
  stood _ := m
  law _ _ := by simp

theorem stood_last (c : Chronicle κ ν) : c.stood c.last = c.now := by
  simpa [last] using c.law c.edits.length (Nat.le_refl _)

theorem replay_since (c : Chronicle κ ν) {f : ℕ} (hl : c.lower ≤ f) (hf : f ≤ c.last) :
    replay (c.stood f) (c.edits.drop (f - c.lower)) = c.now := by
  have h := c.law (f - c.lower) (by simp only [last] at hf; omega)
  rwa [Nat.add_sub_cancel' hl] at h

/-- Appends edits; the numbers in between stand for the edits applied so far. -/
def append (c : Chronicle κ ν) (es : List (Edit κ ν)) : Chronicle κ ν where
  lower := c.lower
  edits := c.edits ++ es
  now := replay c.now es
  stood f := if f ≤ c.last then c.stood f else replay c.now (es.take (f - c.last))
  law n hn := by
    by_cases h : n ≤ c.edits.length
    · have hle : c.lower + n ≤ c.last := by simp only [last]; omega
      rw [if_pos hle, List.drop_append_of_le_length h, replay_append, c.law n h]
    · have hlt : ¬ c.lower + n ≤ c.last := by simp only [last]; omega
      have hn' : c.lower + n - c.last = n - c.edits.length := by simp only [last]; omega
      rw [if_neg hlt, List.drop_append, List.drop_of_length_le (by omega), List.nil_append, hn',
        ← replay_append, List.take_append_drop]

/-- Drops the oldest `n` edits. -/
def trim (c : Chronicle κ ν) (n : ℕ) (h : n ≤ c.edits.length) : Chronicle κ ν where
  lower := c.lower + n
  edits := c.edits.drop n
  now := c.now
  stood := c.stood
  law m hm := by
    rw [List.length_drop] at hm
    rw [List.drop_drop, Nat.add_assoc]
    exact c.law (n + m) (by omega)

/-- Empties collection and log; one number passes unused, so that no older one stays valid. -/
def reset (c : Chronicle κ ν) : Chronicle κ ν where
  lower := c.last + 1
  edits := []
  now _ := none
  stood f := if f ≤ c.last then c.stood f else fun _ ↦ none
  law n hn := by
    have hlt : ¬ c.last + 1 + n ≤ c.last := by omega
    rw [if_neg hlt, List.drop_nil, replay_nil]

variable (p : κ → Prop) [DecidablePred p]

/-- Erases the keys of `p`: the log forgets what it said about them and gains their deletions. -/
def erase (c : Chronicle κ ν) (ks : List κ) (hks : ∀ k, k ∈ ks ↔ p k ∧ c.now k ≠ none) :
    Chronicle κ ν where
  lower := c.lower
  edits := c.edits.map (Edit.redact p) ++ ks.map Edit.delete
  now k := if p k then none else c.now k
  stood f := if f ≤ c.last then c.stood f else
    fun k ↦ if k ∈ ks.take (f - c.last) then none else c.now k
  law n hn := by
    by_cases h : n ≤ c.edits.length
    · have hle : c.lower + n ≤ c.last := by simp only [last]; omega
      have hnow : ∀ k, k ∈ ks ↔ p k ∧ replay (c.stood (c.lower + n)) (c.edits.drop n) k ≠ none :=
        fun k ↦ by rw [c.law n h, hks k]
      rw [if_pos hle, List.drop_append_of_le_length (by simpa using h), ← List.map_drop,
        replay_redact_deletes p hnow, c.law n h]
    · have hlt : ¬ c.lower + n ≤ c.last := by simp only [last]; omega
      have hn' : c.lower + n - c.last = n - c.edits.length := by simp only [last]; omega
      rw [if_neg hlt, List.drop_append, List.drop_of_length_le (by simp; omega), List.nil_append,
        hn', List.length_map, ← List.map_drop]
      funext k
      rw [replay_deletes]
      have hsplit : k ∈ ks ↔
          k ∈ ks.take (n - c.edits.length) ∨ k ∈ ks.drop (n - c.edits.length) := by
        rw [← List.mem_append, List.take_append_drop]
      by_cases hd : k ∈ ks.drop (n - c.edits.length)
      · rw [if_pos hd, if_pos ((hks k).mp (hsplit.mpr (.inr hd))).1]
      · rw [if_neg hd]
        by_cases ht : k ∈ ks.take (n - c.edits.length)
        · rw [if_pos ht, if_pos ((hks k).mp (hsplit.mpr (.inl ht))).1]
        · rw [if_neg ht]
          by_cases hp : p k
          · have hnone : c.now k = none := by
              by_contra hne
              rcases hsplit.mp ((hks k).mpr ⟨hp, hne⟩) with h' | h'
              · exact ht h'
              · exact hd h'
            rw [if_pos hp, hnone]
          · rw [if_neg hp]

end Chronicle

end FolderClient.Library.EditLog
