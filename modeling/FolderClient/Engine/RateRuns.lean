import FolderClient.Engine.Commands

namespace FolderClient.Engine.RateRuns

open FolderClient.Core.Delivery FolderClient.Engine.Commands

/-- A call of the rate limit: what a clock that nobody sets would show at it, and the reading it
carries. -/
structure Call where
  steady : ℤ
  reading : ℤ
deriving DecidableEq

/-- The calls granted so far, and what the limit remembers of them. -/
structure Ledger where
  granted : List Call
  limit : RateLimit

variable (clock : Call → ℤ)

def enter (l : Ledger) (c : Call) : Ledger :=
  match l.limit.take (clock c) with
  | (true, limit) => ⟨l.granted ++ [c], limit⟩
  | (false, limit) => ⟨l.granted, limit⟩

def run (calls : List Call) : Ledger := calls.foldl (enter clock) ⟨[], ⟨[]⟩⟩

def granted (calls : List Call) : List Call := (run clock calls).granted

/-- Whether a remembered time lies in the window around a reading. -/
def near (now time : ℤ) : Bool := (now - time).natAbs < rateWindow

/-- No granted call in the window around the reading has been forgotten. -/
def Remembers (l : Ledger) (c : Call) : Prop :=
  (l.granted.map clock).filter (near (clock c)) = l.limit.applied.filter (near (clock c))

/-- At every call the window around its reading is whole. -/
def Whole (calls : List Call) : Prop :=
  ∀ n, (h : n < calls.length) → Remembers clock (run clock (calls.take n)) calls[n]

/-- No clock is set so far that a call granted within the last window leaves it. -/
def Close (calls : List Call) : Prop :=
  ∀ n, (h : n < calls.length) → ∀ g ∈ granted Call.reading (calls.take n),
    calls[n].steady - g.steady < rateWindow → near calls[n].reading g.reading = true

/-- A clock that nobody sets does not run backwards. -/
def Steady (calls : List Call) : Prop := calls.Pairwise fun c d ↦ c.steady ≤ d.steady

instance (l : Ledger) (c : Call) : Decidable (Remembers clock l c) :=
  inferInstanceAs (Decidable (_ = _))

instance (calls : List Call) : Decidable (Whole clock calls) :=
  inferInstanceAs (Decidable (∀ n, (h : n < calls.length) →
    Remembers clock (run clock (calls.take n)) calls[n]))

instance (calls : List Call) : Decidable (Close calls) :=
  inferInstanceAs (Decidable (∀ n, (h : n < calls.length) →
    ∀ g ∈ granted Call.reading (calls.take n),
      calls[n].steady - g.steady < rateWindow → near calls[n].reading g.reading = true))

instance (calls : List Call) : Decidable (Steady calls) :=
  inferInstanceAs (Decidable (calls.Pairwise _))

/-- The granted calls that lie in the window before a time. -/
def recent (time : ℤ) (calls : List Call) : List Call :=
  calls.filter fun c ↦ time - c.steady < rateWindow

variable {clock} {c : Call} {calls : List Call}

section Steps

theorem run_concat (calls : List Call) (c : Call) :
    run clock (calls ++ [c]) = enter clock (run clock calls) c := List.foldl_concat ..

theorem take_eq (limit : RateLimit) (now : ℤ) : limit.take now =
    if maxCommandsPerMinute ≤ (limit.applied.filter (near now)).length then
      (false, ⟨limit.applied.filter (near now)⟩)
    else (true, ⟨limit.applied.filter (near now) ++ [now]⟩) := rfl

/-- A call is granted exactly if the window around its reading has a place left. -/
theorem enter_eq (l : Ledger) (c : Call) : enter clock l c =
    if maxCommandsPerMinute ≤ (l.limit.applied.filter (near (clock c))).length then
      ⟨l.granted, ⟨l.limit.applied.filter (near (clock c))⟩⟩
    else ⟨l.granted ++ [c], ⟨l.limit.applied.filter (near (clock c)) ++ [clock c]⟩⟩ := by
  rw [enter, take_eq]
  by_cases hfull : maxCommandsPerMinute ≤ (l.limit.applied.filter (near (clock c))).length
  · rw [if_pos hfull, if_pos hfull]
  · rw [if_neg hfull, if_neg hfull]

theorem granted_concat (calls : List Call) (c : Call) :
    granted clock (calls ++ [c]) = granted clock calls ∨
      granted clock (calls ++ [c]) = granted clock calls ++ [c] := by
  rw [granted, run_concat, enter_eq]
  split
  · exact .inl rfl
  · exact .inr rfl

/-- A granted call found fewer than thirty granted calls in the window around its reading. -/
theorem length_near_of_granted (hr : Remembers clock (run clock calls) c)
    (h : granted clock (calls ++ [c]) ≠ granted clock calls) :
    ((granted clock calls).filter fun g ↦ near (clock c) (clock g)).length <
      maxCommandsPerMinute := by
  have hmap : ((granted clock calls).map clock).filter (near (clock c)) =
      ((granted clock calls).filter fun g ↦ near (clock c) (clock g)).map clock := List.filter_map
  rw [← List.length_map clock, ← hmap, granted, hr]
  by_contra hfull
  apply h
  rw [granted, run_concat, enter_eq, if_pos (not_lt.mp hfull)]
  rfl

theorem granted_sublist (calls : List Call) : (granted clock calls).Sublist calls := by
  induction calls using List.reverseRecOn with
  | nil => exact List.nil_sublist _
  | append_singleton calls c ih =>
    rcases granted_concat calls c with h | h
    · rw [h]
      exact ih.trans (List.sublist_append_left ..)
    · rw [h]
      exact ih.append (List.Sublist.refl _)

theorem exists_granted_append (before after : List Call) :
    ∃ rest, granted clock (before ++ after) = granted clock before ++ rest ∧
      rest.Sublist after := by
  induction after using List.reverseRecOn with
  | nil => exact ⟨[], by simp, List.Sublist.refl _⟩
  | append_singleton after c ih =>
    obtain ⟨rest, hrest, hsub⟩ := ih
    rw [← List.append_assoc]
    rcases granted_concat (before ++ after) c with h | h
    · exact ⟨rest, h.trans hrest, hsub.trans (List.sublist_append_left ..)⟩
    · refine ⟨rest ++ [c], ?_, hsub.append (List.Sublist.refl _)⟩
      rw [h, hrest, List.append_assoc]

theorem Whole.earlier (h : Whole clock (calls ++ [c])) : Whole clock calls := by
  intro n hn
  have hstep := h n (by rw [List.length_append]; omega)
  rwa [List.take_append_of_le_length hn.le, List.getElem_append_left hn] at hstep

theorem Whole.last (h : Whole clock (calls ++ [c])) : Remembers clock (run clock calls) c := by
  have hstep := h calls.length (by simp)
  rwa [List.take_left, List.getElem_concat_length rfl] at hstep

theorem Close.earlier (h : Close (calls ++ [c])) : Close calls := by
  intro n hn
  have hstep := h n (by rw [List.length_append]; omega)
  rwa [List.take_append_of_le_length hn.le, List.getElem_append_left hn] at hstep

theorem Close.last (h : Close (calls ++ [c])) : ∀ g ∈ granted Call.reading calls,
    c.steady - g.steady < rateWindow → near c.reading g.reading = true := by
  have hstep := h calls.length (by simp)
  rwa [List.take_left, List.getElem_concat_length rfl] at hstep

end Steps

section Limit

/-- The calls that carry readings in the window from `a` on. -/
def within (clock : Call → ℤ) (a : ℤ) (calls : List Call) : List Call :=
  calls.filter fun c ↦ a ≤ clock c ∧ clock c < a + rateWindow

theorem length_within_le (h : Whole clock calls) (a : ℤ) :
    (within clock a (granted clock calls)).length ≤ maxCommandsPerMinute := by
  induction calls using List.reverseRecOn with
  | nil => exact Nat.zero_le _
  | append_singleton calls c ih =>
    specialize ih h.earlier
    by_cases hgranted : granted clock (calls ++ [c]) = granted clock calls
    · rw [hgranted]
      exact ih
    · have hfew := length_near_of_granted h.last hgranted
      rw [(granted_concat calls c).resolve_left hgranted, within, List.filter_append,
        List.length_append]
      by_cases hc : a ≤ clock c ∧ clock c < a + rateWindow
      · have hsub : (within clock a (granted clock calls)).length ≤
            ((granted clock calls).filter fun g ↦ near (clock c) (clock g)).length := by
          refine (List.monotone_filter_right _ fun g hg ↦ ?_).length_le
          have hg := of_decide_eq_true hg
          exact decide_eq_true (by omega)
        have hone := List.length_filter_le
          (fun c ↦ decide (a ≤ clock c ∧ clock c < a + rateWindow)) [c]
        rw [List.length_singleton] at hone
        rw [within] at hsub
        omega
      · rw [List.filter_cons_of_neg (by simpa using hc)]
        exact ih

end Limit

section Steady

theorem Steady.earlier (h : Steady (calls ++ [c])) : Steady calls := (List.pairwise_append.mp h).1

theorem Steady.le_last (h : Steady (calls ++ [c])) {g : Call} (hg : g ∈ calls) :
    g.steady ≤ c.steady := (List.pairwise_append.mp h).2.2 g hg c List.mem_cons_self

/-- Under a steady clock nothing is forgotten too early. -/
theorem remembers_steady (h : Steady calls) {now : ℤ} (hnow : ∀ g ∈ calls, g.steady ≤ now) :
    ((granted Call.steady calls).map Call.steady).filter (near now) =
      (run Call.steady calls).limit.applied.filter (near now) := by
  induction calls using List.reverseRecOn generalizing now with
  | nil => rfl
  | append_singleton calls c ih =>
    have hc : c.steady ≤ now := hnow c (List.mem_append_right _ List.mem_cons_self)
    have hkept : (((run Call.steady calls).limit.applied.filter (near c.steady)).filter
        (near now)) = ((granted Call.steady calls).map Call.steady).filter (near now) := by
      rw [← ih h.earlier fun g hg ↦ h.le_last hg, List.filter_filter]
      refine List.filter_congr fun t ht ↦ ?_
      obtain ⟨g, hg, rfl⟩ := List.mem_map.mp ht
      have hle := h.le_last ((granted_sublist calls).subset hg)
      rw [Bool.and_eq_left_iff_imp]
      intro hnear
      have hnear := of_decide_eq_true hnear
      exact decide_eq_true (by omega)
    rw [granted, run_concat, enter_eq]
    split
    · exact hkept.symm
    · rw [List.map_append, List.filter_append, List.filter_append, hkept]
      rfl

/-- A call that a steady clock does not grant follows thirty granted ones. -/
theorem le_length_recent (h : Steady (calls ++ [c]))
    (hrejected : granted Call.steady (calls ++ [c]) = granted Call.steady calls) :
    maxCommandsPerMinute ≤ (recent c.steady (granted Call.steady calls)).length := by
  have hsame : ((granted Call.steady calls).map Call.steady).filter (near c.steady) =
      (recent c.steady (granted Call.steady calls)).map Call.steady := by
    rw [List.filter_map, recent]
    refine congrArg _ (List.filter_congr fun g hg ↦ ?_)
    have hle := h.le_last ((granted_sublist calls).subset hg)
    exact decide_eq_decide.mpr ⟨fun _ ↦ by omega, fun _ ↦ by omega⟩
  rw [← List.length_map Call.steady, ← hsame,
    remembers_steady h.earlier fun g hg ↦ h.le_last hg]
  by_contra hfew
  rw [granted, run_concat, enter_eq, if_neg hfew] at hrejected
  have hlength := congrArg List.length hrejected
  rw [List.length_append, List.length_singleton] at hlength
  exact absurd hlength (Nat.succ_ne_self _)

/-- The calls of the last window stand at the end. -/
theorem exists_recent (h : Steady calls) (time : ℤ) : ∃ before last, calls = before ++ last ∧
    recent time before = [] ∧ recent time last = last := by
  induction calls with
  | nil => exact ⟨[], [], rfl, rfl, rfl⟩
  | cons c calls ih =>
    obtain ⟨hfirst, hrest⟩ := List.pairwise_cons.mp h
    by_cases hc : time - c.steady < rateWindow
    · refine ⟨[], c :: calls, rfl, rfl, List.filter_eq_self.mpr fun g hg ↦ decide_eq_true ?_⟩
      rcases List.mem_cons.mp hg with rfl | hg
      · exact hc
      · have hle := hfirst g hg
        omega
    · obtain ⟨before, last, rfl, hbefore, hlast⟩ := ih hrest
      refine ⟨c :: before, last, rfl, ?_, hlast⟩
      rw [recent, List.filter_cons_of_neg (by simpa using hc)]
      exact hbefore

theorem recent_eq_nil_of_sublist {time : ℤ} {l l' : List Call} (hl : l.Sublist l')
    (h : recent time l' = []) : recent time l = [] :=
  List.eq_nil_of_sublist_nil (h ▸ hl.filter _)

theorem recent_eq_self_of_sublist {time : ℤ} {l l' : List Call} (hl : l.Sublist l')
    (h : recent time l' = l') : recent time l = l :=
  List.filter_eq_self.mpr fun g hg ↦ List.filter_eq_self.mp h g (hl.subset hg)

theorem length_granted_append {time : ℤ} {before last : List Call}
    (hbefore : recent time before = []) (hlast : recent time last = last) :
    (granted clock (before ++ last)).length =
      (granted clock before).length + (recent time (granted clock (before ++ last))).length := by
  obtain ⟨rest, hrest, hsub⟩ := exists_granted_append before last
  have hnone : recent time (granted clock before) = [] :=
    recent_eq_nil_of_sublist (granted_sublist before) hbefore
  have hall : recent time rest = rest := recent_eq_self_of_sublist hsub hlast
  rw [hrest, List.length_append, recent, List.filter_append]
  rw [recent] at hnone hall
  rw [hnone, hall, List.nil_append]

/-- However the clock is set, no more calls are granted than under a steady clock, as long as it
forgets none of the last window. -/
theorem length_granted_le (hsteady : Steady calls) (hwhole : Whole Call.reading calls)
    (hclose : Close calls) : ∀ before, before <+: calls →
      (granted Call.reading before).length ≤ (granted Call.steady before).length := by
  induction calls using List.reverseRecOn with
  | nil =>
    intro before hbefore
    rw [List.prefix_nil.mp hbefore]
    exact le_refl _
  | append_singleton calls c ih =>
    specialize ih hsteady.earlier hwhole.earlier hclose.earlier
    intro before hbefore
    rcases List.prefix_concat_iff.mp hbefore with rfl | hbefore
    · have hle := ih calls (List.prefix_refl _)
      by_cases hgranted : granted Call.reading (calls ++ [c]) = granted Call.reading calls
      · obtain ⟨rest, hrest, -⟩ := exists_granted_append calls [c]
        rw [hgranted, hrest, List.length_append]
        omega
      · have hreading := (granted_concat calls c).resolve_left hgranted
        rw [hreading, List.length_append, List.length_singleton]
        rcases granted_concat calls c with hsame | hmore
        · -- The steady clock refuses the call: both clocks have counted the last window alone.
          rw [hsame]
          obtain ⟨older, last, rfl, holder, hlast⟩ := exists_recent hsteady.earlier c.steady
          have hfull := le_length_recent hsteady hsame
          have hfew := length_near_of_granted hwhole.last hgranted
          have hcounted : (recent c.steady (granted Call.reading (older ++ last))).length ≤
              ((granted Call.reading (older ++ last)).filter
                fun g ↦ near c.reading g.reading).length := by
            rw [recent, ← List.countP_eq_length_filter, ← List.countP_eq_length_filter]
            refine List.countP_mono_left fun g hg hrecent ↦ ?_
            exact hclose.last g hg (of_decide_eq_true hrecent)
          have hbefore := ih older (List.prefix_append _ _)
          rw [length_granted_append holder hlast] at hle ⊢
          rw [length_granted_append holder hlast]
          omega
        · rw [hmore, List.length_append, List.length_singleton]
          omega
    · exact ih before hbefore

end Steady

/-- At most thirty granted calls carry readings within one window, and setting the clock grants no
more calls than a steady clock does. -/
theorem granted_of_run (calls : List Call) :
    (Whole Call.reading calls → ∀ a,
      (within Call.reading a (granted Call.reading calls)).length ≤ maxCommandsPerMinute) ∧
    (Steady calls → Whole Call.reading calls → Close calls →
      (granted Call.reading calls).length ≤ (granted Call.steady calls).length) :=
  ⟨length_within_le, fun hsteady hwhole hclose ↦
    length_granted_le hsteady hwhole hclose calls (List.prefix_refl _)⟩

/-- Thirty calls within thirty milliseconds. -/
def burst (steady reading : ℤ) : List Call :=
  (List.range maxCommandsPerMinute).map fun n ↦ ⟨steady + n, reading + n⟩

/-- A clock that is set back by ten milliseconds. -/
theorem granted_of_small_step :
    (within Call.reading 1000000
      (granted Call.reading (burst 1000000 1000000 ++ [⟨1000040, 999990⟩]))).length ≤
        maxCommandsPerMinute ∧
    (granted Call.reading (burst 1000000 1000000 ++ [⟨1000040, 999990⟩])).length ≤
      (granted Call.steady (burst 1000000 1000000 ++ [⟨1000040, 999990⟩])).length :=
  ⟨(granted_of_run _).1 (by decide +kernel) _,
    (granted_of_run _).2 (by decide +kernel) (by decide +kernel) (by decide +kernel)⟩

/-- A clock that shows a minute too much for one call, and one that is set back by an hour. -/
theorem granted_beyond_limit :
    (¬ ∀ calls a,
      (within Call.reading a (granted Call.reading calls)).length ≤ maxCommandsPerMinute) ∧
    ¬ ∀ calls, Steady calls →
      (granted Call.reading calls).length ≤ (granted Call.steady calls).length := by
  constructor
  · intro h
    exact absurd (h (burst 0 0 ++ ⟨40, 60040⟩ :: burst 50 50) 0) (by decide +kernel)
  · intro h
    exact absurd (h (burst 3600000 3600000 ++ [⟨3600040, 40⟩]) (by decide +kernel))
      (by decide +kernel)

end FolderClient.Engine.RateRuns
