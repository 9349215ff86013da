import FolderClient.Library.Pools

namespace FolderClient.Library.Transcripts

open FolderClient.Library.Programs FolderClient.Library.Programs.Program
open FolderClient.Library.Programs.Contract FolderClient.Library.Pools

variable {R : Type} {A : R → Type} {α β ε : Type}

/-- A request with the answer it got. -/
abbrev Exchange (R : Type) (A : R → Type) := (r : R) × A r

/-- A program goes on to another one, its requests being answered one after another. -/
inductive Reaches : Program R A α → List (Exchange R A) → Program R A α → Prop
  | now (p : Program R A α) : Reaches p [] p
  | ask {r : R} {next : A r → Program R A α} {a : A r} {t : List (Exchange R A)}
      {q : Program R A α} : Reaches (next a) t q → Reaches (.ask r next) (⟨r, a⟩ :: t) q

section Reaches

variable {p q q' : Program R A α} {f : α → Program R A β} {t t' : List (Exchange R A)}

theorem Reaches.trans (h : Reaches p t q) (h' : Reaches q t' q') : Reaches p (t ++ t') q' := by
  induction h with
  | now => exact h'
  | ask _ ih => exact .ask (ih h')

theorem Reaches.bind (h : Reaches p t q) (f : α → Program R A β) :
    Reaches (p >>= f) t (q >>= f) := by
  induction h with
  | now => exact .now _
  | ask _ ih => exact .ask ih

theorem Reaches.snoc {r : R} {next : A r → Program R A α} (h : Reaches p t (.ask r next))
    (a : A r) : Reaches p (t ++ [⟨r, a⟩]) (next a) :=
  h.trans (.ask (.now _))

/-- What follows in two parts is still in the first, or has left it with a result. -/
theorem reaches_bind_cases {q : Program R A β} (h : Reaches (p >>= f) t q) :
    (∃ p', Reaches p t p' ∧ q = p' >>= f) ∨
      ∃ a t₁ t₂, t = t₁ ++ t₂ ∧ Reaches p t₁ (.done a) ∧ Reaches (f a) t₂ q := by
  induction p generalizing t with
  | done a => exact .inr ⟨a, [], t, rfl, .now _, h⟩
  | ask r next ih =>
    cases h with
    | now => exact .inl ⟨.ask r next, .now _, rfl⟩
    | @ask _ _ a t _ h =>
      obtain ⟨p', hp, rfl⟩ | ⟨b, t₁, t₂, rfl, hp, hf⟩ := ih a h
      · exact .inl ⟨p', .ask hp, rfl⟩
      · exact .inr ⟨b, ⟨r, a⟩ :: t₁, t₂, rfl, .ask hp, hf⟩

theorem kind_of_reaches {kind : R → Prop} {r : R} {next : A r → Program R A α}
    (hp : p.Asks kind) (h : Reaches p t (.ask r next)) : kind r := by
  induction p generalizing t with
  | done a => cases h
  | ask r' next' ih =>
    cases h with
    | now => exact hp.1
    | ask h => exact ih _ (hp.2 _) h

/-- A request of another kind than those of the first part is made after it. -/
theorem reaches_past {kind : R → Prop} {r : R} {next : A r → Program R A β} (hp : p.Asks kind)
    (hr : ¬ kind r) (h : Reaches (p >>= f) t (.ask r next)) :
    ∃ a t₁ t₂, t = t₁ ++ t₂ ∧ Reaches p t₁ (.done a) ∧ Reaches (f a) t₂ (.ask r next) := by
  obtain ⟨p', hp', heq⟩ | h := reaches_bind_cases h
  · cases p' with
    | done a =>
      refine ⟨a, t, [], (List.append_nil t).symm, hp', ?_⟩
      rw [heq]
      exact .now _
    | ask r' next' =>
      obtain ⟨rfl, -⟩ := Program.ask.inj heq
      exact absurd (kind_of_reaches hp hp') hr
  · exact h

/-- A request of another kind than those of what follows is made in the first part. -/
theorem reaches_within {kind : R → Prop} {r : R} {next : A r → Program R A β}
    (hf : ∀ a, (f a).Asks kind) (hr : ¬ kind r) (h : Reaches (p >>= f) t (.ask r next)) :
    ∃ inner, Reaches p t (.ask r inner) ∧ next = fun a ↦ inner a >>= f := by
  obtain ⟨p', hp, heq⟩ | ⟨a, t₁, t₂, -, -, h⟩ := reaches_bind_cases h
  · cases p' with
    | done a =>
      have hkind : (f a).Asks kind := hf a
      rw [show f a = .ask r next from heq.symm] at hkind
      exact absurd hkind.1 hr
    | ask r' inner =>
      obtain ⟨rfl, hnext⟩ := Program.ask.inj heq
      exact ⟨inner, hp, eq_of_heq hnext⟩
  · exact absurd (kind_of_reaches (hf a) h) hr

/-- The same for steps whose error ends the function. -/
theorem reaches_past_fallible {kind : R → Prop} {r : R} {p : ExceptT ε (Program R A) α}
    {f : α → ExceptT ε (Program R A) β} {next : A r → Program R A (Except ε β)}
    (hp : p.run.Asks kind) (hr : ¬ kind r) (h : Reaches (p >>= f).run t (.ask r next)) :
    ∃ a t₁ t₂, t = t₁ ++ t₂ ∧ Reaches p.run t₁ (.done (.ok a)) ∧
      Reaches (f a).run t₂ (.ask r next) := by
  obtain ⟨x, t₁, t₂, rfl, hp', h⟩ := reaches_past hp hr h
  cases x with
  | ok a => exact ⟨a, t₁, t₂, rfl, hp', h⟩
  | error e => cases h

end Reaches

section Contracts

/-- The contract over what has been asked and answered so far, whatever the answers. -/
def transcripts (ok : R → List (Exchange R A) → Prop) : Contract R A (List (Exchange R A)) where
  serve r t a t' := t' = t ++ [⟨r, a⟩]
  rely t t' := t' = t
  ok := ok

variable {ok : R → List (Exchange R A) → Prop} {p : Program R A α} {t t' : List (Exchange R A)}
  {Q : α → List (Exchange R A) → Prop}

theorem ok_of_reaches {r : R} {next : A r → Program R A α} (hp : (transcripts ok).Sound p Q t)
    (h : Reaches p t' (.ask r next)) : ok r (t ++ t') := by
  induction p generalizing t t' with
  | done a => cases h
  | ask r' next' ih =>
    cases h with
    | now =>
      rw [List.append_nil]
      exact hp.1
    | @ask _ _ a t' _ h =>
      rw [List.append_cons]
      exact ih a (hp.2 a _ _ rfl rfl) h

theorem result_of_reaches {a : α} (hp : (transcripts ok).Sound p Q t)
    (h : Reaches p t' (.done a)) : Q a (t ++ t') := by
  induction p generalizing t t' with
  | done b =>
    cases h
    rw [List.append_nil]
    exact hp
  | ask r' next' ih =>
    cases h with
    | @ask _ _ a t' _ h =>
      rw [List.append_cons]
      exact ih a (hp.2 a _ _ rfl rfl) h

end Contracts

/-- A program of the pool has been started and has come to where it is by answers it was served. -/
theorem exists_reaches {σ : Type} {rules : Rules R A σ} {first : σ → Prop} {c : Pool R A σ}
    (h : rules.Run first c) {i : ℕ} {p : Program R A Unit} (hp : c.running i = some p) :
    ∃ p₀ t, (∃ s, rules.start i p₀ s) ∧ Reaches p₀ t p ∧
      ∀ x ∈ t, ∃ c' s, rules.Run first c' ∧ rules.serve i x.1 c'.state x.2 s := by
  induction h generalizing p with
  | first => cases hp
  | @step c c' hrun hstep ih =>
    have hold : ∀ j q, j ≠ i → (Function.update c.running j q) i = some p → c.running i = some p := by
      intro j q hj hq
      rwa [Function.update_of_ne hj.symm] at hq
    cases hstep with
    | @start j q hnone hstart =>
      by_cases hj : j = i
      · subst hj
        obtain rfl : q = p := by simpa using hp
        refine ⟨q, [], ⟨_, hstart⟩, .now q, ?_⟩
        intro x hx
        cases hx
      · exact ih (hold j _ hj hp)
    | @ask j r next a s hr hs =>
      by_cases hj : j = i
      · subst hj
        obtain rfl : next a = p := by simpa using hp
        obtain ⟨p₀, t, hstart, hreach, hserved⟩ := ih hr
        refine ⟨p₀, t ++ [⟨r, a⟩], hstart, hreach.snoc a, ?_⟩
        intro x hx
        obtain hx | hx := List.mem_append.mp hx
        · exact hserved x hx
        · obtain rfl := List.mem_singleton.mp hx
          exact ⟨c, s, hrun, hs⟩
      · exact ih (hold j _ hj hp)
    | @finish j s hr hs =>
      by_cases hj : j = i
      · subst hj
        simp at hp
      · exact ih (hold j _ hj hp)
    | @abort j q s hr hs =>
      by_cases hj : j = i
      · subst hj
        simp at hp
      · exact ih (hold j _ hj hp)
    | restart => cases hp
    | outside => exact ih hp

end FolderClient.Library.Transcripts
