import Mathlib.Logic.Function.Basic

namespace FolderClient.Library.Programs

/-- A sequential program: it is done, or asks its surroundings and goes on with the answer. -/
inductive Program (R : Type) (A : R → Type) (α : Type) where
  | done (result : α)
  | ask (request : R) (next : A request → Program R A α)

variable {R : Type} {A : R → Type} {α β ε : Type}

namespace Program

def bind : Program R A α → (α → Program R A β) → Program R A β
  | done a, f => f a
  | ask r next, f => .ask r fun a ↦ (next a).bind f

instance : Monad (Program R A) where
  pure := done
  bind := bind

def call (r : R) : Program R A (A r) := .ask r done

@[simp] theorem pure_eq (a : α) : (pure a : Program R A α) = done a := rfl

@[simp] theorem done_bind (a : α) (f : α → Program R A β) : done a >>= f = f a := rfl

@[simp] theorem ask_bind (r : R) (next : A r → Program R A α) (f : α → Program R A β) :
    ask r next >>= f = ask r fun a ↦ next a >>= f := rfl

@[simp] theorem call_bind (r : R) (f : A r → Program R A β) : call r >>= f = ask r f := rfl

theorem bind_assoc {γ : Type} (p : Program R A α) (f : α → Program R A β)
    (g : β → Program R A γ) : p >>= f >>= g = p >>= fun a ↦ f a >>= g := by
  induction p with
  | done a => rfl
  | ask r next ih => exact congrArg (ask r) (funext ih)

/-- A program of one part of the surroundings as a program of the whole. -/
def embed {S : Type} (e : S → R) : Program S (fun s ↦ A (e s)) α → Program R A α
  | done a => done a
  | ask s next => ask (e s) fun a ↦ (next a).embed e

/-- Goes on after a success; an error ends the program. -/
def andThen (p : Program R A (Except ε α)) (f : α → Program R A (Except ε β)) :
    Program R A (Except ε β) :=
  p >>= fun
    | .ok a => f a
    | .error e => done (.error e)

/-- Runs a program where every request is answered by a function of what there is. -/
def handle {σ : Type} (serve : (r : R) → σ → A r × σ) : Program R A α → σ → α × σ
  | done a, s => (a, s)
  | ask r next, s => (next (serve r s).1).handle serve (serve r s).2

theorem handle_bind {σ : Type} {serve : (r : R) → σ → A r × σ} (p : Program R A α)
    (f : α → Program R A β) (s : σ) :
    (p >>= f).handle serve s = (f (p.handle serve s).1).handle serve (p.handle serve s).2 := by
  induction p generalizing s with
  | done a => rfl
  | ask r next ih => exact ih _ _

/-- Every request of the program, whatever the answers, is of a kind. -/
def Asks (kind : R → Prop) : Program R A α → Prop
  | done _ => True
  | ask r next => kind r ∧ ∀ a, (next a).Asks kind

theorem asks_bind {kind : R → Prop} {p : Program R A α} {f : α → Program R A β}
    (hp : p.Asks kind) (hf : ∀ a, (f a).Asks kind) : (p >>= f).Asks kind := by
  induction p with
  | done a => exact hf a
  | ask r next ih => exact ⟨hp.1, fun a ↦ ih a (hp.2 a)⟩

theorem asks_call {kind : R → Prop} {r : R} (h : kind r) : (call r : Program R A (A r)).Asks kind :=
  ⟨h, fun _ ↦ trivial⟩

theorem asks_embed {S : Type} {e : S → R} {kind : R → Prop} {p : Program S (fun s ↦ A (e s)) α}
    (h : ∀ s, kind (e s)) : (p.embed e).Asks kind := by
  induction p with
  | done a => trivial
  | ask r next ih => exact ⟨h r, ih⟩

theorem Asks.embed {S : Type} {e : S → R} {kind : R → Prop} {p : Program S (fun s ↦ A (e s)) α}
    (h : p.Asks fun s ↦ kind (e s)) : (p.embed e).Asks kind := by
  induction p with
  | done a => trivial
  | ask r next ih => exact ⟨h.1, fun a ↦ ih a (h.2 a)⟩

theorem asks_andThen {kind : R → Prop} {p : Program R A (Except ε α)}
    {f : α → Program R A (Except ε β)} (hp : p.Asks kind) (hf : ∀ a, (f a).Asks kind) :
    (p.andThen f).Asks kind := by
  refine asks_bind hp fun r ↦ ?_
  cases r with
  | ok a => exact hf a
  | error e => trivial

/-- Every result of the program, whatever the answers, satisfies `Q`. -/
def Ends : Program R A α → (α → Prop) → Prop
  | done a, Q => Q a
  | ask _ next, Q => ∀ a, (next a).Ends Q

theorem ends_bind {p : Program R A α} {f : α → Program R A β} {Q : β → Prop}
    (hp : p.Ends fun a ↦ (f a).Ends Q) : (p >>= f).Ends Q := by
  induction p with
  | done a => exact hp
  | ask r next ih => exact fun a ↦ ih a (hp a)

theorem Ends.mono {p : Program R A α} {Q Q' : α → Prop} (hp : p.Ends Q) (h : ∀ a, Q a → Q' a) :
    p.Ends Q' := by
  induction p with
  | done a => exact h a hp
  | ask r next ih => exact fun a ↦ ih a (hp a)

theorem ends_all {p : Program R A α} {Q : α → Prop} (h : ∀ a, Q a) : p.Ends Q := by
  induction p with
  | done a => exact h a
  | ask r next ih => exact fun a ↦ ih a

end Program

open Program

variable {σ : Type}

/-- What a program meets and owes: how a request is served, what others may do between two
requests, and in which states a request may be made. -/
structure Contract (R : Type) (A : R → Type) (σ : Type) where
  serve : (r : R) → σ → A r → σ → Prop
  rely : σ → σ → Prop
  ok : R → σ → Prop

namespace Contract

variable (C : Contract R A σ)

/-- From a state on, the program makes only requests that are in order, and ends in `Q`. -/
def Sound : Program R A α → (α → σ → Prop) → σ → Prop
  | done a, Q, s => Q a s
  | ask r next, Q, s =>
    C.ok r s ∧ ∀ a s' s'', C.serve r s a s' → C.rely s' s'' → Sound (next a) Q s''

variable {C}

theorem sound_done {a : α} {Q : α → σ → Prop} {s : σ} : C.Sound (done a) Q s ↔ Q a s := Iff.rfl

theorem sound_bind {p : Program R A α} {f : α → Program R A β} {Q : β → σ → Prop} {s : σ} :
    C.Sound (p >>= f) Q s ↔ C.Sound p (fun a ↦ C.Sound (f a) Q) s := by
  induction p generalizing s with
  | done a => exact Iff.rfl
  | ask r next ih =>
    constructor
    · intro h
      exact ⟨h.1, fun a s' s'' hs hr ↦ (ih a).mp (h.2 a s' s'' hs hr)⟩
    · intro h
      exact ⟨h.1, fun a s' s'' hs hr ↦ (ih a).mpr (h.2 a s' s'' hs hr)⟩

theorem sound_call_bind {r : R} {f : A r → Program R A β} {Q : β → σ → Prop} {s : σ}
    (hok : C.ok r s) (h : ∀ a s' s'', C.serve r s a s' → C.rely s' s'' → C.Sound (f a) Q s'') :
    C.Sound (call r >>= f) Q s := ⟨hok, h⟩

theorem sound_mono {p : Program R A α} {Q Q' : α → σ → Prop} (h : ∀ a s, Q a s → Q' a s) {s : σ}
    (hp : C.Sound p Q s) : C.Sound p Q' s := by
  induction p generalizing s with
  | done a => exact h a s hp
  | ask r next ih =>
    exact ⟨hp.1, fun a s' s'' hs hr ↦ ih a (hp.2 a s' s'' hs hr)⟩

theorem sound_andThen {p : Program R A (Except ε α)} {f : α → Program R A (Except ε β)}
    {Q : Except ε β → σ → Prop} {s : σ} (hp : C.Sound p (fun r s' ↦ match r with
      | .ok a => C.Sound (f a) Q s'
      | .error e => Q (.error e) s') s) : C.Sound (p.andThen f) Q s := by
  refine sound_bind.mpr (sound_mono ?_ hp)
  intro r s' h
  cases r with
  | ok a => exact h
  | error e => exact h

/-- What every request of a kind keeps, and others keep as well, the program keeps. -/
theorem sound_of_asks {kind : R → Prop} {I : σ → Prop} {p : Program R A α}
    (hp : p.Asks kind)
    (hkeep : ∀ r s, kind r → I s → C.ok r s ∧ ∀ a s', C.serve r s a s' → I s')
    (hrely : ∀ s s', I s → C.rely s s' → I s') {s : σ} (hs : I s) :
    C.Sound p (fun _ ↦ I) s := by
  induction p generalizing s with
  | done a => exact hs
  | ask r next ih =>
    obtain ⟨hok, hserve⟩ := hkeep r s hp.1 hs
    refine ⟨hok, fun a s' s'' ha hr ↦ ih a (hp.2 a) ?_⟩
    exact hrely s' s'' (hserve a s' ha) hr

/-- The contract as a part of the surroundings sees it. -/
def part {S : Type} (C : Contract R A σ) (e : S → R) : Contract S (fun s ↦ A (e s)) σ where
  serve := fun r ↦ C.serve (e r)
  rely := C.rely
  ok := fun r ↦ C.ok (e r)

theorem sound_embed {S : Type} {e : S → R} {p : Program S (fun s ↦ A (e s)) α}
    {Q : α → σ → Prop} {s : σ} : C.Sound (p.embed e) Q s ↔ (C.part e).Sound p Q s := by
  induction p generalizing s with
  | done a => exact Iff.rfl
  | ask r next ih =>
    constructor
    · intro h
      exact ⟨h.1, fun a s' s'' hs hr ↦ (ih a).mp (h.2 a s' s'' hs hr)⟩
    · intro h
      exact ⟨h.1, fun a s' s'' hs hr ↦ (ih a).mpr (h.2 a s' s'' hs hr)⟩

/-- What every request keeps, whatever it is, and others keep as well, any program keeps. -/
theorem sound_of_all {I : σ → Prop} {p : Program R A α}
    (hkeep : ∀ r s, I s → C.ok r s ∧ ∀ a s', C.serve r s a s' → I s')
    (hrely : ∀ s s', I s → C.rely s s' → I s') {s : σ} (hs : I s) :
    C.Sound p (fun _ ↦ I) s := by
  induction p generalizing s with
  | done a => exact hs
  | ask r next ih =>
    obtain ⟨hok, hserve⟩ := hkeep r s hs
    refine ⟨hok, fun a s' s'' ha hr ↦ ih a ?_⟩
    exact hrely s' s'' (hserve a s' ha) hr

/-- In states of a kind that are never left, a contract may stand for another that grants less. -/
theorem sound_within {C' : Contract R A σ} {I : σ → Prop}
    (hok : ∀ r s, I s → C.ok r s → C'.ok r s)
    (hstep : ∀ r s a s' s'', I s → C'.serve r s a s' → C'.rely s' s'' →
      I s'' ∧ C.serve r s a s' ∧ C.rely s' s'')
    {p : Program R A α} {Q : α → σ → Prop} {s : σ} (hs : I s) (hp : C.Sound p Q s) :
    C'.Sound p Q s := by
  induction p generalizing s with
  | done a => exact hp
  | ask r next ih =>
    refine ⟨hok r s hs hp.1, fun a s' s'' hserve hrely ↦ ?_⟩
    obtain ⟨hs'', hserve', hrely'⟩ := hstep r s a s' s'' hs hserve hrely
    exact ih a hs'' (hp.2 a s' s'' hserve' hrely')

theorem sound_and {p : Program R A α} {Q Q' : α → σ → Prop} {s : σ} (h : C.Sound p Q s)
    (h' : C.Sound p Q' s) : C.Sound p (fun a s' ↦ Q a s' ∧ Q' a s') s := by
  induction p generalizing s with
  | done a => exact ⟨h, h'⟩
  | ask r next ih =>
    exact ⟨h.1, fun a s' s'' hs hr ↦ ih a (h.2 a s' s'' hs hr) (h'.2 a s' s'' hs hr)⟩

/-- A program that keeps to a contract over a part of the state does so over the whole. -/
theorem sound_comap {τ : Type} {D : Contract R A τ} {f : σ → τ}
    (hserve : ∀ r s a s', C.serve r s a s' → D.serve r (f s) a (f s'))
    (hrely : ∀ s s', C.rely s s' → D.rely (f s) (f s'))
    (hok : ∀ r s, D.ok r (f s) → C.ok r s) {p : Program R A α} {Q : α → τ → Prop} {s : σ}
    (h : D.Sound p Q (f s)) : C.Sound p (fun a s' ↦ Q a (f s')) s := by
  induction p generalizing s with
  | done a => exact h
  | ask r next ih =>
    refine ⟨hok r s h.1, fun a s' s'' hs hr ↦ ih a ?_⟩
    exact h.2 a (f s') (f s'') (hserve r s a s' hs) (hrely s' s'' hr)

/-- From any state the program makes only requests that are in order. -/
def Fine (C : Contract R A σ) (p : Program R A α) : Prop := ∀ s, C.Sound p (fun _ _ ↦ True) s

theorem fine_done (a : α) : C.Fine (done a) := fun _ ↦ trivial

theorem fine_call {r : R} (h : ∀ s, C.ok r s) : C.Fine (call r) :=
  fun s ↦ ⟨h s, fun _ _ _ _ _ ↦ trivial⟩

theorem fine_bind {p : Program R A α} {f : α → Program R A β} (hp : C.Fine p)
    (hf : ∀ a, C.Fine (f a)) : C.Fine (p >>= f) :=
  fun s ↦ sound_bind.mpr (sound_mono (fun a s' _ ↦ hf a s') (hp s))

theorem Sound.fine_bind {p : Program R A α} {f : α → Program R A β} {Q : α → σ → Prop} {s : σ}
    (hp : C.Sound p Q s) (hf : ∀ a, C.Fine (f a)) : C.Sound (p >>= f) (fun _ _ ↦ True) s :=
  sound_bind.mpr (sound_mono (fun a s' _ ↦ hf a s') hp)

theorem fine_of_asks {kind : R → Prop} {p : Program R A α} (hp : p.Asks kind)
    (h : ∀ r s, kind r → C.ok r s) : C.Fine p := by
  intro s
  induction p generalizing s with
  | done a => trivial
  | ask r next ih => exact ⟨h r s hp.1, fun a _ s' _ _ ↦ ih a (hp.2 a) s'⟩

theorem fine_of_all (h : ∀ r s, C.ok r s) (p : Program R A α) : C.Fine p := by
  intro s
  induction p generalizing s with
  | done a => trivial
  | ask r next ih => exact ⟨h r s, fun a _ s' _ _ ↦ ih a s'⟩

theorem fine_embed {S : Type} {e : S → R} {p : Program S (fun s ↦ A (e s)) α}
    (h : (C.part e).Fine p) : C.Fine (p.embed e) := fun s ↦ sound_embed.mpr (h s)

/-- What its requests keep where they are in order, and others keep as well, a program keeps. -/
theorem sound_keeping {I : σ → Prop} {p : Program R A α} {Q : α → σ → Prop} {s : σ}
    (hkeep : ∀ r s a s', C.ok r s → C.serve r s a s' → I s → I s')
    (hrely : ∀ s s', I s → C.rely s s' → I s') (hs : I s) (hp : C.Sound p Q s) :
    C.Sound p (fun a s' ↦ Q a s' ∧ I s') s := by
  induction p generalizing s with
  | done a => exact ⟨hp, hs⟩
  | ask r next ih =>
    refine ⟨hp.1, fun a s' s'' ha hr ↦ ih a ?_ (hp.2 a s' s'' ha hr)⟩
    exact hrely s' s'' (hkeep r s a s' hp.1 ha hs) hr

/-- What holds of every result holds of the result of a run in order. -/
theorem sound_ends {p : Program R A α} {Q : α → σ → Prop} {Q' : α → Prop} {s : σ}
    (hp : C.Sound p Q s) (he : p.Ends Q') : C.Sound p (fun a s' ↦ Q a s' ∧ Q' a) s := by
  induction p generalizing s with
  | done a => exact ⟨hp, he⟩
  | ask r next ih => exact ⟨hp.1, fun a s' s'' ha hr ↦ ih a (hp.2 a s' s'' ha hr) (he a)⟩

/-- The contract of which only the kind of a request is asked. -/
def ofKind (kind : R → Prop) : Contract R A σ where
  serve _ _ _ _ := True
  rely _ _ := True
  ok r _ := kind r

theorem asks_of_fine {kind : R → Prop} {p : Program R A α}
    (h : (ofKind kind : Contract R A σ).Fine p) (s : σ) : p.Asks kind := by
  induction p generalizing s with
  | done a => trivial
  | ask r next ih =>
    refine ⟨(h s).1, fun a ↦ ih a (fun s' ↦ ?_) s⟩
    exact (h s).2 a s' s' trivial trivial

/-- A run of the program from a state to a result, others moving between its requests. -/
inductive Runs (C : Contract R A σ) : Program R A α → σ → α → σ → Prop
  | done (a : α) (s : σ) : Runs C (done a) s a s
  | ask {r : R} {next : A r → Program R A α} {a : A r} {b : α} {s s' s'' t : σ} :
      C.serve r s a s' → C.rely s' s'' → Runs C (next a) s'' b t → Runs C (ask r next) s b t

theorem Runs.ends {p : Program R A α} {Q : α → σ → Prop} {s t : σ} {a : α}
    (h : C.Runs p s a t) (hp : C.Sound p Q s) : Q a t := by
  induction h with
  | done a s => exact hp
  | ask hs hr h ih => exact ih (hp.2 _ _ _ hs hr)

/-- The program is carried on to some point, and broken off there. -/
inductive Cut (C : Contract R A σ) : Program R A α → σ → σ → Prop
  | now (p : Program R A α) (s : σ) : Cut C p s s
  | ask {r : R} {next : A r → Program R A α} {a : A r} {s s' s'' t : σ} :
      C.serve r s a s' → C.rely s' s'' → Cut C (next a) s'' t → Cut C (ask r next) s t

/-- What requests in order and others keep holds wherever the program is broken off. -/
theorem Cut.keeps {I : σ → Prop} {p : Program R A α} {Q : α → σ → Prop} {s t : σ}
    (h : C.Cut p s t) (hp : C.Sound p Q s)
    (hkeep : ∀ r s a s', C.ok r s → C.serve r s a s' → I s → I s')
    (hrely : ∀ s s', I s → C.rely s s' → I s') (hs : I s) : I t := by
  induction h with
  | now => exact hs
  | ask ha hr _ ih =>
    exact ih (hp.2 _ _ _ ha hr) (hrely _ _ (hkeep _ _ _ _ hp.1 ha hs) hr)

/-- Where every request is in order only in states of a kind, and the program ends in one, it is
broken off in one. -/
theorem Cut.holds {P : σ → Prop} {p : Program R A α} {s t : σ} (h : C.Cut p s t)
    (hp : C.Sound p (fun _ ↦ P) s) (hok : ∀ r s, C.ok r s → P s) : P t := by
  induction h with
  | now p s =>
    cases p with
    | done a => exact hp
    | ask r next => exact hok r s hp.1
  | ask hs hr _ ih => exact ih (hp.2 _ _ _ hs hr)

/-- Which requests are in order does not matter to a run. -/
theorem Runs.withOk {p : Program R A α} {s t : σ} {a : α} (h : C.Runs p s a t)
    (ok : R → σ → Prop) : Runs { C with ok := ok } p s a t := by
  induction h with
  | done a s => exact .done a s
  | ask hs hr _ ih => exact .ask hs hr ih

theorem Cut.withOk {p : Program R A α} {s t : σ} (h : C.Cut p s t) (ok : R → σ → Prop) :
    Cut { C with ok := ok } p s t := by
  induction h with
  | now p s => exact .now p s
  | ask hs hr _ ih => exact .ask hs hr ih

end Contract

section Fallible

variable {C : Contract R A σ}

/-- The program of a step whose error ends the function. -/
theorem sound_fallible_bind {p : ExceptT ε (Program R A) α} {f : α → ExceptT ε (Program R A) β}
    {Q : Except ε β → σ → Prop} {s : σ} (hp : C.Sound p.run (fun r s' ↦ match r with
      | .ok a => C.Sound (f a).run Q s'
      | .error e => Q (.error e) s') s) : C.Sound (p >>= f).run Q s := by
  refine Contract.sound_bind.mpr (Contract.sound_mono ?_ hp)
  intro r s' h
  cases r with
  | ok a => exact h
  | error e => exact h

/-- A request whose answer is no error. -/
theorem sound_lift_bind {r : R} {f : A r → ExceptT ε (Program R A) β}
    {Q : Except ε β → σ → Prop} {s : σ} (hok : C.ok r s)
    (h : ∀ a s' s'', C.serve r s a s' → C.rely s' s'' → C.Sound (f a).run Q s'') :
    C.Sound ((liftM (call r : Program R A (A r)) : ExceptT ε (Program R A) (A r)) >>= f).run Q s :=
  ⟨hok, h⟩

theorem fine_fallible_bind {p : ExceptT ε (Program R A) α} {f : α → ExceptT ε (Program R A) β}
    (hp : C.Fine p.run) (hf : ∀ a, C.Fine (f a).run) : C.Fine (p >>= f).run := by
  refine Contract.fine_bind hp fun r ↦ ?_
  cases r with
  | ok a => exact hf a
  | error e => exact Contract.fine_done _

theorem fine_lift {p : Program R A α} (hp : C.Fine p) :
    C.Fine (liftM p : ExceptT ε (Program R A) α).run :=
  Contract.fine_bind hp fun _ ↦ Contract.fine_done _

theorem asks_fallible_bind {kind : R → Prop} {p : ExceptT ε (Program R A) α}
    {f : α → ExceptT ε (Program R A) β} (hp : p.run.Asks kind)
    (hf : ∀ a, (f a).run.Asks kind) : (p >>= f).run.Asks kind := by
  refine asks_bind hp fun r ↦ ?_
  cases r with
  | ok a => exact hf a
  | error e => trivial

theorem asks_lift {kind : R → Prop} {p : Program R A α} (hp : p.Asks kind) :
    (liftM p : ExceptT ε (Program R A) α).run.Asks kind :=
  asks_bind hp fun _ ↦ trivial

end Fallible

theorem Program.Asks.mono {kind kind' : R → Prop} {p : Program R A α} (h : p.Asks kind)
    (hk : ∀ r, kind r → kind' r) : p.Asks kind' := by
  induction p with
  | done a => trivial
  | ask r next ih => exact ⟨hk r h.1, fun a ↦ ih a (h.2 a)⟩

end FolderClient.Library.Programs
