import FolderClient.FileProvider.Enumerator
import FolderClient.Library.Oracles

namespace FolderClient.FileProvider.PlanRuns

open FolderClient.Core.Namespace FolderClient.Engine.Transfers FolderClient.FileProvider.Enumerator
open FolderClient.FileProvider.Marker FolderClient.Library.Oracles FolderClient.Library.Programs
open FolderClient.Library.Transcripts

/-- What the source answers to one call after another, having changed in between in any way. -/
abbrev World := Oracle NamespaceRequest NamespaceAnswer

variable {α β : Type} {w : World} {n : ℕ}

section Answers

variable {ε : Type}

def firstError : List (Except ε α) → Option ε
  | [] => none
  | .ok _ :: rest => firstError rest
  | .error e :: _ => some e

theorem firstError_append (l l' : List (Except ε α)) :
    firstError (l ++ l') = (firstError l).or (firstError l') := by
  induction l with
  | nil => rfl
  | cons a l ih =>
    cases a with
    | ok a => exact ih
    | error e => rfl

/-- The answers to the calls for the children of several containers, one after another. -/
def answersFrom (w : World) : ℕ → List Container → List (Except SourceError (List Entry))
  | _, [] => []
  | n, container :: rest => w n (.children container) :: answersFrom w (n + 1) rest

theorem answersFrom_append (w : World) (n : ℕ) (l l' : List Container) :
    answersFrom w n (l ++ l') = answersFrom w n l ++ answersFrom w (n + l.length) l' := by
  induction l generalizing n with
  | nil => rfl
  | cons container l ih =>
    have hlength : n + (l.length + 1) = n + 1 + l.length := by omega
    rw [List.cons_append, answersFrom, answersFrom, ih, List.length_cons, hlength,
      List.cons_append]

end Answers

section Reports

/-- An error the source answers with is the error of the call. -/
def Reports (w : World) (p : Enumerating α) : Prop :=
  ∀ n container e, (⟨.children container, .error e⟩ : Exchange NamespaceRequest NamespaceAnswer) ∈
    w.asked n p.run → w.result n p.run = .error (.source e)

theorem reports_done (r : Except ProviderError α) : Reports w (raise r) :=
  fun _ _ _ h ↦ nomatch h

theorem reports_bind {p : Enumerating α} {f : α → Enumerating β} (hp : Reports w p)
    (hf : ∀ a, Reports w (f a)) : Reports w (p >>= f) := by
  intro n container e h
  cases hr : w.result n p.run with
  | ok a =>
    rw [Oracle.result_of_ok hr]
    rw [Oracle.asked_of_ok hr, List.mem_append] at h
    obtain h | h := h
    · cases (hp n container e h).symm.trans hr
    · exact hf a _ container e h
  | error e' =>
    rw [Oracle.asked_of_error hr] at h
    rw [Oracle.result_of_error hr]
    exact congrArg Except.error (Except.error.inj (hr.symm.trans (hp n container e h)))

theorem result_foldersIn (w : World) (n : ℕ) (container : Container) :
    w.result n (foldersIn container).run =
      ((w n (.children container)).map folders).mapError .source := by
  change w.result (n + 1) (fromSource (w n (.children container)) >>= _ : Enumerating _).run = _
  cases w n (.children container) <;> rfl

theorem asked_foldersIn (w : World) (n : ℕ) (container : Container) :
    w.asked n (foldersIn container).run = [⟨.children container, w n (.children container)⟩] := by
  refine congrArg (List.cons _) ?_
  change w.asked (n + 1) (fromSource (w n (.children container)) >>= _ : Enumerating _).run = _
  cases w n (.children container) <;> rfl

theorem reports_foldersIn (container : Container) : Reports w (foldersIn container) := by
  intro n container' e h
  rw [asked_foldersIn, List.mem_singleton] at h
  obtain ⟨hcontainer, hanswer⟩ := Sigma.mk.inj h
  obtain rfl := NamespaceRequest.children.inj hcontainer
  rw [result_foldersIn, ← eq_of_heq hanswer]
  rfl

theorem reports_under (top : Container) (listed : List Container) :
    Reports w (under top listed) := by
  induction listed with
  | nil => exact reports_done _
  | cons container rest ih =>
    rw [under]
    refine reports_bind ?_ fun inside ↦ ?_
    · rw [furtherDown]
      split
      · exact reports_foldersIn container
      · exact reports_done (.ok [])
    · exact reports_bind ih fun more ↦ reports_done (.ok (container :: inside ++ more))

theorem reports_walk (tops : List Container) : Reports w (walk tops) := by
  induction tops with
  | nil => exact reports_done _
  | cons top rest ih =>
    rw [walk]
    refine reports_bind (reports_foldersIn top) fun listed ↦ ?_
    refine reports_bind (reports_under top listed) fun here ↦ ?_
    exact reports_bind ih fun more ↦ reports_done (.ok (here ++ more))

theorem reports_plan (target : EnumerateTarget) : Reports w (plan target) := by
  cases target with
  | container container => exact reports_done (.ok [container])
  | file identifier => exact reports_done (.ok [])
  | workingSet =>
    exact reports_bind (reports_walk _) fun below ↦
      reports_done (.ok ([.root, .baskets, .archives, .searches] ++ below))

end Reports

section Calls

/-- The folders of an answer. -/
def foldersOf : Except SourceError (List Entry) → List Container
  | .ok children => folders children
  | .error _ => []

/-- The containers whose children are asked for while the plan is drawn up, from the call with the
number `n` on. -/
def walkCalls (w : World) : ℕ → List Container → List Container
  | _, [] => []
  | n, top :: rest =>
    let here := top :: if top = .archives then foldersOf (w n (.children top)) else []
    here ++ walkCalls w (n + here.length) rest

/-- A program fails with the first error among some answers, and otherwise succeeds. -/
def FailsAt (answers : List (Except SourceError (List Entry))) (result : Except ProviderError α) :
    Prop :=
  (∃ e, firstError answers = some e ∧ result = .error (.source e)) ∨
    (firstError answers = none ∧ ∃ a, result = .ok a)

theorem result_under_archives (w : World) (n : ℕ) (listed : List Container) :
    FailsAt (answersFrom w n listed) (w.result n (under .archives listed).run) ∧
      ∀ l, w.result n (under .archives listed).run = .ok l →
        (w.asked n (under .archives listed).run).length = listed.length := by
  induction listed generalizing n with
  | nil => exact ⟨.inr ⟨rfl, [], rfl⟩, fun _ _ ↦ rfl⟩
  | cons container rest ih =>
    have hinside : w.result n (furtherDown .archives container).run =
        ((w n (.children container)).map folders).mapError .source :=
      result_foldersIn w n container
    have hasked : (w.asked n (furtherDown .archives container).run).length = 1 := by
      rw [furtherDown, if_pos rfl, asked_foldersIn]
      rfl
    rw [under]
    cases hanswer : w n (.children container) with
    | error e =>
      rw [hanswer] at hinside
      rw [Oracle.result_of_error hinside]
      exact ⟨.inl ⟨e, by rw [answersFrom, hanswer]; rfl, rfl⟩, nofun⟩
    | ok children =>
      rw [hanswer] at hinside
      obtain ⟨hrest, hlength⟩ := ih (n + 1)
      rw [Oracle.result_of_ok hinside, Oracle.asked_of_ok hinside, hasked]
      have hanswers : firstError (answersFrom w n (container :: rest)) =
          firstError (answersFrom w (n + 1) rest) := by
        rw [answersFrom, hanswer]
        rfl
      obtain ⟨e, herror, hmore⟩ | ⟨hnone, more, hmore⟩ := hrest
      · rw [Oracle.result_of_error hmore]
        exact ⟨.inl ⟨e, hanswers.trans herror, rfl⟩, nofun⟩
      · rw [Oracle.result_of_ok hmore, Oracle.asked_of_ok hmore]
        refine ⟨.inr ⟨hanswers.trans hnone, _, rfl⟩, fun l _ ↦ ?_⟩
        rw [List.length_append, List.length_append, hasked, hlength more hmore]
        exact Nat.add_comm 1 rest.length

theorem under_of_ne {top : Container} (h : top ≠ .archives) (listed : List Container) :
    under top listed = pure listed := by
  induction listed with
  | nil => rfl
  | cons container rest ih =>
    rw [under, furtherDown, if_neg h, ih]
    rfl

theorem result_walk (w : World) (n : ℕ) (tops : List Container) :
    FailsAt (answersFrom w n (walkCalls w n tops)) (w.result n (walk tops).run) := by
  induction tops generalizing n with
  | nil => exact .inr ⟨rfl, [], rfl⟩
  | cons top rest ih =>
    have hfolders := result_foldersIn w n top
    rw [walk, walkCalls]
    cases hanswer : w n (.children top) with
    | error e =>
      rw [hanswer] at hfolders
      rw [Oracle.result_of_error hfolders]
      exact .inl ⟨e, by rw [List.cons_append, answersFrom, hanswer]; rfl, rfl⟩
    | ok children =>
      rw [hanswer] at hfolders
      have hunder : FailsAt (answersFrom w (n + 1) (if top = .archives then folders children else []))
          (w.result (n + 1) (under top (folders children)).run) ∧
          ∀ l, w.result (n + 1) (under top (folders children)).run = .ok l →
            (w.asked (n + 1) (under top (folders children)).run).length =
              (if top = .archives then folders children else []).length := by
        by_cases htop : top = .archives
        · rw [if_pos htop, htop]
          exact result_under_archives w (n + 1) (folders children)
        · rw [if_neg htop, under_of_ne htop]
          exact ⟨.inr ⟨rfl, _, rfl⟩, fun _ _ ↦ rfl⟩
      have hanswers : ∀ l, firstError (answersFrom w n (top :: l)) =
          firstError (answersFrom w (n + 1) l) := by
        intro l
        rw [answersFrom, hanswer]
        rfl
      rw [Oracle.result_of_ok hfolders, asked_foldersIn, foldersOf, List.cons_append,
        List.length_singleton, List.length_cons]
      generalize (if top = .archives then folders children else []) = below at hunder ⊢
      have hnumber : n + (below.length + 1) = n + 1 + below.length := by omega
      unfold FailsAt
      rw [hanswers, answersFrom_append, firstError_append, hnumber]
      obtain ⟨⟨e, herror, hhere⟩ | ⟨hnone, here, hhere⟩, hlength⟩ := hunder
      · rw [Oracle.result_of_error hhere, herror]
        exact .inl ⟨e, rfl, rfl⟩
      · rw [Oracle.result_of_ok hhere, hlength here hhere, hnone, Option.none_or]
        obtain ⟨e, herror, hmore⟩ | ⟨hnone, more, hmore⟩ := ih (n + 1 + below.length)
        · rw [Oracle.result_of_error hmore]
          exact .inl ⟨e, herror, rfl⟩
        · rw [Oracle.result_of_ok hmore]
          exact .inr ⟨hnone, _, rfl⟩

/-- The containers whose children are asked for while the plan of the whole tree is drawn up: the
folders below the root, and each archive after the archives. -/
def planCalls (w : World) : List Container :=
  [.baskets, .archives] ++ foldersOf (w 1 (.children .archives)) ++ [.searches]

/-- While the plan is drawn up, the first call that fails, if one does, does not fail because the
folder does not exist. -/
def Stands (w : World) : Prop :=
  ∀ i, firstError (answersFrom w 0 (planCalls w)) ≠ some (.notFound i)

theorem result_plan (w : World) :
    FailsAt (answersFrom w 0 (planCalls w)) (w.result 0 (plan .workingSet).run) := by
  have hcalls : walkCalls w 0 [.baskets, .archives, .searches] = planCalls w := rfl
  have hwalk := result_walk w 0 [.baskets, .archives, .searches]
  rw [hcalls] at hwalk
  rw [plan]
  obtain ⟨e, herror, hbelow⟩ | ⟨hnone, below, hbelow⟩ := hwalk
  · rw [Oracle.result_of_error hbelow]
    exact .inl ⟨e, herror, rfl⟩
  · rw [Oracle.result_of_ok hbelow]
    exact .inr ⟨hnone, _, rfl⟩

end Calls

section Pages

variable {target : EnumerateTarget} {marker : Option PageMarker} {size : ℕ}

/-- The page once the plan is drawn up, with what the source answers to the one call after it. -/
def pageOf (target : EnumerateTarget) (marker : Option PageMarker) (size : ℕ)
    (plan : List Container) (answer : Container → Except SourceError (List Entry)) :
    Except ProviderError Page :=
  match positionOf plan marker with
  | .error e => .error e
  | .ok none => .ok ⟨[], none⟩
  | .ok (some position) =>
    match plan[position.index]? with
    | none => .error .pageExpired
    | some container =>
      match childrenFor target (answer container) with
      | .error e => .error e
      | .ok children => cut plan position size children

theorem result_pageFrom (w : World) (n : ℕ) (plan : List Container) :
    w.result n (pageFrom target marker size plan).run =
      pageOf target marker size plan fun container ↦ w n (.children container) := by
  unfold pageFrom pageOf
  cases positionOf plan marker with
  | error e => rfl
  | ok position =>
    cases position with
    | none => rfl
    | some position =>
      change w.result n (match plan[position.index]? with
        | none => raise (.error .pageExpired)
        | some container => _ : Enumerating Page).run = _
      dsimp only
      cases plan[position.index]? with
      | none => rfl
      | some container =>
        change w.result (n + 1) (raise (childrenFor target (w n (.children container))) >>= _ :
          Enumerating _).run = _
        dsimp only
        cases childrenFor target (w n (.children container)) <;> rfl

theorem asked_pageFrom {plan : List Container} {x : Exchange NamespaceRequest NamespaceAnswer}
    (h : x ∈ w.asked n (pageFrom target marker size plan).run) :
    ∃ position container, positionOf plan marker = .ok (some position) ∧
      plan[position.index]? = some container ∧
      x = ⟨.children container, w n (.children container)⟩ := by
  unfold pageFrom at h
  cases hposition : positionOf plan marker with
  | error e =>
    rw [hposition] at h
    cases h
  | ok position =>
    cases position with
    | none =>
      rw [hposition] at h
      cases h
    | some position =>
      rw [hposition] at h
      change x ∈ w.asked n (match plan[position.index]? with
        | none => raise (.error .pageExpired)
        | some container => _ : Enumerating Page).run at h
      cases hcontainer : plan[position.index]? with
      | none =>
        rw [hcontainer] at h
        cases h
      | some container =>
        rw [hcontainer] at h
        refine ⟨position, container, rfl, hcontainer, ?_⟩
        change x ∈ (⟨.children container, _⟩ :: w.asked (n + 1) (raise (childrenFor target
          (w n (.children container))) >>= _ : Enumerating _).run) at h
        cases hchildren : childrenFor target (w n (.children container)) with
        | error e =>
          rw [hchildren] at h
          exact List.mem_singleton.mp h
        | ok children =>
          rw [hchildren] at h
          exact List.mem_singleton.mp h

theorem result_readPage (marker : Option PageMarker) (size : ℕ) {p : List Container}
    (h : w.result 0 (plan target).run = .ok p) :
    w.result 0 (readPage target marker size).run = pageOf target marker size p
      fun container ↦ w (w.asked 0 (plan target).run).length (.children container) := by
  rw [readPage, Oracle.result_of_ok h, result_pageFrom, Nat.zero_add]

theorem positionOf_error {plan : List Container} {e : ProviderError}
    (h : positionOf plan marker = .error e) : e = .pageExpired := by
  unfold positionOf at h
  split at h
  · split at h <;> cases h
  · split at h
    · cases h
      rfl
    · cases h

theorem markerFor_error {print print' : UInt64} {index offset : ℕ} {e : ProviderError}
    (h : markerFor print index offset print' = .error e) : e = .pageExpired := by
  unfold markerFor at h
  split at h
  · cases h
    rfl
  · cases h

theorem cut_error {plan : List Container} {position : Position} {children : List Entry}
    {e : ProviderError} (h : cut plan position size children = .error e) : e = .pageExpired := by
  unfold cut at h
  split at h
  · cases h
    rfl
  split at h
  · cases h
    rfl
  dsimp only at h
  split at h
  · cases hmarker : markerFor (planFingerprint plan) position.index
        (min (position.offset + size) children.length) (childrenFingerprint children) with
    | error e' =>
      rw [hmarker] at h
      cases h
      exact markerFor_error hmarker
    | ok marker =>
      rw [hmarker] at h
      cases h
  split at h
  · cases hmarker : markerFor (planFingerprint plan) (position.index + 1) 0 0 with
    | error e' =>
      rw [hmarker] at h
      cases h
      exact markerFor_error hmarker
    | ok marker =>
      rw [hmarker] at h
      cases h
  · cases h

theorem pageOf_error {plan : List Container}
    {answer : Container → Except SourceError (List Entry)} {e : ProviderError}
    (h : pageOf target marker size plan answer = .error e) :
    e = .pageExpired ∨ ∃ container error, answer container = .error error ∧
      (∀ i, target = .workingSet → error ≠ .notFound i) ∧ e = .source error := by
  unfold pageOf at h
  split at h
  next e' hposition =>
    cases h
    exact .inl (positionOf_error hposition)
  · cases h
  split at h
  · cases h
    exact .inl rfl
  next container hcontainer =>
    split at h
    next e' hchildren =>
      cases h
      unfold childrenFor at hchildren
      split at hchildren
      · cases hchildren
      next i hanswer =>
        split at hchildren
        · cases hchildren
          exact .inl rfl
        next htarget =>
          cases hchildren
          exact .inr ⟨container, _, hanswer, fun _ hw ↦ absurd hw htarget, rfl⟩
      next error hne hanswer =>
        cases hchildren
        exact .inr ⟨container, error, hanswer, fun i _ ↦ hne i, rfl⟩
    · exact .inl (cut_error h)

end Pages

section WorkingSet

variable {marker : Option PageMarker} {size : ℕ}

/-- The working set is never reported as not existing: where a folder is found to have vanished, the
page has expired. -/
structure Kept (w : World) (marker : Option PageMarker) (size : ℕ) : Prop where
  never : ∀ i, w.result 0 (readPage .workingSet marker size).run ≠ .error (.source (.notFound i))
  vanished : ∀ container i, (⟨.children container, .error (.notFound i)⟩ :
      Exchange NamespaceRequest NamespaceAnswer) ∈
      w.asked 0 (readPage .workingSet marker size).run →
    w.result 0 (readPage .workingSet marker size).run = .error .pageExpired

/-- A folder that vanishes while the plan is drawn up is the one that is missed. -/
theorem kept_iff (w : World) (marker : Option PageMarker) (size : ℕ) :
    Kept w marker size ↔ Stands w := by
  obtain ⟨e, herror, hplan⟩ | ⟨hnone, p, hplan⟩ := result_plan w
  · have hresult : w.result 0 (readPage .workingSet marker size).run = .error (.source e) :=
      Oracle.result_of_error hplan
    have hasked : w.asked 0 (readPage .workingSet marker size).run =
        w.asked 0 (plan .workingSet).run := Oracle.asked_of_error hplan
    constructor
    · intro h i hi
      obtain rfl := Option.some.inj (herror.symm.trans hi)
      exact h.never i hresult
    · intro h
      refine ⟨fun i hi ↦ ?_, fun container i hx ↦ ?_⟩
      · cases hresult.symm.trans hi
        exact h i herror
      · rw [hasked] at hx
        cases hplan.symm.trans (reports_plan .workingSet 0 container _ hx)
        exact absurd herror (h i)
  · have hresult := result_readPage marker size hplan
    have hasked : w.asked 0 (readPage .workingSet marker size).run =
        w.asked 0 (plan .workingSet).run ++ w.asked (0 + (w.asked 0 (plan .workingSet).run).length)
          (pageFrom .workingSet marker size p).run := Oracle.asked_of_ok hplan
    constructor
    · intro _ i hi
      cases hnone.symm.trans hi
    · intro _
      refine ⟨fun i hi ↦ ?_, fun container i hx ↦ ?_⟩
      · rw [hresult] at hi
        obtain h | ⟨container, error, -, hne, h⟩ := pageOf_error hi
        · cases h
        · cases h
          exact hne i rfl rfl
      · rw [hasked, List.mem_append] at hx
        obtain hx | hx := hx
        · cases hplan.symm.trans (reports_plan .workingSet 0 container _ hx)
        · obtain ⟨position, container', hposition, hcontainer, hanswer⟩ := asked_pageFrom hx
          obtain ⟨hsame, hanswer⟩ := Sigma.mk.inj hanswer
          obtain rfl := NamespaceRequest.children.inj hsame
          rw [Nat.zero_add] at hanswer
          rw [hresult, pageOf, hposition]
          dsimp only
          rw [hcontainer]
          dsimp only
          rw [← eq_of_heq hanswer]
          rfl

def archiveFive : Container := .archive ⟨5⟩

/-- An archive that is listed, and has vanished when its case files are asked for. -/
def vanishing : World
  | 1, .children .archives => .ok [⟨.container archiveFive, "Archive", .folder⟩]
  | 2, .children (.archive _) => .error (.notFound (.container archiveFive))
  | _, .children _ => .ok []
  | _, .currentSequence => .ok 0
  | _, .changesSince _ _ => .ok ⟨[], 0, false⟩

theorem archive_missed :
    ¬ ∀ (w : World) (marker : Option PageMarker) (size : ℕ), Kept w marker size :=
  fun h ↦ (h vanishing none 200).never (.container archiveFive) rfl

end WorkingSet

end FolderClient.FileProvider.PlanRuns
