import FolderClient.FileProvider.PlanRuns

namespace FolderClient.FileProvider.PageRuns

open FolderClient.Core.Namespace FolderClient.Engine.Transfers FolderClient.FileProvider.Enumerator
open FolderClient.FileProvider.Marker FolderClient.FileProvider.PlanRuns
open FolderClient.Library.Oracles FolderClient.Library.Programs

variable {W : ℕ → World} {target : EnumerateTarget} {size k : ℕ} {marker : Option PageMarker}
  {pages : List (List Entry)} {result : Except ProviderError Unit}

/-- The plan that is drawn up for the page with the number `k`. -/
def planAt (W : ℕ → World) (target : EnumerateTarget) (k : ℕ) :
    Except ProviderError (List Container) := (W k).result 0 (plan target).run

def pageAt (W : ℕ → World) (target : EnumerateTarget) (size k : ℕ) (marker : Option PageMarker) :
    Except ProviderError Page := (W k).result 0 (readPage target marker size).run

/-- Page after page from a marker on, which the system hands back as the bytes it has kept. -/
inductive Followed (W : ℕ → World) (target : EnumerateTarget) (size : ℕ) :
    ℕ → Option PageMarker → List (List Entry) → Except ProviderError Unit → Prop
  | failed {k : ℕ} {marker : Option PageMarker} {e : ProviderError} :
      pageAt W target size k marker = .error e → Followed W target size k marker [] (.error e)
  | last {k : ℕ} {marker : Option PageMarker} {entries : List Entry} :
      pageAt W target size k marker = .ok ⟨entries, none⟩ →
      Followed W target size k marker [entries] (.ok ())
  | next {k : ℕ} {marker : Option PageMarker} {entries : List Entry} {m m' : PageMarker}
      {pages : List (List Entry)} {result : Except ProviderError Unit} :
      pageAt W target size k marker = .ok ⟨entries, some m⟩ → PageMarker.read m.bytes = .ok m' →
      Followed W target size (k + 1) (some m') pages result →
      Followed W target size k marker (entries :: pages) result

theorem followed_unique (h : Followed W target size k marker pages result)
    {pages' : List (List Entry)} {result' : Except ProviderError Unit}
    (h' : Followed W target size k marker pages' result') : pages' = pages ∧ result' = result := by
  induction h generalizing pages' result' with
  | failed hpage =>
    cases h' with
    | failed hpage' => cases hpage.symm.trans hpage'; exact ⟨rfl, rfl⟩
    | last hpage' => cases hpage.symm.trans hpage'
    | next hpage' => cases hpage.symm.trans hpage'
  | last hpage =>
    cases h' with
    | failed hpage' => cases hpage.symm.trans hpage'
    | last hpage' => cases hpage.symm.trans hpage'; exact ⟨rfl, rfl⟩
    | next hpage' => cases hpage.symm.trans hpage'
  | next hpage hread _ ih =>
    cases h' with
    | failed hpage' => cases hpage.symm.trans hpage'
    | last hpage' => cases hpage.symm.trans hpage'
    | next hpage' hread' hrest =>
      cases hpage.symm.trans hpage'
      cases hread.symm.trans hread'
      obtain ⟨rfl, rfl⟩ := ih hrest
      exact ⟨rfl, rfl⟩

section Cutting

variable {p : List Container} {position : Position} {children : List Entry} {page : Page}

/-- What a page is that has been cut: the stretch from its position on, as far as it reaches, and
the position behind it. -/
inductive Stretch (p : List Container) (position : Position) (size : ℕ) (children : List Entry) :
    Page → Prop
  | within {m : PageMarker} : position.offset + size < children.length →
      m.containerIndex.toNat = position.index → m.offset.toNat = position.offset + size →
      m.plan = planFingerprint p → m.children = childrenFingerprint children →
      Stretch p position size children
        ⟨(children.drop position.offset).take size, some m⟩
  | next {m : PageMarker} : position.index + 1 < p.length →
      m.containerIndex.toNat = position.index + 1 → m.offset.toNat = 0 →
      m.plan = planFingerprint p → Stretch p position size children
        ⟨children.drop position.offset, some m⟩
  | last : p.length ≤ position.index + 1 →
      Stretch p position size children ⟨children.drop position.offset, none⟩

theorem markerFor_ok {print print' : UInt64} {index offset : ℕ} {m : PageMarker}
    (h : markerFor print index offset print' = .ok m) :
    m.containerIndex.toNat = index ∧ m.offset.toNat = offset ∧ m.plan = print ∧
      m.children = print' := by
  unfold markerFor at h
  split at h
  · cases h
  next hfits =>
    cases h
    refine ⟨?_, ?_, rfl, rfl⟩
    · exact UInt32.toNat_ofNat_of_lt' (by rw [UInt32.size]; omega)
    · exact UInt32.toNat_ofNat_of_lt' (by rw [UInt32.size]; omega)

theorem stretch_of_cut (h : cut p position size children = .ok page) :
    (0 < position.offset → position.children = some (childrenFingerprint children)) ∧
      position.offset ≤ children.length ∧ Stretch p position size children page := by
  unfold cut at h
  split at h
  · cases h
  next hprint =>
    split at h
    · cases h
    next hoffset =>
      refine ⟨fun hpos ↦ ?_, Nat.le_of_not_lt hoffset, ?_⟩
      · by_contra hne
        exact hprint ⟨hpos, hne⟩
      dsimp only at h
      split at h
      next hwithin =>
        have hend : min (position.offset + size) children.length = position.offset + size := by
          omega
        rw [hend] at h hwithin
        cases hmarker : markerFor (planFingerprint p) position.index (position.offset + size)
            (childrenFingerprint children) with
        | error e =>
          rw [hmarker] at h
          cases h
        | ok m =>
          rw [hmarker] at h
          cases h
          obtain ⟨hindex, hplace, hplan, hchildren⟩ := markerFor_ok hmarker
          rw [Nat.add_sub_cancel_left]
          exact .within hwithin hindex hplace hplan hchildren
      next hwhole =>
        have hrest : (children.drop position.offset).take
            (min (position.offset + size) children.length - position.offset) =
            children.drop position.offset := by
          refine List.take_of_length_le ?_
          rw [List.length_drop]
          omega
        rw [hrest] at h
        split at h
        next hmore =>
          cases hmarker : markerFor (planFingerprint p) (position.index + 1) 0 0 with
          | error e =>
            rw [hmarker] at h
            cases h
          | ok m =>
            rw [hmarker] at h
            cases h
            obtain ⟨hindex, hplace, hplan, -⟩ := markerFor_ok hmarker
            exact .next hmore hindex hplace hplan
        next hlast =>
          cases h
          exact .last (Nat.le_of_not_lt hlast)

end Cutting

section Steps

/-- A page of which something stands in the plan. -/
structure Standing (W : ℕ → World) (target : EnumerateTarget) (size k : ℕ)
    (marker : Option PageMarker) (p : List Container) (position : Position) (container : Container)
    (children : List Entry) (page : Page) : Prop where
  planned : planAt W target k = .ok p
  placed : positionOf p marker = .ok (some position)
  stands : p[position.index]? = some container
  answered : ∃ n, W k n (.children container) = .ok children
  cut : cut p position size children = .ok page

theorem standing_of_ok {page : Page} (h : pageAt W target size k marker = .ok page) :
    (planAt W target k = .ok [] ∧ marker = none ∧ page = ⟨[], none⟩) ∨
    ∃ p position container children,
      Standing W target size k marker p position container children page := by
  obtain ⟨p, hplan, -⟩ := Oracle.ok_of_result h
  have hpage := (result_readPage marker size hplan).symm.trans h
  unfold pageOf at hpage
  cases hposition : positionOf p marker with
  | error e =>
    rw [hposition] at hpage
    cases hpage
  | ok position =>
    rw [hposition] at hpage
    cases position with
    | none =>
      cases hpage
      unfold positionOf at hposition
      split at hposition
      · split at hposition
        next hempty => exact .inl ⟨hplan.trans (by rw [List.isEmpty_iff.mp hempty]), rfl, rfl⟩
        · cases hposition
      · split at hposition <;> cases hposition
    | some position =>
      dsimp only at hpage
      cases hcontainer : p[position.index]? with
      | none =>
        rw [hcontainer] at hpage
        cases hpage
      | some container =>
        rw [hcontainer] at hpage
        dsimp only at hpage
        cases hchildren : childrenFor target ((W k (Oracle.asked (W k) 0 (plan target).run).length)
            (.children container)) with
        | error e =>
          rw [hchildren] at hpage
          cases hpage
        | ok children =>
          rw [hchildren] at hpage
          refine .inr ⟨p, position, container, children, hplan, hposition, hcontainer,
            ⟨(Oracle.asked (W k) 0 (plan target).run).length, ?_⟩, hpage⟩
          unfold childrenFor at hchildren
          split at hchildren
          next hanswer =>
            cases hchildren
            exact hanswer
          · split at hchildren <;> cases hchildren
          · cases hchildren

theorem position_of_marker {p : List Container} {m : PageMarker} {position : Position}
    (h : positionOf p (some m) = .ok (some position)) : m.plan = planFingerprint p ∧
      position = ⟨m.containerIndex.toNat, m.offset.toNat, some m.children⟩ := by
  unfold positionOf at h
  dsimp only at h
  split at h
  · cases h
  next hsame =>
    cases h
    exact ⟨not_not.mp hsame, rfl⟩

/-- How much of the positions a marker can hold lies behind it. -/
def remaining (m : PageMarker) : ℕ :=
  (2 ^ 32 - m.containerIndex.toNat) * 2 ^ 32 + (2 ^ 32 - m.offset.toNat)

theorem remaining_lt {m m' : PageMarker} {entries : List Entry} (hsize : 0 < size)
    (h : pageAt W target size k (some m) = .ok ⟨entries, some m'⟩) :
    remaining m' < remaining m := by
  obtain ⟨-, hn, -⟩ | ⟨p, position, container, children, hstanding⟩ := standing_of_ok h
  · cases hn
  obtain ⟨-, hposition⟩ := position_of_marker hstanding.placed
  obtain ⟨-, -, hstretch⟩ := stretch_of_cut hstanding.cut
  have hindex := m.containerIndex.toNat_lt
  have hoffset := m.offset.toNat_lt
  have hindex' := m'.containerIndex.toNat_lt
  have hoffset' := m'.offset.toNat_lt
  unfold remaining
  subst hposition
  generalize hpage : (⟨entries, some m'⟩ : Page) = page at hstretch
  cases hstretch with
  | within hlength hi ho =>
    cases hpage
    dsimp only at hi ho
    rw [hi, ho]
    omega
  | next hmore hi ho =>
    cases hpage
    dsimp only at hi ho
    rw [hi, ho]
    omega
  | last => cases hpage

theorem exists_followed_marker (hsize : 0 < size) (k : ℕ) (m : PageMarker) :
    ∃ pages result, Followed W target size k (some m) pages result := by
  induction hn : remaining m using Nat.strongRecOn generalizing k m with
  | ind n ih =>
    cases hpage : pageAt W target size k (some m) with
    | error e => exact ⟨[], .error e, .failed hpage⟩
    | ok page =>
      obtain ⟨entries, next⟩ := page
      cases next with
      | none => exact ⟨[entries], .ok (), .last hpage⟩
      | some m' =>
        obtain ⟨pages, result, hrest⟩ := ih _ (hn ▸ remaining_lt hsize hpage) (k + 1) m' rfl
        exact ⟨entries :: pages, result, .next hpage m'.read_bytes hrest⟩

/-- Every enumeration ends. -/
theorem exists_followed (hsize : 0 < size) (k : ℕ) (marker : Option PageMarker) :
    ∃ pages result, Followed W target size k marker pages result := by
  cases hpage : pageAt W target size k marker with
  | error e => exact ⟨[], .error e, .failed hpage⟩
  | ok page =>
    obtain ⟨entries, next⟩ := page
    cases next with
    | none => exact ⟨[entries], .ok (), .last hpage⟩
    | some m' =>
      obtain ⟨pages, result, hrest⟩ := exists_followed_marker hsize (k + 1) m'
      exact ⟨entries :: pages, result, .next hpage m'.read_bytes hrest⟩

end Steps

section Completeness

/-- Among the plans that are drawn up, and among the listings of each container, no two different
ones have the same fingerprint. -/
structure NoCollision (W : ℕ → World) (target : EnumerateTarget) : Prop where
  plans : ∀ {k k' p p'}, planAt W target k = .ok p → planAt W target k' = .ok p' →
    planFingerprint p = planFingerprint p' → p = p'
  listings : ∀ {container k n k' n'} {listing listing' : List Entry},
    W k n (.children container) = .ok listing → W k' n' (.children container) = .ok listing' →
    childrenFingerprint listing = childrenFingerprint listing' →
    listing.map (·.identifier) = listing'.map (·.identifier)

/-- What the source has answered at some time. -/
def Listed (W : ℕ → World) (container : Container) (listing : List Entry) : Prop :=
  ∃ k n, W k n (.children container) = .ok listing

/-- What is enumerated from a position of a plan on: the rest of a listing of the container there,
and a listing of each container behind it. -/
structure Enumerated (W : ℕ → World) (p : List Container) (m : PageMarker)
    (entries : List Entry) : Prop where
  exact : ∃ container listing rest listings,
    p.drop m.containerIndex.toNat = container :: rest ∧ Listed W container listing ∧
    (0 < m.offset.toNat → m.children = childrenFingerprint listing) ∧
    List.Forall₂ (Listed W) rest listings ∧
    entries.map (·.identifier) =
      ((listing.drop m.offset.toNat) ++ listings.flatten).map (·.identifier)

variable {p : List Container} {k₀ : ℕ} {m : PageMarker}

theorem drop_of_getElem? {i : ℕ} {container : Container} (h : p[i]? = some container) :
    p.drop i = container :: p.drop (i + 1) := by
  obtain ⟨hi, rfl⟩ := List.getElem?_eq_some_iff.mp h
  exact List.drop_eq_getElem_cons hi

/-- The page a marker stands for, under the plan of the enumeration. -/
theorem standing_of_marker (hnc : NoCollision W target) (hp : planAt W target k₀ = .ok p)
    (hplan : m.plan = planFingerprint p) {page : Page}
    (h : pageAt W target size k (some m) = .ok page) :
    ∃ container children, p[m.containerIndex.toNat]? = some container ∧
      (∃ n, W k n (.children container) = .ok children) ∧
      (0 < m.offset.toNat → m.children = childrenFingerprint children) ∧
      m.offset.toNat ≤ children.length ∧
      Stretch p ⟨m.containerIndex.toNat, m.offset.toNat, some m.children⟩ size children page := by
  obtain ⟨-, hn, -⟩ | ⟨p', position, container, children, hstanding⟩ := standing_of_ok h
  · cases hn
  obtain ⟨hsame, rfl⟩ := position_of_marker hstanding.placed
  obtain rfl := hnc.plans hstanding.planned hp (hsame.symm.trans hplan)
  obtain ⟨hprint, hoffset, hstretch⟩ := stretch_of_cut hstanding.cut
  exact ⟨container, children, hstanding.stands, hstanding.answered,
    fun hpos ↦ Option.some.inj (hprint hpos), hoffset, hstretch⟩

theorem enumerated_of_followed (hnc : NoCollision W target) (hsize : 0 < size)
    (hp : planAt W target k₀ = .ok p) (hplan : m.plan = planFingerprint p)
    (h : Followed W target size k (some m) pages (.ok ())) : Enumerated W p m pages.flatten := by
  generalize hmarker : some m = marker at h
  generalize hresult : (.ok () : Except ProviderError Unit) = result at h
  induction h generalizing m with
  | failed hpage => cases hresult
  | last hpage =>
    subst hmarker
    obtain ⟨container, children, hcontainer, ⟨n, hlisted⟩, hprint, -, hstretch⟩ :=
      standing_of_marker hnc hp hplan hpage
    cases hstretch with
    | last hlength =>
      have hnone : p.drop (m.containerIndex.toNat + 1) = [] := List.drop_eq_nil_of_le hlength
      have hdrop := drop_of_getElem? hcontainer
      rw [hnone] at hdrop
      refine ⟨container, children, [], [], hdrop, ⟨_, n, hlisted⟩, hprint, .nil, ?_⟩
      rw [List.flatten_singleton, List.flatten_nil, List.append_nil]
  | @next k marker entries m₁ m₁' pages result hpage hread hrest ih =>
    subst hmarker
    cases m₁.read_bytes.symm.trans hread
    obtain ⟨container, children, hcontainer, ⟨n, hlisted⟩, hprint, -, hstretch⟩ :=
      standing_of_marker hnc hp hplan hpage
    have hdrop := drop_of_getElem? hcontainer
    cases hstretch with
    | within hlength hindex hoffset hsame hchildren =>
      obtain ⟨container', listing, rest, listings, hdrop', ⟨k', n', hlisted'⟩, hprint', hall, hids⟩ :=
        (ih hsame rfl hresult).exact
      dsimp only at hindex hoffset
      rw [hindex, hdrop] at hdrop'
      obtain ⟨rfl, rfl⟩ := List.cons.inj hdrop'
      have hids' := hnc.listings hlisted' hlisted
        ((hprint' (by omega)).symm.trans hchildren)
      refine ⟨container, children, _, listings, hdrop, ⟨_, n, hlisted⟩, hprint, hall, ?_⟩
      rw [List.flatten_cons, List.map_append, hids, hoffset, List.map_append, List.map_append,
        ← List.append_assoc, List.map_drop, hids', ← List.map_drop, ← List.map_append]
      congr 2
      rw [← List.drop_drop, List.take_append_drop]
    | next hmore hindex hoffset hsame =>
      obtain ⟨container', listing, rest, listings, hdrop', hlisted', -, hall, hids⟩ :=
        (ih hsame rfl hresult).exact
      dsimp only at hindex hoffset
      rw [hindex] at hdrop'
      rw [hdrop'] at hdrop
      refine ⟨container, children, _, listing :: listings, hdrop, ⟨_, n, hlisted⟩, hprint,
        .cons hlisted' hall, ?_⟩
      rw [List.flatten_cons, List.map_append, hids, hoffset, List.drop_zero, List.flatten_cons,
        ← List.map_append]

/-- What is enumerated from the beginning: a listing of each container of the plan. -/
structure Complete (W : ℕ → World) (target : EnumerateTarget) (k : ℕ) (entries : List Entry) :
    Prop where
  exact : ∃ p listings, planAt W target k = .ok p ∧ List.Forall₂ (Listed W) p listings ∧
    entries.map (·.identifier) = listings.flatten.map (·.identifier)

theorem complete_of_followed (hnc : NoCollision W target) (hsize : 0 < size)
    (h : Followed W target size k none pages (.ok ())) : Complete W target k pages.flatten := by
  have hpositioned : ∀ {page : Page}, pageAt W target size k none = .ok page →
      (planAt W target k = .ok [] ∧ page = ⟨[], none⟩) ∨
      ∃ p container children, planAt W target k = .ok p ∧ p[0]? = some container ∧
        Listed W container children ∧ Stretch p ⟨0, 0, none⟩ size children page := by
    intro page hpage
    obtain ⟨hplan, -, hempty⟩ | ⟨p, position, container, children, hstanding⟩ :=
      standing_of_ok hpage
    · exact .inl ⟨hplan, hempty⟩
    · have hplaced := hstanding.placed
      unfold positionOf at hplaced
      dsimp only at hplaced
      split at hplaced
      · cases hplaced
      · cases hplaced
        obtain ⟨n, hlisted⟩ := hstanding.answered
        exact .inr ⟨p, container, children, hstanding.planned, hstanding.stands, ⟨k, n, hlisted⟩,
          (stretch_of_cut hstanding.cut).2.2⟩
  cases h with
  | last hpage =>
    obtain ⟨hplan, hempty⟩ | ⟨p, container, children, hplan, hcontainer, hlisted, hstretch⟩ :=
      hpositioned hpage
    · cases hempty
      exact ⟨[], [], hplan, .nil, rfl⟩
    · cases hstretch with
      | last hlength =>
        have hdrop := drop_of_getElem? hcontainer
        rw [List.drop_zero, List.drop_eq_nil_of_le hlength] at hdrop
        subst hdrop
        exact ⟨[container], [children], hplan, .cons hlisted .nil, rfl⟩
  | next hpage hread hrest =>
    obtain ⟨-, hempty⟩ | ⟨p, container, children, hplan, hcontainer, hlisted, hstretch⟩ :=
      hpositioned hpage
    · cases hempty
    cases (PageMarker.read_bytes _).symm.trans hread
    have hdrop := drop_of_getElem? hcontainer
    rw [List.drop_zero] at hdrop
    cases hstretch with
    | within hlength hindex hoffset hsame hchildren =>
      obtain ⟨container', listing, rest, listings, hdrop', hlisted', hprint', hall, hids⟩ :=
        (enumerated_of_followed hnc hsize hplan hsame hrest).exact
      rw [hindex, List.drop_zero, hdrop] at hdrop'
      obtain ⟨rfl, rfl⟩ := List.cons.inj hdrop'
      obtain ⟨k₁, n₁, hanswer⟩ := hlisted
      obtain ⟨k₂, n₂, hanswer'⟩ := hlisted'
      dsimp only at hoffset hlength
      have hids' := hnc.listings hanswer' hanswer ((hprint' (by omega)).symm.trans hchildren)
      refine ⟨p, children :: listings, hplan, ?_, ?_⟩
      · rw [hdrop]
        exact .cons ⟨k₁, n₁, hanswer⟩ hall
      · rw [List.flatten_cons, List.map_append, hids, hoffset, Nat.zero_add, List.map_append,
          ← List.append_assoc, List.map_drop, hids', ← List.map_drop, ← List.map_append,
          List.drop_zero, List.take_append_drop, List.flatten_cons, List.map_append]
    | next hmore hindex hoffset hsame =>
      obtain ⟨container', listing, rest, listings, hdrop', hlisted', -, hall, hids⟩ :=
        (enumerated_of_followed hnc hsize hplan hsame hrest).exact
      dsimp only at hindex hoffset
      rw [hindex, Nat.zero_add] at hdrop'
      rw [Nat.zero_add, hdrop'] at hdrop
      refine ⟨p, children :: listing :: listings, hplan, ?_, ?_⟩
      · rw [hdrop]
        exact .cons hlisted (.cons hlisted' hall)
      · rw [List.flatten_cons, List.map_append, hids, hoffset, List.drop_zero, List.drop_zero,
          ← List.map_append, List.flatten_cons, List.flatten_cons]

theorem error_of_firstError {w : World} {n : ℕ} {calls : List Container} {e : SourceError}
    (h : firstError (answersFrom w n calls) = some e) :
    ∃ n container, w n (.children container) = .error e := by
  induction calls generalizing n with
  | nil => cases h
  | cons container rest ih =>
    rw [answersFrom] at h
    cases hanswer : w n (.children container) with
    | error e' =>
      rw [hanswer] at h
      cases h
      exact ⟨n, container, hanswer⟩
    | ok children =>
      rw [hanswer] at h
      exact ih h

/-- An enumeration fails because its page has expired, or with an error of the source. -/
theorem error_of_followed {e : ProviderError}
    (h : Followed W target size k marker pages (.error e)) :
    e = .pageExpired ∨ ∃ error k n container, W k n (.children container) = .error error ∧
      e = .source error := by
  generalize hresult : (.error e : Except ProviderError Unit) = result at h
  induction h with
  | last hpage => cases hresult
  | next _ _ _ ih => exact ih hresult
  | @failed k marker e' hpage =>
    cases hresult
    cases hplan : planAt W target k with
    | ok p =>
      have hpageOf := (result_readPage marker size hplan).symm.trans hpage
      obtain h | ⟨container, error, hanswer, -, h⟩ := pageOf_error hpageOf
      · exact .inl h
      · exact .inr ⟨error, k, _, container, hanswer, h⟩
    | error e' =>
      have hfails : pageAt W target size k marker = .error e' := Oracle.result_of_error hplan
      cases hfails.symm.trans hpage
      cases target with
      | container container => cases hplan
      | file identifier => cases hplan
      | workingSet =>
        obtain ⟨error, hfirst, herror⟩ | ⟨-, p, hok⟩ := result_plan (W k)
        · cases herror.symm.trans hplan
          obtain ⟨n, container, hanswer⟩ := error_of_firstError hfirst
          exact .inr ⟨error, k, n, container, hanswer, rfl⟩
        · cases hok.symm.trans hplan

end Completeness

section Unchanged

/-- A source that does not change. -/
def still (answer : (request : NamespaceRequest) → NamespaceAnswer request) : ℕ → World :=
  fun _ _ ↦ answer

/-- Every place at which a page begins fits into a marker. -/
def Addressable (size length : ℕ) : Prop := ∀ q, q * size < length → q * size < 2 ^ 32

/-- The listings that a source which does not change has for a plan, every one of them answered. -/
structure Answers (answer : (request : NamespaceRequest) → NamespaceAnswer request)
    (target : EnumerateTarget) (p : List Container) (listing : Container → List Entry) : Prop where
  plan : planAt (still answer) target 0 = .ok p
  children : ∀ container ∈ p, answer (.children container) = .ok (listing container)

variable {answer : (request : NamespaceRequest) → NamespaceAnswer request} {p : List Container}
  {listing : Container → List Entry} {m : PageMarker} {container : Container}

theorem cut_ok {position : Position} {children : List Entry}
    (hprint : 0 < position.offset → position.children = some (childrenFingerprint children))
    (hoffset : position.offset ≤ children.length) (hindex : position.index < p.length)
    (hplan : p.length ≤ 2 ^ 32)
    (hfits : position.offset + size < children.length → position.offset + size < 2 ^ 32) :
    ∃ page, cut p position size children = .ok page := by
  unfold cut
  rw [if_neg fun h ↦ h.2 (hprint h.1), if_neg (Nat.not_lt.mpr hoffset)]
  dsimp only
  split
  next hwithin =>
    rw [markerFor, if_neg (by omega)]
    exact ⟨_, rfl⟩
  next =>
    split
    next hmore =>
      rw [markerFor, if_neg (by omega)]
      exact ⟨_, rfl⟩
    next => exact ⟨_, rfl⟩

theorem pageAt_still (ha : Answers answer target p listing) {position : Position}
    (hposition : positionOf p marker = .ok (some position))
    (hcontainer : p[position.index]? = some container) :
    pageAt (still answer) target size k marker =
      cut p position size (listing container) := by
  have hpage := result_readPage marker size ha.plan
  have hanswer : answer (.children container) = .ok (listing container) :=
    ha.children container (List.mem_of_getElem? hcontainer)
  refine hpage.trans ?_
  rw [pageOf, hposition]
  dsimp only
  rw [hcontainer]
  dsimp only
  rw [show still answer 0 _ (.children container) = .ok (listing container) from hanswer]
  rfl

theorem followed_still (ha : Answers answer target p listing) (hsize : 0 < size)
    (hplan : p.length ≤ 2 ^ 32)
    (hfits : ∀ container ∈ p, Addressable size (listing container).length)
    (hsame : m.plan = planFingerprint p)
    (hcontainer : p[m.containerIndex.toNat]? = some container) {q : ℕ}
    (hoffset : m.offset.toNat = q * size) (hle : m.offset.toNat ≤ (listing container).length)
    (hprint : 0 < m.offset.toNat → m.children = childrenFingerprint (listing container)) :
    ∃ pages, Followed (still answer) target size k (some m) pages (.ok ()) ∧
      pages.flatten = (listing container).drop m.offset.toNat ++
        (p.drop (m.containerIndex.toNat + 1)).flatMap listing := by
  induction hn : remaining m using Nat.strongRecOn generalizing k m container q with
  | ind n ih =>
    have hposition : positionOf p (some m) =
        .ok (some ⟨m.containerIndex.toNat, m.offset.toNat, some m.children⟩) := by
      rw [positionOf, if_neg (not_not.mpr hsame)]
    have hindex := (List.getElem?_eq_some_iff.mp hcontainer).1
    have hmem := List.mem_of_getElem? hcontainer
    have hreach : m.offset.toNat + size < (listing container).length →
        m.offset.toNat + size < 2 ^ 32 := by
      rw [hoffset, ← Nat.succ_mul]
      exact hfits container hmem (q + 1)
    have hexists : ∃ page, cut p ⟨m.containerIndex.toNat, m.offset.toNat, some m.children⟩ size
        (listing container) = .ok page :=
      cut_ok (fun h ↦ congrArg some (hprint h)) hle hindex hplan hreach
    obtain ⟨page, hcut⟩ := hexists
    have hpage : pageAt (still answer) target size k (some m) = .ok page :=
      (pageAt_still ha hposition hcontainer).trans hcut
    obtain ⟨-, -, hstretch⟩ := stretch_of_cut hcut
    cases hstretch with
    | @within m' hlength hindex' hoffset' hsame' hchildren' =>
      have hless : remaining m' < n := Nat.lt_of_lt_of_eq (remaining_lt hsize hpage) hn
      dsimp only at hindex' hoffset' hlength
      have hnext : m'.offset.toNat = (q + 1) * size := by rw [hoffset', hoffset, Nat.succ_mul]
      obtain ⟨pages, hrest, hentries⟩ := ih (remaining m') hless hsame' (hindex' ▸ hcontainer)
        hnext (by omega) (fun _ ↦ hchildren') rfl
      refine ⟨_, .next hpage m'.read_bytes hrest, ?_⟩
      rw [List.flatten_cons, hentries, hindex', hoffset', ← List.append_assoc, ← List.drop_drop,
        List.take_append_drop]
    | @next m' hmore hindex' hoffset' hsame' =>
      have hless : remaining m' < n := Nat.lt_of_lt_of_eq (remaining_lt hsize hpage) hn
      dsimp only at hindex' hoffset' hmore
      have hstands : p[m'.containerIndex.toNat]? = some p[m.containerIndex.toNat + 1] := by
        rw [hindex']
        exact List.getElem?_eq_getElem hmore
      obtain ⟨pages, hrest, hentries⟩ := ih (remaining m') hless hsame' hstands
        (hoffset'.trans (Nat.zero_mul size).symm) (by omega) (fun hpos ↦ by omega) rfl
      refine ⟨_, .next hpage m'.read_bytes hrest, ?_⟩
      rw [List.flatten_cons, hentries, hoffset', hindex', List.drop_zero,
        List.drop_eq_getElem_cons hmore, List.flatMap_cons]
    | last hlength =>
      refine ⟨_, .last hpage, ?_⟩
      rw [List.flatten_singleton, List.drop_eq_nil_of_le hlength]
      exact (List.append_nil _).symm

theorem followed_congr {marker' : Option PageMarker}
    (he : pageAt W target size k marker = pageAt W target size k marker')
    (h : Followed W target size k marker pages result) :
    Followed W target size k marker' pages result := by
  cases h with
  | failed hpage => exact .failed (he.symm.trans hpage)
  | last hpage => exact .last (he.symm.trans hpage)
  | next hpage hread hrest => exact .next (he.symm.trans hpage) hread hrest

/-- Of a source that does not change, every child of every container of the plan is enumerated, in
order and once. -/
theorem exists_followed_still (ha : Answers answer target p listing) (hsize : 0 < size)
    (hplan : p.length ≤ 2 ^ 32)
    (hfits : ∀ container ∈ p, Addressable size (listing container).length) :
    ∃ pages, Followed (still answer) target size 0 none pages (.ok ()) ∧
      pages.flatten = p.flatMap listing := by
  cases p with
  | nil =>
    have hpage : pageAt (still answer) target size 0 none = .ok ⟨[], none⟩ :=
      result_readPage none size ha.plan
    exact ⟨[[]], .last hpage, rfl⟩
  | cons container rest =>
    -- The beginning is the marker of the first position.
    have hfirst : pageAt (still answer) target size 0 none =
        cut (container :: rest) ⟨0, 0, none⟩ size (listing container) := pageAt_still ha rfl rfl
    have hmarker : pageAt (still answer) target size 0
        (some ⟨0, 0, planFingerprint (container :: rest), 0⟩) =
        cut (container :: rest) ⟨0, 0, some 0⟩ size (listing container) := by
      refine pageAt_still ha ?_ rfl
      rw [positionOf, if_neg (not_not.mpr rfl)]
      rfl
    obtain ⟨pages, hpages, hentries⟩ := followed_still (k := 0) ha hsize hplan hfits
      (m := ⟨0, 0, planFingerprint (container :: rest), 0⟩) rfl rfl (q := 0)
      (Nat.zero_mul size).symm (Nat.zero_le _) (fun hpos ↦ absurd hpos (Nat.lt_irrefl 0))
    exact ⟨pages, followed_congr (hmarker.trans hfirst.symm) hpages, hentries⟩

end Unchanged

/-- What an enumeration of a target in pages comes to. -/
structure Paged (W : ℕ → World) (target : EnumerateTarget) (size : ℕ) : Prop where
  ends : ∃ pages result, Followed W target size 0 none pages result
  complete : NoCollision W target → ∀ pages, Followed W target size 0 none pages (.ok ()) →
    Complete W target 0 pages.flatten
  failed : ∀ pages e, Followed W target size 0 none pages (.error e) → e = .pageExpired ∨
    ∃ error k n container, W k n (.children container) = .error error ∧ e = .source error
  unchanged : ∀ answer p listing, W = still answer → Answers answer target p listing →
    p.length ≤ 2 ^ 32 → (∀ container ∈ p, Addressable size (listing container).length) →
    ∃ pages, Followed W target size 0 none pages (.ok ()) ∧ pages.flatten = p.flatMap listing

theorem paged_of_pos (W : ℕ → World) (target : EnumerateTarget) (size : ℕ) (hsize : 0 < size) :
    Paged W target size where
  ends := exists_followed hsize 0 none
  complete hnc _ h := complete_of_followed hnc hsize h
  failed _ _ h := error_of_followed h
  unchanged _ _ _ hw ha hplan hfits := hw ▸ exists_followed_still ha hsize hplan hfits

section Samples

/-- The folders below the root, and nothing in them. -/
def sample : (request : NamespaceRequest) → NamespaceAnswer request
  | .children .root => .ok [⟨.container .baskets, "Baskets", .folder⟩,
      ⟨.container .archives, "Archives", .folder⟩, ⟨.container .searches, "Searches", .folder⟩]
  | .children _ => .ok []
  | .currentSequence => .ok 0
  | .changesSince _ _ => .ok ⟨[], 0, false⟩

def sampleListing (container : Container) : List Entry :=
  match sample (.children container) with
  | .ok children => children
  | .error _ => []

theorem sample_enumerated : ∃ pages, Followed (still sample) .workingSet 2 0 none pages (.ok ()) ∧
    pages.flatten.map (·.identifier) =
      [.container .baskets, .container .archives, .container .searches] ∧
    Complete (still sample) .workingSet 0 pages.flatten := by
  have hpaged := paged_of_pos (still sample) .workingSet 2 (by decide)
  have hanswers : Answers sample .workingSet [.root, .baskets, .archives, .searches]
      sampleListing := by
    refine ⟨rfl, fun container _ ↦ ?_⟩
    unfold sampleListing
    cases container <;> rfl
  have hfits : ∀ container ∈ [Container.root, .baskets, .archives, .searches],
      Addressable 2 (sampleListing container).length := by
    intro container _ q hq
    have hshort : (sampleListing container).length ≤ 3 := by
      unfold sampleListing
      cases container <;> exact Nat.le_of_ble_eq_true rfl
    omega
  have hnc : NoCollision (still sample) .workingSet := by
    refine ⟨fun hp hp' _ ↦ ?_, fun hl hl' _ ↦ ?_⟩
    · exact Except.ok.inj (hp.symm.trans hp')
    · exact congrArg _ (Except.ok.inj (hl.symm.trans hl'))
  obtain ⟨pages, hpages, hentries⟩ :=
    hpaged.unchanged sample _ sampleListing rfl hanswers (by decide) hfits
  exact ⟨pages, hpages, by rw [hentries]; rfl, hpaged.complete hnc pages hpages⟩

/-- A source with one folder, in which far too many documents lie. -/
def crowded : (request : NamespaceRequest) → NamespaceAnswer request
  | .children _ => .ok (List.replicate (2 ^ 32 + 1) ⟨.container .baskets, "Baskets", .folder⟩)
  | .currentSequence => .ok 0
  | .changesSince _ _ => .ok ⟨[], 0, false⟩

theorem cut_crowded {children : List Entry} (h : children.length = 2 ^ 32 + 1) :
    cut [.root] ⟨0, 0, none⟩ (2 ^ 32) children = .error .pageExpired := by
  unfold cut
  rw [if_neg fun hp ↦ absurd hp.1 (Nat.lt_irrefl 0), if_neg (Nat.not_lt_zero _)]
  dsimp only
  rw [h, if_pos (by decide), markerFor, if_pos (by decide)]
  rfl

theorem crowded_unfinished : ¬ ∀ target size answer p listing, 0 < size →
    Answers answer target p listing →
      ∃ pages, Followed (still answer) target size 0 none pages (.ok ()) := by
  intro h
  have hanswers : Answers crowded (.container .root) [.root]
      fun _ ↦ List.replicate (2 ^ 32 + 1) ⟨.container .baskets, "Baskets", .folder⟩ :=
    ⟨rfl, fun _ _ ↦ rfl⟩
  obtain ⟨pages, hpages⟩ := h (.container .root) (2 ^ 32) crowded _ _ (by decide) hanswers
  have hfailed : pageAt (still crowded) (.container .root) (2 ^ 32) 0 none =
      .error .pageExpired := by
    rw [pageAt_still hanswers rfl rfl]
    exact cut_crowded List.length_replicate
  cases (followed_unique (.failed hfailed) hpages).2

end Samples

end FolderClient.FileProvider.PageRuns
