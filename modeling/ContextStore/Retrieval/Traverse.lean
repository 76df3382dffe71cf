import ContextStore.Foundation.Unicode
import ContextStore.Foundation.Walking
import Mathlib.Data.List.Lex

/-! # Traversing the chronology

From a document, the nearest live documents before or after it are found by scanning the references
of the sessions and sorting what they refer to. The last result is the anchor of the next request.
Documents of one time whose names compare equal stand at one place of the timeline. -/

namespace ContextStore.Traverse

open Unicode (Text)

/-! ## Requests -/

structure Manifest where
  documentId : Text
  version : Nat
  project : Text
  sessionId : Text
  createdAt : Nat
deriving DecidableEq

structure SessionDocumentReference where
  project : Text
  sessionId : Text
  documentId : Text
  documentVersion : Nat

/-- A snapshot: the references in the order of their keys, the manifests, and which documents are
retired. A document version is admitted once, with one reference of its project and session. -/
structure View where
  references : List SessionDocumentReference
  document : Text → Nat → Option Manifest
  retired : Text → Nat → Bool
  distinct : (references.map fun reference =>
    (reference.documentId, reference.documentVersion)).Nodup
  manifest_of : ∀ {documentId : Text} {version : Nat} {manifest : Manifest},
    document documentId version = some manifest →
      manifest.documentId = documentId ∧ manifest.version = version
  reference_of : ∀ reference ∈ references, ∀ manifest,
    document reference.documentId reference.documentVersion = some manifest →
      manifest.project = reference.project ∧ manifest.sessionId = reference.sessionId

inductive Direction where
  | before
  | after
deriving DecidableEq

inductive Scope where
  | session
  | project
deriving DecidableEq

/-- A request as `normalizeRequest` leaves it. -/
structure Request where
  direction : Direction
  scope : Scope
  sessionIds : List Text
  project : Text
  limit : Nat
  scanLimit : Nat
  distinct : sessionIds.Nodup
  positive : 0 < limit

/-- The claims of a locator that a traversal reads. -/
structure AnchorClaims where
  documentId : Text
  documentVersion : Nat
  scope : Scope

/-- `String.prototype.localeCompare`: an order of texts in which different ones may be equal. -/
structure Collation where
  localeCompare : Text → Text → Int
  swap : ∀ a b, 0 < localeCompare a b ↔ localeCompare b a < 0
  trans : ∀ a b c, localeCompare a b ≤ 0 → localeCompare b c ≤ 0 → localeCompare a c ≤ 0

/-! ## The scan -/

section Scan

variable (collation : Collation)

def tupleCompare (left right : Manifest) : Int :=
  if (left.createdAt : Int) - right.createdAt ≠ 0 then (left.createdAt : Int) - right.createdAt
  else if collation.localeCompare left.documentId right.documentId ≠ 0 then
    collation.localeCompare left.documentId right.documentId
  else (left.version : Int) - right.version

/-- `candidates.sort`: the first one is not behind the second one. -/
def inOrder (direction : Direction) (left right : Manifest) : Bool :=
  match direction with
  | .before => tupleCompare collation right left ≤ 0
  | .after => tupleCompare collation left right ≤ 0

def referencePrefixes (request : Request) : List (SessionDocumentReference → Bool) :=
  match request.scope with
  | .session => request.sessionIds.map fun sessionId reference =>
    reference.project = request.project && reference.sessionId = sessionId
  | .project => [fun reference => reference.project = request.project]

structure Gathered where
  references : List SessionDocumentReference
  truncated : Bool

/-- The loop over the prefixes; the last argument is what is gathered so far. -/
def gather (view : View) (scanLimit : Nat) :
    List (SessionDocumentReference → Bool) → Gathered → Gathered
  | [], gathered => gathered
  | inPrefix :: rest, gathered =>
    if scanLimit ≤ gathered.references.length then { gathered with truncated := true }
    else
      let remaining := scanLimit - gathered.references.length
      let found := (view.references.filter inPrefix).take (remaining + 1)
      gather view scanLimit rest {
        references := gathered.references ++ found.take remaining
        truncated := gathered.truncated || remaining < found.length }

/-- The document of a reference, if it is live and in the scope of the request. -/
def liveDocument (view : View) (request : Request) (reference : SessionDocumentReference) :
    Option Manifest := do
  let manifest ← view.document reference.documentId reference.documentVersion
  if manifest.project ≠ request.project then none
  else if request.scope = .session ∧ manifest.sessionId ∉ request.sessionIds then none
  else if view.retired manifest.documentId manifest.version then none
  else some manifest

/-- One round of the loop over the references. -/
def candidate (view : View) (request : Request) (anchor : Manifest)
    (reference : SessionDocumentReference) : Option Manifest :=
  if reference.documentId = anchor.documentId ∧ reference.documentVersion = anchor.version then none
  else do
    let manifest ← liveDocument view request reference
    let ordering := tupleCompare collation manifest anchor
    if (request.direction = .before ∧ 0 ≤ ordering) ∨ (request.direction = .after ∧ ordering ≤ 0)
    then none
    else some manifest

structure Collected where
  candidates : List Manifest
  scanned : Nat
  truncated : Bool
  hasMore : Bool

def Collected.none : Collected := ⟨[], 0, false, false⟩

def collectCandidates (view : View) (claims : AnchorClaims) (request : Request) : Collected :=
  match view.document claims.documentId claims.documentVersion with
  | Option.none => .none
  | some anchor =>
    if anchor.project ≠ request.project then .none
    else if request.scope = .session ∧ anchor.sessionId ∉ request.sessionIds then .none
    else
      let gathered := gather view request.scanLimit (referencePrefixes request) ⟨[], false⟩
      let candidates := gathered.references.filterMap (candidate collation view request anchor)
      { candidates :=
          (candidates.mergeSort (inOrder collation request.direction)).take request.limit
        scanned := gathered.references.length
        truncated := gathered.truncated
        hasMore := gathered.truncated || request.limit < candidates.length }

/-- A locator for a session keeps the traversal in the session. -/
def effectiveRequest (claims : AnchorClaims) (request : Request) : Request :=
  if claims.scope = .session then { request with scope := .session } else request

structure Traversal where
  scanned : Nat
  truncated : Bool
  hasMore : Bool
  results : List Manifest

/-- A candidate that is retired cannot be leased and is left out; the timeline is the same as in the
snapshot. -/
def traverseArchive (view : View) (claims : AnchorClaims) (request : Request) : Traversal :=
  let collected := collectCandidates collation view claims (effectiveRequest claims request)
  { scanned := collected.scanned
    truncated := collected.truncated
    hasMore := collected.hasMore
    results := collected.candidates.filter fun manifest =>
      !view.retired manifest.documentId manifest.version }

/-- The claims of the locator that a result is given. -/
def resultClaims (claims : AnchorClaims) (request : Request) (manifest : Manifest) :
    AnchorClaims where
  documentId := manifest.documentId
  documentVersion := manifest.version
  scope := (effectiveRequest claims request).scope

/-- The requests up to the first one without results, each from the last result of the one before;
`none` where there are more than the fuel. -/
def walk (view : View) (request : Request) : Nat → AnchorClaims → Option (List Manifest)
  | 0, _ => none
  | fuel + 1, claims =>
    let results := (traverseArchive collation view claims request).results
    match results.getLast? with
    | none => some []
    | some last =>
      (walk view request fuel (resultClaims claims request last)).map (results ++ ·)

end Scan

/-! ## The timeline -/

/-- The live documents in the scope of the request. -/
def timeline (view : View) (request : Request) : List Manifest :=
  view.references.filterMap (liveDocument view request)

/-- The results are the nearest documents of a side, in order. -/
structure Nearest (collation : Collation) (request : Request) (side results : List Manifest) :
    Prop where
  length_eq : results.length = min request.limit side.length
  sorted : results.Pairwise fun a b => inOrder collation request.direction a b = true
  nearest : ∃ rest, side.Perm (results ++ rest) ∧
    ∀ a ∈ results, ∀ b ∈ rest, inOrder collation request.direction a b = true

section Ordering

variable (collation : Collation)

theorem tupleCompare_nonpos_iff (left right : Manifest) :
    tupleCompare collation left right ≤ 0 ↔ left.createdAt < right.createdAt ∨
      (left.createdAt = right.createdAt ∧
        (collation.localeCompare left.documentId right.documentId < 0 ∨
          (collation.localeCompare left.documentId right.documentId = 0 ∧
            left.version ≤ right.version))) := by
  rw [tupleCompare]
  split
  · omega
  · split
    · omega
    · omega

theorem tupleCompare_nonneg_iff (left right : Manifest) :
    0 ≤ tupleCompare collation left right ↔ tupleCompare collation right left ≤ 0 := by
  have hswap := collation.swap left.documentId right.documentId
  have hswap' := collation.swap right.documentId left.documentId
  rw [tupleCompare_nonpos_iff, tupleCompare]
  split
  · omega
  · split
    · omega
    · omega

theorem tupleCompare_trans {a b c : Manifest} (hab : tupleCompare collation a b ≤ 0)
    (hbc : tupleCompare collation b c ≤ 0) : tupleCompare collation a c ≤ 0 := by
  rw [tupleCompare_nonpos_iff] at *
  have hforth := collation.trans a.documentId b.documentId c.documentId
  have hback := collation.trans c.documentId b.documentId a.documentId
  have hab' := collation.swap a.documentId b.documentId
  have hba' := collation.swap b.documentId a.documentId
  have hbc' := collation.swap b.documentId c.documentId
  have hcb' := collation.swap c.documentId b.documentId
  have hac' := collation.swap a.documentId c.documentId
  have hca' := collation.swap c.documentId a.documentId
  have hleft := collation.trans b.documentId c.documentId a.documentId
  have hright := collation.trans c.documentId a.documentId b.documentId
  omega

theorem order_inOrder (direction : Direction) : Walking.Order (inOrder collation direction) where
  total := by
    intro a b
    have hswap := tupleCompare_nonneg_iff collation a b
    cases direction with
    | before =>
      simp only [inOrder, Bool.or_eq_true, decide_eq_true_eq]
      omega
    | after =>
      simp only [inOrder, Bool.or_eq_true, decide_eq_true_eq]
      omega
  trans := by
    intro a b c hab hbc
    cases direction with
    | before =>
      simp only [inOrder, decide_eq_true_eq] at *
      exact tupleCompare_trans collation hbc hab
    | after =>
      simp only [inOrder, decide_eq_true_eq] at *
      exact tupleCompare_trans collation hab hbc

end Ordering

section Timeline

variable {collation : Collation} {view : View} {request : Request} {anchor manifest : Manifest}
  {claims : AnchorClaims}

theorem gather_of_not_truncated {scanLimit : Nat}
    {prefixes : List (SessionDocumentReference → Bool)} {gathered : Gathered}
    (h : (gather view scanLimit prefixes gathered).truncated = false) :
    gathered.truncated = false ∧ (gather view scanLimit prefixes gathered).references =
      gathered.references ++ prefixes.flatMap fun inPrefix => view.references.filter inPrefix := by
  induction prefixes generalizing gathered with
  | nil => exact ⟨h, (List.append_nil _).symm⟩
  | cons inPrefix rest ih =>
    rw [gather] at h ⊢
    split at h
    · cases h
    · next hroom =>
      rw [if_neg hroom]
      obtain ⟨hnot, hreferences⟩ := ih h
      rw [Bool.or_eq_false_iff, decide_eq_false_iff_not, List.length_take] at hnot
      have hshort : (view.references.filter inPrefix).length ≤
          scanLimit - gathered.references.length := by omega
      refine ⟨hnot.1, ?_⟩
      rw [hreferences, List.take_take, List.take_of_length_le (by omega), List.flatMap_cons,
        List.append_assoc]

theorem liveDocument_eq_some {reference : SessionDocumentReference} :
    liveDocument view request reference = some manifest ↔
      view.document reference.documentId reference.documentVersion = some manifest ∧
        manifest.project = request.project ∧
        (request.scope = .session → manifest.sessionId ∈ request.sessionIds) ∧
        view.retired manifest.documentId manifest.version = false := by
  rw [liveDocument]
  cases hdocument : view.document reference.documentId reference.documentVersion with
  | none => simp
  | some found =>
    simp only [Option.bind_eq_bind, Option.bind_some, Option.some.injEq]
    constructor
    · intro h
      split at h
      · cases h
      split at h
      · cases h
      split at h
      · cases h
      next hproject hsession hlive =>
      cases h
      refine ⟨rfl, not_not.mp hproject, fun hscope => ?_, Bool.eq_false_iff.mpr hlive⟩
      exact not_not.mp fun hnot => hsession ⟨hscope, hnot⟩
    · rintro ⟨rfl, hproject, hsession, hlive⟩
      rw [if_neg (not_not.mpr hproject), if_neg fun hnot => hnot.2 (hsession hnot.1),
        if_neg (Bool.eq_false_iff.mp hlive)]

theorem flatMap_sessions_perm (references : List SessionDocumentReference) (project : Text)
    {sessionIds : List Text} (hdistinct : sessionIds.Nodup) :
    ((sessionIds.map fun sessionId (reference : SessionDocumentReference) =>
        (reference.project = project && reference.sessionId = sessionId : Bool)).flatMap
      fun inPrefix => references.filter inPrefix).Perm
      (references.filter fun reference =>
        reference.project = project && reference.sessionId ∈ sessionIds) := by
  induction sessionIds with
  | nil => simp
  | cons sessionId rest ih =>
    obtain ⟨hnew, hrest⟩ := List.nodup_cons.mp hdistinct
    rw [List.map_cons, List.flatMap_cons]
    refine ((ih hrest).append_left _).trans ?_
    have hsplit := List.filter_append_perm
      (fun reference => decide (reference.sessionId = sessionId))
      (references.filter fun reference =>
        reference.project = project && reference.sessionId ∈ sessionId :: rest)
    rw [List.filter_filter, List.filter_filter] at hsplit
    refine List.Perm.trans (List.Perm.of_eq ?_) hsplit
    congr 1
    · refine List.filter_congr fun reference _ => ?_
      by_cases heq : reference.sessionId = sessionId
      · simp [heq]
      · simp [heq]
    · refine List.filter_congr fun reference _ => ?_
      by_cases heq : reference.sessionId = sessionId
      · simp [heq, hnew]
      · simp [heq]

theorem gathered_perm_timeline
    (h : (gather view request.scanLimit (referencePrefixes request) ⟨[], false⟩).truncated =
      false) :
    ((gather view request.scanLimit (referencePrefixes request) ⟨[], false⟩).references.filterMap
      (liveDocument view request)).Perm (timeline view request) := by
  obtain ⟨-, hreferences⟩ := gather_of_not_truncated h
  rw [hreferences, List.nil_append, timeline]
  have hinside : ∀ inPrefix : SessionDocumentReference → Bool,
      (∀ reference ∈ view.references, (liveDocument view request reference).isSome →
        inPrefix reference = true) →
      (view.references.filter inPrefix).filterMap (liveDocument view request) =
        view.references.filterMap (liveDocument view request) := by
    intro inPrefix hlivefirst
    rw [List.filterMap_filter]
    refine List.filterMap_congr fun reference hreference => ?_
    split
    · rfl
    · next hnot =>
      cases hlive : liveDocument view request reference with
      | none => rfl
      | some manifest => exact absurd (hlivefirst reference hreference (by rw [hlive]; rfl)) hnot
  cases hscope : request.scope with
  | project =>
    simp only [referencePrefixes, hscope, List.flatMap_cons, List.flatMap_nil, List.append_nil]
    rw [hinside]
    intro reference hreference hlive
    obtain ⟨manifest, hmanifest⟩ := Option.isSome_iff_exists.mp hlive
    obtain ⟨hdocument, hproject, -⟩ := liveDocument_eq_some.mp hmanifest
    have hsame := (view.reference_of reference hreference manifest hdocument).1
    exact decide_eq_true (hsame.symm.trans hproject)
  | session =>
    simp only [referencePrefixes, hscope]
    refine ((flatMap_sessions_perm view.references request.project request.distinct).filterMap
      _).trans (List.Perm.of_eq (hinside _ ?_))
    intro reference hreference hlive
    obtain ⟨manifest, hmanifest⟩ := Option.isSome_iff_exists.mp hlive
    obtain ⟨hdocument, hproject, hsession, -⟩ := liveDocument_eq_some.mp hmanifest
    obtain ⟨hsameProject, hsameSession⟩ :=
      view.reference_of reference hreference manifest hdocument
    rw [Bool.and_eq_true, decide_eq_true_eq, decide_eq_true_eq]
    exact ⟨hsameProject.symm.trans hproject, hsameSession ▸ hsession hscope⟩

theorem candidates_eq_beyond (references : List SessionDocumentReference)
    (hanchor : view.document anchor.documentId anchor.version = some anchor) :
    references.filterMap (candidate collation view request anchor) =
      Walking.beyond (inOrder collation request.direction) anchor
        (references.filterMap (liveDocument view request)) := by
  rw [Walking.beyond, List.filter_filterMap]
  refine List.filterMap_congr fun reference _ => ?_
  rw [candidate]
  cases hlive : liveDocument view request reference with
  | none => simp
  | some manifest =>
    have hskipped : (request.direction = .before ∧ 0 ≤ tupleCompare collation manifest anchor) ∨
        (request.direction = .after ∧ tupleCompare collation manifest anchor ≤ 0) ↔
        inOrder collation request.direction manifest anchor = true := by
      cases request.direction with
      | before => simp [inOrder, tupleCompare_nonneg_iff]
      | after => simp [inOrder]
    simp only [Option.bind_eq_bind, Option.bind_some, Option.filter]
    split
    · next hsame =>
      obtain ⟨hdocument, -⟩ := liveDocument_eq_some.mp hlive
      rw [hsame.1, hsame.2, hanchor, Option.some.injEq] at hdocument
      subst hdocument
      simp [(order_inOrder collation request.direction).refl anchor]
    · by_cases hin : inOrder collation request.direction manifest anchor = true
      · rw [if_pos (hskipped.mpr hin)]
        simp [hin]
      · rw [if_neg (mt hskipped.mp hin)]
        simp [hin]

/-- The live documents in the order in which the scan finds them. -/
def found (view : View) (request : Request) : List Manifest :=
  (gather view request.scanLimit (referencePrefixes request) ⟨[], false⟩).references.filterMap
    (liveDocument view request)

/-- The anchor is a stored document in the scope of the request. -/
structure Anchored (view : View) (request : Request) (claims : AnchorClaims) (anchor : Manifest) :
    Prop where
  document : view.document claims.documentId claims.documentVersion = some anchor
  project : anchor.project = request.project
  session : (effectiveRequest claims request).scope = .session →
    anchor.sessionId ∈ request.sessionIds

theorem effectiveRequest_fields (claims : AnchorClaims) (request : Request) :
    (effectiveRequest claims request).direction = request.direction ∧
      (effectiveRequest claims request).limit = request.limit ∧
      (effectiveRequest claims request).project = request.project ∧
      (effectiveRequest claims request).sessionIds = request.sessionIds := by
  rw [effectiveRequest]
  split
  · exact ⟨rfl, rfl, rfl, rfl⟩
  · exact ⟨rfl, rfl, rfl, rfl⟩

theorem Anchored.results_eq_page (h : Anchored view request claims anchor) :
    (traverseArchive collation view claims request).results =
      Walking.page (inOrder collation request.direction) request.limit
        (found view (effectiveRequest claims request)) anchor ∧
    (traverseArchive collation view claims request).truncated =
      (gather view (effectiveRequest claims request).scanLimit
        (referencePrefixes (effectiveRequest claims request)) ⟨[], false⟩).truncated := by
  obtain ⟨hdirection, hlimit, hproject, hsessions⟩ := effectiveRequest_fields claims request
  obtain ⟨hid, hversion⟩ := view.manifest_of h.document
  have hself : view.document anchor.documentId anchor.version = some anchor := by
    rw [hid, hversion]
    exact h.document
  have hcollected : collectCandidates collation view claims (effectiveRequest claims request) =
      { candidates := Walking.page (inOrder collation request.direction) request.limit
          (found view (effectiveRequest claims request)) anchor
        scanned := (gather view (effectiveRequest claims request).scanLimit
          (referencePrefixes (effectiveRequest claims request)) ⟨[], false⟩).references.length
        truncated := (gather view (effectiveRequest claims request).scanLimit
          (referencePrefixes (effectiveRequest claims request)) ⟨[], false⟩).truncated
        hasMore := (gather view (effectiveRequest claims request).scanLimit
          (referencePrefixes (effectiveRequest claims request)) ⟨[], false⟩).truncated ||
            request.limit < (Walking.beyond (inOrder collation request.direction) anchor
              (found view (effectiveRequest claims request))).length } := by
    rw [collectCandidates, h.document]
    dsimp only
    rw [hproject, if_neg (not_not.mpr h.project), hsessions,
      if_neg fun hnot => hnot.2 (h.session hnot.1), candidates_eq_beyond _ hself, hdirection,
      hlimit]
    rfl
  refine ⟨?_, ?_⟩
  · rw [traverseArchive, hcollected]
    refine List.filter_eq_self.mpr fun manifest hmanifest => ?_
    have hmem := (Walking.mem_beyond.mp ((List.mem_mergeSort).mp
      (List.mem_of_mem_take hmanifest))).1
    obtain ⟨reference, -, hlive⟩ := List.mem_filterMap.mp hmem
    rw [(liveDocument_eq_some.mp hlive).2.2.2]
    rfl
  · rw [traverseArchive, hcollected]

theorem Anchored.result (h : Anchored view request claims anchor)
    (hmem : manifest ∈ (traverseArchive collation view claims request).results) :
    effectiveRequest (resultClaims claims request manifest) request =
        effectiveRequest claims request ∧
      Anchored view request (resultClaims claims request manifest) manifest := by
  obtain ⟨-, -, hproject, hsessions⟩ := effectiveRequest_fields claims request
  rw [h.results_eq_page.1] at hmem
  have hfound := (Walking.mem_beyond.mp (List.mem_mergeSort.mp (List.mem_of_mem_take hmem))).1
  obtain ⟨reference, -, hlive⟩ := List.mem_filterMap.mp hfound
  obtain ⟨hdocument, hsame, hsession, -⟩ := liveDocument_eq_some.mp hlive
  obtain ⟨hid, hversion⟩ := view.manifest_of hdocument
  have heffective : effectiveRequest (resultClaims claims request manifest) request =
      effectiveRequest claims request := by
    by_cases hclaims : claims.scope = .session
    · simp [effectiveRequest, resultClaims, hclaims]
    · by_cases hrequest : request.scope = .session
      · simp only [effectiveRequest, resultClaims, hclaims, if_false, hrequest, if_true]
        rw [← hrequest]
      · simp [effectiveRequest, resultClaims, hclaims, hrequest]
  refine ⟨heffective, ?_, hproject ▸ hsame, ?_⟩
  · rw [resultClaims, hid, hversion]
    exact hdocument
  · rw [heffective, ← hsessions]
    exact hsession

theorem Anchored.walk_eq (h : Anchored view request claims anchor) (fuel : Nat) :
    walk collation view request fuel claims =
      Walking.walk (inOrder collation request.direction) request.limit
        (found view (effectiveRequest claims request)) fuel anchor := by
  induction fuel generalizing claims anchor with
  | zero => rfl
  | succ fuel ih =>
    have hpage := (@Anchored.results_eq_page collation _ _ _ _ h).1
    rw [walk, Walking.walk, hpage]
    cases hlast : (Walking.page (inOrder collation request.direction) request.limit
        (found view (effectiveRequest claims request)) anchor).getLast? with
    | none => rfl
    | some last =>
      have hmem : last ∈ (traverseArchive collation view claims request).results := by
        rw [hpage]
        exact List.mem_of_getLast? hlast
      obtain ⟨heffective, hnext⟩ := h.result hmem
      dsimp only
      rw [ih hnext, heffective]

theorem nodup_timeline (view : View) (request : Request) : (timeline view request).Nodup := by
  have hkeys := view.distinct
  rw [List.Nodup, List.pairwise_map] at hkeys
  refine hkeys.filterMap _ fun reference other hne manifest hmanifest manifest' hmanifest' heq => ?_
  obtain ⟨hid, hversion⟩ := view.manifest_of (liveDocument_eq_some.mp hmanifest).1
  obtain ⟨hid', hversion'⟩ := view.manifest_of (liveDocument_eq_some.mp hmanifest').1
  refine hne (Prod.ext ?_ ?_)
  · rw [← hid, ← hid', heq]
  · rw [← hversion, ← hversion', heq]

theorem nearest_page (request : Request) {items side : List Manifest}
    (hside : (Walking.beyond (inOrder collation request.direction) anchor items).Perm side) :
    Nearest collation request side
      (Walking.page (inOrder collation request.direction) request.limit items anchor) := by
  have hcut := Walking.cut_page (order_inOrder collation request.direction) request.limit items
    anchor
  refine ⟨?_, hcut.sorted, _, hside.symm.trans hcut.perm, hcut.nearest⟩
  rw [Walking.page, List.length_take, List.length_mergeSort, hside.length_eq]

/-- The walk ends, and it comes by all documents of the side just where no page ends between two
that compare equal. -/
theorem Anchored.walk_perm_iff (h : Anchored view request claims anchor)
    (hside : (Walking.beyond (inOrder collation request.direction) anchor
      (found view (effectiveRequest claims request))).Perm
      (Walking.beyond (inOrder collation request.direction) anchor
        (timeline view (effectiveRequest claims request)))) :
    ∃ visited, walk collation view request
        ((Walking.beyond (inOrder collation request.direction) anchor
          (timeline view (effectiveRequest claims request))).length + 1) claims = some visited ∧
      (visited.Perm (Walking.beyond (inOrder collation request.direction) anchor
          (timeline view (effectiveRequest claims request))) ↔
        Walking.Aligned (inOrder collation request.direction) request.limit
          (Walking.beyond (inOrder collation request.direction) anchor
            (timeline view (effectiveRequest claims request)))) := by
  obtain ⟨visited, hwalk, -, hiff⟩ := Walking.walk_perm_iff
    (order_inOrder collation request.direction) request.positive
    (found view (effectiveRequest claims request)) (Nat.lt_succ_self
      (Walking.beyond (inOrder collation request.direction) anchor
        (found view (effectiveRequest claims request))).length)
  rw [hside.length_eq, ← h.walk_eq] at hwalk
  refine ⟨visited, hwalk, ?_⟩
  rw [← Walking.Aligned.perm hside, ← hiff]
  exact ⟨fun hperm => hperm.trans hside.symm, fun hperm => hperm.trans hside⟩

theorem Anchored.found_perm (h : Anchored view request claims anchor)
    (hwhole : (traverseArchive collation view claims request).truncated = false) :
    (Walking.beyond (inOrder collation request.direction) anchor
      (found view (effectiveRequest claims request))).Perm
      (Walking.beyond (inOrder collation request.direction) anchor
        (timeline view (effectiveRequest claims request))) :=
  (gathered_perm_timeline (h.results_eq_page.2.symm.trans hwhole)).filter _

/-- A traversal that is not truncated has the nearest documents of its side, and the walk comes by
all of them, each once, just where no page ends between two that compare equal. -/
theorem traversal_complete_iff (collation : Collation) (h : Anchored view request claims anchor)
    (hwhole : (traverseArchive collation view claims request).truncated = false) :
    (Nearest collation request
        (Walking.beyond (inOrder collation request.direction) anchor
          (timeline view (effectiveRequest claims request)))
        (traverseArchive collation view claims request).results ∧
      ∃ visited, walk collation view request
          ((Walking.beyond (inOrder collation request.direction) anchor
            (timeline view (effectiveRequest claims request))).length + 1) claims =
          some visited ∧ visited.Nodup ∧
        visited.Perm (Walking.beyond (inOrder collation request.direction) anchor
          (timeline view (effectiveRequest claims request)))) ↔
    Walking.Aligned (inOrder collation request.direction) request.limit
      (Walking.beyond (inOrder collation request.direction) anchor
        (timeline view (effectiveRequest claims request))) := by
  have hside := h.found_perm hwhole
  have hnodup : (Walking.beyond (inOrder collation request.direction) anchor
      (timeline view (effectiveRequest claims request))).Nodup :=
    (nodup_timeline view _).filter _
  obtain ⟨visited, hwalk, hiff⟩ := h.walk_perm_iff hside
  rw [hwalk, h.results_eq_page.1, ← hiff]
  constructor
  · rintro ⟨-, visited', hvisited, -, hperm⟩
    cases hvisited
    exact hperm
  · intro hperm
    exact ⟨nearest_page request hside, visited, rfl, hperm.nodup_iff.mpr hnodup, hperm⟩

end Timeline

/-! ## Names that compare equal -/

/-- The letter é is told from no other spelling of it. -/
def unaccented (t : Text) : List Nat :=
  t.flatMap fun u => if u = 0xe9 then [0x65, 0x301] else [u.toNat]

def plainCollation : Collation where
  localeCompare := fun a b =>
    if unaccented a < unaccented b then -1 else if unaccented b < unaccented a then 1 else 0
  swap := by
    intro a b
    rcases lt_trichotomy (unaccented a) (unaccented b) with hlt | heq | hgt
    · simp [hlt, hlt.not_gt]
    · simp [heq]
    · simp [hgt, hgt.not_gt]
  trans := by
    have hle : ∀ a b : Text, ((if unaccented a < unaccented b then -1
        else if unaccented b < unaccented a then 1 else 0 : Int) ≤ 0) ↔
        unaccented a ≤ unaccented b := by
      intro a b
      rcases lt_trichotomy (unaccented a) (unaccented b) with hlt | heq | hgt
      · simp [hlt, hlt.le]
      · simp [heq]
      · simp [hgt, hgt.not_gt]
    intro a b c hab hbc
    rw [hle] at *
    exact hab.trans hbc

/-- Three documents of a session; the last two are told apart by their spelling only. -/
def sampleDocuments : List Manifest :=
  [⟨[0x61], 1, [0x70], [0x73], 0⟩, ⟨[0x65, 0x301], 1, [0x70], [0x73], 1⟩,
    ⟨[0xe9], 1, [0x70], [0x73], 1⟩]

def sampleView : View where
  references := sampleDocuments.map fun manifest =>
    ⟨manifest.project, manifest.sessionId, manifest.documentId, manifest.version⟩
  document := fun documentId version => sampleDocuments.find? fun manifest =>
    manifest.documentId = documentId ∧ manifest.version = version
  retired := fun _ _ => false
  distinct := by decide
  manifest_of := by
    intro documentId version manifest h
    simpa using List.find?_some h
  reference_of := by decide

def sampleRequest (limit : Nat) (hlimit : 0 < limit) : Request where
  direction := .after
  scope := .session
  sessionIds := [[0x73]]
  project := [0x70]
  limit := limit
  scanLimit := 2048
  distinct := by decide
  positive := hlimit

def sampleClaims : AnchorClaims := ⟨[0x61], 1, .session⟩

def sampleAnchor : Manifest := ⟨[0x61], 1, [0x70], [0x73], 0⟩

theorem sampleAnchored (limit : Nat) (hlimit : 0 < limit) :
    Anchored sampleView (sampleRequest limit hlimit) sampleClaims sampleAnchor where
  document := by decide
  project := rfl
  session := by
    intro _
    exact List.mem_singleton.mpr rfl

theorem effective_sample (limit : Nat) (hlimit : 0 < limit) :
    (gather sampleView (effectiveRequest sampleClaims (sampleRequest limit hlimit)).scanLimit
      (referencePrefixes (effectiveRequest sampleClaims (sampleRequest limit hlimit)))
      ⟨[], false⟩).truncated =
    (gather sampleView 2048 (referencePrefixes (sampleRequest 1 (by decide)))
      ⟨[], false⟩).truncated :=
  rfl

theorem sample_whole (limit : Nat) (hlimit : 0 < limit) :
    (traverseArchive plainCollation sampleView sampleClaims
      (sampleRequest limit hlimit)).truncated = false := by
  rw [(sampleAnchored limit hlimit).results_eq_page.2, effective_sample]
  decide

theorem traversal_complete_iff_sample : (Nearest plainCollation (sampleRequest 2 (by decide))
        (Walking.beyond (inOrder plainCollation .after) sampleAnchor
          (timeline sampleView (effectiveRequest sampleClaims (sampleRequest 2 (by decide)))))
        (traverseArchive plainCollation sampleView sampleClaims
          (sampleRequest 2 (by decide))).results ∧
      ∃ visited, walk plainCollation sampleView (sampleRequest 2 (by decide))
          ((Walking.beyond (inOrder plainCollation .after) sampleAnchor
            (timeline sampleView (effectiveRequest sampleClaims
              (sampleRequest 2 (by decide))))).length + 1) sampleClaims = some visited ∧
        visited.Nodup ∧ visited.Perm (Walking.beyond (inOrder plainCollation .after) sampleAnchor
          (timeline sampleView (effectiveRequest sampleClaims (sampleRequest 2 (by decide)))))) ↔
    Walking.Aligned (inOrder plainCollation .after) 2
      (Walking.beyond (inOrder plainCollation .after) sampleAnchor
        (timeline sampleView (effectiveRequest sampleClaims (sampleRequest 2 (by decide))))) :=
  traversal_complete_iff plainCollation (sampleAnchored 2 (by decide)) (sample_whole 2 (by decide))

/-- With pages of one document, the walk comes by only one of the two documents behind the first. -/
theorem equal_names_skipped :
    (traverseArchive plainCollation sampleView sampleClaims
        (sampleRequest 1 (by decide))).truncated = false ∧
      ¬ ∃ visited, walk plainCollation sampleView (sampleRequest 1 (by decide))
          ((Walking.beyond (inOrder plainCollation .after) sampleAnchor
            (timeline sampleView (effectiveRequest sampleClaims
              (sampleRequest 1 (by decide))))).length + 1) sampleClaims = some visited ∧
        visited.Nodup ∧ visited.Perm (Walking.beyond (inOrder plainCollation .after) sampleAnchor
          (timeline sampleView (effectiveRequest sampleClaims (sampleRequest 1 (by decide))))) := by
  have hwhole := sample_whole 1 (by decide)
  have hanchored := sampleAnchored 1 (by decide)
  refine ⟨hwhole, ?_⟩
  rintro ⟨visited, hvisited, -, hperm⟩
  obtain ⟨visited', hwalk, hiff⟩ := hanchored.walk_perm_iff (hanchored.found_perm hwhole)
  cases hvisited.symm.trans hwalk
  have haligned := hiff.mp hperm
  revert haligned
  unfold Walking.Aligned
  decide

end ContextStore.Traverse
