import ContextStore.Session.Window

/-! # What tool results leave in the window

A tool result over the gate that applies to it goes to the archive, and a preview of it stays. The
preview is cut until it fits the gate with its marker, and what stays of every result counts towards
the budget that lowers the gate for the ones after it. What a result carries beside its text stays
as well and is rendered behind the preview, without being counted. -/

namespace ContextStore.Session

open Unicode Archive Effects

variable (S : Setting) (A : Analysis) (config : Config) (gate : ResultGate) {ε σ : Type}

/-! ## What the whole pass does -/

/-- The messages as `externalizeLargeToolResults` leaves them, each with what it admits of it. -/
def replaceResultsFrom (store : Message → Text → Effect ε σ (Option Text)) :
    Nat → Nat → List Message → Effect ε σ (List Replaced)
  | _, _, [] => return []
  | index, admittedChars, message :: rest => do
    let replaced ← externalizeResult S A gate store index admittedChars message
    let others ← replaceResultsFrom store (index + 1) (admittedChars + replaced.admittedChars) rest
    return replaced :: others

def returned (replaced : List Replaced) : Externalized where
  messages := replaced.map (·.message)
  archiveIds := replaced.flatMap (·.archiveIds)

def admittedChars (replaced : List Replaced) : Nat := (replaced.map (·.admittedChars)).sum

def admittedTokens (replaced : List Replaced) : Nat := (admittedChars replaced + 3) / 4

/-- The characters of one message that `measureToolResultTokens` counts. -/
def toolResultLength (message : Message) : Nat :=
  if message.isToolResult then (contentToText S message.content).length else 0

def toolResultChars (messages : List Message) : Nat :=
  (messages.map (toolResultLength S)).sum

def measureToolResultTokens (messages : List Message) : Nat := (toolResultChars S messages + 3) / 4

/-- The two ways to write the pass agree. -/
theorem externalizeResultsFrom_run (store : Message → Text → Effect ε σ (Option Text))
    (messages : List Message) : ∀ (index admitted : Nat) (s t : σ) (replaced : List Replaced),
      (replaceResultsFrom S A gate store index admitted messages).run s = (.ok replaced, t) →
        (externalizeResultsFrom S A gate store index admitted messages).run s =
          (.ok (returned replaced), t) := by
  induction messages with
  | nil =>
    intro index admitted s t replaced h
    cases h
    rfl
  | cons message rest ih =>
    intro index admitted s t replaced h
    rw [replaceResultsFrom, Effect.bind_eq_ok] at h
    obtain ⟨first, u, hfirst, h⟩ := h
    rw [Effect.bind_eq_ok] at h
    obtain ⟨others, v, hothers, h⟩ := h
    cases h
    rw [externalizeResultsFrom, Effect.bind_of_ok hfirst, Effect.bind_of_ok (ih _ _ _ _ _ hothers)]
    rfl

/-! ## A store that confirms every result -/

/-- The store returns the id of every result; `archived` is what it was handed so far. -/
structure Confirms (store : Message → Text → Effect ε σ (Option Text))
    (archived : σ → List (Text × Text)) : Prop where
  returns : ∀ message value s,
    ((store message value).run s).1 = .ok (some (toolResultId S config message value))
  keeps : ∀ message value s, archived ((store message value).run s).2 =
    archived s ++ [(toolResultId S config message value, value)]

/-- The result is not kept whole. -/
def IsOver (index admitted : Nat) (message : Message) : Prop :=
  message.isToolResult = true ∧ index ∉ gate.protectedMessageIndexes ∧
    gate.effectiveMaxChars index admitted < (contentToText S message.content).length

instance decidableIsOver (index admitted : Nat) (message : Message) :
    Decidable (IsOver S gate index admitted message) := by
  unfold IsOver
  infer_instance

def previewOf (index admitted : Nat) (message : Message) : Text :=
  let value := contentToText S message.content
  fittingPreview A value (toolResultId S config message value)
    (gate.effectiveMaxChars index admitted) gate.previewChars

/-- What becomes of one message once its result is archived. -/
def replaceResult (index admitted : Nat) (message : Message) : Replaced :=
  if IsOver S gate index admitted message then
    { message := withText message (previewOf S A config gate index admitted message)
      archiveIds := [toolResultId S config message (contentToText S message.content)]
      admittedChars := (previewOf S A config gate index admitted message).length }
  else { message, admittedChars := toolResultLength S message }

def replaceResults : Nat → Nat → List Message → List Replaced
  | _, _, [] => []
  | index, admitted, message :: rest =>
    let replaced := replaceResult S A config gate index admitted message
    replaced :: replaceResults (index + 1) (admitted + replaced.admittedChars) rest

def archivedResults : Nat → Nat → List Message → List (Text × Text)
  | _, _, [] => []
  | index, admitted, message :: rest =>
    let value := contentToText S message.content
    (if IsOver S gate index admitted message then [(toolResultId S config message value, value)]
      else []) ++
    archivedResults (index + 1)
      (admitted + (replaceResult S A config gate index admitted message).admittedChars) rest

theorem confirmed_toolResultId (message : Message) (value : Text) :
    confirmed (some (toolResultId S config message value)) =
      some (toolResultId S config message value) := by
  have hne : toolResultId S config message value ≠ [] := by
    rw [toolResultId]
    exact List.append_ne_nil_of_left_ne_nil (by decide) _
  simp [confirmed, hne]

section Run

variable {S A config gate}
variable {store : Message → Text → Effect ε σ (Option Text)} {archived : σ → List (Text × Text)}

theorem Confirms.externalizeResult_run (h : Confirms S config store archived)
    (index admitted : Nat) (message : Message) (s : σ) :
    ∃ t, (externalizeResult S A gate store index admitted message).run s =
        (.ok (replaceResult S A config gate index admitted message), t) ∧
      archived t = archived s ++
        if IsOver S gate index admitted message then
          [(toolResultId S config message (contentToText S message.content),
            contentToText S message.content)]
        else [] := by
  rw [externalizeResult, replaceResult]
  by_cases hresult : message.isToolResult = false
  · have hover : ¬ IsOver S gate index admitted message := by
      intro hover
      rw [hover.1] at hresult
      cases hresult
    rw [if_pos hresult, if_neg hover, if_neg hover]
    refine ⟨s, ?_, (List.append_nil _).symm⟩
    simp [toolResultLength, hresult]
  · have hresult' : message.isToolResult = true := by simpa using hresult
    rw [if_neg hresult]
    by_cases hkept : index ∈ gate.protectedMessageIndexes ∨
        (contentToText S message.content).length ≤ gate.effectiveMaxChars index admitted
    · have hover : ¬ IsOver S gate index admitted message := by
        intro hover
        rcases hkept with hprotected | hfits
        · exact hover.2.1 hprotected
        · exact absurd hover.2.2 (Nat.not_lt.mpr hfits)
      rw [if_pos hkept, if_neg hover, if_neg hover]
      refine ⟨s, ?_, (List.append_nil _).symm⟩
      simp [toolResultLength, hresult']
    · have hover : IsOver S gate index admitted message := by
        rw [not_or] at hkept
        exact ⟨hresult', hkept.1, Nat.lt_of_not_le hkept.2⟩
      rw [if_neg hkept, if_pos hover, if_pos hover]
      refine ⟨((store message (contentToText S message.content)).run s).2, ?_, h.keeps _ _ _⟩
      rw [Effect.bind_of_ok (Prod.ext (h.returns _ _ s) rfl), confirmed_toolResultId]
      rfl

theorem Confirms.replaceResultsFrom_run (h : Confirms S config store archived)
    (messages : List Message) : ∀ (index admitted : Nat) (s : σ),
      ∃ t, (replaceResultsFrom S A gate store index admitted messages).run s =
          (.ok (replaceResults S A config gate index admitted messages), t) ∧
        archived t = archived s ++ archivedResults S A config gate index admitted messages := by
  induction messages with
  | nil =>
    intro index admitted s
    exact ⟨s, rfl, (List.append_nil _).symm⟩
  | cons message rest ih =>
    intro index admitted s
    obtain ⟨t, hfirst, harchived⟩ :=
      @Confirms.externalizeResult_run S A config gate _ _ _ _ h index admitted message s
    obtain ⟨u, hrest, hothers⟩ := ih (index + 1)
      (admitted + (replaceResult S A config gate index admitted message).admittedChars) t
    refine ⟨u, ?_, ?_⟩
    · rw [replaceResultsFrom, Effect.bind_of_ok hfirst, Effect.bind_of_ok hrest]
      rfl
    · rw [hothers, harchived, archivedResults, List.append_assoc]

end Run

/-! ## The loop over the preview -/

section Preview

variable {A gate}

/-- The loop is left with a preview that fits, or with none at all. -/
theorem exists_fitPreview (value id : Text) (limit fuel retained : Nat) (h : retained ≤ fuel) :
    ∃ left, fitPreview A value id limit fuel retained = resultPreview A value id left ∧
      ((resultPreview A value id left).length ≤ limit ∨ left = 0) := by
  induction fuel generalizing retained with
  | zero =>
    have hzero : retained = 0 := by omega
    exact ⟨retained, rfl, Or.inr hzero⟩
  | succ fuel ih =>
    rw [fitPreview]
    split
    · next hdone => exact ⟨retained, rfl, hdone⟩
    · next hover =>
      apply ih
      have hpositive : retained ≠ 0 := fun hzero => hover (Or.inr hzero)
      omega

theorem length_decimal {n d : Nat} (h : n < 10 ^ d) (hd : 0 < d) : (Json.decimal n).length ≤ d := by
  rw [Json.decimal]
  split
  · exact hd
  · rw [List.length_reverse, List.length_map]
    exact (Nat.digits_length_le_iff (by omega) n).mpr h

/-- Nothing of the result stays when nothing is retained. -/
structure Analysis.KeepsNothing (A : Analysis) : Prop where
  head : A.headChars 0 = 0
  tail : A.tailChars 0 = 0

/-- A string has fewer than `2 ^ 53` units. -/
theorem length_resultPreview_zero (hA : A.KeepsNothing) {value : Text}
    (h : value.length < 2 ^ 53) (message : Message) :
    (resultPreview A value (toolResultId S config message value) 0).length ≤ 128 := by
  have hdigits : (Json.decimal value.length).length ≤ 16 :=
    length_decimal (lt_of_lt_of_le h (by decide)) (by decide)
  have hdigest : (shortDigest S (config.sessionId ++ [0] ++ message.toolCallId.getD [] ++ [0] ++
      value)).length ≤ 16 := List.length_take_le _ _
  have hopening : (text "\n\n[… ").length = 5 := by decide
  have harchived : (text " characters archived as ").length = 24 := by decide
  have hclosing : (text "; use context_recall …]\n\n").length = 25 := by decide
  have hkind : (text "tool-").length = 5 := by decide
  have homitted : ((value.length : Int) - (([] : Text).length : Int) - (([] : Text).length : Int)) =
      value.length := by simp
  rw [resultPreview, hA.head, hA.tail]
  simp only [List.take_zero, Nat.lt_irrefl, if_false]
  rw [homitted, archivedMarker, Json.ofInt, if_neg (by omega), Int.natAbs_natCast, toolResultId]
  simp only [List.length_append, List.length_nil, hopening, harchived, hclosing, hkind]
  omega

theorem length_fittingPreview (hA : A.KeepsNothing) {value : Text} (h : value.length < 2 ^ 53)
    {limit : Nat} (hlimit : 128 ≤ limit) (message : Message) (previewChars : Nat) :
    (fittingPreview A value (toolResultId S config message value) limit previewChars).length ≤
      limit := by
  obtain ⟨left, hleft, hfits⟩ := @exists_fitPreview A value (toolResultId S config message value)
    limit (min previewChars limit) (min previewChars limit) (Nat.le_refl _)
  rw [fittingPreview, hleft]
  rcases hfits with hfits | hzero
  · exact hfits
  · rw [hzero]
    exact (length_resultPreview_zero S config hA h message).trans hlimit

/-- The gates of a resolved policy leave room for the marker. -/
theorem effectiveMaxChars_resolved (rotationTokens : Nat) (through : Option Nat)
    (protectedIndexes : List Nat) (index admitted : Nat) :
    128 ≤ (resultGate (resolveToolResultBudget A config rotationTokens) through
      protectedIndexes).effectiveMaxChars index admitted := by
  have hbase : 32 ≤ max 32 (positiveOr config.maxToolResultTokens 4000) := Nat.le_max_left _ _
  have hfloor : 32 ≤ max 32 (positiveOr config.toolResultBudgetFloorTokens 1000) :=
    Nat.le_max_left _ _
  rw [ResultGate.effectiveMaxChars]
  split
  · simp only [ResultGate.floorChars, ResultGate.maxChars, resultGate, resolveToolResultBudget,
      MIN_TOOL_RESULT_ARCHIVE_REFERENCE_TOKENS]
    omega
  · simp only [ResultGate.maxChars, resultGate, resolveToolResultBudget,
      MIN_TOOL_RESULT_ARCHIVE_REFERENCE_TOKENS]
    omega

theorem resultPreview_ne_nil (value id : Text) (retained : Nat) :
    resultPreview A value id retained ≠ [] := by
  rw [resultPreview, archivedMarker]
  have hopening : text "\n\n[… " ≠ [] := by decide
  simp [hopening]

theorem previewOf_ne_nil (index admitted : Nat) (message : Message) :
    previewOf S A config gate index admitted message ≠ [] := by
  obtain ⟨left, hleft, -⟩ := @exists_fitPreview A (contentToText S message.content)
    (toolResultId S config message (contentToText S message.content))
    (gate.effectiveMaxChars index admitted) _ _ (Nat.le_refl _)
  rw [previewOf, fittingPreview, hleft]
  exact resultPreview_ne_nil _ _ _

end Preview

/-! ## What stays beside the text -/

/-- What is rendered behind the preview of a replaced result. -/
def accompaniment (content : Json) : Text :=
  match content with
  | .array parts => (((parts.filter fun part =>
    textField part (text "type") ≠ some (text "text")).map
      (partToText (nonTextContentMarker S))).filter (· ≠ [])).flatMap fun rendered =>
        0x0a :: rendered
  | _ => []

/-- No part beside the text parts is rendered. -/
def TextOnly (content : Json) : Prop :=
  ∀ parts, content = .array parts → ∀ part ∈ parts,
    textField part (text "type") ≠ some (text "text") →
      partToText (nonTextContentMarker S) part = []

theorem accompaniment_eq_nil_iff (content : Json) :
    accompaniment S content = [] ↔ TextOnly S content := by
  cases content with
  | array parts =>
    simp only [accompaniment, List.flatMap_eq_nil_iff, List.mem_filter, List.mem_map, TextOnly,
      Json.array.injEq]
    constructor
    · intro h parts' hparts part hpart htype
      subst hparts
      refine Decidable.byContradiction fun hrendered => ?_
      have hnone := h _ ⟨⟨part, ⟨hpart, by simpa using htype⟩, rfl⟩, by simpa using hrendered⟩
      cases hnone
    · intro h rendered hrendered
      obtain ⟨⟨part, ⟨hpart, htype⟩, rfl⟩, hne⟩ := hrendered
      rw [h parts rfl part hpart (by simpa using htype)] at hne
      simp at hne
  | _ => simp [accompaniment, TextOnly]

theorem contentToText_replaceTextContent (content : Json) {replacement : Text}
    (h : replacement ≠ []) :
    contentToText S (replaceTextContent content replacement) =
      replacement ++ accompaniment S content := by
  cases content with
  | array parts =>
    have hpart : partToText (nonTextContentMarker S) (textPart replacement) = replacement := rfl
    simp only [replaceTextContent, contentToText, textOfContent, List.map_cons, hpart]
    rw [List.filter_cons_of_pos (by simpa using h), join_cons, accompaniment]
  | _ => simp [replaceTextContent, contentToText, textOfContent, accompaniment]

/-- What the window holds of a message, and what the pass counts of it. -/
theorem toolResultLength_replaceResult (index admitted : Nat) (message : Message) :
    toolResultLength S (replaceResult S A config gate index admitted message).message =
      (replaceResult S A config gate index admitted message).admittedChars +
        if IsOver S gate index admitted message then (accompaniment S message.content).length
        else 0 := by
  rw [replaceResult]
  by_cases hover : IsOver S gate index admitted message
  · rw [if_pos hover, if_pos hover]
    have hresult : (withText message
        (previewOf S A config gate index admitted message)).isToolResult = true := hover.1
    dsimp only
    rw [toolResultLength, if_pos hresult, withText, contentToText_replaceTextContent S _
      (previewOf_ne_nil S config index admitted message), List.length_append]
  · rw [if_neg hover, if_neg hover]
    rfl

/-! ## What is promised of a pass -/

/-- The same message but for its content, and the same one where it is no tool result. -/
def SameCall (message left : Message) : Prop :=
  left = { message with content := left.content } ∧ (message.isToolResult = false → left = message)

/-- A pass over the messages from `s` that ends in `t` and leaves `replaced`. -/
structure Promised (store : Message → Text → Effect ε σ (Option Text))
    (archived : σ → List (Text × Text)) (messages : List Message) (s t : σ)
    (replaced : List Replaced) : Prop where
  terminates : ∀ value id limit, ∃ left,
    fittingPreview A value id limit gate.previewChars = resultPreview A value id left ∧
      ((resultPreview A value id left).length ≤ limit ∨ left = 0)
  kept : List.Forall₂ SameCall messages (returned replaced).messages
  forward : ∀ n, ∃ u, (replaceResultsFrom S A gate store 0 0 (messages.take n)).run s =
    (.ok (replaced.take n), u)
  bounded : ∀ before left after, replaced = before ++ left :: after →
    left.message.isToolResult = true → before.length ∉ gate.protectedMessageIndexes →
      (contentToText S left.message.content).length ≤
        gate.effectiveMaxChars before.length (admittedChars before)
  exact : ∃ originals : List Message, originals.Sublist messages ∧
    (returned replaced).archiveIds = originals.map (fun message =>
      toolResultId S config message (contentToText S message.content)) ∧
    archived t = archived s ++ originals.map fun message =>
      (toolResultId S config message (contentToText S message.content),
        contentToText S message.content)
  counted : admittedChars replaced = toolResultChars S (returned replaced).messages

/-- No result over its gate is rendered with more than its text; the gate follows what the pass
admitted of the messages before. -/
def TextOnlyOver (messages : List Message) : Prop :=
  ∀ before message after, messages = before ++ message :: after → IsOver S gate before.length
      (admittedChars (replaceResults S A config gate 0 0 before)) message →
    TextOnly S message.content

section Pass

theorem admittedChars_cons (first : Replaced) (rest : List Replaced) :
    admittedChars (first :: rest) = first.admittedChars + admittedChars rest := by
  simp [admittedChars]

theorem replaceResults_append (before after : List Message) : ∀ index admitted,
    replaceResults S A config gate index admitted (before ++ after) =
      replaceResults S A config gate index admitted before ++
        replaceResults S A config gate (index + before.length)
          (admitted + admittedChars (replaceResults S A config gate index admitted before))
          after := by
  induction before with
  | nil =>
    intro index admitted
    simp [replaceResults, admittedChars]
  | cons message before ih =>
    intro index admitted
    simp only [List.cons_append, replaceResults, ih, admittedChars_cons, List.length_cons]
    congr 3
    · omega
    · omega

theorem length_replaceResults (messages : List Message) : ∀ index admitted,
    (replaceResults S A config gate index admitted messages).length = messages.length := by
  induction messages with
  | nil =>
    intro index admitted
    rfl
  | cons message rest ih =>
    intro index admitted
    rw [replaceResults, List.length_cons, ih, List.length_cons]

theorem take_replaceResults (messages : List Message) (n : Nat) :
    replaceResults S A config gate 0 0 (messages.take n) =
      (replaceResults S A config gate 0 0 messages).take n := by
  have hsplit := replaceResults_append S A config gate (messages.take n) (messages.drop n) 0 0
  rw [List.take_append_drop] at hsplit
  rw [hsplit, List.take_append, length_replaceResults]
  have hshort : (replaceResults S A config gate 0 0 (messages.take n)).length ≤ n := by
    rw [length_replaceResults]
    exact List.length_take_le _ _
  rw [List.take_of_length_le hshort]
  by_cases hn : n ≤ messages.length
  · rw [List.length_take, Nat.min_eq_left hn, Nat.sub_self, List.take_zero, List.append_nil]
  · rw [List.drop_eq_nil_of_le (by omega), replaceResults, List.take_nil, List.append_nil]

theorem sameCall_replaceResult (index admitted : Nat) (message : Message) :
    SameCall message (replaceResult S A config gate index admitted message).message := by
  rw [replaceResult]
  split
  · next hover =>
    refine ⟨rfl, fun hnot => ?_⟩
    rw [hover.1] at hnot
    cases hnot
  · exact ⟨rfl, fun _ => rfl⟩

theorem sameCall_replaceResults (messages : List Message) : ∀ index admitted,
    List.Forall₂ SameCall messages
      (returned (replaceResults S A config gate index admitted messages)).messages := by
  induction messages with
  | nil =>
    intro index admitted
    exact .nil
  | cons message rest ih =>
    intro index admitted
    exact .cons (sameCall_replaceResult S A config gate index admitted message) (ih _ _)

/-- What goes to the archive, and under which ids. -/
theorem exists_originals (messages : List Message) : ∀ index admitted,
    ∃ originals : List Message, originals.Sublist messages ∧
      (returned (replaceResults S A config gate index admitted messages)).archiveIds =
        originals.map (fun message =>
          toolResultId S config message (contentToText S message.content)) ∧
      archivedResults S A config gate index admitted messages = originals.map fun message =>
        (toolResultId S config message (contentToText S message.content),
          contentToText S message.content) := by
  induction messages with
  | nil =>
    intro index admitted
    exact ⟨[], .slnil, rfl, rfl⟩
  | cons message rest ih =>
    intro index admitted
    obtain ⟨originals, hsublist, hids, harchived⟩ := ih (index + 1)
      (admitted + (replaceResult S A config gate index admitted message).admittedChars)
    have hcons : (returned (replaceResults S A config gate index admitted
        (message :: rest))).archiveIds =
        (replaceResult S A config gate index admitted message).archiveIds ++
          originals.map (fun message =>
            toolResultId S config message (contentToText S message.content)) := by
      rw [← hids]
      rfl
    rw [hcons, archivedResults, harchived, replaceResult]
    by_cases hover : IsOver S gate index admitted message
    · refine ⟨message :: originals, hsublist.cons_cons _, ?_, ?_⟩
      · rw [if_pos hover]
        rfl
      · rw [if_pos hover]
        rfl
    · refine ⟨originals, hsublist.cons _, ?_, ?_⟩
      · rw [if_neg hover]
        rfl
      · rw [if_neg hover]
        rfl

/-- The parts that are rendered but not counted, over all messages. -/
def uncounted : Nat → Nat → List Message → Nat
  | _, _, [] => 0
  | index, admitted, message :: rest =>
    (if IsOver S gate index admitted message then (accompaniment S message.content).length
      else 0) +
    uncounted (index + 1)
      (admitted + (replaceResult S A config gate index admitted message).admittedChars) rest

theorem toolResultChars_replaceResults (messages : List Message) : ∀ index admitted,
    toolResultChars S (returned (replaceResults S A config gate index admitted messages)).messages =
      admittedChars (replaceResults S A config gate index admitted messages) +
        uncounted S A config gate index admitted messages := by
  induction messages with
  | nil =>
    intro index admitted
    rfl
  | cons message rest ih =>
    intro index admitted
    have hrest := ih (index + 1)
      (admitted + (replaceResult S A config gate index admitted message).admittedChars)
    have hfirst := toolResultLength_replaceResult S A config gate index admitted message
    simp only [toolResultChars, returned, replaceResults, List.map_cons, List.sum_cons,
      admittedChars_cons, uncounted] at hrest ⊢
    omega

theorem uncounted_eq_zero_iff (messages : List Message) : ∀ index admitted,
    uncounted S A config gate index admitted messages = 0 ↔
      ∀ before message after, messages = before ++ message :: after →
        IsOver S gate (index + before.length)
          (admitted + admittedChars (replaceResults S A config gate index admitted before))
          message → TextOnly S message.content := by
  induction messages with
  | nil =>
    intro index admitted
    refine iff_of_true rfl ?_
    intro before message after hsplit
    simp at hsplit
  | cons first rest ih =>
    intro index admitted
    rw [uncounted, Nat.add_eq_zero_iff, ih]
    constructor
    · intro h before message after hsplit hover
      cases before with
      | nil =>
        rw [List.nil_append, List.cons.injEq] at hsplit
        rw [← hsplit.1] at hover ⊢
        have hover' : IsOver S gate index admitted first := by simpa [replaceResults,
          admittedChars] using hover
        have hnone := h.1
        rw [if_pos hover', List.length_eq_zero_iff] at hnone
        exact (accompaniment_eq_nil_iff S _).mp hnone
      | cons other before =>
        rw [List.cons_append, List.cons.injEq] at hsplit
        rw [← hsplit.1] at hover
        apply h.2 before message after hsplit.2
        rw [replaceResults, admittedChars_cons, List.length_cons] at hover
        rw [Nat.add_assoc, Nat.add_assoc, Nat.add_comm 1 before.length]
        exact hover
    · intro h
      constructor
      · split
        · next hover =>
          have hfirst := h [] first rest rfl (by
            simpa [replaceResults, admittedChars] using hover)
          rw [(accompaniment_eq_nil_iff S _).mpr hfirst]
          rfl
        · rfl
      · intro before message after hsplit hover
        apply h (first :: before) message after (by rw [hsplit]; rfl)
        rw [replaceResults, admittedChars_cons, List.length_cons]
        rw [Nat.add_assoc, Nat.add_assoc, Nat.add_comm 1 before.length] at hover
        exact hover

/-- What stays of a result is within its gate, if it has no other parts to render. -/
theorem length_replaceResult (hA : A.KeepsNothing) (index admitted : Nat) (message : Message)
    (hgate : 128 ≤ gate.effectiveMaxChars index admitted)
    (hlength : (contentToText S message.content).length < 2 ^ 53)
    (hplain : IsOver S gate index admitted message → TextOnly S message.content)
    (hresult : message.isToolResult = true) (hindex : index ∉ gate.protectedMessageIndexes) :
    (contentToText S
        (replaceResult S A config gate index admitted message).message.content).length ≤
      gate.effectiveMaxChars index admitted := by
  by_cases hover : IsOver S gate index admitted message
  · have hnone := (accompaniment_eq_nil_iff S _).mpr (hplain hover)
    rw [replaceResult, if_pos hover]
    show (contentToText S (replaceTextContent message.content
      (previewOf S A config gate index admitted message))).length ≤ _
    rw [contentToText_replaceTextContent S _ (previewOf_ne_nil S config index admitted message),
      hnone, List.append_nil]
    exact length_fittingPreview S config hA hlength hgate message _
  · rw [replaceResult, if_neg hover]
    exact Nat.le_of_not_lt fun hlong => hover ⟨hresult, hindex, hlong⟩

/-- A replaced message stands where its original did, behind the replacements of those before. -/
theorem exists_split (messages : List Message) {before : List Replaced} {left : Replaced}
    {after : List Replaced}
    (h : replaceResults S A config gate 0 0 messages = before ++ left :: after) :
    ∃ first message rest, messages = first ++ message :: rest ∧ first.length = before.length ∧
      replaceResults S A config gate 0 0 first = before ∧
      left = replaceResult S A config gate before.length (admittedChars before) message := by
  have hlength : messages.length = before.length + (after.length + 1) := by
    rw [← length_replaceResults S A config gate messages 0 0, h, List.length_append,
      List.length_cons]
  have hfirst : replaceResults S A config gate 0 0 (messages.take before.length) = before := by
    rw [take_replaceResults, h, List.take_left]
  have hcount : (messages.take before.length).length = before.length := by
    rw [List.length_take, Nat.min_eq_left (by omega)]
  cases hdrop : messages.drop before.length with
  | nil =>
    have := List.drop_eq_nil_iff.mp hdrop
    omega
  | cons message rest =>
    have hsplit : messages = messages.take before.length ++ message :: rest := by
      rw [← hdrop, List.take_append_drop]
    refine ⟨_, message, rest, hsplit, hcount, hfirst, ?_⟩
    rw [hsplit, replaceResults_append, hfirst, hcount, Nat.zero_add, Nat.zero_add,
      replaceResults, List.append_cancel_left_eq, List.cons.injEq] at h
    exact h.1.symm

end Pass

variable {S A config gate}
variable {store : Message → Text → Effect ε σ (Option Text)} {archived : σ → List (Text × Text)}

/-- Where the count is right, nothing stayed beside the text of a replaced result. -/
theorem Promised.textOnlyOver {messages : List Message} {s t : σ}
    (h : Promised S A config gate store archived messages s t
      (replaceResults S A config gate 0 0 messages)) :
    TextOnlyOver S A config gate messages := by
  have hchars := toolResultChars_replaceResults S A config gate messages 0 0
  have huncounted := uncounted_eq_zero_iff S A config gate messages 0 0
  simp only [Nat.zero_add] at huncounted
  have hcounted := h.counted
  exact huncounted.mp (by omega)

/-- A pass keeps its promises just where no result over its gate is rendered with more than its
text: the rest of what it promises always holds. -/
theorem externalize_promised_iff (hA : A.KeepsNothing) (hstore : Confirms S config store archived)
    (rotationTokens : Nat) (through : Option Nat) (protectedIndexes : List Nat)
    (messages : List Message)
    (hlength : ∀ message ∈ messages, (contentToText S message.content).length < 2 ^ 53) (s : σ) :
    ∃ t replaced,
      (externalizeLargeToolResults S A (resultGate (resolveToolResultBudget A config rotationTokens)
        through protectedIndexes) store messages).run s = (.ok (returned replaced), t) ∧
      (replaceResultsFrom S A (resultGate (resolveToolResultBudget A config rotationTokens)
        through protectedIndexes) store 0 0 messages).run s = (.ok replaced, t) ∧
      (Promised S A config (resultGate (resolveToolResultBudget A config rotationTokens)
          through protectedIndexes) store archived messages s t replaced ↔
        TextOnlyOver S A config (resultGate (resolveToolResultBudget A config rotationTokens)
          through protectedIndexes) messages) := by
  have hgate := @effectiveMaxChars_resolved A config rotationTokens through protectedIndexes
  generalize resultGate (resolveToolResultBudget A config rotationTokens) through
    protectedIndexes = gate at hgate ⊢
  obtain ⟨t, hrun, harchived⟩ := @Confirms.replaceResultsFrom_run S A config gate _ _ _ _ hstore
    messages 0 0 s
  refine ⟨t, _, externalizeResultsFrom_run S A gate store messages 0 0 s t _ hrun, hrun, ?_⟩
  have hchars := toolResultChars_replaceResults S A config gate messages 0 0
  have huncounted := uncounted_eq_zero_iff S A config gate messages 0 0
  simp only [Nat.zero_add] at huncounted
  constructor
  · exact Promised.textOnlyOver
  · intro hplain
    refine ⟨?_, sameCall_replaceResults S A config gate messages 0 0, ?_, ?_, ?_, ?_⟩
    · intro value id limit
      exact exists_fitPreview value id limit _ _ (Nat.le_refl _)
    · intro n
      obtain ⟨u, hshort, -⟩ := @Confirms.replaceResultsFrom_run S A config gate _ _ _ _ hstore
        (messages.take n) 0 0 s
      rw [take_replaceResults] at hshort
      exact ⟨u, hshort⟩
    · intro before left after hsplit hresult hindex
      obtain ⟨first, message, rest, hmessages, hcount, hfirst, rfl⟩ :=
        exists_split S A config gate messages hsplit
      have hover := hplain first message rest hmessages
      rw [hcount, hfirst] at hover
      have hrole : message.isToolResult = true := by
        have hsame := (sameCall_replaceResult S A config gate before.length
          (admittedChars before) message).1
        rw [hsame] at hresult
        exact hresult
      refine length_replaceResult S A config gate hA _ _ message (hgate _ _) (hlength message ?_)
        hover hrole hindex
      rw [hmessages]
      exact List.mem_append_right _ List.mem_cons_self
    · obtain ⟨originals, hsublist, hids, hkept⟩ := exists_originals S A config gate messages 0 0
      exact ⟨originals, hsublist, hids, by rw [harchived, hkept]⟩
    · rw [hchars, huncounted.mpr hplain, Nat.add_zero]

/-! ## A result with an image -/

/-- A window with the lowest gates. -/
def lowConfig : Config := { plainConfig with maxToolResultTokens := some 32 }

def lowGate : ResultGate :=
  resultGate (resolveToolResultBudget plainAnalysis lowConfig 5000) none []

def recordingStore (message : Message) (value : Text) :
    Effect Text (List (Text × Text)) (Option Text) where
  run s := (.ok (some (toolResultId plainSetting lowConfig message value)),
    s ++ [(toolResultId plainSetting lowConfig message value, value)])

theorem recordingStore_confirms : Confirms plainSetting lowConfig recordingStore id where
  returns _ _ _ := rfl
  keeps _ _ _ := rfl

theorem plainAnalysis_keepsNothing : plainAnalysis.KeepsNothing := ⟨rfl, rfl⟩

/-- The result of a call with what stands beside its text. -/
def resultWith (parts : List Json) : Message where
  role := text "toolResult"
  content := .array (textPart (List.replicate 200 0x61) :: parts)
  toolCallId := some (text "c1")

def imagePart : Json := .object [(text "type", .string (text "image"))]

theorem externalize_promised_iff_low :
    ∃ t replaced, (externalizeLargeToolResults plainSetting plainAnalysis
        (resultGate (resolveToolResultBudget plainAnalysis lowConfig 5000) none [])
        recordingStore [resultWith []]).run [] = (.ok (returned replaced), t) ∧
      (replaceResultsFrom plainSetting plainAnalysis
        (resultGate (resolveToolResultBudget plainAnalysis lowConfig 5000) none [])
        recordingStore 0 0 [resultWith []]).run [] = (.ok replaced, t) ∧
      (Promised plainSetting plainAnalysis lowConfig
          (resultGate (resolveToolResultBudget plainAnalysis lowConfig 5000) none [])
          recordingStore id [resultWith []] [] t replaced ↔
        TextOnlyOver plainSetting plainAnalysis lowConfig
          (resultGate (resolveToolResultBudget plainAnalysis lowConfig 5000) none [])
          [resultWith []]) :=
  externalize_promised_iff plainAnalysis_keepsNothing recordingStore_confirms 5000 none []
    [resultWith []] (by
      intro message hmessage
      rw [List.mem_singleton.mp hmessage]
      decide +kernel) []

theorem isOver_resultWith : IsOver plainSetting lowGate 0 0 (resultWith [imagePart]) := by
  decide +kernel

theorem not_textOnly_resultWith : ¬ TextOnly plainSetting (resultWith [imagePart]).content := by
  intro htext
  have hnone := htext _ rfl imagePart (by simp) (by decide)
  revert hnone
  decide

/-- The marker of an image that stays beside a preview is in the window, but not in the count. -/
theorem image_not_counted :
    ∃ t replaced, (replaceResultsFrom plainSetting plainAnalysis lowGate recordingStore 0 0
        [resultWith [imagePart]]).run [] = (.ok replaced, t) ∧
      ¬ Promised plainSetting plainAnalysis lowConfig lowGate recordingStore id
        [resultWith [imagePart]] [] t replaced := by
  obtain ⟨t, hrun, -⟩ := @Confirms.replaceResultsFrom_run plainSetting plainAnalysis lowConfig
    lowGate _ _ _ _ recordingStore_confirms [resultWith [imagePart]] 0 0 []
  refine ⟨t, _, hrun, fun hpromised => ?_⟩
  exact not_textOnly_resultWith (hpromised.textOnlyOver [] _ [] rfl isOver_resultWith)

end ContextStore.Session
