import ContextStore.Foundation.Effects
import ContextStore.Session.Messages

/-! # Tool artifacts

What a provider is shown of the results and the arguments of tool calls. A result that repeats an
earlier one, and a result or an argument over its gate, goes to the archive and a short reference
takes its place; where the archive does not confirm it, it stays. Messages are replaced in place, so
neither their number nor their roles change. -/

namespace ContextStore.Session

open Unicode Archive Effects

variable (S : Setting)

/-! ## The host's rendering -/

/-- What is read off a text by regular expressions or by arithmetic on fractions. -/
structure Analysis where
  /-- `Math.floor(chars * 0.7)` and `Math.floor(chars * 0.3)` -/
  headChars : Nat → Nat
  tailChars : Nat → Nat
  estimateModelVisibleTokens : Text → Nat
  extractSalientTerms : Text → List Text
  extractDecisionCandidates : Text → List Text
  /-- The sentences with their anchors. -/
  extractFactCandidates : Text → List (Text × Json)
  /-- `Math.floor(target * ratio)` for the configured ratio -/
  budgetShare : Nat → Nat

variable (A : Analysis)

/-- An id as `if (!id)` reads it. -/
def confirmed (id : Option Text) : Option Text := id.filter (· ≠ [])

/-! ## Replacing content -/

def textPart (value : Text) : Json :=
  .object [(text "type", .string (text "text")), (text "text", .string value)]

def replaceTextContent (content : Json) (replacement : Text) : Json :=
  match content with
  | .array parts => .array (textPart replacement ::
      parts.filter fun part => textField part (text "type") ≠ some (text "text"))
  | _ => .string replacement

/-- `value.slice(-count)` -/
def sliceFromEnd (count : Nat) (value : Text) : Text :=
  if count = 0 then value else value.drop (value.length - count)

def archivedMarker (id : Text) (omittedChars : Int) : Text :=
  text "\n\n[… " ++ Json.ofInt omittedChars ++ text " characters archived as " ++ id ++
    text "; use context_recall …]\n\n"

/-! ## Large results -/

/-- The gates of `externalizeLargeToolResults`. -/
structure ResultGate where
  maxTokens : Nat
  budgetTokens : Nat
  floorTokens : Nat
  /-- The last index under the lower gate, if there is one. -/
  floorThroughIndex : Option Nat
  protectedMessageIndexes : List Nat

def previewTokens (maxTokens : Nat) : Nat := min 800 (maxTokens / 2)

def ResultGate.maxChars (gate : ResultGate) : Nat := max 1 gate.maxTokens * 4

def ResultGate.budgetChars (gate : ResultGate) : Nat := max 1 gate.budgetTokens * 4

def ResultGate.floorChars (gate : ResultGate) : Nat :=
  min gate.maxChars (max 1 gate.floorTokens * 4)

def ResultGate.previewChars (gate : ResultGate) : Nat := max 1 (previewTokens gate.maxTokens) * 4

def ResultGate.effectiveMaxChars (gate : ResultGate) (index admittedChars : Nat) : Nat :=
  if gate.floorThroughIndex.any (fun through => index ≤ through) ∨
      gate.budgetChars ≤ admittedChars then gate.floorChars
  else gate.maxChars

def resultPreview (value id : Text) (retainedPreviewChars : Nat) : Text :=
  let head := value.take (A.headChars retainedPreviewChars)
  let tailChars := A.tailChars retainedPreviewChars
  let tail := if 0 < tailChars then sliceFromEnd tailChars value else []
  head ++ archivedMarker id (value.length - head.length - tail.length) ++ tail

/-- The longest preview that fits; every round retains fewer characters. -/
def fitPreview (value id : Text) (effectiveMaxChars : Nat) : Nat → Nat → Text
  | 0, retained => resultPreview A value id retained
  | fuel + 1, retained =>
    let replacement := resultPreview A value id retained
    if replacement.length ≤ effectiveMaxChars ∨ retained = 0 then replacement
    else fitPreview value id effectiveMaxChars fuel
      (retained - max 1 (replacement.length - effectiveMaxChars))

def fittingPreview (value id : Text) (effectiveMaxChars previewChars : Nat) : Text :=
  let retained := min previewChars effectiveMaxChars
  fitPreview A value id effectiveMaxChars retained retained

variable {ε σ : Type}

/-- What a transformation did to one message. -/
structure Replaced where
  message : Message
  archiveIds : List Text := []
  /-- The characters that land in the window. -/
  admittedChars : Nat := 0

structure Externalized where
  messages : List Message
  archiveIds : List Text

def withText (message : Message) (replacement : Text) : Message :=
  { message with content := replaceTextContent message.content replacement }

def externalizeResult (gate : ResultGate) (store : Message → Text → Effect ε σ (Option Text))
    (index admittedChars : Nat) (message : Message) : Effect ε σ Replaced := do
  let value := contentToText S message.content
  let effectiveMaxChars := gate.effectiveMaxChars index admittedChars
  if message.isToolResult = false then return { message }
  else if index ∈ gate.protectedMessageIndexes ∨ value.length ≤ effectiveMaxChars then
    return { message, admittedChars := value.length }
  else do
    let id ← store message value
    match confirmed id with
    | none => return { message, admittedChars := value.length }
    | some id =>
      let replacement := fittingPreview A value id effectiveMaxChars gate.previewChars
      return { message := withText message replacement, archiveIds := [id],
               admittedChars := replacement.length }

def externalizeResultsFrom (gate : ResultGate) (store : Message → Text → Effect ε σ (Option Text)) :
    Nat → Nat → List Message → Effect ε σ Externalized
  | _, _, [] => return { messages := [], archiveIds := [] }
  | index, admittedChars, message :: rest => do
    let replaced ← externalizeResult S A gate store index admittedChars message
    let others ← externalizeResultsFrom gate store (index + 1)
      (admittedChars + replaced.admittedChars) rest
    return { messages := replaced.message :: others.messages,
             archiveIds := replaced.archiveIds ++ others.archiveIds }

def externalizeLargeToolResults (gate : ResultGate)
    (store : Message → Text → Effect ε σ (Option Text)) (messages : List Message) :
    Effect ε σ Externalized :=
  externalizeResultsFrom S A gate store 0 0 messages

/-! ## Large arguments -/

def toolCallArgumentField (part : Json) : Text :=
  if (part.get (text "arguments")).isSome then text "arguments" else text "input"

def stringifyToolCallArguments (value : Json) : Text :=
  match value with
  | .string value => value
  | other => other.stringify

/-- `{ ...part, [name]: value }` of a field that is there. -/
def setField (part : Json) (name : Text) (value : Json) : Json :=
  match part with
  | .object fields => .object (fields.map fun field =>
    if field.1 = name then (name, value) else field)
  | other => other

def argumentPreview (value id : Text) (previewChars : Nat) : Text :=
  let head := value.take (A.headChars previewChars)
  let tail := sliceFromEnd (A.tailChars previewChars) value
  head ++ archivedMarker id (value.length - head.length - tail.length) ++ tail

structure ReplacedPart where
  part : Json
  archiveIds : List Text := []

def storedArgument (maxTokens : Nat) (part : Json) (value : Text) (id : Option Text) :
    ReplacedPart :=
  match confirmed id with
  | none => { part }
  | some id => {
      part := setField part (toolCallArgumentField part) (.object [
        (text "archivedAs", .string id),
        (text "preview",
          .string (argumentPreview A value id (max 1 (previewTokens maxTokens) * 4)))])
      archiveIds := [id] }

def externalizePart (maxTokens : Nat)
    (store : Message → Json → Text → Effect ε σ (Option Text)) (message : Message) (part : Json) :
    Effect ε σ ReplacedPart :=
  match if isToolCall part then part.get (toolCallArgumentField part) else none with
  | none => return { part }
  | some value =>
    let value := stringifyToolCallArguments value
    if value.length ≤ max 1 maxTokens * 4 then return { part }
    else do
      let id ← store message part value
      return storedArgument A maxTokens part value id

def externalizeArguments (maxTokens : Nat)
    (store : Message → Json → Text → Effect ε σ (Option Text)) (message : Message) :
    Effect ε σ Replaced :=
  match message.isAssistant, message.content with
  | true, .array parts => do
    let replaced ← Effect.mapList (externalizePart A maxTokens store message) parts
    return { message := { message with content := .array (replaced.map (·.part)) },
             archiveIds := replaced.flatMap (·.archiveIds) }
  | _, _ => return { message }

def externalizeLargeToolArguments (maxTokens : Nat)
    (store : Message → Json → Text → Effect ε σ (Option Text)) (messages : List Message) :
    Effect ε σ Externalized := do
  let replaced ← Effect.mapList (externalizeArguments A maxTokens store) messages
  return { messages := replaced.map (·.message), archiveIds := replaced.flatMap (·.archiveIds) }

/-! ## Repeated results -/

/-- The order of `sort()`. -/
def unitsLe : Text → Text → Bool
  | [], _ => true
  | _ :: _, [] => false
  | u :: s, v :: t => u < v || (u = v && unitsLe s t)

mutual

/-- Each value as text, the fields of an object sorted by their names. -/
def canonicalJsonValue : Json → Text
  | .array items => text "[" ++ join (text ",") (canonicalItems items) ++ text "]"
  | .object fields =>
    let rendered := (canonicalFields fields).mergeSort fun a b => unitsLe a.1 b.1
    text "\x7b" ++
      join (text ",") (rendered.map fun field => Json.quote field.1 ++ text ":" ++ field.2) ++
      text "\x7d"
  | .null => Json.stringify .null
  | .bool value => Json.stringify (.bool value)
  | .number value => Json.stringify (.number value)
  | .fraction literal => Json.stringify (.fraction literal)
  | .string value => Json.stringify (.string value)

def canonicalItems : List Json → List Text
  | [] => []
  | item :: rest => canonicalJsonValue item :: canonicalItems rest

def canonicalFields : List (Text × Json) → List (Text × Text)
  | [] => []
  | field :: rest => canonicalField field :: canonicalFields rest

def canonicalField : Text × Json → Text × Text
  | (name, value) => (name, canonicalJsonValue value)

end

def normalizedToolArguments (value : Option Json) : Text := (value.map canonicalJsonValue).getD []

def partCallId (part : Json) : Text :=
  (fieldOr part (text "id") (fieldOr part (text "toolCallId")
    (fieldOr part (text "tool_call_id") (.string [])))).display

def callArguments (message : Message) : List (Text × Text) :=
  match message.isAssistant, message.content with
  | true, .array parts => (parts.filter fun part => isToolCall part && partCallId part ≠ []).map
      fun part => (partCallId part, normalizedToolArguments (part.get (toolCallArgumentField part)))
  | _, _ => []

/-- The arguments of every call; the last call of an id counts. -/
def toolCallArgumentsIndex (messages : List Message) : List (Text × Text) :=
  (messages.flatMap callArguments).reverse

def resultKey (callArguments : List (Text × Text)) (message : Message) : Text :=
  let toolCallId := message.toolCallId.getD []
  message.toolName.getD [] ++ [0] ++ (callArguments.lookup toolCallId).getD [] ++ [0] ++
    S.sha256 (utf8 (contentToText S message.content))

def resultReference (message : Message) : Text :=
  match confirmed message.toolCallId with
  | some toolCallId => toolCallId
  | none => messageKey S message

def duplicateMarker (reference id : Text) : Text :=
  text "[Identical to earlier result " ++ reference ++
    text " in this conversation, archived as " ++ id ++ text "; use context_recall on " ++ id ++
    text " if needed.]"

structure Deduplicated where
  messages : List Message
  archiveIds : List Text
  externalizedMessageIndexes : List Nat

/-- The outcome for a result that repeats the one under `reference`. -/
def storedDuplicate (message : Message) (reference : Text) (id : Option Text) : Replaced :=
  match confirmed id with
  | none => { message }
  | some id => { message := withText message (duplicateMarker reference id), archiveIds := [id] }

def deduplicateFrom (callArguments : List (Text × Text))
    (store : Message → Text → Effect ε σ (Option Text)) :
    Nat → List (Text × Text) → List Message → Effect ε σ Deduplicated
  | _, _, [] => return { messages := [], archiveIds := [], externalizedMessageIndexes := [] }
  | index, seen, message :: rest =>
    if message.isToolResult = false then do
      let others ← deduplicateFrom callArguments store (index + 1) seen rest
      return { others with messages := message :: others.messages }
    else match seen.lookup (resultKey S callArguments message) with
      | none => do
        let others ← deduplicateFrom callArguments store (index + 1)
          ((resultKey S callArguments message, resultReference S message) :: seen) rest
        return { others with messages := message :: others.messages }
      | some reference => do
        let id ← store message (contentToText S message.content)
        let others ← deduplicateFrom callArguments store (index + 1) seen rest
        let replaced := storedDuplicate message reference id
        return {
          messages := replaced.message :: others.messages,
          archiveIds := replaced.archiveIds ++ others.archiveIds,
          externalizedMessageIndexes := (if (confirmed id).isSome then [index] else []) ++
            others.externalizedMessageIndexes }

def deduplicateToolResults (store : Message → Text → Effect ε σ (Option Text))
    (messages : List Message) : Effect ε σ Deduplicated :=
  deduplicateFrom S (toolCallArgumentsIndex messages) store 0 [] messages

end ContextStore.Session
