import ContextStore.Archive.Reconstruct

/-! # Messages, their keys and their turns

The host hands over a list of messages on every call and may have rebuilt it, so a message is known
by its key alone: its role, its timestamp, its call and a digest of what it says. A turn starts at a
user message and ends before the next one. -/

namespace ContextStore.Session

open Unicode Archive

variable (S : Setting)

/-! ## Messages -/

/-- What a `bashExecution` message carries in place of content. -/
structure BashExecution where
  exitCode : Option Int := none
  cancelled : Bool := false
  truncated : Bool := false
  fullOutputPath : Option Text := none
  excludeFromContext : Bool := false
  command : Text := []
  output : Text := []

structure Message where
  role : Text
  /-- `null` where there is none. -/
  content : Json := .null
  timestamp : Option Nat := none
  toolCallId : Option Text := none
  toolName : Option Text := none
  stopReason : Option Text := none
  execution : BashExecution := {}
  /-- What a `compactionSummary` or a `branchSummary` says. -/
  summary : Text := []
  tokensBefore : Nat := 0
  fromId : Text := []

def Message.isUser (message : Message) : Bool := message.role = text "user"

def Message.isAssistant (message : Message) : Bool := message.role = text "assistant"

def Message.isToolResult (message : Message) : Bool :=
  message.role = text "toolResult" || message.role = text "tool"

/-! ## Text of the content -/

/-- A character that `trim()` and `\s` take for white space. -/
def isWhiteSpace (u : UInt16) : Bool :=
  (9 ≤ u && u ≤ 13) || u = 32 || u = 0xa0 || u = 0x1680 || (0x2000 ≤ u && u ≤ 0x200a) ||
    u = 0x2028 || u = 0x2029 || u = 0x202f || u = 0x205f || u = 0x3000 || u = 0xfeff

def trim (t : Text) : Text :=
  ((t.dropWhile isWhiteSpace).reverse.dropWhile isWhiteSpace).reverse

/-- `value.join(separator)` -/
def join (separator : Text) (items : List Text) : Text := (items.intersperse separator).flatten

theorem join_cons (separator : UInt16) (first : Text) (items : List Text) :
    join [separator] (first :: items) = first ++ items.flatMap fun item => separator :: item := by
  induction items generalizing first with
  | nil => simp [join]
  | cons item items ih =>
    have h := ih item
    rw [join] at h ⊢
    rw [List.intersperse_cons_cons, List.flatten_cons, List.flatten_cons, h, List.flatMap_cons]
    simp

/-- `value ?? fallback` of a field -/
def fieldOr (value : Json) (name : Text) (fallback : Json) : Json :=
  match value.get name with
  | none | some .null => fallback
  | some field => field

def shortDigest (value : Text) : Text := (S.sha256 (utf8 value)).take 16

def base64ByteLength (data : Text) : Nat :=
  let value := data.filter fun u => !isWhiteSpace u
  let padding := if (text "==").isSuffixOf value then 2 else if (text "=").isSuffixOf value then 1
    else 0
  value.length * 3 / 4 - padding

def nonTextContentMarker (part : Json) : Text :=
  if textField part (text "type") = some (text "image") then
    let data := (fieldOr part (text "data") (.string [])).display
    let mimeType :=
      (fieldOr part (text "mimeType") (.string (text "application/octet-stream"))).display
    text "[image mimeType=" ++ Json.stringify (.string mimeType) ++ text " bytes=" ++
      Json.decimal (base64ByteLength data) ++ text " sha256=" ++ shortDigest S data ++ text "]"
  else
    let serialized := part.stringify
    text "[content type=" ++
      Json.stringify (.string (fieldOr part (text "type") (.string (text "unknown"))).display) ++
      text " chars=" ++ Json.decimal serialized.length ++ text " sha256=" ++
      shortDigest S serialized ++ text "]"

def isToolCall (part : Json) : Bool :=
  textField part (text "type") = some (text "toolCall") ||
    textField part (text "type") = some (text "tool_call")

/-- A part as text; `marker` stands for what has none. -/
def partToText (marker : Json → Text) (part : Json) : Text :=
  match part with
  | .string value => value
  | .array _ | .object _ =>
    match textField part (text "text") with
    | some value => value
    | none =>
      if isToolCall part then
        text "[tool " ++ (fieldOr part (text "name") (.string (text "unknown"))).display ++
          text " " ++
          (fieldOr part (text "arguments") (fieldOr part (text "input") (.object []))).stringify ++
          text "]"
      else if textField part (text "type") = some (text "thinking") then
        (textField part (text "thinking")).getD (marker part)
      else marker part
  | _ => []

def textOfContent (marker : Json → Text) (content : Json) : Text :=
  match content with
  | .string value => value
  | .array parts => join [0x0a] ((parts.map (partToText marker)).filter (· ≠ []))
  | .null => []
  | other => other.stringify

def contentToText (content : Json) : Text := textOfContent (nonTextContentMarker S) content

def legacyTextOnlyContent (content : Json) : Text := textOfContent (fun _ => []) content

/-! ## Serialization -/

def optionalText (value : Option Text) : Json :=
  match value with
  | none => .null
  | some value => .string value

def BashExecution.state (execution : BashExecution) : Json :=
  .object [(text "exitCode", (execution.exitCode.map Json.number).getD .null),
    (text "cancelled", .bool execution.cancelled), (text "truncated", .bool execution.truncated),
    (text "fullOutputPath", optionalText execution.fullOutputPath),
    (text "excludeFromContext", .bool execution.excludeFromContext)]

def syntheticMessageSerialization (message : Message) : Option Text :=
  if message.role = text "bashExecution" then
    some (text "[bashExecution " ++ message.execution.state.stringify ++ text "]\n[command] " ++
      message.execution.command ++ text "\n[output] " ++ message.execution.output)
  else if message.role = text "compactionSummary" then
    some (text "[compactionSummary tokensBefore=" ++ Json.decimal message.tokensBefore ++
      text "] " ++ message.summary)
  else if message.role = text "branchSummary" then
    some (text "[branchSummary fromId=" ++ Json.stringify (.string message.fromId) ++
      text "] " ++ message.summary)
  else none

def messageLabel (message : Message) : Text :=
  if message.isToolResult then
    message.role ++ text ":" ++ message.toolName.getD (text "unknown")
  else message.role

def serializeWith (contentText : Json → Text) (message : Message) : Text :=
  (syntheticMessageSerialization message).getD
    (text "[" ++ messageLabel message ++ text "] " ++ contentText message.content)

def serializeMessage (message : Message) : Text := serializeWith (contentToText S) message

def serializeMessages (messages : List Message) : Text :=
  join [0x0a, 0x0a] (messages.map (serializeMessage S))

def preMultimodalSerialization (message : Message) : Text :=
  serializeWith legacyTextOnlyContent message

/-! ## Keys -/

def messageKeyWithSerialization (message : Message) (serialized : Text) : Text :=
  message.role ++ text ":" ++ (message.timestamp.map Json.decimal).getD [] ++ text ":" ++
    message.toolCallId.getD [] ++ text ":" ++ (S.sha256 (utf8 serialized)).take 12

def messageKey (message : Message) : Text :=
  messageKeyWithSerialization S message (serializeMessage S message)

/-- The key of a message before keys covered the whole of it. -/
def legacyBoundaryMessageKey (message : Message) : Text :=
  messageKeyWithSerialization S message ((serializeMessage S message).take 8000)

/-- The key of a message before its parts other than text were part of it. -/
def preMultimodalMessageKey (message : Message) (truncate : Bool) : Text :=
  let serialized := preMultimodalSerialization message
  messageKeyWithSerialization S message (if truncate then serialized.take 8000 else serialized)

/-- The test of `sliceFromBoundary`. -/
def matchesBoundary (boundaryKey : Text) (message : Message) : Bool :=
  messageKey S message = boundaryKey || legacyBoundaryMessageKey S message = boundaryKey ||
    preMultimodalMessageKey S message false = boundaryKey ||
    preMultimodalMessageKey S message true = boundaryKey

structure Slice where
  messages : List Message
  found : Bool
  start : Nat

def sliceFromBoundary (messages : List Message) (boundaryKey : Option Text) : Slice :=
  match boundaryKey with
  | none | some [] => { messages, found := true, start := 0 }
  | some key => match messages.findIdx? (matchesBoundary S key) with
      | none => { messages, found := false, start := 0 }
      | some start => { messages := messages.drop start, found := true, start }

def isEmptyAssistantError (message : Message) : Bool :=
  message.isAssistant && message.stopReason = some (text "error") &&
    trim (contentToText S message.content) = []

def removeEmptyAssistantErrors (messages : List Message) : List Message :=
  messages.filter fun message => !isEmptyAssistantError S message

/-! ## Turns -/

structure Turn where
  start : Nat
  endIndex : Nat
  messages : List Message
  hasUser : Bool

def slice (messages : List Message) (start endIndex : Nat) : List Message :=
  (messages.drop start).take (endIndex - start)

def userStarts (messages : List Message) : List Nat :=
  (List.range messages.length).filter fun index => messages[index]?.any Message.isUser

def userTurns (messages : List Message) : List Nat → List Turn
  | [] => []
  | [start] => [{
      start, endIndex := messages.length, messages := slice messages start messages.length,
      hasUser := true }]
  | start :: next :: rest => {
      start, endIndex := next, messages := slice messages start next, hasUser := true } ::
        userTurns messages (next :: rest)

def groupCompleteTurns (messages : List Message) : List Turn :=
  match userStarts messages with
  | [] =>
    if messages = [] then []
    else [{ start := 0, endIndex := messages.length, messages, hasUser := false }]
  | first :: rest =>
    (if 0 < first then [{
      start := 0, endIndex := first, messages := slice messages 0 first, hasUser := false }]
    else []) ++ userTurns messages (first :: rest)

def countUserTurns (messages : List Message) : Nat :=
  ((groupCompleteTurns messages).filter (·.hasUser)).length

/-! ## Chunks -/

/-- The messages of one document: no more keys, and no more bytes of keys, than it may name. -/
def chunksFrom : List Message → Nat → List Message → List (List Message)
  | current, _, [] => if current = [] then [] else [current]
  | current, currentKeyBytes, message :: rest =>
    let keyBytes := (utf8 (messageKey S message)).length
    if current ≠ [] ∧ (S.limits.maxSourceMessageKeysPerDocument ≤ current.length ∨
        S.limits.maxSourceMessageKeyBytesPerDocument < currentKeyBytes + keyBytes) then
      current :: chunksFrom [message] keyBytes rest
    else chunksFrom (current ++ [message]) (currentKeyBytes + keyBytes) rest

def checkpointSourceChunks (messages : List Message) : List (List Message) :=
  chunksFrom S [] 0 messages

/-! ## Sizes -/

def ESTIMATED_IMAGE_CHARS : Nat := 4800

def partCharacters (part : Json) : Nat :=
  match part with
  | .object _ =>
    if textField part (text "type") = some (text "image") then ESTIMATED_IMAGE_CHARS
    else (partToText (nonTextContentMarker S) part).length
  | _ => (partToText (nonTextContentMarker S) part).length

def estimatedContentCharacters (content : Json) : Nat :=
  match content with
  | .string value => value.length
  | .array parts =>
    let sizes := (parts.map (partCharacters S)).filter (· ≠ 0)
    sizes.sum + (sizes.length - 1)
  | .null => 0
  | other => other.stringify.length

def estimatedMessageCharacters (message : Message) : Nat :=
  match syntheticMessageSerialization message with
  | some synthetic => synthetic.length
  | none => (messageLabel message).length + 3 + estimatedContentCharacters S message.content

/-- A token is four characters, rounded up. -/
def tokensOf (characters : Nat) : Nat := (characters + 3) / 4

def estimateTokens (messages : List Message) : Nat :=
  tokensOf ((messages.map (estimatedMessageCharacters S)).sum + (messages.length - 1))

/-! ## Rotation -/

inductive RotationTrigger where
  | forced | tokens | turns
deriving DecidableEq

inductive RotationMode where
  | normal | emergencyRetention

def TOC_TOKEN_BUDGET : Nat := 1000

structure RotationRequest where
  force : Bool
  tokens : Nat
  turns : Nat
  rotationTokens : Nat
  rotationTurns : Nat
  retainTurns : Option Nat
  markerTokenReserve : Nat
  observedContextTokens : Option Nat := none
  hardLimitTokens : Option Nat := none

structure Rotation where
  trigger : RotationTrigger
  mode : RotationMode
  start : Nat
  retainedTurns : Nat

inductive RotationPlan where
  | none
  | nativeCompaction (trigger : RotationTrigger) (reason : String)
  | rotate (rotation : Rotation)

def rotationTrigger (request : RotationRequest) : Option RotationTrigger :=
  if request.force then some .forced
  else if request.rotationTokens ≤ request.tokens then some .tokens
  else if request.rotationTurns ≤ request.turns then some .turns
  else none

/-- The oldest turn from which on the messages fit, of those that retain few enough turns. -/
def findCandidate (messages : List Message) (request : RotationRequest) (trigger : RotationTrigger)
    (configuredRetainTurns : Nat) : List Turn → Option Rotation
  | [] => none
  | candidate :: rest =>
    let retainedTurns := rest.length + 1
    if configuredRetainTurns < retainedTurns then
      findCandidate messages request trigger configuredRetainTurns rest
    else if max 1 request.rotationTokens <
        estimateTokens S (messages.drop candidate.start) + request.markerTokenReserve then
      findCandidate messages request trigger configuredRetainTurns rest
    else some {
      trigger, start := candidate.start, retainedTurns
      mode := if retainedTurns = configuredRetainTurns then .normal else .emergencyRetention }

def overHardLimit (request : RotationRequest) : Bool :=
  match request.observedContextTokens, request.hardLimitTokens with
  | some observed, some hardLimit => hardLimit ≤ observed
  | _, _ => false

def planEpochRotation (messages : List Message) (request : RotationRequest) : RotationPlan :=
  match rotationTrigger request with
  | none => .none
  | some trigger =>
    if overHardLimit request then .nativeCompaction trigger "provider-hard-limit"
    else
      let turns := (groupCompleteTurns messages).filter (·.hasUser)
      if turns.length < 2 then .nativeCompaction trigger "no-user-boundary"
      else match findCandidate S messages request trigger (max 1 (request.retainTurns.getD 1))
          turns.tail with
        | none => .nativeCompaction trigger "oversized-latest-turn"
        | some rotation => .rotate rotation

end ContextStore.Session
