import ContextStore.Retrieval.DocumentRange

/-! # Recall

What a recall returns around a match: the windows around it as far as the budget goes, or the part
of its window that the budget allows, with locators for what comes before and after. -/

namespace ContextStore.Recall

open Unicode Concurrent

structure ByteRange where
  startByte : Nat
  endByte : Nat

/-- What a signed locator says about the place. -/
structure Locator where
  windowOrdinal : Nat
  matchRange : ByteRange

/-- The parts of a request and of its options that bear on the range. -/
structure Request where
  neighbors : Nat
  maxTokens : Nat
  expandToBudget : Bool

/-- The contract of `store.recall` -/
def Request.Accepted (request : Request) : Prop :=
  request.neighbors ≤ 32 ∧ 39 ≤ request.maxTokens ∧ request.maxTokens ≤ 100000

def maxFullTurnRecallBytes : Nat := 64 * 1024

def maxSpanGrowthWindows : Nat := 256

def byteBudget (maxTokens : Nat) : Nat := maxTokens * 4

variable (contentHash : List UInt8 → Digest) (isWord : Char → Bool) (source : Source)

def readWindow (ordinal : Int) : Option Window :=
  if 0 ≤ ordinal then (source.window ordinal.toNat).filter (·.ordinal = ordinal.toNat) else none

def fitsRecallBudget (text : List Char) (maxTokens : Nat) : Except StoreError Bool := do
  let tokens ← tokenizeWithByteOffsets isWord text
  return tokens.length ≤ maxTokens ∧ byteLength text ≤ byteBudget maxTokens

/-! ## Selecting windows -/

/-- Whether the text from one window's start to another's end is within the budget; a range of too
many bytes is not read. -/
def fitsRange (startByte endByte maxTokens : Nat) : Except StoreError Bool :=
  if byteBudget maxTokens < endByte - startByte then .ok false
  else do
    let materialized ← readDocumentRange contentHash source startByte endByte false
    fitsRecallBudget isWord materialized.text maxTokens

/-- The window to grow by, unless it is missing or too much. -/
def growTo (maxTokens : Nat) (candidate : Option Window) (range : Window → ByteRange) :
    Except StoreError (Option Window) :=
  match candidate with
  | none => .ok none
  | some window => do
    let fits ← fitsRange contentHash isWord source (range window).startByte
      (range window).endByte maxTokens
    return if fits then some window else none

/-- The variables of the loop of `growWindowRange`. -/
structure Span where
  first : Window
  last : Window
  leftExhausted : Bool
  rightExhausted : Bool

/-- Grow by one window on the nearer side, or find that this side is exhausted. -/
def growStep (target : Window) (maxTokens : Nat) (span : Span) : Except StoreError Span :=
  if !span.leftExhausted && (span.rightExhausted ||
      decide (target.ordinal - span.first.ordinal ≤ span.last.ordinal - target.ordinal)) then do
    let grown ← growTo contentHash isWord source maxTokens
      (readWindow source (span.first.ordinal - 1)) fun candidate =>
        { startByte := candidate.startByte, endByte := span.last.endByte }
    return grown.elim { span with leftExhausted := true } fun first => { span with first }
  else do
    let grown ← growTo contentHash isWord source maxTokens
      (readWindow source (span.last.ordinal + 1)) fun candidate =>
        { startByte := span.first.startByte, endByte := candidate.endByte }
    return grown.elim { span with rightExhausted := true } fun last => { span with last }

def growWindows (target : Window) (maxTokens : Nat) : Nat → Span → Except StoreError Span
  | 0, span => .ok span
  | steps + 1, span =>
    if span.leftExhausted && span.rightExhausted then .ok span
    else growStep contentHash isWord source target maxTokens span >>=
      growWindows target maxTokens steps

def growWindowRange (target firstWindow lastWindow : Window) (maxTokens : Nat) :
    Except StoreError Span :=
  growWindows contentHash isWord source target maxTokens maxSpanGrowthWindows {
    first := firstWindow
    last := lastWindow
    leftExhausted := firstWindow.ordinal = 0
    rightExhausted := false }

structure Selected where
  firstWindow : Window
  lastWindow : Window
  wholeDocument : Bool
  materialized : Option Materialized

/-- The windows from `ordinal` on; one behind the target may be missing. -/
def neighborhood (target : Window) : Nat → Nat → Option (List Window)
  | 0, _ => some []
  | count + 1, ordinal =>
    match readWindow source ordinal with
    | none => if ordinal ≤ target.ordinal then none else some []
    | some window => (neighborhood target count (ordinal + 1)).map (window :: ·)

/-- Drop the window that is farther from the target, the last one if both are as far. -/
def shrink (targetIndex : Nat) (range : Nat × Nat) : Nat × Nat :=
  if targetIndex - range.1 ≤ range.2 - targetIndex ∧ targetIndex < range.2 then
    (range.1, range.2 - 1)
  else if range.1 < targetIndex then (range.1 + 1, range.2)
  else range

def windowIn (windows : List Window) (index : Nat) : Except StoreError Window :=
  match windows[index]? with
  | some window => .ok window
  | none => .error (.typeError "Cannot read properties of undefined")

/-- The first loop: shrink to the byte budget, without reading. -/
def shrinkToBytes (windows : List Window) (targetIndex maxTokens : Nat) :
    Nat → Nat × Nat → Except StoreError (Nat × Nat)
  | 0, _ => .error .unfinished
  | fuel + 1, range => do
    let first ← windowIn windows range.1
    let last ← windowIn windows range.2
    if range.1 < range.2 ∧ byteBudget maxTokens < last.endByte - first.startByte then
      shrinkToBytes windows targetIndex maxTokens fuel (shrink targetIndex range)
    else return range

def readWindows (first last : Window) : Except StoreError Materialized :=
  readDocumentRange contentHash source first.startByte last.endByte false

/-- The second loop: shrink until what was read is within the budget. -/
def shrinkToTokens (windows : List Window) (targetIndex maxTokens : Nat) :
    Nat → Nat × Nat → Materialized → Except StoreError ((Nat × Nat) × Materialized)
  | 0, _, _ => .error .unfinished
  | fuel + 1, range, materialized => do
    let fits ← if range.1 < range.2 then fitsRecallBudget isWord materialized.text maxTokens
      else .ok true
    if fits then .ok (range, materialized)
    else do
      let first ← windowIn windows (shrink targetIndex range).1
      let last ← windowIn windows (shrink targetIndex range).2
      let read ← readWindows contentHash source first last
      shrinkToTokens windows targetIndex maxTokens fuel (shrink targetIndex range) read

/-- The windows of the neighborhood that the budget allows, and their text if it was read: a single
window of too many bytes is not. -/
def shrunkRange (windows : List Window) (targetIndex maxTokens : Nat) :
    Except StoreError (Window × Window × Option Materialized) := do
  let range ← shrinkToBytes windows targetIndex maxTokens windows.length (0, windows.length - 1)
  let first ← windowIn windows range.1
  let last ← windowIn windows range.2
  if byteBudget maxTokens < last.endByte - first.startByte then return (first, last, none)
  else do
    let materialized ← readWindows contentHash source first last
    let shrunk ← shrinkToTokens contentHash isWord source windows targetIndex maxTokens
      windows.length range materialized
    let first ← windowIn windows shrunk.1.1
    let last ← windowIn windows shrunk.1.2
    return (first, last, some shrunk.2)

/-- The whole text of a turn, if it is within the budget. -/
def wholeTurn (maxTokens : Nat) : Except StoreError (Option Materialized) :=
  if source.kind = "turn" ∧ source.byteLength ≤ maxFullTurnRecallBytes
      ∧ source.byteLength ≤ byteBudget maxTokens then do
    let materialized ← readDocumentRange contentHash source 0 source.byteLength false
    let fits ← fitsRecallBudget isWord materialized.text maxTokens
    return if fits then some materialized else none
  else .ok none

/-- What is left to do when the neighborhood has been read: grow it, if the caller asks for it. -/
def expandedRange (target : Window) (request : Request)
    (shrunk : Window × Window × Option Materialized) : Except StoreError Selected := do
  let span ← if request.expandToBudget then
      growWindowRange contentHash isWord source target shrunk.1 shrunk.2.1 request.maxTokens
    else .ok {
      first := shrunk.1
      last := shrunk.2.1
      leftExhausted := true
      rightExhausted := true }
  let materialized ← if span.first ≠ shrunk.1 ∨ span.last ≠ shrunk.2.1 then
      (readWindows contentHash source span.first span.last).map some
    else .ok shrunk.2.2
  return {
    firstWindow := span.first
    lastWindow := span.last
    wholeDocument := false
    materialized }

def selectedWindowRange (target : Window) (request : Request) :
    Except StoreError (Option Selected) := do
  let whole ← wholeTurn contentHash isWord source request.maxTokens
  match whole with
  | some materialized => return some {
      firstWindow := target
      lastWindow := target
      wholeDocument := true
      materialized := some materialized }
  | none =>
    let desiredFirst := target.ordinal - request.neighbors
    match neighborhood source target (target.ordinal + request.neighbors + 1 - desiredFirst)
        desiredFirst with
    | none => return none
    | some windows =>
      match windows.findIdx? (·.ordinal = target.ordinal) with
      | none => return none
      | some targetIndex => do
        let shrunk ← shrunkRange contentHash isWord source windows targetIndex
          request.maxTokens
        let selected ← expandedRange contentHash isWord source target request shrunk
        return some selected

/-! ## Clipping a window -/

/-- The range of at most `maxBytes` around the match. -/
def boundedStart (range matchRange : ByteRange) (maxBytes : Nat) : Nat × Nat :=
  let anchorStart := max range.startByte (min range.endByte matchRange.startByte)
  let anchorEnd := max anchorStart (min range.endByte matchRange.endByte)
  let anchorBytes := anchorEnd - anchorStart
  if maxBytes ≤ anchorBytes then (anchorStart, min range.endByte (anchorStart + maxBytes))
  else
    let spareBytes := maxBytes - anchorBytes
    let earliestStart := max range.startByte (anchorEnd - maxBytes)
    let desiredStart := max earliestStart (min anchorStart (anchorStart - spareBytes / 2))
    let startByte := if range.endByte < desiredStart + maxBytes then
        max earliestStart (range.endByte - maxBytes)
      else desiredStart
    let endByte := min range.endByte (startByte + maxBytes)
    if endByte < anchorEnd then (max range.startByte (anchorEnd - maxBytes), anchorEnd)
    else (startByte, endByte)

def byteBoundedRange (range matchRange : ByteRange) (maxBytes : Nat) :
    Except StoreError ByteRange :=
  if range.endByte - range.startByte ≤ maxBytes then .ok range
  else
    let bounded := boundedStart range matchRange maxBytes
    let endByte := if bounded.2 = bounded.1 ∧ bounded.1 < range.endByte then
        min range.endByte (bounded.1 + maxBytes)
      else bounded.2
    if maxBytes < endByte - bounded.1 ∨ bounded.1 < range.startByte ∨ range.endByte < endByte then
      .error (.plain "Unable to produce a valid UTF-8 recall range within the byte budget.")
    else .ok { startByte := bounded.1, endByte }

/-- `tokens.findLastIndex((token) => token.startByte < localMatchEnd)` -/
def lastTokenBefore (tokens : List Token) (localMatchEnd : Nat) : Option Nat :=
  (tokens.reverse.findIdx? (·.startByte < localMatchEnd)).map fun index =>
    tokens.length - 1 - index

/-- The tokens that stay of too many: those of the match with as many before it as after it. The
second number is the index behind the last one. -/
def clippedTokens (tokens : List Token) (localMatchStart localMatchEnd maxTokens : Nat) :
    Nat × Nat :=
  let matchFirst := (tokens.findIdx? (localMatchStart < ·.endByte)).getD (tokens.length - 1)
  let matchLast := max matchFirst ((lastTokenBefore tokens localMatchEnd).getD 0)
  let matchTokenCount := matchLast - matchFirst + 1
  let selectedMatchTokens := min matchTokenCount maxTokens
  let spare := maxTokens - selectedMatchTokens
  let endIndex := min tokens.length (matchFirst - spare / 2 + maxTokens)
  (endIndex - maxTokens, endIndex)

/-- The text of the window that clipping by bytes leaves. -/
def boundedText (window : Window) (matchRange : ByteRange) (maxTokens : Nat)
    (current : Option Materialized) : Except StoreError Materialized :=
  match current with
  | some materialized =>
    if materialized.endByte - materialized.startByte ≤ byteBudget maxTokens then .ok materialized
    else readBounded
  | none => readBounded
where
  readBounded : Except StoreError Materialized := do
    let bounded ← byteBoundedRange
      { startByte := window.startByte, endByte := window.endByte } matchRange
      (byteBudget maxTokens)
    readDocumentRange contentHash source bounded.startByte bounded.endByte true

def tokenIn (tokens : List Token) (index : Nat) : Except StoreError Token :=
  match tokens[index]? with
  | some token => .ok token
  | none => .error (.typeError "Cannot read properties of undefined")

def clippedTargetRange (window : Window) (matchRange : ByteRange) (maxTokens : Nat)
    (current : Option Materialized) : Except StoreError Materialized := do
  let materialized ← boundedText contentHash source window matchRange maxTokens current
  let tokens ← tokenizeWithByteOffsets isWord materialized.text
  if tokens.length ≤ maxTokens then return materialized
  else do
    let clipped := clippedTokens tokens (matchRange.startByte - materialized.startByte)
      (min (materialized.endByte - materialized.startByte)
        (matchRange.endByte - materialized.startByte)) maxTokens
    let first ← tokenIn tokens clipped.1
    let last ← tokenIn tokens (clipped.2 - 1)
    readDocumentRange contentHash source (materialized.startByte + first.startByte)
      (materialized.startByte + last.endByte) false

/-! ## The recall -/

/-- `continuationLocators` has `before` and then `after`, as far as they exist. -/
structure Response where
  startByte : Nat
  endByte : Nat
  text : List Char
  chunks : List RangeChunk
  before : Option Locator
  after : Option Locator

inductive Outcome where
  | unresolved (status reason : String)
  | resolved (response : Response)

def windowLocator (window : Window) : Locator where
  windowOrdinal := window.ordinal
  matchRange := { startByte := window.startByte, endByte := window.endByte }

def beforeLocator (target : Window) (selected : Selected) (startByte : Nat) : Option Locator :=
  if target.startByte < startByte then
    some {
      windowOrdinal := target.ordinal
      matchRange := { startByte := target.startByte, endByte := startByte } }
  else if selected.wholeDocument = false ∧ 0 < selected.firstWindow.ordinal then
    (readWindow source (selected.firstWindow.ordinal - 1)).map windowLocator
  else none

def afterLocator (target : Window) (selected : Selected) (endByte : Nat) : Option Locator :=
  if endByte < target.endByte then
    some {
      windowOrdinal := target.ordinal
      matchRange := { startByte := endByte, endByte := target.endByte } }
  else if selected.wholeDocument = false then
    (readWindow source (selected.lastWindow.ordinal + 1)).map windowLocator
  else none

def selectedText (selected : Selected) : Except StoreError Materialized :=
  match selected.materialized with
  | some materialized => .ok materialized
  | none =>
    .error (.plain "Recall range selection did not materialize a bounded source range.")

/-- The text of the selected windows, clipped if it is a single window outside the budget. -/
def recalledRange (target : Window) (matchRange : ByteRange) (maxTokens : Nat)
    (selected : Selected) : Except StoreError Materialized := do
  let single := selected.wholeDocument = false ∧
    selected.firstWindow.ordinal = selected.lastWindow.ordinal
  let fits ← if single then
      match selected.materialized with
      | none => .ok false
      | some materialized => fitsRecallBudget isWord materialized.text maxTokens
    else .ok true
  if fits then selectedText selected
  else (clippedTargetRange contentHash isWord source target matchRange maxTokens
    selected.materialized)

def responseOf (target : Window) (selected : Selected) (materialized : Materialized) :
    Response where
  startByte := materialized.startByte
  endByte := materialized.endByte
  text := materialized.text
  chunks := materialized.chunks
  before := beforeLocator source target selected materialized.startByte
  after := afterLocator source target selected materialized.endByte

def locatorInvalid (reason : String) : Outcome :=
  .unresolved "locator-invalid" reason

/-- `recallSnapshot` of a live document, once the locator is authorized: from the target window to
the range and its continuations. -/
def recallSnapshot (locator : Locator) (request : Request) : Except StoreError Outcome := do
  match readWindow source locator.windowOrdinal with
  | none => return locatorInvalid "The locator window or match coordinates are invalid."
  | some target =>
    if locator.matchRange.startByte < target.startByte
        ∨ target.endByte < locator.matchRange.endByte then
      return locatorInvalid "The locator window or match coordinates are invalid."
    else
      let selected ← selectedWindowRange contentHash isWord source target request
      match selected with
      | none => return locatorInvalid "The locator window neighborhood is incomplete."
      | some selected =>
        let materialized ← recalledRange contentHash isWord source target locator.matchRange
          request.maxTokens selected
        let fits ← fitsRecallBudget isWord materialized.text request.maxTokens
        if fits then return .resolved (responseOf source target selected materialized)
        else throw (.plain "Recalled source exceeds its requested token or UTF-8 byte budget.")

end ContextStore.Recall
