import ContextStore.Foundation.InsertionMap
import ContextStore.Retrieval.Feedback

/-! # Reformulation chains

A search that showed results none of which was recalled is a miss; it stays open, under every
session it was served to, until a later search of one of these sessions resolves a recall. A
differently worded search is then chained to it. -/

namespace ContextStore.Feedback

open Unicode

variable {Digest Score : Type}

/-- An open miss. -/
structure MissRecord where
  queryKey : Text
  seq : Nat
  sessionIds : List Text
deriving DecidableEq

structure Chain where
  sessionId : Text
  missQueryKey : Text
  missSeq : Nat
  hitQueryKey : Text
  hitSeq : Nat
deriving DecidableEq

/-- The misses that are open under each session, by their query key. -/
abbrev OpenMisses : Type := InsertionMap Text (InsertionMap Text MissRecord)

def OpenMisses.ofSession (openMisses : OpenMisses) (sessionId : Text) :
    InsertionMap Text MissRecord :=
  (openMisses.get sessionId).getD .empty

/-- The variables of the loop of `detectReformulationChains`; `seenChainKeys` holds the pairs of
sequence numbers that its texts spell. -/
structure Detection where
  chains : List Chain
  seenChainKeys : List (Nat × Nat)
  involvedQueryKeys : List Text
  openMissesBySession : OpenMisses

def resolvedRecallCount (event : Event Digest Score) : Nat :=
  (event.recalls.filter fun recorded => recorded.status = some (text "resolved")).length

/-- `involvedQueryKeys.add(queryKey)` -/
def addQueryKey (keys : List Text) (queryKey : Text) : List Text :=
  if queryKey ∈ keys then keys else keys ++ [queryKey]

def closeMiss (miss : MissRecord) (openMisses : OpenMisses) (linkedSessionId : Text) : OpenMisses :=
  match openMisses.get linkedSessionId with
  | none => openMisses
  | some linkedOpenMisses =>
    if (linkedOpenMisses.get miss.queryKey).map MissRecord.seq = some miss.seq then
      openMisses.set linkedSessionId (linkedOpenMisses.delete miss.queryKey)
    else openMisses

def closeMissEverywhere (openMisses : OpenMisses) (miss : MissRecord) : OpenMisses :=
  miss.sessionIds.foldl (closeMiss miss) openMisses

def missRecord (event : Event Digest Score) : MissRecord where
  queryKey := event.queryKey
  seq := event.seq
  sessionIds := event.sessionIds

def chainOf (event : Event Digest Score) (sessionId : Text) (miss : MissRecord) : Chain where
  sessionId
  missQueryKey := miss.queryKey
  missSeq := miss.seq
  hitQueryKey := event.queryKey
  hitSeq := event.seq

/-- One turn of the loop over the open misses of a session: the chain, unless it is known. -/
def addChain (event : Event Digest Score) (sessionId missQueryKey : Text) (miss : MissRecord)
    (state : Detection) : Detection :=
  if (miss.seq, event.seq) ∈ state.seenChainKeys then state
  else { state with
    seenChainKeys := state.seenChainKeys ++ [(miss.seq, event.seq)]
    chains := state.chains ++ [{ chainOf event sessionId miss with missQueryKey }]
    involvedQueryKeys :=
      addQueryKey (addQueryKey state.involvedQueryKeys missQueryKey) event.queryKey }

def Detection.close (state : Detection) (miss : MissRecord) : Detection :=
  { state with openMissesBySession := closeMissEverywhere state.openMissesBySession miss }

def visitMiss (event : Event Digest Score) (sessionId : Text) (state : Detection)
    (entry : Text × MissRecord) : Detection :=
  if entry.1 = event.queryKey then state
  else (addChain event sessionId entry.1 entry.2 state).close entry.2

/-- The search itself resolved, so a miss with its query key is closed. -/
def closeSelf (event : Event Digest Score) (sessionId : Text) (state : Detection) : Detection :=
  match (state.openMissesBySession.ofSession sessionId).get event.queryKey with
  | none => state
  | some selfMiss => state.close selfMiss

/-- The open misses of the session are stored, should there have been none. -/
def Detection.keepSession (state : Detection) (sessionId : Text) : Detection :=
  { state with
    openMissesBySession := state.openMissesBySession.set sessionId
      (state.openMissesBySession.ofSession sessionId) }

/-- The loop over the sessions of an event. The open misses of the session are those when the loop
over them starts: it removes none but the one it is at. -/
def visitSession (event : Event Digest Score) (state : Detection) (sessionId : Text) : Detection :=
  let openMisses := state.openMissesBySession.ofSession sessionId
  if resolvedRecallCount event > 0 then
    (closeSelf event sessionId
      (openMisses.entries.foldl (visitMiss event sessionId) state)).keepSession sessionId
  else { state with
    openMissesBySession := state.openMissesBySession.set sessionId
      (openMisses.set event.queryKey (missRecord event)) }

/-- The loop over the events; one that showed nothing is passed over. -/
def visitEvent (state : Detection) (event : Event Digest Score) : Detection :=
  if event.shown = [] then state
  else event.sessionIds.foldl (visitSession event) state

def detection (events : List (Event Digest Score)) : Detection :=
  events.foldl visitEvent ⟨[], [], [], .empty⟩

structure ReformulationChains where
  chainCount : Nat
  chains : List Chain
  chainQueryKeys : List Text
deriving DecidableEq

def detectReformulationChains (eventsChronological : List (Event Digest Score)) (limit : Nat) :
    ReformulationChains :=
  let state := detection eventsChronological
  { chainCount := state.chains.length
    chains := state.chains.take limit
    chainQueryKeys := state.involvedQueryKeys.take limit }

end ContextStore.Feedback
