import ContextStore.Session.Messages

/-! # Turns of a list of messages

Every list of messages is a preamble without a user message followed by turns that each open with
the only one they have, and `groupCompleteTurns` finds exactly these (`groupCompleteTurns_append`). -/

namespace ContextStore.Session

/-! ## Where turns start -/

def NoUser (messages : List Message) : Prop := ∀ message ∈ messages, message.isUser = false

/-- A user message and what follows it up to the next one. -/
def OpensTurn (messages : List Message) : Prop :=
  ∃ user rest, messages = user :: rest ∧ user.isUser = true ∧ NoUser rest

theorem userStarts_append (first second : List Message) :
    userStarts (first ++ second) =
      userStarts first ++ (userStarts second).map (first.length + ·) := by
  unfold userStarts
  rw [List.length_append, List.range_add, List.filter_append, List.filter_map]
  congr 1
  · apply List.filter_congr
    intro index hindex
    rw [List.getElem?_append_left (List.mem_range.mp hindex)]
  · congr 1
    apply List.filter_congr
    intro index _
    rw [Function.comp_apply, List.getElem?_append_right (Nat.le_add_right _ _),
      Nat.add_sub_cancel_left]

variable {messages : List Message} {turns : List (List Message)}

theorem userStarts_of_noUser (h : NoUser messages) : userStarts messages = [] := by
  unfold userStarts
  rw [List.filter_eq_nil_iff]
  intro index hindex
  rw [List.getElem?_eq_getElem (List.mem_range.mp hindex)]
  simp [h _ (List.getElem_mem _)]

theorem userStarts_of_opensTurn (h : OpensTurn messages) : userStarts messages = [0] := by
  obtain ⟨user, rest, rfl, huser, hrest⟩ := h
  have hsingle : userStarts [user] = [0] := by
    unfold userStarts
    simp [List.range_succ, huser]
  have happend := userStarts_append [user] rest
  rw [hsingle, userStarts_of_noUser hrest] at happend
  exact happend

/-- The offsets of lists put one after the other. -/
def offsets : Nat → List (List Message) → List Nat
  | _, [] => []
  | base, turn :: rest => base :: offsets (base + turn.length) rest

theorem map_add_offsets (shift base : Nat) (turns : List (List Message)) :
    (offsets base turns).map (shift + ·) = offsets (shift + base) turns := by
  induction turns generalizing base with
  | nil => rfl
  | cons turn rest ih =>
    show (shift + base) :: _ = (shift + base) :: _
    rw [ih, Nat.add_assoc]

theorem userStarts_flatten (h : ∀ turn ∈ turns, OpensTurn turn) :
    userStarts turns.flatten = offsets 0 turns := by
  induction turns with
  | nil => rfl
  | cons turn rest ih =>
    have hturn := userStarts_of_opensTurn (h turn List.mem_cons_self)
    have hrest := ih fun turn hmem => h turn (List.mem_cons_of_mem _ hmem)
    rw [List.flatten_cons, userStarts_append, hturn, hrest, map_add_offsets, offsets]
    simp

/-! ## The turns found -/

theorem slice_append (before middle after : List Message) :
    slice (before ++ (middle ++ after)) before.length (before.length + middle.length) = middle := by
  unfold slice
  simp

/-- What a turn is, without its place. -/
def Turn.parts (turn : Turn) : List Message × Bool := (turn.messages, turn.hasUser)

theorem userTurns_offsets (before : List Message) (turns : List (List Message)) :
    (userTurns (before ++ turns.flatten) (offsets before.length turns)).map Turn.parts =
      turns.map fun turn => (turn, true) := by
  induction turns generalizing before with
  | nil => rfl
  | cons turn rest ih =>
    have hrest := ih (before ++ turn)
    rw [List.length_append, List.append_assoc] at hrest
    cases rest with
    | nil =>
      have hslice := slice_append before turn []
      simp only [List.append_nil] at hslice
      simp [offsets, userTurns, Turn.parts, hslice]
    | cons next others =>
      rw [offsets] at hrest
      rw [offsets, offsets, userTurns, List.map_cons, List.flatten_cons, hrest]
      simp [Turn.parts, slice_append]

def preambleParts (preamble : List Message) : List (List Message × Bool) :=
  if preamble = [] then [] else [(preamble, false)]

theorem groupCompleteTurns_append {preamble : List Message} (hpreamble : NoUser preamble)
    (hturns : ∀ turn ∈ turns, OpensTurn turn) :
    (groupCompleteTurns (preamble ++ turns.flatten)).map Turn.parts =
      preambleParts preamble ++ turns.map fun turn => (turn, true) := by
  have hstarts : userStarts (preamble ++ turns.flatten) = offsets preamble.length turns := by
    rw [userStarts_append, userStarts_of_noUser hpreamble, userStarts_flatten hturns,
      map_add_offsets]
    simp
  unfold groupCompleteTurns
  rw [hstarts]
  cases turns with
  | nil =>
    cases preamble with
    | nil => rfl
    | cons message rest => simp [offsets, preambleParts, Turn.parts]
  | cons turn rest =>
    have hfound := userTurns_offsets preamble (turn :: rest)
    rw [offsets] at hfound ⊢
    dsimp only
    rw [List.map_append, hfound]
    congr 1
    cases preamble with
    | nil => rfl
    | cons message others =>
      have hslice := slice_append [] (message :: others) (turn :: rest).flatten
      rw [List.nil_append, List.length_nil, Nat.zero_add] at hslice
      have hsome : 0 < (message :: others).length := Nat.zero_lt_succ _
      rw [if_pos hsome, List.map_singleton, Turn.parts, preambleParts,
        if_neg (List.cons_ne_nil _ _), hslice]

theorem exists_turns (messages : List Message) :
    ∃ (preamble : List Message) (turns : List (List Message)), NoUser preamble ∧
    (∀ turn ∈ turns, OpensTurn turn) ∧ messages = preamble ++ turns.flatten := by
  induction messages with
  | nil => exact ⟨[], [], by simp [NoUser], by simp, rfl⟩
  | cons message rest ih =>
    obtain ⟨preamble, turns, hpreamble, hturns, rfl⟩ := ih
    cases huser : message.isUser with
    | true =>
      refine ⟨[], (message :: preamble) :: turns, by simp [NoUser], ?_, by simp⟩
      intro turn hmem
      rcases List.mem_cons.mp hmem with rfl | hmem
      · exact ⟨message, preamble, rfl, huser, hpreamble⟩
      · exact hturns turn hmem
    | false =>
      refine ⟨message :: preamble, turns, ?_, hturns, rfl⟩
      intro other hmem
      rcases List.mem_cons.mp hmem with rfl | hmem
      · exact huser
      · exact hpreamble other hmem

/-! ## What follows for the turns -/

theorem flatMap_groupCompleteTurns (messages : List Message) :
    (groupCompleteTurns messages).flatMap (·.messages) = messages := by
  obtain ⟨preamble, turns, hpreamble, hturns, rfl⟩ := exists_turns messages
  have hparts := groupCompleteTurns_append hpreamble hturns
  have hmessages := congrArg (fun parts => (parts.map Prod.fst).flatten) hparts
  rw [List.map_map] at hmessages
  refine Eq.trans ?_ (hmessages.trans ?_)
  · rfl
  · cases preamble <;> simp [preambleParts, Function.comp_def]

theorem opensTurn_of_mem {turn : Turn} (h : turn ∈ groupCompleteTurns messages)
    (huser : turn.hasUser = true) : OpensTurn turn.messages := by
  obtain ⟨preamble, turns, hpreamble, hturns, rfl⟩ := exists_turns messages
  have hmem := List.mem_map_of_mem (f := Turn.parts) h
  rw [groupCompleteTurns_append hpreamble hturns] at hmem
  rcases List.mem_append.mp hmem with hfirst | hlater
  · unfold preambleParts at hfirst
    split at hfirst
    · cases hfirst
    · have hparts := List.mem_singleton.mp hfirst
      rw [Turn.parts, huser] at hparts
      cases hparts
  · obtain ⟨found, hfound, hparts⟩ := List.mem_map.mp hlater
    have hmessages : found = turn.messages := congrArg Prod.fst hparts
    exact hmessages ▸ hturns found hfound

theorem groupCompleteTurns_flatMap {turns : List Turn}
    (h : ∀ turn ∈ turns, OpensTurn turn.messages) :
    (groupCompleteTurns (turns.flatMap (·.messages))).map (·.messages) = turns.map (·.messages) := by
  have hnone : NoUser [] := by simp [NoUser]
  have hopen : ∀ messages ∈ turns.map (·.messages), OpensTurn messages := by simpa using h
  have hparts := groupCompleteTurns_append hnone hopen
  have hmessages := congrArg (List.map Prod.fst) hparts
  rw [List.nil_append, ← List.flatMap_def, List.map_map] at hmessages
  refine hmessages.trans ?_
  simp [preambleParts, Function.comp_def]

/-! ## Chunks -/

variable (S : Archive.Setting) {messages chunk : List Message}

theorem ne_nil_of_mem_chunksFrom :
    ∀ {current keyBytes}, chunk ∈ chunksFrom S current keyBytes messages → chunk ≠ [] := by
  induction messages with
  | nil =>
    intro current keyBytes h
    unfold chunksFrom at h
    split at h
    · cases h
    · rename_i hcurrent
      exact List.mem_singleton.mp h ▸ hcurrent
  | cons message rest ih =>
    intro current keyBytes h
    rw [chunksFrom] at h
    split at h
    · rename_i hfull
      rcases List.mem_cons.mp h with rfl | hlater
      · exact hfull.1
      · exact ih hlater
    · exact ih h

theorem ne_nil_of_mem_chunks (h : chunk ∈ checkpointSourceChunks S messages) :
    chunk ≠ [] := ne_nil_of_mem_chunksFrom S h

theorem flatten_chunksFrom :
    ∀ {current keyBytes}, (chunksFrom S current keyBytes messages).flatten = current ++ messages := by
  induction messages with
  | nil =>
    intro current keyBytes
    unfold chunksFrom
    split
    · rename_i hempty
      simp [hempty]
    · simp
  | cons message rest ih =>
    intro current keyBytes
    rw [chunksFrom]
    split
    · rw [List.flatten_cons, ih]
      rfl
    · rw [ih, List.append_assoc]
      rfl

theorem flatten_checkpointSourceChunks (messages : List Message) :
    (checkpointSourceChunks S messages).flatten = messages := flatten_chunksFrom S

end ContextStore.Session
