import ContextStore.Foundation.Cuts
import ContextStore.Store.World

/-! # Tokens and search windows

Tokens are the matches of an expression in a text, with the byte offsets of their encoding. A search
window is a run of tokens together with the white space up to the next token; windows may overlap. -/

namespace ContextStore.Recall

open Unicode Concurrent

/-! ## Tokens -/

/-- `\s` -/
def isSpace (c : Char) : Bool :=
  (0x09 ≤ c.toNat && c.toNat ≤ 0x0d) || c.toNat = 0x20 || c.toNat = 0xa0 || c.toNat = 0x1680 ||
    (0x2000 ≤ c.toNat && c.toNat ≤ 0x200a) || c.toNat = 0x2028 || c.toNat = 0x2029 ||
    c.toNat = 0x202f || c.toNat = 0x205f || c.toNat = 0x3000 || c.toNat = 0xfeff

structure Token where
  value : List Char
  startByte : Nat
  endByte : Nat

-- `isWord` is `[\p{L}\p{M}\p{N}_]`, which is a matter of the Unicode tables
variable (isWord : Char → Bool)

/-- The matches of `/[\p{L}\p{M}\p{N}_]+|[^\s]/gu`: a word character directly before another belongs
to the same match. -/
def matchesFrom : List Char → Nat → List Token
  | [], _ => []
  | c :: rest, offset =>
    let next := offset + c.utf8Size
    if isWord c then
      if rest.head?.any isWord then
        (matchesFrom rest next).modifyHead fun token =>
          { token with value := c :: token.value, startByte := offset }
      else { value := [c], startByte := offset, endByte := next } :: matchesFrom rest next
    else if isSpace c then matchesFrom rest next
    else { value := [c], startByte := offset, endByte := next } :: matchesFrom rest next

def maxSearchTokensPerDocument : Nat := 250000

def tokenizeWithByteOffsets (chars : List Char) : Except StoreError (List Token) :=
  let tokens := matchesFrom isWord chars 0
  if maxSearchTokensPerDocument < tokens.length then
    .error (.coded "INVALID_REQUEST" s!"Document contains more than {maxSearchTokensPerDocument} searchable tokens; split it into smaller archival documents.")
  else .ok tokens

/-! ## How many tokens a text has -/

section Count

variable {isWord}

theorem matchesFrom_ne_nil {chars : List Char} (h : chars.head?.any isWord = true)
    (offset : Nat) : matchesFrom isWord chars offset ≠ [] := by
  induction chars generalizing offset with
  | nil => simp at h
  | cons c rest ih =>
    have hword : isWord c = true := by simpa using h
    rw [matchesFrom, if_pos hword]
    split
    · next hrest =>
      intro hnil
      exact ih hrest _ (List.modifyHead_eq_nil_iff.mp hnil)
    · simp

/-- One if a match ends with the character, whose successor is `next`. -/
def matchEnds (isWord : Char → Bool) (c : Char) (next : Option Char) : Nat :=
  if isWord c then if next.any isWord then 0 else 1 else if isSpace c then 0 else 1

theorem length_matchesFrom_cons (c : Char) (rest : List Char) (offset : Nat) :
    (matchesFrom isWord (c :: rest) offset).length =
      matchEnds isWord c rest.head? + (matchesFrom isWord rest (offset + c.utf8Size)).length := by
  simp only [matchesFrom, matchEnds]
  split
  · split <;> simp [Nat.add_comm]
  · split <;> simp [Nat.add_comm]

theorem length_matchesFrom_offset (chars : List Char) (offset offset' : Nat) :
    (matchesFrom isWord chars offset).length = (matchesFrom isWord chars offset').length := by
  induction chars generalizing offset offset' with
  | nil => rfl
  | cons c rest ih =>
    rw [length_matchesFrom_cons, length_matchesFrom_cons, ih _ (offset' + c.utf8Size)]

theorem length_matchesFrom_le_append_left (before after : List Char) (offset : Nat) :
    (matchesFrom isWord after offset).length ≤
      (matchesFrom isWord (before ++ after) offset).length := by
  induction before generalizing offset with
  | nil => exact Nat.le_refl _
  | cons c before ih =>
    rw [List.cons_append, length_matchesFrom_cons,
      length_matchesFrom_offset _ (offset + c.utf8Size) offset]
    exact Nat.le_add_left_of_le (ih offset)

theorem length_matchesFrom_le_append_right (before after : List Char) (offset : Nat) :
    (matchesFrom isWord before offset).length ≤
      (matchesFrom isWord (before ++ after) offset).length := by
  induction before generalizing offset with
  | nil => exact Nat.zero_le _
  | cons c before ih =>
    have hrest := ih (offset + c.utf8Size)
    rw [List.cons_append, length_matchesFrom_cons, length_matchesFrom_cons]
    cases before with
    | cons d before => exact Nat.add_le_add_left hrest _
    | nil =>
      -- the match of the last character may go on in the text that follows
      by_cases hnext : after.head?.any isWord = true
      · have hpos := List.length_pos_iff.mpr (matchesFrom_ne_nil hnext (offset + c.utf8Size))
        have hle : matchEnds isWord c [].head? ≤ 1 := by
          rw [matchEnds]
          split
          · split <;> omega
          · split <;> omega
        simp only [List.nil_append, matchesFrom, List.length_nil]
        omega
      · simp [matchEnds, hnext, matchesFrom]

/-- A piece of a text has no more tokens than the text. -/
theorem length_matchesFrom_slice_le {chars : List Char} {a b : Nat} (ha : IsCut chars a)
    (hb : IsCut chars b) (hab : a ≤ b) (offset : Nat) :
    (matchesFrom isWord (slice chars a b) offset).length ≤
      (matchesFrom isWord chars offset).length := by
  obtain ⟨before, after, heq, -⟩ := ha.split_slice hb hab
  calc (matchesFrom isWord (slice chars a b) offset).length
      ≤ (matchesFrom isWord (before ++ slice chars a b) offset).length :=
        length_matchesFrom_le_append_left before _ offset
    _ ≤ (matchesFrom isWord (before ++ slice chars a b ++ after) offset).length :=
        length_matchesFrom_le_append_right _ after offset
    _ = (matchesFrom isWord chars offset).length := by rw [← heq]

end Count

/-! ## Where the tokens lie -/

section Places

variable {isWord} {chars : List Char} {offset : Nat} {token : Token}

theorem matchesFrom_cons_of_new {c : Char} {rest : List Char}
    (hnext : isWord c = true → rest.head?.any isWord = false)
    (hspace : isWord c = false → isSpace c = false) :
    matchesFrom isWord (c :: rest) offset =
      { value := [c], startByte := offset, endByte := offset + c.utf8Size } ::
        matchesFrom isWord rest (offset + c.utf8Size) := by
  by_cases hword : isWord c = true
  · simp only [matchesFrom, hword, hnext hword, if_true, if_false, Bool.false_eq_true]
  · have hfalse := Bool.eq_false_iff.mpr hword
    simp only [matchesFrom, hfalse, hspace hfalse, if_false, Bool.false_eq_true]

theorem matchesFrom_cons_cases (isWord : Char → Bool) (c : Char) (rest : List Char) (offset : Nat) :
    (isWord c = false ∧ isSpace c = true ∧
      matchesFrom isWord (c :: rest) offset = matchesFrom isWord rest (offset + c.utf8Size)) ∨
    (isWord c = true ∧ rest.head?.any isWord = true ∧ ∃ first more,
      matchesFrom isWord rest (offset + c.utf8Size) = first :: more ∧
      matchesFrom isWord (c :: rest) offset =
        { first with value := c :: first.value, startByte := offset } :: more) ∨
    ((isWord c = true → rest.head?.any isWord = false) ∧ (isWord c = false → isSpace c = false) ∧
      matchesFrom isWord (c :: rest) offset =
        { value := [c], startByte := offset, endByte := offset + c.utf8Size } ::
          matchesFrom isWord rest (offset + c.utf8Size)) := by
  by_cases hword : isWord c = true
  · by_cases hnext : rest.head?.any isWord = true
    · obtain ⟨first, more, hfirst⟩ :=
        List.exists_cons_of_ne_nil (matchesFrom_ne_nil hnext (offset + c.utf8Size))
      refine .inr (.inl ⟨hword, hnext, first, more, hfirst, ?_⟩)
      simp only [matchesFrom, hword, hnext, if_true, hfirst, List.modifyHead_cons]
    · have hnew := Bool.eq_false_iff.mpr hnext
      exact .inr (.inr ⟨fun _ => hnew, by simp [hword],
        matchesFrom_cons_of_new (fun _ => hnew) (by simp [hword])⟩)
  · by_cases hspace : isSpace c = true
    · refine .inl ⟨Bool.eq_false_iff.mpr hword, hspace, ?_⟩
      simp only [matchesFrom, hword, hspace, if_true, if_false, Bool.false_eq_true]
    · have hvisible := Bool.eq_false_iff.mpr hspace
      exact .inr (.inr ⟨fun h => absurd h hword, fun _ => hvisible,
        matchesFrom_cons_of_new (fun h => absurd h hword) (fun _ => hvisible)⟩)

theorem matchesFrom_bounds (h : token ∈ matchesFrom isWord chars offset) :
    offset ≤ token.startByte ∧ token.startByte < token.endByte ∧
      token.endByte ≤ offset + byteLength chars := by
  induction chars generalizing offset token with
  | nil => cases h
  | cons c rest ih =>
    have hsize := c.utf8Size_pos
    have hlength : byteLength (c :: rest) = c.utf8Size + byteLength rest := byteLength_cons c rest
    have hrest : ∀ token ∈ matchesFrom isWord rest (offset + c.utf8Size),
        offset + c.utf8Size ≤ token.startByte ∧ token.startByte < token.endByte ∧
          token.endByte ≤ offset + byteLength (c :: rest) := by
      intro token hmem
      have := ih hmem
      omega
    rcases matchesFrom_cons_cases isWord c rest offset with
      ⟨-, -, heq⟩ | ⟨-, -, first, more, hfirst, heq⟩ | ⟨-, -, heq⟩
    · have := hrest token (heq ▸ h)
      omega
    · rw [heq] at h
      rw [hfirst] at hrest
      rcases List.mem_cons.mp h with rfl | h
      · have := hrest first List.mem_cons_self
        dsimp only
        omega
      · have := hrest token (List.mem_cons_of_mem _ h)
        omega
    · rw [heq] at h
      rcases List.mem_cons.mp h with rfl | h
      · dsimp only
        omega
      · have := hrest token h
        omega

/-- Tokens come in order and do not overlap. -/
theorem matchesFrom_pairwise (chars : List Char) (offset : Nat) :
    (matchesFrom isWord chars offset).Pairwise fun token later =>
      token.endByte ≤ later.startByte := by
  induction chars generalizing offset with
  | nil => exact List.Pairwise.nil
  | cons c rest ih =>
    have hrest := ih (offset + c.utf8Size)
    rcases matchesFrom_cons_cases isWord c rest offset with
      ⟨-, -, heq⟩ | ⟨-, -, first, more, hfirst, heq⟩ | ⟨-, -, heq⟩
    · rw [heq]
      exact hrest
    · rw [hfirst, List.pairwise_cons] at hrest
      rw [heq, List.pairwise_cons]
      exact hrest
    · rw [heq, List.pairwise_cons]
      exact ⟨fun later hmem => (matchesFrom_bounds hmem).1, hrest⟩

theorem matchesFrom_order {i j : Nat} {later : Token} (hij : i < j)
    (h : (matchesFrom isWord chars offset)[i]? = some token)
    (hlater : (matchesFrom isWord chars offset)[j]? = some later) :
    token.endByte ≤ later.startByte := by
  obtain ⟨hi, rfl⟩ := List.getElem?_eq_some_iff.mp h
  obtain ⟨hj, rfl⟩ := List.getElem?_eq_some_iff.mp hlater
  exact List.pairwise_iff_getElem.mp (matchesFrom_pairwise chars offset) i j hi hj hij

theorem matchesFrom_drop {i : Nat} (h : (matchesFrom isWord chars offset)[i]? = some token) :
    ∃ before after, chars = before ++ after ∧ offset + byteLength before = token.startByte ∧
      matchesFrom isWord after token.startByte = (matchesFrom isWord chars offset).drop i := by
  induction chars generalizing offset i token with
  | nil => simp [matchesFrom] at h
  | cons c rest ih =>
    -- a token of the rest, with the character in front of what precedes it
    have hrest : ∀ (j : Nat) token,
        (matchesFrom isWord rest (offset + c.utf8Size))[j]? = some token →
        ∃ before after, c :: rest = before ++ after ∧ offset + byteLength before = token.startByte ∧
          matchesFrom isWord after token.startByte =
            (matchesFrom isWord rest (offset + c.utf8Size)).drop j := by
      intro j token hj
      obtain ⟨before, after, hsplit, hstart, hdrop⟩ := ih hj
      refine ⟨c :: before, after, by rw [hsplit, List.cons_append], ?_, hdrop⟩
      rw [byteLength_cons, ← hstart, Nat.add_assoc]
    rcases matchesFrom_cons_cases isWord c rest offset with
      ⟨-, -, heq⟩ | ⟨-, -, first, more, hfirst, heq⟩ | ⟨-, -, heq⟩
    · rw [heq] at h ⊢
      exact hrest i token h
    · rw [heq] at h
      cases i with
      | zero =>
        obtain rfl := Option.some.inj h
        exact ⟨[], c :: rest, rfl, rfl, rfl⟩
      | succ i =>
        obtain ⟨before, after, hsplit, hstart, hdrop⟩ := hrest (i + 1) token (by
          rw [hfirst]
          exact h)
        refine ⟨before, after, hsplit, hstart, ?_⟩
        rw [hdrop, hfirst, heq]
        rfl
    · rw [heq] at h
      cases i with
      | zero =>
        obtain rfl := Option.some.inj h
        exact ⟨[], c :: rest, rfl, rfl, rfl⟩
      | succ i =>
        obtain ⟨before, after, hsplit, hstart, hdrop⟩ := hrest i token h
        refine ⟨before, after, hsplit, hstart, ?_⟩
        rw [hdrop, heq]
        rfl

/-- Cut behind one of its tokens, a text has the tokens up to that one. -/
theorem matchesFrom_take {i : Nat} (h : (matchesFrom isWord chars offset)[i]? = some token) :
    ∃ before after, chars = before ++ after ∧ offset + byteLength before = token.endByte ∧
      matchesFrom isWord before offset = (matchesFrom isWord chars offset).take (i + 1) := by
  induction chars generalizing offset i token with
  | nil => simp [matchesFrom] at h
  | cons c rest ih =>
    have hrest : ∀ (j : Nat) token,
        (matchesFrom isWord rest (offset + c.utf8Size))[j]? = some token →
        ∃ before after, rest = before ++ after ∧
          offset + byteLength (c :: before) = token.endByte ∧ before.head? = rest.head? ∧
          matchesFrom isWord before (offset + c.utf8Size) =
            (matchesFrom isWord rest (offset + c.utf8Size)).take (j + 1) := by
      intro j token hj
      obtain ⟨before, after, hsplit, hend, htake⟩ := ih hj
      refine ⟨before, after, hsplit, by rw [byteLength_cons, ← hend, Nat.add_assoc], ?_, htake⟩
      cases before with
      | cons d before => rw [hsplit, List.cons_append, List.head?_cons, List.head?_cons]
      | nil =>
        have hlength := congrArg List.length htake
        obtain ⟨hlt, -⟩ := List.getElem?_eq_some_iff.mp hj
        simp only [matchesFrom, List.length_nil, List.length_take] at hlength
        omega
    rcases matchesFrom_cons_cases isWord c rest offset with
      ⟨hword, hspace, heq⟩ | ⟨hword, hnext, first, more, hfirst, heq⟩ | ⟨hnext, hspace, heq⟩
    · rw [heq] at h ⊢
      obtain ⟨before, after, hsplit, hend, -, htake⟩ := hrest i token h
      refine ⟨c :: before, after, by rw [hsplit, List.cons_append], hend, ?_⟩
      rw [← htake]
      simp [matchesFrom, hword, hspace]
    · -- the first character changes where the match begins, not where it ends
      obtain ⟨same, hsame, hend⟩ : ∃ same, (first :: more)[i]? = some same ∧
          same.endByte = token.endByte := by
        rw [heq] at h
        cases i with
        | zero =>
          obtain rfl := Option.some.inj h
          exact ⟨first, rfl, rfl⟩
        | succ i => exact ⟨token, h, rfl⟩
      obtain ⟨before, after, hsplit, hbefore, hhead, htake⟩ := hrest i same (hfirst ▸ hsame)
      refine ⟨c :: before, after, by rw [hsplit, List.cons_append], hbefore.trans hend, ?_⟩
      rw [heq]
      simp only [matchesFrom, hword, hhead, hnext, if_true, htake, hfirst, List.take_succ_cons,
        List.modifyHead_cons]
    · rw [heq] at h
      cases i with
      | zero =>
        obtain rfl := Option.some.inj h
        refine ⟨[c], rest, rfl, by simp, ?_⟩
        rw [heq, matchesFrom_cons_of_new (fun _ => rfl) hspace]
        rfl
      | succ i =>
        obtain ⟨before, after, hsplit, hend, hhead, htake⟩ := hrest i token h
        refine ⟨c :: before, after, by rw [hsplit, List.cons_append], hend, ?_⟩
        rw [heq, matchesFrom_cons_of_new (fun hword => hhead ▸ hnext hword) hspace, htake]
        rfl

theorem matchesFrom_between {first last : Token} {i j : Nat} (hij : i ≤ j)
    (hfirst : (matchesFrom isWord chars 0)[i]? = some first)
    (hlast : (matchesFrom isWord chars 0)[j]? = some last) :
    IsCut chars first.startByte ∧ IsCut chars last.endByte ∧
      (matchesFrom isWord (slice chars first.startByte last.endByte) 0).length = j + 1 - i := by
  obtain ⟨before, after, rfl, hstart, hdrop⟩ := matchesFrom_drop hfirst
  rw [Nat.zero_add] at hstart
  have hlast' : (matchesFrom isWord after first.startByte)[j - i]? = some last := by
    rw [hdrop, List.getElem?_drop, Nat.add_sub_cancel' hij]
    exact hlast
  obtain ⟨between, rest, rfl, hend, htake⟩ := matchesFrom_take hlast'
  obtain ⟨hlt, -⟩ := List.getElem?_eq_some_iff.mp hlast
  refine ⟨⟨before, between ++ rest, rfl, hstart⟩,
    ⟨before ++ between, rest, by simp, by rw [byteLength_append, hstart, hend]⟩, ?_⟩
  rw [← hstart, ← List.append_assoc, slice_append before between rest (by omega),
    length_matchesFrom_offset _ 0 first.startByte, htake, hdrop, List.length_take, List.length_drop]
  omega

end Places

/-! ## Search windows -/

/-- The coordinates of a stored search window. -/
structure Window where
  ordinal : Nat
  startByte : Nat
  endByte : Nat
deriving DecidableEq

/-- What `normalizeWindowOptions` accepts. -/
structure WindowOptions where
  windowTokens : Nat
  overlapTokens : Nat
  positive : 0 < windowTokens
  smaller : overlapTokens < windowTokens

/-- `tokens[index].startByte` -/
def tokenStart (tokens : List Token) (index : Nat) : Nat :=
  (tokens[index]?.map Token.startByte).getD 0

/-- The loop of `createSearchWindows`. -/
def windowsFrom (options : WindowOptions) (tokens : List Token) (length : Nat) :
    Nat → Nat → Nat → List Window
  | 0, _, _ => []
  | fuel + 1, startToken, ordinal =>
    let endToken := min (startToken + options.windowTokens) tokens.length
    let window : Window := {
      ordinal
      startByte := if startToken = 0 then 0 else tokenStart tokens startToken
      endByte := if endToken = tokens.length then length else tokenStart tokens endToken }
    if tokens.length ≤ startToken then []
    else if endToken = tokens.length then [window]
    else window :: windowsFrom options tokens length fuel
      (startToken + (options.windowTokens - options.overlapTokens)) (ordinal + 1)

def createSearchWindows (options : WindowOptions) (chars : List Char) :
    Except StoreError (List Window) := do
  let tokens ← tokenizeWithByteOffsets isWord chars
  return if tokens = [] then [{ ordinal := 0, startByte := 0, endByte := byteLength chars }]
    else windowsFrom options tokens (byteLength chars) tokens.length 0 0

/-- A token begins with a character that is not white space, unless that is a word character. -/
theorem exists_first_of_mem_matchesFrom {isWord : Char → Bool} {chars : List Char} {offset : Nat}
    {token : Token} (h : token ∈ matchesFrom isWord chars offset) :
    ∃ before c after, chars = before ++ c :: after ∧
      offset + byteLength before = token.startByte ∧ (isWord c = false → isSpace c = false) := by
  obtain ⟨i, hi⟩ := List.getElem?_of_mem h
  obtain ⟨before, after, rfl, hstart, hdrop⟩ := matchesFrom_drop hi
  obtain ⟨hlt, -⟩ := List.getElem?_eq_some_iff.mp hi
  have hhead : (matchesFrom isWord after token.startByte)[0]? = some token := by
    rw [hdrop, List.getElem?_drop]
    exact hi
  cases after with
  | nil => simp [matchesFrom] at hhead
  | cons c after =>
    refine ⟨before, c, after, rfl, hstart, fun hword => ?_⟩
    rcases matchesFrom_cons_cases isWord c after token.startByte with
      ⟨-, -, heq⟩ | ⟨hword', -⟩ | ⟨-, hspace, -⟩
    · -- the tokens behind white space begin behind it
      rw [heq] at hhead
      have hbounds := (matchesFrom_bounds (List.mem_of_getElem? hhead)).1
      have hsize := c.utf8Size_pos
      omega
    · rw [hword] at hword'
      cases hword'
    · exact hspace hword

/-! ### The layout of the windows -/

/-- The next window begins behind the start of the one before it, but not behind its end. -/
def Window.Leads (window next : Window) : Prop :=
  next.ordinal = window.ordinal + 1 ∧ window.startByte < next.startByte ∧
    next.startByte ≤ window.endByte ∧ window.endByte < next.endByte

/-- The windows of a text: they lead from its start to its end, from cut to cut. -/
structure Layout (chars : List Char) (windows : List Window) : Prop where
  chain : windows.IsChain Window.Leads
  first : windows.head?.any (fun window => window.ordinal = 0 ∧ window.startByte = 0) = true
  last : windows.getLast?.any (fun window => window.endByte = byteLength chars) = true
  cuts : ∀ window ∈ windows, IsCut chars window.startByte ∧ IsCut chars window.endByte ∧
    window.startByte ≤ window.endByte ∧ (window.startByte = window.endByte → chars = [])

section Layout

variable {isWord} {chars : List Char} {options : WindowOptions}

/-- Where the `index`-th window edge lies: at the start of the token, or at an end of the text. -/
def edge (isWord : Char → Bool) (chars : List Char) (index : Nat) : Nat :=
  if index = 0 then 0
  else ((matchesFrom isWord chars 0)[index]?.map Token.startByte).getD (byteLength chars)

theorem edge_cases (isWord : Char → Bool) (chars : List Char) (index : Nat) :
    edge isWord chars index = 0 ∧ index = 0 ∨
    (∃ token, (matchesFrom isWord chars 0)[index]? = some token ∧
      edge isWord chars index = token.startByte) ∨
    (edge isWord chars index = byteLength chars ∧ (matchesFrom isWord chars 0).length ≤ index) := by
  rw [edge]
  split
  · exact .inl ⟨rfl, by assumption⟩
  · cases htoken : (matchesFrom isWord chars 0)[index]? with
    | none => exact .inr (.inr ⟨rfl, List.getElem?_eq_none_iff.mp htoken⟩)
    | some token => exact .inr (.inl ⟨token, rfl, rfl⟩)

theorem isCut_edge (isWord : Char → Bool) (chars : List Char) (index : Nat) :
    IsCut chars (edge isWord chars index) := by
  rcases edge_cases isWord chars index with ⟨hzero, -⟩ | ⟨token, htoken, hedge⟩ | ⟨hend, -⟩
  · rw [hzero]
    exact IsCut.zero chars
  · rw [hedge]
    exact (matchesFrom_between (Nat.le_refl index) htoken htoken).1
  · rw [hend]
    exact IsCut.end chars

theorem edge_lt_edge {i j : Nat} (hij : i < j) (hi : i < (matchesFrom isWord chars 0).length) :
    edge isWord chars i < edge isWord chars j := by
  obtain ⟨token, htoken⟩ : ∃ token, (matchesFrom isWord chars 0)[i]? = some token :=
    ⟨_, List.getElem?_eq_getElem hi⟩
  obtain ⟨-, hstart, hend⟩ := matchesFrom_bounds (List.mem_of_getElem? htoken)
  have hle : edge isWord chars i ≤ token.startByte := by
    rcases edge_cases isWord chars i with ⟨hzero, -⟩ | ⟨same, hsame, hedge⟩ | ⟨-, hlength⟩
    · omega
    · obtain rfl := Option.some.inj (htoken.symm.trans hsame)
      exact Nat.le_of_eq hedge
    · omega
  rcases edge_cases isWord chars j with ⟨-, hzero⟩ | ⟨later, hlater, hedge⟩ | ⟨hedge, -⟩
  · omega
  · have := matchesFrom_order hij htoken hlater
    omega
  · omega

theorem edge_le_edge {i j : Nat} (hij : i ≤ j) (hi : i < (matchesFrom isWord chars 0).length) :
    edge isWord chars i ≤ edge isWord chars j := by
  rcases Nat.eq_or_lt_of_le hij with rfl | hlt
  · exact Nat.le_refl _
  · exact Nat.le_of_lt (edge_lt_edge hlt hi)

theorem edge_eq_end {i : Nat} (hi : (matchesFrom isWord chars 0).length ≤ i) (hpos : 0 < i) :
    edge isWord chars i = byteLength chars := by
  rw [edge, if_neg (by omega), List.getElem?_eq_none hi]
  rfl

theorem edge_eq_tokenStart {i : Nat} (hi : i < (matchesFrom isWord chars 0).length)
    (hpos : 0 < i) : edge isWord chars i = tokenStart (matchesFrom isWord chars 0) i := by
  rw [edge, if_neg (by omega), tokenStart, List.getElem?_eq_getElem hi]
  rfl

/-- The window that a round of the loop makes. -/
def windowAt (isWord : Char → Bool) (chars : List Char) (options : WindowOptions)
    (startToken ordinal : Nat) : Window where
  ordinal
  startByte := edge isWord chars startToken
  endByte := edge isWord chars (startToken + options.windowTokens)

/-- One round of the loop: the last window, or a window and the rest. -/
theorem windowsFrom_succ {startToken : Nat} (fuel ordinal : Nat)
    (hstart : startToken < (matchesFrom isWord chars 0).length) :
    windowsFrom options (matchesFrom isWord chars 0) (byteLength chars) (fuel + 1) startToken
        ordinal = windowAt isWord chars options startToken ordinal ::
      if (matchesFrom isWord chars 0).length ≤ startToken + options.windowTokens then []
      else windowsFrom options (matchesFrom isWord chars 0) (byteLength chars) fuel
        (startToken + (options.windowTokens - options.overlapTokens)) (ordinal + 1) := by
  have hpositive := options.positive
  have hfirst : (if startToken = 0 then 0
      else tokenStart (matchesFrom isWord chars 0) startToken) = edge isWord chars startToken := by
    split
    · next hzero => rw [hzero, edge, if_pos rfl]
    · rw [edge_eq_tokenStart hstart (by omega)]
  rw [windowsFrom, if_neg (by omega), hfirst]
  by_cases hend : (matchesFrom isWord chars 0).length ≤ startToken + options.windowTokens
  · rw [Nat.min_eq_right hend, if_pos rfl, if_pos rfl, if_pos hend, windowAt,
      edge_eq_end hend (by omega)]
  · have hlt : startToken + options.windowTokens < (matchesFrom isWord chars 0).length := by omega
    rw [Nat.min_eq_left (Nat.le_of_lt hlt), if_neg (Nat.ne_of_lt hlt), if_neg (Nat.ne_of_lt hlt),
      if_neg hend, windowAt, edge_eq_tokenStart hlt (by omega)]

theorem windowsFrom_layout (options : WindowOptions) {fuel startToken : Nat} (ordinal : Nat)
    (hstart : startToken < (matchesFrom isWord chars 0).length)
    (hfuel : (matchesFrom isWord chars 0).length ≤ startToken + fuel) :
    ∃ rest, windowsFrom options (matchesFrom isWord chars 0) (byteLength chars) fuel startToken
        ordinal = windowAt isWord chars options startToken ordinal :: rest ∧
      (windowAt isWord chars options startToken ordinal :: rest).IsChain Window.Leads ∧
      ((windowAt isWord chars options startToken ordinal :: rest).getLast?.any
        fun window => window.endByte = byteLength chars) = true ∧
      ∀ window ∈ windowAt isWord chars options startToken ordinal :: rest, ∃ i j, i < j ∧
        i < (matchesFrom isWord chars 0).length ∧ window.startByte = edge isWord chars i ∧
        window.endByte = edge isWord chars j := by
  induction fuel generalizing startToken ordinal with
  | zero => omega
  | succ fuel ih =>
    have hpositive := options.positive
    have hsmaller := options.smaller
    rw [windowsFrom_succ fuel ordinal hstart]
    refine ⟨_, rfl, ?_⟩
    have hself : ∃ i j, i < j ∧ i < (matchesFrom isWord chars 0).length ∧
        (windowAt isWord chars options startToken ordinal).startByte = edge isWord chars i ∧
        (windowAt isWord chars options startToken ordinal).endByte = edge isWord chars j :=
      ⟨startToken, startToken + options.windowTokens, by omega, hstart, rfl, rfl⟩
    split
    · next hend =>
      refine ⟨List.IsChain.singleton _, ?_, ?_⟩
      · simp [windowAt, edge_eq_end hend (by omega)]
      · intro window hmem
        rw [List.mem_singleton.mp hmem]
        exact hself
    · next hend =>
      have hnext : startToken + (options.windowTokens - options.overlapTokens) <
          (matchesFrom isWord chars 0).length := by omega
      obtain ⟨rest, heq, hchain, hlast, hcuts⟩ := ih (ordinal + 1) hnext (by omega)
      rw [heq]
      refine ⟨List.isChain_cons_cons.mpr ⟨⟨rfl, ?_, ?_, ?_⟩, hchain⟩, ?_, ?_⟩
      · exact edge_lt_edge (by omega) hstart
      · exact edge_le_edge (by omega) (by omega)
      · exact edge_lt_edge (by omega) (by omega)
      · simpa using hlast
      · intro window hmem
        rcases List.mem_cons.mp hmem with rfl | hmem
        · exact hself
        · exact hcuts window hmem

theorem createSearchWindows_layout {windows : List Window}
    (h : createSearchWindows isWord options chars = .ok windows) : Layout chars windows := by
  rw [createSearchWindows, tokenizeWithByteOffsets] at h
  obtain ⟨tokens, htokens, h⟩ := bind_ok_iff.mp h
  split at htokens
  · cases htokens
  · obtain rfl := Except.ok.inj htokens
    obtain rfl := Except.ok.inj h
    split
    · next hnil =>
      refine ⟨List.IsChain.singleton _, by simp, by simp, ?_⟩
      intro window hmem
      rw [List.mem_singleton.mp hmem]
      exact ⟨IsCut.zero chars, IsCut.end chars, Nat.zero_le _,
        fun hzero => eq_nil_of_byteLength_eq_zero hzero.symm⟩
    · next hne =>
      obtain ⟨rest, heq, hchain, hlast, hcuts⟩ := windowsFrom_layout options 0
        (List.length_pos_iff.mpr hne) (Nat.le_add_left _ _)
      rw [heq]
      refine ⟨hchain, by simp [windowAt, edge], hlast, ?_⟩
      intro window hmem
      obtain ⟨i, j, hij, hi, hstart, hend⟩ := hcuts window hmem
      have hlt := edge_lt_edge hij hi
      rw [hstart, hend]
      exact ⟨isCut_edge _ _ _, isCut_edge _ _ _, Nat.le_of_lt hlt, fun heq => by omega⟩

theorem createSearchWindows_starts {windows : List Window}
    (h : createSearchWindows isWord options chars = .ok windows) :
    ∀ window ∈ windows, window.startByte = 0 ∨
      ∃ token ∈ matchesFrom isWord chars 0, window.startByte = token.startByte := by
  rw [createSearchWindows, tokenizeWithByteOffsets] at h
  obtain ⟨tokens, htokens, h⟩ := bind_ok_iff.mp h
  split at htokens
  · cases htokens
  · obtain rfl := Except.ok.inj htokens
    obtain rfl := Except.ok.inj h
    intro window hmem
    split at hmem
    · rw [List.mem_singleton.mp hmem]
      exact .inl rfl
    · next hne =>
      obtain ⟨rest, heq, -, -, hcuts⟩ := windowsFrom_layout options 0
        (List.length_pos_iff.mpr hne) (Nat.le_add_left _ _)
      rw [heq] at hmem
      obtain ⟨i, j, -, hi, hstart, -⟩ := hcuts window hmem
      rw [hstart]
      rcases edge_cases isWord chars i with ⟨hzero, -⟩ | ⟨token, htoken, hedge⟩ | ⟨-, hlength⟩
      · exact .inl hzero
      · exact .inr ⟨token, List.mem_of_getElem? htoken, hedge⟩
      · omega

theorem length_le_of_createSearchWindows {windows : List Window}
    (h : createSearchWindows isWord options chars = .ok windows) :
    (matchesFrom isWord chars 0).length ≤ maxSearchTokensPerDocument := by
  rw [createSearchWindows, tokenizeWithByteOffsets] at h
  obtain ⟨tokens, htokens, -⟩ := bind_ok_iff.mp h
  split at htokens
  · cases htokens
  · omega

end Layout

namespace Layout

variable {chars : List Char} {windows : List Window} (h : Layout chars windows)
include h

theorem leads {i : Nat} {window next : Window} (hi : windows[i]? = some window)
    (hnext : windows[i + 1]? = some next) : window.Leads next := by
  obtain ⟨hlt, rfl⟩ := List.getElem?_eq_some_iff.mp hi
  obtain ⟨hlt', rfl⟩ := List.getElem?_eq_some_iff.mp hnext
  exact List.isChain_iff_getElem.mp h.chain i hlt'

theorem exists_first : ∃ window, windows[0]? = some window ∧ window.ordinal = 0 ∧
    window.startByte = 0 := by
  have hfirst := h.first
  rw [List.head?_eq_getElem?, Option.any_eq_true] at hfirst
  obtain ⟨window, hwindow, hzero⟩ := hfirst
  exact ⟨window, hwindow, by simpa using hzero⟩

theorem ordinal_eq {i : Nat} {window : Window} (hi : windows[i]? = some window) :
    window.ordinal = i := by
  induction i generalizing window with
  | zero =>
    obtain ⟨first, hfirst, hzero, -⟩ := h.exists_first
    obtain rfl := Option.some.inj (hfirst.symm.trans hi)
    exact hzero
  | succ i ih =>
    obtain ⟨hlt, -⟩ := List.getElem?_eq_some_iff.mp hi
    have hprevious := List.getElem?_eq_getElem (l := windows) (i := i) (by omega)
    rw [(h.leads hprevious hi).1, ih hprevious]

theorem last_end {i : Nat} {window : Window} (hi : windows[i]? = some window)
    (hlast : windows[i + 1]? = none) : window.endByte = byteLength chars := by
  have hend := h.last
  have hlength := List.getElem?_eq_none_iff.mp hlast
  obtain ⟨hlt, -⟩ := List.getElem?_eq_some_iff.mp hi
  rw [List.getLast?_eq_getElem?, show windows.length - 1 = i by omega, hi] at hend
  simpa using hend

theorem start_lt {i j : Nat} {window later : Window} (hij : i < j)
    (hi : windows[i]? = some window) (hj : windows[j]? = some later) :
    window.startByte < later.startByte ∧ window.endByte < later.endByte := by
  induction j generalizing later with
  | zero => omega
  | succ j ih =>
    obtain ⟨hlt, -⟩ := List.getElem?_eq_some_iff.mp hj
    have hprevious := List.getElem?_eq_getElem (l := windows) (i := j) (by omega)
    obtain ⟨-, hstart, -, hend⟩ := h.leads hprevious hj
    rcases Nat.lt_succ_iff_lt_or_eq.mp hij with hij | rfl
    · have := ih hij hprevious
      omega
    · obtain rfl := Option.some.inj (hi.symm.trans hprevious)
      exact ⟨hstart, hend⟩

theorem start_le {i j : Nat} {window later : Window} (hij : i ≤ j)
    (hi : windows[i]? = some window) (hj : windows[j]? = some later) :
    window.startByte ≤ later.startByte ∧ window.endByte ≤ later.endByte := by
  rcases Nat.eq_or_lt_of_le hij with rfl | hlt
  · obtain rfl := Option.some.inj (hi.symm.trans hj)
    exact ⟨Nat.le_refl _, Nat.le_refl _⟩
  · have := h.start_lt hlt hi hj
    omega

end Layout

end ContextStore.Recall
