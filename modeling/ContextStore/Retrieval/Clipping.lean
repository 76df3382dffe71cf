import ContextStore.Retrieval.RecallFacts

/-! # Clipping a window

A window outside the budgets is clipped to the bytes around the match and then to its tokens. The
clipped text is within the budgets. It has the start of the match unless this start lies in white
space: then it depends on the tokens around it (`KeepsStart`). -/

namespace ContextStore.Recall

open Unicode Concurrent

variable {contentHash : List UInt8 → Digest} {isWord : Char → Bool} {options : WindowOptions}
  {source : Source} {chars : List Char} {windows : List Window}

/-! ## Bytes -/

/-- A range in a longer one. -/
structure ByteRange.Inside (inner outer : ByteRange) : Prop where
  start_le : outer.startByte ≤ inner.startByte
  ordered : inner.startByte ≤ inner.endByte
  end_le : inner.endByte ≤ outer.endByte

def Window.range (window : Window) : ByteRange where
  startByte := window.startByte
  endByte := window.endByte

/-- A match in a window: a stretch of its text. -/
structure MatchIn (chars : List Char) (window : Window) (matchRange : ByteRange) : Prop
    extends matchRange.Inside window.range where
  startCut : IsCut chars matchRange.startByte
  endCut : IsCut chars matchRange.endByte

theorem byteBoundedRange_spec {range matchRange : ByteRange} {maxBytes : Nat}
    (hmatch : matchRange.Inside range) (hlarge : maxBytes < range.endByte - range.startByte)
    (hbytes : 2 ≤ maxBytes) :
    ∃ bounded, byteBoundedRange range matchRange maxBytes = .ok bounded ∧
      range.startByte ≤ bounded.startByte ∧ bounded.startByte ≤ matchRange.startByte ∧
      matchRange.startByte ≤ bounded.endByte ∧ bounded.startByte < bounded.endByte ∧
      bounded.endByte ≤ range.endByte ∧ bounded.endByte - bounded.startByte ≤ maxBytes ∧
      (matchRange.endByte ≤ bounded.endByte ∨
        bounded.endByte = matchRange.startByte + maxBytes) := by
  obtain ⟨hstart, hordered, hend⟩ := hmatch
  have hanchorStart : max range.startByte (min range.endByte matchRange.startByte) =
      matchRange.startByte := by omega
  have hanchorEnd : max matchRange.startByte (min range.endByte matchRange.endByte) =
      matchRange.endByte := by omega
  -- what `boundedStart` gives is a proper range already
  obtain ⟨start, stop, hbounded, hspec⟩ : ∃ start stop,
      boundedStart range matchRange maxBytes = (start, stop) ∧
      range.startByte ≤ start ∧ start ≤ matchRange.startByte ∧ matchRange.startByte ≤ stop ∧
      start < stop ∧ stop ≤ range.endByte ∧ stop - start ≤ maxBytes ∧
      (matchRange.endByte ≤ stop ∨ stop = matchRange.startByte + maxBytes) := by
    rw [boundedStart, hanchorStart]
    dsimp only
    rw [hanchorEnd]
    split
    · exact ⟨_, _, rfl, by omega, by omega, by omega, by omega, by omega, by omega, by omega⟩
    · split <;> split <;>
        exact ⟨_, _, rfl, by omega, by omega, by omega, by omega, by omega, by omega, by omega⟩
  rw [byteBoundedRange, if_neg (by omega), hbounded]
  dsimp only
  rw [if_neg (show ¬ (stop = start ∧ start < range.endByte) by omega), if_neg (by omega)]
  exact ⟨_, rfl, hspec⟩

/-- The stretch of a window that the byte budget leaves around a match: from the first to the last
of the cuts in the bounded range. -/
structure Leaves (chars : List Char) (window : Window) (matchRange : ByteRange) (maxTokens : Nat)
    (left : ByteRange) : Prop where
  startCut : IsCut chars left.startByte
  endCut : IsCut chars left.endByte
  start_le : left.startByte ≤ matchRange.startByte
  le_end : matchRange.startByte ≤ left.endByte
  bounded : ∃ bounded,
    byteBoundedRange window.range matchRange (byteBudget maxTokens) = .ok bounded ∧
    bounded.startByte ≤ left.startByte ∧ left.endByte ≤ bounded.endByte ∧
    ∀ n, IsCut chars n → bounded.startByte ≤ n → n ≤ bounded.endByte →
      left.startByte ≤ n ∧ n ≤ left.endByte

theorem Leaves.unique {window : Window} {matchRange left left' : ByteRange} {maxTokens : Nat}
    (h : Leaves chars window matchRange maxTokens left)
    (h' : Leaves chars window matchRange maxTokens left') : left = left' := by
  obtain ⟨bounded, hbounded, hstart, hend, hcuts⟩ := h.bounded
  obtain ⟨bounded', hbounded', hstart', hend', hcuts'⟩ := h'.bounded
  obtain rfl := Except.ok.inj (hbounded.symm.trans hbounded')
  have hle := h.start_le
  have hle' := h.le_end
  have hmatch := h'.start_le
  have hmatch' := h'.le_end
  have h1 := hcuts _ h'.startCut (by omega) (by omega)
  have h2 := hcuts _ h'.endCut (by omega) (by omega)
  have h3 := hcuts' _ h.startCut (by omega) (by omega)
  have h4 := hcuts' _ h.endCut (by omega) (by omega)
  rcases left with ⟨start, stop⟩
  rcases left' with ⟨start', stop'⟩
  simp only [ByteRange.mk.injEq] at *
  exact ⟨by omega, by omega⟩

theorem MatchIn.leaves_window {window : Window} {matchRange : ByteRange} {maxTokens : Nat}
    (hmatch : MatchIn chars window matchRange) (hstart : IsCut chars window.startByte)
    (hend : IsCut chars window.endByte)
    (hsmall : window.endByte - window.startByte ≤ byteBudget maxTokens) :
    Leaves chars window matchRange maxTokens window.range where
  startCut := hstart
  endCut := hend
  start_le := hmatch.start_le
  le_end := Nat.le_trans hmatch.ordered hmatch.end_le
  bounded := ⟨window.range, if_pos hsmall, Nat.le_refl _, Nat.le_refl _, fun _ _ hlow hhigh =>
    ⟨hlow, hhigh⟩⟩

section Bounding

variable (live : Live contentHash isWord options source chars)
  (h : Windowed isWord source chars windows) {window : Window} {matchRange : ByteRange}
include live h

theorem MatchIn.readBounded {maxTokens : Nat} (hmatch : MatchIn chars window matchRange)
    (hmarks : ∀ left, Leaves chars window matchRange maxTokens left → ¬ MarkAt chars left.startByte)
    (hend : IsCut chars window.endByte) (hpos : 0 < maxTokens)
    (hlarge : byteBudget maxTokens < window.endByte - window.startByte) :
    ∃ left read, boundedText.readBounded contentHash source window matchRange maxTokens =
        .ok read ∧
      read.Exact chars left.startByte left.endByte ∧
      Leaves chars window matchRange maxTokens left ∧
      left.endByte - left.startByte ≤ byteBudget maxTokens ∧ left.Inside window.range ∧
      (matchRange.startByte < matchRange.endByte → matchRange.startByte < left.endByte) := by
  have hbudget : 4 ≤ byteBudget maxTokens := by rw [byteBudget]; omega
  obtain ⟨bounded, hbounded, hlow, hstart, hstop, hne, hhigh, hbytes, hcovers⟩ :=
    byteBoundedRange_spec hmatch.toInside hlarge (by omega)
  have hwindow := hend.le
  obtain ⟨a, b, hinward, hexact⟩ :=
    live.readDocumentRange_adjust_iff (Nat.le_of_lt hne) (Nat.le_trans hhigh hwindow)
  have hlowCut := hinward.start_le
  have hhighCut := hinward.le_end
  obtain ⟨ha, hb, hmatchIn⟩ := hinward.outermost _ hmatch.startCut hstart hstop
  have hcuts : ∀ n, IsCut chars n → bounded.startByte ≤ n → n ≤ bounded.endByte →
      a ≤ n ∧ n ≤ b := fun n hn hlow' hhigh' => (hinward.outermost n hn hlow' hhigh').2.2
  have hleaves : Leaves chars window matchRange maxTokens ⟨a, b⟩ :=
    ⟨ha, hb, hmatchIn.1, hmatchIn.2, bounded, hbounded, hlowCut, hhighCut, hcuts⟩
  obtain ⟨pieces, hread⟩ := hexact.mpr (h.unmarked (hmarks _ hleaves) b)
  refine ⟨⟨a, b⟩, { startByte := a, endByte := b, text := slice chars a b, chunks := pieces }, ?_,
    ⟨rfl, rfl, rfl⟩, hleaves,
    show b - a ≤ _ by omega, ⟨Nat.le_trans hlow hlowCut, by dsimp only; omega,
      Nat.le_trans hhighCut hhigh⟩, fun hnonempty => ?_⟩
  · rw [boundedText.readBounded]
    show (byteBoundedRange window.range matchRange (byteBudget maxTokens) >>= _) = _
    rw [hbounded]
    exact hread
  · -- the end of the match or the end of the next character lies in the range
    have hmatchEnd := hmatch.endCut.le
    obtain ⟨next, hnext, hafter, hclose⟩ := hmatch.startCut.next (by omega)
    rcases hcovers with hall | hbudgetEnd
    · have := (hcuts _ hmatch.endCut (by omega) hall).2
      dsimp only
      omega
    · have := (hcuts _ hnext (by omega) (by omega)).2
      dsimp only
      omega

theorem MatchIn.boundedText_eq {maxTokens : Nat} {current : Option Materialized}
    (hmatch : MatchIn chars window matchRange)
    (hmarks : ∀ left, Leaves chars window matchRange maxTokens left → ¬ MarkAt chars left.startByte)
    (hstart : IsCut chars window.startByte)
    (hend : IsCut chars window.endByte) (hpos : 0 < maxTokens)
    (hcurrent : ∀ materialized, current = some materialized →
      materialized.Exact chars window.startByte window.endByte)
    (hlarge : current = none → byteBudget maxTokens < window.endByte - window.startByte) :
    ∃ left read, boundedText contentHash source window matchRange maxTokens current = .ok read ∧
      read.Exact chars left.startByte left.endByte ∧
      Leaves chars window matchRange maxTokens left ∧
      left.endByte - left.startByte ≤ byteBudget maxTokens ∧ left.Inside window.range ∧
      (matchRange.startByte < matchRange.endByte → matchRange.startByte < left.endByte) := by
  cases current with
  | none => exact hmatch.readBounded live h hmarks hend hpos (hlarge rfl)
  | some materialized =>
    obtain ⟨hfirst, hlast, htext⟩ := hcurrent materialized rfl
    rw [boundedText, hfirst, hlast]
    split
    · next hsmall =>
      refine ⟨window.range, materialized, rfl, ⟨hfirst, hlast, htext⟩,
        hmatch.leaves_window hstart hend hsmall, hsmall, ⟨Nat.le_refl _, ?_, Nat.le_refl _⟩,
        fun hne => Nat.lt_of_lt_of_le hne hmatch.end_le⟩
      exact Nat.le_trans hmatch.start_le (Nat.le_trans hmatch.ordered hmatch.end_le)
    · next hsmall => exact hmatch.readBounded live h hmarks hend hpos (Nat.lt_of_not_le hsmall)

end Bounding

/-! ## Tokens -/

def Ordered (tokens : List Token) : Prop :=
  (∀ token ∈ tokens, token.startByte < token.endByte) ∧
    tokens.Pairwise fun token later => token.endByte ≤ later.startByte

theorem ordered_matchesFrom (text : List Char) : Ordered (matchesFrom isWord text 0) :=
  ⟨fun _ hmem => (matchesFrom_bounds hmem).2.1, matchesFrom_pairwise text 0⟩

variable {tokens : List Token}

theorem Ordered.lt (h : Ordered tokens) {i : Nat} {token : Token}
    (hi : tokens[i]? = some token) : token.startByte < token.endByte :=
  h.1 token (List.mem_of_getElem? hi)

theorem Ordered.end_le (h : Ordered tokens) {i j : Nat} {token later : Token} (hij : i < j)
    (hi : tokens[i]? = some token) (hj : tokens[j]? = some later) :
    token.endByte ≤ later.startByte := by
  obtain ⟨hi', rfl⟩ := List.getElem?_eq_some_iff.mp hi
  obtain ⟨hj', rfl⟩ := List.getElem?_eq_some_iff.mp hj
  exact List.pairwise_iff_getElem.mp h.2 i j hi' hj' hij

theorem Ordered.mono (h : Ordered tokens) {i j : Nat} {token later : Token} (hij : i ≤ j)
    (hi : tokens[i]? = some token) (hj : tokens[j]? = some later) :
    token.startByte ≤ later.startByte ∧ token.endByte ≤ later.endByte := by
  rcases Nat.eq_or_lt_of_le hij with rfl | hlt
  · obtain rfl := Option.some.inj (hi.symm.trans hj)
    exact ⟨Nat.le_refl _, Nat.le_refl _⟩
  · have hle := h.end_le hlt hi hj
    have htoken := h.lt hi
    have hlater := h.lt hj
    omega

/-- What is found from the end: the tokens behind it begin no earlier than the match ends. -/
theorem lastTokenBefore_spec (tokens : List Token) (stop : Nat) :
    (lastTokenBefore tokens stop = none ∧ ∀ token ∈ tokens, stop ≤ token.startByte) ∨
    ∃ i token, lastTokenBefore tokens stop = some i ∧ tokens[i]? = some token ∧
      token.startByte < stop ∧
      ∀ (j : Nat) later, i < j → tokens[j]? = some later → stop ≤ later.startByte := by
  rw [lastTokenBefore]
  cases hfind : tokens.reverse.findIdx? (·.startByte < stop) with
  | none =>
    refine .inl ⟨rfl, fun token hmem => ?_⟩
    have := List.findIdx?_eq_none_iff.mp hfind token (List.mem_reverse.mpr hmem)
    simpa using this
  | some index =>
    obtain ⟨hindex, hfound, hbefore⟩ := List.findIdx?_eq_some_iff_getElem.mp hfind
    rw [List.length_reverse] at hindex
    rw [List.getElem_reverse] at hfound
    refine .inr ⟨tokens.length - 1 - index, _, rfl, List.getElem?_eq_getElem (by omega),
      of_decide_eq_true hfound, fun j later hlt hj => ?_⟩
    obtain ⟨hj, rfl⟩ := List.getElem?_eq_some_iff.mp hj
    have hlater := hbefore (tokens.length - 1 - j) (by omega)
    simp only [List.getElem_reverse, decide_eq_true_eq, Nat.not_lt] at hlater
    have hindex : tokens.length - 1 - (tokens.length - 1 - j) = j := by omega
    simpa only [hindex] using hlater

/-- Whether clipping to `maxTokens` tokens keeps the start of the match, which ends at `stop`. It
does when the first token that ends behind the start has it in it. When this token begins behind the
start, the one before it has to be kept too: either there are fewer than `maxTokens` tokens from
there on, or the match has at least two tokens less than that. When no token ends behind the start,
the match has to be empty and at the end of the last token. -/
def KeepsStart (tokens : List Token) (start stop maxTokens : Nat) : Prop :=
  (∃ k token, tokens.findIdx? (start < ·.endByte) = some k ∧ tokens[k]? = some token ∧
    (token.startByte ≤ start ∨ 0 < k ∧ (tokens.length < k + maxTokens ∨
      ∀ far, tokens[k + maxTokens - 2]? = some far → stop ≤ far.startByte))) ∨
  (start = stop ∧ tokens.getLast?.any (·.endByte = start) = true)

/-- How many tokens of the match stay, by the token that is two too many. -/
theorem Ordered.matchLast_le_iff (h : Ordered tokens) (k stop maxTokens : Nat)
    (hmax : 3 ≤ maxTokens) :
    max k ((lastTokenBefore tokens stop).getD 0) + 3 ≤ k + maxTokens ↔
      ∀ far, tokens[k + maxTokens - 2]? = some far → stop ≤ far.startByte := by
  rcases lastTokenBefore_spec tokens stop with ⟨hnone, hall⟩ | ⟨i, token, hsome, hi, hlt, hbehind⟩
  · rw [hnone]
    refine ⟨fun _ far hfar => hall far (List.mem_of_getElem? hfar), fun _ => ?_⟩
    simp only [Option.getD_none]
    omega
  · rw [hsome]
    simp only [Option.getD_some]
    constructor
    · intro hle far hfar
      exact hbehind _ far (by omega) hfar
    · intro hfar
      -- otherwise the token at that index would begin before the end of the match
      by_contra hnot
      obtain ⟨hi', -⟩ := List.getElem?_eq_some_iff.mp hi
      have hget := List.getElem?_eq_getElem (show k + maxTokens - 2 < tokens.length by omega)
      have hstop := hfar _ hget
      have hmono := (h.mono (show k + maxTokens - 2 ≤ i by omega) hget hi).1
      omega

/-- What the search for the first token found, and where the clipped tokens end. -/
theorem clippedTokens_spec (start stop : Nat) {maxTokens : Nat} (hpos : 0 < maxTokens)
    (hmany : maxTokens < tokens.length) :
    ∃ k spare i, clippedTokens tokens start stop maxTokens = (i, i + maxTokens) ∧
      i = min (tokens.length - maxTokens) (k - spare / 2) ∧ spare < maxTokens ∧
      (2 ≤ spare ↔ max k ((lastTokenBefore tokens stop).getD 0) + 3 ≤ k + maxTokens) ∧
      ((tokens.findIdx? (start < ·.endByte) = none ∧ k + 1 = tokens.length) ∨
        tokens.findIdx? (start < ·.endByte) = some k) := by
  have hfind : (tokens.findIdx? (start < ·.endByte) = none ∧
      (tokens.findIdx? (start < ·.endByte)).getD (tokens.length - 1) + 1 = tokens.length) ∨
      tokens.findIdx? (start < ·.endByte) =
        some ((tokens.findIdx? (start < ·.endByte)).getD (tokens.length - 1)) := by
    cases hfound : tokens.findIdx? (start < ·.endByte) with
    | none => exact .inl ⟨rfl, by simp only [Option.getD_none]; omega⟩
    | some k => exact .inr rfl
  simp only [clippedTokens]
  generalize (tokens.findIdx? (start < ·.endByte)).getD (tokens.length - 1) = k at *
  generalize (lastTokenBefore tokens stop).getD 0 = last
  refine ⟨k, maxTokens - min (max k last - k + 1) maxTokens, _, ?_, rfl, by omega, by omega, hfind⟩
  rw [Prod.mk.injEq]
  exact ⟨by omega, by omega⟩

/-- Clipping to the tokens leaves `maxTokens` many, and the start of the match as `KeepsStart`
says. -/
theorem Ordered.clippedTokens_keeps (h : Ordered tokens) {start stop maxTokens : Nat}
    (hstop : start ≤ stop) (hmax : 3 ≤ maxTokens) (hmany : maxTokens < tokens.length) :
    ∃ i first last, clippedTokens tokens start stop maxTokens = (i, i + maxTokens) ∧
      tokens[i]? = some first ∧ tokens[i + maxTokens - 1]? = some last ∧
      ((first.startByte ≤ start ∧ start ≤ last.endByte ∧ (start < stop → start < last.endByte)) ↔
        KeepsStart tokens start stop maxTokens) := by
  obtain ⟨k, spare, i, hclipped, hi, hspare, htwo, hfind⟩ :=
    clippedTokens_spec start stop (by omega) hmany
  rw [h.matchLast_le_iff k stop maxTokens hmax] at htwo
  have hfirst := List.getElem?_eq_getElem (show i < tokens.length by omega)
  have hlast := List.getElem?_eq_getElem (show i + maxTokens - 1 < tokens.length by omega)
  refine ⟨i, _, _, hclipped, hfirst, hlast, ?_⟩
  generalize tokens[i] = first at hfirst ⊢
  generalize tokens[i + maxTokens - 1] = last at hlast ⊢
  rcases hfind with ⟨hnone, hk⟩ | hsome
  · -- all tokens end before the match, and the last of them is kept
    have hall : ∀ token ∈ tokens, token.endByte ≤ start := by
      intro token hmem
      simpa using List.findIdx?_eq_none_iff.mp hnone token hmem
    have hend : i + maxTokens = tokens.length := by omega
    have hlastOf : tokens.getLast? = some last := by
      rw [List.getLast?_eq_getElem?, ← hend]
      exact hlast
    have hfirstLt := h.lt hfirst
    have hfirstEnd := hall first (List.mem_of_getElem? hfirst)
    have hlastEnd := hall last (List.mem_of_getElem? hlast)
    constructor
    · rintro ⟨-, hle, hlt⟩
      refine .inr ⟨?_, ?_⟩
      · by_contra hne
        have := hlt (by omega)
        omega
      · rw [hlastOf]
        simp only [Option.any_some, decide_eq_true_eq]
        omega
    · rintro (⟨k', token, hfound, -⟩ | ⟨hempty, hany⟩)
      · rw [hnone] at hfound
        cases hfound
      · rw [hlastOf] at hany
        simp only [Option.any_some, decide_eq_true_eq] at hany
        exact ⟨by omega, by omega, by omega⟩
  · obtain ⟨hk, hfound, hbefore⟩ := List.findIdx?_eq_some_iff_getElem.mp hsome
    have hget := List.getElem?_eq_getElem hk
    generalize tokens[k] = token at hfound hget
    have hfound : start < token.endByte := of_decide_eq_true hfound
    -- the token is not behind the last one that is kept
    have hkept := (h.mono (show k ≤ i + maxTokens - 1 by omega) hget hlast).2
    have hearlier : ∀ (j : Nat) other, j < k → tokens[j]? = some other → other.endByte ≤ start := by
      intro j other hj hother
      obtain ⟨hj', rfl⟩ := List.getElem?_eq_some_iff.mp hother
      simpa using hbefore j hj
    constructor
    · rintro ⟨hle, -, -⟩
      refine .inl ⟨k, token, hsome, hget, ?_⟩
      by_cases hin : token.startByte ≤ start
      · exact .inl hin
      · refine .inr ?_
        have hlt : i < k := by
          by_contra hnot
          have := (h.mono (Nat.le_of_not_lt hnot) hget hfirst).1
          omega
        refine ⟨by omega, ?_⟩
        by_cases hfew : tokens.length < k + maxTokens
        · exact .inl hfew
        · exact .inr (htwo.mp (by omega))
    · rintro (⟨k', token', hfound', hget', hkeeps⟩ | ⟨-, hany⟩)
      · obtain rfl := Option.some.inj (hsome.symm.trans hfound')
        obtain rfl := Option.some.inj (hget.symm.trans hget')
        refine ⟨?_, by omega, by omega⟩
        rcases hkeeps with hin | ⟨hpos, hfew⟩
        · have := (h.mono (show i ≤ k by omega) hfirst hget).1
          omega
        · have hlt : i < k := by
            rcases hfew with hfew | hfar
            · omega
            · have := htwo.mpr hfar
              omega
          have hfirstLt := h.lt hfirst
          have := hearlier i first hlt hfirst
          omega
      · exfalso
        rw [Option.any_eq_true] at hany
        obtain ⟨final, hfinal, heq⟩ := hany
        rw [List.getLast?_eq_getElem?] at hfinal
        have := (h.mono (show k ≤ tokens.length - 1 by omega) hget hfinal).2
        simp only [decide_eq_true_eq] at heq
        omega

/-! ## Clipping -/

/-- The range has the start of the match, and more behind it unless the match is empty. -/
def HasStart (matchRange : ByteRange) (startByte endByte : Nat) : Prop :=
  startByte ≤ matchRange.startByte ∧ matchRange.startByte ≤ endByte ∧
    (matchRange.startByte < matchRange.endByte → matchRange.startByte < endByte)

/-- Clipping keeps the start of the match: what the byte budget leaves of the window has few enough
tokens, or those that are kept have it. -/
def StartKept (isWord : Char → Bool) (chars : List Char) (window : Window)
    (matchRange : ByteRange) (maxTokens : Nat) : Prop :=
  ∀ left, Leaves chars window matchRange maxTokens left →
    (matchesFrom isWord (slice chars left.startByte left.endByte) 0).length ≤ maxTokens ∨
      KeepsStart (matchesFrom isWord (slice chars left.startByte left.endByte) 0)
        (matchRange.startByte - left.startByte)
        (min (left.endByte - left.startByte) (matchRange.endByte - left.startByte)) maxTokens

/-- A stretch of the document within the budgets, as it was read. -/
structure Materialized.Good (isWord : Char → Bool) (chars : List Char) (maxTokens : Nat)
    (read : Materialized) : Prop where
  startCut : IsCut chars read.startByte
  endCut : IsCut chars read.endByte
  ordered : read.startByte ≤ read.endByte
  text_eq : read.text = slice chars read.startByte read.endByte
  fits : Fits isWord maxTokens read.text

section Clipping

variable (live : Live contentHash isWord options source chars)
  (h : Windowed isWord source chars windows) {window : Window} {matchRange : ByteRange}
include live h

theorem Live.readTokens (hword : isWord mark = false) {left : ByteRange} {maxTokens i : Nat} {first last : Token}
    (hstart : IsCut chars left.startByte) (hend : IsCut chars left.endByte)
    (hle : left.startByte ≤ left.endByte)
    (hbytes : left.endByte - left.startByte ≤ byteBudget maxTokens) (hpos : 0 < maxTokens)
    (hfirst : (matchesFrom isWord (slice chars left.startByte left.endByte) 0)[i]? = some first)
    (hlast : (matchesFrom isWord (slice chars left.startByte left.endByte) 0)[i + maxTokens - 1]? =
      some last) :
    ∃ read, readDocumentRange contentHash source (left.startByte + first.startByte)
        (left.startByte + last.endByte) false = .ok read ∧
      read.startByte = left.startByte + first.startByte ∧
      read.endByte = left.startByte + last.endByte ∧ read.endByte ≤ left.endByte ∧
      read.Good isWord chars maxTokens := by
  have hlength := byteLength_slice hstart hend hle
  obtain ⟨hcutFirst, hcutLast, hcount⟩ :=
    matchesFrom_between (show i ≤ i + maxTokens - 1 by omega) hfirst hlast
  have hordered : Ordered (matchesFrom isWord (slice chars left.startByte left.endByte) 0) :=
    ordered_matchesFrom _
  have hlt := hordered.lt hfirst
  have hmono := (hordered.mono (show i ≤ i + maxTokens - 1 by omega) hfirst hlast).2
  have hbound := hcutLast.le
  have ha := (isCut_slice_iff hstart hend hle (by omega)).mp hcutFirst
  have hb := (isCut_slice_iff hstart hend hle (by omega)).mp hcutLast
  have hunmarked : ¬ MarkAt chars (left.startByte + first.startByte) := by
    intro hmark
    refine not_markAt_token hword (List.mem_of_getElem? hfirst) (Nat.zero_le _) ?_
    rw [Nat.sub_zero]
    exact hmark.slice hstart hend hle (by omega)
  obtain ⟨pieces, hread⟩ := live.readDocumentRange_ok ha hb (by omega) (h.unmarked hunmarked _)
  have hslice := slice_slice hstart hend hle hcutFirst hcutLast (by omega)
  refine ⟨_, hread, rfl, rfl, show left.startByte + last.endByte ≤ left.endByte by omega,
    ha, hb, by dsimp only; omega, rfl, ?_, ?_⟩
  · show (matchesFrom isWord (slice chars _ _) 0).length ≤ maxTokens
    rw [← hslice, hcount]
    omega
  · show byteLength (slice chars _ _) ≤ _
    rw [byteLength_slice ha hb (by omega)]
    omega

theorem MatchIn.clippedTargetRange_eq {maxTokens : Nat} {current : Option Materialized}
    (hmatch : MatchIn chars window matchRange) (hword : isWord mark = false)
    (hmarks : ∀ left, Leaves chars window matchRange maxTokens left → ¬ MarkAt chars left.startByte)
    (hstart : IsCut chars window.startByte)
    (hend : IsCut chars window.endByte) (hmax : 3 ≤ maxTokens)
    (hcurrent : ∀ materialized, current = some materialized →
      materialized.Exact chars window.startByte window.endByte)
    (hlarge : current = none → byteBudget maxTokens < window.endByte - window.startByte) :
    ∃ read, clippedTargetRange contentHash isWord source window matchRange maxTokens current =
        .ok read ∧
      read.Good isWord chars maxTokens ∧ window.startByte ≤ read.startByte ∧
      read.endByte ≤ window.endByte ∧
      (HasStart matchRange read.startByte read.endByte ↔
        StartKept isWord chars window matchRange maxTokens) := by
  obtain ⟨left, bounded, hbounded, hexact, hleaves, hbytes, hinside, hbehind⟩ :=
    hmatch.boundedText_eq live h hmarks hstart hend (by omega) hcurrent hlarge
  have hcutStart := hleaves.startCut
  have hcutEnd := hleaves.endCut
  have hordered := hinside.ordered
  have hmatchStart := hleaves.start_le
  have hmatchEnd := hmatch.ordered
  have hwindowStart : window.startByte ≤ left.startByte := hinside.start_le
  have hwindowEnd : left.endByte ≤ window.endByte := hinside.end_le
  have htokenize : tokenizeWithByteOffsets isWord bounded.text =
      .ok (matchesFrom isWord (slice chars left.startByte left.endByte) 0) := by
    rw [hexact.text_eq, tokenizeWithByteOffsets, if_neg (Nat.not_lt.mpr (Nat.le_trans
      (length_matchesFrom_slice_le hcutStart hcutEnd hordered 0) h.tokens_le))]
  -- only what the byte budget leaves matters to whether the start is kept
  have hkept : StartKept isWord chars window matchRange maxTokens ↔
      ((matchesFrom isWord (slice chars left.startByte left.endByte) 0).length ≤ maxTokens ∨
        KeepsStart (matchesFrom isWord (slice chars left.startByte left.endByte) 0)
          (matchRange.startByte - left.startByte)
          (min (left.endByte - left.startByte) (matchRange.endByte - left.startByte))
          maxTokens) := by
    refine ⟨fun hkept => hkept left hleaves, fun hkept left' hleaves' => ?_⟩
    rw [hleaves'.unique hleaves]
    exact hkept
  rw [clippedTargetRange, hbounded, hkept]
  simp only [Bind.bind, Except.bind]
  rw [htokenize]
  dsimp only
  split
  · next hfew =>
    refine ⟨bounded, rfl, ⟨?_, ?_, ?_, ?_, ?_⟩, ?_, ?_, iff_of_true ⟨?_, ?_, ?_⟩ (.inl hfew)⟩
    all_goals simp only [hexact.startByte_eq, hexact.endByte_eq, hexact.text_eq]
    · exact hcutStart
    · exact hcutEnd
    · exact hordered
    · exact ⟨hfew, by rw [byteLength_slice hcutStart hcutEnd hordered]; exact hbytes⟩
    · exact hwindowStart
    · exact hwindowEnd
    · exact hmatchStart
    · exact hleaves.le_end
    · exact hbehind
  · next hmany =>
    have hle := hleaves.le_end
    rw [hexact.startByte_eq, hexact.endByte_eq, or_iff_right hmany]
    obtain ⟨i, first, last, hclipped, hfirst, hlast, hkeeps⟩ :=
      (ordered_matchesFrom (slice chars left.startByte left.endByte)).clippedTokens_keeps
        (show matchRange.startByte - left.startByte ≤
          min (left.endByte - left.startByte) (matchRange.endByte - left.startByte) by omega)
        hmax (Nat.lt_of_not_le hmany)
    obtain ⟨read, hread, hreadStart, hreadEnd, hreadLe, hgood⟩ :=
      live.readTokens h hword hcutStart hcutEnd hordered hbytes (by omega) hfirst hlast
    rw [hclipped]
    simp only [tokenIn, hfirst, hlast, hread]
    refine ⟨read, rfl, hgood, by omega, by omega, ?_⟩
    rw [← hkeeps, HasStart, hreadStart, hreadEnd]
    omega

end Clipping

end ContextStore.Recall
