import ContextStore.Retrieval.Windows

/-! # The offsets of tokens

The tokenizer finds matches at UTF-16 units and gives out byte offsets. It counts the bytes from one
match to the next, or takes the units for bytes when the whole text has as many of both; either way
the offsets are those of the encoding. -/

namespace ContextStore.Recall

open Unicode Concurrent

/-- A match of the expression, at a code unit. -/
structure UnitMatch where
  value : Text
  index : Nat

structure UnitToken where
  value : Text
  startByte : Nat
  endByte : Nat

section Tokenizer

variable (isWord : Char → Bool)

/-- `source.matchAll(expression)` -/
def matchAll : List Char → Nat → List UnitMatch
  | [], _ => []
  | c :: rest, index =>
    let next := index + (charUnits c).length
    if isWord c then
      if rest.head?.any isWord then
        (matchAll rest next).modifyHead fun found =>
          { found with value := charUnits c ++ found.value, index := index }
      else { value := charUnits c, index := index } :: matchAll rest next
    else if isSpace c then matchAll rest next
    else { value := charUnits c, index := index } :: matchAll rest next

/-- The loop of `utf8LengthBetween` over the units from `start` on, of which `count` are left. -/
def utf8Length : Text → Nat → Nat
  | [], _ => 0
  | _, 0 => 0
  | [code], _ + 1 =>
    if code.toNat < 0x80 then 1 else if code.toNat < 0x800 then 2
    else if isHighSurrogate code then 4 else 3
  | code :: next :: rest, count + 1 =>
    if code.toNat < 0x80 then 1 + utf8Length (next :: rest) count
    else if code.toNat < 0x800 then 2 + utf8Length (next :: rest) count
    -- the other half of the pair is passed over
    else if isHighSurrogate code then 4 + utf8Length rest (count - 1)
    else 3 + utf8Length (next :: rest) count

def utf8LengthBetween (source : Text) (start stop : Nat) : Nat :=
  utf8Length (source.drop start) (stop - start)

/-- The loop over the matches, with where the match before ended. -/
def placeMatches (source : Text) (singleByteText : Bool) :
    Nat → Nat → List UnitMatch → List UnitToken
  | _, _, [] => []
  | previousCodeUnitEnd, previousByteEnd, found :: rest =>
    let matchEnd := found.index + found.value.length
    let startByte := if singleByteText then found.index
      else previousByteEnd + utf8LengthBetween source previousCodeUnitEnd found.index
    let endByte := if singleByteText then matchEnd
      else startByte + utf8LengthBetween source found.index matchEnd
    { value := found.value, startByte, endByte } ::
      placeMatches source singleByteText matchEnd endByte rest

def isSingleByteText (source : Text) : Bool := (utf8 source).length = source.length

/-- `tokenizeWithByteOffsets` over the units of a text. -/
def tokenizeUnits (source : Text) : Except StoreError (List UnitToken) :=
  if !isWellFormed source then
    .error (.typeError "text must not contain unpaired UTF-16 surrogates.")
  else
    let found := matchAll isWord (codePoints source) 0
    if maxSearchTokensPerDocument < found.length then
      .error (.coded "INVALID_REQUEST" s!"Document contains more than {maxSearchTokensPerDocument} searchable tokens; split it into smaller archival documents.")
    else .ok (placeMatches source (isSingleByteText source) 0 0 found)

end Tokenizer

/-! ## Units and bytes -/

/-- How many bytes a character takes, by its code. -/
theorem utf8Size_eq (c : Char) :
    c.utf8Size = if c.toNat < 0x80 then 1 else if c.toNat < 0x800 then 2
      else if c.toNat < 0x10000 then 3 else 4 := by
  have hnat : c.toNat = c.val.toNat := rfl
  simp only [Char.utf8Size, hnat, UInt32.le_iff_toNat_le, UInt32.toNat_ofNatLT]
  grind

theorem utf8Length_lone {code : UInt16} (hhigh : isHighSurrogate code = false) (rest : Text)
    (count : Nat) :
    utf8Length (code :: rest) (count + 1) =
      (if code.toNat < 0x80 then 1 else if code.toNat < 0x800 then 2 else 3) +
        utf8Length rest count := by
  cases rest with
  | nil => simp [utf8Length, hhigh]
  | cons next rest =>
    simp only [utf8Length, hhigh, Bool.false_eq_true, if_false]
    split_ifs
    all_goals rfl

theorem utf8Length_pair {high low : UInt16} (hhigh : isHighSurrogate high = true) (rest : Text)
    (count : Nat) :
    utf8Length (high :: low :: rest) (count + 2) = 4 + utf8Length rest count := by
  have hcode : 0xd800 ≤ high.toNat := by
    simp only [isHighSurrogate, Bool.and_eq_true, decide_eq_true_eq] at hhigh
    exact hhigh.1
  rw [utf8Length, if_neg (by omega), if_neg (by omega), if_pos hhigh]
  rfl

/-- The units of a character tell the number of its bytes, whatever follows. -/
theorem utf8Length_charUnits (c : Char) (rest : Text) (count : Nat) :
    utf8Length (charUnits c ++ rest) ((charUnits c).length + count) =
      c.utf8Size + utf8Length rest count := by
  have hcases := char_cases c
  rw [utf8Size_eq]
  by_cases hbasic : c.toNat < 0x10000
  · have hunit : (UInt16.ofNat c.toNat).toNat = c.toNat := by
      rw [UInt16.toNat_ofNat']
      omega
    have hhigh : isHighSurrogate (UInt16.ofNat c.toNat) = false := by
      simp only [isHighSurrogate, hunit, Bool.and_eq_false_iff, decide_eq_false_iff_not]
      omega
    rw [charUnits, if_pos hbasic, List.length_singleton, List.singleton_append, Nat.add_comm 1,
      utf8Length_lone hhigh, hunit, if_pos hbasic]
  · have hunit : (UInt16.ofNat (0xd800 + (c.toNat - 0x10000) / 0x400)).toNat =
        0xd800 + (c.toNat - 0x10000) / 0x400 := by
      rw [UInt16.toNat_ofNat']
      omega
    have hhigh : isHighSurrogate (UInt16.ofNat (0xd800 + (c.toNat - 0x10000) / 0x400)) = true := by
      simp only [isHighSurrogate, hunit, Bool.and_eq_true, decide_eq_true_eq]
      omega
    rw [charUnits, if_neg hbasic, List.length_cons, List.length_singleton, Nat.add_comm (1 + 1)]
    exact (utf8Length_pair hhigh rest count).trans (by
      rw [if_neg (by omega), if_neg (by omega), if_neg hbasic])

theorem utf8Length_codeUnits (chars : List Char) (rest : Text) :
    utf8Length (codeUnits chars ++ rest) (codeUnits chars).length = byteLength chars := by
  induction chars with
  | nil => cases rest <;> simp [utf8Length]
  | cons c chars ih =>
    rw [codeUnits_cons, List.length_append, List.append_assoc, utf8Length_charUnits, ih,
      byteLength_cons]

theorem utf8LengthBetween_codeUnits (before between after : List Char) :
    utf8LengthBetween (codeUnits (before ++ between ++ after)) (codeUnits before).length
      (codeUnits (before ++ between)).length = byteLength between := by
  rw [utf8LengthBetween, codeUnits_append, codeUnits_append, List.length_append,
    Nat.add_sub_cancel_left, List.append_assoc, List.drop_left, utf8Length_codeUnits]

/-- No character has more units than bytes. -/
theorem length_charUnits_le (c : Char) : (charUnits c).length ≤ c.utf8Size := by
  rw [utf8Size_eq, charUnits]
  split_ifs
  all_goals simp
  all_goals omega

theorem length_codeUnits_le (chars : List Char) : (codeUnits chars).length ≤ byteLength chars := by
  induction chars with
  | nil => simp
  | cons c chars ih =>
    have hfirst := length_charUnits_le c
    simp only [codeUnits_cons, List.length_append, byteLength_cons]
    omega

/-- A text with as many units as bytes has as many in each beginning. -/
theorem length_codeUnits_eq (before after : List Char)
    (h : byteLength (before ++ after) = (codeUnits (before ++ after)).length) :
    (codeUnits before).length = byteLength before := by
  have hbefore := length_codeUnits_le before
  have hafter := length_codeUnits_le after
  simp only [codeUnits_append, List.length_append, byteLength_append] at h
  omega

/-! ## Matches and tokens -/

/-- The two find the same characters: a match tells where by the units before them, a token by the
bytes. -/
def Corresponds (chars : List Char) (found : UnitMatch) (token : Token) : Prop :=
  ∃ before after, chars = before ++ token.value ++ after ∧ found.value = codeUnits token.value ∧
    found.index = (codeUnits before).length ∧ token.startByte = byteLength before ∧
    token.endByte = byteLength (before ++ token.value)

section Offsets

variable {isWord : Char → Bool} {chars : List Char}

theorem startByte_of_head {offset : Nat} {first : Token} {more : List Token}
    (hhead : chars.head?.any isWord = true)
    (h : matchesFrom isWord chars offset = first :: more) : first.startByte = offset := by
  cases chars with
  | nil => simp at hhead
  | cons c rest =>
    have hword : isWord c = true := by simpa using hhead
    rcases matchesFrom_cons_cases isWord c rest offset with
      ⟨hnot, -⟩ | ⟨-, -, next, later, -, heq⟩ | ⟨-, -, heq⟩
    · rw [hword] at hnot
      cases hnot
    · rw [(List.cons.inj (h.symm.trans heq)).1]
    · rw [(List.cons.inj (h.symm.trans heq)).1]

theorem corresponds_single (before : List Char) (c : Char) (rest : List Char) :
    Corresponds (before ++ c :: rest)
      { value := charUnits c, index := (codeUnits before).length }
      { value := [c], startByte := byteLength before
        endByte := byteLength before + c.utf8Size } :=
  ⟨before, rest, by simp, by simp, rfl, rfl, by simp⟩

theorem matchAll_corresponds (isWord : Char → Bool) (before chars : List Char) :
    List.Forall₂ (Corresponds (before ++ chars)) (matchAll isWord chars (codeUnits before).length)
      (matchesFrom isWord chars (byteLength before)) := by
  induction chars generalizing before with
  | nil => exact List.Forall₂.nil
  | cons c rest ih =>
    have hrest := ih (before ++ [c])
    have hunits : (codeUnits (before ++ [c])).length =
        (codeUnits before).length + (charUnits c).length := by simp
    have hbytes : byteLength (before ++ [c]) = byteLength before + c.utf8Size := by simp
    rw [hunits, hbytes, List.append_assoc, List.singleton_append] at hrest
    simp only [matchAll, matchesFrom]
    by_cases hword : isWord c = true
    · rw [if_pos hword, if_pos hword]
      by_cases hnext : rest.head?.any isWord = true
      · rw [if_pos hnext, if_pos hnext]
        obtain ⟨first, more, htokens⟩ := List.exists_cons_of_ne_nil
          (matchesFrom_ne_nil hnext (byteLength before + c.utf8Size))
        have hstart := startByte_of_head hnext htokens
        rw [htokens] at hrest ⊢
        obtain ⟨found, others, hfirst, hmore, hmatches⟩ := List.forall₂_cons_right_iff.mp hrest
        rw [hmatches, List.modifyHead_cons, List.modifyHead_cons]
        refine List.Forall₂.cons ?_ hmore
        -- the first match of the rest begins right behind the character
        obtain ⟨front, after, hchars, hvalue, -, hbyte, hend⟩ := hfirst
        have hfront : front = before ++ [c] := by
          have hsplit : front ++ (first.value ++ after) = before ++ [c] ++ rest := by
            rw [← List.append_assoc, ← hchars, List.append_assoc, List.singleton_append]
          exact eq_of_byteLength_eq hsplit (by rw [← hbyte, hstart, hbytes])
        rw [hfront] at hchars hend
        exact ⟨before, after, by simpa using hchars, by simp [hvalue], rfl, rfl,
          by simpa using hend⟩
      · rw [if_neg hnext, if_neg hnext]
        exact List.Forall₂.cons (corresponds_single before c rest) hrest
    · rw [if_neg hword, if_neg hword]
      by_cases hspace : isSpace c = true
      · rw [if_pos hspace, if_pos hspace]
        exact hrest
      · rw [if_neg hspace, if_neg hspace]
        exact List.Forall₂.cons (corresponds_single before c rest) hrest

theorem exists_corresponds {token : Token} (h : token ∈ matchesFrom isWord chars 0) :
    ∃ found, Corresponds chars found token := by
  have hall : List.Forall₂ (Corresponds chars) (matchAll isWord chars 0)
      (matchesFrom isWord chars 0) := matchAll_corresponds isWord [] chars
  obtain ⟨hlength, hget⟩ := List.forall₂_iff_get.mp hall
  obtain ⟨i, hi, rfl⟩ := List.mem_iff_getElem.mp h
  exact ⟨_, hget i (hlength ▸ hi) hi⟩

def Token.inUnits (token : Token) : UnitToken where
  value := codeUnits token.value
  startByte := token.startByte
  endByte := token.endByte

/-- From behind one match, the loop places the others; where units are bytes, it may take the ones
for the others. -/
theorem placeMatches_corresponds {singleByteText : Bool} {found : List UnitMatch}
    {tokens : List Token} (before after : List Char) (hsplit : chars = before ++ after)
    (hsingle : singleByteText = true → byteLength chars = (codeUnits chars).length)
    (hfound : List.Forall₂ (Corresponds chars) found tokens)
    (horder : tokens.Pairwise fun token later => token.endByte ≤ later.startByte)
    (hfrom : ∀ token ∈ tokens, byteLength before ≤ token.startByte) :
    placeMatches (codeUnits chars) singleByteText (codeUnits before).length (byteLength before)
      found = tokens.map Token.inUnits := by
  induction hfound generalizing before after with
  | nil => rfl
  | @cons first token others more hfirst hmore ih =>
    obtain ⟨front, rest, hchars, hvalue, hindex, hstart, hend⟩ := hfirst
    obtain ⟨hbehind, horder⟩ := List.pairwise_cons.mp horder
    -- the gap between the matches
    obtain ⟨gap, rfl, -⟩ : ∃ gap, front = before ++ gap ∧ after = gap ++ (token.value ++ rest) := by
      refine eq_append_of_byteLength_le ?_ (hstart ▸ hfrom token List.mem_cons_self)
      rw [← hsplit, hchars, List.append_assoc]
    have hgap : utf8LengthBetween (codeUnits chars) (codeUnits before).length first.index =
        byteLength gap := by
      rw [hchars, hindex, List.append_assoc _ token.value]
      exact utf8LengthBetween_codeUnits before gap (token.value ++ rest)
    have hstop : first.index + first.value.length =
        (codeUnits (before ++ gap ++ token.value)).length := by
      rw [hindex, hvalue, codeUnits_append (before ++ gap), List.length_append]
    have hwidth : utf8LengthBetween (codeUnits chars) first.index
        (first.index + first.value.length) = byteLength token.value := by
      rw [hstop, hchars, hindex]
      exact utf8LengthBetween_codeUnits (before ++ gap) token.value rest
    have hstartByte : (if singleByteText then first.index
        else byteLength before + utf8LengthBetween (codeUnits chars) (codeUnits before).length
          first.index) = token.startByte := by
      split
      · next hfast =>
        rw [hindex, hstart]
        refine length_codeUnits_eq _ (token.value ++ rest) ?_
        rw [← List.append_assoc, ← hchars]
        exact hsingle hfast
      · rw [hgap, hstart, byteLength_append]
    have hendByte : (if singleByteText then first.index + first.value.length
        else token.startByte + utf8LengthBetween (codeUnits chars) first.index
          (first.index + first.value.length)) = token.endByte := by
      split
      · next hfast =>
        rw [hstop, hend]
        exact length_codeUnits_eq _ rest (hchars ▸ hsingle hfast)
      · rw [hwidth, hstart, hend, byteLength_append (before ++ gap)]
    have hmore' := ih _ rest hchars horder (fun later hlater => hend ▸ hbehind later hlater)
    rw [← hstop, ← hend] at hmore'
    simp only [placeMatches, hstartByte, hendByte, hmore', List.map_cons, Token.inUnits]
    rw [hvalue]

/-- Both paths of the tokenizer give out the same tokens. -/
theorem placeMatches_matchAll (isWord : Char → Bool) (chars : List Char) (singleByteText : Bool)
    (hsingle : singleByteText = true → byteLength chars = (codeUnits chars).length) :
    placeMatches (codeUnits chars) singleByteText 0 0 (matchAll isWord chars 0) =
      (matchesFrom isWord chars 0).map Token.inUnits :=
  placeMatches_corresponds [] chars rfl hsingle (matchAll_corresponds isWord [] chars)
    (matchesFrom_pairwise chars 0) (fun token _ => Nat.zero_le token.startByte)

theorem isSingleByteText_codeUnits (chars : List Char) :
    isSingleByteText (codeUnits chars) = true ↔ byteLength chars = (codeUnits chars).length := by
  rw [isSingleByteText, utf8_codeUnits, decide_eq_true_eq, byteLength]

theorem length_matchAll (isWord : Char → Bool) (chars : List Char) :
    (matchAll isWord chars 0).length = (matchesFrom isWord chars 0).length :=
  (matchAll_corresponds isWord [] chars).length_eq

/-- The units of a token are those of the bytes at its offsets. -/
theorem utf8_inUnits {token : Token} (h : token ∈ matchesFrom isWord chars 0) :
    utf8 token.inUnits.value = ((encodeChars chars).drop token.startByte).take
      (token.endByte - token.startByte) := by
  obtain ⟨found, before, after, hchars, -, -, hstart, hend⟩ := exists_corresponds h
  rw [Token.inUnits, utf8_codeUnits, hstart, hend, byteLength_append, Nat.add_sub_cancel_left,
    hchars, encodeChars_append, encodeChars_append, List.append_assoc, byteLength, byteLength,
    List.drop_left, List.take_left]

/-- The tokenizer over units finds the tokens of the characters. -/
theorem tokenizeUnits_codeUnits (isWord : Char → Bool) (chars : List Char) :
    tokenizeUnits isWord (codeUnits chars) =
      (tokenizeWithByteOffsets isWord chars).map (List.map Token.inUnits) := by
  simp only [tokenizeUnits, tokenizeWithByteOffsets, isWellFormed_codeUnits, codePoints_codeUnits,
    length_matchAll, Bool.not_true, Bool.false_eq_true, if_false]
  split
  · rfl
  · rw [placeMatches_matchAll isWord chars _ (isSingleByteText_codeUnits chars).mp]
    rfl

end Offsets

end ContextStore.Recall
