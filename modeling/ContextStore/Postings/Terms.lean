import ContextStore.Postings.ExactPlan

/-! # Terms

The terms under which the words of a text are listed: a word in its normal form, stemmed if it is
plain English, and the pieces of a compound word. A stem is never longer than its word, so terms are
short (`length_normalizeBm25Term_le`). -/

namespace ContextStore.Postings

def BM25_TOKENIZER_VERSION : Nat := 2

def MAX_BM25_TERM_CODE_POINTS : Nat := 128

/-! ## Stems -/

namespace Stemmer

/-- What a word ends in, and how it begins otherwise. -/
def stemBefore (word : List Char) (suffix : String) : Option (List Char) :=
  if suffix.toList.isSuffixOf word then some (word.take (word.length - suffix.toList.length))
  else none

def endsWith (word : List Char) (suffix : String) : Bool := suffix.toList.isSuffixOf word

def isVowel (character : Char) : Bool := "aeiou".toList.contains character

def isConsonant (word : List Char) : Nat → Bool
  | 0 => !(word[0]?.any isVowel)
  | index + 1 =>
    if word[index + 1]?.any isVowel then false
    else if word[index + 1]? ≠ some 'y' then true
    else !isConsonant word index

def consonants (word : List Char) : List Bool := (List.range word.length).map (isConsonant word)

/-- The loop of `measure`, which comes upon a vowel first. -/
def countRuns : Nat → List Bool → Nat
  | 0, _ => 0
  | fuel + 1, letters =>
    let consonants := letters.dropWhile fun consonant => !consonant
    if consonants = [] then 0 else countRuns fuel (consonants.dropWhile id) + 1

def measure (word : List Char) : Nat :=
  countRuns word.length ((consonants word).dropWhile id)

def containsVowel (word : List Char) : Bool := (consonants word).any fun consonant => !consonant

def endsWithDoubleConsonant (word : List Char) : Bool :=
  2 ≤ word.length && word[word.length - 1]? = word[word.length - 2]? &&
    isConsonant word (word.length - 1)

def endsCvc (word : List Char) : Bool :=
  3 ≤ word.length && isConsonant word (word.length - 3) && !isConsonant word (word.length - 2) &&
    isConsonant word (word.length - 1) &&
    !(word.getLast?.any fun character => "wxy".toList.contains character)

def replaceMeasuredSuffix (word : List Char) (rule : String × String) (minimumMeasure : Nat) :
    Option (List Char) :=
  (stemBefore word rule.1).map fun stem =>
    if minimumMeasure < measure stem then stem ++ rule.2.toList else word

def plurals (word : List Char) : List Char :=
  if endsWith word "sses" then word.take (word.length - 4) ++ "ss".toList
  else if endsWith word "ies" then word.take (word.length - 3) ++ "i".toList
  else if !endsWith word "ss" && endsWith word "s" then word.take (word.length - 1)
  else word

/-- A stem that has lost its "ed" or "ing". -/
def repaired (word : List Char) : List Char :=
  if endsWith word "at" || endsWith word "bl" || endsWith word "iz" then word ++ "e".toList
  else if endsWithDoubleConsonant word &&
      !(word.getLast?.any fun character => "lsz".toList.contains character) then
    word.take (word.length - 1)
  else if measure word = 1 && endsCvc word then word ++ "e".toList
  else word

def participles (word : List Char) : List Char :=
  match stemBefore word "eed" with
  | some stem => if 0 < measure stem then stem ++ "ee".toList else word
  | none =>
    match (stemBefore word "ed").or (stemBefore word "ing") with
    | some stem => if containsVowel stem then repaired stem else word
    | none => word

def finalY (word : List Char) : List Char :=
  match stemBefore word "y" with
  | some stem => if containsVowel stem then stem ++ "i".toList else word
  | none => word

def step2 : List (String × String) :=
  [("ational", "ate"), ("tional", "tion"), ("enci", "ence"), ("anci", "ance"), ("izer", "ize"),
    ("bli", "ble"), ("alli", "al"), ("entli", "ent"), ("eli", "e"), ("ousli", "ous"),
    ("ization", "ize"), ("ation", "ate"), ("ator", "ate"), ("alism", "al"), ("iveness", "ive"),
    ("fulness", "ful"), ("ousness", "ous"), ("aliti", "al"), ("iviti", "ive"), ("biliti", "ble"),
    ("logi", "log")]

def step3 : List (String × String) :=
  [("icate", "ic"), ("ative", ""), ("alize", "al"), ("iciti", "ic"), ("ical", "ic"), ("ful", ""),
    ("ness", "")]

def step4 : List String :=
  ["al", "ance", "ence", "er", "ic", "able", "ible", "ant", "ement", "ment", "ent", "ion", "ou",
    "ism", "ate", "iti", "ous", "ive", "ize"]

/-- The first rule whose suffix the word has. -/
def replaceFirst (rules : List (String × String)) (word : List Char) : List Char :=
  (rules.findSome? fun rule => replaceMeasuredSuffix word rule 0).getD word

def removeFirst (word : List Char) : List Char :=
  match step4.find? (endsWith word) with
  | none => word
  | some suffix =>
    let stem := word.take (word.length - suffix.toList.length)
    if 1 < measure stem &&
        (suffix ≠ "ion" || stem.getLast?.any fun character => "st".toList.contains character)
    then stem else word

def finalE (word : List Char) : List Char :=
  match stemBefore word "e" with
  | some stem =>
    if 1 < measure stem || (measure stem = 1 && !endsCvc stem) then stem else word
  | none => word

def finalL (word : List Char) : List Char :=
  if endsWith word "ll" && 1 < measure word then word.take (word.length - 1) else word

def isLowercase (character : Char) : Bool := 'a' ≤ character && character ≤ 'z'

def porterStem (input : List Char) : List Char :=
  if input = [] || !input.all isLowercase || input.length < 3 then input
  else finalL (finalE (removeFirst (replaceFirst step3 (replaceFirst step2
    (finalY (participles (plurals input)))))))

/-! ## Lengths of stems -/

theorem length_stemBefore {word stem : List Char} {suffix : String}
    (h : stemBefore word suffix = some stem) :
    stem.length + suffix.toList.length = word.length := by
  rw [stemBefore] at h
  split at h
  · rename_i hsuffix
    have hle := (List.isSuffixOf_iff_suffix.mp hsuffix).length_le
    cases h
    rw [List.length_take]
    omega
  · cases h

theorem length_plurals_le (word : List Char) : (plurals word).length ≤ word.length := by
  have hle : ∀ suffix, endsWith word suffix = true → suffix.toList.length ≤ word.length :=
    fun suffix h => (List.isSuffixOf_iff_suffix.mp h).length_le
  rw [plurals]
  split
  · rename_i h
    have hlength := hle _ h
    simp only [List.length_append, List.length_take, String.length_toList] at hlength ⊢
    have h4 : "sses".length = 4 := rfl
    have h2 : "ss".length = 2 := rfl
    omega
  · split
    · rename_i h
      have hlength := hle _ h
      simp only [List.length_append, List.length_take, String.length_toList] at hlength ⊢
      have h3 : "ies".length = 3 := rfl
      have h1 : "i".length = 1 := rfl
      omega
    · split
      · rw [List.length_take]
        omega
      · exact Nat.le_refl _

theorem length_repaired_le (word : List Char) : (repaired word).length ≤ word.length + 1 := by
  rw [repaired]
  split
  · exact Nat.le_of_eq List.length_append
  · split
    · rw [List.length_take]
      omega
    · split
      · exact Nat.le_of_eq List.length_append
      · exact Nat.le_succ _

theorem length_participles_le (word : List Char) : (participles word).length ≤ word.length := by
  rw [participles]
  split
  · rename_i stem hstem
    have hlength := length_stemBefore hstem
    split
    · rw [List.length_append]
      have h3 : "eed".toList.length = 3 := rfl
      have h2 : "ee".toList.length = 2 := rfl
      omega
    · exact Nat.le_refl _
  · split
    · rename_i stem hstem
      have hlength : stem.length + 1 ≤ word.length := by
        rcases Option.or_eq_some_iff.mp hstem with hstem | ⟨-, hstem⟩
        · have := length_stemBefore hstem
          have h2 : "ed".toList.length = 2 := rfl
          omega
        · have := length_stemBefore hstem
          have h3 : "ing".toList.length = 3 := rfl
          omega
      split
      · exact Nat.le_trans (length_repaired_le stem) hlength
      · exact Nat.le_refl _
    · exact Nat.le_refl _

theorem length_finalY_le (word : List Char) : (finalY word).length ≤ word.length := by
  rw [finalY]
  split
  · rename_i stem hstem
    have hlength := length_stemBefore hstem
    split
    · rw [List.length_append]
      exact Nat.le_of_eq hlength
    · exact Nat.le_refl _
  · exact Nat.le_refl _

/-- Rules that do not replace a suffix by a longer one make no word longer. -/
theorem length_replaceFirst_le {rules : List (String × String)}
    (h : ∀ rule ∈ rules, rule.2.toList.length ≤ rule.1.toList.length) (word : List Char) :
    (replaceFirst rules word).length ≤ word.length := by
  rw [replaceFirst]
  cases hfind : rules.findSome? fun rule => replaceMeasuredSuffix word rule 0 with
  | none => exact Nat.le_refl _
  | some replaced =>
    obtain ⟨rule, hrule, hreplaced⟩ := List.exists_of_findSome?_eq_some hfind
    rw [replaceMeasuredSuffix, Option.map_eq_some_iff] at hreplaced
    obtain ⟨stem, hstem, rfl⟩ := hreplaced
    have hlength := length_stemBefore hstem
    have hshort := h rule hrule
    rw [Option.getD_some]
    split
    · rw [List.length_append]
      omega
    · exact Nat.le_refl _

theorem shortens_step2 : ∀ rule ∈ step2, rule.2.toList.length ≤ rule.1.toList.length := by decide

theorem shortens_step3 : ∀ rule ∈ step3, rule.2.toList.length ≤ rule.1.toList.length := by decide

theorem length_removeFirst_le (word : List Char) : (removeFirst word).length ≤ word.length := by
  rw [removeFirst]
  split
  · exact Nat.le_refl _
  · dsimp only
    split
    · exact List.length_take_le' _ _
    · exact Nat.le_refl _

theorem length_finalE_le (word : List Char) : (finalE word).length ≤ word.length := by
  rw [finalE]
  split
  · rename_i stem hstem
    have hlength := length_stemBefore hstem
    split
    · omega
    · exact Nat.le_refl _
  · exact Nat.le_refl _

theorem length_finalL_le (word : List Char) : (finalL word).length ≤ word.length := by
  rw [finalL]
  split
  · exact List.length_take_le' _ _
  · exact Nat.le_refl _

theorem length_porterStem_le (input : List Char) : (porterStem input).length ≤ input.length := by
  rw [porterStem]
  split
  · exact Nat.le_refl _
  · calc _ ≤ _ := length_finalL_le _
      _ ≤ _ := length_finalE_le _
      _ ≤ _ := length_removeFirst_le _
      _ ≤ _ := length_replaceFirst_le shortens_step3 _
      _ ≤ _ := length_replaceFirst_le shortens_step2 _
      _ ≤ _ := length_finalY_le _
      _ ≤ _ := length_participles_le _
      _ ≤ input.length := length_plurals_le _

end Stemmer

open Stemmer

example : porterStem "relational".toList = "relat".toList := by decide +kernel

/-! ## Terms -/

/-- What the runtime knows of characters and texts. -/
structure Lexicon where
  /-- `[\p{L}\p{M}\p{N}_]` -/
  isWord : Char → Bool
  /-- `normalize("NFKC")` -/
  normalize : List Char → List Char
  toLowerCase : List Char → List Char

variable (lexicon : Lexicon)

/-- The term of a word, which is empty where the word has none. -/
def normalizeBm25Term (value : List Char) : List Char :=
  let normalized := lexicon.toLowerCase (lexicon.normalize value)
  if normalized = [] || MAX_BM25_TERM_CODE_POINTS < normalized.length then []
  else if !normalized.all lexicon.isWord then []
  else if normalized.all isLowercase then porterStem normalized
  else normalized

theorem length_normalizeBm25Term_le (value : List Char) :
    (normalizeBm25Term lexicon value).length ≤ MAX_BM25_TERM_CODE_POINTS := by
  simp only [normalizeBm25Term]
  split
  · exact Nat.zero_le _
  · rename_i h
    simp only [Bool.or_eq_true, decide_eq_true_eq, not_or, not_lt] at h
    split
    · exact Nat.zero_le _
    · split
      · exact Nat.le_trans (length_porterStem_le _) h.2
      · exact h.2

/-! ## Pieces -/

def isAsciiLower (character : Char) : Bool := 'a' ≤ character && character ≤ 'z'

def isAsciiUpper (character : Char) : Bool := 'A' ≤ character && character ≤ 'Z'

def isAsciiDigit (character : Char) : Bool := '0' ≤ character && character ≤ '9'

/-- Does a piece begin at the character? -/
def isBoundary (previous current : Char) (next : Option Char) : Bool :=
  ((isAsciiLower previous || isAsciiDigit previous) && isAsciiUpper current) ||
    (isAsciiUpper previous && isAsciiUpper current && next.any isAsciiLower)

/-- `pushSegment` in front of what follows. -/
def pushSegment (segment : List Char) (segments : List (List Char)) : List (List Char) :=
  if segment = [] then segments else segment :: segments

/-- The loop of `splitBm25Subtokens`, with the piece that has begun. -/
def splitPieces : List Char → List Char → List (List Char)
  | piece, [] => pushSegment piece []
  | piece, current :: rest =>
    if current = '_' then pushSegment piece (splitPieces [] rest)
    else if piece.getLast?.any fun previous => isBoundary previous current rest.head? then
      piece :: splitPieces [current] rest
    else splitPieces (piece ++ [current]) rest

def splitBm25Subtokens (word : List Char) : List (List Char) :=
  let segments := splitPieces [] word
  if segments = [word] then [] else segments

/-- The loop of `bm25Subterms`. -/
def subtermsFrom (seen : List (List Char)) : List (List Char) → List (List Char)
  | [] => []
  | piece :: rest =>
    let term := normalizeBm25Term lexicon piece
    if term = [] || seen.contains term then subtermsFrom seen rest
    else term :: subtermsFrom (term :: seen) rest

def bm25Subterms (surface compoundTerm : List Char) : List (List Char) :=
  subtermsFrom lexicon (if compoundTerm = [] then [] else [compoundTerm])
    (splitBm25Subtokens surface)

def wordTerms (surface : List Char) : List (List Char) :=
  let term := normalizeBm25Term lexicon surface
  (if term = [] then [] else [term]) ++ bm25Subterms lexicon surface term

theorem length_subtermsFrom_le {seen pieces : List (List Char)} {term : List Char}
    (h : term ∈ subtermsFrom lexicon seen pieces) : term.length ≤ MAX_BM25_TERM_CODE_POINTS := by
  induction pieces generalizing seen with
  | nil => cases h
  | cons piece rest ih =>
    simp only [subtermsFrom] at h
    split at h
    · exact ih h
    · rcases List.mem_cons.mp h with rfl | h
      · exact length_normalizeBm25Term_le lexicon piece
      · exact ih h

end ContextStore.Postings
