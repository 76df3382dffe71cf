import ContextStore.Foundation.Bisection
import ContextStore.Store.KeyEncoding

/-! # The token budget of model-visible text

The estimate charges each run of word characters, each run of white space and every other character
by its bytes, and opaque words more than natural ones. A text is cut to a budget by bisection over
its code points. The estimate of a beginning may exceed that of the whole, since a word that looks
opaque may go on to be a natural one, so what the bisection finds depends on the beginnings it
tries. -/

namespace ContextStore.TokenBudget

open Unicode
open KeyEncoding (isSafeInteger)
open Bisection (bisect path)

/-! ## Code points -/

/-- `Array.from(text)`: a code point each, with its one or two units. -/
def codePointTexts : Text → List Text
  | [] => []
  | [u] => [[u]]
  | u :: v :: rest =>
    if isHighSurrogate u && isLowSurrogate v then [u, v] :: codePointTexts rest
    else [u] :: codePointTexts (v :: rest)

def codePointValue : Text → Nat
  | [u] => u.toNat
  | u :: v :: _ => 0x10000 + (u.toNat - 0xd800) * 0x400 + (v.toNat - 0xdc00)
  | [] => 0

/-- The classes of code points that the expressions name. -/
structure Properties where
  letter : Nat → Bool
  mark : Nat → Bool
  number : Nat → Bool
  lowercase : Nat → Bool
  uppercase : Nat → Bool
  /-- Han, Hiragana, Katakana and Hangul. -/
  cjk : Nat → Bool
  space : Nat → Bool

variable (properties : Properties)

namespace Properties

def isSpace (c : Text) : Bool := properties.space (codePointValue c)

/-- `[\p{L}\p{M}\p{N}_]` -/
def isWord (c : Text) : Bool :=
  properties.letter (codePointValue c) || properties.mark (codePointValue c) ||
    properties.number (codePointValue c) || codePointValue c == 0x5f

end Properties

/-- `[a-fA-F0-9]` -/
def isHexDigit (c : Text) : Bool :=
  (0x61 ≤ codePointValue c && codePointValue c ≤ 0x66) ||
    (0x41 ≤ codePointValue c && codePointValue c ≤ 0x46) ||
    (0x30 ≤ codePointValue c && codePointValue c ≤ 0x39)

/-! ## The estimate -/

/-- Two neighbours that `TOKEN_UNIT` matches together. -/
def sameRun (a b : Text) : Bool :=
  if properties.isWord a || properties.isWord b then properties.isWord a && properties.isWord b
  else properties.isSpace a && properties.isSpace b

/-- The matches of `TOKEN_UNIT`. -/
def tokenUnits (text : Text) : List (List Text) :=
  (codePointTexts text).splitBy (sameRun properties)

def opaqueIdentifier (value : List Text) : Bool :=
  value.flatten.length ≥ 12
    || value.any (codePointValue · == 0x5f)
    || (value.any (fun c => properties.letter (codePointValue c)) &&
      value.any (fun c => properties.number (codePointValue c)))
    || (value.any (fun c => properties.lowercase (codePointValue c)) &&
      value.any (fun c => properties.uppercase (codePointValue c)))
    || (value.length ≥ 6 && value.all isHexDigit)

def unitCost (value : List Text) : Nat :=
  let bytes := (utf8 value.flatten).length
  if value.all properties.isSpace then max 1 ((bytes + 3) / 4)
  else if value.all properties.isWord then
    if value.any (fun c => properties.cjk (codePointValue c)) || opaqueIdentifier properties value
    then bytes
    else max 1 ((bytes + 3) / 4)
  else bytes

def estimateModelVisibleTokens (text : Text) : Nat :=
  ((tokenUnits properties text).map (unitCost properties)).sum

def fitsModelVisibleTokenBudget (text : Text) (maxTokens : Int) : Bool :=
  isSafeInteger maxTokens && 0 ≤ maxTokens && estimateModelVisibleTokens properties text ≤ maxTokens

/-! ## Cutting to a budget -/

/-- `codePoints.slice(0, count).join("")` -/
def codePointPrefix (text : Text) (count : Nat) : Text :=
  ((codePointTexts text).take count).flatten

/-- Whether so many code points of the text fit with the suffix. -/
def prefixFits (text : Text) (maxTokens : Int) (suffix : Text) (count : Nat) : Bool :=
  estimateModelVisibleTokens properties (codePointPrefix text count ++ suffix) ≤ maxTokens

def modelVisiblePrefix (text : Text) (maxTokens : Int) (suffix : Text) : Except String Text :=
  if !isSafeInteger maxTokens || maxTokens < 0 then
    .error "maxTokens must be a non-negative safe integer."
  else if estimateModelVisibleTokens properties suffix > maxTokens then .ok []
  else .ok (codePointPrefix text (bisect (prefixFits properties text maxTokens suffix) 0
    ((codePointTexts text).length + 1) 0))

/-! ## Beginnings of a text -/

theorem ne_nil_of_mem_codePointTexts {text c : Text} (h : c ∈ codePointTexts text) : c ≠ [] := by
  induction text using codePointTexts.induct with
  | case1 => cases h
  | case2 u =>
    rw [codePointTexts, List.mem_singleton] at h
    simp [h]
  | case3 u v rest hpair ih =>
    rw [codePointTexts, if_pos hpair, List.mem_cons] at h
    rcases h with rfl | h
    · simp
    · exact ih h
  | case4 u v rest hpair ih =>
    rw [codePointTexts, if_neg hpair, List.mem_cons] at h
    rcases h with rfl | h
    · simp
    · exact ih h

@[simp]
theorem codePointPrefix_zero (text : Text) : codePointPrefix text 0 = [] := rfl

/-- One code point more is a longer beginning. -/
theorem length_codePointPrefix_lt {text : Text} {j k : Nat} (hjk : j < k)
    (hk : k ≤ (codePointTexts text).length) :
    (codePointPrefix text j).length < (codePointPrefix text k).length := by
  have hsplit : (codePointTexts text).take k =
      (codePointTexts text).take j ++ ((codePointTexts text).drop j).take (k - j) := by
    rw [← List.take_add]
    congr 1
    omega
  have hne : ((codePointTexts text).drop j).take (k - j) ≠ [] := by
    intro hnil
    have hlength := congrArg List.length hnil
    rw [List.length_take, List.length_drop, List.length_nil] at hlength
    omega
  obtain ⟨c, rest, hrest⟩ := List.exists_cons_of_ne_nil hne
  have hmem : c ∈ ((codePointTexts text).drop j).take (k - j) := by
    rw [hrest]
    exact List.mem_cons_self
  have hc : c ≠ [] :=
    ne_nil_of_mem_codePointTexts (List.mem_of_mem_drop (List.mem_of_mem_take hmem))
  have hpos : 0 < c.length := List.length_pos_iff.mpr hc
  rw [codePointPrefix, codePointPrefix, hsplit, List.flatten_append, List.length_append, hrest,
    List.flatten_cons, List.length_append]
  omega

theorem codePointPrefix_inj {text : Text} {j k : Nat} (hj : j ≤ (codePointTexts text).length)
    (hk : k ≤ (codePointTexts text).length)
    (h : codePointPrefix text j = codePointPrefix text k) : j = k := by
  rcases Nat.lt_trichotomy j k with hlt | heq | hlt
  · have := length_codePointPrefix_lt hlt hk
    rw [h] at this
    omega
  · exact heq
  · have := length_codePointPrefix_lt hlt hj
    rw [h] at this
    omega

/-! ## The longest beginning that fits -/

section Longest

variable {properties} {text suffix result : Text} {maxTokens : Int}

/-- So many code points fit, and no more of them do. -/
def Greatest (properties : Properties) (text : Text) (maxTokens : Int) (suffix : Text)
    (count : Nat) : Prop :=
  count ≤ (codePointTexts text).length ∧ prefixFits properties text maxTokens suffix count = true ∧
    ∀ more, count < more → more ≤ (codePointTexts text).length →
      prefixFits properties text maxTokens suffix more = false

/-- The longest beginning that fits with the suffix, or nothing when none does. -/
def Longest (properties : Properties) (text : Text) (maxTokens : Int) (suffix : Text)
    (result : Text) : Prop :=
  (∃ count, result = codePointPrefix text count ∧ Greatest properties text maxTokens suffix count) ∨
    result = [] ∧ ∀ count, count ≤ (codePointTexts text).length →
      prefixFits properties text maxTokens suffix count = false

/-- When the suffix fits, every shorter beginning tried on the way to the longest one that fits fits
    as well; when it does not fit, no beginning fits with it. -/
def Steady (properties : Properties) (text : Text) (maxTokens : Int) (suffix : Text) : Prop :=
  if estimateModelVisibleTokens properties suffix ≤ maxTokens then
    ∀ count, Greatest properties text maxTokens suffix count →
      ∀ tried ∈ path count 0 ((codePointTexts text).length + 1), tried ≤ count →
        prefixFits properties text maxTokens suffix tried = true
  else ∀ count, count ≤ (codePointTexts text).length →
    prefixFits properties text maxTokens suffix count = false

theorem prefixFits_zero :
    prefixFits properties text maxTokens suffix 0 = true ↔
      estimateModelVisibleTokens properties suffix ≤ maxTokens := by
  rw [prefixFits, codePointPrefix_zero, List.nil_append, decide_eq_true_eq]

theorem Greatest.unique {j k : Nat} (hj : Greatest properties text maxTokens suffix j)
    (hk : Greatest properties text maxTokens suffix k) : j = k := by
  rcases Nat.lt_trichotomy j k with hlt | heq | hlt
  · have := hj.2.2 k hlt hk.1
    rw [hk.2.1] at this
    cases this
  · exact heq
  · have := hk.2.2 j hlt hj.1
    rw [hj.2.1] at this
    cases this

/-- Where the suffix fits there is a greatest number of code points that fit with it. -/
theorem exists_greatest (h : estimateModelVisibleTokens properties suffix ≤ maxTokens) :
    ∃ count, Greatest properties text maxTokens suffix count := by
  have hzero : prefixFits properties text maxTokens suffix 0 = true := prefixFits_zero.mpr h
  refine ⟨Nat.findGreatest (fun k => prefixFits properties text maxTokens suffix k = true)
    (codePointTexts text).length, Nat.findGreatest_le _, ?_, fun more hmore hle => ?_⟩
  · exact Nat.findGreatest_spec
      (P := fun k => prefixFits properties text maxTokens suffix k = true) (Nat.zero_le _) hzero
  · exact Bool.eq_false_iff.mpr (Nat.findGreatest_is_greatest hmore hle)

/-- The result fits with the suffix whenever the suffix fits. -/
theorem estimate_modelVisiblePrefix_le
    (hok : modelVisiblePrefix properties text maxTokens suffix = .ok result)
    (h : estimateModelVisibleTokens properties suffix ≤ maxTokens) :
    estimateModelVisibleTokens properties (result ++ suffix) ≤ maxTokens := by
  rw [modelVisiblePrefix] at hok
  split_ifs at hok with hbudget
  · rw [← Except.ok.inj hok]
    exact h
  · obtain rfl := Except.ok.inj hok
    rcases Bisection.bisect_cases (prefixFits properties text maxTokens suffix) 0
      ((codePointTexts text).length + 1) 0 with heq | ⟨-, -, hfits⟩
    · rwa [heq, codePointPrefix_zero, List.nil_append]
    · exact of_decide_eq_true hfits

/-- For every accepted budget, `modelVisiblePrefix` returns the longest beginning of the text that
    fits with the suffix exactly when the beginnings it tries are steady; with the suffix its result
    is within the budget whenever the suffix is. -/
theorem modelVisiblePrefix_longest_iff
    (hok : modelVisiblePrefix properties text maxTokens suffix = .ok result) :
    (Longest properties text maxTokens suffix result ∧
      (estimateModelVisibleTokens properties suffix ≤ maxTokens →
        estimateModelVisibleTokens properties (result ++ suffix) ≤ maxTokens)) ↔
      Steady properties text maxTokens suffix := by
  rw [and_iff_left (estimate_modelVisiblePrefix_le hok), Steady]
  rw [modelVisiblePrefix] at hok
  split_ifs at hok with hbudget hsuffix
  · -- the suffix alone is beyond the budget
    obtain rfl := Except.ok.inj hok
    rw [if_neg (by omega)]
    refine ⟨fun hlongest => ?_, fun hnone => Or.inr ⟨rfl, hnone⟩⟩
    rcases hlongest with ⟨count, hcount, hle, hfits, -⟩ | ⟨-, hnone⟩
    · have hzero : count = 0 := codePointPrefix_inj hle (Nat.zero_le _) hcount.symm
      rw [hzero, prefixFits_zero] at hfits
      omega
    · exact hnone
  · obtain rfl := Except.ok.inj hok
    have hfits : estimateModelVisibleTokens properties suffix ≤ maxTokens := by omega
    have hlongest : ∃ count, Greatest properties text maxTokens suffix count :=
      exists_greatest hfits
    obtain ⟨target, hgreatest⟩ := hlongest
    have hfound := Bisection.bisect_eq_iff (Nat.zero_le target) (Nat.lt_succ_of_le hgreatest.1)
      hgreatest.2.1 (fun k hk hk' => hgreatest.2.2 k hk (Nat.le_of_lt_succ hk'))
      (Or.inr ⟨rfl, rfl⟩)
    have hbelow : bisect (prefixFits properties text maxTokens suffix) 0
        ((codePointTexts text).length + 1) 0 ≤ (codePointTexts text).length := by
      rcases Bisection.bisect_cases (prefixFits properties text maxTokens suffix) 0
        ((codePointTexts text).length + 1) 0 with heq | ⟨-, hlt, -⟩
      · omega
      · omega
    rw [if_pos hfits]
    constructor
    · rintro (⟨count, hcount, hthis⟩ | ⟨-, hnone⟩) other hother
      · have hsame := codePointPrefix_inj hbelow hthis.1 hcount
        rw [hother.unique hgreatest]
        exact hfound.mp (hsame.trans (hthis.unique hgreatest))
      · have := hnone 0 (Nat.zero_le _)
        rw [prefixFits_zero.mpr hfits] at this
        cases this
    · intro hsteady
      refine Or.inl ⟨target, ?_, hgreatest⟩
      rw [hfound.mpr (hsteady target hgreatest)]

end Longest

/-! ## A word that looks like a hexadecimal number -/

/-- The classes as they are for ASCII. -/
def ascii : Properties where
  letter c := (0x41 ≤ c && c ≤ 0x5a) || (0x61 ≤ c && c ≤ 0x7a)
  mark _ := false
  number c := 0x30 ≤ c && c ≤ 0x39
  lowercase c := 0x61 ≤ c && c ≤ 0x7a
  uppercase c := 0x41 ≤ c && c ≤ 0x5a
  cjk _ := false
  space c := c == 0x20 || (0x09 ≤ c && c ≤ 0x0d)

/-- Six letters of the word are hexadecimal digits and cost six tokens; the word itself costs two, but
    it is not tried. -/
theorem modelVisiblePrefix_feedback :
    modelVisiblePrefix ascii (text "feedback") 2 [] = .ok (text "feedb") ∧
      estimateModelVisibleTokens ascii (text "feedback") = 2 ∧
      ¬ Longest ascii (text "feedback") 2 [] (text "feedb") := by
  have hwhole : prefixFits ascii (text "feedback") 2 [] 8 = true := by decide +kernel
  refine ⟨by decide +kernel, by decide +kernel, ?_⟩
  rintro (⟨count, hcount, hle, -, hmore⟩ | ⟨hnil, -⟩)
  · have hlength : (codePointTexts (text "feedback")).length = 8 := by decide +kernel
    have hlt : count < 8 := by
      rcases Nat.lt_or_eq_of_le (hlength ▸ hle) with hlt | rfl
      · exact hlt
      · exact absurd hcount (by decide +kernel)
    rw [hmore 8 hlt (by rw [hlength])] at hwhole
    cases hwhole
  · exact absurd hnil (by decide +kernel)

/-- A text that is cut behind its first word. -/
theorem modelVisiblePrefix_note : Steady ascii (text "note it") 2 (text "!") := by
  have hok : modelVisiblePrefix ascii (text "note it") 2 (text "!") = .ok (text "note") := by
    decide +kernel
  have hlength : (codePointTexts (text "note it")).length = 7 := by decide +kernel
  have hmore : ∀ more, more ≤ 7 → 4 < more →
      prefixFits ascii (text "note it") 2 (text "!") more = false := by decide +kernel
  refine (modelVisiblePrefix_longest_iff hok).mp ⟨Or.inl ⟨4, by decide +kernel, ?_, ?_, ?_⟩, ?_⟩
  · rw [hlength]
    decide
  · decide +kernel
  · rw [hlength]
    exact fun more hlt hle => hmore more hle hlt
  · exact fun _ => by decide +kernel

end ContextStore.TokenBudget
