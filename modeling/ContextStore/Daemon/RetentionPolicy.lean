import ContextStore.Foundation.InsertionMap
import ContextStore.Foundation.Outcomes
import ContextStore.Store.KeyEncoding
import ContextStore.Store.World

/-! # Which class a document is kept in, and until when

A policy names classes by kind and lifetimes by class and by kind. Kinds are free strings and the
tables are plain objects: for a kind without an entry, the table of the classes answers with what
every object inherits under that name. Exactly there, and at the one name that cannot be set, a
document is not kept as its policy says (`retentionForAdmission_configured_iff`). -/

namespace ContextStore.RetentionPolicy

open Concurrent (bind_ok_iff)
open KeyEncoding (MAX_SAFE_INTEGER)

/-! ## Objects of the language -/

/-- What `Object.prototype` has a member for. -/
def inheritedNames : List String :=
  ["__defineGetter__", "__defineSetter__", "__lookupGetter__", "__lookupSetter__", "__proto__",
    "constructor", "hasOwnProperty", "isPrototypeOf", "propertyIsEnumerable", "toLocaleString",
    "toString", "valueOf"]

/-- What a member expression finds: a value of the object itself, or one that all objects share. -/
inductive Member (α : Type) where
  | own (value : α)
  | inherited (name : String)

section Objects

variable {α : Type}

/-- `object[name]`, or nothing for `undefined` -/
def member (object : InsertionMap String α) (name : String) : Option (Member α) :=
  match object.get name with
  | some value => some (.own value)
  | none => if name ∈ inheritedNames then some (.inherited name) else none

/-- `object[name] = value` for a value that is not an object: under `__proto__` nothing is set. -/
def assign (object : InsertionMap String α) (name : String) (value : α) : InsertionMap String α :=
  if name = "__proto__" then object else object.set name value

theorem get_assign (object : InsertionMap String α) (name name' : String) (value : α) :
    (assign object name value).get name' =
      if name' = name ∧ name ≠ "__proto__" then some value else object.get name' := by
  rw [assign]
  by_cases hproto : name = "__proto__"
  · simp [hproto]
  · simp [hproto, InsertionMap.get_set]

end Objects

/-! ## Classes and lifetimes -/

inductive RetentionClass where
  | ephemeralPayload
  | conversationSource
  | derivedEvidence
  | durableEvidence
  | activeEvidence

def RetentionClass.name : RetentionClass → String
  | .ephemeralPayload => "ephemeral-payload"
  | .conversationSource => "conversation-source"
  | .derivedEvidence => "derived-evidence"
  | .durableEvidence => "durable-evidence"
  | .activeEvidence => "active-evidence"

/-- The class with a name of `RETENTION_CLASSES`. -/
def RetentionClass.ofName (name : String) : Option RetentionClass :=
  if name = "ephemeral-payload" then some .ephemeralPayload
  else if name = "conversation-source" then some .conversationSource
  else if name = "derived-evidence" then some .derivedEvidence
  else if name = "durable-evidence" then some .durableEvidence
  else if name = "active-evidence" then some .activeEvidence
  else none

/-- A positive safe integer. -/
structure Lifetime where
  ms : Int
  positive : 0 < ms
  safe : ms ≤ MAX_SAFE_INTEGER

def DAY_MS : Int := 24 * 60 * 60 * 1000

def days (count : Nat) (h : 0 < count ∧ count < 1000) : Lifetime where
  ms := count * DAY_MS
  positive := by
    rw [DAY_MS]
    omega
  safe := by
    rw [DAY_MS, MAX_SAFE_INTEGER]
    omega

def DEFAULT_RETENTION_LIFETIMES_MS : InsertionMap String (Option Lifetime) :=
  ⟨[("ephemeral-payload", some (days 14 (by decide))),
    ("conversation-source", some (days 90 (by decide))),
    ("derived-evidence", some (days 30 (by decide))), ("durable-evidence", none),
    ("active-evidence", none)], by simp⟩

def DEFAULT_RETENTION_CLASS_BY_KIND : InsertionMap String RetentionClass :=
  ⟨[("tool-result", .ephemeralPayload), ("tool-argument", .ephemeralPayload),
    ("decision-candidate", .derivedEvidence), ("fact-candidate", .derivedEvidence),
    ("manual", .durableEvidence)], by simp⟩

theorem RetentionClass.name_ne_proto (retentionClass : RetentionClass) :
    retentionClass.name ≠ "__proto__" := by
  cases retentionClass <;> simp [name]

theorem RetentionClass.exists_default (retentionClass : RetentionClass) :
    ∃ lifetime, DEFAULT_RETENTION_LIFETIMES_MS.get retentionClass.name = some lifetime := by
  cases retentionClass <;> exact ⟨_, rfl⟩

/-- No usual kind is named like something inherited. -/
theorem get_default_of_mem_inheritedNames {kind : String} (h : kind ∈ inheritedNames) :
    DEFAULT_RETENTION_CLASS_BY_KIND.get kind = none := by
  simp only [inheritedNames, List.mem_cons, List.not_mem_nil, or_false] at h
  rcases h with rfl | rfl | rfl | rfl | rfl | rfl | rfl | rfl | rfl | rfl | rfl | rfl <;> rfl

/-! ## Reading a policy -/

/-- A value in a table of a policy, or in a request. -/
inductive Setting where
  | undefined
  | null
  | integer (value : Int)
  | string (value : String)
  | other
deriving DecidableEq

/-- A duration, null for one without end. -/
def Setting.lifetime? : Setting → Option (Option Lifetime)
  | .null => some none
  | .integer value =>
    if h : 0 < value ∧ value ≤ MAX_SAFE_INTEGER then some (some ⟨value, h.1, h.2⟩) else none
  | _ => none

def duration (setting : Setting) (label : String) : Except StoreError (Option Lifetime) :=
  match setting.lifetime? with
  | some lifetime => .ok lifetime
  | none => .error (.typeError s!"{label} must be null or a positive safe integer.")

def Setting.class? : Setting → Option RetentionClass
  | .string name => RetentionClass.ofName name
  | _ => none

def className (setting : Setting) (label : String) : Except StoreError RetentionClass :=
  match setting.class? with
  | some retentionClass => .ok retentionClass
  | none => .error (.typeError s!"{label} must name a supported retention class.")

/-- What stands where an object is expected. -/
inductive Given (α : Type) where
  | undefined
  | malformed
  | object (content : α)

def Given.read {α : Type} (given : Given α) (empty : α) (label : String) : Except StoreError α :=
  match given with
  | .undefined => .ok empty
  | .malformed => .error (.typeError s!"{label} must be an object.")
  | .object content => .ok content

/-- A policy as it is asked for. -/
structure Requested where
  classByKind : Given (InsertionMap String Setting) := .undefined
  lifetimeMsByClass : Given (InsertionMap String Setting) := .undefined
  lifetimeMsByKind : Given (InsertionMap String Setting) := .undefined

structure Policy where
  classByKind : InsertionMap String RetentionClass
  lifetimeMsByClass : InsertionMap String (Option Lifetime)
  lifetimeMsByKind : InsertionMap String (Option Lifetime)

def assignEntries {α : Type} (parse : String → Setting → Except StoreError α)
    (initial : InsertionMap String α) (entries : List (String × Setting)) :
    Except StoreError (InsertionMap String α) :=
  entries.foldlM (fun object entry => do
    let value ← parse entry.1 entry.2
    return assign object entry.1 value) initial

def classOfKind (kind : String) (setting : Setting) : Except StoreError RetentionClass :=
  if kind = "" then .error (.typeError "retentionPolicy.classByKind keys must be non-empty.")
  else className setting s!"retention class for kind {kind}"

def lifetimeOfClass (retentionClass : String) (setting : Setting) :
    Except StoreError (Option Lifetime) := do
  let _ ← className (.string retentionClass) "retentionPolicy.lifetimeMsByClass key"
  duration setting s!"retention lifetime for class {retentionClass}"

def lifetimeOfKind (kind : String) (setting : Setting) : Except StoreError (Option Lifetime) :=
  if kind = "" then .error (.typeError "retentionPolicy.lifetimeMsByKind keys must be non-empty.")
  else duration setting s!"retention lifetime for kind {kind}"

def normalizeArchiveRetentionPolicy (value : Given Requested) : Except StoreError Policy := do
  let policy ← value.read {} "retentionPolicy"
  let requestedClasses ← policy.classByKind.read .empty "retentionPolicy.classByKind"
  let requestedClassLifetimes ←
    policy.lifetimeMsByClass.read .empty "retentionPolicy.lifetimeMsByClass"
  let requestedKindLifetimes ←
    policy.lifetimeMsByKind.read .empty "retentionPolicy.lifetimeMsByKind"
  let classByKind ←
    assignEntries classOfKind DEFAULT_RETENTION_CLASS_BY_KIND requestedClasses.entries
  let lifetimeMsByClass ←
    assignEntries lifetimeOfClass DEFAULT_RETENTION_LIFETIMES_MS requestedClassLifetimes.entries
  let lifetimeMsByKind ← assignEntries lifetimeOfKind .empty requestedKindLifetimes.entries
  return { classByKind, lifetimeMsByClass, lifetimeMsByKind }

/-! ## Admitting a document -/

structure AdmissionRequest where
  kind : String
  retentionClass : Setting := .undefined
  expiresAt : Setting := .undefined
  now : Int

/-- A point in time, or what comes of a sum with `undefined`. -/
inductive Expiry where
  | time (ms : Int)
  | notANumber

structure Retention where
  retentionClass : Member RetentionClass
  expiresAt : Option Expiry := none

/-- `normalized.classByKind[kind] ?? "conversation-source"` unless a class is given -/
def selectClass (policy : Policy) (request : AdmissionRequest) :
    Except StoreError (Member RetentionClass) :=
  if request.retentionClass = .undefined then
    .ok ((member policy.classByKind request.kind).getD (.own .conversationSource))
  else (className request.retentionClass "retentionClass").map .own

/-- `normalized.lifetimeMsByClass[selectedClass]`; a shared member is turned into text that names no
class, and neither is that text a name that is inherited. -/
def lifetimeOfSelected (policy : Policy) : Member RetentionClass → Option (Option Lifetime)
  | .own retentionClass => policy.lifetimeMsByClass.get retentionClass.name
  | .inherited _ => none

/-- The end of a lifetime; without one there is `undefined` to add, and no number is greater than
the one that is none. -/
def expiryAfter (now : Int) (retentionClass : Member RetentionClass) :
    Option (Option Lifetime) → Except StoreError Retention
  | some none => .ok { retentionClass }
  | some (some lifetime) =>
    if now < 0 ∨ MAX_SAFE_INTEGER < now ∨ MAX_SAFE_INTEGER - lifetime.ms < now then
      .error (.rangeError "Retention expiry exceeds the safe timestamp range.")
    else .ok { retentionClass, expiresAt := some (.time (now + lifetime.ms)) }
  | none =>
    if now < 0 ∨ MAX_SAFE_INTEGER < now then
      .error (.rangeError "Retention expiry exceeds the safe timestamp range.")
    else .ok { retentionClass, expiresAt := some .notANumber }

/-- `policy` is one that has been normalized, as all callers have it. -/
def retentionForAdmission (policy : Policy) (request : AdmissionRequest) :
    Except StoreError Retention := do
  let selectedClass ← selectClass policy request
  match request.expiresAt with
  | .undefined =>
    expiryAfter request.now selectedClass ((policy.lifetimeMsByKind.get request.kind).or
      (lifetimeOfSelected policy selectedClass))
  | .integer expiresAt =>
    if 0 ≤ expiresAt ∧ expiresAt ≤ MAX_SAFE_INTEGER then
      .ok { retentionClass := selectedClass, expiresAt := some (.time expiresAt) }
    else
      .error (.typeError "expiresAt must be a non-negative safe integer timestamp.")
  | _ => .error (.typeError "expiresAt must be a non-negative safe integer timestamp.")

/-! ## What a policy asks for -/

def Given.entries : Given (InsertionMap String Setting) → InsertionMap String Setting
  | .object table => table
  | _ => .empty

def Given.requested : Given Requested → Requested
  | .object policy => policy
  | _ => {}

section Asked

variable (value : Given Requested)

/-- The class for a kind: the one asked for, the usual one, or that of conversations. -/
def configuredClass (kind : String) : RetentionClass :=
  (((value.requested.classByKind.entries.get kind).bind Setting.class?).or
    (DEFAULT_RETENTION_CLASS_BY_KIND.get kind)).getD .conversationSource

/-- The lifetime of a class: the one asked for, or the usual one. -/
def configuredClassLifetime (retentionClass : RetentionClass) : Option Lifetime :=
  (((value.requested.lifetimeMsByClass.entries.get retentionClass.name).bind
    Setting.lifetime?).or (DEFAULT_RETENTION_LIFETIMES_MS.get retentionClass.name)).getD none

/-- The lifetime asked for a kind goes before that of its class. -/
def configuredLifetime (kind : String) (retentionClass : RetentionClass) : Option Lifetime :=
  ((value.requested.lifetimeMsByKind.entries.get kind).bind Setting.lifetime?).getD
    (configuredClassLifetime value retentionClass)

def requestedClass (request : AdmissionRequest) : RetentionClass :=
  (request.retentionClass.class?).getD (configuredClass value request.kind)

/-- A request with a name for its kind, at a time from which the lifetime does not lead too far. -/
structure Admissible (request : AdmissionRequest) : Prop where
  kind : request.kind ≠ ""
  retentionClass : request.retentionClass = .undefined ∨ request.retentionClass.class?.isSome
  expiresAt : request.expiresAt = .undefined ∨
    ∃ time, request.expiresAt = .integer time ∧ 0 ≤ time ∧ time ≤ MAX_SAFE_INTEGER
  now : request.expiresAt = .undefined → 0 ≤ request.now ∧ request.now ≤ MAX_SAFE_INTEGER ∧
    ∀ lifetime, configuredLifetime value request.kind (requestedClass value request) =
      some lifetime → request.now + lifetime.ms ≤ MAX_SAFE_INTEGER

/-- The document is kept as the policy asks for. -/
def Configured (request : AdmissionRequest) (retention : Retention) : Prop :=
  retention.retentionClass = .own (requestedClass value request) ∧
    retention.expiresAt = match request.expiresAt with
      | .integer time => some (.time time)
      | _ => (configuredLifetime value request.kind (requestedClass value request)).map
          fun lifetime => .time (request.now + lifetime.ms)

/-- No table is asked for something it cannot have or does not have of its own. -/
def OwnNames (request : AdmissionRequest) : Prop :=
  (request.retentionClass = .undefined → request.kind ∈ inheritedNames →
    request.kind ≠ "__proto__" ∧ (value.requested.classByKind.entries.get request.kind).isSome) ∧
  (request.expiresAt = .undefined → request.kind = "__proto__" →
    configuredLifetime value request.kind (requestedClass value request) =
      configuredClassLifetime value (requestedClass value request))

end Asked

/-! ## Reading it -/

section Normalized

variable {α : Type}

/-- Every entry that can be set is found again, and all others are left as they were. -/
theorem get_assignEntries {parse : String → Setting → Except StoreError α}
    {value? : Setting → Option α}
    (hparse : ∀ name setting value, parse name setting = .ok value → value? setting = some value)
    {entries : List (String × Setting)} (hdistinct : (entries.map Prod.fst).Nodup)
    {initial object : InsertionMap String α}
    (h : assignEntries parse initial entries = .ok object) (name : String) :
    object.get name = (if name = "__proto__" then none
      else (entries.lookup name).bind value?).or (initial.get name) ∧
    ∀ setting, entries.lookup name = some setting → (value? setting).isSome = true := by
  induction entries generalizing initial with
  | nil =>
    obtain rfl := Except.ok.inj h
    simp
  | cons entry entries ih =>
    obtain ⟨hnotMem, hdistinct⟩ := List.nodup_cons.mp hdistinct
    obtain ⟨object', hstep, h⟩ := bind_ok_iff.mp h
    obtain ⟨value, hvalue, hstep⟩ := bind_ok_iff.mp hstep
    obtain rfl := Except.ok.inj hstep
    obtain ⟨hget, hsome⟩ := ih hdistinct h
    rw [get_assign] at hget
    have hentry := hparse _ _ _ hvalue
    rw [List.lookup_cons]
    by_cases hname : name = entry.1
    · have hnone : entries.lookup entry.1 = none := by
        rw [List.lookup_eq_none_iff]
        intro other hother
        exact bne_iff_ne.mpr fun heq => hnotMem (List.mem_map.mpr ⟨other, hother, heq.symm⟩)
      subst hname
      rw [hnone] at hget
      refine ⟨?_, by simp [hentry]⟩
      by_cases hproto : entry.1 = "__proto__"
      · simpa [hproto] using hget
      · simpa [hproto, hentry] using hget
    · have hkept : (if name = entry.1 ∧ entry.1 ≠ "__proto__" then some value
          else initial.get name) = initial.get name := if_neg fun hboth => hname hboth.1
      rw [hkept] at hget
      rw [beq_false_of_ne hname]
      exact ⟨hget, hsome⟩

variable {label : String}

theorem Given.entries_eq {given : Given (InsertionMap String Setting)}
    {table : InsertionMap String Setting} (h : given.read .empty label = .ok table) :
    given.entries = table := by
  cases given with
  | undefined => exact Except.ok.inj h
  | malformed => cases h
  | object content => exact Except.ok.inj h

theorem class?_of_className {setting : Setting} {retentionClass : RetentionClass}
    (h : className setting label = .ok retentionClass) : setting.class? = some retentionClass := by
  rw [className] at h
  split at h
  · next heq => rw [heq, Except.ok.inj h]
  · cases h

theorem lifetime?_of_duration {setting : Setting} {lifetime : Option Lifetime}
    (h : duration setting label = .ok lifetime) : setting.lifetime? = some lifetime := by
  rw [duration] at h
  split at h
  · next heq => rw [heq, Except.ok.inj h]
  · cases h

variable {value : Given Requested} {policy : Policy}

/-- What the tables of a policy hold that has been accepted. -/
structure Reads (value : Given Requested) (policy : Policy) : Prop where
  classByKind : ∀ kind, policy.classByKind.get kind = (if kind = "__proto__" then none
    else (value.requested.classByKind.entries.get kind).bind Setting.class?).or
      (DEFAULT_RETENTION_CLASS_BY_KIND.get kind)
  classes : ∀ kind setting, value.requested.classByKind.entries.get kind = some setting →
    setting.class?.isSome = true
  lifetimeMsByClass : ∀ retentionClass : RetentionClass,
    policy.lifetimeMsByClass.get retentionClass.name =
      some (configuredClassLifetime value retentionClass)
  lifetimeMsByKind : ∀ kind, policy.lifetimeMsByKind.get kind = if kind = "__proto__" then none
    else (value.requested.lifetimeMsByKind.entries.get kind).bind Setting.lifetime?

theorem normalizeArchiveRetentionPolicy_reads
    (h : normalizeArchiveRetentionPolicy value = .ok policy) : Reads value policy := by
  obtain ⟨requested, hrequested, h⟩ := bind_ok_iff.mp h
  obtain ⟨classes, hclasses, h⟩ := bind_ok_iff.mp h
  obtain ⟨classLifetimes, hclassLifetimes, h⟩ := bind_ok_iff.mp h
  obtain ⟨kindLifetimes, hkindLifetimes, h⟩ := bind_ok_iff.mp h
  obtain ⟨classByKind, hclassByKind, h⟩ := bind_ok_iff.mp h
  obtain ⟨lifetimeMsByClass, hlifetimeMsByClass, h⟩ := bind_ok_iff.mp h
  obtain ⟨lifetimeMsByKind, hlifetimeMsByKind, h⟩ := bind_ok_iff.mp h
  obtain rfl := Except.ok.inj h
  have hvalue : value.requested = requested := by
    cases value with
    | undefined => exact Except.ok.inj hrequested
    | malformed => cases hrequested
    | object content => exact Except.ok.inj hrequested
  have hreadClass : ∀ name setting retentionClass,
      classOfKind name setting = .ok retentionClass → setting.class? = some retentionClass := by
    intro name setting retentionClass hread
    rw [classOfKind] at hread
    split at hread
    · cases hread
    · exact class?_of_className hread
  have hreadClassLifetime : ∀ name setting lifetime,
      lifetimeOfClass name setting = .ok lifetime → setting.lifetime? = some lifetime := by
    intro name setting lifetime hread
    obtain ⟨_, -, hread⟩ := bind_ok_iff.mp hread
    exact lifetime?_of_duration hread
  have hreadLifetime : ∀ name setting lifetime,
      lifetimeOfKind name setting = .ok lifetime → setting.lifetime? = some lifetime := by
    intro name setting lifetime hread
    rw [lifetimeOfKind] at hread
    split at hread
    · cases hread
    · exact lifetime?_of_duration hread
  have hkinds := get_assignEntries hreadClass classes.distinct hclassByKind
  have hclassNames := get_assignEntries hreadClassLifetime classLifetimes.distinct
    hlifetimeMsByClass
  have hkindNames := get_assignEntries hreadLifetime kindLifetimes.distinct hlifetimeMsByKind
  refine ⟨?_, ?_, ?_, ?_⟩
  · intro kind
    rw [hvalue, Given.entries_eq hclasses]
    exact (hkinds kind).1
  · intro kind setting hsetting
    rw [hvalue, Given.entries_eq hclasses] at hsetting
    exact (hkinds kind).2 setting hsetting
  · intro retentionClass
    rw [(hclassNames retentionClass.name).1, configuredClassLifetime, hvalue,
      Given.entries_eq hclassLifetimes, if_neg retentionClass.name_ne_proto]
    obtain ⟨lifetime, hlifetime⟩ := retentionClass.exists_default
    have hor : ∀ asked : Option (Option Lifetime),
        asked.or (some lifetime) = some ((asked.or (some lifetime)).getD none) := by
      intro asked
      cases asked <;> rfl
    rw [hlifetime]
    exact hor _
  · intro kind
    rw [hvalue, Given.entries_eq hkindLifetimes, (hkindNames kind).1, InsertionMap.get_empty,
      Option.or_none]
    rfl

end Normalized

/-! ## Admission -/

section Admission

variable {value : Given Requested} {policy : Policy} {request : AdmissionRequest}

theorem Admissible.selectClass_given (h : Admissible value request)
    (hgiven : request.retentionClass ≠ .undefined) :
    selectClass policy request = .ok (.own (requestedClass value request)) := by
  obtain ⟨retentionClass, hclass⟩ :=
    Option.isSome_iff_exists.mp (h.retentionClass.resolve_left hgiven)
  rw [selectClass, if_neg hgiven, className, requestedClass, hclass]
  rfl

/-- Without a class of its own a request is given the configured one, or something inherited. -/
theorem Reads.selectClass_undefined (h : Reads value policy)
    (hgiven : request.retentionClass = .undefined) :
    selectClass policy request = .ok (if request.kind ∈ inheritedNames ∧
        (request.kind = "__proto__" ∨ value.requested.classByKind.entries.get request.kind = none)
      then .inherited request.kind else .own (requestedClass value request)) := by
  have hclass : requestedClass value request = configuredClass value request.kind := by
    rw [requestedClass, hgiven]
    rfl
  rw [selectClass, if_pos hgiven, hclass, configuredClass, member, h.classByKind]
  refine congrArg Except.ok ?_
  by_cases hmem : request.kind ∈ inheritedNames
  · rw [get_default_of_mem_inheritedNames hmem, if_pos hmem, Option.or_none, Option.or_none]
    by_cases hproto : request.kind = "__proto__"
    · simp [hproto, show "__proto__" ∈ inheritedNames by simp [inheritedNames]]
    · cases hentry : value.requested.classByKind.entries.get request.kind with
      | none => simp [hmem, hproto]
      | some setting =>
        obtain ⟨retentionClass, hsome⟩ :=
          Option.isSome_iff_exists.mp (h.classes request.kind setting hentry)
        simp [hproto, hsome]
  · have hproto : request.kind ≠ "__proto__" := by
      intro heq
      exact hmem (heq ▸ by simp [inheritedNames])
    rw [if_neg hproto, if_neg hmem, if_neg fun hboth => hmem hboth.1]
    cases ((value.requested.classByKind.entries.get request.kind).bind Setting.class?).or
      (DEFAULT_RETENTION_CLASS_BY_KIND.get request.kind) <;> rfl

theorem Reads.lifetime_own (h : Reads value policy) (kind : String)
    (retentionClass : RetentionClass) :
    (policy.lifetimeMsByKind.get kind).or (lifetimeOfSelected policy (.own retentionClass)) =
      some (if kind = "__proto__" then configuredClassLifetime value retentionClass
        else configuredLifetime value kind retentionClass) := by
  rw [h.lifetimeMsByKind, lifetimeOfSelected, h.lifetimeMsByClass, configuredLifetime]
  split
  · rfl
  · cases (value.requested.lifetimeMsByKind.entries.get kind).bind Setting.lifetime? <;> rfl

variable {selected : Member RetentionClass} {retention : Retention}

theorem retentionClass_of_expiryAfter {now : Int} {lifetime : Option (Option Lifetime)}
    (h : expiryAfter now selected lifetime = .ok retention) :
    retention.retentionClass = selected := by
  rw [expiryAfter.eq_def] at h
  split at h
  · rw [← Except.ok.inj h]
  · split at h
    · cases h
    · rw [← Except.ok.inj h]
  · split at h
    · cases h
    · rw [← Except.ok.inj h]

theorem retentionClass_of_retentionForAdmission
    (hselected : selectClass policy request = .ok selected)
    (h : retentionForAdmission policy request = .ok retention) :
    retention.retentionClass = selected := by
  obtain ⟨same, hsame, h⟩ := bind_ok_iff.mp h
  obtain rfl := Except.ok.inj (hselected.symm.trans hsame)
  split at h
  · exact retentionClass_of_expiryAfter h
  · split at h
    · rw [← Except.ok.inj h]
    · cases h
  · cases h

theorem Lifetime.eq_of_ms {a b : Lifetime} (h : a.ms = b.ms) : a = b := by
  cases a
  cases b
  cases h
  rfl

/-- From an admissible time a lifetime ends where it should only if it is the right one. -/
theorem expiryAfter_iff {now : Int} (hnow : 0 ≤ now ∧ now ≤ MAX_SAFE_INTEGER)
    {retentionClass : Member RetentionClass} (found wanted : Option Lifetime)
    (hroom : ∀ lifetime, wanted = some lifetime → now + lifetime.ms ≤ MAX_SAFE_INTEGER) :
    (∃ retention, expiryAfter now retentionClass (some found) = .ok retention ∧
      retention.expiresAt = wanted.map fun lifetime => Expiry.time (now + lifetime.ms)) ↔
      found = wanted := by
  constructor
  · rintro ⟨retention, hretention, hexpiry⟩
    cases found with
    | none =>
      rw [← Except.ok.inj hretention] at hexpiry
      exact (Option.map_eq_none_iff.mp hexpiry.symm).symm
    | some lifetime =>
      rw [expiryAfter] at hretention
      split at hretention
      · cases hretention
      · rw [← Except.ok.inj hretention] at hexpiry
        obtain ⟨other, hwanted, hsame⟩ := Option.map_eq_some_iff.mp hexpiry.symm
        have hms : now + other.ms = now + lifetime.ms := Expiry.time.inj hsame
        have heq : lifetime = other := Lifetime.eq_of_ms (by omega)
        rw [hwanted, heq]
  · rintro rfl
    cases found with
    | none => exact ⟨_, rfl, rfl⟩
    | some lifetime =>
      have hend := hroom lifetime rfl
      rw [expiryAfter, if_neg (by omega)]
      exact ⟨_, rfl, rfl⟩

/-- Under a class of its own the document is kept as configured when the lifetime found for it is
the configured one. -/
theorem Reads.configured_iff_of_own (h : Reads value policy)
    (hadmissible : Admissible value request)
    (hselected : selectClass policy request = .ok (.own (requestedClass value request))) :
    (∃ retention, retentionForAdmission policy request = .ok retention ∧
        Configured value request retention) ↔
      (request.expiresAt = .undefined → request.kind = "__proto__" →
        configuredLifetime value request.kind (requestedClass value request) =
          configuredClassLifetime value (requestedClass value request)) := by
  rcases hadmissible.expiresAt with hnone | ⟨time, htime, hpositive, hsafe⟩
  · have hrun : retentionForAdmission policy request =
        expiryAfter request.now (.own (requestedClass value request))
          (some (if request.kind = "__proto__" then configuredClassLifetime value
              (requestedClass value request)
            else configuredLifetime value request.kind (requestedClass value request))) := by
      rw [retentionForAdmission, hselected, hnone, ← h.lifetime_own]
      rfl
    obtain ⟨hnow, hlate, hroom⟩ := hadmissible.now hnone
    have hiff := @expiryAfter_iff request.now ⟨hnow, hlate⟩
      (.own (requestedClass value request)) (if request.kind = "__proto__" then
        configuredClassLifetime value (requestedClass value request)
        else configuredLifetime value request.kind (requestedClass value request)) _ hroom
    rw [← hrun] at hiff
    have hconfigured : (∃ retention, retentionForAdmission policy request = .ok retention ∧
        Configured value request retention) ↔
        ∃ retention, retentionForAdmission policy request = .ok retention ∧ retention.expiresAt =
            (configuredLifetime value request.kind (requestedClass value request)).map
              fun lifetime => Expiry.time (request.now + lifetime.ms) := by
      refine exists_congr fun retention => and_congr_right fun hretention => ?_
      rw [Configured, retentionClass_of_retentionForAdmission hselected hretention, hnone]
      exact and_iff_right rfl
    rw [hconfigured, hiff]
    by_cases hproto : request.kind = "__proto__"
    · rw [if_pos hproto]
      exact ⟨fun heq _ _ => heq.symm, fun heq => (heq hnone hproto).symm⟩
    · rw [if_neg hproto]
      exact iff_of_true rfl fun _ hsame => absurd hsame hproto
  · refine iff_of_true ?_ (fun hnone => by rw [hnone] at htime; cases htime)
    refine ⟨⟨.own (requestedClass value request), some (.time time)⟩, ?_, rfl, ?_⟩
    · rw [retentionForAdmission, hselected, htime]
      exact if_pos ⟨hpositive, hsafe⟩
    · rw [htime]

/-- A document is kept as its policy says exactly when no table is asked for what it does not have
of its own, or cannot have. -/
theorem retentionForAdmission_configured_iff
    (hpolicy : normalizeArchiveRetentionPolicy value = .ok policy)
    (hadmissible : Admissible value request) :
    (∃ retention, retentionForAdmission policy request = .ok retention ∧
      Configured value request retention) ↔ OwnNames value request := by
  have hreads := normalizeArchiveRetentionPolicy_reads hpolicy
  rw [OwnNames]
  by_cases hgiven : request.retentionClass = .undefined
  · have hselect := hreads.selectClass_undefined hgiven
    by_cases hshared : request.kind ∈ inheritedNames ∧ (request.kind = "__proto__" ∨
        value.requested.classByKind.entries.get request.kind = none)
    · -- what is selected is nothing of the policy's own
      rw [if_pos hshared] at hselect
      refine iff_of_false ?_ ?_
      · rintro ⟨retention, hretention, hclass, -⟩
        rw [retentionClass_of_retentionForAdmission hselect hretention] at hclass
        cases hclass
      · rintro ⟨hown, -⟩
        obtain ⟨hproto, hentry⟩ := hown hgiven hshared.1
        rw [hshared.2.resolve_left hproto] at hentry
        cases hentry
    · rw [if_neg hshared] at hselect
      rw [hreads.configured_iff_of_own hadmissible hselect, iff_and_self]
      intro _ _ hmem
      rw [not_and, not_or] at hshared
      obtain ⟨hproto, hentry⟩ := hshared hmem
      exact ⟨hproto, Option.isSome_iff_ne_none.mpr hentry⟩
  · rw [hreads.configured_iff_of_own hadmissible (hadmissible.selectClass_given hgiven)]
    exact ⟨fun hlifetime => ⟨fun hnone => absurd hnone hgiven, hlifetime⟩, fun hboth => hboth.2⟩

/-- A turn under the policy without wishes. -/
theorem retentionForAdmission_configured_iff_default :
    (∃ retention, retentionForAdmission ⟨DEFAULT_RETENTION_CLASS_BY_KIND,
        DEFAULT_RETENTION_LIFETIMES_MS, .empty⟩ { kind := "turn", now := 0 } = .ok retention ∧
      Configured .undefined { kind := "turn", now := 0 } retention) ↔
        OwnNames .undefined { kind := "turn", now := 0 } :=
  retentionForAdmission_configured_iff rfl
    ⟨by simp, .inl rfl, .inl rfl, fun _ => ⟨by decide, by decide, fun lifetime hlifetime => by
      obtain rfl := Option.some.inj hlifetime
      decide⟩⟩

/-- Under the policy without wishes a document of the kind `constructor` is given no class and no
time. -/
theorem constructor_not_configured :
    retentionForAdmission ⟨DEFAULT_RETENTION_CLASS_BY_KIND, DEFAULT_RETENTION_LIFETIMES_MS,
        .empty⟩ { kind := "constructor", now := 0 } =
      .ok { retentionClass := .inherited "constructor", expiresAt := some .notANumber } ∧
    normalizeArchiveRetentionPolicy .undefined = .ok ⟨DEFAULT_RETENTION_CLASS_BY_KIND,
      DEFAULT_RETENTION_LIFETIMES_MS, .empty⟩ ∧
    Admissible .undefined { kind := "constructor", now := 0 } ∧
    ¬ ∃ retention, retentionForAdmission ⟨DEFAULT_RETENTION_CLASS_BY_KIND,
        DEFAULT_RETENTION_LIFETIMES_MS, .empty⟩ { kind := "constructor", now := 0 } =
          .ok retention ∧
      Configured .undefined { kind := "constructor", now := 0 } retention := by
  have hrun : retentionForAdmission ⟨DEFAULT_RETENTION_CLASS_BY_KIND,
      DEFAULT_RETENTION_LIFETIMES_MS, .empty⟩ { kind := "constructor", now := 0 } =
        .ok { retentionClass := .inherited "constructor", expiresAt := some .notANumber } := rfl
  refine ⟨hrun, rfl, ⟨by simp, .inl rfl, .inl rfl, fun _ => ⟨by decide, by decide, ?_⟩⟩, ?_⟩
  · intro lifetime hlifetime
    obtain rfl := Option.some.inj hlifetime
    decide
  rintro ⟨retention, hretention, hclass, -⟩
  obtain rfl := Except.ok.inj (hrun.symm.trans hretention)
  cases hclass

end Admission

end ContextStore.RetentionPolicy
