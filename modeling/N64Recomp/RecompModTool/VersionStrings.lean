import Mathlib.Data.List.TakeWhile
import N64Recomp.RecompModTool.BuildModContext

/-!
# Version and dependency strings

The mod tool checks the versions and the dependencies of a manifest with a scanner: the two dots of
a version are found first, the parts between them are read by `std::from_chars`, and what follows
the last number may only be a label.

Against it stands the grammar. A version is three numbers of 16 bits, each written in decimal, with
a dot between two of them, and at the end it may have a label: a plus or a minus and any text. A
dependency is the id of a mod, and it may have a colon and a version behind it.

## Main definitions

* `checkVersionString`, `checkDependencyString`: the two scanners, with what they store through
  their references
* `Version`, `Dependency`: what the grammar derives, as values that carry their well-formedness
* `Recognizes`: a scanner accepts the texts of a grammar, and reports what they stand for

## Main results

* `checkVersionString_text`, `exists_version`: the first scanner on the texts of versions, and what
  it accepts
* `version_and_dependency_strings`
-/

namespace N64Recomp

/-! ## The scanners -/

def dotChar : BitVec 8 := 0x2E
def colonChar : BitVec 8 := 0x3A
def plusChar : BitVec 8 := 0x2B
def minusChar : BitVec 8 := 0x2D

/-- `std::errc` as `std::from_chars` answers it. -/
inductive Errc
  | none
  | invalidArgument
  | resultOutOfRange
  deriving DecidableEq, Repr

/-- `std::from_chars_result`, with the pointer counted from the first character. -/
structure FromCharsResult where
  ptr : Nat
  ec : Errc
  deriving DecidableEq, Repr

def isDecimalDigit (c : BitVec 8) : Bool := 0x30 ≤ c ∧ c ≤ 0x39

/-- The value of a string of digits. -/
def decimalValue (digits : Str) : Nat :=
  digits.foldl (fun n c => 10 * n + (c.toNat - 0x30)) 0

/-- `std::from_chars` for a `uint16_t`: the digits in front, with no sign and no blank. -/
def fromChars (str : Str) : FromCharsResult :=
  let digits := str.takeWhile isDecimalDigit
  if digits = [] then ⟨0, .invalidArgument⟩
  else if decimalValue digits < 2 ^ 16 then ⟨digits.length, .none⟩
  else ⟨digits.length, .resultOutOfRange⟩

/-- `std::string_view::find`, where `none` is `npos`. -/
def findChar (str : Str) (c : BitVec 8) (pos : Nat) : Option Nat :=
  ((str.drop pos).findIdx? (· = c)).map (pos + ·)

/-- The characters of a string from one index to another. -/
def slice (str : Str) (start stop : Nat) : Str := (str.take stop).drop start

/-- The lambda `did_parse`: the number takes up all of its part. -/
def didParse (result : FromCharsResult) (part : Str) : Bool :=
  result.ec = .none ∧ result.ptr = part.length

/-- `check_version_string`: whether the string is accepted, and `has_label` afterwards. -/
def checkVersionString (str : Str) (hasLabel : Bool) : Bool × Bool :=
  let first := findChar str dotChar 0
  -- `npos + 1` is 0
  let second := findChar str dotChar (first.elim 0 (· + 1))
  match first, second with
  | some i, some j =>
    let major := slice str 0 i
    let minor := slice str (i + 1) j
    let patch := slice str (j + 1) str.length
    if ¬ didParse (fromChars major) major ∨ ¬ didParse (fromChars minor) minor then
      (false, hasLabel)
    else if (fromChars patch).ec ≠ .none then (false, hasLabel)
    else
      match patch[(fromChars patch).ptr]? with
      | some c => (c = plusChar ∨ c = minusChar, true)
      | none => (true, false)
  | _, _ => (false, hasLabel)

/-- `check_dependency_string`: whether the string is accepted, and `name_length` and `has_label`
afterwards. -/
def checkDependencyString (val : Str) (nameLength : Nat) (hasLabel : Bool) : Bool × Nat × Bool :=
  if val = [] then (false, nameLength, hasLabel)
  else
    match findChar val colonChar 0 with
    | none =>
      if validateModId val then (true, val.length, false) else (false, nameLength, false)
    | some colonPos =>
      if colonPos = 0 then (false, nameLength, hasLabel)
      else
        let version := checkVersionString (slice val (colonPos + 1) val.length) hasLabel
        if validateModId (slice val 0 colonPos) ∧ version.1 then (true, colonPos, version.2)
        else (false, nameLength, version.2)

/-! ## The grammar -/

/-- A number of a version. -/
structure IsNumber (s : Str) : Prop where
  nonempty : s ≠ []
  digits : ∀ c ∈ s, isDecimalDigit c
  fits : decimalValue s < 2 ^ 16

/-- A label: its sign and any text. -/
structure VersionLabel where
  sign : BitVec 8
  body : Str
  isSign : sign = plusChar ∨ sign = minusChar

/-- A version, whose numbers are kept as they are written. -/
structure Version where
  major : Str
  minor : Str
  patch : Str
  label : Option VersionLabel
  isMajor : IsNumber major
  isMinor : IsNumber minor
  isPatch : IsNumber patch

/-- The text of an optional label. -/
def labelText : Option VersionLabel → Str
  | none => []
  | some label => label.sign :: label.body

def Version.text (version : Version) : Str :=
  version.major ++ dotChar ::
    (version.minor ++ dotChar :: (version.patch ++ labelText version.label))

/-- The id of a mod: the id of the mod itself, the id of the recompiled program, or an identifier
as C writes them. -/
inductive IsModId : Str → Prop
  | self : IsModId dependencySelf
  | baseRecomp : IsModId dependencyBaseRecomp
  | identifier (c : BitVec 8) (cs : Str) (head : isAlpha c ∨ c = 0x5F)
      (tail : ∀ d ∈ cs, isAlnum d ∨ d = 0x5F) : IsModId (c :: cs)

/-- A dependency: the id of a mod, and the version asked of it. -/
structure Dependency where
  id : Str
  version : Option Version
  isModId : IsModId id

/-- The text of an optional version behind an id. -/
def versionText : Option Version → Str
  | none => []
  | some version => colonChar :: version.text

def Dependency.text (dependency : Dependency) : Str :=
  dependency.id ++ versionText dependency.version

def Version.hasLabel (version : Version) : Bool := version.label.isSome

def Dependency.hasLabel (dependency : Dependency) : Bool :=
  dependency.version.elim false Version.hasLabel

/-- A scanner that answers a flag and what it has stored recognizes a grammar: the texts of the
grammar are read in one way, they are accepted with what they stand for, and nothing else is. -/
structure Recognizes {α β : Type} (scan : Str → Bool × β) (text : α → Str) (reported : α → β) :
    Prop where
  unique : ∀ x y, text x = text y → x = y
  accepts : ∀ x, scan (text x) = (true, reported x)
  rejects : ∀ s, (∀ x, text x ≠ s) → (scan s).1 = false

/-! ## The primitives -/

section Primitives

variable {c : BitVec 8} {before s rest : Str}

/-- The first occurrence behind a position, where the string is known up to it. -/
theorem findChar_append (before rest : Str) (h : c ∉ s) :
    findChar (before ++ (s ++ c :: rest)) c before.length = some (before.length + s.length) := by
  have hs : s.findIdx? (· = c) = none :=
    List.findIdx?_eq_none_iff.mpr fun d hd => decide_eq_false fun hdc => h (hdc ▸ hd)
  simp [findChar, List.findIdx?_append, List.findIdx?_cons, hs]

theorem exists_append_of_findChar {pos i : Nat} (h : findChar s c pos = some i) :
    ∃ part rest, s.drop pos = part ++ c :: rest ∧ c ∉ part ∧ i = pos + part.length := by
  obtain ⟨n, hn, rfl⟩ := Option.map_eq_some_iff.mp h
  obtain ⟨hlt, hc, hbefore⟩ := List.findIdx?_eq_some_iff_getElem.mp hn
  refine ⟨(s.drop pos).take n, (s.drop pos).drop (n + 1), ?_, ?_, ?_⟩
  · rw [← of_decide_eq_true hc, ← List.drop_eq_getElem_cons hlt, List.take_append_drop]
  · intro hmem
    obtain ⟨j, hj, hget⟩ := List.mem_iff_getElem.mp hmem
    rw [List.length_take, Nat.lt_min] at hj
    exact hbefore j hj.1 (decide_eq_true (by rw [← hget, List.getElem_take]))
  · rw [List.length_take, Nat.min_eq_left (Nat.le_of_lt hlt)]

theorem slice_append (before part rest : Str) :
    slice (before ++ (part ++ rest)) before.length (before.length + part.length) = part := by
  rw [slice, ← List.append_assoc, ← List.length_append, List.take_left', List.drop_left']
  · rfl
  · rfl

theorem slice_append_left (part rest : Str) : slice (part ++ rest) 0 part.length = part := by
  rw [slice, List.take_left', List.drop_zero]
  rfl

theorem slice_append_right (before part : Str) :
    slice (before ++ part) before.length (before ++ part).length = part := by
  rw [slice, List.take_length, List.drop_left']
  rfl

/-- A run of characters ends at the first one of another kind. -/
theorem takeWhile_append_of_head {p : BitVec 8 → Bool} (hs : ∀ d ∈ s, p d)
    (hrest : ∀ d ∈ rest.head?, ¬ p d) : (s ++ rest).takeWhile p = s := by
  rw [List.takeWhile_append_of_pos hs]
  cases rest with
  | nil => simp
  | cons d rest => simp [hrest d rfl]

/-- The first separator splits a string in one way. -/
theorem append_separator_inj {a a' r r' : Str} (ha : c ∉ a) (ha' : c ∉ a')
    (h : a ++ c :: r = a' ++ c :: r') : a = a' ∧ r = r' := by
  have htake : ∀ l t : Str, c ∉ l → (l ++ c :: t).takeWhile (fun d => d ≠ c) = l :=
    fun l t hl => takeWhile_append_of_head (fun d hd => by simpa using ne_of_mem_of_not_mem hd hl)
      (by simp)
  have hfront := congrArg (List.takeWhile fun d => d ≠ c) h
  rw [htake _ _ ha, htake _ _ ha'] at hfront
  subst hfront
  exact ⟨rfl, (List.cons.inj (List.append_cancel_left h)).2⟩

/-- A number in front is read, up to the first character that is no digit. -/
theorem fromChars_number {number : Str} (h : IsNumber number)
    (hrest : ∀ c ∈ rest.head?, ¬ isDecimalDigit c) :
    fromChars (number ++ rest) = ⟨number.length, .none⟩ := by
  simp only [fromChars, takeWhile_append_of_head h.digits hrest]
  rw [if_neg h.nonempty, if_pos h.fits]

/-- What is read without an error is a number. -/
theorem isNumber_of_fromChars (h : (fromChars s).ec = .none) :
    IsNumber (s.takeWhile isDecimalDigit) ∧
      (fromChars s).ptr = (s.takeWhile isDecimalDigit).length := by
  simp only [fromChars] at h ⊢
  split_ifs at h ⊢ with hempty hfits
  exact ⟨⟨hempty, fun c hc => List.mem_takeWhile_imp hc, hfits⟩, rfl⟩

theorem didParse_iff : didParse (fromChars s) s = true ↔ IsNumber s := by
  rw [didParse, decide_eq_true_iff]
  constructor
  · rintro ⟨hec, hptr⟩
    obtain ⟨hnumber, hlen⟩ := isNumber_of_fromChars hec
    have hwhole : s.takeWhile isDecimalDigit = s :=
      (List.takeWhile_prefix _).eq_of_length (hlen.symm.trans hptr)
    rwa [hwhole] at hnumber
  · intro h
    have hread : fromChars (s ++ []) = _ := fromChars_number h (by simp)
    rw [List.append_nil] at hread
    rw [hread]
    exact ⟨rfl, rfl⟩

/-- A number holds no dot, colon or sign. -/
theorem IsNumber.not_mem (h : IsNumber s) (hc : ¬ isDecimalDigit c) : c ∉ s :=
  fun hmem => hc (h.digits c hmem)

end Primitives

/-! ## Versions -/

section Versions

variable {major minor patch : Str} {hasLabel : Bool}

/-- **The scanner on a string with two dots**: its three parts decide. -/
theorem checkVersionString_dots (hmajor : dotChar ∉ major) (hminor : dotChar ∉ minor) :
    checkVersionString (major ++ dotChar :: (minor ++ dotChar :: patch)) hasLabel =
      if ¬ didParse (fromChars major) major ∨ ¬ didParse (fromChars minor) minor then
        (false, hasLabel)
      else if (fromChars patch).ec ≠ .none then (false, hasLabel)
      else
        match patch[(fromChars patch).ptr]? with
        | some c => (c = plusChar ∨ c = minusChar, true)
        | none => (true, false) := by
  have hfirst : findChar (major ++ dotChar :: (minor ++ dotChar :: patch)) dotChar 0 =
      some major.length := by
    simpa using findChar_append [] (minor ++ dotChar :: patch) hmajor
  have hassoc : major ++ dotChar :: (minor ++ dotChar :: patch) =
      (major ++ [dotChar]) ++ (minor ++ dotChar :: patch) := by simp
  have hsecond : findChar (major ++ dotChar :: (minor ++ dotChar :: patch)) dotChar
      (major.length + 1) = some (major.length + 1 + minor.length) := by
    rw [hassoc]
    simpa using findChar_append (major ++ [dotChar]) patch hminor
  have hslice₁ : slice (major ++ dotChar :: (minor ++ dotChar :: patch)) 0 major.length = major :=
    slice_append_left _ _
  have hslice₂ : slice (major ++ dotChar :: (minor ++ dotChar :: patch)) (major.length + 1)
      (major.length + 1 + minor.length) = minor := by
    rw [hassoc]
    simpa using slice_append (major ++ [dotChar]) minor (dotChar :: patch)
  have hslice₃ : slice (major ++ dotChar :: (minor ++ dotChar :: patch))
      (major.length + 1 + minor.length + 1)
      (major ++ dotChar :: (minor ++ dotChar :: patch)).length = patch := by
    have hassoc' : major ++ dotChar :: (minor ++ dotChar :: patch) =
        (major ++ dotChar :: (minor ++ [dotChar])) ++ patch := by simp
    rw [hassoc']
    convert slice_append_right (major ++ dotChar :: (minor ++ [dotChar])) patch using 2
    simp
    omega
  simp only [checkVersionString, hfirst, Option.elim_some, hsecond, hslice₁, hslice₂, hslice₃]

/-- The first character of a label is no digit. -/
theorem labelText_head (label : Option VersionLabel) :
    ∀ c ∈ (labelText label).head?, ¬ isDecimalDigit c := by
  cases label with
  | none => simp [labelText]
  | some label =>
    intro c hc
    obtain rfl : label.sign = c := by simpa [labelText] using hc
    rcases label.isSign with hsign | hsign <;> rw [hsign] <;> decide

theorem labelText_injective {label label' : Option VersionLabel}
    (h : labelText label = labelText label') : label = label' := by
  rcases label with - | ⟨sign, body, hsign⟩ <;> rcases label' with - | ⟨sign', body', hsign'⟩
  · rfl
  · cases h
  · cases h
  · cases h
    rfl

/-- The text of a version is accepted, and its label is reported. -/
theorem checkVersionString_text (version : Version) :
    checkVersionString version.text hasLabel = (true, version.hasLabel) := by
  have hdot : ¬ isDecimalDigit dotChar := by decide
  have hpatch := fromChars_number version.isPatch (labelText_head version.label)
  rw [Version.text, checkVersionString_dots (version.isMajor.not_mem hdot)
    (version.isMinor.not_mem hdot), if_neg, hpatch, if_neg (by simp)]
  · rw [List.getElem?_append_right (Nat.le_refl _), Nat.sub_self]
    cases hlabel : version.label with
    | none => simp [labelText, Version.hasLabel, hlabel]
    | some label =>
      simp only [labelText, List.getElem?_cons_zero, Version.hasLabel, hlabel, Option.isSome_some]
      rw [decide_eq_true label.isSign]
  · rw [didParse_iff.mpr version.isMajor, didParse_iff.mpr version.isMinor]
    simp

/-- What the scanner accepts is the text of a version. -/
theorem exists_version {s : Str} (h : (checkVersionString s hasLabel).1 = true) :
    ∃ version : Version, version.text = s := by
  -- a string without two dots is not accepted
  cases hfirst : findChar s dotChar 0 with
  | none =>
    unfold checkVersionString at h
    rw [hfirst] at h
    exact absurd h (by simp)
  | some i =>
    cases hsecond : findChar s dotChar (i + 1) with
    | none =>
      unfold checkVersionString at h
      rw [hfirst] at h
      dsimp only [Option.elim_some] at h
      rw [hsecond] at h
      exact absurd h (by simp)
    | some j =>
      obtain ⟨major, tail, hs, hmajor, rfl⟩ := exists_append_of_findChar hfirst
      rw [List.drop_zero] at hs
      subst hs
      obtain ⟨minor, patch, htail, hminor, rfl⟩ := exists_append_of_findChar hsecond
      have hdrop : (major ++ dotChar :: tail).drop (0 + major.length + 1) = tail := by
        rw [Nat.zero_add, ← List.drop_drop, List.drop_left']
        · rfl
        · rfl
      rw [hdrop] at htail
      subst htail
      rw [checkVersionString_dots hmajor hminor] at h
      split_ifs at h with hparts hec
      simp only [not_or, Bool.not_eq_true, Bool.not_eq_false] at hparts
      obtain ⟨hnumber, hptr⟩ := isNumber_of_fromChars (not_not.mp hec)
      have hsplit := List.takeWhile_append_dropWhile (p := isDecimalDigit) (l := patch)
      rw [hptr] at h
      have hmajor' := didParse_iff.mp hparts.1
      have hminor' := didParse_iff.mp hparts.2
      cases hrest : patch.dropWhile isDecimalDigit with
      | nil =>
        refine ⟨⟨major, minor, _, none, hmajor', hminor', hnumber⟩, ?_⟩
        rw [Version.text, labelText, ← hrest, hsplit]
      | cons c body =>
        rw [hrest] at hsplit
        have hget : patch[(patch.takeWhile isDecimalDigit).length]? = some c :=
          (congrArg (·[_]?) hsplit.symm).trans (by simp)
        rw [hget] at h
        refine ⟨⟨major, minor, _, some ⟨c, body, of_decide_eq_true h⟩, hmajor', hminor',
          hnumber⟩, ?_⟩
        rw [Version.text, labelText, hsplit]

/-- A text is the text of one version. -/
theorem Version.text_injective {v w : Version} (h : v.text = w.text) : v = w := by
  obtain ⟨major, minor, patch, label, hmajor, hminor, hpatch⟩ := v
  obtain ⟨major', minor', patch', label', hmajor', hminor', hpatch'⟩ := w
  have hdot : ¬ isDecimalDigit dotChar := by decide
  obtain ⟨rfl, htail⟩ := append_separator_inj (hmajor.not_mem hdot) (hmajor'.not_mem hdot) h
  obtain ⟨rfl, hend⟩ := append_separator_inj (hminor.not_mem hdot) (hminor'.not_mem hdot) htail
  -- the digits behind the second dot are the third number
  have hdigits := congrArg (List.takeWhile isDecimalDigit) hend
  rw [takeWhile_append_of_head hpatch.digits (labelText_head label),
    takeWhile_append_of_head hpatch'.digits (labelText_head label')] at hdigits
  subst hdigits
  obtain rfl := labelText_injective (List.append_cancel_left hend)
  rfl

end Versions

/-! ## Dependencies -/

section Dependencies

variable {id val : Str} {nameLength : Nat} {hasLabel : Bool}

theorem validateModId_iff : validateModId id = true ↔ IsModId id := by
  cases id with
  | nil =>
    refine ⟨nofun, fun h => ?_⟩
    generalize hs : ([] : Str) = s at h
    cases h <;> cases hs
  | cons c cs =>
    simp only [validateModId, decide_eq_true_eq, List.all_eq_true]
    constructor
    · rintro ((hself | hbase) | ⟨hhead, htail⟩)
      · exact hself ▸ IsModId.self
      · exact hbase ▸ IsModId.baseRecomp
      · exact IsModId.identifier c cs hhead htail
    · intro h
      generalize hs : c :: cs = s at h
      cases h with
      | self => exact Or.inl (Or.inl rfl)
      | baseRecomp => exact Or.inl (Or.inr rfl)
      | identifier c' cs' hhead htail =>
        cases hs
        exact Or.inr ⟨hhead, htail⟩

theorem IsModId.ne_nil (h : IsModId id) : id ≠ [] := by
  rintro rfl
  exact absurd (validateModId_iff.mpr h) (by decide)

/-- An id keeps clear of the separator. -/
theorem IsModId.not_mem (h : IsModId id) : colonChar ∉ id := by
  have hcolon : ∀ d : BitVec 8, isAlnum d ∨ d = 0x5F → d ≠ colonChar := by decide
  have halpha : ∀ d : BitVec 8, isAlpha d ∨ d = 0x5F → d ≠ colonChar := by decide
  cases h with
  | self => decide
  | baseRecomp => decide
  | identifier c cs hhead htail =>
    intro hmem
    rcases List.mem_cons.mp hmem with hc | hcs
    · exact halpha c hhead hc.symm
    · exact hcolon _ (htail _ hcs) rfl

/-- A text is the text of one dependency. -/
theorem Dependency.text_injective {d e : Dependency} (h : d.text = e.text) : d = e := by
  obtain ⟨id, version, hid⟩ := d
  obtain ⟨id', version', hid'⟩ := e
  cases version with
  | none =>
    cases version' with
    | none =>
      obtain rfl : id = id' := by simpa [Dependency.text, versionText] using h
      rfl
    | some w =>
      have hmem : colonChar ∈ id := by
        rw [show id = id' ++ colonChar :: w.text by
          simpa [Dependency.text, versionText] using h]
        simp
      exact absurd hmem hid.not_mem
  | some v =>
    cases version' with
    | none =>
      have hmem : colonChar ∈ id' := by
        rw [show id' = id ++ colonChar :: v.text by
          simpa [Dependency.text, versionText] using h.symm]
        simp
      exact absurd hmem hid'.not_mem
    | some w =>
      obtain ⟨rfl, htext⟩ := append_separator_inj hid.not_mem hid'.not_mem h
      obtain rfl := Version.text_injective htext
      rfl

theorem checkDependencyString_id (h : colonChar ∉ val) (hne : val ≠ []) :
    checkDependencyString val nameLength hasLabel =
      if validateModId val then (true, val.length, false) else (false, nameLength, false) := by
  have hfind : findChar val colonChar 0 = none := by
    rw [findChar, Option.map_eq_none_iff, List.findIdx?_eq_none_iff]
    exact fun d hd => decide_eq_false fun hdc => h (hdc ▸ hd)
  rw [checkDependencyString, if_neg hne, hfind]

theorem checkDependencyString_colon {rest : Str} (h : colonChar ∉ id) (hne : id ≠ []) :
    checkDependencyString (id ++ colonChar :: rest) nameLength hasLabel =
      if validateModId id ∧ (checkVersionString rest hasLabel).1 then
        (true, id.length, (checkVersionString rest hasLabel).2)
      else (false, nameLength, (checkVersionString rest hasLabel).2) := by
  have hfind : findChar (id ++ colonChar :: rest) colonChar 0 = some id.length := by
    simpa using findChar_append [] rest h
  have hfront : slice (id ++ colonChar :: rest) 0 id.length = id := slice_append_left _ _
  have hback : slice (id ++ colonChar :: rest) (id.length + 1) (id ++ colonChar :: rest).length =
      rest := by
    simpa using slice_append_right (id ++ [colonChar]) rest
  rw [checkDependencyString, if_neg (by simp), hfind]
  dsimp only
  rw [if_neg (mt List.length_eq_zero_iff.mp hne), hfront, hback]

theorem checkDependencyString_text (dependency : Dependency) :
    checkDependencyString dependency.text nameLength hasLabel =
      (true, dependency.id.length, dependency.hasLabel) := by
  obtain ⟨id, version, hid⟩ := dependency
  have hvalid := validateModId_iff.mpr hid
  cases version with
  | none =>
    rw [Dependency.text, versionText, List.append_nil,
      checkDependencyString_id hid.not_mem hid.ne_nil, if_pos hvalid]
    rfl
  | some version =>
    rw [Dependency.text, versionText, checkDependencyString_colon hid.not_mem hid.ne_nil,
      checkVersionString_text, if_pos ⟨hvalid, rfl⟩]
    rfl

theorem exists_dependency (h : (checkDependencyString val nameLength hasLabel).1 = true) :
    ∃ dependency : Dependency, dependency.text = val := by
  have hne : val ≠ [] := by
    rintro rfl
    exact absurd h (by simp [checkDependencyString])
  by_cases hcolon : colonChar ∈ val
  · obtain ⟨id, rest, rfl, hid⟩ := List.eq_append_cons_of_mem hcolon
    by_cases hnil : id = []
    · -- nothing stands before the colon
      subst hnil
      exact absurd h (by simp [checkDependencyString, findChar, List.findIdx?_cons])
    · rw [checkDependencyString_colon hid hnil] at h
      split_ifs at h with hvalid
      obtain ⟨version, rfl⟩ := exists_version hvalid.2
      exact ⟨⟨id, some version, validateModId_iff.mp hvalid.1⟩, rfl⟩
  · rw [checkDependencyString_id hcolon hne] at h
    split_ifs at h with hvalid
    exact ⟨⟨val, none, validateModId_iff.mp hvalid⟩, by simp [Dependency.text, versionText]⟩

/-- **Versions and dependencies are checked by their grammar**: whatever the references hold
before, the two scanners accept the texts of versions and of dependencies and no other string, and
they report the label and the length of the id that the one reading of the text has. -/
theorem version_and_dependency_strings (nameLength : Nat) (hasLabel : Bool) :
    Recognizes (fun str => checkVersionString str hasLabel) Version.text Version.hasLabel ∧
      Recognizes (fun val => checkDependencyString val nameLength hasLabel) Dependency.text
        (fun dependency => (dependency.id.length, dependency.hasLabel)) := by
  constructor
  · refine ⟨fun v w h => Version.text_injective h, checkVersionString_text, fun s hs => ?_⟩
    rw [← Bool.not_eq_true]
    exact fun h => (exists_version h).elim hs
  · refine ⟨fun d e h => Dependency.text_injective h, checkDependencyString_text, fun s hs => ?_⟩
    rw [← Bool.not_eq_true]
    exact fun h => (exists_dependency h).elim hs

end Dependencies

end N64Recomp
