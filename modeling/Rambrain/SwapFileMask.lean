import Rambrain.RegexMatcher
import Rambrain.Lib.Printf

/-!
The file mask: what `swapfiles` may be, and what `substituteHomeDir` makes of it.

The pattern of `createRegexMatching` is checked before the substitution, and the home directory is
read twice afterwards: by `regex_replace`, where `$` has a meaning, and by `snprintf`, where `%` has
one. `mask_safe_iff` says that these are the characters that matter.
-/

namespace Rambrain.RegexMatcher

open Lib.Regex Lib.Printf

/-! ### `createRegexMatching` -/

/-- The bits of `matchType`. -/
def integer : Nat := 1
def floating : Nat := 2
def units : Nat := 4
def text : Nat := 8
def alphanumtext : Nat := 16
def boolean : Nat := 32
def swapfilename : Nat := 64

/-- `type & flag` -/
def hasType (type flag : Nat) : Bool := type &&& flag ≠ 0

def ant : Line := "[\\/\\.0-9a-zA-Z-_\\\\]".toList

def createRegexMatching (type : Nat) : Line :=
  if hasType type swapfilename then
    "~?".toList ++ ant ++ "+\\%d".toList ++ ant ++ "*\\%d".toList ++ ant ++ "*".toList
  else if hasType type boolean then
    "true|True|TRUE|false|False|FALSE".toList ++
      if hasType type integer then "|\\d+".toList else []
  else
    "[".toList ++ (if hasType type integer ∨ hasType type floating then "0-9".toList else []) ++
      (if hasType type text then "a-zA-Z".toList else []) ++
      (if hasType type alphanumtext then "\\/\\.0-9a-zA-Z-_\\%\\\\".toList else []) ++
      "]+".toList ++
      (if hasType type floating then "\\.?\\d*f?".toList else []) ++
      if hasType type units then "\\s*[a-zA-Z]*".toList else []

/-- The value matches the pattern of the type. -/
def Accepted (type : Nat) (value : Line) : Prop :=
  (compile (createRegexMatching type)).map (regexMatch value) = some true

/-- The characters in the brackets of `ant`. -/
def isAnt (c : Char) : Bool :=
  false || decide (c = '/') || decide (c = '.') || decide (c = '0') ||
    decide ('0' ≤ c ∧ c ≤ '9') || decide (c = 'a') || decide ('a' ≤ c ∧ c ≤ 'z') ||
    decide (c = 'A') || decide ('A' ≤ c ∧ c ≤ 'Z') || decide (c = '-') || decide (c = '_') ||
    decide (c = '\\')

/-- The pattern of a file mask. -/
def maskPattern : Pattern :=
  let tilde := Pattern.times (.set fun c => c = '~') 0 (some 1) true
  let percent := Pattern.set fun c => c = '%'
  let d := Pattern.set fun c => c = 'd'
  let characters := Pattern.times (.set isAnt) 1 none true
  let any := Pattern.times (.set isAnt) 0 none true
  let first := Pattern.seq (.seq (.seq (.seq .empty tilde) characters) percent) d
  .seq (.seq (.seq (.seq first any) percent) d) any

theorem compile_swapfilename : compile (createRegexMatching swapfilename) = some maskPattern :=
  (rfl)

/-- A file mask: a `~` or nothing, and three texts with two `%d` between them. -/
structure Mask where
  tilde : Bool
  pre : Line
  mid : Line
  post : Line
  pre_ne : pre ≠ []
  pre_ant : ∀ c ∈ pre, isAnt c = true
  mid_ant : ∀ c ∈ mid, isAnt c = true
  post_ant : ∀ c ∈ post, isAnt c = true

/-- What is printed with the two numbers in their places. -/
def Mask.fill (mask : Mask) (first second : Line) : Line :=
  mask.pre ++ (first ++ (mask.mid ++ (second ++ mask.post)))

def Mask.value (mask : Mask) : Line :=
  (if mask.tilde then ['~'] else []) ++ mask.fill ['%', 'd'] ['%', 'd']

/-- A pattern with a character behind it. -/
theorem mem_seq_char (a : Pattern) (x : Char) (w : Line) :
    w ∈ (Pattern.seq a (.set fun c => c = x)).words ↔ ∃ v ∈ a.words, w = v ++ [x] := by
  rw [Pattern.words_seq, Language.mem_mul]
  constructor
  · rintro ⟨v, memV, _, ⟨c, is, rfl⟩, rfl⟩
    rw [decide_eq_true_eq] at is
    exact ⟨v, memV, by rw [is]⟩
  · rintro ⟨v, memV, rfl⟩
    exact ⟨v, memV, [x], ⟨x, decide_eq_true rfl, rfl⟩, rfl⟩

/-- A pattern with a repeated set behind it. -/
theorem mem_seq_times (a : Pattern) (p : Char → Bool) (least : Nat) (most : Option Nat)
    (greedy : Bool) (w : Line) :
    w ∈ (Pattern.seq a (.times (.set p) least most greedy)).words ↔
      ∃ v ∈ a.words, ∃ u, (∀ c ∈ u, p c = true) ∧ least ≤ u.length ∧
        (∀ n ∈ most, u.length ≤ n) ∧ w = v ++ u := by
  rw [Pattern.words_seq, Language.mem_mul]
  constructor
  · rintro ⟨v, memV, u, ⟨all, few, many⟩, rfl⟩
    exact ⟨v, memV, u, all, few, many, rfl⟩
  · rintro ⟨v, memV, u, all, few, many, rfl⟩
    exact ⟨v, memV, u, ⟨all, few, many⟩, rfl⟩

theorem maskPattern_regular : maskPattern.Regular := by
  have one : ∀ n ∈ some 1, 0 ≤ n := fun n _ => Nat.zero_le n
  have atLeast : ∀ k, ∀ n ∈ (none : Option Nat), k ≤ n := fun _ n mem => by cases mem
  exact ⟨⟨⟨⟨⟨⟨⟨⟨trivial, one⟩, atLeast 1⟩, trivial⟩, trivial⟩, atLeast 0⟩, trivial⟩, trivial⟩,
    atLeast 0⟩

theorem tilde_iff (w : Line) :
    ((∀ c ∈ w, decide (c = '~') = true) ∧ ∀ n ∈ some 1, w.length ≤ n) ↔
      ∃ tilde : Bool, w = if tilde then ['~'] else [] := by
  constructor
  · rintro ⟨all, short⟩
    have le := short 1 rfl
    match w, all, le with
    | [], _, _ => exact ⟨false, rfl⟩
    | [c], all, _ =>
        have is := of_decide_eq_true (all c List.mem_cons_self)
        exact ⟨true, by rw [is]; rfl⟩
    | _ :: _ :: _, _, le => simp at le
  · rintro ⟨tilde, rfl⟩
    cases tilde <;> simp

theorem accepted_iff (value : Line) :
    Accepted swapfilename value ↔ ∃ mask : Mask, value = mask.value := by
  rw [Accepted, compile_swapfilename, Option.map_some, Option.some_inj,
    regexMatch_iff maskPattern_regular]
  simp only [maskPattern, mem_seq_char, mem_seq_times]
  constructor
  · rintro ⟨_, ⟨_, ⟨_, ⟨_, ⟨_, ⟨_, ⟨_, ⟨w, empty, t, isT, _, shortT, rfl⟩, pre, antPre, somePre, _,
      rfl⟩, rfl⟩, rfl⟩, mid, antMid, _, _, rfl⟩, rfl⟩, rfl⟩, post, antPost, _, _, rfl⟩
    obtain ⟨tilde, rfl⟩ := (tilde_iff t).mp ⟨isT, shortT⟩
    have isEmpty : w = [] := empty
    subst isEmpty
    refine ⟨⟨tilde, pre, mid, post, ?_, antPre, antMid, antPost⟩, ?_⟩
    · rintro rfl
      simp at somePre
    · simp [Mask.value, Mask.fill]
  · rintro ⟨mask, rfl⟩
    obtain ⟨isT, shortT⟩ := (tilde_iff _).mpr ⟨mask.tilde, rfl⟩
    have somePre : 1 ≤ mask.pre.length := List.length_pos_iff.mpr mask.pre_ne
    have free : ∀ u : Line, ∀ n ∈ (none : Option Nat), u.length ≤ n := fun _ n mem => by cases mem
    refine ⟨_, ⟨_, ⟨_, ⟨_, ⟨_, ⟨_, ⟨_, ⟨[], rfl, _, isT, Nat.zero_le _, shortT, rfl⟩, mask.pre,
      mask.pre_ant, somePre, free _, rfl⟩, rfl⟩, rfl⟩, mask.mid, mask.mid_ant, Nat.zero_le _,
      free _, rfl⟩, rfl⟩, rfl⟩, mask.post, mask.post_ant, Nat.zero_le _, free _, ?_⟩
    simp [Mask.value, Mask.fill]

/-! ### `substituteHomeDir` -/

/-- `none` when the pattern throws. -/
def substituteHomeDir (source homedir : Line) : Option Line :=
  (compile "~".toList).map fun rgx => regexReplace source rgx homedir

def tildePattern : Pattern := .seq .empty (.set fun c => c = '~')

theorem compile_tilde : compile "~".toList = some tildePattern := rfl

theorem replaceFrom_other {c : Char} (ne : c ≠ '~') (homedir between before rest : Line) :
    replaceFrom tildePattern homedir 0 between before (c :: rest) =
      replaceFrom tildePattern homedir 0 (between ++ [c]) (c :: before) rest := by
  have empty : tildePattern.run ⟨before, c :: rest, []⟩ = [] := by
    simp [tildePattern, Pattern.run, ne]
  rw [replaceFrom, empty]
  rfl

theorem replaceFrom_text {text : Line} (without : '~' ∉ text) (homedir between before : Line) :
    replaceFrom tildePattern homedir 0 between before text = between ++ text := by
  induction text generalizing between before with
  | nil =>
      rw [List.append_nil]
      rfl
  | cons c rest ih =>
      simp only [List.mem_cons, not_or] at without
      rw [replaceFrom_other (Ne.symm without.1), ih without.2, List.append_assoc,
        List.singleton_append]

theorem regexReplace_tilde {rest : Line} (without : '~' ∉ rest) (homedir : Line) :
    regexReplace ('~' :: rest) tildePattern homedir =
      Match.format ⟨[], ['~'], rest, []⟩ homedir ++ rest := by
  have taken : tildePattern.run ⟨[], '~' :: rest, []⟩ = [⟨['~'], rest, []⟩] := by
    simp [tildePattern, Pattern.run]
  have length : rest.length + 1 - rest.length = 1 := by omega
  have behind := replaceFrom_text without homedir [] ['~']
  rw [List.nil_append] at behind
  rw [regexReplace, replaceFrom, taken]
  simp only [List.head?_cons, length, Nat.one_ne_zero, if_false, Nat.sub_self, behind,
    List.take_succ_cons, List.take_zero, List.nil_append]

/-! ### What the mask is made of -/

theorem isAnt_ne {c d : Char} (ant : isAnt c = true) (not : isAnt d = false) : c ≠ d := by
  rintro rfl
  rw [ant] at not
  cases not

/-- A character that the brackets do not list is not in a text of them. -/
theorem not_mem_ant {text : Line} (all : ∀ c ∈ text, isAnt c = true) {d : Char}
    (not : isAnt d = false) : d ∉ text := fun mem => isAnt_ne (all d mem) not rfl

theorem isAnt_percent : isAnt '%' = false := rfl

theorem isAnt_tilde : isAnt '~' = false := rfl

theorem isAnt_dollar : isAnt '$' = false := rfl

/-- The characters of a mask behind its `~`. -/
theorem mem_fill {mask : Mask} {c : Char} (mem : c ∈ mask.fill ['%', 'd'] ['%', 'd']) :
    isAnt c = true ∨ c = '%' := by
  simp only [Mask.fill, List.mem_append, List.mem_cons, List.not_mem_nil, or_false] at mem
  rcases mem with mem | (rfl | rfl) | mem | (rfl | rfl) | mem
  · exact .inl (mask.pre_ant c mem)
  · exact .inr rfl
  · exact .inl rfl
  · exact .inl (mask.mid_ant c mem)
  · exact .inr rfl
  · exact .inl rfl
  · exact .inl (mask.post_ant c mem)

theorem not_mem_fill (mask : Mask) {d : Char} (not : isAnt d = false) (ne : d ≠ '%') :
    d ∉ mask.fill ['%', 'd'] ['%', 'd'] := by
  intro mem
  rcases mem_fill mem with ant | is
  · exact isAnt_ne ant not rfl
  · exact ne is

theorem tilde_not_mem_fill (mask : Mask) : '~' ∉ mask.fill ['%', 'd'] ['%', 'd'] :=
  not_mem_fill mask isAnt_tilde (by decide)

theorem conversions_fill (mask : Mask) (text : Line) (without : '%' ∉ text) :
    conversions (text ++ mask.fill ['%', 'd'] ['%', 'd']) = [['%', 'd'], ['%', 'd']] := by
  rw [conversions_append without, Mask.fill,
    conversions_append (not_mem_ant mask.pre_ant isAnt_percent)]
  simp only [List.cons_append, List.nil_append, conversions_percent_d]
  rw [conversions_append (not_mem_ant mask.mid_ant isAnt_percent), conversions_percent_d,
    conversions_eq_nil (not_mem_ant mask.post_ant isAnt_percent)]

/-- The mask is the value with the home directory for each `~`, and `snprintf` finds two numbers
to print in it and nothing else. -/
structure Safe (value homedir mask : Line) : Prop where
  verbatim : mask = value.flatMap fun c => if c = '~' then homedir else [c]
  conversions : conversions mask = ["%d".toList, "%d".toList]

theorem flatMap_verbatim {text : Line} (without : '~' ∉ text) (homedir : Line) :
    (text.flatMap fun c => if c = '~' then homedir else [c]) = text := by
  induction text with
  | nil => rfl
  | cons c rest ih =>
      simp only [List.mem_cons, not_or] at without
      rw [List.flatMap_cons, if_neg (Ne.symm without.1), ih without.2, List.singleton_append]

theorem safe_plain (mask : Mask) (homedir : Line) (plain : mask.tilde = false) :
    ∃ text, substituteHomeDir mask.value homedir = some text ∧ Safe mask.value homedir text := by
  have noTilde := tilde_not_mem_fill mask
  have value : mask.value = mask.fill ['%', 'd'] ['%', 'd'] := by
    rw [Mask.value, plain]
    rfl
  refine ⟨mask.value, ?_, ?_, ?_⟩
  · rw [substituteHomeDir, compile_tilde, Option.map_some, value, regexReplace,
      replaceFrom_text noTilde, List.nil_append]
  · rw [value, flatMap_verbatim noTilde]
  · rw [value]
    exact conversions_fill mask [] List.not_mem_nil

theorem safe_home_iff (mask : Mask) (homedir : Line) (tilde : mask.tilde = true) :
    (∃ text, substituteHomeDir mask.value homedir = some text ∧
        Safe mask.value homedir text) ↔
      '%' ∉ homedir ∧ interprets homedir = false := by
  have noTilde := tilde_not_mem_fill mask
  obtain ⟨rest, isRest⟩ : ∃ rest, rest = mask.fill ['%', 'd'] ['%', 'd'] := ⟨_, rfl⟩
  have value : mask.value = '~' :: rest := by
    rw [Mask.value, tilde, isRest]
    rfl
  rw [← isRest] at noTilde
  have calm : Match.Calm ⟨[], ['~'], rest, []⟩ := {
    before := List.not_mem_nil
    text := by
      simp only [List.mem_singleton]
      decide
    behind := by
      rw [isRest]
      exact not_mem_fill mask isAnt_dollar (by decide)
    captures := fun _ mem => by cases mem }
  have replaced : substituteHomeDir mask.value homedir =
      some (Match.format ⟨[], ['~'], rest, []⟩ homedir ++ rest) := by
    rw [substituteHomeDir, compile_tilde, Option.map_some, value,
      regexReplace_tilde noTilde]
  have verbatim : (mask.value.flatMap fun c => if c = '~' then homedir else [c]) =
      homedir ++ rest := by
    rw [value, List.flatMap_cons, if_pos rfl, flatMap_verbatim noTilde]
  constructor
  · rintro ⟨text, is, safe⟩
    rw [replaced] at is
    cases is
    have same := safe.verbatim
    rw [verbatim] at same
    have plain := List.append_cancel_right same
    refine ⟨?_, (calm.format_eq_iff homedir).mp plain⟩
    -- every `%` has its own specification, and the value has two of them already
    have conversions := safe.conversions
    rw [plain] at conversions
    have all := count_conversions (homedir ++ rest)
    have two := count_conversions rest
    have ofRest := conversions_fill mask [] List.not_mem_nil
    rw [List.nil_append, ← isRest] at ofRest
    rw [conversions, List.count_append] at all
    rw [ofRest] at two
    have sums : (["%d".toList, "%d".toList].map fun spec => spec.count '%').sum = 2 := rfl
    have sums' : ([['%', 'd'], ['%', 'd']].map fun spec => List.count '%' spec).sum = 2 := rfl
    rw [sums] at all
    rw [sums'] at two
    exact List.count_eq_zero.mp (by omega)
  · rintro ⟨noPercent, plain⟩
    refine ⟨_, replaced, ?_, ?_⟩
    · rw [verbatim, format_verbatim plain]
    · rw [format_verbatim plain, isRest]
      exact conversions_fill mask homedir noPercent

theorem mask_safe_iff (value homedir : Line) (accepted : Accepted swapfilename value) :
    (∃ mask, substituteHomeDir value homedir = some mask ∧ Safe value homedir mask) ↔
      '~' ∉ value ∨ ('%' ∉ homedir ∧ interprets homedir = false) := by
  obtain ⟨mask, rfl⟩ := (accepted_iff value).mp accepted
  cases tilde : mask.tilde with
  | false =>
      have noTilde := tilde_not_mem_fill mask
      have value : mask.value = mask.fill ['%', 'd'] ['%', 'd'] := by
        rw [Mask.value, tilde]
        rfl
      refine iff_of_true (safe_plain mask homedir tilde) (.inl ?_)
      rw [value]
      exact noTilde
  | true =>
      have first : '~' ∈ mask.value := by
        rw [Mask.value, tilde]
        exact List.mem_cons_self
      rw [safe_home_iff mask homedir tilde]
      constructor
      · exact .inr
      · intro either
        exact either.resolve_left fun not => not first

/-- `~/swap-%d-%d` -/
def homeMask : Mask where
  tilde := true
  pre := "/swap-".toList
  mid := "-".toList
  post := []
  pre_ne := by decide
  pre_ant := by simp [isAnt]
  mid_ant := by simp [isAnt]
  post_ant := by simp

theorem accepted_homeMask : Accepted swapfilename homeMask.value :=
  (accepted_iff homeMask.value).mpr ⟨homeMask, rfl⟩

theorem mask_safe_home :
    ∃ mask, substituteHomeDir homeMask.value "/home/user".toList = some mask ∧
      Safe homeMask.value "/home/user".toList mask :=
  (mask_safe_iff homeMask.value "/home/user".toList accepted_homeMask).mpr
    (.inr ⟨by decide, by decide⟩)

/-- A `%` of the home directory prints what is no argument; a `$` of it changes the path. -/
theorem mask_unsafe_home :
    Accepted swapfilename homeMask.value ∧
      ¬ (∃ mask, substituteHomeDir homeMask.value "/home/a%s".toList = some mask ∧
        Safe homeMask.value "/home/a%s".toList mask) ∧
      ¬ ∃ mask, substituteHomeDir homeMask.value "/home/a$5".toList = some mask ∧
        Safe homeMask.value "/home/a$5".toList mask := by
  refine ⟨accepted_homeMask, ?_, ?_⟩
  · rintro ⟨mask, is, safe⟩
    have becomes : substituteHomeDir homeMask.value "/home/a%s".toList =
        some "/home/a%s/swap-%d-%d".toList := by decide
    rw [becomes] at is
    cases is
    exact absurd safe.conversions (by decide)
  · rintro ⟨mask, is, safe⟩
    have becomes : substituteHomeDir homeMask.value "/home/a$5".toList =
        some "/home/a/swap-%d-%d".toList := by decide
    rw [becomes] at is
    cases is
    exact absurd safe.verbatim (by decide)

end Rambrain.RegexMatcher
