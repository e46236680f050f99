import Rambrain.Lib.Regex

/-!
`regexMatcher`: the headers of configuration blocks.

The name of a block is put into the text of a pattern, where some characters have a meaning. A name
without them is matched literally, and so is one that ends with a backslash: it takes the backslash
of `\]` for itself, and the bracket stands for itself anyway. A name with a dot, as many programs
have it, also matches the headers of others (`matchConfigBlock_literal_iff`).
-/

namespace Rambrain.RegexMatcher

open Lib.Regex

abbrev Line := List Char

/-- `"\\s*\\[" + blockname + "\\]\\s*"` -/
def blockPattern (blockname : Line) : Line := "\\s*\\[".toList ++ blockname ++ "\\]\\s*".toList

/-- `matchConfigBlock`; `none` when it throws. -/
def matchConfigBlock (str blockname : Line) : Option Bool :=
  (compile (blockPattern blockname)).map (regexMatch str)

/-- The line is a header with this name, between white space. -/
def IsHeader (line name : Line) : Prop :=
  ∃ u v, (∀ c ∈ u, isSpace c = true) ∧ (∀ c ∈ v, isSpace c = true) ∧
    line = u ++ '[' :: name ++ ']' :: v

/-- `matchConfigBlock` does not throw, and is true of the headers with this name. -/
def MatchesLiterally (line name : Line) : Prop :=
  ∃ matched, matchConfigBlock line name = some matched ∧ (matched = true ↔ IsHeader line name)

/-- No character of the name has a meaning in a pattern, dots and a last backslash apart. -/
def Dotted (name : Line) : Prop :=
  ∃ stem, (∀ c ∈ stem, c = '.' ∨ c ∉ specialCharacters) ∧
    (name = stem ∨ name = stem ++ ['\\'])

/-! ### The pattern of a name -/

/-- What has been read before the name. -/
def opening : Frame where
  opened := .text
  alternatives := none
  terms := .seq .empty (.times (.set isSpace) 0 none true)
  last := .atom (.set fun x => x = '[')

/-- What is read behind the name. -/
def closing (f : Frame) : Frame where
  opened := f.opened
  alternatives := f.alternatives
  terms := (f.push (.atom (.set fun x => x = ']'))).settle
  last := .repeated (.set isSpace) 0 none

theorem blockPattern_eq (name : Line) :
    blockPattern name = "\\s*\\[".toList ++ (name ++ "\\]\\s*".toList) :=
  List.append_assoc _ _ _

theorem parse_opening (rest : Line) :
    parse 0 ("\\s*\\[".toList ++ rest) ⟨.new .text, [], 0⟩ = parse 0 rest ⟨opening, [], 0⟩ := rfl

theorem parse_closing (f : Frame) :
    parse 0 "\\]\\s*".toList ⟨f, [], 0⟩ = some ⟨closing f, [], 0⟩ := rfl

/-- The last backslash of the name and the one behind it stand for a backslash. -/
theorem parse_closing_backslash (f : Frame) :
    parse 0 ('\\' :: "\\]\\s*".toList) ⟨f, [], 0⟩ =
      some ⟨closing (f.push (.atom (.set fun x => x = '\\'))), [], 0⟩ := rfl

theorem pushAll_alternatives (text : Line) (f : Frame) :
    (f.pushAll text).alternatives = f.alternatives := by
  induction text generalizing f with
  | nil => rfl
  | cons c text ih => exact ih _

theorem compile_dotted {name : Line} (dotted : Dotted name) :
    compile (blockPattern name) = some (closing (opening.pushAll name)).settle := by
  obtain ⟨stem, characters, is⟩ := dotted
  have stemRead : ∀ rest, parse 0 ("\\s*\\[".toList ++ (stem ++ rest)) ⟨.new .text, [], 0⟩ =
      parse 0 rest ⟨opening.pushAll stem, [], 0⟩ := by
    intro rest
    rw [parse_opening, parse_characters stem rest _ characters]
    rfl
  rcases is with rfl | rfl
  · have whole : parse 0 (blockPattern name) ⟨.new .text, [], 0⟩ =
        some ⟨closing (opening.pushAll name), [], 0⟩ := by
      rw [blockPattern_eq, stemRead, parse_closing]
    have one : (closing (opening.pushAll name)).alternatives = none := pushAll_alternatives _ _
    rw [compile, whole]
    exact congrArg some (Frame.close_eq one)
  · have pushed : (opening.pushAll stem).push (.atom (.set fun x => x = '\\')) =
        opening.pushAll (stem ++ ['\\']) := by
      rw [Frame.pushAll, Frame.pushAll, List.foldl_append]
      rfl
    have whole : parse 0 (blockPattern (stem ++ ['\\'])) ⟨.new .text, [], 0⟩ =
        some ⟨closing (opening.pushAll (stem ++ ['\\'])), [], 0⟩ := by
      rw [blockPattern_eq, List.append_assoc, stemRead, List.singleton_append,
        parse_closing_backslash, pushed]
    have one : (closing (opening.pushAll (stem ++ ['\\']))).alternatives = none :=
      pushAll_alternatives _ _
    rw [compile, whole]
    exact congrArg some (Frame.close_eq one)

/-! ### What it matches -/

theorem opening_words (w : Line) :
    w ∈ opening.settle.words ↔ ∃ u, (∀ c ∈ u, isSpace c = true) ∧ w = u ++ ['['] := by
  have words : opening.settle.words =
      1 * (Pattern.times (.set isSpace) 0 none true).words * (Pattern.set fun x => x = '[').words :=
    rfl
  rw [words, one_mul, Language.mem_mul]
  constructor
  · rintro ⟨u, ⟨spaces, _⟩, _, ⟨x, is, rfl⟩, rfl⟩
    rw [decide_eq_true_eq] at is
    exact ⟨u, spaces, by rw [is]⟩
  · rintro ⟨u, spaces, rfl⟩
    exact ⟨u, ⟨spaces, Nat.zero_le _, by simp⟩, ['['], ⟨'[', rfl, rfl⟩, rfl⟩

theorem closing_words (f : Frame) (w : Line) :
    w ∈ (closing f).settle.words ↔
      ∃ u ∈ f.settle.words, ∃ v, (∀ c ∈ v, isSpace c = true) ∧ w = u ++ ']' :: v := by
  have words : (closing f).settle.words = (f.push (.atom (.set fun x => x = ']'))).settle.words *
      (Pattern.times (.set isSpace) 0 none true).words := rfl
  rw [words, Language.mem_mul]
  constructor
  · rintro ⟨_, mem, v, ⟨spaces, _⟩, rfl⟩
    obtain ⟨u, memU, x, is, rfl⟩ := (mem_push_words _ _ _).mp mem
    rw [decide_eq_true_eq] at is
    refine ⟨u, memU, v, spaces, ?_⟩
    rw [is, List.append_assoc, List.singleton_append]
  · rintro ⟨u, memU, v, spaces, rfl⟩
    refine ⟨u ++ [']'], (mem_push_words _ _ _).mpr ⟨u, memU, ']', rfl, rfl⟩, v,
      ⟨spaces, Nat.zero_le _, by simp⟩, ?_⟩
    rw [List.append_assoc, List.singleton_append]

theorem header_regular (name : Line) : (closing (opening.pushAll name)).settle.Regular := by
  have spaces : (Pattern.times (.set isSpace) 0 none true).Regular := fun n mem => by cases mem
  have before : (opening.pushAll name).settle.Regular :=
    pushAll_regular name opening ⟨⟨trivial, spaces⟩, trivial⟩
  exact ⟨⟨before, trivial⟩, spaces⟩

theorem header_words (name w : Line) :
    w ∈ (closing (opening.pushAll name)).settle.words ↔
      ∃ text, Stands text name ∧ IsHeader w text := by
  rw [closing_words]
  constructor
  · rintro ⟨_, mem, v, spaces, rfl⟩
    obtain ⟨_, memU, text, stands, rfl⟩ := (mem_pushAll_words _ _ _).mp mem
    obtain ⟨u, before, rfl⟩ := (opening_words _).mp memU
    exact ⟨text, stands, u, v, before, spaces, by simp⟩
  · rintro ⟨text, stands, u, v, before, spaces, rfl⟩
    have mem := (mem_pushAll_words name opening _).mpr
      ⟨u ++ ['['], (opening_words _).mpr ⟨u, before, rfl⟩, text, stands, rfl⟩
    exact ⟨_, mem, v, spaces, by simp⟩

theorem matchConfigBlock_dotted {name : Line} (dotted : Dotted name) (line : Line) :
    ∃ matched, matchConfigBlock line name = some matched ∧
      (matched = true ↔ ∃ text, Stands text name ∧ IsHeader line text) := by
  refine ⟨regexMatch line (closing (opening.pushAll name)).settle, ?_, ?_⟩
  · rw [matchConfigBlock, compile_dotted dotted, Option.map_some]
  · rw [regexMatch_iff (header_regular name), header_words]

theorem isHeader_tight {line name : Line} (header : IsHeader line name)
    (length : line.length = name.length + 2) : line = '[' :: name ++ [']'] := by
  obtain ⟨u, v, _, _, rfl⟩ := header
  simp only [List.length_append, List.length_cons] at length
  have empty : u = [] := List.eq_nil_of_length_eq_zero (by omega)
  have noneV : v = [] := List.eq_nil_of_length_eq_zero (by omega)
  rw [empty, noneV]
  rfl

/-- Another text that the name stands for: an `a` in the place of the dots. -/
theorem exists_other {name : Line} (dot : '.' ∈ name) : ∃ text, Stands text name ∧ text ≠ name := by
  refine ⟨name.map fun c => if c = '.' then 'a' else c, ?_, ?_⟩
  · rw [Stands, List.forall₂_map_left_iff, List.forall₂_same]
    intro c _
    by_cases is : c = '.'
    · subst is
      decide
    · rw [charSet, if_neg is, if_neg is]
      exact decide_eq_true rfl
  · intro same
    rw [← same] at dot
    obtain ⟨c, _, is⟩ := List.mem_map.mp dot
    split at is
    · cases is
    · next not => exact not is

theorem matchConfigBlock_literal_iff (name : Line) (dotted : Dotted name) :
    (∀ line, MatchesLiterally line name) ↔ '.' ∉ name := by
  constructor
  · intro literal dot
    obtain ⟨text, stands, other⟩ := exists_other dot
    have length : text.length = name.length := List.Forall₂.length_eq stands
    have header : IsHeader ('[' :: text ++ [']']) text := ⟨[], [], by simp, by simp, rfl⟩
    obtain ⟨matched, is, header_iff⟩ := literal ('[' :: text ++ [']'])
    obtain ⟨matched', is', iff'⟩ := matchConfigBlock_dotted dotted ('[' :: text ++ [']'])
    rw [is] at is'
    cases is'
    have tight := isHeader_tight (header_iff.mp (iff'.mpr ⟨text, stands, header⟩))
      (by simp [length])
    simp only [List.cons_append, List.cons.injEq, true_and] at tight
    exact other (List.append_cancel_right tight)
  · intro without line
    obtain ⟨matched, is, header_iff⟩ := matchConfigBlock_dotted dotted line
    refine ⟨matched, is, ?_⟩
    rw [header_iff]
    constructor
    · rintro ⟨text, stands, header⟩
      rwa [(stands_iff_eq without text).mp stands] at header
    · intro header
      exact ⟨name, (stands_iff_eq without name).mpr rfl, header⟩

theorem matchConfigBlock_literal_default :
    (∀ line, MatchesLiterally line "default".toList) ↔ '.' ∉ "default".toList :=
  matchConfigBlock_literal_iff "default".toList
    ⟨"default".toList, by simp [specialCharacters], .inl rfl⟩

/-- The header of another program, and a name that is no pattern. -/
theorem matchConfigBlock_other_program :
    ¬ MatchesLiterally "[aXout]".toList "a.out".toList ∧
      matchConfigBlock "[a(b]".toList "a(b".toList = none := by
  constructor
  · rintro ⟨matched, is, header_iff⟩
    have isMatch : matchConfigBlock "[aXout]".toList "a.out".toList = some true := by decide
    rw [isMatch] at is
    cases is
    have same := isHeader_tight (header_iff.mp rfl) (by decide)
    exact absurd same (by decide)
  · decide

end Rambrain.RegexMatcher
